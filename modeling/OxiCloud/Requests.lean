import OxiCloud.FileRepository

/-! # What runs over the blob store

The drain of the deletion queue (`backend_reclaim`), and `Request`: everything that may run beside
everything else. A pool of requests is a server under load; its time passes by `clock` requests. -/

namespace OxiCloud.Requests

open Lib.Programs Schema OxiCloud.Machine BlobHandler FileRepository Prog

variable {H : Type} [DecidableEq H]

/-! ### The drain -/

/-- `MAX_ATTEMPTS`. -/
def maxAttempts : ℕ := 8

/-- `Settled`. -/
inductive Settled where
  | reclaimed
  | cancelled
  | skipped
  | failed (parked : Bool)
  deriving DecidableEq

/-- A transaction dropped without a commit. -/
def abandonDrain (h : H) : Db H Settled := do
  let _ ← issue (.rollbackDeletion h)
  ret .skipped

/-- `settle_one`. `transient` tells what kind of error a failing `delete_blob` returns. -/
def settleOne (transient : Bool) (h : H) : Db H Settled := do
  match ← issue (.claimDeletion h) with
  | none | some none => ret .skipped
  | some (some attempts) =>
    match ← issue (.stillUnreferenced h) with
    | none => abandonDrain h
    | some false =>
      match ← issue (.settleDeletion h) with
      | none => abandonDrain h
      | some _ => ret .cancelled
    | some true =>
      match ← issue (.deleteObject h) with
      | some _ =>
        match ← issue (.settleDeletion h) with
        | none => abandonDrain h
        | some _ => ret .reclaimed
      | none =>
        let attempts := if transient then attempts else attempts + 1
        let park := !transient && maxAttempts ≤ attempts
        match ← issue (.recordAttempt h attempts park) with
        | none => abandonDrain h
        | some _ => ret (if transient then .skipped else .failed park)

/-! ### Requests -/

/-- Everything that issues statements to the blob store. -/
inductive Request (H : Type) where
  | upload (source : Source) (target : Registration H)
  | deltaCommit (maxTotalSize : ℕ) (owned : Bool) (req : DeltaCommit H)
  | storeLoose (frames : Frames)
  | delete (id : FileId)
  | deletePermanently (id : FileId)
  | copy (newFolders : List FolderId) (l : List CopySpec)
  | storeAttached (k : AttachedKey) (source : Source)
  | storeAttachedIfAbsent (k : AttachedKey) (source : Source)
  | storeDerived (k : DerivedKey H) (source : Source)
  | collectGarbage (rounds grace : ℕ)
  | reclaim (transient : Bool) (h : H)
  | rechunk (cut : Bytes → Source) (h : H)
  | clock (secs : ℕ)

/-- `FILE_BODY_LIMIT` of the routes of a delta commit. -/
def fileBodyLimit : ℕ := 10 * 1024 * 1024 * 1024

/-- What the routes let through: a declared chunk takes at least the 64 characters of its hash in the
request body. -/
def Request.Receivable : Request H → Prop
  | .deltaCommit _ _ req => 64 * req.chunks.length ≤ fileBodyLimit
  | _ => True

/-- Run a program and keep whether it succeeded. -/
def succeeds {α : Type} (p : Db H (Except DomainError α)) : Db H Bool := do
  let r ← p
  ret r.toBool

/-- The program of a request; it returns whether the request succeeded. -/
def Request.prog (blake3 : Bytes → H) (fuel : ℕ) : Request H → Db H Bool
  | .upload source target => succeeds (FileRepository.upload blake3 fuel source target)
  | .deltaCommit n owned req => succeeds (commitWithPerms blake3 n fuel owned req)
  | .storeLoose frames => succeeds (storeLooseChunks blake3 frames)
  | .delete id => succeeds (FileRepository.deleteFile id)
  | .deletePermanently id => succeeds (deleteFilePermanently fuel id)
  | .copy newFolders l => succeeds (copyFiles newFolders l)
  | .storeAttached k source => succeeds (storeAttachedBlob blake3 fuel k source)
  | .storeAttachedIfAbsent k source => succeeds (storeAttachedBlobIfAbsent blake3 fuel k source)
  | .storeDerived k source => succeeds (storeDerivedBlob blake3 fuel k source)
  | .collectGarbage rounds grace => succeeds (garbageCollectWithGrace fuel rounds grace)
  | .reclaim transient h => do
    let settled ← settleOne transient h
    ret (settled = .reclaimed)
  | .rechunk cut h => succeeds (rechunkOneLegacyBlob blake3 cut h)
  | .clock secs => do
    let _ ← issue (.tick secs)
    ret true

end OxiCloud.Requests
