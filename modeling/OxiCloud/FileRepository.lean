import OxiCloud.BlobHandler

/-! # The file repository and the delta commit

`FileBlobWriteRepository` consumes the blob reference its caller took at the ingest: the file row holds
it, or it is released before the error is returned. (A row whose name turns out to be invalid stays,
and an error is returned all the same.) The uploads of the
service layer are an ingest (streamed, or pinned chunk by chunk in a delta commit) followed by a
registration of the row. -/

namespace OxiCloud.FileRepository

open Lib.Programs Schema OxiCloud.Machine BlobHandler Prog

variable {H : Type} [DecidableEq H]

/-- `validate_storage_name`. -/
def validateStorageName (name : String) : Except String Unit :=
  if name.isEmpty then .error "name cannot be empty"
  else if '/' ∈ name.toList ∨ '\\' ∈ name.toList then .error "name must not contain '/' or '\\'"
  else if '\x00' ∈ name.toList then .error "name must not contain null bytes"
  else if name = "." ∨ name = ".." then .error "'.' and '..' are not valid names"
  else .ok ()

/-- `row_to_file` of a row with this name, whose other columns are in `a`. -/
def rowToFile {α : Type} (name : String) (a : α) : Except DomainError α :=
  match validateStorageName name with
  | .ok _ => .ok a
  | .error _ => .error (internalError "FileBlobWrite")

/-- Release the caller's reference, then fail. -/
def releaseAndFail {α : Type} (fuel : ℕ) (h : H) (e : DomainError) : Db H (Except DomainError α) := do
  let _ ← removeReference fuel h
  ret (.error e)

/-- `save_file_with_blob_impl`. `none` is success with an existing identical file. The name is checked
only when the entity is built, after the row has been inserted. -/
def saveFileWithBlob (fuel : ℕ) (folder : Option FolderId) (name : String) (h : H) :
    Db H (Except DomainError (Option FileId)) :=
  match folder with
  | none => releaseAndFail fuel h validationError
  | some fid => do
    match ← issue (.insertFile fid name h) with
    | some (.inserted id) => ret (rowToFile name (some id))
    | some .noParent => releaseAndFail fuel h (notFound "Folder")
    | none => releaseAndFail fuel h (internalError "FileBlobWrite")
    | some .conflict =>
      let _ ← removeReference fuel h
      match ← issue (.fetchIdentical fid name h) with
      | some true => ret ((rowToFile name none).mapError fun _ => alreadyExists "File")
      | _ => ret (.error (alreadyExists "File"))

/-- `swap_blob_hash` (and `update_file_content_with_blob`): the one release after a successful swap is
unconditional. -/
def swapBlobHash (fuel : ℕ) (id : FileId) (h : H) (expected : Option H) :
    Db H (Except DomainError Unit) := do
  match ← issue (.swapBlobHash id h expected) with
  | some (some (old, true)) =>
    let _ ← removeReference fuel old
    ret (.ok ())
  | some (some (_, false)) => releaseAndFail fuel h (preconditionFailed "File")
  | some none => releaseAndFail fuel h (notFound "File")
  | none => releaseAndFail fuel h (internalError "FileBlobWrite")

/-- `delete_file`. -/
def deleteFile (id : FileId) : Db H (Except DomainError Unit) := do
  match ← issue (.deleteFile id) with
  | none => ret (.error (internalError "FileBlobWrite"))
  | some false => ret (.error (notFound "File"))
  | some true => ret (.ok ())

/-- `delete_file_permanently`. -/
def deleteFilePermanently (fuel : ℕ) (id : FileId) : Db H (Except DomainError Unit) := do
  match ← issue (.selectFileHash id) with
  | none => ret (.error (internalError "FileBlobWrite"))
  | some hash =>
    match ← deleteFile id with
    | .error e => ret (.error e)
    | .ok _ =>
      match hash with
      | some h =>
        cleanupIfOrphaned fuel h
        ret (.ok ())
      | none => ret (.ok ())

/-- `copy_file` and `copy_folder_tree`: one transaction. -/
def copyFiles (newFolders : List FolderId) (l : List CopySpec) : Db H (Except DomainError Unit) := do
  match ← issue (.copyFiles newFolders l) with
  | none => ret (.error (internalError "FileBlobWrite"))
  | some _ => ret (.ok ())

/-! ### Uploads -/

/-- What happens to the reference of an ingested blob: a new row, a new content for a row, a release by
the handler, or nothing (the service returned an error before it reached the repository). -/
inductive Registration (H : Type) where
  | create (folder : Option FolderId) (name : String)
  | update (id : FileId) (expected : Option H)
  | discard
  | abandon

/-- Register an ingested blob; whether a row now holds its reference or an identical file exists. -/
def register (fuel : ℕ) (h : H) : Registration H → Db H (Except DomainError Unit)
  | .create folder name => do
    match ← saveFileWithBlob fuel folder name h with
    | .error e => ret (.error e)
    | .ok _ => ret (.ok ())
  | .update id expected => swapBlobHash fuel id h expected
  | .discard => releaseAndFail fuel h (internalError "Upload")
  | .abandon => ret (.error (internalError "Upload"))

/-- A streamed upload. -/
def upload (blake3 : Bytes → H) (fuel : ℕ) (source : Source) (target : Registration H) :
    Db H (Except DomainError Unit) := do
  match ← storeFromStream blake3 source with
  | .error e => ret (.error e)
  | .ok stored => register fuel stored.hash target

/-- `u64::MAX`, where the sums of `validate_chunk_list` saturate. -/
def u64Max : ℕ := 2 ^ 64 - 1

/-- `CDC_MIN_CHUNK`. -/
def cdcMinChunk : ℕ := 65536

/-- `max_chunk_count`. -/
def maxChunkCount (maxTotalSize : ℕ) : ℕ := max 1024 (min u64Max (maxTotalSize / cdcMinChunk * 2))

/-- `validate_chunk_list` on the sizes (the format of a hash is its type): the declared total. -/
def validateChunkList (maxTotalSize : ℕ) (chunks : List (H × ℕ)) : Except DomainError ℕ :=
  if maxChunkCount maxTotalSize < chunks.length then .error validationError
  else if ∃ c ∈ chunks, c.2 = 0 ∨ cdcMaxChunk < c.2 then .error validationError
  else
    let total := chunks.foldl (fun t c => min u64Max (t + c.2)) 0
    if maxTotalSize < total then .error validationError else .ok total

/-- The fields of a delta commit the blob store sees. -/
structure DeltaCommit (H : Type) where
  fileHash : H
  chunks : List (H × ℕ)
  target : Registration H

/-- `DeltaCommitOutcome`. -/
inductive DeltaOutcome (H : Type) where
  | done
  | stillMissing (hs : List H)

/-- The verify, attach and register steps of `commit_with_perms`, with the chunks `held` pinned. -/
def commitPinned (blake3 : Bytes → H) (fuel total : ℕ) (req : DeltaCommit H) (held : List H) :
    Db H (Except DomainError (DeltaOutcome H)) := do
  match ← hashChunkSequence blake3 req.chunks [] with
  | .error e =>
    releaseChunkRefs held
    ret (.error e)
  | .ok computed =>
    if computed ≠ req.fileHash then
      releaseChunkRefs held
      ret (.error validationError)
    else
      match ← attachManifest req.fileHash (req.chunks.map Prod.fst) (req.chunks.map Prod.snd) total
        held with
      | .error e => ret (.error e)
      | .ok _ =>
        match ← register fuel req.fileHash req.target with
        | .error e => ret (.error e)
        | .ok _ => ret (.ok .done)

/-- The pin step of `commit_with_perms` and what follows. -/
def commitChunks (blake3 : Bytes → H) (fuel total : ℕ) (req : DeltaCommit H) :
    Db H (Except DomainError (DeltaOutcome H)) := do
  let distinct := (req.chunks.map Prod.fst).dedup
  match ← (if distinct.isEmpty then ret (some []) else issue (.pinClaimable distinct)) with
  | none => ret (.error (internalError "Dedup"))
  | some pinned =>
    if pinned.length ≠ distinct.length then
      releaseChunkRefs pinned
      ret (.ok (.stillMissing (distinct.filter (· ∉ pinned))))
    else commitPinned blake3 fuel total req distinct

/-- `commit_with_perms` after its authorization and quota checks, which touch no blob state. `owned` is
the answer of `user_owns_blob_reference` and `get_blob_metadata`. -/
def commitWithPerms (blake3 : Bytes → H) (maxTotalSize fuel : ℕ) (owned : Bool)
    (req : DeltaCommit H) : Db H (Except DomainError (DeltaOutcome H)) :=
  match validateChunkList maxTotalSize req.chunks with
  | .error e => ret (.error e)
  | .ok total =>
    if owned then do
      match ← addReference req.fileHash with
      | .error e => ret (.error e)
      | .ok _ =>
        match ← register fuel req.fileHash req.target with
        | .error e => ret (.error e)
        | .ok _ => ret (.ok .done)
    else commitChunks blake3 fuel total req

end OxiCloud.FileRepository
