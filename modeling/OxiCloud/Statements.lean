import OxiCloud.Schema

/-! # The statements of the blob store

The effect of every SQL statement (or single transaction) and of every backend call the blob handler,
the file repository and the reclaim job issue, as a function on the store. A statement that returns
something gives it as the first component.

Counters are natural numbers: every decrement of the code is `GREATEST(ref_count - n, 0)`, which is
truncated subtraction. `releaseBy` is the one shape of chunk dereference (`UPDATE storage.blobs SET
ref_count = GREATEST(..), orphaned_at = CASE ..`), used for a list of hashes (`releaseChunks`), for the
aggregated batch of the garbage collector (`releaseBatch`) and by the file-delete trigger. -/

namespace OxiCloud.Schema

open Lib.Tables

/-- `GC_ORPHAN_GRACE_SECS`. -/
def gcOrphanGraceSecs : ℕ := 3600

/-- The batch size of `garbage_collect_with_grace`. -/
def gcBatchSize : ℕ := 500

/-! ### Changes of one row -/

/-- `SET ref_count = ref_count + n, orphaned_at = NULL`. -/
def BlobRow.pin (n : ℕ) (b : BlobRow) : BlobRow :=
  { b with refCount := b.refCount + n, orphanedAt := none }

/-- `SET ref_count = GREATEST(ref_count - n, 0)`, stamping the row when it reaches zero. -/
def BlobRow.release (now n : ℕ) (b : BlobRow) : BlobRow :=
  { b with
    refCount := b.refCount - n
    orphanedAt := if b.refCount - n = 0 then some now else b.orphanedAt }

namespace Store

variable {H : Type} [DecidableEq H]

/-! ### Chunk rows -/

/-- `UPDATE storage.blobs SET ref_count = ref_count + 1, orphaned_at = NULL WHERE hash = ANY(hs)
RETURNING hash` (`settle_batch`). -/
def pinExisting (s : Store H) (hs : List H) : List H × Store H :=
  (hs.filter fun h => (s.blobs.get h).isSome,
    { s with blobs := s.blobs.modify fun h b => if h ∈ hs then b.pin 1 else b })

/-- The row condition of `pin_claimable_chunks`: unreferenced, or in the caller's writable scope. The
scope depends on role grants and is given as the list `entitled`. -/
def claimable (hs entitled : List H) (h : H) (b : BlobRow) : Bool :=
  h ∈ hs && (b.refCount = 0 || h ∈ entitled)

/-- The `UPDATE … RETURNING` of `pin_claimable_chunks`; `orphaned_at` is left alone. -/
def pinClaimable (s : Store H) (hs entitled : List H) : List H × Store H :=
  (hs.filter fun h => (s.blobs.get h).any (claimable hs entitled h),
    { s with blobs := s.blobs.modify fun h b =>
        if claimable hs entitled h b then { b with refCount := b.refCount + 1 } else b })

/-- Drop `d h` references from the row of every `h` with `d h ≠ 0`. -/
def releaseBy (s : Store H) (d : H → ℕ) : Store H :=
  { s with blobs := s.blobs.modify fun h b => if d h = 0 then b else b.release s.now (d h) }

/-- One reference of every listed hash (`release_chunk_refs`, `run_rollback`). -/
def releaseChunks (s : Store H) (hs : List H) : Store H :=
  s.releaseBy fun h => if h ∈ hs then 1 else 0

/-- One reference per manifest of a reaped batch that contains the chunk. -/
def releaseBatch (s : Store H) (batch : List (List H)) : Store H :=
  s.releaseBy fun h => batch.countP fun chunks => h ∈ chunks

/-- `INSERT INTO storage.blobs (hash, size, ref_count) … ON CONFLICT (hash) DO UPDATE SET ref_count =
ref_count + 1, orphaned_at = NULL`. -/
def registerChunks (s : Store H) (rows : List (H × ℕ)) : Store H :=
  { s with blobs := s.blobs.upsert rows (fun size => ⟨size, 1, none⟩) (BlobRow.pin 1) }

/-- `INSERT INTO storage.blobs (hash, size, ref_count, orphaned_at) SELECT h, s, 0, now() … ON CONFLICT
(hash) DO NOTHING`. -/
def registerOrphans (s : Store H) (rows : List (H × ℕ)) : Store H :=
  { s with blobs := s.blobs.upsert rows (fun size => ⟨size, 0, some s.now⟩) id }

/-! ### Backend objects and the deletion queue -/

/-- `put_blob_from_bytes_unsynced`: an object that exists is left as it is. -/
def putUnsynced (s : Store H) (h : H) (data : Bytes) : Store H :=
  match s.objects.get h with
  | some _ => s
  | none => { s with objects := s.objects.set h data }

/-- `put_blob_from_bytes_replace`. -/
def putReplace (s : Store H) (h : H) (data : Bytes) : Store H :=
  { s with objects := s.objects.set h data }

/-- `delete_blob`; an absent object is success. -/
def deleteObject (s : Store H) (h : H) : Store H := { s with objects := s.objects.erase h }

/-- `INSERT INTO storage.pending_actions … ON CONFLICT (hash, action) DO NOTHING`. -/
def enqueueDeletions (s : Store H) (hs : List H) : Store H :=
  { s with pendingActions :=
      s.pendingActions.upsert (hs.map fun h => (h, ())) (fun _ => ⟨0, false, false⟩) id }

/-- `DELETE FROM storage.pending_actions WHERE hash = ANY(hs) … RETURNING hash`. -/
def cancelDeletions (s : Store H) (hs : List H) : List H × Store H :=
  (hs.filter fun h => (s.pendingActions.get h).isSome,
    { s with pendingActions := s.pendingActions.filter fun h _ => h ∉ hs })

/-- A drain's `SELECT attempts … FOR UPDATE SKIP LOCKED`. -/
def claimDeletion (s : Store H) (h : H) : Option ℕ × Store H :=
  match s.pendingActions.get h with
  | some p =>
    if p.locked then (none, s)
    else (some p.attempts,
      { s with pendingActions := s.pendingActions.set h { p with locked := true } })
  | none => (none, s)

/-- A drain's re-verification: no blob row, and no manifest lists the hash. -/
def stillUnreferenced (s : Store H) (h : H) : Bool :=
  (s.blobs.get h).isNone && s.containing h = 0

/-- The end of a drain's transaction that deletes the queue row. -/
def settleDeletion (s : Store H) (h : H) : Store H :=
  { s with pendingActions := s.pendingActions.erase h }

/-- The row after a drain's transaction that keeps it: the attempt recorded, or the row unchanged if
the transaction was rolled back; the lock is gone. -/
def keepPending (attempt : Option (ℕ × Bool)) (p : PendingAction) : PendingAction :=
  match attempt with
  | some (attempts, park) => ⟨attempts, park || p.parked, false⟩
  | none => { p with locked := false }

/-- The end of a drain's transaction that keeps the queue row. -/
def releaseDeletion (s : Store H) (h : H) (attempt : Option (ℕ × Bool)) : Store H :=
  { s with pendingActions :=
      s.pendingActions.modify fun h' p => if h' = h then keepPending attempt p else p }

/-! ### Manifests and their references -/

/-- `INSERT INTO storage.chunk_manifests … ON CONFLICT (file_hash) DO NOTHING`; whether a row was
inserted. -/
def insertManifest (s : Store H) (h : H) (m : Manifest H) : Bool × Store H :=
  match s.chunkManifests.get h with
  | some _ => (false, s)
  | none => (true, { s with chunkManifests := s.chunkManifests.set h m })

/-- `UPDATE storage.chunk_manifests SET ref_count = ref_count + 1 WHERE file_hash = h RETURNING
total_size`. -/
def bumpManifest (s : Store H) (h : H) : Option ℕ × Store H :=
  match s.chunkManifests.get h with
  | some m => (some m.totalSize,
      { s with chunkManifests := s.chunkManifests.set h { m with refCount := m.refCount + 1 } })
  | none => (none, s)

/-- `UPDATE storage.blobs SET ref_count = ref_count + 1, orphaned_at = NULL WHERE hash = h`; whether a
row was updated. -/
def bumpBlob (s : Store H) (h : H) : Bool × Store H :=
  match s.blobs.get h with
  | some b => (true, { s with blobs := s.blobs.set h (b.pin 1) })
  | none => (false, s)

/-- What the transaction of `remove_manifest_reference` found. -/
inductive ManifestRemoval where
  | gone
  | decremented
  | removed
  deriving DecidableEq

/-- The transaction of `remove_manifest_reference`. The chunk list is the one its caller read before
the transaction. -/
def removeManifest (s : Store H) (h : H) (chunkHashes : List H) : ManifestRemoval × Store H :=
  match s.chunkManifests.get h with
  | none => (.gone, s)
  | some m =>
    if m.refCount ≤ 1 then
      (.removed, releaseChunks { s with chunkManifests := s.chunkManifests.erase h } chunkHashes)
    else
      (.decremented,
        { s with chunkManifests := s.chunkManifests.set h { m with refCount := m.refCount - 1 } })

/-- The transaction of `remove_legacy_reference`: `none` without a row, otherwise whether the row was
deleted. -/
def removeLegacy (s : Store H) (h : H) : Option Bool × Store H :=
  match s.blobs.get h with
  | none => (none, s)
  | some b =>
    if b.refCount - 1 = 0 then
      (some true, enqueueDeletions { s with blobs := s.blobs.erase h } [h])
    else
      (some false, { s with blobs := s.blobs.set h { b with refCount := b.refCount - 1 } })

/-- The statement of `cleanup_if_orphaned`; whether the row was deleted. -/
def cleanupOrphaned (s : Store H) (h : H) : Bool × Store H :=
  match s.blobs.get h with
  | none => (false, s)
  | some b =>
    if b.refCount = 0 ∧ s.containing h = 0 then
      (true, enqueueDeletions { s with blobs := s.blobs.erase h } [h])
    else (false, s)

/-- `DELETE FROM storage.content_derived_blobs WHERE source_hash = h RETURNING blob_hash`, the rows in
the order `keys`. -/
def deleteDerived (s : Store H) (h : H) (keys : List (DerivedKey H)) : List (Option H) × Store H :=
  (keys.map fun k => (s.contentDerivedBlobs.get k).join,
    { s with contentDerivedBlobs := s.contentDerivedBlobs.filter fun k _ => k.sourceHash ≠ h })

/-- `keys` lists the rows derived from `h`, each once. -/
def DerivedOrder (s : Store H) (h : H) (keys : List (DerivedKey H)) : Prop :=
  keys.Nodup ∧ keys.toFinset = s.contentDerivedBlobs.sat fun k _ => k.sourceHash = h

instance (s : Store H) (h : H) (keys : List (DerivedKey H)) : Decidable (s.DerivedOrder h keys) := by
  unfold DerivedOrder; infer_instance

/-! ### Garbage collection -/

/-- `pick` is what a `SELECT … WHERE eligible LIMIT limit` over the keys `ks` may return. -/
def Batch (ks : Finset H) (eligible : H → Prop) (limit : ℕ) (pick : List H) : Prop :=
  pick.Nodup ∧ (∀ h ∈ pick, h ∈ ks ∧ eligible h) ∧ pick.length ≤ limit ∧
    (pick.length < limit → ∀ h ∈ ks, eligible h → h ∈ pick)

instance (ks : Finset H) (eligible : H → Prop) [DecidablePred eligible] (limit : ℕ)
    (pick : List H) : Decidable (Batch ks eligible limit pick) := by
  unfold Batch; infer_instance

/-- `manifest_reap_sql`: delete the picked manifests, returning their hash, chunk list and size. A
manifest may be picked if no registered source references it; neither `ref_count` nor an age is
looked at. -/
def reapManifests (s : Store H) (pick : List H) : List (H × List H × ℕ) × Store H :=
  (pick.filterMap fun h => (s.chunkManifests.get h).map fun m => (h, m.chunkHashes, m.totalSize),
    { s with chunkManifests := s.chunkManifests.filter fun h _ => h ∉ pick })

/-- The row condition of `blob_reap_sql`. -/
def Reapable (s : Store H) (grace : ℕ) (h : H) : Prop :=
  ∃ b, s.blobs.get h = some b ∧ b.refCount = 0 ∧ (∀ o, b.orphanedAt = some o → o + grace < s.now) ∧
    s.containing h = 0 ∧ s.filesNaming h = 0

instance (s : Store H) (grace : ℕ) : DecidablePred (s.Reapable grace) := fun h =>
  match hb : s.blobs.get h with
  | none => .isFalse (by rintro ⟨b, h1, -⟩; rw [hb] at h1; cases h1)
  | some b => decidable_of_iff (b.refCount = 0 ∧ (b.orphanedAt.all fun o => o + grace < s.now) ∧
      s.containing h = 0 ∧ s.filesNaming h = 0) (by
        unfold Reapable
        cases ho : b.orphanedAt <;> simp [hb, ho])

/-- `blob_reap_sql`: delete the picked rows, returning hash and size, and queue their deletion. -/
def reapBlobs (s : Store H) (pick : List H) : List (H × ℕ) × Store H :=
  (pick.filterMap fun h => (s.blobs.get h).map fun b => (h, b.size),
    enqueueDeletions { s with blobs := s.blobs.filter fun h _ => h ∉ pick } pick)

/-! ### File rows -/

/-- The trigger `storage.decrement_blob_ref`, fired for `n h` deleted rows naming `h`: the manifest's
counter, or the blob row's if there is no manifest. -/
def decrementBlobRef (s : Store H) (n : H → ℕ) : Store H :=
  { s with chunkManifests :=
      s.chunkManifests.modify fun h m => { m with refCount := m.refCount - n h } }.releaseBy
    fun h => if (s.chunkManifests.get h).isSome then 0 else n h

/-- `DELETE FROM storage.files WHERE id = id`, with the cascade to `file_attached_blobs` and the
triggers of both tables; whether there was a row. -/
def deleteFile (s : Store H) (id : FileId) : Bool × Store H :=
  match s.files.get id with
  | none => (false, s)
  | some r =>
    (true, { s with
        files := s.files.erase id
        fileAttachedBlobs := s.fileAttachedBlobs.filter fun k _ => k.fileId ≠ id }.decrementBlobRef
      fun h => (if r.blobHash = h then 1 else 0) +
        s.fileAttachedBlobs.count fun k r => k.fileId = id && r = h)

/-- The outcome of the `INSERT INTO storage.files` of `save_file_with_blob_impl`. -/
inductive InsertOutcome where
  | inserted (id : FileId)
  | noParent
  | conflict
  deriving DecidableEq

/-- Another live file has this name in this folder (the partial unique index, error `23505`). -/
def nameTaken (s : Store H) (folder : FolderId) (name : String) : Bool :=
  s.files.count (fun _ r => r.folderId = folder && r.name = name && !r.isTrashed) ≠ 0

/-- `INSERT INTO storage.files … SELECT … FROM parent`, with the new identifier `id`. -/
def insertFile (s : Store H) (folder : FolderId) (name : String) (h : H) (id : FileId) :
    InsertOutcome × Store H :=
  if folder ∉ s.folders then (.noParent, s)
  else if s.nameTaken folder name then (.conflict, s)
  else (.inserted id, { s with files := s.files.set id ⟨folder, name, h, false⟩ })

/-- The statement of `swap_blob_hash`: the row's old hash and whether the comparison with `expected`
let the update take effect; `none` without a row. -/
def swapBlobHash (s : Store H) (id : FileId) (h : H) (expected : Option H) :
    Option (H × Bool) × Store H :=
  match s.files.get id with
  | none => (none, s)
  | some r =>
    if expected.all fun e => r.blobHash = e then
      (some (r.blobHash, true), { s with files := s.files.set id { r with blobHash := h } })
    else (some (r.blobHash, false), s)

/-- `storage.add_blob_references` for `n h` rows naming `h`: manifest first, the blob row only without
a manifest. -/
def addBlobReferences (s : Store H) (n : H → ℕ) : Store H :=
  { s with
    chunkManifests := s.chunkManifests.modify fun h m => { m with refCount := m.refCount + n h }
    blobs := s.blobs.modify fun h b =>
      if n h = 0 ∨ (s.chunkManifests.get h).isSome then b else b.pin (n h) }

/-- The attached rows of `old`, once more under the file identifier `new`. -/
def copyRows (t : Table AttachedKey H) (old new : FileId) : Table AttachedKey H :=
  .ofKeys (t.keys ∪ t.keys.image fun k => { k with fileId := new }) fun k =>
    t.get (if k.fileId = new then { k with fileId := old } else k)

/-- The rows `storage.copy_file_satellites` inserts into `file_attached_blobs` for a copied file. -/
def copyAttached (s : Store H) (old new : FileId) : Store H :=
  { s with fileAttachedBlobs := copyRows s.fileAttachedBlobs old new }

/-- One file of a copy: the new row (never trashed), its reference, the attached rows and theirs. -/
def copyOne (s : Store H) (old new : FileId) (folder : FolderId) (name : String) : Store H :=
  match s.files.get old with
  | none => s
  | some r =>
    let s₁ := { s with files := s.files.set new ⟨folder, name, r.blobHash, false⟩ }.addBlobReferences
      fun h => if r.blobHash = h then 1 else 0
    (s₁.copyAttached old new).addBlobReferences fun h =>
      s.fileAttachedBlobs.count fun k r => k.fileId = old && r = h

/-! ### Derived and attached blobs -/

/-- The `INSERT … WHERE EXISTS (source) ON CONFLICT DO NOTHING` of `store_derived_blob`; whether a row
was inserted. -/
def insertDerived (s : Store H) (k : DerivedKey H) (h : H) : Bool × Store H :=
  if ((s.chunkManifests.get k.sourceHash).isSome || (s.blobs.get k.sourceHash).isSome) &&
      (s.contentDerivedBlobs.get k).isNone then
    (true, { s with contentDerivedBlobs := s.contentDerivedBlobs.set k (some h) })
  else (false, s)

/-- The upsert of `store_attached_blob`. -/
def upsertAttached (s : Store H) (k : AttachedKey) (h : H) : Store H :=
  { s with fileAttachedBlobs := s.fileAttachedBlobs.set k h }

/-- The `INSERT … ON CONFLICT DO NOTHING` of `store_attached_blob_if_absent`; whether a row was
inserted. -/
def insertAttached (s : Store H) (k : AttachedKey) (h : H) : Bool × Store H :=
  match s.fileAttachedBlobs.get k with
  | some _ => (false, s)
  | none => (true, { s with fileAttachedBlobs := s.fileAttachedBlobs.set k h })

/-! ### Legacy re-chunking -/

/-- The accounting transaction of `rechunk_one_legacy_blob`: `none` if a manifest for the hash exists,
otherwise whether the blob row was deleted. -/
def rechunk (s : Store H) (h : H) (chunkHashes : List H) (chunkSizes : List ℕ) :
    Option Bool × Store H :=
  match s.chunkManifests.get h with
  | some _ => (none, s)
  | none =>
    let refs := s.filesNaming h
    let s₁ := { s with chunkManifests :=
      s.chunkManifests.set h ⟨chunkHashes, chunkSizes, chunkSizes.sum, refs⟩ }
    match s.blobs.get h with
    | none => (some false, s₁)
    | some b =>
      if b.refCount - refs = 0 then (some true, { s₁ with blobs := s₁.blobs.erase h })
      else (some false,
        { s₁ with blobs := s₁.blobs.set h { b with refCount := b.refCount - refs } })

end Store

end OxiCloud.Schema
