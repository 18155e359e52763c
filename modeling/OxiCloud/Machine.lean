import OxiCloud.Lib.Programs
import OxiCloud.Statements

/-! # The machine of the blob store

The statements of `Statements` as the signature `sql H` of programs, and what each of them does under
a choice of the environment: whether it fails, which rows a `LIMIT` picks, in which order rows come
back, which identifier a new row gets. The answer `none` is an error of the statement; a failed
statement has no effect, a failed backend call may have had its full effect (`applied`).

`DELETE FROM storage.pending_actions` waits for a drain that has locked one of the rows: it is the one
statement that can be unable to run. -/

namespace OxiCloud.Machine

open Lib.Programs Lib.Tables Schema

/-- Who issues an idempotent write of a chunk. -/
inductive Writer where
  | ingest
  | loose
  deriving DecidableEq

/-- One file of a copy. -/
structure CopySpec where
  old : FileId
  new : FileId
  folder : FolderId
  name : String
  deriving DecidableEq

/-- The statements. -/
inductive Op (H : Type) where
  | tick (secs : ℕ)
  -- chunk rows
  | pinExisting (hs : List H)
  | pinClaimable (hs : List H)
  | releaseChunks (hs : List H)
  | releaseBatch (batch : List (List H))
  | registerChunks (rows : List (H × ℕ))
  | registerOrphans (rows : List (H × ℕ))
  -- backend objects
  | putUnsynced (w : Writer) (h : H) (data : Bytes)
  | putReplace (h : H) (data : Bytes)
  | syncBlobs (hs : List H)
  | readObject (h : H)
  | deleteObject (h : H)
  -- the deletion queue
  | enqueueDeletion (h : H)
  | cancelDeletions (hs : List H)
  | claimDeletion (h : H)
  | stillUnreferenced (h : H)
  | settleDeletion (h : H)
  | recordAttempt (h : H) (attempts : ℕ) (park : Bool)
  | rollbackDeletion (h : H)
  -- manifests and references
  | insertManifest (h : H) (m : Manifest H)
  | bumpManifest (h : H)
  | bumpBlob (h : H)
  /-- The `SELECT` of `remove_reference`. -/
  | selectManifest (h : H)
  /-- The `SELECT` of the read path. -/
  | loadManifest (h : H)
  | removeManifest (h : H) (chunkHashes : List H)
  | removeLegacy (h : H)
  | cleanupOrphaned (h : H)
  | deleteDerived (h : H)
  | reapManifests
  | reapBlobs (grace : ℕ)
  | rechunk (h : H) (chunkHashes : List H) (chunkSizes : List ℕ)
  -- files
  | selectFileHash (id : FileId)
  | deleteFile (id : FileId)
  | insertFile (folder : FolderId) (name : String) (h : H)
  | fetchIdentical (folder : FolderId) (name : String) (h : H)
  | swapBlobHash (id : FileId) (h : H) (expected : Option H)
  | copyFiles (newFolders : List FolderId) (l : List CopySpec)
  -- derived and attached blobs
  | insertDerived (k : DerivedKey H) (h : H)
  | selectAttached (k : AttachedKey)
  /-- `previous` is the caller's local variable; the statement does not read it. -/
  | upsertAttached (k : AttachedKey) (h : H) (previous : Option H)
  | insertAttached (k : AttachedKey) (h : H)

/-- The answer to a statement, `none` for an error. -/
@[reducible] def Op.Resp {H : Type} : Op H → Type
  | .tick _ | .releaseChunks _ | .releaseBatch _ | .registerChunks _ | .registerOrphans _
  | .putUnsynced .. | .putReplace .. | .syncBlobs _ | .deleteObject _ | .settleDeletion _
  | .enqueueDeletion _ | .recordAttempt .. | .rollbackDeletion _ | .copyFiles ..
  | .upsertAttached .. => Option Unit
  | .pinExisting _ | .pinClaimable _ | .cancelDeletions _ => Option (List H)
  | .reapBlobs _ => Option (List (H × ℕ))
  | .readObject _ => Option Bytes
  | .claimDeletion _ => Option (Option ℕ)
  | .insertManifest .. | .bumpBlob _ | .stillUnreferenced _ | .cleanupOrphaned _ | .deleteFile _
  | .fetchIdentical .. | .insertDerived .. | .insertAttached .. => Option Bool
  | .bumpManifest _ => Option (Option ℕ)
  | .selectManifest _ | .loadManifest _ => Option (Option (Manifest H))
  | .removeManifest .. => Option Store.ManifestRemoval
  | .removeLegacy _ | .rechunk .. => Option (Option Bool)
  | .deleteDerived _ => Option (List (Option H))
  | .reapManifests => Option (List (H × List H × ℕ))
  | .selectFileHash _ | .selectAttached _ => Option (Option H)
  | .insertFile .. => Option Store.InsertOutcome
  | .swapBlobHash .. => Option (Option (H × Bool))

/-- The signature of the statements. -/
abbrev sql (H : Type) : Sig := ⟨Op H, Op.Resp⟩

/-- What the environment settles at a statement. -/
structure Choice (H : Type) where
  fault : Bool := false
  applied : Bool := false
  entitled : List H := []
  pick : List H := []
  order : List (DerivedKey H) := []
  newId : FileId := 0

variable {H : Type}

/-- The statement succeeds, and no choice of rows is offered. -/
def Choice.ok : Choice H := {}

/-- The answer of a database statement. -/
def answer {β : Type} (ch : Choice H) (s : Store H) (x : β × Store H) :
    Option (Option β × Store H) :=
  if ch.fault then some (none, s) else some (some x.1, x.2)

/-- The answer of a backend call: a failed call may have taken effect. -/
def backendAnswer (ch : Choice H) (s s' : Store H) : Option (Option Unit × Store H) :=
  if ch.fault then some (none, if ch.applied then s' else s) else some (some (), s')

variable {ch : Choice H} {s s' : Store H}

variable {β : Type} {x : β × Store H} {r : Option β}

theorem answer_cases (h : answer ch s x = some (r, s')) :
    (ch.fault = true ∧ r = none ∧ s' = s) ∨ (r = some x.1 ∧ s' = x.2) := by
  unfold answer at h
  split_ifs at h with hf
  · cases h; exact .inl ⟨hf, rfl, rfl⟩
  · cases h; exact .inr ⟨rfl, rfl⟩

@[elab_as_elim]
theorem answer_elim {P : Option β → Store H → Prop} (h : answer ch s x = some (r, s'))
    (hnone : P none s) (hsome : P (some x.1) x.2) : P r s' := by
  rcases answer_cases h with ⟨-, rfl, rfl⟩ | ⟨rfl, rfl⟩
  · exact hnone
  · exact hsome

theorem answer_ok (hf : ch.fault = false) (h : answer ch s x = some (r, s')) : r = some x.1 ∧ s' = x.2 := by
  rcases answer_cases h with ⟨hfault, -, -⟩ | h
  · rw [hf] at hfault
    cases hfault
  · exact h

theorem backendAnswer_cases {s₁ : Store H} {r : Option Unit}
    (h : backendAnswer ch s s₁ = some (r, s')) : s' = s ∨ s' = s₁ := by
  unfold backendAnswer at h
  split_ifs at h <;> cases h <;> simp

variable [DecidableEq H]

/-- A copy is possible: the new identifiers are new and distinct, the sources are live files. -/
def CopyOk (s : Store H) (l : List CopySpec) : Prop :=
  (l.map CopySpec.new).Nodup ∧
    ∀ c ∈ l, (s.files.get c.new).isNone ∧ (s.files.get c.old).any fun r => !r.isTrashed

instance (s : Store H) (l : List CopySpec) : Decidable (CopyOk s l) := by
  unfold CopyOk; infer_instance

/-- The copy transaction. -/
def copyFiles (s : Store H) (newFolders : List FolderId) (l : List CopySpec) : Store H :=
  l.foldl (fun s c => s.copyOne c.old c.new c.folder c.name)
    { s with folders := s.folders ∪ newFolders.toFinset }

/-- **The meaning of the statements.** -/
def exec : (op : Op H) → Choice H → Store H → Option (op.Resp × Store H)
  | .tick secs, _, s => some (some (), { s with now := s.now + secs })
  | .pinExisting hs, ch, s => answer ch s (s.pinExisting hs)
  | .pinClaimable hs, ch, s => answer ch s (s.pinClaimable hs ch.entitled)
  | .releaseChunks hs, ch, s => answer ch s ((), s.releaseChunks hs)
  | .releaseBatch batch, ch, s => answer ch s ((), s.releaseBatch batch)
  | .registerChunks rows, ch, s => answer ch s ((), s.registerChunks rows)
  | .registerOrphans rows, ch, s => answer ch s ((), s.registerOrphans rows)
  | .putUnsynced _ h data, ch, s => backendAnswer ch s (s.putUnsynced h data)
  | .putReplace h data, ch, s => backendAnswer ch s (s.putReplace h data)
  | .syncBlobs _, ch, s => backendAnswer ch s s
  | .readObject h, ch, s => if ch.fault then some (none, s) else some (s.objects.get h, s)
  | .deleteObject h, ch, s => backendAnswer ch s (s.deleteObject h)
  | .enqueueDeletion h, ch, s => answer ch s ((), s.enqueueDeletions [h])
  | .cancelDeletions hs, ch, s =>
    if ∃ h ∈ hs, (s.pendingActions.get h).any PendingAction.locked then none
    else answer ch s (s.cancelDeletions hs)
  | .claimDeletion h, ch, s => answer ch s (s.claimDeletion h)
  | .stillUnreferenced h, ch, s => answer ch s (s.stillUnreferenced h, s)
  | .settleDeletion h, ch, s => answer ch s ((), s.settleDeletion h)
  | .recordAttempt h attempts park, ch, s =>
    answer ch s ((), s.releaseDeletion h (some (attempts, park)))
  | .rollbackDeletion h, _, s => some (some (), s.releaseDeletion h none)
  | .insertManifest h m, ch, s => answer ch s (s.insertManifest h m)
  | .bumpManifest h, ch, s => answer ch s (s.bumpManifest h)
  | .bumpBlob h, ch, s => answer ch s (s.bumpBlob h)
  | .selectManifest h, ch, s => answer ch s (s.chunkManifests.get h, s)
  | .loadManifest h, ch, s => answer ch s (s.chunkManifests.get h, s)
  | .removeManifest h chunkHashes, ch, s => answer ch s (s.removeManifest h chunkHashes)
  | .removeLegacy h, ch, s => answer ch s (s.removeLegacy h)
  | .cleanupOrphaned h, ch, s => answer ch s (s.cleanupOrphaned h)
  | .deleteDerived h, ch, s =>
    if s.DerivedOrder h ch.order then answer ch s (s.deleteDerived h ch.order) else none
  | .reapManifests, ch, s =>
    if Store.Batch s.chunkManifests.keys (fun h => s.references h = 0) gcBatchSize ch.pick then
      answer ch s (s.reapManifests ch.pick) else none
  | .reapBlobs grace, ch, s =>
    if Store.Batch s.blobs.keys (s.Reapable grace) gcBatchSize ch.pick then
      answer ch s (s.reapBlobs ch.pick) else none
  | .rechunk h chunkHashes chunkSizes, ch, s => answer ch s (s.rechunk h chunkHashes chunkSizes)
  | .selectFileHash id, ch, s => answer ch s ((s.files.get id).map FileRow.blobHash, s)
  | .deleteFile id, ch, s => answer ch s (s.deleteFile id)
  | .insertFile folder name h, ch, s =>
    if (s.files.get ch.newId).isSome then none else answer ch s (s.insertFile folder name h ch.newId)
  | .fetchIdentical folder name h, ch, s =>
    answer ch s (s.files.count (fun _ r =>
      r.folderId = folder && r.name = name && r.blobHash = h && !r.isTrashed) ≠ 0, s)
  | .swapBlobHash id h expected, ch, s => answer ch s (s.swapBlobHash id h expected)
  | .copyFiles newFolders l, ch, s =>
    if CopyOk s l then answer ch s ((), copyFiles s newFolders l) else some (none, s)
  | .insertDerived k h, ch, s => answer ch s (s.insertDerived k h)
  | .selectAttached k, ch, s => answer ch s (s.fileAttachedBlobs.get k, s)
  -- the foreign key on `storage.files` fails the statement for a missing file
  | .upsertAttached k h _, ch, s =>
    if (s.files.get k.fileId).isSome then answer ch s ((), s.upsertAttached k h) else some (none, s)
  | .insertAttached k h, ch, s =>
    if (s.files.get k.fileId).isSome then answer ch s (s.insertAttached k h) else some (none, s)

/-- What a statement needs to take effect: the picks of the environment fit, the rows it refers to are there. -/
def Op.Enabled (ch : Choice H) (s : Store H) : Op H → Prop
  | .cancelDeletions hs => ¬ ∃ h ∈ hs, (s.pendingActions.get h).any PendingAction.locked
  | .deleteDerived h => s.DerivedOrder h ch.order
  | .reapManifests => Store.Batch s.chunkManifests.keys (fun h => s.references h = 0) gcBatchSize ch.pick
  | .reapBlobs grace => Store.Batch s.blobs.keys (s.Reapable grace) gcBatchSize ch.pick
  | .insertFile .. => ¬ (s.files.get ch.newId).isSome
  | .copyFiles _ l => CopyOk s l
  | .upsertAttached k _ _ | .insertAttached k _ => (s.files.get k.fileId).isSome
  | _ => True

/-- The store after a statement that has taken effect. -/
def Op.effect (ch : Choice H) (s : Store H) : Op H → Store H
  | .tick secs => { s with now := s.now + secs }
  | .pinExisting hs => (s.pinExisting hs).2
  | .pinClaimable hs => (s.pinClaimable hs ch.entitled).2
  | .releaseChunks hs => s.releaseChunks hs
  | .releaseBatch batch => s.releaseBatch batch
  | .registerChunks rows => s.registerChunks rows
  | .registerOrphans rows => s.registerOrphans rows
  | .putUnsynced _ h data => s.putUnsynced h data
  | .putReplace h data => s.putReplace h data
  | .deleteObject h => s.deleteObject h
  | .enqueueDeletion h => s.enqueueDeletions [h]
  | .cancelDeletions hs => (s.cancelDeletions hs).2
  | .claimDeletion h => (s.claimDeletion h).2
  | .settleDeletion h => s.settleDeletion h
  | .recordAttempt h attempts park => s.releaseDeletion h (some (attempts, park))
  | .rollbackDeletion h => s.releaseDeletion h none
  | .insertManifest h m => (s.insertManifest h m).2
  | .bumpManifest h => (s.bumpManifest h).2
  | .bumpBlob h => (s.bumpBlob h).2
  | .removeManifest h chunkHashes => (s.removeManifest h chunkHashes).2
  | .removeLegacy h => (s.removeLegacy h).2
  | .cleanupOrphaned h => (s.cleanupOrphaned h).2
  | .deleteDerived h => (s.deleteDerived h ch.order).2
  | .reapManifests => (s.reapManifests ch.pick).2
  | .reapBlobs _ => (s.reapBlobs ch.pick).2
  | .rechunk h chunkHashes chunkSizes => (s.rechunk h chunkHashes chunkSizes).2
  | .deleteFile id => (s.deleteFile id).2
  | .insertFile folder name h => (s.insertFile folder name h ch.newId).2
  | .swapBlobHash id h expected => (s.swapBlobHash id h expected).2
  | .copyFiles newFolders l => Machine.copyFiles s newFolders l
  | .insertDerived k h => (s.insertDerived k h).2
  | .upsertAttached k h _ => s.upsertAttached k h
  | .insertAttached k h => (s.insertAttached k h).2
  | .syncBlobs _ | .readObject _ | .stillUnreferenced _ | .selectManifest _ | .loadManifest _ | .selectFileHash _
  | .fetchIdentical .. | .selectAttached _ => s

variable {op : Op H}

/-- **A statement takes effect or leaves the store alone.** -/
theorem exec_store {r : op.Resp} (he : exec op ch s = some (r, s')) :
    s' = s ∨ op.Enabled ch s ∧ s' = op.effect ch s := by
  have hanswer : ∀ {β : Type} {x : β × Store H} {r : Option β}, answer ch s x = some (r, s') → s' = s ∨ s' = x.2 :=
    fun h => (answer_cases h).imp (fun h => h.2.2) fun h => h.2
  cases op
  case tick | rollbackDeletion => cases he; exact .inr ⟨trivial, rfl⟩
  case putUnsynced | putReplace | syncBlobs | deleteObject => exact (backendAnswer_cases he).imp_right (⟨trivial, ·⟩)
  case readObject =>
    simp only [exec] at he
    split_ifs at he <;> cases he <;> exact .inl rfl
  case cancelDeletions | deleteDerived | reapManifests | reapBlobs | insertFile =>
    simp only [exec] at he
    split_ifs at he with h
    exact (hanswer he).imp_right (⟨h, ·⟩)
  case copyFiles | upsertAttached | insertAttached =>
    simp only [exec] at he
    split_ifs at he with h
    · exact (hanswer he).imp_right (⟨h, ·⟩)
    · cases he
      exact .inl rfl
  all_goals exact (hanswer he).imp_right (⟨trivial, ·⟩)

/-- The store `s` with the tables a statement may write taken from `t`. -/
def Op.frame (s t : Store H) : Op H → Store H
  | .tick _ => { s with now := t.now }
  | .pinExisting _ | .pinClaimable _ | .releaseChunks _ | .releaseBatch _ | .registerChunks _ | .registerOrphans _
  | .bumpBlob _ => { s with blobs := t.blobs }
  | .putUnsynced .. | .putReplace .. | .deleteObject _ => { s with objects := t.objects }
  | .enqueueDeletion _ | .cancelDeletions _ | .claimDeletion _ | .settleDeletion _ | .recordAttempt ..
  | .rollbackDeletion _ => { s with pendingActions := t.pendingActions }
  | .removeLegacy _ | .cleanupOrphaned _ | .reapBlobs _ =>
    { s with blobs := t.blobs, pendingActions := t.pendingActions }
  | .insertManifest .. | .bumpManifest _ | .reapManifests => { s with chunkManifests := t.chunkManifests }
  | .removeManifest .. | .rechunk .. => { s with chunkManifests := t.chunkManifests, blobs := t.blobs }
  | .deleteDerived _ | .insertDerived .. => { s with contentDerivedBlobs := t.contentDerivedBlobs }
  | .insertFile .. | .swapBlobHash .. => { s with files := t.files }
  | .upsertAttached .. | .insertAttached .. => { s with fileAttachedBlobs := t.fileAttachedBlobs }
  | .deleteFile _ | .copyFiles .. =>
    { s with
      folders := t.folders, files := t.files, fileAttachedBlobs := t.fileAttachedBlobs
      chunkManifests := t.chunkManifests, blobs := t.blobs }
  | .syncBlobs _ | .readObject _ | .stillUnreferenced _ | .selectManifest _ | .loadManifest _ | .selectFileHash _
  | .fetchIdentical .. | .selectAttached _ => s

theorem copyList_frame : ∀ (l : List CopySpec) (s : Store H), ∃ files attached manifests blobs,
    l.foldl (fun s c => s.copyOne c.old c.new c.folder c.name) s =
      { s with
        files := files, fileAttachedBlobs := attached, chunkManifests := manifests, blobs := blobs }
  | [], s => ⟨_, _, _, _, rfl⟩
  | c :: l, s => by
    obtain ⟨f, a, m, b, h⟩ := copyList_frame l (s.copyOne c.old c.new c.folder c.name)
    rw [List.foldl_cons, h]
    unfold Store.copyOne
    cases s.files.get c.old <;> exact ⟨f, a, m, b, rfl⟩

/-- **A statement writes no other tables.** -/
theorem effect_frame (ch : Choice H) (s : Store H) (op : Op H) :
    op.effect ch s = op.frame s (op.effect ch s) := by
  cases op
  case copyFiles fs l =>
    obtain ⟨f, a, m, b, h⟩ := copyList_frame l { s with folders := s.folders ∪ fs.toFinset }
    rw [Op.effect, copyFiles, h]
    rfl
  -- in each branch a statement writes the listed tables, or nothing
  all_goals
    dsimp only [Op.effect, Op.frame, Store.putUnsynced, Store.claimDeletion, Store.insertManifest, Store.bumpManifest,
      Store.bumpBlob, Store.removeManifest, Store.removeLegacy, Store.cleanupOrphaned, Store.rechunk,
      Store.deleteFile, Store.insertFile, Store.swapBlobHash, Store.insertDerived, Store.insertAttached]
    repeat' split
    all_goals rfl

theorem exec_frame {r : op.Resp} (he : exec op ch s = some (r, s')) :
    ∃ t, s' = s ∨ s' = op.frame s t :=
  ⟨_, (exec_store he).imp_right fun h => h.2.trans (effect_frame ch s op)⟩

/-- The stores agree on the manifests and on the rows that name contents. -/
structure SameNames (s s' : Store H) : Prop where
  files : s'.files = s.files
  manifests : s'.chunkManifests = s.chunkManifests
  derived : s'.contentDerivedBlobs = s.contentDerivedBlobs
  attached : s'.fileAttachedBlobs = s.fileAttachedBlobs

/-- The stores agree on the tables the reference accounting reads. -/
structure SameRows (s s' : Store H) : Prop extends SameNames s s' where
  blobs : s'.blobs = s.blobs

/-- The statements that only read, or only touch objects, the clock and the deletion queue. -/
def Op.Quiet : Op H → Prop
  | .tick _ | .putUnsynced .. | .putReplace .. | .syncBlobs _ | .readObject _ | .deleteObject _
  | .enqueueDeletion _ | .cancelDeletions _ | .claimDeletion _ | .stillUnreferenced _
  | .settleDeletion _ | .recordAttempt .. | .rollbackDeletion _ | .loadManifest _
  | .selectFileHash _ | .fetchIdentical .. | .selectAttached _ => True
  | _ => False

theorem quiet_exec (hq : op.Quiet) {r : op.Resp} (he : exec op ch s = some (r, s')) : SameRows s s' := by
  obtain ⟨t, rfl | rfl⟩ := exec_frame he
  · exact ⟨⟨rfl, rfl, rfl, rfl⟩, rfl⟩
  · cases op <;> first | exact ⟨⟨rfl, rfl, rfl, rfl⟩, rfl⟩ | exact hq.elim

/-- The machine of the blob store. -/
abbrev machine (H : Type) [DecidableEq H] : Machine (sql H) (Store H) := ⟨Choice H, exec⟩

/-- Which program moves next, under which choice. -/
abbrev Schedule (H : Type) := List (ℕ × Choice H)

/-- A program over the statements of the blob store. -/
abbrev Db (H : Type) (α : Type) := Prog (sql H) α

/-- One statement as a program. -/
abbrev issue (op : Op H) : Db H op.Resp := Prog.stmt (E := sql H) op

end OxiCloud.Machine
