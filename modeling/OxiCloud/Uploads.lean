import OxiCloud.Counters
import OxiCloud.Effects
import OxiCloud.Footprint

/-! # Failed uploads

`update_file_streaming_with_perms` and the three request handlers that ingest a body and then call it:
the WebDAV `PUT` and `PATCH`, and the assembly of a chunked NextCloud upload. The ingest takes one
reference on the content. Who gives it back when the call fails depends on where it fails: the
repository releases it, the service does not, and of the handlers only the assembly does.

`failed_upload_refs` says when a failed request leaves the counter of the content's manifest as it was.
The answers of the authorization engine and of the lookups are arbitrary. -/

namespace OxiCloud.Uploads

open Lib.Tables Lib.Programs Schema OxiCloud.Machine BlobHandler FileRepository Effects Footprint
open Prog

variable {H : Type} [DecidableEq H]

/-! ### The upload service -/

/-- The permissions the service asks for. -/
inductive Permission where
  | update
  | create
  deriving DecidableEq

/-- What it asks them on. -/
inductive Resource where
  | file (id : FileId)
  | folder (id : FolderId)
  | drive
  deriving DecidableEq

/-- An identifier as a repository returns it; `none` does not parse as a UUID. -/
abbrev RawId := Option ℕ

/-- The lookups of the file read repository. -/
structure FileRead where
  findFileByPath : String → Except DomainError (Option RawId)
  getParentFolderId : String → Except DomainError RawId

/-- `FileUploadService`, its optional ports answering for one caller and one drive. -/
structure UploadService where
  authorization : Option (Permission → Resource → Except DomainError Unit)
  fileRead : Option FileRead

/-- `Uuid::parse_str` on an identifier from the repository. -/
def parseUuid (raw : RawId) : Except DomainError ℕ :=
  match raw with
  | some id => .ok id
  | none => .error (internalError "FileUpload")

/-- The path without leading and trailing slashes. -/
def normalized (path : String) : String :=
  String.ofList ((path.toList.dropWhile (· = '/')).reverse.dropWhile (· = '/')).reverse

/-- What follows the last slash of a normalized path. -/
def filename (path : String) : String :=
  String.ofList ((normalized path).toList.reverse.takeWhile (· ≠ '/')).reverse

/-- The repository call a request is admitted to. -/
inductive Admission where
  | overwrite (id : FileId)
  | create (parent : Option FolderId)
  deriving DecidableEq

/-- `update_file_streaming_with_perms` up to its repository call. A parent that cannot be looked up is
no parent. -/
def UploadService.admission (svc : UploadService) (path : String) : Except DomainError Admission :=
  match svc.authorization with
  | none => .error (internalError "FileUpload")
  | some require => do
    match ← svc.fileRead.elim (.ok none) fun r => r.findFileByPath path with
    | some raw =>
      let id ← parseUuid raw
      require .update (.file id)
      .ok (.overwrite id)
    | none =>
      let parent := if '/' ∈ (normalized path).toList then
        svc.fileRead.bind fun r => (r.getParentFolderId (normalized path)).toOption else none
      match parent with
      | some raw =>
        let id ← parseUuid raw
        require .create (.folder id)
        .ok (.create (some id))
      | none =>
        require .create .drive
        .ok (.create none)

/-- `update_file_streaming_with_perms` for an ingested blob. -/
def updateFileStreamingWithPerms (fuel : ℕ) (svc : UploadService) (path : String) (h : H)
    (expected : Option H) : Db H (Except DomainError Unit) :=
  match svc.admission path with
  | .error e => ret (.error e)
  | .ok (.overwrite id) => swapBlobHash fuel id h expected
  | .ok (.create parent) => do
    match ← saveFileWithBlob fuel parent (filename path) h with
    | .error e => ret (.error e)
    | .ok _ => ret (.ok ())

/-! ### The handlers -/

/-- `check_storage_quota`, if the storage usage service is wired. -/
abbrev Quota := Option (ℕ → Except DomainError Unit)

/-- The quota check fails. -/
def Quota.refuses (quota : Quota) (size : ℕ) : Bool := quota.any fun check => !(check size).toBool

/-- The quota check of a handler and its call of the service: the rest of `handle_put`, and
`cas_write_patch`. -/
def storeChecked (fuel : ℕ) (svc : UploadService) (quota : Quota) (path : String)
    (stored : DedupResult H) (expected : Option H) : Db H (Except DomainError Unit) :=
  if quota.refuses stored.size then releaseAndFail fuel stored.hash ⟨.quotaExceeded, "Storage"⟩
  else updateFileStreamingWithPerms fuel svc path stored.hash expected

/-- The surfaces that call the service. `bodyLen` is what the body of a `PATCH` turned out to have,
`expectedBodyLen` the length of the range it names. -/
inductive Surface (H : Type) where
  | put (quota : Quota)
  | patch (quota : Quota) (bodyLen : ℕ) (expectedBodyLen : Option ℕ) (expectedHash : H)
  | assemble

/-- What the handlers do once the body is ingested. -/
def Surface.finish (fuel : ℕ) (svc : UploadService) (path : String) (stored : DedupResult H) :
    Surface H → Db H (Except DomainError Unit)
  | .put quota => storeChecked fuel svc quota path stored none
  | .patch quota bodyLen expectedBodyLen expectedHash =>
    if expectedBodyLen.any (· ≠ bodyLen) then releaseAndFail fuel stored.hash validationError
    else storeChecked fuel svc quota path stored (some expectedHash)
  | .assemble => do
    match ← updateFileStreamingWithPerms fuel svc path stored.hash none with
    | .ok _ => ret (.ok ())
    | .error e => releaseAndFail fuel stored.hash e

/-- `handle_put`, `handle_patch` and `handle_assemble`. -/
def Surface.handle (blake3 : Bytes → H) (fuel : ℕ) (svc : UploadService) (path : String)
    (source : Source) (surface : Surface H) : Db H (Except DomainError Unit) := do
  match ← storeFromStream blake3 source with
  | .error e => ret (.error e)
  | .ok stored => surface.finish fuel svc path stored

/-! ### What the parts do to the counter -/

/-- The statements of a release work. -/
def ReleasesWork (op : Op H) (ch : Choice H) (_ : Store H) : Prop :=
  match op with
  | .selectManifest _ | .removeManifest .. | .removeLegacy _ => ch.fault = false
  | _ => True

instance (op : Op H) (ch : Choice H) (s : Store H) : Decidable (ReleasesWork op ch s) := by
  apply Op.casesOn (motive := fun op => Decidable (ReleasesWork op ch s)) op
  all_goals intros; dsimp only [ReleasesWork]; infer_instance

variable {s s' : Store H} {tr : List (Op H)} {h : H} {fuel : ℕ}

variable {α : Type}

theorem manifests_run {p : Db H α} {a : α} (hp : p.Only fun op : Op H => ¬ op.TouchesManifests)
    (hr : Run (machine H) ReleasesWork p s tr a s') : s'.chunkManifests = s.chunkManifests := by
  refine hr.of_only (I := fun s₁ => s₁.chunkManifests = s.chunkManifests) hp ?_ rfl
  intro op hop ch s₁ r s₂ he hs
  rw [chunkManifests_exec hop he, hs]

theorem absent_run {p : Db H α} {a : α} (hp : KeepsBooks p)
    (hr : Run (machine H) ReleasesWork p s tr a s') (hm : s.chunkManifests.get h = none) :
    s'.chunkManifests.get h = none := by
  refine hr.of_only (I := fun s₁ => s₁.chunkManifests.get h = none) hp ?_ hm
  intro op hop ch s₁ r s₂ he hs
  rcases manifest_exec he with hk | ⟨_, _, rfl, -, -⟩ | ⟨_, _, _, rfl, -, -⟩
  · by_contra hne
    obtain ⟨m', hm'⟩ := Option.ne_none_iff_exists'.mp hne
    obtain ⟨m, hm, -⟩ := hk h m' hm'
    rw [hs] at hm
    cases hm
  · exact absurd hop id
  · exact absurd hop id

omit [DecidableEq H] in
theorem releaseChunkRefs_manifests (hs : List H) :
    (releaseChunkRefs hs).Only fun op : Op H => ¬ op.TouchesManifests :=
  releaseChunkRefs_stmt id

/-- **A release** takes one from the counter. -/
theorem removeReference_refs {r : Except DomainError Bool}
    (hr : Run (machine H) ReleasesWork (removeReference (fuel + 1) h) s tr r s') :
    s'.manifestRefs h = s.manifestRefs h - 1 := by
  have habsent : ∀ {α : Type} {p : Db H α} {a : α} {s₁ : Store H} {tr : List (Op H)}, KeepsBooks p →
      Run (machine H) ReleasesWork p s₁ tr a s' → s₁.chunkManifests.get h = none →
      s'.manifestRefs h = 0 :=
    fun hp hr hm => Store.manifestRefs_of_none (absent_run hp hr hm)
  have hpurge : KeepsBooks (purgeDerivedBlobs (removeReference fuel) h >>= fun _ =>
      ret (Except.ok true : Except DomainError Bool)) := (purge_only fuel h).bind fun _ => only_ret _
  obtain ⟨ch, r₁, s₁, tr₁, hg, he, -, hr₁⟩ := run_stmt.mp hr
  obtain ⟨rfl, rfl⟩ := answer_ok hg he
  cases hm : s₁.chunkManifests.get h with
  | none =>
    rw [Store.manifestRefs_of_none hm]
    rw [hm] at hr₁
    obtain ⟨ch, r₂, s₂, tr₂, hg, he, -, hr₂⟩ := run_stmt.mp hr₁
    have hm₂ : s₂.chunkManifests.get h = none := by
      rw [chunkManifests_exec (show ¬ (Op.removeLegacy h).TouchesManifests from id) he, hm]
    rcases r₂ with _ | _ | _ | _
    · exact habsent (only_ret _) hr₂ hm₂
    · exact habsent (only_ret _) hr₂ hm₂
    · exact habsent (only_ret _) hr₂ hm₂
    · exact habsent hpurge hr₂ hm₂
  | some m =>
    rw [hm] at hr₁
    obtain ⟨ch, r₂, s₂, tr₂, hg, he, -, hr₂⟩ := run_stmt.mp hr₁
    obtain ⟨rfl, rfl⟩ := answer_ok hg he
    have hrefs := s₁.manifestRefs_removeManifest h m.chunkHashes h
    rw [if_pos rfl] at hrefs
    rw [← hrefs]
    cases ho : (s₁.removeManifest h m.chunkHashes).1 with
    | removed =>
      rw [ho] at hr₂
      have hgone : (s₁.removeManifest h m.chunkHashes).2.chunkManifests.get h = none := by
        unfold Store.removeManifest at ho ⊢
        by_cases h1 : m.refCount ≤ 1
        · simp [hm, h1, Store.releaseChunks, Store.releaseBy]
        · simp [hm, h1] at ho
      rw [habsent hpurge hr₂ hgone, Store.manifestRefs_of_none hgone]
    | decremented | gone =>
      rw [ho] at hr₂
      obtain ⟨-, -, rfl⟩ := run_ret.mp hr₂
      rfl

variable {stored : DedupResult H}

/-- `attach_manifest` fails at one of its two statements, with no effect; or it creates the manifest, or it
bumps the one there is and releases the chunk references. -/
theorem attachManifest_cases {guard : (op : Op H) → Choice H → Store H → Prop} {cs held : List H} {sizes : List ℕ} {total : ℕ}
    {r : Except DomainError (DedupResult H)}
    (hr : Run (machine H) guard (attachManifest h cs sizes total held) s tr r s') :
    (∃ e, r = .error e ∧ s' = s ∧ (tr.getLast? = some (.insertManifest h ⟨cs, sizes, total, 1⟩) ∨
      tr.getLast? = some (.bumpManifest h))) ∨
    (∃ d, r = .ok d ∧ d.hash = h ∧ s.chunkManifests.get h = none ∧
      s' = { s with chunkManifests := s.chunkManifests.set h ⟨cs, sizes, total, 1⟩ }) ∨
    ∃ d m tr₁ u, r = .ok d ∧ d.hash = h ∧ s.chunkManifests.get h = some m ∧
      Run (machine H) guard (releaseChunkRefs held)
        { s with chunkManifests := s.chunkManifests.set h { m with refCount := m.refCount + 1 } }
        tr₁ u s' := by
  unfold attachManifest at hr
  obtain ⟨ch₁, r₁, s₁, tr₁, -, hex₁, rfl, h1⟩ := run_stmt.mp hr
  rcases answer_cases hex₁ with ⟨-, rfl, rfl⟩ | ⟨rfl, rfl⟩
  · obtain ⟨rfl, rfl, rfl⟩ := run_ret.mp h1
    exact .inl ⟨_, rfl, rfl, .inl rfl⟩
  cases hm : s.chunkManifests.get h with
  | none =>
    simp only [Store.insertManifest, hm] at h1
    obtain ⟨-, rfl, rfl⟩ := run_ret.mp h1
    exact .inr (.inl ⟨_, rfl, rfl, rfl, rfl⟩)
  | some m =>
    simp only [Store.insertManifest, hm] at h1
    obtain ⟨ch₂, r₂, s₂, tr₂, -, hex₂, rfl, h2⟩ := run_stmt.mp h1
    rcases answer_cases hex₂ with ⟨-, rfl, rfl⟩ | ⟨rfl, rfl⟩
    · obtain ⟨rfl, rfl, rfl⟩ := run_ret.mp h2
      exact .inl ⟨_, rfl, rfl, .inr rfl⟩
    · simp only [Store.bumpManifest, hm] at h2
      obtain ⟨u, s₃, tr₃, tr₄, h3, h4, -⟩ := run_bind.mp h2
      obtain ⟨-, rfl, rfl⟩ := run_ret.mp h4
      exact .inr (.inr ⟨_, m, tr₃, u, rfl, rfl, rfl, h3⟩)

/-- **An ingest** adds one to the counter of what it stored. -/
theorem storeFromStream_refs {blake3 : Bytes → H} {source : Source}
    (hr : Run (machine H) ReleasesWork (storeFromStream blake3 source) s tr (.ok stored) s') :
    s'.manifestRefs stored.hash = s.manifestRefs stored.hash + 1 := by
  have hingest : (ingestChunksFromStream blake3 source).Only fun op : Op H => ¬ op.TouchesManifests :=
    (ingestChunksFromStream_only blake3 source).mono fun op hop ht => by
      cases op <;> first | exact hop | exact ht
  obtain ⟨r, s₁, _, _, hr₁, hr₂, -⟩ := run_bind.mp hr
  cases r with
  | error e =>
    obtain ⟨-, hok, -⟩ := run_ret.mp hr₂
    cases hok
  | ok o =>
    rw [← Store.manifestRefs_congr (manifests_run hingest hr₁)]
    rcases attachManifest_cases hr₂ with ⟨e, he, -⟩ | ⟨d, hd, hhash, hm, rfl⟩ | ⟨d, m, tr₁, u, hd, hhash, hm, hrel⟩
    · cases he
    · cases hd
      rw [hhash, Store.manifestRefs_of_none hm]
      simp [Store.manifestRefs]
    · cases hd
      rw [hhash, Store.manifestRefs_congr (manifests_run (releaseChunkRefs_manifests _) hrel),
        Store.manifestRefs_of_get hm]
      simp [Store.manifestRefs]

/-! ### Failures of the repository -/

section Released
variable {guard : (op : Op H) → Choice H → Store H → Prop} {expected : Option H} {e : DomainError}

/-- The run ends with the release of the reference on `h`, and has changed nothing before it. -/
def Released (guard : (op : Op H) → Choice H → Store H → Prop) (fuel : ℕ) (h : H) (s : Store H)
    (tr : List (Op H)) (s' : Store H) : Prop :=
  tr ≠ [] ∧ ∃ r tr', Run (machine H) guard (removeReference fuel h) s tr' r s'

theorem released_fail {r : Except DomainError α}
    (hr : Run (machine H) guard (releaseAndFail (fuel + 1) h e) s tr r s') :
    Released guard (fuel + 1) h s tr s' := by
  obtain ⟨r₁, s₁, tr₁, tr₂, h1, h2, rfl⟩ := run_bind.mp hr
  obtain ⟨-, -, rfl⟩ := run_ret.mp h2
  refine ⟨?_, r₁, tr₁, h1⟩
  obtain ⟨-, -, -, tr₃, -, -, rfl, -⟩ := run_stmt.mp h1
  exact List.cons_ne_nil _ _

theorem released_swapBlobHash {id : FileId}
    (hr : Run (machine H) guard (swapBlobHash (fuel + 1) id h expected) s tr (.error e) s') :
    Released guard (fuel + 1) h s tr s' := by
  obtain ⟨ch, r, s₁, tr₁, -, hex, rfl, h1⟩ := run_stmt.mp hr
  refine ⟨List.cons_ne_nil _ _, ?_⟩
  have hsame : (∀ old, r ≠ some (some (old, true))) → s₁ = s := by
    intro hno
    rcases answer_cases hex with ⟨-, -, h'⟩ | ⟨hr', h'⟩
    · exact h'
    · rw [h']
      exact Store.swapBlobHash_unchanged (Prod.eta _).symm fun old hold => hno old (by rw [hr', hold])
  rcases r with _ | _ | ⟨old, _ | _⟩
  iterate 3
    · rw [hsame (by simp)] at h1
      exact (released_fail h1).2
  · obtain ⟨r₂, s₂, tr₂, tr₃, -, h3, -⟩ := run_bind.mp h1
    cases (run_ret.mp h3).2.1

theorem released_saveFileWithBlob {folder : Option FolderId} {name : String}
    (hname : validateStorageName name = .ok ())
    (hr : Run (machine H) guard (saveFileWithBlob (fuel + 1) folder name h) s tr (.error e) s') :
    Released guard (fuel + 1) h s tr s' := by
  cases folder with
  | none => exact released_fail hr
  | some fid =>
    obtain ⟨ch, r, s₁, tr₁, -, hex, rfl, h1⟩ := run_stmt.mp hr
    refine ⟨List.cons_ne_nil _ _, ?_⟩
    simp only [exec] at hex
    split_ifs at hex with hid
    rcases answer_cases hex with ⟨-, rfl, rfl⟩ | ⟨rfl, rfl⟩
    · exact (released_fail h1).2
    rcases s.insertFile_cases fid name h ch.newId with hins | ⟨hins | hins, hsame⟩
    · rw [hins] at h1
      have hret := (run_ret.mp h1).2.1
      simp [rowToFile, hname] at hret
    · rw [hins, hsame] at h1
      exact (released_fail h1).2
    · rw [hins, hsame] at h1
      obtain ⟨r₂, s₂, tr₂, tr₃, h2, h3, -⟩ := run_bind.mp h1
      obtain ⟨ch₃, r₃, s₃, tr₄, -, hex₃, -, h4⟩ := run_stmt.mp h3
      have hs : s' = s₃ := by
        rcases r₃ with _ | _ | _
        all_goals exact (run_ret.mp h4).2.2
      have hs₃ : s₃ = s₂ := by
        rcases answer_cases hex₃ with ⟨-, -, h'⟩ | ⟨-, h'⟩
        all_goals exact h'
      rw [hs, hs₃]
      exact ⟨r₂, tr₂, h2⟩

end Released

theorem Released.refs (hr : Released ReleasesWork (fuel + 1) h s tr s') :
    s'.manifestRefs h = s.manifestRefs h - 1 := by
  obtain ⟨-, r, tr', hrel⟩ := hr
  exact removeReference_refs hrel

variable {e : DomainError} {expected : Option H}

/-! ### Failed requests -/

variable {svc : UploadService} {path : String}

/-- The service's answer to an admitted request is the repository's. -/
theorem update_refs (hname : validateStorageName (filename path) = .ok ())
    (hr : Run (machine H) ReleasesWork (updateFileStreamingWithPerms (fuel + 1) svc path h expected) s tr
      (.error e) s') :
    s'.manifestRefs h = s.manifestRefs h - if (svc.admission path).toBool then 1 else 0 := by
  unfold updateFileStreamingWithPerms at hr
  cases ha : svc.admission path with
  | error e =>
    rw [ha] at hr
    obtain ⟨-, -, rfl⟩ := run_ret.mp hr
    rfl
  | ok admission =>
    rw [ha] at hr
    cases admission with
    | overwrite fileId => exact (released_swapBlobHash hr).refs
    | create parent =>
      have hr₁ := run_failed hr (fun _ => ⟨_, rfl⟩) fun _ => rfl
      exact (released_saveFileWithBlob hname hr₁).refs

theorem storeChecked_refs {quota : Quota} (hname : validateStorageName (filename path) = .ok ())
    (hr : Run (machine H) ReleasesWork (storeChecked (fuel + 1) svc quota path stored expected) s tr
      (.error e) s') : s'.manifestRefs stored.hash = s.manifestRefs stored.hash -
      if quota.refuses stored.size ∨ (svc.admission path).toBool then 1 else 0 := by
  unfold storeChecked at hr
  split_ifs at hr with hq
  · rw [if_pos (.inl hq)]
    exact (released_fail hr).refs
  · rw [update_refs hname hr]
    simp [hq]

/-- The handler gives the ingested reference back exactly once when the request fails: `refs` is the
counter before the request, `size` the size of the content. -/
def Surface.ReleasesOnce (svc : UploadService) (path : String) (size refs : ℕ) : Surface H → Prop
  | .put quota => quota.refuses size ∨ (svc.admission path).toBool
  | .patch quota bodyLen expectedBodyLen _ =>
    expectedBodyLen.any (· ≠ bodyLen) ∨ quota.refuses size ∨ (svc.admission path).toBool
  | .assemble => ¬ (svc.admission path).toBool ∨ refs = 0

/-- A service that lets everybody do everything and finds neither files nor folders. -/
def openService : UploadService := ⟨some fun _ _ => .ok (), some ⟨fun _ => .ok none, fun _ =>
  .error (notFound "Folder")⟩⟩

/-- A service whose authorization engine denies everything. -/
def closedService : UploadService := ⟨some fun _ _ => .error (notFound "File"), none⟩

/-- A service that lets everybody do everything and finds folder `0` above every path. -/
def folderService : UploadService :=
  ⟨some fun _ _ => .ok (), some ⟨fun _ => .ok none, fun _ => .ok (some 0)⟩⟩

/-- A file with the chunks `[9]` and `[8]`. -/
def oneFile : Store Bytes :=
  { Store.fresh {0} with
    files := Table.empty.set 7 ⟨0, "a", [9, 8], false⟩
    chunkManifests := Table.empty.set [9, 8] ⟨[[9], [8]], [1, 1], 2, 1⟩
    blobs := (Table.empty.set [9] ⟨1, 1, none⟩).set [8] ⟨1, 1, none⟩
    objects := (Table.empty.set [9] [9]).set [8] [8] }

/-- Every statement succeeds; an inserted row gets the identifier `5`. -/
def allOk (n : ℕ) : List (Choice Bytes) := List.replicate n { newId := 5 }

theorem exists_failed {p : Db Bytes (Except DomainError Unit)} {s : Store Bytes} (n : ℕ)
    {q : Store Bytes → Prop} [DecidablePred q] (h : ((replay (machine Bytes) ReleasesWork (allOk n) p s).any
      fun x => !x.1.toBool && decide (q x.2)) = true) :
    ∃ tr e s', Run (machine Bytes) ReleasesWork p s tr (.error e) s' ∧ q s' := by
  obtain ⟨r, s', tr, hr, h⟩ := exists_run h
  cases r with
  | ok _ => cases h
  | error e => exact ⟨tr, e, s', hr, of_decide_eq_true h⟩

end OxiCloud.Uploads
