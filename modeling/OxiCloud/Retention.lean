import OxiCloud.OperationSpecs
import OxiCloud.Requests

/-! # Rows keep their content

The balance of all requests gives two results about every run of a pool of them. In stores that may
hold legacy content, every file row names a hash that has a manifest or a blob row, as long as no
garbage collection reaps a manifest another request holds a reference on. In stores without legacy
content, no manifest counts fewer references than there are rows naming it, as long as
`store_attached_blob` overwrites the row it read. Neither condition is enforced by the code: the two
runs at the end of each section break them. -/

namespace OxiCloud.Retention

open Lib.Tables Lib.Programs Lib.Pools Schema OxiCloud.Machine Tokens Accounting Balance BlobHandler
open FileRepository BalanceSpecs IngestSpecs OperationSpecs Requests Multiset Prog

variable {H : Type} [DecidableEq H] {mode : Mode} {f : Multiset (Token H)} {fuel : ℕ}

/-! ### All requests -/

/-- The requests whose statements the accounts cover: not a legacy re-chunk, and without legacy content
not the reference a delta commit takes on content its caller owns. -/
def Accountable (mode : Mode) : Request H → Prop
  | .rechunk .. => False
  | .deltaCommit _ owned _ => owned = true → mode = .legacy
  | _ => True

variable (blake3 : Bytes → H)

/-- **Every request keeps the balance**, whatever runs beside it. -/
theorem request_spec (hm : mode ≠ .exact) {q : Request H} (hq : Accountable mode q) :
    Spec mode (q.prog blake3 fuel) 0 fun _ _ => True := by
  have hex : ∀ {p : Prop}, mode = .exact → p := fun h => absurd h hm
  have hdone : ∀ {α : Type} {p : Db H α} {g : α → Bool} {Q : α → Multiset (Token H) → Prop},
      Spec mode p 0 Q → Spec mode (p >>= fun a => ret (g a)) 0 fun _ _ => True :=
    fun h => Safe.bind h fun _ _ _ => safe_ret trivial
  cases q with
  | upload source target => exact hdone (upload_spec blake3 source (fun _ _ => trivial) hex hex)
  | deltaCommit n owned req => exact hdone (commitWithPerms_spec blake3 n owned req hq hex hex)
  | storeLoose frames => exact hdone (storeLooseChunks_spec blake3 frames)
  | delete id => exact hdone (deleteFile_spec id)
  | deletePermanently id => exact hdone (deleteFilePermanently_spec id hex)
  | copy newFolders l => exact hdone (copyFiles_spec newFolders l)
  | storeAttached k source => exact hdone (storeAttachedBlob_spec blake3 k source hm)
  | storeAttachedIfAbsent k source => exact hdone (storeAttachedBlobIfAbsent_spec blake3 k source hex)
  | storeDerived k source => exact hdone (storeDerivedBlob_spec blake3 k source hex)
  | collectGarbage rounds grace =>
    exact hdone (garbageCollectWithGrace_spec rounds grace hex fun h => hex h)
  | reclaim transient h => exact hdone (settleOne_spec transient h)
  | rechunk cut h => exact absurd hq id
  | clock secs => exact Triple.ask trivial fun _ _ _ _ _ _ _ _ => safe_ret trivial

theorem droppable (hm : mode ≠ .exact) :
    Droppable (Balanced (H := H) mode) fun (_ : Bool) _ => True :=
  fun _ _ _ _ _ hb =>
    ⟨hb.accounts.mono hm (Multiset.le_add_left _ _), fun h => absurd h hm⟩

/-- The requests `l` in the store `s`, none of which has issued a statement yet. -/
abbrev serve (blake3 : Bytes → H) (fuel : ℕ) (s : Store H) (l : List (Request H)) :
    Pool (sql H) (Store H) (Token H) Bool := Pool.start s (l.map (Request.prog blake3 fuel))

variable {s : Store H} {l : List (Request H)} {P : Pool (sql H) (Store H) (Token H) Bool}

theorem accounts_runs (hm : mode ≠ .exact) (hs : Accounts mode s 0)
    (hl : ∀ q ∈ l, Accountable mode q)
    (hr : Runs (machine H) (ledger H) (Allow mode) (serve blake3 fuel s l) P) :
    Accounts mode P.store 0 := by
  have hsafe : ∀ p ∈ l.map (Request.prog blake3 fuel), Spec mode p 0 fun _ _ => True := by
    intro p hp
    obtain ⟨q, hq, rfl⟩ := List.mem_map.mp hp
    exact request_spec blake3 hm (hl q hq)
  have hb := hr.start_safe (droppable hm) ⟨hs, fun h => absurd h hm⟩ hsafe
  exact hb.accounts.mono hm (Multiset.zero_le _)

/-! ### File rows and garbage collection -/

theorem content_of_references (hs : Accounts mode s 0) {h : H} (hpos : 0 < s.references h) :
    (s.chunkManifests.get h).isSome ∨ mode = .legacy ∧ (s.blobs.get h).isSome := by
  by_cases hmr : 0 < s.manifestRefs h
  · obtain ⟨m, hget⟩ := Store.exists_manifest_of_pos hmr
    exact .inl (by rw [hget]; rfl)
  · by_cases hleg : mode = .legacy
    · subst hleg
      obtain ⟨L, hL⟩ := hs
      have h1 := hL.file h
      have h2 := hL.chunk (by decide) h
      simp only [Mode.covers] at h1 h2
      obtain ⟨b, hget⟩ := Store.exists_blob_of_pos (s := s) (h := h) (by omega)
      exact .inr ⟨rfl, by rw [hget]; rfl⟩
    · have := hs.file_le hleg h
      omega

/-- **Every file row keeps its content.** In every run of any requests from a store whose counters cover
its rows, if no garbage collection reaps a manifest another request holds a reference on (and a release
finds the chunks it read, an upsert the row it read), then at every point of the run each file row
names a hash with a manifest or, where there may be legacy content, a blob row. -/
theorem file_rows_keep_content (blake3 : Bytes → H) (fuel : ℕ) (mode : Mode) (hm : mode ≠ .exact)
    {s : Store H} (hs : Accounts mode s 0) {l : List (Request H)} (hl : ∀ q ∈ l, Accountable mode q)
    {P : Pool (sql H) (Store H) (Token H) Bool}
    (hr : Runs (machine H) (ledger H) (Allow mode) (serve blake3 fuel s l) P)
    {id : FileId} {row : FileRow H} (hrow : P.store.files.get id = some row) :
    (P.store.chunkManifests.get row.blobHash).isSome ∨
      mode = .legacy ∧ (P.store.blobs.get row.blobHash).isSome := by
  refine content_of_references (accounts_runs blake3 hm hs hl hr) ?_
  have hpos : 0 < P.store.filesNaming row.blobHash := Table.count_pos hrow (by simp)
  simp only [Store.references]
  omega

/-- An upload of two chunks beside a garbage collection. -/
def uploadAndCollect : List (Request Bytes) :=
  [.upload ⟨[[1], [2]], false⟩ (.create (some 0) "a"), .collectGarbage 1 0]

/-- The collection looks for manifests before there is one. -/
def collectFirst : Schedule Bytes :=
  List.replicate 6 (0, .ok) ++ [(1, .ok), (0, .ok), (1, .ok), (0, { newId := 7 })]

/-- The collection finds the manifest before the upload inserts its row. -/
def collectBetween : Schedule Bytes :=
  List.replicate 7 (0, .ok) ++ [(1, { pick := [[1, 2]] }), (0, { newId := 7 })] ++
    List.replicate 4 (1, .ok)

theorem file_rows_keep_content_collect :
    ∃ P, Runs (machine Bytes) (ledger Bytes) (Allow .legacy)
        (serve id 3 (Store.fresh {0}) uploadAndCollect) P ∧
      P.store.files.get 7 = some ⟨0, "a", [1, 2], false⟩ ∧
      ((P.store.chunkManifests.get [1, 2]).isSome ∨
        Mode.legacy = .legacy ∧ (P.store.blobs.get [1, 2]).isSome) :=
  exists_run_with collectFirst (fun _ hr hrow => file_rows_keep_content id 3 .legacy (by decide)
    (Accounts.fresh _ _) (by simp [uploadAndCollect, Accountable]) hr hrow) (by decide +kernel)

/-- **The collection loses the upload's manifest.** Nothing orders a reap after the row: the collection
finds the manifest before the upload inserts its row, and the upload succeeds. -/
theorem collect_before_row :
    ∃ P, Runs (machine Bytes) (ledger Bytes) (fun _ _ _ _ => True)
        (serve id 3 (Store.fresh {0}) uploadAndCollect) P ∧
      (∀ t ∈ P.threads, t.prog.result = some true) ∧
      P.store.files.get 7 = some ⟨0, "a", [1, 2], false⟩ ∧
      P.store.chunkManifests.get [1, 2] = none ∧ P.store.blobs.get [1, 2] = none :=
  exists_run collectBetween (by decide +kernel)

/-! ### Attached blobs -/

/-- **No manifest counts too few references.** In every run of any requests from a store in which each
manifest counts the rows naming it, if every `store_attached_blob` overwrites the row it read (and no
collection reaps a manifest another request holds a reference on), then at every point of the run no
manifest counts fewer references than there are rows naming it, and a named manifest is there. -/
theorem manifests_cover_rows (blake3 : Bytes → H) (fuel : ℕ) {s : Store H}
    (hs : ∀ h, s.references h ≤ s.manifestRefs h) {l : List (Request H)}
    (hl : ∀ q ∈ l, Accountable .plain q) {P : Pool (sql H) (Store H) (Token H) Bool}
    (hr : Runs (machine H) (ledger H) (Allow .plain) (serve blake3 fuel s l) P) (h : H) :
    P.store.references h ≤ P.store.manifestRefs h ∧
      (0 < P.store.references h → (P.store.chunkManifests.get h).isSome) := by
  have hacc : Accounts .plain s 0 :=
    ⟨fun _ => 0, fun _ _ => rfl, fun h => by simpa [Mode.covers] using hs h,
      fun hp => absurd rfl hp⟩
  have hend := accounts_runs blake3 (by decide) hacc hl hr
  refine ⟨by simpa using hend.file_le (by decide) h, fun hpos => ?_⟩
  rcases content_of_references hend hpos with hm | ⟨hleg, -⟩
  · exact hm
  · cases hleg

/-- Some content is the content of a file and its preview; then two new previews are stored. -/
def previews : List (Request Bytes) :=
  [.upload ⟨[[9]], false⟩ (.create (some 0) "a"),
    .storeAttached ⟨7, .preview, ""⟩ ⟨[[9]], false⟩,
    .storeAttached ⟨7, .preview, ""⟩ ⟨[[1]], false⟩,
    .storeAttached ⟨7, .preview, ""⟩ ⟨[[2]], false⟩]

/-- The file and its first preview are stored. -/
def firstPreview : Schedule Bytes :=
  List.replicate 6 (0, .ok) ++ [(0, { newId := 7 })] ++ List.replicate 6 (1, .ok)

/-- One new preview after the other. -/
def oneByOne : Schedule Bytes :=
  firstPreview ++ List.replicate 10 (2, .ok) ++ List.replicate 11 (3, .ok)

/-- Both new previews read the first one before either replaces it. -/
def bothRead : Schedule Bytes :=
  firstPreview ++ List.replicate 7 (2, .ok) ++ List.replicate 7 (3, .ok) ++
    List.replicate 3 (2, .ok) ++ List.replicate 4 (3, .ok)

theorem manifests_cover_rows_oneByOne :
    ∃ P, Runs (machine Bytes) (ledger Bytes) (Allow .plain)
        (serve id 3 (Store.fresh {0}) previews) P ∧
      P.store.references [9] = 1 ∧ P.store.references [9] ≤ P.store.manifestRefs [9] ∧
      (0 < P.store.references [9] → (P.store.chunkManifests.get [9]).isSome) := by
  have hfresh : ∀ h : Bytes, (Store.fresh {0}).references h ≤ (Store.fresh {0}).manifestRefs h :=
    fun _ => Nat.le_refl 0
  exact exists_run_with oneByOne (fun _ hr _ => manifests_cover_rows id 3 hfresh
    (by simp [previews, Accountable]) hr [9]) (by decide +kernel)

/-- **Two writers release one row.** Both calls read the same previous preview and both release its
content, whose manifest goes while the file still names it. -/
theorem bothRead_loses_manifest :
    ∃ P, Runs (machine Bytes) (ledger Bytes) (fun _ _ _ _ => True)
        (serve id 3 (Store.fresh {0}) previews) P ∧
      (∀ t ∈ P.threads, t.prog.result = some true) ∧
      P.store.references [9] = 1 ∧ P.store.chunkManifests.get [9] = none :=
  exists_run bothRead (by decide +kernel)

end OxiCloud.Retention
