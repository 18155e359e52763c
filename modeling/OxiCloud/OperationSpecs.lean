import OxiCloud.IngestSpecs
import OxiCloud.Requests

/-! # The balance of the operations

The file repository consumes the reference it is given, the uploads take theirs at the ingest and hand
it to a row or give it back, deletions leave the reference to the trigger, and the garbage collector
turns the manifests it reaps into chunk references that it gives back. -/

namespace OxiCloud.OperationSpecs

open Lib.Tables Lib.Programs Lib.Pools Schema OxiCloud.Machine Tokens Accounting Balance BlobHandler
open FileRepository BalanceSpecs Footprint IngestSpecs Multiset Prog

variable {H : Type} [DecidableEq H] {D : Discipline H} {mode : Mode} {f : Multiset (Token H)} {fuel : ℕ}

/-! ### The repository -/

variable {h : H}

theorem releaseAndFail_spec {α : Type} (hf : D.strict → slots f < fuel) (e : DomainError) :
    Triple D (releaseAndFail fuel h e : Db H (Except DomainError α))
      (.file h ::ₘ f) fun _ c => Keeps D.strict f c :=
  Safe.bind (removeReference_spec D fuel h f hf) fun _ _ hc => safe_ret hc

/-- **`save_file_with_blob_impl` consumes the reference**: the row has it or it is released. -/
theorem saveFileWithBlob_spec (folder : Option FolderId) (name : String)
    (hf : D.strict → slots f < fuel) :
    Triple D (saveFileWithBlob fuel folder name h) (.file h ::ₘ f) fun _ c => Keeps D.strict f c := by
  cases folder with
  | none => exact releaseAndFail_spec hf _
  | some fid =>
    refine Triple.issue trivial (fun r => ?_) fun s ch r s' rest _ _ _ => ?_
    · rcases r with _ | _ | _ | _
      · exact Multiset.zero_le _
      · exact singleton_le.mpr (mem_cons_self _ _)
      · exact Multiset.zero_le _
      · exact Multiset.zero_le _
    rw [next_eq (fun _ => rfl) rfl]
    rcases r with _ | id | _ | _
    · rw [untouched rfl rfl]
      exact releaseAndFail_spec hf _
    · rw [used rfl rfl]
      exact safe_ret (Keeps.refl D.strict f)
    · rw [untouched rfl rfl]
      exact releaseAndFail_spec hf _
    · rw [untouched rfl rfl]
      refine Safe.bind (removeReference_spec D fuel h f hf) fun _ c hc => ?_
      refine Triple.ask trivial fun _ _ r _ _ _ _ _ => ?_
      rcases r with _ | _ | _ <;> exact safe_ret hc

variable (id : FileId)

/-- **`swap_blob_hash` consumes the reference** and releases the one it supersedes. -/
theorem swapBlobHash_spec (expected : Option H) (hf : D.strict → slots f < fuel) :
    Triple D (swapBlobHash fuel id h expected) (.file h ::ₘ f) fun _ c => Keeps D.strict f c := by
  refine Triple.issue trivial (fun r => ?_) fun s ch r s' rest _ _ _ => ?_
  · rcases r with _ | _ | ⟨old, _ | _⟩
    · exact Multiset.zero_le _
    · exact Multiset.zero_le _
    · exact Multiset.zero_le _
    · exact singleton_le.mpr (mem_cons_self _ _)
  rw [next_eq (fun _ => rfl) rfl]
  rcases r with _ | _ | ⟨old, _ | _⟩
  · rw [untouched rfl rfl]
    exact releaseAndFail_spec hf _
  · rw [untouched rfl rfl]
    exact releaseAndFail_spec hf _
  · rw [untouched rfl rfl]
    exact releaseAndFail_spec hf _
  · rw [turned rfl rfl]
    exact Safe.bind (removeReference_spec D fuel old f hf) fun _ _ hc => safe_ret hc

theorem deleteFile_spec :
    Triple D (FileRepository.deleteFile id : Db H (Except DomainError Unit)) f fun _ c => c = f := by
  refine Triple.issue trivial (fun r => Multiset.zero_le _) fun s ch r s' rest _ _ _ => ?_
  rw [next_eq (fun _ => rfl) rfl]
  rw [untouched rfl rfl]
  rcases r with _ | _ | _ <;> exact safe_ret rfl

theorem cleanupIfOrphaned_spec (h : H) (hf : D.strict → slots f ≤ fuel) :
    Triple D (cleanupIfOrphaned fuel h) f fun _ c => Keeps D.strict f c := by
  refine Triple.issue trivial (fun r => Multiset.zero_le _) fun s ch r s' rest _ _ _ => ?_
  rw [next_eq (fun _ => rfl) rfl]
  rw [untouched rfl rfl]
  rcases r with _ | _ | _
  · exact safe_ret (Keeps.refl D.strict f)
  · exact safe_ret (Keeps.refl D.strict f)
  · exact purgeDerivedBlobs_spec (removeReference_spec D fuel) h f hf

theorem deleteFilePermanently_spec (hf : D.strict → slots f ≤ fuel) :
    Triple D (deleteFilePermanently fuel id : Db H (Except DomainError Unit)) f
      fun _ c => Keeps D.strict f c := by
  refine Triple.ask trivial fun _ _ r _ _ _ _ _ => ?_
  cases r with
  | none => exact safe_ret (Keeps.refl D.strict f)
  | some hash =>
    refine Safe.bind (deleteFile_spec id) fun r c hc => ?_
    subst hc
    rcases r with _ | _
    · exact safe_ret (Keeps.refl D.strict c)
    · cases hash with
      | none => exact safe_ret (Keeps.refl D.strict c)
      | some h => exact Safe.bind (cleanupIfOrphaned_spec h hf) fun _ _ hc => safe_ret hc

theorem copyFiles_spec (newFolders : List FolderId) (l : List CopySpec) :
    Spec mode (FileRepository.copyFiles newFolders l : Db H (Except DomainError Unit)) f
      fun _ c => c = f := by
  refine Spec.issue trivial (fun r => Multiset.zero_le _) fun s ch r s' rest _ _ _ => ?_
  rw [next_eq (fun _ => rfl) rfl]
  rw [untouched rfl rfl]
  rcases r with _ | _ <;> exact safe_ret rfl

/-! ### Uploads -/

theorem register_spec {target : Registration H} (ht : D.strict → target ≠ .abandon)
    (hf : D.strict → slots f < fuel) :
    Triple D (register fuel h target) (.file h ::ₘ f) fun _ c => Keeps D.strict f c := by
  cases target with
  | create folder name =>
    refine Safe.bind (saveFileWithBlob_spec folder name hf) fun r c hc => ?_
    rcases r with _ | _ <;> exact safe_ret hc
  | update id expected => exact swapBlobHash_spec id expected hf
  | discard => exact releaseAndFail_spec hf _
  | abandon => exact safe_ret ((Keeps.refl D.strict f).cons (fun hm => ht hm rfl) _)

variable (blake3 : Bytes → H)

/-- **An upload** leaves no reference behind that no row holds. -/
theorem upload_spec (source : Source) {target : Registration H}
    (hfresh : ∀ hs h, D.fresh (chunksOf hs + f) h) (ht : D.strict → target ≠ .abandon)
    (hf : D.strict → slots f < fuel) :
    Triple D (upload blake3 fuel source target) f fun _ c => Keeps D.strict f c := by
  refine Safe.bind (storeFromStream_spec blake3 source hfresh) fun r c hr => ?_
  cases r with
  | error e => exact safe_ret hr
  | ok stored =>
    obtain ⟨f', rfl, hk⟩ := hr
    exact (register_spec ht fun hm => (hk.eq hm).2.trans_lt (hf hm)).mono fun _ _ h => hk.trans h

theorem addReference_spec (hm : mode = .legacy) : Spec mode (addReference h) f fun r c =>
      match r with
      | .error _ => c = f
      | .ok _ => c = .file h ::ₘ f := by
  refine Spec.issue trivial (fun r => Multiset.zero_le _) fun s ch r s' rest _ _ _ => ?_
  rw [next_eq (fun _ => rfl) rfl]
  rcases r with _ | _ | size
  · rw [untouched rfl rfl]
    exact safe_ret rfl
  · rw [untouched rfl rfl]
    refine Spec.issue hm (fun r => Multiset.zero_le _) fun s ch r s' rest _ _ _ => ?_
    rw [next_eq (fun _ => rfl) rfl]
    rcases r with _ | _ | _
    · rw [untouched rfl rfl]
      exact safe_ret rfl
    · rw [untouched rfl rfl]
      exact safe_ret rfl
    · simp only [loss, gain, Multiset.sub_zero]
      rw [add_comm, singleton_add]
      exact safe_ret rfl
  · simp only [loss, gain, Multiset.sub_zero]
    rw [add_comm, singleton_add]
    exact safe_ret rfl

/-- The chunks a commit pinned are those it asked for, if there are as many. -/
theorem mem_pinned_iff {ch : Choice H} {s s' : Store H} {hs pinned : List H}
    (he : Machine.exec (.pinClaimable hs) ch s = some (some pinned, s'))
    (hlen : pinned.length = hs.length) (x : H) : x ∈ hs ↔ x ∈ pinned := by
  rcases answer_cases he with ⟨-, h1, -⟩ | ⟨h1, -⟩
  · cases h1
  · cases h1
    have hall := List.filter_eq_self.mp (List.filter_sublist.eq_of_length hlen)
    exact ⟨fun hx => List.mem_filter.mpr ⟨hx, hall x hx⟩, fun hx => List.mem_of_mem_filter hx⟩

theorem commitPinned_spec (total : ℕ) {req : DeltaCommit H} {held : List H}
    (hheld : ∀ x, x ∈ held ↔ x ∈ req.chunks.map Prod.fst)
    (ht : mode = .exact → req.target ≠ .abandon) (hf : mode = .exact → slots f < fuel) :
    Spec mode (commitPinned blake3 fuel total req held) (chunksOf (req.chunks.map Prod.fst) + f)
      fun _ c => Keeps (mode = .exact) f c := by
  refine Safe.bind (quiet_spec (hashChunkSequence_only blake3 (fun _ => trivial) _ _)) fun r c hc => ?_
  rw [hc]
  cases r with
  | error e => exact Safe.bind (releaseChunkRefs_spec hheld) fun _ _ hk => safe_ret hk
  | ok computed =>
    dsimp only
    split_ifs
    · exact Safe.bind (releaseChunkRefs_spec hheld) fun _ _ hk => safe_ret hk
    · refine Safe.bind (attachManifest_spec hheld trivial) fun r c hr => ?_
      cases r with
      | error e => exact safe_ret hr.1
      | ok stored =>
        obtain ⟨f', rfl, hk⟩ := hr.1
        rw [hr.2 stored rfl]
        have hslots : mode = .exact → slots f' < fuel := fun hm => (hk.eq hm).2.trans_lt (hf hm)
        refine Safe.bind (register_spec ht hslots) fun r c hc => ?_
        rcases r with _ | _ <;> exact safe_ret (hk.trans hc)

theorem commitChunks_spec (total : ℕ) (req : DeltaCommit H)
    (ht : mode = .exact → req.target ≠ .abandon) (hf : mode = .exact → slots f < fuel) :
    Spec mode (commitChunks blake3 fuel total req) f fun _ c => Keeps (mode = .exact) f c := by
  have hheld : ∀ x, x ∈ (req.chunks.map Prod.fst).dedup ↔ x ∈ req.chunks.map Prod.fst :=
    fun x => List.mem_dedup
  have hdone := commitPinned_spec blake3 total hheld ht hf
  unfold commitChunks
  dsimp only
  by_cases hempty : (req.chunks.map Prod.fst).dedup.isEmpty = true
  · have hnil := List.isEmpty_iff.mp hempty
    have hz : chunksOf (req.chunks.map Prod.fst) + f = f := by
      rw [← chunksOf_congr hheld, hnil, chunksOf_nil, zero_add]
    rw [hz] at hdone
    rw [if_pos hempty]
    refine Safe.bind (safe_ret (Q := fun r c => r = some [] ∧ c = f) ⟨rfl, rfl⟩) fun r c hr => ?_
    obtain ⟨rfl, rfl⟩ := hr
    dsimp only
    rw [if_neg (by rw [hnil]; simp)]
    exact hdone
  · rw [if_neg hempty]
    refine Spec.issue trivial (fun r => Multiset.zero_le _) fun s ch r s' rest _ _ he => ?_
    rw [next_eq (fun _ => rfl) rfl]
    cases r with
    | none =>
      rw [untouched rfl rfl]
      exact safe_ret (Keeps.refl (mode = .exact) f)
    | some pinned =>
      simp only [loss, gain, Multiset.sub_zero]
      rw [add_comm]
      split_ifs with hlen
      · exact Safe.bind (releaseChunkRefs_spec fun _ => Iff.rfl) fun _ _ hk => safe_ret hk
      · rw [not_not] at hlen
        rw [chunksOf_congr fun x => (mem_pinned_iff he hlen x).symm.trans (hheld x)]
        exact hdone

/-- **A delta commit** leaves no reference behind that no row holds. -/
theorem commitWithPerms_spec (maxTotalSize : ℕ) (owned : Bool) (req : DeltaCommit H)
    (ho : owned = true → mode = .legacy) (ht : mode = .exact → req.target ≠ .abandon)
    (hf : mode = .exact → slots f < fuel) :
    Spec mode (commitWithPerms blake3 maxTotalSize fuel owned req) f
      fun _ c => Keeps (mode = .exact) f c := by
  unfold commitWithPerms
  cases validateChunkList maxTotalSize req.chunks with
  | error e => exact safe_ret (Keeps.refl (mode = .exact) f)
  | ok total =>
    split_ifs with howned
    · have hex : mode ≠ .exact := by rw [ho howned]; decide
      refine Safe.bind (addReference_spec (ho howned)) fun r c hr => ?_
      cases r with
      | error e => exact safe_ret (hr ▸ Keeps.refl (mode = .exact) f)
      | ok _ =>
        rw [hr]
        refine Safe.bind (register_spec (fun h => absurd h hex) fun h => absurd h hex)
          fun r c hc => ?_
        rcases r with _ | _ <;> exact safe_ret hc
    · exact commitChunks_spec blake3 total req ht hf

/-! ### Garbage collection -/

theorem purgeAll_spec : ∀ (hs : List H) (f : Multiset (Token H)), (mode = .exact → slots f ≤ fuel) →
    Spec mode (purgeAll fuel hs) f fun _ c => Keeps (mode = .exact) f c
  | [], f, _ => safe_ret (Keeps.refl (mode = .exact) f)
  | h :: hs, f, hf => by
    refine Safe.bind (purgeDerivedBlobs_spec (removeReference_spec (balance mode) fuel) h f hf)
      fun _ c hc => ?_
    exact (purgeAll_spec hs c fun hm => (hc.eq hm).2.trans (hf hm)).mono fun _ _ h => hc.trans h

/-- The chunk references of a reaped batch are given back. -/
theorem releaseReaped_spec {α : Type} {batch : List (H × List H × ℕ)} {k : Option Unit → Db H α}
    {Q : α → Multiset (Token H) → Prop} (hk : ∀ r c, Keeps (mode = .exact) f c → Spec mode (k r) c Q) :
    Spec mode (releaseReaped batch >>= k) (chunksOfAll (Store.reapedChunks batch) + f) Q := by
  have hbatch : Spec mode (issue (.releaseBatch (batch.map fun x => x.2.1)) >>= k)
      (chunksOfAll (Store.reapedChunks batch) + f) Q := by
    refine Spec.issue trivial (fun r => ?_) fun s ch r s' rest _ ha he => hk r _ ?_
    · cases r with
      | none => exact Multiset.zero_le _
      | some _ => exact Multiset.le_add_right _ _
    rw [next_eq (fun _ => rfl) rfl]
    cases r with
    | none =>
      rw [untouched rfl rfl]
      exact (Keeps.refl (mode = .exact) f).add (Allow.ne_exact ha rfl (fault_of_none he)) _
    | some _ =>
      have hz : chunksOfAll (Store.reapedChunks batch) + f -
          loss (.releaseBatch (batch.map fun x => x.2.1)) (some ()) +
          gain (.releaseBatch (batch.map fun x => x.2.1)) s (some ()) = f := by
        simp only [loss, gain, add_zero]
        rw [add_comm, Store.reapedChunks, Multiset.add_sub_cancel_right]
      rw [hz]
      exact Keeps.refl (mode = .exact) f
  rcases batch with _ | ⟨⟨h, chunks, n⟩, _ | ⟨y, l⟩⟩
  · exact hbatch
  · have hz : chunksOfAll (Store.reapedChunks [(h, chunks, n)]) = chunksOf chunks := by
      simp [chunksOfAll, Store.reapedChunks]
    rw [hz]
    exact releaseChunks_spec (fun _ => Iff.rfl) hk
  · exact hbatch

/-- Only slots are held, as far as exact accounts are concerned. -/
def OnlySlots (mode : Mode) (f : Multiset (Token H)) : Prop := mode = .exact → ∀ t ∈ f, t = .slot

theorem OnlySlots.keeps {c : Multiset (Token H)} (h : OnlySlots mode f) (hk : Keeps (mode = .exact) f c) :
    OnlySlots mode c := by
  intro hm t ht
  by_contra hne
  have h1 := (hk.eq hm).1 t hne
  have h2 : f.count t = 0 := count_eq_zero.mpr fun hf => hne (h hm t hf)
  rw [h2, count_eq_zero] at h1
  exact h1 ht

theorem gcManifests_spec : ∀ (rounds : ℕ) (total : ℕ × ℕ) (f : Multiset (Token H)),
    (mode = .exact → slots f ≤ fuel) → OnlySlots mode f →
      Spec mode (gcManifests fuel rounds total) f fun _ c => mode = .exact → Keeps (mode = .exact) f c
  | 0, _, f, _, _ => safe_ret fun _ => Keeps.refl (mode = .exact) f
  | rounds + 1, total, f, hf, ho => by
    refine Spec.issue trivial (fun r => Multiset.zero_le _) fun s ch r s' rest _ _ _ => ?_
    cases r with
    | none =>
      rw [next_eq (fun _ => rfl) rfl]
      rw [untouched rfl rfl]
      exact safe_ret fun _ => Keeps.refl (mode = .exact) f
    | some batch =>
      -- the tokens the collector keeps of its own; all of them if it holds only slots
      obtain ⟨g, hg, hkeep⟩ : ∃ g, (ledger H).next .reapManifests s (some batch) f =
          chunksOfAll (Store.reapedChunks batch) + g ∧ (mode = .exact → g = f) := by
        refine ⟨f.filter fun t => void .reapManifests (some batch) t = false, ?_, fun hm => ?_⟩
        · show f.filter _ - replicate 0 .slot - 0 + chunksOfAll _ = _
          rw [replicate_zero, Multiset.sub_zero, Multiset.sub_zero, add_comm]
        · refine filter_eq_self.mpr fun t ht => ?_
          rw [ho hm t ht]
          exact void_slot _ _
      rw [hg]
      have hslots : mode = .exact → slots (chunksOfAll (Store.reapedChunks batch) + g) ≤ fuel := by
        intro hm
        rw [slots_add, slots_chunksOfAll, Nat.zero_add, hkeep hm]
        exact hf hm
      dsimp only
      split_ifs with hempty
      · rw [List.isEmpty_iff] at hempty
        subst hempty
        refine safe_ret fun hm => ?_
        rw [hkeep hm]
        have hz : chunksOfAll (Store.reapedChunks ([] : List (H × List H × ℕ))) + f = f := by
          simp [chunksOfAll, Store.reapedChunks]
        rw [hz]
        exact Keeps.refl (mode = .exact) f
      · refine Safe.bind (purgeAll_spec _ _ hslots) fun _ c hc => ?_
        obtain ⟨c₁, rfl, hk₁⟩ := hc.split (slots_chunksOfAll _)
        refine releaseReaped_spec fun r c₂ hk₂ => ?_
        have hk₃ : mode = .exact → Keeps (mode = .exact) f c₂ := fun hm => by
          rw [← hkeep hm]
          exact hk₁.trans hk₂
        cases r with
        | none => exact safe_ret hk₃
        | some _ =>
          refine Safe.bind (purgeAll_spec _ c₂ fun hm => ((hk₃ hm).eq hm).2.trans (hf hm))
            fun _ c₄ hk₄ => ?_
          have hk₅ : mode = .exact → Keeps (mode = .exact) f c₄ := fun hm => (hk₃ hm).trans hk₄
          refine (gcManifests_spec rounds _ c₄ (fun hm => ((hk₅ hm).eq hm).2.trans (hf hm))
            fun hm => ho.keeps (hk₅ hm) hm).mono fun _ c h hm => (hk₅ hm).trans (h hm)

theorem gcBlobs_spec (grace : ℕ) : ∀ (rounds : ℕ) (total : ℕ × ℕ) (f : Multiset (Token H)),
    (mode = .exact → slots f ≤ fuel) →
      Spec mode (gcBlobs fuel grace rounds total) f fun _ c => Keeps (mode = .exact) f c
  | 0, _, f, _ => safe_ret (Keeps.refl (mode = .exact) f)
  | rounds + 1, total, f, hf => by
    refine Spec.issue trivial (fun r => Multiset.zero_le _) fun s ch r s' rest _ _ _ => ?_
    rw [next_eq (fun _ => rfl) rfl]
    rw [untouched rfl rfl]
    cases r with
    | none => exact safe_ret (Keeps.refl (mode = .exact) f)
    | some batch =>
      dsimp only
      split_ifs
      · exact safe_ret (Keeps.refl (mode = .exact) f)
      · refine Safe.bind (purgeAll_spec _ f hf) fun _ c hc => ?_
        exact (gcBlobs_spec grace rounds _ c fun hm => (hc.eq hm).2.trans (hf hm)).mono
          fun _ _ h => hc.trans h

/-- **The garbage collector** gives back what it takes from reaped manifests. -/
theorem garbageCollectWithGrace_spec (rounds grace : ℕ) (hf : mode = .exact → slots f ≤ fuel)
    (ho : OnlySlots mode f) :
    Spec mode (garbageCollectWithGrace fuel rounds grace : Db H (Except DomainError (ℕ × ℕ))) f
      fun _ c => mode = .exact → Keeps (mode = .exact) f c := by
  refine Safe.bind (gcManifests_spec rounds (0, 0) f hf ho) fun r c hc => ?_
  cases r with
  | error e => exact safe_ret hc
  | ok total =>
    exact (gcBlobs_spec grace rounds total c fun hm => ((hc hm).eq hm).2.trans (hf hm)).mono
      fun _ _ h hm => (hc hm).trans h

/-! ### Derived and attached blobs -/

/-- **`store_derived_blob`** hands its reference to the row or gives it back; a new row has a slot. -/
theorem storeDerivedBlob_spec (k : DerivedKey H) (source : Source)
    (hf : mode = .exact → slots f < fuel) :
    Spec mode (storeDerivedBlob blake3 fuel k source) f fun _ c => Keeps (mode = .exact) (.slot ::ₘ f) c := by
  have hslot : ∀ {c : Multiset (Token H)}, Keeps (mode = .exact) f c → Keeps (mode = .exact) (.slot ::ₘ f) c := by
    intro c hc
    refine ⟨fun t ht => ?_, fun hm => ⟨fun t ht => ?_, ?_⟩⟩
    · rw [count_cons_of_ne ht]
      exact hc.le t ht
    · rw [count_cons_of_ne ht]
      exact (hc.eq hm).1 t ht
    · exact ((hc.eq hm).2).trans (slots_mono (le_cons_self f _))
  refine Safe.bind (storeFromStream_spec blake3 source fun _ _ => trivial) fun r c hr => ?_
  cases r with
  | error e => exact safe_ret (hslot hr)
  | ok stored =>
    obtain ⟨f', rfl, hk⟩ := hr
    refine Spec.issue trivial (fun r => ?_) fun s ch r s' rest _ ha he => ?_
    · rcases r with _ | _ | _
      · exact Multiset.zero_le _
      · exact Multiset.zero_le _
      · exact singleton_le.mpr (mem_cons_self _ _)
    rw [next_eq (fun _ => rfl) rfl]
    rcases r with _ | _ | _
    · rw [untouched rfl rfl]
      exact safe_ret (hslot (hk.cons (Allow.ne_exact ha rfl (fault_of_none he)) _))
    · rw [untouched rfl rfl]
      exact Safe.bind (removeReference_spec (balance mode) fuel stored.hash f'
        fun hm => (hk.eq hm).2.trans_lt (hf hm)) fun _ _ hc => safe_ret (hslot (hk.trans hc))
    · rw [turned rfl rfl]
      refine safe_ret ⟨fun t ht => ?_, fun hm => ⟨fun t ht => ?_, ?_⟩⟩
      · rw [count_cons_of_ne ht, count_cons_of_ne ht]
        exact hk.le t ht
      · rw [count_cons_of_ne ht, count_cons_of_ne ht]
        exact (hk.eq hm).1 t ht
      · have := (hk.eq hm).2
        simp only [slots, count_cons_self] at this ⊢
        omega

/-- **`store_attached_blob`** hands its reference to the row and releases the one it supersedes. -/
theorem storeAttachedBlob_spec (k : AttachedKey) (source : Source) (hm : mode ≠ .exact) :
    Spec mode (storeAttachedBlob blake3 fuel k source) f fun _ c => Keeps (mode = .exact) f c := by
  refine Safe.bind (storeFromStream_spec blake3 source fun _ _ => trivial) fun r c hr => ?_
  cases r with
  | error e => exact safe_ret hr
  | ok stored =>
    obtain ⟨f', rfl, hk⟩ := hr
    refine Triple.ask trivial fun _ _ r _ _ _ _ _ => ?_
    cases r with
    | none => exact safe_ret (hk.cons hm _)
    | some previous =>
      refine Spec.issue trivial (fun r => ?_) fun s ch r s' rest _ ha he => ?_
      · cases r with
        | none => exact Multiset.zero_le _
        | some _ => exact singleton_le.mpr (mem_cons_self _ _)
      rw [next_eq (fun _ => rfl) rfl]
      cases r with
      | none =>
        rw [untouched rfl rfl]
        exact safe_ret (hk.cons hm _)
      | some _ =>
        have hprev : s.fileAttachedBlobs.get k = previous := ha.2 hm
        simp only [loss, gain, sub_singleton, erase_cons_head, hprev]
        cases previous with
        | none =>
          simp only [Option.elim, add_zero]
          exact safe_ret hk
        | some old =>
          simp only [Option.elim]
          rw [add_comm, singleton_add]
          exact Safe.bind (removeReference_spec (balance mode) fuel old f' fun h => absurd h hm)
            fun _ _ hc => safe_ret (hk.trans hc)

/-- **`store_attached_blob_if_absent`**. -/
theorem storeAttachedBlobIfAbsent_spec (k : AttachedKey) (source : Source)
    (hf : mode = .exact → slots f < fuel) :
    Spec mode (storeAttachedBlobIfAbsent blake3 fuel k source) f fun _ c => Keeps (mode = .exact) f c := by
  refine Safe.bind (storeFromStream_spec blake3 source fun _ _ => trivial) fun r c hr => ?_
  cases r with
  | error e => exact safe_ret hr
  | ok stored =>
    obtain ⟨f', rfl, hk⟩ := hr
    refine Spec.issue trivial (fun r => ?_) fun s ch r s' rest _ ha he => ?_
    · rcases r with _ | _ | _
      · exact Multiset.zero_le _
      · exact Multiset.zero_le _
      · exact singleton_le.mpr (mem_cons_self _ _)
    rw [next_eq (fun _ => rfl) rfl]
    rcases r with _ | _ | _
    · rw [untouched rfl rfl]
      have hm : mode ≠ .exact := by
        intro hm
        obtain ⟨hfault, hfk⟩ := (ha.1 hm).1 rfl
        simp only [fkHolds] at hfk
        simp only [Machine.exec, hfk, if_true, answer, hfault] at he
        cases he
      exact safe_ret (hk.cons hm _)
    · rw [untouched rfl rfl]
      refine Safe.bind (removeReference_spec (balance mode) fuel stored.hash f'
        fun hm => (hk.eq hm).2.trans_lt (hf hm)) fun _ c hc => ?_
      exact Triple.ask trivial fun _ _ r _ _ _ _ _ => safe_ret (hk.trans hc)
    · rw [used rfl rfl]
      exact safe_ret hk

/-! ### The requests that move no references -/

open Requests

theorem storeLooseChunks_spec (frames : Frames) :
    Spec mode (storeLooseChunks blake3 frames) f fun _ c => c = f :=
  neutral_spec (storeLooseChunks_only blake3 (fun _ => .inl trivial) (fun _ => .inl trivial)
    (fun rows => .inr ⟨rows, rfl⟩) frames)

theorem settleOne_spec (transient : Bool) (h : H) :
    Spec mode (settleOne transient h) f fun _ c => c = f :=
  quiet_spec ((settleOne_drains transient h).mono fun op hop => by cases op <;> trivial)

end OxiCloud.OperationSpecs
