import OxiCloud.BalanceSpecs
import OxiCloud.Ingests

/-! # The balance of the ingest

An ingest session holds one chunk token for every chunk it pinned, and after its registration one for
every distinct chunk of the stream. A rollback gives the pinned ones back. `attach_manifest` turns the
chunk tokens into one reference on the content, or gives them back and takes a reference on the manifest
that is already there. -/

namespace OxiCloud.IngestSpecs

open Lib.Tables Lib.Programs Lib.Pools Schema OxiCloud.Machine Tokens Accounting Balance BlobHandler
open BalanceSpecs Footprint Ingests Multiset Prog

variable {H : Type} [DecidableEq H] {D : Discipline H} {f : Multiset (Token H)}

/-! ### Giving chunk references back -/

variable {hs : List H} {st : IngestState H} {v : IngestVars H}

/-- A release of chunks the program holds. -/
theorem releaseChunks_spec {α : Type} {hs' : List H} {k : Option Unit → Db H α}
    {Q : α → Multiset (Token H) → Prop} (hmem : ∀ x, x ∈ hs' ↔ x ∈ hs)
    (hk : ∀ r c, Keeps D.strict f c → Triple D (k r) c Q) :
    Triple D (issue (.releaseChunks hs') >>= k) (chunksOf hs + f) Q := by
  have hle : ∀ r, loss (.releaseChunks hs') r ≤ chunksOf hs + f := by
    intro r
    cases r with
    | none => exact Multiset.zero_le _
    | some _ =>
      rw [← chunksOf_congr hmem]
      exact Multiset.le_add_right _ _
  refine Triple.issue trivial hle fun s ch r s' rest _ ha he => hk r _ ?_
  rw [next_eq (fun _ => rfl) rfl]
  cases r with
  | none =>
    have hz : chunksOf hs + f - loss (.releaseChunks hs') none + gain (.releaseChunks hs') s none =
        chunksOf hs + f := by simp [loss, gain]
    rw [hz]
    exact (Keeps.refl D.strict f).add (Discipline.not_strict ha rfl (fault_of_none he)) _
  | some _ =>
    have hz : chunksOf hs + f - loss (.releaseChunks hs') (some ()) +
        gain (.releaseChunks hs') s (some ()) = f := by
      simp only [loss, gain, add_zero, chunksOf_congr hmem]
      rw [add_comm, Multiset.add_sub_cancel_right]
    rw [hz]
    exact Keeps.refl D.strict f

theorem releaseChunkRefs_spec {hs' : List H} (hmem : ∀ x, x ∈ hs' ↔ x ∈ hs) :
    Triple D (releaseChunkRefs hs') (chunksOf hs + f) fun _ c => Keeps D.strict f c := by
  cases hs' with
  | nil =>
    have hz : chunksOf hs + f = f := by
      rw [← chunksOf_congr hmem, chunksOf_nil, zero_add]
    rw [hz]
    exact safe_ret (Keeps.refl D.strict f)
  | cons x l => exact releaseChunks_spec hmem fun _ c hc => safe_ret hc

theorem runRollback_spec (st : IngestState H) :
    Triple D (runRollback st) (chunksOf st.pinned + f) fun _ c => Keeps D.strict f c := by
  have hwritten : ∀ c, Keeps D.strict f c → Triple D (rollbackWrites st) c fun _ c => Keeps D.strict f c := by
    intro c hc
    refine (neutral_spec (rollbackWrites_only st (fun _ => .inl trivial) (.inr ⟨_, rfl⟩))).mono ?_
    exact fun _ _ h => h ▸ hc
  unfold runRollback
  cases hp : st.pinned with
  | nil =>
    have hz : chunksOf ([] : List H) + f = f := by rw [chunksOf_nil, zero_add]
    rw [hz]
    exact hwritten f (Keeps.refl D.strict f)
  | cons x l => exact releaseChunks_spec (fun _ => Iff.rfl) fun _ c hc => hwritten c hc

/-! ### Settling a batch -/

/-- What the writes of a batch leave: the tokens as they were, and without an error every chunk is
recorded. -/
structure Wrote (c : Multiset (Token H)) (l : List (H × Bytes)) (st : IngestState H)
    (r : Except DomainError Unit × IngestState H) (c' : Multiset (Token H)) : Prop where
  tokens : c' = c
  pinned : r.2.pinned = st.pinned
  all : r.1 = .ok () → r.2.written.map Prod.fst = st.written.map Prod.fst ++ l.map Prod.fst

theorem writeChunks_spec (contested : List H) (c : Multiset (Token H)) (l : List (H × Bytes))
    (st : IngestState H) : Triple D (writeChunks contested l st) c (Wrote c l st) := by
  have hquiet := writeChunks_only (P := Op.Quiet) contested l st fun _ _ => ⟨trivial, trivial⟩
  refine ((quiet_spec hquiet).returns (writeChunks_returns contested l st)).mono fun r c' h => ?_
  exact ⟨h.1, h.2.pinned, h.2.all⟩

/-- What a settled batch leaves: tokens for the pinned chunks, and without an error every chunk of the
batch is pinned or written. -/
structure Settled (f : Multiset (Token H)) (batch : List H) (st : IngestState H)
    (r : Except DomainError Unit × IngestState H) (c : Multiset (Token H)) : Prop where
  tokens : c = chunksOf r.2.pinned + f
  all : r.1 = .ok () → (r.2.pinned ++ r.2.written.map Prod.fst).Perm
    (st.pinned ++ st.written.map Prod.fst ++ batch)

theorem settleBatch_spec {batch : List (H × Bytes)} (hd : st.pinned.Disjoint (batch.map Prod.fst)) :
    Triple D (settleBatch batch st) (chunksOf st.pinned + f)
      (Settled f (batch.map Prod.fst) st) := by
  unfold settleBatch
  split_ifs with hempty
  · rw [List.isEmpty_iff] at hempty
    subst hempty
    exact safe_ret ⟨rfl, fun _ => by simp⟩
  · refine Triple.issue trivial (fun r => Multiset.zero_le _) fun s ch r s' rest _ _ he => ?_
    rw [next_eq (fun _ => rfl) rfl]
    cases r with
    | none => exact safe_ret ⟨by simp [loss, gain], fun hok => by cases hok⟩
    | some pinned =>
      -- the answer lists exactly the hashes of the batch that are recorded as pinned
      have hsub : ∀ x ∈ pinned, x ∈ batch.map Prod.fst := by
        intro x hx
        rcases answer_cases he with ⟨-, h1, -⟩ | ⟨h1, -⟩
        · cases h1
        · cases h1
          exact List.mem_of_mem_filter hx
      have htok : chunksOf st.pinned + f - loss (.pinExisting (batch.map Prod.fst)) (some pinned) +
          gain (.pinExisting (batch.map Prod.fst)) s (some pinned) =
          chunksOf (st.pinned ++ (batch.map Prod.fst).filter (· ∈ pinned)) + f := by
        have h1 : chunksOf pinned = chunksOf ((batch.map Prod.fst).filter (· ∈ pinned)) :=
          chunksOf_congr fun x => by
            simp only [List.mem_filter, decide_eq_true_eq]
            exact ⟨fun hx => ⟨hsub x hx, hx⟩, fun hx => hx.2⟩
        rw [chunksOf_append (List.disjoint_of_subset_right (List.filter_subset_self _) hd), ← h1]
        simp only [loss, gain, Multiset.sub_zero]
        rw [add_right_comm]
      have hperm : ((batch.map Prod.fst).filter (· ∈ pinned) ++
          (batch.filter fun c => c.1 ∉ pinned).map Prod.fst).Perm (batch.map Prod.fst) := by
        have h1 : (batch.filter fun c => c.1 ∉ pinned).map Prod.fst =
            (batch.map Prod.fst).filter fun x => !decide (x ∈ pinned) := by
          rw [List.filter_map]
          simp [Function.comp_def]
        rw [h1]
        exact List.filter_append_perm _ _
      rw [htok]
      dsimp only
      split_ifs with hw
      · refine safe_ret ⟨rfl, fun _ => ?_⟩
        rw [List.isEmpty_iff] at hw
        rw [hw, List.map_nil, List.append_nil] at hperm
        rw [List.perm_iff_count] at hperm ⊢
        intro x
        have h1 := hperm x
        simp only [List.count_append] at h1 ⊢
        omega
      · refine Triple.ask (show (Op.cancelDeletions _).Quiet from trivial) fun _ _ r _ _ _ _ _ => ?_
        cases r with
        | none => exact safe_ret ⟨rfl, fun hok => by cases hok⟩
        | some contested =>
          refine (writeChunks_spec contested _ _ _).mono fun r c' hr => ⟨?_, fun hok => ?_⟩
          · rw [hr.tokens, hr.pinned]
          · rw [hr.pinned, hr.all hok]
            rw [List.perm_iff_count] at hperm ⊢
            intro x
            have h1 := hperm x
            simp only [List.count_append] at h1 ⊢
            omega

/-! ### The session -/

/-- The state of the loop: every distinct chunk seen so far is pinned, written or pending, once. -/
structure Ingesting (v : IngestVars H) (st : IngestState H) : Prop where
  nodup : (st.pinned ++ st.written.map Prod.fst ++ v.pending.map Prod.fst).Nodup
  all : ∀ x, x ∈ st.pinned ++ st.written.map Prod.fst ++ v.pending.map Prod.fst ↔ x ∈ v.chunkHashes
  seen : ∀ x, x ∈ v.sessionSeen ↔ x ∈ v.chunkHashes

omit [DecidableEq H] in
theorem Ingesting.disjoint (h : Ingesting v st) : st.pinned.Disjoint (v.pending.map Prod.fst) := by
  intro x hp hq
  have hn := h.nodup
  rw [List.append_assoc, List.nodup_append] at hn
  exact hn.2.2 x hp x (by simp [hq]) rfl

/-- A settled batch is no longer pending. -/
theorem Ingesting.settled (h : Ingesting v st)
    {r : Except DomainError Unit × IngestState H} {c : Multiset (Token H)}
    (hs : Settled f (v.pending.map Prod.fst) st r c) (hok : r.1 = .ok ()) : Ingesting (flushed v) r.2 where
  nodup := by
    rw [flushed, List.map_nil, List.append_nil, (hs.all hok).nodup_iff]
    exact h.nodup
  all x := by
    rw [flushed, List.map_nil, List.append_nil, (hs.all hok).mem_iff]
    exact h.all x
  seen := h.seen

/-- With nothing pending, every distinct chunk is pinned or written. -/
theorem Ingesting.chunks (h : Ingesting (flushed v) st) :
    chunksOf st.pinned + chunksOf (st.written.map Prod.fst) = chunksOf v.chunkHashes := by
  have hn := h.nodup
  have hall := h.all
  simp only [flushed, List.map_nil, List.append_nil] at hn hall
  rw [← chunksOf_append fun x hp hw => (List.nodup_append.mp hn).2.2 x hp x hw rfl]
  exact chunksOf_congr hall

omit [DecidableEq H] in
theorem Ingesting.push_seen {blake3 : Bytes → H}
    (h : Ingesting v st) {data : Bytes} (hd : blake3 data ∈ v.sessionSeen) :
    Ingesting (v.push blake3 data) st where
  nodup := h.nodup
  all x := by
    have h1 := (h.seen _).mp hd
    rw [show (v.push blake3 data).pending = v.pending from rfl, h.all x]
    simp only [IngestVars.push, List.mem_append, List.mem_singleton]
    exact ⟨.inl, fun hx => hx.elim id fun hx => hx ▸ h1⟩
  seen x := by
    have h1 := (h.seen _).mp hd
    rw [show (v.push blake3 data).sessionSeen = v.sessionSeen from rfl, h.seen x]
    simp only [IngestVars.push, List.mem_append, List.mem_singleton]
    exact ⟨.inl, fun hx => hx.elim id fun hx => hx ▸ h1⟩

omit [DecidableEq H] in
theorem Ingesting.push_new {blake3 : Bytes → H}
    (h : Ingesting v st) {data : Bytes} (hd : blake3 data ∉ v.sessionSeen) :
    Ingesting (noted blake3 v data) st where
  nodup := by
    have h1 : blake3 data ∉ st.pinned ++ st.written.map Prod.fst ++ v.pending.map Prod.fst := by
      rw [h.all, ← h.seen]
      exact hd
    rw [noted, List.map_append, ← List.append_assoc, List.nodup_append]
    refine ⟨h.nodup, by simp, fun x hx y hy hxy => ?_⟩
    rw [List.map_singleton, List.mem_singleton] at hy
    subst hxy hy
    exact h1 hx
  all x := by
    rw [noted, List.map_append, ← List.append_assoc, List.mem_append, h.all x]
    simp [IngestVars.push]
  seen x := by
    rw [noted, List.mem_cons, h.seen x]
    simp only [IngestVars.push, List.mem_append, List.mem_singleton]
    exact Or.comm

/-- **An ingest** that succeeds holds one reference on every distinct chunk, one that fails none. -/
theorem ingestChunksFromStream_spec (blake3 : Bytes → H) (source : Source) :
    Triple D (ingestChunksFromStream blake3 source) f fun r c =>
      match r with
      | .error _ => Keeps D.strict f c
      | .ok o => c = chunksOf o.chunkHashes + f := by
  refine Session.ingest (A := fun v st c => c = chunksOf st.pinned + f ∧ Ingesting v st)
    (B := fun st c => c = chunksOf st.pinned + f) ?_ source ⟨?_, by simp, by simp, by simp⟩
  swap
  · rw [chunksOf_nil, zero_add]
  refine
    { seen := fun ha hs => ⟨ha.1, ha.2.push_seen hs⟩
      new := fun ha hs => ⟨ha.1, ha.2.push_new hs⟩
      settle := fun ha => ?_
      stop := fun ha => ha.1
      rollback := fun _ hb => hb ▸ runRollback_spec _
      done := fun ha hw => ?_
      sync := fun ha => Triple.ask (k := ret) trivial fun _ _ _ _ _ _ _ _ => safe_ret ha
      register := fun ha => ?_ }
  · rw [ha.1]
    exact (settleBatch_spec ha.2.disjoint).mono fun _ _ hr =>
      ⟨hr.tokens, fun hok => ⟨hr.tokens, ha.2.settled hr hok⟩⟩
  · have hchunks := ha.2.chunks
    rw [hw, List.map_nil, chunksOf_nil, add_zero] at hchunks
    rw [ha.1, hchunks]
    rfl
  · refine Triple.issue (k := ret) trivial (fun r => Multiset.zero_le _) fun s ch r s' rest _ _ _ => ?_
    rw [next_eq (fun _ => rfl) rfl, ha.1]
    refine safe_ret ⟨?_, ?_⟩
    · rintro rfl
      simp [loss, gain]
    · rintro rfl
      simp only [loss, gain, Multiset.sub_zero]
      rw [add_right_comm, ha.2.chunks]
      rfl

/-! ### Attaching a manifest -/

/-- What a program that stores content leaves: one reference on it, or nothing. -/
def Stored (strict : Prop) (f : Multiset (Token H)) (r : Except DomainError (DedupResult H))
    (c : Multiset (Token H)) : Prop :=
  match r with
  | .error _ => Keeps strict f c
  | .ok stored => ∃ f', c = .file stored.hash ::ₘ f' ∧ Keeps strict f f'

theorem attachLoop_spec {h : H} {held : List H} {sizes : List ℕ} {total : ℕ}
    (hheld : ∀ x, x ∈ held ↔ x ∈ hs) (hfresh : D.fresh (chunksOf hs + f) h) : ∀ n,
    Triple D (attachLoop h hs sizes total held n) (chunksOf hs + f)
      fun r c => Stored D.strict f r c ∧ ∀ stored, r = .ok stored → stored.hash = h
  | 0 => Safe.bind (releaseChunkRefs_spec hheld) fun _ _ hc =>
      safe_ret ⟨hc, fun _ h => by cases h⟩
  | n + 1 => by
    refine Triple.insert hfresh (Multiset.le_add_right _ _) fun s ch r s' rest _ ha he => ?_
    rw [next_eq (fun _ => rfl) rfl]
    rcases r with _ | _ | _
    · rw [untouched rfl rfl]
      refine safe_ret ⟨?_, fun _ h => by cases h⟩
      exact (Keeps.refl D.strict f).add (Discipline.not_strict ha rfl (fault_of_none he)) _
    · rw [untouched rfl rfl]
      refine Triple.issue trivial (fun r => Multiset.zero_le _) fun s ch r s' rest _ ha he => ?_
      rw [next_eq (fun _ => rfl) rfl]
      rcases r with _ | _ | size
      · rw [untouched rfl rfl]
        refine safe_ret ⟨?_, fun _ h => by cases h⟩
        exact (Keeps.refl D.strict f).add (Discipline.not_strict ha rfl (fault_of_none he)) _
      · rw [untouched rfl rfl]
        exact attachLoop_spec hheld hfresh n
      · simp only [loss, gain, Multiset.sub_zero]
        rw [add_assoc, add_comm f, singleton_add]
        refine Safe.bind (releaseChunkRefs_spec hheld) fun _ c hc => ?_
        rw [← singleton_add] at hc
        obtain ⟨f', rfl, hk⟩ := hc.split (by simp)
        exact safe_ret ⟨⟨f', singleton_add _ _, hk⟩, fun stored h => by cases h; rfl⟩
    · have h1 : chunksOf hs + f - loss (.insertManifest h ⟨hs, sizes, total, 1⟩) (some true) +
          gain (.insertManifest h ⟨hs, sizes, total, 1⟩) s (some true) = .file h ::ₘ f := by
        simp only [loss, gain, replicate_one]
        rw [add_comm (chunksOf hs), Multiset.add_sub_cancel_right, add_comm, singleton_add]
      rw [h1]
      exact safe_ret ⟨⟨f, rfl, Keeps.refl D.strict f⟩, fun stored h => by cases h; rfl⟩

theorem attachManifest_spec {h : H} {held : List H} {sizes : List ℕ} {total : ℕ}
    (hheld : ∀ x, x ∈ held ↔ x ∈ hs) (hfresh : D.fresh (chunksOf hs + f) h) :
    Triple D (attachManifest h hs sizes total held) (chunksOf hs + f)
      fun r c => Stored D.strict f r c ∧ ∀ stored, r = .ok stored → stored.hash = h :=
  attachLoop_spec hheld hfresh 3

/-- **Stored content** is held by one reference. -/
theorem storeFromStream_spec (blake3 : Bytes → H) (source : Source)
    (hfresh : ∀ hs h, D.fresh (chunksOf hs + f) h) :
    Triple D (storeFromStream blake3 source) f (Stored D.strict f) := by
  refine Safe.bind (ingestChunksFromStream_spec blake3 source) fun r c hr => ?_
  cases r with
  | error e => exact safe_ret hr
  | ok o =>
    rw [hr]
    exact (attachManifest_spec (fun x => List.mem_dedup) (hfresh _ _)).mono fun _ _ h => h.1

end OxiCloud.IngestSpecs
