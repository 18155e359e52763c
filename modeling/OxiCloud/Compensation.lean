import OxiCloud.Ingests
import OxiCloud.Uploads

/-! # What a failed call leaves behind

`store_from_stream` and `commit_with_perms` take references while they go and give them back when a step
fails. `Restored` is what they are meant to leave after an error: every counter as it was, no new
manifest, and only unreferenced new chunk rows. The statements that give references back
(`compensates`) succeed, any other may fail; nothing runs in between.

* `ingestChunksFromStream_ok`: an ingest session that fails restores the store, wherever it fails.
* `removeReference_restores`: so does the release of a reference on a file hash.
* `attachManifest` is the gap: an error of its `INSERT` or of its `UPDATE` is returned by `?`, past the
  release of the chunk references the caller handed over. `failed_call_restores`: a failed call restores
  the store iff it held no chunk reference or its last statement was another one. -/

namespace OxiCloud.Compensation

open Lib.Tables Lib.Programs Schema OxiCloud.Machine BlobHandler FileRepository Footprint Ingests Uploads Prog Table Schema.Store List Option

variable {H : Type} {s₀ s s' : Store H}

/-! ### Restored stores -/

/-- Every counter of `s` has its value in `s'`, `s'` has no other manifest, and a chunk row only `s'` has is
unreferenced. -/
structure Restored (s s' : Store H) : Prop where
  blobs : ∀ h b, s.blobs.get h = some b → ∃ b', s'.blobs.get h = some b' ∧ b'.refCount = b.refCount
  manifests : ∀ h m, s.chunkManifests.get h = some m →
    ∃ m', s'.chunkManifests.get h = some m' ∧ m'.refCount = m.refCount
  noManifest : ∀ h, s.chunkManifests.get h = none → s'.chunkManifests.get h = none
  orphans : ∀ h b, s.blobs.get h = none → s'.blobs.get h = some b → b.refCount = 0

theorem restored_of_counts
    (hb : ∀ h, (s'.blobs.get h).map BlobRow.refCount = (s.blobs.get h).map BlobRow.refCount)
    (hm : ∀ h, (s'.chunkManifests.get h).map Manifest.refCount =
      (s.chunkManifests.get h).map Manifest.refCount) : Restored s s' where
  blobs h b hs := by
    have := hb h
    rwa [hs, map_some, map_eq_some_iff] at this
  manifests h m hs := by
    have := hm h
    rwa [hs, map_some, map_eq_some_iff] at this
  noManifest h hs := by
    have := hm h
    rwa [hs, map_none, map_eq_none_iff] at this
  orphans h b hn hs := by
    have := hb h
    rw [hn, hs] at this
    cases this

/-- A counter one higher than before is a reference left behind. -/
theorem not_restored {h : H} (hh : s.blobRefs h = s₀.blobRefs h + 1) : ¬ Restored s₀ s := by
  intro hr
  cases hb₀ : s₀.blobs.get h with
  | some b =>
    obtain ⟨b', hb', href⟩ := hr.blobs h b hb₀
    rw [blobRefs_of_get hb', blobRefs_of_get hb₀] at hh
    omega
  | none =>
    obtain ⟨b, hb⟩ := exists_blob_of_pos (s := s) (h := h) (by omega)
    rw [blobRefs_of_get hb, hr.orphans h b hb₀ hb, blobRefs_of_none hb₀] at hh
    omega

/-- The statements that give back what a call has taken. -/
def compensates : Op H → Bool
  | .releaseChunks _ | .registerOrphans _ | .selectManifest _ | .removeManifest .. | .removeLegacy _
  | .deleteDerived _ => true
  | _ => false

/-- The compensating statements do not fail. -/
def Compensated (op : Op H) (ch : Choice H) (_ : Store H) : Prop :=
  compensates op = true → ch.fault = false

instance (op : Op H) (ch : Choice H) (s : Store H) : Decidable (Compensated op ch s) :=
  inferInstanceAs (Decidable (_ → _))

/-- The statements of `attach_manifest` that are followed by `?`. -/
def attaches : Op H → Bool
  | .insertManifest .. | .bumpManifest _ => true
  | _ => false

variable [DecidableEq H]

/-! ### Pinned rows -/

/-- The blob rows of `s` are those of `s₀`, with one reference more on every hash of `hs`. -/
structure Pinned (s₀ : Store H) (hs : List H) (s : Store H) : Prop where
  rows : ∀ h, (s.blobs.get h).map BlobRow.refCount =
    (s₀.blobs.get h).map fun b => b.refCount + if h ∈ hs then 1 else 0
  present : ∀ h ∈ hs, (s₀.blobs.get h).isSome
  derived : s.contentDerivedBlobs = s₀.contentDerivedBlobs

theorem pinned_refl (s : Store H) : Pinned s [] s where
  rows h := by cases s.blobs.get h <;> simp
  present _ hh := absurd hh not_mem_nil
  derived := rfl

section Pinned
variable {hs : List H}

section

variable (hp : Pinned s₀ hs s)
include hp

theorem Pinned.congr (hb : s'.blobs = s.blobs)
    (hd : s'.contentDerivedBlobs = s.contentDerivedBlobs) : Pinned s₀ hs s' where
  rows h := by rw [hb, hp.rows]
  present := hp.present
  derived := hd.trans hp.derived

theorem Pinned.withManifests (t : Table H (Manifest H)) :
    Pinned s₀ hs { s with chunkManifests := t } := hp.congr rfl rfl

theorem Pinned.row {h : H} {b : BlobRow} (hb : s₀.blobs.get h = some b) :
    ∃ b', s.blobs.get h = some b' ∧ b'.refCount = b.refCount + if h ∈ hs then 1 else 0 := by
  have hrow := hp.rows h
  rw [hb, map_some, map_eq_some_iff] at hrow
  exact hrow

theorem Pinned.no_row {h : H} (hb : s₀.blobs.get h = none) : s.blobs.get h = none := by
  have hrow := hp.rows h
  rw [hb, map_none, map_eq_none_iff] at hrow
  exact hrow

end

theorem Pinned.counts (hp : Pinned s₀ [] s) (h : H) :
    (s.blobs.get h).map BlobRow.refCount = (s₀.blobs.get h).map BlobRow.refCount := by
  simpa using hp.rows h

section

variable (hp : Pinned s₀ hs s)
include hp

theorem Pinned.blobRefs (h : H) : s.blobRefs h = s₀.blobRefs h + if h ∈ hs then 1 else 0 := by
  cases hb₀ : s₀.blobs.get h with
  | some b =>
    obtain ⟨b', hb', href⟩ := hp.row hb₀
    rw [blobRefs_of_get hb', blobRefs_of_get hb₀, href]
  | none =>
    have hh : h ∉ hs := fun hh => by simpa [hb₀] using hp.present h hh
    rw [blobRefs_of_none (hp.no_row hb₀), blobRefs_of_none hb₀, if_neg hh]

theorem Pinned.restored_iff (hm : s.chunkManifests = s₀.chunkManifests) :
    Restored s₀ s ↔ hs = [] := by
  constructor
  · intro hr
    cases hs with
    | nil => rfl
    | cons h l =>
      have hh := hp.blobRefs h
      rw [if_pos mem_cons_self] at hh
      exact absurd hr (not_restored hh)
  · rintro rfl
    exact restored_of_counts hp.counts fun h => by rw [hm]

theorem Pinned.release : Pinned s₀ [] (s.releaseChunks hs) where
  rows h := by
    have hrow := hp.rows h
    simp only [Store.releaseChunks, Store.releaseBy, get_modify]
    cases hb₀ : s₀.blobs.get h with
    | none => rw [hp.no_row hb₀]; rfl
    | some b =>
      obtain ⟨b', hb', href⟩ := hp.row hb₀
      by_cases hh : h ∈ hs <;> simp_all [BlobRow.release]
  present _ hh := absurd hh not_mem_nil
  derived := hp.derived

/-- Pinning the listed rows that exist, none of which is pinned yet. -/
theorem Pinned.pin {l : List H} (hl : ∀ h ∈ l, h ∉ hs) :
    Pinned s₀ (hs ++ l.filter (· ∈ (s.pinExisting l).1)) (s.pinExisting l).2 where
  rows h := by
    simp only [Store.pinExisting, get_modify]
    cases hb₀ : s₀.blobs.get h with
    | none => rw [hp.no_row hb₀]; rfl
    | some b =>
      obtain ⟨b', hb', href⟩ := hp.row hb₀
      rw [hb']
      by_cases hh : h ∈ l
      · have hfresh := hl h hh
        simp [hh, hb', href, hfresh, BlobRow.pin]
      · simp [hh, href]
  present h hh := by
    rcases mem_append.mp hh with hh | hh
    · exact hp.present h hh
    · cases hb₀ : s₀.blobs.get h with
      | some b => rfl
      | none =>
        have hn := hp.no_row hb₀
        simp [Store.pinExisting, hn] at hh
  derived := hp.derived

end

/-- Registering rows without a reference restores what releasing the pins has restored. -/
theorem Pinned.orphans (hp : Pinned s₀ [] s) (hm : s.chunkManifests = s₀.chunkManifests)
    (rows : List (H × ℕ)) : Restored s₀ (s.registerOrphans rows) := by
  have hr := (hp.restored_iff hm).mpr rfl
  refine ⟨fun h b hb => ?_, hr.manifests, hr.noManifest, fun h b hn hb => ?_⟩
  · obtain ⟨b', hb', href⟩ := hr.blobs h b hb
    refine ⟨b', ?_, href⟩
    simp only [Store.registerOrphans, get_upsert, hb']
    cases rows.lookup h <;> rfl
  · simp only [Store.registerOrphans, get_upsert, hp.no_row hn] at hb
    cases hl : rows.lookup h with
    | none =>
      rw [hl] at hb
      cases hb
    | some size =>
      rw [hl] at hb
      cases hb
      rfl

end Pinned

/-! ### Runs of the small programs -/

/-- The runs in which the compensating statements succeed. -/
abbrev Ran {α : Type} : Db H α → Store H → List (Op H) → α → Store H → Prop := Run (machine H) Compensated

section Small
variable {tr : List (Op H)} {hs : List H}

theorem run_quiet {α : Type} {p : Db H α} {a : α} (h : p.Only Op.Quiet)
    (hr : Ran p s tr a s') : SameRows s s' := by
  refine hr.of_only (I := fun x => SameRows s x) h (fun op hop c x r x' he hi => ?_)
    ⟨⟨rfl, rfl, rfl, rfl⟩, rfl⟩
  have hx := quiet_exec hop he
  exact ⟨⟨hx.files.trans hi.files, hx.manifests.trans hi.manifests, hx.derived.trans hi.derived,
    hx.attached.trans hi.attached⟩, hx.blobs.trans hi.blobs⟩

theorem Pinned.sameRows (hp : Pinned s₀ hs s) (h : SameRows s s') : Pinned s₀ hs s' :=
  hp.congr h.blobs h.derived

theorem releaseChunkRefs_pinned {u : Unit} (hp : Pinned s₀ hs s)
    (hr : Ran (releaseChunkRefs hs) s tr u s') :
    Pinned s₀ [] s' ∧ s'.chunkManifests = s.chunkManifests := by
  unfold releaseChunkRefs at hr
  split_ifs at hr with he
  · obtain ⟨-, -, rfl⟩ := run_ret.mp hr
    rw [List.isEmpty_iff] at he
    exact ⟨he ▸ hp, rfl⟩
  · obtain ⟨ch, r, s₁, tr₁, hg, hex, -, h1⟩ := run_stmt.mp hr
    obtain ⟨-, -, rfl⟩ := run_ret.mp h1
    obtain ⟨-, rfl⟩ := answer_ok (hg rfl) hex
    exact ⟨hp.release, rfl⟩

end Small

/-! ### Ingest sessions -/

/-- The ledger of a session describes what it has done to the rows. -/
structure Ledger (s₀ : Store H) (st : IngestState H) (s : Store H) : Prop extends
    Pinned s₀ st.pinned s where
  manifests : s.chunkManifests = s₀.chunkManifests
  written : ∀ w ∈ st.written, s₀.blobs.get w.1 = none

theorem Ledger.not_written {st : IngestState H} {h : H} (hl : Ledger s₀ st s) (hp : h ∈ st.pinned) :
    h ∉ st.written.map Prod.fst := by
  intro hmem
  obtain ⟨w, hw, rfl⟩ := List.mem_map.mp hmem
  simpa [hl.written w hw] using hl.present _ hp

theorem Ledger.sameRows {st : IngestState H} (hl : Ledger s₀ st s) (h : SameRows s s') : Ledger s₀ st s' :=
  ⟨hl.toPinned.sameRows h, h.manifests.trans hl.manifests, hl.written⟩

/-- The hashes a session has settled. -/
def IngestState.settled (st : IngestState H) : List H := st.pinned ++ st.written.map Prod.fst

/-- What `settle_batch` promises for the hashes `hs`. -/
structure BatchOK (s₀ : Store H) (hs : List H) (st : IngestState H)
    (r : Except DomainError Unit × IngestState H) (s' : Store H) : Prop where
  ledger : Ledger s₀ r.2 s'
  pinned : ∀ h ∈ r.2.pinned, h ∈ st.pinned ∨ h ∈ hs
  settled : r.1 = .ok () → ∀ h, h ∈ IngestState.settled st ∨ h ∈ hs → h ∈ IngestState.settled r.2

section Ingest
variable {tr : List (Op H)}

variable {st : IngestState H}

theorem settleBatch_ok {batch : List (H × Bytes)} {r : Except DomainError Unit × IngestState H}
    (hl : Ledger s₀ st s) (hfresh : ∀ h ∈ batch.map Prod.fst, h ∉ st.pinned)
    (hr : Ran (settleBatch batch st) s tr r s') : BatchOK s₀ (batch.map Prod.fst) st r s' := by
  unfold settleBatch at hr
  split_ifs at hr with he
  · obtain ⟨-, rfl, rfl⟩ := run_ret.mp hr
    rw [List.isEmpty_iff] at he
    subst he
    exact ⟨hl, fun h hh => .inl hh, fun _ h hh => hh.resolve_right not_mem_nil⟩
  obtain ⟨ch, pin, s₁, tr₁, -, hex, -, h1⟩ := run_stmt.mp hr
  rcases answer_cases hex with ⟨-, rfl, rfl⟩ | ⟨rfl, rfl⟩
  · obtain ⟨-, rfl, rfl⟩ := run_ret.mp h1
    exact ⟨hl, fun h hh => .inl hh, fun h' => by cases h'⟩
  -- the rows that exist are pinned now; what is left to write has no row
  set hs := batch.map Prod.fst with hhs
  set pinned := (s.pinExisting hs).1 with hpinned
  have hpin := hl.toPinned.pin hfresh
  have hman : (s.pinExisting hs).2.chunkManifests = s₀.chunkManifests := hl.manifests
  have hsub : ∀ h ∈ st.pinned ++ hs.filter (· ∈ pinned), h ∈ st.pinned ∨ h ∈ hs := by
    intro h hh
    rcases mem_append.mp hh with hh | hh
    · exact .inl hh
    · exact .inr (mem_of_mem_filter hh)
  have hnone : ∀ h ∈ hs, h ∉ pinned → s₀.blobs.get h = none := by
    intro h hh hn
    cases hb : s₀.blobs.get h with
    | none => rfl
    | some b =>
      obtain ⟨b', hb', -⟩ := hl.row hb
      exact absurd (by simp [hpinned, Store.pinExisting, hh, hb']) hn
  have hsettled : ∀ h, h ∈ IngestState.settled st ∨ h ∈ hs →
      h ∈ st.pinned ++ hs.filter (· ∈ pinned) ∨ h ∈ st.written.map Prod.fst ∨
        h ∈ (batch.filter fun c => c.1 ∉ pinned).map Prod.fst := by
    intro h hh
    rcases hh with hh | hh
    · rcases mem_append.mp hh with hh | hh
      · exact .inl (mem_append_left _ hh)
      · exact .inr (.inl hh)
    · by_cases hp : h ∈ pinned
      · exact .inl (mem_append_right _ (mem_filter.mpr ⟨hh, by simpa using hp⟩))
      · obtain ⟨c, hc, rfl⟩ := List.mem_map.mp hh
        exact .inr (.inr (List.mem_map.mpr ⟨c, mem_filter.mpr ⟨hc, by simpa using hp⟩, rfl⟩))
  dsimp only at h1
  split_ifs at h1 with hw
  · obtain ⟨-, rfl, rfl⟩ := run_ret.mp h1
    refine ⟨⟨hpin, hman, hl.written⟩, hsub, fun _ h hh => ?_⟩
    rw [List.isEmpty_iff] at hw
    rcases hsettled h hh with hh | hh | hh
    · exact mem_append_left _ hh
    · exact mem_append_right _ hh
    · rw [hw] at hh
      exact absurd hh not_mem_nil
  obtain ⟨ch₂, canc, s₂, tr₂, -, hex₂, -, h2⟩ := run_stmt.mp h1
  have hcancel : (Op.cancelDeletions ((batch.filter fun c => c.1 ∉ pinned).map Prod.fst)).Quiet := trivial
  have hrows₂ := quiet_exec hcancel hex₂
  cases canc with
  | none =>
    obtain ⟨-, rfl, rfl⟩ := run_ret.mp h2
    exact ⟨⟨hpin.sameRows hrows₂, hrows₂.manifests.trans hman, hl.written⟩, hsub, fun h' => by cases h'⟩
  | some contested =>
    have hrows₃ := run_quiet (writeChunks_only contested _ _ fun _ _ => ⟨trivial, trivial⟩) h2
    obtain ⟨hp, hwr, hok⟩ := h2.returns (writeChunks_returns _ _ _)
    refine ⟨⟨?_, ?_, fun w hw => ?_⟩, fun h hh => hsub h (by rwa [hp] at hh), fun h' h hh => ?_⟩
    · rw [hp]
      exact (hpin.sameRows hrows₂).sameRows hrows₃
    · exact hrows₃.manifests.trans (hrows₂.manifests.trans hman)
    · rcases hwr w hw with hw | hw
      · exact hl.written w hw
      · obtain ⟨c, hc, hcw⟩ := List.mem_map.mp hw
        obtain ⟨hc1, hc2⟩ := mem_filter.mp hc
        rw [← hcw]
        exact hnone c.1 (List.mem_map_of_mem hc1) (by simpa using hc2)
    · rw [IngestState.settled, hp, hok h']
      rcases hsettled h hh with hh | hh | hh
      · exact mem_append_left _ hh
      · exact mem_append_right _ (mem_append_left _ hh)
      · exact mem_append_right _ (mem_append_right _ hh)

/-- `run_rollback` restores the store, also if its sync fails: then nothing is registered. -/
theorem runRollback_restores {u : Unit} (hl : Ledger s₀ st s)
    (hr : Ran (runRollback st) s tr u s') : Restored s₀ s' := by
  have hwritten : ∀ {s s' : Store H} {tr : List (Op H)} {u : Unit}, Pinned s₀ [] s →
      s.chunkManifests = s₀.chunkManifests →
      Ran (rollbackWrites st) s tr u s' → Restored s₀ s' := by
    intro s s' tr u hp hm hr
    unfold rollbackWrites at hr
    split_ifs at hr with he
    · obtain ⟨-, -, rfl⟩ := run_ret.mp hr
      exact (hp.restored_iff hm).mpr rfl
    obtain ⟨ch, r, s₁, tr₁, -, hex, -, h1⟩ := run_stmt.mp hr
    have hsync : (Op.syncBlobs (st.written.map Prod.fst)).Quiet := trivial
    have hrows := quiet_exec hsync hex
    have hp₁ := hp.sameRows hrows
    have hm₁ := hrows.manifests.trans hm
    cases r with
    | none =>
      obtain ⟨-, -, rfl⟩ := run_ret.mp h1
      exact (hp₁.restored_iff hm₁).mpr rfl
    | some _ =>
      obtain ⟨ch₂, r₂, s₂, tr₂, hg₂, hex₂, -, h2⟩ := run_stmt.mp h1
      obtain ⟨-, -, rfl⟩ := run_ret.mp h2
      obtain ⟨-, rfl⟩ := answer_ok (hg₂ rfl) hex₂
      exact hp₁.orphans hm₁ st.written
  unfold runRollback at hr
  cases hpin : st.pinned with
  | nil =>
    have hp := hl.toPinned
    rw [hpin] at hp hr
    exact hwritten hp hl.manifests hr
  | cons x l =>
    have hp := hl.toPinned
    rw [hpin] at hp hr
    obtain ⟨ch, r, s₁, tr₁, hg, hex, -, h1⟩ := run_call.mp hr
    obtain ⟨-, rfl⟩ := answer_ok (hg rfl) hex
    exact hwritten hp.release hl.manifests h1

/-- Where the ingest loop is: every hash seen is settled or pending, and no pending one is pinned. -/
structure Pos (s₀ : Store H) (v : IngestVars H) (st : IngestState H) (s : Store H) : Prop where
  ledger : Ledger s₀ st s
  hashes : ∀ h ∈ v.chunkHashes, h ∈ v.sessionSeen
  seen : ∀ h ∈ v.sessionSeen, h ∈ IngestState.settled st ∨ h ∈ v.pending.map Prod.fst
  pinned : ∀ h ∈ st.pinned, h ∈ v.sessionSeen
  pending : ∀ h ∈ v.pending.map Prod.fst, h ∈ v.sessionSeen ∧ h ∉ st.pinned

theorem Pos.settle {v : IngestVars H} {st' : IngestState H} (hp : Pos s₀ v st s)
    (hr : Ran (settleBatch v.pending st) s tr (.ok (), st') s') : Pos s₀ (flushed v) st' s' := by
  have hb := settleBatch_ok hp.ledger (fun h hh => (hp.pending h hh).2) hr
  refine ⟨hb.ledger, hp.hashes, fun h hh => .inl (hb.settled rfl h (hp.seen h hh)), fun h hh => ?_,
    fun h hh => absurd hh not_mem_nil⟩
  rcases hb.pinned h hh with hh | hh
  · exact hp.pinned h hh
  · exact (hp.pending h hh).1

section Loop
variable (blake3 : Bytes → H) {v : IngestVars H} {st : IngestState H}

theorem Pos.push_seen (hp : Pos s₀ v st s) {data : Bytes} (hd : blake3 data ∈ v.sessionSeen) :
    Pos s₀ (v.push blake3 data) st s := by
  refine ⟨hp.ledger, fun h hh => ?_, hp.seen, hp.pinned, hp.pending⟩
  rcases mem_append.mp hh with hh | hh
  · exact hp.hashes h hh
  · rw [mem_singleton] at hh
    exact hh ▸ hd

theorem Pos.push_new (hp : Pos s₀ v st s) {data : Bytes} (hd : blake3 data ∉ v.sessionSeen) :
    Pos s₀ (noted blake3 v data) st s := by
  refine ⟨hp.ledger, fun h hh => ?_, fun h hh => ?_, fun h hh => mem_cons_of_mem _ (hp.pinned h hh),
    fun h hh => ?_⟩
  · rcases mem_append.mp hh with hh | hh
    · exact mem_cons_of_mem _ (hp.hashes h hh)
    · rw [mem_singleton] at hh
      exact hh ▸ mem_cons_self
  · rw [noted, map_append, mem_append]
    rcases mem_cons.mp hh with rfl | hh
    · exact .inr (.inr (mem_singleton_self _))
    · exact (hp.seen h hh).imp id .inl
  · rw [noted, map_append, mem_append] at hh
    rcases hh with hh | hh
    · exact ⟨mem_cons_of_mem _ (hp.pending h hh).1, (hp.pending h hh).2⟩
    · obtain rfl := mem_singleton.mp hh
      exact ⟨mem_cons_self, fun h' => hd (hp.pinned _ h')⟩

theorem ingestLoop_ok : ∀ {chunks : List Bytes} {v : IngestVars H} {st : IngestState H}
    {s s' : Store H} {tr : List (Op H)} {r : Except DomainError (IngestVars H) × IngestState H},
    Pos s₀ v st s → Ran (ingestLoop blake3 chunks v st) s tr r s' →
      Ledger s₀ r.2 s' ∧
      ∀ v', r.1 = .ok v' → Pos s₀ v' r.2 s' ∧ v'.chunkHashes = v.chunkHashes ++ chunks.map blake3
  | [], v, st, s, s', tr, r, hp, hr => by
    obtain ⟨-, rfl, rfl⟩ := run_ret.mp hr
    refine ⟨hp.ledger, fun v' hv' => ?_⟩
    cases hv'
    exact ⟨hp, by simp⟩
  | data :: rest, v, st, s, s', tr, r, hp, hr => by
    have hnext : ∀ {v₁ : IngestVars H} {st₁ : IngestState H} {s₁ : Store H} {tr₁ : List (Op H)},
        Pos s₀ v₁ st₁ s₁ → v₁.chunkHashes = v.chunkHashes ++ [blake3 data] →
        Ran (ingestLoop blake3 rest v₁ st₁) s₁ tr₁ r s' →
        Ledger s₀ r.2 s' ∧ ∀ v', r.1 = .ok v' → Pos s₀ v' r.2 s' ∧
          v'.chunkHashes = v.chunkHashes ++ (data :: rest).map blake3 := by
      intro v₁ st₁ s₁ tr₁ hp₁ hv₁ h1
      obtain ⟨hl, hok⟩ := ingestLoop_ok hp₁ h1
      refine ⟨hl, fun v' hv' => ⟨(hok v' hv').1, ?_⟩⟩
      rw [(hok v' hv').2, hv₁]
      simp
    rw [ingestLoop] at hr
    dsimp only at hr
    split_ifs at hr with hseen hflush
    · exact hnext (hp.push_seen blake3 hseen) rfl hr
    · obtain ⟨⟨b, st₁⟩, s₁, tr₁, tr₂, h1, h2, -⟩ := run_bind.mp hr
      have hp₁ := hp.push_new blake3 hseen
      cases b with
      | error e =>
        obtain ⟨-, rfl, rfl⟩ := run_ret.mp h2
        have hb := settleBatch_ok hp₁.ledger (fun h hh => (hp₁.pending h hh).2) h1
        exact ⟨hb.ledger, fun v' hv' => by cases hv'⟩
      | ok u => exact hnext (hp₁.settle h1) rfl h2
    · exact hnext (hp.push_new blake3 hseen) rfl hr

/-- What an ingest session promises: a failed one restores the store, a successful one holds one reference
on every chunk. -/
structure IngestOK (source : Source) (s : Store H) (r : Except DomainError (IngestOutcome H))
    (s' : Store H) : Prop where
  failed : ∀ e, r = .error e → Restored s s'
  hashes : ∀ o, r = .ok o → o.chunkHashes = source.chunks.map blake3
  held : ∀ o, r = .ok o → ∀ h ∈ o.chunkHashes, s'.blobRefs h = s.blobRefs h + 1

theorem ingestChunksFromStream_ok {source : Source} {r : Except DomainError (IngestOutcome H)}
    (hr : Ran (ingestChunksFromStream blake3 source) s tr r s') :
    IngestOK blake3 source s r s' := by
  have hroll : ∀ {st : IngestState H} {s₁ : Store H} {e : DomainError} {tr₁ : List (Op H)},
      Ledger s st s₁ → Ran (runRollback st >>= fun _ =>
        ret (.error e : Except DomainError (IngestOutcome H))) s₁ tr₁ r s' →
      IngestOK blake3 source s r s' := by
    intro st s₁ e tr₁ hl h
    obtain ⟨u, s₂, tr₂, tr₃, h1, h2, -⟩ := run_bind.mp h
    obtain ⟨-, rfl, rfl⟩ := run_ret.mp h2
    exact ⟨fun _ _ => runRollback_restores hl h1, nofun, nofun⟩
  have hstart : Pos s ⟨[], 0, [], [], [], [], 0⟩ ⟨[], []⟩ s :=
    ⟨⟨pinned_refl s, rfl, fun w hw => absurd hw not_mem_nil⟩, fun _ hh => hh, fun _ hh => .inr hh,
      fun _ hh => hh, fun _ hh => absurd hh not_mem_nil⟩
  obtain ⟨⟨b, st⟩, s₁, tr₁, tr₂, h1, h2, -⟩ := run_bind.mp hr
  obtain ⟨hl, hok⟩ := ingestLoop_ok blake3 hstart h1
  cases b with
  | error e => exact hroll hl h2
  | ok v =>
    obtain ⟨hp, hv⟩ := hok v rfl
    split_ifs at h2 with hfailed
    · exact hroll hl h2
    obtain ⟨⟨b₂, st₂⟩, s₂, tr₃, tr₄, h3, h4, -⟩ := run_bind.mp h2
    cases b₂ with
    | error e =>
      exact hroll (settleBatch_ok hp.ledger (fun h hh => (hp.pending h hh).2) h3).ledger h4
    | ok u =>
      have hp₂ := hp.settle h3
      have hsettled : ∀ h ∈ v.chunkHashes, h ∈ IngestState.settled st₂ := fun h hh =>
        (hp₂.seen h (hp₂.hashes h hh)).resolve_right not_mem_nil
      have hrefs := hp₂.ledger.toPinned.blobRefs
      dsimp only at h4
      split_ifs at h4 with hempty
      · obtain ⟨-, rfl, rfl⟩ := run_ret.mp h4
        refine ⟨nofun, fun o ho => ?_, fun o ho h hh => ?_⟩
        · cases ho
          exact hv
        · cases ho
          have hs := hsettled h hh
          rw [List.isEmpty_iff] at hempty
          rw [IngestState.settled, hempty, map_nil, append_nil] at hs
          rw [hrefs, if_pos hs]
      · obtain ⟨ch₅, r₅, s₅, tr₅, -, hex₅, -, h5⟩ := run_stmt.mp h4
        have hsync : (Op.syncBlobs (st₂.written.map Prod.fst)).Quiet := trivial
        have hl₅ := hp₂.ledger.sameRows (quiet_exec hsync hex₅)
        cases r₅ with
        | none => exact hroll hl₅ h5
        | some _ =>
          obtain ⟨ch₆, r₆, s₆, tr₆, -, hex₆, -, h6⟩ := run_stmt.mp h5
          rcases answer_cases hex₆ with ⟨-, rfl, rfl⟩ | ⟨rfl, rfl⟩
          · exact hroll hl₅ h6
          · obtain ⟨-, rfl, rfl⟩ := run_ret.mp h6
            refine ⟨nofun, fun o ho => ?_, fun o ho h hh => ?_⟩
            · cases ho
              exact hv
            · cases ho
              -- a settled hash is pinned or written, and not both
              rw [blobRefs_registerChunks, hl₅.toPinned.blobRefs]
              rcases mem_append.mp (hsettled h hh) with hs | hs
              · rw [if_pos hs, if_neg (hl₅.not_written hs)]
              · rw [if_neg fun hp => hl₅.not_written hp hs, if_pos hs, Nat.add_zero]

theorem ingestChunksFromStream_empty {source : Source} (hc : source.chunks = []) {o : IngestOutcome H}
    (hr : Ran (ingestChunksFromStream blake3 source) s tr (.ok o) s') : s' = s := by
  unfold ingestChunksFromStream at hr
  rw [hc] at hr
  obtain ⟨b, s₁, tr₁, tr₂, h1, h2, -⟩ := run_bind.mp hr
  obtain ⟨-, rfl, rfl⟩ := run_ret.mp h1
  split_ifs at h2 with hfailed
  · obtain ⟨u, s₂, tr₃, tr₄, -, h3, -⟩ := run_bind.mp h2
    obtain ⟨-, ho, -⟩ := run_ret.mp h3
    cases ho
  · obtain ⟨b₂, s₂, tr₃, tr₄, h3, h4, -⟩ := run_bind.mp h2
    obtain ⟨-, rfl, rfl⟩ := run_ret.mp h3
    obtain ⟨-, -, rfl⟩ := run_ret.mp h4
    rfl

end Loop

end Ingest

/-! ### Manifests -/

section Attach
variable {tr : List (Op H)} {h : H}

/-- `s` is `s₀` with one reference more on the content `h`, in a way its release can undo: a manifest just
created, a manifest in use, or a legacy row in use. -/
inductive Referenced (s₀ : Store H) (h : H) (s : Store H) : Prop where
  | created {m : Manifest H} (hm₀ : s₀.chunkManifests.get h = none)
      (hm : s.chunkManifests = s₀.chunkManifests.set h m) (hone : m.refCount = 1)
      (hp : Pinned s₀ m.chunkHashes s) (hd : ∀ k, k.sourceHash = h → s₀.contentDerivedBlobs.get k = none)
  | bumped {m : Manifest H} (hm₀ : s₀.chunkManifests.get h = some m) (hpos : 0 < m.refCount)
      (hm : s.chunkManifests = s₀.chunkManifests.set h { m with refCount := m.refCount + 1 })
      (hp : Pinned s₀ [] s)
  | legacy {b : BlobRow} (hm₀ : s₀.chunkManifests.get h = none)
      (hm : s.chunkManifests = s₀.chunkManifests) (hb : s₀.blobs.get h = some b) (hpos : 0 < b.refCount)
      (hp : Pinned s₀ [h] s)

theorem purgeDerivedBlobs_none {release : H → Db H (Except DomainError Bool)} {u : Unit}
    (hd : ∀ k, k.sourceHash = h → s.contentDerivedBlobs.get k = none)
    (hr : Ran (purgeDerivedBlobs release h) s tr u s') :
    s'.blobs = s.blobs ∧ s'.chunkManifests = s.chunkManifests := by
  obtain ⟨ch, r, s₁, tr₁, hg, hex, -, h1⟩ := run_stmt.mp hr
  simp only [exec] at hex
  split_ifs at hex with horder
  obtain ⟨rfl, rfl⟩ := answer_ok (hg rfl) hex
  have hkeys : ch.order = [] := by
    rw [← toFinset_eq_empty_iff, horder.2, Finset.eq_empty_iff_forall_notMem]
    intro k hk
    obtain ⟨v, hv, hsrc⟩ := mem_sat.mp hk
    rw [hd k (by simpa using hsrc)] at hv
    cases hv
  simp only [Store.deleteDerived, hkeys, map_nil, not_mem_nil, if_false] at h1
  obtain ⟨-, -, rfl⟩ := run_ret.mp h1
  exact ⟨rfl, rfl⟩

theorem removeReference_restores {fuel : ℕ} {r : Except DomainError Bool} (hf : Referenced s₀ h s)
    (hr : Ran (removeReference (fuel + 1) h) s tr r s') : Restored s₀ s' := by
  obtain ⟨ch₁, r₁, s₁, tr₁, hg₁, hex₁, -, h1⟩ := run_stmt.mp hr
  obtain ⟨rfl, rfl⟩ := answer_ok (hg₁ rfl) hex₁
  cases hf with
  | @created m hm₀ hm hone hp hd =>
    have hget : s₁.chunkManifests.get h = some m := by rw [hm, get_set_self]
    rw [hget] at h1
    obtain ⟨ch₂, r₂, s₂, tr₂, hg₂, hex₂, -, h2⟩ := run_stmt.mp h1
    obtain ⟨rfl, rfl⟩ := answer_ok (hg₂ rfl) hex₂
    have hle : m.refCount ≤ 1 := hone.le
    simp only [Store.removeManifest, hget, if_pos hle] at h2
    obtain ⟨u, s₃, tr₃, tr₄, h3, h4, -⟩ := run_bind.mp h2
    obtain ⟨-, -, rfl⟩ := run_ret.mp h4
    obtain ⟨hb₃, hm₃⟩ := purgeDerivedBlobs_none (fun k hk => by
      show s₁.contentDerivedBlobs.get k = none
      rw [hp.derived, hd k hk]) h3
    have hp₃ : Pinned s₀ m.chunkHashes { s₁ with chunkManifests := s₁.chunkManifests.erase h } :=
      hp.congr rfl rfl
    have hr₃ := hp₃.release
    refine restored_of_counts (fun x => by rw [hb₃]; exact hr₃.counts x) fun x => ?_
    rw [hm₃]
    show ((s₁.chunkManifests.erase h).get x).map Manifest.refCount = _
    by_cases hxh : x = h
    · rw [hxh, get_erase_self, hm₀]
    · rw [get_erase_ne _ hxh, hm, get_set_ne _ _ hxh]
  | @bumped m hm₀ hpos hm hp =>
    have hget : s₁.chunkManifests.get h = some { m with refCount := m.refCount + 1 } := by
      rw [hm, get_set_self]
    rw [hget] at h1
    obtain ⟨ch₂, r₂, s₂, tr₂, hg₂, hex₂, -, h2⟩ := run_stmt.mp h1
    obtain ⟨rfl, rfl⟩ := answer_ok (hg₂ rfl) hex₂
    have hgt : ¬ m.refCount + 1 ≤ 1 := by omega
    simp only [Store.removeManifest, hget, if_neg hgt] at h2
    obtain ⟨-, -, rfl⟩ := run_ret.mp h2
    refine restored_of_counts hp.counts fun x => ?_
    by_cases hxh : x = h
    · rw [hxh, get_set_self, hm₀]
      rfl
    · rw [get_set_ne _ _ hxh, hm, get_set_ne _ _ hxh]
  | @legacy b hm₀ hm hb hpos hp =>
    rw [hm, hm₀] at h1
    obtain ⟨ch₂, r₂, s₂, tr₂, hg₂, hex₂, -, h2⟩ := run_stmt.mp h1
    obtain ⟨rfl, rfl⟩ := answer_ok (hg₂ rfl) hex₂
    obtain ⟨b', hb', href⟩ := hp.row hb
    rw [if_pos (mem_singleton_self h)] at href
    have hgt : ¬ b'.refCount - 1 = 0 := by omega
    simp only [Store.removeLegacy, hb', if_neg hgt] at h2
    obtain ⟨-, -, rfl⟩ := run_ret.mp h2
    refine restored_of_counts (fun x => ?_) fun x => by rw [← hm]
    by_cases hxh : x = h
    · rw [hxh, get_set_self, hb]
      simp [href]
    · have hrow := hp.rows x
      rw [get_set_ne _ _ hxh, hrow]
      simp [hxh]

theorem addReference_cases {r : Except DomainError Unit} (hr : Ran (addReference h) s tr r s') :
    (∃ e, r = .error e ∧ s' = s) ∨
    (∃ m, r = .ok () ∧ s.chunkManifests.get h = some m ∧ s' =
      { s with chunkManifests := s.chunkManifests.set h { m with refCount := m.refCount + 1 } }) ∨
    ∃ b, r = .ok () ∧ s.chunkManifests.get h = none ∧ s.blobs.get h = some b ∧
      s' = { s with blobs := s.blobs.set h (b.pin 1) } := by
  obtain ⟨ch₁, r₁, s₁, tr₁, -, hex₁, -, h1⟩ := run_stmt.mp hr
  rcases answer_cases hex₁ with ⟨-, rfl, rfl⟩ | ⟨rfl, rfl⟩
  · obtain ⟨-, rfl, rfl⟩ := run_ret.mp h1
    exact .inl ⟨_, rfl, rfl⟩
  cases hm : s.chunkManifests.get h with
  | some m =>
    simp only [Store.bumpManifest, hm] at h1
    obtain ⟨-, rfl, rfl⟩ := run_ret.mp h1
    exact .inr (.inl ⟨m, rfl, rfl, rfl⟩)
  | none =>
    simp only [Store.bumpManifest, hm] at h1
    obtain ⟨ch₂, r₂, s₂, tr₂, -, hex₂, -, h2⟩ := run_stmt.mp h1
    rcases answer_cases hex₂ with ⟨-, rfl, rfl⟩ | ⟨rfl, rfl⟩
    · obtain ⟨-, rfl, rfl⟩ := run_ret.mp h2
      exact .inl ⟨_, rfl, rfl⟩
    cases hb : s.blobs.get h with
    | none =>
      simp only [Store.bumpBlob, hb] at h2
      obtain ⟨-, rfl, rfl⟩ := run_ret.mp h2
      exact .inl ⟨_, rfl, rfl⟩
    | some b =>
      simp only [Store.bumpBlob, hb] at h2
      obtain ⟨-, rfl, rfl⟩ := run_ret.mp h2
      exact .inr (.inr ⟨b, rfl, rfl, rfl, rfl⟩)

theorem pinned_bumpBlob {b : BlobRow} (hb : s.blobs.get h = some b) :
    Pinned s [h] { s with blobs := s.blobs.set h (b.pin 1) } where
  rows x := by
    by_cases hxh : x = h
    · subst hxh
      simp [hb, BlobRow.pin]
    · simp [get_set_ne _ _ hxh, hxh]
  present x hx := by
    rw [mem_singleton.mp hx, hb]
    rfl
  derived := rfl

end Attach

/-! ### Registrations -/

/-- A registration that the repository sees, under a name it accepts. -/
structure Registrable (target : Registration H) : Prop where
  reached : target ≠ .abandon
  named : ∀ folder name, target = .create folder name → validateStorageName name = .ok ()

section Register
variable {tr : List (Op H)} {h : H} {fuel : ℕ}

variable {e : DomainError}

theorem register_restores {target : Registration H} (ht : Registrable target)
    (hf : Referenced s₀ h s) (hr : Ran (register (fuel + 1) h target) s tr (.error e) s') :
    Restored s₀ s' ∧ tr ≠ [] := by
  have hrel : Released Compensated (fuel + 1) h s tr s' := by
    cases target with
    | create folder name =>
      have h1 := run_failed hr (fun _ => ⟨_, rfl⟩) fun _ => rfl
      exact released_saveFileWithBlob (ht.named folder name rfl) h1
    | update id expected => exact released_swapBlobHash hr
    | discard => exact released_fail hr
    | abandon => exact absurd rfl ht.reached
  obtain ⟨hne, r, tr', h1⟩ := hrel
  exact ⟨removeReference_restores hf h1, hne⟩

end Register

/-! ### Calls -/

section Last
variable {tr tr₁ tr₂ : List (Op H)}
omit [DecidableEq H]

theorem attaches_of_settling (op : Op H) (h : Settling op) : attaches op = false := by
  cases op <;> first | rfl | exact absurd h id

theorem attaches_of_ingest (op : Op H) (h : Ingest op) : attaches op = false := by
  cases op <;> first | rfl | exact absurd h id

/-- The run did not end at a statement of `attach_manifest`. -/
def EndsElsewhere (tr : List (Op H)) : Prop := ∀ op ∈ tr.getLast?, attaches op = false

theorem EndsElsewhere.of_all (h : ∀ op ∈ tr, attaches op = false) : EndsElsewhere tr :=
  fun op hop => h op (List.mem_of_getLast? hop)

theorem endsElsewhere_append (h : tr₂ ≠ []) : EndsElsewhere (tr₁ ++ tr₂) ↔ EndsElsewhere tr₂ := by
  rw [EndsElsewhere, List.getLast?_append_of_ne_nil _ h, EndsElsewhere]

/-- What a call with the references `held` leaves after an error. -/
def Outcome (s s' : Store H) (held : List H) (tr : List (Op H)) : Prop :=
  Restored s s' ↔ held = [] ∨ EndsElsewhere tr

theorem Outcome.restored {held : List H} (hr : Restored s s') (h : held = [] ∨ EndsElsewhere tr) :
    Outcome s s' held tr := iff_of_true hr h

theorem Outcome.attaching {held : List H} {h : H} {m : Manifest H} (hr : Restored s s' ↔ held = [])
    (hlast : tr.getLast? = some (.insertManifest h m) ∨ tr.getLast? = some (.bumpManifest h)) :
    Outcome s s' held (tr₁ ++ tr) := by
  have hne : tr ≠ [] := by
    rintro rfl
    cases hlast <;> contradiction
  have hend : ¬ EndsElsewhere (tr₁ ++ tr) := by
    rw [endsElsewhere_append hne]
    intro h
    rcases hlast with hlast | hlast <;> cases h _ hlast
  rw [Outcome, hr]
  exact (or_iff_left hend).symm

end Last

section Calls
variable (blake3 : Bytes → H) {tr : List (Op H)} {e : DomainError}

theorem storeFromStream_outcome {source : Source}
    (hr : Ran (storeFromStream blake3 source) s tr (.error e) s') :
    Outcome s s' (source.chunks.map blake3) tr := by
  obtain ⟨r₁, s₁, tr₁, tr₂, h1, h2, rfl⟩ := run_bind.mp hr
  have hingest := ingestChunksFromStream_ok blake3 h1
  cases r₁ with
  | error e' =>
    obtain ⟨rfl, -, rfl⟩ := run_ret.mp h2
    have hops := h1.mem_only ((ingestChunksFromStream_only blake3 source).mono attaches_of_ingest)
    rw [append_nil]
    exact .restored (hingest.failed e' rfl) (.inr (.of_all hops))
  | ok o =>
    rcases attachManifest_cases h2 with ⟨e', -, rfl, hlast⟩ | ⟨d, hd, -⟩ | ⟨d, m, tr₃, u, hd, -⟩
    · refine .attaching ⟨fun hrest => ?_, fun hnil => ?_⟩ hlast
      · rw [← hingest.hashes o rfl]
        refine eq_nil_iff_forall_not_mem.mpr fun h hh => ?_
        exact not_restored (hingest.held o rfl h hh) hrest
      · rw [ingestChunksFromStream_empty blake3 (map_eq_nil_iff.mp hnil) h1]
        exact restored_of_counts (fun _ => rfl) fun _ => rfl
    · cases hd
    · cases hd

/-- What a delta commit needs for its compensation to work: its registration is `Registrable`, a manifest of
the file hash is in use, and without one nothing is derived from the hash, or, for an owned hash, its row is
in use. -/
structure DeltaSettles (s : Store H) (owned : Bool) (req : DeltaCommit H) : Prop where
  target : Registrable req.target
  manifest : ∀ m, s.chunkManifests.get req.fileHash = some m → 0 < m.refCount
  row : owned = true → s.chunkManifests.get req.fileHash = none →
    ∀ b, s.blobs.get req.fileHash = some b → 0 < b.refCount
  derived : owned = false → s.chunkManifests.get req.fileHash = none →
    ∀ k, k.sourceHash = req.fileHash → s.contentDerivedBlobs.get k = none

theorem pinned_of_mem {hs hs' : List H} (hp : Pinned s₀ hs s) (h : ∀ x, x ∈ hs ↔ x ∈ hs') :
    Pinned s₀ hs' s where
  rows x := by
    rw [hp.rows x]
    simp [h]
  present x hx := hp.present x ((h x).mpr hx)
  derived := hp.derived

variable {req : DeltaCommit H}

theorem commitPinned_outcome {fuel total : ℕ} {held : List H} (hs : DeltaSettles s₀ false req)
    (hp : Pinned s₀ held s) (hm : s.chunkManifests = s₀.chunkManifests)
    (hheld : ∀ x, x ∈ held ↔ x ∈ req.chunks.map Prod.fst)
    (hr : Ran (commitPinned blake3 (fuel + 1) total req held) s tr (.error e) s') :
    Outcome s₀ s' held tr := by
  obtain ⟨r₁, s₁, tr₁, tr₂, h1, h2, rfl⟩ := run_bind.mp hr
  have hrows := run_quiet (hashChunkSequence_only blake3 (fun _ => trivial) _ _) h1
  have hops : ∀ op ∈ tr₁, attaches op = false :=
    h1.mem_only (hashChunkSequence_only blake3 (fun _ => rfl) _ _)
  have hp₁ := hp.sameRows hrows
  have hm₁ := hrows.manifests.trans hm
  have hrelease : ∀ {e' : DomainError}, Ran (releaseChunkRefs held >>= fun _ =>
      ret (.error e' : Except DomainError (DeltaOutcome H))) s₁ tr₂ (.error e) s' →
      Outcome s₀ s' held (tr₁ ++ tr₂) := by
    intro e' h
    obtain ⟨u, s₂, tr₃, tr₄, h3, h4, rfl⟩ := run_bind.mp h
    obtain ⟨rfl, -, rfl⟩ := run_ret.mp h4
    obtain ⟨hp₂, hm₂⟩ := releaseChunkRefs_pinned hp₁ h3
    have hops₃ := h3.mem_only ((releaseChunkRefs_settles held).mono attaches_of_settling)
    refine .restored ((hp₂.restored_iff (hm₂.trans hm₁)).mpr rfl) (.inr (.of_all fun op hop => ?_))
    rw [append_nil] at hop
    rcases mem_append.mp hop with hop | hop
    · exact hops op hop
    · exact hops₃ op hop
  cases r₁ with
  | error e' => exact hrelease h2
  | ok computed =>
    dsimp only at h2
    split_ifs at h2 with hne
    · exact hrelease h2
    obtain ⟨r₂, s₂, tr₃, tr₄, h3, h4, rfl⟩ := run_bind.mp h2
    have hregister : ∀ {d : DedupResult H}, r₂ = .ok d → Referenced s₀ req.fileHash s₂ →
        Outcome s₀ s' held (tr₁ ++ (tr₃ ++ tr₄)) := by
      rintro d rfl hf
      have h5 := run_failed h4 (fun _ => ⟨_, rfl⟩) fun _ => rfl
      obtain ⟨hrest, htr⟩ := register_restores hs.target hf h5
      have hops₅ := h5.mem_only ((register_settles _ _ _).mono attaches_of_settling)
      refine .restored hrest (.inr ?_)
      rw [← append_assoc, endsElsewhere_append htr]
      exact .of_all hops₅
    rcases attachManifest_cases h3 with ⟨e', rfl, rfl, hlast⟩ | ⟨d, hd, -, hnone, rfl⟩ |
        ⟨d, m, tr₅, u, hd, -, hsome, h5⟩
    · obtain ⟨rfl, -, rfl⟩ := run_ret.mp h4
      rw [append_nil]
      exact .attaching (hp₁.restored_iff hm₁) hlast
    · rw [hm₁] at hnone
      have hp₂ := (pinned_of_mem hp₁ hheld).withManifests (s₁.chunkManifests.set req.fileHash
        ⟨req.chunks.map Prod.fst, req.chunks.map Prod.snd, total, 1⟩)
      exact hregister hd (.created hnone (congrArg (Table.set · _ _) hm₁) rfl hp₂ (hs.derived rfl hnone))
    · rw [hm₁] at hsome
      obtain ⟨hp₃, hm₃⟩ := releaseChunkRefs_pinned (hp₁.withManifests _) h5
      refine hregister hd (.bumped hsome (hs.manifest m hsome) ?_ hp₃)
      rw [hm₃, ← hm₁]

theorem pinned_pinClaimable {hs entitled : List H}
    (hlen : (s.pinClaimable hs entitled).1.length = hs.length) :
    Pinned s hs (s.pinClaimable hs entitled).2 := by
  have hall := filter_eq_self.mp (filter_sublist.eq_of_length hlen)
  refine ⟨fun h => ?_, fun h hh => ?_, rfl⟩
  · simp only [Store.pinClaimable, get_modify]
    cases hb : s.blobs.get h with
    | none => rfl
    | some b =>
      by_cases hh : h ∈ hs
      · have hc := hall h hh
        rw [hb, any_some] at hc
        simp [hc, hh]
      · simp [Store.claimable, hh]
  · obtain ⟨b, hb, -⟩ := (Option.any_eq_true _ _).mp (hall h hh)
    rw [hb]
    rfl

theorem commitChunks_outcome {fuel total : ℕ} (hs : DeltaSettles s false req)
    (hr : Ran (commitChunks blake3 (fuel + 1) total req) s tr (.error e) s') :
    Outcome s s' (req.chunks.map Prod.fst) tr := by
  set hashes := (req.chunks.map Prod.fst).dedup with hhashes
  have hmem : ∀ x, x ∈ hashes ↔ x ∈ req.chunks.map Prod.fst := fun x => mem_dedup
  have hnil : hashes = [] ↔ req.chunks.map Prod.fst = [] := dedup_eq_nil _
  have hpinned : ∀ {s₁ : Store H} {tr₁ tr₂ : List (Op H)}, Pinned s hashes s₁ →
      s₁.chunkManifests = s.chunkManifests → (∀ op ∈ tr₁, attaches op = false) →
      Ran (commitPinned blake3 (fuel + 1) total req hashes) s₁ tr₂ (.error e) s' →
      Outcome s s' (req.chunks.map Prod.fst) (tr₁ ++ tr₂) := by
    intro s₁ tr₁ tr₂ hp hm hops h
    have hout := commitPinned_outcome blake3 hs hp hm hmem h
    rw [Outcome, hnil] at hout
    rw [Outcome, hout]
    by_cases htr : tr₂ = []
    · subst htr
      have h1 : EndsElsewhere ([] : List (Op H)) := .of_all fun _ hop => absurd hop not_mem_nil
      have h2 : EndsElsewhere (tr₁ ++ []) := .of_all (by rwa [append_nil])
      exact iff_of_true (.inr h1) (.inr h2)
    · rw [endsElsewhere_append htr]
  obtain ⟨r₁, s₁, tr₁, tr₂, h1, h2, rfl⟩ := run_bind.mp hr
  by_cases hempty : hashes.isEmpty = true
  · rw [if_pos hempty] at h1
    obtain ⟨rfl, rfl, rfl⟩ := run_ret.mp h1
    have hz := List.isEmpty_iff.mp hempty
    have hlen : ¬ ([] : List H).length ≠ hashes.length := by rw [hz]; simp
    dsimp only at h2
    rw [if_neg hlen] at h2
    refine hpinned ?_ rfl (fun _ hop => absurd hop not_mem_nil) h2
    rw [hz]
    exact pinned_refl _
  · rw [if_neg hempty] at h1
    obtain ⟨ch, r, s₂, tr₃, -, hex, rfl, h3⟩ := run_call.mp h1
    obtain ⟨rfl, rfl, rfl⟩ := run_ret.mp h3
    have hops : ∀ op ∈ [Op.pinClaimable hashes], attaches op = false := by simp [attaches]
    rcases answer_cases hex with ⟨-, rfl, rfl⟩ | ⟨rfl, rfl⟩
    · obtain ⟨rfl, -, rfl⟩ := run_ret.mp h2
      exact .restored (restored_of_counts (fun _ => rfl) fun _ => rfl) (.inr (.of_all hops))
    · dsimp only at h2
      split_ifs at h2 with hlen
      · obtain ⟨u, s₃, tr₄, tr₅, -, h4, -⟩ := run_bind.mp h2
        obtain ⟨-, hret, -⟩ := run_ret.mp h4
        cases hret
      · exact hpinned (pinned_pinClaimable (not_not.mp hlen)) rfl hops h2

theorem commitWithPerms_outcome {maxTotalSize fuel : ℕ} {owned : Bool}
    (hs : DeltaSettles s owned req)
    (hr : Ran (commitWithPerms blake3 maxTotalSize (fuel + 1) owned req) s tr (.error e) s') :
    Outcome s s' (if owned then [] else req.chunks.map Prod.fst) tr := by
  have hsame : Restored s s := restored_of_counts (fun _ => rfl) fun _ => rfl
  unfold commitWithPerms at hr
  cases hv : validateChunkList maxTotalSize req.chunks with
  | error e' =>
    rw [hv] at hr
    obtain ⟨rfl, -, rfl⟩ := run_ret.mp hr
    exact .restored hsame (.inr (.of_all fun _ hop => absurd hop not_mem_nil))
  | ok total =>
    rw [hv] at hr
    dsimp only at hr
    cases owned with
    | false => exact commitChunks_outcome blake3 hs hr
    | true =>
      refine .restored ?_ (.inl rfl)
      obtain ⟨r₁, s₁, tr₁, tr₂, h1, h2, -⟩ := run_bind.mp hr
      have href : (∃ e', r₁ = .error e' ∧ s₁ = s) ∨ r₁ = .ok () ∧ Referenced s req.fileHash s₁ := by
        rcases addReference_cases h1 with hfail | ⟨m, rfl, hm, rfl⟩ | ⟨b, rfl, hm, hb, rfl⟩
        · exact .inl hfail
        · have hp := (pinned_refl s).withManifests
            (s.chunkManifests.set req.fileHash { m with refCount := m.refCount + 1 })
          exact .inr ⟨rfl, .bumped hm (hs.manifest m hm) rfl hp⟩
        · exact .inr ⟨rfl, .legacy hm rfl hb (hs.row rfl hm b hb) (pinned_bumpBlob hb)⟩
      rcases href with ⟨e', rfl, rfl⟩ | ⟨rfl, hf⟩
      · obtain ⟨-, -, rfl⟩ := run_ret.mp h2
        exact hsame
      · have h3 := run_failed h2 (fun _ => ⟨_, rfl⟩) fun _ => rfl
        exact (register_restores hs.target hf h3).1

end Calls

/-- A call of one of the two functions. -/
inductive Call (H : Type) where
  | storeFromStream (source : Source)
  | commitWithPerms (maxTotalSize fuel : ℕ) (owned : Bool) (req : DeltaCommit H)

namespace Call

/-- The program of a call. -/
def prog (blake3 : Bytes → H) : Call H → Db H (Except DomainError Unit)
  | .storeFromStream source => do
    let r ← BlobHandler.storeFromStream blake3 source
    ret (r.map fun _ => ())
  | .commitWithPerms maxTotalSize fuel owned req => do
    let r ← FileRepository.commitWithPerms blake3 maxTotalSize (fuel + 1) owned req
    ret (r.map fun _ => ())

/-- The chunk references a call holds when it reaches `attach_manifest`. -/
def held (blake3 : Bytes → H) : Call H → List H
  | .storeFromStream source => source.chunks.map blake3
  | .commitWithPerms _ _ owned req => if owned then [] else req.chunks.map Prod.fst

/-- What a call needs of the store it starts in. -/
def Settles (s : Store H) : Call H → Prop
  | .storeFromStream _ => True
  | .commitWithPerms _ _ owned req => DeltaSettles s owned req

end Call

/-- Whether a call failed. -/
def failed {α : Type} : Except DomainError α → Bool
  | .error _ => true
  | .ok _ => false

theorem exists_failed {α : Type} {p : Db Bytes (Except DomainError α)} {s : Store Bytes}
    {l : List (Choice Bytes)} {q : Store Bytes → Bool}
    (h : ((replay (machine Bytes) Compensated l p s).any fun x => failed x.1 && q x.2) = true) :
    ∃ s' e, Run (machine Bytes) Compensated p s (issued (machine Bytes) l p s) (.error e) s' ∧
      q s' = true := by
  obtain ⟨⟨r, s'⟩, hx, h⟩ := (Option.any_eq_true _ _).mp h
  rw [Bool.and_eq_true] at h
  cases r with
  | error e => exact ⟨s', e, replay_issued hx, h.2⟩
  | ok a => cases h.1

end OxiCloud.Compensation
