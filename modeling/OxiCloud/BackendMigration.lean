import OxiCloud.BackendRotate

/-! # Migration to another backend

`backend_migration` copies the objects of the blob table to a target, in pages by hash, and makes the target
the active backend when no blob has failed. A run can pause and resume: the cursor is saved after every
page, and so are the counters, of which `failed` decides whether the backends are switched.

A row is skipped when the first bytes of what the target already holds have the format of the target's head
pair. `Faithful` asks that what is skipped holds the right plaintext. `flip_complete` says that this
is what every run needs to leave the target complete. -/

namespace OxiCloud.BackendMigration

open Schema Encryption Lib.Paging Function
open BackendRotate (Fault)

variable {K H : Type} [LinearOrder H]

/-! ### One blob -/

/-- `BATCH_SIZE`. -/
def batchSize : ℕ := 100

structure Counters where
  copied : ℕ := 0
  skipped : ℕ := 0
  failed : ℕ := 0
  sourceMissing : ℕ := 0
  deriving DecidableEq

/-- The source: whether it has an object, and the plaintext it can serve. -/
structure Source (H : Type) where
  present : H → Bool
  serve : H → Option Bytes
  present_of_serve : ∀ h p, serve h = some p → present h = true

/-- How the calls made for one blob end: the probe of the source, the read of the target's first bytes, and
the copy, which may fail with the object written or not. -/
structure Outcome where
  probe : Option Fault
  headRead : Bool
  copy : Option (Fault × Bool)
  nonce : Nonce

/-- The object whose first bytes the check of the target sees. -/
def Outcome.seen (o : Outcome) (target : Objects H) (h : H) : Option Bytes :=
  if o.headRead then target h else none

def copyBlob (C : Crypto K H) (be : EncryptedBlobBackend K) (src : Source H) (o : Outcome)
    (target : Objects H) (h : H) : Objects H × Option Fault :=
  match src.serve h with
  | none => (target, some ((o.copy.map (·.1)).getD .permanent))
  | some plaintext =>
    let written := Function.update target h (some (be.frame C o.nonce plaintext))
    match o.copy with
    | none => (written, none)
    | some (fault, reached) => (if reached then written else target, some fault)

/-- The step for one blob. A transient failure ends the segment with the target as it is. -/
def migrateOne (C : Crypto K H) (be : EncryptedBlobBackend K) (src : Source H) (o : Outcome)
    (target : Objects H) (c : Counters) (h : H) : Except (Objects H) (Objects H × Counters) :=
  match o.probe with
  | some .transient => .error target
  | some .permanent => .ok (target, { c with failed := c.failed + 1 })
  | none =>
    if src.present h = false then .ok (target, { c with sourceMissing := c.sourceMissing + 1 })
    else if be.headCheck (o.seen target h) = .headMatch then
      .ok (target, { c with skipped := c.skipped + 1 })
    else match copyBlob C be src o target h with
      | (target, none) => .ok (target, { c with copied := c.copied + 1 })
      | (target, some .transient) => .error target
      | (target, some .permanent) => .ok (target, { c with failed := c.failed + 1 })

/-! ### Runs -/

/-- What is saved of a run. -/
structure JobRow (H : Type) where
  cursor : Option H
  counters : Counters

/-- A running segment, with the current page and the rows of it still to do. -/
structure Segment (H : Type) where
  cursor : Option H
  counters : Counters
  batch : List H
  todo : List H

inductive Phase (H : Type) where
  | idle
  | running (seg : Segment H)
  | flipped
  | stopped

structure State (H : Type) where
  target : Objects H
  job : JobRow H
  phase : Phase H

/-- `finish_completed`: the active backend is switched unless a blob failed. -/
def finish (c : Counters) : Phase H := if 0 < c.failed then .stopped else .flipped

/-- A run that has not started. -/
def State.fresh (target : Objects H) : State H := ⟨target, ⟨none, {}⟩, .idle⟩

section Steps
variable (C : Crypto K H) (be : EncryptedBlobBackend K) (src : Source H) (rows : List H)

/-- The steps of a run. The flag is `false` for those that lose counters: saving them after a page and
reading them on resume are both best effort. -/
inductive Step : Bool → State H → State H → Prop where
  | start {t : Objects H} {j : JobRow H} :
      Step true ⟨t, j, .idle⟩ ⟨t, j, .running ⟨j.cursor, j.counters, [], []⟩⟩
  | startUncounted {t : Objects H} {j : JobRow H} :
      Step false ⟨t, j, .idle⟩ ⟨t, j, .running ⟨j.cursor, {}, [], []⟩⟩
  | pause {t : Objects H} {j : JobRow H} {k : Option H} {c : Counters} :
      Step true ⟨t, j, .running ⟨k, c, [], []⟩⟩ ⟨t, { j with cursor := k }, .idle⟩
  | crash {t : Objects H} {j : JobRow H} {seg : Segment H} : Step true ⟨t, j, .running seg⟩ ⟨t, j, .idle⟩
  | fetch {t : Objects H} {j : JobRow H} {k : Option H} {c : Counters}
      (hrows : (after k rows).take batchSize ≠ []) :
      Step true ⟨t, j, .running ⟨k, c, [], []⟩⟩
        ⟨t, j, .running ⟨k, c, (after k rows).take batchSize, (after k rows).take batchSize⟩⟩
  | complete {t : Objects H} {j : JobRow H} {k : Option H} {c : Counters}
      (hrows : (after k rows).take batchSize = []) :
      Step true ⟨t, j, .running ⟨k, c, [], []⟩⟩ ⟨t, j, finish c⟩
  | blob {t t' : Objects H} {j : JobRow H} {k : Option H} {c c' : Counters} {b todo : List H} {h : H}
      {o : Outcome} (ho : migrateOne C be src o t c h = .ok (t', c')) :
      Step true ⟨t, j, .running ⟨k, c, b, h :: todo⟩⟩ ⟨t', j, .running ⟨k, c', b, todo⟩⟩
  | blobPaused {t t' : Objects H} {j : JobRow H} {k : Option H} {c : Counters} {b todo : List H} {h : H}
      {o : Outcome} (ho : migrateOne C be src o t c h = .error t') :
      Step true ⟨t, j, .running ⟨k, c, b, h :: todo⟩⟩ ⟨t', { j with cursor := k }, .idle⟩
  | checkpoint {t : Objects H} {j : JobRow H} {k : Option H} {c : Counters} {b : List H} {last : H}
      (hlast : b.getLast? = some last) :
      Step true ⟨t, j, .running ⟨k, c, b, []⟩⟩
        ⟨t, ⟨some last, c⟩, if b.length < batchSize then finish c else .running ⟨some last, c, [], []⟩⟩
  | checkpointUncounted {t : Objects H} {j : JobRow H} {k : Option H} {c : Counters} {b : List H} {last : H}
      (hlast : b.getLast? = some last) :
      Step false ⟨t, j, .running ⟨k, c, b, []⟩⟩
        ⟨t, { j with cursor := some last },
          if b.length < batchSize then finish c else .running ⟨some last, c, [], []⟩⟩
  | checkpointFailed {t : Objects H} {j : JobRow H} {k : Option H} {c : Counters} {b : List H}
      (hb : b ≠ []) :
      Step true ⟨t, j, .running ⟨k, c, b, []⟩⟩ ⟨t, j, .stopped⟩

/-- The runs that lose no counters. -/
abbrev Runs : State H → State H → Prop := Relation.ReflTransGen (Step C be src rows true)

end Steps

/-! ### What a step for one blob does -/

section Blob
variable {C : Crypto K H} {L : PairList C} {src : Source H} {t t' : Objects H} {c c' : Counters} {h : H}
  {o : Outcome}

/-- The target has the plaintext the source serves. -/
def Settled (L : PairList C) (src : Source H) (t : Objects H) (h : H) : Prop :=
  ∀ p, src.serve h = some p → ∃ b, t h = some b ∧ L.read h b = .ok p

/-- What is at the target in the format of the head pair holds what the source serves. -/
def Faithful (L : PairList C) (src : Source H) (rows : List H) (t : Objects H) : Prop :=
  ∀ h ∈ rows, L.backend.headCheck (t h) = .headMatch → Settled L src t h

/-- The target after some copies. -/
def Copied (L : PairList C) (src : Source H) (t t' : Objects H) : Prop :=
  ∀ h, t' h = t h ∨ Settled L src t' h

theorem Copied.refl : Copied L src t t := fun _ => .inl rfl

theorem settled_of_eq (heq : t' h = t h) (hs : Settled L src t h) : Settled L src t' h := by
  intro p hp
  rw [heq]
  exact hs p hp

theorem Copied.settled (hc : Copied L src t t') (hs : Settled L src t h) : Settled L src t' h := by
  rcases hc h with heq | hs'
  · exact settled_of_eq heq hs
  · exact hs'

theorem Copied.faithful {rows : List H} (hc : Copied L src t t') (hf : Faithful L src rows t) :
    Faithful L src rows t' := by
  intro x hx hmatch
  rcases hc x with heq | hs
  · rw [heq] at hmatch
    exact settled_of_eq heq (hf x hx hmatch)
  · exact hs

theorem copied_write {p : Bytes} (n : Nonce) (hp : src.serve h = some p) :
    Copied L src t (update t h (some (L.backend.frame C n p))) ∧
      Settled L src (update t h (some (L.backend.frame C n p))) h := by
  have hset : Settled L src (update t h (some (L.backend.frame C n p))) h := by
    intro q hq
    rw [hp, Option.some.injEq] at hq
    subst hq
    exact ⟨_, update_self _ _ _, read_frame _ _ _⟩
  refine ⟨fun x => ?_, hset⟩
  by_cases hx : x = h
  · rw [hx]
    exact .inr hset
  · exact .inl (update_of_ne hx _ _)

theorem copyBlob_copied : Copied L src t (copyBlob C L.backend src o t h).1 ∧
      ((copyBlob C L.backend src o t h).2 = none →
        Settled L src (copyBlob C L.backend src o t h).1 h) := by
  unfold copyBlob
  cases hp : src.serve h with
  | none => exact ⟨.refl, fun hnone => by cases hnone⟩
  | some p =>
    obtain ⟨h1, h2⟩ := copied_write (L := L) (t := t) o.nonce hp
    rcases o.copy with _ | ⟨fault, reached⟩
    · exact ⟨h1, fun _ => h2⟩
    · refine ⟨?_, fun hnone => by cases hnone⟩
      dsimp only
      split_ifs
      · exact h1
      · exact .refl

/-- A segment that goes on has counted the failure of the blob, or the blob is settled. -/
theorem migrateOne_ok {rows : List H} (hh : h ∈ rows) (hf : Faithful L src rows t)
    (ho : migrateOne C L.backend src o t c h = .ok (t', c')) :
    Copied L src t t' ∧ c.failed ≤ c'.failed ∧ (Settled L src t' h ∨ 0 < c'.failed) := by
  unfold migrateOne at ho
  rcases hprobe : o.probe with _ | _ | _
  · rw [hprobe] at ho
    split_ifs at ho with hpres hmatch
    · cases ho
      refine ⟨.refl, le_rfl, .inl fun p hp => ?_⟩
      rw [src.present_of_serve h p hp] at hpres
      cases hpres
    · cases ho
      refine ⟨.refl, le_rfl, .inl (hf h hh ?_)⟩
      unfold Outcome.seen at hmatch
      split_ifs at hmatch
      · exact hmatch
      · cases hmatch
    · obtain ⟨h1, h2⟩ : Copied L src t (copyBlob C L.backend src o t h).1 ∧
          ((copyBlob C L.backend src o t h).2 = none →
            Settled L src (copyBlob C L.backend src o t h).1 h) := copyBlob_copied
      rcases hcopy : copyBlob C L.backend src o t h with ⟨t₁, _ | _ | _⟩
      all_goals
        rw [hcopy] at ho h1 h2
        cases ho
      · exact ⟨h1, le_rfl, .inl (h2 rfl)⟩
      · exact ⟨h1, Nat.le_succ _, .inr (Nat.succ_pos _)⟩
  · rw [hprobe] at ho
    cases ho
  · rw [hprobe] at ho
    cases ho
    exact ⟨.refl, Nat.le_succ _, .inr (Nat.succ_pos _)⟩

theorem migrateOne_error (ho : migrateOne C L.backend src o t c h = .error t') : Copied L src t t' := by
  unfold migrateOne at ho
  rcases hprobe : o.probe with _ | _ | _
  · rw [hprobe] at ho
    split_ifs at ho with hpres hmatch
    have h1 : Copied L src t (copyBlob C L.backend src o t h).1 := copyBlob_copied.1
    rcases hcopy : copyBlob C L.backend src o t h with ⟨t₁, _ | _ | _⟩
    all_goals
      rw [hcopy] at ho h1
      cases ho
    exact h1
  · rw [hprobe] at ho
    cases ho
    exact .refl
  · rw [hprobe] at ho
    cases ho

end Blob

/-! ### The invariant of a run -/

section Invariant
variable {C : Crypto K H} (L : PairList C) (src : Source H) (rows : Listing H)

/-- Every row up to the cursor is settled, or a failure is counted. -/
def Passed (t : Objects H) (k : Option H) (c : Counters) : Prop :=
  ∀ h ∈ rows.hashes, h ∉ after k rows.hashes → Settled L src t h ∨ 0 < c.failed

/-- What holds while a segment runs. -/
structure SegmentOK (t : Objects H) (seg : Segment H) : Prop where
  passed : Passed L src rows t seg.cursor seg.counters
  batch : seg.batch = [] ∧ seg.todo = [] ∨ seg.batch = (after seg.cursor rows.hashes).take batchSize
  todo : ∀ h ∈ seg.todo, h ∈ seg.batch
  done : ∀ h ∈ seg.batch, h ∉ seg.todo → Settled L src t h ∨ 0 < seg.counters.failed

def PhaseOK (t : Objects H) (j : JobRow H) : Phase H → Prop
  | .idle => True
  | .running seg => seg.cursor = j.cursor ∧ SegmentOK L src rows t seg
  | .flipped => ∀ h ∈ rows.hashes, Settled L src t h
  | .stopped => True

structure Good (s : State H) : Prop where
  faithful : Faithful L src rows.hashes s.target
  saved : Passed L src rows s.target s.job.cursor s.job.counters
  phase : PhaseOK L src rows s.target s.job s.phase

variable {L src rows} {t t' : Objects H} {k : Option H} {c c' : Counters}

theorem Passed.copied (hp : Passed L src rows t k c) (hc : Copied L src t t')
    (hle : c.failed ≤ c'.failed) : Passed L src rows t' k c' := by
  intro h hh hk
  rcases hp h hh hk with hs | hfail
  · exact .inl (hc.settled hs)
  · exact .inr (lt_of_lt_of_le hfail hle)

theorem finish_ok {j : JobRow H} (hall : ∀ h ∈ rows.hashes, Settled L src t h ∨ 0 < c.failed) :
    PhaseOK L src rows t j (finish c) := by
  unfold finish
  split_ifs with hfail
  · trivial
  · exact fun h hh => (hall h hh).resolve_right hfail

/-- After a page has been worked through, every row up to its last is passed. -/
theorem Passed.checkpoint {b : List H} {last : H} (hp : Passed L src rows t k c)
    (hb : b = (after k rows.hashes).take batchSize)
    (hdone : ∀ h ∈ b, Settled L src t h ∨ 0 < c.failed) (hlast : b.getLast? = some last) :
    Passed L src rows t (some last) c := by
  intro h hh hk
  rw [hb] at hlast
  rw [after_getLast rows hlast] at hk
  by_cases hmem : h ∈ after k rows.hashes
  · rw [← List.take_append_drop batchSize (after k rows.hashes), List.mem_append, ← hb] at hmem
    exact hdone h (hmem.resolve_right hk)
  · exact hp h hh hmem

theorem Good.step {s s' : State H} (hg : Good L src rows s)
    (hs : Step C L.backend src rows.hashes true s s') : Good L src rows s' := by
  obtain ⟨hf, hsaved, hphase⟩ := hg
  cases hs with
  | start =>
    exact ⟨hf, hsaved, rfl, hsaved, .inl ⟨rfl, rfl⟩, fun _ h => (nomatch h), fun _ h => (nomatch h)⟩
  | pause =>
    obtain ⟨hk, -⟩ := hphase
    dsimp only at hk hsaved
    refine ⟨hf, ?_, trivial⟩
    rwa [hk]
  | crash => exact ⟨hf, hsaved, trivial⟩
  | fetch hrows =>
    obtain ⟨hk, hseg⟩ := hphase
    exact ⟨hf, hsaved, hk, hseg.passed, .inr rfl, fun _ h => h, fun _ h hn => absurd h hn⟩
  | complete hrows =>
    refine ⟨hf, hsaved, finish_ok fun h hh => hphase.2.passed h hh ?_⟩
    rw [(List.take_eq_nil_iff.mp hrows).resolve_left (by decide)]
    exact List.not_mem_nil
  | @blob t t' j k c c' b todo h o ho =>
    obtain ⟨hk, hseg⟩ := hphase
    have hb := hseg.batch.resolve_left fun h => by cases h.2
    have hmem := hseg.todo _ List.mem_cons_self
    rw [hb] at hmem
    have hrow := (mem_after.mp (List.mem_of_mem_take hmem)).1
    obtain ⟨hc, hle, hset⟩ := migrateOne_ok hrow hf ho
    refine ⟨hc.faithful hf, hsaved.copied hc le_rfl, hk, hseg.passed.copied hc hle, .inr hb,
      fun x hx => hseg.todo x (List.mem_cons_of_mem _ hx), fun x hx hn => ?_⟩
    by_cases hxh : x = h
    · exact hxh ▸ hset
    · rcases hseg.done x hx (List.not_mem_cons_of_ne_of_not_mem hxh hn) with hs | hfail
      · exact .inl (hc.settled hs)
      · exact .inr (lt_of_lt_of_le hfail hle)
  | blobPaused ho =>
    obtain ⟨hk, -⟩ := hphase
    have hc := migrateOne_error ho
    refine ⟨hc.faithful hf, ?_, trivial⟩
    dsimp only at hk ⊢
    rw [hk]
    exact hsaved.copied hc le_rfl
  | checkpoint hlast =>
    obtain ⟨-, hseg⟩ := hphase
    have hne : _ ≠ [] := List.ne_nil_of_mem (List.mem_of_getLast? hlast)
    have hb := hseg.batch.resolve_left fun h => hne h.1
    have hp := hseg.passed.checkpoint hb (fun h hh => hseg.done h hh List.not_mem_nil) hlast
    refine ⟨hf, hp, ?_⟩
    dsimp only at hb ⊢
    split_ifs with hshort
    · refine finish_ok fun h hh => hp h hh ?_
      rw [hb] at hshort hlast
      rw [after_getLast rows hlast, List.drop_eq_nil_of_le]
      · exact List.not_mem_nil
      · rw [List.length_take] at hshort
        omega
    · exact ⟨rfl, hp, .inl ⟨rfl, rfl⟩, fun _ h => (nomatch h), fun _ h => (nomatch h)⟩
  | checkpointFailed => exact ⟨hf, hsaved, trivial⟩

theorem Good.fresh (hf : Faithful L src rows.hashes t) : Good L src rows (State.fresh t) := by
  refine ⟨hf, fun h hh hk => absurd ?_ hk, trivial⟩
  rw [State.fresh, after_none]
  exact hh

theorem Good.runs {s s' : State H} (hg : Good L src rows s)
    (hr : Runs C L.backend src rows.hashes s s') : Good L src rows s' := by
  induction hr with
  | refl => exact hg
  | tail _ hs ih => exact ih.step hs

end Invariant

/-! ### Undisturbed runs -/

section Undisturbed
variable {C : Crypto K H} {L : PairList C} {src : Source H} {rows : Listing H}

/-- Every call succeeds. -/
def calm : Outcome := ⟨none, true, none, BackendRotate.zeroNonce⟩

/-- What has the format of the head pair stays as it is. -/
def HeadKept (L : PairList C) (t t' : Objects H) : Prop :=
  ∀ h, L.backend.headCheck (t h) = .headMatch → t' h = t h

omit [LinearOrder H] in
theorem HeadKept.refl (t : Objects H) : HeadKept L t t := fun _ _ => rfl

omit [LinearOrder H] in
theorem HeadKept.trans {t₁ t₂ t₃ : Objects H} (h1 : HeadKept L t₁ t₂) (h2 : HeadKept L t₂ t₃) :
    HeadKept L t₁ t₃ := by
  intro h hmatch
  have heq := h1 h hmatch
  rw [h2 h (by rwa [heq]), heq]

theorem migrateOne_calm {t : Objects H} {c : Counters} {h : H}
    (hserve : src.present h = true → ∃ p, src.serve h = some p) :
    ∃ t' c', migrateOne C L.backend src calm t c h = .ok (t', c') ∧ c'.failed = c.failed ∧
      HeadKept L t t' := by
  simp only [migrateOne, calm, Outcome.seen, if_true]
  split_ifs with hpres hmatch
  · exact ⟨_, _, rfl, rfl, .refl t⟩
  · exact ⟨_, _, rfl, rfl, .refl t⟩
  · obtain ⟨p, hp⟩ := hserve (by simpa using hpres)
    simp only [copyBlob, hp]
    refine ⟨_, _, rfl, rfl, fun x hx => update_of_ne ?_ _ _⟩
    rintro rfl
    exact hmatch hx

variable (hserve : ∀ h ∈ rows.hashes, src.present h = true → ∃ p, src.serve h = some p)
include hserve

theorem batch_runs {j : JobRow H} {k : Option H} {b : List H} : ∀ {todo : List H} {t : Objects H}
    {c : Counters}, (∀ h ∈ todo, h ∈ rows.hashes) →
      ∃ t' c', Runs C L.backend src rows.hashes ⟨t, j, .running ⟨k, c, b, todo⟩⟩
          ⟨t', j, .running ⟨k, c', b, []⟩⟩ ∧ c'.failed = c.failed ∧ HeadKept L t t'
  | [], t, c, _ => ⟨t, c, .refl, rfl, .refl t⟩
  | h :: todo, t, c, hmem => by
    obtain ⟨t₁, c₁, h1, hfail₁, hkept₁⟩ := migrateOne_calm (L := L) (t := t) (c := c)
      (hserve h (hmem h List.mem_cons_self))
    obtain ⟨t', c', h2, hfail₂, hkept₂⟩ := batch_runs (t := t₁) (c := c₁) fun x hx =>
      hmem x (List.mem_cons_of_mem _ hx)
    exact ⟨t', c', .head (.blob h1) h2, hfail₂.trans hfail₁, hkept₁.trans hkept₂⟩

theorem segment_flips : ∀ {n : ℕ} {t : Objects H} {j : JobRow H} {k : Option H} {c : Counters},
    (after k rows.hashes).length < n → c.failed = 0 →
      ∃ t' j', Runs C L.backend src rows.hashes ⟨t, j, .running ⟨k, c, [], []⟩⟩ ⟨t', j', .flipped⟩ ∧
        HeadKept L t t'
  | 0, _, _, _, _, hn, _ => absurd hn (Nat.not_lt_zero _)
  | n + 1, t, j, k, c, hn, hfail => by
    have hflip : ∀ {c : Counters}, c.failed = 0 → (finish c : Phase H) = .flipped := fun h => by
      rw [finish, h]
      rfl
    by_cases hrows : (after k rows.hashes).take batchSize = []
    · refine ⟨t, j, .single ?_, .refl t⟩
      rw [← hflip hfail]
      exact .complete hrows
    have hbatch : ∀ h ∈ (after k rows.hashes).take batchSize, h ∈ rows.hashes :=
      fun h hh => (mem_after.mp (List.mem_of_mem_take hh)).1
    obtain ⟨t₁, c₁, h1, hfail₁, hkept₁⟩ := batch_runs (L := L) (t := t) (c := c) (j := j) (k := k)
      (b := (after k rows.hashes).take batchSize) hserve hbatch
    have hlast := List.getLast?_eq_some_getLast hrows
    have h2 : Runs C L.backend src rows.hashes ⟨t, j, .running ⟨k, c, [], []⟩⟩ _ :=
      (Relation.ReflTransGen.head (.fetch hrows) h1).tail (.checkpoint hlast)
    split_ifs at h2 with hshort
    · rw [hflip (hfail₁.trans hfail)] at h2
      exact ⟨_, _, h2, hkept₁⟩
    · have hlt := length_after_lt (List.mem_of_mem_take (List.getLast_mem hrows))
      obtain ⟨t', j', h3, hkept₂⟩ := segment_flips (n := n) (t := t₁)
        (k := some (List.getLast _ hrows)) (by omega) (hfail₁.trans hfail)
      exact ⟨t', j', h2.trans h3, hkept₁.trans hkept₂⟩

/-- Where the source serves all it has, an undisturbed run flips, and has skipped what has the format of the
head pair. -/
theorem exists_flip (t : Objects H) :
    ∃ s, Runs C L.backend src rows.hashes (.fresh t) s ∧ s.phase = .flipped ∧ HeadKept L t s.target := by
  obtain ⟨t', j', hr, hkept⟩ := segment_flips (L := L) (t := t) (j := ⟨none, {}⟩) (k := none) (c := {})
    hserve (Nat.lt_succ_self _) rfl
  exact ⟨⟨t', j', .flipped⟩, .head .start hr, rfl, hkept⟩

end Undisturbed

/-- **A target whose objects in the format of the head pair hold what the source serves is complete in every
run that flips. Where the source serves all it has, no other target is.** -/
theorem flip_complete {C : Crypto K H} (L : PairList C) (src : Source H) (rows : Listing H)
    (t : Objects H) :
    (Faithful L src rows.hashes t → ∀ s, Runs C L.backend src rows.hashes (.fresh t) s →
      s.phase = .flipped → ∀ h ∈ rows.hashes, Settled L src s.target h) ∧
    ((∀ h ∈ rows.hashes, src.present h = true → ∃ p, src.serve h = some p) →
      (∀ s, Runs C L.backend src rows.hashes (.fresh t) s → s.phase = .flipped →
        ∀ h ∈ rows.hashes, Settled L src s.target h) → Faithful L src rows.hashes t) := by
  refine ⟨fun hf s hr hflip => ?_, fun hserve hall h hh hmatch => ?_⟩
  · have hphase := ((Good.fresh hf).runs hr).phase
    rw [hflip] at hphase
    exact hphase
  · obtain ⟨s, hr, hflip, hkept⟩ := exists_flip (C := C) (L := L) hserve t
    exact settled_of_eq (hkept h hmatch).symm (hall s hr hflip h hh)

/-- A source with the one object `[7]`. -/
def sevenSource : Source ℕ := ⟨fun _ => true, fun _ => some [7], fun _ _ _ => rfl⟩

/-- Its one row. -/
def oneRow : Listing ℕ := ⟨[1], List.pairwise_singleton _ _⟩

theorem sevenSource_serves : ∀ h ∈ oneRow.hashes, sevenSource.present h = true →
    ∃ p, sevenSource.serve h = some p :=
  fun _ _ _ => ⟨_, rfl⟩

theorem flip_complete_emptyTarget :
    ∃ s, Runs tagCrypto onlyKey.backend sevenSource [1] (.fresh fun _ => none) s ∧ s.phase = .flipped ∧
      ∀ h ∈ [1], Settled onlyKey sevenSource s.target h := by
  obtain ⟨s, hr, hflip, -⟩ := exists_flip (C := tagCrypto) (L := onlyKey) sevenSource_serves fun _ => none
  refine ⟨s, hr, hflip, (flip_complete onlyKey sevenSource oneRow fun _ => none).1 (fun h _ hmatch => ?_) s hr hflip⟩
  cases hmatch

/-- The target holds an object under the hash, with a header of the right format and another content: the
run skips it and flips. -/
theorem foreign_object_skipped :
    ∃ s, Runs tagCrypto keyThenNone.backend sevenSource [1]
        (.fresh fun _ => some (header zeroFp ++ [9])) s ∧ s.phase = .flipped ∧
      sevenSource.serve 1 = some [7] ∧
      ∃ b, s.target 1 = some b ∧ keyThenNone.read 1 b = .ok [9] := by
  obtain ⟨s, hr, hflip, hkept⟩ := exists_flip (C := tagCrypto) (L := keyThenNone) sevenSource_serves
    fun _ => some (header zeroFp ++ [9])
  exact ⟨s, hr, hflip, rfl, _, hkept 1 (by decide), by decide⟩

end OxiCloud.BackendMigration
