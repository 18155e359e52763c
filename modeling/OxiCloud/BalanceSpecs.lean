import OxiCloud.Balance
import OxiCloud.FileRepository

/-! # The balance of the programs

Every program of the blob handler and of the file repository keeps the balance, whatever runs beside
it. The triples say which tokens a program needs and which it leaves: `Keeps strict f c` says that of
the tokens `f` none is lost, and that under strict accounts exactly `f` is left (up to the slots of
derived rows that were purged). What the triples need to know about the accounts is a `Discipline`; the
balance in each mode is one. -/

namespace OxiCloud.BalanceSpecs

open Lib.Tables Lib.Programs Lib.Pools Schema OxiCloud.Machine Tokens Accounting Balance BlobHandler
open FileRepository Multiset Prog

variable {H : Type} [DecidableEq H] {mode : Mode}

/-- The statements of the uploads and the deletions that no account treats in a special way. -/
def Common : Op H → Prop
  | .pinClaimable _ | .releaseBatch _ | .insertManifest .. | .bumpBlob _ | .reapManifests
  | .reapBlobs _ | .rechunk .. | .copyFiles .. | .insertDerived .. | .upsertAttached ..
  | .insertAttached .. => False
  | _ => True

/-- Accounts that the common statements keep. A new manifest is accounted for if its program holds no
reference on the content (`fresh`). Under strict accounts no statement that settles a reference fails,
and the slots of a program bound the derived rows. -/
structure Discipline (H : Type) [DecidableEq H] where
  allow : Op H → Choice H → Store H → Multiset (Token H) → Prop
  inv : Store H → Multiset (Token H) → Prop
  strict : Prop
  fresh : Multiset (Token H) → H → Prop
  exec : ∀ {op : Op H} {ch : Choice H} {s s' : Store H} {r : op.Resp} {c rest : Multiset (Token H)},
    Common op → inv s (c + rest) → allow op ch s rest → Machine.exec op ch s = some (r, s') →
      loss op r ≤ c → inv s' ((ledger H).next op s r c + rest)
  insert : ∀ {h : H} {m : Manifest H} {ch : Choice H} {s s' : Store H} {r : Option Bool}
    {c rest : Multiset (Token H)}, fresh c h → inv s (c + rest) →
      allow (.insertManifest h m) ch s rest →
      Machine.exec (.insertManifest h m) ch s = some (r, s') → loss (.insertManifest h m) r ≤ c →
        inv s' ((ledger H).next (.insertManifest h m) s r c + rest)
  works : ∀ {op : Op H} {ch : Choice H} {s : Store H} {rest : Multiset (Token H)}, strict →
    allow op ch s rest → settles op = true → ch.fault = false
  slots : ∀ {op : Op H} {ch : Choice H} {s : Store H} {c rest : Multiset (Token H)}, strict →
    inv s (c + rest) → allow op ch s rest → s.derivedRows ≤ slots c

/-- The triple of programs under a discipline. -/
abbrev Triple {α : Type} (D : Discipline H) (p : Db H α) (c : Multiset (Token H))
    (Q : α → Multiset (Token H) → Prop) : Prop :=
  Safe (machine H) (ledger H) D.allow D.inv p c Q

/-- The balance is a discipline. -/
def balance (mode : Mode) : Discipline H where
  allow := Allow mode
  inv := Balanced mode
  strict := mode = .exact
  fresh _ _ := True
  exec {op} _ _ _ _ _ _ hop hb ha he hl := hb.exec ha he hl (by cases op <;> trivial)
  insert _ hb ha he hl := hb.exec ha he hl trivial
  works hm ha hop := ((ha.1 hm).1 hop).1
  slots hm hb ha := by
    have h1 := (hb.tidy hm).slots
    rwa [(ha.1 hm).2, add_zero] at h1

/-- The triple of balanced programs. -/
abbrev Spec {α : Type} (mode : Mode) (p : Db H α) (c : Multiset (Token H))
    (Q : α → Multiset (Token H) → Prop) : Prop :=
  Triple (balance mode) p c Q

/-- The tokens `f` are still there; under strict accounts nothing else is. -/
structure Keeps (strict : Prop) (f c : Multiset (Token H)) : Prop where
  le : ∀ t, t ≠ .slot → f.count t ≤ c.count t
  eq : strict → (∀ t, t ≠ .slot → c.count t = f.count t) ∧ slots c ≤ slots f

namespace Keeps

variable {strict : Prop} {f g c c' : Multiset (Token H)}

theorem refl (strict : Prop) (f : Multiset (Token H)) : Keeps strict f f :=
  ⟨fun _ _ => le_rfl, fun _ => ⟨fun _ _ => rfl, le_rfl⟩⟩

theorem trans (h₁ : Keeps strict f c) (h₂ : Keeps strict c c') : Keeps strict f c' where
  le t ht := (h₁.le t ht).trans (h₂.le t ht)
  eq hm := ⟨fun t ht => ((h₂.eq hm).1 t ht).trans ((h₁.eq hm).1 t ht),
    (h₂.eq hm).2.trans (h₁.eq hm).2⟩

theorem spend (strict : Prop) (f : Multiset (Token H)) (n : ℕ) :
    Keeps strict f (f - replicate n .slot) := by
  have hc : ∀ t : Token H, t ≠ .slot → (f - replicate n Token.slot).count t = f.count t := by
    intro t ht
    rw [count_sub, count_replicate, if_neg (Ne.symm ht), Nat.sub_zero]
  exact ⟨fun t ht => (hc t ht).ge, fun _ => ⟨hc, slots_mono (Multiset.sub_le_self _ _)⟩⟩

/-- Tokens that are no slots can be picked out again. -/
theorem split (h : Keeps strict (g + f) c) (hg : slots g = 0) :
    ∃ c', c = g + c' ∧ Keeps strict f c' := by
  have hle : g ≤ c := by
    rw [le_iff_count]
    intro t
    by_cases ht : t = .slot
    · rw [ht]
      exact hg.trans_le (Nat.zero_le _)
    · have := h.le t ht
      rw [count_add] at this
      omega
  obtain ⟨c', rfl⟩ := Multiset.le_iff_exists_add.mp hle
  refine ⟨c', rfl, fun t ht => ?_, fun hm => ⟨fun t ht => ?_, ?_⟩⟩
  · have := h.le t ht
    rw [count_add, count_add] at this
    omega
  · have := (h.eq hm).1 t ht
    rw [count_add, count_add] at this
    omega
  · have := (h.eq hm).2
    rw [slots_add, slots_add] at this
    omega

/-- Tokens that fell off unused are no harm unless the accounts are exact. -/
theorem cons (h : Keeps strict f c) (hm : ¬ strict) (t : Token H) : Keeps strict f (t ::ₘ c) :=
  ⟨fun t' ht => (h.le t' ht).trans (count_le_of_le _ (le_cons_self c t)), fun h => absurd h hm⟩

theorem add (h : Keeps strict f c) (hm : ¬ strict) (g : Multiset (Token H)) :
    Keeps strict f (g + c) :=
  ⟨fun t ht => (h.le t ht).trans (count_le_of_le _ (Multiset.le_add_left c g)),
    fun h => absurd h hm⟩

end Keeps

section Rules
variable {D : Discipline H} {α : Type} {c : Multiset (Token H)} {Q : α → Multiset (Token H) → Prop}

variable {op : Op H}

theorem Triple.issue {k : op.Resp → Db H α} (hop : Common op) (hl : ∀ r, loss op r ≤ c)
    (hk : ∀ s ch r s' rest, D.inv s (c + rest) → D.allow op ch s rest →
      Machine.exec op ch s = some (r, s') → Triple D (k r) ((ledger H).next op s r c) Q) :
    Triple D (Machine.issue op >>= k) c Q :=
  safe_call fun ch s r s' rest hi ha he =>
    ⟨D.exec hop hi ha he (hl r), hk s ch r s' rest hi ha he⟩

/-- The statements that move no token. -/
def Neutral (op : Op H) : Prop := op.Quiet ∨ ∃ rows, op = .registerOrphans rows

theorem Neutral.next (h : Neutral op) :
    Common op ∧ (∀ r, loss op r ≤ c) ∧ ∀ s r, (ledger H).next op s r c = c := by
  rcases h with hq | ⟨rows, rfl⟩
  · refine ⟨by cases op <;> trivial, fun r => ?_, fun s r => next_quiet hq⟩
    cases op <;> first | exact Multiset.zero_le c | exact hq.elim
  · refine ⟨trivial, fun _ => Multiset.zero_le c, fun s r => ?_⟩
    rw [next_eq (fun _ => rfl) rfl]
    simp [loss, gain]

/-- The rule for a common statement that only reads or touches no counted table. -/
theorem Triple.ask {k : op.Resp → Db H α} (hq : op.Quiet)
    (hk : ∀ s ch r s' rest, D.inv s (c + rest) → D.allow op ch s rest →
      Machine.exec op ch s = some (r, s') → Triple D (k r) c Q) :
    Triple D (Machine.issue op >>= k) c Q := by
  obtain ⟨hop, hl, hn⟩ := Neutral.next (.inl hq)
  refine Triple.issue hop hl fun s ch r s' rest hi ha he => ?_
  rw [hn]
  exact hk s ch r s' rest hi ha he

theorem neutral_spec {p : Db H α} (h : p.Only Neutral) : Triple D p c fun _ c' => c' = c := by
  refine Safe.of_only h fun op hop ch s r s' rest hi ha he => ?_
  obtain ⟨hc, hl, hn⟩ := hop.next
  have hi' := D.exec hc hi ha he (hl r)
  rw [hn] at hi'
  exact ⟨hi', hn s r⟩

theorem quiet_spec {p : Db H α} (h : p.Only Op.Quiet) : Triple D p c fun _ c' => c' = c :=
  neutral_spec (h.mono fun _ => .inl)

theorem Triple.insert {h : H} {m : Manifest H} {k : Option Bool → Db H α} (hc : D.fresh c h)
    (hl : chunksOf m.chunkHashes ≤ c)
    (hk : ∀ s ch r s' rest, D.inv s (c + rest) → D.allow (.insertManifest h m) ch s rest →
      Machine.exec (.insertManifest h m) ch s = some (r, s') →
        Triple D (k r) ((ledger H).next (.insertManifest h m) s r c) Q) :
    Triple D (Machine.issue (.insertManifest h m) >>= k) c Q := by
  refine safe_call fun ch s r s' rest hi ha he =>
    ⟨D.insert hc hi ha he ?_, hk s ch r s' rest hi ha he⟩
  rcases r with _ | _ | _
  · exact Multiset.zero_le c
  · exact Multiset.zero_le c
  · exact hl

end Rules

variable {op : Op H}

theorem Spec.issue {α : Type} {k : op.Resp → Db H α} {c : Multiset (Token H)}
    {Q : α → Multiset (Token H) → Prop} (hop : Covered mode op) (hl : ∀ r, loss op r ≤ c)
    (hk : ∀ s ch r s' rest, Balanced mode s (c + rest) → Allow mode op ch s rest →
      Machine.exec op ch s = some (r, s') → Spec mode (k r) ((ledger H).next op s r c) Q) :
    Spec mode (Machine.issue op >>= k) c Q :=
  safe_call fun ch s r s' rest hb ha he =>
    ⟨hb.exec ha he (hl r) hop, hk s ch r s' rest hb ha he⟩

omit [DecidableEq H] in
variable {ch : Choice H} {s : Store H}

theorem fault_of_none {β : Type} {s' : Store H} {x : β × Store H}
    (h : answer ch s x = some (none, s')) : ch.fault = true := by
  rcases answer_cases h with ⟨hf, -, -⟩ | ⟨hr, -⟩
  · exact hf
  · cases hr

theorem Discipline.not_strict {D : Discipline H} {rest : Multiset (Token H)}
    (ha : D.allow op ch s rest) (hop : settles op = true) (hf : ch.fault = true) : ¬ D.strict := by
  intro hs
  rw [D.works hs ha hop] at hf
  cases hf

theorem Allow.ne_exact {rest : Multiset (Token H)} (ha : Allow mode op ch s rest)
    (hop : settles op = true) (hf : ch.fault = true) : mode ≠ .exact :=
  Discipline.not_strict (D := balance mode) ha hop hf

/-! ### Releases -/

variable {D : Discipline H}

/-- What a release has to do, as long as the purges nest less than `fuel` deep. -/
def Releases (D : Discipline H) (fuel : ℕ) : Prop :=
  ∀ (h : H) (f : Multiset (Token H)), (D.strict → slots f < fuel) →
    Triple D (removeReference fuel h) (.file h ::ₘ f) fun _ c => Keeps D.strict f c

theorem releaseAll_spec {fuel : ℕ} (hr : Releases D fuel) :
    ∀ (hs : List H) (f : Multiset (Token H)), (hs ≠ [] → D.strict → slots f < fuel) →
      Triple D (releaseAll (removeReference fuel) hs) (filesOf hs + f) fun _ c => Keeps D.strict f c
  | [], f, _ => by
    have hz : filesOf ([] : List H) + f = f := by simp [filesOf]
    rw [hz]
    exact safe_ret (Keeps.refl D.strict f)
  | h :: hs, f, hf => by
    have hcons : filesOf (h :: hs) + f = .file h ::ₘ (filesOf hs + f) := by
      rw [filesOf_cons, cons_add]
    have hslots : D.strict → slots (filesOf hs + f) < fuel := by
      intro hm
      rw [slots_add, slots_filesOf, Nat.zero_add]
      exact hf (by simp) hm
    rw [hcons]
    refine Safe.bind (hr h _ hslots) fun _ c hc => ?_
    obtain ⟨c', rfl, hk⟩ := hc.split (slots_filesOf hs)
    refine (releaseAll_spec hr hs c' fun _ hm => ?_).mono fun _ _ h2 => hk.trans h2
    exact (hk.eq hm).2.trans_lt (hf (by simp) hm)

/-- A purge nests a release only if it deleted a row, and then it has spent a slot. -/
theorem purgeDerivedBlobs_spec {fuel : ℕ} (hr : Releases D fuel) (h : H)
    (f : Multiset (Token H)) (hf : D.strict → slots f ≤ fuel) :
    Triple D (purgeDerivedBlobs (removeReference fuel) h) f fun _ c => Keeps D.strict f c := by
  refine Triple.issue trivial (fun r => Multiset.zero_le f) fun s ch r s' rest hb ha he => ?_
  have hnext : (ledger H).next (.deleteDerived h) s r f =
      f - replicate (spent (.deleteDerived h) r) .slot + gain (.deleteDerived h) s r := by
    have hc : f.filter (fun t => void (.deleteDerived h) r t = false) = f :=
      filter_eq_self.mpr fun _ _ => rfl
    show f.filter _ - _ - 0 + _ = _
    rw [hc, Multiset.sub_zero]
  rw [hnext]
  cases r with
  | none => exact safe_ret (by simpa [spent, gain] using Keeps.refl D.strict f)
  | some rows =>
    by_cases hn : none ∈ rows
    · simp only [hn, if_true, gain, spent, add_zero]
      exact safe_ret (Keeps.spend D.strict f rows.length)
    · simp only [hn, if_false, gain, spent]
      have hk := Keeps.spend D.strict f rows.length
      rw [add_comm]
      refine (releaseAll_spec hr _ _ fun hne hm => ?_).mono fun _ _ h2 => hk.trans h2
      have hrows : 0 < rows.length := by
        rcases rows with _ | ⟨x, l⟩
        · exact absurd rfl hne
        · simp
      have hslots : rows.length ≤ slots f := by
        have h1 := D.slots hm hb ha
        simp only [Machine.exec] at he
        split_ifs at he with ho
        rcases answer_cases he with ⟨-, h2, -⟩ | ⟨h2, -⟩
        · cases h2
        · have h3 := Store.derivedRows_deleteDerived ho
          cases h2
          omega
      have h4 := hf hm
      simp only [slots, count_sub, count_replicate_self] at hslots h4 ⊢
      omega

/-- **A release gives back one reference**, and what hangs on the content if it was the last. -/
theorem removeReference_spec (D : Discipline H) : ∀ fuel, Releases D fuel
  | 0, h, f, hf => by
    refine safe_ret ⟨fun t _ => count_le_count_cons t _ f, fun hm => ?_⟩
    exact absurd (hf hm) (Nat.not_lt_zero _)
  | fuel + 1, h, f, hf => by
    have hpurge := purgeDerivedBlobs_spec (removeReference_spec D fuel) h f
      fun hm => Nat.lt_succ_iff.mp (hf hm)
    refine Triple.issue trivial (fun r => singleton_le.mpr (mem_cons_self _ _))
      fun s ch r s' rest _ _ _ => ?_
    rw [next_eq (fun _ => rfl) rfl]
    rcases r with _ | _ | m
    · rw [used rfl rfl]
      exact safe_ret (Keeps.refl D.strict f)
    -- the row of the legacy blob and the manifest are given up alike
    all_goals
      rw [turned rfl rfl]
      refine Triple.issue trivial (fun r => singleton_le.mpr (mem_cons_self _ _))
        fun s ch r s' rest _ _ _ => ?_
      rw [next_eq (fun _ => rfl) rfl]
      rw [used rfl rfl]
      rcases r with _ | _ | _ | _
      · exact safe_ret (Keeps.refl D.strict f)
      · exact safe_ret (Keeps.refl D.strict f)
      · exact safe_ret (Keeps.refl D.strict f)
      · exact Safe.bind hpurge fun _ c hc => safe_ret hc

end OxiCloud.BalanceSpecs
