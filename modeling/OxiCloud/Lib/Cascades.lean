import Mathlib

/-! # Cascades

`cascade U dep S` is the set of the nodes of the finite set `U` that fall with `S` when every node falls
with each node it depends on: the closure of `S` under `dep`, computed by as many rounds as `U` has
nodes. It contains `S` (`subset_cascade`), is closed (`mem_cascade_of_dep`), and contains nothing that
does not follow from that (`cascade_induction`). -/

namespace OxiCloud.Lib.Cascades

variable {α : Type} [DecidableEq α] (U : Finset α) (dep : α → α → Prop)
  [∀ x y, Decidable (dep x y)]

/-- One round: the nodes that depend on a fallen one fall. -/
def round (T : Finset α) : Finset α := T ∪ U.filter fun x => ∃ y ∈ T, dep x y

/-- Everything that falls with `S`. -/
def cascade (S : Finset α) : Finset α := (round U dep)^[U.card] S

variable {U dep} {S T : Finset α}

theorem mem_round {x : α} : x ∈ round U dep T ↔ x ∈ T ∨ x ∈ U ∧ ∃ y ∈ T, dep x y := by
  simp [round]

theorem subset_round : T ⊆ round U dep T := Finset.subset_union_left

theorem round_subset (h : T ⊆ U) : round U dep T ⊆ U :=
  Finset.union_subset h (Finset.filter_subset _ _)

theorem subset_rounds (n : ℕ) : S ⊆ (round U dep)^[n] S := by
  induction n with
  | zero => exact Finset.Subset.refl S
  | succ n ih =>
    rw [Function.iterate_succ_apply']
    exact ih.trans subset_round

theorem rounds_subset (h : S ⊆ U) (n : ℕ) : (round U dep)^[n] S ⊆ U := by
  induction n with
  | zero => exact h
  | succ n ih =>
    rw [Function.iterate_succ_apply']
    exact round_subset ih

/-- After `n` rounds either nothing is left to fall or at least `n` nodes have fallen. -/
theorem rounds_fixed_or (n : ℕ) :
    round U dep ((round U dep)^[n] S) = (round U dep)^[n] S ∨ n ≤ ((round U dep)^[n] S).card := by
  induction n with
  | zero => exact .inr (Nat.zero_le _)
  | succ n ih =>
    rw [Function.iterate_succ_apply']
    by_cases hf : round U dep ((round U dep)^[n] S) = (round U dep)^[n] S
    · left; rw [hf, hf]
    · right
      have hle := ih.resolve_left hf
      have hlt : ((round U dep)^[n] S).card < (round U dep ((round U dep)^[n] S)).card :=
        Finset.card_lt_card (subset_round.ssubset_of_ne (Ne.symm hf))
      omega

theorem round_cascade (h : S ⊆ U) : round U dep (cascade U dep S) = cascade U dep S := by
  have hsteps : round U dep (cascade U dep S) = cascade U dep S ∨ U.card ≤ (cascade U dep S).card :=
    rounds_fixed_or U.card
  rcases hsteps with hf | hle
  · exact hf
  · have hU : cascade U dep S = U := Finset.eq_of_subset_of_card_le (rounds_subset h _) hle
    rw [hU]
    exact (round_subset (Finset.Subset.refl U)).antisymm subset_round

theorem subset_cascade : S ⊆ cascade U dep S := subset_rounds _

theorem mem_cascade_of_dep (h : S ⊆ U) {x y : α} (hx : x ∈ U) (hy : y ∈ cascade U dep S)
    (hd : dep x y) : x ∈ cascade U dep S := by
  rw [← round_cascade h]
  exact mem_round.mpr (.inr ⟨hx, y, hy, hd⟩)

/-- **What holds of `S` and is handed on to dependents holds of everything that falls.** -/
theorem cascade_induction {P : α → Prop} (hS : ∀ x ∈ S, P x)
    (hd : ∀ x y, x ∈ U → P y → dep x y → P x) : ∀ x ∈ cascade U dep S, P x := by
  have hr : ∀ n, ∀ x ∈ (round U dep)^[n] S, P x := by
    intro n
    induction n with
    | zero => exact hS
    | succ n ih =>
      intro x hx
      rw [Function.iterate_succ_apply', mem_round] at hx
      rcases hx with hx | ⟨hU, y, hy, hxy⟩
      · exact ih x hx
      · exact hd x y hU (ih y hy) hxy
  exact hr _

end OxiCloud.Lib.Cascades
