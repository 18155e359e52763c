import Mathlib

/-! # Invariants along runs

If an action keeps an invariant exactly if it meets a condition, then the invariant holds all along a run
exactly if all actions meet it. -/

namespace OxiCloud.Lib.Runs

variable {S A : Type} {step : S → A → S} {I : S → Prop} {ok : S → A → Prop} {l : List A} {s : S}

/-- **The rule.** `P` is a side condition on the run; `Q` says that every action meets the condition, `R` that
the invariant holds in every state. -/
theorem always_iff (P Q R : List A → S → Prop) (hnil : ∀ s, R [] s ↔ I s)
    (hcons : ∀ a l s, R (a :: l) s ↔ I s ∧ R l (step s a)) (hok : ∀ s, Q [] s)
    (hoks : ∀ a l s, Q (a :: l) s ↔ ok s a ∧ Q l (step s a))
    (hstep : ∀ a l s, P (a :: l) s → P l (step s a) ∧ (I s → (I (step s a) ↔ ok s a)))
    (hl : P l s) (h : I s) : R l s ↔ Q l s := by
  have hnow : ∀ l s, R l s → I s := by
    rintro (_ | ⟨a, l⟩) s hall
    · exact (hnil s).mp hall
    · exact ((hcons a l s).mp hall).1
  induction l generalizing s with
  | nil => exact iff_of_true ((hnil s).mpr h) (hok s)
  | cons a l ih =>
    obtain ⟨hrest, hiff⟩ := hstep a l s hl
    rw [hcons, hoks, ← hiff h]
    constructor
    · rintro ⟨-, hall⟩
      exact ⟨hnow l _ hall, (ih hrest (hnow l _ hall)).mp hall⟩
    · rintro ⟨ha, hall⟩
      exact ⟨h, (ih hrest ha).mpr hall⟩

end OxiCloud.Lib.Runs
