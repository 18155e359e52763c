import Mathlib

/-! # Noninterference by unwinding

A system takes events one after the other; the events one observer is responsible for give outputs. The
observer sees the same outputs without the events of the others, if there is a relation between the two
states that both kinds of steps keep. Steps may be subject to a condition on the state they are taken in;
the condition is asked of the full run only. -/

namespace OxiCloud.Lib.Unwinding

variable {S E O : Type} (step : S → E → O × S) (mine : E → Bool) (ok : S → E → Prop)

/-- The outputs of the observer's events. -/
def outputs : S → List E → List O
  | _, [] => []
  | s, e :: l => if mine e then (step s e).1 :: outputs (step s e).2 l else outputs (step s e).2 l

/-- Every event meets the condition in the state it is taken in. -/
def AllOk : S → List E → Prop
  | _, [] => True
  | s, e :: l => ok s e ∧ AllOk (step s e).2 l

variable {step mine ok} {R : S → S → Prop}

/-- **Unwinding.** -/
theorem outputs_filter (hmine : ∀ s s' e, R s s' → ok s e → mine e = true →
      (step s e).1 = (step s' e).1 ∧ R (step s e).2 (step s' e).2)
    (hother : ∀ s s' e, R s s' → ok s e → mine e = false → R (step s e).2 s')
    {l : List E} {s s' : S} (hR : R s s') (hl : AllOk step ok s l) :
    outputs step mine s l = outputs step mine s' (l.filter mine) := by
  induction l generalizing s s' with
  | nil => rfl
  | cons e l ih =>
    obtain ⟨hok, hl⟩ := hl
    rcases he : mine e with _ | _
    · have hR' := hother s s' e hR hok he
      rw [List.filter_cons_of_neg (by simp [he]), outputs, if_neg (by simp [he])]
      exact ih hR' hl
    · obtain ⟨hout, hR'⟩ := hmine s s' e hR hok he
      rw [List.filter_cons_of_pos he, outputs, outputs, if_pos he, if_pos he, hout, ih hR' hl]

end OxiCloud.Lib.Unwinding
