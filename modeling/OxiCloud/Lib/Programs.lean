import Mathlib

/-! # Programs over atomic statements

A program is a tree of calls: it issues an atomic statement of a signature and continues with the
answer. A machine gives the statements their meaning over a state; what a statement leaves open (a
failure, the rows a `LIMIT` picks) is settled by a choice of the environment, and a statement may be
unable to run at all in a state (a row lock held by another transaction).

`Run` is the uninterrupted execution of one program, with the list of statements it issued. The
interleaved execution of several programs is in `Pools`. -/

namespace OxiCloud.Lib.Programs

/-- What a computation that may fail does before it succeeds. -/
theorem bind_eq_ok {ε α β : Type} {c : Except ε α} {f : α → Except ε β} {b : β} :
    (c >>= f) = .ok b ↔ ∃ a, c = .ok a ∧ f a = .ok b := by
  rcases c with e | a <;> simp [bind, Except.bind]

/-- A signature: the statements and the type of the answer to each. -/
structure Sig where
  Op : Type
  Resp : Op → Type

/-- A program: return a value, or issue a statement and continue with its answer. -/
inductive Prog (E : Sig) (α : Type) : Type where
  | ret (a : α) : Prog E α
  | call (op : E.Op) (k : E.Resp op → Prog E α) : Prog E α

namespace Prog

variable {E : Sig} {α β γ : Type}

/-- Run `p`, then the continuation on its result. -/
def bind : Prog E α → (α → Prog E β) → Prog E β
  | ret a, f => f a
  | call op k, f => call op fun r => bind (k r) f

instance : Monad (Prog E) where
  pure := ret
  bind := bind

/-- A single statement. -/
def stmt (op : E.Op) : Prog E (E.Resp op) := call op ret

/-- The result of a program that has returned. -/
def result : Prog E α → Option α
  | ret a => some a
  | call _ _ => none

@[simp] theorem ret_bind (a : α) (f : α → Prog E β) : (ret a >>= f) = f a := rfl

@[simp] theorem call_bind (op : E.Op) (k : E.Resp op → Prog E α) (f : α → Prog E β) :
    (call op k >>= f) = call op fun r => k r >>= f := rfl

/-- Every statement the program can issue, whatever the answers are, satisfies `P`. -/
def Only (P : E.Op → Prop) : Prog E α → Prop
  | ret _ => True
  | call op k => P op ∧ ∀ r, Only P (k r)

variable {P : E.Op → Prop}

theorem only_ret (a : α) : (ret a : Prog E α).Only P := trivial

variable {p : Prog E α}

theorem Only.mono {Q : E.Op → Prop} (h : p.Only P) (hPQ : ∀ op, P op → Q op) : p.Only Q := by
  induction p with
  | ret a => exact trivial
  | call op k ih => exact ⟨hPQ op h.1, fun r => ih r (h.2 r)⟩

theorem Only.bind {f : α → Prog E β} (h : p.Only P) (hf : ∀ a, (f a).Only P) :
    (p >>= f).Only P := by
  induction p with
  | ret a => exact hf a
  | call op k ih => exact ⟨h.1, fun r => ih r (h.2 r)⟩

theorem only_stmt {op : E.Op} {f : E.Resp op → Prog E β} (h : P op) (hf : ∀ r, (f r).Only P) :
    (stmt op >>= f).Only P := ⟨h, hf⟩

/-- Every result the program can return, whatever the answers are, satisfies `Q`. -/
def Returns (Q : α → Prop) : Prog E α → Prop
  | ret a => Q a
  | call _ k => ∀ r, Returns Q (k r)

theorem Returns.mono {Q R : α → Prop} (h : p.Returns Q) (hqr : ∀ a, Q a → R a) : p.Returns R := by
  induction p with
  | ret a => exact hqr a h
  | call op k ih => exact fun r => ih r (h r)

theorem Returns.bind {f : α → Prog E β} {Q : α → Prop} {R : β → Prop} (h : p.Returns Q)
    (hf : ∀ a, Q a → (f a).Returns R) : (p >>= f).Returns R := by
  induction p with
  | ret a => exact hf a h
  | call op k ih => exact fun r => ih r (h r)

theorem only_op {op : E.Op} (h : P op) : (stmt op).Only P := ⟨h, only_ret⟩

/-- The answer may be missing. -/
theorem Only.ask {p : Prog E (Option α)} {f : Option α → Prog E β} (h : p.Only P) (hn : (f none).Only P)
    (hs : ∀ a, (f (some a)).Only P) : (p >>= f).Only P := by
  refine h.bind fun r => ?_
  cases r with
  | none => exact hn
  | some a => exact hs a

end Prog

/-- The meaning of the statements over a state. The environment's choice settles what a statement
leaves open; `none` means the statement cannot run in this state under this choice. -/
structure Machine (E : Sig) (S : Type) where
  Choice : Type
  exec : (op : E.Op) → Choice → S → Option (E.Resp op × S)

section Run
variable {E : Sig} {S α β : Type} (M : Machine E S)
  (guard : (op : E.Op) → M.Choice → S → Prop)

/-- `Run M guard p s tr a s'`: started in `s` and not interrupted, `p` can issue the statements `tr`,
every one of them under a choice that meets `guard`, and return `a` in the state `s'`. -/
inductive Run : Prog E α → S → List E.Op → α → S → Prop where
  | ret (a : α) (s : S) : Run (.ret a) s [] a s
  | call {op : E.Op} {k : E.Resp op → Prog E α} {s s' s'' : S} {r : E.Resp op} {a : α}
      {tr : List E.Op} (c : M.Choice) (hg : guard op c s) (he : M.exec op c s = some (r, s'))
      (h : Run (k r) s' tr a s'') : Run (.call op k) s (op :: tr) a s''

variable {M guard}

variable {a : α} {s s' : S} {tr : List E.Op} {p : Prog E α}

theorem run_ret {b : α} : Run M guard (.ret a) s tr b s' ↔ tr = [] ∧ b = a ∧ s' = s := by
  constructor
  · intro h; cases h; exact ⟨rfl, rfl, rfl⟩
  · rintro ⟨rfl, rfl, rfl⟩; exact .ret _ _

variable {s'' : S}

theorem run_call {op : E.Op} {k : E.Resp op → Prog E α} :
    Run M guard (.call op k) s tr a s'' ↔ ∃ c r s' tr', guard op c s ∧
      M.exec op c s = some (r, s') ∧ tr = op :: tr' ∧ Run M guard (k r) s' tr' a s'' := by
  constructor
  · intro h
    cases h with
    | call c hg he h => exact ⟨c, _, _, _, hg, he, rfl, h⟩
  · rintro ⟨c, r, s', tr', hg, he, rfl, h⟩
    exact .call c hg he h

theorem run_stmt {op : E.Op} {k : E.Resp op → Prog E α} :
    Run M guard (Prog.stmt op >>= k) s tr a s'' ↔ ∃ c r s' tr', guard op c s ∧
      M.exec op c s = some (r, s') ∧ tr = op :: tr' ∧ Run M guard (k r) s' tr' a s'' :=
  run_call

theorem run_bind {f : α → Prog E β} {b : β} :
    Run M guard (p >>= f) s tr b s'' ↔ ∃ a s' tr₁ tr₂, Run M guard p s tr₁ a s' ∧
      Run M guard (f a) s' tr₂ b s'' ∧ tr = tr₁ ++ tr₂ := by
  induction p generalizing s tr with
  | ret a =>
    constructor
    · intro h; exact ⟨a, s, [], tr, .ret a s, h, rfl⟩
    · rintro ⟨a', s', tr₁, tr₂, h1, h2, rfl⟩
      obtain ⟨rfl, rfl, rfl⟩ := run_ret.mp h1
      exact h2
  | call op k ih =>
    rw [Prog.call_bind, run_call]
    constructor
    · rintro ⟨c, r, s', tr', hg, he, rfl, h⟩
      obtain ⟨a, s1, tr₁, tr₂, h1, h2, rfl⟩ := (ih r).mp h
      exact ⟨a, s1, op :: tr₁, tr₂, .call c hg he h1, h2, rfl⟩
    · rintro ⟨a, s1, tr₁, tr₂, h1, h2, rfl⟩
      obtain ⟨c, r, s', tr', hg, he, rfl, h⟩ := run_call.mp h1
      exact ⟨c, r, s', tr' ++ tr₂, hg, he, rfl, (ih r).mpr ⟨a, s1, tr', tr₂, h, h2, rfl⟩⟩

/-- A program that passes an error on has failed where its first part failed. -/
theorem run_failed {ε : Type} {p : Prog E (Except ε α)} {f : Except ε α → Prog E (Except ε β)} {e : ε}
    (hr : Run M guard (p >>= f) s tr (.error e) s') (hok : ∀ a, ∃ b, f (.ok a) = .ret (.ok b))
    (herr : ∀ e, f (.error e) = .ret (.error e)) : Run M guard p s tr (.error e) s' := by
  obtain ⟨r, s₁, tr₁, tr₂, h1, h2, rfl⟩ := run_bind.mp hr
  cases r with
  | error e' =>
    rw [herr] at h2
    obtain ⟨rfl, he, rfl⟩ := run_ret.mp h2
    cases he
    rwa [List.append_nil]
  | ok a =>
    obtain ⟨b, hb⟩ := hok a
    rw [hb] at h2
    cases (run_ret.mp h2).2.1

variable {P : E.Op → Prop}

section

variable (hr : Run M guard p s tr a s')
include hr

/-- What every statement of a program keeps, its runs keep. -/
theorem Run.of_only {I : S → Prop} (h : p.Only P)
    (hP : ∀ op, P op → ∀ c s r s', M.exec op c s = some (r, s') → I s → I s') (hi : I s) : I s' := by
  induction hr with
  | ret a s => exact hi
  | call c _ he _ ih => exact ih (h.2 _) (hP _ h.1 c _ _ _ he hi)

/-- What every statement that meets the guard keeps, runs keep. -/
theorem Run.keeps {I : S → Prop}
    (hI : ∀ op c s r s', guard op c s → M.exec op c s = some (r, s') → I s → I s') (hi : I s) :
    I s' := by
  induction hr with
  | ret a s => exact hi
  | call c hg he _ ih => exact ih (hI _ c _ _ _ hg he hi)

/-- A run issues no other statements than its program can issue. -/
theorem Run.mem_only (h : p.Only P) : ∀ op ∈ tr, P op := by
  induction hr with
  | ret a s => exact fun _ hop => absurd hop List.not_mem_nil
  | call c _ _ _ ih =>
    intro op hop
    rcases List.mem_cons.mp hop with rfl | hop
    · exact h.1
    · exact ih (h.2 _) op hop

theorem Run.returns {Q : α → Prop} (h : p.Returns Q) : Q a := by
  induction hr with
  | ret a s => exact h
  | call c _ _ _ ih => exact ih (h _)

/-- What every statement of a program satisfies may be added to the guard of its runs. -/
theorem Run.with_only (h : p.Only P) : Run M (fun op ch s => guard op ch s ∧ P op) p s tr a s' := by
  induction hr with
  | ret a s => exact .ret a s
  | call c hg he _ ih => exact .call c ⟨hg, h.1⟩ he (ih (h.2 _))

end

/-- Run a program under a list of choices, as far as they reach. -/
def replay (M : Machine E S) (guard : (op : E.Op) → M.Choice → S → Prop)
    [∀ op ch s, Decidable (guard op ch s)] : List M.Choice → Prog E α → S → Option (α × S)
  | _, .ret a, s => some (a, s)
  | [], .call _ _, _ => none
  | ch :: l, .call op k, s =>
    if guard op ch s then (M.exec op ch s).bind fun x => replay M guard l (k x.1) x.2 else none

/-- The statements a program issues under a list of choices. -/
def issued (M : Machine E S) : List M.Choice → Prog E α → S → List E.Op
  | _, .ret _, _ => []
  | [], .call _ _, _ => []
  | ch :: l, .call op k, s => op :: (M.exec op ch s).elim [] fun x => issued M l (k x.1) x.2

theorem replay_issued [∀ op ch s, Decidable (guard op ch s)] :
    ∀ {l : List M.Choice} {p : Prog E α} {s s' : S} {a : α},
      replay M guard l p s = some (a, s') → Run M guard p s (issued M l p s) a s'
  | [], .ret a, s, s', b, h => by cases h; exact .ret a s
  | _ :: _, .ret a, s, s', b, h => by cases h; exact .ret a s
  | [], .call _ _, _, _, _, h => by cases h
  | ch :: l, .call op k, s, s', a, h => by
    rw [replay] at h
    split_ifs at h with hg
    obtain ⟨⟨r, s₁⟩, he, h⟩ := Option.bind_eq_some_iff.mp h
    rw [issued, he]
    exact .call ch hg he (replay_issued h)

theorem replay_run [∀ op ch s, Decidable (guard op ch s)] {l : List M.Choice}
    (h : replay M guard l p s = some (a, s')) : ∃ tr, Run M guard p s tr a s' :=
  ⟨_, replay_issued h⟩

/-- A run read off a list of choices, with what holds at its end. -/
theorem exists_run [∀ op ch s, Decidable (guard op ch s)] {l : List M.Choice}
    {q : α × S → Bool} (h : (replay M guard l p s).any q = true) :
    ∃ a s' tr, Run M guard p s tr a s' ∧ q (a, s') = true := by
  obtain ⟨⟨a, s'⟩, h1, h2⟩ := (Option.any_eq_true _ _).mp h
  obtain ⟨tr, hr⟩ := replay_run h1
  exact ⟨a, s', tr, hr, h2⟩

end Run

end OxiCloud.Lib.Programs
