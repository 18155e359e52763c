import OxiCloud.Lib.Programs

/-! # Interleavings and tokens

A pool is a shared state and a list of programs; a step lets one of them issue its next statement. A
program's claims on the shared state are accounted for by *tokens*: the ledger says, for every
statement and its answer, which tokens the issuing program holds afterwards. A program that has
returned holds none. The tokens do not influence a run, they are what conditions on runs (`allow`) and
invariants can refer to.

`Safe inv allow p c Q` is the triple for interleaved programs: started with the tokens `c`, whatever
the other programs do between two of its statements, each statement `p` issues keeps the invariant
`inv`, and if `p` returns `a` holding the tokens `c'` then `Q a c'`. The rules are `safe_ret`,
`safe_call`, `Safe.bind` and `Safe.mono`; `Runs.safe` says that a pool of safe programs keeps the invariant in
every run, and `Safe.run` the same of one program run alone. -/

namespace OxiCloud.Lib.Pools

open Lib.Programs

variable {E : Sig} {S T α β : Type}

/-- The tokens a program holds after a statement. -/
structure Ledger (E : Sig) (S T : Type) where
  next : (op : E.Op) → S → E.Resp op → Multiset T → Multiset T

/-- The ledger of programs that make no claims. -/
def Ledger.idle : Ledger E S T := ⟨fun _ _ _ c => c⟩

/-- A program in a pool with the tokens it has collected. -/
structure Thread (E : Sig) (T α : Type) where
  tokens : Multiset T
  prog : Prog E α

/-- The tokens a program holds: none once it has returned. -/
def Thread.held (t : Thread E T α) : Multiset T :=
  match t.prog with
  | .ret _ => 0
  | .call _ _ => t.tokens

/-- The tokens held by a list of programs. -/
def tokens (l : List (Thread E T α)) : Multiset T := (l.map Thread.held).sum

@[simp] theorem tokens_cons (t : Thread E T α) (l : List (Thread E T α)) :
    tokens (t :: l) = t.held + tokens l := by simp [tokens]

@[simp] theorem tokens_append (l l' : List (Thread E T α)) :
    tokens (l ++ l') = tokens l + tokens l' := by simp [tokens]

/-- A shared state and the programs running over it. -/
structure Pool (E : Sig) (S T α : Type) where
  store : S
  threads : List (Thread E T α)

/-- The pool in which no program has issued a statement yet. -/
def Pool.start (s : S) (l : List (Prog E α)) : Pool E S T α := ⟨s, l.map fun p => ⟨0, p⟩⟩

section Semantics
variable (M : Machine E S) (L : Ledger E S T)
  (allow : (op : E.Op) → M.Choice → S → Multiset T → Prop)

/-- One statement of one program. `allow` is given the tokens of the *other* programs. -/
inductive Step : Pool E S T α → Pool E S T α → Prop where
  | mk {s s' : S} {l₁ l₂ : List (Thread E T α)} {c : Multiset T} {op : E.Op}
      {k : E.Resp op → Prog E α} {r : E.Resp op} (ch : M.Choice)
      (ha : allow op ch s (tokens l₁ + tokens l₂)) (he : M.exec op ch s = some (r, s')) :
      Step ⟨s, l₁ ++ ⟨c, .call op k⟩ :: l₂⟩ ⟨s', l₁ ++ ⟨L.next op s r c, k r⟩ :: l₂⟩

/-- Any number of steps. -/
def Runs : Pool E S T α → Pool E S T α → Prop := Relation.ReflTransGen (Step M L allow)

/-- The triple for interleaved programs. -/
def Safe (inv : S → Multiset T → Prop) :
    Prog E α → Multiset T → (α → Multiset T → Prop) → Prop
  | .ret a, c, Q => Q a c
  | .call op k, c, Q => ∀ ch s r s' rest, inv s (c + rest) → allow op ch s rest →
      M.exec op ch s = some (r, s') →
        inv s' (L.next op s r c + rest) ∧ Safe inv (k r) (L.next op s r c) Q

/-- The invariant and the safety of every program of a pool. -/
structure Good (inv : S → Multiset T → Prop) (Q : α → Multiset T → Prop)
    (P : Pool E S T α) : Prop where
  store : inv P.store (tokens P.threads)
  threads : ∀ t ∈ P.threads, Safe M L allow inv t.prog t.tokens Q

variable {M L allow} {inv : S → Multiset T → Prop}

variable {c : Multiset T} {Q : α → Multiset T → Prop} {p : Prog E α}

variable {a : α}

theorem safe_ret (h : Q a c) : Safe M L allow inv (.ret a) c Q := h

theorem safe_call {op : E.Op} {k : E.Resp op → Prog E α}
    (h : ∀ ch s r s' rest, inv s (c + rest) → allow op ch s rest → M.exec op ch s = some (r, s') →
      inv s' (L.next op s r c + rest) ∧ Safe M L allow inv (k r) (L.next op s r c) Q) :
    Safe M L allow inv (.call op k) c Q := h

theorem Safe.mono {Q' : α → Multiset T → Prop}
    (h : Safe M L allow inv p c Q) (hQ : ∀ a c', Q a c' → Q' a c') : Safe M L allow inv p c Q' := by
  induction p generalizing c with
  | ret a => exact hQ a c h
  | call op k ih =>
    intro ch s r s' rest hi ha he
    exact ⟨(h ch s r s' rest hi ha he).1, ih r (h ch s r s' rest hi ha he).2⟩

/-- **Sequencing.** -/
theorem Safe.bind {f : α → Prog E β} {R : β → Multiset T → Prop} (h : Safe M L allow inv p c Q)
    (hf : ∀ a c', Q a c' → Safe M L allow inv (f a) c' R) : Safe M L allow inv (p >>= f) c R := by
  induction p generalizing c with
  | ret a => exact hf a c h
  | call op k ih =>
    intro ch s r s' rest hi ha he
    exact ⟨(h ch s r s' rest hi ha he).1, ih r (h ch s r s' rest hi ha he).2⟩

/-- A program whose statements all keep the invariant and its tokens. -/
theorem Safe.of_only {P : E.Op → Prop} (h : p.Only P)
    (hP : ∀ op, P op → ∀ ch s r s' rest, inv s (c + rest) → allow op ch s rest →
      M.exec op ch s = some (r, s') → inv s' (c + rest) ∧ L.next op s r c = c) :
    Safe M L allow inv p c fun _ c' => c' = c := by
  induction p with
  | ret a => exact rfl
  | call op k ih =>
    intro ch s r s' rest hi ha he
    obtain ⟨h1, h2⟩ := hP op h.1 ch s r s' rest hi ha he
    rw [h2]
    exact ⟨h1, ih r (h.2 r)⟩

theorem Safe.returns {R : α → Prop} (h : Safe M L allow inv p c Q) (hr : p.Returns R) :
    Safe M L allow inv p c fun a c' => Q a c' ∧ R a := by
  induction p generalizing c with
  | ret a => exact ⟨h, hr⟩
  | call op k ih =>
    intro ch s r s' rest hi ha he
    exact ⟨(h ch s r s' rest hi ha he).1, ih r (h ch s r s' rest hi ha he).2 (hr r)⟩

/-- What a program holds when it returns may be dropped. -/
def Droppable (inv : S → Multiset T → Prop) (Q : α → Multiset T → Prop) : Prop :=
  ∀ s a c rest, Q a c → inv s (c + rest) → inv s rest

variable {P' : Pool E S T α}

theorem Step.good (hQ : Droppable inv Q) {P : Pool E S T α} (h : Step M L allow P P')
    (hg : Good M L allow inv Q P) : Good M L allow inv Q P' := by
  obtain @⟨s, s', l₁, l₂, c, op, k, r, ch, ha, he⟩ := h
  obtain ⟨hi, ht⟩ := hg
  have hsafe := ht ⟨c, .call op k⟩ (by simp)
  have hi' : inv s (c + (tokens l₁ + tokens l₂)) := by
    rw [tokens_append, tokens_cons] at hi
    rwa [add_left_comm]
  obtain ⟨h1, h2⟩ := hsafe ch s r s' _ hi' ha he
  refine ⟨?_, fun t hmem => ?_⟩
  · rw [tokens_append, tokens_cons, add_left_comm]
    cases hk : k r with
    | call op' k' => exact h1
    | ret a =>
      rw [hk] at h2
      have h3 : inv s' (tokens l₁ + tokens l₂) := hQ s' a _ _ h2 h1
      rwa [← zero_add (tokens l₁ + tokens l₂)] at h3
  · rcases List.mem_append.mp hmem with hm | hm
    · exact ht t (by simp [hm])
    · rcases List.mem_cons.mp hm with rfl | hm
      · exact h2
      · exact ht t (by simp [hm])

/-- **A pool of safe programs keeps the invariant in every run.** -/
theorem Runs.safe (hQ : Droppable inv Q) {P : Pool E S T α} (h : Runs M L allow P P')
    (hi : inv P.store (tokens P.threads))
    (ht : ∀ t ∈ P.threads, Safe M L allow inv t.prog t.tokens Q) :
    inv P'.store (tokens P'.threads) := by
  have hg : Good M L allow inv Q P' := by
    induction h with
    | refl => exact ⟨hi, ht⟩
    | tail _ hs ih => exact hs.good hQ ih
  exact hg.store

theorem tokens_start (s : S) (l : List (Prog E α)) :
    tokens (Pool.start (T := T) s l).threads = 0 := by
  induction l with
  | nil => rfl
  | cons p l ih =>
    have hc : tokens (Pool.start (T := T) s (p :: l)).threads =
        Thread.held ⟨0, p⟩ + tokens (Pool.start (T := T) s l).threads := tokens_cons _ _
    rw [hc, ih, add_zero]
    cases p <;> rfl

/-- The same from a fresh pool, whose programs hold no tokens. -/
theorem Runs.start_safe (hQ : Droppable inv Q) {s : S} {l : List (Prog E α)}
    (h : Runs M L allow (Pool.start s l) P') (hi : inv s 0)
    (hl : ∀ p ∈ l, Safe M L allow inv p 0 Q) : inv P'.store (tokens P'.threads) := by
  refine h.safe hQ (by rwa [tokens_start]) fun t ht => ?_
  obtain ⟨p, hp, rfl⟩ := List.mem_map.mp ht
  exact hl p hp

/-- **A safe program run without interruption**, beside programs that hold the tokens `rest`. -/
theorem Safe.run_beside {rest : Multiset T} {guard : (op : E.Op) → M.Choice → S → Prop} {s s' : S}
    {tr : List E.Op} (h : Safe M L allow inv p c Q) (hi : inv s (c + rest))
    (hall : ∀ op ch s, guard op ch s → allow op ch s rest) (hr : Run M guard p s tr a s') :
    ∃ c', inv s' (c' + rest) ∧ Q a c' := by
  induction hr generalizing c with
  | ret a s => exact ⟨c, hi, h⟩
  | call ch hg he _ ih =>
    obtain ⟨h1, h2⟩ := h ch _ _ _ rest hi (hall _ _ _ hg) he
    exact ih h2 h1

theorem Safe.run {guard : (op : E.Op) → M.Choice → S → Prop} {s s' : S} {tr : List E.Op}
    (h : Safe M L allow inv p c Q) (hi : inv s c)
    (hall : ∀ op ch s, guard op ch s → allow op ch s 0) (hr : Run M guard p s tr a s') :
    ∃ c', inv s' c' ∧ Q a c' := by
  obtain ⟨c', h1, h2⟩ := h.run_beside (by rwa [add_zero]) hall hr
  exact ⟨c', by rwa [add_zero] at h1, h2⟩

/-- **An invariant that no statement breaks holds after every run**, whatever the programs are. -/
theorem Runs.invariant {I : S → Prop} {P : Pool E S T α}
    (hstep : ∀ op ch s r s' rest, I s → allow op ch s rest → M.exec op ch s = some (r, s') → I s')
    (h : Runs M L allow P P') (hi : I P.store) : I P'.store := by
  induction h with
  | refl => exact hi
  | tail _ hs ih =>
    obtain @⟨s, s', l₁, l₂, c, op, k, r, ch, ha, he⟩ := hs
    exact hstep op ch s r s' _ ih ha he

end Semantics

/-! ### Executing a schedule -/

section Schedule
variable (M : Machine E S) (L : Ledger E S T)
  (allow : (op : E.Op) → M.Choice → S → Multiset T → Prop)
  [∀ op ch s rest, Decidable (allow op ch s rest)]

/-- Let program `i` issue its next statement. -/
def stepAt (i : ℕ) (ch : M.Choice) (P : Pool E S T α) : Option (Pool E S T α) :=
  match P.threads.drop i with
  | ⟨c, .call op k⟩ :: l₂ =>
    if allow op ch P.store (tokens (P.threads.take i) + tokens l₂) then
      (M.exec op ch P.store).map fun x =>
        ⟨x.2, P.threads.take i ++ ⟨L.next op P.store x.1 c, k x.1⟩ :: l₂⟩
    else none
  | _ => none

/-- Execute a schedule: which program moves, under which choice. -/
def execute : List (ℕ × M.Choice) → Pool E S T α → Option (Pool E S T α)
  | [], P => some P
  | (i, ch) :: l, P => (stepAt M L allow i ch P).bind (execute l)

variable {M L allow}

variable {P : Pool E S T α}

theorem stepAt_step {i : ℕ} {ch : M.Choice} {P' : Pool E S T α}
    (h : stepAt M L allow i ch P = some P') : Step M L allow P P' := by
  obtain ⟨s, l⟩ := P
  unfold stepAt at h
  split at h
  · next c op k l₂ hd =>
    split_ifs at h with ha
    simp only [Option.map_eq_some_iff] at h
    obtain ⟨⟨r, s'⟩, he, rfl⟩ := h
    have hl : l = l.take i ++ ⟨c, .call op k⟩ :: l₂ := by
      rw [← hd]; exact (List.take_append_drop i l).symm
    have hstep : Step M L allow ⟨s, l.take i ++ ⟨c, .call op k⟩ :: l₂⟩
        ⟨s', l.take i ++ ⟨L.next op s r c, k r⟩ :: l₂⟩ := .mk ch ha he
    rwa [← hl] at hstep
  · cases h

/-- **An executed schedule is a run.** -/
theorem execute_runs : ∀ {l : List (ℕ × M.Choice)} {P P' : Pool E S T α},
    execute M L allow l P = some P' → Runs M L allow P P'
  | [], P, P', h => by cases h; exact .refl
  | (i, ch) :: l, P, P', h => by
    obtain ⟨P1, h1, h2⟩ := Option.bind_eq_some_iff.mp h
    exact .head (stepAt_step h1) (execute_runs h2)

theorem exists_runs {l : List (ℕ × M.Choice)} {p : Pool E S T α → Bool}
    (h : (execute M L allow l P).any p = true) : ∃ P', Runs M L allow P P' ∧ p P' = true := by
  obtain ⟨P', h1, h2⟩ := (Option.any_eq_true _ _).mp h
  exact ⟨P', execute_runs h1, h2⟩

/-- A run read off a schedule, with what holds at its end. -/
theorem exists_run {p : Pool E S T α → Prop} [DecidablePred p] (l : List (ℕ × M.Choice))
    (h : ((execute M L allow l P).any fun P' => decide (p P')) = true) :
    ∃ P', Runs M L allow P P' ∧ p P' := by
  obtain ⟨P', hr, h⟩ := exists_runs h
  exact ⟨P', hr, of_decide_eq_true h⟩

/-- A run read off a schedule, with what follows of such a run. -/
theorem exists_run_with {p q : Pool E S T α → Prop} [DecidablePred p] (l : List (ℕ × M.Choice))
    (hq : ∀ P', Runs M L allow P P' → p P' → q P')
    (h : ((execute M L allow l P).any fun P' => decide (p P')) = true) :
    ∃ P', Runs M L allow P P' ∧ p P' ∧ q P' := by
  obtain ⟨P', hr, hp⟩ := exists_run l h
  exact ⟨P', hr, hp, hq P' hr hp⟩

end Schedule

end OxiCloud.Lib.Pools
