import Mathlib

/-! # Chains of a relation

`Chain R n a b` is a chain of `n` links from `a` to `b`. A new link `g → c` that closes no cycle is used at
most once by a chain (`Chain.withLink_cases`); so the relation stays acyclic exactly if no chain leads from
`c` back to `g` (`acyclic_withLink_iff`), and the longest chain through the link is made of the longest one
up to `g` and the longest one from `c` on (`bounded_withLink_iff`). In an acyclic relation on finitely many
links no chain is longer than their number (`Chain.le_card`). -/

namespace OxiCloud.Lib.Chains

variable {α : Type}

/-- A chain of `n` links. -/
inductive Chain (R : α → α → Prop) : ℕ → α → α → Prop where
  | nil (a : α) : Chain R 0 a a
  | cons {n : ℕ} {a b c : α} (h : R a b) (hc : Chain R n b c) : Chain R (n + 1) a c

/-- No chain comes back. -/
def Acyclic (R : α → α → Prop) : Prop := ∀ n a, ¬ Chain R (n + 1) a a

/-- No chain is longer than `k`. -/
def Bounded (R : α → α → Prop) (k : ℕ) : Prop := ∀ n a b, Chain R n a b → n ≤ k

/-- The relation with one more link. -/
def WithLink (R : α → α → Prop) (g c : α) (a b : α) : Prop := R a b ∨ a = g ∧ b = c

variable {R S : α → α → Prop} {m n k : ℕ} {a b c g : α}

theorem Chain.mono (h : Chain R n a b) (hRS : ∀ a b, R a b → S a b) : Chain S n a b := by
  induction h with
  | nil a => exact .nil a
  | cons h _ ih => exact .cons (hRS _ _ h) ih

theorem Chain.append (h : Chain R m a b) (h' : Chain R n b c) : Chain R (m + n) a c := by
  induction h with
  | nil a => rwa [Nat.zero_add]
  | @cons m _ _ _ h _ ih =>
    rw [Nat.add_right_comm]
    exact .cons h (ih h')

theorem Chain.single (h : R a b) : Chain R 1 a b := .cons h (.nil b)

theorem Chain.eq_of_zero (h : Chain R 0 a b) : a = b := by
  cases h
  rfl

theorem Chain.exists_first (h : Chain R (n + 1) a b) : ∃ c, R a c ∧ Chain R n c b := by
  cases h with
  | cons h hc => exact ⟨_, h, hc⟩

theorem Chain.eq_zero (hb : ∀ a, ¬ R a b) (h : Chain R n a b) : n = 0 := by
  have hlast : n = 0 ∨ ∃ a, R a b := by
    induction h with
    | nil a => exact .inl rfl
    | cons h hc ih =>
      rcases ih hb with rfl | hex
      · rw [← hc.eq_of_zero]
        exact .inr ⟨_, h⟩
      · exact .inr hex
  rcases hlast with h0 | ⟨a, ha⟩
  · exact h0
  · exact absurd ha (hb a)

theorem Acyclic.mono (h : Acyclic S) (hRS : ∀ a b, R a b → S a b) : Acyclic R := fun n a hc =>
  h n a (hc.mono hRS)

theorem Bounded.mono (h : Bounded S k) (hRS : ∀ a b, R a b → S a b) : Bounded R k := fun n a b hc =>
  h n a b (hc.mono hRS)

/-- A chain that comes back can be walked as often as one likes. -/
theorem Bounded.acyclic (h : Bounded R k) : Acyclic R := by
  intro n a hc
  have hwalk : ∀ j, Chain R (j * (n + 1)) a a := by
    intro j
    induction j with
    | zero => rw [Nat.zero_mul]; exact .nil a
    | succ j ih => rw [Nat.succ_mul]; exact ih.append hc
  have hle := h _ a a (hwalk (k + 1))
  have hlt : k + 1 ≤ (k + 1) * (n + 1) := Nat.le_mul_of_pos_right _ (by omega)
  omega

/-- A function that falls along the links bounds the chains. -/
theorem Chain.le_rank {f : α → ℕ} (hf : ∀ a b, R a b → f b < f a) (h : Chain R n a b) : n + f b ≤ f a := by
  induction h with
  | nil a => omega
  | cons h _ ih =>
    have := hf _ _ h
    omega

theorem bounded_of_rank {f : α → ℕ} (hf : ∀ a b, R a b → f b < f a) (hk : ∀ a, f a ≤ k) : Bounded R k := by
  intro n a b h
  have h1 := h.le_rank hf
  have h2 := hk a
  omega

/-- **A chain uses a link that closes no cycle at most once.** -/
theorem Chain.withLink_cases (hno : ∀ n, ¬ Chain R n c g) (h : Chain (WithLink R g c) n a b) :
    Chain R n a b ∨ ∃ p q, n = p + 1 + q ∧ Chain R p a g ∧ Chain R q c b := by
  induction h with
  | nil a => exact .inl (.nil a)
  | @cons n a b' b h _ ih =>
    rcases h with h | ⟨rfl, rfl⟩
    · rcases ih with ih | ⟨p, q, rfl, hp, hq⟩
      · exact .inl (.cons h ih)
      · exact .inr ⟨p + 1, q, by omega, .cons h hp, hq⟩
    · rcases ih with ih | ⟨p, q, -, hp, -⟩
      · exact .inr ⟨0, n, by omega, .nil _, ih⟩
      · exact absurd hp (hno p)

theorem Chain.withLink (h : Chain R m a g) (h' : Chain R n c b) : Chain (WithLink R g c) (m + 1 + n) a b := by
  have hleft : ∀ x y, R x y → WithLink R g c x y := fun _ _ hxy => .inl hxy
  have hlink : Chain (WithLink R g c) 1 g c := .single (.inr ⟨rfl, rfl⟩)
  exact ((h.mono hleft).append hlink).append (h'.mono hleft)

theorem acyclic_withLink_iff (h : Acyclic R) : Acyclic (WithLink R g c) ↔ ∀ n, ¬ Chain R n c g := by
  constructor
  · intro hac n hc
    have hback := Chain.withLink (.nil g) hc
    rw [Nat.zero_add, Nat.add_comm] at hback
    exact hac n g hback
  · intro hno n a hc
    rcases hc.withLink_cases hno with hc | ⟨p, q, -, hp, hq⟩
    · exact h n a hc
    · exact hno (q + p) (hq.append hp)

theorem bounded_withLink_iff (h : Bounded R k) (hno : ∀ n, ¬ Chain R n c g) :
    Bounded (WithLink R g c) k ↔ ∀ p q a b, Chain R p a g → Chain R q c b → p + 1 + q ≤ k := by
  constructor
  · intro hb p q a b hp hq
    exact hb _ a b (Chain.withLink hp hq)
  · intro hpq n a b hc
    rcases hc.withLink_cases hno with hc | ⟨p, q, rfl, hp, hq⟩
    · exact h n a b hc
    · exact hpq p q a b hp hq

/-- **In an acyclic relation a chain has at most as many links as there are.** The links are given as
elements of a finite set. -/
theorem Chain.le_card {β : Type} [DecidableEq β] {link : α → α → β} {E : Finset β}
    (hlink : ∀ {a b a' b'}, link a b = link a' b' → a = a' ∧ b = b')
    (hac : Acyclic fun a b => link a b ∈ E) (h : Chain (fun a b => link a b ∈ E) n a b) : n ≤ E.card := by
  induction n generalizing E a with
  | zero => exact Nat.zero_le _
  | succ n ih =>
    obtain ⟨a', hfirst, hrest⟩ := h.exists_first
    -- the first link is not used again, so the rest is a chain of the other links
    have hsub : ∀ x y, link x y ∈ E.erase (link a a') → link x y ∈ E := fun _ _ hxy =>
      Finset.mem_of_mem_erase hxy
    have hins : ∀ x y, link x y ∈ E → WithLink (fun x y => link x y ∈ E.erase (link a a')) a a' x y := by
      intro x y hxy
      by_cases heq : link x y = link a a'
      · exact .inr (hlink heq)
      · exact .inl (Finset.mem_erase.mpr ⟨heq, hxy⟩)
    have hno : ∀ j, ¬ Chain (fun x y => link x y ∈ E.erase (link a a')) j a' a := fun j hj =>
      hac j a (.cons hfirst (hj.mono hsub))
    have hle : n ≤ (E.erase (link a a')).card := by
      rcases (hrest.mono hins).withLink_cases hno with hc | ⟨p, -, -, hp, -⟩
      · exact ih (hac.mono hsub) hc
      · exact absurd hp (hno p)
    rw [Finset.card_erase_of_mem hfirst] at hle
    have hpos : 0 < E.card := Finset.card_pos.mpr ⟨_, hfirst⟩
    omega

end OxiCloud.Lib.Chains
