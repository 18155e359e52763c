import Mathlib

/-! # Keyset pagination

An ordered listing read in pages: what follows a cursor, at most `n` rows of it, and the last of them is
the next cursor. `walk` is the loop around it, `walk_foldlM` says that working through the pages is working
through the listing. -/

namespace OxiCloud.Lib.Paging

open List

variable {H : Type} [LinearOrder H]

/-- Keys in ascending order. -/
structure Listing (H : Type) [LinearOrder H] where
  hashes : List H
  ordered : hashes.Pairwise (· < ·)

/-- What follows the cursor. -/
def after (c : Option H) (l : List H) : List H := l.filter fun h => c.all (· < h)

/-- The page after the cursor. -/
abbrev Listing.page (l : Listing H) (n : ℕ) (c : Option H) : List H := (after c l.hashes).take n

variable {c : Option H} {l : List H} {h k : H} {n : ℕ}

theorem Listing.page_eq (l : Listing H) (h : (after c l.hashes).length ≤ n) : l.page n c = after c l.hashes :=
  take_of_length_le h

theorem after_none (l : List H) : after none l = l := by simp [after]

theorem mem_after : h ∈ after c l ↔ h ∈ l ∧ ∀ k, c = some k → k < h := by
  unfold after
  cases c <;> simp

theorem after_pairwise (c : Option H) (l : Listing H) : (after c l.hashes).Pairwise (· < ·) :=
  l.ordered.sublist filter_sublist

theorem after_after (l : List H) (hk : ∀ j, c = some j → j < k) :
    after (some k) l = (after c l).filter fun h => k < h := by
  unfold after
  rw [filter_filter]
  refine filter_congr fun h _ => ?_
  rcases lt_or_ge k h with hlt | hge
  · have hall : c.all (fun j => decide (j < h)) = true := by
      cases c with
      | none => rfl
      | some j => simpa using (hk j rfl).trans hlt
    simp [hall, hlt]
  · simp [not_lt.mpr hge]

theorem mem_after_some (hk : ∀ j, c = some j → j < k) :
    h ∈ after (some k) l ↔ h ∈ after c l ∧ k < h := by
  rw [after_after l hk, mem_filter, decide_eq_true_eq]

theorem length_after_le (l : List H) (hk : ∀ j, c = some j → j < k) :
    (after (some k) l).length ≤ (after c l).length := by
  rw [after_after l hk]
  exact length_filter_le _ _

theorem length_after_lt (hk : k ∈ after c l) : (after (some k) l).length < (after c l).length := by
  rw [after_after l (mem_after.mp hk).2, length_filter_lt_length_iff_exists]
  exact ⟨k, hk, by simp⟩

theorem le_getLast {l : List H} (hl : l.Pairwise (· < ·)) (hk : l.getLast? = some k) (hh : h ∈ l) :
    h ≤ k := by
  obtain ⟨r, rfl⟩ := List.getLast?_eq_some_iff.mp hk
  rcases mem_append.mp hh with hh | hh
  · exact ((pairwise_append.mp hl).2.2 h hh k (by simp)).le
  · rw [mem_singleton.mp hh]

/-- After the last row of a page comes what the page left out. -/
theorem after_getLast (l : Listing H) (hk : (l.page n c).getLast? = some k) :
    after (some k) l.hashes = (after c l.hashes).drop n := by
  have hp := after_pairwise c l
  have hmem : k ∈ after c l.hashes := mem_of_mem_take (List.mem_of_getLast? hk)
  rw [after_after _ (mem_after.mp hmem).2]
  conv_lhs => rw [← take_append_drop n (after c l.hashes)]
  rw [filter_append, filter_eq_nil_iff.mpr, nil_append, filter_eq_self]
  · intro x hx
    rw [← take_append_drop n (after c l.hashes), pairwise_append] at hp
    exact decide_eq_true (hp.2.2 k (List.mem_of_getLast? hk) x hx)
  · intro x hx
    have := le_getLast (hp.sublist (take_sublist _ _)) hk hx
    simpa using this

/-! ### The loop -/

variable {σ ε : Type}

/-- Work through the pages from the cursor, for at most `fuel` of them. A page that fails ends the walk at
the cursor before it; a page that is empty or not full is the last. -/
def walk (n : ℕ) (batch : σ → List H → Except ε σ) (l : List H) :
    ℕ → Option H → σ → Option (Except (ε × Option H) σ)
  | 0, _, _ => none
  | fuel + 1, c, s =>
    let rows := (after c l).take n
    if rows.isEmpty then some (.ok s)
    else match batch s rows with
      | .error e => some (.error (e, c))
      | .ok s' => if rows.length < n then some (.ok s') else walk n batch l fuel rows.getLast? s'

/-- If working through the rows one by one succeeds, so does working through the pages. -/
theorem walk_foldlM (hn : 0 < n) (step : σ → H → Except ε σ) (l : Listing H) :
    ∀ {fuel : ℕ} {c : Option H} {s s' : σ}, (after c l.hashes).length < fuel →
      (after c l.hashes).foldlM step s = .ok s' →
      walk n (fun s rows => rows.foldlM step s) l.hashes fuel c s = some (.ok s')
  | 0, c, s, s', hfuel, _ => absurd hfuel (Nat.not_lt_zero _)
  | fuel + 1, c, s, s', hfuel, hs => by
    rw [walk]
    rcases hrows : (after c l.hashes).take n with _ | ⟨r, rs⟩
    · have hnil : after c l.hashes = [] := by
        rcases take_eq_nil_iff.mp hrows with h | h
        · omega
        · exact h
      rw [hnil, foldlM_nil] at hs
      cases hs
      rfl
    · obtain ⟨k, hk⟩ : ∃ k, ((after c l.hashes).take n).getLast? = some k := by
        rw [hrows]
        exact ⟨_, List.getLast?_eq_some_getLast (cons_ne_nil r rs)⟩
      have hmem : k ∈ after c l.hashes := mem_of_mem_take (List.mem_of_getLast? hk)
      rw [← take_append_drop n (after c l.hashes), foldlM_append] at hs
      obtain ⟨s₁, h1, h2⟩ : ∃ s₁, ((after c l.hashes).take n).foldlM step s = .ok s₁ ∧
          ((after c l.hashes).drop n).foldlM step s₁ = .ok s' := by
        cases h1 : ((after c l.hashes).take n).foldlM step s with
        | error e =>
          rw [h1] at hs
          cases hs
        | ok s₁ =>
          rw [h1] at hs
          exact ⟨s₁, rfl, hs⟩
      rw [← hrows]
      simp only [h1]
      rw [if_neg (by rw [hrows]; simp)]
      split_ifs with hshort
      · have hdrop : (after c l.hashes).drop n = [] := by
          rw [length_take] at hshort
          exact drop_eq_nil_of_le (by omega)
        rw [hdrop, foldlM_nil] at h2
        cases h2
        rfl
      · rw [hk]
        have hlt := length_after_lt hmem
        exact walk_foldlM hn step l (by omega) (by rw [after_getLast l hk]; exact h2)

end OxiCloud.Lib.Paging
