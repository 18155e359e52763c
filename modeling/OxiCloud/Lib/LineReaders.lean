import OxiCloud.Lib.Searches

/-! # Reading a text line by line

What a reader sees that splits a text into lines, trims each of them and goes through them: the lines that were
written (`splitOn_linesText`), what is left of a line behind its name (`strip_tag`), and what one component
of its state is at the end, given what a line does to it (`foldl_collect`, `foldl_latest`). -/

namespace OxiCloud.Lib.Texts

open List

/-! ### Pieces -/

section
variable {α : Type} [DecidableEq α] {c : α} {s w : List α}

theorem splitOn_of_not_mem (h : c ∉ s) : s.splitOn c = [s] := by
  refine splitOnP_eq_singleton fun x hx => ?_
  simpa using fun heq : x = c => h (heq ▸ hx)

theorem splitOn_append {a : List α} (ha : c ∉ a) (s : List α) :
    (a ++ c :: s).splitOn c = a :: s.splitOn c := by
  rw [splitOn_append_cons_self, splitOn_of_not_mem ha]
  rfl

/-- A piece is made of the text and does not have the separator. -/
theorem of_mem_splitOn (h : w ∈ s.splitOn c) : c ∉ w ∧ w ⊆ s := by
  -- By induction on the length, from one separator to the next.
  generalize hn : s.length = n
  induction n using Nat.strong_induction_on generalizing s with
  | _ n ih =>
    by_cases hc : c ∈ s
    · obtain ⟨a, b, rfl, ha⟩ := eq_append_cons_of_mem hc
      rw [splitOn_append ha] at h
      rcases mem_cons.mp h with rfl | h
      · exact ⟨ha, subset_append_left _ _⟩
      · rw [length_append, length_cons] at hn
        obtain ⟨hw, hsub⟩ := ih b.length (by omega) h rfl
        exact ⟨hw, fun x hx => mem_append_right a (mem_cons_of_mem c (hsub hx))⟩
    · rw [splitOn_of_not_mem hc, mem_singleton] at h
      subst h
      exact ⟨hc, List.Subset.refl _⟩

end

variable {α : Type}

theorem of_mem_intercalate {x sep : α} {ls : List (List α)} (h : x ∈ [sep].intercalate ls) :
    x = sep ∨ ∃ l ∈ ls, x ∈ l := by
  induction ls with
  | nil => exact nomatch h
  | cons l ls ih =>
    rcases ls with _ | ⟨l', ls⟩
    · rw [intercalate_singleton] at h
      exact .inr ⟨l, mem_cons_self, h⟩
    · rw [intercalate_cons_cons, mem_append, mem_append, mem_singleton] at h
      rcases h with (h | h) | h
      · exact .inr ⟨l, mem_cons_self, h⟩
      · exact .inl h
      · exact (ih h).imp_right fun ⟨m, hm, hx⟩ => ⟨m, mem_cons_of_mem _ hm, hx⟩

variable {c : Char}

theorem splitOnce_append {a : Text} (ha : c ∉ a) (s : Text) : splitOnce c (a ++ c :: s) = some (a, s) := by
  induction a with
  | nil => rw [nil_append, splitOnce, if_pos rfl]
  | cons x a ih =>
    rw [mem_cons, not_or] at ha
    rw [cons_append, splitOnce, if_neg (Ne.symm ha.1), ih ha.2]
    rfl

theorem splitOnce_subset {s a b : Text} (h : splitOnce c s = some (a, b)) : b ⊆ s := by
  by_cases hc : c ∈ s
  · obtain ⟨a', b', rfl, ha'⟩ := eq_append_cons_of_mem hc
    rw [splitOnce_append ha'] at h
    obtain ⟨rfl, rfl⟩ := Prod.mk.inj (Option.some.inj h)
    exact fun x hx => mem_append_right a' (mem_cons_of_mem c hx)
  · exfalso
    clear * - h hc
    induction s generalizing a b with
    | nil => exact nomatch h
    | cons x s ih =>
      rw [mem_cons, not_or] at hc
      rw [splitOnce, if_neg (Ne.symm hc.1), Option.map_eq_some_iff] at h
      obtain ⟨p, hp, -⟩ := h
      exact ih hp hc.2

theorem cutStart_subset {p s r : Text} (h : cutStart p s = some r) : r ⊆ s := by
  rw [cutStart_eq_some.mp h]
  exact subset_append_right _ _

/-! ### Trimming -/

theorem trimEnd_concat (a w : Text) (hc : isSpace c = false) :
    trimEnd isSpace (a ++ [c] ++ w) = a ++ [c] ++ trimEnd isSpace w := by
  induction w using List.reverseRecOn with
  | nil =>
    rw [append_nil, trimEnd, trimEnd, rdropWhile_concat_neg _ _ _ (by simp [hc]), rdropWhile_nil,
      append_nil]
  | append_singleton w x ih =>
    by_cases hx : isSpace x = true
    · rw [← append_assoc, trimEnd, trimEnd, rdropWhile_concat_pos _ _ _ hx, rdropWhile_concat_pos _ _ _ hx]
      exact ih
    · rw [← append_assoc, trimEnd, trimEnd, rdropWhile_concat_neg _ _ _ hx, rdropWhile_concat_neg _ _ _ hx,
        append_assoc]

variable (s : Text)

theorem trimEnd_strip : trimEnd isSpace (strip s) = strip s := rdropWhile_idempotent _ _

theorem trimEnd_of_strip {v : Text} (h : strip v = v) : trimEnd isSpace v = v := by
  have hidem := trimEnd_strip v
  rwa [h] at hidem

theorem strip_of_no_space {v : Text} (h : ∀ c ∈ v, isSpace c = false) : strip v = v := by
  have hstart : trimStart isSpace v = v := by
    rcases v with _ | ⟨c, v⟩
    · rfl
    · rw [trimStart, dropWhile_cons_of_neg (by simp [h c mem_cons_self])]
  rw [strip, trimBoth, hstart, trimEnd, rdropWhile_eq_self_iff]
  intro hne
  simp [h _ (getLast_mem hne)]

theorem strip_sublist : (strip s).Sublist s :=
  ( rdropWhile_prefix _ _).sublist.trans (dropWhile_sublist _)

theorem strip_subset : strip s ⊆ s := (strip_sublist s).subset

theorem strip_concat_space (hc : isSpace c = true) (l : Text) : strip (l ++ [c]) = strip l := by
  unfold strip trimBoth trimStart
  rw [dropWhile_append]
  split_ifs with h
  · rw [dropWhile_cons_of_pos hc, dropWhile_nil, List.isEmpty_iff.mp h]
  · exact rdropWhile_concat_pos _ _ _ hc

theorem strip_trimEnd (w : Text) : strip (trimEnd isSpace w) = strip w := by
  induction w using List.reverseRecOn with
  | nil => rfl
  | append_singleton w x ih =>
    by_cases hx : isSpace x = true
    · rw [strip_concat_space hx, ← ih, trimEnd, trimEnd, rdropWhile_concat_pos _ _ _ hx]
    · rw [trimEnd, rdropWhile_concat_neg _ _ _ hx]

/-- Trimming a line leaves the name it begins with. -/
theorem strip_tag {t : Text} (hhead : isSpace (t.headD ' ') = false) (hlast : isSpace (t.getLastD ' ') = false)
    (w : Text) : strip (t ++ w) = t ++ trimEnd isSpace w := by
  rcases eq_nil_or_concat t with rfl | ⟨m, z, rfl⟩
  · exact absurd hhead (by decide)
  · rw [concat_eq_append] at hhead hlast ⊢
    rw [getLastD_concat] at hlast
    have hstart : trimStart isSpace (m ++ [z] ++ w) = m ++ [z] ++ w := by
      rcases m with _ | ⟨a, m⟩
      · exact dropWhile_cons_of_neg (by simp [hlast])
      · exact dropWhile_cons_of_neg (by simpa using hhead)
    rw [strip, trimBoth, hstart]
    exact trimEnd_concat m w hlast

theorem strip_strip : strip (strip s) = strip s := by
  have hstart : trimStart isSpace (strip s) = strip s := by
    rcases hs : strip s with _ | ⟨a, v⟩
    · rfl
    · obtain ⟨w, hw⟩ := rdropWhile_prefix isSpace (trimStart isSpace s)
      have hhead : trimStart isSpace s = a :: (v ++ w) := by
        rw [← hw]
        exact congrArg (· ++ w) hs
      refine dropWhile_cons_of_neg fun ha => ?_
      have hidem : trimStart isSpace (trimStart isSpace s) = trimStart isSpace s := dropWhile_idempotent _ _
      have hlen := congrArg List.length hidem
      rw [hhead, trimStart, dropWhile_cons_of_pos ha] at hlen
      have hle := (dropWhile_sublist isSpace (l := v ++ w)).length_le
      rw [length_cons] at hlen
      omega
  rw [strip, trimBoth, hstart, trimEnd_strip]

/-- A character that is no space stays, with what is behind it. -/
theorem strip_append_kept {z : Char} (hz : isSpace z = false) (x w : Text) :
    ∃ y, strip (x ++ z :: w) = y ++ z :: trimEnd isSpace w := by
  have hkept : ∀ y : Text, trimEnd isSpace (y ++ z :: w) = y ++ z :: trimEnd isSpace w := fun y => by
    have h := trimEnd_concat y w hz
    rwa [append_assoc, append_assoc] at h
  unfold strip trimBoth trimStart
  rw [dropWhile_append]
  split_ifs
  · rw [dropWhile_cons_of_neg (by simp [hz])]
    exact ⟨[], hkept []⟩
  · exact ⟨_, hkept _⟩

/-! ### Lines -/

/-- Lines without line feeds are read back, each with its carriage return. -/
theorem splitOn_linesText {ls : List Text} (h : ∀ l ∈ ls, '\n' ∉ l) :
    (linesText ls).splitOn '\n' = ls.map (· ++ ['\r']) ++ [[]] := by
  induction ls with
  | nil => rfl
  | cons l ls ih =>
    obtain ⟨hl, hls⟩ := forall_mem_cons.mp h
    have hcr : '\n' ∉ l ++ ['\r'] := by simpa using hl
    have happ : linesText (l :: ls) = (l ++ ['\r']) ++ '\n' :: linesText ls := by
      rw [linesText_cons, append_assoc]
      rfl
    rw [happ, splitOn_append hcr, ih hls]
    rfl

theorem map_strip_linesText {ls : List Text} (h : ∀ l ∈ ls, '\n' ∉ l) :
    ((linesText ls).splitOn '\n').map strip = ls.map strip ++ [[]] := by
  rw [splitOn_linesText h, map_append, map_map]
  congr 1
  exact map_congr_left fun l _ => strip_concat_space (by decide) l

/-! ### Components of the state -/

theorem filterMap_toList {β : Type} (f : α → Option β) (o : Option α) :
    o.toList.filterMap f = (o.bind f).toList := by
  rcases o with _ | x
  · rfl
  · rcases h : f x with _ | y <;> simp [h]

theorem filterMap_cons_toList {β : Type} (f : α → Option β) (a : α) (ls : List α) :
    (a :: ls).filterMap f = (f a).toList ++ ls.filterMap f := by
  rw [filterMap_cons]
  rcases f a with _ | x <;> rfl

theorem bind_some_eq_map {β : Type} (f : α → β) (o : Option α) : (o.bind fun x => some (f x)) = o.map f := by
  rcases o with _ | x <;> rfl

section
variable {α β γ : Type} {step : β → α → β}

/-- A component that lines add to. -/
theorem foldl_collect {f : β → List γ} {g : α → Option γ} (h : ∀ b a, f (step b a) = f b ++ (g a).toList)
    (l : List α) (b : β) : f (l.foldl step b) = f b ++ l.filterMap g := by
  induction l generalizing b with
  | nil => exact (append_nil _).symm
  | cons a l ih =>
    rw [foldl_cons, ih, h, append_assoc]
    rcases hg : g a with _ | x
    · rw [filterMap_cons_none hg]
      rfl
    · rw [filterMap_cons_some hg]
      rfl

/-- A component that lines set. -/
theorem foldl_latest {f : β → Option γ} {g : α → Option γ} (h : ∀ b a, f (step b a) = (g a).or (f b))
    (l : List α) (b : β) : f (l.foldl step b) = (l.filterMap g).getLast?.or (f b) := by
  induction l generalizing b with
  | nil => rfl
  | cons a l ih =>
    rw [foldl_cons, ih, h]
    rcases hg : g a with _ | x
    · rw [filterMap_cons_none hg]
      rfl
    · rw [filterMap_cons_some hg, List.getLast?_cons]
      rcases (l.filterMap g).getLast? with _ | y <;> rfl

end

end OxiCloud.Lib.Texts
