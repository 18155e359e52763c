import OxiCloud.Lib.Texts

/-! # Searching texts

Where a text first occurs in another one, and how often, without regard to case. A text without line breaks
occurs in lines only within one of them. So it is found behind the lines that do not have it (`findCi_lines`),
and its occurrences in lines are counted line by line (`occurrences_lines`). -/

namespace OxiCloud.Lib.Texts

open List

/-! ### The first place where something holds -/

section

variable {α : Type} {q : List α → Bool}

/-- What stands before the first place where the rest satisfies `q`, and that rest. -/
def findWhere (q : List α → Bool) : List α → Option (List α × List α)
  | [] => if q [] then some ([], []) else none
  | c :: s => if q (c :: s) then some ([], c :: s) else (findWhere q s).map fun x => (c :: x.1, x.2)

theorem findWhere_append {u v : List α} (hv : q v = true) (hfirst : ∀ b, b <:+ u ++ v → q b = true → b.length ≤ v.length) :
    findWhere q (u ++ v) = some (u, v) := by
  induction u with
  | nil =>
    rcases v with _ | ⟨c, v⟩
    · rw [nil_append, findWhere, if_pos hv]
    · rw [nil_append, findWhere, if_pos hv]
  | cons c u ih =>
    have hc : ¬ q (c :: (u ++ v)) = true := by
      intro h
      have hlen := hfirst _ suffix_rfl h
      rw [cons_append, length_cons, length_append] at hlen
      omega
    have hrest := ih fun b hb => hfirst b (hb.trans (suffix_cons _ _))
    rw [cons_append, findWhere, if_neg hc, hrest, Option.map_some]

theorem findWhere_eq_none {s : List α} (h : ∀ b, b <:+ s → q b = false) : findWhere q s = none := by
  induction s with
  | nil => rw [findWhere, if_neg (by rw [h [] suffix_rfl]; exact Bool.false_ne_true)]
  | cons c s ih =>
    have hc : ¬ q (c :: s) = true := by
      rw [h _ suffix_rfl]
      exact Bool.false_ne_true
    rw [findWhere, if_neg hc, ih fun b hb => h b (hb.trans (suffix_cons _ _)), Option.map_none]

end

theorem findText_eq_findWhere (p s : Text) : findText p s = findWhere p.isPrefixOf s := by
  induction s with
  | nil => cases p <;> rfl
  | cons c s ih => rw [findText, findWhere, ih]

/-! ### Without regard to case -/

def lower (s : Text) : Text := s.map Char.toLower

theorem lower_append (s t : Text) : lower (s ++ t) = lower s ++ lower t := map_append

variable {p s : Text}

theorem startsWithCi_iff : startsWithCi p s = true ↔ lower p <+: lower s := by
  have hlen : p.length = (lower p).length := (length_map _).symm
  rw [startsWithCi, eqIgnoreCase, beq_iff_eq, map_take, hlen, eq_comm, prefix_iff_eq_take]
  rfl

theorem startsWithCi_of_isPrefixOf (h : p.isPrefixOf s = true) : startsWithCi p s = true :=
  startsWithCi_iff.mpr (( isPrefixOf_iff_prefix.mp h).map _)

theorem startsWithCi_append (h : startsWithCi p s = true) (t : Text) :
    startsWithCi p (s ++ t) = true := by
  rw [startsWithCi_iff] at h ⊢
  rw [lower_append]
  exact h.trans (prefix_append _ _)

/-- `find_ci`: the first place where the text stands as it is, or else in any case. -/
def findCi (p s : Text) : Option (Text × Text) := (findText p s).or (findWhere (startsWithCi p) s)

/-- The text occurs, in any case. -/
def containsCi (p s : Text) : Bool := s.tails.any (startsWithCi p)

/-- The number of places where the text occurs, in any case. -/
def occurrences (p s : Text) : ℕ := s.tails.countP (startsWithCi p)

theorem containsCi_eq_false : containsCi p s = false ↔ ∀ b, b <:+ s → startsWithCi p b = false := by
  simp [containsCi]

theorem findCi_append {u v : Text} (hv : p.isPrefixOf v = true)
    (hfirst : ∀ b, b <:+ u ++ v → startsWithCi p b = true → b.length ≤ v.length) :
    findCi p (u ++ v) = some (u, v) := by
  have hfind := findWhere_append hv fun b hb hp => hfirst b hb (startsWithCi_of_isPrefixOf hp)
  rw [findCi, findText_eq_findWhere, hfind, Option.some_or]

theorem findCi_eq_none (h : containsCi p s = false) : findCi p s = none := by
  have hci := containsCi_eq_false.mp h
  have hexact : ∀ b, b <:+ s → p.isPrefixOf b = false := fun b hb =>
    Bool.eq_false_iff.mpr fun hp => Bool.eq_false_iff.mp (hci b hb) (startsWithCi_of_isPrefixOf hp)
  rw [findCi, findText_eq_findWhere, findWhere_eq_none hexact, findWhere_eq_none hci, Option.none_or]

theorem occurrences_cons (p : Text) (c : Char) (s : Text) :
    occurrences p (c :: s) = occurrences p s + if startsWithCi p (c :: s) then 1 else 0 := by
  rw [occurrences, tails_cons, countP_cons]
  rfl

theorem occurrences_eq_zero : occurrences p s = 0 ↔ containsCi p s = false := by
  rw [occurrences, countP_eq_zero, containsCi_eq_false]
  simp

/-! ### Lines -/

/-- The text of lines, each with its end. -/
def linesText (ls : List Text) : Text := ls.flatMap fun l => l ++ ['\r', '\n']

theorem linesText_cons (l : Text) (ls : List Text) :
    linesText (l :: ls) = l ++ '\r' :: '\n' :: linesText ls := by
  simp [linesText]

theorem linesText_append (ls ls' : List Text) : linesText (ls ++ ls') = linesText ls ++ linesText ls' :=
  flatMap_append

/-- A text to look for: not empty, and without line breaks. -/
structure Unbroken (p : Text) : Prop where
  ne_nil : p ≠ []
  cr : '\r' ∉ lower p
  lf : '\n' ∉ lower p

instance (p : Text) : Decidable (Unbroken p) :=
  decidable_of_iff (p ≠ [] ∧ '\r' ∉ lower p ∧ '\n' ∉ lower p)
    ⟨fun h => ⟨h.1, h.2.1, h.2.2⟩, fun h => ⟨h.ne_nil, h.cr, h.lf⟩⟩

theorem prefix_of_not_mem {α : Type} {p s t : List α} {c : α} (hc : c ∉ p) (h : p <+: s ++ c :: t) :
    p <+: s := by
  rcases prefix_or_prefix_of_prefix h (prefix_append s (c :: t)) with hp | ⟨r, rfl⟩
  · exact hp
  · rw [prefix_append_right_inj] at h
    rcases r with _ | ⟨a, r⟩
    · rw [append_nil]
    · rw [(cons_prefix_cons.mp h).1] at hc
      exact absurd (by simp) hc

section

variable {p : Text} (hp : Unbroken p)

include hp

theorem Unbroken.nil : startsWithCi p [] = false := by
  refine Bool.eq_false_iff.mpr fun h => hp.ne_nil ?_
  exact map_eq_nil_iff.mp (prefix_nil.mp (startsWithCi_iff.mp h))

theorem Unbroken.line (l t : Text) : startsWithCi p (l ++ '\r' :: t) = startsWithCi p l := by
  rw [Bool.eq_iff_iff]
  refine ⟨fun h => ?_, fun h => startsWithCi_append h _⟩
  rw [startsWithCi_iff, lower_append] at h
  exact startsWithCi_iff.mpr (prefix_of_not_mem hp.cr h)

theorem Unbroken.lineFeed (t : Text) : startsWithCi p ('\n' :: t) = false := by
  refine Bool.eq_false_iff.mpr fun h => Bool.eq_false_iff.mp hp.nil ?_
  rw [startsWithCi_iff] at h
  exact startsWithCi_iff.mpr (prefix_of_not_mem (s := []) hp.lf h)

theorem Unbroken.occurrences_append (l t : Text) :
    occurrences p (l ++ '\r' :: '\n' :: t) = occurrences p l + occurrences p t := by
  induction l with
  | nil =>
    have hcr := hp.line [] ('\n' :: t)
    rw [nil_append] at hcr
    have hnil : occurrences p [] = 0 := by simp [occurrences, hp.nil]
    rw [nil_append, occurrences_cons, occurrences_cons, hp.lineFeed, hcr, hp.nil, hnil]
    simp
  | cons c l ih =>
    rw [cons_append, occurrences_cons, occurrences_cons, ih, ← cons_append, hp.line]
    omega

/-- **The occurrences in lines are counted line by line.** -/
theorem Unbroken.occurrences_lines (ls : List Text) :
    occurrences p (linesText ls) = (ls.map (occurrences p)).sum := by
  induction ls with
  | nil => simp [linesText, occurrences, hp.nil]
  | cons l ls ih => rw [linesText_cons, hp.occurrences_append, ih, map_cons, sum_cons]

/-- An occurrence does not begin in a line that does not have the text. -/
theorem Unbroken.suffix_of_line {l t b : Text} (hl : containsCi p l = false) (hb : b <:+ l ++ '\r' :: '\n' :: t)
    (h : startsWithCi p b = true) : b <:+ t := by
  rw [containsCi_eq_false] at hl
  induction l with
  | nil =>
    rcases suffix_cons_iff.mp hb with rfl | hb
    · rw [← nil_append ('\r' :: _), hp.line, hp.nil] at h
      exact nomatch h
    · rcases suffix_cons_iff.mp hb with rfl | hb
      · rw [hp.lineFeed] at h
        exact nomatch h
      · exact hb
  | cons c l ih =>
    rw [cons_append] at hb
    rcases suffix_cons_iff.mp hb with rfl | hb
    · rw [← cons_append, hp.line, hl _ suffix_rfl] at h
      exact nomatch h
    · exact ih (fun b' hb' => hl b' (hb'.trans (suffix_cons _ _))) hb

variable {ls : List Text}

section

variable (hls : ∀ l ∈ ls, containsCi p l = false)
include hls

theorem Unbroken.suffix_of_lines {w b : Text} (hb : b <:+ linesText ls ++ w)
    (h : startsWithCi p b = true) : b <:+ w := by
  induction ls with
  | nil => exact hb
  | cons l ls ih =>
    rw [linesText_cons, append_assoc] at hb
    exact ih (fun l' hl' => hls l' (mem_cons_of_mem _ hl')) (hp.suffix_of_line (hls l mem_cons_self) hb h)

theorem Unbroken.containsCi_lines : containsCi p (linesText ls) = false := by
  rw [containsCi_eq_false]
  intro b hb
  refine Bool.eq_false_iff.mpr fun h => ?_
  have hnil : b <:+ [] := hp.suffix_of_lines hls (by rwa [append_nil]) h
  rw [suffix_nil.mp hnil, hp.nil] at h
  exact nomatch h

/-- **A text is found behind the lines that do not have it.** -/
theorem Unbroken.findCi_lines {w : Text} (hw : p.isPrefixOf w = true) :
    findCi p (linesText ls ++ w) = some (linesText ls, w) :=
  findCi_append hw fun _ hb h => (hp.suffix_of_lines hls hb h).length_le

end

theorem Unbroken.occurrences_le_append (s t : Text) :
    occurrences p s + occurrences p t ≤ occurrences p (s ++ t) := by
  induction s with
  | nil => simp [occurrences, hp.nil]
  | cons c s ih =>
    have hmono : (if startsWithCi p (c :: s) then 1 else 0) ≤ if startsWithCi p (c :: (s ++ t)) then 1 else 0 := by
      split_ifs with h h'
      · exact le_rfl
      · exact absurd (startsWithCi_append h t) h'
      · exact Nat.zero_le _
      · exact le_rfl
    rw [cons_append, occurrences_cons, occurrences_cons]
    omega

end

/-! ### Lines behind line feeds -/

/-- Lines, each behind a line feed. -/
def fed (ls : List Text) : Text := ls.flatMap ('\n' :: ·)

theorem fed_cons (l : Text) (ls : List Text) : fed (l :: ls) = '\n' :: (l ++ fed ls) := flatMap_cons

theorem fed_append (ls ls' : List Text) : fed (ls ++ ls') = fed ls ++ fed ls' := flatMap_append

/-- A text is its lines. -/
theorem splitOn_fed {l : Text} {ls : List Text} (hl : '\n' ∉ l) (hls : ∀ l ∈ ls, '\n' ∉ l) :
    (l ++ fed ls).splitOn '\n' = l :: ls := by
  have hjoin : ∀ (ls : List Text) (l : Text), ['\n'].intercalate (l :: ls) = l ++ fed ls := by
    intro ls
    induction ls with
    | nil => intro l; simp [fed]
    | cons l' ls ih =>
      intro l
      rw [intercalate_cons_cons, ih, fed_cons, append_assoc]
      rfl
  rw [← hjoin ls l, splitOn_intercalate '\n' _ (cons_ne_nil _ _)]
  exact forall_mem_cons.mpr ⟨hl, hls⟩

theorem suffix_of_no_feed {l t b : Text} (hl : '\n' ∉ l) (hb : b <:+ l ++ t) (h : '\n' :: p <+: b) :
    b <:+ t := by
  induction l with
  | nil => exact hb
  | cons c l ih =>
    rcases suffix_cons_iff.mp hb with rfl | hb
    · exact absurd ((cons_prefix_cons.mp h).1 ▸ mem_cons_self) hl
    · exact ih (fun hm => hl (mem_cons_of_mem _ hm)) hb

section
variable {p : Text} (hp : '\n' ∉ p) {A : List Text} (hA : ∀ l ∈ A, '\n' ∉ l ∧ ¬ p <+: l)

include hp hA

/-- No line of `A` begins with the text, so it begins no line before the end of `A`. -/
theorem suffix_of_fed {t b : Text} (ht : t = [] ∨ ∃ s, t = '\n' :: s) (hb : b <:+ fed A ++ t) (h : '\n' :: p <+: b) :
    b <:+ t := by
  induction A with
  | nil => exact hb
  | cons l A ih =>
    obtain ⟨⟨hlf, hpl⟩, hA⟩ := forall_mem_cons.mp hA
    rw [fed_cons, cons_append] at hb
    rcases suffix_cons_iff.mp hb with rfl | hb
    · exfalso
      have hpre := (cons_prefix_cons.mp h).2
      rw [append_assoc] at hpre
      -- what follows the line is nothing, or a line feed
      have hnext : fed A ++ t = [] ∨ ∃ s, fed A ++ t = '\n' :: s := by
        rcases A with _ | ⟨l', A⟩
        · exact ht
        · exact .inr ⟨_, by rw [fed_cons, cons_append]⟩
      rcases hnext with hnext | ⟨s, hnext⟩
      · rw [hnext, append_nil] at hpre
        exact hpl hpre
      · rw [hnext] at hpre
        exact hpl (prefix_of_not_mem hp hpre)
    · rw [append_assoc] at hb
      exact ih hA (suffix_of_no_feed hlf hb h)

/-- **The first line that begins with a text is found.** -/
theorem findText_line {l : Text} (hl : '\n' ∉ l) (rest : Text) :
    findText ('\n' :: p) (l ++ fed A ++ '\n' :: (p ++ rest)) = some (l ++ fed A, '\n' :: (p ++ rest)) := by
  rw [findText_eq_findWhere]
  refine findWhere_append ( isPrefixOf_iff_prefix.mpr ?_) fun b hb h => ?_
  · rw [cons_prefix_cons]
    exact ⟨rfl, prefix_append _ _⟩
  · rw [append_assoc] at hb
    have hpre := isPrefixOf_iff_prefix.mp h
    exact (suffix_of_fed hp hA (.inr ⟨_, rfl⟩) (suffix_of_no_feed hl hb hpre) hpre).length_le

theorem findText_line_none {l : Text} (hl : '\n' ∉ l) : findText ('\n' :: p) (l ++ fed A) = none := by
  rw [findText_eq_findWhere]
  refine findWhere_eq_none fun b hb => Bool.eq_false_iff.mpr fun h => ?_
  have hpre := isPrefixOf_iff_prefix.mp h
  have hfed := suffix_of_no_feed hl hb hpre
  rw [← append_nil (fed A)] at hfed
  rw [suffix_nil.mp (suffix_of_fed hp hA (.inl rfl) hfed hpre)] at hpre
  exact nomatch prefix_nil.mp hpre

end

/-- **A text is found behind lines that do not have it.** -/
theorem findText_behind {q l : Text} {A : List Text} (hne : q ≠ []) (hq : '\n' ∉ q) (hl : ¬ q <:+: l)
    (hA : ∀ l ∈ A, ¬ q <:+: l) (rest : Text) :
    findText q (l ++ fed A ++ '\n' :: (q ++ rest)) = some (l ++ fed A ++ ['\n'], q ++ rest) := by
  -- an occurrence does not begin in a line without the text, nor at its line feed
  have hline : ∀ {l t b : Text}, ¬ q <:+: l → b <:+ l ++ '\n' :: t → q <+: b → b <:+ t := by
    intro l t b hl hb h
    induction l with
    | nil =>
      rcases suffix_cons_iff.mp hb with rfl | hb
      · exact absurd (prefix_nil.mp (prefix_of_not_mem (s := []) hq h)) hne
      · exact hb
    | cons c l ih =>
      rcases suffix_cons_iff.mp hb with rfl | hb
      · exact absurd (prefix_of_not_mem (s := c :: l) hq h).isInfix hl
      · exact ih (fun hi => hl (hi.trans (suffix_cons _ _).isInfix)) hb
  have hlines : ∀ {A : List Text} {l t b : Text}, (∀ l ∈ A, ¬ q <:+: l) → ¬ q <:+: l → b <:+ l ++ fed A ++ '\n' :: t →
      q <+: b → b <:+ t := by
    intro A
    induction A with
    | nil =>
      intro l t b _ hl hb h
      rw [fed, flatMap_nil, append_nil] at hb
      exact hline hl hb h
    | cons l' A ih =>
      intro l t b hA hl hb h
      obtain ⟨hl', hA⟩ := forall_mem_cons.mp hA
      rw [fed_cons, append_assoc, cons_append] at hb
      exact ih hA hl' (hline hl hb h) h
  have hassoc : l ++ fed A ++ '\n' :: (q ++ rest) = (l ++ fed A ++ ['\n']) ++ (q ++ rest) := by simp
  rw [hassoc, findText_eq_findWhere]
  refine findWhere_append ( isPrefixOf_iff_prefix.mpr (prefix_append _ _)) fun b hb h => ?_
  rw [← hassoc] at hb
  exact (hlines hA hl hb ( isPrefixOf_iff_prefix.mp h)).length_le

end OxiCloud.Lib.Texts
