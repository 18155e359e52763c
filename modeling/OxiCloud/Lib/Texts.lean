import Mathlib

/-! # Texts

A text is the list of its characters. The operations are those of the standard string type that header
and path handling is written in: cutting matching characters off the ends, splitting at a character,
cutting off a given beginning, comparing without regard to case, and reading and writing decimal numbers.
A number that was written is read back (`parseNat_toDigits`). -/

namespace OxiCloud.Lib.Texts

abbrev Text := List Char

instance lawfulText : LawfulBEq (List Char) := inferInstance

/-- `trim_start_matches`. -/
def trimStart (p : Char → Bool) (s : Text) : Text := s.dropWhile p

/-- `trim_end_matches`. -/
def trimEnd (p : Char → Bool) (s : Text) : Text := s.rdropWhile p

/-- `trim_matches`. -/
def trimBoth (p : Char → Bool) (s : Text) : Text := trimEnd p (trimStart p s)

/-- `trim`. -/
def trim (s : Text) : Text := trimBoth Char.isWhitespace s

/-- `eq_ignore_ascii_case`. -/
def eqIgnoreCase (a b : Text) : Bool := a.map Char.toLower == b.map Char.toLower

/-- `strip_prefix`. -/
def cutStart : Text → Text → Option Text
  | [], s => some s
  | _ :: _, [] => none
  | a :: p, b :: s => if a = b then cutStart p s else none

/-- `split_once` at a character. -/
def splitOnce (c : Char) : Text → Option (Text × Text)
  | [] => none
  | a :: s => if a = c then some ([], s) else (splitOnce c s).map fun x => (a :: x.1, x.2)

/-- The part before the last occurrence of a character: `rfind` and slicing. -/
def beforeLast (c : Char) (s : Text) : Option Text :=
  (splitOnce c s.reverse).map fun x => x.2.reverse

/-- The part after the last occurrence of a character, or everything: `rsplit`'s first piece. -/
def afterLast (c : Char) (s : Text) : Text := s.rtakeWhile (· ≠ c)

/-- `trim_start_matches` with a text: cut it off as often as it stands there. -/
def trimStartText (p : Text) : ℕ → Text → Text
  | 0, s => s
  | n + 1, s => match cutStart p s with
    | some r => trimStartText p n r
    | none => s

/-- `trim_start_matches` and `trim_end_matches` with two texts. -/
def trimTexts (p q : Text) (s : Text) : Text :=
  let s := trimStartText p s.length s
  (trimStartText q.reverse s.length s.reverse).reverse

/-- What follows the first occurrence of a text: `find` and slicing. -/
def afterText (p : Text) : Text → Option Text
  | [] => cutStart p []
  | c :: s => (cutStart p (c :: s)).orElse fun _ => afterText p s

/-- A number may start with a sign. -/
def dropSign : Text → Text
  | '+' :: s => s
  | s => s

/-- `parse::<u64>`: an optional sign, digits, and no overflow. -/
def parseU64 (s : Text) : Option ℕ :=
  let d := dropSign s
  if d ≠ [] ∧ d.all Char.isDigit ∧ Nat.ofDigitChars 10 d 0 < 2 ^ 64 then some (Nat.ofDigitChars 10 d 0)
  else none

/-- The digits of a number: not empty, and nothing else. -/
def parseDigits (d : Text) : Option ℕ :=
  if d ≠ [] ∧ d.all Char.isDigit then some (Nat.ofDigitChars 10 d 0) else none

/-- `parse::<u32>`. -/
def parseU32 (s : Text) : Option ℕ := (parseDigits (dropSign s)).filter (· < 2 ^ 32)

/-- `parse` for the signed type of `w` bits. -/
def parseSigned (w : ℕ) : Text → Option ℤ
  | '-' :: s => ((parseDigits s).filter (· ≤ 2 ^ (w - 1))).map fun n : ℕ => -Int.ofNat n
  | s => ((parseDigits (dropSign s)).filter (· < 2 ^ (w - 1))).map Int.ofNat

/-! ### Bytes

Lengths and slices count bytes of the encoding. A slice that does not begin and end between characters is
none. -/

/-- `len`. -/
def byteLen (s : Text) : ℕ := (s.map Char.utf8Size).sum

def dropBytes : ℕ → Text → Option Text
  | 0, s => some s
  | _ + 1, [] => none
  | n + 1, c :: s => if c.utf8Size ≤ n + 1 then dropBytes (n + 1 - c.utf8Size) s else none

def takeBytes : ℕ → Text → Option Text
  | 0, _ => some []
  | _ + 1, [] => none
  | n + 1, c :: s => if c.utf8Size ≤ n + 1 then (takeBytes (n + 1 - c.utf8Size) s).map (c :: ·) else none

/-- `s[a..b]`. -/
def slice (a b : ℕ) (s : Text) : Option Text := (dropBytes a s).bind (takeBytes (b - a))

/-! ### White space and lines -/

/-- The characters of the property `White_Space`, which `trim` removes. -/
def isSpace (c : Char) : Bool :=
  let n := c.toNat
  (9 ≤ n && n ≤ 13) || n == 0x20 || n == 0x85 || n == 0xA0 || n == 0x1680 || (0x2000 ≤ n && n ≤ 0x200A) ||
    n == 0x2028 || n == 0x2029 || n == 0x202F || n == 0x205F || n == 0x3000

/-- `trim`, for any text. -/
def strip (s : Text) : Text := trimBoth isSpace s

/-- The text begins with the tag, in any case. -/
def startsWithCi (tag s : Text) : Bool := eqIgnoreCase (s.take tag.length) tag

/-- What stands before the first occurrence of a text, and the rest from it on. -/
def findText (p : Text) : Text → Option (Text × Text)
  | [] => if p = [] then some ([], []) else none
  | c :: s => if p.isPrefixOf (c :: s) then some ([], c :: s) else (findText p s).map fun x => (c :: x.1, x.2)

theorem cutStart_append (p s : Text) : cutStart p (p ++ s) = some s := by
  induction p with
  | nil => rfl
  | cons a p ih => rw [List.cons_append, cutStart, if_pos rfl, ih]

theorem cutStart_eq_some {p s r : Text} : cutStart p s = some r ↔ s = p ++ r := by
  constructor
  · intro h
    induction p generalizing s with
    | nil => exact Option.some.inj h
    | cons a p ih =>
      rcases s with _ | ⟨b, s⟩
      · cases h
      · rw [cutStart] at h
        split_ifs at h with hab
        rw [hab, ih h, List.cons_append]
  · rintro rfl
    exact cutStart_append p r

theorem toDigits_ne_sign (n : ℕ) (s : Text) : Nat.toDigits 10 n ≠ '+' :: s := by
  intro h
  have hd := Nat.isDigit_of_mem_toDigits (b := 10) (n := n) (c := '+') (by omega) (by omega) (by simp [h])
  revert hd
  decide

/-- **A number that was written is read back.** -/
theorem parseU64_toDigits {n : ℕ} (h : n < 2 ^ 64) : parseU64 (Nat.toDigits 10 n) = some n := by
  have hval : Nat.ofDigitChars 10 (Nat.toDigits 10 n) 0 = n := Nat.ofDigitChars_toDigits (by omega) (by omega)
  have hne : Nat.toDigits 10 n ≠ [] := by
    intro he
    have hlen := Nat.length_toDigits_pos (b := 10) (n := n)
    simp [he] at hlen
  have hall : (Nat.toDigits 10 n).all Char.isDigit = true := by
    rw [List.all_eq_true]
    exact fun c hc => Nat.isDigit_of_mem_toDigits (by omega) (by omega) hc
  have hd : dropSign (Nat.toDigits 10 n) = Nat.toDigits 10 n := by
    rw [dropSign]
    exact toDigits_ne_sign n
  simp only [parseU64, hd, hval]
  rw [if_pos ⟨hne, hall, h⟩]

theorem byteLen_append (a b : Text) : byteLen (a ++ b) = byteLen a + byteLen b := by
  unfold byteLen
  rw [List.map_append, List.sum_append]

theorem byteLen_cons (c : Char) (s : Text) : byteLen (c :: s) = c.utf8Size + byteLen s := by
  unfold byteLen
  rw [List.map_cons, List.sum_cons]

theorem dropBytes_cons (c : Char) (n : ℕ) (s : Text) :
    dropBytes (c.utf8Size + n) (c :: s) = dropBytes n s := by
  obtain ⟨k, hk⟩ := Nat.exists_eq_add_one.mpr (Nat.add_pos_left c.utf8Size_pos n)
  rw [hk, dropBytes, if_pos (by omega), show k + 1 - c.utf8Size = n by omega]

theorem takeBytes_cons (c : Char) (n : ℕ) (s : Text) :
    takeBytes (c.utf8Size + n) (c :: s) = (takeBytes n s).map (c :: ·) := by
  obtain ⟨k, hk⟩ := Nat.exists_eq_add_one.mpr (Nat.add_pos_left c.utf8Size_pos n)
  rw [hk, takeBytes, if_pos (by omega), show k + 1 - c.utf8Size = n by omega]

theorem dropBytes_append (a s : Text) : dropBytes (byteLen a) (a ++ s) = some s := by
  induction a with
  | nil => cases s <;> rfl
  | cons c a ih => rw [byteLen_cons, List.cons_append, dropBytes_cons, ih]

theorem takeBytes_append (a s : Text) : takeBytes (byteLen a) (a ++ s) = some a := by
  induction a with
  | nil => cases s <;> rfl
  | cons c a ih => rw [byteLen_cons, List.cons_append, takeBytes_cons, ih, Option.map_some]

/-- A slice that follows a part and is followed by another. -/
theorem slice_append {a b c : Text} {i j : ℕ} (hi : byteLen a = i) (hj : byteLen a + byteLen b = j) :
    slice i j (a ++ (b ++ c)) = some b := by
  subst hi hj
  rw [slice, dropBytes_append, Option.bind_some, Nat.add_sub_cancel_left, takeBytes_append]

theorem trim_of_no_space {s : Text} (h : ∀ c ∈ s, c.isWhitespace = false) : trim s = s := by
  rcases s with _ | ⟨a, s⟩
  · rfl
  · have ha : a.isWhitespace = false := h a (by simp)
    have hstart : trimStart Char.isWhitespace (a :: s) = a :: s := by
      rw [trimStart, List.dropWhile_cons_of_neg (by simp [ha])]
    rw [trim, trimBoth, hstart, trimEnd, List.rdropWhile_eq_self_iff]
    intro hne
    rw [h _ (List.getLast_mem hne)]
    simp

theorem toNat_of_isDigit {c : Char} (h : c.isDigit = true) : 48 ≤ c.toNat ∧ c.toNat ≤ 57 := by
  unfold Char.isDigit at h
  rw [Bool.and_eq_true, decide_eq_true_eq, decide_eq_true_eq] at h
  exact ⟨UInt32.le_iff_toNat_le.mp h.1, UInt32.le_iff_toNat_le.mp h.2⟩

end OxiCloud.Lib.Texts
