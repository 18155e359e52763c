import OxiCloud.Lib.Texts

/-! # Instants and their iCalendar form

An instant is its date and time in UTC. The order is that of the fields, so it is the order of the one
number `DateTime.rank` they make up. `parseIcalDatetime` reads the two forms of a property value, a date and
a date with a time; which zones a name stands for, and what they make of a wall clock, is a parameter.
`utcStamp` and `dateStamp` write them. A stamp of an instant on a full second with a year of four digits is
read back (`parse_utcStamp`). -/

namespace OxiCloud.Calendar

open Lib.Texts

def isLeap (year : ℤ) : Bool := year % 4 == 0 && (year % 100 != 0 || year % 400 == 0)

def daysIn (year : ℤ) (month : ℕ) : ℕ :=
  if month = 2 then (if isLeap year then 29 else 28)
  else if month = 4 ∨ month = 6 ∨ month = 9 ∨ month = 11 then 30 else 31

/-- `DateTime<Utc>`. A leap second is the second 59 with a second in `nano`. -/
structure DateTime where
  year : ℤ
  month : ℕ
  day : ℕ
  hour : ℕ
  minute : ℕ
  second : ℕ
  nano : ℕ
  date_ok : -262143 ≤ year ∧ year ≤ 262142 ∧ 1 ≤ month ∧ month ≤ 12 ∧ 1 ≤ day ∧ day ≤ daysIn year month
  time_ok : hour < 24 ∧ minute < 60 ∧ second < 60 ∧ nano < 2000000000 ∧ (nano < 1000000000 ∨ second = 59)
  deriving DecidableEq

namespace DateTime

/-- The fields as one number. -/
def rank (d : DateTime) : ℤ :=
  (((((d.year * 12 + d.month) * 32 + d.day) * 24 + d.hour) * 60 + d.minute) * 60 + d.second) * 2000000000 + d.nano

theorem daysIn_le (year : ℤ) (month : ℕ) : daysIn year month ≤ 31 := by
  unfold daysIn
  split_ifs <;> omega

theorem rank_injective : Function.Injective rank := by
  rintro ⟨y, m, d, h, mi, s, n, hd, ht⟩ ⟨y', m', d', h', mi', s', n', hd', ht'⟩ heq
  simp only [rank] at heq
  have hle := daysIn_le y m
  have hle' := daysIn_le y' m'
  have hn : n = n' := by omega
  have hs : s = s' := by omega
  have hmi : mi = mi' := by omega
  have hh : h = h' := by omega
  have hday : d = d' := by omega
  have hm : m = m' := by omega
  have hy : y = y' := by omega
  subst hn hs hmi hh hday hm hy
  rfl

instance : LinearOrder DateTime := LinearOrder.lift' rank rank_injective

end DateTime

/-- The time of the sample draws. -/
def newYear : DateTime := ⟨2026, 1, 1, 0, 0, 0, 0, by decide, by decide⟩

/-- `from_ymd_opt` and `and_hms_opt`. -/
def civil (year : ℤ) (month day hour minute second : ℕ) : Option DateTime :=
  if h : (-262143 ≤ year ∧ year ≤ 262142 ∧ 1 ≤ month ∧ month ≤ 12 ∧ 1 ≤ day ∧ day ≤ daysIn year month) ∧
      hour < 24 ∧ minute < 60 ∧ second < 60 then
    some ⟨year, month, day, hour, minute, second, 0, h.1,
      ⟨h.2.1, h.2.2.1, h.2.2.2, by omega, .inl (by omega)⟩⟩
  else none

/-! ### Reading -/

/-- How a value is refused: by an error, or by a slice that is not one of characters. -/
inductive TimeError where
  | invalid
  | panics
  deriving DecidableEq

/-- The time zone database: the zone of a name takes a wall clock to its earliest instant, if there is one. -/
abbrev Zones := Text → Option (DateTime → Option DateTime)

/-- `resolve_tzid`. -/
def resolveTzid (zones : Zones) (naive : DateTime) (tzid : Text) : DateTime :=
  match zones tzid with
  | none => naive
  | some tz => (tz naive).getD naive

/-- The number in some bytes of the value. -/
def numberAt {α : Type} (parse : Text → Option α) (a b : ℕ) (value : Text) : Except TimeError α :=
  match slice a b value with
  | none => .error .panics
  | some s => (parse s).elim (.error .invalid) .ok

/-- `parse_ical_datetime`. -/
def parseIcalDatetime (zones : Zones) (value : Text) (isDateOnly : Bool) (tzid : Option Text) :
    Except TimeError DateTime :=
  if isDateOnly then
    if byteLen value ≠ 8 then .error .invalid
    else do
      let year ← numberAt (parseSigned 32) 0 4 value
      let month ← numberAt parseU32 4 6 value
      let day ← numberAt parseU32 6 8 value
      (civil year month day 0 0 0).elim (.error .invalid) .ok
  else if ¬ (byteLen value = 16 ∧ value.getLast? = some 'Z') ∧ byteLen value ≠ 15 then .error .invalid
  else do
    let year ← numberAt (parseSigned 32) 0 4 value
    let month ← numberAt parseU32 4 6 value
    let day ← numberAt parseU32 6 8 value
    let hour ← numberAt parseU32 9 11 value
    let minute ← numberAt parseU32 11 13 value
    let second ← numberAt parseU32 13 15 value
    match civil year month day hour minute second with
    | none => .error .invalid
    | some naive =>
      if byteLen value = 16 then .ok naive
      else match tzid with
        | some (c :: z) => .ok (resolveTzid zones naive (c :: z))
        | _ => .ok naive

/-! ### Writing -/

def digit (n : ℕ) : Char := Nat.digitChar (n % 10)

def push2 (n : ℕ) : Text := [digit (n / 10), digit n]

def push4 (n : ℕ) : Text := [digit (n / 1000), digit (n / 100), digit (n / 10), digit n]

/-- The `%Y` of chrono: a year without four digits carries its sign. -/
def yearText (year : ℤ) : Text :=
  if 0 ≤ year ∧ year ≤ 9999 then push4 year.natAbs
  else (if year < 0 then '-' else '+') ::
    if year.natAbs ≤ 9999 then push4 year.natAbs else Nat.toDigits 10 year.natAbs

/-- The `%Y%m%d` of chrono. -/
def dateStamp (d : DateTime) : Text := yearText d.year ++ push2 d.month ++ push2 d.day

/-- The clock of a stamp. -/
def clockStamp (hour minute second : ℕ) : Text := 'T' :: (push2 hour ++ push2 minute ++ push2 second ++ ['Z'])

/-- The `%Y%m%dT%H%M%SZ` of chrono, which writes a leap second as 60. -/
def chronoStamp (d : DateTime) : Text :=
  dateStamp d ++ clockStamp d.hour d.minute (if d.nano < 1000000000 then d.second else 60)

/-- `compact_ical_utc` of the timestamp, which has no leap seconds. -/
def compactIcalUtc (d : DateTime) : Option Text :=
  if 1970 ≤ d.year ∧ d.year ≤ 9999 then
    some (push4 d.year.natAbs ++ push2 d.month ++ push2 d.day ++ clockStamp d.hour d.minute d.second)
  else none

/-- The stamp the setters write for a time. -/
def utcStamp (d : DateTime) : Text := (compactIcalUtc d).getD (chronoStamp d)

/-! ### What is written is read back -/

/-- The instant has a stamp of its own: a full second of a year with four digits. -/
def DateTime.Stampable (d : DateTime) : Prop := 0 ≤ d.year ∧ d.year ≤ 9999 ∧ d.nano = 0

instance (d : DateTime) : Decidable d.Stampable := inferInstanceAs (Decidable (_ ∧ _ ∧ _))

theorem digit_cases (P : Char → Prop) (h : ∀ k : ℕ, k < 10 → P (Nat.digitChar k)) (n : ℕ) : P (digit n) :=
  h _ (Nat.mod_lt _ (by omega))

variable (n : ℕ)

@[simp] theorem utf8Size_digit : (digit n).utf8Size = 1 :=
  digit_cases (·.utf8Size = 1) (by decide) n

theorem isDigit_digit : (digit n).isDigit = true := digit_cases (·.isDigit = true) (by decide) n

theorem digit_ne_sign : digit n ≠ '-' ∧ digit n ≠ '+' :=
  digit_cases (fun c => c ≠ '-' ∧ c ≠ '+') (by decide) n

theorem toNat_digit : (digit n).toNat - '0'.toNat = n % 10 := by
  have h : ∀ k : ℕ, k < 10 → (Nat.digitChar k).toNat - '0'.toNat = k := by decide
  exact h _ (Nat.mod_lt _ (by omega))

theorem dropSign_digit (s : Text) : dropSign (digit n :: s) = digit n :: s := by
  unfold dropSign
  split
  · rename_i heq
    exact absurd (List.cons.inj heq).1 (digit_ne_sign n).2
  · rfl

theorem parseSigned_digit (w n : ℕ) (s : Text) : parseSigned w (digit n :: s) =
    ((parseDigits (digit n :: s)).filter (· < 2 ^ (w - 1))).map Int.ofNat := by
  unfold parseSigned
  split
  · rename_i heq
    exact absurd (List.cons.inj heq).1 (digit_ne_sign n).1
  · rw [dropSign_digit]

theorem parseDigits_push2 {n : ℕ} (h : n < 100) : parseDigits (push2 n) = some n := by
  unfold parseDigits push2
  rw [if_pos ⟨by simp, by simp [isDigit_digit]⟩]
  simp only [Nat.ofDigitChars_cons, Nat.ofDigitChars_nil, toNat_digit, Option.some.injEq]
  omega

theorem parseDigits_push4 {n : ℕ} (h : n < 10000) : parseDigits (push4 n) = some n := by
  unfold parseDigits push4
  rw [if_pos ⟨by simp, by simp [isDigit_digit]⟩]
  simp only [Nat.ofDigitChars_cons, Nat.ofDigitChars_nil, toNat_digit, Option.some.injEq]
  omega

theorem parseU32_push2 {n : ℕ} (h : n < 100) : parseU32 (push2 n) = some n := by
  unfold parseU32
  rw [push2, dropSign_digit, ← push2, parseDigits_push2 h, Option.filter_some, if_pos]
  exact decide_eq_true (by omega)

theorem parseSigned_push4 {n : ℕ} (h : n < 10000) : parseSigned 32 (push4 n) = some (n : ℤ) := by
  rw [push4, parseSigned_digit, ← push4, parseDigits_push4 h, Option.filter_some, if_pos, Option.map_some]
  · rfl
  · exact decide_eq_true (by omega)

@[simp] theorem byteLen_push2 : byteLen (push2 n) = 2 := by
  simp only [push2, byteLen_cons, utf8Size_digit]
  rfl

@[simp] theorem byteLen_push4 : byteLen (push4 n) = 4 := by
  simp only [push4, byteLen_cons, utf8Size_digit]
  rfl

@[simp] theorem byteLen_clockStamp (h m s : ℕ) : byteLen (clockStamp h m s) = 8 := by
  simp only [clockStamp, byteLen_cons, byteLen_append, byteLen_push2]
  rfl

theorem numberAt_append {α : Type} {parse : Text → Option α} {a b c : Text} {i j : ℕ} {x : α}
    (h : parse b = some x) (hi : byteLen a = i) (hj : byteLen a + byteLen b = j) :
    numberAt parse i j (a ++ (b ++ c)) = .ok x := by
  unfold numberAt
  rw [slice_append hi hj]
  simp [h]

theorem civil_self (d : DateTime) (h : d.nano = 0) :
    civil d.year d.month d.day d.hour d.minute d.second = some d := by
  have hd := d.date_ok
  have ht := d.time_ok
  unfold civil
  rw [dif_pos ⟨hd, ht.1, ht.2.1, ht.2.2.1⟩]
  rcases d with ⟨y, m, da, ho, mi, s, n, h1, h2⟩
  subst h
  rfl

/-- The text of a time. -/
def timeText (year month day hour minute second : ℕ) : Text :=
  push4 year ++ (push2 month ++ (push2 day ++ clockStamp hour minute second))

theorem utcStamp_of_stampable {d : DateTime} (h : d.Stampable) :
    utcStamp d = timeText d.year.natAbs d.month d.day d.hour d.minute d.second := by
  obtain ⟨h0, h1, hn⟩ := h
  unfold utcStamp compactIcalUtc timeText
  split_ifs with hy
  · simp
  · rw [Option.getD_none, chronoStamp, dateStamp, yearText, if_pos ⟨h0, h1⟩, hn, if_pos (by omega)]
    simp

section TimeText
variable {y m d h mi s : ℕ}

theorem byteLen_timeText : byteLen (timeText y m d h mi s) = 16 := by
  simp [timeText, byteLen_append]

theorem getLast_timeText : (timeText y m d h mi s).getLast? = some 'Z' := by
  have h : timeText y m d h mi s =
      (push4 y ++ (push2 m ++ (push2 d ++ 'T' :: (push2 h ++ (push2 mi ++ push2 s))))) ++ ['Z'] := by
    simp [timeText, clockStamp]
  rw [h, List.getLast?_concat]

theorem year_timeText (hy : y < 10000) :
    numberAt (parseSigned 32) 0 4 (timeText y m d h mi s) = .ok (y : ℤ) := by
  have hb := byteLen_push4 y
  exact numberAt_append (a := []) (parseSigned_push4 hy) rfl (by rw [hb]; rfl)

theorem number_push2 {n : ℕ} {a c : Text} {i : ℕ} (hn : n < 100) (hi : byteLen a = i) :
    numberAt parseU32 i (i + 2) (a ++ (push2 n ++ c)) = .ok n :=
  numberAt_append (parseU32_push2 hn) hi (by rw [hi, byteLen_push2])

theorem month_timeText (hm : m < 100) : numberAt parseU32 4 6 (timeText y m d h mi s) = .ok m :=
  number_push2 hm (byteLen_push4 y)

theorem day_timeText (hd : d < 100) : numberAt parseU32 6 8 (timeText y m d h mi s) = .ok d := by
  rw [timeText, ← List.append_assoc]
  exact number_push2 hd (by simp [byteLen_append])

theorem timeText_eq : timeText y m d h mi s =
    (push4 y ++ push2 m ++ push2 d ++ ['T']) ++ (push2 h ++ (push2 mi ++ (push2 s ++ ['Z']))) := by
  simp [timeText, clockStamp]

theorem byteLen_day : byteLen (push4 y ++ push2 m ++ push2 d ++ ['T']) = 9 := by
  simp only [byteLen_append, byteLen_push4, byteLen_push2]
  rfl

theorem hour_timeText (hh : h < 100) : numberAt parseU32 9 11 (timeText y m d h mi s) = .ok h := by
  exact number_push2 hh byteLen_day

theorem minute_timeText (hmi : mi < 100) : numberAt parseU32 11 13 (timeText y m d h mi s) = .ok mi := by
  rw [timeText_eq, ← List.append_assoc]
  exact number_push2 hmi (by rw [byteLen_append, byteLen_day, byteLen_push2])

theorem second_timeText (hs : s < 100) : numberAt parseU32 13 15 (timeText y m d h mi s) = .ok s := by
  rw [timeText_eq, ← List.append_assoc, ← List.append_assoc]
  exact number_push2 hs (by rw [byteLen_append, byteLen_append, byteLen_day, byteLen_push2, byteLen_push2])

end TimeText

/-- **A stamp is read back.** -/
theorem parse_utcStamp {d : DateTime} (h : d.Stampable) (zones : Zones) (tzid : Option Text) :
    parseIcalDatetime zones (utcStamp d) false tzid = .ok d := by
  have hy : d.year.natAbs < 10000 := by unfold DateTime.Stampable at h; omega
  have hyear : ((d.year.natAbs : ℕ) : ℤ) = d.year := Int.natAbs_of_nonneg h.1
  have hm : d.month < 100 := by have := d.date_ok; omega
  have hd : d.day < 100 := by have := d.date_ok; have := DateTime.daysIn_le d.year d.month; omega
  obtain ⟨hh, hmi, hs, -⟩ := d.time_ok
  rw [utcStamp_of_stampable h, parseIcalDatetime, if_neg Bool.false_ne_true, byteLen_timeText,
    getLast_timeText, if_neg (by simp), year_timeText hy, month_timeText hm, day_timeText hd,
    hour_timeText (by omega), minute_timeText (by omega), second_timeText (by omega)]
  show (match civil (d.year.natAbs : ℤ) d.month d.day d.hour d.minute d.second with
    | none => _
    | some naive => _) = _
  rw [hyear, civil_self d h.2.2]
  rfl

end OxiCloud.Calendar
