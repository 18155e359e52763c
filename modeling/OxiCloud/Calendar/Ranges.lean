import OxiCloud.Calendar.Schema

/-! # Events in a time range

`get_events_in_time_range` selects the rows that meet the half-open range by their first interval, and the
recurring ones whose first interval does not end before the range. A later occurrence can meet the range
although the first one ended before it, and such a master is not selected.

What the instants of a recurrence rule are, and whether it is bounded, is left to a `Recurrence`. The query
is complete exactly if it does not fail on a row and every recurring master with an occurrence in the range
ends its first occurrence in or after it (`complete_iff`). -/

namespace OxiCloud.Calendar

open Lib.Tables Lib.Texts Schema

variable {T : Type} [LinearOrder T]

/-- The predicate of the query. -/
def inTimeRange (start stop : T) (f : EventFields T) : Bool :=
  decide (start ≤ f.startTime ∧ f.startTime < stop) || decide (start < f.endTime ∧ f.endTime ≤ stop) ||
    decide (f.startTime ≤ start ∧ stop ≤ f.endTime) || f.rrule.isSome && decide (start ≤ f.endTime)

/-- The rows of the query. -/
def selectTimeRange (db : Store T) (cal : CalendarId) (start stop : T) : Table ObjectId (CalendarEvent T) :=
  db.events.rows.filter fun _ r => decide (r.calendarId = cal) && inTimeRange start stop r.fields

/-- `get_events_in_time_range`. -/
def getEventsInTimeRange (db : Store T) (cal : CalendarId) (start stop : T) :
    Except DomainError (Table ObjectId (CalendarEvent T)) :=
  readEvents (selectTimeRange db cal start stop)

/-! ### What is to be returned -/

/-- The instant belongs to the interval; an interval without extent is its first instant. -/
def Occupies (first last t : T) : Prop := first ≤ t ∧ (t < last ∨ t = first)

/-- The interval meets the half-open range. -/
def Overlaps (first last start stop : T) : Prop := ∃ t, Occupies first last t ∧ start ≤ t ∧ t < stop

/-- What recurrence rules mean: how far after the first interval their instants are, whether a rule counts
its occurrences, and until when it goes on. -/
structure Recurrence (T : Type) where
  shifts : Text → Set T
  counts : Text → Prop
  until' : Text → Option T

/-- The rule has no COUNT, and no UNTIL before the range. -/
def Recurrence.Open (R : Recurrence T) (rule : Text) (start : T) : Prop :=
  ¬ R.counts rule ∧ ∀ u, R.until' rule = some u → start ≤ u

variable {db : Store T} {cal : CalendarId} {start stop : T} {f : EventFields T} {i : ObjectId}
  {r : CalendarEvent T}

theorem selectTimeRange_get : (selectTimeRange db cal start stop).get i = some r ↔
    db.events.rows.get i = some r ∧ r.calendarId = cal ∧ inTimeRange start stop r.fields = true := by
  show (db.events.rows.get i).filter _ = some r ↔ _
  rw [Option.filter_eq_some_iff, Bool.and_eq_true, decide_eq_true_iff]

theorem inTimeRange_iff : inTimeRange start stop f = true ↔
    start ≤ f.startTime ∧ f.startTime < stop ∨ start < f.endTime ∧ f.endTime ≤ stop ∨
      f.startTime ≤ start ∧ stop ≤ f.endTime ∨ f.rrule.isSome = true ∧ start ≤ f.endTime := by
  unfold inTimeRange
  simp only [Bool.or_eq_true, Bool.and_eq_true, decide_eq_true_iff, or_assoc]

/-- **The first three disjuncts find every first interval that meets the range.** -/
theorem inTimeRange_of_overlaps (h : Overlaps f.startTime f.endTime start stop) :
    inTimeRange start stop f = true := by
  obtain ⟨t, ⟨hfirst, hlast⟩, hstart, hstop⟩ := h
  rw [inTimeRange_iff]
  rcases le_or_gt start f.startTime with hle | hlt
  · exact .inl ⟨hle, hfirst.trans_lt hstop⟩
  · have htl : t < f.endTime := by
      rcases hlast with hlast | rfl
      · exact hlast
      · exact absurd hstart (not_le.mpr hlt)
    rcases le_or_gt f.endTime stop with hle | hgt
    · exact .inr (.inl ⟨hstart.trans_lt htl, hle⟩)
    · exact .inr (.inr (.inl ⟨hlt.le, hgt.le⟩))

/-- A row that can be read back and was selected does not end before the range. -/
theorem le_endTime_of_selected (hr : f.readable = true) (hne : start < stop)
    (h : inTimeRange start stop f = true) : start ≤ f.endTime := by
  unfold EventFields.readable at hr
  rw [Bool.and_eq_true, Bool.not_eq_true', Bool.not_eq_true', decide_eq_false_iff_not, not_lt] at hr
  rcases inTimeRange_iff.mp h with ⟨h1, -⟩ | ⟨h1, -⟩ | ⟨-, h1⟩ | ⟨-, h1⟩
  · exact h1.trans hr.2
  · exact h1.le
  · exact hne.le.trans h1
  · exact h1

section Completeness
variable [AddCommGroup T] (R : Recurrence T)

/-- A recurring master with an occurrence in the range. -/
def Recurs (r : CalendarEvent T) (start stop : T) : Prop :=
  r.recurrenceId = none ∧ ∃ rule, r.fields.rrule = some rule ∧ R.Open rule start ∧
    ∃ k ∈ R.shifts rule, Overlaps (r.fields.startTime + k) (r.fields.endTime + k) start stop

/-- The event is to be returned. -/
def Wanted (r : CalendarEvent T) (start stop : T) : Prop :=
  r.fields.rrule = none ∧ Overlaps r.fields.startTime r.fields.endTime start stop ∨ Recurs R r start stop

/-- The query succeeds and omits nothing. -/
def Complete (db : Store T) (cal : CalendarId) (start stop : T) : Prop :=
  ∃ t, getEventsInTimeRange db cal start stop = .ok t ∧
    ∀ i r, db.events.rows.get i = some r → r.calendarId = cal → Wanted R r start stop →
      t.get i = some r

variable {R}

theorem Recurs.lt (h : Recurs R r start stop) : start < stop := by
  obtain ⟨-, _, -, -, _, -, t, -, hstart, hstop⟩ := h
  exact hstart.trans_lt hstop

theorem Complete.readable (h : Complete R db cal start stop) (hi : db.events.rows.get i = some r)
    (hc : r.calendarId = cal) (hsel : inTimeRange start stop r.fields = true) : r.fields.readable = true := by
  obtain ⟨t, ht, -⟩ := h
  exact (readEvents_ok.mp ht).2 i r (selectTimeRange_get.mpr ⟨hi, hc, hsel⟩)

theorem Complete.le_endTime (h : Complete R db cal start stop) (hi : db.events.rows.get i = some r)
    (hc : r.calendarId = cal) (hrec : Recurs R r start stop) : start ≤ r.fields.endTime := by
  have hread := h.readable hi hc
  obtain ⟨t, ht, hall⟩ := h
  obtain ⟨rfl, -⟩ := readEvents_ok.mp ht
  obtain ⟨-, -, hsel⟩ := selectTimeRange_get.mp (hall i r hi hc (.inr hrec))
  exact le_endTime_of_selected (hread hsel) hrec.lt hsel

variable (R) (db cal start stop)

/-- **The query is complete exactly if no selected row fails it and no recurring event with an occurrence in
the range has its first one end before the range.** -/
theorem complete_iff : Complete R db cal start stop ↔
    (∀ i r, db.events.rows.get i = some r → r.calendarId = cal → inTimeRange start stop r.fields = true →
      r.fields.readable = true) ∧
    ∀ i r, db.events.rows.get i = some r → r.calendarId = cal → Recurs R r start stop →
      start ≤ r.fields.endTime := by
  constructor
  · intro h
    exact ⟨fun i r hi hc => h.readable hi hc, fun i r hi hc => h.le_endTime hi hc⟩
  · rintro ⟨hread, hrec⟩
    refine ⟨selectTimeRange db cal start stop, readEvents_ok.mpr ⟨rfl, fun i r hi => ?_⟩, fun i r hi hc hw => ?_⟩
    · obtain ⟨hget, hc, hsel⟩ := selectTimeRange_get.mp hi
      exact hread i r hget hc hsel
    · refine selectTimeRange_get.mpr ⟨hi, hc, ?_⟩
      rcases hw with ⟨-, hover⟩ | hr
      · exact inTimeRange_of_overlaps hover
      · have hle := hrec i r hi hc hr
        obtain ⟨-, rule, hrule, -⟩ := hr
        exact inTimeRange_iff.mpr (.inr (.inr (.inr ⟨by rw [hrule]; rfl, hle⟩)))

end Completeness

/-! ### A daily event -/

/-- Every rule repeats daily for ever; times are hours. -/
def daily : Recurrence ℤ := ⟨fun _ => { k | ∃ n : ℕ, k = 24 * n }, fun _ => False, fun _ => none⟩

/-- An event from nine to ten that repeats daily. -/
def standupFields : EventFields ℤ := ⟨['s'], none, none, 9, 10, false, some "FREQ=DAILY".toList⟩

def standup : Store ℤ where
  calendars := {0}
  events := (Objects.empty.insert 0 ⟨0, ['u'], none, [], standupFields⟩).getD .empty
  todos := .empty

/-- The query for the second day does not return the event that occurs on it. -/
theorem range_omits : ¬ Complete daily standup 0 24 48 := by
  intro h
  have hrec : Recurs daily ⟨0, ['u'], none, [], standupFields⟩ 24 48 :=
    ⟨rfl, _, rfl, ⟨fun hc => hc, fun u hu => nomatch hu⟩, 24, ⟨1, rfl⟩, 33, ⟨le_rfl, .inr rfl⟩, by decide, by decide⟩
  have hle : (24 : ℤ) ≤ standupFields.endTime := h.le_endTime (i := 0) rfl rfl hrec
  exact absurd hle (by decide)

end OxiCloud.Calendar
