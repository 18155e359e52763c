import OxiCloud.Lib.Texts
import OxiCloud.Schema

/-! # The tables of the calendars

The rows of `caldav.calendar_events` and `caldav.calendar_todos`. Both are calendar objects: they belong to
a calendar, carry the UID and, on the override of a single occurrence, the RECURRENCE-ID of their component,
and the body it was read from. They differ in the columns kept beside it. Times are of an arbitrary ordered
type.

`Objects` carries the two partial unique indexes of each table: one row without RECURRENCE-ID for a UID of a
calendar, and one for each RECURRENCE-ID. -/

namespace OxiCloud.Calendar

open Lib.Tables Lib.Texts Schema

abbrev CalendarId := ℕ

abbrev ObjectId := ℕ

/-- The columns of an event. -/
structure EventFields (T : Type) where
  summary : Text
  description : Option Text
  location : Option Text
  startTime : T
  endTime : T
  allDay : Bool
  rrule : Option Text
  deriving DecidableEq

/-- The columns of a task. -/
structure TodoFields (T : Type) where
  summary : Option Text
  description : Option Text
  location : Option Text
  status : Option Text
  percentComplete : Option ℕ
  priority : Option ℕ
  startTime : Option T
  dueTime : Option T
  completedAt : Option T
  allDay : Bool
  rrule : Option Text
  deriving DecidableEq

/-- A row of one of the tables, with its own columns `D`. -/
structure Row (T D : Type) where
  calendarId : CalendarId
  icalUid : Text
  recurrenceId : Option T
  icalData : Text
  fields : D
  deriving DecidableEq

abbrev CalendarEvent (T : Type) := Row T (EventFields T)

abbrev CalendarTodo (T : Type) := Row T (TodoFields T)

variable {T D : Type}

/-- The columns of the unique indexes. -/
def Row.key (r : Row T D) : CalendarId × Text × Option T := (r.calendarId, r.icalUid, r.recurrenceId)

/-- The row `i` with another body and other columns, any other row as it is. -/
def Row.rewrite (i : ObjectId) (data : Text) (fields : D) (j : ObjectId) (r : Row T D) : Row T D :=
  if j = i then { r with icalData := data, fields := fields } else r

theorem Row.rewrite_key (i : ObjectId) (data : Text) (fields : D) (j : ObjectId) (r : Row T D) :
    (r.rewrite i data fields j).key = r.key := by
  unfold Row.rewrite
  split_ifs <;> rfl

/-- A text that a column of type `TEXT` can hold. -/
def storableText (s : Text) : Bool := !s.contains '\x00'

def EventFields.storable (f : EventFields T) : Bool :=
  storableText f.summary && f.description.all storableText && f.location.all storableText &&
    f.rrule.all storableText

def TodoFields.storable (f : TodoFields T) : Bool :=
  f.summary.all storableText && f.description.all storableText && f.location.all storableText &&
    f.status.all (fun s => storableText s && decide (s.length ≤ 32)) && f.rrule.all storableText

/-- The columns hold the row: the UID is a `VARCHAR(255)`. -/
def Row.storable (ok : D → Bool) (r : Row T D) : Bool :=
  storableText r.icalUid && decide (r.icalUid.length ≤ 255) && storableText r.icalData && ok r.fields

/-- One of the tables with its unique indexes. -/
structure Objects (T D : Type) where
  rows : Table ObjectId (Row T D)
  unique : ∀ {i j : ObjectId} {r r' : Row T D}, rows.get i = some r → rows.get j = some r' → r.key = r'.key →
    i = j

namespace Objects

def empty : Objects T D := ⟨.empty, fun h => nomatch h⟩

/-- `DELETE … WHERE id = $1`. -/
def delete (t : Objects T D) (i : ObjectId) : Objects T D where
  rows := t.rows.filter fun j _ => decide (j ≠ i)
  unique hi hj := t.unique (Option.filter_eq_some_iff.mp hi).1 (Option.filter_eq_some_iff.mp hj).1

/-- `UPDATE … WHERE id = $1` of the body and the columns beside it. The UID and the RECURRENCE-ID stay: the
statement writes the RECURRENCE-ID that was read from the row. -/
def update (t : Objects T D) (i : ObjectId) (data : Text) (fields : D) : Objects T D where
  rows := t.rows.modify (Row.rewrite i data fields)
  unique := by
    intro j k x y hj hk hkey
    obtain ⟨x', hx, rfl⟩ := Option.map_eq_some_iff.mp hj
    obtain ⟨y', hy, rfl⟩ := Option.map_eq_some_iff.mp hk
    rw [Row.rewrite_key, Row.rewrite_key] at hkey
    exact t.unique hx hy hkey

variable {t : Objects T D} {i : ObjectId}

theorem update_get {j : ObjectId} {data : Text} {fields : D} {r : Row T D} :
    (t.update i data fields).rows.get j = some r ↔
      ∃ r', t.rows.get j = some r' ∧ r'.rewrite i data fields j = r :=
  Option.map_eq_some_iff

variable [DecidableEq T]

/-- The row of a key. -/
def withKey (t : Objects T D) (k : CalendarId × Text × Option T) : Finset ObjectId :=
  t.rows.sat fun _ r => decide (r.key = k)

theorem mem_withKey {k : CalendarId × Text × Option T} :
    i ∈ t.withKey k ↔ ∃ r, t.rows.get i = some r ∧ r.key = k := by
  unfold withKey
  simp only [Table.mem_sat, decide_eq_true_iff]

/-- `INSERT` under the id `i`; nothing is written if the id or the key is taken. -/
def insert (t : Objects T D) (i : ObjectId) (r : Row T D) : Option (Objects T D) :=
  if h : t.rows.get i = none ∧ t.withKey r.key = ∅ then
    some {
      rows := t.rows.set i r
      unique := by
        have hnew : ∀ {j : ObjectId} {r' : Row T D}, t.rows.get j = some r' → r'.key ≠ r.key := by
          intro j r' hj hk
          have hmem : j ∈ t.withKey r.key := mem_withKey.mpr ⟨r', hj, hk⟩
          rw [h.2] at hmem
          exact absurd hmem (Finset.notMem_empty j)
        intro j k x y hj hk hkey
        rw [Table.get_set] at hj hk
        split_ifs at hj hk with h1 h2 h2
        · rw [h1, h2]
        · obtain rfl := Option.some.inj hj
          exact absurd hkey.symm (hnew hk)
        · obtain rfl := Option.some.inj hk
          exact absurd hkey (hnew hj)
        · exact t.unique hj hk hkey }
  else none

/-- The row of a key with its id. -/
def lookup (t : Objects T D) (k : CalendarId × Text × Option T) : Option (ObjectId × Row T D) :=
  ((t.withKey k).sort (· ≤ ·)).head?.bind fun i => (t.rows.get i).map fun r => (i, r)

theorem lookup_eq_some {k : CalendarId × Text × Option T} {r : Row T D} :
    t.lookup k = some (i, r) ↔ t.rows.get i = some r ∧ r.key = k := by
  unfold lookup
  constructor
  · intro h
    obtain ⟨j, hj, hr⟩ := Option.bind_eq_some_iff.mp h
    obtain ⟨x, hx, heq⟩ := Option.map_eq_some_iff.mp hr
    obtain ⟨rfl, rfl⟩ := Prod.mk.inj heq
    have hmem : j ∈ t.withKey k := (Finset.mem_sort _).mp (List.mem_of_head? hj)
    obtain ⟨y, hy, hk⟩ := mem_withKey.mp hmem
    rw [hx] at hy
    obtain rfl := Option.some.inj hy
    exact ⟨hx, hk⟩
  · rintro ⟨hr, hk⟩
    have hmem : i ∈ (t.withKey k).sort (· ≤ ·) := (Finset.mem_sort _).mpr (mem_withKey.mpr ⟨r, hr, hk⟩)
    rcases hs : (t.withKey k).sort (· ≤ ·) with _ | ⟨j, l⟩
    · rw [hs] at hmem
      exact absurd hmem List.not_mem_nil
    · have hj : j ∈ t.withKey k := (Finset.mem_sort _).mp (hs ▸ List.mem_cons_self)
      obtain ⟨y, hy, hk'⟩ := mem_withKey.mp hj
      obtain rfl : j = i := t.unique hy hr (hk'.trans hk.symm)
      rw [List.head?_cons, Option.bind_some, hr, Option.map_some]

theorem insert_fresh {t' : Objects T D} {r : Row T D} (h : t.insert i r = some t') :
    t.rows.get i = none ∧ ∀ j r', t.rows.get j = some r' → r'.key ≠ r.key := by
  unfold insert at h
  split_ifs at h with hfree
  refine ⟨hfree.1, fun j r' hj hk => ?_⟩
  have hmem : j ∈ t.withKey r.key := mem_withKey.mpr ⟨r', hj, hk⟩
  rw [hfree.2] at hmem
  exact absurd hmem (Finset.notMem_empty j)

end Objects

/-- The calendars and their objects. -/
structure Store (T : Type) where
  calendars : Finset CalendarId
  events : Objects T (EventFields T)
  todos : Objects T (TodoFields T)

/-- `DomainError::database_error`. -/
def databaseError : DomainError := ⟨.databaseError, "Database"⟩

/-! ### Reading rows back -/

section Reading
variable [LinearOrder T]

/-- What `with_id` checks of an event. -/
def EventFields.readable (f : EventFields T) : Bool := !f.summary.isEmpty && !decide (f.endTime < f.startTime)

/-- `row_to_event`: `with_id` on the columns. -/
def rowToEvent (r : CalendarEvent T) : Except DomainError (CalendarEvent T) :=
  if r.fields.readable then .ok r else .error databaseError

/-- The events of a query; the first row that cannot be read back fails it. -/
def readEvents (t : Table ObjectId (CalendarEvent T)) :
    Except DomainError (Table ObjectId (CalendarEvent T)) :=
  if (t.sat fun _ r => !r.fields.readable) = ∅ then .ok t else .error databaseError

theorem readEvents_ok {t t' : Table ObjectId (CalendarEvent T)} : readEvents t = .ok t' ↔
    t' = t ∧ ∀ i r, t.get i = some r → r.fields.readable = true := by
  unfold readEvents
  split_ifs with h
  · constructor
    · intro heq
      refine ⟨(Except.ok.inj heq).symm, fun i r hr => ?_⟩
      by_contra hn
      have hmem : i ∈ t.sat fun _ r => !r.fields.readable :=
        Table.mem_sat.mpr ⟨r, hr, by rw [Bool.not_eq_true] at hn; rw [hn]; rfl⟩
      rw [h] at hmem
      exact absurd hmem (Finset.notMem_empty i)
    · rintro ⟨rfl, -⟩
      rfl
  · refine iff_of_false (fun heq => nomatch heq) ?_
    rintro ⟨-, hall⟩
    obtain ⟨i, hi⟩ := Finset.nonempty_iff_ne_empty.mpr h
    obtain ⟨r, hr, hbad⟩ := Table.mem_sat.mp hi
    rw [hall i r hr] at hbad
    exact nomatch hbad

end Reading

end OxiCloud.Calendar
