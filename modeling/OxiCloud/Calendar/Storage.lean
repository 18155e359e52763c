import OxiCloud.Calendar.Entities
import OxiCloud.Calendar.Ranges
import OxiCloud.Lib.Programs

/-! # The storage of calendar objects

The functions of the storage adapter that write events and tasks, as programs over the single statements they
issue. There is no transaction around them: a statement that fails ends the call, and what the statements
before it did stays.

Events and tasks are written in the same way to tables of their own. A `Side` is one of the tables with its
statements; `replaceRow` is the body of both loops of `upsert_ical_objects`, which run one after the other. -/

namespace OxiCloud.Calendar

open Lib.Tables Lib.Texts Lib.Programs Lib.Programs.Prog Schema

/-- The calendars and their objects, with instants as times. -/
abbrev Database := Store DateTime

/-- The key of the unique indexes. -/
abbrev Key := CalendarId × Text × Option DateTime

/-! ### Statements -/

/-- The statements on one of the tables. -/
inductive TableStmt (D : Type) where
  | insert (i : ObjectId) (r : Row DateTime D)
  | delete (i : ObjectId)
  /-- `find_event_by_ical_uid` without a RECURRENCE-ID, `find_event_by_ical_uid_and_recurrence_id` with one,
  and those of tasks. -/
  | findByKey (k : Key)
  | findByUids (cal : CalendarId) (uids : List Text)

/-- What a statement answers. -/
@[reducible] def TableStmt.Answer {D : Type} : TableStmt D → Type
  | .insert .. | .delete _ => Unit
  | .findByKey _ => Option (ObjectId × Row DateTime D)
  | .findByUids .. => Table ObjectId (Row DateTime D)

/-- The columns of a table: which values it can hold, and which of them are read back. -/
structure Columns (D : Type) where
  storable : D → Bool
  readable : D → Bool

def databaseAbort : Abort := .error databaseError

section Table
variable {D : Type} (cals : Finset CalendarId) (x : Columns D)

/-- The rows a query selects, unless one of them cannot be read back. -/
def selectRows (t : Objects DateTime D) (p : Row DateTime D → Bool) :
    Except Abort (Table ObjectId (Row DateTime D)) :=
  if (t.rows.sat fun _ r => p r && !x.readable r.fields) = ∅ then .ok (t.rows.filter fun _ r => p r)
  else .error databaseAbort

/-- The row of a key, unless it cannot be read back. -/
def selectKey (t : Objects DateTime D) (k : Key) : Except Abort (Option (ObjectId × Row DateTime D)) :=
  match t.lookup k with
  | none => .ok none
  | some (i, r) => if x.readable r.fields then .ok (some (i, r)) else .error databaseAbort

/-- A row is written if its calendar exists, the columns can hold it, and its id and its key are free. -/
def insertRow (t : Objects DateTime D) (i : ObjectId) (r : Row DateTime D) : Option (Objects DateTime D) :=
  if r.calendarId ∈ cals ∧ r.storable x.storable = true then t.insert i r else none

/-- The outcome of an `INSERT` that may be refused. -/
def inserted (t : Objects DateTime D) : Option (Objects DateTime D) → Except Abort Unit × Objects DateTime D
  | some t' => (.ok (), t')
  | none => (.error databaseAbort, t)

/-- A statement that does not fail for a reason of its own. -/
def execTable : (s : TableStmt D) → Objects DateTime D → Except Abort s.Answer × Objects DateTime D
  | .insert i r, t => inserted t (insertRow cals x t i r)
  | .delete i, t => (.ok (), t.delete i)
  | .findByKey k, t => (selectKey x t k, t)
  | .findByUids cal uids, t => (selectRows x t fun r => decide (r.calendarId = cal) && uids.contains r.icalUid, t)

end Table

/-- The statements of the adapter. -/
inductive Stmt where
  | findCalendar (cal : CalendarId)
  | events (s : TableStmt (EventFields DateTime))
  | todos (s : TableStmt (TodoFields DateTime))
  | findEventById (i : ObjectId)
  | updateEvent (i : ObjectId) (data : Text) (fields : EventFields DateTime)

@[reducible] def Stmt.Answer : Stmt → Type
  | .findCalendar _ | .updateEvent .. => Unit
  | .events s => s.Answer
  | .todos s => s.Answer
  | .findEventById _ => CalendarEvent DateTime

/-- The signature of the programs. -/
abbrev sql : Sig := ⟨Stmt, fun s => Except Abort s.Answer⟩

abbrev Db (α : Type) := Prog sql α

def eventColumns : Columns (EventFields DateTime) := ⟨EventFields.storable, EventFields.readable⟩

/-- `with_id` of a task accepts every row. -/
def todoColumns : Columns (TodoFields DateTime) := ⟨TodoFields.storable, fun _ => true⟩

/-- `find_event_by_id`. -/
def findEventById (db : Database) (i : ObjectId) : Except Abort (CalendarEvent DateTime) :=
  match db.events.rows.get i with
  | none => .error (.error (notFound "Calendar Event"))
  | some r => if r.fields.readable then .ok r else .error databaseAbort

/-- The meaning of a statement that does not fail for a reason of its own. -/
def exec : (s : Stmt) → Database → Except Abort s.Answer × Database
  | .findCalendar cal, db => (if cal ∈ db.calendars then .ok () else .error (.error (notFound "Calendar")), db)
  | .events s, db =>
    ((execTable db.calendars eventColumns s db.events).1,
      { db with events := (execTable db.calendars eventColumns s db.events).2 })
  | .todos s, db =>
    ((execTable db.calendars todoColumns s db.todos).1,
      { db with todos := (execTable db.calendars todoColumns s db.todos).2 })
  | .findEventById i, db => (findEventById db i, db)
  | .updateEvent i data fields, db =>
    if storableText data && fields.storable then (.ok (), { db with events := db.events.update i data fields })
    else (.error databaseAbort, db)

/-- The choice at a statement is whether it fails. A failed statement has no effect. -/
abbrev machine : Machine sql Database where
  Choice := Bool
  exec s fault db := some (if fault then (.error databaseAbort, db) else exec s db)

/-- No restriction on the choices. -/
def free (_ : Stmt) (_ : Bool) (_ : Database) : Prop := True

instance (s : Stmt) (fault : Bool) (db : Database) : Decidable (free s fault db) := inferInstanceAs (Decidable True)

/-- A statement by itself. -/
def issue (s : Stmt) : Db (Except Abort s.Answer) := stmt (E := sql) s

/-- The operator `?`. -/
def andThen {α β : Type} (p : Db (Except Abort α)) (k : α → Db (Except Abort β)) : Db (Except Abort β) :=
  p >>= fun
    | .error a => ret (.error a)
    | .ok x => k x

section Runs
variable {α β : Type} {db db' : Database} {tr : List Stmt} {b : Except Abort β}

theorem run_issue {s : Stmt} {k : Except Abort s.Answer → Db β} {b : β} :
    Run machine free (issue s >>= k) db tr b db' ↔
      ∃ fault : Bool, ∃ tr', tr = s :: tr' ∧
        Run machine free (k (if fault then .error databaseAbort else (exec s db).1))
          (if fault then db else (exec s db).2) tr' b db' := by
  rw [issue, run_stmt]
  constructor
  · rintro ⟨fault, r, db₁, tr', -, he, rfl, h⟩
    refine ⟨fault, tr', rfl, ?_⟩
    have heq := Option.some.inj he
    rcases fault with _ | _
    · obtain ⟨rfl, rfl⟩ := Prod.mk.inj heq
      exact h
    · obtain ⟨rfl, rfl⟩ := Prod.mk.inj heq
      exact h
  · rintro ⟨fault, tr', rfl, h⟩
    rcases fault with _ | _
    · exact ⟨false, _, _, tr', trivial, rfl, rfl, h⟩
    · exact ⟨true, _, _, tr', trivial, rfl, rfl, h⟩

/-- A call that succeeds goes on after each of its statements. -/
theorem run_issue_ok {s : Stmt} {k : s.Answer → Db (Except Abort β)} {x : β}
    (h : Run machine free (andThen (issue s) k) db tr (.ok x) db') :
    ∃ y tr', tr = s :: tr' ∧ (exec s db).1 = .ok y ∧ Run machine free (k y) (exec s db).2 tr' (.ok x) db' := by
  obtain ⟨fault, tr', rfl, h₁⟩ := run_issue.mp h
  rcases fault with _ | _
  · rcases he : (exec s db).1 with a | y
    · rw [he] at h₁
      obtain ⟨-, ha, -⟩ := run_ret.mp h₁
      exact nomatch ha
    · rw [he] at h₁
      exact ⟨y, tr', rfl, rfl, h₁⟩
  · obtain ⟨-, ha, -⟩ := run_ret.mp h₁
    exact nomatch ha

/-- A sequence ends with the error of its first part, or goes on after it. -/
theorem run_andThen {p : Db (Except Abort α)} {k : α → Db (Except Abort β)} :
    Run machine free (andThen p k) db tr b db' ↔
      (∃ a, b = .error a ∧ Run machine free p db tr (.error a) db') ∨
      ∃ x db₁ tr₁ tr₂, Run machine free p db tr₁ (.ok x) db₁ ∧ Run machine free (k x) db₁ tr₂ b db' ∧
        tr = tr₁ ++ tr₂ := by
  rw [andThen, run_bind]
  constructor
  · rintro ⟨r, db₁, tr₁, tr₂, h1, h2, rfl⟩
    rcases r with a | x
    · obtain ⟨rfl, rfl, rfl⟩ := run_ret.mp h2
      exact .inl ⟨a, rfl, by rwa [List.append_nil]⟩
    · exact .inr ⟨x, db₁, tr₁, tr₂, h1, h2, rfl⟩
  · rintro (⟨a, rfl, h⟩ | ⟨x, db₁, tr₁, tr₂, h1, h2, rfl⟩)
    · exact ⟨_, db', tr, [], h, .ret _ _, (List.append_nil tr).symm⟩
    · exact ⟨_, db₁, tr₁, tr₂, h1, h2, rfl⟩

end Runs

/-! ### The tables of events and of tasks -/

/-- An event or a task. -/
inductive CalendarObject where
  | event (r : CalendarEvent DateTime)
  | todo (r : CalendarTodo DateTime)
  deriving DecidableEq

/-- Where an object is stored. -/
inductive Ref where
  | event (i : ObjectId)
  | todo (i : ObjectId)
  deriving DecidableEq

/-- One of the two tables of objects, with what its statements do. -/
structure Side (D : Type) where
  columns : Columns D
  table : Database → Objects DateTime D
  put : Objects DateTime D → Database → Database
  object : Row DateTime D → CalendarObject
  ref : ObjectId → Ref
  stmt : TableStmt D → Stmt
  issue : (s : TableStmt D) → Db (Except Abort s.Answer)
  run : ∀ {β : Type} {s : TableStmt D} {k : Except Abort s.Answer → Db β} {db db' : Database}
    {tr : List Stmt} {b : β}, Run machine free (issue s >>= k) db tr b db' ↔ ∃ fault : Bool, ∃ tr',
      tr = stmt s :: tr' ∧
        Run machine free (k (if fault then .error databaseAbort else (execTable db.calendars columns s (table db)).1))
          (if fault then db else put (execTable db.calendars columns s (table db)).2 db) tr' b db'

def eventSide : Side (EventFields DateTime) :=
  ⟨eventColumns, Store.events, fun t db => { db with events := t }, .event, .event, .events,
    fun s => Calendar.issue (.events s), run_issue⟩

def todoSide : Side (TodoFields DateTime) :=
  ⟨todoColumns, Store.todos, fun t db => { db with todos := t }, .todo, .todo, .todos,
    fun s => Calendar.issue (.todos s), run_issue⟩

/-- The body of a loop of `upsert_ical_objects`: `true` if no row was replaced. -/
def replaceRow {D : Type} (S : Side D) (allowReplace : Bool) (i : ObjectId) (r : Row DateTime D) :
    Db (Except Abort Bool) :=
  andThen (if allowReplace then S.issue (.findByKey r.key) else ret (.ok none)) fun
    | some (j, _) =>
      andThen (S.issue (.delete j)) fun _ => andThen (S.issue (.insert i r)) fun _ => ret (.ok false)
    | none => andThen (S.issue (.insert i r)) fun _ => ret (.ok true)

def replaceObject (allowReplace : Bool) (i : ObjectId) : CalendarObject → Db (Except Abort Bool)
  | .event r => replaceRow eventSide allowReplace i r
  | .todo r => replaceRow todoSide allowReplace i r

/-- The loops of `upsert_ical_objects`, one after the other: `true` if a row was added. -/
def replaceObjects (allowReplace : Bool) : List (ObjectId × CalendarObject) → Db (Except Abort Bool)
  | [] => ret (.ok false)
  | (i, o) :: l => andThen (replaceObject allowReplace i o) fun added =>
    andThen (replaceObjects allowReplace l) fun more => ret (.ok (added || more))

/-! ### The functions of the adapter -/

/-- What a call draws: ids and UIDs, one after the other, and the time of the clock. -/
structure Draw where
  id : ℕ → ObjectId
  uid : ℕ → Text
  now : DateTime

/-- The rows with the ids drawn for them. -/
def withIds {R : Type} (ids : ℕ → ObjectId) : ℕ → List R → List (ObjectId × R)
  | _, [] => []
  | n, r :: rs => (ids n, r) :: withIds ids (n + 1) rs

structure UpsertObjectsResult where
  events : List (CalendarEvent DateTime)
  todos : List (CalendarTodo DateTime)
  anyInserted : Bool

variable (zones : Zones) (draw : Draw)

/-- The events and tasks of a body. -/
def parseObjects (cal : CalendarId) (data : Text) :
    Except Abort (List (CalendarEvent DateTime) × List (CalendarTodo DateTime)) :=
  let vtimezones := (splitComponents data .timeZone).flatten
  let vevents := splitComponents data .event
  let vtodos := splitComponents data .todo
  if vevents.isEmpty && vtodos.isEmpty then .error (.error ⟨.invalidInput, "CalendarObject"⟩)
  else do
    let events ← parseBlocks (eventFromIcal zones cal) draw.uid vtimezones 0 vevents
    let todos ← parseBlocks (todoFromIcal zones cal) draw.uid vtimezones vevents.length vtodos
    .ok (events, todos)

/-- The events and then the tasks, with the ids drawn for them. -/
def drawnObjects (events : List (CalendarEvent DateTime)) (todos : List (CalendarTodo DateTime)) :
    List (ObjectId × CalendarObject) :=
  withIds draw.id 0 (events.map .event ++ todos.map .todo)

/-- The writes of `upsert_ical_objects`. -/
def writeObjects (allowReplace : Bool) (events : List (CalendarEvent DateTime)) (todos : List (CalendarTodo DateTime)) :
    Db (Except Abort UpsertObjectsResult) :=
  andThen (replaceObjects allowReplace (drawnObjects draw events todos)) fun added =>
    ret (.ok ⟨events, todos, added⟩)

def objectTaken : Abort := .error ⟨.alreadyExists, "CalendarObject"⟩

/-- The check of the mode that only inserts: no row of either table may have one of the UIDs. -/
def refuseTaken (cal : CalendarId) (uids : List Text) : Db (Except Abort Unit) :=
  andThen (issue (.events (.findByUids cal uids))) fun es =>
    if es.keys ≠ ∅ then ret (.error objectTaken)
    else andThen (issue (.todos (.findByUids cal uids))) fun ts =>
      if ts.keys ≠ ∅ then ret (.error objectTaken) else ret (.ok ())

/-- `upsert_ical_objects`. -/
def upsertIcalObjects (cal : CalendarId) (data : Text) (allowReplace : Bool) :
    Db (Except Abort UpsertObjectsResult) :=
  andThen (issue (.findCalendar cal)) fun _ =>
    match parseObjects zones draw cal data with
    | .error a => ret (.error a)
    | .ok (events, todos) =>
      if allowReplace then writeObjects draw true events todos
      else andThen (refuseTaken cal (events.map Row.icalUid ++ todos.map Row.icalUid)) fun _ =>
        writeObjects draw false events todos

/-- The arguments of `create_event`. -/
structure CreateEventDto where
  summary : Text
  description : Option Text
  location : Option Text
  startTime : DateTime
  endTime : DateTime
  allDay : Option Bool
  rrule : Option Text

/-- The body `create_event` writes. -/
def basicIcal (uuid : Text) (now : DateTime) (dto : CreateEventDto) : Text :=
  "BEGIN:VCALENDAR\nVERSION:2.0\nPRODID:-//OxiCloud//EN\nBEGIN:VEVENT\nUID:".toList ++ uuid ++
    "@oxicloud\nDTSTAMP:".toList ++ chronoStamp now ++ "\nDTSTART:".toList ++ chronoStamp dto.startTime ++
    "\nDTEND:".toList ++ chronoStamp dto.endTime ++ "\nSUMMARY:".toList ++ dto.summary ++
    "\nEND:VEVENT\nEND:VCALENDAR".toList

/-- `create_event`. -/
def createEvent (cal : CalendarId) (dto : CreateEventDto) : Db (Except Abort (CalendarEvent DateTime)) :=
  andThen (issue (.findCalendar cal)) fun _ =>
    match newEvent cal (draw.uid 1) (basicIcal (draw.uid 0) draw.now dto)
        ⟨dto.summary, dto.description, dto.location, dto.startTime, dto.endTime, dto.allDay.getD false, dto.rrule⟩ with
    | .error a => ret (.error a)
    | .ok event => andThen (issue (.events (.insert (draw.id 0) event))) fun _ => ret (.ok event)

/-- `create_event_from_ical`. -/
def createEventFromIcal (cal : CalendarId) (data : Text) : Db (Except Abort (CalendarEvent DateTime)) :=
  andThen (issue (.findCalendar cal)) fun _ =>
    match eventFromIcal zones cal (draw.uid 0) data with
    | .error a => ret (.error a)
    | .ok event => andThen (issue (.events (.insert (draw.id 0) event))) fun _ => ret (.ok event)

/-- The arguments of `update_event`. -/
structure UpdateEventDto where
  summary : Option Text
  description : Option Text
  location : Option Text
  startTime : Option DateTime
  endTime : Option DateTime
  allDay : Option Bool
  rrule : Option Text

/-- The change of the times of an event. -/
def applyTimes (start stop : Option DateTime) (e : CalendarEvent DateTime) : Except Abort (CalendarEvent DateTime) :=
  match start, stop with
  | none, none => .ok e
  | _, _ => updateTimeRange e (start.getD e.fields.startTime) (stop.getD e.fields.endTime)

/-- The setters `update_event` calls. -/
def applyUpdate (u : UpdateEventDto) (e : CalendarEvent DateTime) : Except Abort (CalendarEvent DateTime) := do
  let e ← u.summary.elim (.ok e) (updateSummary e)
  let e := u.description.elim e fun d => updateDescription e (some d)
  let e := u.location.elim e fun l => updateLocation e (some l)
  let e ← applyTimes u.startTime u.endTime e
  let e := u.allDay.elim e (updateAllDay e)
  u.rrule.elim (.ok e) fun r => updateRrule e (some r)

/-- `update_event`. -/
def updateEvent (i : ObjectId) (u : UpdateEventDto) : Db (Except Abort (CalendarEvent DateTime)) :=
  andThen (issue (.findEventById i)) fun e =>
    match applyUpdate u e with
    | .error a => ret (.error a)
    | .ok e' => andThen (issue (.updateEvent i e'.icalData e'.fields)) fun _ => ret (.ok e')

end OxiCloud.Calendar
