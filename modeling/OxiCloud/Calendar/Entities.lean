import OxiCloud.Calendar.Ical
import OxiCloud.Calendar.Schema

/-! # Events and tasks

How the entities are made of an iCalendar body and how an event is changed. A body is cut into its time
zones, events and tasks by a scan of its lines; each event and each task is wrapped, with all the time zones,
into a calendar of its own, and the columns are read from that. The setters of an event change a column and
edit the text in place.

What is drawn at random or read from the clock is an argument. -/

namespace OxiCloud.Calendar

open Lib.Texts Schema

/-- How a function does not return a value: with an error, or by a panic. -/
inductive Abort where
  | error (e : DomainError)
  | panicked
  deriving DecidableEq

def invalidEvent : Abort := .error ⟨.invalidInput, "CalendarEvent"⟩

def invalidTodo : Abort := .error ⟨.invalidInput, "CalendarTodo"⟩

/-- `ok_or_else` and `?`. -/
def orAbort {α : Type} (a : Abort) : Option α → Except Abort α
  | some x => .ok x
  | none => .error a

theorem orAbort_ok {α : Type} {a : Abort} {o : Option α} {x : α} : orAbort a o = .ok x ↔ o = some x := by
  rcases o with _ | y
  · exact iff_of_false (fun h => nomatch h) fun h => nomatch h
  · exact ⟨fun h => congrArg some (Except.ok.inj h), fun h => congrArg Except.ok (Option.some.inj h)⟩

/-- `map_err` on a time: only an error becomes one of the entity. -/
def timeOr (a : Abort) : Except TimeError DateTime → Except Abort DateTime
  | .ok t => .ok t
  | .error .invalid => .error a
  | .error .panics => .error .panicked

/-- `.ok()` on a time: an error becomes a missing value. -/
def timeOk : Except TimeError DateTime → Except Abort (Option DateTime)
  | .ok t => .ok (some t)
  | .error .invalid => .ok none
  | .error .panics => .error .panicked

/-- The time of a property that may be missing or refused. -/
def optionalTime (zones : Zones) (props : List Property) (name : Text) (isDate : Option Bool) :
    Except Abort (Option DateTime) :=
  match icalPropValueDateTzid props name with
  | none => .ok none
  | some (value, date, tzid) => timeOk (parseIcalDatetime zones value (isDate.getD date) tzid)

/-- The columns of an event as `from_ical` reads them. -/
def readEventFields (zones : Zones) (event : List Property) (summary : Text) : Except Abort (EventFields DateTime) := do
  let (startValue, allDay, startTzid) ← orAbort invalidEvent (icalPropValueDateTzid event "DTSTART".toList)
  let (endValue, _, endTzid) ← orAbort invalidEvent (icalPropValueDateTzid event "DTEND".toList)
  let startTime ← timeOr invalidEvent (parseIcalDatetime zones startValue allDay startTzid)
  let endTime ← timeOr invalidEvent (parseIcalDatetime zones endValue allDay endTzid)
  .ok { summary := summary
        description := icalPropValue event "DESCRIPTION".toList
        location := icalPropValue event "LOCATION".toList
        startTime := startTime
        endTime := endTime
        allDay := allDay
        rrule := icalPropValue event "RRULE".toList }

/-- `CalendarEvent::from_ical`. Without a UID the event gets the fresh one. -/
def eventFromIcal (zones : Zones) (cal : CalendarId) (fresh : Text) (data : Text) :
    Except Abort (CalendarEvent DateTime) := do
  let event ← orAbort invalidEvent (parseFirstVevent data)
  let summary ← orAbort invalidEvent (icalPropValue event "SUMMARY".toList)
  let fields ← readEventFields zones event summary
  let recurrenceId ← optionalTime zones event "RECURRENCE-ID".toList none
  .ok ⟨cal, (icalPropValue event "UID".toList).getD fresh, recurrenceId, data, fields⟩

/-- A number within a bound, as `parse::<i16>` and `filter` leave it. -/
def boundedNumber (bound : ℤ) (v : Option Text) : Option ℕ :=
  ((v.bind (parseSigned 16)).filter fun n => 0 ≤ n && n ≤ bound).map Int.toNat

/-- `CalendarTodo::from_ical`. -/
def todoFromIcal (zones : Zones) (cal : CalendarId) (fresh : Text) (data : Text) :
    Except Abort (CalendarTodo DateTime) := do
  let props ← orAbort invalidTodo (parseFirstVtodo data)
  let startTime ← optionalTime zones props "DTSTART".toList none
  let allDay := ((icalPropValueDateTzid props "DTSTART".toList).map fun x => x.2.1).getD false
  let dueTime ← optionalTime zones props "DUE".toList (some allDay)
  let completedAt ← optionalTime zones props "COMPLETED".toList none
  let recurrenceId ← optionalTime zones props "RECURRENCE-ID".toList none
  .ok ⟨cal, (icalPropValue props "UID".toList).getD fresh, recurrenceId, data,
    { summary := icalPropValue props "SUMMARY".toList
      description := icalPropValue props "DESCRIPTION".toList
      location := icalPropValue props "LOCATION".toList
      status := icalPropValue props "STATUS".toList
      percentComplete := boundedNumber 100 (icalPropValue props "PERCENT-COMPLETE".toList)
      priority := boundedNumber 9 (icalPropValue props "PRIORITY".toList)
      startTime := startTime
      dueTime := dueTime
      completedAt := completedAt
      allDay := allDay
      rrule := icalPropValue props "RRULE".toList }⟩

/-- A rule that the constructors and setters accept. -/
def ruleOk (rule : Option Text) : Bool := rule.all fun r => "FREQ=".toList.isPrefixOf r

/-- The text occurs in it. -/
def containsText (p s : Text) : Bool := (findText p s).isSome

/-- `CalendarEvent::new`. -/
def newEvent (cal : CalendarId) (uid : Text) (data : Text) (f : EventFields DateTime) :
    Except Abort (CalendarEvent DateTime) :=
  if f.summary.isEmpty then .error invalidEvent
  else if f.endTime < f.startTime then .error invalidEvent
  else if !ruleOk f.rrule then .error invalidEvent
  else if !containsText "BEGIN:VEVENT".toList data || !containsText "END:VEVENT".toList data then
    .error invalidEvent
  else .ok ⟨cal, uid, none, data, f⟩

/-! ### Cutting a body into components -/

/-- The components that are kept. -/
inductive Kind where
  | timeZone
  | event
  | todo
  deriving DecidableEq

def Kind.name : Kind → Text
  | .timeZone => "VTIMEZONE".toList
  | .event => "VEVENT".toList
  | .todo => "VTODO".toList

def Kind.beginTag (k : Kind) : Text := "BEGIN:".toList ++ k.name

def Kind.endTag (k : Kind) : Text := "END:".toList ++ k.name

/-- The kind of component a line opens. -/
def beginKind (line : Text) : Option Kind :=
  if startsWithCi Kind.timeZone.beginTag line then some .timeZone
  else if startsWithCi Kind.event.beginTag line then some .event
  else if startsWithCi Kind.todo.beginTag line then some .todo
  else none

/-- Where the scan is: the blocks found, and the open one with its text. -/
structure Scan where
  blocks : List (Kind × Text) := []
  currentKind : Option Kind := none
  current : Text := []
  deriving DecidableEq

def crlf : Text := ['\r', '\n']

/-- The text of lines, each with its terminator. -/
def textOf (lines : List String) : Text := lines.flatMap fun l => l.toList ++ crlf

/-- One line of the scan. -/
def Scan.step (s : Scan) (rawLine : Text) : Scan :=
  let line := trimEnd (· == '\r') rawLine
  let tagArea := trimStart isSpace line
  match s.currentKind.or (beginKind tagArea) with
  | none => s
  | some kind =>
    if startsWithCi kind.endTag tagArea then ⟨s.blocks ++ [(kind, s.current ++ line ++ crlf)], none, []⟩
    else ⟨s.blocks, some kind, s.current ++ line ++ crlf⟩

/-- The blocks of a body, in their order. -/
def scanBlocks (data : Text) : List (Kind × Text) := ((data.splitOn '\n').foldl Scan.step {}).blocks

/-- `split_components`: the blocks of a kind. -/
def splitComponents (data : Text) (kind : Kind) : List Text :=
  ((scanBlocks data).filter fun b => b.1 = kind).map Prod.snd

/-- The calendar around the time zones and one block. -/
def shellStart : Text := textOf ["BEGIN:VCALENDAR", "VERSION:2.0", "PRODID:-//OxiCloud//NONSGML Calendar//EN"]

def shellEnd : Text := textOf ["END:VCALENDAR"]

def wrapped (vtimezones block : Text) : Text := shellStart ++ vtimezones ++ block ++ shellEnd

/-- The loop of `parse_events_from_components` and `parse_from_components`; the `n`-th block gets the `n`-th
fresh UID. -/
def parseBlocks {R : Type} (fromIcal : Text → Text → Except Abort R) (fresh : ℕ → Text) (vtimezones : Text) :
    ℕ → List Text → Except Abort (List R)
  | _, [] => .ok []
  | n, block :: blocks => do
    let r ← fromIcal (fresh n) (wrapped vtimezones block)
    let rs ← parseBlocks fromIcal fresh vtimezones (n + 1) blocks
    .ok (r :: rs)

/-! ### The setters -/

/-- `update_ical_property`. -/
def updateIcalProperty (data name value : Text) : Text :=
  match findText ('\n' :: name ++ [':']) data with
  | some (before, rest) =>
    before ++ ('\n' :: name ++ [':']) ++ value ++ (rest.drop (name.length + 2)).dropWhile (· != '\n')
  | none =>
    match findText "END:VEVENT".toList data with
    | some (before, rest) => before ++ (name ++ [':'] ++ value ++ ['\n']) ++ rest
    | none => data ++ (name ++ [':'] ++ value ++ ['\n'])

/-- `remove_ical_property`. -/
def removeIcalProperty (data name : Text) : Text :=
  match findText ('\n' :: name ++ [':']) data with
  | some (before, rest) => before ++ (rest.drop 1).dropWhile (· != '\n')
  | none => data

/-- Write a property that may be missing. -/
def writeIcalProperty (data name : Text) : Option Text → Text
  | some value => updateIcalProperty data name value
  | none => removeIcalProperty data name

variable (e : CalendarEvent DateTime)

/-- `update_summary`. -/
def updateSummary (summary : Text) : Except Abort (CalendarEvent DateTime) :=
  if summary.isEmpty then .error invalidEvent
  else .ok { e with
    fields := { e.fields with summary := summary }
    icalData := updateIcalProperty e.icalData "SUMMARY".toList summary }

/-- `update_description`. -/
def updateDescription (description : Option Text) : CalendarEvent DateTime :=
  { e with
    fields := { e.fields with description := description }
    icalData := writeIcalProperty e.icalData "DESCRIPTION".toList description }

/-- `update_location`. -/
def updateLocation (location : Option Text) : CalendarEvent DateTime :=
  { e with
    fields := { e.fields with location := location }
    icalData := writeIcalProperty e.icalData "LOCATION".toList location }

/-- The two times of the text. -/
def updateTimes (data startText endText : Text) : Text :=
  updateIcalProperty (updateIcalProperty data "DTSTART".toList startText) "DTEND".toList endText

/-- The text of a time in `update_time_range`. -/
def rangeText (allDay : Bool) (t : DateTime) : Text := if allDay then dateStamp t ++ "T000000Z".toList else utcStamp t

/-- `update_time_range`. -/
def updateTimeRange (startTime endTime : DateTime) : Except Abort (CalendarEvent DateTime) :=
  if endTime < startTime then .error invalidEvent
  else .ok { e with
    fields := { e.fields with startTime := startTime, endTime := endTime }
    icalData := updateTimes e.icalData (rangeText e.fields.allDay startTime) (rangeText e.fields.allDay endTime) }

/-- The text of a time in `update_all_day`. -/
def allDayText (allDay : Bool) (t : DateTime) : Text := if allDay then "VALUE=DATE:".toList ++ dateStamp t else utcStamp t

/-- `update_all_day`. -/
def updateAllDay (allDay : Bool) : CalendarEvent DateTime :=
  { e with
    fields := { e.fields with allDay := allDay }
    icalData := updateTimes e.icalData (allDayText allDay e.fields.startTime) (allDayText allDay e.fields.endTime) }

/-- `update_rrule`. -/
def updateRrule (rrule : Option Text) : Except Abort (CalendarEvent DateTime) :=
  if !ruleOk rrule then .error invalidEvent
  else .ok { e with
    fields := { e.fields with rrule := rrule }
    icalData := writeIcalProperty e.icalData "RRULE".toList rrule }

end OxiCloud.Calendar
