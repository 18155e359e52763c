import OxiCloud.Calendar.Times

/-! # Reading iCalendar texts

The parser behind `parse_first_vevent` and `parse_first_vtodo`. A text is cut into lines; a line that begins
with a blank continues the one before it. A content line is a property with its parameters and its value.
The properties are read into components: `BEGIN` opens one, `END` closes the innermost one, and a component
that is not allowed where it stands, a line that is no property and a missing end fail the calendar they are
in; reading goes on with the next header.

Only the properties of events and of tasks are kept; those of their alarms and of time zones are read over. -/

namespace OxiCloud.Calendar

open Lib.Texts

/-! ### Lines -/

/-- One line terminator of two characters is as good as one of one character. -/
def dropCr (l : Text) : Text := if l.getLast? = some '\r' then l.dropLast else l

def isBlank (c : Char) : Bool := c == ' ' || c == '\t'

/-- The content lines of lines, and what stands before the first of them to continue an earlier one. -/
def unfoldLines : List Text → Text × List Text
  | [] => ([], [])
  | [] :: ls => unfoldLines ls
  | (c :: l) :: ls =>
    if isBlank c then (trimEnd isSpace l ++ (unfoldLines ls).1, (unfoldLines ls).2)
    else ([], (strip (c :: l) ++ (unfoldLines ls).1) :: (unfoldLines ls).2)

/-- The content lines of a text. -/
def contentLines (s : Text) : List Text :=
  (unfoldLines ((s.splitOn '\n').map dropCr)).2.filter fun l => !l.isEmpty

/-! ### Properties -/

/-- A property. Names are in upper case. -/
structure Property where
  name : Text
  params : List (Text × List Text)
  value : Option Text
  deriving DecidableEq

/-- One value of a parameter, in quotes or up to the next delimiter. -/
def paramValue : Text → Option (Text × Text)
  | '"' :: s => splitOnce '"' s
  | s =>
    match s.span fun c => c != ';' && c != ':' && c != ',' with
    | (_, []) => none
    | (v, rest) => some (v, rest)

/-- The values of a parameter. The number bounds how many there can be. -/
def paramValues : ℕ → Text → Option (List Text × Text)
  | 0, _ => none
  | n + 1, s => do
    match ← paramValue s with
    | (v, ',' :: rest) => (paramValues n rest).map fun x => (v :: x.1, x.2)
    | (v, rest) => some ([v], rest)

/-- The parameters of a property. -/
def parseParams : ℕ → Text → Option (List (Text × List Text) × Text)
  | n + 1, ';' :: s => do
    let (key, s) ← splitOnce '=' s
    if key.isEmpty then none
    else do
      let (vs, s) ← paramValues (n + 1) s
      (parseParams n s).map fun x => ((key.map Char.toUpper, vs) :: x.1, x.2)
  | _, s => some ([], s)

/-- A content line as a property. -/
def parseProperty (line : Text) : Option Property :=
  match line.span fun c => c != ';' && c != ':' with
  | ([], _) => none
  | (name, rest) =>
    match parseParams line.length rest with
    | some (params, ':' :: value) =>
      some ⟨name.map Char.toUpper, params, if value.isEmpty then none else some value⟩
    | _ => none

/-! ### Components -/

inductive Component where
  | calendar
  | event
  | todo
  | journal
  | freeBusy
  | timeZone
  | alarm
  /-- `STANDARD` and `DAYLIGHT`. -/
  | observance
  deriving DecidableEq

/-- `add_sub_component`: the component a name opens inside another one. -/
def subComponent (outer : Component) (name : Text) : Option Component :=
  match outer with
  | .calendar =>
    if name = "VALARM".toList then some .alarm
    else if name = "VEVENT".toList then some .event
    else if name = "VTODO".toList then some .todo
    else if name = "VJOURNAL".toList then some .journal
    else if name = "VFREEBUSY".toList then some .freeBusy
    else if name = "VTIMEZONE".toList then some .timeZone
    else none
  | .event | .todo => if name = "VALARM".toList then some .alarm else none
  | .timeZone => if name = "STANDARD".toList ∨ name = "DAYLIGHT".toList then some .observance else none
  | _ => none

/-- The events and the tasks of a calendar, each with its properties. -/
structure IcalCalendar where
  events : List (List Property) := []
  todos : List (List Property) := []
  deriving DecidableEq

/-- Where the parser is: the open components, the innermost first, the properties of the event or task among
them, the calendar so far and the calendars before it. -/
structure Reading where
  stack : List Component := []
  current : List Property := []
  calendar : IcalCalendar := {}
  done : List IcalCalendar := []
  deriving DecidableEq

namespace Reading

/-- An error: the calendar is given up. -/
def fail (s : Reading) : Reading := { done := s.done }

def opened (s : Reading) (c : Component) : Reading :=
  match c with
  | .event | .todo => { s with stack := c :: s.stack, current := [] }
  | _ => { s with stack := c :: s.stack }

def closed (s : Reading) (c : Component) (rest : List Component) : Reading :=
  match c with
  | .event => { s with stack := rest, calendar := { s.calendar with events := s.calendar.events ++ [s.current] } }
  | .todo => { s with stack := rest, calendar := { s.calendar with todos := s.calendar.todos ++ [s.current] } }
  | .calendar => { done := s.done ++ [s.calendar] }
  | _ => { s with stack := rest }

def added (s : Reading) (c : Component) (p : Property) : Reading :=
  match c with
  | .event | .todo => { s with current := s.current ++ [p] }
  | _ => s

/-- A property inside of components. -/
def inside (s : Reading) (c : Component) (rest : List Component) (p : Property) : Reading :=
  if p.name = "END".toList then s.closed c rest
  else if p.name = "BEGIN".toList then
    match p.value.bind (subComponent c) with
    | some c' => s.opened c'
    | none => s.fail
  else s.added c p

/-- A property between calendars: only a header opens one. -/
def between (s : Reading) (p : Property) : Reading :=
  if p = ⟨"BEGIN".toList, [], some "VCALENDAR".toList⟩ then { stack := [.calendar], done := s.done } else s

/-- One content line. -/
def step (s : Reading) (line : Text) : Reading :=
  match parseProperty line with
  | none => s.fail
  | some p =>
    match s.stack with
    | [] => s.between p
    | c :: rest => s.inside c rest p

end Reading

/-- Read content lines. -/
def readLines (lines : List Text) : Reading := lines.foldl Reading.step {}

/-- `parse_first_vevent`: the first event of the first calendar that has one. -/
def parseFirstVevent (data : Text) : Option (List Property) :=
  (readLines (contentLines data)).done.findSome? fun c => c.events.head?

/-- `parse_first_vtodo`. -/
def parseFirstVtodo (data : Text) : Option (List Property) :=
  (readLines (contentLines data)).done.findSome? fun c => c.todos.head?

/-! ### Values of properties -/

/-- The first property of a name. -/
def findProp (props : List Property) (name : Text) : Option Property := props.find? fun p => eqIgnoreCase p.name name

/-- The value of a property without surrounding blanks, if something is left of it. -/
def Property.trimmed (p : Property) : Option Text := (p.value.map strip).filter fun v => !v.isEmpty

/-- `ical_prop_value`. -/
def icalPropValue (props : List Property) (name : Text) : Option Text := (findProp props name).bind Property.trimmed

/-- The values of the last parameter of a name. -/
def Property.param (p : Property) (name : Text) : Option (List Text) :=
  (p.params.reverse.find? fun x => eqIgnoreCase x.1 name).map Prod.snd

/-- The parameter `VALUE` is `DATE`. -/
def Property.isDate (p : Property) : Bool :=
  ((p.param "VALUE".toList).map fun vs => vs.any fun v => eqIgnoreCase v "DATE".toList).getD false

/-- The parameter `TZID`, unless it is blank. -/
def Property.tzid (p : Property) : Option Text :=
  (((p.param "TZID".toList).bind List.head?).map strip).filter fun v => !v.isEmpty

/-- `ical_prop_value_date_tzid`. -/
def icalPropValueDateTzid (props : List Property) (name : Text) : Option (Text × Bool × Option Text) :=
  (findProp props name).bind fun p => p.trimmed.map fun v => (v, p.isDate, p.tzid)

end OxiCloud.Calendar
