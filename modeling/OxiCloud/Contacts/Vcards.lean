import OxiCloud.Calendar.Times
import OxiCloud.Lib.LineReaders

/-! # Contacts as vCards

The two writers of vCards, `generate_vcard` for what is stored and `contact_to_vcard` for what is served, and
the reader `parse_vcard`. The writers put each value behind the name of its property as it is; only the type of
an email, an address or a phone number is written as a parameter value. The reader goes through the lines and
looks at how each begins.

Upper case is that of a character table, which is a parameter. -/

namespace OxiCloud.Contacts

open Lib.Texts
open Calendar (DateTime daysIn yearText push2 push4 utcStamp)

structure Email where
  email : Text
  type : Text
  isPrimary : Bool

structure Phone where
  number : Text
  type : Text
  isPrimary : Bool

structure Address where
  street : Option Text
  city : Option Text
  state : Option Text
  postalCode : Option Text
  country : Option Text
  type : Text
  isPrimary : Bool

structure NaiveDate where
  year : ℤ
  month : ℕ
  day : ℕ
  ok : -262143 ≤ year ∧ year ≤ 262142 ∧ 1 ≤ month ∧ month ≤ 12 ∧ 1 ≤ day ∧ day ≤ daysIn year month

structure Contact where
  uid : Text
  fullName : Option Text := none
  firstName : Option Text := none
  lastName : Option Text := none
  nickname : Option Text := none
  email : List Email := []
  phone : List Phone := []
  address : List Address := []
  organization : Option Text := none
  title : Option Text := none
  notes : Option Text := none
  photoUrl : Option Text := none
  birthday : Option NaiveDate := none
  updatedAt : DateTime

/-! ### Parameter values -/

/-- `encode_param_value`. -/
def encodeParamValue (raw : Text) : Text :=
  raw.flatMap fun c =>
    if c = '^' then "^^".toList else if c = '"' then "^'".toList else if c = '\n' then "^n".toList
    else if c = '\r' then [] else [c]

/-- `render_param_value`. -/
def renderParamValue (value : Text) : Text :=
  if value.any (fun c => c == ',' || c == ';' || c == ':') || value.any (fun c => c == '"' || c == '^' || c == '\n') then
    '"' :: (encodeParamValue value ++ ['"'])
  else value

/-- A type as a parameter value: `push_upper` and `render_param_value`. -/
def typeParam (upper : Char → Text) (type : Text) : Text := renderParamValue (type.flatMap upper)

/-! ### Writing -/

/-- The line of the names. -/
def namesLine (last first : Text) : Text := "N:".toList ++ last ++ [';'] ++ first ++ ";;;".toList

/-- A value with its type, behind a name. -/
def typedLine (name param value : Text) : Text := name ++ ";TYPE=".toList ++ param ++ [':'] ++ value

def emailLine (upper : Char → Text) (e : Email) : Text := typedLine "EMAIL".toList (typeParam upper e.type) e.email

/-- The types of `generate_vcard`. -/
def telType (type : Text) : Text :=
  if type = "mobile".toList then "CELL".toList
  else if type = "home".toList then "HOME".toList
  else if type = "work".toList then "WORK".toList
  else if type = "fax".toList then "FAX".toList
  else "OTHER".toList

def Address.value (a : Address) : Text :=
  ";;".toList ++ a.street.getD [] ++ [';'] ++ a.city.getD [] ++ [';'] ++ a.state.getD [] ++ [';'] ++
    a.postalCode.getD [] ++ [';'] ++ a.country.getD []

def addressLine (upper : Char → Text) (a : Address) : Text := typedLine "ADR".toList (typeParam upper a.type) a.value

/-- A property that may be missing. -/
def optionalLine (name : String) (value : Option Text) : List Text := value.toList.map (name.toList ++ ·)

def revLine (c : Contact) : Text := "REV:".toList ++ utcStamp c.updatedAt

/-- The `%Y%m%d` of chrono. -/
def NaiveDate.compact (d : NaiveDate) : Text := yearText d.year ++ push2 d.month ++ push2 d.day

/-- `compact_date`. -/
def compactDate (d : NaiveDate) : Option Text :=
  if 0 ≤ d.year ∧ d.year ≤ 9999 then
    some (push4 d.year.natAbs ++ ['-'] ++ push2 d.month ++ ['-'] ++ push2 d.day)
  else none

/-- The `%Y-%m-%d` of chrono. -/
def NaiveDate.dashed (d : NaiveDate) : Text := yearText d.year ++ ['-'] ++ push2 d.month ++ ['-'] ++ push2 d.day

/-- What `generate_vcard` writes, without the ends of the lines. -/
def generatedLines (upper : Char → Text) (c : Contact) : List Text :=
  ["BEGIN:VCARD".toList, "VERSION:3.0".toList, "UID:".toList ++ c.uid] ++ optionalLine "FN:" c.fullName ++
    [namesLine (c.lastName.getD []) (c.firstName.getD [])] ++ c.email.map (emailLine upper) ++
    c.phone.map (fun p => typedLine "TEL".toList (telType p.type) p.number) ++ c.address.map (addressLine upper) ++
    optionalLine "ORG:" c.organization ++ optionalLine "TITLE:" c.title ++ optionalLine "NOTE:" c.notes ++
    optionalLine "BDAY:" (c.birthday.map NaiveDate.compact) ++ [revLine c, "END:VCARD".toList]

/-- `generate_vcard`. -/
def generateVcard (upper : Char → Text) (c : Contact) : Text := linesText (generatedLines upper c)

/-- The names `contact_to_vcard` writes. -/
def servedNames : Option Text → Option Text → List Text
  | some last, some first => [namesLine last first]
  | some last, none => [namesLine last []]
  | none, some first => [namesLine [] first]
  | none, none => []

/-- The full name `contact_to_vcard` writes: one is made of the names, if there is none. -/
def servedFullName (c : Contact) : Text :=
  match c.fullName with
  | some v => v
  | none =>
    let made := strip (c.firstName.getD [] ++ [' '] ++ c.lastName.getD [])
    if made.isEmpty then "Unknown".toList else made

/-- `replace` of line feeds in notes. -/
def escapeFeeds (notes : Text) : Text := notes.flatMap fun c => if c = '\n' then "\\n".toList else [c]

/-- What `contact_to_vcard` writes, without the ends of the lines. -/
def servedLines (upper : Char → Text) (c : Contact) : List Text :=
  ["BEGIN:VCARD".toList, "VERSION:3.0".toList, "UID:".toList ++ c.uid] ++ servedNames c.lastName c.firstName ++
    ["FN:".toList ++ servedFullName c] ++ optionalLine "NICKNAME:" c.nickname ++ c.email.map (emailLine upper) ++
    c.phone.map (fun p => typedLine "TEL".toList (typeParam upper p.type) p.number) ++
    c.address.map (addressLine upper) ++ optionalLine "ORG:" c.organization ++ optionalLine "TITLE:" c.title ++
    optionalLine "NOTE:" (c.notes.map escapeFeeds) ++
    optionalLine "BDAY:" (c.birthday.map fun d => (compactDate d).getD d.dashed) ++
    optionalLine "PHOTO;VALUE=URI:" c.photoUrl ++ [revLine c, "END:VCARD".toList]

/-- `contact_to_vcard`. -/
def contactToVcard (upper : Char → Text) (c : Contact) : Text := linesText (servedLines upper c)

/-! ### Reading -/

/-- The lines the reader knows. -/
inductive VLine where
  | fullName (value : Text)
  | names (value : Text)
  | email (line : Text)
  | phone (line : Text)
  | address (line : Text)
  | organization (value : Text)
  | title (value : Text)
  | note (value : Text)
  | uid (value : Text)
  | other
  deriving DecidableEq

/-- The branches of the reader for a line that is none of the names. -/
def classifyRest (line : Text) : VLine :=
  if "EMAIL".toList.isPrefixOf line then .email line
  else if "TEL".toList.isPrefixOf line then .phone line
  else if "ADR".toList.isPrefixOf line then .address line
  else match cutStart "ORG:".toList line with
    | some v => .organization v
    | none => match cutStart "TITLE:".toList line with
      | some v => .title v
      | none => match cutStart "NOTE:".toList line with
        | some v => .note v
        | none => match cutStart "UID:".toList line with
          | some v => .uid v
          | none => .other

/-- The branch a line takes. -/
def classify (line : Text) : VLine :=
  match cutStart "FN:".toList line with
  | some v => .fullName v
  | none => match cutStart "N:".toList line with
    | some v => .names v
    | none => classifyRest line

/-- What stands behind the first colon. -/
def afterColon (line : Text) : Text := ((splitOnce ':' line).map Prod.snd).getD []

def homeOrWork (line : Text) : Text :=
  if containsCi "TYPE=HOME".toList line then "home".toList
  else if containsCi "TYPE=WORK".toList line then "work".toList
  else "other".toList

def phoneType (line : Text) : Text :=
  if containsCi "TYPE=CELL".toList line || containsCi "TYPE=MOBILE".toList line then "mobile".toList
  else if containsCi "TYPE=HOME".toList line then "home".toList
  else if containsCi "TYPE=WORK".toList line then "work".toList
  else if containsCi "TYPE=FAX".toList line then "fax".toList
  else "other".toList

/-- A value, unless it is empty. -/
def unlessEmpty (v : Text) : Option Text := if v.isEmpty then none else some v

def emailOf (line : Text) : Option Text := unlessEmpty (strip (afterColon line))

/-- The number, without the scheme of its URI. -/
def phoneOf (line : Text) : Option Text :=
  let value := strip (afterColon line)
  unlessEmpty ((cutStart "tel:".toList value).getD value)

/-- A component of an address. -/
def addressField (parts : List Text) (i : ℕ) : Option Text := (parts[i]?).bind fun s => unlessEmpty (strip s)

/-- The components of an address from the street on, unless they are all missing. -/
def addressOf (line : Text) : Option (List (Option Text)) :=
  let fields := [2, 3, 4, 5, 6].map (addressField ((afterColon line).splitOn ';'))
  if fields.all Option.isNone then none else some fields

/-- The names, last and first. -/
def namesOf (value : Text) : Option (Text × Text) :=
  match value.splitOn ';' with
  | last :: first :: _ => some (last, first)
  | _ => none

def Address.ofFields (fields : List (Option Text)) (type : Text) (isPrimary : Bool) : Address where
  street := fields.getD 0 none
  city := fields.getD 1 none
  state := fields.getD 2 none
  postalCode := fields.getD 3 none
  country := fields.getD 4 none
  type := type
  isPrimary := isPrimary

/-- One line of the reader. The first email, phone number and address are primary. -/
def Contact.read (c : Contact) : VLine → Contact
  | .fullName v => { c with fullName := some v }
  | .names v => match namesOf v with
    | some (last, first) => { c with lastName := some last, firstName := some first }
    | none => c
  | .email line => match emailOf line with
    | some v => { c with email := c.email ++ [⟨v, homeOrWork line, c.email.isEmpty⟩] }
    | none => c
  | .phone line => match phoneOf line with
    | some v => { c with phone := c.phone ++ [⟨v, phoneType line, c.phone.isEmpty⟩] }
    | none => c
  | .address line => match addressOf line with
    | some fields => { c with address := c.address ++ [.ofFields fields (homeOrWork line) c.address.isEmpty] }
    | none => c
  | .organization v => { c with organization := some v }
  | .title v => { c with title := some v }
  | .note v => { c with notes := some v }
  | .uid v => { c with uid := v }
  | .other => c

/-- `parse_vcard`. The contact it starts with has a fresh UID. The ends of the lines are trimmed with them. -/
def parseVcard (fresh : Text) (now : DateTime) (data : Text) : Contact :=
  (((data.splitOn '\n').map strip).map classify).foldl Contact.read { uid := fresh, updatedAt := now }

end OxiCloud.Contacts
