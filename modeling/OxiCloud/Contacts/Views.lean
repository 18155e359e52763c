import OxiCloud.Contacts.Vcards

/-! # What is read of a vCard

A contact is compared with the contact that is read from its vCard by its `View`: the UID, the names, the email
addresses, the phone numbers, the components of the addresses, the organization, the title and the notes. A
line changes a view as it changes the contact (`view_read`), so the view that is read is the one that the lines
show (`View.Shown.read`).

Nothing the reader finds has a line feed (`feedless_parse`). Without line feeds the lines are those that were
written, and the view that is read is known (`parse_generated`, `parse_served`). -/

namespace OxiCloud.Contacts

open Lib.Texts List Option
open Calendar (DateTime digit isDigit_digit yearText push2 push4 utcStamp chronoStamp compactIcalUtc dateStamp
  clockStamp)

/-! ### Views -/

def Address.fields (a : Address) : List (Option Text) := [a.street, a.city, a.state, a.postalCode, a.country]

/-- What of a contact is compared. -/
@[ext] structure View where
  uid : Text
  fullName : Option Text
  firstName : Option Text
  lastName : Option Text
  emails : List Text
  phones : List Text
  addresses : List (List (Option Text))
  organization : Option Text
  title : Option Text
  notes : Option Text
  deriving DecidableEq

def Contact.view (c : Contact) : View where
  uid := c.uid
  fullName := c.fullName
  firstName := c.firstName
  lastName := c.lastName
  emails := c.email.map Email.email
  phones := c.phone.map Phone.number
  addresses := c.address.map Address.fields
  organization := c.organization
  title := c.title
  notes := c.notes

namespace VLine

@[simp] def asUid : VLine → Option Text
  | .uid v => some v
  | _ => none

@[simp] def asFullName : VLine → Option Text
  | .fullName v => some v
  | _ => none

@[simp] def asNames : VLine → Option (Text × Text)
  | .names v => namesOf v
  | _ => none

@[simp] def asEmail : VLine → Option Text
  | .email line => emailOf line
  | _ => none

@[simp] def asPhone : VLine → Option Text
  | .phone line => phoneOf line
  | _ => none

@[simp] def asAddress : VLine → Option (List (Option Text))
  | .address line => addressOf line
  | _ => none

@[simp] def asOrganization : VLine → Option Text
  | .organization v => some v
  | _ => none

@[simp] def asTitle : VLine → Option Text
  | .title v => some v
  | _ => none

@[simp] def asNotes : VLine → Option Text
  | .note v => some v
  | _ => none

end VLine

/-- What a line does to the view. -/
def View.read (v : View) (l : VLine) : View where
  uid := l.asUid.getD v.uid
  fullName := l.asFullName.or v.fullName
  firstName := (l.asNames.map Prod.snd).or v.firstName
  lastName := (l.asNames.map Prod.fst).or v.lastName
  emails := v.emails ++ l.asEmail.toList
  phones := v.phones ++ l.asPhone.toList
  addresses := v.addresses ++ l.asAddress.toList
  organization := l.asOrganization.or v.organization
  title := l.asTitle.or v.title
  notes := l.asNotes.or v.notes

variable {line v : Text} {α : Type}

theorem fields_ofFields {fields : List (Option Text)} (h : addressOf line = some fields) (t : Text) (b : Bool) :
    (Address.ofFields fields t b).fields = fields := by
  unfold addressOf at h
  dsimp only at h
  split_ifs at h
  rw [← Option.some.inj h]
  rfl

theorem view_read (c : Contact) (l : VLine) : (c.read l).view = c.view.read l := by
  rcases l with v | v | line | line | line | v | v | v | v | _
  case names => rcases h : namesOf v with _ | ⟨last, first⟩ <;> simp [Contact.read, Contact.view, View.read, h]
  case email => rcases h : emailOf line with _ | w <;> simp [Contact.read, Contact.view, View.read, h]
  case phone => rcases h : phoneOf line with _ | w <;> simp [Contact.read, Contact.view, View.read, h]
  case address =>
    rcases h : addressOf line with _ | fields
    · simp [Contact.read, Contact.view, View.read, h]
    · simp [Contact.read, Contact.view, View.read, h, fields_ofFields h]
  all_goals simp [Contact.read, Contact.view, View.read]

theorem view_foldl (ls : List VLine) (c : Contact) :
    (ls.foldl Contact.read c).view = ls.foldl View.read c.view := by
  induction ls generalizing c with
  | nil => rfl
  | cons l ls ih => rw [foldl_cons, foldl_cons, ih, view_read]

/-- Lines that show a view: each of its values, and nothing else. -/
structure View.Shown (v : View) (ls : List VLine) : Prop where
  uid : ls.filterMap VLine.asUid = [v.uid]
  fullName : ls.filterMap VLine.asFullName = v.fullName.toList
  lastName : ls.filterMap (fun l => l.asNames.map Prod.fst) = v.lastName.toList
  firstName : ls.filterMap (fun l => l.asNames.map Prod.snd) = v.firstName.toList
  emails : ls.filterMap VLine.asEmail = v.emails
  phones : ls.filterMap VLine.asPhone = v.phones
  addresses : ls.filterMap VLine.asAddress = v.addresses
  organization : ls.filterMap VLine.asOrganization = v.organization.toList
  title : ls.filterMap VLine.asTitle = v.title.toList
  notes : ls.filterMap VLine.asNotes = v.notes.toList

variable {ls : List VLine} {o : Option α}

theorem foldl_shown {f : View → Option α} {g : VLine → Option α}
    (hf : ∀ v l, f (v.read l) = (g l).or (f v)) (h : ls.filterMap g = o.toList) {v : View}
    (hv : f v = none) : f (ls.foldl View.read v) = o := by
  rw [foldl_latest hf, h, hv]
  rcases o with _ | x <;> rfl

/-- A view that is shown is read, by a reader that starts with nothing but a UID. -/
theorem View.Shown.read {v : View} (h : v.Shown ls) (fresh : Text) (now : DateTime) :
    (ls.foldl Contact.read { uid := fresh, updatedAt := now }).view = v := by
  rw [view_foldl]
  have huid : ∀ (v : View) (l : VLine), some (v.read l).uid = l.asUid.or (some v.uid) := by
    intro v l
    show some (l.asUid.getD v.uid) = _
    rcases l.asUid with _ | w <;> rfl
  ext1
  · have hlast := foldl_latest (f := fun v : View => some v.uid) huid ls (Contact.view { uid := fresh, updatedAt := now })
    rw [h.uid] at hlast
    exact Option.some.inj hlast
  · exact foldl_shown (f := View.fullName) (fun _ _ => rfl) h.fullName rfl
  · exact foldl_shown (f := View.firstName) (fun _ _ => rfl) h.firstName rfl
  · exact foldl_shown (f := View.lastName) (fun _ _ => rfl) h.lastName rfl
  · rw [foldl_collect (f := View.emails) (fun _ _ => rfl), h.emails]
    rfl
  · rw [foldl_collect (f := View.phones) (fun _ _ => rfl), h.phones]
    rfl
  · rw [foldl_collect (f := View.addresses) (fun _ _ => rfl), h.addresses]
    rfl
  · exact foldl_shown (f := View.organization) (fun _ _ => rfl) h.organization rfl
  · exact foldl_shown (f := View.title) (fun _ _ => rfl) h.title rfl
  · exact foldl_shown (f := View.notes) (fun _ _ => rfl) h.notes rfl

/-! ### Line feeds -/

/-- A view without line feeds. -/
structure View.Feedless (v : View) : Prop where
  uid : '\n' ∉ v.uid
  fullName : ∀ w ∈ v.fullName, '\n' ∉ w
  firstName : ∀ w ∈ v.firstName, '\n' ∉ w
  lastName : ∀ w ∈ v.lastName, '\n' ∉ w
  emails : ∀ w ∈ v.emails, '\n' ∉ w
  phones : ∀ w ∈ v.phones, '\n' ∉ w
  addresses : ∀ fields ∈ v.addresses, ∀ w, some w ∈ fields → '\n' ∉ w
  organization : ∀ w ∈ v.organization, '\n' ∉ w
  title : ∀ w ∈ v.title, '\n' ∉ w
  notes : ∀ w ∈ v.notes, '\n' ∉ w

/-- What a line carries. -/
def VLine.text : VLine → Text
  | .fullName v | .names v | .email v | .phone v | .address v | .organization v | .title v | .note v | .uid v => v
  | .other => []

theorem text_classify (line : Text) : (classify line).text ⊆ line := by
  unfold classify classifyRest
  split
  · exact cutStart_subset ‹_›
  split
  · exact cutStart_subset ‹_›
  split_ifs
  · exact List.Subset.refl _
  · exact List.Subset.refl _
  · exact List.Subset.refl _
  split
  · exact cutStart_subset ‹_›
  split
  · exact cutStart_subset ‹_›
  split
  · exact cutStart_subset ‹_›
  split
  · exact cutStart_subset ‹_›
  · exact nil_subset _

theorem afterColon_subset (line : Text) : afterColon line ⊆ line := by
  unfold afterColon
  rcases h : splitOnce ':' line with _ | ⟨a, b⟩
  · exact nil_subset _
  · exact splitOnce_subset h

theorem unlessEmpty_eq_some {w : Text} : unlessEmpty v = some w ↔ v = w ∧ w ≠ [] := by
  unfold unlessEmpty
  rcases v with _ | ⟨c, v⟩
  · simp [eq_comm]
  · rw [if_neg (by simp), Option.some.injEq]
    exact ⟨fun h => ⟨h, h ▸ cons_ne_nil c v⟩, fun h => h.1⟩

theorem emailOf_eq_some : emailOf line = some v ↔ strip (afterColon line) = v ∧ v ≠ [] :=
  unlessEmpty_eq_some

theorem phoneOf_eq_some : phoneOf line = some v ↔
      (cutStart "tel:".toList (strip (afterColon line))).getD (strip (afterColon line)) = v ∧ v ≠ [] :=
  unlessEmpty_eq_some

theorem addressField_eq_some {parts : List Text} {i : ℕ} :
    addressField parts i = some v ↔ ∃ s, parts[i]? = some s ∧ strip s = v ∧ v ≠ [] := by
  simp only [addressField, bind_eq_some_iff, unlessEmpty_eq_some]

theorem namesOf_eq_some {value a b : Text} (h : namesOf value = some (a, b)) :
    a ∈ value.splitOn ';' ∧ b ∈ value.splitOn ';' := by
  unfold namesOf at h
  split at h
  · rename_i last first rest heq
    obtain ⟨rfl, rfl⟩ := Prod.mk.inj (Option.some.inj h)
    rw [heq]
    exact ⟨mem_cons_self, mem_cons_of_mem _ mem_cons_self⟩
  · exact nomatch h

/-- The components that are read are pieces, trimmed and not empty. -/
theorem addressOf_eq_some {fields : List (Option Text)} (h : addressOf line = some fields) :
    (∃ v, some v ∈ fields) ∧
      ∀ v, some v ∈ fields → ∃ s ∈ (afterColon line).splitOn ';', strip s = v ∧ v ≠ [] := by
  unfold addressOf at h
  dsimp only at h
  split_ifs at h with hall
  obtain rfl := Option.some.inj h
  constructor
  · simp only [List.all_eq_true, not_forall] at hall
    obtain ⟨o, ho, hne⟩ := hall
    obtain ⟨v, rfl⟩ := ne_none_iff_exists'.mp (by simpa using hne)
    exact ⟨v, ho⟩
  · intro v hv
    obtain ⟨i, -, hi⟩ := List.mem_map.mp hv
    obtain ⟨s, hs, hsv⟩ := addressField_eq_some.mp hi
    exact ⟨s, mem_of_getElem? hs, hsv⟩

theorem forall_mem_or {P : α → Prop} {o' : Option α} (h : ∀ w ∈ o, P w) (h' : ∀ w ∈ o', P w) :
    ∀ w ∈ o.or o', P w := by
  rcases o with _ | x
  · exact h'
  · exact h

theorem forall_mem_append_toList {P : α → Prop} {ls : List α} (h : ∀ w ∈ ls, P w)
    (h' : ∀ w ∈ o, P w) : ∀ w ∈ ls ++ o.toList, P w :=
  forall_mem_append.mpr ⟨h, fun w hw => h' w (mem_toList.mp hw)⟩

section
variable {l : VLine} {c : Char}

variable {w : Text}

theorem VLine.text_of
    (h : l.asFullName = some w ∨ l.asOrganization = some w ∨ l.asTitle = some w ∨ l.asNotes = some w) :
    l.text = w := by
  cases l <;> simpa [VLine.text] using h

theorem VLine.names_subset {a b : Text} (h : l.asNames = some (a, b)) : a ⊆ l.text ∧ b ⊆ l.text := by
  cases l with
  | names v =>
    obtain ⟨ha, hb⟩ := namesOf_eq_some h
    exact ⟨(of_mem_splitOn ha).2, (of_mem_splitOn hb).2⟩
  | _ => exact nomatch h

theorem VLine.email_subset (h : l.asEmail = some w) : w ⊆ l.text := by
  cases l with
  | email line =>
    obtain ⟨rfl, -⟩ := emailOf_eq_some.mp h
    exact List.Subset.trans (strip_subset _) (afterColon_subset line)
  | _ => exact nomatch h

theorem VLine.phone_subset (h : l.asPhone = some w) : w ⊆ l.text := by
  cases l with
  | phone line =>
    obtain ⟨rfl, -⟩ := phoneOf_eq_some.mp h
    have hstrip := List.Subset.trans (strip_subset _) (afterColon_subset line)
    rcases hcut : cutStart "tel:".toList (strip (afterColon line)) with _ | r
    · exact hstrip
    · exact List.Subset.trans (cutStart_subset hcut) hstrip
  | _ => exact nomatch h

theorem VLine.address_subset {fields : List (Option Text)} (h : l.asAddress = some fields)
    (hw : some w ∈ fields) : w ⊆ l.text := by
  cases l with
  | address line =>
    obtain ⟨s, hs, rfl, -⟩ := (addressOf_eq_some h).2 w hw
    exact List.Subset.trans (strip_subset _) (List.Subset.trans (of_mem_splitOn hs).2 (afterColon_subset line))
  | _ => exact nomatch h

end

theorem View.Feedless.read {v : View} (h : v.Feedless) {l : VLine} (hl : '\n' ∉ l.text) :
    (v.read l).Feedless where
  uid := by
    cases l with
    | uid w => exact hl
    | _ => exact h.uid
  fullName := forall_mem_or (fun w hw => VLine.text_of (.inl hw) ▸ hl) h.fullName
  firstName := forall_mem_or (fun w hw => by
    obtain ⟨n, hn, rfl⟩ := map_eq_some_iff.mp hw
    exact fun hc => hl ((VLine.names_subset hn).2 hc)) h.firstName
  lastName := forall_mem_or (fun w hw => by
    obtain ⟨n, hn, rfl⟩ := map_eq_some_iff.mp hw
    exact fun hc => hl ((VLine.names_subset hn).1 hc)) h.lastName
  emails := forall_mem_append_toList h.emails fun _ hw hc => hl (VLine.email_subset hw hc)
  phones := forall_mem_append_toList h.phones fun _ hw hc => hl (VLine.phone_subset hw hc)
  addresses := forall_mem_append_toList h.addresses fun _ hf _ hw hc => hl (VLine.address_subset hf hw hc)
  organization := forall_mem_or (fun w hw => VLine.text_of (.inr (.inl hw)) ▸ hl) h.organization
  title := forall_mem_or (fun w hw => VLine.text_of (.inr (.inr (.inl hw))) ▸ hl) h.title
  notes := forall_mem_or (fun w hw => VLine.text_of (.inr (.inr (.inr hw))) ▸ hl) h.notes

theorem View.Feedless.foldl {v : View} (h : v.Feedless) (hls : ∀ l ∈ ls, '\n' ∉ l.text) :
    (ls.foldl View.read v).Feedless := by
  induction ls generalizing v with
  | nil => exact h
  | cons l ls ih =>
    obtain ⟨hl, hls⟩ := forall_mem_cons.mp hls
    exact ih (h.read hl) hls

/-- **Nothing that is read has a line feed.** -/
theorem feedless_parse {fresh : Text} (hfresh : '\n' ∉ fresh) (now : DateTime) (data : Text) :
    (parseVcard fresh now data).view.Feedless := by
  rw [parseVcard, view_foldl]
  have hstart : (Contact.view { uid := fresh, updatedAt := now }).Feedless := by
    constructor <;> simp [Contact.view, hfresh]
  refine hstart.foldl fun l hl => ?_
  rw [List.map_map] at hl
  obtain ⟨piece, hpiece, rfl⟩ := List.mem_map.mp hl
  exact fun hc => (of_mem_splitOn hpiece).1 (strip_subset _ (text_classify _ hc))

/-! ### What is read of what was written -/

def namesValue (last first : Text) : Text := last ++ ';' :: (first ++ ";;;".toList)

/-- The line of an email address as it is read. -/
def readEmail (upper : Char → Text) (e : Email) : Text :=
  typedLine "EMAIL".toList (typeParam upper e.type) (trimEnd isSpace e.email)

/-- The line of a phone number as it is read. -/
def readPhone (tel : Phone → Text) (p : Phone) : Text := typedLine "TEL".toList (tel p) (trimEnd isSpace p.number)

/-- The line of an address as it is read. -/
def readAddress (upper : Char → Text) (a : Address) : Text :=
  typedLine "ADR".toList (typeParam upper a.type) (trimEnd isSpace a.value)

/-- What is read of the lines of a contact, with the full name, the names and the types of phone numbers as they
are written. -/
def readView (upper : Char → Text) (fullName : Option Text) (names : Option (Text × Text)) (tel : Phone → Text)
    (c : Contact) : View where
  uid := trimEnd isSpace c.uid
  fullName := fullName.map (trimEnd isSpace)
  firstName := (names.bind fun n => namesOf (namesValue n.1 n.2)).map Prod.snd
  lastName := (names.bind fun n => namesOf (namesValue n.1 n.2)).map Prod.fst
  emails := c.email.filterMap fun e => emailOf (readEmail upper e)
  phones := c.phone.filterMap fun p => phoneOf (readPhone tel p)
  addresses := c.address.filterMap fun a => addressOf (readAddress upper a)
  organization := c.organization.map (trimEnd isSpace)
  title := c.title.map (trimEnd isSpace)
  notes := c.notes.map (trimEnd isSpace)

/-- The branch a written line takes. -/
def lineOf (line : Text) : VLine := classify (strip line)

variable {f : Text → VLine}

theorem lineOf_tag {t : Text} (hhead : isSpace (t.headD ' ') = false)
    (hlast : isSpace (t.getLastD ' ') = false) (hf : ∀ v, classify (t ++ v) = f v) (v : Text) :
    lineOf (t ++ v) = f (trimEnd isSpace v) := by
  rw [lineOf, strip_tag hhead hlast, hf]

variable {name : Text}

theorem strip_typedLine (hname : isSpace (name.headD ' ') = false) (param value : Text) :
    strip (typedLine name param value) = typedLine name param (trimEnd isSpace value) := by
  refine strip_tag ?_ (by rw [getLastD_concat]; decide) value
  rcases name with _ | ⟨a, m⟩
  · exact absurd hname (by decide)
  · exact hname

theorem map_typedLine (hname : isSpace (name.headD ' ') = false)
    (hf : ∀ param value, classify (typedLine name param value) = f (typedLine name param value))
    (ls : List α) (param value : α → Text) : (ls.map fun a => typedLine name (param a) (value a)).map lineOf =
      ls.map fun a => f (typedLine name (param a) (trimEnd isSpace (value a))) := by
  rw [List.map_map]
  refine map_congr_left fun a _ => ?_
  rw [Function.comp_apply, lineOf, strip_typedLine hname, hf]

theorem lineOf_names (last first : Text) :
    lineOf (namesLine last first) = .names (namesValue last first) := by
  have hline : namesLine last first = "N:".toList ++ namesValue last first := by
    rw [namesLine, namesValue, append_assoc, append_assoc, append_assoc]
    rfl
  have hend : trimEnd isSpace (namesValue last first) = namesValue last first := by
    have h := trimEnd_concat (last ++ ';' :: (first ++ [';', ';'])) [] (c := ';') (by decide)
    simpa [namesValue, trimEnd] using h
  have htag := lineOf_tag (t := "N:".toList) (f := .names) (by decide) (by decide) (fun _ => rfl) (namesValue last first)
  rw [hline, htag, hend]

theorem map_optionalLine (name : String) (hhead : isSpace (name.toList.headD ' ') = false)
    (hlast : isSpace (name.toList.getLastD ' ') = false)
    (hf : ∀ v, classify (name.toList ++ v) = f v) (o : Option Text) :
    (optionalLine name o).map lineOf = (o.map fun v => f (trimEnd isSpace v)).toList := by
  rcases o with _ | v
  · rfl
  · exact congrArg (fun l => [l]) (lineOf_tag hhead hlast hf v)

theorem map_optionalTags (o : Option Text) :
    (optionalLine "ORG:" o).map lineOf = (o.map fun v => VLine.organization (trimEnd isSpace v)).toList ∧
      (optionalLine "TITLE:" o).map lineOf = (o.map fun v => VLine.title (trimEnd isSpace v)).toList ∧
      (optionalLine "NOTE:" o).map lineOf = (o.map fun v => VLine.note (trimEnd isSpace v)).toList ∧
      (optionalLine "BDAY:" o).map lineOf = (o.map fun _ => VLine.other).toList :=
  ⟨map_optionalLine _ (by decide) (by decide) (fun _ => rfl) o, map_optionalLine _ (by decide) (by decide) (fun _ => rfl) o,
    map_optionalLine _ (by decide) (by decide) (fun _ => rfl) o,
    map_optionalLine _ (f := fun _ => .other) (by decide) (by decide) (fun _ => rfl) o⟩

variable (upper : Char → Text) (c : Contact)

theorem map_begin : ["BEGIN:VCARD".toList, "VERSION:3.0".toList, "UID:".toList ++ c.uid].map lineOf =
    [.other, .other, .uid (trimEnd isSpace c.uid)] := by
  have hbegin : lineOf "BEGIN:VCARD".toList = .other := by decide
  have hversion : lineOf "VERSION:3.0".toList = .other := by decide
  have huid : lineOf ("UID:".toList ++ c.uid) = .uid (trimEnd isSpace c.uid) :=
    lineOf_tag (by decide) (by decide) (fun _ => rfl) _
  rw [map_cons, map_cons, map_cons, map_nil, hbegin, hversion, huid]

theorem map_end : [revLine c, "END:VCARD".toList].map lineOf = [.other, .other] := by
  have hrev : lineOf (revLine c) = .other := lineOf_tag (f := fun _ => .other) (by decide) (by decide) (fun _ => rfl) _
  have hend : lineOf "END:VCARD".toList = .other := by decide
  rw [map_cons, map_cons, map_nil, hrev, hend]

theorem map_emailLine :
    (c.email.map (emailLine upper)).map lineOf = c.email.map fun e => VLine.email (readEmail upper e) :=
  map_typedLine (by decide) (fun _ _ => rfl) c.email _ _

theorem map_phoneLine (tel : Phone → Text) :
    (c.phone.map fun p => typedLine "TEL".toList (tel p) p.number).map lineOf =
      c.phone.map fun p => VLine.phone (readPhone tel p) :=
  map_typedLine (by decide) (fun _ _ => rfl) c.phone _ _

theorem map_addressLine : (c.address.map (addressLine upper)).map lineOf =
    c.address.map fun a => VLine.address (readAddress upper a) :=
  map_typedLine (by decide) (fun _ _ => rfl) c.address _ _

theorem shown_generated :
    (readView upper c.fullName (some (c.lastName.getD [], c.firstName.getD [])) (fun p => telType p.type) c).Shown
      ((generatedLines upper c).map lineOf) := by
  have hnames : [namesLine (c.lastName.getD []) (c.firstName.getD [])].map lineOf =
      [.names (namesValue (c.lastName.getD []) (c.firstName.getD []))] := congrArg (fun l => [l]) (lineOf_names _ _)
  simp only [generatedLines, map_append, map_begin, hnames, map_emailLine, map_phoneLine, map_addressLine, map_end,
    map_optionalLine "FN:" (f := .fullName) (by decide) (by decide) fun _ => rfl, map_optionalTags]
  constructor
  all_goals
    simp [readView, filterMap_cons_toList, filterMap_append, filterMap_map, Function.comp_def, filterMap_toList,
      bind_some_eq_map, bind_map]

/-- The names that are served. -/
def servedPair : Option Text → Option Text → Option (Text × Text)
  | none, none => none
  | last, first => some (last.getD [], first.getD [])

theorem lines_servedNames (last first : Option Text) :
    (servedNames last first).map lineOf = ((servedPair last first).map fun n => VLine.names (namesValue n.1 n.2)).toList := by
  rcases last with _ | last <;> rcases first with _ | first
  · rfl
  all_goals exact congrArg (fun l => [l]) (lineOf_names _ _)

theorem escapeFeeds_of_not_mem (h : '\n' ∉ v) : escapeFeeds v = v := by
  induction v with
  | nil => rfl
  | cons x v ih =>
    rw [mem_cons, not_or] at h
    rw [escapeFeeds, flatMap_cons, if_neg (Ne.symm h.1)]
    exact congrArg (x :: ·) (ih h.2)

theorem shown_served (hnotes : ∀ v ∈ c.notes, '\n' ∉ v) :
    (readView upper (some (servedFullName c)) (servedPair c.lastName c.firstName) (fun p => typeParam upper p.type) c).Shown
      ((servedLines upper c).map lineOf) := by
  have hname : ["FN:".toList ++ servedFullName c].map lineOf = [.fullName (trimEnd isSpace (servedFullName c))] :=
    congrArg (fun l => [l]) (lineOf_tag (by decide) (by decide) (fun _ => rfl) _)
  have hraw : c.notes.map escapeFeeds = c.notes := by
    rcases h : c.notes with _ | v
    · rfl
    · exact congrArg some (escapeFeeds_of_not_mem (hnotes v h))
  simp only [servedLines, hraw, map_append, map_begin, lines_servedNames, hname, map_emailLine, map_phoneLine,
    map_addressLine, map_end, map_optionalLine "NICKNAME:" (f := fun _ => .other) (by decide) (by decide) fun _ => rfl,
    map_optionalLine "PHOTO;VALUE=URI:" (f := fun _ => .other) (by decide) (by decide) fun _ => rfl, map_optionalTags]
  constructor
  all_goals
    simp [readView, filterMap_cons_toList, filterMap_append, filterMap_map, Function.comp_def, filterMap_toList,
      bind_some_eq_map, bind_map, Option.map_bind]

/-! ### Writing without line feeds -/

theorem ne_feed_of_isDigit {x : Char} (h : x.isDigit = true) : x ≠ '\n' := by
  rintro rfl
  exact absurd h (by decide)

theorem feed_not_mem_push2 (n : ℕ) : '\n' ∉ push2 n := by
  simp only [push2, mem_cons, not_mem_nil, or_false, not_or]
  exact ⟨(ne_feed_of_isDigit (isDigit_digit _)).symm, (ne_feed_of_isDigit (isDigit_digit _)).symm⟩

theorem feed_not_mem_push4 (n : ℕ) : '\n' ∉ push4 n := by
  simp only [push4, mem_cons, not_mem_nil, or_false, not_or]
  exact ⟨(ne_feed_of_isDigit (isDigit_digit _)).symm, (ne_feed_of_isDigit (isDigit_digit _)).symm,
    (ne_feed_of_isDigit (isDigit_digit _)).symm, (ne_feed_of_isDigit (isDigit_digit _)).symm⟩

theorem feed_not_mem_yearText (year : ℤ) : '\n' ∉ yearText year := by
  have hdigits : '\n' ∉ Nat.toDigits 10 year.natAbs := fun h =>
    ne_feed_of_isDigit (Nat.isDigit_of_mem_toDigits (by decide) (by decide) h) rfl
  unfold yearText
  split_ifs <;> simp [feed_not_mem_push4, hdigits]

theorem feed_not_mem_utcStamp (d : DateTime) : '\n' ∉ utcStamp d := by
  unfold utcStamp compactIcalUtc
  split_ifs <;> simp [chronoStamp, dateStamp, clockStamp, feed_not_mem_push2, feed_not_mem_push4, feed_not_mem_yearText]

theorem feed_not_mem_renderParamValue (v : Text) : '\n' ∉ renderParamValue v := by
  have hencode : '\n' ∉ encodeParamValue v := by
    simp only [encodeParamValue, mem_flatMap, not_exists, not_and]
    intro x _
    split_ifs with h₁ h₂ h₃ h₄
    · decide
    · decide
    · decide
    · decide
    · simpa using Ne.symm h₃
  unfold renderParamValue
  split_ifs with h
  · simpa using hencode
  · simp only [Bool.or_eq_true, not_or, List.any_eq_true, not_exists, not_and] at h
    intro hv
    exact (h.2 _ hv).2 (by decide)

theorem feed_not_mem_optionalLine {name : String} (hname : '\n' ∉ name.toList) {o : Option Text} (ho : ∀ v ∈ o, '\n' ∉ v) :
    ∀ l ∈ optionalLine name o, '\n' ∉ l := by
  rintro l hl hc
  obtain ⟨v, hv, rfl⟩ := List.mem_map.mp hl
  rcases mem_append.mp hc with hc | hc
  · exact hname hc
  · exact ho v (mem_toList.mp hv) hc

theorem feed_not_mem_typedLine {param value : Text} (hname : '\n' ∉ name) (hparam : '\n' ∉ param)
    (hvalue : '\n' ∉ value) : '\n' ∉ typedLine name param value := by
  simp [typedLine, hname, hparam, hvalue]

theorem feed_not_mem_telType (type : Text) : '\n' ∉ telType type := by
  unfold telType
  split_ifs <;> decide

theorem feed_not_mem_namesLine {last first : Text} (hlast : '\n' ∉ last) (hfirst : '\n' ∉ first) :
    '\n' ∉ namesLine last first := by
  simp [namesLine, hlast, hfirst]

theorem feed_not_mem_getD {o : Option Text} (ho : ∀ v ∈ o, '\n' ∉ v) : '\n' ∉ o.getD [] := by
  rcases o with _ | v
  · exact not_mem_nil
  · exact ho v rfl

theorem value_eq (a : Address) :
    a.value = [';'].intercalate ([] :: [] :: a.fields.map fun o => o.getD []) := by
  unfold Address.value Address.fields
  simp only [map_cons, map_nil, intercalate_cons_cons, intercalate_singleton, append_assoc]
  rfl

theorem feed_not_mem_value {a : Address} (ha : ∀ v, some v ∈ a.fields → '\n' ∉ v) : '\n' ∉ a.value := by
  rw [value_eq]
  intro hc
  rcases of_mem_intercalate hc with heq | ⟨l, hl, hc⟩
  · exact absurd heq (by decide)
  rcases mem_cons.mp hl with rfl | hl
  · exact nomatch hc
  rcases mem_cons.mp hl with rfl | hl
  · exact nomatch hc
  obtain ⟨o, ho, rfl⟩ := List.mem_map.mp hl
  refine feed_not_mem_getD (fun v hv => ha v ?_) hc
  rwa [← mem_def.mp hv]

theorem feed_not_mem_map {ls : List α} {f : α → Text} (h : ∀ a ∈ ls, '\n' ∉ f a) : ∀ l ∈ ls.map f, '\n' ∉ l :=
  List.forall_mem_map.mpr h

theorem feed_not_mem_servedNames {last first : Option Text} (hlast : ∀ v ∈ last, '\n' ∉ v) (hfirst : ∀ v ∈ first, '\n' ∉ v) :
    ∀ l ∈ servedNames last first, '\n' ∉ l := by
  rcases last with _ | last <;> rcases first with _ | first
  · exact fun l hl => nomatch hl
  · exact forall_mem_singleton.mpr (feed_not_mem_namesLine not_mem_nil (hfirst first rfl))
  · exact forall_mem_singleton.mpr (feed_not_mem_namesLine (hlast last rfl) not_mem_nil)
  · exact forall_mem_singleton.mpr (feed_not_mem_namesLine (hlast last rfl) (hfirst first rfl))

theorem feed_not_mem_revLine : '\n' ∉ revLine c := by
  unfold revLine
  rw [mem_append, not_or]
  exact ⟨by decide, feed_not_mem_utcStamp c.updatedAt⟩

section
variable {upper c} (h : c.view.Feedless)
include h

theorem View.Feedless.emailLines : ∀ l ∈ c.email.map (emailLine upper), '\n' ∉ l :=
  feed_not_mem_map fun e he => feed_not_mem_typedLine (by decide) (feed_not_mem_renderParamValue _)
    (h.emails _ (List.mem_map_of_mem he))

theorem View.Feedless.phoneLines {tel : Phone → Text} (htel : ∀ p, '\n' ∉ tel p) :
    ∀ l ∈ c.phone.map (fun p => typedLine "TEL".toList (tel p) p.number), '\n' ∉ l :=
  feed_not_mem_map fun p hp => feed_not_mem_typedLine (by decide) (htel p) (h.phones _ (List.mem_map_of_mem hp))

theorem View.Feedless.addressLines : ∀ l ∈ c.address.map (addressLine upper), '\n' ∉ l :=
  feed_not_mem_map fun a ha => feed_not_mem_typedLine (by decide) (feed_not_mem_renderParamValue _)
    (feed_not_mem_value (h.addresses _ (List.mem_map_of_mem ha)))

theorem View.Feedless.servedFullName : '\n' ∉ servedFullName c := by
  unfold Contacts.servedFullName
  split
  · exact h.fullName _ ‹_›
  · dsimp only
    split_ifs
    · decide
    · intro hc
      have hmade : '\n' ∈ c.firstName.getD [] ∨ '\n' ∈ c.lastName.getD [] := by simpa using strip_subset _ hc
      rcases hmade with hmade | hmade
      · exact feed_not_mem_getD h.firstName hmade
      · exact feed_not_mem_getD h.lastName hmade

theorem View.Feedless.uidLine : '\n' ∉ "UID:".toList ++ c.uid := by
  have huid : '\n' ∉ c.uid := h.uid
  simpa using huid

theorem View.Feedless.generated : ∀ l ∈ generatedLines upper c, '\n' ∉ l := by
  have hnames := feed_not_mem_namesLine (feed_not_mem_getD h.lastName) (feed_not_mem_getD h.firstName)
  have hbirthday : ∀ v ∈ c.birthday.map NaiveDate.compact, '\n' ∉ v := by
    rintro v hv
    obtain ⟨d, -, rfl⟩ := map_eq_some_iff.mp hv
    simp [NaiveDate.compact, feed_not_mem_push2, feed_not_mem_yearText]
  simp only [generatedLines, forall_mem_append, forall_mem_cons, not_mem_nil, false_imp_iff, implies_true,
    and_true]
  exact ⟨⟨⟨⟨⟨⟨⟨⟨⟨⟨⟨by decide, by decide, h.uidLine⟩, feed_not_mem_optionalLine (by decide) h.fullName⟩, hnames⟩,
    h.emailLines⟩, h.phoneLines fun p => feed_not_mem_telType _⟩, h.addressLines⟩,
    feed_not_mem_optionalLine (by decide) h.organization⟩, feed_not_mem_optionalLine (by decide) h.title⟩,
    feed_not_mem_optionalLine (by decide) h.notes⟩, feed_not_mem_optionalLine (by decide) hbirthday⟩, feed_not_mem_revLine c, by decide⟩

theorem View.Feedless.served (hnick : ∀ v ∈ c.nickname, '\n' ∉ v) (hphoto : ∀ v ∈ c.photoUrl, '\n' ∉ v) :
    ∀ l ∈ servedLines upper c, '\n' ∉ l := by
  have hname : '\n' ∉ "FN:".toList ++ Contacts.servedFullName c := by simpa using h.servedFullName
  have hnotes : ∀ v ∈ c.notes.map escapeFeeds, '\n' ∉ v := by
    rintro v hv
    obtain ⟨w, hw, rfl⟩ := map_eq_some_iff.mp hv
    rw [escapeFeeds_of_not_mem (h.notes w hw)]
    exact h.notes w hw
  have hbirthday : ∀ v ∈ c.birthday.map (fun d => (compactDate d).getD d.dashed), '\n' ∉ v := by
    rintro v hv
    obtain ⟨d, -, rfl⟩ := map_eq_some_iff.mp hv
    unfold compactDate
    split_ifs <;> simp [NaiveDate.dashed, feed_not_mem_push2, feed_not_mem_push4, feed_not_mem_yearText]
  simp only [servedLines, forall_mem_append, forall_mem_cons, not_mem_nil, false_imp_iff, implies_true,
    and_true]
  exact ⟨⟨⟨⟨⟨⟨⟨⟨⟨⟨⟨⟨⟨by decide, by decide, h.uidLine⟩, feed_not_mem_servedNames h.lastName h.firstName⟩, hname⟩,
    feed_not_mem_optionalLine (by decide) hnick⟩, h.emailLines⟩, h.phoneLines fun p => feed_not_mem_renderParamValue _⟩,
    h.addressLines⟩, feed_not_mem_optionalLine (by decide) h.organization⟩, feed_not_mem_optionalLine (by decide) h.title⟩,
    feed_not_mem_optionalLine (by decide) hnotes⟩, feed_not_mem_optionalLine (by decide) hbirthday⟩,
    feed_not_mem_optionalLine (by decide) hphoto⟩, feed_not_mem_revLine c, by decide⟩

end

theorem parse_linesText {ls : List Text} (hls : ∀ l ∈ ls, '\n' ∉ l) (fresh : Text) (now : DateTime) :
    parseVcard fresh now (linesText ls) = (ls.map lineOf).foldl Contact.read { uid := fresh, updatedAt := now } := by
  rw [parseVcard, map_strip_linesText hls, map_append, foldl_append, List.map_map]
  rfl

/-- **What is read of a generated vCard.** -/
theorem parse_generated (h : c.view.Feedless) (fresh : Text) (now : DateTime) :
    (parseVcard fresh now (generateVcard upper c)).view =
      readView upper c.fullName (some (c.lastName.getD [], c.firstName.getD [])) (fun p => telType p.type) c := by
  rw [generateVcard, parse_linesText h.generated]
  exact (shown_generated upper c).read fresh now

/-- **What is read of a served vCard.** -/
theorem parse_served (h : c.view.Feedless) (hnick : ∀ v ∈ c.nickname, '\n' ∉ v) (hphoto : ∀ v ∈ c.photoUrl, '\n' ∉ v)
    (fresh : Text) (now : DateTime) : (parseVcard fresh now (contactToVcard upper c)).view =
      readView upper (some (servedFullName c)) (servedPair c.lastName c.firstName) (fun p => typeParam upper p.type) c := by
  rw [contactToVcard, parse_linesText (h.served hnick hphoto)]
  exact (shown_served upper c h.notes).read fresh now

end OxiCloud.Contacts
