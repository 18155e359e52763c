import OxiCloud.Calendar.Documents
import OxiCloud.Calendar.Failures
import OxiCloud.Lib.Programs

/-! # Setters and the text

An event keeps its text beside its columns, and each setter changes both. On a document whose properties in `F`
can be edited, calls that write only these, with values of one line that nothing is trimmed off, and times with a
stamp of their own, keep the text a document, and reading it again gives the columns (`rereads_run`). The rest of
the document stays as it was. -/

namespace OxiCloud.Calendar

open Lib.Texts Lib.Programs

/-- The calls that change an event. -/
inductive Setter where
  | summary (summary : Text)
  | description (description : Option Text)
  | location (location : Option Text)
  | timeRange (startTime endTime : DateTime)
  | allDay (allDay : Bool)
  | rrule (rrule : Option Text)

def Setter.apply (e : CalendarEvent DateTime) : Setter → Except Abort (CalendarEvent DateTime)
  | .summary s => updateSummary e s
  | .description d => .ok (updateDescription e d)
  | .location l => .ok (updateLocation e l)
  | .timeRange a b => updateTimeRange e a b
  | .allDay b => .ok (updateAllDay e b)
  | .rrule r => updateRrule e r

/-- The calls one after the other. -/
def applyAll : List Setter → CalendarEvent DateTime → Except Abort (CalendarEvent DateTime)
  | [], e => .ok e
  | s :: l, e => do
    let e ← s.apply e
    applyAll l e

/-! ### What is read -/

/-- The column of a property that is a text. -/
def textColumn (f : EventFields DateTime) : Slot → Option Text
  | .summary => some f.summary
  | .description => f.description
  | .location => f.location
  | .rrule => f.rrule
  | .dtstart | .dtend => none

/-- The property is a text. -/
def Slot.IsText (f : Slot) : Prop := f ≠ .dtstart ∧ f ≠ .dtend

instance (f : Slot) : Decidable f.IsText := inferInstanceAs (Decidable (_ ∧ _))

/-- The columns are those that are read from the properties. -/
structure ReadsAs (zones : Zones) (props : List Property) (f : EventFields DateTime) : Prop where
  texts : ∀ g : Slot, g.IsText → icalPropValue props g.name = textColumn f g
  start : ∃ v tzid, icalPropValueDateTzid props Slot.dtstart.name = some (v, f.allDay, tzid) ∧
    parseIcalDatetime zones v f.allDay tzid = .ok f.startTime
  stop : ∃ v date tzid, icalPropValueDateTzid props Slot.dtend.name = some (v, date, tzid) ∧
    parseIcalDatetime zones v f.allDay tzid = .ok f.endTime

theorem timeOr_ok {a : Abort} {x : Except TimeError DateTime} {t : DateTime} (h : timeOr a x = .ok t) :
    x = .ok t := by
  rcases x with (_ | _) | t'
  · exact nomatch h
  · exact nomatch h
  · rw [Except.ok.inj h]

section
variable {zones : Zones} {props : List Property} {f : EventFields DateTime}

theorem readsAs_of_read {summary : Text} (hs : icalPropValue props Slot.summary.name = some summary)
    (h : readEventFields zones props summary = .ok f) : ReadsAs zones props f := by
  obtain ⟨⟨v, allDay, tzid⟩, hstart, h⟩ := bind_eq_ok.mp h
  obtain ⟨⟨v', date, tzid'⟩, hstop, h⟩ := bind_eq_ok.mp h
  obtain ⟨a, ha, h⟩ := bind_eq_ok.mp h
  obtain ⟨b, hb, h⟩ := bind_eq_ok.mp h
  obtain rfl := Except.ok.inj h
  refine ⟨fun g hg => ?_, ⟨v, tzid, orAbort_ok.mp hstart, timeOr_ok ha⟩,
    ⟨v', date, tzid', orAbort_ok.mp hstop, timeOr_ok hb⟩⟩
  cases g with
  | summary => exact hs
  | description => rfl
  | location => rfl
  | rrule => rfl
  | dtstart => exact absurd rfl hg.1
  | dtend => exact absurd rfl hg.2

theorem ReadsAs.read (h : ReadsAs zones props f) : readEventFields zones props f.summary = .ok f := by
  obtain ⟨v, tzid, hstart, ha⟩ := h.start
  obtain ⟨v', date, tzid', hstop, hb⟩ := h.stop
  have hd := h.texts .description (by decide)
  have hl := h.texts .location (by decide)
  have hr := h.texts .rrule (by decide)
  refine bind_eq_ok.mpr ⟨_, orAbort_ok.mpr hstart, bind_eq_ok.mpr ⟨_, orAbort_ok.mpr hstop, ?_⟩⟩
  refine bind_eq_ok.mpr ⟨f.startTime, ?_, bind_eq_ok.mpr ⟨f.endTime, ?_, ?_⟩⟩
  · simp only [ha]
    rfl
  · simp only [hb]
    rfl
  · refine congrArg Except.ok ?_
    rcases f with ⟨summary, description, location, startTime, endTime, allDay, rrule⟩
    subst hd hl hr
    rfl

theorem eventFromIcal_of_reads {cal : CalendarId} {data fresh : Text} {recurrenceId : Option DateTime}
    (hp : parseFirstVevent data = some props) (h : ReadsAs zones props f)
    (hr : optionalTime zones props "RECURRENCE-ID".toList none = .ok recurrenceId) :
    eventFromIcal zones cal fresh data =
      .ok ⟨cal, (icalPropValue props "UID".toList).getD fresh, recurrenceId, data, f⟩ := by
  refine bind_eq_ok.mpr ⟨props, orAbort_ok.mpr hp, bind_eq_ok.mpr ⟨f.summary, orAbort_ok.mpr (h.texts .summary (by decide)), ?_⟩⟩
  exact bind_eq_ok.mpr ⟨f, h.read, bind_eq_ok.mpr ⟨recurrenceId, hr, rfl⟩⟩

theorem reads_of_eventFromIcal {cal : CalendarId} {data fresh : Text} {e : CalendarEvent DateTime}
    (hp : parseFirstVevent data = some props) (h : eventFromIcal zones cal fresh data = .ok e) :
    ReadsAs zones props e.fields ∧ optionalTime zones props "RECURRENCE-ID".toList none = .ok e.recurrenceId ∧
      e.icalData = data ∧ e.calendarId = cal := by
  obtain ⟨props', hp', h⟩ := bind_eq_ok.mp h
  obtain rfl := Option.some.inj ((orAbort_ok.mp hp').symm.trans hp)
  obtain ⟨summary, hs, h⟩ := bind_eq_ok.mp h
  obtain ⟨fields, hf, h⟩ := bind_eq_ok.mp h
  obtain ⟨recurrenceId, hr, h⟩ := bind_eq_ok.mp h
  obtain rfl := Except.ok.inj h
  exact ⟨readsAs_of_read (orAbort_ok.mp hs) hf, hr, rfl, rfl⟩

end

/-! ### Writing one property -/

/-- A value that a setter writes and that is read back. -/
structure Written (F : Slot → Prop) (f : Slot) (v : Text) : Prop where
  slot : SlotText F f v
  trimmed : strip v = v
  ne_nil : v ≠ []

/-- The second document differs from the first in one property at most. -/
structure Edited {F : Slot → Prop} (d d' : Doc F) (f : Slot) : Prop where
  frame : d'.frame = d.frame
  others : d'.others = d.others
  findProp : ∀ name, eqIgnoreCase f.name name = false → findProp d'.props name = findProp d.props name

section Writing
variable {F : Slot → Prop} {f g : Slot} {d d' : Doc F}

theorem edited_put {w : Text} (h : SlotText F f w) : Edited d (d.put f w h) f :=
  ⟨rfl, d.others_put h, fun _ hname => d.findProp_put_ne hname h⟩

theorem edited_drop : Edited d (d.drop f) f := ⟨rfl, d.others_drop f, fun _ hname => d.findProp_drop_ne hname⟩

theorem name_ne (h : f ≠ g) : eqIgnoreCase f.name g.name = false :=
  Bool.eq_false_iff.mpr fun heq => h (name_eq_iff.mp heq)

theorem Edited.value (h : Edited d d' f) (hg : f ≠ g) :
    icalPropValue d'.props g.name = icalPropValue d.props g.name := by
  rw [icalPropValue, icalPropValue, h.findProp _ (name_ne hg)]

theorem Edited.dateValue (h : Edited d d' f) (hg : f ≠ g) :
    icalPropValueDateTzid d'.props g.name = icalPropValueDateTzid d.props g.name := by
  rw [icalPropValueDateTzid, icalPropValueDateTzid, h.findProp _ (name_ne hg)]

theorem Edited.recurrenceId {zones : Zones} (h : Edited d d' f) :
    optionalTime zones d'.props "RECURRENCE-ID".toList none = optionalTime zones d.props "RECURRENCE-ID".toList none := by
  have hname : eqIgnoreCase f.name "RECURRENCE-ID".toList = false := by cases f <;> decide
  rw [optionalTime, optionalTime, icalPropValueDateTzid, icalPropValueDateTzid, h.findProp _ hname]

theorem Written.property {v : Text} (h : Written F f v) : slotProperty f v = ⟨f.name, [], some v⟩ := by
  have hne : ¬ v.isEmpty = true := by simpa using h.ne_nil
  rw [slotProperty, trimEnd_of_strip h.trimmed, if_neg hne]

theorem Written.value {v : Text} (h : Written F f v) : (slotProperty f v).trimmed = some v := by
  rw [h.property, Property.trimmed, Option.map_some, h.trimmed, Option.filter_some, if_pos]
  simpa using h.ne_nil

/-- A property that may be missing is written, and read as it was written. -/
theorem writeIcalProperty_text (hf : F f) {o : Option Text} (ho : ∀ v, o = some v → Written F f v) :
    ∃ d' : Doc F, writeIcalProperty d.text f.name o = d'.text ∧ Edited d d' f ∧ icalPropValue d'.props f.name = o := by
  rcases o with _ | v
  · refine ⟨d.drop f, removeIcalProperty_text d hf, edited_drop, ?_⟩
    rw [icalPropValue, d.findProp_drop hf, Option.bind_none]
  · have hv := ho v rfl
    refine ⟨d.put f v hv.slot, updateIcalProperty_text d hv.slot, edited_put hv.slot, ?_⟩
    rw [icalPropValue, d.findProp_put hv.slot, Option.bind_some, hv.value]

/-! ### Writing a time -/

theorem timeText_chars {y m dd h mi s : ℕ} :
    ∀ c ∈ timeText y m dd h mi s, c.isDigit = true ∨ c = 'T' ∨ c = 'Z' := by
  intro c hc
  simp only [timeText, push4, push2, clockStamp, List.mem_append, List.mem_cons, List.not_mem_nil, or_false, or_assoc] at hc
  have hdigit : ∀ n, c = digit n → c.isDigit = true ∨ c = 'T' ∨ c = 'Z' := fun n hn => .inl (hn ▸ isDigit_digit n)
  rcases hc with hc | hc | hc | hc | hc | hc | hc | hc | hc | hc | hc | hc | hc | hc | hc | hc
  all_goals first | exact hdigit _ hc | exact .inr (.inl hc) | exact .inr (.inr hc)

theorem isSpace_of_isDigit {c : Char} (h : c.isDigit = true) : isSpace c = false := by
  have hrange := Lib.Texts.toNat_of_isDigit h
  simp only [isSpace, Bool.or_eq_false_iff, Bool.and_eq_false_iff, decide_eq_false_iff_not, beq_eq_false_iff_ne]
  omega

theorem written_utcStamp (hf : F f) {t : DateTime} (ht : t.Stampable) : Written F f (utcStamp t) := by
  have hchars : ∀ c ∈ utcStamp t, c.isDigit = true ∨ c = 'T' ∨ c = 'Z' := by
    rw [utcStamp_of_stampable ht]
    exact timeText_chars
  have hnot : ∀ c, c.isDigit = false → c ≠ 'T' → c ≠ 'Z' → c ∉ utcStamp t := by
    intro c hd hT hZ hmem
    rcases hchars c hmem with hc | hc | hc
    · rw [hd] at hc
      exact nomatch hc
    · exact hT hc
    · exact hZ hc
  refine ⟨⟨hf, hnot _ (by decide) (by decide) (by decide), fun hinf => ?_⟩, strip_of_no_space fun c hc => ?_, ?_⟩
  · -- the end of an event has a letter that neither the tag nor the stamp has
    have hV : 'V' ∈ f.tag ++ utcStamp t := hinf.subset (by decide : 'V' ∈ eventEnd)
    rcases List.mem_append.mp hV with hV | hV
    · revert hV
      cases f <;> decide
    · exact hnot _ (by decide) (by decide) (by decide) hV
  · rcases hchars c hc with hc | rfl | rfl
    · exact isSpace_of_isDigit hc
    · decide
    · decide
  · rw [utcStamp_of_stampable ht]
    exact fun hnil => nomatch hnil

/-- A stamp is written, and read as a time without a zone. -/
theorem updateIcalProperty_stamp (hf : F f) {t : DateTime} (ht : t.Stampable) :
    ∃ d' : Doc F, updateIcalProperty d.text f.name (utcStamp t) = d'.text ∧ Edited d d' f ∧
      icalPropValueDateTzid d'.props f.name = some (utcStamp t, false, none) := by
  have hw := written_utcStamp hf ht
  refine ⟨d.put f _ hw.slot, updateIcalProperty_text d hw.slot, edited_put hw.slot, ?_⟩
  rw [icalPropValueDateTzid, d.findProp_put hw.slot, Option.bind_some, hw.value, hw.property]
  rfl

end Writing

/-! ### One call -/

/-- The arguments are written to properties in `F` and read back. -/
def Setter.Fits (F : Slot → Prop) : Setter → Prop
  | .summary s => Written F .summary s
  | .description o => F .description ∧ ∀ v, o = some v → Written F .description v
  | .location o => F .location ∧ ∀ v, o = some v → Written F .location v
  | .timeRange a b => F .dtstart ∧ F .dtend ∧ a.Stampable ∧ b.Stampable
  | .allDay b => F .dtstart ∧ F .dtend ∧ b = false
  | .rrule o => F .rrule ∧ ∀ v, o = some v → Written F .rrule v

/-- The text of the event is the document, and reading it gives the columns. -/
structure Holds (zones : Zones) {F : Slot → Prop} (d : Doc F) (e : CalendarEvent DateTime) : Prop where
  text : e.icalData = d.text
  reads : ReadsAs zones d.props e.fields
  recurrenceId : optionalTime zones d.props "RECURRENCE-ID".toList none = .ok e.recurrenceId
  stamped : F .dtstart → F .dtend → e.fields.startTime.Stampable ∧ e.fields.endTime.Stampable

section Calls
variable {zones : Zones} {F : Slot → Prop} {d : Doc F} {e e' : CalendarEvent DateTime}

section

variable (h : Holds zones d e)
include h

theorem Holds.rereads (cal : CalendarId) (fresh : Text) :
    ∃ r, eventFromIcal zones cal fresh e.icalData = .ok r ∧ r.fields = e.fields := by
  rw [h.text]
  exact ⟨_, eventFromIcal_of_reads (parseFirstVevent_text d) h.reads h.recurrenceId, rfl⟩

/-- An event whose start can be edited is not one of whole days. -/
theorem Holds.allDay (hf : F .dtstart) : e.fields.allDay = false := by
  obtain ⟨v, tzid, hstart, -⟩ := h.reads.start
  obtain ⟨p, hp, hv⟩ := Option.bind_eq_some_iff.mp hstart
  obtain ⟨w, rfl⟩ := d.findProp_eq_slot hf hp
  obtain ⟨x, -, hx⟩ := Option.map_eq_some_iff.mp hv
  obtain ⟨-, hdate⟩ := Prod.mk.inj hx
  exact (Prod.mk.inj hdate).1.symm

theorem Holds.times (hs : F .dtstart) (he : F .dtend) {a b : DateTime} (ha : a.Stampable)
    (hb : b.Stampable) : ∃ d' : Doc F, d'.frame = d.frame ∧ d'.others = d.others ∧
      Holds zones d' { e with
        fields := { e.fields with startTime := a, endTime := b, allDay := false }
        icalData := updateTimes e.icalData (utcStamp a) (utcStamp b) } := by
  obtain ⟨d₁, htext₁, hed₁, hval₁⟩ := updateIcalProperty_stamp (d := d) hs ha
  obtain ⟨d₂, htext₂, hed₂, hval₂⟩ := updateIcalProperty_stamp (d := d₁) he hb
  refine ⟨d₂, hed₂.frame.trans hed₁.frame, hed₂.others.trans hed₁.others, ?_⟩
  constructor
  · rw [h.text, updateTimes]
    show updateIcalProperty (updateIcalProperty d.text Slot.dtstart.name _) Slot.dtend.name _ = _
    rw [htext₁, htext₂]
  · constructor
    · exact fun g hg => (hed₂.value hg.2.symm).trans ((hed₁.value hg.1.symm).trans (h.reads.texts g hg))
    · refine ⟨_, _, ?_, parse_utcStamp ha zones none⟩
      rw [hed₂.dateValue (g := .dtstart) (by decide), hval₁]
    · exact ⟨_, _, _, hval₂, parse_utcStamp hb zones none⟩
  · rw [hed₂.recurrenceId, hed₁.recurrenceId]
    exact h.recurrenceId
  · exact fun _ _ => ⟨ha, hb⟩

theorem Holds.write {f : Slot} {o : Option Text} {fields : EventFields DateTime} (hf : f.IsText)
    (hF : F f) (ho : ∀ v, o = some v → Written F f v)
    (hcolumn : ∀ g, textColumn fields g = if g = f then o else textColumn e.fields g)
    (hday : fields.allDay = e.fields.allDay) (hstart : fields.startTime = e.fields.startTime)
    (hend : fields.endTime = e.fields.endTime) :
    ∃ d' : Doc F, d'.frame = d.frame ∧ d'.others = d.others ∧
      Holds zones d' { e with fields := fields, icalData := writeIcalProperty e.icalData f.name o } := by
  obtain ⟨d', htext, hed, hval⟩ := writeIcalProperty_text (d := d) hF ho
  refine ⟨d', hed.frame, hed.others, ?_⟩
  constructor
  · rw [h.text, htext]
  · constructor
    · intro g hg
      rw [hcolumn]
      split_ifs with hgf
      · rw [hgf, hval]
      · rw [hed.value (Ne.symm hgf), h.reads.texts g hg]
    · rw [hed.dateValue hf.1, hday, hstart]
      exact h.reads.start
    · show ∃ v date tzid, icalPropValueDateTzid d'.props _ = some (v, date, tzid) ∧
        parseIcalDatetime zones v fields.allDay tzid = Except.ok fields.endTime
      rw [hed.dateValue hf.2, hday, hend]
      exact h.reads.stop
  · exact hed.recurrenceId.trans h.recurrenceId
  · rw [hstart, hend]
    exact h.stamped

/-- **A call keeps the text in step with the columns, and the rest of the text.** -/
theorem Holds.step {s : Setter} (hs : s.Fits F) (ha : s.apply e = .ok e') :
    ∃ d' : Doc F, d'.frame = d.frame ∧ d'.others = d.others ∧ Holds zones d' e' := by
  rcases s with s | o | o | ⟨a, b⟩ | b | o
  · change updateSummary e s = .ok e' at ha
    unfold updateSummary at ha
    split_ifs at ha
    obtain rfl := Except.ok.inj ha
    exact h.write (f := .summary) (o := some s) (by decide) hs.slot.edited (fun v hv => Option.some.inj hv ▸ hs)
      (fun g => by cases g <;> rfl) rfl rfl rfl
  · obtain rfl := Except.ok.inj ha
    exact h.write (f := .description) (by decide) hs.1 hs.2 (fun g => by cases g <;> rfl) rfl rfl rfl
  · obtain rfl := Except.ok.inj ha
    exact h.write (f := .location) (by decide) hs.1 hs.2 (fun g => by cases g <;> rfl) rfl rfl rfl
  · obtain ⟨hfs, hfe, hsa, hsb⟩ := hs
    change updateTimeRange e a b = .ok e' at ha
    unfold updateTimeRange at ha
    split_ifs at ha
    obtain rfl := Except.ok.inj ha
    have hday := h.allDay hfs
    have htimes := h.times hfs hfe hsa hsb
    rw [hday, rangeText, rangeText, if_neg Bool.false_ne_true, if_neg Bool.false_ne_true]
    rwa [← hday] at htimes
  · -- an event that is not one of whole days stays one
    obtain ⟨hfs, hfe, rfl⟩ := hs
    obtain rfl := Except.ok.inj ha
    obtain ⟨hsa, hsb⟩ := h.stamped hfs hfe
    exact h.times hfs hfe hsa hsb
  · change updateRrule e o = .ok e' at ha
    unfold updateRrule at ha
    split_ifs at ha
    obtain rfl := Except.ok.inj ha
    exact h.write (f := .rrule) (by decide) hs.1 hs.2 (fun g => by cases g <;> rfl) rfl rfl rfl

/-! ### All calls -/

theorem Holds.run {l : List Setter} (hl : ∀ s ∈ l, s.Fits F) (hrun : applyAll l e = .ok e') :
    ∃ d' : Doc F, d'.frame = d.frame ∧ d'.others = d.others ∧ Holds zones d' e' := by
  induction l generalizing d e with
  | nil =>
    obtain rfl := Except.ok.inj hrun
    exact ⟨d, rfl, rfl, h⟩
  | cons s l ih =>
    obtain ⟨e₁, ha, hrun⟩ := bind_eq_ok.mp hrun
    obtain ⟨hs, hl⟩ := List.forall_mem_cons.mp hl
    obtain ⟨d₁, hframe₁, hothers₁, h₁⟩ := h.step hs ha
    obtain ⟨d', hframe, hothers, h'⟩ := ih h₁ hl hrun
    exact ⟨d', hframe.trans hframe₁, hothers.trans hothers₁, h'⟩

end

end Calls

/-! ### Calls on a talk -/

/-- Every property can be edited. -/
def anySlot (_ : Slot) : Prop := True

def crLine (l : String) : Text := l.toList ++ ['\r']

theorem content_talkTail :
    content [eventEnd ++ ['\r'], crLine "END:VCALENDAR", []] = [eventEnd, "END:VCALENDAR".toList] := by
  decide +kernel

def talkFrame : Frame anySlot where
  first := crLine "BEGIN:VCALENDAR"
  head := [crLine "BEGIN:VEVENT"]
  endRest := ['\r']
  tail := [crLine "END:VCALENDAR", []]
  calendar := {}
  done := []
  head_lf := by decide +kernel
  head_tag := by
    intro l hl f _
    obtain rfl := List.mem_singleton.mp hl
    cases f <;> decide +kernel
  head_end := by decide +kernel
  head_reads := by decide +kernel
  tail_lf := by decide +kernel
  tail_tag := by
    intro l hl f _
    rcases List.mem_cons.mp hl with rfl | hl
    · cases f <;> decide +kernel
    · obtain rfl := List.mem_singleton.mp hl
      cases f <;> decide +kernel
  tail_reads := by
    intro current
    rw [content_talkTail]
    rfl

def uidChunk : Chunk anySlot where
  lines := [crLine "UID:u"]
  props := [⟨"UID".toList, [], some ['u']⟩]
  lf := by decide +kernel
  noTag := by
    intro l hl f _
    obtain rfl := List.mem_singleton.mp hl
    cases f <;> decide +kernel
  noEnd := by decide +kernel
  whole := by decide +kernel
  reads := by
    intro s hs
    have hcontent : content [crLine "UID:u"] = ["UID:u".toList] := by decide +kernel
    have hproperty : parseProperty "UID:u".toList = some ⟨"UID".toList, [], some ['u']⟩ := by decide +kernel
    rw [hcontent]
    exact Reading.step_property hs hproperty (by decide) (by decide)
  names := by
    intro p hp f _
    obtain rfl := List.mem_singleton.mp hp
    cases f <;> decide +kernel

/-- The body of the talk. -/
def talkDoc : Doc anySlot where
  frame := talkFrame
  entries := [.other uidChunk, .slot .dtstart (crLine "20260101T090000Z") ⟨trivial, by decide +kernel, by decide +kernel⟩,
    .slot .dtend (crLine "20260101T100000Z") ⟨trivial, by decide +kernel, by decide +kernel⟩,
    .slot .summary (crLine "s") ⟨trivial, by decide +kernel, by decide +kernel⟩]
  single := by decide

example : talkDoc.text = talkBody := by decide +kernel

def talkCalls : List Setter :=
  [.description (some ['d']), .summary ['t'], .timeRange (talkTime 11) (talkTime 12), .description none, .allDay false,
    .rrule (some "FREQ=DAILY".toList)]

theorem talkCalls_fit : ∀ s ∈ talkCalls, s.Fits anySlot := by
  have hwritten : ∀ (f : Slot) (v : Text), '\n' ∉ v → ¬ eventEnd <:+: f.tag ++ v → strip v = v → v ≠ [] → Written anySlot f v :=
    fun f v hlf hend hstrip hne => ⟨⟨trivial, hlf, hend⟩, hstrip, hne⟩
  intro s hs
  simp only [talkCalls, List.mem_cons, List.not_mem_nil, or_false] at hs
  rcases hs with rfl | rfl | rfl | rfl | rfl | rfl
  · refine ⟨trivial, fun v hv => ?_⟩
    obtain rfl := Option.some.inj hv
    exact hwritten _ _ (by decide) (by decide +kernel) (by decide +kernel) (by decide)
  · exact hwritten _ _ (by decide) (by decide +kernel) (by decide +kernel) (by decide)
  · exact ⟨trivial, trivial, by decide, by decide⟩
  · exact ⟨trivial, fun v hv => nomatch hv⟩
  · exact ⟨trivial, trivial, rfl⟩
  · refine ⟨trivial, fun v hv => ?_⟩
    obtain rfl := Option.some.inj hv
    exact hwritten _ _ (by decide +kernel) (by decide +kernel) (by decide +kernel) (by decide)

theorem talkDoc_created : eventFromIcal (fun _ => none) 0 [] talkDoc.text = .ok talk := by decide +kernel

end OxiCloud.Calendar
