import OxiCloud.Calendar.Entities
import OxiCloud.Lib.LineReaders

/-! # Bodies the setters can edit

The setters look for a line that begins with the name of a property and a colon, anywhere in the text, and for
the first `END:VEVENT`. A `Doc` is a body where these are what the setters take them for: a property that is to
be edited stands, at most once, on a line of its own in the event, and no other line begins like it. The rest of
the event is kept as chunks of lines, and what is around the event as a frame.

Writing a property is then a change of the entries (`updateIcalProperty_text`, `removeIcalProperty_text`), and
the event that is read has the properties of the entries (`parseFirstVevent_text`). -/

namespace OxiCloud.Calendar

open Lib.Texts List

/-- The properties the setters write. -/
inductive Slot where
  | summary
  | description
  | location
  | dtstart
  | dtend
  | rrule
  deriving DecidableEq

def Slot.name : Slot → Text
  | .summary => "SUMMARY".toList
  | .description => "DESCRIPTION".toList
  | .location => "LOCATION".toList
  | .dtstart => "DTSTART".toList
  | .dtend => "DTEND".toList
  | .rrule => "RRULE".toList

/-- How a line of the property begins. -/
def Slot.tag (f : Slot) : Text := f.name ++ [':']

def eventEnd : Text := "END:VEVENT".toList

/-- The content lines of lines. -/
def content (ls : List Text) : List Text := (unfoldLines (ls.map dropCr)).2.filter fun l => !l.isEmpty

/-! ### Entries -/

/-- The text behind the tag of a line of the event. -/
structure SlotText (F : Slot → Prop) (f : Slot) (w : Text) : Prop where
  edited : F f
  lf : '\n' ∉ w
  noEnd : ¬ eventEnd <:+: f.tag ++ w

/-- Other lines of the event: whole content lines and alarms. -/
structure Chunk (F : Slot → Prop) where
  lines : List Text
  props : List Property
  lf : ∀ l ∈ lines, '\n' ∉ l
  noTag : ∀ l ∈ lines, ∀ f, F f → ¬ f.tag <+: l
  noEnd : ∀ l ∈ lines, ¬ eventEnd <:+: l
  whole : (unfoldLines (lines.map dropCr)).1 = []
  reads : ∀ s : Reading, s.stack = [.event, .calendar] →
    (content lines).foldl Reading.step s = { s with current := s.current ++ props }
  names : ∀ p ∈ props, ∀ f, F f → eqIgnoreCase p.name f.name = false

inductive Entry (F : Slot → Prop) where
  | slot (f : Slot) (w : Text) (h : SlotText F f w)
  | other (c : Chunk F)

/-- The property a line of a slot is read as. -/
def slotProperty (f : Slot) (w : Text) : Property :=
  ⟨f.name, [], if (trimEnd isSpace w).isEmpty then none else some (trimEnd isSpace w)⟩

section
variable {F : Slot → Prop}

def Entry.lines : Entry F → List Text
  | .slot f w _ => [f.tag ++ w]
  | .other c => c.lines

def Entry.props : Entry F → List Property
  | .slot f w _ => [slotProperty f w]
  | .other c => c.props

def Entry.slots : Entry F → List Slot
  | .slot f _ _ => [f]
  | .other _ => []

def Entry.chunks : Entry F → List (Chunk F)
  | .slot .. => []
  | .other c => [c]

/-- The property is written in its place, or behind the entries. -/
def putEntry (f : Slot) (w : Text) (h : SlotText F f w) : List (Entry F) → List (Entry F)
  | [] => [.slot f w h]
  | .slot g v hv :: es => if g = f then .slot f w h :: es else .slot g v hv :: putEntry f w h es
  | .other c :: es => .other c :: putEntry f w h es

/-- The property is removed. -/
def dropEntry (f : Slot) : List (Entry F) → List (Entry F)
  | [] => []
  | .slot g v hv :: es => if g = f then es else .slot g v hv :: dropEntry f es
  | .other c :: es => .other c :: dropEntry f es

/-- Entries with the property, and without it. -/
inductive Place (f : Slot) (es : List (Entry F)) : Prop where
  | here (A : List (Entry F)) (w : Text) (h : SlotText F f w) (B : List (Entry F)) (hes : es = A ++ .slot f w h :: B)
      (hA : f ∉ A.flatMap Entry.slots)
  | absent (h : f ∉ es.flatMap Entry.slots)

theorem place (f : Slot) (es : List (Entry F)) : Place f es := by
  induction es with
  | nil => exact .absent not_mem_nil
  | cons e es ih =>
    by_cases he : f ∈ e.slots
    · rcases e with ⟨g, w, h⟩ | c
      · obtain rfl := mem_singleton.mp he
        exact .here [] w h es rfl not_mem_nil
      · exact absurd he not_mem_nil
    · have hcons : ∀ {l : List (Entry F)}, f ∉ l.flatMap Entry.slots → f ∉ (e :: l).flatMap Entry.slots := by
        intro l hl hmem
        exact (mem_append.mp hmem).elim he hl
      rcases ih with ⟨A, w, h, B, hes, hA⟩ | hnone
      · exact .here (e :: A) w h B (by rw [hes]; rfl) (hcons hA)
      · exact .absent (hcons hnone)

section Places
variable {f : Slot} {w : Text} {h : SlotText F f w} {A B : List (Entry F)}

theorem not_mem_slots_cons {e : Entry F} {es : List (Entry F)} (hf : f ∉ (e :: es).flatMap Entry.slots) :
    f ∉ e.slots ∧ f ∉ es.flatMap Entry.slots := by
  exact ⟨fun hm => hf (mem_append_left _ hm), fun hm => hf (mem_append_right _ hm)⟩

section

variable (hA : f ∉ A.flatMap Entry.slots)
include hA

theorem putEntry_append : putEntry f w h (A ++ B) = A ++ putEntry f w h B := by
  induction A with
  | nil => rfl
  | cons e A ih =>
    obtain ⟨he, hrest⟩ := not_mem_slots_cons hA
    rcases e with ⟨g, v, hv⟩ | c
    · have hne : g ≠ f := fun heq => he (mem_singleton.mpr heq.symm)
      rw [cons_append, putEntry, if_neg hne, ih hrest, cons_append]
    · rw [cons_append, putEntry, ih hrest, cons_append]

theorem putEntry_here {v : Text} {hv : SlotText F f v} :
    putEntry f w h (A ++ .slot f v hv :: B) = A ++ .slot f w h :: B := by
  rw [putEntry_append hA, putEntry, if_pos rfl]

theorem putEntry_absent : putEntry f w h A = A ++ [.slot f w h] := by
  have happ := putEntry_append (w := w) (h := h) (B := []) hA
  rwa [append_nil] at happ

theorem dropEntry_append : dropEntry f (A ++ B) = A ++ dropEntry f B := by
  induction A with
  | nil => rfl
  | cons e A ih =>
    obtain ⟨he, hrest⟩ := not_mem_slots_cons hA
    rcases e with ⟨g, v, hv⟩ | c
    · have hne : g ≠ f := fun heq => he (mem_singleton.mpr heq.symm)
      rw [cons_append, dropEntry, if_neg hne, ih hrest, cons_append]
    · rw [cons_append, dropEntry, ih hrest, cons_append]

theorem dropEntry_here {v : Text} {hv : SlotText F f v} :
    dropEntry f (A ++ .slot f v hv :: B) = A ++ B := by
  rw [dropEntry_append hA, dropEntry, if_pos rfl]

theorem dropEntry_absent : dropEntry f A = A := by
  have happ := dropEntry_append (B := []) hA
  rwa [append_nil, dropEntry, append_nil] at happ

end

end Places

end

/-! ### Documents -/

/-- What is around the entries: the lines up to the one that opens the event, and those from its end on, with
what the parser has read before the event. -/
structure Frame (F : Slot → Prop) where
  first : Text
  head : List Text
  endRest : Text
  tail : List Text
  calendar : IcalCalendar
  done : List IcalCalendar
  head_lf : ∀ l ∈ first :: head, '\n' ∉ l
  head_tag : ∀ l ∈ head, ∀ f, F f → ¬ f.tag <+: l
  head_end : ∀ l ∈ first :: head, ¬ eventEnd <:+: l
  head_reads : readLines (content (first :: head)) = ⟨[.event, .calendar], [], calendar, done⟩
  tail_lf : ∀ l ∈ (eventEnd ++ endRest) :: tail, '\n' ∉ l
  tail_tag : ∀ l ∈ tail, ∀ f, F f → ¬ f.tag <+: l
  tail_reads : ∀ current, ((content ((eventEnd ++ endRest) :: tail)).foldl Reading.step
    ⟨[.event, .calendar], current, calendar, done⟩).done.findSome? (fun c => c.events.head?) = some current

/-- A body whose properties in `F` can be edited. -/
structure Doc (F : Slot → Prop) where
  frame : Frame F
  entries : List (Entry F)
  single : (entries.flatMap Entry.slots).Nodup

namespace Doc
variable {F : Slot → Prop} (d : Doc F)

/-- The lines behind the first. -/
def lines : List Text :=
  d.frame.head ++ (d.entries.flatMap Entry.lines ++ (eventEnd ++ d.frame.endRest) :: d.frame.tail)

def text : Text := d.frame.first ++ fed d.lines

/-- The properties of the event. -/
def props : List Property := d.entries.flatMap Entry.props

/-- The parts that are not edited. -/
def others : List (Chunk F) := d.entries.flatMap Entry.chunks

theorem slots_putEntry {f : Slot} {w : Text} (h : SlotText F f w) (es : List (Entry F)) :
    (putEntry f w h es).flatMap Entry.slots = es.flatMap Entry.slots ∨
      f ∉ es.flatMap Entry.slots ∧ (putEntry f w h es).flatMap Entry.slots = es.flatMap Entry.slots ++ [f] := by
  rcases place f es with ⟨A, v, hv, B, rfl, hA⟩ | hnone
  · left
    rw [putEntry_here hA, flatMap_append, flatMap_append]
    rfl
  · right
    rw [putEntry_absent hnone, flatMap_append]
    exact ⟨hnone, rfl⟩

/-- The document with the property written. -/
def put (f : Slot) (w : Text) (h : SlotText F f w) : Doc F where
  frame := d.frame
  entries := putEntry f w h d.entries
  single := by
    rcases slots_putEntry h d.entries with heq | ⟨hnone, heq⟩
    · rw [heq]
      exact d.single
    · rw [heq, List.nodup_append_comm]
      exact List.nodup_cons.mpr ⟨hnone, d.single⟩

/-- The document with the property removed. -/
def drop (f : Slot) : Doc F where
  frame := d.frame
  entries := dropEntry f d.entries
  single := by
    have hsingle := d.single
    rcases place f d.entries with ⟨A, v, hv, B, hes, hA⟩ | hnone
    · rw [hes, List.flatMap_append, List.flatMap_cons] at hsingle
      rw [hes, dropEntry_here hA, List.flatMap_append]
      exact hsingle.sublist ((List.sublist_append_right _ _).append_left _)
    · rwa [dropEntry_absent hnone]

theorem others_put {f : Slot} {w : Text} (h : SlotText F f w) : (d.put f w h).others = d.others := by
  show (putEntry f w h d.entries).flatMap Entry.chunks = d.entries.flatMap Entry.chunks
  rcases place f d.entries with ⟨A, v, hv, B, hes, hA⟩ | hnone
  · rw [hes, putEntry_here hA, flatMap_append, flatMap_append]
    rfl
  · rw [putEntry_absent hnone, flatMap_append]
    exact append_nil _

theorem others_drop (f : Slot) : (d.drop f).others = d.others := by
  show (dropEntry f d.entries).flatMap Entry.chunks = d.entries.flatMap Entry.chunks
  rcases place f d.entries with ⟨A, v, hv, B, hes, hA⟩ | hnone
  · rw [hes, dropEntry_here hA, flatMap_append, flatMap_append]
    rfl
  · rw [dropEntry_absent hnone]

end Doc

/-! ### Editing the text -/

theorem tag_prefix_iff {f g : Slot} {w : Text} : f.tag <+: g.tag ++ w ↔ f = g := by
  constructor
  · intro h
    have hpre : f.tag.isPrefixOf (g.tag ++ w) = true := isPrefixOf_iff_prefix.mpr h
    cases f <;> cases g <;> first | rfl | exact nomatch hpre
  · rintro rfl
    exact prefix_append _ _

variable (f : Slot)

theorem tag_lf : '\n' ∉ f.tag := by cases f <;> decide

theorem tag_eventEnd (r : Text) : ¬ f.tag <+: eventEnd ++ r := by
  intro h
  have hpre : f.tag.isPrefixOf (eventEnd ++ r) = true := isPrefixOf_iff_prefix.mpr h
  cases f <;> exact nomatch hpre

theorem dropWhile_feed {w : Text} (hw : '\n' ∉ w) (ls : List Text) :
    (w ++ fed ls).dropWhile (· != '\n') = fed ls := by
  induction w with
  | nil =>
    rcases ls with _ | ⟨l, ls⟩
    · rfl
    · rw [nil_append, fed_cons, dropWhile_cons_of_neg (by simp)]
  | cons c w ih =>
    have hc : c ≠ '\n' := fun heq => hw (heq ▸ mem_cons_self)
    rw [cons_append, dropWhile_cons_of_pos (by simpa using hc), ih fun hm => hw (mem_cons_of_mem _ hm)]

section Editing
variable {F : Slot → Prop} {f : Slot}

theorem Entry.lines_lf (e : Entry F) : ∀ l ∈ e.lines, '\n' ∉ l := by
  rcases e with ⟨g, v, hv⟩ | c
  · intro l hl
    obtain rfl := mem_singleton.mp hl
    exact fun hm => (mem_append.mp hm).elim (tag_lf g) hv.lf
  · exact c.lf

/-- No line of an entry without the property begins like it. -/
theorem Entry.noTag {e : Entry F} (hf : F f) (he : f ∉ e.slots) : ∀ l ∈ e.lines, ¬ f.tag <+: l := by
  rcases e with ⟨g, v, hv⟩ | c
  · intro l hl hpre
    obtain rfl := mem_singleton.mp hl
    exact he (mem_singleton.mpr (tag_prefix_iff.mp hpre))
  · exact fun l hl => c.noTag l hl f hf

theorem Entry.noEnd (e : Entry F) : ∀ l ∈ e.lines, ¬ eventEnd <:+: l := by
  rcases e with ⟨g, v, hv⟩ | c
  · intro l hl
    obtain rfl := mem_singleton.mp hl
    exact hv.noEnd
  · exact c.noEnd

variable {A : List (Entry F)}

/-- The lines up to some entries without the property. -/
theorem Frame.noTag (fr : Frame F) (hf : F f) (hA : f ∉ A.flatMap Entry.slots) :
    ∀ l ∈ fr.head ++ A.flatMap Entry.lines, '\n' ∉ l ∧ ¬ f.tag <+: l := by
  refine forall_mem_append.mpr ⟨fun l hl => ⟨fr.head_lf l (mem_cons_of_mem _ hl), fr.head_tag l hl f hf⟩, ?_⟩
  intro l hl
  obtain ⟨e, he, hl⟩ := mem_flatMap.mp hl
  exact ⟨e.lines_lf l hl, e.noTag hf (fun hm => hA (mem_flatMap.mpr ⟨e, he, hm⟩)) l hl⟩

variable (d : Doc F)

theorem Doc.text_here {B : List (Entry F)} {v : Text} {hv : SlotText F f v}
    (hes : d.entries = A ++ .slot f v hv :: B) :
    d.text = d.frame.first ++ fed (d.frame.head ++ A.flatMap Entry.lines) ++ '\n' :: (f.tag ++ (v ++
      fed (B.flatMap Entry.lines ++ (eventEnd ++ d.frame.endRest) :: d.frame.tail))) := by
  rw [Doc.text, Doc.lines, hes, flatMap_append, flatMap_cons, append_assoc, append_assoc,
    ← append_assoc d.frame.head, fed_append, append_assoc d.frame.first]
  show _ ++ (_ ++ fed ((f.tag ++ v) :: _)) = _
  rw [fed_cons, append_assoc]
  rfl

/-- The text of a document without the property, up to the end of the event. -/
theorem Doc.text_absent : d.text = d.frame.first ++ fed (d.frame.head ++ d.entries.flatMap Entry.lines) ++
    '\n' :: (eventEnd ++ (d.frame.endRest ++ fed d.frame.tail)) := by
  rw [Doc.text, Doc.lines, ← append_assoc d.frame.head, fed_append, fed_cons, ← append_assoc,
    append_assoc eventEnd]

theorem Doc.find_here {B : List (Entry F)} {v : Text} {hv : SlotText F f v}
    (hes : d.entries = A ++ .slot f v hv :: B) (hA : f ∉ A.flatMap Entry.slots) :
    findText ('\n' :: f.tag) d.text =
      some (d.frame.first ++ fed (d.frame.head ++ A.flatMap Entry.lines), '\n' :: (f.tag ++ (v ++
        fed (B.flatMap Entry.lines ++ (eventEnd ++ d.frame.endRest) :: d.frame.tail)))) := by
  rw [d.text_here hes]
  exact findText_line (tag_lf f) (d.frame.noTag hv.edited hA) (d.frame.head_lf _ mem_cons_self) _

theorem Doc.find_absent (hf : F f) (hnone : f ∉ d.entries.flatMap Entry.slots) :
    findText ('\n' :: f.tag) d.text = none := by
  refine findText_line_none (tag_lf f) (fun l hl => ?_) (d.frame.head_lf _ mem_cons_self)
  rw [Doc.lines, ← append_assoc] at hl
  rcases mem_append.mp hl with hl | hl
  · exact d.frame.noTag hf hnone l hl
  · refine ⟨d.frame.tail_lf l hl, ?_⟩
    rcases mem_cons.mp hl with rfl | hl
    · exact tag_eventEnd f _
    · exact d.frame.tail_tag l hl f hf

theorem Doc.find_eventEnd : findText eventEnd d.text =
    some (d.frame.first ++ fed (d.frame.head ++ d.entries.flatMap Entry.lines) ++ ['\n'],
      eventEnd ++ (d.frame.endRest ++ fed d.frame.tail)) := by
  rw [d.text_absent]
  refine findText_behind (by decide) (by decide) (d.frame.head_end _ mem_cons_self) (fun l hl => ?_) _
  rcases mem_append.mp hl with hl | hl
  · exact d.frame.head_end l (mem_cons_of_mem _ hl)
  · obtain ⟨e, -, hl⟩ := mem_flatMap.mp hl
    exact e.noEnd l hl

/-- **`update_ical_property` writes the property of the document.** -/
theorem updateIcalProperty_text {w : Text} (h : SlotText F f w) :
    updateIcalProperty d.text f.name w = (d.put f w h).text := by
  have hneedle : '\n' :: f.name ++ [':'] = '\n' :: f.tag := rfl
  rcases place f d.entries with ⟨A, v, hv, B, hes, hA⟩ | hnone
  · have hput : (d.put f w h).entries = A ++ .slot f w h :: B := by
      show putEntry f w h d.entries = _
      rw [hes, putEntry_here hA]
    have hdrop : ('\n' :: (f.tag ++ (v ++ fed (B.flatMap Entry.lines ++ (eventEnd ++ d.frame.endRest) :: d.frame.tail)))).drop
        (f.name.length + 2) = v ++ fed (B.flatMap Entry.lines ++ (eventEnd ++ d.frame.endRest) :: d.frame.tail) := by
      have hlen : f.name.length + 2 = ('\n' :: f.tag).length := by simp [Slot.tag]
      rw [hlen, ← cons_append, drop_left]
    rw [updateIcalProperty, hneedle, d.find_here hes hA]
    simp only
    rw [hdrop, dropWhile_feed hv.lf, (d.put f w h).text_here hput, append_assoc, append_assoc]
    rfl
  · have hput : (d.put f w h).entries = d.entries ++ [.slot f w h] := putEntry_absent hnone
    rw [updateIcalProperty, hneedle, d.find_absent h.edited hnone]
    rw [show "END:VEVENT".toList = eventEnd from rfl, d.find_eventEnd, (d.put f w h).text_absent, hput, flatMap_append]
    show _ ++ (f.tag ++ w ++ ['\n']) ++ _ = d.frame.first ++ fed (d.frame.head ++ (_ ++ [f.tag ++ w])) ++
      '\n' :: (eventEnd ++ (d.frame.endRest ++ fed d.frame.tail))
    simp [fed]

/-- **`remove_ical_property` removes the property of the document.** -/
theorem removeIcalProperty_text (hf : F f) : removeIcalProperty d.text f.name = (d.drop f).text := by
  have hneedle : '\n' :: f.name ++ [':'] = '\n' :: f.tag := rfl
  rcases place f d.entries with ⟨A, v, hv, B, hes, hA⟩ | hnone
  · have hdrop : (d.drop f).entries = A ++ B := by
      show dropEntry f d.entries = _
      rw [hes, dropEntry_here hA]
    have hlf : '\n' ∉ f.tag ++ v := fun hm => (mem_append.mp hm).elim (tag_lf f) hv.lf
    rw [removeIcalProperty, hneedle, d.find_here hes hA]
    simp only [drop_succ_cons, drop_zero]
    rw [← append_assoc f.tag, dropWhile_feed hlf, Doc.text, Doc.lines, hdrop, flatMap_append,
      append_assoc, ← fed_append]
    simp [Doc.drop]
  · have hdrop : d.drop f = d := by
      rcases d with ⟨fr, es, hs⟩
      simp [Doc.drop, dropEntry_absent hnone]
    rw [removeIcalProperty, hneedle, d.find_absent hf hnone, hdrop]

end Editing

/-! ### Reading the text -/

variable {B : List Text}

theorem unfoldLines_append (A : List Text) (hB : (unfoldLines B).1 = []) :
    unfoldLines (A ++ B) = ((unfoldLines A).1, (unfoldLines A).2 ++ (unfoldLines B).2) := by
  induction A with
  | nil =>
    rw [nil_append, unfoldLines, nil_append, ← hB]
  | cons l A ih =>
    rcases l with _ | ⟨c, l⟩
    · exact ih
    · rw [cons_append, unfoldLines, unfoldLines, ih]
      split_ifs
      · rfl
      · rfl

theorem content_append (A : List Text) (hB : (unfoldLines (B.map dropCr)).1 = []) :
    content (A ++ B) = content A ++ content B := by
  rw [content, map_append, unfoldLines_append _ hB, filter_append]
  rfl

theorem whole_append {A : List Text} (hA : (unfoldLines (A.map dropCr)).1 = [])
    (hB : (unfoldLines (B.map dropCr)).1 = []) : (unfoldLines ((A ++ B).map dropCr)).1 = [] := by
  rw [map_append, unfoldLines_append _ hB, hA]

theorem trimEnd_dropCr (w : Text) : trimEnd isSpace (dropCr w) = trimEnd isSpace w := by
  unfold dropCr
  split_ifs with h
  · obtain ⟨v, rfl⟩ := List.getLast?_eq_some_iff.mp h
    rw [dropLast_concat, trimEnd, trimEnd, rdropWhile_concat_pos _ _ _ (by decide)]
  · rfl

/-- Only the end of a line loses its carriage return. -/
theorem dropCr_append {a : Text} (ha : a.getLast? ≠ some '\r') (w : Text) :
    dropCr (a ++ w) = a ++ dropCr w := by
  rcases w with _ | ⟨c, w⟩
  · rw [append_nil, dropCr, if_neg ha]
    exact (append_nil a).symm
  · unfold dropCr
    rw [List.getLast?_append_of_ne_nil _ (cons_ne_nil c w)]
    split_ifs
    · rw [dropLast_append_of_ne_nil (cons_ne_nil c w)]
    · rfl

theorem dropCr_tag (w : Text) : dropCr (f.tag ++ w) = f.tag ++ dropCr w :=
  dropCr_append (by cases f <;> decide) w

/-- A line that does not begin with a blank begins a content line. -/
theorem whole_cons {c : Char} {l : Text} (hc : isBlank c = false) (ls : List Text) :
    (unfoldLines ((c :: l) :: ls)).1 = [] := by
  rw [unfoldLines, if_neg (by rw [hc]; exact Bool.false_ne_true)]

theorem content_slot (w : Text) : content [f.tag ++ w] = [f.tag ++ trimEnd isSpace w] := by
  have hstrip : strip (f.tag ++ dropCr w) = f.tag ++ trimEnd isSpace w := by
    have hstart : trimStart isSpace (f.tag ++ dropCr w) = f.tag ++ dropCr w := by cases f <;> rfl
    rw [strip, trimBoth, hstart, Slot.tag, trimEnd_concat _ _ (by decide), trimEnd_dropCr]
  have hline : unfoldLines [f.tag ++ dropCr w] = ([], [strip (f.tag ++ dropCr w)]) := by
    cases f <;> exact congrArg (fun l => (([], [l]) : Text × List Text)) (append_nil _)
  rw [content, map_singleton, dropCr_tag, hline, hstrip]
  cases f <;> rfl

theorem whole_slot (w : Text) : (unfoldLines ([f.tag ++ w].map dropCr)).1 = [] := by
  rw [map_singleton, dropCr_tag]
  cases f <;> exact whole_cons (by decide) []

theorem Reading.step_property {s : Reading} (hs : s.stack = [.event, .calendar]) {line : Text} {p : Property}
    (hp : parseProperty line = some p) (hend : p.name ≠ "END".toList) (hbegin : p.name ≠ "BEGIN".toList) :
    s.step line = { s with current := s.current ++ [p] } := by
  rcases s with ⟨stack, current, calendar, done⟩
  obtain rfl : stack = [.event, .calendar] := hs
  unfold Reading.step
  rw [hp]
  show Reading.inside _ .event [.calendar] p = _
  rw [Reading.inside, if_neg hend, if_neg hbegin]
  rfl

theorem parseProperty_slot (t : Text) :
    parseProperty (f.tag ++ t) = some ⟨f.name, [], if t.isEmpty then none else some t⟩ := by
  cases f <;> rfl

section Reading
variable {F : Slot → Prop}

theorem Entry.whole (e : Entry F) : (unfoldLines (e.lines.map dropCr)).1 = [] := by
  rcases e with ⟨f, w, h⟩ | c
  · exact whole_slot f w
  · exact c.whole

theorem Entry.reads (e : Entry F) {s : Reading} (hs : s.stack = [.event, .calendar]) :
    (content e.lines).foldl Reading.step s = { s with current := s.current ++ e.props } := by
  rcases e with ⟨f, w, h⟩ | c
  · show (content [f.tag ++ w]).foldl Reading.step s = { s with current := s.current ++ [slotProperty f w] }
    rw [content_slot, foldl_cons, foldl_nil, Reading.step_property hs (parseProperty_slot f _)]
    · rfl
    · cases f <;> exact fun heq => nomatch heq
    · cases f <;> exact fun heq => nomatch heq
  · exact c.reads s hs

theorem whole_entries (es : List (Entry F)) : (unfoldLines ((es.flatMap Entry.lines).map dropCr)).1 = [] := by
  induction es with
  | nil => rfl
  | cons e es ih => exact whole_append e.whole ih

theorem reads_entries (es : List (Entry F)) {s : Reading} (hs : s.stack = [.event, .calendar]) :
    (content (es.flatMap Entry.lines)).foldl Reading.step s = { s with current := s.current ++ es.flatMap Entry.props } := by
  induction es generalizing s with
  | nil =>
    show s = { s with current := s.current ++ [] }
    rw [append_nil]
  | cons e es ih =>
    have hrest := ih (s := { s with current := s.current ++ e.props }) hs
    rw [flatMap_cons, content_append _ (whole_entries es), foldl_append, e.reads hs, hrest, flatMap_cons,
      ← append_assoc]

theorem Frame.whole_tail (fr : Frame F) :
    (unfoldLines (((eventEnd ++ fr.endRest) :: fr.tail).map dropCr)).1 = [] := by
  rw [map_cons, dropCr_append (by decide)]
  exact whole_cons (by decide) _

/-- **The event of a document has the properties of its entries.** -/
theorem parseFirstVevent_text (d : Doc F) : parseFirstVevent d.text = some d.props := by
  have hsplit : d.text.splitOn '\n' = d.frame.first :: d.lines := by
    refine splitOn_fed (d.frame.head_lf _ mem_cons_self) fun l hl => ?_
    rcases mem_append.mp hl with hl | hl
    · exact d.frame.head_lf l (mem_cons_of_mem _ hl)
    · rcases mem_append.mp hl with hl | hl
      · obtain ⟨e, -, hl⟩ := mem_flatMap.mp hl
        exact e.lines_lf l hl
      · exact d.frame.tail_lf l hl
  have hcontent : contentLines d.text = content (d.frame.first :: d.frame.head) ++
      (content (d.entries.flatMap Entry.lines) ++ content ((eventEnd ++ d.frame.endRest) :: d.frame.tail)) := by
    show content (d.text.splitOn '\n') = _
    rw [hsplit, Doc.lines, ← cons_append, content_append _ (whole_append (whole_entries _) d.frame.whole_tail),
      content_append _ d.frame.whole_tail]
  have hhead := d.frame.head_reads
  rw [readLines] at hhead
  rw [parseFirstVevent, readLines, hcontent, foldl_append, foldl_append, hhead, reads_entries _ rfl]
  exact d.frame.tail_reads _

end Reading

/-! ### Finding the properties -/

section Finding
variable {F : Slot → Prop} {f : Slot} {w name : Text}

theorem findProp_append (l l' : List Property) :
    findProp (l ++ l') name = (findProp l name).or (findProp l' name) :=
  List.find?_append

theorem name_eq_iff {g : Slot} : eqIgnoreCase f.name g.name = true ↔ f = g := by
  cases f <;> cases g <;> decide

theorem findProp_absent (hf : F f) {es : List (Entry F)} (hes : f ∉ es.flatMap Entry.slots) :
    findProp (es.flatMap Entry.props) f.name = none := by
  rw [findProp, List.find?_eq_none]
  intro p hp hname
  obtain ⟨e, he, hp⟩ := mem_flatMap.mp hp
  rcases e with ⟨g, v, hv⟩ | c
  · obtain rfl := mem_singleton.mp hp
    exact hes (mem_flatMap.mpr ⟨_, he, mem_singleton.mpr (name_eq_iff.mp hname).symm⟩)
  · rw [c.names p hp f hf] at hname
    exact nomatch hname

theorem findProp_slot (h : SlotText F f w) (B : List (Entry F)) :
    findProp ((Entry.slot f w h :: B).flatMap Entry.props) f.name = some (slotProperty f w) :=
  List.find?_cons_of_pos (name_eq_iff.mpr rfl)

theorem findProp_slot_ne (hname : eqIgnoreCase f.name name = false) (h : SlotText F f w) (B : List (Entry F)) :
    findProp ((Entry.slot f w h :: B).flatMap Entry.props) name = findProp (B.flatMap Entry.props) name :=
  List.find?_cons_of_neg (by rw [slotProperty, hname]; exact Bool.false_ne_true)

variable (d : Doc F)

theorem Doc.findProp_put (h : SlotText F f w) :
    findProp (d.put f w h).props f.name = some (slotProperty f w) := by
  show findProp ((putEntry f w h d.entries).flatMap Entry.props) f.name = _
  rcases place f d.entries with ⟨A, v, hv, B, hes, hA⟩ | hnone
  · rw [hes, putEntry_here hA, flatMap_append, findProp_append, findProp_absent h.edited hA, findProp_slot,
      Option.none_or]
  · rw [putEntry_absent hnone, flatMap_append, findProp_append, findProp_absent h.edited hnone, findProp_slot,
      Option.none_or]

theorem Doc.findProp_put_ne (hname : eqIgnoreCase f.name name = false) (h : SlotText F f w) :
    findProp (d.put f w h).props name = findProp d.props name := by
  show findProp ((putEntry f w h d.entries).flatMap Entry.props) name = findProp (d.entries.flatMap Entry.props) name
  rcases place f d.entries with ⟨A, v, hv, B, hes, hA⟩ | hnone
  · rw [hes, putEntry_here hA, flatMap_append, flatMap_append, findProp_append, findProp_append,
      findProp_slot_ne hname, findProp_slot_ne hname]
  · rw [putEntry_absent hnone, flatMap_append, findProp_append, findProp_slot_ne hname]
    exact Option.or_none

theorem Doc.findProp_drop (hf : F f) : findProp (d.drop f).props f.name = none := by
  have hsingle := d.single
  refine findProp_absent hf ?_
  show f ∉ (dropEntry f d.entries).flatMap Entry.slots
  rcases place f d.entries with ⟨A, v, hv, B, hes, hA⟩ | hnone
  · rw [hes, flatMap_append, flatMap_cons] at hsingle
    have hB : f ∉ B.flatMap Entry.slots := (nodup_cons.mp (nodup_append.mp hsingle).2.1).1
    rw [hes, dropEntry_here hA, flatMap_append]
    exact fun hm => (mem_append.mp hm).elim hA hB
  · rwa [dropEntry_absent hnone]

theorem Doc.findProp_drop_ne (hname : eqIgnoreCase f.name name = false) :
    findProp (d.drop f).props name = findProp d.props name := by
  show findProp ((dropEntry f d.entries).flatMap Entry.props) name = findProp (d.entries.flatMap Entry.props) name
  rcases place f d.entries with ⟨A, v, hv, B, hes, hA⟩ | hnone
  · rw [hes, dropEntry_here hA, flatMap_append, flatMap_append, findProp_append, findProp_append,
      findProp_slot_ne hname]
  · rw [dropEntry_absent hnone]

/-- A property in `F` is read from a line of its own. -/
theorem Doc.findProp_eq_slot (hf : F f) {p : Property} (hp : findProp d.props f.name = some p) :
    ∃ w, p = slotProperty f w := by
  rcases place f d.entries with ⟨A, v, hv, B, hes, hA⟩ | hnone
  · rw [Doc.props, hes, flatMap_append, findProp_append, findProp_absent hf hA, findProp_slot, Option.none_or] at hp
    exact ⟨v, (Option.some.inj hp).symm⟩
  · rw [Doc.props, findProp_absent hf hnone] at hp
    exact nomatch hp

end Finding

end OxiCloud.Calendar
