import OxiCloud.Calendar.Upserts
import OxiCloud.Lib.Searches

/-! # The body of a calendar object

The rows of a UID are served as one calendar. From the stored text of each row the time zones and the component
are cut out again by a search for their tags, and what was cut is put one after the other between the lines of a
calendar.

A `Block` is a component whose lines do not have the text of a tag. A body made of such blocks and of lines that
open nothing is cut into them (`scanBlocks_of`). Their text is found again in the calendar they were stored in
(`cutChunk_block`, `extractVtimezoneChunks_shell`), so rows that store blocks are served as a calendar of blocks
(`bundle_shell`). -/

namespace OxiCloud.Calendar

open Lib.Texts List

namespace CalendarObject

def kind : CalendarObject → Kind
  | .event _ => .event
  | .todo _ => .todo

def calendarId : CalendarObject → CalendarId
  | .event r => r.calendarId
  | .todo r => r.calendarId

def icalUid : CalendarObject → Text
  | .event r => r.icalUid
  | .todo r => r.icalUid

def recurrenceId : CalendarObject → Option DateTime
  | .event r => r.recurrenceId
  | .todo r => r.recurrenceId

def icalData : CalendarObject → Text
  | .event r => r.icalData
  | .todo r => r.icalData

end CalendarObject

/-! ### Cutting out -/

/-- An immediate line end, and the rest. -/
def cutLineEnd : Text → Text × Text
  | '\r' :: '\n' :: s => (['\r', '\n'], s)
  | '\r' :: s => (['\r'], s)
  | '\n' :: s => (['\n'], s)
  | s => ([], s)

/-- `extract_component_chunk`, with what follows the chunk. -/
def cutChunk (data beginTag endTag : Text) : Option (Text × Text) := do
  let (_, fromBegin) ← findCi beginTag data
  let (inside, fromEnd) ← findCi endTag fromBegin
  let (lineEnd, rest) := cutLineEnd (fromEnd.drop endTag.length)
  some (inside ++ fromEnd.take endTag.length ++ lineEnd, rest)

/-- `extract_object_chunk`. -/
def extractObjectChunk (o : CalendarObject) : Option Text :=
  (cutChunk o.icalData o.kind.beginTag o.kind.endTag).map Prod.fst

/-- The loop of `extract_vtimezone_chunks`, for a number of rounds. -/
def zoneChunks : ℕ → Text → List Text
  | 0, _ => []
  | n + 1, data => match cutChunk data Kind.timeZone.beginTag Kind.timeZone.endTag with
    | none => []
    | some (chunk, rest) => chunk :: zoneChunks n rest

/-- `extract_vtimezone_chunks`. A chunk is not empty, so there are at most as many as characters. -/
def extractVtimezoneChunks (data : Text) : List Text := zoneChunks data.length data

/-- `vtimezone_tzid`. -/
def vtimezoneTzid (chunk : Text) : Option Text :=
  (chunk.splitOn '\n').findSome? fun rawLine =>
    let line := trimEnd (· == '\r') rawLine
    if startsWithCi "TZID:".toList line then (some (strip (line.drop 5))).filter fun v => !v.isEmpty else none

/-! ### The served body -/

/-- The groups so far, each with its UID; a row joins the group of its UID or opens one. -/
def pushRow (o : CalendarObject) : List (Text × List CalendarObject) → List (Text × List CalendarObject)
  | [] => [(o.icalUid, [o])]
  | g :: gs => if g.1 = o.icalUid then (g.1, g.2 ++ [o]) :: gs else g :: pushRow o gs

/-- The master first, and the exceptions in their order. -/
def masterFirst (rows : List CalendarObject) : List CalendarObject :=
  rows.filter (fun o => !o.recurrenceId.isSome) ++ rows.filter fun o => o.recurrenceId.isSome

/-- `group_objects_by_uid`. -/
def groupObjectsByUid (rows : List CalendarObject) : List (List CalendarObject) :=
  (rows.foldl (fun gs o => pushRow o gs) []).map fun g => masterFirst g.2

/-- The text written so far, and the time zones in it. -/
structure Bundle where
  buf : Text
  seenTzids : List Text

/-- Ends the last line. -/
def endLine (buf : Text) : Text := if buf.getLast? = some '\n' then buf else buf ++ crlf

/-- A time zone is written once. -/
def Bundle.addZone (b : Bundle) (vtz : Text) : Bundle :=
  let key := (vtimezoneTzid vtz).getD vtz
  if key ∈ b.seenTzids then b else ⟨endLine (b.buf ++ vtz), key :: b.seenTzids⟩

/-- The component of a row is written, if it has one. -/
def Bundle.addChunk (b : Bundle) : Option Text → Bundle
  | none => b
  | some chunk => { b with buf := endLine (b.buf ++ chunk) }

def Bundle.addRow (b : Bundle) (o : CalendarObject) : Bundle :=
  ((extractVtimezoneChunks o.icalData).foldl Bundle.addZone b).addChunk (extractObjectChunk o)

/-- `bundle_to_calendar_body`. -/
def bundleToCalendarBody (rows : List CalendarObject) : Text :=
  (rows.foldl Bundle.addRow ⟨shellStart, []⟩).buf ++ shellEnd

/-- `handle_get` for an object, given the events and the tasks of its UID in the order in which they were read. -/
def handleGet (events todos : List CalendarObject) : Option Text :=
  if events ≠ [] then some (bundleToCalendarBody (groupObjectsByUid events).flatten)
  else if todos ≠ [] then some (bundleToCalendarBody (groupObjectsByUid todos).flatten)
  else none

variable {rows : List CalendarObject}

theorem foldl_pushRow {u : Text} {done : List CalendarObject} (hu : ∀ o ∈ rows, o.icalUid = u) :
    rows.foldl (fun gs o => pushRow o gs) [(u, done)] = [(u, done ++ rows)] := by
  induction rows generalizing done with
  | nil => rw [foldl_nil, append_nil]
  | cons o rows ih =>
    have ho := hu o mem_cons_self
    have hpush : pushRow o [(u, done)] = [(u, done ++ [o])] := by rw [pushRow, if_pos ho.symm]
    rw [foldl_cons, hpush, ih fun o' ho' => hu o' (mem_cons_of_mem _ ho'), append_assoc,
      singleton_append]

theorem groupObjectsByUid_perm {u : Text} (hu : ∀ o ∈ rows, o.icalUid = u) :
    (groupObjectsByUid rows).flatten.Perm rows := by
  rcases rows with _ | ⟨o, rows⟩
  · exact .refl _
  · have ho := hu o mem_cons_self
    have hgroup : groupObjectsByUid (o :: rows) = [masterFirst (o :: rows)] := by
      rw [groupObjectsByUid, foldl_cons, pushRow, ho,
        foldl_pushRow fun o' ho' => hu o' (mem_cons_of_mem _ ho')]
      rfl
    rw [hgroup, flatten_singleton]
    exact perm_append_comm.trans (filter_append_perm (fun o => o.recurrenceId.isSome) (o :: rows))

/-! ### Blocks -/

/-- A line inside a component: it does not have the text of a tag. -/
structure PlainLine (l : Text) : Prop where
  lf : '\n' ∉ l
  cr : l.getLast? ≠ some '\r'
  beginTag : ∀ k : Kind, containsCi k.beginTag l = false
  endTag : ∀ k : Kind, containsCi k.endTag l = false

instance (l : Text) : Decidable (PlainLine l) :=
  decidable_of_iff ('\n' ∉ l ∧ l.getLast? ≠ some '\r' ∧ ∀ k ∈ [Kind.timeZone, .event, .todo],
      containsCi k.beginTag l = false ∧ containsCi k.endTag l = false)
    ⟨fun h => ⟨h.1, h.2.1, fun k => (h.2.2 k (by cases k <;> decide)).1, fun k => (h.2.2 k (by cases k <;> decide)).2⟩,
      fun h => ⟨h.lf, h.cr, fun k _ => ⟨h.beginTag k, h.endTag k⟩⟩⟩

/-- A component, with its lines as they are folded. -/
structure Block where
  kind : Kind
  inner : List Text
  plain : ∀ l ∈ inner, PlainLine l

def Block.lines (b : Block) : List Text := b.kind.beginTag :: (b.inner ++ [b.kind.endTag])

def Block.text (b : Block) : Text := linesText b.lines

def blocksText (bs : List Block) : Text := bs.flatMap Block.text

/-- The calendar around blocks. -/
def shell (bs : List Block) : Text := shellStart ++ blocksText bs ++ shellEnd

def shellLines : List Text :=
  ["BEGIN:VCALENDAR".toList, "VERSION:2.0".toList, "PRODID:-//OxiCloud//NONSGML Calendar//EN".toList]

theorem shellStart_eq : shellStart = linesText shellLines := rfl

theorem shellEnd_eq : shellEnd = linesText ["END:VCALENDAR".toList] := rfl

theorem blocksText_eq (bs : List Block) : blocksText bs = linesText (bs.flatMap Block.lines) := by
  induction bs with
  | nil => rfl
  | cons b bs ih =>
    rw [blocksText, flatMap_cons, flatMap_cons, linesText_append, ← ih]
    rfl

theorem blocksText_append (bs bs' : List Block) : blocksText (bs ++ bs') = blocksText bs ++ blocksText bs' :=
  flatMap_append

theorem wrapped_eq_shell (zs : List Block) (b : Block) :
    wrapped (blocksText zs) b.text = shell (zs ++ [b]) := by
  rw [wrapped, shell, blocksText_append, ← append_assoc]
  simp [blocksText]

/-! ### Tags -/

variable (k : Kind)

theorem unbroken_beginTag : Unbroken k.beginTag := by cases k <;> decide

theorem unbroken_endTag : Unbroken k.endTag := by cases k <;> decide

theorem beginTag_shellLines : ∀ l ∈ shellLines, containsCi k.beginTag l = false := by
  cases k <;> decide +kernel

theorem beginTag_shellEnd : containsCi k.beginTag "END:VCALENDAR".toList = false := by
  cases k <;> decide +kernel

theorem beginTag_endTag (k' : Kind) : containsCi k.beginTag k'.endTag = false := by
  cases k <;> cases k' <;> decide +kernel

theorem endTag_beginTag (k' : Kind) : containsCi k.endTag k'.beginTag = false := by
  cases k <;> cases k' <;> decide +kernel

theorem occurrences_beginTag (k' : Kind) : occurrences k.beginTag k'.beginTag = if k' = k then 1 else 0 := by
  cases k <;> cases k' <;> decide +kernel

theorem beginTag_beginTag {k k' : Kind} (h : k' ≠ k) : containsCi k.beginTag k'.beginTag = false := by
  rw [← occurrences_eq_zero, occurrences_beginTag, if_neg h]

namespace Block
variable {b : Block} {k : Kind}

theorem beginTag_lines (h : b.kind ≠ k) : ∀ l ∈ b.lines, containsCi k.beginTag l = false := by
  intro l hl
  rcases mem_cons.mp hl with rfl | hl
  · exact beginTag_beginTag h
  · rcases mem_append.mp hl with hl | hl
    · exact (b.plain l hl).beginTag k
    · rw [mem_singleton.mp hl]
      exact beginTag_endTag k b.kind

theorem occurrences_text : occurrences k.beginTag b.text = if b.kind = k then 1 else 0 := by
  have hinner : (b.inner.map (occurrences k.beginTag)).sum = 0 := by
    rw [List.sum_eq_zero_iff_forall_eq_nat]
    intro n hn
    obtain ⟨l, hl, rfl⟩ := mem_map.mp hn
    exact occurrences_eq_zero.mpr ((b.plain l hl).beginTag k)
  have hend : occurrences k.beginTag b.kind.endTag = 0 := occurrences_eq_zero.mpr (beginTag_endTag k b.kind)
  rw [text, (unbroken_beginTag k).occurrences_lines, lines, map_cons, sum_cons, map_append,
    sum_append, hinner, map_singleton, sum_singleton, hend, occurrences_beginTag, Nat.add_zero]

/-- The text of a block: up to the closing tag, and its line. -/
theorem text_eq : b.text = linesText (b.kind.beginTag :: b.inner) ++ (b.kind.endTag ++ ['\r', '\n']) := by
  rw [text, lines, ← cons_append, linesText_append, linesText_cons b.kind.endTag]
  rfl

theorem text_getLast (s : Text) : (s ++ b.text).getLast? = some '\n' := by
  rw [text_eq, ← append_assoc, ← append_assoc]
  simp

theorem beginTag_isPrefixOf (t : Text) : b.kind.beginTag.isPrefixOf (b.text ++ t) = true := by
  rw [ isPrefixOf_iff_prefix, text, lines, linesText_cons, append_assoc]
  exact prefix_append _ _

end Block

theorem length_le_blocksText (bs : List Block) : bs.length ≤ (blocksText bs).length := by
  induction bs with
  | nil => exact le_rfl
  | cons b bs ih =>
    have hb := congrArg List.length b.text_eq
    rw [blocksText, flatMap_cons, length_append, length_cons]
    simp only [length_append, length_cons] at hb
    change bs.length ≤ (bs.flatMap Block.text).length at ih
    omega

/-- The number of blocks of a kind is the number of their tags. -/
theorem occurrences_shell (bs : List Block) :
    occurrences k.beginTag (shell bs) = bs.countP fun b => b.kind = k := by
  have hp := unbroken_beginTag k
  have hlines : ((bs.flatMap Block.lines).map (occurrences k.beginTag)).sum = bs.countP fun b => b.kind = k := by
    induction bs with
    | nil => rfl
    | cons b bs ih =>
      have hb := b.occurrences_text (k := k)
      rw [Block.text, hp.occurrences_lines] at hb
      rw [flatMap_cons, map_append, sum_append, ih, hb, countP_cons, Nat.add_comm]
      simp
  have hstart : occurrences k.beginTag shellStart = 0 := by
    exact occurrences_eq_zero.mpr (hp.containsCi_lines (beginTag_shellLines k))
  have hend : occurrences k.beginTag "END:VCALENDAR".toList = 0 := occurrences_eq_zero.mpr (beginTag_shellEnd k)
  rw [shellStart_eq, hp.occurrences_lines] at hstart
  rw [shell, shellStart_eq, shellEnd_eq, blocksText_eq, ← linesText_append, ← linesText_append,
    hp.occurrences_lines, map_append, map_append, sum_append, sum_append, hstart, hlines,
    map_singleton, sum_singleton, hend, Nat.zero_add, Nat.add_zero]

/-! ### Blocks are cut out of bodies -/

/-- The items of a body: a line that opens none of the components, or a block. -/
inductive Item where
  | line (l : Text) (hcr : l.getLast? ≠ some '\r') (hopens : beginKind (trimStart isSpace l) = none)
  | block (b : Block)

def Item.lines : Item → List Text
  | .line l _ _ => [l]
  | .block b => b.lines

def Item.blocks : Item → List Block
  | .line .. => []
  | .block b => [b]

/-- The lines of the body, however they end, are those of the items. -/
def IsBody (data : Text) (items : List Item) : Prop :=
  (data.splitOn '\n').map (trimEnd (· == '\r')) = items.flatMap Item.lines

/-- The blocks of a kind. -/
def blocksOf (items : List Item) (k : Kind) : List Block := (items.flatMap Item.blocks).filter fun b => b.kind = k

theorem trimEnd_of_getLast {l : Text} (h : l.getLast? ≠ some '\r') : trimEnd (· == '\r') l = l := by
  rw [trimEnd, rdropWhile_eq_self_iff]
  intro hne hlast
  rw [beq_iff_eq] at hlast
  exact h (by rw [List.getLast?_eq_some_getLast hne, hlast])

theorem Scan.step_trimEnd (s : Scan) (l : Text) : s.step (trimEnd (· == '\r') l) = s.step l := by
  have hidem : trimEnd (· == '\r') (trimEnd (· == '\r') l) = trimEnd (· == '\r') l := rdropWhile_idempotent _ l
  unfold Scan.step
  rw [hidem]

theorem Scan.step_plain {bs : List (Kind × Text)} {k : Kind} {cur l : Text} (hl : PlainLine l) :
    Scan.step ⟨bs, some k, cur⟩ l = ⟨bs, some k, cur ++ (l ++ crlf)⟩ := by
  have hend : startsWithCi k.endTag (trimStart isSpace l) = false :=
    containsCi_eq_false.mp (hl.endTag k) _ (dropWhile_suffix _)
  unfold Scan.step
  rw [trimEnd_of_getLast hl.cr]
  simp only [Option.some_or]
  rw [if_neg (by rw [hend]; exact Bool.false_ne_true), append_assoc]

variable {ls : List Text}

theorem Scan.foldl_plain {bs : List (Kind × Text)} {k : Kind} {cur : Text}
    (hls : ∀ l ∈ ls, PlainLine l) :
    ls.foldl Scan.step ⟨bs, some k, cur⟩ = ⟨bs, some k, cur ++ linesText ls⟩ := by
  induction ls generalizing cur with
  | nil =>
    simp [linesText]
  | cons l ls ih =>
    rw [foldl_cons, Scan.step_plain (hls l mem_cons_self), ih fun l' hl' => hls l' (mem_cons_of_mem _ hl'),
      append_assoc]
    rfl

variable (bs : List (Kind × Text))

theorem Scan.step_beginTag (k : Kind) :
    Scan.step ⟨bs, none, []⟩ k.beginTag = ⟨bs, some k, k.beginTag ++ crlf⟩ := by
  cases k <;> rfl

theorem Scan.step_endTag (k : Kind) (cur : Text) :
    Scan.step ⟨bs, some k, cur⟩ k.endTag = ⟨bs ++ [(k, cur ++ (k.endTag ++ crlf))], none, []⟩ := by
  have hline : trimEnd (· == '\r') k.endTag = k.endTag := by cases k <;> rfl
  have htag : startsWithCi k.endTag (trimStart isSpace k.endTag) = true := by cases k <;> rfl
  unfold Scan.step
  rw [hline]
  simp only [Option.some_or]
  rw [if_pos htag, append_assoc]

theorem Scan.foldl_item (i : Item) :
    i.lines.foldl Scan.step ⟨bs, none, []⟩ = ⟨bs ++ i.blocks.map fun b => (b.kind, b.text), none, []⟩ := by
  rcases i with ⟨l, hcr, hopens⟩ | b
  · show Scan.step ⟨bs, none, []⟩ l = ⟨bs ++ [], none, []⟩
    unfold Scan.step
    rw [trimEnd_of_getLast hcr]
    simp only [Option.none_or]
    rw [hopens, append_nil]
  · show b.lines.foldl Scan.step ⟨bs, none, []⟩ = ⟨bs ++ [(b.kind, b.text)], none, []⟩
    rw [Block.lines, foldl_cons, Scan.step_beginTag, foldl_append, Scan.foldl_plain b.plain, foldl_cons,
      foldl_nil, Scan.step_endTag, Block.text_eq, linesText_cons]
    simp [crlf]

/-- **A body is cut into its blocks.** -/
theorem scanBlocks_of {data : Text} {items : List Item} (h : IsBody data items) :
    scanBlocks data = (items.flatMap Item.blocks).map fun b => (b.kind, b.text) := by
  have htrim : (data.splitOn '\n').foldl Scan.step {} = (items.flatMap Item.lines).foldl Scan.step {} := by
    rw [← h, foldl_map]
    congr 1
    funext s l
    exact (s.step_trimEnd l).symm
  have hitems : ∀ (items : List Item) (bs : List (Kind × Text)), (items.flatMap Item.lines).foldl Scan.step ⟨bs, none, []⟩ =
      ⟨bs ++ (items.flatMap Item.blocks).map fun b => (b.kind, b.text), none, []⟩ := by
    intro items
    induction items with
    | nil =>
      intro bs
      exact congrArg (Scan.mk · none []) (append_nil bs).symm
    | cons i items ih =>
      intro bs
      rw [flatMap_cons, flatMap_cons, foldl_append, Scan.foldl_item, ih, map_append,
        append_assoc]
  rw [scanBlocks, htrim, hitems items []]
  rfl

theorem splitComponents_of {data : Text} {items : List Item} (h : IsBody data items) (k : Kind) :
    splitComponents data k = (blocksOf items k).map Block.text := by
  rw [splitComponents, scanBlocks_of h, blocksOf, filter_map, map_map]
  rfl

/-! ### Blocks are found in the calendar they were stored in -/

variable {b : Block}

theorem cutChunk_block (hls : ∀ l ∈ ls, containsCi b.kind.beginTag l = false) (t : Text) :
    cutChunk (linesText ls ++ (b.text ++ t)) b.kind.beginTag b.kind.endTag = some (b.text, t) := by
  have hbegin := (unbroken_beginTag b.kind).findCi_lines hls (b.beginTag_isPrefixOf t)
  have hinner : ∀ l ∈ b.kind.beginTag :: b.inner, containsCi b.kind.endTag l = false := by
    intro l hl
    rcases mem_cons.mp hl with rfl | hl
    · exact endTag_beginTag b.kind b.kind
    · exact (b.plain l hl).endTag b.kind
  have hpre : b.kind.endTag.isPrefixOf (b.kind.endTag ++ '\r' :: '\n' :: t) = true :=
    isPrefixOf_iff_prefix.mpr (prefix_append _ _)
  have hend := (unbroken_endTag b.kind).findCi_lines hinner hpre
  have htext : b.text ++ t = linesText (b.kind.beginTag :: b.inner) ++ (b.kind.endTag ++ '\r' :: '\n' :: t) := by
    rw [Block.text_eq, append_assoc, append_assoc]
    rfl
  rw [← htext] at hend
  simp only [cutChunk, hbegin, hend, Option.bind_eq_bind, Option.bind_some, drop_left, take_left]
  rw [cutLineEnd, Block.text_eq, append_assoc]

theorem cutChunk_none {k : Kind} (hls : ∀ l ∈ ls, containsCi k.beginTag l = false) :
    cutChunk (linesText ls) k.beginTag k.endTag = none := by
  have hfind := findCi_eq_none ((unbroken_beginTag k).containsCi_lines hls)
  simp [cutChunk, hfind]

/-- Time zones, and then lines that have none, are cut into the time zones. -/
theorem zoneChunks_blocks {zs : List Block} (hz : ∀ z ∈ zs, z.kind = .timeZone) {rest : List Text}
    (hls : ∀ l ∈ ls, containsCi Kind.timeZone.beginTag l = false)
    (hrest : ∀ l ∈ rest, containsCi Kind.timeZone.beginTag l = false) {n : ℕ} (hn : zs.length ≤ n) :
    zoneChunks n (linesText ls ++ (blocksText zs ++ linesText rest)) = zs.map Block.text := by
  induction zs generalizing ls n with
  | nil =>
    rcases n with _ | n
    · rfl
    · have hboth : ∀ l ∈ ls ++ rest, containsCi Kind.timeZone.beginTag l = false :=
        forall_mem_append.mpr ⟨hls, hrest⟩
      have hnone := cutChunk_none hboth
      rw [linesText_append] at hnone
      show zoneChunks (n + 1) (linesText ls ++ linesText rest) = []
      rw [zoneChunks, hnone]
  | cons z zs ih =>
    rcases n with _ | n
    · exact absurd hn (Nat.not_succ_le_zero _)
    · have hkind := hz z mem_cons_self
      have hcut := cutChunk_block (b := z) (hkind ▸ hls) (blocksText zs ++ linesText rest)
      rw [hkind] at hcut
      have hnone : ∀ l ∈ ([] : List Text), containsCi Kind.timeZone.beginTag l = false :=
        fun l hl => absurd hl not_mem_nil
      have htail := ih (fun z' hz' => hz z' (mem_cons_of_mem _ hz')) hnone (Nat.le_of_succ_le_succ hn)
      have hdata : blocksText (z :: zs) ++ linesText rest = z.text ++ (blocksText zs ++ linesText rest) :=
        append_assoc _ _ _
      rw [hdata, zoneChunks, hcut]
      exact congrArg (z.text :: ·) htail

section
variable {zs : List Block} {b : Block} (hz : ∀ z ∈ zs, z.kind = .timeZone) (hb : b.kind ≠ .timeZone)

include hz hb

theorem extractVtimezoneChunks_shell : extractVtimezoneChunks (shell (zs ++ [b])) = zs.map Block.text := by
  have hrest : ∀ l ∈ b.lines ++ ["END:VCALENDAR".toList], containsCi Kind.timeZone.beginTag l = false := by
    refine forall_mem_append.mpr ⟨b.beginTag_lines hb, fun l hl => ?_⟩
    rw [mem_singleton.mp hl]
    exact beginTag_shellEnd .timeZone
  have hdata : shell (zs ++ [b]) = linesText shellLines ++ (blocksText zs ++ linesText (b.lines ++ ["END:VCALENDAR".toList])) := by
    rw [shell, shellStart_eq, shellEnd_eq, blocksText_append, linesText_append]
    simp [blocksText, Block.text]
  have hlen : zs.length ≤ (shell (zs ++ [b])).length := by
    have htext := length_le_blocksText zs
    rw [hdata, length_append, length_append]
    omega
  have hcut := zoneChunks_blocks hz (beginTag_shellLines .timeZone) hrest hlen
  rwa [← hdata] at hcut

theorem cutChunk_shell :
    cutChunk (shell (zs ++ [b])) b.kind.beginTag b.kind.endTag = some (b.text, shellEnd) := by
  have hls : ∀ l ∈ shellLines ++ zs.flatMap Block.lines, containsCi b.kind.beginTag l = false := by
    refine forall_mem_append.mpr ⟨beginTag_shellLines b.kind, fun l hl => ?_⟩
    obtain ⟨z, hmem, hl⟩ := mem_flatMap.mp hl
    exact z.beginTag_lines (fun heq => hb (heq.symm.trans (hz z hmem))) l hl
  have hdata : shell (zs ++ [b]) = linesText (shellLines ++ zs.flatMap Block.lines) ++ (b.text ++ shellEnd) := by
    rw [shell, shellStart_eq, blocksText_append, linesText_append, ← blocksText_eq]
    simp [blocksText]
  rw [hdata, cutChunk_block hls]

end

/-! ### Rows of blocks are served as blocks -/

/-- The row stores the block, with time zones before it. -/
def Stores (o : CalendarObject) (b : Block) : Prop :=
  b.kind = o.kind ∧ ∃ zs : List Block, (∀ z ∈ zs, z.kind = .timeZone) ∧ o.icalData = shell (zs ++ [b])

theorem CalendarObject.kind_ne_timeZone (o : CalendarObject) : o.kind ≠ .timeZone := by
  cases o <;> exact fun h => nomatch h

variable {o : CalendarObject}

theorem Stores.chunk (h : Stores o b) : extractObjectChunk o = some b.text := by
  obtain ⟨hkind, zs, hz, hdata⟩ := h
  have hb : b.kind ≠ .timeZone := hkind ▸ o.kind_ne_timeZone
  rw [extractObjectChunk, hdata, ← hkind, cutChunk_shell hz hb, Option.map_some]

theorem endLine_block (buf : Text) (b : Block) : endLine (buf ++ b.text) = buf ++ b.text := by
  rw [endLine, if_pos (b.text_getLast buf)]

theorem addZone_blocks {zs : List Block} (hz : ∀ z ∈ zs, z.kind = .timeZone) (st : Bundle) :
    ∃ zs' : List Block, (∀ z ∈ zs', z.kind = .timeZone) ∧
      ((zs.map Block.text).foldl Bundle.addZone st).buf = st.buf ++ blocksText zs' := by
  induction zs generalizing st with
  | nil => exact ⟨[], fun z h => absurd h not_mem_nil, (append_nil _).symm⟩
  | cons z zs ih =>
    obtain ⟨zs', hz', hbuf⟩ := ih (fun z' h => hz z' (mem_cons_of_mem _ h)) (st.addZone z.text)
    rw [map_cons, foldl_cons, hbuf, Bundle.addZone]
    split_ifs
    · exact ⟨zs', hz', rfl⟩
    · refine ⟨z :: zs', forall_mem_cons.mpr ⟨hz z mem_cons_self, hz'⟩, ?_⟩
      rw [endLine_block, append_assoc]
      rfl

theorem addRow_stores (h : Stores o b) (st : Bundle) :
    ∃ zs' : List Block, (∀ z ∈ zs', z.kind = .timeZone) ∧ (st.addRow o).buf = st.buf ++ blocksText (zs' ++ [b]) := by
  have hchunk := h.chunk
  obtain ⟨hkind, zs, hz, hdata⟩ := h
  have hb : b.kind ≠ .timeZone := hkind ▸ o.kind_ne_timeZone
  obtain ⟨zs', hz', hbuf⟩ := addZone_blocks hz st
  refine ⟨zs', hz', ?_⟩
  rw [Bundle.addRow, hchunk, hdata, extractVtimezoneChunks_shell hz hb]
  show endLine (_ ++ b.text) = _
  rw [hbuf, endLine_block, blocksText_append, append_assoc]
  simp [blocksText]

/-- **Rows that store blocks are served as a calendar of these blocks and of time zones.** -/
theorem bundle_shell {bs : List Block} (h : List.Forall₂ Stores rows bs) :
    ∃ served : List Block, bundleToCalendarBody rows = shell served ∧
      (∀ b ∈ served, b.kind = .timeZone ∨ b ∈ bs) ∧ (served.filter fun b => b.kind ≠ .timeZone) = bs := by
  have hfold : ∀ st : Bundle, ∃ served : List Block, (rows.foldl Bundle.addRow st).buf = st.buf ++ blocksText served ∧
      (∀ b ∈ served, b.kind = .timeZone ∨ b ∈ bs) ∧ (served.filter fun b => b.kind ≠ .timeZone) = bs := by
    induction h with
    | nil => exact fun st => ⟨[], (append_nil _).symm, fun b hb => absurd hb not_mem_nil, rfl⟩
    | @cons o b rows bs ho _ ih =>
      intro st
      obtain ⟨zs, hz, hbuf⟩ := addRow_stores ho st
      obtain ⟨served, htext, hkinds, hfilter⟩ := ih (st.addRow o)
      have hb : b.kind ≠ .timeZone := ho.1 ▸ o.kind_ne_timeZone
      have hnone : (zs.filter fun z => z.kind ≠ .timeZone) = [] := by
        rw [filter_eq_nil_iff]
        intro z hmem
        rw [hz z hmem]
        decide
      refine ⟨zs ++ [b] ++ served, ?_, ?_, ?_⟩
      · rw [foldl_cons, htext, hbuf, blocksText_append (zs ++ [b]), append_assoc]
      · intro b' hb'
        rcases mem_append.mp hb' with hb' | hb'
        · rcases mem_append.mp hb' with hb' | hb'
          · exact .inl (hz b' hb')
          · exact .inr (mem_singleton.mp hb' ▸ mem_cons_self)
        · exact (hkinds b' hb').imp_right (mem_cons_of_mem _)
      · rw [filter_append, filter_append, hnone, hfilter, nil_append,
          filter_cons_of_pos (by simpa using hb)]
        rfl
  obtain ⟨served, htext, hkinds, hfilter⟩ := hfold ⟨shellStart, []⟩
  refine ⟨served, ?_, hkinds, hfilter⟩
  rw [bundleToCalendarBody, htext, shell]

/-! ### Every component is served -/

/-- What a row adds to the occurrences of a text. -/
def chunkOccurrences (p : Text) (o : CalendarObject) : ℕ := (extractObjectChunk o).elim 0 (occurrences p)

variable {p : Text}

theorem occurrences_endLine (hp : Unbroken p) (buf chunk : Text) :
    occurrences p buf + occurrences p chunk ≤ occurrences p (endLine (buf ++ chunk)) := by
  have happ := hp.occurrences_le_append buf chunk
  unfold endLine
  split_ifs
  · exact happ
  · have hend := hp.occurrences_le_append (buf ++ chunk) crlf
    omega

theorem occurrences_addRow (hp : Unbroken p) (st : Bundle) (o : CalendarObject) :
    occurrences p st.buf + chunkOccurrences p o ≤ occurrences p (st.addRow o).buf := by
  have hzones : ∀ (zs : List Text) (st : Bundle), occurrences p st.buf ≤ occurrences p (zs.foldl Bundle.addZone st).buf := by
    intro zs
    induction zs with
    | nil => exact fun st => le_rfl
    | cons z zs ih =>
      intro st
      refine le_trans ?_ (ih (st.addZone z))
      rw [Bundle.addZone]
      split_ifs
      · exact le_rfl
      · exact (Nat.le_add_right _ _).trans (occurrences_endLine hp st.buf z)
  have hz := hzones (extractVtimezoneChunks o.icalData) st
  rw [Bundle.addRow, chunkOccurrences]
  rcases extractObjectChunk o with _ | chunk
  · exact hz
  · have hchunk := occurrences_endLine hp ((extractVtimezoneChunks o.icalData).foldl Bundle.addZone st).buf chunk
    show _ + occurrences p chunk ≤ occurrences p (endLine _)
    omega

theorem occurrences_bundle (hp : Unbroken p) (rows : List CalendarObject) :
    (rows.map (chunkOccurrences p)).sum ≤ occurrences p (bundleToCalendarBody rows) := by
  have hfold : ∀ (rows : List CalendarObject) (st : Bundle), occurrences p st.buf + (rows.map (chunkOccurrences p)).sum ≤
      occurrences p (rows.foldl Bundle.addRow st).buf := by
    intro rows
    induction rows with
    | nil => exact fun st => le_rfl
    | cons o rows ih =>
      intro st
      have hrow := occurrences_addRow hp st o
      have hrest := ih (st.addRow o)
      rw [map_cons, sum_cons, foldl_cons]
      omega
  have hend := hp.occurrences_le_append (rows.foldl Bundle.addRow ⟨shellStart, []⟩).buf shellEnd
  have hrows := hfold rows ⟨shellStart, []⟩
  rw [bundleToCalendarBody]
  omega

theorem Stores.occurrences (h : Stores o b) : chunkOccurrences o.kind.beginTag o = 1 := by
  rw [chunkOccurrences, h.chunk, Option.elim_some, Block.occurrences_text, if_pos h.1]

end OxiCloud.Calendar
