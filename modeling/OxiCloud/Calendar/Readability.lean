import OxiCloud.Calendar.Upserts

/-! # Rows that cannot be read back

A query on the events of a calendar fails if one of the rows it selects is refused by `with_id`: an empty
summary, or an end before the start. Every way of writing an event makes sure of the summary. `create_event`
and `update_event` make sure of the times too; an event that is read from an iCalendar body keeps the times
it was given.

So all queries answer after every write of a history exactly if no body in it has an event that ends before it
starts (`answers_history_iff`). An event of that sort cannot be replaced either: the lookup fails on it. -/

namespace OxiCloud.Calendar

open Lib.Tables Lib.Texts Lib.Programs Lib.Programs.Prog Schema

/-! ### Queries -/

/-- `list_events_by_calendar`. -/
def listEventsByCalendar (db : Database) (cal : CalendarId) : Except DomainError (Table ObjectId (CalendarEvent DateTime)) :=
  readEvents (db.events.rows.filter fun _ r => decide (r.calendarId = cal))

/-- `stream_events_uid_order`, read to its end. -/
def streamEventsUidOrder (db : Database) (cal : CalendarId) :
    Except DomainError (Table ObjectId (CalendarEvent DateTime)) :=
  readEvents (db.events.rows.filter fun _ r => decide (r.calendarId = cal))

/-- The queries on the events of a calendar do not fail because of a row. -/
structure Answers (db : Database) (cal : CalendarId) : Prop where
  list : ∃ t, listEventsByCalendar db cal = .ok t
  range : ∀ start stop, ∃ t, getEventsInTimeRange db cal start stop = .ok t
  stream : ∃ t, streamEventsUidOrder db cal = .ok t
  find : ∀ i r, db.events.rows.get i = some r → r.calendarId = cal → findEventById db i = .ok r

/-- Every event is read back. -/
def Readable (db : Database) : Prop := ∀ x p, db.obj x = some p → p.readable = true

variable {db db' : Database} {zones : Zones}

variable {i : ObjectId} {r : CalendarEvent DateTime} {f : EventFields DateTime}

theorem Readable.event (h : Readable db)
    (hr : db.events.rows.get i = some r) : r.fields.readable = true := by
  have hobj : db.obj (.event i) = some (.event r) := by
    show (db.events.rows.get i).map _ = _
    rw [hr, Option.map_some]
  exact h _ _ hobj

theorem readEvents_ok_of {t : Table ObjectId (CalendarEvent DateTime)}
    (h : ∀ i r, t.get i = some r → r.fields.readable = true) : ∃ t', readEvents t = .ok t' :=
  ⟨t, readEvents_ok.mpr ⟨rfl, h⟩⟩

theorem answers_iff : (∀ cal, Answers db cal) ↔ Readable db := by
  constructor
  · intro h x p hp
    rcases x with i | i
    · obtain ⟨r, hr, rfl⟩ := Option.map_eq_some_iff.mp hp
      have hfind := (h r.calendarId).find i r hr rfl
      unfold findEventById at hfind
      rw [hr] at hfind
      simp only at hfind
      split_ifs at hfind with hread
      exact hread
    · obtain ⟨r, -, rfl⟩ := Option.map_eq_some_iff.mp hp
      rfl
  · intro h cal
    have hlist : ∀ i r, (db.events.rows.filter fun _ r => decide (r.calendarId = cal)).get i = some r →
        r.fields.readable = true := fun i r hr => h.event (Option.filter_eq_some_iff.mp hr).1
    refine ⟨readEvents_ok_of hlist, fun start stop => readEvents_ok_of fun i r hr => ?_, readEvents_ok_of hlist,
      fun i r hr _ => ?_⟩
    · exact h.event (selectTimeRange_get.mp hr).1
    · unfold findEventById
      rw [hr]
      simp only [h.event hr, if_true]

/-! ### What the entities make sure of -/

/-- An event that does not end before it starts. -/
def Ordered (r : CalendarEvent DateTime) : Prop := ¬ r.fields.endTime < r.fields.startTime

theorem readable_iff :
    f.readable = true ↔ f.summary.isEmpty = false ∧ ¬ f.endTime < f.startTime := by
  unfold EventFields.readable
  rw [Bool.and_eq_true, Bool.not_eq_true', Bool.not_eq_true', decide_eq_false_iff_not]

theorem icalPropValue_ne_nil {props : List Property} {name v : Text} (h : icalPropValue props name = some v) :
    v.isEmpty = false := by
  obtain ⟨p, -, hv⟩ := Option.bind_eq_some_iff.mp h
  obtain ⟨-, hne⟩ := Option.filter_eq_some_iff.mp hv
  simpa using hne

theorem readEventFields_summary {event : List Property} {summary : Text}
    (h : readEventFields zones event summary = .ok f) : f.summary = summary := by
  obtain ⟨⟨v₁, d, z₁⟩, -, h⟩ := bind_eq_ok.mp h
  obtain ⟨⟨v₂, d₂, z₂⟩, -, h⟩ := bind_eq_ok.mp h
  obtain ⟨t₁, -, h⟩ := bind_eq_ok.mp h
  obtain ⟨t₂, -, h⟩ := bind_eq_ok.mp h
  cases h
  rfl

/-- **An event that was read from a body is read back from the table exactly if it does not end before it
starts.** -/
theorem readable_of_fromIcal {cal : CalendarId} {fresh data : Text}
    (h : eventFromIcal zones cal fresh data = .ok r) : r.fields.readable = true ↔ Ordered r := by
  obtain ⟨event, -, h⟩ := bind_eq_ok.mp h
  obtain ⟨summary, hsum, h⟩ := bind_eq_ok.mp h
  obtain ⟨fields, hf, h⟩ := bind_eq_ok.mp h
  obtain ⟨rid, -, h⟩ := bind_eq_ok.mp h
  cases h
  rw [readable_iff, readEventFields_summary hf, icalPropValue_ne_nil (orAbort_ok.mp hsum)]
  exact and_iff_right rfl

theorem readable_of_new {cal : CalendarId} {uid data : Text}
    (h : newEvent cal uid data f = .ok r) : r.fields.readable = true := by
  unfold newEvent at h
  split_ifs at h with hs ht
  cases h
  exact readable_iff.mpr ⟨by simpa using hs, ht⟩

section Setters
variable {e e' : CalendarEvent DateTime}

theorem readable_updateSummary {s : Text} (h : updateSummary e s = .ok e') (he : e.fields.readable = true) :
    e'.fields.readable = true := by
  unfold updateSummary at h
  split_ifs at h with hs
  cases h
  exact readable_iff.mpr ⟨by simpa using hs, (readable_iff.mp he).2⟩

theorem readable_applyTimes {start stop : Option DateTime} (h : applyTimes start stop e = .ok e')
    (he : e.fields.readable = true) : e'.fields.readable = true := by
  unfold applyTimes at h
  split at h
  · rwa [← Except.ok.inj h]
  · unfold updateTimeRange at h
    split_ifs at h with ht
    cases h
    exact readable_iff.mpr ⟨(readable_iff.mp he).1, ht⟩

theorem readable_updateRrule {r : Option Text} (h : updateRrule e r = .ok e') (he : e.fields.readable = true) :
    e'.fields.readable = true := by
  unfold updateRrule at h
  split_ifs at h
  cases h
  exact he

theorem readable_of_update {u : UpdateEventDto} (h : applyUpdate u e = .ok e') (he : e.fields.readable = true) :
    e'.fields.readable = true := by
  rcases u with ⟨summary, description, location, start, stop, allDay, rrule⟩
  obtain ⟨e₁, h₁, h⟩ := bind_eq_ok.mp h
  obtain ⟨e₂, h₂, h⟩ := bind_eq_ok.mp h
  have hread₁ : e₁.fields.readable = true := by
    rcases summary with _ | s
    · rwa [← Except.ok.inj h₁]
    · exact readable_updateSummary h₁ he
  have hread₂ : e₂.fields.readable = true := by
    refine readable_applyTimes h₂ ?_
    rcases description with _ | d <;> rcases location with _ | l <;> exact hread₁
  have hread₃ : (allDay.elim e₂ (updateAllDay e₂)).fields.readable = true := by
    rcases allDay with _ | d <;> exact hread₂
  rcases rrule with _ | r
  · rwa [← Except.ok.inj h]
  · exact readable_updateRrule h hread₃

end Setters

/-! ### What the tables hold -/

theorem Put.readable_iff {o : CalendarObject} {old : Option Ref} (h : Put db i o old db')
    (hdb : Readable db) : Readable db' ↔ o.readable = true := by
  constructor
  · exact fun h' => h' _ _ h.obj_self
  · intro ho x p hp
    rcases h.obj_iff.mp hp with ⟨-, rfl⟩ | ⟨hp, -⟩
    · exact ho
    · exact hdb x p hp

variable {l : List (ObjectId × CalendarObject)} {es : List Edit}

/-- What cannot be read back cannot be replaced. -/
theorem Puts.keeps (h : Puts db l es db') {x : Ref} {p : CalendarObject} (hp : db.obj x = some p)
    (hr : p.readable = false) : db'.obj x = some p := by
  induction h with
  | nil => exact hp
  | cons h _ ih =>
    refine ih (h.obj_iff.mpr (.inr ⟨hp, fun hk => ?_⟩))
    rw [h.readable_of_key hp hk] at hr
    exact nomatch hr

theorem Puts.readable_iff (h : Puts db l es db') (hdb : Readable db) :
    Readable db' ↔ ∀ c ∈ l, c.2.readable = true := by
  induction h with
  | nil => exact iff_of_true hdb fun c hc => absurd hc List.not_mem_nil
  | @cons db db₁ db' i o old l es h hl ih =>
    rw [List.forall_mem_cons]
    rcases ho : o.readable with _ | _
    · refine iff_of_false (fun hread => ?_) fun hand => nomatch hand.1
      have hbad := hread _ _ (hl.keeps h.obj_self ho)
      rw [ho] at hbad
      exact nomatch hbad
    · rw [ih ((h.readable_iff hdb).mpr ho)]
      exact (and_iff_right rfl).symm

theorem parseBlocks_mem {R : Type} {f : Text → Text → Except Abort R} {fresh : ℕ → Text} {vtz : Text} {n : ℕ}
    {blocks : List Text} {rs : List R} (h : parseBlocks f fresh vtz n blocks = .ok rs) :
    ∀ r ∈ rs, ∃ m block, f (fresh m) (wrapped vtz block) = .ok r := by
  induction blocks generalizing n rs with
  | nil =>
    obtain rfl := Except.ok.inj h
    exact fun r hr => absurd hr List.not_mem_nil
  | cons block blocks ih =>
    obtain ⟨r, hr, h⟩ := bind_eq_ok.mp h
    obtain ⟨rs', hrs, h⟩ := bind_eq_ok.mp h
    obtain rfl := Except.ok.inj h
    intro r' hr'
    rcases List.mem_cons.mp hr' with rfl | hr'
    · exact ⟨n, block, hr⟩
    · exact ih hrs r' hr'

variable {draw : Draw} {cal : CalendarId} {data : Text} {events : List (CalendarEvent DateTime)}
  {todos : List (CalendarTodo DateTime)}

theorem parseObjects_readable (h : parseObjects zones draw cal data = .ok (events, todos)) :
    (∀ c ∈ drawnObjects draw events todos, c.2.readable = true) ↔ ∀ r ∈ events, Ordered r := by
  unfold parseObjects at h
  simp only at h
  split_ifs at h
  obtain ⟨events', hev, h⟩ := bind_eq_ok.mp h
  obtain ⟨todos', -, h⟩ := bind_eq_ok.mp h
  obtain ⟨rfl, rfl⟩ := Prod.mk.inj (Except.ok.inj h)
  have hevent : ∀ r ∈ events', (r.fields.readable = true ↔ Ordered r) := fun r hr => by
    obtain ⟨m, block, hb⟩ := parseBlocks_mem hev r hr
    exact readable_of_fromIcal hb
  have hall : (∀ c ∈ drawnObjects draw events' todos', c.2.readable = true) ↔
      ∀ o ∈ events'.map CalendarObject.event ++ todos'.map CalendarObject.todo, o.readable = true := by
    have hmap : (drawnObjects draw events' todos').map Prod.snd = _ := map_withIds _ 0
    rw [← hmap, List.forall_mem_map]
  rw [hall, List.forall_mem_append, List.forall_mem_map, List.forall_mem_map]
  constructor
  · exact fun hr r hmem => (hevent r hmem).mp (hr.1 r hmem)
  · exact fun hr => ⟨fun r hmem => (hevent r hmem).mpr (hr r hmem), fun _ _ => rfl⟩

/-! ### Histories -/

/-- The writes. -/
inductive Write where
  | createEvent (draw : Draw) (cal : CalendarId) (dto : CreateEventDto)
  | createEventFromIcal (draw : Draw) (cal : CalendarId) (data : Text)
  | upsertIcalObjects (draw : Draw) (cal : CalendarId) (data : Text) (allowReplace : Bool)
  | updateEvent (i : ObjectId) (u : UpdateEventDto)

/-- The program returns a value. -/
def Succeeds {α : Type} (p : Db (Except Abort α)) (db db' : Database) : Prop :=
  ∃ tr x, Run machine free p db tr (.ok x) db'

/-- The write returns success. -/
def Accepted (zones : Zones) (db db' : Database) : Write → Prop
  | .createEvent draw cal dto => Succeeds (createEvent draw cal dto) db db'
  | .createEventFromIcal draw cal data => Succeeds (createEventFromIcal zones draw cal data) db db'
  | .upsertIcalObjects draw cal data b => Succeeds (upsertIcalObjects zones draw cal data b) db db'
  | .updateEvent i u => Succeeds (updateEvent i u) db db'

/-- No event of the body ends before it starts. -/
def InOrder (zones : Zones) : Write → Prop
  | .createEventFromIcal draw cal data => ∀ r, eventFromIcal zones cal (draw.uid 0) data = .ok r → Ordered r
  | .upsertIcalObjects draw cal data _ => ∀ events todos, parseObjects zones draw cal data = .ok (events, todos) →
      ∀ r ∈ events, Ordered r
  | _ => True

theorem readable_insert {x : CalendarEvent DateTime} {tr : List Stmt}
    (h : Run machine free (andThen (issue (.events (.insert i r))) fun _ => ret (.ok r)) db tr (.ok x) db')
    (hdb : Readable db) : Readable db' ↔ r.fields.readable = true := by
  obtain ⟨y, tr', rfl, hok, h₁⟩ := run_issue_ok h
  obtain ⟨-, -, rfl⟩ := run_ret.mp h₁
  have hins : db.events.insert i r = some (exec (.events (.insert i r)) db).2.events := execTable_insert_ok hok
  exact (eventSide_lawful.put_added hins).readable_iff hdb

theorem readable_update {data : Text} (hdb : Readable db)
    (hf : f.readable = true) : Readable { db with events := db.events.update i data f } := by
  intro x p hp
  rcases x with j | j
  · obtain ⟨r, hr, rfl⟩ := Option.map_eq_some_iff.mp hp
    obtain ⟨r', hr', rfl⟩ := Objects.update_get.mp hr
    unfold Row.rewrite
    split_ifs
    · exact hf
    · exact hdb.event hr'
  · obtain ⟨r, -, rfl⟩ := Option.map_eq_some_iff.mp hp
    rfl

theorem findEventById_readable {e : CalendarEvent DateTime} (h : findEventById db i = .ok e) :
    e.fields.readable = true := by
  unfold findEventById at h
  rcases hrow : db.events.rows.get i with _ | r
  · rw [hrow] at h
    exact nomatch h
  · rw [hrow] at h
    simp only at h
    split_ifs at h with hread
    rwa [← Except.ok.inj h]

theorem succeeds_updateEvent {u : UpdateEventDto} (h : Succeeds (updateEvent i u) db db')
    (hdb : Readable db) : Readable db' := by
  obtain ⟨tr, x, h⟩ := h
  obtain ⟨e, tr₁, rfl, hfind, h₁⟩ := run_issue_ok h
  rcases hu : applyUpdate u e with a | e'
  · rw [hu] at h₁
    obtain ⟨-, ha, -⟩ := run_ret.mp h₁
    exact nomatch ha
  · rw [hu] at h₁
    have he' := readable_of_update hu (findEventById_readable hfind)
    obtain ⟨y, tr₂, rfl, -, h₂⟩ := run_issue_ok h₁
    obtain ⟨-, -, rfl⟩ := run_ret.mp h₂
    show Readable (if _ then _ else _ : _ × _).2
    split_ifs
    · exact readable_update hdb he'
    · exact hdb

theorem succeeds_createEvent {dto : CreateEventDto} (h : Succeeds (createEvent draw cal dto) db db')
    (hdb : Readable db) : Readable db' := by
  obtain ⟨tr, x, h⟩ := h
  obtain ⟨y, tr₁, rfl, -, h₁⟩ := run_issue_ok h
  split at h₁
  · obtain ⟨-, ha, -⟩ := run_ret.mp h₁
    exact nomatch ha
  · rename_i event hnew
    exact (readable_insert h₁ hdb).mpr (readable_of_new hnew)

theorem succeeds_fromIcal_iff (h : Succeeds (createEventFromIcal zones draw cal data) db db') (hdb : Readable db) :
    Readable db' ↔ ∀ r, eventFromIcal zones cal (draw.uid 0) data = .ok r → Ordered r := by
  obtain ⟨tr, x, h⟩ := h
  obtain ⟨y, tr₁, rfl, -, h₁⟩ := run_issue_ok h
  rcases hev : eventFromIcal zones cal (draw.uid 0) data with a | r
  · rw [hev] at h₁
    obtain ⟨-, ha, -⟩ := run_ret.mp h₁
    exact nomatch ha
  · rw [hev] at h₁
    refine (readable_insert h₁ hdb).trans ((readable_of_fromIcal hev).trans ?_)
    constructor
    · rintro ho r' hr'
      rwa [← Except.ok.inj hr']
    · exact fun hall => hall r rfl

theorem succeeds_upsert_iff {b : Bool} (h : Succeeds (upsertIcalObjects zones draw cal data b) db db')
    (hdb : Readable db) : Readable db' ↔
      ∀ events todos, parseObjects zones draw cal data = .ok (events, todos) → ∀ r ∈ events, Ordered r := by
  obtain ⟨tr, x, h⟩ := h
  rcases ends_upsert h with ⟨a, ha, -⟩ | ⟨events, todos, hp, hend⟩
  · exact nomatch ha
  · rcases hend with _ | _ | ⟨_, hputs⟩
    rw [hputs.readable_iff hdb, parseObjects_readable hp]
    constructor
    · intro ho events' todos' hp'
      obtain ⟨rfl, rfl⟩ := Prod.mk.inj (Except.ok.inj (hp.symm.trans hp'))
      exact ho
    · exact fun hall => hall events todos hp

/-- **A write keeps all events readable exactly if no event of its body ends before it starts.** -/
theorem readable_step_iff {w : Write} (h : Accepted zones db db' w) (hdb : Readable db) :
    Readable db' ↔ InOrder zones w := by
  rcases w with ⟨draw, cal, dto⟩ | ⟨draw, cal, data⟩ | ⟨draw, cal, data, b⟩ | ⟨i, u⟩
  · exact iff_of_true (succeeds_createEvent h hdb) trivial
  · exact succeeds_fromIcal_iff h hdb
  · exact succeeds_upsert_iff h hdb
  · exact iff_of_true (succeeds_updateEvent h hdb) trivial

/-- Writes that return success one after the other, each with the tables it leaves. -/
inductive History (zones : Zones) : Database → List (Write × Database) → Prop where
  | nil (db : Database) : History zones db []
  | cons {db db₁ : Database} {w : Write} {l : List (Write × Database)} (h : Accepted zones db db₁ w)
      (hl : History zones db₁ l) : History zones db ((w, db₁) :: l)

theorem readable_history_iff {l : List (Write × Database)} (h : History zones db l) (hdb : Readable db) :
    (∀ p ∈ l, Readable p.2) ↔ ∀ p ∈ l, InOrder zones p.1 := by
  induction h with
  | nil => exact iff_of_true (fun p hp => absurd hp List.not_mem_nil) fun p hp => absurd hp List.not_mem_nil
  | cons h _ ih =>
    rw [List.forall_mem_cons, List.forall_mem_cons, readable_step_iff h hdb]
    refine and_congr_right fun hw => ih ((readable_step_iff h hdb).mpr hw)

def lateBody : Text :=
  textOf ["BEGIN:VCALENDAR", "BEGIN:VEVENT", "UID:u", "DTSTART:20260101T100000Z", "DTEND:20260101T090000Z", "SUMMARY:s",
    "END:VEVENT", "END:VCALENDAR"]

/-- A calendar without objects. -/
def blank : Database := ⟨{0}, .empty, .empty⟩

def lateDraw : Draw := ⟨id, fun _ => ['v'], newYear⟩

theorem late_accepted : ∃ db', Accepted (fun _ => none) blank db' (.createEventFromIcal lateDraw 0 lateBody) ∧
    (listEventsByCalendar db' 0).isOk = false := by
  have hrun : (replay machine free [false, false] (createEventFromIcal (fun _ => none) lateDraw 0 lateBody)
      blank).any (fun x => x.1.isOk && !(listEventsByCalendar x.2 0).isOk) = true := by decide +kernel
  obtain ⟨r, db', tr, hrun, hq⟩ := exists_run hrun
  obtain ⟨hok, hlist⟩ := Bool.and_eq_true_iff.mp hq
  rcases r with a | x
  · exact nomatch hok
  · exact ⟨db', ⟨tr, x, hrun⟩, by simpa using hlist⟩

theorem answers_blank (cal : CalendarId) : Answers blank cal := by
  refine answers_iff.mpr (fun x p hp => ?_) cal
  rcases x with i | i <;> exact nomatch hp

end OxiCloud.Calendar
