import OxiCloud.Calendar.Upserts

/-! # What a failed upsert leaves behind

An upsert replaces every component by a deletion and an insertion of its own. If a later statement fails, the
call returns an error and the writes before it stay. The tables are as they were exactly if these writes are
pairs, each of them the insertion of a row and its deletion again (`failed_upsert_iff`); so they are if the
statement that failed was the first one that writes. Pairs come about only if components have the same key.

What is added to the tables is told by the new ids. While no row is lost and one is added, the next write has
to delete it; a lost row stays lost, and of two added rows a failure removes at most one. -/

namespace OxiCloud.Calendar

open Lib.Tables Lib.Texts Lib.Programs Lib.Programs.Prog Schema

/-- Every object that was stored was deleted in the next write. -/
def Paired : List Edit → Prop
  | [] => True
  | .put x _ :: .drop y :: es => x = y ∧ Paired es
  | _ => False

theorem paired_put {x : Ref} {o : CalendarObject} {es : List Edit} :
    Paired (.put x o :: es) ↔ ∃ es', es = .drop x :: es' ∧ Paired es' := by
  rcases es with _ | ⟨e, es⟩
  · simp [Paired]
  · rcases e with ⟨y, p⟩ | y
    · simp [Paired]
    · simp [Paired, eq_comm]

theorem not_paired_drop {x : Ref} {es : List Edit} : ¬ Paired (.drop x :: es) := by
  simp [Paired]

variable {db₀ db db' : Database} {l : List (ObjectId × CalendarObject)} {es : List Edit} {x y : Ref}
  {p q : CalendarObject}

/-- The ids drawn for the components are not in use. -/
def Unused (db : Database) (l : List (ObjectId × CalendarObject)) : Prop := ∀ c ∈ l, db.obj (c.2.ref c.1) = none

theorem Fails.calendars (h : Fails db l es db') : db'.calendars = db.calendars := by
  induction h with
  | failed => rfl
  | lost _ _ h => exact h.calendars
  | next h _ ih => exact ih.trans h.calendars

theorem Fails.lost_stays (h : Fails db l es db') (hl : Unused db₀ l) (hx : db₀.obj x = some p) (hn : db.obj x = none) :
    db'.obj x = none := by
  induction h with
  | failed => exact hn
  | lost _ _ h => rw [h.obj, hn, ite_self]
  | @next db db₁ db' i o old l es h _ ih =>
    refine ih (fun c hc => hl c (List.mem_cons_of_mem _ hc)) ?_
    have hne : x ≠ o.ref i := fun heq => by
      have hfree := hl _ List.mem_cons_self
      rw [← heq, hx] at hfree
      exact nomatch hfree
    rw [h.obj, if_neg hne, hn, ite_self]

theorem Fails.added_stays (h : Fails db l es db') (hl : Unused db₀ l) (hxy : x ≠ y) (hx₀ : db₀.obj x = none)
    (hy₀ : db₀.obj y = none) (hx : db.obj x ≠ none) (hy : db.obj y ≠ none) :
    ∃ z, db₀.obj z = none ∧ db'.obj z ≠ none := by
  induction h generalizing x y with
  | failed => exact ⟨x, hx₀, hx⟩
  | @lost db db' i o p z l hp hk h =>
    by_cases hz : x = z
    · refine ⟨y, hy₀, ?_⟩
      rwa [h.obj, if_neg fun heq => hxy (hz.trans heq.symm)]
    · refine ⟨x, hx₀, ?_⟩
      rwa [h.obj, if_neg hz]
  | @next db db₁ db' i o old l es h _ ih =>
    have hl' : Unused db₀ l := fun c hc => hl c (List.mem_cons_of_mem _ hc)
    have hnew : db₁.obj (o.ref i) ≠ none := by rw [h.obj_self]; exact Option.some_ne_none o
    have hnew₀ : db₀.obj (o.ref i) = none := hl _ List.mem_cons_self
    -- an added object that is not replaced stays, and is not the new one
    have hstay : ∀ z, db.obj z ≠ none → old ≠ some z → z ≠ o.ref i ∧ db₁.obj z ≠ none := by
      intro z hz hold
      obtain ⟨q, hq⟩ := Option.ne_none_iff_exists'.mp hz
      have hne : z ≠ o.ref i := fun heq => hold (heq ▸ h.unused q (heq ▸ hq))
      exact ⟨hne, by rwa [h.obj, if_neg hne, if_neg hold]⟩
    by_cases hox : old = some x
    · have hoy : old ≠ some y := fun heq => hxy (Option.mem_unique hox heq)
      obtain ⟨hne, hy₁⟩ := hstay y hy hoy
      exact ih hl' hne hy₀ hnew₀ hy₁ hnew
    · obtain ⟨hne, hx₁⟩ := hstay x hx hox
      exact ih hl' hne hx₀ hnew₀ hx₁ hnew

/-- The objects are those of `db₀`. -/
def Same (db₀ db : Database) : Prop := ∀ z, db.obj z = db₀.obj z

/-- The objects are those of `db₀` and one more. -/
def OneMore (db₀ db : Database) (y : Ref) : Prop :=
  db₀.obj y = none ∧ ∃ q, ∀ z, db.obj z = if z = y then some q else db₀.obj z

theorem OneMore.not_same (h : OneMore db₀ db y) : ¬ Same db₀ db := by
  obtain ⟨hy₀, q, hq⟩ := h
  intro hs
  have hy := hq y
  rw [hs y, hy₀, if_pos rfl] at hy
  exact nomatch hy

theorem OneMore.obj_of_ne (h : OneMore db₀ db y) (hx : x ≠ y) : db.obj x = db₀.obj x := by
  obtain ⟨-, q, hq⟩ := h
  rw [hq, if_neg hx]

theorem OneMore.obj_ne_none (h : OneMore db₀ db y) : db.obj y ≠ none := by
  obtain ⟨-, q, hq⟩ := h
  rw [hq, if_pos rfl]
  exact Option.some_ne_none q

/-- A failure that follows the loss of an object of `db₀` does not end where it began. -/
theorem Fails.not_same_of_lost (h : Fails db l es db') (hl : Unused db₀ l) (hx : db₀.obj x = some p)
    (hn : db.obj x = none) : ¬ Same db₀ db' := by
  intro hs
  have hlost := h.lost_stays hl hx hn
  rw [hs x, hx] at hlost
  exact nomatch hlost

theorem Fails.not_same_of_added (h : Fails db l es db') (hl : Unused db₀ l) (hxy : x ≠ y) (hx₀ : db₀.obj x = none)
    (hy₀ : db₀.obj y = none) (hx : db.obj x ≠ none) (hy : db.obj y ≠ none) : ¬ Same db₀ db' := by
  intro hs
  obtain ⟨z, hz₀, hz⟩ := h.added_stays hl hxy hx₀ hy₀ hx hy
  exact hz (by rw [hs z, hz₀])

variable {i : ObjectId} {o : CalendarObject} {old : Option Ref}

theorem Put.oneMore_of_same (h : Put db i o none db') (hs : Same db₀ db) (hn : db₀.obj (o.ref i) = none) :
    OneMore db₀ db' (o.ref i) := by
  refine ⟨hn, o, fun z => ?_⟩
  rw [h.obj]
  simp only [reduceCtorEq, if_false]
  rw [hs z]

theorem Put.oneMore_of_oneMore (h : Put db i o (some y) db') (hy : OneMore db₀ db y)
    (hn : db₀.obj (o.ref i) = none) : OneMore db₀ db' (o.ref i) := by
  refine ⟨hn, o, fun z => ?_⟩
  rw [h.obj]
  by_cases hz : z = o.ref i
  · rw [if_pos hz, if_pos hz]
  · by_cases hzy : z = y
    · rw [if_pos (congrArg some hzy.symm), hzy, hy.1]
    · rw [if_neg fun heq => hzy (Option.some.inj heq).symm, hy.obj_of_ne hzy]

/-- An object of `db₀` that a component took the place of is lost. -/
theorem Put.lost (h : Put db i o (some x) db') (hx : x ≠ o.ref i) : db'.obj x = none := by
  rw [h.obj, if_neg hx, if_pos rfl]

theorem putEdits_none : putEdits i o none ++ es = .put (o.ref i) o :: es := rfl

theorem putEdits_some : putEdits i o (some x) ++ es = .drop x :: .put (o.ref i) o :: es := rfl

theorem drop_rest : (∃ es', Edit.drop x :: es = .drop y :: es' ∧ Paired es') ↔ x = y ∧ Paired es := by
  simp

/-- **A failure restores the objects exactly if the writes before it were pairs**; if one more object was there
before, exactly if the first of them deletes it and the others are pairs. -/
theorem Fails.same_iff (h : Fails db l es db') (hl : Unused db₀ l) :
    (Same db₀ db → (Same db₀ db' ↔ Paired es)) ∧
    ∀ y, OneMore db₀ db y → (Same db₀ db' ↔ ∃ es', es = .drop y :: es' ∧ Paired es') := by
  induction h with
  | @failed db i o l =>
    refine ⟨fun hs => iff_of_true hs trivial, fun y hy => iff_of_false hy.not_same ?_⟩
    rintro ⟨es', hes, -⟩
    exact nomatch hes
  | @lost db db' i o p x l hp hk h =>
    constructor
    · intro hs
      refine iff_of_false (fun hs' => ?_) not_paired_drop
      have hx := h.obj x
      rw [if_pos rfl, hs' x, ← hs x, hp] at hx
      exact nomatch hx
    · intro y hy
      by_cases hxy : x = y
      · subst hxy
        refine iff_of_true (fun z => ?_) ⟨[], rfl, trivial⟩
        rw [h.obj]
        by_cases hz : z = x
        · rw [if_pos hz, hz, hy.1]
        · rw [if_neg hz, hy.obj_of_ne hz]
      · refine iff_of_false (fun hs' => ?_) fun hex => hxy (drop_rest.mp hex).1
        have hx := h.obj y
        rw [if_neg (Ne.symm hxy), hs' y, hy.1] at hx
        exact hy.obj_ne_none hx.symm
  | @next db db₁ db' i o old l es h hf ih =>
    have hl' : Unused db₀ l := fun c hc => hl c (List.mem_cons_of_mem _ hc)
    have hnew₀ : db₀.obj (o.ref i) = none := hl _ List.mem_cons_self
    have hlost : ∀ x p, old = some x → db₀.obj x = some p → ¬ Same db₀ db' := by
      intro x p hold hx
      subst hold
      have hne : x ≠ o.ref i := fun heq => by rw [heq, hnew₀] at hx; exact nomatch hx
      exact hf.not_same_of_lost hl' hx (h.lost hne)
    constructor
    · intro hs
      rcases old with _ | x
      · rw [putEdits_none, paired_put]
        exact (ih hl').2 _ (h.oneMore_of_same hs hnew₀)
      · obtain ⟨p, hp, -⟩ := h.replaced x rfl
        exact iff_of_false (hlost x p rfl (by rw [← hs x, hp])) not_paired_drop
    · intro y hy
      rcases old with _ | x
      · have hne : y ≠ o.ref i := fun heq => by
          obtain ⟨q, hq⟩ := Option.ne_none_iff_exists'.mp hy.obj_ne_none
          exact nomatch h.unused q (heq ▸ hq)
        have hy₁ : db₁.obj y ≠ none := by
          rw [h.obj, if_neg hne]
          exact hy.obj_ne_none
        have hnew : db₁.obj (o.ref i) ≠ none := by rw [h.obj_self]; exact Option.some_ne_none o
        refine iff_of_false (hf.not_same_of_added hl' hne hy.1 hnew₀ hy₁ hnew) ?_
        rintro ⟨es', hes, -⟩
        exact nomatch hes
      · by_cases hxy : x = y
        · subst hxy
          rw [putEdits_some, (ih hl').2 _ (h.oneMore_of_oneMore hy hnew₀), drop_rest, paired_put]
          exact (and_iff_right rfl).symm
        · obtain ⟨p, hp, -⟩ := h.replaced x rfl
          exact iff_of_false (hlost x p rfl (by rw [← hy.obj_of_ne hxy, hp])) fun hex => hxy (drop_rest.mp hex).1

variable {zones : Zones} {draw : Draw} {cal : CalendarId} {data : Text} {b : Bool} {tr : List Stmt} {a : Abort}

/-- The ids a call draws are new. -/
def Draw.New (draw : Draw) (db : Database) : Prop :=
  ∀ n, db.obj (.event (draw.id n)) = none ∧ db.obj (.todo (draw.id n)) = none

theorem Draw.New.unused (h : draw.New db) (events : List (CalendarEvent DateTime))
    (todos : List (CalendarTodo DateTime)) : Unused db (drawnObjects draw events todos) := by
  intro c hc
  obtain ⟨-, m, hm⟩ := mem_withIds hc
  rw [hm]
  rcases c.2 with r | r
  · exact (h m).1
  · exact (h m).2

/-- A body with one event. -/
def talkBody : Text :=
  textOf ["BEGIN:VCALENDAR", "BEGIN:VEVENT", "UID:u", "DTSTART:20260101T090000Z", "DTEND:20260101T100000Z", "SUMMARY:s",
    "END:VEVENT", "END:VCALENDAR"]

instance neZeroHours : NeZero 24 := ⟨by decide⟩

def talkTime (h : Fin 24) : DateTime :=
  ⟨2026, 1, 1, h, 0, 0, 0, newYear.date_ok, ⟨h.2, by decide, by decide, by decide, by decide⟩⟩

/-- The row of the event. -/
def talk : CalendarEvent DateTime :=
  ⟨0, ['u'], none, talkBody, ⟨['s'], none, none, talkTime 9, talkTime 10, false, none⟩⟩

/-- A calendar with the event. -/
def talkDb : Database := ⟨{0}, (Objects.empty.insert 0 talk).getD .empty, .empty⟩

def talkDraw : Draw := ⟨fun n => n + 1, fun _ => ['v'], talkTime 0⟩

theorem talkDraw_new : talkDraw.New talkDb := fun _ => ⟨rfl, rfl⟩

/-- The call ends with an error in a state that passes the test. -/
def endsBadly (test : Database → Bool) (x : Except Abort UpsertObjectsResult × Database) : Bool :=
  !x.1.isOk && test x.2

theorem exists_failed_run {test : Database → Bool} {faults : List Bool}
    (h : (replay machine free faults (upsertIcalObjects (fun _ => none) talkDraw 0 talkBody true) talkDb).any
      (endsBadly test) = true) :
    ∃ a db' tr, Run machine free (upsertIcalObjects (fun _ => none) talkDraw 0 talkBody true) talkDb tr (.error a) db' ∧
      test db' = true := by
  obtain ⟨r, db', tr, hrun, hq⟩ := exists_run h
  obtain ⟨herr, htest⟩ := Bool.and_eq_true_iff.mp hq
  rcases r with a | x
  · exact ⟨a, db', tr, hrun, htest⟩
  · exact nomatch herr

end OxiCloud.Calendar
