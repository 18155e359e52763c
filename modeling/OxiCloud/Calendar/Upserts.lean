import OxiCloud.Calendar.Storage

/-! # What an upsert does

The two tables are looked at as one partial map from references to objects. A component that is stored takes
the place of the object with its key (`Put`). A call that fails in the loop has stored the components before
the one it failed at, and may have deleted the object that one was to replace (`Fails`). -/

namespace OxiCloud.Calendar

open Lib.Tables Lib.Texts Lib.Programs Lib.Programs.Prog Schema List Option

/-! ### Objects of both tables -/

/-- The object stored under a reference. -/
def Store.obj (db : Database) : Ref → Option CalendarObject
  | .event i => (db.events.rows.get i).map .event
  | .todo i => (db.todos.rows.get i).map .todo

namespace CalendarObject

def ref (i : ObjectId) : CalendarObject → Ref
  | .event _ => .event i
  | .todo _ => .todo i

/-- The table of an object and its key there. -/
def key : CalendarObject → Kind × Key
  | .event r => (.event, r.key)
  | .todo r => (.todo, r.key)

/-- The row is read back. -/
def readable : CalendarObject → Bool
  | .event r => r.fields.readable
  | .todo _ => true

end CalendarObject

theorem objects_ext {D : Type} {t t' : Objects DateTime D} (h : ∀ i, t.rows.get i = t'.rows.get i) :
    t = t' := by
  rcases t with ⟨rows, u⟩
  rcases t' with ⟨rows', u'⟩
  obtain rfl : rows = rows' := Table.ext h
  rfl

theorem Store.ext_obj {db db' : Database} (hc : db'.calendars = db.calendars) (h : ∀ x, db'.obj x = db.obj x) :
    db' = db := by
  have he : db'.events = db.events := objects_ext fun i =>
    map_injective (fun _ _ heq => CalendarObject.event.inj heq) (h (.event i))
  have ht : db'.todos = db.todos := objects_ext fun i =>
    map_injective (fun _ _ heq => CalendarObject.todo.inj heq) (h (.todo i))
  rcases db with ⟨c, e, t⟩
  rcases db' with ⟨c', e', t'⟩
  simp only at hc he ht
  rw [hc, he, ht]

theorem Store.obj_unique {db : Database} {x y : Ref} {p q : CalendarObject} (hx : db.obj x = some p)
    (hy : db.obj y = some q) (hk : p.key = q.key) : x = y := by
  rcases x with i | i <;> rcases y with j | j <;>
    obtain ⟨r, hr, rfl⟩ := map_eq_some_iff.mp hx <;>
    obtain ⟨r', hr', rfl⟩ := map_eq_some_iff.mp hy
  · exact congrArg Ref.event (db.events.unique hr hr' (Prod.mk.inj hk).2)
  · exact absurd (Prod.mk.inj hk).1 (by decide)
  · exact absurd (Prod.mk.inj hk).1 (by decide)
  · exact congrArg Ref.todo (db.todos.unique hr hr' (Prod.mk.inj hk).2)

/-- What a statement of an upsert writes. -/
inductive Edit where
  | put (x : Ref) (o : CalendarObject)
  | drop (x : Ref)
  deriving DecidableEq

def Stmt.edit : Stmt → Option Edit
  | .events (.insert i r) => some (.put (.event i) (.event r))
  | .events (.delete i) => some (.drop (.event i))
  | .todos (.insert i r) => some (.put (.todo i) (.todo r))
  | .todos (.delete i) => some (.drop (.todo i))
  | _ => none

/-- The writes among statements. -/
def edits (tr : List Stmt) : List Edit := tr.filterMap Stmt.edit

/-- How a table is seen in the map of objects. -/
structure Side.Lawful {D : Type} (S : Side D) : Prop where
  obj_ref : ∀ (db : Database) (i : ObjectId), db.obj (S.ref i) = ((S.table db).rows.get i).map S.object
  obj_put : ∀ (t : Objects DateTime D) (db : Database) (x : Ref), (∀ i, x ≠ S.ref i) → (S.put t db).obj x = db.obj x
  table_put : ∀ (t : Objects DateTime D) (db : Database), S.table (S.put t db) = t
  put_table : ∀ db : Database, S.put (S.table db) db = db
  calendars_put : ∀ (t : Objects DateTime D) (db : Database), (S.put t db).calendars = db.calendars
  ref_injective : Function.Injective S.ref
  object_ref : ∀ (r : Row DateTime D) (i : ObjectId), (S.object r).ref i = S.ref i
  object_key : ∀ r r' : Row DateTime D, (S.object r).key = (S.object r').key ↔ r.key = r'.key
  object_readable : ∀ r : Row DateTime D, (S.object r).readable = S.columns.readable r.fields
  key_ref : ∀ (db : Database) (x : Ref) (p : CalendarObject) (r : Row DateTime D), db.obj x = some p →
    p.key = (S.object r).key → ∃ i, x = S.ref i
  edit_insert : ∀ (i : ObjectId) (r : Row DateTime D),
    (S.stmt (.insert i r)).edit = some (.put (S.ref i) (S.object r))
  edit_delete : ∀ i : ObjectId, (S.stmt (.delete i)).edit = some (.drop (S.ref i))
  edit_find : ∀ k : Key, (S.stmt (.findByKey k)).edit = none

theorem eventSide_lawful : eventSide.Lawful where
  obj_ref _ _ := rfl
  obj_put t db x hx := by
    rcases x with i | i
    · exact absurd rfl (hx i)
    · rfl
  table_put _ _ := rfl
  put_table _ := rfl
  calendars_put _ _ := rfl
  ref_injective _ _ h := Ref.event.inj h
  object_ref _ _ := rfl
  object_key r r' := ⟨fun h => (Prod.mk.inj h).2, fun h => congrArg (Prod.mk Kind.event) h⟩
  object_readable _ := rfl
  key_ref db x p r hp hk := by
    rcases x with i | i
    · exact ⟨i, rfl⟩
    · obtain ⟨q, -, rfl⟩ := map_eq_some_iff.mp hp
      exact absurd (Prod.mk.inj hk).1 (by decide)
  edit_insert _ _ := rfl
  edit_delete _ := rfl
  edit_find _ := rfl

theorem todoSide_lawful : todoSide.Lawful where
  obj_ref _ _ := rfl
  obj_put t db x hx := by
    rcases x with i | i
    · rfl
    · exact absurd rfl (hx i)
  table_put _ _ := rfl
  put_table _ := rfl
  calendars_put _ _ := rfl
  ref_injective _ _ h := Ref.todo.inj h
  object_ref _ _ := rfl
  object_key r r' := ⟨fun h => (Prod.mk.inj h).2, fun h => congrArg (Prod.mk Kind.todo) h⟩
  object_readable _ := rfl
  key_ref db x p r hp hk := by
    rcases x with i | i
    · obtain ⟨q, -, rfl⟩ := map_eq_some_iff.mp hp
      exact absurd (Prod.mk.inj hk).1 (by decide)
    · exact ⟨i, rfl⟩
  edit_insert _ _ := rfl
  edit_delete _ := rfl
  edit_find _ := rfl

/-! ### One component -/

/-- The object under the reference is gone, the others are as they were. -/
structure Dropped (db : Database) (x : Ref) (db' : Database) : Prop where
  calendars : db'.calendars = db.calendars
  obj : ∀ y, db'.obj y = if y = x then none else db.obj y

/-- The object `o` was stored under a new id `i`, in the place of `old` if there is one. -/
structure Put (db : Database) (i : ObjectId) (o : CalendarObject) (old : Option Ref) (db' : Database) : Prop where
  calendars : db'.calendars = db.calendars
  replaced : ∀ x, old = some x → ∃ p, db.obj x = some p ∧ p.key = o.key ∧ p.readable = true
  added : old = none → ∀ x p, db.obj x = some p → p.key ≠ o.key
  unused : ∀ p, db.obj (o.ref i) = some p → old = some (o.ref i)
  obj : ∀ x, db'.obj x = if x = o.ref i then some o else if old = some x then none else db.obj x

/-- The writes of a component that is stored. -/
def putEdits (i : ObjectId) (o : CalendarObject) (old : Option Ref) : List Edit :=
  old.toList.map .drop ++ [.put (o.ref i) o]

namespace Put
variable {db db' : Database} {i : ObjectId} {o p : CalendarObject} {old : Option Ref} {x : Ref}

/-- **Storing a component leaves it and the objects with other keys.** -/
theorem obj_iff (h : Put db i o old db') :
    db'.obj x = some p ↔ x = o.ref i ∧ p = o ∨ db.obj x = some p ∧ p.key ≠ o.key := by
  rw [h.obj]
  split_ifs with hx hold
  · subst hx
    constructor
    · intro heq
      exact .inl ⟨rfl, (Option.some.inj heq).symm⟩
    · rintro (⟨-, rfl⟩ | ⟨hp, hk⟩)
      · rfl
      · obtain ⟨q, hq, hqk, -⟩ := h.replaced _ (h.unused p hp)
        rw [hp] at hq
        obtain rfl := Option.some.inj hq
        exact absurd hqk hk
  · obtain ⟨q, hq, hqk, -⟩ := h.replaced x hold
    constructor
    · exact fun heq => nomatch heq
    · rintro (⟨heq, -⟩ | ⟨hp, hk⟩)
      · exact absurd heq hx
      · rw [hp] at hq
        obtain rfl := Option.some.inj hq
        exact absurd hqk hk
  · constructor
    · intro hp
      refine .inr ⟨hp, fun hk => ?_⟩
      rcases hcase : old with _ | y
      · exact h.added hcase x p hp hk
      · obtain ⟨q, hq, hqk, -⟩ := h.replaced y hcase
        obtain rfl := Store.obj_unique hp hq (hk.trans hqk.symm)
        exact hold hcase
    · rintro (⟨heq, -⟩ | ⟨hp, -⟩)
      · exact absurd heq hx
      · exact hp

theorem obj_self (h : Put db i o old db') : db'.obj (o.ref i) = some o := by
  rw [h.obj, if_pos rfl]

/-- What a stored component replaces was read before. -/
theorem readable_of_key (h : Put db i o old db') (hp : db.obj x = some p) (hk : p.key = o.key) :
    p.readable = true := by
  rcases hcase : old with _ | y
  · exact absurd hk (h.added hcase x p hp)
  · obtain ⟨q, hq, hqk, hr⟩ := h.replaced y hcase
    obtain rfl := Store.obj_unique hp hq (hk.trans hqk.symm)
    rw [hp] at hq
    obtain rfl := Option.some.inj hq
    exact hr

end Put

/-! ### Runs -/

section Rows
variable {D : Type} {S : Side D} {cals : Finset CalendarId} {x : Columns D} {t t' : Objects DateTime D}
  {db db' : Database} {tr : List Stmt} {i j : ObjectId} {r r' : Row DateTime D}

theorem execTable_error {s : TableStmt D} {a : Abort} (h : (execTable cals x s t).1 = .error a) :
    (execTable cals x s t).2 = t := by
  rcases s with ⟨i, r⟩ | i | k | ⟨cal, uids⟩
  · change (inserted t (insertRow cals x t i r)).1 = _ at h
    show (inserted t (insertRow cals x t i r)).2 = t
    rcases hi : insertRow cals x t i r with _ | t'
    · rfl
    · rw [hi] at h
      exact nomatch h
  · exact nomatch h
  · rfl
  · rfl

/-- A statement ends the call, or the call goes on with its answer. -/
theorem Side.Lawful.run_andThen (hS : S.Lawful) {β : Type} {s : TableStmt D} {k : s.Answer → Db (Except Abort β)}
    {b : Except Abort β} (h : Run machine free (andThen (S.issue s) k) db tr b db') :
    (∃ a, b = .error a ∧ tr = [S.stmt s] ∧ db' = db) ∨
    ∃ y tr', tr = S.stmt s :: tr' ∧ (execTable db.calendars S.columns s (S.table db)).1 = .ok y ∧
      Run machine free (k y) (S.put (execTable db.calendars S.columns s (S.table db)).2 db) tr' b db' := by
  obtain ⟨fault, tr', rfl, h⟩ := S.run.mp h
  rcases fault with _ | _
  · rcases he : (execTable db.calendars S.columns s (S.table db)).1 with a | y
    · rw [he, execTable_error he, hS.put_table] at h
      obtain ⟨rfl, rfl, rfl⟩ := run_ret.mp h
      exact .inl ⟨a, rfl, rfl, rfl⟩
    · rw [he] at h
      exact .inr ⟨y, tr', rfl, rfl, h⟩
  · obtain ⟨rfl, rfl, rfl⟩ := run_ret.mp h
    exact .inl ⟨databaseAbort, rfl, rfl, rfl⟩

theorem execTable_insert_ok {u : Unit} (h : (execTable cals x (.insert i r) t).1 = .ok u) :
    t.insert i r = some (execTable cals x (.insert i r) t).2 := by
  change (inserted t (insertRow cals x t i r)).1 = _ at h
  show _ = some (inserted t (insertRow cals x t i r)).2
  rcases hi : insertRow cals x t i r with _ | t'
  · rw [hi] at h
    exact nomatch h
  · unfold insertRow at hi
    split_ifs at hi
    exact hi

theorem selectKey_ok {k : Key} {y : Option (ObjectId × Row DateTime D)} (h : selectKey x t k = .ok y) :
    t.lookup k = y ∧ ∀ p, y = some p → x.readable p.2.fields = true := by
  unfold selectKey at h
  rcases hl : t.lookup k with _ | ⟨i, r⟩
  · rw [hl] at h
    obtain rfl := Except.ok.inj h
    exact ⟨rfl, fun p hp => nomatch hp⟩
  · rw [hl] at h
    simp only at h
    split_ifs at h with hr
    obtain rfl := Except.ok.inj h
    refine ⟨rfl, fun p hp => ?_⟩
    obtain rfl := Option.some.inj hp
    exact hr

theorem Side.ref_cases (S : Side D) (y : Ref) : (∃ i, y = S.ref i) ∨ ∀ i, y ≠ S.ref i := by
  rw [← not_exists]
  exact em _

section

variable (hS : S.Lawful)
include hS

theorem Side.Lawful.put_put {t₁ t₂ : Objects DateTime D} : S.put t₂ (S.put t₁ db) = S.put t₂ db := by
  refine Store.ext_obj ?_ fun y => ?_
  · rw [hS.calendars_put, hS.calendars_put, hS.calendars_put]
  · rcases S.ref_cases y with ⟨i, rfl⟩ | hne
    · rw [hS.obj_ref, hS.obj_ref, hS.table_put, hS.table_put]
    · rw [hS.obj_put _ _ _ hne, hS.obj_put _ _ _ hne, hS.obj_put _ _ _ hne]

theorem Side.Lawful.dropped : Dropped db (S.ref j) (S.put ((S.table db).delete j) db) where
  calendars := hS.calendars_put _ _
  obj y := by
    rcases S.ref_cases y with ⟨i, rfl⟩ | hne
    · rw [hS.obj_ref, hS.obj_ref, hS.table_put]
      show (((S.table db).rows.get i).filter _).map _ = _
      split_ifs with hi
      · obtain rfl := hS.ref_injective hi
        rcases (S.table db).rows.get i with _ | r <;> simp
      · have hij : i ≠ j := fun heq => hi (congrArg S.ref heq)
        rcases (S.table db).rows.get i with _ | r <;> simp [hij]
    · rw [hS.obj_put _ _ _ hne, if_neg (hne j)]

theorem Side.Lawful.obj_insert (h : (S.table db).insert i r = some t') (y : Ref) :
    (S.put t' db).obj y = if y = S.ref i then some (S.object r) else db.obj y := by
  rcases S.ref_cases y with ⟨j, rfl⟩ | hne
  · rw [hS.obj_ref, hS.obj_ref, hS.table_put]
    unfold Objects.insert at h
    split_ifs at h with hfree
    obtain rfl := Option.some.inj h
    rw [Table.get_set]
    by_cases hij : j = i
    · rw [if_pos hij, if_pos (congrArg S.ref hij), map_some]
    · rw [if_neg hij, if_neg fun heq => hij (hS.ref_injective heq)]
  · rw [hS.obj_put _ _ _ hne, if_neg (hne i)]

/-- No object has the key of a row that no row has. -/
theorem Side.Lawful.key_ne (h : ∀ j r', (S.table db).rows.get j = some r' → r'.key ≠ r.key)
    {y : Ref} {p : CalendarObject} (hp : db.obj y = some p) : p.key ≠ (S.object r).key := by
  intro hk
  obtain ⟨j, rfl⟩ := hS.key_ref db y p r hp hk
  rw [hS.obj_ref] at hp
  obtain ⟨r', hr', rfl⟩ := map_eq_some_iff.mp hp
  exact h j r' hr' ((hS.object_key r' r).mp hk)

theorem Side.Lawful.put_added (h : (S.table db).insert i r = some t') :
    Put db i (S.object r) none (S.put t' db) where
  calendars := hS.calendars_put _ _
  replaced _ hx := nomatch hx
  added _ _ _ hp := hS.key_ne (Objects.insert_fresh h).2 hp
  unused p hp := by
    rw [hS.object_ref, hS.obj_ref, (Objects.insert_fresh h).1] at hp
    exact nomatch hp
  obj y := by
    rw [hS.obj_insert h, hS.object_ref]
    simp

theorem Side.Lawful.put_replaced (hj : (S.table db).lookup r.key = some (j, r'))
    (hr : S.columns.readable r'.fields = true) (h : ((S.table db).delete j).insert i r = some t') :
    Put db i (S.object r) (some (S.ref j)) (S.put t' db) := by
  obtain ⟨hget, hkey⟩ := Objects.lookup_eq_some.mp hj
  have hobj : db.obj (S.ref j) = some (S.object r') := by rw [hS.obj_ref, hget, map_some]
  have hdrop : Dropped db (S.ref j) (S.put ((S.table db).delete j) db) := hS.dropped
  have hins : (S.table (S.put ((S.table db).delete j) db)).insert i r = some t' := by rwa [hS.table_put]
  refine ⟨hS.calendars_put _ _, fun y hy => ?_, (fun hn => nomatch hn), fun p hp => ?_, fun y => ?_⟩
  · obtain rfl := Option.some.inj hy
    exact ⟨_, hobj, (hS.object_key r' r).mpr hkey, by rw [hS.object_readable, hr]⟩
  · have hfree := (hS.put_added hins).unused
    have hgone : (S.put ((S.table db).delete j) db).obj ((S.object r).ref i) = none := by
      rcases ho : (S.put ((S.table db).delete j) db).obj ((S.object r).ref i) with _ | q
      · rfl
      · exact absurd (hfree q ho) (by simp)
    rw [hdrop.obj] at hgone
    split_ifs at hgone with heq
    · rw [heq]
    · rw [hgone] at hp
      exact nomatch hp
  · have hput : S.put t' (S.put ((S.table db).delete j) db) = S.put t' db := hS.put_put
    rw [← hput, hS.obj_insert hins, hS.object_ref, hdrop.obj]
    by_cases hyi : y = S.ref i
    · rw [if_pos hyi, if_pos hyi]
    · by_cases hyj : y = S.ref j
      · rw [if_pos hyj, if_pos (congrArg some hyj.symm)]
      · rw [if_neg hyj, if_neg fun heq => hyj (Option.some.inj heq).symm]

end

/-- How the writing of a row ends, with the writes it made: it fails and nothing has changed, it fails after the
row with the key was deleted, or the row is stored. -/
inductive Writes (db : Database) (i : ObjectId) (o : CalendarObject) (tr : List Stmt) (db' : Database) :
    Except Abort Bool → Prop where
  | failed (a : Abort) (ht : tr ≠ []) (he : edits tr.dropLast = []) (h : db' = db) : Writes db i o tr db' (.error a)
  | lost (a : Abort) (x : Ref) (p : CalendarObject) (ht : tr ≠ []) (he : edits tr.dropLast = [.drop x])
      (hp : db.obj x = some p) (hk : p.key = o.key) (h : Dropped db x db') : Writes db i o tr db' (.error a)
  | stored (b : Bool) (old : Option Ref) (he : edits tr = putEdits i o old) (h : Put db i o old db') :
      Writes db i o tr db' (.ok b)

theorem Side.Lawful.edits_insert (hS : S.Lawful) (l : List Stmt) :
    edits (S.stmt (.insert i r) :: l) = .put ((S.object r).ref i) (S.object r) :: edits l := by
  rw [edits, filterMap_cons, hS.edit_insert, hS.object_ref]
  rfl

theorem Side.Lawful.edits_delete (hS : S.Lawful) (l : List Stmt) :
    edits (S.stmt (.delete i) :: l) = .drop (S.ref i) :: edits l := by
  rw [edits, filterMap_cons, hS.edit_delete]
  rfl

variable {res : Except Abort Bool} {b : Bool}

theorem Side.Lawful.writes_insert (hS : S.Lawful) {n : Bool}
    (h : Run machine free (andThen (S.issue (.insert i r)) fun _ => ret (.ok n)) db tr res db') :
    Writes db i (S.object r) tr db' res := by
  rcases hS.run_andThen h with ⟨a, rfl, rfl, rfl⟩ | ⟨u, tr', rfl, hok, h⟩
  · exact .failed a (cons_ne_nil _ _) rfl rfl
  · obtain ⟨rfl, rfl, rfl⟩ := run_ret.mp h
    exact .stored n none (hS.edits_insert []) (hS.put_added (execTable_insert_ok hok))

/-- The deletion of the row with the key, and then the insertion. -/
theorem Side.Lawful.writes_delete (hS : S.Lawful) {n : Bool} (hj : (S.table db).lookup r.key = some (j, r'))
    (hr : S.columns.readable r'.fields = true)
    (h : Run machine free (andThen (S.issue (.delete j)) fun _ => andThen (S.issue (.insert i r)) fun _ =>
      ret (.ok n)) db tr res db') : Writes db i (S.object r) tr db' res := by
  obtain ⟨hget, hkey⟩ := Objects.lookup_eq_some.mp hj
  have hobj : db.obj (S.ref j) = some (S.object r') := by rw [hS.obj_ref, hget, map_some]
  rcases hS.run_andThen h with ⟨a, rfl, rfl, rfl⟩ | ⟨u, tr', rfl, hok, h⟩
  · exact .failed a (cons_ne_nil _ _) rfl rfl
  · rcases hS.run_andThen h with ⟨a, rfl, rfl, rfl⟩ | ⟨u', tr'', rfl, hok', h⟩
    · exact .lost a (S.ref j) _ (cons_ne_nil _ _) (hS.edits_delete []) hobj ((hS.object_key r' r).mpr hkey)
        hS.dropped
    · obtain ⟨rfl, rfl, rfl⟩ := run_ret.mp h
      have hins := execTable_insert_ok hok'
      have hput := hS.put_replaced hj hr (i := i) (by rw [hS.table_put] at hins; exact hins)
      refine .stored n (some (S.ref j)) ?_ ?_
      · rw [hS.edits_delete, hS.edits_insert]
        rfl
      · rw [hS.put_put, hS.table_put]
        exact hput

/-- Reads at the beginning do not count. -/
theorem Writes.cons {o : CalendarObject} {s : Stmt} (hs : s.edit = none) (h : Writes db i o tr db' res) :
    Writes db i o (s :: tr) db' res := by
  have hdrop : tr ≠ [] → edits (s :: tr).dropLast = edits tr.dropLast := fun hne => by
    rw [dropLast_cons_of_ne_nil hne, edits, filterMap_cons, hs]
    rfl
  rcases h with ⟨a, ht, he, h⟩ | ⟨a, x, p, ht, he, hp, hk, h⟩ | ⟨n, old, he, h⟩
  · exact .failed a (cons_ne_nil _ _) (by rw [hdrop ht, he]) h
  · exact .lost a x p (cons_ne_nil _ _) (by rw [hdrop ht, he]) hp hk h
  · exact .stored n old (by rw [edits, filterMap_cons, hs]; exact he) h

/-- **The writing of a row.** -/
theorem Side.Lawful.writes (hS : S.Lawful) (h : Run machine free (replaceRow S b i r) db tr res db') :
    Writes db i (S.object r) tr db' res := by
  unfold replaceRow at h
  rcases b with _ | _
  · exact hS.writes_insert h
  · rcases hS.run_andThen h with ⟨a, rfl, rfl, rfl⟩ | ⟨y, tr', rfl, hok, h⟩
    · exact .failed a (cons_ne_nil _ _) rfl rfl
    · obtain ⟨hl, hr⟩ := selectKey_ok hok
      have hsame : S.put (execTable db.calendars S.columns (.findByKey r.key) (S.table db)).2 db = db := hS.put_table db
      rw [hsame] at h
      refine Writes.cons (hS.edit_find _) ?_
      rcases y with _ | ⟨j, r'⟩
      · exact hS.writes_insert h
      · exact hS.writes_delete hl (hr _ rfl) h

end Rows

section Objects
variable {db db' : Database} {tr : List Stmt} {i : ObjectId} {o : CalendarObject} {b : Bool}
  {res : Except Abort Bool} {l : List (ObjectId × CalendarObject)}

theorem writes_replaceObject (h : Run machine free (replaceObject b i o) db tr res db') :
    Writes db i o tr db' res := by
  rcases o with r | r
  · exact eventSide_lawful.writes h
  · exact todoSide_lawful.writes h

/-- Components stored one after the other, with the writes that were made. -/
inductive Puts : Database → List (ObjectId × CalendarObject) → List Edit → Database → Prop where
  | nil (db : Database) : Puts db [] [] db
  | cons {db db₁ db' : Database} {i : ObjectId} {o : CalendarObject} {old : Option Ref}
      {l : List (ObjectId × CalendarObject)} {es : List Edit} (h : Put db i o old db₁) (hl : Puts db₁ l es db') :
      Puts db ((i, o) :: l) (putEdits i o old ++ es) db'

/-- A loop that failed, with the writes before the statement it failed at. -/
inductive Fails : Database → List (ObjectId × CalendarObject) → List Edit → Database → Prop where
  | failed {db : Database} {i : ObjectId} {o : CalendarObject} {l : List (ObjectId × CalendarObject)} :
      Fails db ((i, o) :: l) [] db
  | lost {db db' : Database} {i : ObjectId} {o p : CalendarObject} {x : Ref} {l : List (ObjectId × CalendarObject)}
      (hp : db.obj x = some p) (hk : p.key = o.key) (h : Dropped db x db') : Fails db ((i, o) :: l) [.drop x] db'
  | next {db db₁ db' : Database} {i : ObjectId} {o : CalendarObject} {old : Option Ref}
      {l : List (ObjectId × CalendarObject)} {es : List Edit} (h : Put db i o old db₁) (hl : Fails db₁ l es db') :
      Fails db ((i, o) :: l) (putEdits i o old ++ es) db'

theorem edits_append (tr tr' : List Stmt) : edits (tr ++ tr') = edits tr ++ edits tr' := filterMap_append

/-- **A loop that succeeds has stored all components.** -/
theorem puts_of_run {n : Bool} (h : Run machine free (replaceObjects b l) db tr (.ok n) db') :
    Puts db l (edits tr) db' := by
  induction l generalizing db tr n with
  | nil =>
    obtain ⟨rfl, -, rfl⟩ := run_ret.mp h
    exact .nil _
  | cons p l ih =>
    obtain ⟨i, o⟩ := p
    rcases run_andThen.mp h with ⟨a, ha, -⟩ | ⟨n₁, db₁, tr₁, tr₂, h1, h2, rfl⟩
    · exact nomatch ha
    · rcases run_andThen.mp h2 with ⟨a, ha, -⟩ | ⟨n₂, db₂, tr₃, tr₄, h3, h4, rfl⟩
      · exact nomatch ha
      · obtain ⟨rfl, -, rfl⟩ := run_ret.mp h4
        rcases writes_replaceObject h1 with _ | _ | ⟨_, old, he, hput⟩
        rw [append_nil, edits_append, he]
        exact .cons hput (ih h3)

/-- **A loop that fails has failed at one of its components.** -/
theorem fails_of_run {a : Abort} (h : Run machine free (replaceObjects b l) db tr (.error a) db') :
    tr ≠ [] ∧ Fails db l (edits tr.dropLast) db' := by
  induction l generalizing db tr a with
  | nil =>
    obtain ⟨-, ha, -⟩ := run_ret.mp h
    exact nomatch ha
  | cons p l ih =>
    obtain ⟨i, o⟩ := p
    rcases run_andThen.mp h with ⟨a₁, -, h1⟩ | ⟨n₁, db₁, tr₁, tr₂, h1, h2, rfl⟩
    · rcases writes_replaceObject h1 with ⟨_, ht, he, rfl⟩ | ⟨_, x, p, ht, he, hp, hk, hd⟩ | _
      · rw [he]
        exact ⟨ht, .failed⟩
      · rw [he]
        exact ⟨ht, .lost hp hk hd⟩
    · rcases writes_replaceObject h1 with _ | _ | ⟨_, old, he, hput⟩
      rcases run_andThen.mp h2 with ⟨a₂, -, h3⟩ | ⟨n₂, db₂, tr₃, tr₄, -, h4, -⟩
      · obtain ⟨ht, hf⟩ := ih h3
        refine ⟨append_ne_nil_of_right_ne_nil _ ht, ?_⟩
        rw [dropLast_append_of_ne_nil ht, edits_append, he]
        exact .next hput hf
      · obtain ⟨-, ha, -⟩ := run_ret.mp h4
        exact nomatch ha

end Objects

/-! ### The whole call -/

section Call
variable {db db' : Database} {tr : List Stmt} {zones : Zones} {draw : Draw} {cal : CalendarId} {data : Text} {b : Bool}
  {events : List (CalendarEvent DateTime)} {todos : List (CalendarTodo DateTime)}

/-- A statement that only reads. -/
def Stmt.Reads (s : Stmt) : Prop := s.edit = none ∧ ∀ db, (exec s db).2 = db

theorem reads_findCalendar : (Stmt.findCalendar cal).Reads := ⟨rfl, fun _ => rfl⟩

variable {uids : List Text}

theorem reads_findEvents : (Stmt.events (.findByUids cal uids)).Reads := ⟨rfl, fun _ => rfl⟩

theorem reads_findTodos : (Stmt.todos (.findByUids cal uids)).Reads := ⟨rfl, fun _ => rfl⟩

variable {s : Stmt}

/-- After a read the call has ended with an error, or it goes on in the same state. -/
theorem Stmt.Reads.run {β : Type} (hs : s.Reads) {k : s.Answer → Db (Except Abort β)}
    {res : Except Abort β} (h : Run machine free (andThen (issue s) k) db tr res db') :
    (∃ a, res = .error a ∧ tr = [s] ∧ db' = db) ∨
      ∃ y tr', tr = s :: tr' ∧ Run machine free (k y) db tr' res db' := by
  obtain ⟨fault, tr', rfl, h₁⟩ := run_issue.mp h
  rw [hs.2, ite_self] at h₁
  rcases he : (if fault then .error databaseAbort else (exec s db).1 : Except Abort s.Answer) with a | y
  · rw [he] at h₁
    obtain ⟨rfl, rfl, rfl⟩ := run_ret.mp h₁
    exact .inl ⟨a, rfl, rfl, rfl⟩
  · rw [he] at h₁
    exact .inr ⟨y, tr', rfl, h₁⟩

theorem Stmt.Reads.edits_cons (hs : s.Reads) : edits (s :: tr) = edits tr := by
  rw [edits, filterMap_cons, hs.1]
  rfl

theorem Stmt.Reads.edits_dropLast (hs : s.Reads) (ht : tr ≠ []) :
    edits (s :: tr).dropLast = edits tr.dropLast := by
  rw [dropLast_cons_of_ne_nil ht, hs.edits_cons]

theorem mem_withIds {R : Type} {ids : ℕ → ObjectId} {rs : List R} {n : ℕ} {c : ObjectId × R}
    (h : c ∈ withIds ids n rs) : c.2 ∈ rs ∧ ∃ m, c.1 = ids m := by
  induction rs generalizing n with
  | nil => exact absurd h not_mem_nil
  | cons r rs ih =>
    rcases mem_cons.mp h with rfl | h
    · exact ⟨mem_cons_self, n, rfl⟩
    · obtain ⟨hmem, hid⟩ := ih h
      exact ⟨mem_cons_of_mem _ hmem, hid⟩

theorem map_withIds {R : Type} {ids : ℕ → ObjectId} (rs : List R) (n : ℕ) :
    (withIds ids n rs).map Prod.snd = rs := by
  induction rs generalizing n with
  | nil => rfl
  | cons r rs ih => rw [withIds, map_cons, ih]

/-- How the writes of a call end. -/
inductive Ends (db : Database) (l : List (ObjectId × CalendarObject)) (tr : List Stmt) (db' : Database) :
    Except Abort UpsertObjectsResult → Prop where
  | refused (a : Abort) (he : edits tr.dropLast = []) (h : db' = db) : Ends db l tr db' (.error a)
  | failed (a : Abort) (ht : tr ≠ []) (h : Fails db l (edits tr.dropLast) db') : Ends db l tr db' (.error a)
  | stored (x : UpsertObjectsResult) (h : Puts db l (edits tr) db') : Ends db l tr db' (.ok x)

variable {l : List (ObjectId × CalendarObject)} {res : Except Abort UpsertObjectsResult}

theorem Ends.cons (hs : s.Reads) (h : Ends db l tr db' res) : Ends db l (s :: tr) db' res := by
  rcases h with ⟨a, he, h⟩ | ⟨a, ht, h⟩ | ⟨x, h⟩
  · refine .refused a ?_ h
    rcases tr with _ | ⟨s', tr⟩
    · rfl
    · rw [hs.edits_dropLast (cons_ne_nil _ _), he]
  · refine .failed a (cons_ne_nil _ _) ?_
    rwa [hs.edits_dropLast ht]
  · refine .stored x ?_
    rwa [hs.edits_cons]

theorem ends_writeObjects (h : Run machine free (writeObjects draw b events todos) db tr res db') :
    Ends db (drawnObjects draw events todos) tr db' res := by
  rcases run_andThen.mp h with ⟨a, rfl, h1⟩ | ⟨n, db₁, tr₁, tr₂, h1, h2, rfl⟩
  · obtain ⟨ht, hf⟩ := fails_of_run h1
    exact .failed a ht hf
  · obtain ⟨rfl, rfl, rfl⟩ := run_ret.mp h2
    rw [append_nil]
    exact .stored _ (puts_of_run h1)

/-- The check of the mode that only inserts, and then the writes. -/
theorem ends_refuseTaken {k : Unit → Db (Except Abort UpsertObjectsResult)}
    (hk : ∀ {tr}, Run machine free (k ()) db tr res db' → Ends db l tr db' res)
    (h : Run machine free (andThen (refuseTaken cal uids) k) db tr res db') : Ends db l tr db' res := by
  -- the two queries, each followed by a refusal or by what comes next
  have hread : ∀ {tr₁ : List Stmt} {db₁ : Database} {r : Except Abort Unit},
      Run machine free (refuseTaken cal uids) db tr₁ r db₁ → db₁ = db ∧ ∀ s ∈ tr₁, s.Reads := by
    intro tr₁ db₁ r hr
    have hone : ∀ s ∈ [Stmt.events (.findByUids cal uids)], s.Reads := by
      simp [reads_findEvents]
    have hboth : ∀ s ∈ [Stmt.events (.findByUids cal uids), Stmt.todos (.findByUids cal uids)], s.Reads := by
      simp [reads_findEvents, reads_findTodos]
    rcases reads_findEvents.run hr with ⟨a, -, rfl, rfl⟩ | ⟨es, tr', rfl, hr₁⟩
    · exact ⟨rfl, hone⟩
    · split_ifs at hr₁ with hes
      · obtain ⟨rfl, -, rfl⟩ := run_ret.mp hr₁
        exact ⟨rfl, hone⟩
      · rcases reads_findTodos.run hr₁ with ⟨a, -, rfl, rfl⟩ | ⟨ts, tr'', rfl, hr₂⟩
        · exact ⟨rfl, hboth⟩
        · split_ifs at hr₂
          all_goals
            obtain ⟨rfl, -, rfl⟩ := run_ret.mp hr₂
            exact ⟨rfl, hboth⟩
  rcases run_andThen.mp h with ⟨a, rfl, h1⟩ | ⟨u, db₁, tr₁, tr₂, h1, h2, rfl⟩
  · obtain ⟨rfl, hs⟩ := hread h1
    refine .refused a ?_ rfl
    rw [edits, filterMap_eq_nil_iff]
    exact fun s hmem => (hs s (mem_of_mem_dropLast hmem)).1
  · obtain ⟨rfl, hs⟩ := hread h1
    have hend := hk h2
    clear h1 h
    induction tr₁ with
    | nil => exact hend
    | cons s tr₁ ih => exact (ih fun s' hs' => hs s' (mem_cons_of_mem _ hs')).cons (hs s mem_cons_self)

/-- **How an upsert ends.** -/
theorem ends_upsert (h : Run machine free (upsertIcalObjects zones draw cal data b) db tr res db') :
    (∃ a, res = .error a ∧ db' = db ∧ edits tr.dropLast = []) ∨
    ∃ events todos, parseObjects zones draw cal data = .ok (events, todos) ∧
      Ends db (drawnObjects draw events todos) tr db' res := by
  rcases reads_findCalendar.run h with ⟨a, rfl, rfl, rfl⟩ | ⟨u, tr', rfl, h₁⟩
  · exact .inl ⟨a, rfl, rfl, rfl⟩
  · rcases hp : parseObjects zones draw cal data with a | ⟨events, todos⟩
    · rw [hp] at h₁
      obtain ⟨rfl, rfl, rfl⟩ := run_ret.mp h₁
      exact .inl ⟨a, rfl, rfl, rfl⟩
    · rw [hp] at h₁
      refine .inr ⟨events, todos, rfl, Ends.cons reads_findCalendar ?_⟩
      rcases b with _ | _
      · exact ends_refuseTaken (fun h => ends_writeObjects h) h₁
      · exact ends_writeObjects h₁

end Call

end OxiCloud.Calendar
