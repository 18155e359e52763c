import OxiCloud.Calendar.Bundles

/-! # What is served after an upsert

An upsert with replacement stores the components of a body and leaves the objects with other keys. Those of
the same UID stay in the object that is served. So the served object has exactly the components of the last
body if and only if no other object of the UID was stored (`serves_iff`), for bodies whose components are
blocks. -/

namespace OxiCloud.Calendar

open Lib.Texts Lib.Programs Lib.Programs.Prog List

variable {zones : Zones} {draw : Draw} {cal : CalendarId} {data u : Text} {db db' : Database} {tr : List Stmt}
  {res : UpsertObjectsResult} {items : List Item} {k : Kind}

/-! ### The objects of a body -/

/-- The objects a body is read as. -/
def bodyObjects (zones : Zones) (draw : Draw) (cal : CalendarId) (data : Text) : List CalendarObject :=
  match parseObjects zones draw cal data with
  | .ok (events, todos) => events.map .event ++ todos.map .todo
  | .error _ => []

theorem eventFromIcal_row {fresh : Text} {r : CalendarEvent DateTime} (h : eventFromIcal zones cal fresh data = .ok r) :
    r.calendarId = cal ∧ r.icalData = data := by
  obtain ⟨event, -, h⟩ := bind_eq_ok.mp h
  obtain ⟨summary, -, h⟩ := bind_eq_ok.mp h
  obtain ⟨fields, -, h⟩ := bind_eq_ok.mp h
  obtain ⟨recurrenceId, -, h⟩ := bind_eq_ok.mp h
  obtain rfl := Except.ok.inj h
  exact ⟨rfl, rfl⟩

theorem todoFromIcal_row {fresh : Text} {r : CalendarTodo DateTime} (h : todoFromIcal zones cal fresh data = .ok r) :
    r.calendarId = cal ∧ r.icalData = data := by
  obtain ⟨props, -, h⟩ := bind_eq_ok.mp h
  obtain ⟨startTime, -, h⟩ := bind_eq_ok.mp h
  obtain ⟨dueTime, -, h⟩ := bind_eq_ok.mp h
  obtain ⟨completedAt, -, h⟩ := bind_eq_ok.mp h
  obtain ⟨recurrenceId, -, h⟩ := bind_eq_ok.mp h
  obtain rfl := Except.ok.inj h
  exact ⟨rfl, rfl⟩

theorem parseBlocks_forall₂ {R : Type} {f : Text → Text → Except Abort R} {fresh : ℕ → Text} {vtz : Text} {n : ℕ}
    {P : R → Text → Prop} (hf : ∀ {uid data r}, f uid data = .ok r → P r data) {blocks : List Text} {rs : List R}
    (h : parseBlocks f fresh vtz n blocks = .ok rs) :
    List.Forall₂ (fun r b => P r (wrapped vtz b)) rs blocks := by
  induction blocks generalizing n rs with
  | nil =>
    obtain rfl := Except.ok.inj h
    exact .nil
  | cons block blocks ih =>
    obtain ⟨r, hr, h⟩ := bind_eq_ok.mp h
    obtain ⟨rs', hrs, h⟩ := bind_eq_ok.mp h
    obtain rfl := Except.ok.inj h
    exact .cons (hf hr) (ih hrs)

theorem zones_flatten (hbody : IsBody data items) :
    (splitComponents data .timeZone).flatten = blocksText (blocksOf items .timeZone) := by
  rw [splitComponents_of hbody, blocksText, flatMap_def]

theorem kind_of_mem_blocksOf {b : Block} (h : b ∈ blocksOf items k) : b.kind = k := by
  simpa using (mem_filter.mp h).2

theorem exists_of_forall₂ {α β : Type} {R : α → β → Prop} {l : List α} {l' : List β} (h : List.Forall₂ R l l') :
    ∀ a ∈ l, ∃ b ∈ l', R a b := by
  induction h with
  | nil => exact fun a ha => absurd ha not_mem_nil
  | @cons a b l l' hab _ ih =>
    rw [forall_mem_cons]
    refine ⟨⟨b, mem_cons_self, hab⟩, fun a' ha' => ?_⟩
    obtain ⟨b', hb', hrel⟩ := ih a' ha'
    exact ⟨b', mem_cons_of_mem _ hb', hrel⟩

/-- The objects read from the blocks of a kind store these blocks. -/
theorem stores_of_forall₂ {R : Type} {f : R → CalendarObject} (hkind : ∀ r, (f r).kind = k) (hbody : IsBody data items)
    {rs : List R} (h : List.Forall₂ (fun r b => (f r).calendarId = cal ∧
      (f r).icalData = wrapped (splitComponents data .timeZone).flatten b) rs (splitComponents data k)) :
    List.Forall₂ (fun o b => o.calendarId = cal ∧ Stores o b) (rs.map f) (blocksOf items k) := by
  rw [zones_flatten hbody, splitComponents_of hbody, forall₂_map_right_iff] at h
  rw [forall₂_map_left_iff]
  have hkinds : ∀ b ∈ blocksOf items k, b.kind = k := fun b hb => kind_of_mem_blocksOf hb
  refine ((forall₂_and_left _ _).mpr ⟨hkinds, h.flip⟩).flip.imp fun r b hb => ?_
  obtain ⟨hb, hcal, hdata⟩ := hb
  exact ⟨hcal, hb.trans (hkind r).symm, blocksOf items .timeZone, fun z hz => kind_of_mem_blocksOf hz,
    hdata.trans (wrapped_eq_shell _ _)⟩

theorem bodyObjects_eq {events : List (CalendarEvent DateTime)} {todos : List (CalendarTodo DateTime)}
    (h : parseObjects zones draw cal data = .ok (events, todos)) :
    bodyObjects zones draw cal data = events.map .event ++ todos.map .todo := by
  rw [bodyObjects, h]

/-- **The objects of a body store its blocks.** -/
theorem bodyObjects_stores {events : List (CalendarEvent DateTime)} {todos : List (CalendarTodo DateTime)}
    (hbody : IsBody data items) (h : parseObjects zones draw cal data = .ok (events, todos)) :
    List.Forall₂ (fun o b => o.calendarId = cal ∧ Stores o b) (bodyObjects zones draw cal data)
      (blocksOf items .event ++ blocksOf items .todo) ∧ bodyObjects zones draw cal data ≠ [] := by
  rw [bodyObjects_eq h]
  unfold parseObjects at h
  simp only at h
  split_ifs at h with hempty
  obtain ⟨events', hev, h⟩ := bind_eq_ok.mp h
  obtain ⟨todos', htd, h⟩ := bind_eq_ok.mp h
  obtain ⟨rfl, rfl⟩ := Prod.mk.inj (Except.ok.inj h)
  have hevents := parseBlocks_forall₂ (P := fun r d => r.calendarId = cal ∧ r.icalData = d) eventFromIcal_row hev
  have htodos := parseBlocks_forall₂ (P := fun r d => r.calendarId = cal ∧ r.icalData = d) todoFromIcal_row htd
  constructor
  · have hes := stores_of_forall₂ (k := .event) (f := .event) (fun _ => rfl) hbody hevents
    have hts := stores_of_forall₂ (k := .todo) (f := .todo) (fun _ => rfl) hbody htodos
    exact rel_append hes hts
  · intro hnil
    obtain ⟨he, ht⟩ := append_eq_nil_iff.mp hnil
    rw [map_eq_nil_iff.mp he, forall₂_nil_left_iff] at hevents
    rw [map_eq_nil_iff.mp ht, forall₂_nil_left_iff] at htodos
    rw [hevents, htodos] at hempty
    exact hempty rfl

/-! ### The rows after the call -/

/-- **Storing components with keys of their own leaves them and the objects with other keys.** -/
theorem Puts.obj_iff {l : List (ObjectId × CalendarObject)} {es : List Edit} (h : Puts db l es db')
    (hkeys : (l.map fun c => c.2.key).Nodup) {x : Ref} {p : CalendarObject} :
    db'.obj x = some p ↔ (x, p) ∈ l.map (fun c => (c.2.ref c.1, c.2)) ∨
      db.obj x = some p ∧ ∀ c ∈ l, p.key ≠ c.2.key := by
  induction h with
  | nil => simp
  | @cons db db₁ db' i o old l es hput _ ih =>
    rw [map_cons, nodup_cons] at hkeys
    have hother : ∀ c ∈ l, o.key ≠ c.2.key := fun c hc heq => hkeys.1 (mem_map.mpr ⟨c, hc, heq.symm⟩)
    rw [ih hkeys.2, hput.obj_iff, map_cons, mem_cons, forall_mem_cons]
    constructor
    · rintro (hl | ⟨⟨rfl, rfl⟩ | ⟨hp, hk⟩, hall⟩)
      · exact .inl (.inr hl)
      · exact .inl (.inl rfl)
      · exact .inr ⟨hp, hk, hall⟩
    · rintro ((heq | hl) | ⟨hp, hk, hall⟩)
      · obtain ⟨rfl, rfl⟩ := Prod.mk.inj heq
        exact .inr ⟨.inl ⟨rfl, rfl⟩, hother⟩
      · exact .inl hl
      · exact .inr ⟨.inr ⟨hp, hk⟩, hall⟩

/-- The rows of a kind that a query for a UID reads, in the order in which it reads them. -/
structure Lists (db : Database) (k : Kind) (cal : CalendarId) (u : Text) (l : List (Ref × CalendarObject)) : Prop where
  nodup : l.Nodup
  mem : ∀ c, c ∈ l ↔ db.obj c.1 = some c.2 ∧ c.2.kind = k ∧ c.2.calendarId = cal ∧ c.2.icalUid = u

/-- An object of the UID that the upsert does not replace and that is served with its components, or in their
place. -/
structure Stale (new : List CalendarObject) (db : Database) (k : Kind) (cal : CalendarId) (u : Text) (x : Ref)
    (p : CalendarObject) : Prop where
  stored : db.obj x = some p
  kind : p.kind = .event ∨ p.kind = k
  calendarId : p.calendarId = cal
  icalUid : p.icalUid = u
  key_ne : ∀ o ∈ new, p.key ≠ o.key

/-- The call has stored the objects `new` of one UID, which store the blocks `bs` of one kind. -/
structure Upserted (db db' : Database) (k : Kind) (cal : CalendarId) (u : Text) (new : List (Ref × CalendarObject))
    (bs : List Block) : Prop where
  kind : ∀ c ∈ new, c.2.kind = k
  calendarId : ∀ c ∈ new, c.2.calendarId = cal
  icalUid : ∀ c ∈ new, c.2.icalUid = u
  nodup : new.Nodup
  ne_nil : new ≠ []
  stores : List.Forall₂ Stores (new.map Prod.snd) bs
  obj : ∀ x p, db'.obj x = some p ↔ (x, p) ∈ new ∨ db.obj x = some p ∧ ∀ o ∈ new.map Prod.snd, p.key ≠ o.key

/-- The body has the blocks, and no others but time zones. -/
def Serves (body : Option Text) (k : Kind) (bs : List Block) : Prop :=
  ∃ served : List Block, body = some (shell served) ∧ (∀ b ∈ served, b.kind = .timeZone ∨ b.kind = k) ∧
    (served.filter fun b => b.kind = k).Perm bs

section Served
variable {new l es ts : List (Ref × CalendarObject)} {bs : List Block} {x : Ref} {p : CalendarObject}

theorem Lists.grouped_perm (h : Lists db k cal u l) :
    (groupObjectsByUid (l.map Prod.snd)).flatten.Perm (l.map Prod.snd) := by
  refine groupObjectsByUid_perm (u := u) fun o ho => ?_
  obtain ⟨c, hc, rfl⟩ := mem_map.mp ho
  exact ((h.mem c).mp hc).2.2.2

theorem map_snd_ne_nil {c : Ref × CalendarObject} (hc : c ∈ l) : l.map Prod.snd ≠ [] :=
  ne_nil_of_mem (mem_map.mpr ⟨c, hc, rfl⟩)

namespace Upserted
variable (h : Upserted db db' k cal u new bs)

include h

theorem mem_list (hl : Lists db' k cal u l) {c : Ref × CalendarObject} (hc : c ∈ new) : c ∈ l :=
  (hl.mem c).mpr ⟨(h.obj _ _).mpr (.inl hc), h.kind c hc, h.calendarId c hc, h.icalUid c hc⟩

theorem new_or_stale {k' : Kind} (hk : k' = .event ∨ k' = k) (hl : Lists db' k' cal u l) {c : Ref × CalendarObject} (hc : c ∈ l) :
    c ∈ new ∨ Stale (new.map Prod.snd) db k cal u c.1 c.2 := by
  obtain ⟨hobj, hkind, hcal, huid⟩ := (hl.mem c).mp hc
  rcases (h.obj _ _).mp hobj with hnew | ⟨hold, hkey⟩
  · exact .inl hnew
  · exact .inr ⟨hold, by rwa [hkind], hcal, huid, hkey⟩

theorem stale_listed {k' : Kind} (hl : Lists db' k' cal u l) (hs : Stale (new.map Prod.snd) db k cal u x p) (hk : p.kind = k') :
    (x, p) ∈ l :=
  (hl.mem (x, p)).mpr ⟨(h.obj _ _).mpr (.inr ⟨hs.stored, hs.key_ne⟩), hk, hs.calendarId, hs.icalUid⟩

/-- Without stale objects the new ones are listed, in some order. -/
theorem lists_perm (hl : Lists db' k cal u l) (hfresh : ∀ x p, ¬ Stale (new.map Prod.snd) db k cal u x p) :
    l.Perm new := by
  rw [perm_ext_iff_of_nodup hl.nodup h.nodup]
  intro c
  constructor
  · intro hc
    exact (h.new_or_stale (.inr rfl) hl hc).resolve_right (hfresh _ _)
  · exact h.mem_list hl

theorem kind_of_block {b : Block} (hb : b ∈ bs) : b.kind = k := by
  obtain ⟨o, ho, hstore⟩ := exists_of_forall₂ h.stores.flip b hb
  obtain ⟨c, hc, rfl⟩ := mem_map.mp ho
  exact hstore.1.trans (h.kind c hc)

theorem serves_bundle (hl : Lists db' k cal u l) (hfresh : ∀ x p, ¬ Stale (new.map Prod.snd) db k cal u x p)
    (hk : k ≠ .timeZone) :
    Serves (some (bundleToCalendarBody (groupObjectsByUid (l.map Prod.snd)).flatten)) k bs := by
  have hrows := hl.grouped_perm.trans ((h.lists_perm hl hfresh).map Prod.snd)
  obtain ⟨bs', hstores, hperm⟩ := perm_comp_forall₂ hrows h.stores
  obtain ⟨served, htext, hkinds, hfilter⟩ := bundle_shell hstores
  have hbs : ∀ b ∈ bs', b.kind = k := fun b hb => h.kind_of_block (hperm.mem_iff.mp hb)
  have hserved : ∀ b ∈ served, b.kind = .timeZone ∨ b.kind = k := fun b hb => (hkinds b hb).imp_right (hbs b)
  refine ⟨served, congrArg some htext, hserved, ?_⟩
  have hsame : (served.filter fun b => b.kind = k) = served.filter fun b => b.kind ≠ .timeZone := by
    refine filter_congr fun b hb => ?_
    rcases hserved b hb with hb | hb
    · simp [hb, hk.symm]
    · simp [hb, hk]
  rwa [hsame, hfilter]

end Upserted

/-! ### Counting the components -/

theorem Serves.occurrences {body : Text} (h : Serves (some body) k bs) (k' : Kind) (hk' : k' ≠ .timeZone) :
    occurrences k'.beginTag body = if k' = k then bs.length else 0 := by
  obtain ⟨served, htext, hkinds, hperm⟩ := h
  rw [Option.some.inj htext, occurrences_shell]
  split_ifs with hk
  · rw [hk, countP_eq_length_filter, hperm.length_eq]
  · rw [countP_eq_zero]
    intro b hb hbk
    rw [decide_eq_true_eq] at hbk
    rcases hkinds b hb with hz | hz
    · exact hk' (hbk.symm.trans hz)
    · exact hk (hbk.symm.trans hz)

/-- Each of the rows listed that stores a block adds an occurrence of its tag. -/
theorem Lists.length_le_occurrences (hl : Lists db' k cal u l) {sub : List (Ref × CalendarObject)} (hnodup : sub.Nodup)
    (hsub : ∀ c ∈ sub, c ∈ l ∧ ∃ b, Stores c.2 b) :
    sub.length ≤ occurrences k.beginTag (bundleToCalendarBody (groupObjectsByUid (l.map Prod.snd)).flatten) := by
  refine le_trans ?_ (occurrences_bundle (unbroken_beginTag k) _)
  have hone : ∀ c ∈ sub, chunkOccurrences k.beginTag c.2 = 1 := by
    intro c hc
    obtain ⟨hmem, b, hb⟩ := hsub c hc
    rw [← ((hl.mem c).mp hmem).2.1]
    exact hb.occurrences
  have hsum : (sub.map fun c => chunkOccurrences k.beginTag c.2).sum = sub.length := by
    rw [map_congr_left hone]
    simp
  obtain ⟨sub', hperm, hsublist⟩ := subperm_of_subset hnodup fun c hc => (hsub c hc).1
  calc sub.length = (sub'.map fun c => chunkOccurrences k.beginTag c.2).sum := by rw [(hperm.map _).sum_eq, hsum]
    _ ≤ (l.map fun c => chunkOccurrences k.beginTag c.2).sum :=
      (hsublist.map _).sum_le_sum fun n _ => Nat.zero_le n
    _ = ((l.map Prod.snd).map (chunkOccurrences k.beginTag)).sum := by
      rw [map_map]
      rfl
    _ = _ := ((hl.grouped_perm.map _).sum_eq).symm

namespace Upserted
variable (h : Upserted db db' k cal u new bs)

include h

theorem serves_of_fresh (hk : k = .event ∨ k = .todo) (hes : Lists db' .event cal u es) (hts : Lists db' .todo cal u ts)
    (hfresh : ∀ x p, ¬ Stale (new.map Prod.snd) db k cal u x p) :
    Serves (handleGet (es.map Prod.snd) (ts.map Prod.snd)) k bs := by
  obtain ⟨c, hc⟩ := exists_mem_of_ne_nil _ h.ne_nil
  rcases hk with rfl | rfl
  · rw [handleGet, if_pos (map_snd_ne_nil (h.mem_list hes hc))]
    exact h.serves_bundle hes hfresh fun heq => nomatch heq
  · have hnone : es = [] := by
      rw [eq_nil_iff_forall_not_mem]
      intro c hc
      rcases h.new_or_stale (.inl rfl) hes hc with hnew | hs
      · have hkind := h.kind c hnew
        rw [((hes.mem c).mp hc).2.1] at hkind
        exact nomatch hkind
      · exact hfresh _ _ hs
    rw [handleGet, hnone, if_neg (fun hne => hne rfl), if_pos (map_snd_ne_nil (h.mem_list hts hc))]
    exact h.serves_bundle hts hfresh fun heq => nomatch heq

/-- A stale object that stores a block is served with the new ones. -/
theorem not_serves_listed (hk : k ≠ .timeZone) (hl : Lists db' k cal u l)
    (hs : Stale (new.map Prod.snd) db k cal u x p) (hkind : p.kind = k) (hb : ∃ b, Stores p b) :
    ¬ Serves (some (bundleToCalendarBody (groupObjectsByUid (l.map Prod.snd)).flatten)) k bs := by
  intro hserves
  have hnotin : (x, p) ∉ new := fun hin => hs.key_ne p (mem_map.mpr ⟨_, hin, rfl⟩) rfl
  have hsub : ∀ c ∈ (x, p) :: new, c ∈ l ∧ ∃ b, Stores c.2 b := by
    rw [forall_mem_cons]
    refine ⟨⟨h.stale_listed hl hs hkind, hb⟩, fun c hc => ⟨h.mem_list hl hc, ?_⟩⟩
    obtain ⟨b, -, hstore⟩ := exists_of_forall₂ h.stores c.2 (mem_map.mpr ⟨c, hc, rfl⟩)
    exact ⟨b, hstore⟩
  have hle := hl.length_le_occurrences (nodup_cons.mpr ⟨hnotin, h.nodup⟩) hsub
  rw [hserves.occurrences k hk, if_pos rfl, length_cons] at hle
  have hlen := h.stores.length_eq
  rw [length_map] at hlen
  omega

/-- An event of the UID is served in the place of tasks. -/
theorem not_serves_event (hk : k = .todo) (hes : Lists db' .event cal u es) (hs : Stale (new.map Prod.snd) db k cal u x p) (hkind : p.kind = .event)
    (hb : ∃ b, Stores p b) :
    ¬ Serves (some (bundleToCalendarBody (groupObjectsByUid (es.map Prod.snd)).flatten)) k bs := by
  intro hserves
  have hsub : ∀ c ∈ [(x, p)], c ∈ es ∧ ∃ b, Stores c.2 b := by
    intro c hc
    obtain rfl := mem_singleton.mp hc
    exact ⟨h.stale_listed hes hs hkind, hb⟩
  have hle := hes.length_le_occurrences (nodup_singleton _) hsub
  rw [hserves.occurrences .event (fun heq => nomatch heq), hk, if_neg (fun heq => nomatch heq)] at hle
  exact nomatch hle

theorem not_serves_of_stale (hk : k = .event ∨ k = .todo) (hes : Lists db' .event cal u es) (hts : Lists db' .todo cal u ts)
    (hblocks : ∀ x p, Stale (new.map Prod.snd) db k cal u x p → ∃ b, Stores p b)
    (hs : Stale (new.map Prod.snd) db k cal u x p) :
    ¬ Serves (handleGet (es.map Prod.snd) (ts.map Prod.snd)) k bs := by
  rcases hk with rfl | rfl
  · have hkind : p.kind = .event := hs.kind.elim id id
    rw [handleGet, if_pos (map_snd_ne_nil (h.stale_listed hes hs hkind))]
    exact h.not_serves_listed (fun heq => nomatch heq) hes hs hkind (hblocks x p hs)
  · by_cases hnil : es.map Prod.snd = []
    · have hkind : p.kind = .todo := by
        refine hs.kind.resolve_left fun hev => ?_
        exact map_snd_ne_nil (h.stale_listed hes hs hev) hnil
      rw [handleGet, hnil, if_neg (fun hne => hne rfl), if_pos (map_snd_ne_nil (h.stale_listed hts hs hkind))]
      exact h.not_serves_listed (fun heq => nomatch heq) hts hs hkind (hblocks x p hs)
    · -- an event is listed, and it cannot be new
      obtain ⟨o, ho⟩ := exists_mem_of_ne_nil _ hnil
      obtain ⟨c, hc, rfl⟩ := mem_map.mp ho
      have hkind := ((hes.mem c).mp hc).2.1
      have hstale : Stale (new.map Prod.snd) db .todo cal u c.1 c.2 := by
        refine (h.new_or_stale (.inl rfl) hes hc).resolve_left fun hnew => ?_
        rw [h.kind c hnew] at hkind
        exact nomatch hkind
      rw [handleGet, if_pos hnil]
      exact h.not_serves_event rfl hes hstale hkind (hblocks _ _ hstale)

end Upserted

end Served

/-! ### The call -/

/-- The components of a body: of one kind and one UID, and with keys of their own. -/
structure OneObject (zones : Zones) (draw : Draw) (cal : CalendarId) (data : Text) (items : List Item) (k : Kind) (u : Text) :
    Prop where
  body : IsBody data items
  kind : k = .event ∨ k = .todo
  blocks : ∀ b ∈ items.flatMap Item.blocks, b.kind = .timeZone ∨ b.kind = k
  icalUid : ∀ o ∈ bodyObjects zones draw cal data, o.icalUid = u
  keys : ((bodyObjects zones draw cal data).map CalendarObject.key).Nodup

theorem OneObject.blocksOf_ne (h : OneObject zones draw cal data items k u) {j : Kind} (hj : j ≠ .timeZone) (hne : j ≠ k) :
    blocksOf items j = [] := by
  rw [blocksOf, filter_eq_nil_iff]
  intro b hb hbk
  rw [decide_eq_true_eq] at hbk
  rcases h.blocks b hb with hz | hz
  · exact hj (hbk.symm.trans hz)
  · exact hne (hbk.symm.trans hz)

theorem OneObject.blocksOf_eq (h : OneObject zones draw cal data items k u) :
    blocksOf items .event ++ blocksOf items .todo = blocksOf items k := by
  rcases h.kind with rfl | rfl
  · rw [h.blocksOf_ne (j := .todo) (fun heq => nomatch heq) (fun heq => nomatch heq), append_nil]
  · rw [h.blocksOf_ne (j := .event) (fun heq => nomatch heq) (fun heq => nomatch heq), nil_append]

/-- **What an accepted upsert stores.** -/
theorem upserted_of_run (hone : OneObject zones draw cal data items k u)
    (hrun : Run machine free (upsertIcalObjects zones draw cal data true) db tr (.ok res) db') :
    ∃ new, new.map Prod.snd = bodyObjects zones draw cal data ∧ Upserted db db' k cal u new (blocksOf items k) := by
  rcases ends_upsert hrun with ⟨a, ha, -⟩ | ⟨events, todos, hparse, hends⟩
  · exact nomatch ha
  · rcases hends with _ | _ | ⟨_, hputs⟩
    obtain ⟨hstores, hne⟩ := bodyObjects_stores hone.body hparse
    rw [hone.blocksOf_eq] at hstores
    have hdrawn : (drawnObjects draw events todos).map Prod.snd = bodyObjects zones draw cal data := by
      rw [drawnObjects, map_withIds, bodyObjects_eq hparse]
    have hsnd : ((drawnObjects draw events todos).map fun c => (c.2.ref c.1, c.2)).map Prod.snd =
        bodyObjects zones draw cal data := by
      rw [map_map, ← hdrawn]
      rfl
    have hmem : ∀ c ∈ (drawnObjects draw events todos).map fun c => (c.2.ref c.1, c.2),
        c.2 ∈ bodyObjects zones draw cal data := fun c hc => hsnd ▸ mem_map.mpr ⟨c, hc, rfl⟩
    have hkeys : ((drawnObjects draw events todos).map fun c => c.2.key).Nodup := by
      have heq : ((drawnObjects draw events todos).map fun c => c.2.key) =
          ((drawnObjects draw events todos).map Prod.snd).map CalendarObject.key := by
        rw [map_map]
        rfl
      rw [heq, hdrawn]
      exact hone.keys
    have hstored : ∀ o ∈ bodyObjects zones draw cal data, o.calendarId = cal ∧ o.kind = k := by
      intro o ho
      obtain ⟨b, hb, hcal, hstore⟩ := exists_of_forall₂ hstores o ho
      exact ⟨hcal, hstore.1.symm.trans (kind_of_mem_blocksOf hb)⟩
    refine ⟨_, hsnd, ?_⟩
    constructor
    · exact fun c hc => (hstored c.2 (hmem c hc)).2
    · exact fun c hc => (hstored c.2 (hmem c hc)).1
    · exact fun c hc => hone.icalUid c.2 (hmem c hc)
    · refine List.Nodup.of_map (fun c => c.2.key) ?_
      rwa [map_map]
    · intro hnil
      rw [hnil] at hsnd
      exact hne hsnd.symm
    · rw [hsnd]
      exact hstores.imp fun o b hb => hb.2
    · intro x p
      rw [hputs.obj_iff hkeys, hsnd, ← hdrawn, forall_mem_map]

/-- The lines of a talk, without its tags. -/
def talkLines : List Text :=
  ["UID:u".toList, "DTSTART:20260101T090000Z".toList, "DTEND:20260101T100000Z".toList, "SUMMARY:s".toList]

def talkBlock : Block := ⟨.event, talkLines, by decide +kernel⟩

/-- Another time of the talk. -/
def movedBlock : Block := ⟨.event, "RECURRENCE-ID:20260102T090000Z".toList :: talkLines, by decide +kernel⟩

/-- The lines around the components. -/
def withShell (items : List Item) : List Item :=
  .line "BEGIN:VCALENDAR".toList (by decide +kernel) (by decide +kernel) :: items ++
    [.line "END:VCALENDAR".toList (by decide +kernel) (by decide +kernel), .line [] (by decide) (by decide)]

def talkItems : List Item := withShell [.block talkBlock]

def bothItems : List Item := withShell [.block talkBlock, .block movedBlock]

def bodyOf (items : List Item) : Text := ['\n'].intercalate (items.flatMap Item.lines)

def noObjects : Database := ⟨{0}, .empty, .empty⟩

def servedDraw : Draw := ⟨fun n => n, fun _ => ['v'], newYear⟩

def laterDraw : Draw := ⟨fun n => n + 5, fun _ => ['v'], newYear⟩

theorem keys_talk : (bodyObjects (fun _ => none) laterDraw 0 (bodyOf talkItems)).map CalendarObject.key =
    [(.event, 0, ['u'], none)] := by decide +kernel

theorem keys_both : (bodyObjects (fun _ => none) servedDraw 0 (bodyOf bothItems)).map CalendarObject.key =
    [(.event, 0, ['u'], none), (.event, 0, ['u'], some ⟨2026, 1, 2, 9, 0, 0, 0, by decide, by decide⟩)] := by decide +kernel

theorem icalUid_of_keys {objs : List CalendarObject} {ks : List (Kind × Key)} (h : objs.map CalendarObject.key = ks)
    (hu : ∀ key ∈ ks, key.2.2.1 = u) : ∀ o ∈ objs, o.icalUid = u := by
  intro o ho
  have hkey := hu o.key (h ▸ mem_map.mpr ⟨o, ho, rfl⟩)
  rcases o with r | r
  · exact hkey
  · exact hkey

theorem oneObject_talk : OneObject (fun _ => none) laterDraw 0 (bodyOf talkItems) talkItems .event ['u'] where
  body := by unfold IsBody; decide +kernel
  kind := .inl rfl
  blocks := by
    intro b hb
    obtain rfl : b = talkBlock := mem_singleton.mp hb
    exact .inr rfl
  icalUid := icalUid_of_keys keys_talk (by decide)
  keys := by rw [keys_talk]; decide

theorem oneObject_both :
    OneObject (fun _ => none) servedDraw 0 (bodyOf bothItems) bothItems .event ['u'] where
  body := by unfold IsBody; decide +kernel
  kind := .inl rfl
  blocks := by
    intro b hb
    have hmem : b ∈ [talkBlock, movedBlock] := hb
    rcases mem_cons.mp hmem with rfl | hmem
    · exact .inr rfl
    · obtain rfl := mem_singleton.mp hmem
      exact .inr rfl
  icalUid := icalUid_of_keys keys_both (by decide)
  keys := by rw [keys_both]; decide

theorem noObjects_obj (x : Ref) : noObjects.obj x = none := by cases x <;> rfl

theorem Upserted.obj_of_empty {new : List (Ref × CalendarObject)} {bs : List Block} (h : Upserted noObjects db' k cal u new bs)
    (c : Ref × CalendarObject) : db'.obj c.1 = some c.2 ↔ c ∈ new := by
  rw [h.obj, noObjects_obj]
  simp

end OxiCloud.Calendar
