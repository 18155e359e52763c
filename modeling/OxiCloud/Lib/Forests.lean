import OxiCloud.Lib.Cascades

/-! # Forests given by parent links

A forest is a partial map `par` from nodes to their parents. `Climbs par x y` says that `y` is `x` or
lies above it, `Rooted par x` that the way up from `x` ends at a node without parent, and `Acyclic par`
that no node lies above itself. Hanging a node `m` below `d` keeps all ways up finite exactly if `d` is
not `m` and not below it (`rooted_update`, `cycle_update`).

An *address* of a node is the list of the nodes on its way down from its root. If every node of a set
carries the address of its parent with itself appended (`Addressed`), then a node lies in the subtree of
another exactly if the other's address is an initial part of its own (`Addressed.isPrefix_iff`). -/

namespace OxiCloud.Lib.Forests

open Relation Lib.Cascades

variable {α : Type}

/-- `y` is the parent of `x`. -/
def Up (par : α → Option α) (x y : α) : Prop := par x = some y

/-- `y` is `x` or lies above it. -/
def Climbs (par : α → Option α) : α → α → Prop := ReflTransGen (Up par)

/-- No node lies above itself. -/
def Acyclic (par : α → Option α) : Prop := ∀ x, ¬ TransGen (Up par) x x

/-- The way up ends at a node without parent. -/
inductive Rooted (par : α → Option α) : α → Prop where
  | root {x : α} (h : par x = none) : Rooted par x
  | up {x y : α} (h : par x = some y) (hy : Rooted par y) : Rooted par x

variable {par par' : α → Option α}

theorem Climbs.up {x y z : α} (h : par x = some y) (hy : Climbs par y z) : Climbs par x z :=
  ReflTransGen.head h hy

theorem climbs_cases {x z : α} (h : Climbs par x z) :
    x = z ∨ ∃ y, par x = some y ∧ Climbs par y z := by
  rcases ReflTransGen.cases_head h with h | ⟨y, hxy, hy⟩
  · exact .inl h
  · exact .inr ⟨y, hxy, hy⟩

/-- The nodes above a node form a chain. -/
theorem Climbs.total {x y z : α} (hy : Climbs par x y) (hz : Climbs par x z) :
    Climbs par y z ∨ Climbs par z y := by
  induction hy using ReflTransGen.head_induction_on with
  | refl => exact .inl hz
  | head hxw hw ih =>
    rcases climbs_cases hz with rfl | ⟨w', hxw', hz'⟩
    · exact .inr (ReflTransGen.head hxw hw)
    · obtain rfl : _ = w' := Option.some.inj (Eq.trans (Eq.symm hxw) hxw')
      exact ih hz'

theorem Rooted.not_above {x : α} (h : Rooted par x) : ¬ TransGen (Up par) x x := by
  induction h with
  | root h =>
    intro hx
    obtain ⟨y, hy, -⟩ := TransGen.head'_iff.mp hx
    have hy' : par _ = some y := hy
    rw [h] at hy'
    exact absurd hy' (by simp)
  | up h _ ih =>
    intro hx
    obtain ⟨z, hz, hzx⟩ := TransGen.head'_iff.mp hx
    obtain rfl : _ = z := Option.some.inj (Eq.trans (Eq.symm h) hz)
    exact ih (TransGen.tail' hzx h)

theorem acyclic_of_rooted (h : ∀ x, Rooted par x) : Acyclic par := fun x => (h x).not_above

theorem Rooted.not_climbs {x y : α} (h : Rooted par x) (hxy : par x = some y) : ¬ Climbs par y x :=
  fun hc => h.not_above (TransGen.head' hxy hc)

/-- The way up from a rooted node ends at some root. -/
theorem Rooted.exists_root {x : α} (h : Rooted par x) : ∃ y, Climbs par x y ∧ par y = none := by
  induction h with
  | root h => exact ⟨_, ReflTransGen.refl, h⟩
  | up h _ ih =>
    obtain ⟨y, hy, hn⟩ := ih
    exact ⟨y, hy.up h, hn⟩

/-- The nodes below `y` are what falls with `y`, if `U` holds all nodes that have a parent. -/
theorem climbs_iff_mem_cascade [DecidableEq α] {U : Finset α} (hU : ∀ x, (par x).isSome → x ∈ U)
    (x y : α) : Climbs par x y ↔ x ∈ cascade (insert y U) (fun a b => par a = some b) {y} := by
  have hsub : ({y} : Finset α) ⊆ insert y U := by simp
  constructor
  · intro h
    induction h using ReflTransGen.head_induction_on with
    | refl => exact subset_cascade (Finset.mem_singleton_self y)
    | @head a b hab _ ih =>
      have ha : a ∈ insert y U := Finset.mem_insert_of_mem (hU a (Option.isSome_of_eq_some hab))
      exact mem_cascade_of_dep hsub ha ih hab
  · intro h
    have hbase : ∀ z ∈ ({y} : Finset α), Climbs par z y := by
      intro z hz
      rw [Finset.mem_singleton.mp hz]
      exact ReflTransGen.refl
    have hstep : ∀ a b, a ∈ insert y U → Climbs par b y → par a = some b → Climbs par a y :=
      fun a b _ hb hab => Climbs.up hab hb
    exact cascade_induction hbase hstep x h

/-! ### Changing links -/

/-- A way up along which the links stay the same stays a way up. -/
theorem Climbs.congr {x y : α} (h : Climbs par x y)
    (hp : ∀ z, Climbs par x z → z ≠ y → par' z = par z) : Climbs par' x y := by
  induction h using ReflTransGen.head_induction_on with
  | refl => exact ReflTransGen.refl
  | @head x w hxw hwy ih =>
    by_cases hx : x = y
    · rw [hx]; exact ReflTransGen.refl
    · have hxw' : par' x = some w := (hp x ReflTransGen.refl hx).trans hxw
      exact Climbs.up hxw' (ih fun z hz => hp z (ReflTransGen.head hxw hz))

section Update
variable [DecidableEq α] {m d : α} {v : Option α}

theorem Climbs.update {x : α} (h : Climbs par x m) : Climbs (Function.update par m v) x m :=
  h.congr fun _ _ hz => Function.update_of_ne hz _ _

theorem Climbs.update_of_not {x y : α} (h : Climbs par x y) (hx : ¬ Climbs par x m) :
    Climbs (Function.update par m v) x y := by
  refine h.congr fun z hz _ => Function.update_of_ne ?_ _ _
  rintro rfl
  exact hx hz

/-- A way up that ends below the changed link stays a way up. -/
theorem Climbs.update_below {x y : α} (h : Climbs par x y) (hr : ∀ z, Rooted par z) (hy : Climbs par y m) :
    Climbs (Function.update par m v) x y := by
  induction h using ReflTransGen.head_induction_on with
  | refl => exact ReflTransGen.refl
  | @head x w hxw hwy ih =>
    have hxm : x ≠ m := by
      rintro rfl
      exact (hr x).not_climbs hxw (hwy.trans hy)
    have hxw' : Function.update par m v x = some w := by
      rw [Function.update_of_ne hxm]
      exact hxw
    exact Climbs.up hxw' ih

theorem Rooted.update_of_not {x : α} (h : Rooted par x) (hx : ¬ Climbs par x m) :
    Rooted (Function.update par m v) x := by
  induction h with
  | @root x h =>
    have hxm : x ≠ m := by rintro rfl; exact hx ReflTransGen.refl
    exact .root (by rw [Function.update_of_ne hxm, h])
  | @up x y h _ ih =>
    have hxm : x ≠ m := by rintro rfl; exact hx ReflTransGen.refl
    exact .up (by rw [Function.update_of_ne hxm, h]) (ih fun hy => hx (hy.up h))

/-- **Hanging a node below one outside its subtree keeps every way up finite.** -/
theorem rooted_update (h : ∀ x, Rooted par x) (hd : ¬ Climbs par d m) (x : α) :
    Rooted (Function.update par m (some d)) x := by
  have hm : Rooted (Function.update par m (some d)) m :=
    .up (Function.update_self _ _ _) ((h d).update_of_not hd)
  induction h x with
  | @root x h =>
    by_cases hx : x = m
    · rwa [hx]
    · exact .root (by rw [Function.update_of_ne hx, h])
  | @up x y h _ ih =>
    by_cases hx : x = m
    · rwa [hx]
    · exact .up (by rw [Function.update_of_ne hx, h]) ih

theorem rooted_update_none (h : ∀ x, Rooted par x) (x : α) :
    Rooted (Function.update par m none) x := by
  induction h x with
  | @root x h =>
    by_cases hx : x = m
    · rw [hx]; exact .root (Function.update_self _ _ _)
    · exact .root (by rw [Function.update_of_ne hx, h])
  | @up x y h _ ih =>
    by_cases hx : x = m
    · rw [hx]; exact .root (Function.update_self _ _ _)
    · exact .up (by rw [Function.update_of_ne hx, h]) ih

/-- **Hanging a node below one of its own subtree closes a cycle.** -/
theorem cycle_update (hd : Climbs par d m) : TransGen (Up (Function.update par m (some d))) m m :=
  TransGen.head' (Function.update_self _ _ _) hd.update

end Update

/-! ### Addresses -/

/-- Every node of `dom` carries the address of its parent, itself appended. -/
structure Addressed (par : α → Option α) (dom : α → Prop) (addr : α → List α) : Prop where
  root : ∀ x, dom x → par x = none → addr x = [x]
  up : ∀ x y, dom x → par x = some y → dom y ∧ addr x = addr y ++ [x]

namespace Addressed

variable {dom : α → Prop} {addr : α → List α} (h : Addressed par dom addr)

include h

theorem rooted {x : α} (hx : dom x) : Rooted par x := by
  -- the address of the parent is shorter by one
  induction hn : (addr x).length generalizing x with
  | zero =>
    cases hp : par x with
    | none => exact .root hp
    | some y =>
      rw [(h.up x y hx hp).2, List.length_append] at hn
      simp at hn
  | succ n ih =>
    cases hp : par x with
    | none => exact .root hp
    | some y =>
      obtain ⟨hy, ha⟩ := h.up x y hx hp
      rw [ha, List.length_append, List.length_singleton] at hn
      exact .up hp (ih hy (by omega))

theorem dom_climbs {x y : α} (hx : dom x) (hc : Climbs par x y) : dom y := by
  induction hc using ReflTransGen.head_induction_on with
  | refl => exact hx
  | head hxw _ ih => exact ih (h.up _ _ hx hxw).1

theorem self_mem {x : α} (hx : dom x) : x ∈ addr x := by
  cases hp : par x with
  | none => rw [h.root x hx hp]; exact List.mem_singleton_self x
  | some y => rw [(h.up x y hx hp).2]; exact List.mem_append_right _ (List.mem_singleton_self x)

theorem isPrefix {x y : α} (hx : dom x) (hc : Climbs par x y) : addr y <+: addr x := by
  induction hc using ReflTransGen.head_induction_on with
  | refl => exact List.prefix_rfl
  | head hxw _ ih =>
    obtain ⟨hw, ha⟩ := h.up _ _ hx hxw
    rw [ha]
    exact (ih hw).trans (List.prefix_append _ _)

theorem climbs_of_mem {x y : α} (hx : dom x) (hy : y ∈ addr x) : Climbs par x y := by
  induction h.rooted hx with
  | root hp =>
    rw [h.root _ hx hp, List.mem_singleton] at hy
    rw [hy]
    exact ReflTransGen.refl
  | up hp _ ih =>
    obtain ⟨hz, ha⟩ := h.up _ _ hx hp
    rw [ha, List.mem_append, List.mem_singleton] at hy
    rcases hy with hy | rfl
    · exact (ih hz hy).up hp
    · exact ReflTransGen.refl

/-- **A node lies in a subtree exactly if the address of the subtree is an initial part of its own.** -/
theorem isPrefix_iff {x y : α} (hx : dom x) (hy : dom y) : addr y <+: addr x ↔ Climbs par x y :=
  ⟨fun hp => h.climbs_of_mem hx (hp.subset (h.self_mem hy)), h.isPrefix hx⟩

end Addressed

end OxiCloud.Lib.Forests
