import Mathlib

/-! # Tables

A table is a partial map from keys to rows with finitely many keys. The operations are the effects of
single statements: `set` writes the row of one key, `erase` drops one key, `modify` rewrites every row
in place, `filter` keeps the rows a predicate selects, `upsert` inserts or updates a list of rows. `count p` is the number of rows satisfying `p`,
and every operation comes with the equation by which it changes a count. -/

namespace OxiCloud.Lib.Tables

/-- A finite partial map; `keys` lists exactly the keys that have a row. -/
structure Table (K V : Type) where
  get : K → Option V
  keys : Finset K
  mem_keys : ∀ k, k ∈ keys ↔ (get k).isSome

namespace Table

variable {K V : Type}

/-- The table without rows. -/
def empty : Table K V where
  get _ := none
  keys := ∅
  mem_keys k := by simp

/-- Rewrite every row in place. -/
def modify (t : Table K V) (f : K → V → V) : Table K V where
  get k := (t.get k).map (f k)
  keys := t.keys
  mem_keys k := by simp [t.mem_keys]

/-- Keep the rows selected by `p`. -/
def filter (t : Table K V) (p : K → V → Bool) : Table K V where
  get k := (t.get k).filter (p k)
  keys := t.keys.filter fun k => (t.get k).any (p k)
  mem_keys k := by
    cases h : t.get k <;> simp [t.mem_keys, h, Option.filter]

/-- The keys whose row satisfies `p`. -/
def sat (t : Table K V) (p : K → V → Bool) : Finset K :=
  t.keys.filter fun k => (t.get k).any (p k)

/-- Every row satisfies `p`. -/
def Forall (t : Table K V) (p : K → V → Prop) : Prop := ∀ k v, t.get k = some v → p k v

instance (t : Table K V) (p : K → V → Prop) [∀ k v, Decidable (p k v)] : Decidable (t.Forall p) :=
  decidable_of_iff (∀ k ∈ t.keys, ∀ v ∈ t.get k, p k v)
    ⟨fun h k v hk => h k ((t.mem_keys k).mpr (Option.isSome_of_eq_some hk)) v hk,
      fun h k _ v hk => h k v hk⟩

/-- The number of rows satisfying `p`. -/
def count (t : Table K V) (p : K → V → Bool) : ℕ := (t.sat p).card

@[ext] theorem ext {t t' : Table K V} (h : ∀ k, t.get k = t'.get k) : t = t' := by
  have hk : t.keys = t'.keys := by
    ext k
    rw [t.mem_keys, t'.mem_keys, h]
  cases t
  cases t'
  congr
  exact funext h

@[simp] theorem get_empty (k : K) : (empty : Table K V).get k = none := rfl

@[simp] theorem get_modify (t : Table K V) (f : K → V → V) (k : K) :
    (t.modify f).get k = (t.get k).map (f k) := rfl

/-- A row of a table whose rows have changed comes from an old one. -/
theorem get_modify_cases {t : Table K V} {f : K → V → V} {k : K} {w : V}
    (h : (t.modify f).get k = some w) : ∃ v, t.get k = some v ∧ f k v = w :=
  Option.map_eq_some_iff.mp h

@[simp] theorem get_filter (t : Table K V) (p : K → V → Bool) (k : K) :
    (t.filter p).get k = (t.get k).filter (p k) := rfl

variable {t : Table K V} {p : K → V → Bool}

theorem mem_sat {k : K} : k ∈ t.sat p ↔ ∃ v, t.get k = some v ∧ p k v = true := by
  cases h : t.get k <;> simp [sat, t.mem_keys, h]

@[simp] theorem count_empty (p : K → V → Bool) : (empty : Table K V).count p = 0 := rfl

theorem count_pos {k : K} {v : V} (h : t.get k = some v) (hp : p k v = true) : 0 < t.count p :=
  Finset.card_pos.mpr ⟨k, mem_sat.mpr ⟨v, h, hp⟩⟩

theorem count_eq_zero : t.count p = 0 ↔ ∀ k v, t.get k = some v → p k v = false := by
  rw [count, Finset.card_eq_zero, Finset.eq_empty_iff_forall_notMem]
  simp [mem_sat]

theorem count_congr {t' : Table K V} {p' : K → V → Bool}
    (h : ∀ k, (t.get k).any (p k) = (t'.get k).any (p' k)) : t.count p = t'.count p' := by
  have hs : t.sat p = t'.sat p' := by
    ext k
    have := h k
    simp only [mem_sat]
    cases h1 : t.get k <;> cases h2 : t'.get k <;> simp_all
  rw [count, hs, count]

theorem count_modify {f : K → V → V}
    (h : ∀ k v, t.get k = some v → p k (f k v) = p k v) : (t.modify f).count p = t.count p := by
  refine count_congr fun k => ?_
  cases hk : t.get k with
  | none => simp [hk]
  | some v => simp [hk, h k v hk]

/-- The rows satisfying `p` split into those kept by `q` and those dropped. -/
theorem count_filter (t : Table K V) (p q : K → V → Bool) :
    (t.filter q).count p + t.count (fun k v => p k v && !q k v) = t.count p := by
  have hk : (t.filter q).sat p = (t.sat p).filter fun k => (t.get k).any (q k) := by
    ext k
    cases h : t.get k with
    | none => simp [mem_sat, h]
    | some v => cases hq : q k v <;> simp [mem_sat, h, hq, Option.filter]
  have hd : t.sat (fun k v => p k v && !q k v) =
      (t.sat p).filter fun k => ¬ ((t.get k).any (q k) = true) := by
    ext k
    cases h : t.get k with
    | none => simp [mem_sat, h]
    | some v => cases hq : q k v <;> simp [mem_sat, h, hq]
  rw [count, count, count, hk, hd]
  exact Finset.card_filter_add_card_filter_not _

section Keys
variable [DecidableEq K]

/-- The table with the rows `g` gives to the keys `ks`. -/
def ofKeys (ks : Finset K) (g : K → Option V) : Table K V where
  get k := if k ∈ ks then g k else none
  keys := ks.filter fun k => (g k).isSome
  mem_keys k := by by_cases h : k ∈ ks <;> simp [h]

/-- Write the row of `k`. -/
def set (t : Table K V) (k : K) (v : V) : Table K V where
  get := Function.update t.get k (some v)
  keys := insert k t.keys
  mem_keys k' := by
    by_cases h : k' = k
    · subst h; simp
    · simp [h, t.mem_keys]

/-- Drop the row of `k`. -/
def erase (t : Table K V) (k : K) : Table K V where
  get := Function.update t.get k none
  keys := t.keys.erase k
  mem_keys k' := by
    by_cases h : k' = k
    · subst h; simp
    · simp [h, t.mem_keys]

theorem lookup_eq_none {A : Type} {l : List (K × A)} {k : K} :
    l.lookup k = none ↔ k ∉ l.map Prod.fst := by
  rw [List.lookup_eq_none_iff, List.mem_map]
  constructor
  · rintro h ⟨p, hp, rfl⟩
    simpa using h p hp
  · intro h p hp
    simp only [bne_iff_ne, ne_eq]
    rintro rfl
    exact h ⟨p, hp, rfl⟩

/-- Write one row per listed key: `upd` of the row already there, or `ins` of the listed value. -/
def upsert {A : Type} (t : Table K V) (l : List (K × A)) (ins : A → V) (upd : V → V) :
    Table K V where
  get k := match l.lookup k with
    | some a => some ((t.get k).elim (ins a) upd)
    | none => t.get k
  keys := t.keys ∪ (l.map Prod.fst).toFinset
  mem_keys k := by
    have hk := lookup_eq_none (l := l) (k := k)
    rw [Finset.mem_union, List.mem_toFinset, t.mem_keys]
    cases h : l.lookup k <;> simp_all

section

variable (t : Table K V)

theorem get_upsert {A : Type} (l : List (K × A)) (ins : A → V) (upd : V → V) (k : K) :
    (t.upsert l ins upd).get k =
      (l.lookup k).elim (t.get k) fun a => some ((t.get k).elim (ins a) upd) := by
  simp only [upsert]
  cases l.lookup k <;> rfl

theorem get_set (k k' : K) (v : V) : (t.set k v).get k' = if k' = k then some v else t.get k' := by
  by_cases h : k' = k
  · subst h; simp [set]
  · simp [set, h]

theorem get_erase (k k' : K) : (t.erase k).get k' = if k' = k then none else t.get k' := by
  by_cases h : k' = k
  · subst h; simp [erase]
  · simp [erase, h]

@[simp] theorem get_set_self (k : K) (v : V) : (t.set k v).get k = some v := by
  simp [get_set]

@[simp] theorem get_erase_self (k : K) : (t.erase k).get k = none := by
  simp [get_erase]

theorem get_set_ne {k k' : K} (v : V) (h : k' ≠ k) : (t.set k v).get k' = t.get k' := by
  simp [get_set, h]

/-- A row of a changed table is the new one or was there. -/
theorem get_set_cases {t : Table K V} {k k' : K} {v w : V} (h : (t.set k v).get k' = some w) :
    k' = k ∧ w = v ∨ k' ≠ k ∧ t.get k' = some w := by
  rw [get_set] at h
  split_ifs at h with hk
  · exact .inl ⟨hk, (Option.some.inj h).symm⟩
  · exact .inr ⟨hk, h⟩

theorem get_erase_ne {k k' : K} (h : k' ≠ k) : (t.erase k).get k' = t.get k' := by
  simp [get_erase, h]

section

variable (p : K → V → Bool) (k : K)

theorem sat_erase : (t.erase k).sat p = (t.sat p).erase k := by
  ext k'
  by_cases h : k' = k
  · subst h; simp [mem_sat]
  · simp [mem_sat, h, get_erase_ne]

/-- Dropping a row lowers a count by one exactly if the row satisfied the predicate. -/
theorem count_erase : (t.erase k).count p + (if (t.get k).any (p k) then 1 else 0) = t.count p := by
  rw [count, sat_erase, count]
  split_ifs with h
  · refine Finset.card_erase_add_one (mem_sat.mpr ?_)
    simpa [Option.any_eq_true] using h
  · rw [Finset.erase_eq_of_notMem, Nat.add_zero]
    rw [mem_sat]
    simpa [Option.any_eq_true] using h

/-- Writing a row drops the old one and counts the new one. -/
theorem count_set (v : V) : (t.set k v).count p + (if (t.get k).any (p k) then 1 else 0) =
      t.count p + (if p k v then 1 else 0) := by
  have he : ((t.set k v).erase k).count p = (t.erase k).count p := count_congr fun k' => by
    by_cases h : k' = k
    · subst h; simp
    · simp [get_erase_ne _ h, get_set_ne _ _ h]
  have h1 := count_erase (t.set k v) p k
  have h2 := count_erase t p k
  rw [get_set_self, Option.any_some, he] at h1
  omega

end

end

theorem count_set_new {t : Table K V} {k : K} (h : t.get k = none) (p : K → V → Bool) (v : V) :
    (t.set k v).count p = t.count p + (if p k v then 1 else 0) := by
  have := count_set t p k v
  simpa [h] using this

/-- Overwriting a row by one that agrees on `p`. -/
theorem count_set_same {t : Table K V} {k : K} {v v' : V} (h : t.get k = some v')
    {p : K → V → Bool} (hp : p k v = p k v') : (t.set k v).count p = t.count p := by
  have := count_set t p k v
  rw [h, Option.any_some, hp] at this
  omega

end Keys

end Table

end OxiCloud.Lib.Tables
