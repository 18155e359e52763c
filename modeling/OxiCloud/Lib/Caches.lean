import Mathlib

/-! # Caches whose rows expire

Every row of a cache carries the time from which it no longer counts. Reading a key at the time `now`
finds the row only before that time; writing a row replaces the old one, whatever its time was. -/

namespace OxiCloud.Lib.Caches

/-- A partial map; each row with the time at which it expires. -/
structure Cache (K V : Type) where
  rows : K → Option (V × ℕ)

namespace Cache

variable {K V : Type} {c : Cache K V} {k k' : K} {v : V} {now expiry : ℕ}

/-- No rows. -/
def empty : Cache K V := ⟨fun _ => none⟩

/-- The row of a key, if it has not expired. -/
def get (c : Cache K V) (now : ℕ) (k : K) : Option V :=
  (c.rows k).bind fun x => if now < x.2 then some x.1 else none

theorem get_eq_some : c.get now k = some v ↔ ∃ expiry, c.rows k = some (v, expiry) ∧ now < expiry := by
  rw [get, Option.bind_eq_some_iff]
  constructor
  · rintro ⟨⟨w, e⟩, hr, hw⟩
    split_ifs at hw with he
    exact ⟨e, by rw [hr, ← Option.some.inj hw], he⟩
  · rintro ⟨e, hr, he⟩
    exact ⟨(v, e), hr, if_pos he⟩

theorem get_of_rows (h : c.rows k = some (v, expiry)) (hn : now < expiry) : c.get now k = some v :=
  get_eq_some.mpr ⟨expiry, h, hn⟩

section Write
variable [DecidableEq K]

/-- Write a row. -/
def insert (c : Cache K V) (k : K) (v : V) (expiry : ℕ) : Cache K V :=
  ⟨Function.update c.rows k (some (v, expiry))⟩

/-- Drop a row. -/
def invalidate (c : Cache K V) (k : K) : Cache K V := ⟨Function.update c.rows k none⟩

@[simp] theorem rows_insert_self (c : Cache K V) (k : K) (v : V) (expiry : ℕ) :
    (c.insert k v expiry).rows k = some (v, expiry) := Function.update_self ..

theorem rows_insert_ne (c : Cache K V) (v : V) (expiry : ℕ) (h : k' ≠ k) :
    (c.insert k v expiry).rows k' = c.rows k' := Function.update_of_ne h ..

@[simp] theorem rows_invalidate_self (c : Cache K V) (k : K) : (c.invalidate k).rows k = none :=
  Function.update_self ..

theorem rows_invalidate_ne (c : Cache K V) (h : k' ≠ k) : (c.invalidate k).rows k' = c.rows k' :=
  Function.update_of_ne h ..

theorem rows_insert_cases {w : V} {e : ℕ} (h : (c.insert k v expiry).rows k' = some (w, e)) :
    k' = k ∧ w = v ∧ e = expiry ∨ k' ≠ k ∧ c.rows k' = some (w, e) := by
  by_cases hk : k' = k
  · rw [hk, rows_insert_self] at h
    obtain ⟨rfl, rfl⟩ := Prod.mk.inj (Option.some.inj h)
    exact .inl ⟨hk, rfl, rfl⟩
  · rw [rows_insert_ne _ _ _ hk] at h
    exact .inr ⟨hk, h⟩

theorem rows_invalidate_some {x : V × ℕ} (h : (c.invalidate k).rows k' = some x) :
    k' ≠ k ∧ c.rows k' = some x := by
  by_cases hk : k' = k
  · rw [hk, rows_invalidate_self] at h
    cases h
  · rw [rows_invalidate_ne _ hk] at h
    exact ⟨hk, h⟩

theorem rows_insert_congr {c c' : Cache K V} (h : c.rows k' = c'.rows k') (k : K) (v : V) (expiry : ℕ) :
    (c.insert k v expiry).rows k' = (c'.insert k v expiry).rows k' := by
  by_cases hk : k' = k
  · rw [hk, rows_insert_self, rows_insert_self]
  · rwa [rows_insert_ne _ _ _ hk, rows_insert_ne _ _ _ hk]

theorem rows_invalidate_congr {c c' : Cache K V} (h : c.rows k' = c'.rows k') (k : K) :
    (c.invalidate k).rows k' = (c'.invalidate k).rows k' := by
  by_cases hk : k' = k
  · rw [hk, rows_invalidate_self, rows_invalidate_self]
  · rwa [rows_invalidate_ne _ hk, rows_invalidate_ne _ hk]

end Write

end Cache

end OxiCloud.Lib.Caches
