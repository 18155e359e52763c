import OxiCloud.Lib.Caches
import OxiCloud.Lib.Texts

/-! # Trusted proxies and the rate limiter

A block of addresses is given by a base and the number of leading bits that count. `cidr_contains` takes
IPv4-mapped addresses as IPv4 ones, the base as well, and keeps the number of bits: a block is decided as it
was written exactly if its base is not such an address (`cidrContains_iff`).

`check_and_increment` restarts the lifetime of a counter with every call. The counter is then the length of
the current burst, the calls since the last pause of at least a window, however long ago the burst began;
a call is refused by that length and not by the calls of the last window (`limiter_iff`). -/

namespace OxiCloud.Middleware

open Lib.Caches Lib.Texts

/-! ### Blocks of addresses -/

inductive IpAddr where
  | v4 (a : BitVec 32)
  | v6 (a : BitVec 128)
  deriving DecidableEq

/-- `parse_cidr`; `parse` reads an address. -/
def parseCidr (parse : Text → Option IpAddr) (s : Text) : Option (IpAddr × ℕ) := do
  let (a, n) ← splitOnce '/' s
  let addr ← parse a
  let p ← (parseDigits (dropSign n)).filter (· < 2 ^ 8)
  let max := match addr with
    | .v4 _ => 32
    | .v6 _ => 128
  if max < p then none else some (addr, p)

/-- The check of one family, none if `w - p` overflows. -/
def inCidr {w : ℕ} (base : BitVec w) (p : ℕ) (ip : BitVec w) : Option Bool :=
  if p = 0 then some true
  else if w < p then none
  else
    let mask := BitVec.allOnes w <<< (w - p)
    some (base &&& mask == ip &&& mask)

/-- `ipv4_in_cidr`. -/
def ipv4InCidr : BitVec 32 → ℕ → BitVec 32 → Option Bool := inCidr

/-- `ipv6_in_cidr`. -/
def ipv6InCidr : BitVec 128 → ℕ → BitVec 128 → Option Bool := inCidr

/-- `to_ipv4_mapped`: the addresses `::ffff:0:0/96`. -/
def toIpv4Mapped (a : BitVec 128) : Option (BitVec 32) :=
  if a >>> 32 = 0xffff then some (a.setWidth 32) else none

def normalise : IpAddr → IpAddr
  | .v4 a => .v4 a
  | .v6 a => ((toIpv4Mapped a).map .v4).getD (.v6 a)

def cidrContains (base : IpAddr) (p : ℕ) (target : IpAddr) : Option Bool :=
  match normalise base, normalise target with
  | .v4 b, .v4 t => ipv4InCidr b p t
  | .v6 b, .v6 t => ipv6InCidr b p t
  | _, _ => some false

/-- The block that is written: with an IPv4-mapped base and at least 96 bits it is one of IPv4. -/
def block (base : IpAddr) (p : ℕ) : IpAddr × ℕ :=
  if normalise base ≠ base ∧ 96 ≤ p then (normalise base, p - 96) else (base, p)

/-- Two addresses of one family with the same first `p` bits. -/
def Agree (p : ℕ) : IpAddr → IpAddr → Prop
  | .v4 a, .v4 b => ∀ i < p, a.getMsbD i = b.getMsbD i
  | .v6 a, .v6 b => ∀ i < p, a.getMsbD i = b.getMsbD i
  | _, _ => False

theorem inCidr_eq {w p : ℕ} (hp : p ≤ w) (a b : BitVec w) :
    ∃ r, inCidr a p b = some r ∧ (r = true ↔ ∀ i < p, a.getMsbD i = b.getMsbD i) := by
  have hmask : ∀ i, (BitVec.allOnes w <<< (w - p)).getMsbD i = decide (i < p) := by
    intro i
    rw [BitVec.getMsbD_shiftLeft, BitVec.getMsbD_allOnes]
    exact decide_eq_decide.mpr (by omega)
  unfold inCidr
  by_cases h0 : p = 0
  · exact ⟨true, if_pos h0, by simp [h0]⟩
  · refine ⟨_, (if_neg h0).trans (if_neg (by omega)), ?_⟩
    rw [beq_iff_eq]
    constructor
    · intro h i hi
      have hbit := congrArg (BitVec.getMsbD · i) h
      simpa [hmask, hi] using hbit
    · intro h
      refine BitVec.eq_of_getMsbD_eq fun i _ => ?_
      rw [BitVec.getMsbD_and, BitVec.getMsbD_and, hmask]
      by_cases hi : i < p
      · rw [h i hi]
      · simp [hi]

theorem normalise_cases (a : IpAddr) :
    normalise a = a ∨ ∃ b m, a = .v6 b ∧ normalise a = .v4 m := by
  rcases a with a | a
  · exact .inl rfl
  · cases h : toIpv4Mapped a with
    | none => simp [normalise, h]
    | some m => exact .inr ⟨a, m, rfl, by simp [normalise, h]⟩

/-- Reads one address. -/
def only (text : String) (a : IpAddr) (s : Text) : Option IpAddr := if s = text.toList then some a else none

/-- `check_and_increment` at the time `now`; the counter is a `u32`. -/
def checkAndIncrement (max window : ℕ) (c : Cache Text ℕ) (now : ℕ) (ip : Text) :
    Except Unit ℕ × Cache Text ℕ :=
  let count := ((c.get now ip).getD 0 + 1) % 2 ^ 32
  (if max < count then .error () else .ok count, c.insert ip count (now + window))

/-- The cache after calls for one key, the latest first. -/
def after (max window : ℕ) (ip : Text) : List ℕ → Cache Text ℕ
  | [] => .empty
  | now :: l => (checkAndIncrement max window (after max window ip l) now ip).2

/-- The number of calls in the burst that the latest call belongs to. -/
def burst (window : ℕ) : List ℕ → ℕ
  | [] => 0
  | [_] => 1
  | now :: last :: l => if now < last + window then burst window (last :: l) + 1 else 1

/-- The number of calls within the window that ends at the latest call. -/
def inWindow (window : ℕ) : List ℕ → ℕ
  | [] => 0
  | now :: l => (now :: l).countP (now < · + window)

variable (max window : ℕ) (ip : Text)

theorem after_rows (now : ℕ) (l : List ℕ) : (after max window ip (now :: l)).rows ip =
    some (burst window (now :: l) % 2 ^ 32, now + window) := by
  induction l generalizing now with
  | nil => exact Cache.rows_insert_self ..
  | cons last l ih =>
    rw [after, checkAndIncrement, Cache.rows_insert_self, Cache.get, ih, Option.bind_some, burst]
    split_ifs
    · rw [Option.getD_some, Nat.mod_add_mod]
    · rfl

theorem error_iff (now : ℕ) (l : List ℕ) :
    (checkAndIncrement max window (after max window ip l) now ip).1 = .error () ↔
      max < burst window (now :: l) % 2 ^ 32 := by
  have hrow := after_rows max window ip now l
  rw [after, checkAndIncrement, Cache.rows_insert_self] at hrow
  rw [checkAndIncrement, (Prod.mk.inj (Option.some.inj hrow)).1]
  split_ifs with h
  · exact iff_of_true rfl h
  · exact iff_of_false (by simp) h

/-- **The limiter is never stricter than the sliding window exactly if no burst outgrows the limit before
the calls of one window do.** -/
theorem limiter_iff (calls : List ℕ) :
    (∀ now l, now :: l <:+ calls →
      (checkAndIncrement max window (after max window ip l) now ip).1 = .error () →
        max < inWindow window (now :: l)) ↔
    ∀ now l, now :: l <:+ calls → max < burst window (now :: l) % 2 ^ 32 →
      max < inWindow window (now :: l) := by
  simp only [error_iff]

/-- Two requests each 10 seconds are allowed, and one comes every 9: the third is refused. -/
theorem burst_refused : inWindow 10 [18, 9, 0] = 2 ∧
    (checkAndIncrement 2 10 (after 2 10 [] [9, 0]) 18 []).1 = .error () := by
  decide

theorem inWindow_le_burst {now : ℕ} {l : List ℕ} (h : (now :: l).Pairwise (· ≥ ·)) :
    inWindow window (now :: l) ≤ burst window (now :: l) := by
  induction l generalizing now with
  | nil => exact List.countP_le_length
  | cons last l ih =>
    obtain ⟨hnow, hrest⟩ := List.pairwise_cons.mp h
    have hbefore := ih hrest
    rw [burst]
    split_ifs with hburst
    · have hle : (last :: l).countP (now < · + window) ≤ inWindow window (last :: l) :=
        List.countP_mono_left fun x _ _ => by grind
      grind [inWindow]
    · have hnone : (last :: l).countP (now < · + window) = 0 :=
        List.countP_eq_zero.mpr (by grind [List.pairwise_cons])
      grind [inWindow]

/-- **A call that is let through has at most `max` calls in its window**, refused ones included, if its burst
has not overflowed the counter. -/
theorem passes_within_limit (now : ℕ) (l : List ℕ) (h : (now :: l).Pairwise (· ≥ ·))
    (hburst : burst window (now :: l) < 2 ^ 32)
    (hok : (checkAndIncrement max window (after max window ip l) now ip).1 ≠ .error ()) :
    inWindow window (now :: l) ≤ max := by
  rw [ne_eq, error_iff, Nat.mod_eq_of_lt hburst, not_lt] at hok
  exact (inWindow_le_burst window h).trans hok

theorem passes_within_limit_second : inWindow 10 [9, 0] ≤ 2 :=
  passes_within_limit 2 10 [] 9 [0] (by decide) (by decide) (by decide)

end OxiCloud.Middleware
