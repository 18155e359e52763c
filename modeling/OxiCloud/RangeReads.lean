import OxiCloud.Schema

/-! # Range reads of chunked files

`read_blob_range_stream` goes through the chunk sizes of a manifest with a running offset, picks the chunks
that overlap the range, and asks the backend for the part of each of them. A legacy file is one object, and the
backend is asked for the range itself. `readBlobRangeStream_eq`: both return the bytes of the range. -/

namespace OxiCloud.RangeReads

open Schema List

inductive Backend where
  | local | encrypted

/-- `get_blob_range_stream` of an object, for the encrypted backend of its plaintext. -/
def Backend.getBlobRange : Backend → Bytes → ℕ → Option ℕ → Bytes
  | .local, data, start, some stop => (data.drop start).take (stop - start)
  | .local, data, start, none => data.drop start
  | .encrypted, data, start, stop =>
      let stop := min (stop.getD data.length) data.length
      (data.take stop).drop (min start stop)

/-- A `u64` subtraction; `none` is an underflow. -/
def checkedSub (a b : ℕ) : Option ℕ := if b ≤ a then some (a - b) else none

/-- The chunk `i` with the range in it, if the range overlaps it. -/
def overlap (start stop i offset size : ℕ) : Option (List (ℕ × ℕ × Option ℕ)) :=
  if start < offset + size ∧ offset < stop then
    if stop < offset + size then (checkedSub stop offset).map fun e => [(i, start - offset, some e)]
    else some [(i, start - offset, none)]
  else some []

/-- The loop over the chunk sizes, at the chunk `i` and its offset. -/
def select (start stop : ℕ) : ℕ → ℕ → List ℕ → Option (List (ℕ × ℕ × Option ℕ))
  | _, _, [] => some []
  | i, offset, size :: sizes => (overlap start stop i offset size).bind fun selected =>
    if stop ≤ offset + size then some selected
    else (select start stop (i + 1) (offset + size) sizes).map (selected ++ ·)

/-- `read_blob_range_stream` of a manifest with these sizes, whose chunks have these contents. -/
def readBlobRangeStream (b : Backend) (contents : List Bytes) (sizes : List ℕ) (total start : ℕ)
    (stop : Option ℕ) : Option Bytes :=
  (select start (stop.getD total) 0 0 sizes).map fun selected =>
    selected.flatMap fun x => b.getBlobRange (contents.getD x.1 []) x.2.1 x.2.2

variable (b : Backend)

theorem Backend.getBlobRange_eq (data : Bytes) (start : ℕ) (stop : Option ℕ) :
    b.getBlobRange data start stop = (data.take (stop.getD data.length)).drop start := by
  cases b with
  | «local» => cases stop with
    | none => simp [getBlobRange]
    | some stop => exact drop_take.symm
  | encrypted =>
    have htake : data.take (min (stop.getD data.length) data.length) = data.take (stop.getD data.length) := by
      rw [← take_take, take_length]
    simp only [getBlobRange, htake]
    rcases Nat.le_total start (min (stop.getD data.length) data.length) with hle | hle
    · rw [Nat.min_eq_left hle]
    · rw [Nat.min_eq_right hle, drop_eq_nil_of_le, drop_eq_nil_of_le]
      · simpa using hle
      · simp

theorem overlap_eq (start stop offset : ℕ) {chunks : List Bytes} {i : ℕ} {c : Bytes}
    (hc : chunks.getD i [] = c) : ∃ selected, overlap start stop i offset c.length = some selected ∧
      (selected.flatMap fun x => b.getBlobRange (chunks.getD x.1 []) x.2.1 x.2.2) =
        (c.take (stop - offset)).drop (start - offset) := by
  unfold overlap
  split_ifs with h1 h2
  · refine ⟨_, by rw [checkedSub, if_pos h1.2.le, Option.map_some], ?_⟩
    simp only [flatMap_singleton, hc, b.getBlobRange_eq, Option.getD_some]
  · refine ⟨_, rfl, ?_⟩
    simp only [flatMap_singleton, hc, b.getBlobRange_eq, Option.getD_none, take_length]
    rw [take_of_length_le (by omega)]
  · refine ⟨[], rfl, (drop_eq_nil_of_le ?_).symm⟩
    rw [length_take]
    omega

/-- What the loop selects from a chunk on is the rest of the range. -/
theorem select_eq (start stop : ℕ) : ∀ rest before : List Bytes,
    ∃ selected, select start stop before.length before.flatten.length (rest.map List.length) = some selected ∧
      (selected.flatMap fun x => b.getBlobRange ((before ++ rest).getD x.1 []) x.2.1 x.2.2) =
        (rest.flatten.take (stop - before.flatten.length)).drop (start - before.flatten.length)
  | [], before => ⟨[], rfl, by simp⟩
  | c :: rest, before => by
    obtain ⟨later, hlater, hrest⟩ := select_eq start stop rest (before ++ [c])
    obtain ⟨selected, hselected, hthis⟩ :=
      overlap_eq b start stop before.flatten.length (show (before ++ c :: rest).getD before.length [] = c by simp)
    simp only [append_assoc, singleton_append, flatten_append, flatten_singleton,
      length_append, length_singleton] at hlater hrest
    rw [map_cons, select, hselected, Option.bind_some, flatten_cons, take_append, drop_append]
    split_ifs with hstop
    · refine ⟨_, rfl, ?_⟩
      rw [hthis, Nat.sub_eq_zero_of_le (by omega : stop - before.flatten.length ≤ c.length)]
      simp
    · refine ⟨_, by rw [hlater, Option.map_some], ?_⟩
      rw [flatMap_append, hthis, hrest, length_take, Nat.min_eq_right (by omega), Nat.sub_sub, Nat.sub_sub]

/-- **A range read of the chunks returns the bytes of the range**, as that of the whole object does, and no
subtraction underflows. -/
theorem readBlobRangeStream_eq (b : Backend) (contents : List Bytes) (start : ℕ) (stop : Option ℕ) :
    readBlobRangeStream b contents (contents.map List.length) contents.flatten.length start stop =
        some (b.getBlobRange contents.flatten start stop) ∧
      b.getBlobRange contents.flatten start stop =
        (contents.flatten.take (min (stop.getD contents.flatten.length) contents.flatten.length)).drop start := by
  obtain ⟨selected, hselected, hread⟩ := select_eq b start (stop.getD contents.flatten.length) contents []
  constructor
  · have hmap := congrArg (Option.map fun selected => selected.flatMap fun x =>
      b.getBlobRange (contents.getD x.1 []) x.2.1 x.2.2) hselected
    rw [b.getBlobRange_eq]
    exact hmap.trans (congrArg some hread)
  · rw [b.getBlobRange_eq, ← take_take, take_length]

end OxiCloud.RangeReads
