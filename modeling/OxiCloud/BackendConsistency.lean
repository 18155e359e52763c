import OxiCloud.Lib.Paging

/-! # The backend consistency sweep

`backend_consistency` compares the objects of a backend with the rows of `storage.blobs`. Both sides come
in pages ordered by hash; in every batch the two pages are merged up to a *horizon*, and the next batch
starts there. A hash only the backend has is an orphan, a hash only the table has is missing.

`Judgeable` describes the listings for which every finding of the sweep is right and none is left out:
the horizon must not run ahead of a side that has more to come, and the sweep must not end while the
table has. `sweep_findings` says that it is exactly this condition. -/

namespace OxiCloud.BackendConsistency

open Lib.Paging

variable {H : Type} [LinearOrder H]

/-! ### Pages -/

/-- `BlobListPage`; the foreign entries a listing also reports are informational. -/
structure BlobListPage (H : Type) where
  blobs : List H
  nextCursor : Option H

/-- `BATCH_SIZE`. -/
def batchSize : ℕ := 500

/-- A backend that holds `B` and lists it as `list_blob_hashes` promises: a page is the beginning of what
follows the cursor, without a next cursor it is all of that, and with one it is not empty. -/
structure Backend (B : Listing H) where
  listBlobHashes : Option H → BlobListPage H
  initial : ∀ c, (listBlobHashes c).blobs <+: after c B.hashes
  complete : ∀ c, (listBlobHashes c).nextCursor = none → (listBlobHashes c).blobs = after c B.hashes
  proceeds : ∀ c, (listBlobHashes c).nextCursor ≠ none → (listBlobHashes c).blobs ≠ []

/-- `LocalBlobBackend`: a page is full unless it is the last one. -/
def localPage (B : Listing H) (limit : ℕ) (c : Option H) : BlobListPage H where
  blobs := (after c B.hashes).take limit
  nextCursor := if (after c B.hashes).length ≤ limit then none else
    ((after c B.hashes).take limit).getLast?

def localBackend (B : Listing H) : Backend B where
  listBlobHashes := localPage B batchSize
  initial c := List.take_prefix _ _
  complete c h := by
    rw [localPage] at h ⊢
    dsimp only at h ⊢
    split_ifs at h with hle
    · exact List.take_of_length_le hle
    · rw [List.getLast?_eq_none_iff, List.take_eq_nil_iff] at h
      rcases h with h | h
      · cases h
      · rw [h]
        rfl
  proceeds c h hnil := by
    rw [localPage] at h hnil
    dsimp only at h hnil
    rw [hnil] at h
    split_ifs at h <;> exact h rfl

/-! ### The sweep -/

/-- The findings. -/
inductive Finding (H : Type) where
  | orphanBlob (h : H)
  | orphanBlobReclaimParked (h : H)
  | blobMissingFromBackend (h : H)
  deriving DecidableEq

/-- What the sweep knows of a hash beside the listings: whether the object is younger than the grace
window, and whether its deletion is queued, and parked. -/
structure Circumstances (H : Type) where
  recent : H → Bool
  queuedForReclaim : H → Option Bool

/-- Nothing is recent, and nothing is queued. -/
def Circumstances.quiet : Circumstances H := ⟨fun _ => false, fun _ => none⟩

/-- The findings for a hash only the backend has. -/
def backendOnly (env : Circumstances H) (h : H) : List (Finding H) :=
  if env.recent h then []
  else match env.queuedForReclaim h with
    | some true => [.orphanBlobReclaimParked h]
    | some false => []
    | none => [.orphanBlob h]

/-- How far a batch may judge; `none` is no limit. -/
def horizon (n : ℕ) (page : BlobListPage H) (db : List H) : Option H :=
  let backendDone := page.nextCursor.isNone
  let dbDone := decide (db.length < n)
  if backendDone && dbDone then none
  else match page.blobs.getLast?, db.getLast? with
    | some b, some d => if backendDone || dbDone then some (max b d) else some (min b d)
    | some b, none => some b
    | none, some d => some d
    | none, none => none

def inRange (limit : Option H) (h : H) : Bool := limit.all fun l => h ≤ l

/-- The merge while the backend's page is at `b`; `rest` merges what follows `b`. -/
def joinAt (env : Circumstances H) (limit : Option H) (b : H) (rest : List H → List (Finding H)) :
    List H → List (Finding H)
  | [] => if inRange limit b then backendOnly env b ++ rest [] else []
  | d :: ds =>
    if b = d then rest ds
    else if b < d ∧ inRange limit b then backendOnly env b ++ rest (d :: ds)
    else if d < b ∧ inRange limit d then .blobMissingFromBackend d :: joinAt env limit b rest ds
    else []

/-- The merge of two pages. -/
def mergeJoin (env : Circumstances H) (limit : Option H) : List H → List H → List (Finding H)
  | [], ds => (ds.takeWhile (inRange limit)).map .blobMissingFromBackend
  | b :: bs, ds => joinAt env limit b (mergeJoin env limit bs) ds

/-- The loop of `run_resumable`, from the cursor, for at most `fuel` batches. -/
def sweep (env : Circumstances H) (n : ℕ) (list : Option H → BlobListPage H) (D : List H) :
    ℕ → Option H → Option (List (Finding H))
  | 0, _ => none
  | fuel + 1, cursor =>
    let page := list cursor
    if page.blobs.isEmpty && page.nextCursor.isNone then some []
    else
      let db := (after cursor D).take n
      let limit := horizon n page db
      let findings := mergeJoin env limit page.blobs db
      let exhausted := page.nextCursor.isNone && decide (db.length < n)
      match if exhausted then none else limit with
      | none => some findings
      | some k => (sweep env n list D fuel (some k)).map (findings ++ ·)

/-! ### The range of a batch -/

variable {limit : Option H}

theorem inRange_mono {h h' : H} (hle : h' ≤ h) (hr : inRange limit h = true) :
    inRange limit h' = true := by
  cases limit with
  | none => rfl
  | some l =>
    simp only [inRange, Option.all_some, decide_eq_true_eq] at hr ⊢
    exact hle.trans hr

theorem mem_takeWhile_inRange {h : H} : ∀ {ds : List H}, ds.Pairwise (· < ·) →
    (h ∈ ds.takeWhile (inRange limit) ↔ h ∈ ds ∧ inRange limit h = true)
  | [], _ => by simp
  | d :: ds, hp => by
    rw [List.pairwise_cons] at hp
    rw [List.takeWhile_cons]
    split_ifs with hd
    · rw [List.mem_cons, List.mem_cons, mem_takeWhile_inRange hp.2]
      constructor
      · rintro (rfl | ⟨h1, h2⟩)
        · exact ⟨.inl rfl, hd⟩
        · exact ⟨.inr h1, h2⟩
      · rintro ⟨rfl | h1, h2⟩
        · exact .inl rfl
        · exact .inr ⟨h1, h2⟩
    · simp only [List.not_mem_nil, List.mem_cons, false_iff, not_and]
      rintro (rfl | h1) h2
      · exact hd h2
      · exact hd (inRange_mono (hp.1 h h1).le h2)

/-! ### The merge -/

/-- What the merge of two pages promises. -/
structure JoinOK (limit : Option H) (bs ds : List H) (fs : List (Finding H)) : Prop where
  nodup : fs.Nodup
  orphan : ∀ h, .orphanBlob h ∈ fs ↔ h ∈ bs ∧ h ∉ ds ∧ inRange limit h = true
  missing : ∀ h, .blobMissingFromBackend h ∈ fs ↔ h ∈ ds ∧ h ∉ bs ∧ inRange limit h = true
  parked : ∀ h, .orphanBlobReclaimParked h ∉ fs

theorem JoinOK.nil_of_out {bs ds : List H}
    (hb : ∀ h ∈ bs, inRange limit h = false) (hd : ∀ h ∈ ds, inRange limit h = false) :
    JoinOK limit bs ds [] := by
  refine ⟨List.nodup_nil, fun h => ?_, fun h => ?_, fun h => List.not_mem_nil⟩
  · simp only [List.not_mem_nil, false_iff]
    rintro ⟨h1, -, h2⟩
    rw [hb h h1] at h2
    cases h2
  · simp only [List.not_mem_nil, false_iff]
    rintro ⟨h1, -, h2⟩
    rw [hd h h1] at h2
    cases h2

/-- What only one side has in the range. -/
abbrev OneSided (limit : Option H) (xs ys : List H) (F : H → Finding H) (fs : List (Finding H)) : Prop :=
  ∀ h, F h ∈ fs ↔ h ∈ xs ∧ h ∉ ys ∧ inRange limit h = true

section OneSided
variable {x : H} {xs ys : List H} {F : H → Finding H} {fs : List (Finding H)}

section

variable (h : OneSided limit xs ys F fs)
include h

theorem OneSided.mine (hF : F.Injective) (hy : x ∉ ys) (hr : inRange limit x = true) :
    OneSided limit (x :: xs) ys F (F x :: fs) := by
  intro y
  rw [List.mem_cons, List.mem_cons, h, hF.eq_iff]
  constructor
  · rintro (rfl | ⟨h1, h2, h3⟩)
    · exact ⟨.inl rfl, hy, hr⟩
    · exact ⟨.inr h1, h2, h3⟩
  · rintro ⟨rfl | h1, h2, h3⟩
    · exact .inl rfl
    · exact .inr ⟨h1, h2, h3⟩

theorem OneSided.other (hx : x ∉ xs) : OneSided limit xs (x :: ys) F fs := by
  intro y
  rw [h, List.mem_cons, not_or]
  constructor
  · rintro ⟨h1, h2, h3⟩
    exact ⟨h1, ⟨fun hh => hx (hh ▸ h1), h2⟩, h3⟩
  · rintro ⟨h1, ⟨-, h2⟩, h3⟩
    exact ⟨h1, h2, h3⟩

theorem OneSided.skip {f : Finding H} (hf : ∀ y, F y ≠ f) : OneSided limit xs ys F (f :: fs) := by
  intro y
  rw [List.mem_cons, or_iff_right (hf y), h]

theorem OneSided.both (hx : x ∉ xs) : OneSided limit (x :: xs) (x :: ys) F fs := by
  intro y
  rw [h.other hx]
  constructor
  · rintro ⟨h1, h2⟩
    exact ⟨List.mem_cons_of_mem x h1, h2⟩
  · rintro ⟨h1, h2, h3⟩
    refine ⟨(List.mem_cons.mp h1).resolve_left ?_, h2, h3⟩
    rintro rfl
    exact h2 List.mem_cons_self

end

end OneSided

variable {bs ds : List H} {fs : List (Finding H)}

theorem JoinOK.backendOnly {b : H} (hf : JoinOK limit bs ds fs) (hb : b ∉ bs) (hd : b ∉ ds) (hr : inRange limit b = true) :
    JoinOK limit (b :: bs) ds (.orphanBlob b :: fs) where
  nodup := List.nodup_cons.mpr ⟨fun h => hb ((hf.orphan b).mp h).1, hf.nodup⟩
  orphan := OneSided.mine hf.orphan (fun _ _ => Finding.orphanBlob.inj) hd hr
  missing := (OneSided.other hf.missing hd).skip nofun
  parked h := List.not_mem_cons_of_ne_of_not_mem nofun (hf.parked h)

theorem JoinOK.tableOnly {d : H} (hf : JoinOK limit bs ds fs) (hb : d ∉ bs) (hd : d ∉ ds) (hr : inRange limit d = true) :
    JoinOK limit bs (d :: ds) (.blobMissingFromBackend d :: fs) where
  nodup := List.nodup_cons.mpr ⟨fun h => hd ((hf.missing d).mp h).1, hf.nodup⟩
  orphan := (OneSided.other hf.orphan hb).skip nofun
  missing := OneSided.mine hf.missing (fun _ _ => Finding.blobMissingFromBackend.inj) hb hr
  parked h := List.not_mem_cons_of_ne_of_not_mem nofun (hf.parked h)

variable {x : H}

theorem JoinOK.both (hf : JoinOK limit bs ds fs) (hb : x ∉ bs) (hd : x ∉ ds) :
    JoinOK limit (x :: bs) (x :: ds) fs :=
  ⟨hf.nodup, OneSided.both hf.orphan hb, OneSided.both hf.missing hd, hf.parked⟩

variable {l : List H}

theorem notMem_of_lt (h : ∀ y ∈ l, x < y) : x ∉ l := fun hx => (h x hx).false

theorem out_of_range (hx : ¬ inRange limit x = true) (hl : ∀ y ∈ l, x ≤ y) :
    ∀ y ∈ l, inRange limit y = false :=
  fun y hy => Bool.eq_false_iff.mpr fun hin => hx (inRange_mono (hl y hy) hin)

theorem le_of_mem_cons (h : ∀ y ∈ l, x < y) : ∀ y ∈ x :: l, x ≤ y :=
  List.forall_mem_cons.mpr ⟨le_rfl, fun y hy => (h y hy).le⟩

theorem mergeJoin_ok (limit : Option H) : ∀ bs ds : List H, bs.Pairwise (· < ·) →
    ds.Pairwise (· < ·) → JoinOK limit bs ds (mergeJoin .quiet limit bs ds)
  | [], ds, _, hds => by
    have hn : (ds.takeWhile (inRange limit)).Nodup :=
      (hds.sublist (List.takeWhile_sublist _)).imp ne_of_lt
    refine ⟨hn.map fun a b h => by cases h; rfl, fun h => ?_, fun h => ?_, fun h => ?_⟩
    · simp [mergeJoin]
    · simp [mergeJoin, mem_takeWhile_inRange hds]
    · simp [mergeJoin]
  | b :: bs, ds, hbs, hds => by
    have hb := List.pairwise_cons.mp hbs
    rw [mergeJoin]
    -- the backend stays at `b` while the table catches up
    induction ds with
    | nil =>
      rw [joinAt]
      split_ifs with hr
      · exact (mergeJoin_ok limit bs [] hb.2 .nil).backendOnly (notMem_of_lt hb.1) List.not_mem_nil hr
      · exact .nil_of_out (out_of_range hr (le_of_mem_cons hb.1)) nofun
    | cons d ds ih =>
      have hd := List.pairwise_cons.mp hds
      rw [joinAt]
      rcases lt_trichotomy b d with hlt | rfl | hlt
      · have hbd : ∀ y ∈ d :: ds, b < y := fun y hy => hlt.trans_le (le_of_mem_cons hd.1 y hy)
        rw [if_neg hlt.ne]
        by_cases hr : inRange limit b = true
        · rw [if_pos ⟨hlt, hr⟩]
          exact (mergeJoin_ok limit bs (d :: ds) hb.2 hds).backendOnly (notMem_of_lt hb.1)
            (notMem_of_lt hbd) hr
        · rw [if_neg fun h => hr h.2, if_neg fun h => hlt.asymm h.1]
          exact .nil_of_out (out_of_range hr (le_of_mem_cons hb.1))
            (out_of_range hr fun y hy => (hbd y hy).le)
      · rw [if_pos rfl]
        exact (mergeJoin_ok limit bs ds hb.2 hd.2).both (notMem_of_lt hb.1) (notMem_of_lt hd.1)
      · have hdb : ∀ y ∈ b :: bs, d < y := fun y hy => hlt.trans_le (le_of_mem_cons hb.1 y hy)
        rw [if_neg hlt.ne', if_neg fun h => hlt.asymm h.1]
        by_cases hr : inRange limit d = true
        · rw [if_pos ⟨hlt, hr⟩]
          exact (ih hd.2).tableOnly (notMem_of_lt hdb) (notMem_of_lt hd.1) hr
        · rw [if_neg fun h => hr h.2]
          exact .nil_of_out (out_of_range hr fun y hy => (hdb y hy).le)
            (out_of_range hr (le_of_mem_cons hd.1))

/-! ### Batches -/

/-- The findings after the cursor are right: an orphan for exactly the hashes the backend alone has, a
missing blob for exactly those the table alone has, each once. -/
structure FindingsOK (B D : List H) (c : Option H) (fs : List (Finding H)) : Prop where
  nodup : fs.Nodup
  orphan : ∀ h, .orphanBlob h ∈ fs ↔ h ∈ after c B ∧ h ∉ D
  missing : ∀ h, .blobMissingFromBackend h ∈ fs ↔ h ∈ after c D ∧ h ∉ B
  parked : ∀ h, .orphanBlobReclaimParked h ∉ fs

/-- The hash a finding is about. -/
def Finding.hash : Finding H → H
  | .orphanBlob h | .orphanBlobReclaimParked h | .blobMissingFromBackend h => h

/-- All findings are after the cursor. -/
def Beyond (c : Option H) (fs : List (Finding H)) : Prop := ∀ f ∈ fs, ∀ k, c = some k → k < f.hash

variable {B D : List H} {c : Option H} {k : H} {bs ds : List H} {fs fs' : List (Finding H)}

theorem JoinOK.mem (hj : JoinOK limit bs ds fs) {f : Finding H} (hf : f ∈ fs) :
    (f.hash ∈ bs ∨ f.hash ∈ ds) ∧ inRange limit f.hash = true := by
  cases f with
  | orphanBlob h => exact ⟨.inl ((hj.orphan h).mp hf).1, ((hj.orphan h).mp hf).2.2⟩
  | blobMissingFromBackend h => exact ⟨.inr ((hj.missing h).mp hf).1, ((hj.missing h).mp hf).2.2⟩
  | orphanBlobReclaimParked h => exact absurd hf (hj.parked h)

theorem JoinOK.le (hj : JoinOK (some k) bs ds fs) {f : Finding H} (hf : f ∈ fs) : f.hash ≤ k := by
  have h := (hj.mem hf).2
  simpa [inRange] using h

/-- What is right from the cursor on is right from the horizon on. -/
theorem FindingsOK.rest (hok : FindingsOK B D c (fs ++ fs')) (hk : ∀ j, c = some j → j < k)
    (hj : JoinOK (some k) bs ds fs) (hfs : Beyond (some k) fs') : FindingsOK B D (some k) fs' := by
  have hside : ∀ {F : H → Finding H} {X Y : List H}, (∀ h, (F h).hash = h) →
      (∀ h, F h ∈ fs ++ fs' ↔ h ∈ after c X ∧ h ∉ Y) → ∀ h, F h ∈ fs' ↔ h ∈ after (some k) X ∧ h ∉ Y := by
    intro F X Y hF hside h
    rw [mem_after_some hk]
    constructor
    · intro hf
      have h1 := (hside h).mp (List.mem_append_right _ hf)
      exact ⟨⟨h1.1, hF h ▸ hfs _ hf k rfl⟩, h1.2⟩
    · rintro ⟨⟨h1, hlt⟩, h2⟩
      rcases List.mem_append.mp ((hside h).mpr ⟨h1, h2⟩) with hf | hf
      · exact absurd (hF h ▸ hj.le hf) (not_le.mpr hlt)
      · exact hf
  exact ⟨(List.nodup_append.mp hok.nodup).2.1, hside (fun _ => rfl) hok.orphan, hside (fun _ => rfl) hok.missing,
    fun h hf => hok.parked h (List.mem_append_right _ hf)⟩

/-- In the range both pages show completely, a hash on one page and not on the other is on that side and
not on the other. -/
theorem one_sided {X Y : List H} {xs ys : List H} (hxs : ∀ h, h ∈ xs → h ∈ after c X)
    (hys : ∀ h, h ∈ ys → h ∈ after c Y) (hX : ∀ h ∈ after c X, h ≤ k → h ∈ xs)
    (hY : ∀ h ∈ after c Y, h ≤ k → h ∈ ys) (h : H) :
    (h ∈ xs ∧ h ∉ ys ∧ inRange (some k) h = true) ↔ (h ∈ after c X ∧ h ∉ Y) ∧ h ≤ k := by
  simp only [inRange, Option.all_some, decide_eq_true_eq]
  constructor
  · rintro ⟨h1, h2, h3⟩
    refine ⟨⟨hxs h h1, fun hmem => h2 (hY h ?_ h3)⟩, h3⟩
    exact mem_after.mpr ⟨hmem, (mem_after.mp (hxs h h1)).2⟩
  · rintro ⟨⟨h1, h2⟩, h3⟩
    exact ⟨hX h h1 h3, fun hmem => h2 (mem_after.mp (hys h hmem)).1, h3⟩

/-- A batch whose pages show everything up to the horizon is right, if the rest is. -/
theorem FindingsOK.append (hok : FindingsOK B D (some k) fs') (hk : ∀ j, c = some j → j < k)
    (hj : JoinOK (some k) bs ds fs) (hfs : Beyond (some k) fs')
    (hbs : ∀ h, h ∈ bs → h ∈ after c B) (hds : ∀ h, h ∈ ds → h ∈ after c D)
    (hB : ∀ h ∈ after c B, h ≤ k → h ∈ bs) (hD : ∀ h ∈ after c D, h ≤ k → h ∈ ds) :
    FindingsOK B D c (fs ++ fs') := by
  have hsplit : ∀ {P Q : Prop} {h : H}, ((P ∧ Q) ∧ h ≤ k ∨ (P ∧ k < h) ∧ Q) ↔ P ∧ Q := by
    intro P Q h
    constructor
    · rintro (⟨h1, -⟩ | ⟨⟨h1, -⟩, h2⟩)
      · exact h1
      · exact ⟨h1, h2⟩
    · rintro ⟨h1, h2⟩
      rcases le_or_gt h k with hle | hlt
      · exact .inl ⟨⟨h1, h2⟩, hle⟩
      · exact .inr ⟨⟨h1, hlt⟩, h2⟩
  refine ⟨List.nodup_append.mpr ⟨hj.nodup, hok.nodup, ?_⟩, fun h => ?_, fun h => ?_, fun h hf => ?_⟩
  · rintro f hf _ hf' rfl
    exact absurd (hj.le hf) (not_le.mpr (hfs f hf' k rfl))
  · rw [List.mem_append, hj.orphan, hok.orphan, one_sided hbs hds hB hD, mem_after_some hk, hsplit]
  · rw [List.mem_append, hj.missing, hok.missing, one_sided hds hbs hD hB, mem_after_some hk, hsplit]
  · rcases List.mem_append.mp hf with hf | hf
    · exact hj.parked h hf
    · exact hok.parked h hf

theorem mem_of_isPrefix_of_le {p : List H} (hl : l.Pairwise (· < ·)) (hp : p <+: l) {y : H}
    (hy : y ∈ p) (hx : x ∈ l) (hle : x ≤ y) : x ∈ p := by
  obtain ⟨r, rfl⟩ := hp
  rcases List.mem_append.mp hx with hx | hx
  · exact hx
  · exact absurd ((List.pairwise_append.mp hl).2.2 y hy x hx) (not_lt.mpr hle)

omit [LinearOrder H] in
theorem exists_getLast (hl : l ≠ []) : ∃ b, l.getLast? = some b ∧ b ∈ l :=
  ⟨l.getLast hl, List.getLast?_eq_some_getLast hl, List.getLast_mem hl⟩

/-! ### Sweeps -/

section Sweep
variable {B : Listing H} (L : Backend B) (n : ℕ) (D : Listing H)

/-- The listings the sweep judges right from the cursor on. While both sides have more to come, the batch
ends at the smaller of the two page ends. When the backend is done, so must be the table after one more
page; when only the table is done, no hash the backend has yet to list may come before one of its. -/
inductive Judgeable : Option H → Prop where
  | last {c : Option H} (hdone : (L.listBlobHashes c).nextCursor = none)
      (h : after c D.hashes = [] ∨ (L.listBlobHashes c).blobs ≠ [] ∧ (after c D.hashes).length ≤ n) :
      Judgeable c
  | table {c : Option H} (hmore : (L.listBlobHashes c).nextCursor ≠ none)
      (hdb : (after c D.hashes).length < n)
      (h : ∀ d ∈ after c D.hashes, ∀ b ∈ after c B.hashes, b ≤ d → b ∈ (L.listBlobHashes c).blobs) :
      Judgeable c
  | next {c : Option H} {b d : H} (hmore : (L.listBlobHashes c).nextCursor ≠ none)
      (hdb : n ≤ (after c D.hashes).length) (hb : (L.listBlobHashes c).blobs.getLast? = some b)
      (hd : ((after c D.hashes).take n).getLast? = some d) (h : Judgeable (some (min b d))) :
      Judgeable c

/-- The blobs of a page of the backend. -/
abbrev Backend.page (L : Backend B) (c : Option H) : List H := (L.listBlobHashes c).blobs

/-- The page is the last one. -/
abbrev Backend.Last (L : Backend B) (c : Option H) : Prop := (L.listBlobHashes c).nextCursor = none

variable {L n D} {fuel : ℕ} {c : Option H}

theorem Backend.page_eq (h : L.Last c) : L.page c = after c B.hashes := L.complete c h

theorem judgeable_of_nil (hn : 0 < n) (h : after c D.hashes = []) : Judgeable L n D c := by
  by_cases hdone : L.Last c
  · exact .last hdone (.inl h)
  · refine .table hdone (by rwa [h, List.length_nil]) fun d hd => ?_
    rw [h] at hd
    cases hd

theorem Judgeable.done (h : Judgeable L n D c) (hdone : L.Last c) :
    after c D.hashes = [] ∨ L.page c ≠ [] ∧ (after c D.hashes).length ≤ n := by
  cases h with
  | last _ h => exact h
  | table hmore => exact absurd hdone hmore
  | next hmore => exact absurd hdone hmore

theorem page_subset {h : H} (hh : h ∈ L.page c) : h ∈ after c B.hashes :=
  (L.initial c).subset hh

theorem table_subset {h : H} (hh : h ∈ D.page n c) : h ∈ after c D.hashes :=
  List.mem_of_mem_take hh

theorem batch_ok (limit : Option H) : JoinOK limit (L.page c)
    (D.page n c) (mergeJoin .quiet limit (L.page c)
      (D.page n c)) :=
  mergeJoin_ok limit _ _ ((after_pairwise c B).sublist (L.initial c).sublist)
    ((after_pairwise c D).sublist (List.take_sublist _ _))

theorem sweep_empty (hb : L.page c = []) (hdone : L.Last c) :
    sweep .quiet n L.listBlobHashes D.hashes (fuel + 1) c = some [] := by
  simp [sweep, hb, hdone]

theorem sweep_exhausted (hb : L.page c ≠ []) (hdone : L.Last c) (hdb : (D.page n c).length < n) :
    sweep .quiet n L.listBlobHashes D.hashes (fuel + 1) c =
      some (mergeJoin .quiet none (L.page c) (D.page n c)) := by
  have hlim : horizon n (L.listBlobHashes c) (D.page n c) = none := by
    simp only [horizon, hdone, Option.isNone_none, hdb, decide_true, Bool.and_self, if_true]
  have hempty : (L.page c).isEmpty = false := by simpa using hb
  simp only [sweep, hempty, Bool.false_and, Bool.false_eq_true, if_false, hlim, ite_self]

theorem sweep_next {k : H} (hempty : ¬ (L.page c = [] ∧ L.Last c))
    (hex : ¬ (L.Last c ∧ (D.page n c).length < n))
    (hlim : horizon n (L.listBlobHashes c) (D.page n c) = some k) :
    sweep .quiet n L.listBlobHashes D.hashes (fuel + 1) c =
      (sweep .quiet n L.listBlobHashes D.hashes fuel (some k)).map
        (mergeJoin .quiet (some k) (L.page c) (D.page n c) ++ ·) := by
  have h1 : ((L.page c).isEmpty && (L.listBlobHashes c).nextCursor.isNone) = false := by
    simpa [Option.isSome_iff_ne_none] using hempty
  have h2 : ((L.listBlobHashes c).nextCursor.isNone &&
      decide ((D.page n c).length < n)) = false := by
    simpa using hex
  simp only [sweep, h1, h2, hlim, Bool.false_eq_true, if_false]

/-- The horizon of a batch that is not the last one, and the hash it is taken from. -/
theorem horizon_cases {page : BlobListPage H} {db : List H} (hne : page.blobs ≠ [])
    (hex : ¬ (page.nextCursor = none ∧ db.length < n)) :
    ∃ b, page.blobs.getLast? = some b ∧ b ∈ page.blobs ∧ (db = [] ∧ horizon n page db = some b ∨
      ∃ d, db.getLast? = some d ∧ d ∈ db ∧ horizon n page db =
        if page.nextCursor = none ∨ db.length < n then some (max b d) else some (min b d)) := by
  obtain ⟨b, hb, hbm⟩ := exists_getLast hne
  refine ⟨b, hb, hbm, ?_⟩
  have hboth : (page.nextCursor.isNone && decide (db.length < n)) = false := by simpa using hex
  by_cases hdb : db = []
  · refine .inl ⟨hdb, ?_⟩
    rw [hdb] at hboth ⊢
    simp only [horizon, hboth, hb, Bool.false_eq_true, if_false, List.getLast?_nil]
  · obtain ⟨d, hd, hdm⟩ := exists_getLast hdb
    refine .inr ⟨d, hd, hdm, ?_⟩
    simp only [horizon, hboth, hb, hd, Bool.false_eq_true, if_false]
    by_cases hdone : page.nextCursor = none
    · simp [hdone]
    · simp [hdone]

theorem page_ne_nil (h : ¬ (L.page c = [] ∧ L.Last c)) : L.page c ≠ [] := by
  intro hnil
  by_cases hdone : L.Last c
  · exact h ⟨hnil, hdone⟩
  · exact L.proceeds c hdone hnil

theorem Beyond.of_join {limit : Option H} : Beyond c (mergeJoin .quiet limit (L.page c)
    (D.page n c)) := by
  intro f hf k hk
  rcases ((batch_ok limit).mem hf).1 with h | h
  · exact (mem_after.mp (page_subset h)).2 k hk
  · exact (mem_after.mp (table_subset h)).2 k hk

theorem Beyond.append {k : H} {fs fs' : List (Finding H)} (hk : ∀ j, c = some j → j < k)
    (h : Beyond c fs) (h' : Beyond (some k) fs') : Beyond c (fs ++ fs') := by
  intro f hf j hj
  rcases List.mem_append.mp hf with hf | hf
  · exact h f hf j hj
  · exact (hk j hj).trans (h' f hf k rfl)

theorem after_eq_nil {l : List H} {k : H} (hk : ∀ j, c = some j → j < k) (h : ∀ x ∈ after c l, x ≤ k) :
    after (some k) l = [] := by
  rw [List.eq_nil_iff_forall_not_mem]
  intro x hx
  obtain ⟨h1, h2⟩ := (mem_after_some hk).mp hx
  exact absurd (h x h1) (not_le.mpr h2)

/-- The backend has nothing left, and the sweep does not look at the table. -/
theorem findings_empty (hb : L.page c = []) (hdone : L.Last c) :
    FindingsOK B.hashes D.hashes c [] ↔ Judgeable L n D c := by
  have hB : after c B.hashes = [] := by rw [← L.page_eq hdone, hb]
  constructor
  · intro hok
    refine .last hdone (.inl ?_)
    rw [List.eq_nil_iff_forall_not_mem]
    intro x hx
    have hxB : x ∉ B.hashes := by
      intro hxB
      have hmem : x ∈ after c B.hashes := mem_after.mpr ⟨hxB, (mem_after.mp hx).2⟩
      rw [hB] at hmem
      cases hmem
    have hx' := (hok.missing x).mpr ⟨hx, hxB⟩
    cases hx'
  · intro hj
    have hD : after c D.hashes = [] := (hj.done hdone).resolve_right fun h => h.1 hb
    refine ⟨List.nodup_nil, fun x => ?_, fun x => ?_, fun x => List.not_mem_nil⟩
    · rw [hB]
      simp
    · rw [hD]
      simp

/-- Both sides fit their pages. -/
theorem findings_exhausted (hdone : L.Last c) (hlen : (after c D.hashes).length < n) :
    FindingsOK B.hashes D.hashes c
      (mergeJoin .quiet none (L.page c) (D.page n c)) := by
  have hj := batch_ok (L := L) (D := D) (n := n) (c := c) none
  rw [L.page_eq hdone, D.page_eq hlen.le] at hj ⊢
  have hside : ∀ {X Y : List H} (x : H), (x ∈ after c X ∧ x ∉ after c Y ∧ inRange none x = true) ↔
      x ∈ after c X ∧ x ∉ Y := by
    intro X Y x
    constructor
    · rintro ⟨h1, h2, -⟩
      exact ⟨h1, fun hx => h2 (mem_after.mpr ⟨hx, (mem_after.mp h1).2⟩)⟩
    · rintro ⟨h1, h2⟩
      exact ⟨h1, fun hx => h2 (mem_after.mp hx).1, rfl⟩
  exact ⟨hj.nodup, fun x => (hj.orphan x).trans (hside x), fun x => (hj.missing x).trans (hside x),
    hj.parked⟩

section Batch
variable {k : H} {fs : List (Finding H)}

/-- The findings of a batch with the horizon `k`. -/
abbrev batch (L : Backend B) (n : ℕ) (D : Listing H) (c : Option H) (k : H) : List (Finding H) :=
  mergeJoin .quiet (some k) (L.page c) (D.page n c)

/-- A hash of one side up to the horizon that is not on its page is judged wrong, if the other page shows
all of its side: the batch takes it for one that only the other side has. -/
theorem misjudged {X Y xs ys : List H} {F G : H → Finding H} {fs₁ : List (Finding H)} {x : H}
    (hF : ∀ h, F h ∈ fs₁ ++ fs ↔ h ∈ after c X ∧ h ∉ Y) (hG : ∀ h, G h ∈ fs₁ ++ fs ↔ h ∈ after c Y ∧ h ∉ X)
    (hf : OneSided (some k) xs ys F fs₁) (hg : OneSided (some k) ys xs G fs₁)
    (hY : ∀ h ∈ after c Y, h ∈ ys) (hx : x ∈ after c X) (hnot : x ∉ xs) (hle : x ≤ k) : F x ∈ fs := by
  have hr : inRange (some k) x = true := by simpa [inRange] using hle
  by_cases hxY : x ∈ Y
  · have hpage := hY x (mem_after.mpr ⟨hxY, (mem_after.mp hx).2⟩)
    have hmem := (hG x).mp (List.mem_append_left _ ((hg x).mpr ⟨hpage, hnot, hr⟩))
    exact absurd (mem_after.mp hx).1 hmem.2
  · refine (List.mem_append.mp ((hF x).mpr ⟨hx, hxY⟩)).resolve_left fun hmem => ?_
    exact hnot ((hf x).mp hmem).1

theorem page_lt (hk : k ∈ L.page c ∨ k ∈ D.page n c) : ∀ j, c = some j → j < k := by
  rcases hk with hk | hk
  · exact (mem_after.mp (page_subset hk)).2
  · exact (mem_after.mp (table_subset hk)).2

theorem findings_batch (hk : ∀ j, c = some j → j < k) (hfs : Beyond (some k) fs)
    (hok : FindingsOK B.hashes D.hashes (some k) fs)
    (hB : ∀ h ∈ after c B.hashes, h ≤ k → h ∈ L.page c)
    (hD : ∀ h ∈ after c D.hashes, h ≤ k → h ∈ D.page n c) :
    FindingsOK B.hashes D.hashes c (batch L n D c k ++ fs) :=
  hok.append hk (batch_ok (some k)) hfs (fun _ => page_subset) (fun _ => table_subset) hB hD

/-- The backend is done, the table fills its page: right iff that page is all of it. -/
theorem findings_backendDone (hn : 0 < n) (hdone : L.Last c) (hne : L.page c ≠ [])
    (hk : k ∈ L.page c ∨ k ∈ D.page n c) (hb : ∀ x ∈ L.page c, x ≤ k) (hd : ∀ x ∈ D.page n c, x ≤ k)
    (hfs : Beyond (some k) fs)
    (hiff : FindingsOK B.hashes D.hashes (some k) fs ↔ Judgeable L n D (some k)) :
    FindingsOK B.hashes D.hashes c (batch L n D c k ++ fs) ↔ Judgeable L n D c := by
  have hB := L.page_eq hdone
  have hpage : ∀ h ∈ after c B.hashes, h ∈ L.page c := by
    intro h hh
    rwa [hB]
  have hlt := page_lt hk
  have hBnil : after (some k) B.hashes = [] := after_eq_nil hlt fun x hx => hb x (hpage x hx)
  constructor
  · intro hok
    refine .last hdone (.inr ⟨hne, ?_⟩)
    by_contra hgt
    obtain ⟨x, hx, hnot⟩ : ∃ x ∈ after c D.hashes, x ∉ D.page n c := by
      by_contra hall
      have hsub : ∀ x ∈ after c D.hashes, x ∈ D.page n c := by
        intro x hx
        by_contra hnot
        exact hall ⟨x, hx, hnot⟩
      have hnodup : (after c D.hashes).Nodup := (after_pairwise c D).imp ne_of_lt
      have hcard := (hnodup.subperm hsub).length_le
      rw [List.length_take] at hcard
      omega
    rcases le_or_gt x k with hle | hgt
    · have hj := batch_ok (L := L) (D := D) (n := n) (c := c) (some k)
      exact hle.not_gt (hfs _ (misjudged hok.missing hok.orphan hj.missing hj.orphan hpage hx hnot hle) k rfl)
    · -- the next batch finds the backend empty and ends the sweep
      have hrest := hiff.mp (hok.rest hlt (batch_ok (some k)) hfs)
      have hnil : L.page (some k) = [] := by
        have h := L.initial (some k)
        rw [hBnil] at h
        exact List.prefix_nil.mp h
      have hend : L.Last (some k) := by
        by_contra hmore
        exact L.proceeds (some k) hmore hnil
      have hD : after (some k) D.hashes = [] := (hrest.done hend).resolve_right fun h => h.1 hnil
      have hmem : x ∈ after (some k) D.hashes := (mem_after_some hlt).mpr ⟨hx, hgt⟩
      rw [hD] at hmem
      cases hmem
  · intro hj
    have hle : (after c D.hashes).length ≤ n := by
      rcases hj.done hdone with h | h
      · rw [h]
        exact Nat.zero_le _
      · exact h.2
    have hD := D.page_eq hle
    have hDnil : after (some k) D.hashes = [] := after_eq_nil hlt fun x hx => hd x (by rwa [hD])
    exact findings_batch hlt hfs (hiff.mpr (judgeable_of_nil hn hDnil)) (fun h hh _ => hpage h hh)
      fun h hh _ => by rwa [hD]

/-- The table is done, the backend has more to list: right iff none of that comes before a hash of the
table. -/
theorem findings_tableDone {b : H} (hn : 0 < n) (hmore : ¬ L.Last c)
    (hlen : (after c D.hashes).length < n) (hk : k ∈ L.page c ∨ k ∈ D.page n c)
    (hb : b ∈ L.page c) (hbk : k = b ∨ ∃ d ∈ after c D.hashes, k = max b d)
    (hd : ∀ x ∈ after c D.hashes, x ≤ k) (hfs : Beyond (some k) fs)
    (hiff : FindingsOK B.hashes D.hashes (some k) fs ↔ Judgeable L n D (some k)) :
    FindingsOK B.hashes D.hashes c (batch L n D c k ++ fs) ↔ Judgeable L n D c := by
  have hD := D.page_eq hlen.le
  have hlt := page_lt hk
  have hpage : ∀ x ∈ after c B.hashes, x ≤ b → x ∈ L.page c := fun x hx hle =>
    mem_of_isPrefix_of_le (after_pairwise c B) (L.initial c) hb hx hle
  constructor
  · intro hok
    refine .table hmore hlen fun d hdm x hx hle => ?_
    by_contra hnot
    have hj := batch_ok (L := L) (D := D) (n := n) (c := c) (some k)
    have hall : ∀ h ∈ after c D.hashes, h ∈ D.page n c := fun h hh => by rwa [hD]
    have hxk := hle.trans (hd d hdm)
    exact hxk.not_gt (hfs _ (misjudged hok.orphan hok.missing hj.orphan hj.missing hall hx hnot hxk) k rfl)
  · intro hj
    have hcond : ∀ d ∈ after c D.hashes, ∀ x ∈ after c B.hashes, x ≤ d →
        x ∈ L.page c := by
      cases hj with
      | last hdone => exact absurd hdone hmore
      | table _ _ h => exact h
      | next _ hdb => omega
    have hDnil : after (some k) D.hashes = [] := after_eq_nil hlt hd
    refine findings_batch hlt hfs (hiff.mpr (judgeable_of_nil hn hDnil)) (fun x hx hle => ?_)
      fun h hh _ => by rwa [hD]
    rcases hbk with rfl | ⟨d, hdm, rfl⟩
    · exact hpage x hx hle
    · rcases le_max_iff.mp hle with hle | hle
      · exact hpage x hx hle
      · exact hcond d hdm x hx hle

/-- Both sides have more: the batch is right, and it depends on the rest. -/
theorem findings_both {b d : H} (hmore : ¬ L.Last c)
    (hlen : n ≤ (after c D.hashes).length) (hb : (L.page c).getLast? = some b)
    (hbm : b ∈ L.page c) (hd : (D.page n c).getLast? = some d)
    (hdm : d ∈ D.page n c) (hfs : Beyond (some (min b d)) fs)
    (hiff : FindingsOK B.hashes D.hashes (some (min b d)) fs ↔ Judgeable L n D (some (min b d))) :
    FindingsOK B.hashes D.hashes c (batch L n D c (min b d) ++ fs) ↔ Judgeable L n D c := by
  have hlt : ∀ j, c = some j → j < min b d := fun j hj =>
    lt_min (page_lt (D := D) (n := n) (.inl hbm) j hj) (page_lt (L := L) (.inr hdm) j hj)
  constructor
  · intro hok
    exact .next hmore hlen hb hd (hiff.mp (hok.rest hlt (batch_ok _) hfs))
  · intro hj
    cases hj with
    | last hdone => exact absurd hdone hmore
    | table _ hdb => omega
    | next _ _ hb' hd' h =>
      rw [hb] at hb'
      rw [hd] at hd'
      cases hb'
      cases hd'
      refine findings_batch hlt hfs (hiff.mpr h) (fun x hx hle => ?_) fun x hx hle => ?_
      · exact mem_of_isPrefix_of_le (after_pairwise c B) (L.initial c) hbm hx (hle.trans (min_le_left _ _))
      · exact mem_of_isPrefix_of_le (after_pairwise c D) (List.take_prefix _ _) hdm hx
          (hle.trans (min_le_right _ _))

end Batch

theorem mem_max {b d : H} {bs ds : List H} (hb : b ∈ bs) (hd : d ∈ ds) : max b d ∈ bs ∨ max b d ∈ ds := by
  rcases max_choice b d with hm | hm
  · exact .inl (by rwa [hm])
  · exact .inr (by rwa [hm])

theorem mem_min {b d : H} {bs ds : List H} (hb : b ∈ bs) (hd : d ∈ ds) : min b d ∈ bs ∨ min b d ∈ ds := by
  rcases min_choice b d with hm | hm
  · exact .inl (by rwa [hm])
  · exact .inr (by rwa [hm])

/-- A sweep that ends says nothing about hashes up to the cursor, and it is right iff the listings are
judgeable from there. -/
theorem sweep_ok (hn : 0 < n) : ∀ {fuel : ℕ} {c : Option H} {fs : List (Finding H)},
    sweep .quiet n L.listBlobHashes D.hashes fuel c = some fs →
      Beyond c fs ∧ (FindingsOK B.hashes D.hashes c fs ↔ Judgeable L n D c)
  | 0, c, fs, h => by cases h
  | fuel + 1, c, fs, h => by
    by_cases hempty : L.page c = [] ∧ L.Last c
    · rw [sweep_empty hempty.1 hempty.2] at h
      cases h
      exact ⟨by simp [Beyond], findings_empty hempty.1 hempty.2⟩
    have hdb : (D.page n c).length < n ↔ (after c D.hashes).length < n := by
      rw [List.length_take]
      omega
    by_cases hex : L.Last c ∧ (D.page n c).length < n
    · have hne : L.page c ≠ [] := fun h => hempty ⟨h, hex.1⟩
      have hlen := hdb.mp hex.2
      rw [sweep_exhausted hne hex.1 hex.2] at h
      cases h
      exact ⟨.of_join, iff_of_true (findings_exhausted hex.1 hlen) (.last hex.1 (.inr ⟨hne, hlen.le⟩))⟩
    obtain ⟨b, hb, hbm, hor⟩ := horizon_cases (page_ne_nil hempty) hex
    have hble : ∀ x ∈ L.page c, x ≤ b := fun x hx =>
      le_getLast ((after_pairwise c B).sublist (L.initial c).sublist) hb hx
    have hstep : ∀ {k}, horizon n (L.listBlobHashes c) (D.page n c) = some k →
        ∃ fs', sweep .quiet n L.listBlobHashes D.hashes fuel (some k) = some fs' ∧
          fs = batch L n D c k ++ fs' := by
      intro k hlim
      rw [sweep_next hempty hex hlim, Option.map_eq_some_iff] at h
      obtain ⟨fs', h1, h2⟩ := h
      exact ⟨fs', h1, h2.symm⟩
    rcases hor with ⟨hD, hlim⟩ | ⟨d, hd, hdm, hlim⟩
    · obtain ⟨fs', h1, rfl⟩ := hstep hlim
      obtain ⟨hfs, hiff⟩ := sweep_ok hn h1
      have hlen : (after c D.hashes).length < n := hdb.mp (by rwa [hD, List.length_nil])
      refine ⟨Beyond.of_join.append (page_lt (D := D) (n := n) (.inl hbm)) hfs, ?_⟩
      refine findings_tableDone hn (fun hdone => hex ⟨hdone, hdb.mpr hlen⟩) hlen (.inl hbm) hbm
        (.inl rfl) (fun x hx => ?_) hfs hiff
      rw [← D.page_eq hlen.le, hD] at hx
      cases hx
    have hdle : ∀ x ∈ D.page n c, x ≤ d := fun x hx =>
      le_getLast ((after_pairwise c D).sublist (List.take_sublist _ _)) hd hx
    split_ifs at hlim with hone
    · have hmax := mem_max hbm hdm
      obtain ⟨fs', h1, rfl⟩ := hstep hlim
      obtain ⟨hfs, hiff⟩ := sweep_ok hn h1
      refine ⟨Beyond.of_join.append (page_lt hmax) hfs, ?_⟩
      rcases hone with hdone | hlen
      · exact findings_backendDone hn hdone (fun h => hempty ⟨h, hdone⟩) hmax
          (fun x hx => (hble x hx).trans (le_max_left _ _))
          (fun x hx => (hdle x hx).trans (le_max_right _ _)) hfs hiff
      · refine findings_tableDone hn (fun hdone => hex ⟨hdone, hlen⟩) (hdb.mp hlen) hmax hbm
          (.inr ⟨d, table_subset hdm, rfl⟩) (fun x hx => ?_) hfs hiff
        rw [D.page_eq (hdb.mp hlen).le] at hdle
        exact (hdle x hx).trans (le_max_right _ _)
    · have hmin := mem_min hbm hdm
      rw [not_or] at hone
      obtain ⟨fs', h1, rfl⟩ := hstep hlim
      obtain ⟨hfs, hiff⟩ := sweep_ok hn h1
      refine ⟨Beyond.of_join.append (page_lt hmin) hfs, ?_⟩
      exact findings_both hone.1 (not_lt.mp fun h => hone.2 (hdb.mpr h)) hb hbm hd hdm hfs hiff

/-- Every batch but the last moves the cursor past a hash of one of the two sides. -/
theorem sweep_ends (hn : 0 < n) : ∀ {fuel : ℕ} {c : Option H},
    (after c B.hashes).length + (after c D.hashes).length < fuel →
      ∃ fs, sweep .quiet n L.listBlobHashes D.hashes fuel c = some fs
  | 0, c, h => absurd h (Nat.not_lt_zero _)
  | fuel + 1, c, h => by
    by_cases hempty : L.page c = [] ∧ L.Last c
    · exact ⟨_, sweep_empty hempty.1 hempty.2⟩
    by_cases hex : L.Last c ∧ (D.page n c).length < n
    · exact ⟨_, sweep_exhausted (fun h => hempty ⟨h, hex.1⟩) hex.1 hex.2⟩
    obtain ⟨b, -, hbm, hor⟩ := horizon_cases (page_ne_nil hempty) hex
    obtain ⟨k, hlim, hk⟩ : ∃ k, horizon n (L.listBlobHashes c) (D.page n c) = some k ∧
        (k ∈ L.page c ∨ k ∈ D.page n c) := by
      rcases hor with ⟨-, hlim⟩ | ⟨d, -, hdm, hlim⟩
      · exact ⟨b, hlim, .inl hbm⟩
      · split_ifs at hlim
        · exact ⟨_, hlim, mem_max hbm hdm⟩
        · exact ⟨_, hlim, mem_min hbm hdm⟩
    have hB := length_after_le B.hashes (page_lt hk)
    have hD := length_after_le D.hashes (page_lt hk)
    have hfuel : (after (some k) B.hashes).length + (after (some k) D.hashes).length < fuel := by
      rcases hk with hk | hk
      · have := length_after_lt (page_subset hk)
        omega
      · have := length_after_lt (table_subset hk)
        omega
    obtain ⟨fs, hfs⟩ := sweep_ends hn hfuel
    exact ⟨_, by rw [sweep_next hempty hex hlim, hfs, Option.map_some]⟩

/-- **The sweep ends, and it names every orphan and every missing blob, each once and nothing else, iff
the listings are judgeable.** -/
theorem sweep_findings (L : Backend B) (D : Listing H) :
    ∃ fs, sweep .quiet batchSize L.listBlobHashes D.hashes (B.hashes.length + D.hashes.length + 1) none =
        some fs ∧
      (FindingsOK B.hashes D.hashes none fs ↔ Judgeable L batchSize D none) := by
  have hall : ∀ l : List H, after none l = l := fun l => by simp [after]
  have hn : 0 < batchSize := by decide
  obtain ⟨fs, hfs⟩ := sweep_ends (L := L) (D := D) (c := none) hn
    (by rw [hall, hall]; exact Nat.lt_succ_self _)
  exact ⟨fs, hfs, (sweep_ok hn hfs).2⟩

end Sweep

set_option maxRecDepth 8000 in
/-- An empty backend ends the sweep before it has read the table; and a table of one row more than a
page has its last row taken for an orphan, since the horizon is the larger of the two page ends. -/
theorem sweep_misjudges :
    (let B : Listing ℕ := ⟨[], .nil⟩
     let D : Listing ℕ := ⟨[7], List.pairwise_singleton _ _⟩
     ∃ fs, sweep .quiet batchSize (localBackend B).listBlobHashes D.hashes 2 none = some fs ∧
       7 ∈ D.hashes ∧ 7 ∉ B.hashes ∧ .blobMissingFromBackend 7 ∉ fs) ∧
    (let B : Listing ℕ := ⟨[500], List.pairwise_singleton _ _⟩
     let D : Listing ℕ := ⟨List.range 501, List.pairwise_lt_range⟩
     ∃ fs, sweep .quiet batchSize (localBackend B).listBlobHashes D.hashes 503 none = some fs ∧
       500 ∈ D.hashes ∧ .orphanBlob 500 ∈ fs) := by
  refine ⟨⟨[], by decide +kernel, by decide, by decide, by decide⟩, ?_⟩
  obtain ⟨fs, hfs, hmem⟩ := (Option.any_eq_true _ _).mp (show
    (sweep .quiet batchSize (localPage ⟨[500], List.pairwise_singleton _ _⟩ batchSize) (List.range 501)
      503 none).any (fun fs => decide (.orphanBlob 500 ∈ fs)) = true by decide +kernel)
  exact ⟨fs, hfs, List.mem_range.mpr (by decide), of_decide_eq_true hmem⟩

end OxiCloud.BackendConsistency
