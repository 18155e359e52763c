import OxiCloud.Lib.Pools
import OxiCloud.Effects
import OxiCloud.Footprint

/-! # Deletions and the writers they race

A hash that has a blob row has an object. Four kinds of programs meet at a hash without a row: an ingest
session that looked it up and is about to write and register it, a `store_loose_chunks` that does the
same, a drain that deletes the object, and whatever deletes a row and queues the deletion. What a
running program relies on is a *hold*: when it looked the hash up and found no row, that it has cancelled
the queued deletion, that it has written the object, that it has locked the queue row.

`Backed` is the invariant and `Calm` the condition on single statements under which every statement
keeps it. An ingest session cancels a queued deletion before it writes, and the grace window of the
collector covers it; `store_loose_chunks` does not cancel, and `remove_legacy_reference` and
`cleanup_if_orphaned` know no grace window. -/

namespace OxiCloud.Deletions

open Lib.Tables Lib.Programs Lib.Pools Schema OxiCloud.Machine BlobHandler FileRepository Requests Table
open Effects Footprint Multiset Prog

variable {H : Type}

/-! ### Holds -/

/-- What a running program relies on. The time is that of the lookup that found no row. -/
inductive Hold (H : Type) where
  | seen (h : H) (t : ℕ)
  | mine (h : H) (t : ℕ)
  | written (h : H) (t : ℕ)
  | loose (h : H)
  | lock (h : H)
  deriving DecidableEq

variable [DecidableEq H]

namespace Hold

/-- The session has cancelled the queued deletions of `hs`. -/
def claim (hs : List H) : Hold H → Hold H
  | seen h t => if h ∈ hs then mine h t else seen h t
  | x => x

/-- The session has written the object of `h`. -/
def write (h : H) : Hold H → Hold H
  | mine h' t => if h' = h then written h' t else mine h' t
  | x => x

/-- A writer relies on the object of `h` not being deleted. -/
def guards (h : H) : Hold H → Bool
  | mine h' _ | written h' _ | loose h' => h' = h
  | seen _ _ | lock _ => false

/-- When the session that relies on the object looked `h` up. -/
def since (h : H) : Hold H → Option ℕ
  | mine h' t | written h' t => if h' = h then some t else none
  | seen _ _ | loose _ | lock _ => none

end Hold

/-- The holds of a program after a statement. -/
def holds (H : Type) [DecidableEq H] : Ledger (sql H) (Store H) (Hold H) where
  next op s r c := match op, r with
    | .pinExisting hs, some pinned => c + ((hs.filter (· ∉ pinned)).map (.seen · s.now) : List (Hold H))
    | .cancelDeletions hs, some _ => c.map (.claim hs)
    | .putUnsynced .ingest h _, some _ => c.map (.write h)
    | .putReplace h _, some _ => c.map (.write h)
    | .putUnsynced .loose h _, some _ => .loose h ::ₘ c
    | .registerChunks _, some _ => 0
    | .registerOrphans _, some _ => 0
    | .claimDeletion h, some (some _) => .lock h ::ₘ c
    | .settleDeletion h, some _ => c.erase (.lock h)
    | .recordAttempt h _ _, some _ => c.erase (.lock h)
    | .rollbackDeletion h, some _ => c.erase (.lock h)
    | _, _ => c

/-! ### The invariant -/

/-- If there is a row of `h` without references, it was orphaned after `t`. -/
def Young (s : Store H) (h : H) (t : ℕ) : Prop :=
  t ≤ s.now ∧ ∀ b, s.blobs.get h = some b → b.refCount = 0 → ∃ o, b.orphanedAt = some o ∧ t ≤ o

/-- The hold is justified. -/
def Hold.Good (s : Store H) : Hold H → Prop
  | seen h t => Young s h t
  | mine h t => Young s h t ∧ s.pendingActions.get h = none
  | written h t => Young s h t ∧ s.pendingActions.get h = none ∧ (s.objects.get h).isSome
  | loose h => s.pendingActions.get h = none ∧ (s.objects.get h).isSome
  | lock h => (s.pendingActions.get h).any PendingAction.locked

/-- Every row has its object, no deletion is queued for a hash with a row, and the holds are good. -/
structure Backed (s : Store H) (a : Multiset (Hold H)) : Prop where
  rows : ∀ h, (s.blobs.get h).isSome → (s.objects.get h).isSome
  queue : ∀ h, (s.pendingActions.get h).isSome → s.blobs.get h = none
  good : ∀ x ∈ a, x.Good s
  locks : ∀ h, a.count (.lock h) ≤ 1

/-- The condition on one statement of a run: a loose chunk is written only if no deletion of it is
queued, a row is not deleted while a writer relies on its object, and a collection comes within its
grace window of the lookup of every session that does. -/
def Calm (op : Op H) (ch : Choice H) (s : Store H) (rest : Multiset (Hold H)) : Prop :=
  match op with
  | .putUnsynced .loose h _ => s.pendingActions.get h = none
  | .removeLegacy h => (s.removeLegacy h).1 = some true → ∀ x ∈ rest, x.guards h = false
  | .cleanupOrphaned h => (s.cleanupOrphaned h).1 = true → ∀ x ∈ rest, x.guards h = false
  | .reapBlobs grace => ∀ h ∈ ch.pick, ∀ x ∈ rest, x ≠ .loose h ∧
      (x.since h).all fun t => s.now ≤ t + grace
  | _ => True

instance (op : Op H) (ch : Choice H) (s : Store H) (rest : Multiset (Hold H)) :
    Decidable (Calm op ch s rest) := by
  unfold Calm
  split <;> infer_instance

/-- What the statements need of the program that issues them. -/
def Entitled (c : Multiset (Hold H)) : Op H → Prop
  | .removeLegacy _ | .cleanupOrphaned _ | .reapBlobs _ => c = 0
  | .registerChunks rows | .registerOrphans rows =>
    ∀ x ∈ rows, (∃ t, .written x.1 t ∈ c) ∨ .loose x.1 ∈ c
  | .deleteObject h | .settleDeletion h | .recordAttempt h _ _ | .rollbackDeletion h => .lock h ∈ c
  | .enqueueDeletion _ => False
  | _ => True

variable {s s' : Store H} {a c rest : Multiset (Hold H)}

variable {h : H}

omit [DecidableEq H] in
theorem Young.aged {t : ℕ} (hy : Young s h t) (hn : s.now ≤ s'.now) (hr : RowsAged s s') :
    Young s' h t := by
  refine ⟨hy.1.trans hn, fun b' hb' hz => ?_⟩
  obtain ⟨b, hb, ha⟩ := hr h b' hb'
  rcases ha hz with ⟨hz₀, ho⟩ | ho
  · rw [ho]
    exact hy.2 b hb hz₀
  · exact ⟨s.now, ho, hy.1⟩

theorem Hold.Good.of {x : Hold H} (hg : x.Good s) (hyoung : ∀ {h t}, Young s h t → Young s' h t)
    (hpend : ∀ h, x.guards h = true → s.pendingActions.get h = none → s'.pendingActions.get h = none)
    (hobj : ∀ h, s.pendingActions.get h = none → (s.objects.get h).isSome → (s'.objects.get h).isSome)
    (hlock : ∀ h, x = .lock h → (s.pendingActions.get h).any PendingAction.locked = true →
      (s'.pendingActions.get h).any PendingAction.locked = true) : x.Good s' := by
  cases x with
  | seen h t => exact hyoung hg
  | mine h t => exact ⟨hyoung hg.1, hpend h (by simp [guards]) hg.2⟩
  | written h t => exact ⟨hyoung hg.1, hpend h (by simp [guards]) hg.2.1, hobj h hg.2.1 hg.2.2⟩
  | loose h => exact ⟨hpend h (by simp [guards]) hg.1, hobj h hg.1 hg.2⟩
  | lock h => exact hlock h rfl hg

/-- Statements that leave the objects, the queue and the clock alone and create no row. -/
theorem Backed.frame (hb : Backed s a) (hs : SameBackend s s') (hr : RowsAged s s') : Backed s' a := by
  have hrow : ∀ h, (s'.blobs.get h).isSome → (s.blobs.get h).isSome := by
    intro h hh
    obtain ⟨b', hb'⟩ := Option.isSome_iff_exists.mp hh
    obtain ⟨b, hb, -⟩ := hr h b' hb'
    rw [hb]
    rfl
  refine ⟨fun h hh => ?_, fun h hh => ?_, fun x hx => ?_, hb.locks⟩
  · rw [hs.objects]
    exact hb.rows h (hrow h hh)
  · rw [hs.pendingActions] at hh
    by_contra hne
    have h1 := hrow h (Option.isSome_iff_ne_none.mpr hne)
    rw [hb.queue h hh] at h1
    cases h1
  · refine (hb.good x hx).of (fun hy => hy.aged hs.now.ge hr) (fun h _ hp => ?_) (fun h _ ho => ?_) fun h _ hl => ?_
    · rwa [hs.pendingActions]
    · rwa [hs.objects]
    · rwa [hs.pendingActions]

theorem Backed.drop {a' : Multiset (Hold H)} (hb : Backed s a) (h : a' ≤ a) : Backed s a' :=
  ⟨hb.rows, hb.queue, fun x hx => hb.good x (mem_of_le h hx),
    fun x => (count_le_of_le _ h).trans (hb.locks x)⟩

theorem Backed.gain {l : Multiset (Hold H)} (hb : Backed s a)
    (hl : ∀ x ∈ l, x.Good s ∧ ∀ h, x ≠ .lock h) : Backed s (l + a) := by
  refine ⟨hb.rows, hb.queue, fun x hx => ?_, fun h => ?_⟩
  · rcases mem_add.mp hx with hx | hx
    · exact (hl x hx).1
    · exact hb.good x hx
  · have hz : l.count (.lock h) = 0 := count_eq_zero.mpr fun hmem => (hl _ hmem).2 h rfl
    rw [count_add, hz, Nat.zero_add]
    exact hb.locks h

theorem Backed.fresh (folders : Finset FolderId) : Backed (Store.fresh folders : Store H) 0 := by
  refine ⟨fun _ h => ?_, fun _ _ => rfl, by simp, by simp⟩
  cases h

/-- No deletion of an object is queued while a writer relies on it. -/
theorem Backed.no_deletion (hb : Backed s a) {x : Hold H} (hx : x ∈ a) (hg : x.guards h = true) :
    s.pendingActions.get h = none := by
  have hgood := hb.good x hx
  cases x with
  | seen h' t => cases hg
  | mine h' t =>
    obtain rfl : h' = h := of_decide_eq_true hg
    exact hgood.2
  | written h' t =>
    obtain rfl : h' = h := of_decide_eq_true hg
    exact hgood.2.1
  | loose h' =>
    obtain rfl : h' = h := of_decide_eq_true hg
    exact hgood.1
  | lock h' => cases hg

/-! ### Lookups and writes -/

theorem Backed.pinExisting (hb : Backed s a) (hs : List H) : Backed (s.pinExisting hs).2
      (((hs.filter (· ∉ (s.pinExisting hs).1)).map (.seen · s.now) : List (Hold H)) + a) := by
  have he : exec (.pinExisting hs) Choice.ok s = some (some (s.pinExisting hs).1, (s.pinExisting hs).2) :=
    rfl
  have hframe := hb.frame (sameBackend_exec (show ¬ TouchesBackend (.pinExisting hs) from id) he)
    (rowsAged_exec (show ¬ Registers (.pinExisting hs) from id) he)
  refine hframe.gain fun x hx => ?_
  rw [mem_coe, List.mem_map] at hx
  obtain ⟨h, hh, rfl⟩ := hx
  refine ⟨⟨le_rfl, fun b hb => ?_⟩, fun _ => by simp⟩
  obtain ⟨hmem, hnot⟩ := List.mem_filter.mp hh
  have hnone : ¬ (s.blobs.get h).isSome := fun hsome =>
    of_decide_eq_true hnot (List.mem_filter.mpr ⟨hmem, hsome⟩)
  rw [Option.not_isSome_iff_eq_none] at hnone
  simp [Store.pinExisting, hnone] at hb

/-- Statements under which only objects appear. -/
theorem Backed.grow (hb : Backed s a) (hblobs : s'.blobs = s.blobs)
    (hpend : s'.pendingActions = s.pendingActions) (hnow : s.now ≤ s'.now)
    (hobj : ∀ h, (s.objects.get h).isSome → (s'.objects.get h).isSome) : Backed s' a := by
  refine ⟨fun h hh => ?_, fun h hh => ?_, fun x hx => ?_, hb.locks⟩
  · rw [hblobs] at hh
    exact hobj h (hb.rows h hh)
  · rw [hpend] at hh
    rw [hblobs]
    exact hb.queue h hh
  · refine (hb.good x hx).of (fun hy => hy.aged hnow (.of_eq hblobs)) (fun h _ hp => ?_) (fun h _ => hobj h)
      fun h _ hl => ?_
    · rwa [hpend]
    · rwa [hpend]

theorem count_lock_map {f : Hold H → Hold H} (hf : ∀ x, f x = .lock h ↔ x = .lock h)
    (c : Multiset (Hold H)) : (c.map f).count (.lock h) = c.count (.lock h) := by
  induction c using Multiset.induction with
  | empty => rfl
  | cons x c ih =>
    rw [map_cons, count_cons, count_cons, ih]
    by_cases hx : x = .lock h
    · rw [if_pos ((hf x).mpr hx).symm, if_pos hx.symm]
    · rw [if_neg fun h' => hx ((hf x).mp h'.symm), if_neg fun h' => hx h'.symm]

theorem Backed.map {f : Hold H → Hold H} (hb : Backed s (c + rest))
    (hf : ∀ x h, f x = .lock h ↔ x = .lock h) (hg : ∀ x, x.Good s → (f x).Good s) :
    Backed s (c.map f + rest) := by
  refine ⟨hb.rows, hb.queue, fun x hx => ?_, fun h => ?_⟩
  · rcases mem_add.mp hx with hx | hx
    · obtain ⟨y, hy, rfl⟩ := mem_map.mp hx
      exact hg y (hb.good y (mem_add.mpr (.inl hy)))
    · exact hb.good x (mem_add.mpr (.inr hx))
  · have h1 := hb.locks h
    rw [count_add] at h1 ⊢
    rwa [count_lock_map fun x => hf x h]

theorem Backed.write (hb : Backed s (c + rest)) (hblobs : s'.blobs = s.blobs)
    (hpend : s'.pendingActions = s.pendingActions) (hnow : s'.now = s.now)
    (hobj : ∀ h, (s.objects.get h).isSome → (s'.objects.get h).isSome)
    (ho : (s'.objects.get h).isSome) : Backed s' (c.map (.write h) + rest) := by
  refine (hb.grow hblobs hpend hnow.ge hobj).map (fun x y => ?_) fun x hx => ?_
  · cases x with
    | mine h' t => by_cases hh : h' = h <;> simp [Hold.write, hh]
    | _ => simp [Hold.write]
  · cases x with
    | mine h' t =>
      by_cases hh : h' = h
      · subst hh
        simpa [Hold.write, Hold.Good] using ⟨hx.1, hx.2, ho⟩
      · simpa [Hold.write, hh] using hx
    | _ => exact hx

/-! ### The deletion queue -/

/-- The queued deletions of `hs` are cancelled, none of them being locked. -/
theorem Backed.cancelDeletions {hs : List H} (hb : Backed s (c + rest))
    (hfree : ¬ ∃ h ∈ hs, (s.pendingActions.get h).any PendingAction.locked = true) :
    Backed (s.cancelDeletions hs).2 (c.map (.claim hs) + rest) := by
  have hget : ∀ h, (s.cancelDeletions hs).2.pendingActions.get h =
      if h ∈ hs then none else s.pendingActions.get h := by
    intro h
    simp only [Store.cancelDeletions, get_filter]
    cases hp : s.pendingActions.get h <;> by_cases hh : h ∈ hs <;> simp [hh]
  have hcancel : Backed (s.cancelDeletions hs).2 (c + rest) := by
    refine ⟨hb.rows, fun h hh => ?_, fun x hx => ?_, hb.locks⟩
    · rw [hget] at hh
      split_ifs at hh
      · cases hh
      · exact hb.queue h hh
    · refine (hb.good x hx).of id (fun h _ hp => ?_) (fun h _ ho => ho) fun h _ hl => ?_
      · rw [hget, hp, ite_self]
      · rwa [hget, if_neg fun hh => hfree ⟨h, hh, hl⟩]
  refine hcancel.map (fun x y => ?_) fun x hx => ?_
  · cases x with
    | seen h t => by_cases hh : h ∈ hs <;> simp [Hold.claim, hh]
    | _ => simp [Hold.claim]
  · cases x with
    | seen h t =>
      by_cases hh : h ∈ hs
      · have hm : (Hold.mine h t).Good (s.cancelDeletions hs).2 := ⟨hx, by rw [hget, if_pos hh]⟩
        simpa [Hold.claim, hh] using hm
      · simpa [Hold.claim, hh] using hx
    | _ => exact hx

theorem Backed.claimDeletion {n : ℕ} (hb : Backed s a) (hc : (s.claimDeletion h).1 = some n) :
    Backed (s.claimDeletion h).2 (.lock h ::ₘ a) := by
  unfold Store.claimDeletion at hc ⊢
  cases hp : s.pendingActions.get h with
  | none => simp [hp] at hc
  | some p =>
    cases hl : p.locked with
    | true => simp [hp, hl] at hc
    | false =>
      simp only [hl, Bool.false_eq_true, if_false]
      have hz : a.count (.lock h) = 0 := by
        refine count_eq_zero.mpr fun hmem => ?_
        have hg : (s.pendingActions.get h).any PendingAction.locked = true := hb.good _ hmem
        simp [hp, hl] at hg
      refine ⟨hb.rows, fun x hx => ?_, fun x hx => ?_, fun x => ?_⟩
      · simp only [get_set] at hx
        split_ifs at hx with hxh
        · subst hxh
          exact hb.queue x (by rw [hp]; rfl)
        · exact hb.queue x hx
      · rcases mem_cons.mp hx with rfl | hx
        · simp [Hold.Good]
        · refine (hb.good x hx).of id (fun y _ hy => ?_) (fun y _ ho => ho) fun y _ hy => ?_
          · rw [get_set, if_neg, hy]
            rintro rfl
            rw [hp] at hy
            cases hy
          · rw [get_set]
            split_ifs
            · rfl
            · exact hy
      · rw [count_cons]
        split_ifs with hx
        · cases hx
          omega
        · exact hb.locks x

/-- A drain that holds the lock ends its transaction: only the queue row of `h` changes, and not to a
locked one. -/
theorem Backed.unlock (hb : Backed s (c + rest)) (hmem : .lock h ∈ c)
    (hblobs : s'.blobs = s.blobs) (hobj : s'.objects = s.objects) (hnow : s'.now = s.now)
    (hpend : ∀ x, x ≠ h → s'.pendingActions.get x = s.pendingActions.get x) :
    Backed s' (c.erase (.lock h) + rest) := by
  have hsome : (s.pendingActions.get h).isSome := Option.isSome_of_any (hb.good _ (mem_add.mpr (.inl hmem)))
  have hlock1 : (c.erase (.lock h) + rest).count (.lock h) = 0 := by
    have h1 := hb.locks h
    have h2 := count_pos.mpr hmem
    rw [count_add] at h1 ⊢
    rw [count_erase_self]
    omega
  have hle : c.erase (.lock h) + rest ≤ c + rest := by gcongr; exact erase_le _ _
  refine ⟨fun x hx => ?_, fun x hx => ?_, fun x hx => ?_,
    fun x => (count_le_of_le _ hle).trans (hb.locks x)⟩
  · rw [hblobs] at hx
    rw [hobj]
    exact hb.rows x hx
  · rw [hblobs]
    by_cases hxh : x = h
    · rw [hxh]
      exact hb.queue h hsome
    · rw [hpend x hxh] at hx
      exact hb.queue x hx
  · refine (hb.good x (mem_of_le hle hx)).of (fun hy => hy.aged hnow.ge (.of_eq hblobs)) (fun y _ hy => ?_)
      (fun y _ ho => ?_) fun y hxy hl => ?_
    · rw [hpend y, hy]
      rintro rfl
      rw [hy] at hsome
      cases hsome
    · rwa [hobj]
    · subst hxy
      rwa [hpend y]
      rintro rfl
      exact absurd (count_pos.mpr hx) (by omega)

/-- A drain that holds the lock deletes the object: nobody relies on it. -/
theorem Backed.deleteObject (hb : Backed s a) (hmem : .lock h ∈ a) :
    Backed (s.deleteObject h) a := by
  have hsome : (s.pendingActions.get h).isSome := Option.isSome_of_any (hb.good _ hmem)
  have hother : ∀ x, s.pendingActions.get x = none → (s.objects.get x).isSome →
      ((s.deleteObject h).objects.get x).isSome := by
    intro x hx ho
    rw [Store.deleteObject, get_erase, if_neg]
    · exact ho
    · rintro rfl
      rw [hx] at hsome
      cases hsome
  refine ⟨fun x hx => ?_, hb.queue, fun x hx => ?_, hb.locks⟩
  · have hxh : x ≠ h := by
      rintro rfl
      have hx' : (s.blobs.get x).isSome := hx
      rw [hb.queue x hsome] at hx'
      cases hx'
    rw [Store.deleteObject, get_erase, if_neg hxh]
    exact hb.rows x hx
  · exact (hb.good x hx).of id (fun _ _ hp => hp) hother fun _ _ hl => hl

theorem get_enqueueDeletions (s : Store H) (l : List H) (h : H) :
    (s.enqueueDeletions l).pendingActions.get h =
      if h ∈ l then some ((s.pendingActions.get h).getD ⟨0, false, false⟩)
      else s.pendingActions.get h := by
  have hlookup : (l.map fun h => (h, ())).lookup h = if h ∈ l then some () else none := by
    induction l with
    | nil => rfl
    | cons x l ih =>
      rw [List.map_cons, List.lookup_cons, ih]
      by_cases hx : h = x
      · simp [hx]
      · rw [beq_false_of_ne hx]
        simp [hx]
  simp only [Store.enqueueDeletions, get_upsert, hlookup]
  split_ifs
  · cases s.pendingActions.get h <;> rfl
  · rfl

/-- Deletions of hashes without a row are queued, nobody relying on their objects. -/
theorem Backed.enqueueDeletions {l : List H} (hb : Backed s a)
    (hgone : ∀ h ∈ l, s.blobs.get h = none) (hfree : ∀ h ∈ l, ∀ x ∈ a, x.guards h = false) :
    Backed (s.enqueueDeletions l) a := by
  refine ⟨hb.rows, fun h hh => ?_, fun x hx => ?_, hb.locks⟩
  · rw [get_enqueueDeletions] at hh
    split_ifs at hh with hmem
    · exact hgone h hmem
    · exact hb.queue h hh
  · refine (hb.good x hx).of id (fun h hg hp => ?_) (fun h _ ho => ho) fun h _ hl => ?_
    · rw [get_enqueueDeletions, if_neg, hp]
      intro hh
      rw [hfree h hh x hx] at hg
      cases hg
    · rw [get_enqueueDeletions]
      rcases hp : s.pendingActions.get h with _ | p
      · rw [hp] at hl
        cases hl
      · rw [hp] at hl
        split_ifs <;> exact hl

/-- Rows are deleted and the deletion of their objects is queued, nobody relying on them. -/
theorem Backed.reclaim {blobs : Table H BlobRow} {l : List H} (hb : Backed s a)
    (hrows : RowsAged s { s with blobs := blobs }) (hgone : ∀ h ∈ l, blobs.get h = none)
    (hfree : ∀ h ∈ l, ∀ x ∈ a, x.guards h = false) :
    Backed ({ s with blobs := blobs }.enqueueDeletions l) a := by
  have hframe : Backed { s with blobs := blobs } a := hb.frame ⟨rfl, rfl, rfl⟩ hrows
  exact hframe.enqueueDeletions hgone hfree

theorem Backed.reclaimOne (hb : Backed s a) (hfree : ∀ x ∈ a, x.guards h = false) :
    Backed ({ s with blobs := s.blobs.erase h }.enqueueDeletions [h]) a := by
  refine hb.reclaim (rowsAged_erase rfl) (fun x hx => ?_) fun x hx => ?_
  · rw [List.mem_singleton.mp hx]
    simp
  · rwa [List.mem_singleton.mp hx]

/-! ### Registrations -/

/-- Rows are created or updated for hashes whose object the program has written. -/
theorem Backed.register {rows : List (H × ℕ)} {ins : ℕ → BlobRow} {upd : BlobRow → BlobRow}
    (hb : Backed s (c + rest)) (hins : ∀ n, (ins n).refCount = 0 → (ins n).orphanedAt = some s.now)
    (hupd : ∀ b, Aged s.now b (upd b))
    (hc : ∀ x ∈ rows, (∃ t, .written x.1 t ∈ c) ∨ .loose x.1 ∈ c) :
    Backed { s with blobs := s.blobs.upsert rows ins upd } (0 + rest) := by
  have hheld : ∀ h, h ∈ rows.map Prod.fst →
      s.pendingActions.get h = none ∧ (s.objects.get h).isSome := by
    intro h hh
    obtain ⟨x, hx, rfl⟩ := List.mem_map.mp hh
    rcases hc x hx with ⟨t, ht⟩ | hl
    · exact (hb.good _ (mem_add.mpr (.inl ht))).2
    · exact hb.good _ (mem_add.mpr (.inl hl))
  have hget : ∀ h, (s.blobs.upsert rows ins upd).get h = s.blobs.get h ∨ h ∈ rows.map Prod.fst := by
    intro h
    rw [get_upsert]
    cases hl : rows.lookup h with
    | none => exact .inl rfl
    | some n =>
      right
      by_contra hne
      rw [(lookup_eq_none).mpr hne] at hl
      cases hl
  rw [zero_add]
  refine ⟨fun h hh => ?_, fun h hh => ?_, fun x hx => ?_, fun h => ?_⟩
  · rcases hget h with he | he
    · have hh' : ((s.blobs.upsert rows ins upd).get h).isSome := hh
      rw [he] at hh'
      exact hb.rows h hh'
    · exact (hheld h he).2
  · rcases hget h with he | he
    · exact he.trans (hb.queue h hh)
    · rw [(hheld h he).1] at hh
      cases hh
  · have hg := hb.good x (mem_add.mpr (.inr hx))
    have hyoung : ∀ {h t}, Young s h t →
        Young { s with blobs := s.blobs.upsert rows ins upd } h t := by
      intro h t hy
      refine ⟨hy.1, fun b' hb' hz => ?_⟩
      rw [get_upsert] at hb'
      cases hl : rows.lookup h with
      | none => rw [hl] at hb'; exact hy.2 b' hb' hz
      | some n =>
        rw [hl] at hb'
        cases hrow : s.blobs.get h with
        | none =>
          simp only [hrow, Option.elim, Option.some.injEq] at hb'
          subst hb'
          exact ⟨s.now, hins n hz, hy.1⟩
        | some b =>
          simp only [hrow, Option.elim, Option.some.injEq] at hb'
          subst hb'
          rcases hupd b hz with ⟨hz₀, ho⟩ | ho
          · rw [ho]
            exact hy.2 b hrow hz₀
          · exact ⟨s.now, ho, hy.1⟩
    exact hg.of hyoung (fun _ _ hp => hp) (fun _ _ ho => ho) fun _ _ hl => hl
  · have h1 := hb.locks h
    rw [count_add] at h1
    omega

/-! ### All statements -/

/-- Within the grace window of every lookup, a collection reaps no hash a writer relies on. -/
theorem guards_of_reapable {grace : ℕ} (hb : Backed s rest) (hr : s.Reapable grace h)
    (hc : ∀ x ∈ rest, x ≠ .loose h ∧ ((x.since h).all fun t => s.now ≤ t + grace) = true) :
    ∀ x ∈ rest, x.guards h = false := by
  obtain ⟨b, hrow, hz, ho, -, -⟩ := hr
  have hyoung : ∀ {t}, Young s h t → s.now ≤ t + grace → False := by
    intro t hy hle
    obtain ⟨o, hoo, hto⟩ := hy.2 b hrow hz
    have := ho o hoo
    omega
  intro x hx
  obtain ⟨hne, hall⟩ := hc x hx
  have hg := hb.good x hx
  by_contra hguard
  rw [Bool.not_eq_false] at hguard
  cases x with
  | seen h' t => cases hguard
  | mine h' t | written h' t =>
    obtain rfl : h' = h := of_decide_eq_true hguard
    simp only [Hold.since, if_true, Option.all_some, decide_eq_true_eq] at hall
    exact hyoung hg.1 hall
  | loose h' =>
    obtain rfl : h' = h := of_decide_eq_true hguard
    exact hne rfl
  | lock h' => cases hguard

/-- **Every calm statement keeps the invariant**, if its program holds what it relies on. -/
theorem Backed.exec {op : Op H} {ch : Choice H} {r : op.Resp} (hb : Backed s (c + rest))
    (ha : Calm op ch s rest) (he : Machine.exec op ch s = some (r, s')) (hop : Entitled c op) :
    Backed s' ((holds H).next op s r c + rest) := by
  by_cases ht : TouchesBackend op
  swap
  · by_cases hreg : Registers op
    · cases op with
      | registerChunks rows =>
        exact answer_elim he hb (hb.register (fun n hn => by cases hn) (fun b => .of_pos (by simp [BlobRow.pin])) hop)
      | registerOrphans rows =>
        exact answer_elim he hb (hb.register (fun n _ => rfl) (fun b => .refl _ b) hop)
      | _ => exact absurd hreg id
    · have hframe := hb.frame (sameBackend_exec ht he) (rowsAged_exec hreg he)
      cases op with
      | pinExisting hs =>
        refine answer_elim he hb ?_
        show Backed _ (c + _ + rest)
        rw [add_comm c, add_assoc]
        exact hb.pinExisting hs
      | registerChunks rows => exact absurd trivial hreg
      | registerOrphans rows => exact absurd trivial hreg
      | _ => first | exact hframe | exact absurd trivial ht
  cases op with
  | tick n =>
    cases he
    exact hb.grow rfl rfl (Nat.le_add_right _ _) fun _ h => h
  | putUnsynced w h data =>
    have hput : ((s.putUnsynced h data).objects.get h).isSome := by
      unfold Store.putUnsynced
      cases ho : s.objects.get h with
      | some d => simp [ho]
      | none => simp
    have hobj : ∀ x, (s.objects.get x).isSome → ((s.putUnsynced h data).objects.get x).isSome := by
      intro x hx
      unfold Store.putUnsynced
      cases ho : s.objects.get h with
      | some d => exact hx
      | none =>
        simp only [get_set]
        split_ifs
        · rfl
        · exact hx
    have hsame : (s.putUnsynced h data).blobs = s.blobs ∧
        (s.putUnsynced h data).pendingActions = s.pendingActions ∧
        (s.putUnsynced h data).now = s.now := by
      unfold Store.putUnsynced
      cases s.objects.get h <;> exact ⟨rfl, rfl, rfl⟩
    simp only [Machine.exec, backendAnswer] at he
    split_ifs at he
    · cases he
      cases w <;> exact hb.grow hsame.1 hsame.2.1 hsame.2.2.ge hobj
    · cases he
      cases w <;> exact hb
    · cases he
      cases w with
      | ingest => exact hb.write hsame.1 hsame.2.1 hsame.2.2 hobj hput
      | loose =>
        have hg := (hb.grow hsame.1 hsame.2.1 hsame.2.2.ge hobj).gain (l := {.loose h})
          fun x hx => by
            rw [mem_singleton.mp hx]
            refine ⟨⟨?_, hput⟩, fun _ => by simp⟩
            rw [hsame.2.1]
            exact ha
        rwa [singleton_add, ← cons_add] at hg
  | putReplace h data =>
    have hput : ((s.putReplace h data).objects.get h).isSome := by simp [Store.putReplace]
    have hobj : ∀ x, (s.objects.get x).isSome → ((s.putReplace h data).objects.get x).isSome := by
      intro x hx
      simp only [Store.putReplace, get_set]
      split_ifs
      · rfl
      · exact hx
    simp only [Machine.exec, backendAnswer] at he
    split_ifs at he
    · cases he
      exact hb.grow rfl rfl le_rfl hobj
    · cases he
      exact hb
    · cases he
      exact hb.write rfl rfl rfl hobj hput
  | deleteObject h =>
    have hmem : .lock h ∈ c + rest := mem_add.mpr (.inl hop)
    rcases backendAnswer_cases he with rfl | rfl
    · exact hb
    · exact hb.deleteObject hmem
  | enqueueDeletion h => exact absurd hop id
  | cancelDeletions hs =>
    simp only [Machine.exec] at he
    split_ifs at he with hfree
    exact answer_elim he hb (hb.cancelDeletions hfree)
  | claimDeletion h =>
    refine answer_elim he hb ?_
    cases hc : (s.claimDeletion h).1 with
    | some n =>
      have hl := hb.claimDeletion hc
      rwa [← cons_add] at hl
    | none =>
      have hs : (s.claimDeletion h).2 = s := by
        unfold Store.claimDeletion at hc ⊢
        cases hp : s.pendingActions.get h with
        | none => rfl
        | some p =>
          rw [hp] at hc
          dsimp only at hc ⊢
          split_ifs at hc ⊢
          rfl
      rw [hs]
      exact hb
  | settleDeletion h =>
    exact answer_elim he hb (hb.unlock hop rfl rfl rfl fun x hx => by simp [Store.settleDeletion, get_erase, hx])
  | recordAttempt h n park =>
    exact answer_elim he hb (hb.unlock hop rfl rfl rfl fun x hx => by simp [Store.releaseDeletion, hx])
  | rollbackDeletion h =>
    cases he
    exact hb.unlock hop rfl rfl rfl fun x hx => by simp [Store.releaseDeletion, hx]
  | removeLegacy h =>
    obtain rfl : c = 0 := hop
    refine answer_elim he hb ?_
    rw [zero_add] at hb
    show Backed _ (0 + rest)
    rw [zero_add]
    have ha' : (s.removeLegacy h).1 = some true → ∀ x ∈ rest, x.guards h = false := ha
    unfold Store.removeLegacy at ha' ⊢
    cases hrow : s.blobs.get h with
    | none => exact hb
    | some b =>
      simp only [hrow] at ha' ⊢
      split_ifs with hz
      · rw [if_pos hz] at ha'
        exact hb.reclaimOne (ha' rfl)
      · exact hb.frame ⟨rfl, rfl, rfl⟩ (rowsAged_set rfl hrow (.of_pos hz))
  | cleanupOrphaned h =>
    obtain rfl : c = 0 := hop
    refine answer_elim he hb ?_
    rw [zero_add] at hb
    show Backed _ (0 + rest)
    rw [zero_add]
    have ha' : (s.cleanupOrphaned h).1 = true → ∀ x ∈ rest, x.guards h = false := ha
    unfold Store.cleanupOrphaned at ha' ⊢
    cases hrow : s.blobs.get h with
    | none => exact hb
    | some b =>
      simp only [hrow] at ha' ⊢
      split_ifs with hz
      · rw [if_pos hz] at ha'
        exact hb.reclaimOne (ha' rfl)
      · exact hb
  | reapBlobs grace =>
    obtain rfl : c = 0 := hop
    simp only [Machine.exec] at he
    split_ifs at he with hbatch
    refine answer_elim he hb ?_
    rw [zero_add] at hb
    show Backed _ (0 + rest)
    rw [zero_add]
    have hrows : RowsAged s { s with blobs := s.blobs.filter fun h _ => h ∉ ch.pick } := by
      intro x b' hb'
      simp only [get_filter, Option.filter_eq_some_iff] at hb'
      exact ⟨b', hb'.1, .refl _ b'⟩
    refine hb.reclaim hrows (fun x hx => ?_) fun x hx => ?_
    · cases s.blobs.get x <;> simp [hx]
    · exact guards_of_reapable hb (hbatch.2.1 x hx).2 (ha x hx)
  | _ => exact absurd ht id

end OxiCloud.Deletions
