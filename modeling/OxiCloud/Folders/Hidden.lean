import OxiCloud.Folders.Upkeep

/-! # Nothing live below a trashed folder

`Hidden t` says that no live file or folder lies below a trashed folder. It is the same to ask it of the
folder each item is in (`hidden_iff`), and in this form it can be followed through the statements: a
statement that changes a row keeps a sound and hidden database hidden exactly if it is `Careful`
(`covered_effect_iff`).
Careful means that nothing is created in, copied into or moved to a trashed folder, and that a folder is
restored from the listing and only if no unmarked item below it is in a marked folder. -/

namespace OxiCloud.Folders.Tree

open Lib.Tables Lib.Forests Schema Option

/-- No live file or folder lies below a trashed folder. -/
structure Hidden (t : Tree) : Prop where
  folders : ∀ f r g, t.folders.get f = some r → r.isTrashed = false → Climbs t.par f g →
    t.folderTrashed g = false
  files : ∀ x r p g, t.files.get x = some r → r.isTrashed = false → r.folderId = some p →
    Climbs t.par p g → t.folderTrashed g = false

/-- No live file or folder is in a trashed folder. -/
structure Covered (t : Tree) : Prop where
  folders : ∀ f r p, t.folders.get f = some r → r.isTrashed = false → r.parentId = some p →
    t.folderTrashed p = false
  files : ∀ x r p, t.files.get x = some r → r.isTrashed = false → r.folderId = some p →
    t.folderTrashed p = false

variable {t t' : Tree} {id f : FolderId} {x : FileId} {r old new : Folder} {n : ℕ}

theorem folderTrashed_of_get (h : t.folders.get f = some r) : t.folderTrashed f = r.isTrashed := by
  rw [folderTrashed, h, any_some]

theorem folderTrashed_of_none (h : t.folders.get f = none) : t.folderTrashed f = false := by
  rw [folderTrashed, h, any_none]

theorem Covered.climbs (h : t.Covered) {f g : FolderId} (hc : Climbs t.par f g)
    (hf : t.folderTrashed f = false) : t.folderTrashed g = false := by
  induction hc using Relation.ReflTransGen.head_induction_on with
  | refl => exact hf
  | @head a b hup _ ih =>
    have hab : t.par a = some b := hup
    cases hr : t.folders.get a with
    | none => rw [par, hr] at hab; cases hab
    | some r =>
      rw [par_of_get hr] at hab
      rw [folderTrashed_of_get hr] at hf
      exact ih (h.folders a r b hr hf hab)

theorem hidden_iff : t.Hidden ↔ t.Covered := by
  constructor
  · intro h
    refine ⟨fun f r p hr hl hp => ?_, fun x r p hx hl hp => ?_⟩
    · exact h.folders f r p hr hl (Climbs.up ((par_of_get hr).trans hp) .refl)
    · exact h.files x r p p hx hl hp .refl
  · intro h
    refine ⟨fun f r g hr hl hc => ?_, fun x r p g hx hl hp hc => ?_⟩
    · exact h.climbs hc ((folderTrashed_of_get hr).trans hl)
    · exact h.climbs hc (h.files x r p hx hl hp)

instance (t : Tree) : Decidable t.Covered :=
  decidable_of_iff
    ((t.folders.Forall fun _ r => r.isTrashed = false → ∀ p ∈ r.parentId, t.folderTrashed p = false) ∧
      t.files.Forall fun _ r => r.isTrashed = false → ∀ p ∈ r.folderId, t.folderTrashed p = false)
    ⟨fun h => ⟨fun f r p hr hl hp => h.1 f r hr hl p hp, fun x r p hx hl hp => h.2 x r hx hl p hp⟩,
      fun h => ⟨fun f r hr hl p hp => h.folders f r p hr hl hp, fun x r hx hl p hp => h.files x r p hx hl hp⟩⟩

instance (t : Tree) : Decidable t.Hidden := decidable_of_iff _ hidden_iff.symm

theorem covered_empty : empty.Covered :=
  ⟨fun _ _ _ h => absurd h (by simp [empty]), fun _ _ _ h => absurd h (by simp [empty])⟩

/-! ### Changes of rows -/

theorem Covered.subset (h : t.Covered)
    (hf : ∀ f r, t'.folders.get f = some r → t.folders.get f = some r)
    (hx : ∀ x r, t'.files.get x = some r → t.files.get x = some r) : t'.Covered := by
  have htr : ∀ p, t.folderTrashed p = false → t'.folderTrashed p = false := by
    intro p hp
    cases hq : t'.folders.get p with
    | none => exact folderTrashed_of_none hq
    | some q => rw [folderTrashed_of_get hq, ← folderTrashed_of_get (hf p q hq), hp]
  exact ⟨fun f r p hr hl hp => htr p (h.folders f r p (hf f r hr) hl hp),
    fun x r p hr hl hp => htr p (h.files x r p (hx x r hr) hl hp)⟩

theorem covered_setFile_iff {r : File} (h : t.Covered) :
    Covered { t with files := t.files.set x r } ↔
      (r.isTrashed = false → ∀ p, r.folderId = some p → t.folderTrashed p = false) := by
  constructor
  · intro h' hl p hp
    exact h'.files x r p (Table.get_set_self ..) hl hp
  · intro hr
    refine ⟨h.folders, fun y r' p hy hl hp => ?_⟩
    rcases Table.get_set_cases hy with ⟨-, rfl⟩ | ⟨-, hy⟩
    · exact hr hl p hp
    · exact h.files y r' p hy hl hp

theorem covered_addFolder_iff (h : t.Covered) {name : Text} {parent : Option FolderId} {d : DriveId}
    (hid : t.folders.get id = none) (hadd : t.addFolder id name parent d = some t') :
    t'.Covered ↔ ∀ p, parent = some p → t.folderTrashed p = false := by
  obtain ⟨new, hnew, rfl⟩ := map_eq_some_iff.mp hadd
  have hrow : new.isTrashed = false ∧ new.parentId = parent :=
    ⟨(computeFolderPath_row hnew).isTrashed, (computeFolderPath_row hnew).parentId⟩
  have htr : ∀ p, folderTrashed { t with folders := t.folders.set id new } p = t.folderTrashed p := by
    intro p
    by_cases hp : p = id
    · subst hp
      rw [folderTrashed_of_none hid, folderTrashed_of_get (Table.get_set_self ..), hrow.1]
    · exact congrArg (Option.any _) (Table.get_set_ne _ _ hp)
  constructor
  · intro h' p hp
    rw [← htr]
    exact h'.folders id new p (Table.get_set_self ..) hrow.1 (hrow.2.trans hp)
  · intro hp
    refine ⟨fun f r p hr hl hpar => ?_, fun y r p hy hl hpar => ?_⟩
    · rw [htr]
      rcases Table.get_set_cases hr with ⟨-, rfl⟩ | ⟨-, hr⟩
      · exact hp p (hrow.2.symm.trans hpar)
      · exact h.folders f r p hr hl hpar
    · rw [htr]
      exact h.files y r p hy hl hpar

theorem moved_folderTrashed (hold : t.folders.get id = some old) (hn : new.isTrashed = old.isTrashed)
    (p : FolderId) : (t.moved id old new).folderTrashed p = t.folderTrashed p := by
  cases hq : t.folders.get p with
  | none => simp [folderTrashed, moved, hq]
  | some q =>
    rw [folderTrashed_of_get hq]
    by_cases hp : p = id
    · subst hp
      obtain rfl : old = q := mem_unique hold hq
      rw [folderTrashed_of_get (moved_self new hold), hn]
    · by_cases hc : old.lpath <+: q.lpath
      · rw [folderTrashed_of_get (moved_below hq hp hc new)]
        rfl
      · rw [folderTrashed_of_get (moved_other hq hp hc new)]

theorem covered_moved_iff (h : t.Covered) (hold : t.folders.get id = some old)
    (ho : old.isTrashed = false) (hn : new.isTrashed = false) :
    (t.moved id old new).Covered ↔ ∀ p, new.parentId = some p → t.folderTrashed p = false := by
  have htr := moved_folderTrashed hold (hn.trans ho.symm)
  constructor
  · intro h' p hp
    rw [← htr]
    exact h'.folders id new p (moved_self new hold) hn hp
  · intro hp
    refine ⟨fun f r' p hr' hl hpar => ?_, fun y r' p hy hl hpar => ?_⟩
    · rw [htr]
      obtain ⟨r, hr, ⟨rfl, rfl⟩ | ⟨-, -, rfl⟩ | ⟨-, -, rfl⟩⟩ := moved_cases hr'
      · exact hp p hpar
      · exact h.folders f r p hr hl hpar
      · exact h.folders f r' p hr hl hpar
    · rw [htr]
      obtain ⟨r, hr, rfl⟩ := Table.get_modify_cases hy
      split_ifs at hl hpar
      · exact h.files y r p hr hl hpar
      · exact h.files y r p hr hl hpar

/-! ### Trashing -/

section Subtree
variable (hp : t.Placed) (hold : t.folders.get id = some old)

include hp hold

theorem isPrefix_of_parent {p : FolderId} {q : Folder} (hr : t.folders.get f = some r)
    (hpar : r.parentId = some p) (hq : t.folders.get p = some q) (hl : old.lpath <+: q.lpath) :
    old.lpath <+: r.lpath := by
  have hpf : t.par f = some p := (par_of_get hr).trans hpar
  exact (hp.isPrefix_iff hold hr).mpr (Climbs.up hpf ((hp.isPrefix_iff hold hq).mp hl))

/-- What is in the subtree, except for its root, is in a folder of the subtree. -/
theorem parent_of_isPrefix (hr : t.folders.get f = some r) (hne : f ≠ id) (hl : old.lpath <+: r.lpath) :
    ∃ p q, r.parentId = some p ∧ t.folders.get p = some q ∧ old.lpath <+: q.lpath := by
  rcases climbs_cases ((hp.isPrefix_iff hold hr).mp hl) with h | ⟨p, hfp, hpi⟩
  · exact absurd h hne
  · rw [par_of_get hr] at hfp
    obtain ⟨q, hq, -⟩ := (hp.folders f r hr).below p hfp
    exact ⟨p, q, hfp, hq, (hp.isPrefix_iff hold hq).mpr hpi⟩

omit hp in
theorem trashSubtree_folderTrashed (p : FolderId) :
    (t.trashSubtree id old.lpath).folderTrashed p = true ↔
      t.folderTrashed p = true ∨ t.under old.lpath p = true := by
  cases hq : t.folders.get p with
  | none => simp [folderTrashed, trashSubtree, under, hq]
  | some q =>
    rw [folderTrashed_of_get hq, under_of_get hq]
    by_cases hpid : p = id
    · subst hpid
      obtain rfl : old = q := mem_unique hold hq
      simp [folderTrashed, trashSubtree, hq, Folder.trash]
    · by_cases hl : old.lpath <+: q.lpath
      · cases hqt : q.isTrashed <;> simp [folderTrashed, trashSubtree, hq, hpid, hl, hqt, Folder.trash]
      · simp [folderTrashed, trashSubtree, hq, hpid, hl]

/-- **Trashing a subtree hides it as a whole.** -/
theorem Covered.trashSubtree (h : t.Covered) : (t.trashSubtree id old.lpath).Covered where
  folders := by
    intro f r' p hr' hl hpar
    obtain ⟨r, hr, rfl⟩ := Table.get_modify_cases hr'
    rw [← Bool.not_eq_true, trashSubtree_folderTrashed hold]
    split_ifs at hl hpar with hf hc
    · cases hl
    · cases hl
    · -- the row is live as before, so it is not in the subtree
      have hnl : ¬ old.lpath <+: r.lpath := fun h' => hc ⟨h', hl⟩
      rintro (htr | hu)
      · rw [h.folders f r p hr hl hpar] at htr
        cases htr
      · obtain ⟨q, hq, -⟩ := (hp.folders f r hr).below p hpar
        exact hnl (isPrefix_of_parent hp hold hr hpar hq ((under_of_get hq _).mp hu))
  files := by
    intro x r' p hx hl hpar
    obtain ⟨r, hr, rfl⟩ := Table.get_modify_cases hx
    rw [← Bool.not_eq_true, trashSubtree_folderTrashed hold]
    split_ifs at hl hpar with hc
    · cases hl
    · rintro (htr | hu)
      · rw [h.files x r p hr hl hpar] at htr
        cases htr
      · exact hc ⟨by rw [hpar, any_some, hu], hl⟩

end Subtree

/-! ### Restoring -/

/-- No unmarked item of the trash is in a marked folder strictly below `id`. -/
structure Untangled (t : Tree) (id : FolderId) : Prop where
  folders : ∀ f r p q, t.folders.get f = some r → r.isTrashed = true → r.originalParentId = none →
    r.parentId = some p → t.folders.get p = some q → p ≠ id → Climbs t.par p id →
    q.originalParentId = none
  files : ∀ x r p q, t.files.get x = some r → r.isTrashed = true → r.originalFolderId = none →
    r.folderId = some p → t.folders.get p = some q → p ≠ id → Climbs t.par p id →
    q.originalParentId = none

/-- The folder an item is in, if it lies strictly below `id`, has no mark. -/
def InUnmarked (t : Tree) (id : FolderId) (parent : Option FolderId) : Prop :=
  ∀ p ∈ parent, ∀ q ∈ t.folders.get p, p ≠ id ∧ Climbs t.par p id → q.originalParentId = none

instance (t : Tree) (id : FolderId) (parent : Option FolderId) : Decidable (t.InUnmarked id parent) := by
  unfold InUnmarked; infer_instance

instance (t : Tree) (id : FolderId) : Decidable (t.Untangled id) :=
  decidable_of_iff
    ((t.folders.Forall fun _ r => r.isTrashed = true ∧ r.originalParentId = none →
        t.InUnmarked id r.parentId) ∧
      t.files.Forall fun _ r => r.isTrashed = true ∧ r.originalFolderId = none →
        t.InUnmarked id r.folderId)
    ⟨fun h => ⟨fun f r p q hr ht hm hp hq hne hc => h.1 f r hr ⟨ht, hm⟩ p hp q hq ⟨hne, hc⟩,
        fun x r p q hx ht hm hp hq hne hc => h.2 x r hx ⟨ht, hm⟩ p hp q hq ⟨hne, hc⟩⟩,
      fun h => ⟨fun f r hr hu p hp q hq hc => h.folders f r p q hr hu.1 hu.2 hp hq hc.1 hc.2,
        fun x r hx hu p hp q hq hc => h.files x r p q hx hu.1 hu.2 hp hq hc.1 hc.2⟩⟩

theorem listed_folder_iff : t.listed (.folder id) = true ↔ ∃ r, t.folders.get id = some r ∧
    r.isTrashed = true ∧ ∀ p, r.parentId = some p → t.folderTrashed p = false := by
  rw [listed, any_eq_true]
  refine exists_congr fun r => and_congr_right fun _ => ?_
  cases r.parentId <;> simp

theorem listed_file_iff : t.listed (.file x) = true ↔ ∃ r, t.files.get x = some r ∧
    r.isTrashed = true ∧ ∀ p, r.folderId = some p → t.folderTrashed p = false := by
  rw [listed, any_eq_true]
  refine exists_congr fun r => and_congr_right fun _ => ?_
  cases r.folderId <;> simp

section Restore
variable (hold : t.folders.get id = some old) (m : ℕ)

include hold

theorem restore_self :
    (t.restoreSubtree id (restoredRow m old)).folders.get id = some (restoredRow m old) := by
  simp [restoreSubtree, hold]

theorem restore_folderTrashed (p : FolderId) :
    (t.restoreSubtree id (restoredRow m old)).folderTrashed p = true ↔
      p ≠ id ∧ ∃ q, t.folders.get p = some q ∧ q.isTrashed = true ∧
        ¬ (old.lpath <+: q.lpath ∧ q.originalParentId = none) := by
  by_cases hpid : p = id
  · subst hpid
    rw [folderTrashed_of_get (restore_self hold m)]
    simp [restoredRow, Folder.restore]
  · cases hq : t.folders.get p with
    | none => simp [folderTrashed, restoreSubtree, hq]
    | some q =>
      by_cases hc : old.lpath <+: q.lpath ∧ q.isTrashed = true ∧ q.originalParentId = none
      · simp [folderTrashed, restoreSubtree, hq, hpid, restoredRow, Folder.restore, hc]
      · have hrow : (t.restoreSubtree id (restoredRow m old)).folders.get p = some q := by
          rw [restoreSubtree, Table.get_modify, hq, map_some, if_neg hpid]
          exact congrArg some (if_neg hc)
        rw [folderTrashed_of_get hrow]
        simp [hpid]
        tauto

end Restore

/-- **A listed folder is restored without a trace exactly if nothing below it is tangled.** -/
theorem covered_restore_iff (hs : t.Sound) (h : t.Covered) (hold : t.folders.get id = some old)
    (ho : old.isTrashed = true) (hlist : ∀ p, old.parentId = some p → t.folderTrashed p = false)
    (m : ℕ) : (t.restoreSubtree id (restoredRow m old)).Covered ↔ t.Untangled id := by
  have hp := hs.placed
  -- all rows below the folder are trashed
  have hbelow : ∀ p q, t.folders.get p = some q → Climbs t.par p id → q.isTrashed = true := by
    intro p q hq hc
    by_contra hn
    have htr := h.climbs hc ((folderTrashed_of_get hq).trans (by simpa using hn))
    rw [folderTrashed_of_get hold, ho] at htr
    cases htr
  have hfalse : ∀ p, (∀ q, t.folders.get p = some q → q.isTrashed = true → p ≠ id →
      old.lpath <+: q.lpath ∧ q.originalParentId = none) →
      (t.restoreSubtree id (restoredRow m old)).folderTrashed p = false := by
    intro p hpq
    rw [← Bool.not_eq_true, restore_folderTrashed hold]
    rintro ⟨hne, q, hq, hqt, hn⟩
    exact hn (hpq q hq hqt hne)
  have hold' : ∀ p, t.folderTrashed p = false →
      (t.restoreSubtree id (restoredRow m old)).folderTrashed p = false := by
    intro p hpf
    refine hfalse p fun q hq hqt _ => ?_
    rw [folderTrashed_of_get hq, hqt] at hpf
    cases hpf
  constructor
  · intro h'
    have hunmarked : ∀ p q, t.folders.get p = some q → p ≠ id → Climbs t.par p id →
        (t.restoreSubtree id (restoredRow m old)).folderTrashed p = false →
        q.originalParentId = none := by
      intro p q hq hne hc hpf
      by_contra hmark
      rw [← Bool.not_eq_true, restore_folderTrashed hold] at hpf
      exact hpf ⟨hne, q, hq, hbelow p q hq hc, fun hn => hmark hn.2⟩
    refine ⟨fun f r p q hr ht hm hpar hq hne hc => ?_, fun x r p q hx ht hm hpar hq hne hc => ?_⟩
    · have hfid : f ≠ id := by
        rintro rfl
        exact (hp.rooted f).not_climbs ((par_of_get hr).trans hpar) hc
      have hl := isPrefix_of_parent hp hold hr hpar hq ((hp.isPrefix_iff hold hq).mpr hc)
      have hrow : (t.restoreSubtree id (restoredRow m old)).folders.get f = some (r.restore t.now) := by
        simp [restoreSubtree, hr, hfid, restoredRow, Folder.restore, hl, ht, hm]
      exact hunmarked p q hq hne hc (h'.folders f _ p hrow rfl hpar)
    · have hu : t.under old.lpath p = true := (hp.under_iff hold hq).mpr hc
      have hrow : (t.restoreSubtree id (restoredRow m old)).files.get x = some (r.restore t.now) := by
        simp [restoreSubtree, hx, hpar, restoredRow, Folder.restore, hu, ht, hm]
      exact hunmarked p q hq hne hc (h'.files x _ p hrow rfl hpar)
  · intro hunt
    refine ⟨fun f r' p hr' hl hpar => ?_, fun x r' p hx hl hpar => ?_⟩
    · obtain ⟨r, hr, rfl⟩ := Table.get_modify_cases hr'
      split_ifs at hl hpar with hf hc
      · exact hold' p (hlist p hpar)
      · -- a row that comes back with the folder
        obtain ⟨p', q, hpar', hq, hlq⟩ := parent_of_isPrefix hp hold hr hf hc.1
        obtain rfl : p' = p := mem_unique hpar' hpar
        refine hfalse p' fun q' hq' _ hne => ?_
        obtain rfl : q = q' := mem_unique hq hq'
        exact ⟨hlq, hunt.folders f r p' q hr hc.2.1 hc.2.2 hpar hq hne ((hp.isPrefix_iff hold hq).mp hlq)⟩
      · exact hold' p (h.folders f r p hr hl hpar)
    · obtain ⟨r, hr, rfl⟩ := Table.get_modify_cases hx
      split_ifs at hl hpar with hc
      · have hfo : r.folderId = some p := hpar
        obtain ⟨q, hq, -⟩ := hp.files x r hr p hfo
        have hu : t.under old.lpath p = true := by
          have := hc.1
          rwa [hfo, any_some] at this
        refine hfalse p fun q' hq' _ hne => ?_
        obtain rfl : q = q' := mem_unique hq hq'
        exact ⟨(under_of_get hq _).mp hu,
          hunt.files x r p q hr hc.2.1 hc.2.2 hfo hq hne ((hp.under_iff hold hq).mp hu)⟩
      · exact hold' p (h.files x r p hr hl hpar)

/-! ### All statements -/

/-- A file of this id is in the trash. -/
def fileTrashed (t : Tree) (x : FileId) : Bool := (t.files.get x).any File.isTrashed

/-- Nothing is put into a trashed folder, and only what is listed is restored, without tangles. -/
def Careful (t : Tree) : Op → Prop
  | .insertFolder _ p _ | .insertFile _ p _ _ => t.folderTrashed p = false
  | .moveFolder _ (some p) | .moveFile _ (some p) | .copyFile _ (some p) _ => t.folderTrashed p = false
  | .restoreFolder id => t.folderTrashed id = true → t.listed (.folder id) = true ∧ t.Untangled id
  | .restoreFile x => t.fileTrashed x = true → t.listed (.file x) = true
  | _ => True

instance (t : Tree) (op : Op) : Decidable (t.Careful op) :=
  match op with
  | .insertFolder .. | .insertFile .. | .moveFolder _ (some _) | .moveFile _ (some _)
  | .copyFile _ (some _) _ => inferInstanceAs (Decidable (_ = false))
  | .restoreFolder _ | .restoreFile _ => inferInstanceAs (Decidable (_ → _))
  | .moveFolder _ none | .moveFile _ none | .copyFile _ none _ | .createDrive _ | .renameFolder ..
  | .trashFolder _ | .deleteFolderFiles _ | .deleteFolder _ | .copyFolderTree .. | .renameFile ..
  | .swapBlobHash .. | .trashFile _ | .deleteFile _ | .clearFiles _ | .clearFolders _ | .expireFiles _
  | .expireFolders _ | .tick _ => .isTrue trivial

/-- The copies of a tree are live and below a live folder. -/
theorem CopiedOK.covered {target : Option FolderId} {drive : DriveId} {news : List FolderId} {t₁ : Tree}
    (hc : CopiedOK t target drive news t₁ t') (h : t.Covered) : t'.Covered := by
  have hnew : ∀ f ∈ news, ∀ r, t'.folders.get f = some r → r.isTrashed = false ∧
      ∀ p, r.parentId = some p → p ∈ news ∨ target = some p := by
    intro f hf r hr
    rw [hc.folders] at hr
    exact (hc.copying.new f hf r hr).2
  have htr : ∀ p, t.folderTrashed p = false → t'.folderTrashed p = false := by
    intro p hp
    by_cases hn : p ∈ news
    · cases hq : t'.folders.get p with
      | none => exact folderTrashed_of_none hq
      | some q => rw [folderTrashed_of_get hq, (hnew p hn q hq).1]
    · rw [folderTrashed, hc.get hn]
      exact hp
  have hnews : ∀ p ∈ news, t'.folderTrashed p = false := by
    intro p hn
    exact htr p (folderTrashed_of_none (hc.fresh p hn))
  refine ⟨fun f r p hr hl hpar => ?_, fun x r p hx hl hpar => ?_⟩
  · by_cases hn : f ∈ news
    · rcases (hnew f hn r hr).2 p hpar with hpn | htarget
      · exact hnews p hpn
      · obtain ⟨q, hq, hql, -⟩ := hc.target p htarget
        exact htr p ((folderTrashed_of_get hq).trans hql)
    · rw [hc.get hn] at hr
      exact htr p (h.folders f r p hr hl hpar)
  · rcases hc.files x r hx with hx' | ⟨-, -, -, p', hp', hfo⟩
    · exact htr p (h.files x r p hx' hl hpar)
    · obtain rfl : p' = p := mem_unique hfo hpar
      exact hnews p' hp'

theorem covered_addFile_iff (h : t.Covered) {name hash : Text} {p : FolderId} {d : DriveId} {size : ℕ} :
    (t.addFile x name p d hash size).Covered ↔ t.folderTrashed p = false := by
  refine (covered_setFile_iff h).trans ⟨fun h' => h' rfl p rfl, fun hp _ q hq => ?_⟩
  obtain rfl : p = q := Option.some.inj hq
  exact hp

/-- A folder restored out of a trashed one, or with a tangle below it, shows. -/
theorem covered_restoreFolder_iff (hs : t.Sound) (h : t.Covered) (hold : t.folders.get id = some old)
    (ht : old.isTrashed = true) (m : ℕ) :
    (t.restoreSubtree id (restoredRow m old)).Covered ↔ t.Careful (.restoreFolder id) := by
  constructor
  · intro h' _
    have hlive : ∀ p, old.parentId = some p → t.folderTrashed p = false := by
      intro p hp
      have hup := (par_of_get hold).trans hp
      obtain ⟨q, hq, -⟩ := (hs.placed.folders id old hold).below p hp
      have hpf := h'.folders id _ p (restore_self hold m) rfl hp
      rw [← Bool.not_eq_true, restore_folderTrashed hold] at hpf
      rw [folderTrashed_of_get hq, ← Bool.not_eq_true]
      intro hqt
      have hnot := (hs.placed.rooted id).not_climbs hup
      refine hpf ⟨?_, q, hq, hqt, fun hl => hnot ((hs.placed.isPrefix_iff hold hq).mp hl.1)⟩
      rintro rfl
      exact hnot .refl
    exact ⟨listed_folder_iff.mpr ⟨old, hold, ht, hlive⟩, (covered_restore_iff hs h hold ht hlive m).mp h'⟩
  · intro hc
    obtain ⟨hlist, hunt⟩ := hc ((folderTrashed_of_get hold).trans ht)
    obtain ⟨r, hr, -, hlive⟩ := listed_folder_iff.mp hlist
    obtain rfl : old = r := mem_unique hold hr
    exact (covered_restore_iff hs h hold ht hlive m).mpr hunt

theorem careful_of_plain {op : Op} (h : plain op = true) : t.Careful op := by
  cases op <;> trivial

theorem careful_of_cascades {op : Op} (h : Database.cascades op = true) : t.Careful op := by
  cases op <;> trivial

/-- **A statement that changes a row keeps the trash hidden exactly if it is careful.** -/
theorem covered_effect_iff (hs : t.Sound) (h : t.Covered) {op : Op} {ch : Draw}
    (he : t.effect op ch = .ok (n, t')) : t'.Covered ↔ (n ≠ 0 → t.Careful op) := by
  have hkeep : ∀ {P Q : Prop} {n : ℕ}, P → Q → (P ↔ (n ≠ 0 → Q)) := fun hP hQ => ⟨fun _ _ => hQ, fun _ => hP⟩
  have hone : ∀ {P Q : Prop}, (P ↔ Q) → (P ↔ (1 ≠ 0 → Q)) := fun hPQ =>
    ⟨fun hP _ => hPQ.mp hP, fun hQ => hPQ.mpr (hQ one_ne_zero)⟩
  cases change_of_effect hs he with
  | nothing => exact ⟨fun _ h0 => absurd rfl h0, fun _ => h⟩
  | tick => exact hkeep ⟨h.folders, h.files⟩ trivial
  | @createDrive name d id hd hid =>
    have hcov := (covered_addFolder_iff h hid (addFolder_root t id name d)).mpr fun p hp => by cases hp
    exact hkeep ⟨hcov.folders, hcov.files⟩ trivial
  | insertFolder hid hadd =>
    refine hone ((covered_addFolder_iff h hid hadd).trans ⟨fun h' => h' _ rfl, fun h' q hq => ?_⟩)
    cases hq
    exact h'
  | @renameFolder id name old new hold hl hnew =>
    have hrow := computeFolderPath_row hnew
    refine hkeep ((covered_moved_iff h hold hl (hrow.isTrashed.trans hl)).mpr fun p hp => ?_) trivial
    exact h.folders id old p hold hl (hrow.parentId.symm.trans hp)
  | @moveFolder id parent old new hold hl hnew =>
    have hrow := computeFolderPath_row hnew
    have hpar : new.parentId = parent := hrow.parentId
    refine hone ((covered_moved_iff h hold hl (hrow.isTrashed.trans hl)).trans ?_)
    rw [hpar]
    cases parent <;> simp [Careful]
  | trashFolder hroot => exact hkeep (h.trashSubtree hs.placed hroot) trivial
  | restoreFolder hold ht => exact hone (covered_restoreFolder_iff hs h hold ht _)
  | copyTree hc => exact hkeep (hc.covered h) trivial
  | insertFile => exact hone (covered_addFile_iff h)
  | @copyFile x y target name src p q hx hl hp =>
    refine hone ((covered_addFile_iff h).trans ?_)
    rcases target with _ | p'
    · exact ⟨fun _ => trivial, fun _ => h.files x src p hx hl hp⟩
    · obtain rfl : p' = p := Option.some.inj hp
      exact Iff.rfl
  | @content _ x r name hash size m hop hr =>
    refine hkeep ((covered_setFile_iff h).mpr fun hl q hq => ?_) (careful_of_plain hop)
    exact h.files x r q hr hl hq
  | @moveFile x target r hr hl =>
    refine hone ((covered_setFile_iff h).trans ⟨fun h' => ?_, fun h' _ q hq => ?_⟩)
    · cases target with
      | none => trivial
      | some p => exact h' hl p rfl
    · obtain rfl : target = some q := hq
      exact h'
  | trashFile => exact hkeep ((covered_setFile_iff h).mpr nofun) trivial
  | @restoreFile x r hr ht =>
    refine hone ((covered_setFile_iff h).trans ⟨fun h' _ => ?_, fun h' _ => ?_⟩)
    · exact listed_file_iff.mpr ⟨r, hr, ht, h' rfl⟩
    · obtain ⟨r', hr', -, hlive⟩ := listed_file_iff.mp (h' (by rw [fileTrashed, hr]; exact ht))
      obtain rfl : r = r' := mem_unique hr hr'
      exact hlive
  | deleteFiles hop xs hxs => exact hkeep (h.subset (fun _ _ hr => hr) hxs) (careful_of_plain hop)
  | deleteFolders hop =>
    exact hkeep (h.subset (fun _ _ hr => (deleteCascade_get.mp hr).1) fun _ _ hx =>
      (deleteCascade_getFile.mp hx).1) (careful_of_cascades hop)

end OxiCloud.Folders.Tree
