import OxiCloud.Folders.Statements

/-! # Where folders and files stand

`Placed t` says that the columns kept by the triggers are what the parent links make them: the path of a
folder is that of its parent with its own name, the `lpath` that of its parent with its own label, and
the drive of a folder or file is that of the folder it is in. The `lpath` of a folder is then its
address, so that `lpath <@ l` selects exactly a subtree (`Placed.under_iff`).

Setting the name, the parent or the drive of a folder outside of its own subtree leaves the tables
`t.moved id old new`: the row itself and everything below it are carried along, the rest stays
(`cascade_eq`), and everything is again placed (`Placed.moved`). -/

namespace OxiCloud.Folders

open Lib.Tables Lib.Forests Lib.Cascades Schema Table List Option

/-- The row `r` of `f` continues the row `q` of its parent. -/
structure Folder.Continues (r : Folder) (f : FolderId) (q : Folder) : Prop where
  path : r.path = q.path ++ '/' :: r.name
  lpath : r.lpath = q.lpath ++ [f]
  drive : r.driveId = q.driveId

/-- The row `r`, but for the two paths. -/
structure Folder.Filled (new r : Folder) : Prop where
  name : new.name = r.name
  parentId : new.parentId = r.parentId
  driveId : new.driveId = r.driveId
  isTrashed : new.isTrashed = r.isTrashed
  trashedAt : new.trashedAt = r.trashedAt
  originalParentId : new.originalParentId = r.originalParentId
  updatedAt : new.updatedAt = r.updatedAt

/-- A row below `old` after `old` became `new`. -/
def Folder.carried (r old new : Folder) : Folder := { r.rebase old new with driveId := new.driveId }

namespace Tree

/-- The row `r` of the folder `f` is what its parent makes it. -/
structure FolderPlaced (t : Tree) (f : FolderId) (r : Folder) : Prop where
  root : r.parentId = none → r.path = r.name ∧ r.lpath = [f]
  below : ∀ p, r.parentId = some p → ∃ q, t.folders.get p = some q ∧ r.Continues f q

/-- The file is in the drive of its folder. -/
def FilePlaced (t : Tree) (r : File) : Prop :=
  ∀ p, r.folderId = some p → ∃ q, t.folders.get p = some q ∧ r.driveId = q.driveId

/-- Every row is what its parent makes it. -/
structure Placed (t : Tree) : Prop where
  folders : ∀ f r, t.folders.get f = some r → t.FolderPlaced f r
  files : ∀ x r, t.files.get x = some r → t.FilePlaced r

/-- The folder has a row. -/
def HasFolder (t : Tree) (f : FolderId) : Prop := ∃ r, t.folders.get f = some r

/-- The `lpath` of a folder. -/
def lpathOf (t : Tree) (f : FolderId) : LPath := (t.folders.get f).elim [] Folder.lpath

variable {t t' : Tree} {id f : FolderId} {r old new : Folder}

section

variable (h : t.folders.get f = some r)
include h

theorem par_of_get : t.par f = r.parentId := by
  rw [par, h]; rfl

theorem lpathOf_of_get : t.lpathOf f = r.lpath := by
  rw [lpathOf, h]; rfl

theorem under_of_get (l : LPath) : t.under l f = true ↔ l <+: r.lpath := by
  rw [under, h, any_some, decide_eq_true_eq]

end

instance (t : Tree) (f g : FolderId) : Decidable (Climbs t.par f g) :=
  decidable_of_iff _ (climbs_iff_mem_cascade (U := t.folders.keys) (fun x hx => by
    rw [t.folders.mem_keys]
    cases h : t.folders.get x with
    | none => rw [par, h] at hx; cases hx
    | some r => rfl) f g).symm

theorem placed_empty : empty.Placed :=
  ⟨fun _ _ h => absurd h (by simp [empty]), fun _ _ h => absurd h (by simp [empty])⟩

namespace Placed

section

variable (h : t.Placed)
include h

theorem addressed : Addressed t.par t.HasFolder t.lpathOf where
  root := by
    rintro f ⟨r, hr⟩ hp
    rw [par_of_get hr] at hp
    rw [lpathOf_of_get hr, ((h.folders f r hr).root hp).2]
  up := by
    rintro f p ⟨r, hr⟩ hp
    rw [par_of_get hr] at hp
    obtain ⟨q, hq, hc⟩ := (h.folders f r hr).below p hp
    exact ⟨⟨q, hq⟩, by rw [lpathOf_of_get hr, lpathOf_of_get hq, hc.lpath]⟩

/-- **`lpath <@` selects exactly a subtree.** -/
theorem isPrefix_iff (hold : t.folders.get id = some old) (hr : t.folders.get f = some r) :
    old.lpath <+: r.lpath ↔ Climbs t.par f id := by
  rw [← lpathOf_of_get hold, ← lpathOf_of_get hr]
  exact h.addressed.isPrefix_iff ⟨r, hr⟩ ⟨old, hold⟩

theorem under_iff (hold : t.folders.get id = some old) (hr : t.folders.get f = some r) :
    t.under old.lpath f = true ↔ Climbs t.par f id := by
  rw [under_of_get hr, h.isPrefix_iff hold hr]

theorem rooted (f : FolderId) : Rooted t.par f := by
  by_cases hf : t.HasFolder f
  · exact h.addressed.rooted hf
  · refine .root ?_
    rw [par, eq_none_iff_forall_ne_some.mpr fun r hr => hf ⟨r, hr⟩]
    rfl

theorem self_mem (hr : t.folders.get f = some r) : f ∈ r.lpath := by
  rw [← lpathOf_of_get hr]
  exact h.addressed.self_mem ⟨r, hr⟩

section

variable (hold : t.folders.get id = some old) (hr : t.folders.get f = some r)
include hold hr

theorem path_isPrefix (hc : Climbs t.par f id) : old.path <+: r.path := by
  induction hc using Relation.ReflTransGen.head_induction_on generalizing r with
  | refl =>
    rw [mem_unique hr hold]
  | head hup _ ih =>
    have hp : t.par _ = some _ := hup
    rw [par_of_get hr] at hp
    obtain ⟨q, hq, hc⟩ := (h.folders _ r hr).below _ hp
    rw [hc.path]
    exact (ih hq).trans (prefix_append _ _)

/-- All folders of a subtree are in the drive of its root. -/
theorem drive_eq (hc : Climbs t.par f id) : r.driveId = old.driveId := by
  induction hc using Relation.ReflTransGen.head_induction_on generalizing r with
  | refl => rw [mem_unique hr hold]
  | head hup _ ih =>
    have hp : t.par _ = some _ := hup
    rw [par_of_get hr] at hp
    obtain ⟨q, hq, hc⟩ := (h.folders _ r hr).below _ hp
    rw [hc.drive, ih hq]

theorem lpath_lt (hp : old.lpath <+: r.lpath) (hne : f ≠ id) : old.lpath.length < r.lpath.length := by
  refine lt_of_le_of_ne hp.length_le fun hl => ?_
  have heq : old.lpath = r.lpath := hp.eq_of_length hl
  have hfi : Climbs t.par f id := (h.isPrefix_iff hold hr).mp hp
  have hif : Climbs t.par id f := (h.isPrefix_iff hr hold).mp (heq ▸ prefix_rfl)
  rcases climbs_cases hfi with rfl | ⟨p, hfp, hpi⟩
  · exact hne rfl
  · exact (h.rooted f).not_climbs hfp (hpi.trans hif)

end

end

end Placed

/-! ### Carrying a subtree along -/

/-- The tables after the row `old` of `id` became `new`, with everything below it carried along. -/
def moved (t : Tree) (id : FolderId) (old new : Folder) : Tree :=
  { t with
    folders := t.folders.modify fun f r =>
      if f = id then new else if old.lpath <+: r.lpath then r.carried old new else r
    files := t.files.modify fun _ r =>
      if r.folderId.any (t.under old.lpath) then { r with driveId := new.driveId } else r }

theorem ext_tables (hn : t.now = t'.now) (hf : ∀ f, t.folders.get f = t'.folders.get f)
    (hx : ∀ x, t.files.get x = t'.files.get x) (hd : t.drives = t'.drives) : t = t' := by
  cases t
  cases t'
  have h1 := Table.ext hf
  have h2 := Table.ext hx
  simp_all

theorem rebaseDrives_of_eq (h : old.driveId = new.driveId) : t.rebaseDrives old new = t := by
  refine ext_tables rfl (fun f => ?_) (fun x => ?_) rfl
  · rw [rebaseDrives, get_modify]
    cases t.folders.get f with
    | none => rfl
    | some r =>
      rw [map_some]
      split_ifs with hc
      · rw [← h, ← hc.2]
      · rfl
  · rw [rebaseDrives, get_modify]
    cases t.files.get x with
    | none => rfl
    | some r =>
      rw [map_some]
      split_ifs with hc
      · rw [← h, ← hc.2]
      · rfl

theorem cascadeDrives_eq : t.cascadeDrives old new = t.rebaseDrives old new := by
  rw [cascadeDrives]
  split_ifs with h
  · rfl
  · exact (rebaseDrives_of_eq (not_ne_iff.mp h)).symm

theorem rebase_of_eq (hp : old.path = new.path) (hl : old.lpath = new.lpath)
    (h1 : old.path <+: r.path) (h2 : old.lpath <+: r.lpath) : r.rebase old new = r := by
  rw [Folder.rebase, ← hp, ← hl, ← prefix_append_drop h1, ← prefix_append_drop h2]

section

variable (h : t.computeFolderPath id r = some new)
include h

/-- What `computeFolderPath` leaves alone, and what it fills in. -/
theorem computeFolderPath_cases :
    (r.parentId = none ∧ new = { r with path := r.name, lpath := [id] }) ∨
    ∃ p q, r.parentId = some p ∧ t.folders.get p = some q ∧
      new = { r with path := q.path ++ '/' :: r.name, lpath := q.lpath ++ [id] } := by
  rw [computeFolderPath] at h
  cases hp : r.parentId with
  | none =>
    rw [hp] at h
    exact .inl ⟨rfl, (Option.some.inj h).symm⟩
  | some p =>
    rw [hp] at h
    obtain ⟨q, hq, rfl⟩ := map_eq_some_iff.mp h
    exact .inr ⟨p, q, rfl, hq, rfl⟩

theorem computeFolderPath_row : new.Filled r := by
  rcases computeFolderPath_cases h with ⟨-, rfl⟩ | ⟨p, q, -, -, rfl⟩
  · exact ⟨rfl, rfl, rfl, rfl, rfl, rfl, rfl⟩
  · exact ⟨rfl, rfl, rfl, rfl, rfl, rfl, rfl⟩

theorem mem_computeFolderPath : id ∈ new.lpath := by
  rcases computeFolderPath_cases h with ⟨-, rfl⟩ | ⟨p, q, -, -, rfl⟩
  · exact mem_singleton_self id
  · exact mem_append_right _ (mem_singleton_self id)

end

section Cascade
variable (hp : t.Placed) (hold : t.folders.get id = some old) (hmem : id ∈ new.lpath)

include hp hold hmem

omit hold in
theorem Placed.not_isPrefix (hr : t.folders.get f = some r) (hc : ¬ Climbs t.par f id) :
    ¬ new.lpath <+: r.lpath := by
  intro hn
  have hin : id ∈ t.lpathOf f := by
    rw [lpathOf_of_get hr]
    exact hn.subset hmem
  exact hc (hp.addressed.climbs_of_mem ⟨r, hr⟩ hin)

/-- The three updates of a move, as one. -/
theorem rebase_eq_moved :
    ({ t with folders := t.folders.set id new }.rebasePaths id old new).rebaseDrives old new =
      t.moved id old new := by
  have hpaths : ∀ f r, t.folders.get f = some r → f ≠ id →
      ({ t with folders := t.folders.set id new }.rebasePaths id old new).folders.get f =
        some (if old.lpath <+: r.lpath then r.rebase old new else r) := by
    intro f r hr hne
    simp [rebasePaths, get_set, hne, hr]
  have hroot : ({ t with folders := t.folders.set id new }.rebasePaths id old new).folders.get id =
      some new := by
    simp [rebasePaths]
  have hunder : ∀ f, t.HasFolder f →
      ({ t with folders := t.folders.set id new }.rebasePaths id old new).under new.lpath f =
        t.under old.lpath f := by
    rintro f ⟨r, hr⟩
    rw [Bool.eq_iff_iff, under_of_get hr]
    by_cases hne : f = id
    · subst hne
      obtain rfl : old = r := mem_unique hold hr
      simp [under_of_get hroot]
    · rw [under_of_get (hpaths f r hr hne)]
      by_cases hc : old.lpath <+: r.lpath
      · simp [hc, Folder.rebase]
      · have hnc : ¬ Climbs t.par f id := fun hcl => hc ((hp.isPrefix_iff hold hr).mpr hcl)
        simp [hc, hp.not_isPrefix hmem hr hnc]
  refine ext_tables rfl (fun f => ?_) (fun x => ?_) rfl
  · by_cases hne : f = id
    · subst hne
      rw [rebaseDrives, get_modify, hroot, moved, get_modify, hold]
      by_cases hd : new.driveId = old.driveId
      · simp [hd]
        rw [← hd]
      · simp [hd]
    · cases hr : t.folders.get f with
      | none => simp [rebaseDrives, rebasePaths, moved, get_set, hne, hr]
      | some r =>
        rw [rebaseDrives, get_modify, hpaths f r hr hne, moved, get_modify, hr,
          map_some, map_some, if_neg hne]
        by_cases hc : old.lpath <+: r.lpath
        · have hd : r.driveId = old.driveId := hp.drive_eq hold hr ((hp.isPrefix_iff hold hr).mp hc)
          simp [hc, Folder.rebase, Folder.carried, hd]
        · have hnc : ¬ Climbs t.par f id := fun hcl => hc ((hp.isPrefix_iff hold hr).mpr hcl)
          simp [hc, hp.not_isPrefix hmem hr hnc]
  · rw [rebaseDrives, get_modify, moved, get_modify]
    show (t.files.get x).map _ = _
    cases hx : t.files.get x with
    | none => rfl
    | some r =>
      rw [map_some, map_some]
      cases hfo : r.folderId with
      | none => simp
      | some p =>
        obtain ⟨q, hq, hdr⟩ := hp.files x r hx p hfo
        rw [any_some, any_some, hunder p ⟨q, hq⟩]
        by_cases hu : t.under old.lpath p = true
        · have hd : q.driveId = old.driveId := hp.drive_eq hold hq ((hp.under_iff hold hq).mp hu)
          simp [hu, hdr, hd]
        · simp [hu]

/-- **The cascade carries the subtree along.** -/
theorem cascade_eq : cascadeFolderPath { t with folders := t.folders.set id new } id old new =
      some (t.moved id old new) := by
  have hget : ∀ f, f ≠ id → (t.folders.set id new).get f = t.folders.get f :=
    fun f hne => get_set_ne _ _ hne
  rw [cascadeFolderPath]
  by_cases hch : old.path ≠ new.path ∨ old.lpath ≠ new.lpath
  · have hreb : Rebasable { t with folders := t.folders.set id new } id old := by
      intro f r hr hl hne
      have hr' : t.folders.get f = some r := (hget f hne).symm.trans hr
      exact hp.lpath_lt hold hr' hl hne
    rw [if_pos hch, if_pos hreb, cascadeDrives_eq, rebase_eq_moved hp hold hmem]
  · -- neither path changed: the rewriting of paths does nothing
    have hpath : old.path = new.path := by tauto
    have hlpath : old.lpath = new.lpath := by tauto
    have hsame : { t with folders := t.folders.set id new }.rebasePaths id old new =
        { t with folders := t.folders.set id new } := by
      refine ext_tables rfl (fun f => ?_) (fun _ => rfl) rfl
      rw [rebasePaths, get_modify]
      by_cases hne : f = id
      · subst hne; simp
      · rw [hget f hne]
        cases hr : t.folders.get f with
        | none => rfl
        | some r =>
          rw [map_some]
          split_ifs with hc
          · have hcl := (hp.isPrefix_iff hold hr).mp hc.1
            rw [rebase_of_eq hpath hlpath (hp.path_isPrefix hold hr hcl) hc.1]
          · rfl
    rw [if_neg hch, cascadeDrives_eq, ← rebase_eq_moved hp hold hmem, hsame]

end Cascade

/-! ### What a move leaves behind -/

theorem moved_self (new : Folder) (hold : t.folders.get id = some old) :
    (t.moved id old new).folders.get id = some new := by
  simp [moved, hold]

theorem moved_below (hr : t.folders.get f = some r) (hne : f ≠ id) (hc : old.lpath <+: r.lpath)
    (new : Folder) : (t.moved id old new).folders.get f = some (r.carried old new) := by
  simp [moved, hr, hne, hc]

theorem moved_other (hr : t.folders.get f = some r) (hne : f ≠ id) (hc : ¬ old.lpath <+: r.lpath)
    (new : Folder) : (t.moved id old new).folders.get f = some r := by
  simp [moved, hr, hne, hc]

theorem moved_cases {r' : Folder} (h : (t.moved id old new).folders.get f = some r') :
    ∃ r, t.folders.get f = some r ∧ (f = id ∧ r' = new ∨
      f ≠ id ∧ old.lpath <+: r.lpath ∧ r' = r.carried old new ∨
      f ≠ id ∧ ¬ old.lpath <+: r.lpath ∧ r' = r) := by
  obtain ⟨r, hr, rfl⟩ := get_modify_cases h
  refine ⟨r, hr, ?_⟩
  by_cases hne : f = id
  · exact .inl ⟨hne, if_pos hne⟩
  · by_cases hc : old.lpath <+: r.lpath
    · exact .inr (.inl ⟨hne, hc, by rw [if_neg hne, if_pos hc]⟩)
    · exact .inr (.inr ⟨hne, hc, by rw [if_neg hne, if_neg hc]⟩)

theorem moved_par (hold : t.folders.get id = some old) :
    (t.moved id old new).par = Function.update t.par id new.parentId := by
  funext f
  by_cases hne : f = id
  · subst hne
    rw [Function.update_self, par_of_get (moved_self new hold)]
  · rw [Function.update_of_ne hne, par, par, moved, get_modify]
    cases t.folders.get f with
    | none => rfl
    | some r =>
      rw [map_some, if_neg hne]
      split_ifs <;> rfl

/-- A row carried along continues the row of its parent carried along. -/
theorem carried_continues {q : Folder} (h : r.Continues f q) (hp : old.path <+: q.path)
    (hl : old.lpath <+: q.lpath) : (r.carried old new).Continues f (q.carried old new) where
  path := by
    show new.path ++ r.path.drop old.path.length = new.path ++ q.path.drop old.path.length ++ _
    rw [h.path, drop_append_of_le_length hp.length_le, append_assoc]
    rfl
  lpath := by
    show new.lpath ++ r.lpath.drop old.lpath.length = new.lpath ++ q.lpath.drop old.lpath.length ++ _
    rw [h.lpath, drop_append_of_le_length hl.length_le, append_assoc]
  drive := rfl

/-- A row carried along continues the new row of the folder that was moved. -/
theorem carried_continues_root (h : r.Continues f old) : (r.carried old new).Continues f new where
  path := by
    show new.path ++ r.path.drop old.path.length = _
    rw [h.path, drop_left]
    rfl
  lpath := by
    show new.lpath ++ r.lpath.drop old.lpath.length = _
    rw [h.lpath, drop_left]
  drive := rfl

theorem Placed.moved_outside {p : FolderId} {q : Folder} (hp : t.Placed) (hold : t.folders.get id = some old)
    (hq : t.folders.get p = some q) (hout : ¬ Climbs t.par p id) :
    (t.moved id old new).folders.get p = some q := by
  have hl : ¬ old.lpath <+: q.lpath := fun hl => hout ((hp.isPrefix_iff hold hq).mp hl)
  have hne : p ≠ id := by
    rintro rfl
    exact hout .refl
  exact moved_other hq hne hl new

/-- The computed row is placed where the parent is still found. -/
theorem folderPlaced_of_computed {s : Folder} (hnew : t.computeFolderPath id s = some new)
    (hget : ∀ p q, s.parentId = some p → t.folders.get p = some q → t'.folders.get p = some q)
    (hdrive : ∀ p q, s.parentId = some p → t.folders.get p = some q → s.driveId = q.driveId) :
    t'.FolderPlaced id new := by
  rcases computeFolderPath_cases hnew with ⟨hs, rfl⟩ | ⟨p, q, hs, hq, rfl⟩
  · exact ⟨fun _ => ⟨rfl, rfl⟩, fun p hsp => absurd (hs.symm.trans hsp) (by simp)⟩
  · refine ⟨fun h0 => absurd (hs.symm.trans h0) (by simp), fun p' hsp => ?_⟩
    obtain rfl : p = p' := mem_unique hs hsp
    exact ⟨q, hget p q hs hq, ⟨rfl, rfl, hdrive p q hs hq⟩⟩

/-- **A folder hung outside of its own subtree: everything is placed again.** -/
theorem Placed.moved {s : Folder} (hp : t.Placed) (hold : t.folders.get id = some old)
    (hnew : t.computeFolderPath id s = some new)
    (hout : ∀ p, s.parentId = some p → ¬ Climbs t.par p id)
    (hdrive : ∀ p q, s.parentId = some p → t.folders.get p = some q → s.driveId = q.driveId) :
    (t.moved id old new).Placed where
  folders := by
    intro f r' hr'
    obtain ⟨r, hr, ⟨rfl, rfl⟩ | ⟨hne, hc, rfl⟩ | ⟨hne, hc, rfl⟩⟩ := moved_cases hr'
    · -- the moved folder itself, below a folder that stays
      exact folderPlaced_of_computed hnew (fun p q hs hq => hp.moved_outside hold hq (hout p hs)) hdrive
    · -- a folder below it
      have hcl : Climbs t.par f id := (hp.isPrefix_iff hold hr).mp hc
      rcases climbs_cases hcl with h | ⟨p, hfp, hpi⟩
      · exact absurd h hne
      · rw [par_of_get hr] at hfp
        obtain ⟨q, hq, hcont⟩ := (hp.folders f r hr).below p hfp
        refine ⟨fun h0 => absurd (hfp.symm.trans h0) (by simp), fun p' hfp' => ?_⟩
        obtain rfl : p = p' := mem_unique hfp hfp'
        by_cases hpid : p = id
        · subst hpid
          obtain rfl : old = q := mem_unique hold hq
          exact ⟨new, moved_self new hold, carried_continues_root hcont⟩
        · have hl := (hp.isPrefix_iff hold hq).mpr hpi
          exact ⟨q.carried old new, moved_below hq hpid hl new,
            carried_continues hcont (hp.path_isPrefix hold hq hpi) hl⟩
    · -- a folder elsewhere
      have hnc : ¬ Climbs t.par f id := fun hcl => hc ((hp.isPrefix_iff hold hr).mpr hcl)
      refine ⟨(hp.folders f r' hr).root, fun p hfp => ?_⟩
      obtain ⟨q, hq, hcont⟩ := (hp.folders f r' hr).below p hfp
      have hpar : t.par f = some p := (par_of_get hr).trans hfp
      have hpne : p ≠ id := by
        rintro rfl
        exact hnc (Climbs.up hpar Relation.ReflTransGen.refl)
      have hql : ¬ old.lpath <+: q.lpath := fun hl =>
        hnc (Climbs.up hpar ((hp.isPrefix_iff hold hq).mp hl))
      exact ⟨q, moved_other hq hpne hql new, hcont⟩
  files := by
    intro x r' hx p hpx
    obtain ⟨r, hr, rfl⟩ := get_modify_cases hx
    have hfo : r.folderId = some p := by
      rw [← hpx]
      split_ifs <;> rfl
    obtain ⟨q, hq, hd⟩ := hp.files x r hr p hfo
    have hu := under_of_get hq old.lpath
    rw [hfo, any_some]
    by_cases hne : p = id
    · subst hne
      obtain rfl : old = q := mem_unique hold hq
      exact ⟨new, moved_self new hold, by simp [hu]⟩
    · by_cases hc : old.lpath <+: q.lpath
      · exact ⟨q.carried old new, moved_below hq hne hc new, by simp [hu, hc, Folder.carried]⟩
      · exact ⟨q, moved_other hq hne hc new, by simp [hu, hc, hd]⟩

/-! ### Changes that move nothing -/

/-- The columns of a folder that say where it stands. -/
def place (r : Folder) : Text × Option FolderId × DriveId × Text × LPath :=
  (r.name, r.parentId, r.driveId, r.path, r.lpath)

/-- The columns of a file that say where it stands. -/
def filePlace (r : File) : Option FolderId × DriveId := (r.folderId, r.driveId)

/-- The same folders stand at the same places, and no file has changed its folder. -/
structure SamePlaces (t t' : Tree) : Prop where
  folders : ∀ f, (t'.folders.get f).map place = (t.folders.get f).map place
  files : ∀ x r', t'.files.get x = some r' → ∃ r, t.files.get x = some r ∧ filePlace r' = filePlace r

namespace SamePlaces

variable (h : t.SamePlaces t')

include h

theorem get {r' : Folder} (hr : t'.folders.get f = some r') :
    ∃ r, t.folders.get f = some r ∧ place r' = place r := by
  have hf := h.folders f
  rw [hr, map_some] at hf
  obtain ⟨r, hr, hp⟩ := map_eq_some_iff.mp hf.symm
  exact ⟨r, hr, hp.symm⟩

theorem get_of (hr : t.folders.get f = some r) :
    ∃ r', t'.folders.get f = some r' ∧ place r' = place r := by
  have hf := h.folders f
  rw [hr, map_some] at hf
  obtain ⟨r', hr', hp⟩ := map_eq_some_iff.mp hf
  exact ⟨r', hr', hp⟩

theorem par_eq : t'.par = t.par := by
  funext f
  have hf := congrArg (fun o => o.bind fun x => x.2.1) (h.folders f)
  simpa [par, place, bind_map, Function.comp_def] using hf

theorem under_eq (l : LPath) (f : FolderId) : t'.under l f = t.under l f := by
  cases hr : t.folders.get f with
  | none =>
    have hf := h.folders f
    rw [hr, map_none, map_eq_none_iff] at hf
    rw [under, under, hr, hf]
  | some r =>
    obtain ⟨r', hr', he⟩ := h.get_of hr
    simp only [place, Prod.mk.injEq] at he
    rw [Bool.eq_iff_iff, under_of_get hr, under_of_get hr', he.2.2.2.2]

theorem placed (hp : t.Placed) : t'.Placed where
  folders := by
    intro f r' hr'
    obtain ⟨r, hr, he⟩ := h.get hr'
    simp only [place, Prod.mk.injEq] at he
    obtain ⟨h1, h2, h3, h4, h5⟩ := he
    refine ⟨fun h0 => ?_, fun p hpp => ?_⟩
    · rw [h4, h5, h1]
      exact (hp.folders f r hr).root (h2 ▸ h0)
    · obtain ⟨q, hq, hc⟩ := (hp.folders f r hr).below p (h2 ▸ hpp)
      obtain ⟨q', hq', he⟩ := h.get_of hq
      simp only [place, Prod.mk.injEq] at he
      obtain ⟨-, -, g3, g4, g5⟩ := he
      exact ⟨q', hq', ⟨by rw [h4, hc.path, g4, h1], by rw [h5, hc.lpath, g5],
        by rw [h3, hc.drive, g3]⟩⟩
  files := by
    intro x r' hx p hpx
    obtain ⟨r, hr, he⟩ := h.files x r' hx
    simp only [filePlace, Prod.mk.injEq] at he
    obtain ⟨q, hq, hd⟩ := hp.files x r hr p (he.1 ▸ hpx)
    obtain ⟨q', hq', hpl⟩ := h.get_of hq
    simp only [place, Prod.mk.injEq] at hpl
    exact ⟨q', hq', by rw [he.2, hd, hpl.2.2.1]⟩

end SamePlaces

/-! ### Deletions -/

variable {S : Finset FolderId}

theorem mem_doomed_of_parent (hS : S ⊆ t.folders.keys) {p : FolderId}
    (hr : t.folders.get f = some r) (hp : r.parentId = some p) (hd : p ∈ t.doomed S) :
    f ∈ t.doomed S := by
  have hf : f ∈ t.folders.keys := (t.folders.mem_keys f).mpr (isSome_of_eq_some hr)
  exact mem_cascade_of_dep hS hf hd ⟨r, hr, .inl hp⟩

theorem deleteCascade_get {r' : Folder} :
    (t.deleteCascade S).folders.get f = some r' ↔ t.folders.get f = some r' ∧ f ∉ t.doomed S := by
  rw [deleteCascade, Table.get_filter, filter_eq_some_iff, decide_eq_true_eq]

theorem deleteCascade_getFile {x : FileId} {r : File} :
    (t.deleteCascade S).files.get x = some r ↔ t.files.get x = some r ∧
      (∀ p, r.folderId = some p → p ∉ t.doomed S) ∧ t.doomedDrive S r.driveId = false := by
  rw [deleteCascade, Table.get_filter, filter_eq_some_iff]
  cases hf : r.folderId <;> simp

/-- What is left after a deletion is placed as before. -/
theorem Placed.deleteCascade (hp : t.Placed) (hS : S ⊆ t.folders.keys) :
    (t.deleteCascade S).Placed where
  folders := by
    intro f r hr
    obtain ⟨hr, hf⟩ := deleteCascade_get.mp hr
    refine ⟨(hp.folders f r hr).root, fun p hpp => ?_⟩
    obtain ⟨q, hq, hc⟩ := (hp.folders f r hr).below p hpp
    have hpd : p ∉ t.doomed S := fun hd => hf (mem_doomed_of_parent hS hr hpp hd)
    exact ⟨q, deleteCascade_get.mpr ⟨hq, hpd⟩, hc⟩
  files := by
    intro x r hx p hpx
    obtain ⟨hx, hfo, -⟩ := deleteCascade_getFile.mp hx
    obtain ⟨q, hq, hd⟩ := hp.files x r hx p hpx
    exact ⟨q, deleteCascade_get.mpr ⟨hq, hfo p hpx⟩, hd⟩

/-! ### New rows -/

theorem HasFolder.not_mem (h : t.folders.get id = none) (hr : t.folders.get f = some r) : f ≠ id := by
  rintro rfl
  rw [h] at hr
  cases hr

theorem Placed.addFolder (hp : t.Placed) {name : Text} {parent : Option FolderId} {drive : DriveId}
    (hid : t.folders.get id = none) (h : t.addFolder id name parent drive = some t')
    (hd : ∀ p q, parent = some p → t.folders.get p = some q → drive = q.driveId) : t'.Placed := by
  obtain ⟨new, hnew, rfl⟩ := map_eq_some_iff.mp h
  have hget : ∀ f r, t.folders.get f = some r → (t.folders.set id new).get f = some r := by
    intro f r hr
    rw [get_set_ne _ _ (HasFolder.not_mem hid hr), hr]
  constructor
  · intro f r hset
    rcases get_set_cases hset with ⟨rfl, rfl⟩ | ⟨hf, hset⟩
    · exact folderPlaced_of_computed hnew (fun p q _ hq => hget p q hq) hd
    · refine ⟨(hp.folders f r hset).root, fun p hpp => ?_⟩
      obtain ⟨q, hq, hc⟩ := (hp.folders f r hset).below p hpp
      exact ⟨q, hget p q hq, hc⟩
  · intro x r hx p hpx
    obtain ⟨q, hq, hdr⟩ := hp.files x r hx p hpx
    exact ⟨q, hget p q hq, hdr⟩

theorem Placed.setFile (hp : t.Placed) {x : FileId} {r : File} (h : t.FilePlaced r) :
    Placed { t with files := t.files.set x r } where
  folders f s hs := ⟨(hp.folders f s hs).root, (hp.folders f s hs).below⟩
  files := by
    intro y r' hy
    rcases get_set_cases hy with ⟨-, rfl⟩ | ⟨-, hy⟩
    · exact h
    · exact hp.files y r' hy

end Tree

end OxiCloud.Folders
