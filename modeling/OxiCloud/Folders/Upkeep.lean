import OxiCloud.Folders.Etags
import OxiCloud.Folders.Placement

/-! # What every statement keeps

`Marked t` says what the marks in the trash mean: a live row carries no mark, and the mark of a trashed
row is the folder it still stands in. A restored folder therefore returns to where it is, and the path
its trigger recomputes is the one it has (`restoreFolder_eq`).

A placed and marked database (`Sound`) stays so under every statement (`Sound.effect`) that is `Orderly`: no folder
is moved into its own subtree, and a new folder is inserted into the drive of its parent. -/

namespace OxiCloud.Folders

open Lib.Tables Lib.Forests Schema Option

namespace Tree

variable {t t' : Tree} {id f : FolderId} {x : FileId} {r old new : Folder} {n : ℕ}

/-- What the trash columns of a folder say. -/
structure FolderMarked (r : Folder) : Prop where
  live : r.isTrashed = false → r.originalParentId = none ∧ r.trashedAt = none
  mark : ∀ p, r.originalParentId = some p → r.parentId = some p

/-- What the trash columns of a file say. -/
structure FileMarked (r : File) : Prop where
  live : r.isTrashed = false → r.originalFolderId = none ∧ r.trashedAt = none
  mark : ∀ p, r.originalFolderId = some p → r.folderId = some p

/-- The marks of all rows. -/
structure Marked (t : Tree) : Prop where
  folders : ∀ f r, t.folders.get f = some r → FolderMarked r
  files : ∀ x r, t.files.get x = some r → FileMarked r

/-- Placed, with the right marks. -/
structure Sound (t : Tree) : Prop where
  placed : t.Placed
  marked : t.Marked

theorem sound_empty : empty.Sound :=
  ⟨placed_empty, ⟨fun _ _ h => absurd h (by simp [empty]), fun _ _ h => absurd h (by simp [empty])⟩⟩

/-! ### Commits -/

theorem commit_ok {s : Tree} {m : ℕ} (h : s.commit n = .ok (m, t')) :
    m = n ∧ t' = s ∧ s.UniqueNames ∧ s.References := by
  rw [commit] at h
  split_ifs at h with hu hr
  · cases h
    exact ⟨rfl, rfl, hu, hr⟩

theorem commitSome_ok {o : Option Tree} {m : ℕ} (h : commitSome n o = .ok (m, t')) :
    m = n ∧ o = some t' ∧ t'.UniqueNames ∧ t'.References := by
  cases o with
  | none => cases h
  | some s =>
    obtain ⟨h1, rfl, h3⟩ := commit_ok h
    exact ⟨h1, rfl, h3⟩

/-! ### Folders -/

theorem relink_eq (hp : t.Placed) (hold : t.folders.get id = some old) (g : Folder → Folder) :
    t.relink id old g = (t.computeFolderPath id (g old)).map (t.moved id old) := by
  rw [relink]
  cases hc : t.computeFolderPath id (g old) with
  | none => rfl
  | some new =>
    exact cascade_eq hp hold (mem_computeFolderPath hc)

variable {name : Text} {parent : Option FolderId} {p : FolderId} {d : DriveId}
  {fs : List (FolderId × FolderId)}

theorem relinked_ok {g : Folder → Folder} (hp : t.Placed) (h : (match t.folders.get id with
      | none => Except.ok (0, t)
      | some r => if r.isTrashed then .ok (0, t) else commitSome 1 (t.relink id r g)) = .ok (n, t')) :
    n = 0 ∧ t' = t ∨ n = 1 ∧ ∃ old new, t.folders.get id = some old ∧ old.isTrashed = false ∧
      t.computeFolderPath id (g old) = some new ∧ t'.References ∧ t' = t.moved id old new := by
  cases hold : t.folders.get id with
  | none => rw [hold] at h; cases h; exact .inl ⟨rfl, rfl⟩
  | some old =>
    simp only [hold] at h
    split_ifs at h with ht
    · cases h; exact .inl ⟨rfl, rfl⟩
    · obtain ⟨hn, h, -, href⟩ := commitSome_ok h
      rw [relink_eq hp hold] at h
      obtain ⟨new, hnew, rfl⟩ := map_eq_some_iff.mp h
      exact .inr ⟨hn, old, new, rfl, by simpa using ht, hnew, href, rfl⟩

/-- The row `moveFolder` gives to the folder, before the path is computed. -/
def movedRow (t : Tree) (parent : Option FolderId) (r : Folder) : Folder :=
  { r with
    parentId := parent
    driveId := ((parent.bind t.folders.get).map Folder.driveId).getD r.driveId
    updatedAt := t.now }

theorem movedRow_drive {q : Folder} (hpar : parent = some p) (hq : t.folders.get p = some q) :
    (t.movedRow parent r).driveId = q.driveId := by
  simp [movedRow, hpar, hq]

/-! ### Trashing and restoring -/

theorem trashFolder_ok (h : t.trashFolder id = .ok (n, t')) :
    n = 0 ∧ t' = t ∨ n = 1 ∧ ∃ root, t.folders.get id = some root ∧ root.isTrashed = false ∧
      t' = t.trashSubtree id root.lpath := by
  rw [trashFolder] at h
  cases hold : t.folders.get id with
  | none => rw [hold] at h; cases h; exact .inl ⟨rfl, rfl⟩
  | some root =>
    simp only [hold] at h
    split_ifs at h with ht
    · cases h; exact .inl ⟨rfl, rfl⟩
    · obtain ⟨hn, h, -⟩ := commit_ok h
      exact .inr ⟨hn, root, rfl, by simpa using ht, h⟩

/-- The row of a folder restored where it stands. -/
def restoredRow (now : ℕ) (r : Folder) : Folder := { r.restore now with originalParentId := none }

theorem restoreRoot_eq (hm : FolderMarked r) (now : ℕ) : r.restoreRoot now = restoredRow now r := by
  cases hmark : r.originalParentId with
  | none => simp [Folder.restoreRoot, restoredRow, Folder.restore, hmark]
  | some p => simp [Folder.restoreRoot, restoredRow, Folder.restore, hmark, hm.mark p hmark]

/-- The trigger recomputes the path a placed row already has. -/
theorem computeFolderPath_restoredRow (hp : t.FolderPlaced id old) (now : ℕ) :
    t.computeFolderPath id (restoredRow now old) = some (restoredRow now old) := by
  rw [computeFolderPath]
  cases hpar : old.parentId with
  | none =>
    have h := hp.root hpar
    simp [restoredRow, Folder.restore, hpar, h]
  | some p =>
    obtain ⟨q, hq, hc⟩ := hp.below p hpar
    simp [restoredRow, Folder.restore, hpar, hq, hc.path, hc.lpath]

/-- **A folder is restored where it stands.** -/
theorem restoreFolder_eq (hs : t.Sound) (hold : t.folders.get id = some old)
    (ht : old.isTrashed = true) :
    t.restoreFolder id = commit 1 (t.restoreSubtree id (restoredRow t.now old)) := by
  have hrow := hs.placed.folders id old hold
  have hcomp : t.computeFolderPath id (old.restoreRoot t.now) = some (restoredRow t.now old) := by
    rw [restoreRoot_eq (hs.marked.folders id old hold), computeFolderPath_restoredRow hrow]
  have hcasc : (t.restoreSubtree id (restoredRow t.now old)).cascadeFolderPath id old
      (restoredRow t.now old) = some (t.restoreSubtree id (restoredRow t.now old)) := by
    simp [cascadeFolderPath, cascadeDrives, restoredRow, Folder.restore]
  simp only [restoreFolder, hold, ht, if_true, hcomp, bind_some, hcasc, commitSome]

theorem restoreFolder_ok (hs : t.Sound) (h : t.restoreFolder id = .ok (n, t')) :
    n = 0 ∧ t' = t ∨ n = 1 ∧ ∃ old, t.folders.get id = some old ∧ old.isTrashed = true ∧
      t' = t.restoreSubtree id (restoredRow t.now old) := by
  cases hold : t.folders.get id with
  | none => rw [restoreFolder, hold] at h; cases h; exact .inl ⟨rfl, rfl⟩
  | some old =>
    by_cases ht : old.isTrashed = true
    · rw [restoreFolder_eq hs hold ht] at h
      exact .inr ⟨(commit_ok h).1, old, rfl, ht, (commit_ok h).2.1⟩
    · rw [restoreFolder, hold] at h
      simp only [ht] at h
      cases h
      exact .inl ⟨rfl, rfl⟩

/-- Rows rewritten in place, each standing where it stood. -/
theorem samePlaces_modify {g : FolderId → Folder → Folder} {k : FileId → File → File}
    (hg : ∀ f r, t.folders.get f = some r → place (g f r) = place r)
    (hk : ∀ x r, filePlace (k x r) = filePlace r) :
    t.SamePlaces { t with folders := t.folders.modify g, files := t.files.modify k } where
  folders := by
    intro f
    show ((t.folders.get f).map (g f)).map place = _
    cases hr : t.folders.get f with
    | none => rfl
    | some r => rw [map_some, map_some, map_some, hg f r hr]
  files := by
    intro x r' hx
    obtain ⟨r, hr, rfl⟩ := map_eq_some_iff.mp hx
    exact ⟨r, hr, hk x r⟩

theorem samePlaces_trash (t : Tree) (id : FolderId) (l : LPath) :
    t.SamePlaces (t.trashSubtree id l) := by
  refine samePlaces_modify (fun f r _ => ?_) fun x r => ?_
  · split_ifs <;> rfl
  · split_ifs <;> rfl

theorem samePlaces_restore (hold : t.folders.get id = some old) (now : ℕ) :
    t.SamePlaces (t.restoreSubtree id (restoredRow now old)) := by
  refine samePlaces_modify (fun f r hr => ?_) fun x r => ?_
  · split_ifs with hf
    · subst hf
      obtain rfl : old = r := mem_unique hold hr
      rfl
    · rfl
    · rfl
  · split_ifs <;> rfl

/-! ### Marks -/

namespace Marked

section

variable (hm : t.Marked)
include hm

theorem modify {g : FolderId → Folder → Folder} {k : FileId → File → File}
    (hg : ∀ f r, t.folders.get f = some r → FolderMarked r → FolderMarked (g f r))
    (hk : ∀ x r, FileMarked r → FileMarked (k x r)) :
    Marked { t with folders := t.folders.modify g, files := t.files.modify k } where
  folders := by
    intro f r' hr'
    obtain ⟨r, hr, rfl⟩ := map_eq_some_iff.mp hr'
    exact hg f r hr (hm.folders f r hr)
  files := by
    intro x r' hx
    obtain ⟨r, hr, rfl⟩ := map_eq_some_iff.mp hx
    exact hk x r (hm.files x r hr)

theorem trash (l : LPath) : (t.trashSubtree id l).Marked := by
  refine hm.modify (fun f r _ h => ?_) fun x r h => ?_
  · split_ifs with hf hc
    · exact ⟨fun h0 => absurd h0 (by simp [Folder.trash]), fun p hp => hp⟩
    · exact ⟨fun h0 => absurd h0 (by simp [Folder.trash]), h.mark⟩
    · exact h
  · split_ifs
    · exact ⟨fun h0 => absurd h0 (by simp [File.trash]), h.mark⟩
    · exact h

theorem restore : (t.restoreSubtree id (restoredRow n old)).Marked := by
  refine hm.modify (fun f r _ h => ?_) fun x r h => ?_
  · split_ifs with hf hc
    · exact ⟨fun _ => ⟨rfl, rfl⟩, fun p hp => absurd hp (by simp [restoredRow])⟩
    · exact ⟨fun _ => ⟨hc.2.2, rfl⟩, h.mark⟩
    · exact h
  · split_ifs with hc
    · exact ⟨fun _ => ⟨hc.2.2, rfl⟩, h.mark⟩
    · exact h

/-- A live folder that is moved stays without mark; what is carried along keeps parent and mark. -/
theorem moved (hn : FolderMarked new) : (t.moved id old new).Marked := by
  refine hm.modify (fun f r _ h => ?_) fun x r h => ?_
  · split_ifs
    · exact hn
    · exact ⟨h.live, h.mark⟩
    · exact h
  · split_ifs
    · exact ⟨h.live, h.mark⟩
    · exact h

theorem setFolder (hn : FolderMarked new) : Marked { t with folders := t.folders.set id new } where
  folders := by
    intro f r hr
    rcases Table.get_set_cases hr with ⟨-, rfl⟩ | ⟨-, hr⟩
    · exact hn
    · exact hm.folders f r hr
  files := hm.files

theorem setFile {r : File} (hn : FileMarked r) : Marked { t with files := t.files.set x r } where
  folders := hm.folders
  files := by
    intro y r' hy
    rcases Table.get_set_cases hy with ⟨-, rfl⟩ | ⟨-, hy⟩
    · exact hn
    · exact hm.files y r' hy

theorem deleteCascade (S : Finset FolderId) : (t.deleteCascade S).Marked where
  folders f r hr := hm.folders f r (deleteCascade_get.mp hr).1
  files x r hx := hm.files x r (deleteCascade_getFile.mp hx).1

end

end Marked

/-- A row without parent trigger is marked as before. -/
theorem marked_computeFolderPath {s : Folder} (h : t.computeFolderPath id s = some new)
    (hs : s.isTrashed = false ∧ s.originalParentId = none ∧ s.trashedAt = none) : FolderMarked new := by
  obtain ⟨h1, h2, h3⟩ := hs
  rcases computeFolderPath_cases h with ⟨-, rfl⟩ | ⟨p, q, -, -, rfl⟩
  · exact ⟨fun _ => ⟨h2, h3⟩, fun p hp => absurd (h2.symm.trans hp) (by simp)⟩
  · exact ⟨fun _ => ⟨h2, h3⟩, fun p hp => absurd (h2.symm.trans hp) (by simp)⟩

theorem Sound.deleteFiles (hs : t.Sound) {xs : Table FileId File}
    (h : ∀ x r, xs.get x = some r → t.files.get x = some r) : Sound { t with files := xs } where
  placed := ⟨fun f r hr => ⟨(hs.placed.folders f r hr).root, (hs.placed.folders f r hr).below⟩,
    fun x r hx => hs.placed.files x r (h x r hx)⟩
  marked := ⟨hs.marked.folders, fun x r hx => hs.marked.files x r (h x r hx)⟩

theorem Sound.deleteCascade (hs : t.Sound) {S : Finset FolderId} (hS : S ⊆ t.folders.keys) :
    (t.deleteCascade S).Sound :=
  ⟨hs.placed.deleteCascade hS, hs.marked.deleteCascade S⟩

theorem Sound.setFile (hs : t.Sound) {r : File} (h : t.FilePlaced r) (hm : FileMarked r) :
    Sound { t with files := t.files.set x r } :=
  ⟨hs.placed.setFile h, hs.marked.setFile hm⟩

/-! ### Copying a tree -/

/-- The tables while the folders of a subtree of `t₀` are copied, the copies being among `news`. -/
structure Copying (t₀ : Tree) (target : Option FolderId) (drive : DriveId) (news : List FolderId)
    (t : Tree) : Prop where
  sound : t.Sound
  now : t.now = t₀.now
  drives : t.drives = t₀.drives
  files : t.files = t₀.files
  old : ∀ f, f ∉ news → t.folders.get f = t₀.folders.get f
  new : ∀ f ∈ news, ∀ r, t.folders.get f = some r → r.driveId = drive ∧ r.isTrashed = false ∧
    ∀ p, r.parentId = some p → p ∈ news ∨ target = some p

theorem mem_of_lookup {a b : FolderId} (h : fs.lookup a = some b) : b ∈ fs.map Prod.snd := by
  rw [List.lookup_eq_some_iff] at h
  obtain ⟨l₁, l₂, rfl, -⟩ := h
  simp

variable {t₀ : Tree} {target : Option FolderId} {drive : DriveId} {news : List FolderId}

theorem Copying.addFolder (h : Copying t₀ target drive news t)
    (hid : id ∈ news) (hfree : t.folders.get id = none) (htarget : ∀ p, target = some p → p ∉ news ∧
      ∀ q, t₀.folders.get p = some q → q.driveId = drive)
    (hpar : ∀ p, parent = some p → p ∈ news ∨ target = some p)
    (hadd : t.addFolder id name parent drive = some t') : Copying t₀ target drive news t' := by
  have hdrive : ∀ p q, parent = some p → t.folders.get p = some q → drive = q.driveId := by
    intro p q hp hq
    rcases hpar p hp with hn | htp
    · exact (h.new p hn q hq).1.symm
    · obtain ⟨hnot, hd⟩ := htarget p htp
      rw [h.old p hnot] at hq
      exact (hd q hq).symm
  have hplaced := h.sound.placed.addFolder hfree hadd hdrive
  obtain ⟨r, hr, rfl⟩ := map_eq_some_iff.mp hadd
  have hmarked := marked_computeFolderPath hr ⟨rfl, rfl, rfl⟩
  refine ⟨⟨hplaced, h.sound.marked.setFolder hmarked⟩, h.now, h.drives, h.files, ?_, ?_⟩
  · intro f hf
    have hne : f ≠ id := by rintro rfl; exact hf hid
    exact (Table.get_set_ne _ _ hne).trans (h.old f hf)
  · intro f hf r' hr'
    rcases Table.get_set_cases hr' with ⟨-, rfl⟩ | ⟨-, hr'⟩
    · rcases computeFolderPath_cases hr with ⟨hp, rfl⟩ | ⟨p, q, hp, -, rfl⟩
      · exact ⟨rfl, rfl, fun p hp' => hpar p hp'⟩
      · exact ⟨rfl, rfl, fun p hp' => hpar p hp'⟩
    · exact h.new f hf r' hr'

variable {source : FolderId} {destName : Option Text}

theorem Copying.folders (htarget : ∀ p, target = some p → p ∉ fs.map Prod.snd ∧
      ∀ q, t₀.folders.get p = some q → q.driveId = drive) :
    ∀ {l : List (FolderId × FolderId)} {t t' : Tree}, Copying t₀ target drive (fs.map Prod.snd) t →
      (∀ c ∈ l, c ∈ fs ∧ t.folders.get c.2 = none) → (l.map Prod.snd).Nodup →
      l.foldlM (copyFolder fs source target destName drive) t = some t' →
      Copying t₀ target drive (fs.map Prod.snd) t'
  | [], t, t', h, _, _, hf => by
    obtain rfl : t = t' := Option.some.inj hf
    exact h
  | c :: l, t, t', h, hl, hnd, hf => by
    obtain ⟨t₁, h1, h2⟩ := bind_eq_some_iff.mp ((List.foldlM_cons ..).symm.trans hf)
    obtain ⟨r, hr, hadd⟩ := bind_eq_some_iff.mp h1
    obtain ⟨hc, hfree⟩ := hl c (List.mem_cons_self ..)
    obtain ⟨hnc, hnd⟩ := List.nodup_cons.mp hnd
    have hpar : ∀ p, (if c.1 = source then target else r.parentId.bind fun p => fs.lookup p) = some p →
        p ∈ fs.map Prod.snd ∨ target = some p := by
      intro p hp
      split_ifs at hp
      · exact .inr hp
      · obtain ⟨o, -, ho⟩ := bind_eq_some_iff.mp hp
        exact .inl (mem_of_lookup ho)
    have h' := h.addFolder (List.mem_map_of_mem hc) hfree htarget hpar hadd
    refine Copying.folders htarget h' (fun c' hc' => ?_) hnd h2
    refine ⟨(hl c' (List.mem_cons_of_mem _ hc')).1, ?_⟩
    have hne : c'.2 ≠ c.2 := fun he => hnc (he ▸ List.mem_map_of_mem hc')
    obtain ⟨r', -, rfl⟩ := map_eq_some_iff.mp hadd
    exact (Table.get_set_ne _ _ hne).trans (hl c' (List.mem_cons_of_mem _ hc')).2

/-- The copies of the files are live files in the new folders. -/
theorem copyFileRows :
    ∀ {l : List (FileId × FileId)} {t t' : Tree}, l.foldlM (copyFileRow fs drive) t = some t' →
      t'.now = t.now ∧ t'.folders = t.folders ∧ t'.drives = t.drives ∧
      ∀ x r, t'.files.get x = some r → t.files.get x = some r ∨
        (r.driveId = drive ∧ r.isTrashed = false ∧ FileMarked r ∧
          ∃ p ∈ fs.map Prod.snd, r.folderId = some p)
  | [], t, t', hf => by
    obtain rfl : t = t' := Option.some.inj hf
    exact ⟨rfl, rfl, rfl, fun _ _ h => .inl h⟩
  | c :: l, t, t', hf => by
    obtain ⟨t₁, h1, h2⟩ := bind_eq_some_iff.mp ((List.foldlM_cons ..).symm.trans hf)
    obtain ⟨src, -, hmap⟩ := bind_eq_some_iff.mp h1
    obtain ⟨p, hp, rfl⟩ := map_eq_some_iff.mp hmap
    obtain ⟨o, -, ho⟩ := bind_eq_some_iff.mp hp
    obtain ⟨g1, g2, g3, g4⟩ := copyFileRows h2
    refine ⟨g1, g2, g3, fun x r hx => ?_⟩
    rcases g4 x r hx with hx | hx
    · rcases Table.get_set_cases hx with ⟨-, rfl⟩ | ⟨-, hx⟩
      · exact .inr ⟨rfl, rfl, ⟨fun _ => ⟨rfl, rfl⟩, fun _ h => absurd h (by simp)⟩,
          p, mem_of_lookup ho, rfl⟩
      · exact .inl hx
    · exact .inr hx

/-- A destination that is not in the trash, or none. -/
theorem copyFolderTree_ok {xs : List (FileId × FileId)}
    (h : t.copyFolderTree fs xs source target destName = .ok (n, t')) :
    ∃ root drive t₁, t.folders.get source = some root ∧ root.isTrashed = false ∧
      t.CopyPlan root fs xs ∧ t'.References ∧
      (∀ p, target = some p → ∃ q, t.folders.get p = some q ∧ q.isTrashed = false ∧
        q.driveId = drive) ∧
      fs.foldlM (copyFolder fs source target destName drive) t = some t₁ ∧
      xs.foldlM (copyFileRow fs drive) t₁ = some t' := by
  rw [copyFolderTree] at h
  cases hroot : (t.folders.get source).filter fun r => !r.isTrashed with
  | none => rw [hroot] at h; cases h
  | some root =>
    simp only [hroot] at h
    obtain ⟨hget, hlive⟩ := filter_eq_some_iff.mp hroot
    have key : ∀ drive, (if t.CopyPlan root fs xs then
        commitSome 1 ((fs.foldlM (copyFolder fs source target destName drive) t).bind
          (xs.foldlM (copyFileRow fs drive))) else .error .other) = .ok (n, t') →
        ∃ t₁, t.CopyPlan root fs xs ∧ t'.References ∧
          fs.foldlM (copyFolder fs source target destName drive) t = some t₁ ∧
          xs.foldlM (copyFileRow fs drive) t₁ = some t' := by
      intro drive hk
      split_ifs at hk with hplan
      obtain ⟨-, hb, -, href⟩ := commitSome_ok hk
      obtain ⟨t₁, h1, h2⟩ := bind_eq_some_iff.mp hb
      exact ⟨t₁, hplan, href, h1, h2⟩
    cases target with
    | none =>
      obtain ⟨t₁, hplan, href, h1, h2⟩ := key _ h
      exact ⟨root, _, t₁, hget, by simpa using hlive, hplan, href, fun _ h0 => (by cases h0), h1, h2⟩
    | some p =>
      cases hq : (t.folders.get p).filter fun r => !r.isTrashed with
      | none => simp only [hq, map_none] at h; cases h
      | some q =>
        simp only [hq, map_some] at h
        obtain ⟨t₁, hplan, href, h1, h2⟩ := key _ h
        obtain ⟨hgetq, hliveq⟩ := filter_eq_some_iff.mp hq
        refine ⟨root, _, t₁, hget, by simpa using hlive, hplan, href, fun p' hp' => ?_, h1, h2⟩
        cases hp'
        exact ⟨q, hgetq, by simpa using hliveq, rfl⟩

/-- What a copy adds: live folders below the target or below each other, with live files in them. -/
structure CopiedOK (t : Tree) (target : Option FolderId) (drive : DriveId) (news : List FolderId)
    (t₁ t' : Tree) : Prop where
  copying : Copying t target drive news t₁
  now : t'.now = t.now
  folders : t'.folders = t₁.folders
  drives : t'.drives = t.drives
  files : ∀ x r, t'.files.get x = some r → t.files.get x = some r ∨
    (r.driveId = drive ∧ r.isTrashed = false ∧ FileMarked r ∧ ∃ p ∈ news, r.folderId = some p)
  fresh : ∀ f ∈ news, t.folders.get f = none
  target : ∀ p, target = some p → ∃ q, t.folders.get p = some q ∧ q.isTrashed = false ∧
    q.driveId = drive
  refs : t'.References

theorem CopiedOK.get (hc : CopiedOK t target drive news t₁ t') (hf : id ∉ news) :
    t'.folders.get id = t.folders.get id := by
  rw [hc.folders, hc.copying.old id hf]

theorem copiedOK (hs : t.Sound) {xs : List (FileId × FileId)}
    (h : t.copyFolderTree fs xs source target destName = .ok (n, t')) :
    ∃ drive t₁, CopiedOK t target drive (fs.map Prod.snd) t₁ t' := by
  obtain ⟨root, drive, t₁, -, -, hplan, href, htarget, h1, h2⟩ := copyFolderTree_ok h
  have hfresh : ∀ f ∈ fs.map Prod.snd, t.folders.get f = none := by
    intro f hf
    have hk := hplan.foldersNew.2 f hf
    rw [t.folders.mem_keys, isSome_iff_ne_none, ne_eq, not_not] at hk
    exact hk
  have htarget' : ∀ p, target = some p → p ∉ fs.map Prod.snd ∧
      ∀ q, t.folders.get p = some q → q.driveId = drive := by
    intro p hp
    obtain ⟨q, hq, -, hd⟩ := htarget p hp
    refine ⟨fun hmem => ?_, fun q' hq' => ?_⟩
    · rw [hfresh p hmem] at hq
      cases hq
    · rw [← mem_unique hq hq', hd]
  have hstart : Copying t target drive (fs.map Prod.snd) t :=
    ⟨hs, rfl, rfl, rfl, fun _ _ => rfl, fun f hf r hr => by rw [hfresh f hf] at hr; cases hr⟩
  have hcopy := Copying.folders htarget' hstart
    (fun c hc => ⟨hc, hfresh c.2 (List.mem_map_of_mem hc)⟩) hplan.foldersNew.1 h1
  obtain ⟨g1, g2, g3, g4⟩ := copyFileRows h2
  refine ⟨drive, t₁, hcopy, g1.trans hcopy.now, g2, g3.trans hcopy.drives, fun x r hx => ?_, hfresh,
    htarget, href⟩
  rw [← hcopy.files]
  exact g4 x r hx

/-- **A copied tree is sound.** -/
theorem CopiedOK.sound (h : CopiedOK t target drive news t₀ t') : t'.Sound := by
  have hget : ∀ f, t'.folders.get f = t₀.folders.get f := fun f => by rw [h.folders]
  refine ⟨⟨fun f r hr => ?_, fun x r hx p hp => ?_⟩, ⟨fun f r hr => ?_, fun x r hx => ?_⟩⟩
  · have hpl := h.copying.sound.placed.folders f r ((hget f).symm.trans hr)
    exact ⟨hpl.root, fun p hp => by rw [hget]; exact hpl.below p hp⟩
  · rcases h.files x r hx with hx' | ⟨hd, -, -, p', hp', hfo⟩
    · rw [← h.copying.files] at hx'
      rw [hget]
      exact h.copying.sound.placed.files x r hx' p hp
    · obtain rfl : p = p' := mem_unique hp hfo
      -- the foreign key says that the new folder is there
      obtain ⟨q, hq⟩ := isSome_iff_exists.mp ((h.refs.2.1 x r hx).1 p hp)
      rw [hget] at hq ⊢
      exact ⟨q, hq, hd.trans (h.copying.new p hp' q hq).1.symm⟩
  · exact h.copying.sound.marked.folders f r ((hget f).symm.trans hr)
  · rcases h.files x r hx with hx' | ⟨-, -, hm, -⟩
    · rw [← h.copying.files] at hx'
      exact h.copying.sound.marked.files x r hx'
    · exact hm

/-! ### What a statement can do -/

/-- The statement rewrites the content of a file or deletes files. -/
def plain : Op → Bool
  | .renameFile _ _ | .swapBlobHash _ _ _ _ | .deleteFolderFiles _ | .deleteFile _ | .clearFiles _
  | .expireFiles _ => true
  | _ => false

/-- **What a statement that succeeds on sound tables has done**, with the number of rows it reports. -/
inductive Change (t : Tree) (ch : Draw) : Op → ℕ → Tree → Prop where
  | nothing {op : Op} : Change t ch op 0 t
  | tick {secs : ℕ} : Change t ch (.tick secs) 0 { t with now := t.now + secs }
  | createDrive {name : Text} {d : DriveId} {id : FolderId} (hd : t.drives.get d = none)
      (hid : t.folders.get id = none) : Change t ch (.createDrive name) 1
        { t with
          drives := t.drives.set d ⟨some id, false, false⟩
          folders := t.folders.set id ⟨name, none, d, name, [id], false, none, none, t.now⟩ }
  | insertFolder {name : Text} {p id : FolderId} {d : DriveId} {t' : Tree}
      (hid : t.folders.get id = none) (hadd : t.addFolder id name (some p) d = some t') :
      Change t ch (.insertFolder name p d) 1 t'
  | renameFolder {id : FolderId} {name : Text} {old new : Folder}
      (hold : t.folders.get id = some old) (hl : old.isTrashed = false)
      (hnew : t.computeFolderPath id { old with name := name, updatedAt := t.now } = some new) :
      Change t ch (.renameFolder id name) 1 (t.moved id old new)
  | moveFolder {id : FolderId} {parent : Option FolderId} {old new : Folder}
      (hold : t.folders.get id = some old) (hl : old.isTrashed = false)
      (hnew : t.computeFolderPath id (t.movedRow parent old) = some new)
      (href : (t.moved id old new).References) :
      Change t ch (.moveFolder id parent) 1 (t.moved id old new)
  | trashFolder {id : FolderId} {root : Folder} (hroot : t.folders.get id = some root)
      (hl : root.isTrashed = false) : Change t ch (.trashFolder id) 1 (t.trashSubtree id root.lpath)
  | restoreFolder {id : FolderId} {old : Folder} (hold : t.folders.get id = some old)
      (ht : old.isTrashed = true) :
      Change t ch (.restoreFolder id) 1 (t.restoreSubtree id (restoredRow t.now old))
  | copyTree {source : FolderId} {target : Option FolderId} {destName : Option Text} {drive : DriveId}
      {news : List FolderId} {t₁ t' : Tree} {n : ℕ} (hc : CopiedOK t target drive news t₁ t') :
      Change t ch (.copyFolderTree source target destName) n t'
  | insertFile {name hash : Text} {p : FolderId} {q : Folder} {size : ℕ} {x : FileId}
      (hq : t.folders.get p = some q) :
      Change t ch (.insertFile name p hash size) 1 (t.addFile x name p q.driveId hash size)
  | copyFile {x y : FileId} {target : Option FolderId} {name : Option Text} {src : File} {p : FolderId}
      {q : Folder} (hx : t.files.get x = some src) (hl : src.isTrashed = false)
      (hp : (target <|> src.folderId) = some p) (hq : t.folders.get p = some q) :
      Change t ch (.copyFile x target name) 1
        (t.addFile y (name.getD src.name) p q.driveId src.blobHash src.size)
  | content {op : Op} {x : FileId} {r : File} {name hash : Text} {size m : ℕ} (hop : plain op = true)
      (hr : t.files.get x = some r) : Change t ch op 1
        { t with
          files := t.files.set x { r with name := name, blobHash := hash, size := size, updatedAt := m } }
  | moveFile {x : FileId} {target : Option FolderId} {r : File} (hr : t.files.get x = some r)
      (hl : r.isTrashed = false) (hq : ∀ q, target = some q → t.HasFolder q) :
      Change t ch (.moveFile x target) 1
        { t with
          files := t.files.set x { r with
            folderId := target
            driveId := ((target.bind t.folders.get).map Folder.driveId).getD r.driveId
            updatedAt := t.now } }
  | trashFile {x : FileId} {r : File} (hr : t.files.get x = some r) (hl : r.isTrashed = false) :
      Change t ch (.trashFile x) 1
        { t with files := t.files.set x { r.trash t.now with originalFolderId := r.folderId } }
  | restoreFile {x : FileId} {r : File} (hr : t.files.get x = some r) (ht : r.isTrashed = true) :
      Change t ch (.restoreFile x) 1
        { t with files := t.files.set x { r.restore t.now with originalFolderId := none } }
  | deleteFiles {op : Op} {n : ℕ} (hop : plain op = true) (xs : Table FileId File)
      (h : ∀ x r, xs.get x = some r → t.files.get x = some r) : Change t ch op n { t with files := xs }
  | deleteFolders {op : Op} {n : ℕ} {S : Finset FolderId} (hop : Database.cascades op = true)
      (hS : S ⊆ t.folders.keys) (hdel : Database.deletedFolders op ch t = S) :
      Change t ch op n (t.deleteCascade S)

section Changes
variable {ch : Draw}

theorem createDrive_change (h : t.createDrive d id name = .ok (n, t')) :
    Change t ch (.createDrive name) n t' := by
  rw [createDrive] at h
  split_ifs at h with hc
  simp only [isSome_iff_ne_none, ne_eq, not_or, not_not] at hc
  obtain ⟨rfl, rfl, -⟩ := commit_ok h
  exact .createDrive hc.1 hc.2

theorem insertFolder_change (h : t.insertFolder id name p d = .ok (n, t')) :
    Change t ch (.insertFolder name p d) n t' := by
  rw [insertFolder] at h
  split_ifs at h with hc
  obtain ⟨rfl, hadd, -⟩ := commitSome_ok h
  exact .insertFolder (by simpa using hc) hadd

theorem insertFile_change {hash : Text} {size : ℕ}
    (h : t.insertFile x name p hash size = .ok (n, t')) :
    Change t ch (.insertFile name p hash size) n t' := by
  rw [insertFile] at h
  cases hq : t.folders.get p with
  | none => rw [hq] at h; cases h; exact .nothing
  | some q =>
    simp only [hq] at h
    split_ifs at h
    obtain ⟨rfl, rfl, -⟩ := commit_ok h
    exact .insertFile hq

theorem copyFile_change {y : FileId} {name : Option Text}
    (h : t.copyFile y x target name = .ok (n, t')) : Change t ch (.copyFile x target name) n t' := by
  rw [copyFile] at h
  cases hsrc : t.files.get x with
  | none => rw [hsrc] at h; cases h; exact .nothing
  | some src =>
    simp only [hsrc] at h
    by_cases ht : src.isTrashed = true
    · rw [if_pos ht] at h; cases h; exact .nothing
    · rw [if_neg ht] at h
      cases hdest : (target <|> src.folderId) with
      | none => rw [hdest] at h; cases h; exact .nothing
      | some p =>
        cases hq : t.folders.get p with
        | none =>
          simp only [hdest, bind_some, hq, map_none] at h
          cases h
          exact .nothing
        | some q =>
          simp only [hdest, bind_some, hq, map_some] at h
          split_ifs at h
          obtain ⟨rfl, rfl, -⟩ := commit_ok h
          exact .copyFile hsrc (by simpa using ht) hdest hq

theorem updateFile_ok {p : File → Bool} {g : File → File} (h : t.updateFile x p g = .ok (n, t')) :
    n = 0 ∧ t' = t ∨ n = 1 ∧ ∃ r, t.files.get x = some r ∧ p r = true ∧
      (∀ q, (g r).folderId = some q → t.HasFolder q) ∧
      t' = { t with files := t.files.set x (g r) } := by
  rw [updateFile] at h
  cases hr : t.files.get x with
  | none => rw [hr] at h; cases h; exact .inl ⟨rfl, rfl⟩
  | some r =>
    simp only [hr] at h
    split_ifs at h with hc
    · obtain ⟨hn, rfl, -, href⟩ := commit_ok h
      refine .inr ⟨hn, r, rfl, hc, fun q hq => ?_, rfl⟩
      exact isSome_iff_exists.mp ((href.2.1 x (g r) (Table.get_set_self ..)).1 q hq)
    · cases h; exact .inl ⟨rfl, rfl⟩

theorem sat_subset_keys (p : FolderId → Folder → Bool) : t.folders.sat p ⊆ t.folders.keys :=
  Finset.filter_subset _ _

theorem expireFolders_ok {pick : Finset FolderId} {cutoff : ℕ}
    (h : t.expireFolders pick cutoff = .ok (n, t')) :
    pick ⊆ (t.folders.sat fun _ r => t.folderExpired cutoff r) ∧ t' = t.deleteCascade pick := by
  rw [expireFolders] at h
  split_ifs at h with hb
  cases h
  exact ⟨hb.1, rfl⟩

theorem expireFiles_ok {pick : Finset FileId} {cutoff : ℕ}
    (h : t.expireFiles pick cutoff = .ok (n, t')) :
    pick ⊆ (t.files.sat fun _ r => t.fileExpired cutoff r) ∧
      t' = { t with files := t.files.filter fun x _ => x ∉ pick } := by
  rw [expireFiles] at h
  split_ifs at h with hb
  cases h
  exact ⟨hb.1, rfl⟩

theorem filtered_files {p : FileId → File → Bool} :
    ∀ x r, (t.files.filter p).get x = some r → t.files.get x = some r :=
  fun _ _ h => (filter_eq_some_iff.mp h).1

theorem change_of_effect (hs : t.Sound) {op : Op} (h : t.effect op ch = .ok (n, t')) :
    Change t ch op n t' := by
  unfold Tree.effect at h
  split_ifs at h
  cases op with
  | tick secs => cases h; exact .tick
  | createDrive name => exact createDrive_change h
  | insertFolder name p d => exact insertFolder_change h
  | renameFolder id name =>
    obtain ⟨rfl, rfl⟩ | ⟨rfl, old, new, hold, hl, hnew, -, rfl⟩ := relinked_ok hs.placed h
    · exact .nothing
    · exact .renameFolder hold hl hnew
  | moveFolder id parent =>
    obtain ⟨rfl, rfl⟩ | ⟨rfl, old, new, hold, hl, hnew, href, rfl⟩ := relinked_ok hs.placed h
    · exact .nothing
    · exact .moveFolder hold hl hnew href
  | trashFolder id =>
    obtain ⟨rfl, rfl⟩ | ⟨rfl, root, hroot, hl, rfl⟩ := trashFolder_ok h
    · exact .nothing
    · exact .trashFolder hroot hl
  | restoreFolder id =>
    obtain ⟨rfl, rfl⟩ | ⟨rfl, old, hold, ht, rfl⟩ := restoreFolder_ok hs h
    · exact .nothing
    · exact .restoreFolder hold ht
  | copyFolderTree source target destName =>
    obtain ⟨drive, t₁, hc⟩ := copiedOK hs h
    exact .copyTree hc
  | insertFile name p hash size => exact insertFile_change h
  | copyFile id target name => exact copyFile_change h
  | renameFile id name =>
    obtain ⟨rfl, rfl⟩ | ⟨rfl, r, hr, -, -, rfl⟩ := updateFile_ok h
    · exact .nothing
    · exact .content rfl hr
  | moveFile id target =>
    obtain ⟨rfl, rfl⟩ | ⟨rfl, r, hr, hl, hq, rfl⟩ := updateFile_ok h
    · exact .nothing
    · exact .moveFile hr (by simpa using hl) hq
  | swapBlobHash id hash size expected =>
    obtain ⟨rfl, rfl⟩ | ⟨rfl, r, hr, -, -, rfl⟩ := updateFile_ok h
    · exact .nothing
    · split_ifs
      · exact .content rfl hr
      · exact .content rfl hr
  | trashFile id =>
    obtain ⟨rfl, rfl⟩ | ⟨rfl, r, hr, hl, -, rfl⟩ := updateFile_ok h
    · exact .nothing
    · exact .trashFile hr (by simpa using hl)
  | restoreFile id =>
    obtain ⟨rfl, rfl⟩ | ⟨rfl, r, hr, ht, -, rfl⟩ := updateFile_ok h
    · exact .nothing
    · -- the mark is the folder the file still stands in
      have hfo : (r.originalFolderId <|> r.folderId) = r.folderId := by
        rcases hmark : r.originalFolderId with _ | p
        · rfl
        · exact ((hs.marked.files id r hr).mark p hmark).symm
      rw [hfo]
      exact .restoreFile hr ht
  | deleteFolderFiles id =>
    obtain rfl : (t.deleteFolderFiles id).2 = t' := congrArg Prod.snd (Except.ok.inj h)
    rw [Tree.deleteFolderFiles]
    split
    · exact .deleteFiles rfl t.files fun _ _ h => h
    · exact .deleteFiles rfl _ filtered_files
  | deleteFolder id =>
    simp only [Tree.deleteFolder] at h
    split_ifs at h with hid <;> cases h
    · have hS : {id} ⊆ t.folders.keys := by simpa [t.folders.mem_keys] using hid
      exact .deleteFolders rfl hS (Finset.inter_eq_right.mpr hS)
    · exact .nothing
  | deleteFile id =>
    obtain rfl : (t.deleteFile id).2 = t' := congrArg Prod.snd (Except.ok.inj h)
    rw [Tree.deleteFile]
    split_ifs
    · refine .deleteFiles rfl _ fun y r hy => ?_
      rw [Table.get_erase] at hy
      split_ifs at hy
      exact hy
    · exact .deleteFiles rfl t.files fun _ _ h => h
  | clearFiles drives => cases h; exact .deleteFiles rfl _ filtered_files
  | clearFolders drives => cases h; exact .deleteFolders rfl (sat_subset_keys _) rfl
  | expireFiles cutoff =>
    obtain ⟨-, rfl⟩ := expireFiles_ok h
    exact .deleteFiles rfl _ filtered_files
  | expireFolders cutoff =>
    obtain ⟨hpick, rfl⟩ := expireFolders_ok h
    exact .deleteFolders rfl (hpick.trans (sat_subset_keys _)) rfl

end Changes

/-! ### All statements -/

/-- No folder is moved into its own subtree, and a new folder goes into the drive of its parent. -/
def Orderly (t : Tree) : Op → Prop
  | .moveFolder id (some p) => ¬ Climbs t.par p id
  | .insertFolder _ p d => ∀ q, t.folders.get p = some q → q.driveId = d
  | _ => True

theorem Orderly.not_climbs (ho : t.Orderly (.moveFolder id parent)) (hp : parent = some p) :
    ¬ Climbs t.par p id := by
  subst hp
  exact ho

section

variable (hs : t.Sound)
include hs

theorem Sound.renamed (hold : t.folders.get id = some old) (hl : old.isTrashed = false)
    (hnew : t.computeFolderPath id { old with name := name, updatedAt := n } = some new) :
    (t.moved id old new).Sound := by
  have hm := (hs.marked.folders id old hold).live hl
  refine ⟨hs.placed.moved hold hnew (fun p hp => ?_) (fun p q hp hq => ?_),
    hs.marked.moved (marked_computeFolderPath hnew ⟨hl, hm⟩)⟩
  · exact (hs.placed.rooted id).not_climbs ((par_of_get hold).trans hp)
  · obtain ⟨q', hq', hc⟩ := (hs.placed.folders id old hold).below p hp
    rw [mem_unique hq hq']
    exact hc.drive

omit hs in
variable (t id name d) in
theorem addFolder_root : t.addFolder id name none d = some { t with
    folders := t.folders.set id ⟨name, none, d, name, [id], false, none, none, t.now⟩ } := rfl

theorem Sound.createDrive (hid : t.folders.get id = none) : Sound { t with
      drives := t.drives.set d ⟨some id, false, false⟩
      folders := t.folders.set id ⟨name, none, d, name, [id], false, none, none, t.now⟩ } := by
  have hp := hs.placed.addFolder hid (addFolder_root t id name d) (fun _ _ h0 => by cases h0)
  exact ⟨⟨fun f r hr => ⟨(hp.folders f r hr).root, (hp.folders f r hr).below⟩, hp.files⟩,
    ⟨(hs.marked.setFolder ⟨fun _ => ⟨rfl, rfl⟩, fun _ h0 => by cases h0⟩).folders, hs.marked.files⟩⟩

theorem Sound.insertFolder (ho : t.Orderly (.insertFolder name p d))
    (hid : t.folders.get id = none) (hadd : t.addFolder id name (some p) d = some t') : t'.Sound := by
  have hd : ∀ p' q, some p = some p' → t.folders.get p' = some q → d = q.driveId := by
    intro p' q hp hq
    cases hp
    exact (ho q hq).symm
  have hp := hs.placed.addFolder hid hadd hd
  obtain ⟨r, hr, rfl⟩ := map_eq_some_iff.mp hadd
  exact ⟨hp, hs.marked.setFolder (marked_computeFolderPath hr ⟨rfl, rfl, rfl⟩)⟩

theorem Sound.addFile {hash : Text} {q : Folder} {size : ℕ} (hq : t.folders.get p = some q) :
    (t.addFile x name p q.driveId hash size).Sound := by
  refine hs.setFile (fun p' hp' => ?_) ⟨fun _ => ⟨rfl, rfl⟩, fun _ h0 => by cases h0⟩
  obtain rfl : p = p' := Option.some.inj hp'
  exact ⟨q, hq, rfl⟩

/-- **Every orderly statement keeps the database sound.** -/
theorem Sound.effect {op : Op} {ch : Draw} (ho : t.Orderly op) (h : t.effect op ch = .ok (n, t')) :
    t'.Sound := by
  cases change_of_effect hs h with
  | nothing => exact hs
  | tick =>
    exact ⟨⟨fun f r hr => ⟨(hs.placed.folders f r hr).root, (hs.placed.folders f r hr).below⟩,
      hs.placed.files⟩, ⟨hs.marked.folders, hs.marked.files⟩⟩
  | createDrive hd hid => exact hs.createDrive hid
  | insertFolder hid hadd => exact hs.insertFolder ho hid hadd
  | renameFolder hold hl hnew => exact hs.renamed hold hl hnew
  | @moveFolder id parent old new hold hl hnew href =>
    have hm := (hs.marked.folders id old hold).live hl
    exact ⟨hs.placed.moved hold hnew (fun p hp => ho.not_climbs hp) fun p q hp hq => movedRow_drive hp hq,
      hs.marked.moved (marked_computeFolderPath hnew ⟨hl, hm⟩)⟩
  | trashFolder => exact ⟨(samePlaces_trash ..).placed hs.placed, hs.marked.trash _⟩
  | restoreFolder hold => exact ⟨(samePlaces_restore hold _).placed hs.placed, hs.marked.restore⟩
  | copyTree hc => exact hc.sound
  | insertFile hq => exact hs.addFile hq
  | copyFile hx hl hp hq => exact hs.addFile hq
  | @content _ x r name hash size m _ hr =>
    have hm := hs.marked.files x r hr
    exact hs.setFile (fun q hq => hs.placed.files x r hr q hq) ⟨hm.live, hm.mark⟩
  | @moveFile x target r hr hl hq =>
    obtain ⟨h1, h2⟩ := (hs.marked.files x r hr).live hl
    refine hs.setFile (fun p hp => ?_) ⟨fun _ => ⟨h1, h2⟩, fun p hp => absurd (h1.symm.trans hp) (by simp)⟩
    obtain ⟨q, hq⟩ := hq p hp
    exact ⟨q, hq, by simp [show target = some p from hp, hq]⟩
  | @trashFile x r hr hl =>
    exact hs.setFile (fun p hp => hs.placed.files x r hr p hp) ⟨nofun, fun _ hp => hp⟩
  | @restoreFile x r hr ht =>
    exact hs.setFile (fun p hp => hs.placed.files x r hr p hp)
      ⟨fun _ => ⟨rfl, rfl⟩, fun _ h0 => by cases h0⟩
  | deleteFiles _ xs hxs => exact hs.deleteFiles hxs
  | deleteFolders _ hS => exact hs.deleteCascade hS

end

/-! ### Sequences of statements -/

instance (t : Tree) (op : Op) : Decidable (t.Orderly op) := by
  unfold Orderly
  split
  · infer_instance
  · exact decidable_of_iff (∀ q ∈ t.folders.get _, q.driveId = _) Iff.rfl
  · infer_instance

/-- The tables after a statement; one that fails leaves them as they are. -/
def perform (t : Tree) (s : Op × Draw) : Tree :=
  match t.effect s.1 s.2 with
  | .ok (_, t') => t'
  | .error _ => t

/-- Every statement of a sequence is orderly. -/
def OrderlyAll : List (Op × Draw) → Tree → Prop
  | [], _ => True
  | s :: l, t => t.Orderly s.1 ∧ OrderlyAll l (t.perform s)

instance decidableOrderlyAll : (l : List (Op × Draw)) → (t : Tree) → Decidable (OrderlyAll l t)
  | [], _ => .isTrue trivial
  | _ :: l, _ => @instDecidableAnd _ _ _ (decidableOrderlyAll l _)

theorem perform_cases (t : Tree) (s : Op × Draw) :
    t.perform s = t ∨ ∃ n, t.effect s.1 s.2 = .ok (n, t.perform s) := by
  cases h : t.effect s.1 s.2 with
  | error e => exact .inl (by rw [perform, h])
  | ok x => exact .inr ⟨x.1, by rw [perform, h]⟩

theorem Sound.perform (hs : t.Sound) {s : Op × Draw} (ho : t.Orderly s.1) : (t.perform s).Sound := by
  rcases perform_cases t s with h | ⟨n, h⟩
  · rwa [h]
  · exact hs.effect ho h

theorem Sound.performAll {l : List (Op × Draw)} (hs : t.Sound) (ho : OrderlyAll l t) :
    (l.foldl Tree.perform t).Sound := by
  induction l generalizing t with
  | nil => exact hs
  | cons s l ih => exact ih (hs.perform ho.1) ho.2

end Tree

end OxiCloud.Folders
