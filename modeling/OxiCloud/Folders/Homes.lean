import OxiCloud.Folders.Hidden

/-! # Homes and dates

What a deletion takes along is settled by two more properties of the tables.

* `Homed`: every folder lies below the root folder of its drive, so that the cascade from a deleted root
  to its drive and from the drive to the rows in it reaches nothing outside of the subtree; `Filed`:
  every file is in a folder, for the same reason.
* `Dated`: every trashed row says since when, and what is in a trashed folder has been in the trash for
  at least as long as the folder.

`Kept` collects them with `Sound` and `Covered`; every orderly and careful statement keeps it
(`Kept.effect`), unless it moves a file out of all folders. -/

namespace OxiCloud.Folders.Tree

open Lib.Tables Lib.Forests Lib.Cascades Schema Function

/-- Every folder lies below the root folder of its drive. -/
def Homed (t : Tree) : Prop :=
  ∀ f r, t.folders.get f = some r → ∃ d g, t.drives.get r.driveId = some d ∧
    d.rootFolderId = some g ∧ Climbs t.par f g

/-- Every file is in a folder. -/
def Filed (t : Tree) : Prop := ∀ x r, t.files.get x = some r → r.folderId ≠ none

/-- What the rows say about the time they went to the trash. -/
structure Dated (t : Tree) : Prop where
  folders : ∀ f r, t.folders.get f = some r → r.isTrashed = true → ∃ a, r.trashedAt = some a ∧ a ≤ t.now
  files : ∀ x r, t.files.get x = some r → r.isTrashed = true → ∃ a, r.trashedAt = some a ∧ a ≤ t.now
  folderAge : ∀ f r p q a b, t.folders.get f = some r → r.parentId = some p →
    t.folders.get p = some q → r.trashedAt = some a → q.trashedAt = some b → a ≤ b
  fileAge : ∀ x r p q a b, t.files.get x = some r → r.folderId = some p →
    t.folders.get p = some q → r.trashedAt = some a → q.trashedAt = some b → a ≤ b

variable {t t' : Tree} {id f : FolderId} {x : FileId} {r old new : Folder} {n : ℕ}

/-! ### Homes -/

theorem Homed.same (h : t.Homed) (hp : t'.par = t.par) (hd : t'.drives = t.drives)
    (hr : ∀ f r', t'.folders.get f = some r' → ∃ r, t.folders.get f = some r ∧ r'.driveId = r.driveId) :
    t'.Homed := by
  intro f r' hr'
  obtain ⟨r, hget, hdr⟩ := hr f r' hr'
  rw [hp, hd, hdr]
  exact h f r hget

theorem Homed.samePlaces (h : t.Homed) (hs : t.SamePlaces t') (hd : t'.drives = t.drives) : t'.Homed := by
  refine h.same hs.par_eq hd fun f r' hr' => ?_
  obtain ⟨r, hr, he⟩ := hs.get hr'
  simp only [place, Prod.mk.injEq] at he
  exact ⟨r, hr, he.2.2.1⟩

theorem Homed.sameFolders (h : t.Homed) (hf : t'.folders = t.folders) (hd : t'.drives = t.drives) :
    t'.Homed := by
  have hp : t'.par = t.par := by
    funext f
    rw [par, par, hf]
  exact h.same hp hd fun f r' hr' => ⟨r', hf ▸ hr', rfl⟩

/-- A folder is hung below another one, in whose drive it then is. -/
theorem Homed.moved {s : Folder} (hp : t.Placed) (h : t.Homed) (hold : t.folders.get id = some old)
    (hnew : t.computeFolderPath id s = some new)
    (hout : ∀ p, s.parentId = some p → ¬ Climbs t.par p id)
    (hdrive : ∀ p q, s.parentId = some p → t.folders.get p = some q → s.driveId = q.driveId)
    (hroot : s.parentId = none → ∃ d, t.drives.get s.driveId = some d ∧ d.rootFolderId = some id) :
    (t.moved id old new).Homed := by
  have hrow := computeFolderPath_row hnew
  have hself : ∃ d g, t.drives.get new.driveId = some d ∧ d.rootFolderId = some g ∧
      Climbs (update t.par id new.parentId) id g := by
    rcases computeFolderPath_cases hnew with ⟨hs, -⟩ | ⟨p, q, hs, hq, -⟩
    · obtain ⟨d, hd, hg⟩ := hroot hs
      exact ⟨d, id, hrow.driveId ▸ hd, hg, .refl⟩
    · obtain ⟨d, g, hd, hg, hc⟩ := h p q hq
      have hup : update t.par id new.parentId id = some p := by
        rw [update_self, hrow.parentId, hs]
      rw [hrow.driveId, hdrive p q hs hq]
      exact ⟨d, g, hd, hg, Climbs.up hup (hc.update_of_not (hout p hs))⟩
  intro f r' hr'
  rw [moved_par hold]
  obtain ⟨r, hr, ⟨rfl, rfl⟩ | ⟨hne, hc, rfl⟩ | ⟨hne, hc, rfl⟩⟩ := moved_cases hr'
  · exact hself
  · obtain ⟨d, g, hd, hg, hcl⟩ := hself
    have hfi : Climbs t.par f id := (hp.isPrefix_iff hold hr).mp hc
    exact ⟨d, g, hd, hg, hfi.update.trans hcl⟩
  · obtain ⟨d, g, hd, hg, hcl⟩ := h f r' hr
    have hnc : ¬ Climbs t.par f id := fun hfi => hc ((hp.isPrefix_iff hold hr).mpr hfi)
    exact ⟨d, g, hd, hg, hcl.update_of_not hnc⟩

theorem RootsWired.root (h : t.RootsWired) (hr : t.folders.get f = some r) (hp : r.parentId = none)
    (hl : r.isTrashed = false) : ∃ d, t.drives.get r.driveId = some d ∧ d.rootFolderId = some f := by
  obtain ⟨d, hd, hg⟩ := (Option.any_eq_true _ _).mp (h f r hr hp hl)
  exact ⟨d, hd, of_decide_eq_true hg⟩

variable {name : Text}

theorem Homed.renamed (hp : t.Placed) (h : t.Homed) (hold : t.folders.get id = some old)
    (hnew : t.computeFolderPath id { old with name := name, updatedAt := n } = some new) :
    (t.moved id old new).Homed := by
  have hpar := par_of_get hold
  refine h.moved hp hold hnew (fun p hs => ?_) (fun p q hs hq => ?_) fun hs => ?_
  · exact (hp.rooted id).not_climbs (hpar.trans hs)
  · obtain ⟨q', hq', hc⟩ := (hp.folders id old hold).below p hs
    rw [Option.mem_unique hq hq']
    exact hc.drive
  · obtain ⟨d, g, hd, hg, hc⟩ := h id old hold
    rcases climbs_cases hc with rfl | ⟨p, hup, -⟩
    · exact ⟨d, hd, hg⟩
    · exact absurd (hpar.symm.trans hup) (by simp [show old.parentId = none from hs])

theorem setFolder_par (hid : t.folders.get id = none) :
    par { t with folders := t.folders.set id new } = update t.par id new.parentId := by
  funext f
  by_cases hf : f = id
  · subst hf
    rw [update_self, par_of_get (Table.get_set_self ..)]
  · rw [update_of_ne hf, par, par]
    exact congrArg (Option.bind · Folder.parentId) (Table.get_set_ne _ _ hf)

/-- The ways up from the folders there are do not pass through a folder to come. -/
theorem Placed.not_climbs_new (hp : t.Placed) (hid : t.folders.get id = none)
    (hr : t.folders.get f = some r) : ¬ Climbs t.par f id := by
  intro hc
  obtain ⟨q, hq⟩ := hp.addressed.dom_climbs ⟨r, hr⟩ hc
  rw [hid] at hq
  cases hq

theorem Homed.insertFolder (hp : t.Placed) (h : t.Homed) {p : FolderId} {d : DriveId}
    (ho : t.Orderly (.insertFolder name p d)) (hid : t.folders.get id = none)
    (hadd : t.addFolder id name (some p) d = some t') : t'.Homed := by
  obtain ⟨new, hnew, rfl⟩ := Option.map_eq_some_iff.mp hadd
  have hrow := computeFolderPath_row hnew
  have hset : par { t with folders := t.folders.set id new } = update t.par id new.parentId :=
    setFolder_par hid
  intro f r hr
  rw [hset]
  rcases Table.get_set_cases hr with ⟨hf, rfl⟩ | ⟨hf, hr⟩
  · obtain ⟨hs, -⟩ | ⟨p', q, hs, hq, -⟩ := computeFolderPath_cases hnew
    · cases hs
    · obtain rfl : p = p' := Option.some.inj hs
      obtain ⟨d', g, hd, hg, hc⟩ := h p q hq
      have hup : update t.par id r.parentId f = some p := by
        rw [hf, update_self, hrow.parentId]
        rfl
      have hdr : r.driveId = q.driveId := hrow.driveId.trans (ho q hq).symm
      rw [hdr]
      exact ⟨d', g, hd, hg, Climbs.up hup (hc.update_of_not (hp.not_climbs_new hid hq))⟩
  · obtain ⟨d', g, hd, hg, hc⟩ := h f r hr
    exact ⟨d', g, hd, hg, hc.update_of_not (hp.not_climbs_new hid hr)⟩

theorem Homed.createDrive (hp : t.Placed) (h : t.Homed) {d : DriveId} (hd : t.drives.get d = none)
    (hid : t.folders.get id = none) : Homed { t with
      drives := t.drives.set d ⟨some id, false, false⟩
      folders := t.folders.set id ⟨name, none, d, name, [id], false, none, none, t.now⟩ } := by
  have hset : par { t with
      folders := t.folders.set id ⟨name, none, d, name, [id], false, none, none, t.now⟩ } =
      update t.par id none := setFolder_par hid
  intro f r hr
  rcases Table.get_set_cases hr with ⟨hf, rfl⟩ | ⟨hf, hr⟩
  · refine ⟨_, id, Table.get_set_self .., rfl, ?_⟩
    rw [hf]
    exact .refl
  · obtain ⟨d', g, hd', hg, hc⟩ := h f r hr
    have hne : r.driveId ≠ d := by
      rintro rfl
      rw [hd] at hd'
      cases hd'
    refine ⟨d', g, (Table.get_set_ne _ _ hne).trans hd', hg, ?_⟩
    have hcl : Climbs (update t.par id none) f g := hc.update_of_not (hp.not_climbs_new hid hr)
    exact hset ▸ hcl

variable {S : Finset FolderId}

/-- What falls with some folders lies below them. -/
theorem Homed.climbs_of_doomed (h : t.Homed) (hf : f ∈ t.doomed S) : ∃ s ∈ S, Climbs t.par f s := by
  refine cascade_induction (P := fun f => ∃ s ∈ S, Climbs t.par f s) (fun s hs => ⟨s, hs, .refl⟩) ?_ f hf
  rintro f g - ⟨s, hs, hc⟩ ⟨r, hr, hpar | ⟨d, hd, hg⟩⟩
  · exact ⟨s, hs, Climbs.up ((par_of_get hr).trans hpar) hc⟩
  · obtain ⟨d', g', hd', hg', hcl⟩ := h f r hr
    obtain rfl : d = d' := Option.some.inj (Eq.trans (Eq.symm hd) hd')
    obtain rfl : g = g' := Option.mem_unique hg hg'
    exact ⟨s, hs, hcl.trans hc⟩

theorem mem_doomed_of_climbs (hS : S ⊆ t.folders.keys) {g : FolderId} (hc : Climbs t.par f g)
    (hg : g ∈ t.doomed S) : f ∈ t.doomed S := by
  induction hc using Relation.ReflTransGen.head_induction_on with
  | refl => exact hg
  | @head a b hup _ ih =>
    have hab : t.par a = some b := hup
    rcases hr : t.folders.get a with _ | r
    · rw [par, hr] at hab
      cases hab
    · exact mem_doomed_of_parent hS hr ((par_of_get hr).symm.trans hab) ih

/-- No folder on the way up from one that stays falls. -/
theorem climbs_deleteCascade {g : FolderId} (hS : S ⊆ t.folders.keys) (hf : f ∉ t.doomed S)
    (hc : Climbs t.par f g) : Climbs (t.deleteCascade S).par f g := by
  refine hc.congr fun z hz _ => ?_
  have hzd : z ∉ t.doomed S := fun hz' => hf (mem_doomed_of_climbs hS hz hz')
  rcases hq : t.folders.get z with _ | q
  · simp [par, Tree.deleteCascade, hq]
  · rw [par_of_get (deleteCascade_get.mpr ⟨hq, hzd⟩), par_of_get hq]

/-- A file stays if no folder above it falls. -/
theorem Homed.file_stays {s : File} (h : t.Homed) (hp : t.Placed) (hs : t.files.get x = some s)
    (hf : s.folderId = some f) (hup : ∀ g, Climbs t.par f g → g ∉ t.doomed S) :
    (t.deleteCascade S).files.get x = some s := by
  obtain ⟨q, hq, hdr⟩ := hp.files x s hs f hf
  obtain ⟨d, g, hd, hg, hc⟩ := h f q hq
  have hdd : t.doomedDrive S s.driveId = false := by
    rw [hdr]
    simp [doomedDrive, hd, hg, hup g hc]
  refine deleteCascade_getFile.mpr ⟨hs, fun f' hf' => ?_, hdd⟩
  rw [← Option.mem_unique hf hf']
  exact hup f .refl

theorem Homed.deleteCascade (h : t.Homed) (hS : S ⊆ t.folders.keys) :
    (t.deleteCascade S).Homed := by
  intro f r hr
  obtain ⟨hr, hf⟩ := deleteCascade_get.mp hr
  obtain ⟨d, g, hd, hg, hc⟩ := h f r hr
  have hgd : g ∉ t.doomed S := fun hg' => hf (mem_doomed_of_climbs hS hc hg')
  have hdd : t.doomedDrive S r.driveId = false := by
    simp [doomedDrive, hd, hg, hgd]
  refine ⟨d, g, ?_, hg, ?_⟩
  · show (t.drives.get r.driveId).filter _ = some d
    simp [hd, hdd]
  · exact climbs_deleteCascade hS hf hc

/-- The copies hang below the destination, or below each other. -/
theorem Homed.copied {target : Option FolderId} {drive : DriveId} {news : List FolderId} {t₁ : Tree}
    (hp : t.Placed) (h : t.Homed) (hc : CopiedOK t target drive news t₁ t') : t'.Homed := by
  have hnot : ∀ f r, t.folders.get f = some r → f ∉ news := by
    intro f r hr hn
    rw [hc.fresh f hn] at hr
    cases hr
  have hway : ∀ f r g, t.folders.get f = some r → Climbs t.par f g → Climbs t'.par f g := by
    intro f r g hr hcl
    refine hcl.congr fun z hz _ => ?_
    obtain ⟨q, hq⟩ := hp.addressed.dom_climbs ⟨r, hr⟩ hz
    rw [par, par, hc.get (hnot z q hq)]
  have hin : ∀ f r, t.folders.get f = some r → ∃ d g, t'.drives.get r.driveId = some d ∧
      d.rootFolderId = some g ∧ Climbs t'.par f g := by
    intro f r hr
    obtain ⟨d, g, hd, hg, hcl⟩ := h f r hr
    exact ⟨d, g, hc.drives ▸ hd, hg, hway f r g hr hcl⟩
  intro f
  -- along the way up, whose end the constraint trigger checks
  induction hc.sound.placed.rooted f with
  | @root f hpar =>
    intro r hr
    by_cases hn : f ∈ news
    · have hrow := hc.copying.new f hn r (hc.folders ▸ hr)
      have hw : t'.RootsWired := hc.refs.2.2.2
      obtain ⟨d, hd, hg⟩ := hw.root hr ((par_of_get hr).symm.trans hpar) hrow.2.1
      exact ⟨d, f, hd, hg, .refl⟩
    · exact hin f r (hc.get hn ▸ hr)
  | @up f p hpar _ ih =>
    intro r hr
    by_cases hn : f ∈ news
    · obtain ⟨q, hq, hcont⟩ := (hc.sound.placed.folders f r hr).below p ((par_of_get hr).symm.trans hpar)
      obtain ⟨d, g, hd, hg, hcl⟩ := ih q hq
      exact ⟨d, g, hcont.drive ▸ hd, hg, Climbs.up hpar hcl⟩
    · exact hin f r (hc.get hn ▸ hr)

variable {op : Op} {ch : Draw}

/-- **Every orderly statement keeps the folders below the roots of their drives.** -/
theorem Homed.effect (hs : t.Sound) (h : t.Homed) (ho : t.Orderly op)
    (he : t.effect op ch = .ok (n, t')) : t'.Homed := by
  cases change_of_effect hs he with
  | nothing => exact h
  | createDrive hd hid => exact h.createDrive hs.placed hd hid
  | insertFolder hid hadd => exact h.insertFolder hs.placed ho hid hadd
  | renameFolder hold hl hnew => exact h.renamed hs.placed hold hnew
  | @moveFolder id parent old new hold hl hnew href =>
    have hrow := computeFolderPath_row hnew
    refine h.moved hs.placed hold hnew (fun p hp => ho.not_climbs hp)
      (fun p q hp hq => movedRow_drive hp hq) fun hs => ?_
    have hw : (t.moved id old new).RootsWired := href.2.2.2
    obtain ⟨d, hd, hg⟩ := hw.root (moved_self new hold) (hrow.parentId.trans hs) (hrow.isTrashed.trans hl)
    exact ⟨d, hrow.driveId ▸ hd, hg⟩
  | trashFolder => exact h.samePlaces (samePlaces_trash ..) rfl
  | restoreFolder hold => exact h.samePlaces (samePlaces_restore hold t.now) rfl
  | copyTree hc => exact h.copied hs.placed hc
  | deleteFolders _ hS => exact h.deleteCascade hS
  | _ => exact h.sameFolders rfl rfl

/-! ### Dates -/

/-- A row keeps its state in the trash, or goes there now. -/
def Stamps (now : ℕ) (trashed trashed' : Bool) (stamp stamp' : Option ℕ) : Prop :=
  trashed' = trashed ∧ stamp' = stamp ∨ trashed = false ∧ stamp' = some now

/-- Every row of `t'` is live, or was there before in the same folder and has kept its date or got the
current one; a file in no folder was in none before. -/
structure Restamped (t t' : Tree) : Prop where
  now : t.now ≤ t'.now
  folders : ∀ f r', t'.folders.get f = some r' → r'.isTrashed = false ∨
    ∃ r, t.folders.get f = some r ∧ r'.parentId = r.parentId ∧
      Stamps t.now r.isTrashed r'.isTrashed r.trashedAt r'.trashedAt
  files : ∀ x r', t'.files.get x = some r' → r'.isTrashed = false ∨
    ∃ r, t.files.get x = some r ∧ r'.folderId = r.folderId ∧
      Stamps t.now r.isTrashed r'.isTrashed r.trashedAt r'.trashedAt
  filed : ∀ x r', t'.files.get x = some r' → r'.folderId = none →
    ∃ r, t.files.get x = some r ∧ r.folderId = none

theorem Stamps.dated {now now' : ℕ} {b b' : Bool} {o o' : Option ℕ} (h : Stamps now b b' o o')
    (hn : now ≤ now') (ho : b = true → ∃ a, o = some a ∧ a ≤ now) (hb : b' = true) :
    ∃ a, o' = some a ∧ a ≤ now' := by
  rcases h with ⟨hbb, rfl⟩ | ⟨-, rfl⟩
  · obtain ⟨a, ha, hle⟩ := ho (hbb.symm.trans hb)
    exact ⟨a, ha, hle.trans hn⟩
  · exact ⟨now, rfl, hn⟩

variable {a : ℕ}

/-- The dates of a row and of the folder it is in. -/
theorem Stamps.age {now a' : ℕ} {b b' c c' : Bool} {o o' u u' : Option ℕ}
    (h : Stamps now b b' o o') (hu : Stamps now c c' u u') (hlive : b = false → u = none)
    (hage : ∀ a a', o = some a → u = some a' → a ≤ a') (hnow : ∀ a, o = some a → a ≤ now)
    (ha : o' = some a) (ha' : u' = some a') : a ≤ a' := by
  rcases h with ⟨-, rfl⟩ | ⟨hb, rfl⟩
  · rcases hu with ⟨-, rfl⟩ | ⟨-, rfl⟩
    · exact hage a a' ha ha'
    · obtain rfl : now = a' := Option.some.inj ha'
      exact hnow a ha
  · obtain rfl : now = a := Option.some.inj ha
    rcases hu with ⟨-, rfl⟩ | ⟨-, rfl⟩
    · rw [hlive hb] at ha'
      cases ha'
    · obtain rfl : now = a' := Option.some.inj ha'
      exact le_refl now

theorem Marked.trashed (hm : t.Marked) (hr : t.folders.get f = some r) (ha : r.trashedAt = some a) :
    r.isTrashed = true := by
  by_contra hn
  have h := ((hm.folders f r hr).live (by simpa using hn)).2
  rw [ha] at h
  cases h

theorem Marked.fileTrashed (hm : t.Marked) {r : File} (hr : t.files.get x = some r)
    (ha : r.trashedAt = some a) : r.isTrashed = true := by
  by_contra hn
  have h := ((hm.files x r hr).live (by simpa using hn)).2
  rw [ha] at h
  cases h

theorem Dated.folderNow (hd : t.Dated) (hm : t.Marked) (hr : t.folders.get f = some r)
    (ha : r.trashedAt = some a) : a ≤ t.now := by
  obtain ⟨a', ha', hle⟩ := hd.folders f r hr (hm.trashed hr ha)
  obtain rfl : a' = a := Option.mem_unique ha' ha
  exact hle

theorem Dated.fileNow (hd : t.Dated) (hm : t.Marked) {r : File} (hr : t.files.get x = some r)
    (ha : r.trashedAt = some a) : a ≤ t.now := by
  obtain ⟨a', ha', hle⟩ := hd.files x r hr (hm.fileTrashed hr ha)
  obtain rfl : a' = a := Option.mem_unique ha' ha
  exact hle

/-- The folder of a live row has no date. -/
theorem Covered.undated (hm : t.Marked) {p : FolderId} {q : Folder} (hq : t.folders.get p = some q)
    (h : t.folderTrashed p = false) : q.trashedAt = none := by
  rw [folderTrashed_of_get hq] at h
  exact ((hm.folders p q hq).live h).2

/-- A dated row is one that was there before. -/
theorem Restamped.folder (h : Restamped t t') (hm : t'.Marked) {r' : Folder}
    (hr : t'.folders.get f = some r') (ha : r'.trashedAt = some a) :
    ∃ r, t.folders.get f = some r ∧ r'.parentId = r.parentId ∧
      Stamps t.now r.isTrashed r'.isTrashed r.trashedAt r'.trashedAt := by
  rcases h.folders f r' hr with hl | h
  · rw [hm.trashed hr ha] at hl
    cases hl
  · exact h

theorem Restamped.file (h : Restamped t t') (hm : t'.Marked) {r' : File}
    (hr : t'.files.get x = some r') (ha : r'.trashedAt = some a) :
    ∃ r, t.files.get x = some r ∧ r'.folderId = r.folderId ∧
      Stamps t.now r.isTrashed r'.isTrashed r.trashedAt r'.trashedAt := by
  rcases h.files x r' hr with hl | h
  · rw [hm.fileTrashed hr ha] at hl
    cases hl
  · exact h

theorem Dated.restamped (hm : t.Marked) (hc : t.Covered) (hd : t.Dated) (hm' : t'.Marked)
    (h : Restamped t t') : t'.Dated where
  folders := by
    intro f r' hr' ht
    rcases h.folders f r' hr' with hl | ⟨r, hr, -, hst⟩
    · rw [ht] at hl
      cases hl
    · exact hst.dated h.now (hd.folders f r hr) ht
  files := by
    intro x r' hr' ht
    rcases h.files x r' hr' with hl | ⟨r, hr, -, hst⟩
    · rw [ht] at hl
      cases hl
    · exact hst.dated h.now (hd.files x r hr) ht
  folderAge := by
    intro f r' p q' a b hr' hp hq' ha hb
    obtain ⟨r, hr, hpar, hst⟩ := h.folder hm' hr' ha
    obtain ⟨q, hq, -, hst'⟩ := h.folder hm' hq' hb
    have hrp : r.parentId = some p := hpar.symm.trans hp
    refine hst.age hst' (fun hl => Covered.undated hm hq (hc.folders f r p hr hl hrp)) ?_ ?_ ha hb
    · exact fun a b ha hb => hd.folderAge f r p q a b hr hrp hq ha hb
    · exact fun a ha => hd.folderNow hm hr ha
  fileAge := by
    intro x r' p q' a b hr' hp hq' ha hb
    obtain ⟨r, hr, hpar, hst⟩ := h.file hm' hr' ha
    obtain ⟨q, hq, -, hst'⟩ := h.folder hm' hq' hb
    have hrp : r.folderId = some p := hpar.symm.trans hp
    refine hst.age hst' (fun hl => Covered.undated hm hq (hc.files x r p hr hl hrp)) ?_ ?_ ha hb
    · exact fun a b ha hb => hd.fileAge x r p q a b hr hrp hq ha hb
    · exact fun a ha => hd.fileNow hm hr ha

theorem Filed.restamped (hf : t.Filed) (h : Restamped t t') : t'.Filed := by
  intro x r' hr' hn
  obtain ⟨r, hr, hnone⟩ := h.filed x r' hr' hn
  exact hf x r hr hnone

/-! ### What statements do to dates -/

namespace Restamped

theorem subset (hn : t'.now = t.now) (hf : ∀ f r, t'.folders.get f = some r → t.folders.get f = some r)
    (hx : ∀ x r, t'.files.get x = some r → t.files.get x = some r) : Restamped t t' where
  now := hn.ge
  folders f r' hr' := .inr ⟨r', hf f r' hr', rfl, .inl ⟨rfl, rfl⟩⟩
  files x r' hr' := .inr ⟨r', hx x r' hr', rfl, .inl ⟨rfl, rfl⟩⟩
  filed x r' hr' hn := ⟨r', hx x r' hr', hn⟩

theorem refl (t : Tree) : Restamped t t := subset rfl (fun _ _ h => h) fun _ _ h => h

theorem setFile {r' : File} (h : r'.isTrashed = false ∨ ∃ r, t.files.get x = some r ∧
    r'.folderId = r.folderId ∧ Stamps t.now r.isTrashed r'.isTrashed r.trashedAt r'.trashedAt)
    (hf : r'.folderId = none → ∃ r, t.files.get x = some r ∧ r.folderId = none) :
    Restamped t { t with files := t.files.set x r' } where
  now := le_refl _
  folders f r hr := .inr ⟨r, hr, rfl, .inl ⟨rfl, rfl⟩⟩
  files := by
    intro y s hs
    rcases Table.get_set_cases hs with ⟨hy, rfl⟩ | ⟨-, hs⟩
    · rwa [hy]
    · exact .inr ⟨s, hs, rfl, .inl ⟨rfl, rfl⟩⟩
  filed := by
    intro y s hs hn
    rcases Table.get_set_cases hs with ⟨hy, rfl⟩ | ⟨-, hs⟩
    · rw [hy]
      exact hf hn
    · exact ⟨s, hs, hn⟩

theorem addFile (name hash : Text) (p : FolderId) (d : DriveId) (size : ℕ) :
    Restamped t (t.addFile x name p d hash size) :=
  setFile (.inl rfl) fun h => by cases h

/-- One live folder is written, and some drive. -/
theorem setFolder (hn : new.isTrashed = false) (hnow : t'.now = t.now)
    (hf : t'.folders = t.folders.set id new) (hx : t'.files = t.files) : Restamped t t' where
  now := hnow.ge
  folders := by
    intro f r hr
    rcases Table.get_set_cases (hf ▸ hr) with ⟨-, rfl⟩ | ⟨-, hr⟩
    · exact .inl hn
    · exact .inr ⟨r, hr, rfl, .inl ⟨rfl, rfl⟩⟩
  files x r hr := .inr ⟨r, hx ▸ hr, rfl, .inl ⟨rfl, rfl⟩⟩
  filed x r hr h := ⟨r, hx ▸ hr, h⟩

theorem modify {g : FolderId → Folder → Folder} {k : FileId → File → File}
    (hg : ∀ f r, t.folders.get f = some r → (g f r).isTrashed = false ∨ (g f r).parentId = r.parentId ∧
      Stamps t.now r.isTrashed (g f r).isTrashed r.trashedAt (g f r).trashedAt)
    (hk : ∀ x r, (k x r).folderId = r.folderId ∧ ((k x r).isTrashed = false ∨
      Stamps t.now r.isTrashed (k x r).isTrashed r.trashedAt (k x r).trashedAt)) :
    Restamped t { t with folders := t.folders.modify g, files := t.files.modify k } where
  now := le_refl _
  folders := by
    intro f r' hr'
    obtain ⟨r, hr, rfl⟩ := Option.map_eq_some_iff.mp hr'
    exact (hg f r hr).imp_right fun h => ⟨r, hr, h⟩
  files := by
    intro x r' hx
    obtain ⟨r, hr, rfl⟩ := Option.map_eq_some_iff.mp hx
    exact (hk x r).2.imp_right fun h => ⟨r, hr, (hk x r).1, h⟩
  filed := by
    intro x r' hx hn
    obtain ⟨r, hr, rfl⟩ := Option.map_eq_some_iff.mp hx
    exact ⟨r, hr, (hk x r).1.symm.trans hn⟩

/-- A live folder is hung somewhere, with what is below it. -/
theorem moved (hn : new.isTrashed = false) : Restamped t (t.moved id old new) := by
  refine modify (fun f r _ => ?_) fun x r => ?_
  · split_ifs
    · exact .inl hn
    · exact .inr ⟨rfl, .inl ⟨rfl, rfl⟩⟩
    · exact .inr ⟨rfl, .inl ⟨rfl, rfl⟩⟩
  · split_ifs
    · exact ⟨rfl, .inr (.inl ⟨rfl, rfl⟩)⟩
    · exact ⟨rfl, .inr (.inl ⟨rfl, rfl⟩)⟩

theorem trashSubtree (hold : t.folders.get id = some old) (hl : old.isTrashed = false) (l : LPath) :
    Restamped t (t.trashSubtree id l) := by
  refine modify (fun f r hr => ?_) fun x r => ?_
  · split_ifs with hf hc
    · subst hf
      obtain rfl : old = r := Option.mem_unique hold hr
      exact .inr ⟨rfl, .inr ⟨hl, rfl⟩⟩
    · exact .inr ⟨rfl, .inr ⟨hc.2, rfl⟩⟩
    · exact .inr ⟨rfl, .inl ⟨rfl, rfl⟩⟩
  · split_ifs with hc
    · exact ⟨rfl, .inr (.inr ⟨hc.2, rfl⟩)⟩
    · exact ⟨rfl, .inr (.inl ⟨rfl, rfl⟩)⟩

theorem restoreSubtree (hn : new.isTrashed = false) : Restamped t (t.restoreSubtree id new) := by
  refine modify (fun f r _ => ?_) fun x r => ?_
  · split_ifs
    · exact .inl hn
    · exact .inl rfl
    · exact .inr ⟨rfl, .inl ⟨rfl, rfl⟩⟩
  · split_ifs
    · exact ⟨rfl, .inl rfl⟩
    · exact ⟨rfl, .inr (.inl ⟨rfl, rfl⟩)⟩

theorem copied {target : Option FolderId} {drive : DriveId} {news : List FolderId} {t₁ : Tree}
    (hc : CopiedOK t target drive news t₁ t') : Restamped t t' where
  now := hc.now.ge
  folders := by
    intro f r hr
    rw [hc.folders] at hr
    by_cases hn : f ∈ news
    · exact .inl (hc.copying.new f hn r hr).2.1
    · rw [hc.copying.old f hn] at hr
      exact .inr ⟨r, hr, rfl, .inl ⟨rfl, rfl⟩⟩
  files := by
    intro x r hx
    rcases hc.files x r hx with hx | ⟨-, hl, -⟩
    · exact .inr ⟨r, hx, rfl, .inl ⟨rfl, rfl⟩⟩
    · exact .inl hl
  filed := by
    intro x r hx hnone
    rcases hc.files x r hx with hx | ⟨-, -, -, p, -, hp⟩
    · exact ⟨r, hx, hnone⟩
    · rw [hnone] at hp
      cases hp

end Restamped

/-- Not the move of a file out of all folders. -/
def Grounded : Op → Prop
  | .moveFile _ none => False
  | _ => True

instance (op : Op) : Decidable (Grounded op) := by
  unfold Grounded
  split <;> infer_instance

theorem effect_restamped (hs : t.Sound) (hg : Grounded op) (he : t.effect op ch = .ok (n, t')) :
    Restamped t t' := by
  cases change_of_effect hs he with
  | nothing => exact Restamped.refl t
  | tick =>
    exact ⟨Nat.le_add_right _ _, fun f r hr => .inr ⟨r, hr, rfl, .inl ⟨rfl, rfl⟩⟩,
      fun x r hr => .inr ⟨r, hr, rfl, .inl ⟨rfl, rfl⟩⟩, fun x r hr hn => ⟨r, hr, hn⟩⟩
  | @createDrive name d id =>
    have hnew : (Folder.mk name none d name [id] false none none t.now).isTrashed = false := rfl
    exact Restamped.setFolder hnew rfl rfl rfl
  | insertFolder hid hadd =>
    obtain ⟨new, hnew, rfl⟩ := Option.map_eq_some_iff.mp hadd
    exact Restamped.setFolder (computeFolderPath_row hnew).isTrashed rfl rfl rfl
  | renameFolder hold hl hnew | moveFolder hold hl hnew =>
    exact Restamped.moved ((computeFolderPath_row hnew).isTrashed.trans hl)
  | trashFolder hroot hl => exact Restamped.trashSubtree hroot hl _
  | restoreFolder => exact Restamped.restoreSubtree rfl
  | copyTree hc => exact Restamped.copied hc
  | insertFile | copyFile => exact Restamped.addFile ..
  | content _ hr => exact Restamped.setFile (.inr ⟨_, hr, rfl, .inl ⟨rfl, rfl⟩⟩) fun hn => ⟨_, hr, hn⟩
  | @moveFile x target r hr hl =>
    cases target with
    | none => exact hg.elim
    | some p => exact Restamped.setFile (.inl hl) nofun
  | trashFile hr hl => exact Restamped.setFile (.inr ⟨_, hr, rfl, .inr ⟨hl, rfl⟩⟩) fun hn => ⟨_, hr, hn⟩
  | restoreFile hr => exact Restamped.setFile (.inl rfl) fun hn => ⟨_, hr, hn⟩
  | deleteFiles _ xs hxs => exact Restamped.subset rfl (fun _ _ h => h) hxs
  | deleteFolders =>
    exact Restamped.subset rfl (fun _ _ h => (deleteCascade_get.mp h).1) fun _ _ h =>
      (deleteCascade_getFile.mp h).1

/-! ### Everything together -/

/-- What careful statements keep. -/
structure Kept (t : Tree) : Prop where
  sound : t.Sound
  covered : t.Covered
  homed : t.Homed
  dated : t.Dated
  filed : t.Filed

theorem kept_empty : empty.Kept where
  sound := sound_empty
  covered := covered_empty
  homed _ _ h := absurd h (by simp [empty])
  dated := ⟨fun _ _ h => absurd h (by simp [empty]), fun _ _ h => absurd h (by simp [empty]),
    fun _ _ _ _ _ _ h => absurd h (by simp [empty]), fun _ _ _ _ _ _ h => absurd h (by simp [empty])⟩
  filed _ _ h := absurd h (by simp [empty])

/-- **Every orderly and careful statement that moves no file out of all folders keeps all of it.** -/
theorem Kept.effect (h : t.Kept) (ho : t.Orderly op) (hc : t.Careful op) (hg : Grounded op)
    (he : t.effect op ch = .ok (n, t')) : t'.Kept := by
  have hs := h.sound.effect ho he
  have hst := effect_restamped h.sound hg he
  exact ⟨hs, (covered_effect_iff h.sound h.covered he).mpr fun _ => hc, h.homed.effect h.sound ho he,
    h.dated.restamped h.sound.marked h.covered hs.marked hst, h.filed.restamped hst⟩

/-! ### Deletions -/

theorem Homed.performAll {l : List (Op × Draw)} (hs : t.Sound) (h : t.Homed) (ho : OrderlyAll l t) :
    (l.foldl perform t).Homed := by
  induction l generalizing t with
  | nil => exact h
  | cons s l ih =>
    refine ih (hs.perform ho.1) ?_ ho.2
    rcases perform_cases t s with he | ⟨n, he⟩
    · rwa [he]
    · exact h.effect hs ho.1 he

/-- The tables are made by orderly statements. -/
def Reached (t : Tree) : Prop := ∃ l, OrderlyAll l empty ∧ l.foldl perform empty = t

end OxiCloud.Folders.Tree
