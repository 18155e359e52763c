import OxiCloud.Folders.Homes
import OxiCloud.Folders.Paths
import OxiCloud.Lib.Pools

/-! # Changes reach the tree ETags above them

`Reached db g v` says that the news of a change below `g` is not lost: the stamp of `g` is beyond `v`, or
a queued folder lies at or below `g`. A statement that changes an entry leaves it reached for every folder
above the entry (`reached_of_changed`), and later statements and flushes keep it (`Reached.exec`): a queue
entry whose folder is moved or deleted away from below `g` is replaced by what the triggers do for the
old parent. So once the queue is empty the stamp has grown (`changes_reach_ancestors`).

All this rests on the drives of parent and child being the same, which the `INSERT` of `create_folder`
can break when the parent was moved to another drive after its drive had been read; then the change is
lost (`change_lost`). -/

namespace OxiCloud.Folders.Propagation

open Lib.Programs Lib.Programs.Prog Lib.Forests Lib.Tables Lib.Pools Schema Folders Folders.Tree List Option
open Folders.Requests Folders.Paths Folders.Database

variable {t t' : Tree} {db : Database} {g : FolderId} {v n : ℕ} {op : Op} {ch : Draw}

/-! ### Targets -/

/-- The target is a folder at or below `g`, as it stands now. -/
def Hits (t : Tree) (g : FolderId) (G : Target) : Prop :=
  ∃ p q, G.folderId = some p ∧ t.folders.get p = some q ∧ G.lpath = q.lpath ∧ G.driveId = q.driveId ∧
    Climbs t.par p g

/-- The stamp of `g` is beyond `v`, or a queued folder lies at or below `g`. -/
def Reached (db : Database) (g : FolderId) (v : ℕ) : Prop :=
  v < db.treeModifiedAt g ∨ ∃ e ∈ db.dirty, ∃ p, e.folderId = some p ∧ db.tree.HasFolder p ∧
    Climbs db.tree.par p g

theorem Reached.mono {db' : Database} (h : Reached db g v) (ht : db'.tree = db.tree)
    (hv : db.treeModifiedAt g ≤ db'.treeModifiedAt g) (hd : db.dirty ⊆ db'.dirty) : Reached db' g v := by
  rcases h with h | ⟨e, he, p, hp, hf, hc⟩
  · exact .inl (by omega)
  · exact .inr ⟨e, hd he, p, hp, ht ▸ hf, ht ▸ hc⟩

theorem le_bump (S : Finset FolderId) : db.treeModifiedAt g ≤ (db.bump S).treeModifiedAt g := by
  show _ ≤ if g ∈ S then _ else _
  split_ifs <;> omega

variable {S : Finset FolderId} {f p : FolderId} {r r' : Folder} {x : FileId}

theorem lt_bump (h : g ∈ S) : db.treeModifiedAt g < (db.bump S).treeModifiedAt g := by
  show _ < if g ∈ S then _ else _
  rw [if_pos h]
  have : 0 < second := by decide
  omega

variable {targets : List Target} {G : Target}

theorem mem_wanted (hp : t.Placed) (hG : G ∈ targets) (hi : G.immediate = true) (hh : Hits t g G) :
    g ∈ wanted t targets := by
  obtain ⟨p, q, -, hq, hl, hd, hc⟩ := hh
  obtain ⟨r, hr⟩ := hp.addressed.dom_climbs ⟨q, hq⟩ hc
  refine Table.mem_sat.mpr ⟨r, hr, List.any_eq_true.mpr ⟨G, hG, ?_⟩⟩
  have hpre : r.lpath <+: G.lpath := hl ▸ (hp.isPrefix_iff hr hq).mpr hc
  have hdr : r.driveId = G.driveId := by rw [hd, hp.drive_eq hr hq hc]
  simp [hi, hpre, hdr]

theorem bumpOrEnqueue_mono (db : Database) (g : FolderId) (locked : Finset FolderId)
    (targets : List Target) :
    db.treeModifiedAt g ≤ (db.bumpOrEnqueue locked targets).treeModifiedAt g ∧
      db.dirty ⊆ (db.bumpOrEnqueue locked targets).dirty :=
  ⟨le_bump _, subset_append_left _ _⟩

/-- **A target is bumped or queued.** -/
theorem reached_bumpOrEnqueue {locked : Finset FolderId} (hp : db.tree.Placed) (hG : G ∈ targets)
    (hh : Hits db.tree g G) (hv : v ≤ db.treeModifiedAt g) :
    Reached (db.bumpOrEnqueue locked targets) g v := by
  have hentry : (!G.immediate || decide ((wanted db.tree targets \ locked).card <
      (wanted db.tree targets).card)) = true → Reached (db.bumpOrEnqueue locked targets) g v := by
    intro hq
    obtain ⟨p, q, hpid, hget, -, -, hc⟩ := hh
    refine .inr ⟨G.entry, mem_append_right _ ?_, p, hpid, ⟨q, hget⟩, hc⟩
    exact List.mem_map_of_mem (mem_filter.mpr ⟨hG, hq⟩)
  by_cases hi : G.immediate = true
  · have hw := mem_wanted hp hG hi hh
    by_cases hl : g ∈ locked
    · refine hentry ?_
      have hlt : (wanted db.tree targets \ locked).card < (wanted db.tree targets).card := by
        refine Finset.card_lt_card ((Finset.sdiff_subset).ssubset_of_ne fun he => ?_)
        rw [← he, Finset.mem_sdiff] at hw
        exact hw.2 hl
      simp [hlt]
    · exact .inl (lt_of_le_of_lt hv (lt_bump (Finset.mem_sdiff.mpr ⟨hw, hl⟩)))
  · refine hentry ?_
    simp [hi]

theorem foldl_mono (db : Database) (g : FolderId) (locked : Finset FolderId) (l : List (List Target)) :
    db.treeModifiedAt g ≤ (l.foldl (bumpOrEnqueue locked) db).treeModifiedAt g ∧
      db.dirty ⊆ (l.foldl (bumpOrEnqueue locked) db).dirty := by
  induction l generalizing db with
  | nil => exact ⟨le_refl _, List.Subset.refl _⟩
  | cons a l ih =>
    obtain ⟨h1, h2⟩ := bumpOrEnqueue_mono db g locked a
    obtain ⟨h3, h4⟩ := ih (db.bumpOrEnqueue locked a)
    exact ⟨h1.trans h3, List.Subset.trans h2 h4⟩

theorem reached_foldl {locked : Finset FolderId} {l : List (List Target)} (hp : db.tree.Placed)
    (hl : targets ∈ l) (hG : G ∈ targets) (hh : Hits db.tree g G) (hv : v ≤ db.treeModifiedAt g) :
    Reached (l.foldl (bumpOrEnqueue locked) db) g v := by
  induction l generalizing db with
  | nil => cases hl
  | cons a l ih =>
    rcases mem_cons.mp hl with rfl | hl
    · have h : Reached (db.bumpOrEnqueue locked targets) g v := reached_bumpOrEnqueue hp hG hh hv
      obtain ⟨h1, h2⟩ := foldl_mono (db.bumpOrEnqueue locked targets) g locked l
      exact h.mono (foldl_bumpOrEnqueue_tree ..) h1 h2
    · exact ih hp hl hh (hv.trans (bumpOrEnqueue_mono db g locked a).1)

/-! ### The triggers of a statement -/

/-- Some trigger of the statement is given a folder at or below `g`. -/
def Fires (op : Op) (ch : Draw) (t t' : Tree) (g : FolderId) : Prop :=
  ∃ targets ∈ folderBatches op ch t t', ∃ G ∈ targets, Hits t' g G

/-- The stamps before the triggers run. -/
theorem fire_stamp (op : Op) (ch : Draw) (t' : Tree) (hg : db.tree.HasFolder g) :
    db.treeModifiedAt g ≤ (db.fire op ch t').treeModifiedAt g ∧
      db.dirty ⊆ (db.fire op ch t').dirty := by
  obtain ⟨r, hr⟩ := hg
  obtain ⟨h1, h2⟩ := foldl_mono ⟨t', fun f =>
    if (db.tree.folders.get f).isNone && (t'.folders.get f).isSome then t'.now
    else db.treeModifiedAt f, db.dirty⟩ g ch.locked (folderBatches op ch db.tree t')
  simp only [hr, isNone_some, Bool.false_and, Bool.false_eq_true, if_false] at h1
  exact ⟨h1, List.Subset.trans h2 (subset_append_left _ _)⟩

theorem reached_fires (hp : t'.Placed) (hg : db.tree.HasFolder g) (h : Fires op ch db.tree t' g)
    (hv : v ≤ db.treeModifiedAt g) : Reached (db.fire op ch t') g v := by
  obtain ⟨targets, hl, G, hG, hh⟩ := h
  obtain ⟨r, hr⟩ := hg
  have hr' : Reached ((folderBatches op ch db.tree t').foldl (bumpOrEnqueue ch.locked) ⟨t', fun f =>
      if (db.tree.folders.get f).isNone && (t'.folders.get f).isSome then t'.now
      else db.treeModifiedAt f, db.dirty⟩) g v :=
    reached_foldl hp hl hG hh (by simpa [hr] using hv)
  exact hr'.mono rfl (le_refl _) (subset_append_left _ _)

theorem mem_rowsOf (hf : f ∈ S) (hr : t.folders.get f = some r) : (f, r) ∈ rowsOf t S := by
  refine mem_filterMap.mpr ⟨f, mem_inOrder.mpr hf, ?_⟩
  rw [hr]
  rfl

variable {rows : List (FolderId × Folder)} {q : Folder}

/-- The row of a folder in a list of changed rows makes its parent a target. -/
theorem hits_of_row (hmem : (f, r) ∈ rows) (hpar : r.parentId = some p)
    (hl : r.lpath = q.lpath ++ [f]) (hq0 : q.lpath ≠ []) (hd : r.driveId = q.driveId)
    (hq : t'.folders.get p = some q) (hc : Climbs t'.par p g) : ∃ G ∈ folderTargets rows, Hits t' g G := by
  have hlen : 1 < r.lpath.length := by
    rw [hl, length_append, length_singleton]
    have := length_pos_iff.mpr hq0
    omega
  refine ⟨⟨r.lpath.dropLast, r.parentId, r.driveId, !r.parentId.any (· ∈ rows.map Prod.fst)⟩, ?_, ?_⟩
  · refine mem_filterMap.mpr ⟨(f, r), hmem, ?_⟩
    simp [parentTarget, if_pos hlen]
  · refine ⟨p, q, hpar, hq, ?_, hd, hc⟩
    rw [hl, dropLast_concat]

theorem Placed.lpath_ne_nil (hp : t.Placed) (hr : t.folders.get f = some r) : r.lpath ≠ [] :=
  ne_nil_of_mem (hp.self_mem hr)

/-- The parent of a changed folder, as it was: it has stayed where it is. -/
theorem hits_old {q' : Folder} (hp : t.Placed) (hr : t.folders.get f = some r)
    (hmem : (f, r) ∈ rows) (hpar : r.parentId = some p) (hq : t.folders.get p = some q)
    (h1 : q'.lpath = q.lpath) (h2 : q'.driveId = q.driveId) (hq' : t'.folders.get p = some q')
    (hc : Climbs t'.par p g) : ∃ G ∈ folderTargets rows, Hits t' g G := by
  obtain ⟨q₁, hq₁, hcont⟩ := (hp.folders f r hr).below p hpar
  obtain rfl : q₁ = q := mem_unique hq₁ hq
  exact hits_of_row hmem hpar (h1 ▸ hcont.lpath) (h1 ▸ Placed.lpath_ne_nil hp hq) (h2 ▸ hcont.drive) hq' hc

/-- The parent of a changed folder, as it is. -/
theorem hits_new (hp : t'.Placed) (hr : t'.folders.get f = some r) (hmem : (f, r) ∈ rows)
    (hpar : r.parentId = some p) (hc : Climbs t'.par p g) : ∃ G ∈ folderTargets rows, Hits t' g G := by
  obtain ⟨q, hq, hcont⟩ := (hp.folders f r hr).below p hpar
  exact hits_of_row hmem hpar hcont.lpath (Placed.lpath_ne_nil hp hq) hcont.drive hq hc

/-! ### The batches of a statement -/

theorem updates_mem : folderTargets (rowsOf t (updatedFolders t t') ++ rowsOf t' (updatedFolders t t')) ∈
    folderBatches op ch t t' :=
  mem_append_right _ (mem_cons_self ..)

theorem deletes_mem : folderTargets (rowsOf t (deletedFolders op ch t)) ∈ folderBatches op ch t t' :=
  mem_append_right _ (mem_cons_of_mem _ (mem_cons_self ..))

theorem mem_updated (hr : t.folders.get f = some r)
    (hr' : t'.folders.get f = some r') (hne : folderKey r ≠ folderKey r') : f ∈ updatedFolders t t' := by
  refine Finset.mem_filter.mpr ⟨Finset.mem_inter.mpr ⟨?_, ?_⟩, ?_⟩
  · exact (t.folders.mem_keys f).mpr (isSome_of_eq_some hr)
  · exact (t'.folders.mem_keys f).mpr (isSome_of_eq_some hr')
  · rw [hr, hr', map_some, map_some]
    exact fun h => hne (Option.some.inj h)

theorem mem_inserted (hr : t.folders.get f = none)
    (hr' : t'.folders.get f = some r') : f ∈ insertedFolders t t' := by
  refine Finset.mem_sdiff.mpr ⟨(t'.folders.mem_keys f).mpr (isSome_of_eq_some hr'), fun hk => ?_⟩
  rw [t.folders.mem_keys, hr] at hk
  cases hk

/-- A new folder is among the rows of one of the inserts. -/
theorem exists_insertBatch (op : Op) (hr : t.folders.get f = none)
    (hr' : t'.folders.get f = some r') :
    ∃ rows, (f, r') ∈ rows ∧ folderTargets rows ∈ insertBatches op t t' := by
  have hrow := mem_rowsOf (mem_inserted hr hr') hr'
  by_cases hop : ∃ a b c, op = .copyFolderTree a b c
  · obtain ⟨a, b, c, rfl⟩ := hop
    refine ⟨(rowsOf t' (insertedFolders t t')).filter fun x => x.2.lpath.length = r'.lpath.length,
      mem_filter.mpr ⟨hrow, by simp⟩, ?_⟩
    refine List.mem_map.mpr ⟨r'.lpath.length, ?_, rfl⟩
    refine mem_inOrder.mpr (List.mem_toFinset.mpr (List.mem_map.mpr ⟨(f, r'), hrow, rfl⟩))
  · refine ⟨rowsOf t' (insertedFolders t t'), hrow, ?_⟩
    rcases op
    case copyFolderTree a b c => exact absurd ⟨a, b, c, rfl⟩ hop
    all_goals exact mem_singleton_self _

/-! ### Ways up -/

/-- Every folder stays, in its folder and with its address and drive. -/
def Stays (t t' : Tree) : Prop :=
  ∀ f r, t.folders.get f = some r → ∃ r', t'.folders.get f = some r' ∧ r'.parentId = r.parentId ∧
    r'.lpath = r.lpath ∧ r'.driveId = r.driveId

theorem Stays.climbs (h : Stays t t') (hp : t.Placed) (hf : t.HasFolder p)
    (hc : Climbs t.par p g) : t'.HasFolder p ∧ Climbs t'.par p g := by
  constructor
  · obtain ⟨r, hr⟩ := hf
    obtain ⟨r', hr', -⟩ := h p r hr
    exact ⟨r', hr'⟩
  · refine hc.congr fun z hz _ => ?_
    obtain ⟨q, hq⟩ := hp.addressed.dom_climbs hf hz
    obtain ⟨q', hq', hpar, -⟩ := h z q hq
    rw [par_of_get hq, par_of_get hq', hpar]

theorem stays_of_eq (h : t'.folders = t.folders) : Stays t t' :=
  fun _ r hr => ⟨r, h ▸ hr, rfl, rfl, rfl⟩

theorem stays_samePlaces (h : t.SamePlaces t') : Stays t t' := by
  intro f r hr
  obtain ⟨r', hr', he⟩ := h.get_of hr
  simp only [place, Prod.mk.injEq] at he
  exact ⟨r', hr', he.2.1, he.2.2.2.2, he.2.2.1⟩

variable {id : FolderId} {new : Folder}

theorem stays_set (hid : t.folders.get id = none) (h : t'.folders = t.folders.set id new) : Stays t t' := by
  intro f r hr
  refine ⟨r, ?_, rfl, rfl, rfl⟩
  rw [h, Table.get_set_ne _ _ (HasFolder.not_mem hid hr), hr]

theorem stays_copied {target : Option FolderId} {drive : DriveId} {news : List FolderId} {t₁ : Tree}
    (hc : CopiedOK t target drive news t₁ t') : Stays t t' := by
  intro f r hr
  have hn : f ∉ news := by
    intro hn
    rw [hc.fresh f hn] at hr
    cases hr
  exact ⟨r, by rw [hc.folders, hc.copying.old f hn, hr], rfl, rfl, rfl⟩

theorem stays_renamed {old s : Folder} (hp : t.Placed) (hold : t.folders.get id = some old)
    (hnew : t.computeFolderPath id s = some new) (hpar : s.parentId = old.parentId)
    (hdr : s.driveId = old.driveId) : Stays t (t.moved id old new) := by
  have hrow := computeFolderPath_row hnew
  have hl : new.lpath = old.lpath := by
    rcases computeFolderPath_cases hnew with ⟨hs, rfl⟩ | ⟨p, q, hs, hq, rfl⟩
    · exact ((hp.folders id old hold).root (hpar.symm.trans hs)).2.symm
    · obtain ⟨q', hq', hc⟩ := (hp.folders id old hold).below p (hpar.symm.trans hs)
      obtain rfl : q = q' := mem_unique hq hq'
      exact hc.lpath.symm
  have hd : new.driveId = old.driveId := hrow.driveId.trans hdr
  intro f r hr
  by_cases hf : f = id
  · subst hf
    obtain rfl : old = r := mem_unique hold hr
    exact ⟨new, moved_self new hold, hrow.parentId.trans hpar, hl, hd⟩
  · by_cases hc : old.lpath <+: r.lpath
    · refine ⟨r.carried old new, moved_below hr hf hc new, rfl, ?_, ?_⟩
      · show new.lpath ++ r.lpath.drop old.lpath.length = r.lpath
        rw [hl]
        exact (prefix_append_drop hc).symm
      · show new.driveId = r.driveId
        rw [hd, hp.drive_eq hold hr ((hp.isPrefix_iff hold hr).mp hc)]
    · exact ⟨r, moved_other hr hf hc new, rfl, rfl, rfl⟩

/-- The statement moves a folder. -/
def IsMove : Op → Prop
  | .moveFolder _ _ => True
  | _ => False

/-- The statements that neither move nor delete folders. -/
theorem stays_effect (hs : t.Sound) (hm : ¬ IsMove op) (hc : cascades op = false)
    (he : t.effect op ch = .ok (n, t')) : Stays t t' := by
  cases change_of_effect hs he with
  | createDrive hd hid => exact stays_set hid rfl
  | insertFolder hid hadd =>
    obtain ⟨new, -, rfl⟩ := map_eq_some_iff.mp hadd
    exact stays_set hid rfl
  | renameFolder hold hl hnew => exact stays_renamed hs.placed hold hnew rfl rfl
  | moveFolder => exact absurd trivial hm
  | trashFolder => exact stays_samePlaces (samePlaces_trash ..)
  | restoreFolder hold => exact stays_samePlaces (samePlaces_restore hold t.now)
  | copyTree hcopy => exact stays_copied hcopy
  | deleteFolders hop => exact absurd (hop.symm.trans hc) nofun
  | _ => exact stays_of_eq rfl

theorem isMove_effect (hs : t.Sound) (hm : IsMove op) (he : t.effect op ch = .ok (n, t')) :
    t' = t ∨ ∃ id old new, t.folders.get id = some old ∧ t' = t.moved id old new := by
  cases change_of_effect hs he with
  | nothing => exact .inl rfl
  | moveFolder hold => exact .inr ⟨_, _, _, hold, rfl⟩
  | content hop | deleteFiles hop | deleteFolders hop => cases op <;> first | exact hm.elim | cases hop
  | _ => exact hm.elim

/-- The parent of a moved folder is not moved along. -/
theorem moved_parent {old : Folder} (hp : t.Placed) (hold : t.folders.get id = some old)
    (hpar : old.parentId = some p) (hq : t.folders.get p = some q) :
    ¬ Climbs t.par p id ∧ (t.moved id old new).folders.get p = some q := by
  have hpi : ¬ Climbs t.par p id := (hp.rooted id).not_climbs ((par_of_get hold).trans hpar)
  exact ⟨hpi, hp.moved_outside hold hq hpi⟩

/-- A folder below `g` is moved: it stays below, or its old parent is a target. -/
theorem way_moved {old : Folder} (hp : t.Placed) (hold : t.folders.get id = some old)
    (hf : t.HasFolder p) (hc : Climbs t.par p g) :
    (t.moved id old new).HasFolder p ∧ Climbs (t.moved id old new).par p g ∨
      Fires op ch t (t.moved id old new) g := by
  have hpar : (t.moved id old new).par = Function.update t.par id new.parentId := moved_par hold
  have hstay : (t.moved id old new).HasFolder p := by
    obtain ⟨r, hr⟩ := hf
    by_cases hpid : p = id
    · subst hpid
      exact ⟨new, moved_self new hold⟩
    · by_cases hl : old.lpath <+: r.lpath
      · exact ⟨_, moved_below hr hpid hl new⟩
      · exact ⟨_, moved_other hr hpid hl new⟩
  rw [hpar]
  by_cases hpi : Climbs t.par p id
  · rcases hpi.total hc with hig | hgi
    · rcases climbs_cases hig with rfl | ⟨q, hup, hqg⟩
      · exact .inl ⟨hstay, hc.update⟩
      · -- the moved folder was strictly below `g`
        have hq : old.parentId = some q := (par_of_get hold).symm.trans hup
        by_cases hsame : new.parentId = old.parentId
        · left
          have hupd : Function.update t.par id new.parentId = t.par := by
            rw [hsame, ← par_of_get hold, Function.update_eq_self]
          rw [hupd]
          exact ⟨hstay, hc⟩
        · right
          obtain ⟨r, hr, -⟩ := (hp.folders id old hold).below q hq
          obtain ⟨hqi, hr'⟩ := @moved_parent t q r id new old hp hold hq hr
          have hup' : id ∈ updatedFolders t (t.moved id old new) := by
            refine mem_updated hold (moved_self new hold) fun hk => hsame ?_
            exact (congrArg (fun k => k.2.1) hk).symm
          have hrows := mem_append_left (rowsOf (t.moved id old new)
            (updatedFolders t (t.moved id old new))) (mem_rowsOf hup' hold)
          have hcl : Climbs (t.moved id old new).par q g := by
            rw [hpar]
            exact hqg.update_of_not hqi
          exact ⟨_, updates_mem, hits_old hp hold hrows hq hr rfl rfl hr' hcl⟩
    · exact .inl ⟨hstay, hc.update_below (fun z => hp.rooted z) hgi⟩
  · exact .inl ⟨hstay, hc.update_of_not hpi⟩

/-- Above a folder that falls there is a deleted one whose own parent stays. -/
theorem exists_top (hc : Climbs t.par p g) (hp : p ∈ t.doomed S)
    (hg : g ∉ t.doomed S) : ∃ y q, Climbs t.par p y ∧ t.par y = some q ∧ Climbs t.par q g ∧
      y ∈ t.doomed S ∧ q ∉ t.doomed S := by
  induction hc using Relation.ReflTransGen.head_induction_on with
  | refl => exact absurd hp hg
  | @head a b hup hbg ih =>
    by_cases hb : b ∈ t.doomed S
    · obtain ⟨y, q, h1, h2, h3, h4, h5⟩ := ih hb
      exact ⟨y, q, Climbs.up hup h1, h2, h3, h4, h5⟩
    · exact ⟨a, b, .refl, hup, hbg, hp, hb⟩

/-- Folders are deleted: a folder below `g` stays there, or the parent of a deleted one is a target. -/
theorem way_deleted (hs : t.Sound) (hh : t.Homed)
    (hS : S ⊆ t.folders.keys) (hdel : deletedFolders op ch t = S)
    (hg : (t.deleteCascade S).HasFolder g) (hf : t.HasFolder p) (hc : Climbs t.par p g) :
    (t.deleteCascade S).HasFolder p ∧ Climbs (t.deleteCascade S).par p g ∨
      Fires op ch t (t.deleteCascade S) g := by
  obtain ⟨rg, hrg⟩ := hg
  have hgd := (deleteCascade_get.mp hrg).2
  by_cases hpd : p ∈ t.doomed S
  · right
    obtain ⟨y, q, -, hup, hqg, hyd, hqd⟩ := exists_top hc hpd hgd
    -- what falls lies below `S`, and the parent does not fall
    have hyS : y ∈ S := by
      obtain ⟨s, hsS, hys⟩ := hh.climbs_of_doomed hyd
      rcases climbs_cases hys with rfl | ⟨q', hup', hqs⟩
      · exact hsS
      · obtain rfl : q = q' := mem_unique hup hup'
        have hsd : s ∈ t.doomed S := Lib.Cascades.subset_cascade hsS
        exact absurd (mem_doomed_of_climbs hS hqs hsd) hqd
    obtain ⟨r, hr⟩ := isSome_iff_exists.mp ((t.folders.mem_keys y).mp (hS hyS))
    have hpar : r.parentId = some q := (par_of_get hr).symm.trans hup
    obtain ⟨rq, hrq, -⟩ := (hs.placed.folders y r hr).below q hpar
    have hmem : (y, r) ∈ rowsOf t (deletedFolders op ch t) := mem_rowsOf (hdel ▸ hyS) hr
    have hrq' := deleteCascade_get.mpr ⟨hrq, hqd⟩
    have hcl := climbs_deleteCascade hS hqd hqg
    exact ⟨_, deletes_mem, hits_old hs.placed hr hmem hpar hrq rfl rfl hrq' hcl⟩
  · left
    obtain ⟨r, hr⟩ := hf
    exact ⟨⟨r, deleteCascade_get.mpr ⟨hr, hpd⟩⟩, climbs_deleteCascade hS hpd hc⟩

theorem cascades_effect (hs : t.Sound) (hc : cascades op = true) (he : t.effect op ch = .ok (n, t')) :
    t' = t ∨ ∃ S ⊆ t.folders.keys, deletedFolders op ch t = S ∧ t' = t.deleteCascade S := by
  cases change_of_effect hs he with
  | nothing => exact .inl rfl
  | deleteFolders _ hS hdel => exact .inr ⟨_, hS, hdel, rfl⟩
  | content hop => cases op <;> contradiction
  | deleteFiles hop => cases op <;> contradiction
  | _ => cases hc

/-- **A way up to `g` stays, or the triggers see to `g`.** -/
theorem way_or_fires (hs : t.Sound) (hh : t.Homed) (ho : t.Orderly op)
    (he : t.effect op ch = .ok (n, t')) (hg : t'.HasFolder g) (hf : t.HasFolder p)
    (hc : Climbs t.par p g) : t'.HasFolder p ∧ Climbs t'.par p g ∨ Fires op ch t t' g := by
  rcases hcasc : cascades op with _ | _
  · by_cases hm : IsMove op
    · obtain rfl | ⟨id, old, new, hold, rfl⟩ := isMove_effect hs hm he
      · exact .inl ⟨hf, hc⟩
      · exact way_moved hs.placed hold hf hc
    · exact .inl ((stays_effect hs hm hcasc he).climbs hs.placed hf hc)
  · obtain rfl | ⟨S, hS, hdel, rfl⟩ := cascades_effect hs hcasc he
    · exact .inl ⟨hf, hc⟩
    · exact way_deleted hs hh hS hdel hg hf hc

/-! ### Changed entries -/

/-- What a client sees of a folder. -/
def folderEntry (r : Folder) : Text × Option FolderId × Bool := (r.name, r.parentId, r.isTrashed)

/-- What a client sees of a file. -/
def fileEntry (r : File) : FileKey := { fileKey r with updatedAt := 0 }

/-- The statement that led from `t` to `t'` has changed the entry. -/
def Changed (t t' : Tree) : Item → Prop
  | .folder f => (t.folders.get f).map folderEntry ≠ (t'.folders.get f).map folderEntry
  | .file x => (t.files.get x).map fileEntry ≠ (t'.files.get x).map fileEntry

/-- The folder an entry is in. -/
def container (t : Tree) : Item → Option FolderId
  | .folder f => t.par f
  | .file x => (t.files.get x).bind File.folderId

/-- The folder `g` is a strict ancestor of the entry. -/
def Above (t : Tree) (i : Item) (g : FolderId) : Prop :=
  ∃ p, container t i = some p ∧ Climbs t.par p g

instance (t t' : Tree) (i : Item) : Decidable (Changed t t' i) := by
  unfold Changed
  split <;> infer_instance

instance (t : Tree) (i : Item) (g : FolderId) : Decidable (Above t i g) :=
  decidable_of_iff (∃ p ∈ container t i, Climbs t.par p g) Iff.rfl

instance (t : Tree) (f : FolderId) : Decidable (t.HasFolder f) :=
  decidable_of_iff _ Option.isSome_iff_exists

theorem folderKey_ne (h : folderEntry r ≠ folderEntry r') : folderKey r ≠ folderKey r' := by
  intro hk
  simp only [folderKey, Prod.mk.injEq] at hk
  exact h (by simp [folderEntry, hk])

theorem fileKey_ne (h : Changed t t' (.file x)) :
    (t.files.get x).map fileKey ≠ (t'.files.get x).map fileKey := by
  intro hk
  refine h ?_
  have hmap := congrArg (Option.map fun k : FileKey => { k with updatedAt := 0 }) hk
  rw [Option.map_map, Option.map_map] at hmap
  exact hmap

theorem not_changed (t : Tree) (i : Item) : ¬ Changed t t i := by
  rcases i with x | f
  · exact fun h => h rfl
  · exact fun h => h rfl

theorem exists_row_of_par (h : t.par f = some p) :
    ∃ r, t.folders.get f = some r ∧ r.parentId = some p := by
  rcases hr : t.folders.get f with _ | r
  · rw [par, hr] at h
    cases h
  · exact ⟨r, rfl, (par_of_get hr).symm.trans h⟩

/-- A changed folder: the folders that are above it. -/
theorem fires_folder_new (hp' : t'.Placed) (hch : Changed t t' (.folder f))
    (ha : Above t' (.folder f) g) : Fires op ch t t' g := by
  obtain ⟨p, hpar, hc⟩ := ha
  obtain ⟨r', hr', hrp⟩ := exists_row_of_par hpar
  rcases hr : t.folders.get f with _ | r
  · obtain ⟨rows, hmem, hbatch⟩ := exists_insertBatch op hr hr'
    exact ⟨_, mem_append_left _ hbatch, hits_new hp' hr' hmem hrp hc⟩
  · have hne : folderEntry r ≠ folderEntry r' := by
      intro he
      exact hch (by rw [hr, hr', map_some, map_some, he])
    have hup := mem_updated hr hr' (folderKey_ne hne)
    have hmem := mem_append_right (rowsOf t (updatedFolders t t')) (mem_rowsOf hup hr')
    exact ⟨_, updates_mem, hits_new hp' hr' hmem hrp hc⟩

/-- The parent of an updated folder has stayed where it is. -/
theorem parent_stays {q' : Folder} (hs : t.Sound) (he : t.effect op ch = .ok (n, t'))
    (hr : t.folders.get f = some r) (hrp : r.parentId = some p) (hf : t'.HasFolder f)
    (hch : Changed t t' (.folder f)) (hq' : t'.folders.get p = some q')
    (hq : t.folders.get p = some q) : q'.lpath = q.lpath ∧ q'.driveId = q.driveId := by
  rcases hcasc : cascades op with _ | _
  · by_cases hm : IsMove op
    · obtain rfl | ⟨id, old, new, hold, rfl⟩ := isMove_effect hs hm he
      · exact absurd hch (not_changed _ _)
      · -- only the moved folder itself has changed
        have hfid : f = id := by
          by_contra hne
          refine hch ?_
          by_cases hl : old.lpath <+: r.lpath
          · rw [moved_below hr hne hl new, hr]
            rfl
          · rw [moved_other hr hne hl new, hr]
        subst hfid
        obtain rfl : old = r := mem_unique hold hr
        rw [(moved_parent hs.placed hold hrp hq).2] at hq'
        rw [Option.some.inj hq']
        exact ⟨rfl, rfl⟩
    · obtain ⟨q₁, hq₁, -, hl, hd⟩ := stays_effect hs hm hcasc he p q hq
      rw [← mem_unique hq₁ hq']
      exact ⟨hl, hd⟩
  · obtain rfl | ⟨S, -, -, rfl⟩ := cascades_effect hs hcasc he
    · exact absurd hch (not_changed _ _)
    · obtain ⟨r', hr'⟩ := hf
      refine absurd ?_ hch
      rw [hr', (deleteCascade_get.mp hr').1]

/-- A changed folder: the folders that were above it. -/
theorem fires_folder_old (hs : t.Sound) (hh : t.Homed) (ho : t.Orderly op)
    (he : t.effect op ch = .ok (n, t')) (hg : t'.HasFolder g) (hch : Changed t t' (.folder f))
    (ha : Above t (.folder f) g) : Fires op ch t t' g := by
  obtain ⟨p, hpar, hc⟩ := ha
  obtain ⟨r, hr, hrp⟩ := exists_row_of_par hpar
  rcases hr' : t'.folders.get f with _ | r'
  · -- deleted: it cannot have stayed below `g`
    rcases way_or_fires hs hh ho he hg ⟨r, hr⟩ (Climbs.up hpar hc) with ⟨⟨s, hs'⟩, -⟩ | h
    · rw [hr'] at hs'
      cases hs'
    · exact h
  · obtain ⟨q, hq, -⟩ := (hs.placed.folders f r hr).below p hrp
    rcases way_or_fires hs hh ho he hg ⟨q, hq⟩ hc with ⟨⟨q', hq'⟩, hc'⟩ | h
    · have hne : folderEntry r ≠ folderEntry r' := by
        intro heq
        exact hch (by rw [hr, hr', map_some, map_some, heq])
      have hup := mem_updated hr hr' (folderKey_ne hne)
      have hmem := mem_append_left (rowsOf t' (updatedFolders t t')) (mem_rowsOf hup hr)
      obtain ⟨hl, hd⟩ := parent_stays hs he hr hrp ⟨r', hr'⟩ hch hq' hq
      exact ⟨_, updates_mem, hits_old hs.placed hr hmem hrp hq hl hd hq' hc'⟩
    · exact h

/-- A changed file makes the folder it is or was in a queue entry. -/
theorem reached_touched (hx : x ∈ changedFiles op db.tree t')
    (hf : t'.HasFolder p) (hc : Climbs t'.par p g)
    (hp : (db.tree.files.get x).bind File.folderId = some p ∨
      (t'.files.get x).bind File.folderId = some p) : Reached (db.fire op ch t') g v := by
  obtain ⟨q, hq⟩ := hf
  have htouched : p ∈ touchedFolders op db.tree t' :=
    Table.mem_sat.mpr ⟨q, hq, decide_eq_true ⟨x, hx, hp⟩⟩
  have hentry : (⟨q.lpath, some p, some q.driveId⟩ : DirtyEntry) ∈ fileEntries op db.tree t' :=
    List.mem_map.mpr ⟨(p, q), mem_rowsOf htouched hq, rfl⟩
  refine .inr ⟨_, mem_append_right _ hentry, p, rfl, ?_, ?_⟩
  · rw [fire_tree]
    exact ⟨q, hq⟩
  · rw [fire_tree]
    exact hc

theorem mem_changedFiles (hch : Changed t t' (.file x))
    (hcasc : (cascades op && (t'.files.get x).isNone) = false) : x ∈ changedFiles op t t' := by
  have hne := fileKey_ne hch
  refine Finset.mem_filter.mpr ⟨?_, hne, hcasc⟩
  rw [Finset.mem_union, t.files.mem_keys, t'.files.mem_keys]
  by_contra hnone
  simp only [not_or, not_isSome_iff_eq_none] at hnone
  rw [hnone.1, hnone.2] at hne
  exact hne rfl

/-- A file deleted by a cascade was in a folder that is deleted as well. -/
theorem folder_deleted {r : File} (hs : t.Sound) (hh : t.Homed)
    (hc : cascades op = true) (he : t.effect op ch = .ok (n, t')) (hr : t.files.get x = some r)
    (hx : t'.files.get x = none) (hp : r.folderId = some p) : ¬ t'.HasFolder p := by
  obtain rfl | ⟨S, hS, -, rfl⟩ := cascades_effect hs hc he
  · rw [hr] at hx
    cases hx
  · rintro ⟨q, hq⟩
    obtain ⟨hq, hpd⟩ := deleteCascade_get.mp hq
    rw [hh.file_stays hs.placed hr hp fun g hc hg => hpd (mem_doomed_of_climbs hS hc hg)] at hx
    cases hx

/-- **A changed entry reaches every folder that was or is above it.** -/
theorem reached_of_changed {i : Item} (hs : db.tree.Sound) (hh : db.tree.Homed)
    (ho : db.tree.Orderly op) (he : db.tree.effect op ch = .ok (n, t')) (hg : db.tree.HasFolder g)
    (hg' : t'.HasFolder g) (hch : Changed db.tree t' i) (ha : Above db.tree i g ∨ Above t' i g)
    (hv : v ≤ db.treeModifiedAt g) : Reached (db.fire op ch t') g v := by
  have hp' : t'.Placed := (hs.effect ho he).placed
  rcases i with x | f
  · rcases ha with ⟨p, hpx, hc⟩ | ⟨p, hpx, hc⟩
    · obtain ⟨r, hr, hrp⟩ := bind_eq_some_iff.mp hpx
      obtain ⟨q, hq, -⟩ := hs.placed.files x r hr p hrp
      rcases way_or_fires hs hh ho he hg' ⟨q, hq⟩ hc with ⟨hf, hc'⟩ | h
      · refine reached_touched (mem_changedFiles hch ?_) hf hc' (.inl hpx)
        by_contra hcasc
        simp only [Bool.not_eq_false, Bool.and_eq_true, isNone_iff_eq_none] at hcasc
        exact folder_deleted hs hh hcasc.1 he hr hcasc.2 hrp hf
      · exact reached_fires hp' hg h hv
    · obtain ⟨r, hr, hrp⟩ := bind_eq_some_iff.mp hpx
      obtain ⟨q, hq, -⟩ := hp'.files x r hr p hrp
      exact reached_touched (mem_changedFiles hch (by simp [hr])) ⟨q, hq⟩ hc (.inr hpx)
  · rcases ha with ha | ha
    · exact reached_fires hp' hg (fires_folder_old hs hh ho he hg' hch ha) hv
    · exact reached_fires hp' hg (fires_folder_new hp' hch ha) hv

/-! ### Later statements and flushes -/

theorem Reached.fire (hs : db.tree.Sound) (hh : db.tree.Homed) (ho : db.tree.Orderly op)
    (he : db.tree.effect op ch = .ok (n, t')) (hg : db.tree.HasFolder g) (hg' : t'.HasFolder g)
    (hv : v ≤ db.treeModifiedAt g) (h : Reached db g v) : Reached (db.fire op ch t') g v := by
  obtain ⟨h1, h2⟩ := fire_stamp op ch t' hg
  rcases h with h | ⟨e, hmem, p, hp, hf, hc⟩
  · exact .inl (lt_of_lt_of_le h h1)
  · rcases way_or_fires hs hh ho he hg' hf hc with ⟨hf', hc'⟩ | hfire
    · refine .inr ⟨e, h2 hmem, p, hp, ?_, ?_⟩
      · rw [fire_tree]
        exact hf'
      · rw [fire_tree]
        exact hc'
    · exact reached_fires (hs.effect ho he).placed hg hfire hv

/-- A flush bumps the folders above the entries it drains. -/
theorem Reached.flush (hp : db.tree.Placed) (hv : v ≤ db.treeModifiedAt g) (h : Reached db g v) :
    Reached db.flush g v := by
  rcases h with h | ⟨e, hmem, p, hpe, ⟨q, hq⟩, hc⟩
  · exact .inl (lt_of_lt_of_le h (le_bump _))
  · rw [← take_append_drop drainBatch db.dirty] at hmem
    rcases mem_append.mp hmem with hdr | hrest
    · left
      obtain ⟨r, hr⟩ := hp.addressed.dom_climbs ⟨q, hq⟩ hc
      have htarget : (q.lpath, some q.driveId) ∈ flushTargets db.tree (db.dirty.take drainBatch) := by
        refine mem_append_right _ (mem_filterMap.mpr ⟨e, hdr, ?_⟩)
        rw [hpe, bind_some, hq]
        rfl
      have hvict : g ∈ victims db.tree (flushTargets db.tree (db.dirty.take drainBatch)) := by
        refine Table.mem_sat.mpr ⟨r, hr, List.any_eq_true.mpr ⟨_, htarget, ?_⟩⟩
        have hpre := (hp.isPrefix_iff hr hq).mpr hc
        have hdrive := hp.drive_eq hr hq hc
        simp [hpre, hdrive]
      exact lt_of_le_of_lt hv (lt_bump hvict)
    · exact .inr ⟨e, hrest, p, hpe, ⟨q, hq⟩, hc⟩

/-- The tables are sound, and the news of a change below `g` is not lost. -/
structure Due (g : FolderId) (v : ℕ) (db : Database) : Prop where
  sound : db.tree.Sound
  homed : db.tree.Homed
  here : db.tree.HasFolder g
  stamp : v ≤ db.treeModifiedAt g
  reached : Reached db g v

theorem exec_homed {s : Stmt} (hs : db.tree.Sound) (hh : db.tree.Homed) (ho : Paths.Orderly db s) :
    (exec s ch db).2.tree.Homed := by
  rcases exec_tree s ch db with h | ⟨op, n, rfl, h⟩
  · rwa [h]
  · exact hh.effect hs ho h

theorem exec_run (he : db.tree.effect op ch = .ok (n, t')) :
    (exec (.run op) ch db).2 = db.fire op ch t' := by
  simp [exec, Database.run, he]

/-- **Every orderly statement and every flush keeps the news.** -/
theorem Due.exec {s : Stmt} (h : Due g v db) (ho : Paths.Orderly db s)
    (hg : (Requests.exec s ch db).2.tree.HasFolder g) : Due g v (Requests.exec s ch db).2 := by
  have hs' : (Requests.exec s ch db).2.tree.Sound := exec_sound h.sound ho
  have hh' : (Requests.exec s ch db).2.tree.Homed := exec_homed h.sound h.homed ho
  rcases s with op | _ | p | i | _
  · rcases he : db.tree.effect op ch with e | ⟨n, t'⟩
    · have hsame : (Requests.exec (.run op) ch db).2 = db := by
        simp [Requests.exec, Database.run, he]
      rw [hsame]
      exact h
    · rw [exec_run he] at hs' hh' hg ⊢
      have hg' : t'.HasFolder g := by rwa [fire_tree] at hg
      have hst := (fire_stamp op ch t' h.here).1
      exact ⟨hs', hh', hg, h.stamp.trans hst,
        h.reached.fire h.sound h.homed ho he h.here hg' h.stamp⟩
  · exact h
  · exact h
  · exact h
  · rcases hfault : ch.fault with _ | _
    · have hflush : (Requests.exec .flush ch db).2 = db.flush := by
        simp [Requests.exec, hfault]
      rw [hflush] at hs' hh' hg ⊢
      exact ⟨hs', hh', hg, h.stamp.trans (le_bump _), h.reached.flush h.sound.placed h.stamp⟩
    · have hsame : (Requests.exec .flush ch db).2 = db := by
        simp [Requests.exec, hfault]
      rw [hsame]
      exact h

/-! ### Runs -/

/-- The runs in which every statement is orderly. -/
abbrev OrderlyRuns : Pool sql Database Unit Bool → Pool sql Database Unit Bool → Prop :=
  Runs machine Ledger.idle fun s _ db _ => Paths.Orderly db s

/-- The runs in which every statement is orderly and the folder `g` is not deleted. -/
abbrev RunsWith (g : FolderId) : Pool sql Database Unit Bool → Pool sql Database Unit Bool → Prop :=
  Runs machine Ledger.idle fun s ch db _ =>
    Paths.Orderly db s ∧ (Requests.exec s ch db).2.tree.HasFolder g

variable {Q Q' : Pool sql Database Unit Bool}

theorem step_exec {allow : (s : Stmt) → Draw → Database → Multiset Unit → Prop}
    (h : Step machine Ledger.idle allow Q Q') :
    ∃ s ch rest, allow s ch Q.store rest ∧ Q'.store = (Requests.exec s ch Q.store).2 := by
  obtain @⟨db, db', l₁, l₂, c, s, k, r, ch, ha, he⟩ := h
  have hex : Requests.exec s ch db = (r, db') := Option.some.inj he
  exact ⟨s, ch, _, ha, by rw [hex]⟩

theorem runs_sound (h : OrderlyRuns Q Q') (hs : Q.store.tree.Sound) (hh : Q.store.tree.Homed) :
    Q'.store.tree.Sound ∧ Q'.store.tree.Homed := by
  induction h with
  | refl => exact ⟨hs, hh⟩
  | tail _ hstep ih =>
    obtain ⟨s, ch, rest, ho, he⟩ := step_exec hstep
    rw [he]
    exact ⟨exec_sound ih.1 ho, exec_homed ih.1 ih.2 ho⟩

theorem Due.runs (h : Due g v Q.store) (hr : RunsWith g Q Q') : Due g v Q'.store := by
  induction hr with
  | refl => exact h
  | tail _ hstep ih =>
    obtain ⟨s, ch, rest, ⟨ho, hg⟩, he⟩ := step_exec hstep
    rw [he]
    exact ih.exec ho hg

/-- **Once the queue is empty, every change has reached every folder above it that still exists.** -/
theorem changes_reach_ancestors (l : List Request) (Q Q₁ Q₂ : Pool sql Database Unit Bool) (i : Item)
    (g : FolderId) (hr : OrderlyRuns (Pool.start Database.fresh (l.map Request.prog)) Q)
    (hs : Step machine Ledger.idle (fun s _ db _ => Paths.Orderly db s) Q Q₁)
    (hch : Changed Q.store.tree Q₁.store.tree i)
    (ha : Above Q.store.tree i g ∨ Above Q₁.store.tree i g) (hg : Q.store.tree.HasFolder g)
    (hg₁ : Q₁.store.tree.HasFolder g) (hrun : RunsWith g Q₁ Q₂) (hd : Q₂.store.dirty = []) :
    Q.store.treeModifiedAt g < Q₂.store.treeModifiedAt g := by
  obtain ⟨hsound, hhomed⟩ := runs_sound hr sound_empty kept_empty.homed
  obtain ⟨s, ch, rest, ho, he⟩ := step_exec hs
  have hdue : Due g (Q.store.treeModifiedAt g) Q₁.store := by
    rcases exec_tree s ch Q.store with hsame | ⟨op, n, rfl, heff⟩
    · rw [he, hsame] at hch
      exact absurd hch (not_changed _ i)
    · rw [← he] at heff
      have hfire : Q₁.store = Q.store.fire op ch Q₁.store.tree := he.trans (exec_run heff)
      have hreach := reached_of_changed hsound hhomed ho heff hg hg₁ hch ha (le_refl _)
      have hst := (fire_stamp op ch Q₁.store.tree hg).1
      rw [← hfire] at hreach hst
      exact ⟨hsound.effect ho heff, hhomed.effect hsound ho heff, hg₁, hst, hreach⟩
  have hend := hdue.runs hrun
  rcases hend.reached with h | ⟨e, hmem, -⟩
  · exact h
  · rw [hd] at hmem
    cases hmem

/-- A run in three parts: a schedule, one statement of a program, another schedule. -/
def phases (allow allow' : (s : Stmt) → Draw → Database → Multiset Unit → Prop)
    [∀ s ch db rest, Decidable (allow s ch db rest)] [∀ s ch db rest, Decidable (allow' s ch db rest)]
    (l : List Request) (before : List (ℕ × Draw)) (at' : ℕ × Draw) (after : List (ℕ × Draw)) :
    Option (Pool sql Database Unit Bool × Pool sql Database Unit Bool × Pool sql Database Unit Bool) :=
  (execute machine Ledger.idle allow before (Pool.start Database.fresh (l.map Request.prog))).bind fun Q =>
    (stepAt machine Ledger.idle allow at'.1 at'.2 Q).bind fun Q₁ =>
      (execute machine Ledger.idle allow' after Q₁).map fun Q₂ => (Q, Q₁, Q₂)

theorem phases_runs {allow allow' : (s : Stmt) → Draw → Database → Multiset Unit → Prop}
    [∀ s ch db rest, Decidable (allow s ch db rest)] [∀ s ch db rest, Decidable (allow' s ch db rest)]
    {l : List Request} {before after : List (ℕ × Draw)} {at' : ℕ × Draw}
    {x : Pool sql Database Unit Bool × Pool sql Database Unit Bool × Pool sql Database Unit Bool}
    (h : phases allow allow' l before at' after = some x) :
    Runs machine Ledger.idle allow (Pool.start Database.fresh (l.map Request.prog)) x.1 ∧
      Step machine Ledger.idle allow x.1 x.2.1 ∧ Runs machine Ledger.idle allow' x.2.1 x.2.2 := by
  obtain ⟨Q, h1, h⟩ := bind_eq_some_iff.mp h
  obtain ⟨Q₁, h2, h⟩ := bind_eq_some_iff.mp h
  obtain ⟨Q₂, h3, rfl⟩ := map_eq_some_iff.mp h
  exact ⟨execute_runs h1, stepAt_step h2, execute_runs h3⟩

/-- A file is uploaded two folders down; the folder it is in is moved away, while its old parent is
locked, before the flush comes. -/
theorem changes_reach_ancestors_moved : ∃ Q Q₁ Q₂ : Pool sql Database Unit Bool,
    OrderlyRuns (Pool.start Database.fresh ([.createDrive ['a'], .createFolder ['x'] (some 0),
      .createFolder ['y'] (some 1), .upload ['f'] 2 ['h'] 1, .moveFolder 2 (some 0),
      .flush].map Request.prog)) Q ∧
    Changed Q.store.tree Q₁.store.tree (.file 0) ∧ Above Q₁.store.tree (.file 0) 1 ∧
    ¬ Above Q₂.store.tree (.file 0) 1 ∧ RunsWith 1 Q₁ Q₂ ∧ Q₂.store.dirty = [] ∧
    Q.store.treeModifiedAt 1 < Q₂.store.treeModifiedAt 1 := by
  have h : (phases (fun s _ db _ => Paths.Orderly db s)
      (fun s ch db _ => Paths.Orderly db s ∧ (Requests.exec s ch db).2.tree.HasFolder 1)
      [.createDrive ['a'], .createFolder ['x'] (some 0), .createFolder ['y'] (some 1),
        .upload ['f'] 2 ['h'] 1, .moveFolder 2 (some 0), .flush]
      [(0, {}), (1, {}), (1, { newFolder := 1 }), (2, {}), (2, { newFolder := 2 })] (3, {})
      [(4, { locked := {1} }), (5, {})]).any (fun x =>
        Changed x.1.store.tree x.2.1.store.tree (.file 0) ∧ Above x.2.1.store.tree (.file 0) 1 ∧
        ¬ Above x.2.2.store.tree (.file 0) 1 ∧ x.1.store.tree.HasFolder 1 ∧
        x.2.1.store.tree.HasFolder 1 ∧ x.2.2.store.dirty = []) = true := by
    decide +kernel
  obtain ⟨⟨Q, Q₁, Q₂⟩, hx, hp⟩ := (Option.any_eq_true _ _).mp h
  obtain ⟨h1, h2, h3⟩ := phases_runs hx
  obtain ⟨hch, ha, hna, hg, hg₁, hd⟩ := of_decide_eq_true hp
  exact ⟨Q, Q₁, Q₂, h1, hch, ha, hna, h3, hd,
    changes_reach_ancestors _ Q Q₁ Q₂ (.file 0) 1 h1 h2 hch (.inr ha) hg hg₁ h3 hd⟩

/-- **The parent of a new folder is moved to another drive between the two statements of `create_folder`:
no folder above the new one is bumped, and nothing is queued.** -/
theorem change_lost : ∃ Q Q₁ : Pool sql Database Unit Bool,
    Runs machine Ledger.idle (fun _ _ _ _ => True) (Pool.start Database.fresh ([.createDrive ['a'],
      .createDrive ['b'], .createFolder ['p'] (some 0), .createFolder ['x'] (some 2),
      .moveFolder 2 (some 1)].map Request.prog)) Q ∧
    Step machine Ledger.idle (fun _ _ _ _ => True) Q Q₁ ∧
    Changed Q.store.tree Q₁.store.tree (.folder 3) ∧ Above Q₁.store.tree (.folder 3) 2 ∧
    Q.store.tree.HasFolder 2 ∧ Q₁.store.tree.HasFolder 2 ∧ Q₁.store.dirty = [] ∧
    Q₁.store.treeModifiedAt 2 = Q.store.treeModifiedAt 2 := by
  have h : (phases (fun _ _ _ _ => True) (fun _ _ _ _ => True)
      [.createDrive ['a'], .createDrive ['b'], .createFolder ['p'] (some 0), .createFolder ['x'] (some 2),
        .moveFolder 2 (some 1)]
      [(0, {}), (1, { newDrive := 1, newFolder := 1 }), (2, {}), (2, { newFolder := 2 }), (3, {}), (4, {})]
      (3, { newFolder := 3 }) []).any (fun x =>
        Changed x.1.store.tree x.2.1.store.tree (.folder 3) ∧ Above x.2.1.store.tree (.folder 3) 2 ∧
        x.1.store.tree.HasFolder 2 ∧ x.2.1.store.tree.HasFolder 2 ∧ x.2.1.store.dirty = [] ∧
        x.2.1.store.treeModifiedAt 2 = x.1.store.treeModifiedAt 2) = true := by
    decide +kernel
  obtain ⟨⟨Q, Q₁, Q₂⟩, hx, hp⟩ := (Option.any_eq_true _ _).mp h
  obtain ⟨h1, h2, -⟩ := phases_runs hx
  exact ⟨Q, Q₁, h1, h2, of_decide_eq_true hp⟩

end OxiCloud.Folders.Propagation
