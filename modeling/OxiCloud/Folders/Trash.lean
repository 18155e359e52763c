import OxiCloud.Folders.Hidden
import OxiCloud.Lib.Runs

/-! # Trashing and restoring

Two laws of the trash. A sequence of calls on the tree keeps everything below a trashed folder in the
trash exactly if every call that commits is careful (`calls_keep_hidden`). Trashing a live folder and
restoring it gives the tree back exactly if every item that was already in the trash below it carries its
mark (`trash_restore_inverse`): what came into the trash along with a folder has no mark, and the restore
cannot tell it from what came along with the folder it restores. -/

namespace OxiCloud.Folders.Trash

open Lib.Tables Lib.Forests Schema Folders Folders.Tree Option

variable {t t' : Tree} {id f : FolderId} {x : FileId} {old root : Folder} {n : ℕ}

/-! ### Sequences of calls -/

/-- The calls that put items into the tree, move them or bring them into the trash and back. -/
inductive Call where
  | wait (secs : ℕ)
  | create (name : Text) (parent : FolderId)
  | upload (name : Text) (folder : FolderId) (hash : Text) (size : ℕ)
  | moveFile (id : FileId) (target : Option FolderId)
  | moveFolder (id : FolderId) (parent : Option FolderId)
  | copyFile (id : FileId) (target : Option FolderId) (name : Option Text)
  | copyFolderTree (source : FolderId) (target : Option FolderId) (destName : Option Text)
  | trashFile (id : FileId)
  | trashFolder (id : FolderId)
  | restoreFile (id : FileId)
  | restoreFolder (id : FolderId)
  deriving DecidableEq

/-- The statement of a call. A new folder is inserted into the drive `create_folder` has read from its
parent. -/
def Call.op (t : Tree) : Call → Op
  | wait secs => .tick secs
  | create name p => .insertFolder name p (((t.folders.get p).map Folder.driveId).getD 0)
  | upload name p hash size => .insertFile name p hash size
  | moveFile x target => .moveFile x target
  | moveFolder id parent => .moveFolder id parent
  | copyFile x target name => .copyFile x target name
  | copyFolderTree source target destName => .copyFolderTree source target destName
  | trashFile x => .trashFile x
  | trashFolder id => .trashFolder id
  | restoreFile x => .restoreFile x
  | restoreFolder id => .restoreFolder id

/-- The tables after a call. -/
def serve (t : Tree) (c : Call × Draw) : Tree := t.perform (c.1.op t, c.2)

/-- The tables before, between and after a sequence of calls. -/
def states : List (Call × Draw) → Tree → List Tree
  | [], t => [t]
  | c :: l, t => t :: states l (serve t c)

/-- No folder is moved into its own subtree, and only items of the listing are restored. -/
def Proper (t : Tree) : Call → Prop
  | .moveFolder id (some p) => ¬ Climbs t.par p id
  | .restoreFile x => t.listed (.file x) = true
  | .restoreFolder id => t.listed (.folder id) = true
  | _ => True

/-- The same at every call of a sequence. -/
def ProperAll : List (Call × Draw) → Tree → Prop
  | [], _ => True
  | c :: l, t => Proper t c.1 ∧ ProperAll l (serve t c)

/-- The call does not commit a change of at least one row that is not careful. -/
def Heedful (t : Tree) (c : Call × Draw) : Prop :=
  ∀ m t', t.effect (c.1.op t) c.2 = .ok (m + 1, t') → t.Careful (c.1.op t)

/-- The same at every call of a sequence. -/
def HeedfulAll : List (Call × Draw) → Tree → Prop
  | [], _ => True
  | c :: l, t => Heedful t c ∧ HeedfulAll l (serve t c)

instance (t : Tree) (c : Call) : Decidable (Proper t c) := by
  unfold Proper
  split <;> infer_instance

instance decidableProperAll : (l : List (Call × Draw)) → (t : Tree) → Decidable (ProperAll l t)
  | [], _ => .isTrue trivial
  | _ :: l, _ => @instDecidableAnd _ _ _ (decidableProperAll l _)

instance (t : Tree) (c : Call × Draw) : Decidable (Heedful t c) :=
  decidable_of_iff ((t.effect (c.1.op t) c.2).toOption.any (fun x => x.1 ≠ 0) = true →
      t.Careful (c.1.op t)) <| by
    constructor
    · intro h m t' he
      exact h (by rw [he]; rfl)
    · intro h hany
      rcases he : t.effect (c.1.op t) c.2 with e | ⟨_ | m, t'⟩
      · rw [he] at hany; cases hany
      · rw [he] at hany; cases hany
      · exact h m t' he

instance decidableHeedfulAll : (l : List (Call × Draw)) → (t : Tree) → Decidable (HeedfulAll l t)
  | [], _ => .isTrue trivial
  | _ :: l, _ => @instDecidableAnd _ _ _ (decidableHeedfulAll l _)

theorem orderly_of_proper {c : Call} (h : Proper t c) : t.Orderly (c.op t) := by
  unfold Call.op
  split
  case h_2 name p =>
    intro q hq
    rw [hq]
    rfl
  case h_5 id parent =>
    rcases parent with _ | p
    · trivial
    · exact h
  all_goals trivial

theorem toOption_eq_some {ε α : Type} {e : Except ε α} {a : α} (h : e.toOption = some a) : e = .ok a := by
  rcases e with e | b
  · cases h
  · exact congrArg Except.ok (Option.some.inj h)

/-! ### What a call that is not careful does -/

theorem serve_covered_iff (hs : t.Sound) (h : t.Covered) {c : Call × Draw} :
    (serve t c).Covered ↔ Heedful t c := by
  rcases he : t.effect (c.1.op t) c.2 with e | ⟨n, t'⟩
  · have hserve : serve t c = t := by rw [serve, perform, he]
    rw [hserve]
    exact ⟨fun _ m t' h' => absurd (he.symm.trans h') (by simp), fun _ => h⟩
  · have hserve : serve t c = t' := by rw [serve, perform, he]
    rw [hserve, covered_effect_iff hs h he]
    constructor
    · intro h' m t'' h''
      have hmn : n = m + 1 := (Prod.mk.inj (Except.ok.inj (he.symm.trans h''))).1
      exact h' (by omega)
    · intro h' hn
      obtain ⟨m, rfl⟩ := Nat.exists_eq_succ_of_ne_zero hn
      exact h' m t' he

/-- **Everything below a trashed folder stays in the trash exactly if every committed call is careful.** -/
theorem calls_keep_hidden (l : List (Call × Draw)) (t : Tree) (hs : t.Sound) (h : t.Hidden)
    (hp : ProperAll l t) : (∀ s ∈ states l t, s.Hidden) ↔ HeedfulAll l t := by
  refine Lib.Runs.always_iff (fun l t => t.Sound ∧ ProperAll l t) HeedfulAll (fun l t => ∀ s ∈ states l t, s.Hidden)
    (fun _ => List.forall_mem_singleton) (fun _ _ _ => List.forall_mem_cons) (fun _ => trivial) (fun _ _ _ => Iff.rfl)
    ?_ ⟨hs, hp⟩ h
  rintro c l t ⟨hs, hpc, hpl⟩
  refine ⟨⟨hs.perform (orderly_of_proper hpc), hpl⟩, fun h => ?_⟩
  exact hidden_iff.trans (serve_covered_iff hs (hidden_iff.mp h))

/-- A drive with the folder `F`, the folder `C` in `F` and a file in `C`. -/
def nested : Tree := [(Op.createDrive ['d'], { newDrive := 0, newFolder := 0 : Draw }),
  (.insertFolder ['F'] 0 0, { newFolder := 1 }), (.insertFolder ['C'] 1 0, { newFolder := 2 }),
  (.insertFile ['x'] 2 ['h'] 1, { newFile := 0 })].foldl Tree.perform .empty

theorem nested_sound : nested.Sound := sound_empty.performAll (by decide +kernel)

/-- The file is trashed, then `F` with all that is left in it; `F` is restored, the file stays. -/
theorem calls_keep_hidden_nested : nested.Sound ∧ ∀ s ∈ states [(.trashFile 0, {}), (.trashFolder 1, {}),
    (.restoreFolder 1, {}), (.create ['D'] 2, { newFolder := 3 })] nested, s.Hidden :=
  ⟨nested_sound, (calls_keep_hidden _ nested nested_sound (by decide +kernel) (by decide +kernel)).mpr
    (by decide +kernel)⟩

/-- `C` is trashed, then `F`, and `F` is restored: the file, which has no mark, comes back into `C`, which
stays in the trash. Likewise a file is uploaded into the trashed `C`. -/
theorem restored_below_trashed : nested.Sound ∧ nested.Hidden ∧
    (ProperAll [(.trashFolder 2, {}), (.trashFolder 1, {}), (.restoreFolder 1, {})] nested ∧
      ¬ ∀ s ∈ states [(.trashFolder 2, {}), (.trashFolder 1, {}), (.restoreFolder 1, {})] nested,
        s.Hidden) ∧
    (ProperAll [(.trashFolder 2, {}), (.upload ['y'] 2 ['h'] 1, { newFile := 1 })] nested ∧
      ¬ ∀ s ∈ states [(.trashFolder 2, {}), (.upload ['y'] 2 ['h'] 1, { newFile := 1 })] nested,
        s.Hidden) :=
  ⟨nested_sound, by decide +kernel, ⟨by decide +kernel, by decide +kernel⟩,
    by decide +kernel, by decide +kernel⟩

/-! ### Constraints of a tree with fewer live rows -/

/-- The same folders at the same places, the same names of files, and no row live that was not. -/
structure NoMoreLive (t t' : Tree) : Prop where
  drives : t'.drives = t.drives
  folders : ∀ f r', t'.folders.get f = some r' → ∃ r, t.folders.get f = some r ∧ place r' = place r ∧
    (r'.isTrashed = false → r.isTrashed = false)
  kept : ∀ f, t.HasFolder f → t'.HasFolder f
  files : ∀ x r', t'.files.get x = some r' → ∃ r, t.files.get x = some r ∧ r'.indexKey = r.indexKey ∧
    (r'.isTrashed = false → r.isTrashed = false)

theorem indexKey_of_place {r r' : Folder} (h : place r' = place r) : r'.indexKey = r.indexKey := by
  simp only [place, Prod.mk.injEq] at h
  rw [Folder.indexKey, Folder.indexKey, h.1, h.2.1, h.2.2.1]

theorem NoMoreLive.uniqueNames (h : NoMoreLive t t') (hu : t.UniqueNames) : t'.UniqueNames := by
  constructor
  · intro a ra ha b rb hb hla hlb hk
    obtain ⟨sa, hsa, hpa, hla'⟩ := h.folders a ra ha
    obtain ⟨sb, hsb, hpb, hlb'⟩ := h.folders b rb hb
    rw [indexKey_of_place hpa, indexKey_of_place hpb] at hk
    exact hu.1 a sa hsa b sb hsb (hla' hla) (hlb' hlb) hk
  · intro a ra ha b rb hb hla hlb hk
    obtain ⟨sa, hsa, hpa, hla'⟩ := h.files a ra ha
    obtain ⟨sb, hsb, hpb, hlb'⟩ := h.files b rb hb
    rw [hpa, hpb] at hk
    exact hu.2 a sa hsa b sb hsb (hla' hla) (hlb' hlb) hk

theorem NoMoreLive.references (h : NoMoreLive t t') (hr : t.References) : t'.References := by
  obtain ⟨h1, h2, h3, h4⟩ := hr
  have hkept : ∀ p, (t.folders.get p).isSome → (t'.folders.get p).isSome := by
    intro p hp
    exact isSome_iff_exists.mpr (h.kept p (isSome_iff_exists.mp hp))
  refine ⟨fun f r' hr' => ?_, fun x r' hx => ?_, fun d r hd g hg => ?_, fun f r' hr' hn hl => ?_⟩
  · obtain ⟨r, hr, hp, -⟩ := h.folders f r' hr'
    simp only [place, Prod.mk.injEq] at hp
    rw [hp.2.1, hp.2.2.1, h.drives]
    exact ⟨fun p hpp => hkept p ((h1 f r hr).1 p hpp), (h1 f r hr).2⟩
  · obtain ⟨r, hr, hk, -⟩ := h.files x r' hx
    simp only [File.indexKey, Prod.mk.injEq] at hk
    rw [hk.1, hk.2.2, h.drives]
    exact ⟨fun p hpp => hkept p ((h2 x r hr).1 p hpp), (h2 x r hr).2⟩
  · rw [h.drives] at hd
    exact hkept g (h3 d r hd g hg)
  · obtain ⟨r, hr, hp, hlive⟩ := h.folders f r' hr'
    simp only [place, Prod.mk.injEq] at hp
    rw [h.drives, hp.2.2.1]
    exact h4 f r hr (hp.2.1 ▸ hn) (hlive hl)

theorem commit_of_noMoreLive (h : NoMoreLive t t') (hu : t.UniqueNames) (hr : t.References) (n : ℕ) :
    t'.commit n = .ok (n, t') := by
  rw [commit, if_neg (not_not.mpr (h.uniqueNames hu)), if_neg (not_not.mpr (h.references hr))]

theorem noMoreLive_trash (t : Tree) (id : FolderId) (l : LPath) :
    NoMoreLive t (t.trashSubtree id l) where
  drives := rfl
  folders := by
    intro f r' hr'
    obtain ⟨r, hr, rfl⟩ := Table.get_modify_cases hr'
    refine ⟨r, hr, ?_, fun hl => ?_⟩
    · split_ifs <;> rfl
    · split_ifs at hl
      · cases hl
      · cases hl
      · exact hl
  kept := by
    rintro f ⟨r, hr⟩
    obtain ⟨r', hr', -⟩ := (samePlaces_trash t id l).get_of hr
    exact ⟨r', hr'⟩
  files := by
    intro x r' hx
    obtain ⟨r, hr, rfl⟩ := Table.get_modify_cases hx
    refine ⟨r, hr, ?_, fun hl => ?_⟩
    · split_ifs <;> rfl
    · split_ifs at hl
      · cases hl
      · exact hl

/-! ### Trashing a folder and restoring it -/

/-- The live items are the same, what was in the trash is still there with its mark, and everything
stands where it stood. -/
structure GivesBack (t t' : Tree) : Prop where
  liveFolders : ∀ f, ((t'.folders.get f).any fun r => !r.isTrashed) =
    (t.folders.get f).any fun r => !r.isTrashed
  liveFiles : ∀ x, ((t'.files.get x).any fun r => !r.isTrashed) =
    (t.files.get x).any fun r => !r.isTrashed
  trashedFolders : ∀ f r, t.folders.get f = some r → r.isTrashed = true → ∃ r',
    t'.folders.get f = some r' ∧ r'.isTrashed = true ∧ r'.originalParentId = r.originalParentId
  trashedFiles : ∀ x r, t.files.get x = some r → r.isTrashed = true → ∃ r',
    t'.files.get x = some r' ∧ r'.isTrashed = true ∧ r'.originalFolderId = r.originalFolderId
  folders : ∀ f, (t'.folders.get f).map place = (t.folders.get f).map place
  files : ∀ x, (t'.files.get x).map File.indexKey = (t.files.get x).map File.indexKey

/-- `move_to_trash` and then, `secs` later, `restore_from_trash`: both commit and give the tree back. -/
def RoundTrip (t : Tree) (id : FolderId) (secs : ℕ) : Prop :=
  ∃ t₁ t₂, t.effect (.trashFolder id) {} = .ok (1, t₁) ∧
    { t₁ with now := t₁.now + secs }.effect (.restoreFolder id) {} = .ok (1, t₂) ∧ GivesBack t t₂

/-- Every item of the trash strictly below `id` carries its mark. -/
structure MarkedBelow (t : Tree) (id : FolderId) : Prop where
  folders : ∀ f r, t.folders.get f = some r → f ≠ id → Climbs t.par f id → r.isTrashed = true →
    r.originalParentId ≠ none
  files : ∀ x r p, t.files.get x = some r → r.folderId = some p → Climbs t.par p id →
    r.isTrashed = true → r.originalFolderId ≠ none

instance (t : Tree) (id : FolderId) : Decidable (MarkedBelow t id) :=
  decidable_of_iff
    ((t.folders.Forall fun f r => f ≠ id ∧ Climbs t.par f id ∧ r.isTrashed = true →
        r.originalParentId ≠ none) ∧
      t.files.Forall fun _ r => ∀ p ∈ r.folderId, Climbs t.par p id ∧ r.isTrashed = true →
        r.originalFolderId ≠ none)
    ⟨fun h => ⟨fun f r hr hf hc ht => h.1 f r hr ⟨hf, hc, ht⟩,
        fun x r p hr hp hc ht => h.2 x r hr p hp ⟨hc, ht⟩⟩,
      fun h => ⟨fun f r hr hc => h.folders f r hr hc.1 hc.2.1 hc.2.2,
        fun x r hr p hp hc => h.files x r p hr hp hc.1 hc.2⟩⟩

section RoundTrip
variable (hs : t.Sound) (hroot : t.folders.get id = some root) (secs : ℕ)

/-- The trashed row of the folder. -/
def trashedRow (now : ℕ) (r : Folder) : Folder := { r.trash now with originalParentId := r.parentId }

/-- The tables after the folder was trashed and some time has passed. -/
def inTrash (t : Tree) (id : FolderId) (root : Folder) (secs : ℕ) : Tree :=
  { t.trashSubtree id root.lpath with now := t.now + secs }

/-- The tables after the restore. -/
def back (t : Tree) (id : FolderId) (root : Folder) (secs : ℕ) : Tree :=
  (inTrash t id root secs).restoreSubtree id (restoredRow (t.now + secs) (trashedRow t.now root))

theorem samePlaces_inTrash : t.SamePlaces (inTrash t id root secs) :=
  ⟨(samePlaces_trash t id root.lpath).folders, (samePlaces_trash t id root.lpath).files⟩

include hs in
theorem inTrash_sound : (inTrash t id root secs).Sound := by
  have hm : (t.trashSubtree id root.lpath).Marked := hs.marked.trash root.lpath
  exact ⟨(samePlaces_inTrash secs).placed hs.placed, hm.folders, hm.files⟩

theorem inTrash_get {r : Folder} (hr : t.folders.get f = some r) :
    (inTrash t id root secs).folders.get f = some (if f = id then trashedRow t.now r
      else if root.lpath <+: r.lpath ∧ r.isTrashed = false then r.trash t.now else r) := by
  show (t.folders.get f).map _ = _
  rw [hr]
  rfl

theorem inTrash_self (hroot : t.folders.get id = some root) :
    (inTrash t id root secs).folders.get id = some (trashedRow t.now root) :=
  (inTrash_get secs hroot).trans (by rw [if_pos rfl])

theorem inTrash_getFile {r : File} (hr : t.files.get x = some r) :
    (inTrash t id root secs).files.get x = some (
      if r.folderId.any (t.under root.lpath) ∧ r.isTrashed = false then r.trash t.now else r) := by
  show (t.files.get x).map _ = _
  rw [hr]
  rfl

theorem restore_get {s : Tree} {r new : Folder} (hr : s.folders.get f = some r) :
    (s.restoreSubtree id new).folders.get f = some (if f = id then new
      else if new.lpath <+: r.lpath ∧ r.isTrashed = true ∧ r.originalParentId = none then r.restore s.now
      else r) := by
  show (s.folders.get f).map _ = _
  rw [hr]
  rfl

theorem restore_getFile {s : Tree} {r : File} {new : Folder} (hr : s.files.get x = some r) :
    (s.restoreSubtree id new).files.get x = some (
      if r.folderId.any (s.under new.lpath) ∧ r.isTrashed = true ∧ r.originalFolderId = none then
        r.restore s.now else r) := by
  show (s.files.get x).map _ = _
  rw [hr]
  rfl

include hs in
/-- What has no mark below the folder is live in the end, everything else is as it was. -/
theorem back_get {r : Folder} (hr : t.folders.get f = some r) (hf : f ≠ id) :
    (back t id root secs).folders.get f = some (
      if root.lpath <+: r.lpath ∧ r.originalParentId = none then r.restore (t.now + secs) else r) := by
  have hm := hs.marked.folders f r hr
  rw [back, restore_get (inTrash_get secs hr), if_neg hf, if_neg hf]
  show some (if root.lpath <+: _ ∧ _ then _ else _) = _
  by_cases hl : root.lpath <+: r.lpath
  · by_cases ht : r.isTrashed = false
    · have hmark := (hm.live ht).1
      simp [hl, ht, hmark, Folder.trash, Folder.restore, inTrash]
    · by_cases hmark : r.originalParentId = none
      · simp [hl, ht, hmark, inTrash]
      · simp [ht, hmark]
  · simp [hl]

include hs in
theorem back_getFile {r : File} (hr : t.files.get x = some r) :
    (back t id root secs).files.get x = some (
      if r.folderId.any (t.under root.lpath) ∧ r.originalFolderId = none then r.restore (t.now + secs)
      else r) := by
  have hm := hs.marked.files x r hr
  have hunder : (inTrash t id root secs).under root.lpath = t.under root.lpath :=
    funext ((samePlaces_inTrash secs).under_eq root.lpath)
  rw [back, restore_getFile (inTrash_getFile secs hr)]
  show some (if Option.any ((inTrash t id root secs).under root.lpath) _ = true ∧ _ then _ else _) = _
  simp only [hunder]
  by_cases hl : r.folderId.any (t.under root.lpath) = true
  · by_cases ht : r.isTrashed = false
    · have hmark := (hm.live ht).1
      simp [hl, ht, hmark, File.trash, File.restore, inTrash]
    · by_cases hmark : r.originalFolderId = none
      · simp [hl, ht, hmark, inTrash]
      · simp [ht, hmark]
  · simp [hl]

theorem back_self (hroot : t.folders.get id = some root) : (back t id root secs).folders.get id =
    some (restoredRow (t.now + secs) (trashedRow t.now root)) := by
  rw [back, restore_get (inTrash_get secs hroot), if_pos rfl]

/-- The row of the folder is the one it had. -/
theorem restored_trashed (hm : FolderMarked root) (hlive : root.isTrashed = false) :
    restoredRow (t.now + secs) (trashedRow t.now root) = { root with updatedAt := t.now + secs } := by
  obtain ⟨h1, h2⟩ := hm.live hlive
  simp [restoredRow, trashedRow, Folder.restore, Folder.trash, h1, h2, hlive]

theorem back_getFile_none (hx : t.files.get x = none) : (back t id root secs).files.get x = none := by
  show ((t.files.get x).map _).map _ = _
  rw [hx]
  rfl

include hroot in
theorem back_places (f : FolderId) :
    ((back t id root secs).folders.get f).map place = (t.folders.get f).map place := by
  have hin : t.SamePlaces (inTrash t id root secs) := samePlaces_inTrash secs
  exact ((samePlaces_restore (inTrash_self secs hroot) (t.now + secs)).folders f).trans (hin.folders f)

include hs in
theorem back_filePlaces (x : FileId) :
    ((back t id root secs).files.get x).map File.indexKey = (t.files.get x).map File.indexKey := by
  rcases hr : t.files.get x with _ | r
  · rw [back_getFile_none secs hr]
  · rw [back_getFile hs secs hr]
    split_ifs <;> rfl

include hs hroot in
/-- With all marks in place, every row is live or trashed as before. -/
theorem back_trashed (hlive : root.isTrashed = false) (hm : MarkedBelow t id) {r : Folder}
    (hr : t.folders.get f = some r) : ∃ r', (back t id root secs).folders.get f = some r' ∧
      r'.isTrashed = r.isTrashed ∧ r'.originalParentId = r.originalParentId := by
  by_cases hf : f = id
  · subst hf
    obtain rfl : root = r := mem_unique hroot hr
    rw [back_self secs hroot, restored_trashed secs (hs.marked.folders f root hroot) hlive]
    exact ⟨_, rfl, rfl, rfl⟩
  · rw [back_get hs secs hr hf]
    refine ⟨_, rfl, ?_⟩
    split_ifs with hc
    · have hlv : r.isTrashed = false := by
        by_contra ht
        have hcl := (hs.placed.isPrefix_iff hroot hr).mp hc.1
        exact hm.folders f r hr hf hcl (by simpa using ht) hc.2
      exact ⟨hlv.symm, rfl⟩
    · exact ⟨rfl, rfl⟩

include hs hroot in
theorem back_fileTrashed (hm : MarkedBelow t id) {r : File} (hr : t.files.get x = some r) :
    ∃ r', (back t id root secs).files.get x = some r' ∧ r'.isTrashed = r.isTrashed ∧
      r'.originalFolderId = r.originalFolderId := by
  rw [back_getFile hs secs hr]
  refine ⟨_, rfl, ?_⟩
  split_ifs with hc
  · have hlv : r.isTrashed = false := by
      by_contra ht
      rcases hfo : r.folderId with _ | p
      · rw [hfo] at hc
        exact absurd hc.1 (by simp)
      · obtain ⟨q, hq, -⟩ := hs.placed.files x r hr p hfo
        have hu : t.under root.lpath p = true := by
          have := hc.1
          rwa [hfo, any_some] at this
        exact hm.files x r p hr hfo ((hs.placed.under_iff hroot hq).mp hu) (by simpa using ht) hc.2
    exact ⟨hlv.symm, rfl⟩
  · exact ⟨rfl, rfl⟩

include hs hroot in
/-- **The tables at the end are those of the beginning exactly if all marks are in place.** -/
theorem givesBack_iff (hlive : root.isTrashed = false) :
    GivesBack t (back t id root secs) ↔ MarkedBelow t id := by
  constructor
  · intro h
    refine ⟨fun f r hr hf hc ht hmark => ?_, fun x r p hr hfo hc ht hmark => ?_⟩
    · obtain ⟨r', hr', ht', -⟩ := h.trashedFolders f r hr ht
      have hl := (hs.placed.isPrefix_iff hroot hr).mpr hc
      rw [back_get hs secs hr hf, if_pos ⟨hl, hmark⟩] at hr'
      obtain rfl := Option.some.inj hr'
      cases ht'
    · obtain ⟨r', hr', ht', -⟩ := h.trashedFiles x r hr ht
      obtain ⟨q, hq, -⟩ := hs.placed.files x r hr p hfo
      have hu : r.folderId.any (t.under root.lpath) = true := by
        rw [hfo, any_some]
        exact (hs.placed.under_iff hroot hq).mpr hc
      rw [back_getFile hs secs hr, if_pos ⟨hu, hmark⟩] at hr'
      obtain rfl := Option.some.inj hr'
      cases ht'
  · intro hm
    refine ⟨fun f => ?_, fun x => ?_, fun f r hr ht => ?_, fun x r hr ht => ?_,
      back_places hroot secs, back_filePlaces hs secs⟩
    · rcases hr : t.folders.get f with _ | r
      · have hn := back_places hroot secs f
        rw [hr, map_none, map_eq_none_iff] at hn
        rw [hn]
      · obtain ⟨r', hr', ht, -⟩ := back_trashed hs hroot secs hlive hm hr
        rw [hr', any_some, any_some, ht]
    · rcases hr : t.files.get x with _ | r
      · rw [back_getFile_none secs hr]
      · obtain ⟨r', hr', ht, -⟩ := back_fileTrashed hs hroot secs hm hr
        rw [hr', any_some, any_some, ht]
    · obtain ⟨r', hr', ht', hmark⟩ := back_trashed hs hroot secs hlive hm hr
      exact ⟨r', hr', ht'.trans ht, hmark⟩
    · obtain ⟨r', hr', ht', hmark⟩ := back_fileTrashed hs hroot secs hm hr
      exact ⟨r', hr', ht'.trans ht, hmark⟩

end RoundTrip

theorem GivesBack.noMoreLive (h : GivesBack t t') (hd : t'.drives = t.drives) : NoMoreLive t t' where
  drives := hd
  folders := by
    intro f r' hr'
    have hp := h.folders f
    rw [hr', map_some] at hp
    obtain ⟨r, hr, hp⟩ := map_eq_some_iff.mp hp.symm
    refine ⟨r, hr, hp.symm, fun hl => ?_⟩
    have hlive := h.liveFolders f
    rw [hr', hr, any_some, any_some, hl] at hlive
    simpa using hlive.symm
  kept := by
    rintro f ⟨r, hr⟩
    have hp := h.folders f
    rw [hr, map_some] at hp
    obtain ⟨r', hr', -⟩ := map_eq_some_iff.mp hp
    exact ⟨r', hr'⟩
  files := by
    intro x r' hx
    have hp := h.files x
    rw [hx, map_some] at hp
    obtain ⟨r, hr, hp⟩ := map_eq_some_iff.mp hp.symm
    refine ⟨r, hr, hp.symm, fun hl => ?_⟩
    have hlive := h.liveFiles x
    rw [hx, hr, any_some, any_some, hl] at hlive
    simpa using hlive.symm

/-- **Trashing a live folder and restoring it is the identity exactly if every item that was in the trash
below it carries its mark.** -/
theorem trash_restore_inverse (t : Tree) (id : FolderId) (root : Folder) (secs : ℕ) (hs : t.Sound)
    (hu : t.UniqueNames) (href : t.References) (hroot : t.folders.get id = some root)
    (hlive : root.isTrashed = false) : RoundTrip t id secs ↔ MarkedBelow t id := by
  have hself := inTrash_self secs hroot
  rw [← givesBack_iff hs hroot secs hlive]
  constructor
  · rintro ⟨t₁, t₂, h1, h2, hback⟩
    obtain ⟨h0, -⟩ | ⟨-, root', hroot', -, rfl⟩ := trashFolder_ok h1
    · cases h0
    · obtain rfl : root = root' := mem_unique hroot hroot'
      obtain ⟨h0, -⟩ | ⟨-, old, hold, -, rfl⟩ := restoreFolder_ok (inTrash_sound hs secs) h2
      · cases h0
      · obtain rfl := mem_unique hself hold
        exact hback
  · intro hback
    refine ⟨t.trashSubtree id root.lpath, back t id root secs, ?_, ?_, hback⟩
    · show t.trashFolder id = _
      simp only [trashFolder, hroot, hlive]
      exact commit_of_noMoreLive (noMoreLive_trash t id root.lpath) hu href 1
    · show (inTrash t id root secs).restoreFolder id = _
      rw [restoreFolder_eq (inTrash_sound hs secs) hself rfl]
      exact commit_of_noMoreLive (hback.noMoreLive rfl) hu href 1

theorem exists_live (h : ((t.folders.get id).any fun r => !r.isTrashed) = true) :
    ∃ r, t.folders.get id = some r ∧ r.isTrashed = false := by
  obtain ⟨r, hr, hl⟩ := (any_eq_true _ _).mp h
  exact ⟨r, hr, by simpa using hl⟩

/-- The file in `C` is in the trash with its mark when `F` is trashed and restored. -/
theorem trash_restore_inverse_marked : RoundTrip (nested.perform (.trashFile 0, {})) 1 5 := by
  have hF : (((nested.perform (.trashFile 0, {})).folders.get 1).any fun r => !r.isTrashed) = true := by
    decide +kernel
  obtain ⟨r, hr, hl⟩ := exists_live hF
  have hs : (nested.perform (.trashFile 0, {})).Sound := nested_sound.perform trivial
  exact (trash_restore_inverse _ 1 r 5 hs (by decide +kernel) (by decide +kernel) hr hl).mpr
    (by decide +kernel)

/-- The file in `C` came into the trash along with `C`. Then `F` is trashed and restored: both statements
commit, and the file is live. -/
theorem trash_restore_revives : (nested.perform (.trashFolder 2, {})).Sound ∧
    (nested.perform (.trashFolder 2, {})).fileTrashed 0 = true ∧
    ∃ t₁ t₂, (nested.perform (.trashFolder 2, {})).effect (.trashFolder 1) {} = .ok (1, t₁) ∧
      t₁.effect (.restoreFolder 1) {} = .ok (1, t₂) ∧ t₂.fileTrashed 0 = false := by
  refine ⟨nested_sound.perform trivial, by decide +kernel, ?_⟩
  have h : ((nested.perform (.trashFolder 2, {})).effect (.trashFolder 1) {}).toOption.any (fun a =>
      a.1 = 1 ∧ (a.2.effect (.restoreFolder 1) {}).toOption.any (fun b =>
        b.1 = 1 ∧ b.2.fileTrashed 0 = false) = true) = true := by
    decide +kernel
  obtain ⟨⟨n, t₁⟩, h1, hp⟩ := (any_eq_true _ _).mp h
  obtain ⟨rfl, hb⟩ := of_decide_eq_true hp
  obtain ⟨⟨m, t₂⟩, h2, hq⟩ := (any_eq_true _ _).mp hb
  obtain ⟨rfl, hx⟩ := of_decide_eq_true hq
  exact ⟨t₁, t₂, toOption_eq_some h1, toOption_eq_some h2, hx⟩

end OxiCloud.Folders.Trash
