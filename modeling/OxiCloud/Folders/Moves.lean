import OxiCloud.Folders.Upkeep
import OxiCloud.Lib.Programs
import OxiCloud.Lib.Runs

/-! # Moving folders

`moveFolderWithPerms` is the move of the folder service: the checks of the mounts, of the caller's
permissions and of the policies of the drives, and then the statement `moveFolder`. Of the destination it
is asked only whether it is the folder itself.

A move that succeeds changes one parent link (`moveFolderWithPerms_ok`), whatever the triggers make of
the other columns. The folders therefore stay a forest exactly as long as every successful move goes to a
destination outside of the subtree it moves (`moves_keep_forest`). -/

namespace OxiCloud.Folders.Moves

open Lib.Tables Lib.Forests Lib.Programs Schema Folders Option

/-- What the mount router makes of an id. -/
inductive ResolvedId where
  | regular
  | mountRoot (mount : ℕ)
  | mountChild (mount : ℕ)
  deriving DecidableEq

/-- The permissions a move asks for. -/
inductive Permission where
  | update
  | create
  deriving DecidableEq

/-- A call of `move_folder_with_perms`: its arguments, the answers of the services it consults, the time
since the last change, and what happens at its statement. -/
structure MoveCall where
  id : FolderId
  parentId : Option FolderId
  classify : FolderId → ResolvedId := fun _ => .regular
  require : Permission → FolderId → Except DomainError Unit := fun _ _ => .ok ()
  requireMountPerm : Permission → Except DomainError Unit := fun _ => .ok ()
  moveWithin : Except DomainError Unit := .ok ()
  driveRepo : Bool := true
  checkDriveQuota : Option (DriveId → ℕ → Except DomainError Unit) := none
  secs : ℕ := 0
  draw : Draw := {}

/-- `cross_boundary_move_err`. -/
def crossBoundaryMoveErr : DomainError := operationNotSupported "Folder"

/-- `mount_dest_node`: the destination must be in the mount `m`. -/
def mountDestNode (c : MoveCall) (m : ℕ) : Except DomainError Unit :=
  match c.parentId.map c.classify with
  | some (.mountRoot m') | some (.mountChild m') => if m' = m then .ok () else .error crossBoundaryMoveErr
  | _ => .error crossBoundaryMoveErr

/-- The destination of a native folder is not in a mount. -/
def refuseMountParent (c : MoveCall) : Except DomainError Unit :=
  if c.parentId.any fun p => c.classify p ≠ .regular then .error crossBoundaryMoveErr else .ok ()

/-- The checks of the destination: it is not the folder itself, and the caller may create there. -/
def checkParent (c : MoveCall) : Except DomainError Unit :=
  match c.parentId with
  | none => .ok ()
  | some p => if p = c.id then .error ⟨.invalidInput, "Folder"⟩ else c.require .create p

/-- `folder_subtree_bytes`. -/
def folderSubtreeBytes (t : Tree) (id : FolderId) : ℕ :=
  ∑ x ∈ t.files.sat fun _ r => !r.isTrashed && r.folderId.any (t.under (t.lpathOf id)),
    (t.files.get x).elim 0 File.size

/-- The policies of the source's drive and the quota of the destination's, for a move across drives. -/
def crossDriveGate (c : MoveCall) (t : Tree) : Except DomainError Unit :=
  match c.driveRepo, c.parentId with
  | true, some p =>
    match (t.folders.get c.id).bind fun r => (t.drives.get r.driveId).map fun d => (r.driveId, d),
        t.folders.get p with
    | some (src, policies), some q =>
      if src = q.driveId then .ok ()
      else if policies.forbidCrossDriveMove then .error (operationNotSupported "Move")
      else match c.checkDriveQuota with
        | none => .ok ()
        | some check => check q.driveId (folderSubtreeBytes t c.id)
    | _, _ => .error (internalError "Drive")
  | _, _ => .ok ()

/-- `move_folder` of the repository, with the component the service puts on its errors. -/
def moveFolder (c : MoveCall) (t : Tree) : Except DomainError Tree :=
  match { t with now := t.now + c.secs }.effect (.moveFolder c.id c.parentId) c.draw with
  | .error .uniqueViolation => .error ⟨.alreadyExists, "FolderStorage"⟩
  | .error .other => .error ⟨.internalError, "FolderStorage"⟩
  | .ok (0, _) => .error ⟨.notFound, "FolderStorage"⟩
  | .ok (_ + 1, t') => .ok t'

/-- `move_folder_with_perms`. -/
def moveFolderWithPerms (c : MoveCall) (t : Tree) : Except DomainError Tree :=
  match c.classify c.id with
  | .mountRoot _ => .error (operationNotSupported "Folder")
  | .mountChild m => do
    mountDestNode c m
    c.requireMountPerm .update
    c.requireMountPerm .create
    c.moveWithin
    return t
  | .regular => do
    refuseMountParent c
    c.require .update c.id
    checkParent c
    crossDriveGate c t
    moveFolder c t

/-! ### What a move does to the parent links -/

/-- The same folders with the same parents. -/
def SameLinks (t t' : Tree) : Prop :=
  ∀ f, (t'.folders.get f).map Folder.parentId = (t.folders.get f).map Folder.parentId

variable {t t' : Tree} {id f : FolderId} {old new : Folder} {c : MoveCall}

theorem SameLinks.trans {t'' : Tree} (h : SameLinks t t') (h' : SameLinks t' t'') : SameLinks t t'' :=
  fun f => (h' f).trans (h f)

theorem SameLinks.par (h : SameLinks t t') : t'.par = t.par := by
  funext f
  have hf := congrArg Option.join (h f)
  rwa [← bind_id_eq_join, ← bind_id_eq_join, bind_map, bind_map] at hf

theorem SameLinks.hasFolder (h : SameLinks t t') : t'.HasFolder f ↔ t.HasFolder f := by
  have hf := congrArg Option.isSome (h f)
  rw [isSome_map, isSome_map, Bool.eq_iff_iff] at hf
  rw [Tree.HasFolder, Tree.HasFolder, ← isSome_iff_exists, ← isSome_iff_exists]
  exact hf

theorem sameLinks_modify {g : FolderId → Folder → Folder} (hg : ∀ f r, (g f r).parentId = r.parentId)
    (hf : t'.folders = t.folders.modify g) : SameLinks t t' := by
  intro f
  rw [hf, Table.get_modify, map_map]
  cases t.folders.get f with
  | none => rfl
  | some r => exact congrArg some (hg f r)

theorem sameLinks_rebasePaths (t : Tree) : SameLinks t (t.rebasePaths id old new) := by
  refine sameLinks_modify (fun f r => ?_) rfl
  split_ifs <;> rfl

theorem sameLinks_cascadeDrives (t : Tree) : SameLinks t (t.cascadeDrives old new) := by
  rw [Tree.cascadeDrives]
  split_ifs
  · refine sameLinks_modify (fun f r => ?_) rfl
    split_ifs <;> rfl
  · exact fun _ => rfl

theorem sameLinks_cascadeFolderPath (h : t.cascadeFolderPath id old new = some t') :
    SameLinks t t' := by
  rw [Tree.cascadeFolderPath] at h
  split_ifs at h
  · obtain rfl := Option.some.inj h
    exact (sameLinks_rebasePaths t).trans (sameLinks_cascadeDrives _)
  · obtain rfl := Option.some.inj h
    exact sameLinks_cascadeDrives t

/-- One link is changed, to a folder that is there. -/
structure Relinked (t : Tree) (id : FolderId) (parent : Option FolderId) (t' : Tree) : Prop where
  par : t'.par = Function.update t.par id parent
  hasFolder : ∀ f, t'.HasFolder f ↔ t.HasFolder f
  moved : t.HasFolder id
  parent : ∀ p, parent = some p → t.HasFolder p

theorem relink_links {g : Folder → Folder} (hold : t.folders.get id = some old)
    (h : t.relink id old g = some t') : Relinked t id (g old).parentId t' := by
  obtain ⟨new, hnew, h⟩ := bind_eq_some_iff.mp h
  have hsame := sameLinks_cascadeFolderPath h
  have hlink : new.parentId = (g old).parentId ∧ ∀ p, (g old).parentId = some p → t.HasFolder p := by
    rcases Tree.computeFolderPath_cases hnew with ⟨hp, rfl⟩ | ⟨p, q, hp, hq, rfl⟩
    · exact ⟨rfl, fun p hp' => absurd (hp.symm.trans hp') (by simp)⟩
    · refine ⟨rfl, fun p' hp' => ?_⟩
      obtain rfl : p = p' := mem_unique hp hp'
      exact ⟨q, hq⟩
  refine ⟨?_, fun f => ?_, ⟨old, hold⟩, hlink.2⟩
  · rw [hsame.par]
    funext f
    by_cases hf : f = id
    · subst hf
      rw [Function.update_self, ← hlink.1]
      exact Tree.par_of_get (Table.get_set_self ..)
    · rw [Function.update_of_ne hf, Tree.par, Tree.par]
      exact congrArg (Option.bind · _) (Table.get_set_ne _ _ hf)
  · rw [hsame.hasFolder]
    by_cases hf : f = id
    · subst hf
      exact ⟨fun _ => ⟨old, hold⟩, fun _ => ⟨new, Table.get_set_self ..⟩⟩
    · show (∃ r, (t.folders.set id new).get f = some r) ↔ _
      rw [Table.get_set_ne _ _ hf]
      rfl

theorem moveFolder_links {n : ℕ} {parent : Option FolderId}
    (h : t.moveFolder id parent = .ok (n + 1, t')) : Relinked t id parent t' := by
  rw [Tree.moveFolder] at h
  cases hold : t.folders.get id with
  | none => rw [hold] at h; cases h
  | some old =>
    simp only [hold] at h
    split_ifs at h
    · cases h
    · obtain ⟨-, h, -⟩ := Tree.commitSome_ok h
      exact relink_links hold h

/-- **A successful move of a folder of the tables changes one link.** -/
theorem moveFolderWithPerms_regular (hid : c.classify c.id = .regular)
    (h : moveFolderWithPerms c t = .ok t') : Relinked t c.id c.parentId t' := by
  rw [moveFolderWithPerms, hid] at h
  obtain ⟨_, -, h⟩ := bind_eq_ok.mp h
  obtain ⟨_, -, h⟩ := bind_eq_ok.mp h
  obtain ⟨_, -, h⟩ := bind_eq_ok.mp h
  obtain ⟨_, -, h⟩ := bind_eq_ok.mp h
  unfold moveFolder at h
  cases he : { t with now := t.now + c.secs }.effect (.moveFolder c.id c.parentId) c.draw with
  | error e => cases e <;> rw [he] at h <;> cases h
  | ok x =>
    obtain ⟨n, t₁⟩ := x
    rw [he] at h
    unfold Tree.effect at he
    split_ifs at he
    cases n with
    | zero => cases h
    | succ n =>
      obtain rfl : t₁ = t' := Except.ok.inj h
      obtain ⟨h1, h2, h3, h4⟩ := moveFolder_links he
      exact ⟨h1, h2, h3, h4⟩

/-- A move inside of a mount does not touch the tables. -/
theorem moveFolderWithPerms_mount (hid : c.classify c.id ≠ .regular)
    (h : moveFolderWithPerms c t = .ok t') : t' = t := by
  rw [moveFolderWithPerms] at h
  cases hc : c.classify c.id with
  | mountRoot m => rw [hc] at h; cases h
  | mountChild m =>
    rw [hc] at h
    obtain ⟨_, -, h⟩ := bind_eq_ok.mp h
    obtain ⟨_, -, h⟩ := bind_eq_ok.mp h
    obtain ⟨_, -, h⟩ := bind_eq_ok.mp h
    obtain ⟨_, -, h⟩ := bind_eq_ok.mp h
    exact (Except.ok.inj h).symm
  | regular => exact absurd hc hid

/-! ### Forests -/

/-- No folder lies above itself, and every folder lies below a folder without parent. -/
structure Forest (t : Tree) : Prop where
  acyclic : Acyclic t.par
  root : ∀ f, t.HasFolder f → ∃ g, t.HasFolder g ∧ Climbs t.par f g ∧ t.par g = none

theorem rooted_of_climbs {par : FolderId → Option FolderId} {g : FolderId} (h : Climbs par f g)
    (hg : par g = none) : Rooted par f := by
  induction h using Relation.ReflTransGen.head_induction_on with
  | refl => exact .root hg
  | head hup _ ih => exact .up hup ih

theorem Forest.rooted (h : Forest t) (f : FolderId) : Rooted t.par f := by
  by_cases hf : t.HasFolder f
  · obtain ⟨g, -, hc, hg⟩ := h.root f hf
    exact rooted_of_climbs hc hg
  · refine .root ?_
    rw [Tree.par, eq_none_iff_forall_ne_some.mpr fun r hr => hf ⟨r, hr⟩]
    rfl

theorem Forest.hasParent (h : Forest t) {p : FolderId} (hp : t.par f = some p) : t.HasFolder p := by
  have hf : t.HasFolder f := by
    by_contra hn
    rw [Tree.par, eq_none_iff_forall_ne_some.mpr fun r hr => hn ⟨r, hr⟩] at hp
    cases hp
  obtain ⟨g, ⟨r, hr⟩, hc, hg⟩ := h.root f hf
  by_contra hn
  have hpn : t.par p = none := by
    rw [Tree.par, eq_none_iff_forall_ne_some.mpr fun r hr => hn ⟨r, hr⟩]
    rfl
  rcases climbs_cases hc with rfl | ⟨y, hy, hyg⟩
  · rw [hg] at hp
    cases hp
  · obtain rfl : p = y := mem_unique hp hy
    rcases climbs_cases hyg with rfl | ⟨z, hz, -⟩
    · exact hn ⟨r, hr⟩
    · rw [hpn] at hz
      cases hz

theorem forest_of_rooted (h : ∀ f, Rooted t.par f)
    (hp : ∀ f p, t.par f = some p → t.HasFolder p) : Forest t where
  acyclic := acyclic_of_rooted h
  root := by
    intro f hf
    obtain ⟨g, hc, hg⟩ := (h f).exists_root
    refine ⟨g, ?_, hc, hg⟩
    rcases Relation.ReflTransGen.cases_tail hc with rfl | ⟨y, -, hy⟩
    · exact hf
    · exact hp y g hy

/-- The destination of the call is not in the subtree of the folder it moves. -/
def Outward (c : MoveCall) (t : Tree) : Prop := ∀ p, c.parentId = some p → ¬ Climbs t.par p c.id

/-- **One changed link keeps a forest exactly if it leads out of the subtree.** -/
theorem Relinked.forest_iff (hf : Forest t) (h : Relinked t c.id c.parentId t') :
    Forest t' ↔ Outward c t := by
  constructor
  · intro hf' p hp hc
    have hcycle := cycle_update (d := p) hc
    rw [← hp, ← h.par] at hcycle
    exact hf'.acyclic c.id hcycle
  · intro hout
    have hroot : ∀ f, Rooted t'.par f := by
      intro f
      rw [h.par]
      cases hp : c.parentId with
      | none => exact rooted_update_none hf.rooted f
      | some p => exact rooted_update hf.rooted (hout p hp) f
    refine forest_of_rooted hroot fun f p hp => ?_
    rw [h.hasFolder]
    rw [h.par] at hp
    by_cases hfid : f = c.id
    · rw [hfid, Function.update_self] at hp
      exact h.parent p hp
    · rw [Function.update_of_ne hfid] at hp
      exact hf.hasParent hp

theorem forest_of_placed (h : t.Placed) : Forest t := by
  refine forest_of_rooted h.rooted fun f p hp => ?_
  cases hr : t.folders.get f with
  | none => rw [Tree.par, hr] at hp; cases hp
  | some r =>
    obtain ⟨q, hq, -⟩ := (h.folders f r hr).below p ((Tree.par_of_get hr).symm.trans hp)
    exact ⟨q, hq⟩

/-! ### Sequences of moves -/

/-- The tables after a call; one that fails leaves them as they are. -/
def after (t : Tree) (c : MoveCall) : Tree := (moveFolderWithPerms c t).toOption.getD t

/-- The tables before, between and after a sequence of calls. -/
def states : List MoveCall → Tree → List Tree
  | [], t => [t]
  | c :: l, t => t :: states l (after t c)

/-- The call does not succeed in moving a folder of the tables into its own subtree. -/
def Proper (c : MoveCall) (t : Tree) : Prop :=
  ∀ t', moveFolderWithPerms c t = .ok t' → c.classify c.id = .regular → Outward c t

/-- The same of every call of a sequence. -/
def ProperAll : List MoveCall → Tree → Prop
  | [], _ => True
  | c :: l, t => Proper c t ∧ ProperAll l (after t c)

theorem after_forest_iff (hf : Forest t) : Forest (after t c) ↔ Proper c t := by
  cases h : moveFolderWithPerms c t with
  | error e =>
    have hafter : after t c = t := by rw [after, h]; rfl
    rw [hafter]
    exact ⟨fun _ t' h' => absurd (h.symm.trans h') (by simp), fun _ => hf⟩
  | ok t' =>
    have hafter : after t c = t' := by rw [after, h]; rfl
    rw [hafter]
    by_cases hid : c.classify c.id = .regular
    · rw [(moveFolderWithPerms_regular hid h).forest_iff hf]
      exact ⟨fun hout _ _ _ => hout, fun hp => hp t' h hid⟩
    · rw [moveFolderWithPerms_mount hid h]
      exact ⟨fun _ _ _ hreg => absurd hreg hid, fun _ => hf⟩

/-- **The folders stay a forest exactly as long as no move succeeds in going into its own subtree.** -/
theorem moves_keep_forest (l : List MoveCall) (t : Tree) (hf : Forest t) :
    (∀ s ∈ states l t, Forest s) ↔ ProperAll l t :=
  Lib.Runs.always_iff (fun _ _ => True) ProperAll (fun l t => ∀ s ∈ states l t, Forest s)
    (fun _ => List.forall_mem_singleton) (fun _ _ _ => List.forall_mem_cons) (fun _ => trivial) (fun _ _ _ => Iff.rfl)
    (fun _ _ _ _ => ⟨trivial, after_forest_iff⟩) trivial hf

/-- A drive with the folders `A` and, below it, `B`. -/
def nested : Tree := [(Op.createDrive ['d'], { newDrive := 0, newFolder := 0 : Draw }),
  (.insertFolder ['A'] 0 0, { newFolder := 1 }), (.insertFolder ['B'] 1 0, { newFolder := 2 })].foldl
    Tree.perform .empty

theorem nested_forest : Forest nested :=
  forest_of_placed (Tree.sound_empty.performAll (by decide +kernel)).placed

/-- `B` is moved to the root of the drive and then `A` into `B`, which is no longer below it. -/
theorem moves_keep_forest_swapped : Forest nested ∧ ∀ s ∈ states [{ id := 2, parentId := some 0 },
    { id := 1, parentId := some 2 }] nested, Forest s := by
  refine ⟨nested_forest, (moves_keep_forest _ nested nested_forest).mpr ⟨?_, ?_, trivial⟩⟩
  · rintro - - - p hp
    obtain rfl : 0 = p := Option.some.inj hp
    decide +kernel
  · rintro - - - p hp
    obtain rfl : 2 = p := Option.some.inj hp
    decide +kernel

/-- `A` is moved into `B`, which is below it: the move succeeds and closes a cycle. -/
theorem move_below_descendant : Forest nested ∧
    ∃ t', moveFolderWithPerms { id := 1, parentId := some 2 } nested = .ok t' ∧ ¬ Forest t' := by
  refine ⟨nested_forest, ?_⟩
  have h : (moveFolderWithPerms { id := 1, parentId := some 2 } nested).toOption.any
      (fun t' => t'.par 1 = some 2 ∧ t'.par 2 = some 1) = true := by
    decide +kernel
  obtain ⟨t', ht', hp⟩ := (any_eq_true _ _).mp h
  obtain ⟨h1, h2⟩ := of_decide_eq_true hp
  refine ⟨t', ?_, fun hf => hf.acyclic 1 (.head h1 (.single h2))⟩
  cases hm : moveFolderWithPerms { id := 1, parentId := some 2 } nested with
  | error e => rw [hm] at ht'; cases ht'
  | ok s => rw [hm] at ht'; exact congrArg Except.ok (Option.some.inj ht')

end OxiCloud.Folders.Moves
