import OxiCloud.Acl.Schema
import OxiCloud.Lib.Memos

/-! # The authorization engine

`PgAclEngine::check` with its seven caches. Each query of the engine is a function of the database; each
cache remembers the answers to one of them. The functions named `…Cached` answer from their cache and
fill it, as in the source, `check` is `check_inner`.

`decision` is what `check` computes when no cache has an entry. Caches that hold nothing but answers to
the present database (`Fresh`) cannot be told from empty ones: `check` then returns `decision`
(`check_returns`). -/

namespace OxiCloud.Acl

open Lib.Tables Lib.Memos Folders Schema Function

/-! ### The queries -/

/-- The pair of `subject_match_set`: the subject types and the ids a grant is matched against. -/
structure MatchSet where
  types : List SubjectType
  ids : Finset ℕ

/-- `subject_type = ANY($1) AND subject_id = ANY($2)`. -/
def MatchSet.selects (m : MatchSet) (target : Subject) : Bool :=
  decide (target.typeStr ∈ m.types) && decide (target.id ∈ m.ids)

namespace Store

/-- The set `expand_user` computes: the user, the internal group for an internal user (an unknown user
counts as external), and the groups of the user. -/
def expansion (db : Store) (u : UserId) : Finset ℕ :=
  insert u ((if db.users.get u = some false then {internalGroupId} else ∅) ∪ groupsForUser db.members u)

/-- The match set of a subject. -/
def matchSet (db : Store) : Subject → MatchSet
  | .user u => ⟨[.user, .group], db.expansion u⟩
  | s => ⟨[s.typeStr], {s.id}⟩

/-- The grant is matched by the match set and has not expired. -/
def live (db : Store) (m : MatchSet) (g : Grant) : Bool := m.selects g.subject && g.unexpired db.now

/-- `SELECT MIN(role)` of the grants on a drive. -/
def strongestRole (db : Store) (m : MatchSet) (d : DriveId) : Option Role :=
  grantRoles.find? fun r => db.grants.any fun g =>
    db.live m g && decide (g.resource = .drive d) && decide (g.role = r)

/-- `folder_cascade_grant_exists`. -/
def folderCascadeGrantExists (db : Store) (m : MatchSet) (p : Permission) (f : FolderId) : Bool :=
  db.grants.any fun g => db.live m g && decide (g.role ∈ rolesImplying p) &&
    match g.resource with
    | .folder gf => db.above gf f
    | _ => false

/-- `direct_grant_exists`, and `file_direct_grant_exists` for a file. -/
def directGrantExists (db : Store) (m : MatchSet) (p : Permission) (r : Resource) : Bool :=
  db.grants.any fun g => db.live m g && decide (g.role ∈ rolesImplying p) && decide (g.resource = r)

/-- `SELECT folder_id` of a file. -/
def fileParent (db : Store) (x : FileId) : Option FolderId := (db.tree.files.get x).bind File.folderId

end Store

/-! ### The caches -/

structure Engine where
  userGroupsCache : Memo UserId (Finset ℕ)
  ownerCache : Memo Resource DriveId
  driveRoleCache : Memo (Subject × DriveId) (Option Role)
  drivePoliciesCache : Memo DriveId Bool
  cascadeGrantCache : Memo (Subject × Resource × Permission) Bool
  directGrantCache : Memo (Subject × Resource × Permission) Bool
  fileParentCache : Memo FileId (Option FolderId)

namespace Engine

/-- An engine that has answered nothing. -/
def empty : Engine :=
  ⟨fun _ => none, fun _ => none, fun _ => none, fun _ => none, fun _ => none, fun _ => none, fun _ => none⟩

def userGroups : Slot Engine UserId (Finset ℕ) :=
  ⟨userGroupsCache, fun k v e => { e with userGroupsCache := Function.update e.userGroupsCache k (some v) }⟩

def owner : Slot Engine Resource DriveId :=
  ⟨ownerCache, fun k v e => { e with ownerCache := Function.update e.ownerCache k (some v) }⟩

def driveRole : Slot Engine (Subject × DriveId) (Option Role) :=
  ⟨driveRoleCache, fun k v e => { e with driveRoleCache := Function.update e.driveRoleCache k (some v) }⟩

def drivePolicies : Slot Engine DriveId Bool :=
  ⟨drivePoliciesCache,
    fun k v e => { e with drivePoliciesCache := Function.update e.drivePoliciesCache k (some v) }⟩

def cascadeGrant : Slot Engine (Subject × Resource × Permission) Bool :=
  ⟨cascadeGrantCache,
    fun k v e => { e with cascadeGrantCache := Function.update e.cascadeGrantCache k (some v) }⟩

def directGrant : Slot Engine (Subject × Resource × Permission) Bool :=
  ⟨directGrantCache,
    fun k v e => { e with directGrantCache := Function.update e.directGrantCache k (some v) }⟩

def fileParent : Slot Engine FileId (Option FolderId) :=
  ⟨fileParentCache, fun k v e => { e with fileParentCache := Function.update e.fileParentCache k (some v) }⟩

end Engine

/-! ### The check -/

variable (db : Store)

/-- `expand_user`. -/
def expandUser (u : UserId) : Loading Engine (Finset ℕ) :=
  memoised Engine.userGroups u (pure (db.expansion u))

/-- `subject_match_set`. -/
def subjectMatchSet : Subject → Loading Engine MatchSet
  | .user u => do
    let expanded ← expandUser db u
    pure ⟨[.user, .group], expanded⟩
  | s => pure ⟨[s.typeStr], {s.id}⟩

/-- `drive_of_cached`; a resource that is not found is not remembered. -/
def driveOfCached (r : Resource) : Loading Engine (Option DriveId) :=
  memoisedSome Engine.owner r (pure (db.driveOf r))

/-- `drive_policies_cached(…).read_only`. -/
def drivePoliciesCached (d : DriveId) : Loading Engine Bool :=
  memoised Engine.drivePolicies d (pure (db.readOnly d))

/-- `file_parent_folder_cached`. -/
def fileParentFolderCached (x : FileId) : Loading Engine (Option FolderId) :=
  memoised Engine.fileParent x (pure (db.fileParent x))

/-- `caller_role_on_drive_cached`. -/
def callerRoleOnDriveCached (s : Subject) (d : DriveId) : Loading Engine (Option Role) :=
  memoised Engine.driveRole (s, d) do
    let m ← subjectMatchSet db s
    pure (db.strongestRole m d)

/-- `cascade_grant_cached` on a folder. -/
def cascadeFolderCached (s : Subject) (f : FolderId) (p : Permission) : Loading Engine Bool :=
  memoised Engine.cascadeGrant (s, .folder f, p) do
    let m ← subjectMatchSet db s
    pure (db.folderCascadeGrantExists m p f)

/-- The part of `cascade_grant_cached` on a file that asks its folder. -/
def cascadeParentCached (s : Subject) (p : Permission) : Option FolderId → Loading Engine Bool
  | some f => cascadeFolderCached db s f p
  | none => pure false

/-- `cascade_grant_cached` on a file: the parent folder first, then the grants on the file. -/
def cascadeFileCached (s : Subject) (x : FileId) (p : Permission) : Loading Engine Bool :=
  memoised Engine.cascadeGrant (s, .file x, p) do
    let parent ← fileParentFolderCached db x
    let folderAllowed ← cascadeParentCached db s p parent
    if folderAllowed then pure true
    else do
      let m ← subjectMatchSet db s
      pure (db.directGrantExists m p (.file x))

/-- `cascade_grant_cached`. -/
def cascadeGrantCached (s : Subject) (r : Resource) (p : Permission) : Loading Engine Bool :=
  match r with
  | .folder f => cascadeFolderCached db s f p
  | .file x => cascadeFileCached db s x p
  | _ => pure false

/-- `direct_grant_cached`. -/
def directGrantCached (s : Subject) (r : Resource) (p : Permission) : Loading Engine Bool :=
  memoised Engine.directGrant (s, r, p) do
    let m ← subjectMatchSet db s
    pure (db.directGrantExists m p r)

/-- `read_only_gate_applies`. -/
def readOnlyGateApplies (p : Permission) : Bool := !decide (p = .read)

/-- The read-only freeze of a drive. -/
def frozen (p : Permission) (d : DriveId) : Loading Engine Bool :=
  if readOnlyGateApplies p then drivePoliciesCached db d else pure false

/-- `role.is_some_and(|r| r.expand().contains(&permission))`. -/
def roleAllows (role : Option Role) (p : Permission) : Bool := role.any fun r => decide (p ∈ r.expand)

/-- The part of `check_inner` for a file or folder in the drive `d`. -/
def checkInDrive (s : Subject) (p : Permission) (r : Resource) (d : DriveId) : Loading Engine Bool := do
  let stop ← frozen db p d
  if stop then pure false
  else do
    let role ← callerRoleOnDriveCached db s d
    if roleAllows role p then pure true else cascadeGrantCached db s r p

/-- The part of `check_inner` for a file or folder. -/
def checkPlaced (s : Subject) (p : Permission) (r : Resource) : Loading Engine Bool := do
  let drive ← driveOfCached db r
  match drive with
  | none => pure false
  | some d => checkInDrive db s p r d

/-- The part of `check_inner` for a drive. -/
def checkDrive (s : Subject) (p : Permission) (d : DriveId) : Loading Engine Bool := do
  let stop ← frozen db p d
  if stop then pure false
  else do
    let role ← callerRoleOnDriveCached db s d
    pure (roleAllows role p)

/-- `check_inner`. -/
def check (s : Subject) (p : Permission) (r : Resource) : Loading Engine Bool :=
  if readOnlyGateApplies p && db.migrationReadonly then pure false
  else match r with
    | .folder _ => checkPlaced db s p r
    | .file _ => checkPlaced db s p r
    | .drive d => checkDrive db s p d
    | .calendar _ => directGrantCached db s r p
    | .addressBook _ => directGrantCached db s r p
    | .playlist _ => directGrantCached db s r p

/-! ### What the check computes -/

namespace Store

/-- The role a subject is found to have on a drive. -/
def driveRole (s : Subject) (d : DriveId) : Option Role := db.strongestRole (db.matchSet s) d

/-- The grants on the folder and its ancestors, and for a file on the file itself. -/
def cascadeGrant (s : Subject) (r : Resource) (p : Permission) : Bool :=
  match r with
  | .folder f => db.folderCascadeGrantExists (db.matchSet s) p f
  | .file x =>
    (db.fileParent x).any (fun f => db.folderCascadeGrantExists (db.matchSet s) p f) ||
      db.directGrantExists (db.matchSet s) p r
  | _ => false

/-- A drive that is read-only for this permission. -/
def stops (p : Permission) (d : DriveId) : Bool := readOnlyGateApplies p && db.readOnly d

/-- The decision of an engine without cache entries. -/
def decision (s : Subject) (p : Permission) (r : Resource) : Bool :=
  if readOnlyGateApplies p && db.migrationReadonly then false
  else match r with
    | .folder _ => (db.driveOf r).any fun d =>
        !db.stops p d && (roleAllows (db.driveRole s d) p || db.cascadeGrant s r p)
    | .file _ => (db.driveOf r).any fun d =>
        !db.stops p d && (roleAllows (db.driveRole s d) p || db.cascadeGrant s r p)
    | .drive d => !db.stops p d && roleAllows (db.driveRole s d) p
    | .calendar _ => db.directGrantExists (db.matchSet s) p r
    | .addressBook _ => db.directGrantExists (db.matchSet s) p r
    | .playlist _ => db.directGrantExists (db.matchSet s) p r

end Store

/-- A resource outside every drive. -/
def Resource.Alone : Resource → Prop
  | calendar _ => True
  | addressBook _ => True
  | playlist _ => True
  | _ => False

/-- Every cache entry is the answer of the present database. -/
structure Fresh (e : Engine) : Prop where
  userGroups : Memo.True db.expansion e.userGroupsCache
  owner : ∀ r d, e.ownerCache r = some d → db.driveOf r = some d
  driveRole : Memo.True (fun k => db.driveRole k.1 k.2) e.driveRoleCache
  drivePolicies : Memo.True db.readOnly e.drivePoliciesCache
  cascadeGrant : Memo.True (fun k => db.cascadeGrant k.1 k.2.1 k.2.2) e.cascadeGrantCache
  directGrant :
    Memo.True (fun k => db.directGrantExists (db.matchSet k.1) k.2.2 k.2.1) e.directGrantCache
  alone : ∀ k v, e.directGrantCache k = some v → k.2.1.Alone
  fileParent : Memo.True db.fileParent e.fileParentCache

theorem fresh_empty : Fresh db .empty where
  userGroups := Memo.true_empty _
  owner _ _ h := nomatch h
  driveRole := Memo.true_empty _
  drivePolicies := Memo.true_empty _
  cascadeGrant := Memo.true_empty _
  directGrant := Memo.true_empty _
  alone _ _ h := nomatch h
  fileParent := Memo.true_empty _

variable {db} {s : Subject} {p : Permission} {r : Resource} {d : DriveId}

theorem expandUser_returns (u : UserId) : Returns (Fresh db) (expandUser db u) (db.expansion u) :=
  Returns.memoised (fun _ he _ hw => he.userGroups _ _ hw)
    (fun _ he => { he with userGroups := he.userGroups.update u }) (Returns.pure _)

theorem subjectMatchSet_returns (s : Subject) :
    Returns (Fresh db) (subjectMatchSet db s) (db.matchSet s) := by
  rcases s with u | g | t
  · exact (expandUser_returns u).bind (Returns.pure _)
  · exact Returns.pure _
  · exact Returns.pure _

theorem Fresh.owner_put {e : Engine} (he : Fresh db e) (hr : db.driveOf r = some d) :
    Fresh db (Engine.owner.put r d e) := by
  refine { he with owner := ?_ }
  intro r' d' hd'
  have hupd : update e.ownerCache r (some d) r' = some d' := hd'
  by_cases hrr : r' = r
  · subst hrr
    rw [update_self] at hupd
    rw [hr, hupd]
  · rw [update_of_ne hrr] at hupd
    exact he.owner r' d' hupd

theorem driveOfCached_returns (r : Resource) : Returns (Fresh db) (driveOfCached db r) (db.driveOf r) :=
  Returns.memoisedSome (fun _ he w hw => (he.owner r w hw).symm) (fun _ he _ hw => he.owner_put hw) (Returns.pure _)

theorem drivePoliciesCached_returns (d : DriveId) :
    Returns (Fresh db) (drivePoliciesCached db d) (db.readOnly d) :=
  Returns.memoised (fun _ he _ hw => he.drivePolicies _ _ hw)
    (fun _ he => { he with drivePolicies := he.drivePolicies.update d }) (Returns.pure _)

theorem fileParentFolderCached_returns (x : FileId) :
    Returns (Fresh db) (fileParentFolderCached db x) (db.fileParent x) :=
  Returns.memoised (fun _ he _ hw => he.fileParent _ _ hw)
    (fun _ he => { he with fileParent := he.fileParent.update x }) (Returns.pure _)

section

variable (s : Subject)

theorem callerRoleOnDriveCached_returns (d : DriveId) :
    Returns (Fresh db) (callerRoleOnDriveCached db s d) (db.driveRole s d) := by
  refine Returns.memoised (fun _ he _ hw => he.driveRole (s, d) _ hw)
    (fun _ he => { he with driveRole := he.driveRole.update (s, d) }) ?_
  exact (subjectMatchSet_returns s).bind (Returns.pure (db.strongestRole (db.matchSet s) d))

theorem cascadeFolderCached_returns (f : FolderId) (p : Permission) :
    Returns (Fresh db) (cascadeFolderCached db s f p) (db.cascadeGrant s (.folder f) p) :=
  Returns.memoised (fun _ he _ hw => he.cascadeGrant _ _ hw)
    (fun _ he => { he with cascadeGrant := he.cascadeGrant.update (s, .folder f, p) })
    ((subjectMatchSet_returns s).bind (Returns.pure _))

theorem cascadeParentCached_returns (p : Permission) (o : Option FolderId) :
    Returns (Fresh db) (cascadeParentCached db s p o)
      (o.any fun f => db.folderCascadeGrantExists (db.matchSet s) p f) := by
  rcases o with _ | f
  · exact Returns.pure _
  · exact cascadeFolderCached_returns s f p

theorem cascadeFileCached_returns (x : FileId) (p : Permission) :
    Returns (Fresh db) (cascadeFileCached db s x p) (db.cascadeGrant s (.file x) p) := by
  refine Returns.memoised (fun _ he _ hw => he.cascadeGrant _ _ hw)
    (fun _ he => { he with cascadeGrant := he.cascadeGrant.update (s, .file x, p) }) ?_
  refine (fileParentFolderCached_returns x).bind ((cascadeParentCached_returns s p _).bind ?_)
  show Returns _ _ (_ || _)
  rcases hf : (db.fileParent x).any fun f => db.folderCascadeGrantExists (db.matchSet s) p f
  · exact (subjectMatchSet_returns s).bind (Returns.pure _)
  · exact Returns.pure _

theorem cascadeGrantCached_returns (r : Resource) (p : Permission) :
    Returns (Fresh db) (cascadeGrantCached db s r p) (db.cascadeGrant s r p) := by
  rcases r with f | x | _ | _ | _ | _
  · exact cascadeFolderCached_returns s f p
  · exact cascadeFileCached_returns s x p
  all_goals exact Returns.pure _

theorem directGrantCached_returns (p : Permission) (hr : r.Alone) :
    Returns (Fresh db) (directGrantCached db s r p) (db.directGrantExists (db.matchSet s) p r) := by
  refine Returns.memoised (fun _ he _ hw => he.directGrant (s, r, p) _ hw) (fun e he => ?_) ?_
  · refine { he with directGrant := he.directGrant.update (s, r, p), alone := fun k v hv => ?_ }
    have hupd : update e.directGrantCache (s, r, p) _ k = some v := hv
    by_cases hk : k = (s, r, p)
    · rw [hk]
      exact hr
    · rw [update_of_ne hk] at hupd
      exact he.alone k v hupd
  · exact (subjectMatchSet_returns s).bind (Returns.pure (db.directGrantExists (db.matchSet s) p r))

end

theorem frozen_returns (p : Permission) (d : DriveId) :
    Returns (Fresh db) (frozen db p d) (db.stops p d) := by
  unfold frozen Store.stops
  rcases readOnlyGateApplies p
  · exact Returns.pure _
  · exact drivePoliciesCached_returns d

section

variable (s : Subject) (p : Permission)

theorem checkInDrive_returns (r : Resource) (d : DriveId) :
    Returns (Fresh db) (checkInDrive db s p r d)
      (!db.stops p d && (roleAllows (db.driveRole s d) p || db.cascadeGrant s r p)) := by
  refine (frozen_returns p d).bind ?_
  rcases db.stops p d
  · refine (callerRoleOnDriveCached_returns s d).bind ?_
    rcases roleAllows (db.driveRole s d) p
    · exact cascadeGrantCached_returns s r p
    · exact Returns.pure _
  · exact Returns.pure _

theorem checkPlaced_returns (r : Resource) :
    Returns (Fresh db) (checkPlaced db s p r) ((db.driveOf r).any fun d =>
      !db.stops p d && (roleAllows (db.driveRole s d) p || db.cascadeGrant s r p)) := by
  refine (driveOfCached_returns r).bind ?_
  rcases db.driveOf r with _ | d
  · exact Returns.pure _
  · exact checkInDrive_returns s p r d

theorem checkDrive_returns (d : DriveId) :
    Returns (Fresh db) (checkDrive db s p d) (!db.stops p d && roleAllows (db.driveRole s d) p) := by
  refine (frozen_returns p d).bind ?_
  rcases db.stops p d
  · exact (callerRoleOnDriveCached_returns s d).bind (Returns.pure _)
  · exact Returns.pure _

/-- **Caches that hold only answers of the present database are invisible.** -/
theorem check_returns (r : Resource) : Returns (Fresh db) (check db s p r) (db.decision s p r) := by
  refine Returns.ite (fun _ => Returns.pure _) fun _ => ?_
  cases r with
  | folder | file => exact checkPlaced_returns s p _
  | drive d => exact checkDrive_returns s p d
  | _ => exact directGrantCached_returns s p trivial

theorem check_empty (r : Resource) : (check db s p r .empty).1 = db.decision s p r :=
  (check_returns s p r _ (fresh_empty db)).1

end

/-! ### The batched read check -/

variable (db)

/-- The loop of `check_files_read_batch` that asks for the role once per drive. -/
def driveReadable (s : Subject) : List (FileId × DriveId) → Memo DriveId Bool → Loading Engine (Memo DriveId Bool)
  | [], m => pure m
  | (_, d) :: pairs, m =>
    if (m d).isSome then driveReadable s pairs m
    else do
      let role ← callerRoleOnDriveCached db s d
      driveReadable s pairs (update m d (some (roleAllows role .read)))

/-- The loop that collects the files. -/
def allowedFiles (s : Subject) (m : Memo DriveId Bool) : List (FileId × DriveId) → Loading Engine (Finset FileId)
  | [] => pure ∅
  | (x, d) :: pairs => do
    let ok ← (if (m d).getD false then pure true else check db s .read (.file x))
    let allowed ← allowedFiles s m pairs
    pure (if ok then insert x allowed else allowed)

/-- `check_files_read_batch`, with the rows of `get_file_drive_ids` in the order the query returns them. -/
def checkFilesReadBatch (s : Subject) (pairs : List (FileId × DriveId)) : Loading Engine (Finset FileId) := fun e =>
  (driveReadable db s pairs (fun _ => none) >>= fun m => allowedFiles db s m pairs)
    (pairs.foldl (fun e x => Engine.owner.put (.file x.1) x.2 e) e)

variable {db} {pairs : List (FileId × DriveId)} {m : Memo DriveId Bool}

theorem driveReadable_returns (pairs : List (FileId × DriveId))
    (hm : Memo.True (fun d => roleAllows (db.driveRole s d) .read) m) :
    ∃ m', Returns (Fresh db) (driveReadable db s pairs m) m' ∧ (∀ d v, m d = some v → m' d = some v) ∧
      ∀ x ∈ pairs, m' x.2 = some (roleAllows (db.driveRole s x.2) .read) := by
  induction pairs generalizing m with
  | nil => exact ⟨m, Returns.pure _, fun _ _ h => h, by simp⟩
  | cons x pairs ih =>
    unfold driveReadable
    by_cases hd : (m x.2).isSome = true
    · obtain ⟨v, hv⟩ := Option.isSome_iff_exists.mp hd
      obtain ⟨m', hr, hold, hall⟩ := ih hm
      rw [if_pos hd]
      exact ⟨m', hr, hold, List.forall_mem_cons.mpr ⟨by rw [hold _ v hv, hm _ v hv], hall⟩⟩
    · obtain ⟨m', hr, hold, hall⟩ := ih (hm.update x.2)
      rw [if_neg hd]
      refine ⟨m', (callerRoleOnDriveCached_returns s x.2).bind hr, fun d v hv => hold d v ?_,
        List.forall_mem_cons.mpr ⟨hold _ _ (update_self ..), hall⟩⟩
      rw [update_of_ne, hv]
      rintro rfl
      simp [hv] at hd

theorem allowedFiles_returns
    (hm : ∀ x ∈ pairs, m x.2 = some (roleAllows (db.driveRole s x.2) .read) ∧ db.driveOf (.file x.1) = some x.2) :
    Returns (Fresh db) (allowedFiles db s m pairs)
      ((pairs.map Prod.fst).toFinset.filter fun x => db.decision s .read (.file x) = true) := by
  induction pairs with
  | nil => exact Returns.pure ∅
  | cons x pairs ih =>
    obtain ⟨⟨hx, hd⟩, hrest⟩ := List.forall_mem_cons.mp hm
    have hone : Returns (Fresh db) (if (m x.2).getD false then pure true else check db s .read (.file x.1))
        (db.decision s .read (.file x.1)) := by
      rw [hx]
      rcases ha : roleAllows (db.driveRole s x.2) .read
      · exact Returns.ite (fun h => absurd h (by simp)) fun _ => check_returns s .read _
      · have hdec : db.decision s .read (.file x.1) = true := by
          simp [Store.decision, hd, ha, Store.stops, readOnlyGateApplies]
        rw [hdec]
        exact Returns.pure true
    rw [List.map_cons, List.toFinset_cons, Finset.filter_insert]
    refine hone.bind ?_
    refine (ih hrest).bind ?_
    exact Returns.pure _

end OxiCloud.Acl
