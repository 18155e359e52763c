import OxiCloud.Acl.Listings
import OxiCloud.Acl.Mutations
import OxiCloud.Lib.Programs

/-! # Members of a drive

`DriveManagementService::set_member_role` and `remove_member`: the caller needs `Manage` unless the caller
is an administrator, a personal drive has fixed members, and four checks on the grants and policies of
the drive come before the write. Both are `changeMembership` with their own checks and their own
mutation; it fails and leaves the tables alone, or the checks pass and it writes
(`changeMembership_cases`). -/

namespace OxiCloud.Acl

open Lib.Tables Lib.Memos Lib.Programs Folders Schema

/-- `DomainError::access_denied`. -/
def accessDenied (entity : String) : DomainError := ⟨.accessDenied, entity⟩

/-- The entity type named when a resource is refused. -/
def Resource.kind : Resource → String
  | folder _ => "Folder"
  | file _ => "File"
  | drive _ => "Drive"
  | calendar _ => "Calendar"
  | addressBook _ => "AddressBook"
  | playlist _ => "Playlist"

/-- The visibility probe of `require`. -/
def probe (db : Store) (s : Subject) (p : Permission) (r : Resource) : Loading Engine Bool :=
  if p = .read then pure false else check db s .read r

/-- `AuthorizationEngine::require`: a refusal tells apart whether the subject may see the resource. -/
def require (db : Store) (s : Subject) (p : Permission) (r : Resource) :
    Loading Engine (Except DomainError Unit) := do
  let allowed ← check db s p r
  if allowed then pure (.ok ())
  else do
    let visible ← probe db s p r
    pure (.error (if visible then accessDenied r.kind else notFound r.kind))

/-! ### The checks -/

namespace Store

variable (db : Store) (d : DriveId) (subject : Subject)

/-- `get_by_id` of the drive repository, a join with the root folder. -/
def driveById : Except DomainError DriveTerms :=
  match (db.tree.drives.get d).bind fun drive => drive.rootFolderId.bind db.tree.folders.get with
  | some _ => .ok (db.terms d)
  | none => .error (internalError "Drive")

/-- `MAX_GRANT_ROWS`. -/
def maxGrantRows : ℕ := 10000

/-- `list_grants_on_resource`: all rows, expired or not. -/
def listGrantsOnResource (r : Resource) : Except DomainError (Table GrantId Grant) :=
  let rows := db.grants.rows.filter fun _ g => decide (g.resource = r)
  if maxGrantRows < rows.keys.card then .error (internalError "PgAcl") else .ok rows

/-- `refuse_if_personal`. -/
def refuseIfPersonal : Except DomainError Unit := do
  let drive ← db.driveById d
  if drive.kind = .personal then throw (operationNotSupported "Drive") else pure ()

/-- `refuse_if_forbid_external_sharing`. -/
def refuseIfForbidExternalSharing : Except DomainError Unit :=
  match subject with
  | .user u => do
    let drive ← db.driveById d
    if drive.forbidExternalSharing then
      match db.users.get u with
      | none => throw (internalError "User")
      | some isExternal => if isExternal then throw (operationNotSupported "Grant") else pure ()
    else pure ()
  | _ => pure ()

/-- One of the listed rows makes the subject an owner. -/
def isOwner (rows : Table GrantId Grant) : Bool :=
  decide (rows.sat fun _ g => decide (g.subject = subject) && decide (g.role = .owner)).Nonempty

/-- Whether a change concerns the owners: it makes the subject one, or the subject is one. -/
def touchesOwner (newRole : Option Role) : Except DomainError Bool :=
  if newRole = some .owner then pure true
  else do
    let grants ← db.listGrantsOnResource (.drive d)
    pure (isOwner subject grants)

/-- `refuse_if_forbid_owner_role_change`; without a new role the subject is to be removed. -/
def refuseIfForbidOwnerRoleChange (newRole : Option Role) (callerIsAdmin : Bool) :
    Except DomainError Unit :=
  if callerIsAdmin then pure ()
  else do
    let drive ← db.driveById d
    if drive.forbidOwnerRoleChange then do
      let touches ← db.touchesOwner d subject newRole
      if touches then throw (operationNotSupported "Drive") else pure ()
    else pure ()

/-- `refuse_if_last_owner_change`. -/
def refuseIfLastOwnerChange : Except DomainError Unit := do
  let grants ← db.listGrantsOnResource (.drive d)
  if isOwner subject grants && decide (grants.count (fun _ g => decide (g.role = .owner)) ≤ 1) then
    throw validationError
  else pure ()

/-- The checks of `set_member_role`. -/
def settingChecks (role : Role) (callerIsAdmin : Bool) : Except DomainError Unit := do
  db.refuseIfPersonal d
  db.refuseIfForbidExternalSharing d subject
  db.refuseIfForbidOwnerRoleChange d subject (some role) callerIsAdmin
  if role = .owner then pure () else db.refuseIfLastOwnerChange d subject

/-- The checks of `remove_member`. -/
def removalChecks (callerIsAdmin : Bool) : Except DomainError Unit := do
  db.refuseIfPersonal d
  db.refuseIfForbidOwnerRoleChange d subject none callerIsAdmin
  db.refuseIfLastOwnerChange d subject

end Store

/-! ### The two calls -/

/-- `Manage` for everybody but an administrator. -/
def authorize (db : Store) (caller : UserId) (callerIsAdmin : Bool) (d : DriveId) :
    Loading Engine (Except DomainError Unit) :=
  if callerIsAdmin then pure (.ok ()) else require db (.user caller) .manage (.drive d)

/-- Authorize, check, write, drop the remembered roles of the drive. -/
def changeMembership (x : Service) (caller : UserId) (callerIsAdmin : Bool) (d : DriveId)
    (checks : Except DomainError Unit) (m : Mutation) : Except DomainError Unit × Service :=
  match authorize x.db caller callerIsAdmin d x.engine with
  | (.error err, e) => (.error err, ⟨x.db, e⟩)
  | (.ok _, e) =>
    match checks with
    | .error err => (.error err, ⟨x.db, e⟩)
    | .ok _ =>
      match m.effect x.db.grants with
      | none => (.error (internalError "PgAcl"), ⟨x.db, e⟩)
      | some t => (.ok (), ⟨x.db.withGrants t, (m.flush e).invalidateDriveRoleCacheForDrive d⟩)

/-- `set_member_role`; `id` is the id drawn for a new row. -/
def setMemberRole (x : Service) (caller : UserId) (callerIsAdmin : Bool) (d : DriveId) (subject : Subject)
    (role : Role) (expiresAt : Option ℕ) (id : GrantId) : Except DomainError Unit × Service :=
  changeMembership x caller callerIsAdmin d (x.db.settingChecks d subject role callerIsAdmin)
    (.setRole caller subject role (.drive d) expiresAt id)

/-- `remove_member`. -/
def removeMember (x : Service) (caller : UserId) (callerIsAdmin : Bool) (d : DriveId)
    (subject : Subject) : Except DomainError Unit × Service :=
  changeMembership x caller callerIsAdmin d (x.db.removalChecks d subject callerIsAdmin)
    (.clearRole subject (.drive d))

/-! ### What they do -/

variable {x : Service} {caller : UserId} {callerIsAdmin : Bool} {d : DriveId} {subject : Subject}
  {checks : Except DomainError Unit} {m : Mutation}

/-- **A refused call leaves the tables alone; an accepted one was authorized and has passed its checks.** -/
theorem changeMembership_cases (x : Service) (caller : UserId) (callerIsAdmin : Bool) (d : DriveId)
    (checks : Except DomainError Unit) (m : Mutation) :
    (∃ err e, changeMembership x caller callerIsAdmin d checks m = (.error err, ⟨x.db, e⟩)) ∨
    (authorize x.db caller callerIsAdmin d x.engine).1 = .ok () ∧ checks = .ok () ∧
      ∃ t e, m.effect x.db.grants = some t ∧
        changeMembership x caller callerIsAdmin d checks m = (.ok (), ⟨x.db.withGrants t, e⟩) := by
  unfold changeMembership
  rcases ha : authorize x.db caller callerIsAdmin d x.engine with ⟨err | ⟨⟩, e⟩
  · exact .inl ⟨err, e, rfl⟩
  rcases hc : checks with err | ⟨⟩
  · exact .inl ⟨err, e, rfl⟩
  rcases hm : m.effect x.db.grants with _ | t
  · exact .inl ⟨_, e, rfl⟩
  · exact .inr ⟨rfl, rfl, t, _, rfl, rfl⟩

theorem changeMembership_ok {t : RoleGrants} (hm : m.effect x.db.grants = some t) :
    (changeMembership x caller callerIsAdmin d checks m).1 = .ok () ↔
      (authorize x.db caller callerIsAdmin d x.engine).1 = .ok () ∧ checks = .ok () := by
  rcases changeMembership_cases x caller callerIsAdmin d checks m with ⟨err, e, h⟩ | ⟨ha, hc, t', e, -, h⟩
  · refine iff_of_false (by rw [h]; exact fun heq => nomatch heq) ?_
    rintro ⟨ha, hc⟩
    unfold changeMembership at h
    rcases haut : authorize x.db caller callerIsAdmin d x.engine with ⟨r, e'⟩
    rw [haut] at ha h
    obtain rfl : r = .ok () := ha
    rw [hc, hm] at h
    exact absurd (congrArg Prod.fst h) fun heq => nomatch heq
  · exact iff_of_true (by rw [h]) ⟨ha, hc⟩

theorem require_ok {db : Store} {s : Subject} {p : Permission} {r : Resource} {e : Engine} :
    (require db s p r e).1 = .ok () ↔ (check db s p r e).1 = true := by
  unfold require
  rw [Loading.bind_apply]
  rcases hc : (check db s p r e).1 with _ | _
  · refine iff_of_false (fun h => ?_) Bool.false_ne_true
    exact nomatch h
  · exact iff_of_true rfl rfl

/-! ### What the checks say -/

namespace Store

variable {db : Store} {r : Resource} {rows : Table GrantId Grant} {drive : DriveTerms} {role : Role}

theorem driveById_ok : db.driveById d = .ok drive ↔ db.HasRoot d ∧ drive = db.terms d := by
  unfold driveById HasRoot
  rcases hd : db.tree.drives.get d with _ | row
  · exact iff_of_false (fun h => nomatch h) fun ⟨⟨_, h, _⟩, _⟩ => nomatch h
  rcases hf : row.rootFolderId with _ | f
  · refine iff_of_false (by simp [hf]) ?_
    rintro ⟨⟨row', hr, f, hf', -⟩, -⟩
    obtain rfl := Option.some.inj hr
    rw [hf] at hf'
    exact nomatch hf'
  rcases hr : db.tree.folders.get f with _ | folder
  · refine iff_of_false (by simp [hf, hr]) ?_
    rintro ⟨⟨row', hrow, f', hf', hs⟩, -⟩
    obtain rfl := Option.some.inj hrow
    obtain rfl := Option.mem_unique hf hf'
    rw [hr] at hs
    exact absurd hs Bool.false_ne_true
  · simp only [Option.bind_some, hf, hr]
    constructor
    · intro h
      refine ⟨⟨row, rfl, f, hf, by rw [hr]; rfl⟩, (Except.ok.inj h).symm⟩
    · rintro ⟨-, rfl⟩
      rfl

theorem refuseIfPersonal_ok : db.refuseIfPersonal d = .ok () ↔
    db.HasRoot d ∧ (db.terms d).kind = .shared := by
  unfold refuseIfPersonal
  rw [bind_eq_ok]
  constructor
  · rintro ⟨drive, hd, h⟩
    obtain ⟨hroot, rfl⟩ := driveById_ok.mp hd
    refine ⟨hroot, ?_⟩
    rcases hk : (db.terms d).kind with _ | _
    · rw [if_pos hk] at h
      exact absurd h (by simp [throw, throwThe, MonadExceptOf.throw])
    · rfl
  · rintro ⟨hroot, hk⟩
    refine ⟨_, driveById_ok.mpr ⟨hroot, rfl⟩, ?_⟩
    rw [if_neg (by rw [hk]; decide)]
    rfl

/-- The rows on a resource. -/
def rowsOn (db : Store) (r : Resource) : Table GrantId Grant :=
  db.grants.rows.filter fun _ g => decide (g.resource = r)

theorem rowsOn_get {i : GrantId} {g : Grant} : (db.rowsOn r).get i = some g ↔
    db.grants.rows.get i = some g ∧ g.resource = r := by
  show (db.grants.rows.get i).filter _ = some g ↔ _
  rw [Option.filter_eq_some_iff, decide_eq_true_iff]

theorem listGrantsOnResource_ok : db.listGrantsOnResource r = .ok rows ↔
    (db.rowsOn r).keys.card ≤ maxGrantRows ∧ rows = db.rowsOn r := by
  show (if maxGrantRows < (db.rowsOn r).keys.card then _ else _) = _ ↔ _
  split_ifs with h
  · exact iff_of_false (by simp) fun hle => absurd hle.1 (by omega)
  · constructor
    · intro heq
      exact ⟨by omega, (Except.ok.inj heq).symm⟩
    · rintro ⟨-, rfl⟩
      rfl

theorem isOwner_rowsOn : isOwner subject (db.rowsOn r) = true ↔
    ∃ g ∈ db.grants, g.subject = subject ∧ g.resource = r ∧ g.role = .owner := by
  unfold isOwner
  rw [decide_eq_true_iff]
  constructor
  · rintro ⟨i, hi⟩
    obtain ⟨g, hg, hp⟩ := Table.mem_sat.mp hi
    rw [Bool.and_eq_true, decide_eq_true_iff, decide_eq_true_iff] at hp
    obtain ⟨hget, hres⟩ := rowsOn_get.mp hg
    exact ⟨g, ⟨i, hget⟩, hp.1, hres, hp.2⟩
  · rintro ⟨g, ⟨i, hget⟩, hs, hres, hrole⟩
    refine ⟨i, Table.mem_sat.mpr ⟨g, rowsOn_get.mpr ⟨hget, hres⟩, ?_⟩⟩
    rw [Bool.and_eq_true, decide_eq_true_iff, decide_eq_true_iff]
    exact ⟨hs, hrole⟩

/-- The number of owner grants on a drive. -/
def ownerCount (db : Store) (d : DriveId) : ℕ :=
  (db.rowsOn (.drive d)).count fun _ g => decide (g.role = .owner)

theorem refuseIfLastOwnerChange_ok : db.refuseIfLastOwnerChange d subject = .ok () ↔
    (db.rowsOn (.drive d)).keys.card ≤ maxGrantRows ∧
      (isOwner subject (db.rowsOn (.drive d)) = true → 1 < db.ownerCount d) := by
  unfold refuseIfLastOwnerChange
  rw [bind_eq_ok]
  constructor
  · rintro ⟨rows, hrows, h⟩
    obtain ⟨hcap, rfl⟩ := listGrantsOnResource_ok.mp hrows
    refine ⟨hcap, fun ho => ?_⟩
    by_contra hle
    rw [if_pos (by rw [ho, Bool.true_and, decide_eq_true_iff]; exact Nat.le_of_not_lt hle)] at h
    exact nomatch h
  · rintro ⟨hcap, himp⟩
    refine ⟨_, listGrantsOnResource_ok.mpr ⟨hcap, rfl⟩, ?_⟩
    refine if_neg fun h => ?_
    rw [Bool.and_eq_true, decide_eq_true_iff] at h
    have hlt := himp h.1
    unfold ownerCount at hlt
    omega

theorem settingChecks_ok (h : db.settingChecks d subject role callerIsAdmin = .ok ()) :
    db.HasRoot d ∧ (db.terms d).kind = .shared ∧
      (role ≠ .owner → isOwner subject (db.rowsOn (.drive d)) = true → 1 < db.ownerCount d) := by
  obtain ⟨⟨⟩, hper, h⟩ := bind_eq_ok.mp h
  obtain ⟨⟨⟩, -, h⟩ := bind_eq_ok.mp h
  obtain ⟨⟨⟩, -, h⟩ := bind_eq_ok.mp h
  obtain ⟨hroot, hkind⟩ := refuseIfPersonal_ok.mp hper
  refine ⟨hroot, hkind, fun hrole => ?_⟩
  rw [if_neg hrole] at h
  exact (refuseIfLastOwnerChange_ok.mp h).2

theorem removalChecks_ok (h : db.removalChecks d subject callerIsAdmin = .ok ()) :
    db.HasRoot d ∧ (db.terms d).kind = .shared ∧ (db.rowsOn (.drive d)).keys.card ≤ maxGrantRows ∧
      (isOwner subject (db.rowsOn (.drive d)) = true → 1 < db.ownerCount d) := by
  obtain ⟨⟨⟩, hper, h⟩ := bind_eq_ok.mp h
  obtain ⟨⟨⟩, -, h⟩ := bind_eq_ok.mp h
  obtain ⟨hroot, hkind⟩ := refuseIfPersonal_ok.mp hper
  exact ⟨hroot, hkind, refuseIfLastOwnerChange_ok.mp h⟩

/-- The removal of a subject that is no owner is only stopped by a personal drive or a full listing. -/
theorem removalChecks_of_not_owner (hn : isOwner subject (db.rowsOn (.drive d)) = false)
    (hroot : db.HasRoot d) (hk : (db.terms d).kind = .shared)
    (hcap : (db.rowsOn (.drive d)).keys.card ≤ maxGrantRows) :
    db.removalChecks d subject callerIsAdmin = .ok () := by
  have hlist := listGrantsOnResource_ok.mpr ⟨hcap, rfl⟩
  refine bind_eq_ok.mpr ⟨(), refuseIfPersonal_ok.mpr ⟨hroot, hk⟩, bind_eq_ok.mpr ⟨(), ?_, ?_⟩⟩
  · rcases callerIsAdmin with _ | _
    · refine bind_eq_ok.mpr ⟨_, driveById_ok.mpr ⟨hroot, rfl⟩, ?_⟩
      rcases (db.terms d).forbidOwnerRoleChange with _ | _
      · rfl
      · refine bind_eq_ok.mpr ⟨false, ?_, rfl⟩
        unfold touchesOwner
        rw [hlist, ← hn]
        rfl
    · rfl
  · refine refuseIfLastOwnerChange_ok.mpr ⟨hcap, fun ho => ?_⟩
    rw [hn] at ho
    exact absurd ho Bool.false_ne_true

end Store

end OxiCloud.Acl
