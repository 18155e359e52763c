import OxiCloud.Acl.Membership

/-! # `DELETE /api/grants/{id}`

`revoke_grant` treats a grant on a drive and any other grant differently. Any other grant is deleted after
the authorization. A grant on a drive is deleted first; `remove_member` then authorizes the caller, checks
the drive, and looks for the last owner among the rows that are left.

A request is `Lawful` if it removes a grant only for a caller who may, changes nothing when it fails, and
leaves every drive its owner. All requests on other grants are, and those on a drive exactly if nothing
that is checked after the deletion would have been refused before it (`revokeGrant_lawful_iff`). -/

namespace OxiCloud.Acl

open Lib.Tables Lib.Memos Folders Schema

/-- The granter, or whoever may share the resource. -/
def authorizeRevocation (db : Store) (caller : UserId) (g : Grant) :
    Loading Engine (Except DomainError Unit) :=
  if g.grantedBy = caller then pure (.ok ()) else require db (.user caller) .share g.resource

/-- The branch for a grant that is not on a drive. -/
def revokeShare (x : Service) (caller : UserId) (i : GrantId) (g : Grant) :
    Except DomainError Unit × Service :=
  match authorizeRevocation x.db caller g x.engine with
  | (.error err, e) => (.error err, ⟨x.db, e⟩)
  | (.ok _, e) => (.ok (), (Mutation.clearRole g.subject g.resource).apply ((Mutation.revoke i).apply ⟨x.db, e⟩))

/-- `revoke_grant`; an id that is no UUID is `none`. -/
def revokeGrant (x : Service) (caller : UserId) (id : Option GrantId) : Except DomainError Unit × Service :=
  match id with
  | none => (.error (notFound "Grant"), x)
  | some i =>
    match x.db.grants.rows.get i with
    | none => (.ok (), x)
    | some g =>
      match g.resource with
      | .drive d => removeMember ((Mutation.revoke i).apply x) caller false d g.subject
      | _ => revokeShare x caller i g

/-! ### The law -/

/-- The caller may remove the grant: with `Manage` on its drive, or as the granter or with `Share`. -/
def MayRevoke (db : Store) (caller : UserId) (g : Grant) : Prop :=
  match g.resource with
  | .drive d => db.decision (.user caller) .manage (.drive d) = true
  | r => g.grantedBy = caller ∨ db.decision (.user caller) .share r = true

/-- The grants after the request. -/
def grantsAfter (x : Service) (caller : UserId) (id : Option GrantId) : RoleGrants :=
  (revokeGrant x caller id).2.db.grants

/-- The request removes a grant. -/
def Removes (x : Service) (caller : UserId) (id : Option GrantId) (j : GrantId) (g : Grant) : Prop :=
  x.db.grants.rows.get j = some g ∧ (grantsAfter x caller id).rows.get j = none

structure Lawful (x : Service) (caller : UserId) (id : Option GrantId) : Prop where
  authorized : ∀ j g, Removes x caller id j g → MayRevoke x.db caller g
  unchanged : ∀ err, (revokeGrant x caller id).1 = .error err → grantsAfter x caller id = x.db.grants
  owned : ∀ j g d, Removes x caller id j g → (x.db.tree.drives.get d).isSome → g.resource = .drive d →
    g.role = .owner → (x.db.terms d).kind = .shared ∧
      ∃ k h, (grantsAfter x caller id).rows.get k = some h ∧ h.resource = .drive d ∧ h.role = .owner

/-- Another row makes the caller an owner of the drive. -/
def OwnsOtherwise (db : Store) (caller : UserId) (i : GrantId) (d : DriveId) : Prop :=
  ∃ k h, k ≠ i ∧ db.grants.rows.get k = some h ∧ db.live (db.matchSet (.user caller)) h = true ∧
    h.resource = .drive d ∧ h.role = .owner

/-- What is asked of a grant on a drive: the caller has `Manage`, and not by this row alone unless the
role of the caller is remembered; the drive is shared and has a root folder and not more other grants
than are listed; and the row is not the last owner's. -/
structure Revocable (x : Service) (caller : UserId) (i : GrantId) (g : Grant) (d : DriveId) : Prop where
  manage : x.db.decision (.user caller) .manage (.drive d) = true
  still : (x.engine.driveRoleCache (.user caller, d)).isSome ∨ OwnsOtherwise x.db caller i d
  root : x.db.HasRoot d
  shared : (x.db.terms d).kind = .shared
  listed : ((x.db.rowsOn (.drive d)).keys.erase i).card ≤ Store.maxGrantRows
  other : g.role = .owner → ∃ k h, k ≠ i ∧ x.db.grants.rows.get k = some h ∧ h.resource = .drive d ∧
    h.role = .owner

variable {x : Service} {db : Store} {caller : UserId} {i j : GrantId} {g : Grant} {d : DriveId} {e : Engine}

/-! ### The rows after a deletion -/

variable {t : RoleGrants}

theorem remove_get : (t.remove i).rows.get j = some g ↔ t.rows.get j = some g ∧ j ≠ i := by
  unfold RoleGrants.remove
  rw [RoleGrants.delete_get, decide_eq_false_iff_not]

theorem remove_get_self (t : RoleGrants) (i : GrantId) : (t.remove i).rows.get i = none := by
  rcases h : (t.remove i).rows.get i with _ | g
  · rfl
  · exact absurd rfl (remove_get.mp h).2

theorem clear_remove (hg : t.rows.get i = some g) :
    (t.remove i).clear g.subject g.resource = t.remove i := by
  apply RoleGrants.ext
  apply Table.ext
  intro k
  rcases hk : (t.remove i).rows.get k with _ | h
  · show ((t.remove i).rows.get k).filter _ = _
    rw [hk]
    rfl
  · obtain ⟨hget, hne⟩ := remove_get.mp hk
    refine RoleGrants.delete_get.mpr ⟨hk, decide_eq_false fun hkey => hne ?_⟩
    exact t.unique hget hg hkey

theorem eq_of_remove (hj : t.rows.get j = some g) (hn : (t.remove i).rows.get j = none) :
    j = i := by
  by_contra hne
  rw [remove_get.mpr ⟨hj, hne⟩] at hn
  exact nomatch hn

theorem Removes.eq (hg : x.db.grants.rows.get i = some g)
    (hafter : grantsAfter x caller (some i) = x.db.grants.remove i) {h : Grant}
    (hrem : Removes x caller (some i) j h) : h = g := by
  obtain ⟨hj, hn⟩ := hrem
  rw [hafter] at hn
  obtain rfl := eq_of_remove hj hn
  exact Option.mem_unique hj hg

/-- A request that leaves the grants as they are is lawful. -/
theorem lawful_of_same {id : Option GrantId} (hsame : grantsAfter x caller id = x.db.grants) :
    Lawful x caller id := by
  have hnone : ∀ j g, ¬ Removes x caller id j g := by
    rintro j g ⟨hj, hn⟩
    rw [hsame, hj] at hn
    exact nomatch hn
  exact ⟨fun j g h => absurd h (hnone j g), fun _ _ => hsame, fun j g _ h => absurd h (hnone j g)⟩

/-! ### Grants that are not on a drive -/

theorem authorizeRevocation_ok (hf : Fresh db e) (hd : ∀ d, g.resource ≠ .drive d)
    (h : (authorizeRevocation db caller g e).1 = .ok ()) : MayRevoke db caller g := by
  have hmay : g.grantedBy = caller ∨ db.decision (.user caller) .share g.resource = true := by
    unfold authorizeRevocation at h
    split_ifs at h with hby
    · exact .inl hby
    · rw [require_ok, (check_returns _ _ _ e hf).1] at h
      exact .inr h
  unfold MayRevoke
  rcases hr : g.resource with f | f | d | f | f | f
  case drive => exact absurd hr (hd d)
  all_goals rwa [hr] at hmay

/-- The other branch authorizes first. -/
theorem revokeShare_lawful (hf : Fresh x.db x.engine) (hg : x.db.grants.rows.get i = some g)
    (hd : ∀ d, g.resource ≠ .drive d)
    (hr : revokeGrant x caller (some i) = revokeShare x caller i g) : Lawful x caller (some i) := by
  rcases ha : authorizeRevocation x.db caller g x.engine with ⟨err | ⟨⟩, e⟩
  · exact lawful_of_same (by rw [grantsAfter, hr, revokeShare, ha])
  · have hafter : grantsAfter x caller (some i) = x.db.grants.remove i := by
      rw [grantsAfter, hr, revokeShare, ha]
      exact clear_remove hg
    refine ⟨fun j h hrem => ?_, fun err herr => ?_, fun j h d hrem _ hres => ?_⟩
    · rw [hrem.eq hg hafter]
      exact authorizeRevocation_ok hf hd (by rw [ha])
    · rw [hr, revokeShare, ha] at herr
      exact nomatch herr
    · rw [hrem.eq hg hafter] at hres
      exact absurd hres (hd d)

/-! ### The check after the deletion -/

/-- What the check of a drive needs of the caches: true expansions and policies, and the given roles. -/
structure Steady (db : Store) (c : Memo (Subject × DriveId) (Option Role)) (e : Engine) : Prop where
  userGroups : Memo.True db.expansion e.userGroupsCache
  drivePolicies : Memo.True db.readOnly e.drivePoliciesCache
  driveRole : e.driveRoleCache = c

variable {c : Memo (Subject × DriveId) (Option Role)} {s : Subject} {p : Permission}

theorem frozen_steady : Returns (Steady db c) (frozen db p d) (db.stops p d) := by
  unfold frozen Store.stops
  rcases readOnlyGateApplies p with _ | _
  · exact Returns.pure _
  · exact Returns.memoised (fun _ he _ hw => he.drivePolicies _ _ hw)
      (fun _ he => { he with drivePolicies := he.drivePolicies.update d }) (Returns.pure _)

theorem subjectMatchSet_steady : Returns (Steady db c) (subjectMatchSet db s) (db.matchSet s) := by
  rcases s with u | _ | _
  · refine Returns.bind (a := db.expansion u) ?_ (Returns.pure _)
    exact Returns.memoised (fun _ he _ hw => he.userGroups _ _ hw)
      (fun _ he => { he with userGroups := he.userGroups.update u }) (Returns.pure _)
  · exact Returns.pure _
  · exact Returns.pure _

theorem callerRole_steady (h : Steady db c e) :
    (callerRoleOnDriveCached db s d e).1 = (c (s, d)).getD (db.driveRole s d) := by
  have hget : Engine.driveRole.get e (s, d) = c (s, d) := congrFun h.driveRole (s, d)
  unfold callerRoleOnDriveCached memoised
  rw [hget]
  rcases c (s, d) with _ | role
  · rw [Loading.bind_apply, (subjectMatchSet_steady e h).1]
    rfl
  · rfl

theorem check_drive_steady (h : Steady db c e) : (check db s p (.drive d) e).1 =
    (!(readOnlyGateApplies p && db.migrationReadonly) && (!db.stops p d &&
      roleAllows ((c (s, d)).getD (db.driveRole s d)) p)) := by
  unfold check
  rcases readOnlyGateApplies p && db.migrationReadonly with _ | _
  · show (checkDrive db s p d e).1 = _
    unfold checkDrive
    obtain ⟨hstop, hst⟩ := frozen_steady (p := p) (d := d) e h
    rw [Loading.bind_apply, hstop]
    rcases db.stops p d with _ | _
    · show ((callerRoleOnDriveCached db s d >>= fun role => pure (roleAllows role p)) _).1 = _
      rw [Loading.bind_apply, callerRole_steady hst]
      rfl
    · rfl
  · rfl

theorem Fresh.steady (h : Fresh db e) : Steady (db.withGrants t) e.driveRoleCache e :=
  ⟨h.userGroups, h.drivePolicies, rfl⟩

theorem decision_drive : db.decision s p (.drive d) =
    (!(readOnlyGateApplies p && db.migrationReadonly) && (!db.stops p d && roleAllows (db.driveRole s d) p)) := by
  unfold Store.decision
  rcases readOnlyGateApplies p && db.migrationReadonly with _ | _ <;> rfl

theorem roleAllows_manage {o : Option Role} : roleAllows o .manage = true ↔ o = some .owner := by
  rcases o with _ | r
  · exact iff_of_false Bool.false_ne_true fun h => nomatch h
  · rcases r with _ | _ | _ | _ | _ <;> decide

theorem driveRole_owner : db.driveRole s d = some .owner ↔ ∃ h ∈ db.grants,
    db.live (db.matchSet s) h = true ∧ h.resource = .drive d ∧ h.role = .owner := by
  rw [Store.driveRole, Store.strongestRole, grantRoles, List.find?_cons_eq_some]
  simp only [RoleGrants.any_eq_true, Bool.and_eq_true, decide_eq_true_iff]
  constructor
  · rintro (⟨⟨h, hh, ⟨hl, hr⟩, hrole⟩, -⟩ | ⟨hno, hfind⟩)
    · exact ⟨h, hh, hl, hr, hrole⟩
    · exact absurd (List.mem_of_find?_eq_some hfind) (by decide)
  · rintro ⟨h, hh, hl, hr, hrole⟩
    exact .inl ⟨⟨h, hh, ⟨hl, hr⟩, hrole⟩, trivial⟩

/-- **After the deletion the caller still passes with a remembered role or by another row.** -/
theorem check_after_iff (hf : Fresh db e) (hm : db.decision (.user caller) .manage (.drive d) = true) :
    (check (db.withGrants (db.grants.remove i)) (.user caller) .manage (.drive d) e).1 = true ↔
      (e.driveRoleCache (.user caller, d)).isSome ∨ OwnsOtherwise db caller i d := by
  rw [decision_drive, Bool.and_eq_true, Bool.and_eq_true, roleAllows_manage] at hm
  obtain ⟨hmig, hstop, hrole⟩ := hm
  rw [check_drive_steady hf.steady]
  show ((!(readOnlyGateApplies .manage && db.migrationReadonly)) && ((!db.stops .manage d) && _)) = true ↔ _
  rw [hmig, hstop, Bool.true_and, Bool.true_and, roleAllows_manage]
  rcases hc : e.driveRoleCache (.user caller, d) with _ | role
  · rw [Option.getD_none, driveRole_owner]
    simp only [Option.isSome_none, Bool.false_eq_true, false_or]
    constructor
    · rintro ⟨h, ⟨k, hk⟩, hl, hr, ho⟩
      obtain ⟨hget, hne⟩ := remove_get.mp hk
      exact ⟨k, h, hne, hget, hl, hr, ho⟩
    · rintro ⟨k, h, hne, hget, hl, hr, ho⟩
      exact ⟨h, ⟨k, remove_get.mpr ⟨hget, hne⟩⟩, hl, hr, ho⟩
  · refine iff_of_true ?_ (.inl rfl)
    rw [Option.getD_some, ← hrole]
    exact hf.driveRole (.user caller, d) role hc

/-! ### Grants on a drive -/

theorem rowsOn_remove (db : Store) (i : GrantId) (r : Resource) :
    ((db.withGrants (db.grants.remove i)).rowsOn r).keys = (db.rowsOn r).keys.erase i := by
  ext k
  rw [Finset.mem_erase, Table.mem_keys, Table.mem_keys, Option.isSome_iff_exists, Option.isSome_iff_exists]
  simp only [Store.rowsOn_get]
  constructor
  · rintro ⟨h, hk, hr⟩
    obtain ⟨hget, hne⟩ := remove_get.mp hk
    exact ⟨hne, h, hget, hr⟩
  · rintro ⟨hne, h, hget, hr⟩
    exact ⟨h, remove_get.mpr ⟨hget, hne⟩, hr⟩

theorem not_isOwner_remove (hg : db.grants.rows.get i = some g) (hr : g.resource = .drive d) :
    Store.isOwner g.subject ((db.withGrants (db.grants.remove i)).rowsOn (.drive d)) = false := by
  rw [← Bool.not_eq_true, Store.isOwner_rowsOn]
  rintro ⟨h, ⟨k, hk⟩, hs, hres, -⟩
  obtain ⟨hget, hne⟩ := remove_get.mp hk
  refine hne (db.grants.unique hget hg ?_)
  exact Prod.ext hs (hres.trans hr.symm)

variable (hf : Fresh x.db x.engine) (hg : x.db.grants.rows.get i = some g) (hr : g.resource = .drive d)

include hg hr in
theorem revokeGrant_drive : revokeGrant x caller (some i) =
    removeMember ⟨x.db.withGrants (x.db.grants.remove i), x.engine⟩ caller false d g.subject := by
  unfold revokeGrant
  simp only [hg, hr]
  rfl

include hg hr in
/-- The row is gone whatever the answer is. -/
theorem grantsAfter_drive : grantsAfter x caller (some i) = x.db.grants.remove i := by
  rw [grantsAfter, revokeGrant_drive hg hr]
  unfold removeMember
  rcases changeMembership_cases ⟨x.db.withGrants (x.db.grants.remove i), x.engine⟩ caller false d
      ((x.db.withGrants (x.db.grants.remove i)).removalChecks d g.subject false)
      (.clearRole g.subject (.drive d)) with ⟨err, e, h⟩ | ⟨-, -, t, e, ht, h⟩
  · rw [h]
    rfl
  · rw [h]
    obtain rfl := Option.some.inj ht
    rw [← hr]
    exact clear_remove hg

include hf hg hr in
/-- The request succeeds exactly if what is checked after the deletion passes. -/
theorem revokeGrant_drive_ok (hm : x.db.decision (.user caller) .manage (.drive d) = true) :
    (revokeGrant x caller (some i)).1 = .ok () ↔
      ((x.engine.driveRoleCache (.user caller, d)).isSome ∨ OwnsOtherwise x.db caller i d) ∧
      x.db.HasRoot d ∧ (x.db.terms d).kind = .shared ∧
      ((x.db.rowsOn (.drive d)).keys.erase i).card ≤ Store.maxGrantRows := by
  rw [revokeGrant_drive hg hr, removeMember, changeMembership_ok rfl]
  refine and_congr ?_ ?_
  · show (require _ _ _ _ _).1 = _ ↔ _
    rw [require_ok]
    exact check_after_iff hf hm
  · rw [← rowsOn_remove]
    constructor
    · intro h
      obtain ⟨hroot, hk, hcap, -⟩ := Store.removalChecks_ok h
      exact ⟨hroot, hk, hcap⟩
    · rintro ⟨hroot, hk, hcap⟩
      exact Store.removalChecks_of_not_owner (not_isOwner_remove hg hr) hroot hk hcap

include hf hg hr in
theorem revokeGrant_drive_lawful : Lawful x caller (some i) ↔ Revocable x caller i g d := by
  have hafter : grantsAfter x caller (some i) = x.db.grants.remove i := grantsAfter_drive hg hr
  have hrem : Removes x caller (some i) i g := ⟨hg, by rw [hafter]; exact remove_get_self _ i⟩
  constructor
  · intro h
    have hmay := h.authorized i g hrem
    unfold MayRevoke at hmay
    rw [hr] at hmay
    have hok : (revokeGrant x caller (some i)).1 = .ok () := by
      rcases hres : (revokeGrant x caller (some i)).1 with err | ⟨⟩
      · have hsame := h.unchanged err hres
        have hgone := hrem.2
        rw [hsame, hg] at hgone
        exact nomatch hgone
      · rfl
    obtain ⟨hstill, hroot, hk, hcap⟩ := (revokeGrant_drive_ok hf hg hr hmay).mp hok
    refine ⟨hmay, hstill, hroot, hk, hcap, fun hrole => ?_⟩
    obtain ⟨-, k, h', hget, hres, ho⟩ := h.owned i g d hrem hroot.isSome hr hrole
    rw [hafter] at hget
    obtain ⟨hget, hne⟩ := remove_get.mp hget
    exact ⟨k, h', hne, hget, hres, ho⟩
  · intro h
    have hok := (revokeGrant_drive_ok hf hg hr h.manage).mpr ⟨h.still, h.root, h.shared, h.listed⟩
    refine ⟨fun j h' hrem' => ?_, fun err herr => ?_, fun j h' d' hrem' _ hres hrole => ?_⟩
    · rw [hrem'.eq hg hafter]
      unfold MayRevoke
      rw [hr]
      exact h.manage
    · rw [hok] at herr
      exact nomatch herr
    · rw [hrem'.eq hg hafter] at hres hrole
      obtain rfl : d = d' := Resource.drive.inj (hr.symm.trans hres)
      obtain ⟨k, h'', hne, hget, hres', ho⟩ := h.other hrole
      rw [hafter]
      exact ⟨h.shared, k, h'', remove_get.mpr ⟨hget, hne⟩, hres', ho⟩

/-- The user 5 owns the drive, the user 6 may view it. -/
def club (kind : DriveKind) : Store :=
  { office [(0, ⟨.user 5, .drive 0, .owner, 5, none⟩), (1, ⟨.user 6, .drive 0, .viewer, 5, none⟩)] with
    terms := fun _ => ⟨kind, false, false⟩ }

end OxiCloud.Acl
