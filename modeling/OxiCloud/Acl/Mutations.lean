import OxiCloud.Acl.Engine

/-! # Grant mutations

The six calls of the engine that write `storage.role_grants`, each with the caches it invalidates:
`set_role` and `clear_role` those that hold answers about the resource, `set_expiry_for_subject` only the
cascade cache, `revoke` and the two `revoke_all_…` none.

Every query of the engine is about the unexpired grants (`Stands`): the role of a subject on a drive
(`driveRole_congr`), the grants that reach a file or folder (`cascadeGrant_iff`) and the grants on a
resource (`directGrantExists_iff_stands`). `Touches` is what a mutation may change there
(`stands_apply`). -/

namespace OxiCloud.Acl

open Lib.Tables Lib.Memos Folders Schema

/-! ### The statements -/

namespace RoleGrants

variable (t : RoleGrants)

/-- `DELETE` of the grant of a subject on a resource. -/
def clear (s : Subject) (r : Resource) : RoleGrants := t.delete fun _ g => decide (g.key = (s, r))

/-- `DELETE … WHERE id = $1`. -/
def remove (id : GrantId) : RoleGrants := t.delete fun i _ => decide (i = id)

/-- `DELETE` of the grants on a resource. -/
def clearResource (r : Resource) : RoleGrants := t.delete fun _ g => decide (g.resource = r)

/-- `DELETE` of the grants to a subject. -/
def clearSubject (s : Subject) : RoleGrants := t.delete fun _ g => decide (g.subject = s)

/-- The row with a new expiry if it is of the subject. -/
def reexpire (s : Subject) (expiresAt : Option ℕ) (g : Grant) : Grant :=
  if g.subject = s then { g with expiresAt := expiresAt } else g

theorem reexpire_key (s : Subject) (expiresAt : Option ℕ) (g : Grant) :
    (reexpire s expiresAt g).key = g.key := by
  unfold reexpire
  split_ifs <;> rfl

/-- `UPDATE … SET expires_at` of the grants to a subject. -/
def expire (s : Subject) (expiresAt : Option ℕ) : RoleGrants :=
  t.rewrite (reexpire s expiresAt) (reexpire_key s expiresAt)

/-- An unexpired grant of the role stands in the table. -/
def Stands (now : ℕ) (target : Subject) (r : Resource) (role : Role) : Prop :=
  ∃ g ∈ t, g.unexpired now = true ∧ g.subject = target ∧ g.resource = r ∧ g.role = role

end RoleGrants

/-! ### The calls -/

namespace Engine

/-- `invalidate_drive_role_cache_for_drive`. -/
def invalidateDriveRoleCacheForDrive (d : DriveId) (e : Engine) : Engine :=
  { e with driveRoleCache := fun k => if k.2 = d then none else e.driveRoleCache k }

/-- `invalidate_cascade_grant_cache_all`. -/
def invalidateCascadeGrantCacheAll (e : Engine) : Engine := { e with cascadeGrantCache := fun _ => none }

/-- `direct_grant_cache.invalidate_all()`. -/
def invalidateDirectGrantCacheAll (e : Engine) : Engine := { e with directGrantCache := fun _ => none }

/-- The invalidations of `set_role` and `clear_role`. -/
def invalidateFor (r : Resource) (e : Engine) : Engine :=
  match r with
  | .drive d => e.invalidateDriveRoleCacheForDrive d
  | .folder _ => e.invalidateCascadeGrantCacheAll
  | .file _ => e.invalidateCascadeGrantCacheAll
  | .calendar _ => e.invalidateDirectGrantCacheAll
  | .addressBook _ => e.invalidateDirectGrantCacheAll
  | .playlist _ => e.invalidateDirectGrantCacheAll

end Engine

/-- The database and the caches of one engine. -/
structure Service where
  db : Store
  engine : Engine

/-- The database with other grants. -/
def Store.withGrants (db : Store) (t : RoleGrants) : Store := { db with grants := t }

/-- The grant mutations; `id` is the id drawn for a new row. -/
inductive Mutation where
  | setRole (grantedBy : UserId) (subject : Subject) (role : Role) (resource : Resource)
      (expiresAt : Option ℕ) (id : GrantId)
  | clearRole (subject : Subject) (resource : Resource)
  | revoke (id : GrantId)
  | revokeAllForResource (resource : Resource)
  | revokeAllForSubject (subject : Subject)
  | setExpiryForSubject (subject : Subject) (expiresAt : Option ℕ)

namespace Mutation

/-- What the call does to the table; `none` if its statement fails. -/
def effect (t : RoleGrants) : Mutation → Option RoleGrants
  | setRole grantedBy subject role resource expiresAt id =>
    t.upsert id ⟨subject, resource, role, grantedBy, expiresAt⟩
  | clearRole subject resource => some (t.clear subject resource)
  | revoke id => some (t.remove id)
  | revokeAllForResource resource => some (t.clearResource resource)
  | revokeAllForSubject subject => some (t.clearSubject subject)
  | setExpiryForSubject subject expiresAt => some (t.expire subject expiresAt)

/-- What the call invalidates. -/
def flush (e : Engine) : Mutation → Engine
  | setRole _ _ _ resource _ _ => e.invalidateFor resource
  | clearRole _ resource => e.invalidateFor resource
  | revoke _ => e
  | revokeAllForResource _ => e
  | revokeAllForSubject _ => e
  | setExpiryForSubject _ _ => e.invalidateCascadeGrantCacheAll

/-- The call on an engine. -/
def apply (m : Mutation) (x : Service) : Service :=
  match m.effect x.db.grants with
  | some t => ⟨x.db.withGrants t, m.flush x.engine⟩
  | none => x

/-- The unexpired grants the call may change: those of the key it writes or deletes, those of the rows
it deletes, those of the rows it lets expire or come back. -/
def Touches (db : Store) (target : Subject) (r : Resource) (role : Role) : Mutation → Prop
  | setRole _ subject _ resource _ _ => target = subject ∧ r = resource
  | clearRole subject resource => target = subject ∧ r = resource
  | revoke id => ∃ g, db.grants.rows.get id = some g ∧ g.unexpired db.now = true ∧ g.subject = target ∧
      g.resource = r ∧ g.role = role
  | revokeAllForResource resource => r = resource ∧ db.grants.Stands db.now target r role
  | revokeAllForSubject subject => target = subject ∧ db.grants.Stands db.now target r role
  | setExpiryForSubject subject expiresAt => target = subject ∧ ∃ g ∈ db.grants, g.subject = target ∧
      g.resource = r ∧ g.role = role ∧ g.unexpired db.now ≠ expiresAt.all (db.now < ·)

end Mutation

/-! ### What stands after a statement -/

namespace RoleGrants

variable {t t' : RoleGrants} {now : ℕ} {target s : Subject} {r : Resource} {role : Role}

theorem Stands.of_delete {p : GrantId → Grant → Bool} (h : (t.delete p).Stands now target r role) :
    t.Stands now target r role := by
  obtain ⟨g, hg, hrest⟩ := h
  exact ⟨g, mem_of_mem_delete hg, hrest⟩

theorem stands_delete {p : GrantId → Grant → Bool} (hp : ∀ id g, t.rows.get id = some g →
    g.unexpired now = true → g.subject = target → g.resource = r → g.role = role → p id g = false) :
    t.Stands now target r role ↔ (t.delete p).Stands now target r role := by
  constructor
  · rintro ⟨g, ⟨id, hid⟩, he, hs, hr, hrole⟩
    exact ⟨g, ⟨id, delete_get.mpr ⟨hid, hp id g hid he hs hr hrole⟩⟩, he, hs, hr, hrole⟩
  · exact Stands.of_delete

theorem stands_clear {subject : Subject} {resource : Resource} (h : ¬ (target = subject ∧ r = resource)) :
    t.Stands now target r role ↔ (t.clear subject resource).Stands now target r role := by
  refine stands_delete fun id g _ _ hs hr _ => decide_eq_false fun hk => h ?_
  obtain ⟨h1, h2⟩ := Prod.mk.inj hk
  exact ⟨hs.symm.trans h1, hr.symm.trans h2⟩

theorem stands_upsert {id : GrantId} {g : Grant} (hu : t.upsert id g = some t')
    (h : ¬ (target = g.subject ∧ r = g.resource)) :
    t.Stands now target r role ↔ t'.Stands now target r role := by
  have hkey : ∀ {g' : Grant}, g'.subject = target → g'.resource = r → g'.key ≠ g.key := by
    intro g' hs hr hk
    obtain ⟨h1, h2⟩ := Prod.mk.inj hk
    exact h ⟨hs.symm.trans h1, hr.symm.trans h2⟩
  refine exists_congr fun g' => ?_
  rw [mem_upsert hu]
  constructor
  · rintro ⟨hg', he, hs, hr, hrole⟩
    exact ⟨.inr ⟨hg', hkey hs hr⟩, he, hs, hr, hrole⟩
  · rintro ⟨rfl | hg', he, hs, hr, hrole⟩
    · exact absurd rfl (hkey hs hr)
    · exact ⟨hg'.1, he, hs, hr, hrole⟩

theorem stands_expire {subject : Subject} {expiresAt : Option ℕ}
    (h : ¬ (target = subject ∧ ∃ g ∈ t, g.subject = target ∧ g.resource = r ∧ g.role = role ∧
      g.unexpired now ≠ expiresAt.all (now < ·))) :
    t.Stands now target r role ↔ (t.expire subject expiresAt).Stands now target r role := by
  -- the rows of other subjects stay, those of the subject count as before
  have hsame : ∀ g ∈ t, g.subject = target → g.resource = r → g.role = role →
      (reexpire subject expiresAt g).unexpired now = g.unexpired now := by
    intro g hg hs hr hrole
    unfold reexpire
    split_ifs with hsub
    · by_contra hne
      exact h ⟨hs.symm.trans hsub, g, hg, hs, hr, hrole, fun heq => hne heq.symm⟩
    · rfl
  have hcols : ∀ g, (reexpire subject expiresAt g).subject = g.subject ∧
      (reexpire subject expiresAt g).resource = g.resource ∧
      (reexpire subject expiresAt g).role = g.role := by
    intro g
    unfold reexpire
    split_ifs <;> exact ⟨rfl, rfl, rfl⟩
  constructor
  · rintro ⟨g, hg, he, hs, hr, hrole⟩
    obtain ⟨h1, h2, h3⟩ := hcols g
    exact ⟨_, mem_rewrite.mpr ⟨g, hg, rfl⟩, (hsame g hg hs hr hrole).trans he, h1.trans hs, h2.trans hr,
      h3.trans hrole⟩
  · rintro ⟨g', hg', he, hs, hr, hrole⟩
    obtain ⟨g, hg, rfl⟩ := mem_rewrite.mp hg'
    obtain ⟨h1, h2, h3⟩ := hcols g
    rw [h1] at hs
    rw [h2] at hr
    rw [h3] at hrole
    exact ⟨g, hg, (hsame g hg hs hr hrole).symm.trans he, hs, hr, hrole⟩

end RoleGrants

/-- **A mutation changes no unexpired grant it does not touch.** -/
theorem Mutation.stands_effect {m : Mutation} {db : Store} {t : RoleGrants} {target : Subject} {r : Resource}
    {role : Role} (ht : m.effect db.grants = some t) (h : ¬ m.Touches db target r role) :
    db.grants.Stands db.now target r role ↔ t.Stands db.now target r role := by
  rcases m with ⟨by', subject, role', resource, expiresAt, id⟩ | ⟨subject, resource⟩ | id | resource |
    subject | ⟨subject, expiresAt⟩
  · exact RoleGrants.stands_upsert ht h
  · obtain rfl := Option.some.inj ht
    exact RoleGrants.stands_clear h
  · obtain rfl := Option.some.inj ht
    refine RoleGrants.stands_delete fun i g hg he hs hr hrole => decide_eq_false ?_
    rintro rfl
    exact h ⟨g, hg, he, hs, hr, hrole⟩
  · obtain rfl := Option.some.inj ht
    refine RoleGrants.stands_delete fun i g hg he hs hr hrole => decide_eq_false fun heq => ?_
    exact h ⟨hr.symm.trans heq, g, ⟨i, hg⟩, he, hs, hr, hrole⟩
  · obtain rfl := Option.some.inj ht
    refine RoleGrants.stands_delete fun i g hg he hs hr hrole => decide_eq_false fun heq => ?_
    exact h ⟨hs.symm.trans heq, g, ⟨i, hg⟩, he, hs, hr, hrole⟩
  · obtain rfl := Option.some.inj ht
    exact RoleGrants.stands_expire h

/-! ### The queries are about what stands -/

namespace Store

variable {db : Store} {s : Subject} {p : Permission} {r : Resource} {d : DriveId} {m : MatchSet}

/-- An unexpired grant stands in the table. -/
abbrev Stands (db : Store) (target : Subject) (r : Resource) (role : Role) : Prop :=
  db.grants.Stands db.now target r role

theorem any_stands {q : Resource → Role → Bool} :
    db.grants.any (fun g => db.live m g && q g.resource g.role) = true ↔
      ∃ target r role, m.selects target = true ∧ db.Stands target r role ∧ q r role = true := by
  rw [RoleGrants.any_eq_true]
  constructor
  · rintro ⟨g, hg, h⟩
    rw [Bool.and_eq_true, live, Bool.and_eq_true] at h
    exact ⟨g.subject, g.resource, g.role, h.1.1, ⟨g, hg, h.1.2, rfl, rfl, rfl⟩, h.2⟩
  · rintro ⟨_, _, _, hsel, ⟨g, hg, he, rfl, rfl, rfl⟩, hq⟩
    refine ⟨g, hg, ?_⟩
    rw [Bool.and_eq_true, live, Bool.and_eq_true]
    exact ⟨⟨hsel, he⟩, hq⟩

/-- A grant on `on` reaches the file or folder `r` through the cascade. -/
def reaches (db : Store) (on r : Resource) : Bool :=
  match on, r with
  | .folder h, .folder f => db.above h f
  | .folder h, .file x => (db.fileParent x).any fun f => db.above h f
  | .file y, .file x => decide (y = x)
  | _, _ => false

theorem directGrantExists_iff_stands : db.directGrantExists m p r = true ↔
    ∃ target role, m.selects target = true ∧ db.Stands target r role ∧ p ∈ role.expand := by
  unfold directGrantExists
  simp only [Bool.and_assoc]
  rw [any_stands (q := fun r' role => decide (role ∈ rolesImplying p) && decide (r' = r))]
  simp only [Bool.and_eq_true, decide_eq_true_iff, mem_rolesImplying]
  constructor
  · rintro ⟨target, _, role, hsel, hst, hp, rfl⟩
    exact ⟨target, role, hsel, hst, hp⟩
  · rintro ⟨target, role, hsel, hst, hp⟩
    exact ⟨target, r, role, hsel, hst, hp, rfl⟩

/-- The grant is on a folder above `f`. -/
def onAbove (db : Store) (f : FolderId) : Resource → Bool
  | .folder gf => db.above gf f
  | _ => false

theorem folderCascadeGrantExists_iff_stands {f : FolderId} : db.folderCascadeGrantExists m p f = true ↔
    ∃ target h role, m.selects target = true ∧ db.Stands target (.folder h) role ∧ p ∈ role.expand ∧
      db.above h f = true := by
  have hq : db.folderCascadeGrantExists m p f = db.grants.any fun g => db.live m g &&
      (decide (g.role ∈ rolesImplying p) && db.onAbove f g.resource) := by
    refine congrArg db.grants.any (funext fun g => ?_)
    exact Bool.and_assoc ..
  rw [hq, any_stands (q := fun r role => decide (role ∈ rolesImplying p) && db.onAbove f r)]
  simp only [Bool.and_eq_true, decide_eq_true_iff, mem_rolesImplying]
  constructor
  · rintro ⟨target, h | _ | _ | _ | _ | _, role, hsel, hst, hp, habove⟩
    · exact ⟨target, h, role, hsel, hst, hp, habove⟩
    all_goals exact absurd habove Bool.false_ne_true
  · rintro ⟨target, h, role, hsel, hst, hp, habove⟩
    exact ⟨target, .folder h, role, hsel, hst, hp, habove⟩

theorem cascadeGrant_iff_stands : db.cascadeGrant s r p = true ↔ ∃ target on role,
    (db.matchSet s).selects target = true ∧ db.Stands target on role ∧ p ∈ role.expand ∧
      db.reaches on r = true := by
  rcases r with f | x | _ | _ | _ | _
  · unfold cascadeGrant
    rw [folderCascadeGrantExists_iff_stands]
    constructor
    · rintro ⟨target, h, role, hsel, hst, hp, habove⟩
      exact ⟨target, .folder h, role, hsel, hst, hp, habove⟩
    · rintro ⟨target, h | _ | _ | _ | _ | _, role, hsel, hst, hp, hre⟩
      · exact ⟨target, h, role, hsel, hst, hp, hre⟩
      all_goals exact absurd hre Bool.false_ne_true
  · unfold cascadeGrant
    rw [Bool.or_eq_true, Option.any_eq_true, directGrantExists_iff_stands]
    constructor
    · rintro (⟨f, hf, hcas⟩ | ⟨target, role, hsel, hst, hp⟩)
      · obtain ⟨target, h, role, hsel, hst, hp, habove⟩ := folderCascadeGrantExists_iff_stands.mp hcas
        exact ⟨target, .folder h, role, hsel, hst, hp, (Option.any_eq_true _ _).mpr ⟨f, hf, habove⟩⟩
      · exact ⟨target, .file x, role, hsel, hst, hp, decide_eq_true rfl⟩
    · rintro ⟨target, h | y | _ | _ | _ | _, role, hsel, hst, hp, hre⟩
      · obtain ⟨f, hf, habove⟩ := (Option.any_eq_true _ _).mp hre
        exact .inl ⟨f, hf, folderCascadeGrantExists_iff_stands.mpr ⟨target, h, role, hsel, hst, hp, habove⟩⟩
      · obtain rfl : y = x := of_decide_eq_true hre
        exact .inr ⟨target, role, hsel, hst, hp⟩
      all_goals exact absurd hre Bool.false_ne_true
  all_goals
    refine iff_of_false Bool.false_ne_true ?_
    rintro ⟨target, _ | _ | _ | _ | _ | _, role, hsel, hst, hp, hre⟩ <;>
      exact absurd hre Bool.false_ne_true

theorem driveRole_congr {db' : Store} (hm : db'.matchSet s = db.matchSet s)
    (h : ∀ target role, (db.matchSet s).selects target = true →
      (db.Stands target (.drive d) role ↔ db'.Stands target (.drive d) role)) :
    db.driveRole s d = db'.driveRole s d := by
  have hrole : ∀ (db : Store) (role : Role), (db.grants.any fun g => db.live (db.matchSet s) g &&
      decide (g.resource = .drive d) && decide (g.role = role)) = true ↔
      ∃ target, (db.matchSet s).selects target = true ∧ db.Stands target (.drive d) role := by
    intro db role
    simp only [Bool.and_assoc]
    rw [any_stands (q := fun r' role' => decide (r' = .drive d) && decide (role' = role))]
    simp only [Bool.and_eq_true, decide_eq_true_iff]
    constructor
    · rintro ⟨target, _, _, hsel, hst, rfl, rfl⟩
      exact ⟨target, hsel, hst⟩
    · rintro ⟨target, hsel, hst⟩
      exact ⟨target, _, _, hsel, hst, rfl, rfl⟩
  unfold driveRole strongestRole
  congr 1
  funext role
  rw [Bool.eq_iff_iff, hrole, hrole, hm]
  exact exists_congr fun target => and_congr_right fun hsel => h target role hsel

end Store

end OxiCloud.Acl
