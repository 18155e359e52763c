import OxiCloud.Folders.Schema

/-! # The tables of the authorization engine

Subjects, resources, permissions and roles of `authorization.rs`, the rows of `storage.role_grants`,
`auth.users`, `auth.subject_groups` and `auth.subject_group_members`, and the columns of
`storage.drives` that the folder tables leave out. Ids of users, groups and link tokens are all UUIDs,
and the engine compares them without their types, so they are of one type here.

`RoleGrants` carries the constraint `UNIQUE (subject_type, subject_id, resource_type, resource_id)`. Its
operations are the statements of the engine: an upsert on that key, and deletions by a predicate. What a
query over the grants finds depends on the rows only through `g ∈ t`.

`Within ms u g` says that the user `u` is a member of the group `g`, directly or through nested groups.
Both recursive queries of the group repository compute it: upwards from a user (`mem_groupsForUser`) and
downwards from a group (`mem_listTransitiveUsers`). -/

namespace OxiCloud.Acl

open Lib.Tables Lib.Cascades Schema Folders Finset

abbrev UserId := ℕ

abbrev GroupId := ℕ

abbrev GrantId := ℕ

/-- `INTERNAL_GROUP_ID`: the group every internal user is in, without a membership row. -/
def internalGroupId : GroupId := 1

inductive SubjectType where
  | user
  | group
  | token
  deriving DecidableEq

inductive Subject where
  | user (id : UserId)
  | group (id : GroupId)
  | token (id : ℕ)
  deriving DecidableEq

/-- `Subject::type_str`. -/
def Subject.typeStr : Subject → SubjectType
  | user _ => .user
  | group _ => .group
  | token _ => .token

def Subject.id : Subject → ℕ
  | user id => id
  | group id => id
  | token id => id

inductive Resource where
  | folder (id : FolderId)
  | file (id : FileId)
  | drive (id : DriveId)
  | calendar (id : ℕ)
  | addressBook (id : ℕ)
  | playlist (id : ℕ)
  deriving DecidableEq

inductive Permission where
  | read
  | create
  | share
  | comment
  | delete
  | update
  | manage
  deriving DecidableEq

inductive Role where
  | viewer
  | commenter
  | contributor
  | editor
  | owner
  deriving DecidableEq

/-- `Role::expand`: the permissions of a role. -/
def Role.expand : Role → List Permission
  | viewer => [.read]
  | commenter => [.read, .comment]
  | contributor => [.read, .create]
  | editor => [.read, .comment, .create, .update]
  | owner => [.read, .comment, .create, .update, .share, .delete, .manage]

/-- `roles_implying`: the roles with a permission. -/
def rolesImplying : Permission → List Role
  | .read => [.viewer, .commenter, .contributor, .editor, .owner]
  | .comment => [.commenter, .editor, .owner]
  | .create => [.contributor, .editor, .owner]
  | .update => [.editor, .owner]
  | .delete => [.owner]
  | .share => [.owner]
  | .manage => [.owner]

/-- The values of the type `storage.grant_role`, in its order. -/
def grantRoles : List Role := [.owner, .editor, .contributor, .commenter, .viewer]

theorem mem_rolesImplying {r : Role} {p : Permission} : r ∈ rolesImplying p ↔ p ∈ r.expand := by
  rcases r with _ | _ | _ | _ | _ <;> rcases p with _ | _ | _ | _ | _ | _ | _ <;> decide

/-- A row of `storage.role_grants`. -/
structure Grant where
  subject : Subject
  resource : Resource
  role : Role
  grantedBy : UserId
  expiresAt : Option ℕ
  deriving DecidableEq

namespace Grant

/-- The columns of the unique constraint. -/
def key (g : Grant) : Subject × Resource := (g.subject, g.resource)

/-- `expires_at IS NULL OR expires_at > NOW()`. -/
def unexpired (now : ℕ) (g : Grant) : Bool := g.expiresAt.all (now < ·)

end Grant

/-! ### `storage.role_grants` -/

/-- The table `storage.role_grants` with its unique constraint. -/
structure RoleGrants where
  rows : Table GrantId Grant
  unique : ∀ {a b : GrantId} {g h : Grant}, rows.get a = some g → rows.get b = some h →
    g.key = h.key → a = b

namespace RoleGrants

/-- A grant stands in the table. -/
instance : Membership Grant RoleGrants := ⟨fun t g => ∃ id, t.rows.get id = some g⟩

variable {t : RoleGrants} {g : Grant}

@[ext] theorem ext {t' : RoleGrants} (h : t.rows = t'.rows) : t = t' := by
  cases t
  cases t'
  congr

/-- No grants. -/
def empty : RoleGrants := ⟨.empty, fun h => nomatch h⟩

/-- `DELETE … WHERE p`. -/
def delete (t : RoleGrants) (p : GrantId → Grant → Bool) : RoleGrants where
  rows := t.rows.filter fun id g => !p id g
  unique ha hb := t.unique (Option.filter_eq_some_iff.mp ha).1 (Option.filter_eq_some_iff.mp hb).1

/-- `UPDATE … SET` of columns outside the unique constraint. -/
def rewrite (t : RoleGrants) (f : Grant → Grant) (hf : ∀ g, (f g).key = g.key) : RoleGrants where
  rows := t.rows.modify fun _ => f
  unique ha hb hk := by
    obtain ⟨g, hg, rfl⟩ := Option.map_eq_some_iff.mp ha
    obtain ⟨h, hh, rfl⟩ := Option.map_eq_some_iff.mp hb
    rw [hf, hf] at hk
    exact t.unique hg hh hk

/-- Some row satisfies `p`. -/
def any (t : RoleGrants) (p : Grant → Bool) : Bool := decide (t.rows.sat fun _ g => p g).Nonempty

/-- The row written by an upsert over a row with the same key. -/
def overwrite (g h : Grant) : Grant :=
  if h.key = g.key then { h with role := g.role, grantedBy := g.grantedBy, expiresAt := g.expiresAt } else h

theorem overwrite_key (g h : Grant) : (overwrite g h).key = h.key := by
  unfold overwrite
  split_ifs <;> rfl

variable {h : Grant}

theorem overwrite_of_key (hk : h.key = g.key) : overwrite g h = g := by
  obtain ⟨hs, hr⟩ := Prod.mk.inj hk
  rw [overwrite, if_pos hk, hs, hr]

theorem overwrite_of_ne (hk : h.key ≠ g.key) : overwrite g h = h := if_neg hk

/-- `INSERT` of a row with a new key under the id `id`. -/
def insert (t : RoleGrants) (id : GrantId) (g : Grant) (hg : t.any (fun h => h.key = g.key) = false) :
    RoleGrants where
  rows := t.rows.set id g
  unique {a b x y} ha hb hk := by
    have hnew : ∀ {c : GrantId} {z : Grant}, t.rows.get c = some z → z.key ≠ g.key := by
      intro c z hz hzk
      have hne : (t.rows.sat fun _ h => decide (h.key = g.key)).Nonempty :=
        ⟨c, Table.mem_sat.mpr ⟨z, hz, decide_eq_true hzk⟩⟩
      exact absurd hne (of_decide_eq_false hg)
    rw [Table.get_set] at ha hb
    split_ifs at ha hb with h1 h2 h2
    · rw [h1, h2]
    · obtain rfl := Option.some.inj ha
      exact absurd hk.symm (hnew hb)
    · obtain rfl := Option.some.inj hb
      exact absurd hk (hnew ha)
    · exact t.unique ha hb hk

/-- `INSERT … ON CONFLICT … DO UPDATE`; `id` is the id drawn for a new row. Nothing is written if a row
already has that id. -/
def upsert (t : RoleGrants) (id : GrantId) (g : Grant) : Option RoleGrants :=
  if hg : t.any (fun h => h.key = g.key) = false then
    if (t.rows.get id).isNone then some (t.insert id g hg) else none
  else some (t.rewrite (overwrite g) (overwrite_key g))

variable {p : Grant → Bool}

theorem any_eq_true : t.any p = true ↔ ∃ g ∈ t, p g = true := by
  rw [any, decide_eq_true_iff]
  constructor
  · rintro ⟨id, hid⟩
    obtain ⟨g, hg, hp⟩ := Table.mem_sat.mp hid
    exact ⟨g, ⟨id, hg⟩, hp⟩
  · rintro ⟨g, ⟨id, hg⟩, hp⟩
    exact ⟨id, Table.mem_sat.mpr ⟨g, hg, hp⟩⟩

theorem any_eq_false : t.any p = false ↔ ∀ g ∈ t, p g = false := by
  rw [← Bool.not_eq_true, any_eq_true]
  simp

instance (t : RoleGrants) (P : Grant → Prop) [DecidablePred P] : Decidable (∃ g ∈ t, P g) :=
  decidable_of_iff (t.any (fun g => decide (P g)) = true) (by simp only [any_eq_true, decide_eq_true_iff])

instance (t : RoleGrants) (P : Grant → Prop) [DecidablePred P] : Decidable (∀ g ∈ t, P g) :=
  decidable_of_iff (t.any (fun g => !decide (P g)) = false)
    (by simp only [any_eq_false, Bool.not_eq_false', decide_eq_true_iff])

theorem delete_get {p : GrantId → Grant → Bool} {id : GrantId} :
    (t.delete p).rows.get id = some g ↔ t.rows.get id = some g ∧ p id g = false := by
  show (t.rows.get id).filter _ = some g ↔ _
  rw [Option.filter_eq_some_iff, Bool.not_eq_true']

theorem mem_delete : g ∈ t.delete (fun _ => p) ↔ g ∈ t ∧ p g = false := by
  constructor
  · rintro ⟨id, hid⟩
    obtain ⟨h, hp⟩ := delete_get.mp hid
    exact ⟨⟨id, h⟩, hp⟩
  · rintro ⟨⟨id, hid⟩, hp⟩
    exact ⟨id, delete_get.mpr ⟨hid, hp⟩⟩

theorem mem_of_mem_delete {p : GrantId → Grant → Bool} (h : g ∈ t.delete p) : g ∈ t := by
  obtain ⟨id, hid⟩ := h
  exact ⟨id, (delete_get.mp hid).1⟩

theorem mem_rewrite {f : Grant → Grant} {hf : ∀ g, (f g).key = g.key} :
    g ∈ t.rewrite f hf ↔ ∃ h ∈ t, f h = g := by
  constructor
  · rintro ⟨id, hid⟩
    obtain ⟨h, hh, rfl⟩ := Option.map_eq_some_iff.mp hid
    exact ⟨h, ⟨id, hh⟩, rfl⟩
  · rintro ⟨h, ⟨id, hh⟩, rfl⟩
    exact ⟨id, Option.map_eq_some_iff.mpr ⟨h, hh, rfl⟩⟩

/-- **An upsert writes the grant and leaves every other key alone.** -/
theorem mem_upsert {t' : RoleGrants} {id : GrantId} (hu : t.upsert id g = some t') :
    h ∈ t' ↔ h = g ∨ h ∈ t ∧ h.key ≠ g.key := by
  unfold upsert at hu
  split_ifs at hu with hg hid
  · obtain rfl := Option.some.inj hu
    have hnew : ∀ z ∈ t, z.key ≠ g.key := fun z hz hk =>
      absurd (any_eq_false.mp hg z hz) (by simp [hk])
    constructor
    · rintro ⟨c, hc⟩
      rcases Table.get_set_cases hc with ⟨-, hg⟩ | ⟨-, hget⟩
      · exact .inl hg
      · exact .inr ⟨⟨c, hget⟩, hnew h ⟨c, hget⟩⟩
    · rintro (rfl | ⟨⟨c, hc⟩, -⟩)
      · exact ⟨id, Table.get_set_self _ _ _⟩
      · refine ⟨c, ?_⟩
        have hne : c ≠ id := by
          rintro rfl
          rw [hc] at hid
          exact absurd hid (by simp)
        exact (Table.get_set_ne _ _ hne).trans hc
  · obtain rfl := Option.some.inj hu
    rw [mem_rewrite]
    constructor
    · rintro ⟨z, hz, rfl⟩
      by_cases hk : z.key = g.key
      · exact .inl (overwrite_of_key hk)
      · exact .inr ⟨by rwa [overwrite_of_ne hk], by rwa [overwrite_of_ne hk]⟩
    · rintro (rfl | ⟨hh, hk⟩)
      · obtain ⟨z, hz, hk⟩ := any_eq_true.mp ((Bool.not_eq_false _).mp hg)
        exact ⟨z, hz, overwrite_of_key (of_decide_eq_true hk)⟩
      · exact ⟨h, hh, overwrite_of_ne hk⟩

/-- The table after the listed rows were written. -/
def ofList (l : List (GrantId × Grant)) : RoleGrants :=
  l.foldl (fun t x => (t.upsert x.1 x.2).getD t) empty

end RoleGrants

/-! ### Groups -/

inductive GroupMember where
  | user (id : UserId)
  | group (id : GroupId)
  deriving DecidableEq

/-- The rows of `auth.subject_group_members`: a group and one of its members. -/
abbrev Members := Finset (GroupId × GroupMember)

/-- The user is a member of the group, directly or through nested groups. -/
inductive Within (ms : Members) (u : UserId) : GroupId → Prop where
  | direct {g : GroupId} (h : (g, .user u) ∈ ms) : Within ms u g
  | nested {g g' : GroupId} (h : (g, .group g') ∈ ms) (hw : Within ms u g') : Within ms u g

variable {ms : Members} {u : UserId} {g : GroupId}

theorem Within.mono {ms' : Members} (h : Within ms u g) (hs : ms ⊆ ms') : Within ms' u g := by
  induction h with
  | direct h => exact .direct (hs h)
  | nested h _ ih => exact .nested (hs h) ih

/-- `groups_for_user`, and the SQL function `caller_group_ids`. -/
def groupsForUser (ms : Members) (u : UserId) : Finset GroupId :=
  cascade (ms.image Prod.fst) (fun x y => (x, .group y) ∈ ms)
    ((ms.image Prod.fst).filter fun g => (g, .user u) ∈ ms)

theorem mem_groupsForUser : g ∈ groupsForUser ms u ↔ Within ms u g := by
  have hfst : ∀ {x : GroupId} {m : GroupMember}, (x, m) ∈ ms → x ∈ ms.image Prod.fst := fun h =>
    mem_image.mpr ⟨_, h, rfl⟩
  constructor
  · intro h
    refine cascade_induction (P := Within ms u) ?_ ?_ g h
    · intro x hx
      exact .direct (mem_filter.mp hx).2
    · intro x y _ hy hxy
      exact .nested hxy hy
  · intro h
    induction h with
    | direct h => exact subset_cascade (mem_filter.mpr ⟨hfst h, h⟩)
    | nested h _ ih => exact mem_cascade_of_dep (filter_subset _ _) (hfst h) ih h

instance (ms : Members) (u : UserId) (g : GroupId) : Decidable (Within ms u g) :=
  decidable_of_iff _ mem_groupsForUser

/-- The groups that are members of groups. -/
def nestedGroups (ms : Members) : Finset GroupId :=
  ms.biUnion fun r => match r.2 with
    | .group g => {g}
    | .user _ => ∅

/-- The recursive part of `list_transitive_users`: a group and the groups below it. -/
def descendants (ms : Members) (g : GroupId) : Finset GroupId :=
  cascade (insert g (nestedGroups ms)) (fun x y => (y, .group x) ∈ ms) {g}

/-- `list_transitive_users`. -/
def listTransitiveUsers (ms : Members) (g : GroupId) : Finset UserId :=
  ms.biUnion fun r => match r.2 with
    | .user u => if r.1 ∈ descendants ms g then {u} else ∅
    | .group _ => ∅

theorem mem_nestedGroups {g' : GroupId} (h : (g, .group g') ∈ ms) : g' ∈ nestedGroups ms :=
  mem_biUnion.mpr ⟨_, h, mem_singleton_self g'⟩

theorem self_mem_descendants (ms : Members) (g : GroupId) : g ∈ descendants ms g :=
  subset_cascade (mem_singleton_self g)

theorem mem_descendants_nested {x y : GroupId} (hy : y ∈ descendants ms g)
    (h : (y, .group x) ∈ ms) : x ∈ descendants ms g :=
  mem_cascade_of_dep (singleton_subset_iff.mpr (mem_insert_self _ _))
    (mem_insert_of_mem (mem_nestedGroups h)) hy h

theorem mem_listTransitiveUsers_iff :
    u ∈ listTransitiveUsers ms g ↔ ∃ x ∈ descendants ms g, (x, .user u) ∈ ms := by
  rw [listTransitiveUsers, mem_biUnion]
  constructor
  · rintro ⟨⟨x, v | y⟩, hm, hu⟩
    · split_ifs at hu with hx
      · rw [mem_singleton.mp hu]
        exact ⟨x, hx, hm⟩
      · exact absurd hu (notMem_empty u)
    · exact absurd hu (notMem_empty u)
  · rintro ⟨x, hx, hm⟩
    refine ⟨(x, .user u), hm, ?_⟩
    dsimp only
    rw [if_pos hx]
    exact mem_singleton_self u

theorem mem_listTransitiveUsers : u ∈ listTransitiveUsers ms g ↔ Within ms u g := by
  rw [mem_listTransitiveUsers_iff]
  constructor
  · rintro ⟨x, hx, hm⟩
    -- membership in a group below `g` is membership in `g`
    refine cascade_induction (P := fun y => Within ms u y → Within ms u g) ?_ ?_ x hx (.direct hm)
    · intro y hy
      rw [mem_singleton.mp hy]
      exact id
    · intro y z _ hz hyz hw
      exact hz (.nested hyz hw)
  · intro h
    have hd : ∀ y, Within ms u y → y ∈ descendants ms g → ∃ x ∈ descendants ms g, (x, .user u) ∈ ms := by
      intro y hw
      induction hw with
      | direct h => exact fun hy => ⟨_, hy, h⟩
      | nested h _ ih => exact fun hy => ih (mem_descendants_nested hy h)
    exact hd g h (self_mem_descendants ms g)

/-! ### The database -/

inductive DriveKind where
  | personal
  | shared
  deriving DecidableEq

/-- The columns of `storage.drives` that the folder tables leave out: the kind and, from
`effective_policies`, the two policies about members. -/
structure DriveTerms where
  kind : DriveKind
  forbidExternalSharing : Bool
  forbidOwnerRoleChange : Bool
  deriving DecidableEq

/-- What the engine and the membership services read. `users` holds the column `is_external`, `groups`
the column `is_virtual`. -/
structure Store where
  tree : Tree
  terms : DriveId → DriveTerms
  calendars : Finset ℕ
  addressBooks : Finset ℕ
  playlists : Finset ℕ
  users : Table UserId Bool
  groups : Table GroupId Bool
  members : Members
  grants : RoleGrants
  migrationReadonly : Bool

namespace Store

/-- `NOW()`. -/
def now (db : Store) : ℕ := db.tree.now

/-- `SELECT drive_id` of a folder or a file. -/
def driveOf (db : Store) : Resource → Option DriveId
  | .folder f => (db.tree.folders.get f).map Folder.driveId
  | .file x => (db.tree.files.get x).map File.driveId
  | _ => none

/-- `read_only` of the effective policies; a missing drive has the defaults. -/
def readOnly (db : Store) (d : DriveId) : Bool := (db.tree.drives.get d).any Drive.readOnly

/-- `gf.lpath @> lpath` for the folders `gf` and `f`. -/
def above (db : Store) (gf f : FolderId) : Bool :=
  (db.tree.folders.get gf).any fun r => db.tree.under r.lpath f

end Store

end OxiCloud.Acl
