import OxiCloud.Acl.Membership

/-! # The group service

`SubjectGroupService::add_member`, `remove_member` and `delete`, with the statements of the group
repository. A refused call changes nothing, and what an accepted one found and wrote is given by
`addMember_cases`, `removeMember_cases` and `delete_cases`.

A group is `Seeded` if it has a user, directly or through nested groups. `remove_member` looks at the group
it takes the member from and at no other, and that is enough: no group at all loses its last user
(`Seeded.removeMember`). `delete` does not look at the groups above the deleted one. A group
that has no user is never refused a removal. -/

namespace OxiCloud.Acl.Groups

open Lib.Tables Folders Schema

/-! ### `add_member` -/

/-- `MAX_GROUP_DEPTH`. -/
def maxGroupDepth : ℕ := 8

/-- The groups directly in a group. -/
def childGroups (ms : Members) (g : GroupId) : Finset GroupId := nestedGroups (ms.filter fun r => r.1 = g)

/-- The length of the longest chain of groups below a group. Without a cycle a chain has at most as many
links as there are rows. -/
def depthBelow (ms : Members) : ℕ → GroupId → ℕ
  | 0, _ => 0
  | n + 1, g => (childGroups ms g).sup fun c => depthBelow ms n c + 1

/-- `MAX(depth)` under `parent` as if `child` were already in it. -/
def maxDepth (ms : Members) (parent child : GroupId) : ℕ :=
  max (depthBelow ms ms.card parent) (depthBelow ms ms.card child + 1)

def invalidInput : DomainError := ⟨.invalidInput, "SubjectGroup"⟩

/-- External and unknown users cannot be members. -/
def refuseCandidate (db : Store) : GroupMember → Except DomainError Unit
  | .user u =>
    match db.users.get u with
    | none => .error (notFound "SubjectGroup")
    | some true => .error (accessDenied "SubjectGroup")
    | some false => .ok ()
  | .group _ => .ok ()

/-- The cycle check and the depth check of the repository. -/
def refuseNesting (ms : Members) (group : GroupId) : GroupMember → Except DomainError Unit
  | .user _ => .ok ()
  | .group child =>
    if child = group then .error invalidInput
    else if group ∈ descendants ms child then .error invalidInput
    -- the depth is compared as a `u8`
    else if maxGroupDepth < maxDepth ms group child % 256 then .error invalidInput
    else .ok ()

/-- The foreign keys of a new row that the service has not checked before. -/
def references (db : Store) (addedBy : UserId) : GroupMember → Bool
  | .user _ => (db.users.get addedBy).isSome
  | .group child => (db.users.get addedBy).isSome && (db.groups.get child).isSome

/-- `INSERT … ON CONFLICT DO NOTHING` of a member. -/
def insertMember (db : Store) (group : GroupId) (member : GroupMember) (addedBy : UserId) :
    Except DomainError Members :=
  if (group, member) ∈ db.members then .error (alreadyExists "SubjectGroup")
  else if references db addedBy member then .ok (insert (group, member) db.members)
  else .error (internalError "SubjectGroup")

/-- `add_member` of the repository. -/
def repoAddMember (db : Store) (group : GroupId) (member : GroupMember) (addedBy : UserId) :
    Except DomainError Members :=
  if (db.groups.get group).isNone then .error (notFound "SubjectGroup")
  else
    match refuseNesting db.members group member with
    | .error err => .error err
    | .ok _ => insertMember db group member addedBy

/-- `invalidation_targets`: the users whose groups change with the member. -/
def invalidationTargets (ms : Members) : GroupMember → Finset UserId
  | .user u => {u}
  | .group child => listTransitiveUsers ms child

/-- `invalidate_user_groups_cache` for each of the users. -/
def invalidateUserGroupsCache (us : Finset UserId) (e : Engine) : Engine :=
  { e with userGroupsCache := fun u => if u ∈ us then none else e.userGroupsCache u }

/-- The database with other membership rows. -/
def withMembers (db : Store) (ms : Members) : Store := { db with members := ms }

/-- `add_member`. -/
def addMember (x : Service) (group : GroupId) (member : GroupMember) (caller : UserId) :
    Except DomainError Unit × Service :=
  if group = internalGroupId then (.error (accessDenied "SubjectGroup"), x)
  else
    match refuseCandidate x.db member with
    | .error err => (.error err, x)
    | .ok _ =>
      match repoAddMember x.db group member caller with
      | .error err => (.error err, x)
      | .ok ms =>
        (.ok (), ⟨withMembers x.db ms, invalidateUserGroupsCache (invalidationTargets ms member) x.engine⟩)

/-! ### `remove_member` -/

/-- `would_be_empty`. -/
def wouldBeEmpty (ms : Members) (group : GroupId) : GroupMember → Bool
  | .user u => decide (listTransitiveUsers ms group = {u})
  | .group child => decide (listTransitiveUsers ms child).Nonempty &&
      decide (listTransitiveUsers ms group ⊆ listTransitiveUsers ms child)

/-- `remove_member`. -/
def removeMember (x : Service) (group : GroupId) (member : GroupMember) :
    Except DomainError Unit × Service :=
  if group = internalGroupId then (.error (accessDenied "SubjectGroup"), x)
  else if (listTransitiveUsers x.db.members group).Nonempty ∧ wouldBeEmpty x.db.members group member = true then
    (.error invalidInput, x)
  else if (group, member) ∈ x.db.members then
    (.ok (), ⟨withMembers x.db (x.db.members.erase (group, member)),
      invalidateUserGroupsCache (invalidationTargets x.db.members member) x.engine⟩)
  else (.error (notFound "SubjectGroup"), x)

/-! ### `delete` -/

def isDrive : Resource → Bool
  | .drive _ => true
  | _ => false

/-- The number of unexpired owner grants on a resource. -/
def unexpiredOwners (db : Store) (r : Resource) : ℕ :=
  db.grants.rows.count fun _ g => decide (g.resource = r) && decide (g.role = .owner) && g.unexpired db.now

/-- The group has the only unexpired owner grant of a drive. -/
def SoleOwner (db : Store) (k : GroupId) : Prop :=
  ∃ g ∈ db.grants, g.subject = .group k ∧ isDrive g.resource = true ∧ g.role = .owner ∧
    g.unexpired db.now = true ∧ unexpiredOwners db g.resource = 1

instance (db : Store) (k : GroupId) : Decidable (SoleOwner db k) :=
  inferInstanceAs (Decidable (∃ g ∈ db.grants, _))

/-- The rows a deletion of the group leaves: it cascades to those of the group and those that nest it. -/
def withoutGroup (ms : Members) (k : GroupId) : Members := ms.filter fun r => r.1 ≠ k ∧ r.2 ≠ .group k

/-- The tables after the two `DELETE`s. -/
def dropGroup (db : Store) (k : GroupId) : Store :=
  { db with grants := db.grants.clearSubject (.group k), groups := db.groups.erase k,
            members := withoutGroup db.members k }

/-- `delete`. It invalidates nothing. -/
def delete (x : Service) (k : GroupId) : Except DomainError Unit × Service :=
  match x.db.groups.get k with
  | none => (.error (notFound "SubjectGroup"), x)
  | some true => (.error (accessDenied "SubjectGroup"), x)
  | some false =>
    if SoleOwner x.db k then (.error ⟨.conflict, "SubjectGroup"⟩, x)
    else (.ok (), ⟨dropGroup x.db k, x.engine⟩)

/-! ### What the calls do -/

variable {x : Service} {ms : Members} {group k : GroupId} {member : GroupMember} {caller u v : UserId}

/-- What `add_member` asks for. -/
structure Admissible (db : Store) (group : GroupId) (member : GroupMember) (caller : UserId) : Prop where
  editable : group ≠ internalGroupId
  candidate : refuseCandidate db member = .ok ()
  parent : (db.groups.get group).isSome = true
  nesting : refuseNesting db.members group member = .ok ()
  new : (group, member) ∉ db.members
  references : references db caller member = true

theorem addMember_cases (x : Service) (group : GroupId) (member : GroupMember) (caller : UserId) :
    (∃ err, addMember x group member caller = (.error err, x)) ∧ ¬ Admissible x.db group member caller ∨
    Admissible x.db group member caller ∧ ∃ e, addMember x group member caller =
      (.ok (), ⟨withMembers x.db (insert (group, member) x.db.members), e⟩) := by
  unfold addMember repoAddMember insertMember
  by_cases hint : group = internalGroupId
  · exact .inl ⟨⟨_, if_pos hint⟩, fun h => h.editable hint⟩
  rw [if_neg hint]
  rcases hc : refuseCandidate x.db member with err | ⟨⟩
  · exact .inl ⟨⟨err, rfl⟩, fun h => nomatch hc.symm.trans h.candidate⟩
  rcases hp : x.db.groups.get group with _ | virtual
  · refine .inl ⟨⟨_, rfl⟩, fun h => ?_⟩
    have hparent := h.parent
    rw [hp] at hparent
    exact nomatch hparent
  rcases hn : refuseNesting x.db.members group member with err | ⟨⟩
  · exact .inl ⟨⟨err, rfl⟩, fun h => nomatch hn.symm.trans h.nesting⟩
  by_cases hm : (group, member) ∈ x.db.members
  · refine .inl ⟨⟨alreadyExists "SubjectGroup", ?_⟩, fun h => h.new hm⟩
    simp only [Option.isNone_some, Bool.false_eq_true, if_false, if_pos hm]
  rcases hr : references x.db caller member with _ | _
  · refine .inl ⟨⟨internalError "SubjectGroup", ?_⟩, fun h => nomatch hr.symm.trans h.references⟩
    simp only [Option.isNone_some, Bool.false_eq_true, if_false, if_neg hm]
  · refine .inr ⟨⟨hint, hc, by rw [hp]; rfl, hn, hm, hr⟩,
      invalidateUserGroupsCache (invalidationTargets (insert (group, member) x.db.members) member) x.engine, ?_⟩
    simp only [Option.isNone_some, Bool.false_eq_true, if_false, if_neg hm, if_true]

theorem removeMember_cases (x : Service) (group : GroupId) (member : GroupMember) :
    (∃ err, removeMember x group member = (.error err, x)) ∨
    ((listTransitiveUsers x.db.members group).Nonempty → wouldBeEmpty x.db.members group member = false) ∧
      ∃ e, removeMember x group member =
        (.ok (), ⟨withMembers x.db (x.db.members.erase (group, member)), e⟩) := by
  unfold removeMember
  split_ifs with hint hempty hmem
  · exact .inl ⟨_, rfl⟩
  · exact .inl ⟨_, rfl⟩
  · refine .inr ⟨fun hne => ?_, _, rfl⟩
    rw [← Bool.not_eq_true]
    exact fun hw => hempty ⟨hne, hw⟩
  · exact .inl ⟨_, rfl⟩

/-- A deletion is refused exactly if the group is unknown, virtual or the sole owner of a drive. -/
theorem delete_cases (x : Service) (k : GroupId) :
    (∃ err, delete x k = (.error err, x)) ∧ (x.db.groups.get k ≠ some false ∨ SoleOwner x.db k) ∨
    x.db.groups.get k = some false ∧ ¬ SoleOwner x.db k ∧ delete x k = (.ok (), ⟨dropGroup x.db k, x.engine⟩) := by
  unfold delete
  rcases hk : x.db.groups.get k with _ | _ | _
  · exact .inl ⟨⟨_, rfl⟩, .inl (by decide)⟩
  · by_cases hs : SoleOwner x.db k
    · exact .inl ⟨⟨_, if_pos hs⟩, .inr hs⟩
    · exact .inr ⟨rfl, hs, if_neg hs⟩
  · exact .inl ⟨⟨_, rfl⟩, .inl (by decide)⟩

/-! ### Groups with users -/

/-- The group has a user, directly or through nested groups. -/
def Seeded (ms : Members) (k : GroupId) : Prop := ∃ u, Within ms u k

theorem seeded_iff : (listTransitiveUsers ms k).Nonempty ↔ Seeded ms k :=
  exists_congr fun _ => mem_listTransitiveUsers

instance (ms : Members) (k : GroupId) : Decidable (Seeded ms k) := decidable_of_iff _ seeded_iff

theorem Seeded.mono {ms' : Members} (h : Seeded ms k) (hs : ms ⊆ ms') : Seeded ms' k := by
  obtain ⟨u, hu⟩ := h
  exact ⟨u, hu.mono hs⟩

/-- The user comes into a group with the member. -/
def Through (ms : Members) (v : UserId) : GroupMember → Prop
  | .user u => u = v
  | .group child => Within ms v child

/-- A user who does not come with the removed member stays wherever it was. -/
theorem Within.erase_of_not_through (h : Within ms v k) (ht : ¬ Through ms v member) :
    Within (ms.erase (group, member)) v k := by
  induction h with
  | direct hm =>
    refine .direct (Finset.mem_erase.mpr ⟨fun heq => ht ?_, hm⟩)
    obtain ⟨-, rfl⟩ := Prod.mk.inj heq
    rfl
  | nested hm hw ih =>
    refine .nested (Finset.mem_erase.mpr ⟨fun heq => ht ?_, hm⟩) ih
    obtain ⟨-, rfl⟩ := Prod.mk.inj heq
    exact hw

/-- Whoever was in a group still is, or was in it by way of `group`; then all who are left in `group` are
in it. -/
theorem Within.erase_or (h : Within ms u k) : Within (ms.erase (group, member)) u k ∨
    Within ms u group ∧ ∀ v, Within (ms.erase (group, member)) v group →
      Within (ms.erase (group, member)) v k := by
  induction h with
  | @direct g hm =>
    by_cases heq : (g, GroupMember.user u) = (group, member)
    · obtain ⟨rfl, rfl⟩ := Prod.mk.inj heq
      exact .inr ⟨.direct hm, fun _ hv => hv⟩
    · exact .inl (.direct (Finset.mem_erase.mpr ⟨heq, hm⟩))
  | @nested g g' hm hw ih =>
    by_cases heq : (g, GroupMember.group g') = (group, member)
    · obtain ⟨rfl, rfl⟩ := Prod.mk.inj heq
      exact .inr ⟨.nested hm hw, fun _ hv => hv⟩
    · have hm' := Finset.mem_erase.mpr ⟨heq, hm⟩
      rcases ih with ih | ⟨hg, ih⟩
      · exact .inl (.nested hm' ih)
      · exact .inr ⟨hg, fun v hv => .nested hm' (ih v hv)⟩

/-- What the guard of `remove_member` finds: a user of the group who does not come with the member. -/
theorem exists_not_through (hne : Seeded ms group) (hw : wouldBeEmpty ms group member = false) :
    ∃ v, Within ms v group ∧ ¬ Through ms v member := by
  by_contra hall
  have hthrough : ∀ v, Within ms v group → Through ms v member := fun v hv => by
    by_contra hv'
    exact hall ⟨v, hv, hv'⟩
  rcases member with u | child
  · have honly : listTransitiveUsers ms group = {u} := by
      refine Finset.eq_singleton_iff_nonempty_unique_mem.mpr ⟨seeded_iff.mpr hne, fun v hv => ?_⟩
      exact (hthrough v (mem_listTransitiveUsers.mp hv)).symm
    exact of_decide_eq_false hw honly
  · have hchild : (listTransitiveUsers ms child).Nonempty := by
      obtain ⟨v, hv⟩ := hne
      exact ⟨v, mem_listTransitiveUsers.mpr (hthrough v hv)⟩
    have hsub : listTransitiveUsers ms group ⊆ listTransitiveUsers ms child := fun v hv =>
      mem_listTransitiveUsers.mpr (hthrough v (mem_listTransitiveUsers.mp hv))
    have hboth : wouldBeEmpty ms group (.group child) = true :=
      (Bool.and_eq_true _ _).mpr ⟨decide_eq_true hchild, decide_eq_true hsub⟩
    rw [hw] at hboth
    exact nomatch hboth

/-- **No group loses its last user by `remove_member`.** -/
theorem Seeded.removeMember (h : Seeded x.db.members k) (group : GroupId) (member : GroupMember) :
    Seeded (removeMember x group member).2.db.members k := by
  rcases removeMember_cases x group member with ⟨err, hr⟩ | ⟨hguard, e, hr⟩
  · rw [hr]
    exact h
  rw [hr]
  obtain ⟨u, hu⟩ := h
  rcases Within.erase_or hu with hleft | ⟨hg, hall⟩
  · exact ⟨u, hleft⟩
  · obtain ⟨v, hv, ht⟩ := exists_not_through ⟨u, hg⟩ (hguard (seeded_iff.mpr ⟨u, hg⟩))
    exact ⟨v, hall v (Within.erase_of_not_through hv ht)⟩

/-! ### The two queries -/

/-- **The recursive queries compute reachability from its two ends**, and a group that had a user is refused
a removal after which it has none; the table may have cycles. -/
theorem transitive_queries_dual (x : Service) (group : GroupId) (member : GroupMember) :
    (∀ u g, u ∈ listTransitiveUsers x.db.members g ↔ g ∈ groupsForUser x.db.members u) ∧
    (∀ u g, g ∈ groupsForUser x.db.members u ↔ Within x.db.members u g) ∧
    (Seeded x.db.members group → ¬ Seeded (x.db.members.erase (group, member)) group →
      wouldBeEmpty x.db.members group member = true ∧ ∃ err, removeMember x group member = (.error err, x)) := by
  refine ⟨fun u g => mem_listTransitiveUsers.trans mem_groupsForUser.symm, fun u g => mem_groupsForUser, ?_⟩
  intro hs hn
  have hw : wouldBeEmpty x.db.members group member = true := by
    rw [← Bool.not_eq_false]
    intro hf
    obtain ⟨v, hv, ht⟩ := exists_not_through hs hf
    exact hn ⟨v, Within.erase_of_not_through hv ht⟩
  rcases removeMember_cases x group member with herr | ⟨hguard, -⟩
  · exact ⟨hw, herr⟩
  · rw [hguard (seeded_iff.mpr hs)] at hw
    exact absurd hw Bool.false_ne_true

/-- The only user of the group 3 stays in it. -/
theorem transitive_queries_dual_office : ∃ err, removeMember ⟨office [], .empty⟩ 3 (.user 5) =
    (.error err, ⟨office [], .empty⟩) :=
  ((transitive_queries_dual ⟨office [], .empty⟩ 3 (.user 5)).2.2 (by decide +kernel) (by decide +kernel)).2

/-- A group without users loses its only member, a group without members. -/
theorem removeMember_unseeded : 2 ∉ descendants {(2, .group 3)} 3 ∧
    ¬ Seeded (Finset.erase {(2, .group 3)} (2, .group 3)) 2 ∧
    (removeMember ⟨withMembers (office []) {(2, .group 3)}, .empty⟩ 2 (.group 3)).1 = .ok () :=
  ⟨by decide +kernel, by decide +kernel, rfl⟩

end OxiCloud.Acl.Groups
