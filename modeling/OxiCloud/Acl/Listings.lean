import OxiCloud.Acl.Decisions

/-! # The drives of a user

The drives a user can read, computed three times: by the engine, by the query behind `list_readable_by`
and by the SQL function `caller_accessible_drives`. The two queries know the user and the groups of the
user, but not the internal group, and the first one drops a drive without a root folder
(`listings_agree_iff`). -/

namespace OxiCloud.Acl

open Lib.Tables Folders Schema

/-- A row of the listing of drives: the kind, the name of the root folder and the role of the caller. -/
structure DriveWithRootName where
  kind : DriveKind
  rootFolderName : Text
  callerRole : Role
  deriving DecidableEq

namespace Store

variable (db : Store) (u : UserId)

/-- The grant is to the caller or to a group in `caller_group_ids`. -/
def callerMatches (g : Grant) : Bool :=
  match g.subject with
  | .user v => decide (v = u)
  | .group k => decide (k ∈ groupsForUser db.members u)
  | .token _ => false

/-- The unexpired grants on a drive that the two queries join. -/
def callerGrant (d : DriveId) (g : Grant) : Bool :=
  db.callerMatches u g && g.unexpired db.now && decide (g.resource = .drive d)

/-- `query_readable_by`. -/
def queryReadableBy : Table DriveId DriveWithRootName :=
  .ofKeys db.tree.drives.keys fun d => do
    let drive ← db.tree.drives.get d
    let f ← drive.rootFolderId
    let folder ← db.tree.folders.get f
    let role ← grantRoles.find? fun r => db.grants.any fun g => db.callerGrant u d g && decide (g.role = r)
    pure ⟨(db.terms d).kind, folder.name, role⟩

/-- `caller_accessible_drives` without a policy flag. -/
def callerAccessibleDrives : Finset DriveId :=
  db.tree.drives.keys.filter fun d => db.grants.any (db.callerGrant u d)

/-- The existing drives whose `Read` the engine grants. -/
def readable : Finset DriveId :=
  db.tree.drives.keys.filter fun d => (check db (.user u) .read (.drive d) .empty).1

/-- The drive has a root folder. -/
def HasRoot (d : DriveId) : Prop :=
  ∃ drive ∈ db.tree.drives.get d, ∃ f ∈ drive.rootFolderId, (db.tree.folders.get f).isSome

/-- There is an unexpired grant on the drive to a subject with `P`. -/
def OnDrive (d : DriveId) (P : Subject → Prop) : Prop :=
  ∃ g ∈ db.grants, g.unexpired db.now = true ∧ g.resource = .drive d ∧ P g.subject

/-- The subject is the user or a group of the user. -/
def Personal : Subject → Prop
  | .user v => v = u
  | .group k => Within db.members u k
  | .token _ => False

/-- The subject is the internal group, and the user is internal. -/
def Internal (target : Subject) : Prop :=
  target = .group internalGroupId ∧ db.users.get u = some false

/-- The engine takes a grant to the subject for one to the user because of its id. -/
def Mistaken (target : Subject) : Prop :=
  target.typeStr ≠ .token ∧ target.id ∈ db.expansion u ∧ ¬ db.Addresses (.user u) target

variable {db u} {d : DriveId} {g : Grant}

instance (target : Subject) : Decidable (db.Personal u target) := by
  apply Subject.casesOn (motive := fun target => Decidable (db.Personal u target)) target
  all_goals intros; dsimp only [Personal]; infer_instance

instance (d : DriveId) (P : Subject → Prop) [DecidablePred P] : Decidable (db.OnDrive d P) := by
  unfold OnDrive; infer_instance

/-! ### What the three computations find -/

theorem callerMatches_iff : db.callerMatches u g = true ↔ db.Personal u g.subject := by
  unfold callerMatches Personal
  rcases g.subject with v | k | t
  · exact decide_eq_true_iff
  · exact decide_eq_true_iff.trans mem_groupsForUser
  · exact iff_of_false Bool.false_ne_true id

theorem any_callerGrant : db.grants.any (db.callerGrant u d) = true ↔ db.OnDrive d (db.Personal u) := by
  rw [RoleGrants.any_eq_true]
  refine exists_congr fun g => and_congr_right fun _ => ?_
  rw [callerGrant, Bool.and_eq_true, Bool.and_eq_true, callerMatches_iff, decide_eq_true_iff]
  constructor
  · rintro ⟨⟨hm, he⟩, hr⟩
    exact ⟨he, hr, hm⟩
  · rintro ⟨he, hr, hm⟩
    exact ⟨⟨hm, he⟩, hr⟩

theorem mem_callerAccessibleDrives : d ∈ db.callerAccessibleDrives u ↔
    (db.tree.drives.get d).isSome ∧ db.OnDrive d (db.Personal u) := by
  rw [callerAccessibleDrives, Finset.mem_filter, db.tree.drives.mem_keys, any_callerGrant]

theorem find_role_isSome {q : Grant → Bool} {t : RoleGrants} :
    (grantRoles.find? fun r => t.any fun g => q g && decide (g.role = r)).isSome = true ↔
      t.any q = true := by
  rw [List.find?_isSome, RoleGrants.any_eq_true]
  simp only [RoleGrants.any_eq_true, Bool.and_eq_true, decide_eq_true_iff]
  constructor
  · rintro ⟨r, -, g, hg, hq, -⟩
    exact ⟨g, hg, hq⟩
  · rintro ⟨g, hg, hq⟩
    exact ⟨g.role, mem_grantRoles g.role, g, hg, hq, rfl⟩

theorem mem_queryReadableBy : d ∈ (db.queryReadableBy u).keys ↔
    db.HasRoot d ∧ db.OnDrive d (db.Personal u) := by
  rw [← any_callerGrant, ← find_role_isSome, queryReadableBy, Table.ofKeys]
  simp only [Finset.mem_filter, db.tree.drives.mem_keys, HasRoot]
  rcases hd : db.tree.drives.get d with _ | drive
  · simp
  rcases hf : drive.rootFolderId with _ | f
  · simp [hf]
  rcases hr : db.tree.folders.get f with _ | folder
  · simp [hf, hr]
  rcases grantRoles.find? fun r =>
      db.grants.any fun g => db.callerGrant u d g && decide (g.role = r) with _ | role
  · simp [hf, hr]
  · simp [hf, hr]

theorem read_mem_expand (r : Role) : .read ∈ r.expand := by
  rcases r with _ | _ | _ | _ | _ <;> decide

theorem check_read_drive : (check db (.user u) .read (.drive d) .empty).1 = true ↔
    ∃ g ∈ db.grants, db.live (db.matchSet (.user u)) g = true ∧ g.resource = .drive d := by
  have hdec : db.decision (.user u) .read (.drive d) = (db.driveRole (.user u) d).isSome := by
    show roleAllows _ _ = _
    rcases db.driveRole (.user u) d with _ | r
    · rfl
    · exact decide_eq_true (read_mem_expand r)
  rw [check_empty, hdec, driveRole, strongestRole, find_role_isSome, RoleGrants.any_eq_true]
  simp

/-- A grant matched by the engine reaches the user in one of three ways. -/
theorem selects_iff : (db.matchSet (.user u)).selects g.subject = true ↔
    db.Personal u g.subject ∨ db.Internal u g.subject ∨ db.Mistaken u g.subject := by
  constructor
  · intro h
    have hsel := h
    rw [MatchSet.selects, Bool.and_eq_true, decide_eq_true_iff, decide_eq_true_iff] at hsel
    obtain ⟨htype, hid⟩ := hsel
    by_cases ha : db.Addresses (.user u) g.subject
    · rcases ha with heq | ha
      · left
        rw [heq]
        rfl
      · rcases hg : g.subject with v | k | t
        · rw [hg] at ha
          exact ha.elim
        · rw [hg] at ha
          rcases ha with hw | ⟨rfl, hu⟩
          · exact .inl hw
          · exact .inr (.inl ⟨rfl, hu⟩)
        · rw [hg] at ha
          exact ha.elim
    · refine .inr (.inr ⟨?_, hid, ha⟩)
      intro ht
      rw [ht] at htype
      have hnot : SubjectType.token ∉ [SubjectType.user, .group] := by decide
      exact hnot htype
  · rintro (h | ⟨h, hu⟩ | ⟨ht, hid, -⟩)
    · refine selects_of_addresses ?_
      rcases hg : g.subject with v | k | t
      · rw [hg] at h
        obtain rfl : v = u := h
        exact .inl rfl
      · rw [hg] at h
        exact .inr (.inl h)
      · rw [hg] at h
        exact h.elim
    · refine selects_of_addresses ?_
      rw [h]
      exact .inr (.inr ⟨rfl, hu⟩)
    · rw [MatchSet.selects, Bool.and_eq_true, decide_eq_true_iff, decide_eq_true_iff]
      refine ⟨?_, hid⟩
      rcases hg : g.subject with v | k | t
      · exact List.mem_cons_self
      · exact List.mem_cons_of_mem _ List.mem_cons_self
      · rw [hg] at ht
        exact absurd rfl ht

theorem mem_readable : d ∈ db.readable u ↔ (db.tree.drives.get d).isSome ∧
    (db.OnDrive d (db.Personal u) ∨ db.OnDrive d (db.Internal u) ∨ db.OnDrive d (db.Mistaken u)) := by
  rw [readable, Finset.mem_filter, db.tree.drives.mem_keys, check_read_drive]
  refine and_congr_right fun _ => ?_
  constructor
  · rintro ⟨g, hg, hlive, hres⟩
    rw [live, Bool.and_eq_true, selects_iff] at hlive
    obtain ⟨h | h | h, he⟩ := hlive
    · exact .inl ⟨g, hg, he, hres, h⟩
    · exact .inr (.inl ⟨g, hg, he, hres, h⟩)
    · exact .inr (.inr ⟨g, hg, he, hres, h⟩)
  · intro h
    have hsel : ∃ g ∈ db.grants, g.unexpired db.now = true ∧ g.resource = .drive d ∧
        (db.matchSet (.user u)).selects g.subject = true := by
      rcases h with ⟨g, hg, he, hres, h⟩ | ⟨g, hg, he, hres, h⟩ | ⟨g, hg, he, hres, h⟩
      · exact ⟨g, hg, he, hres, selects_iff.mpr (.inl h)⟩
      · exact ⟨g, hg, he, hres, selects_iff.mpr (.inr (.inl h))⟩
      · exact ⟨g, hg, he, hres, selects_iff.mpr (.inr (.inr h))⟩
    obtain ⟨g, hg, he, hres, hsel⟩ := hsel
    exact ⟨g, hg, by rw [live, hsel, he]; rfl, hres⟩

theorem HasRoot.isSome (h : db.HasRoot d) : (db.tree.drives.get d).isSome := by
  obtain ⟨drive, hd, -⟩ := h
  exact Option.isSome_of_eq_some hd

/-- **The listings are the drives the engine lets the user read, exactly if every drive that is open to
the internal group (or by a mistaken id) is also open to the user or a group of the user, and every drive
open to these has a root folder.** -/
theorem listings_agree_iff (db : Store) (u : UserId) :
    (db.queryReadableBy u).keys = db.readable u ∧ db.callerAccessibleDrives u = db.readable u ↔
      ∀ d, (db.tree.drives.get d).isSome →
        (db.OnDrive d (db.Internal u) ∨ db.OnDrive d (db.Mistaken u) → db.OnDrive d (db.Personal u)) ∧
        (db.OnDrive d (db.Personal u) → db.HasRoot d) := by
  constructor
  · rintro ⟨hq, hc⟩ d hd
    refine ⟨fun h => ?_, fun h => ?_⟩
    · have hmem : d ∈ db.callerAccessibleDrives u := by
        rw [hc]
        exact mem_readable.mpr ⟨hd, .inr h⟩
      exact (mem_callerAccessibleDrives.mp hmem).2
    · have hmem : d ∈ (db.queryReadableBy u).keys := by
        rw [hq]
        exact mem_readable.mpr ⟨hd, .inl h⟩
      exact (mem_queryReadableBy.mp hmem).1
  · intro h
    have hread : ∀ d, d ∈ db.readable u ↔
        (db.tree.drives.get d).isSome ∧ db.OnDrive d (db.Personal u) := by
      intro d
      rw [mem_readable]
      refine and_congr_right fun hd => ⟨fun hr => ?_, .inl⟩
      rcases hr with hr | hr
      · exact hr
      · exact (h d hd).1 hr
    constructor
    · ext d
      rw [hread, mem_queryReadableBy]
      exact ⟨fun hr => ⟨hr.1.isSome, hr.2⟩, fun hr => ⟨(h d hr.1).2 hr.2, hr.2⟩⟩
    · ext d
      rw [hread, mem_callerAccessibleDrives]

end Store

/-- The drive is open to the internal group. -/
def openHouse : Store := office [(0, ⟨.group internalGroupId, .drive 0, .viewer, 6, none⟩)]

/-- The internal user 6 may read the drive and finds it in neither listing. -/
theorem listings_omit : openHouse.readable 6 = {0} ∧ (openHouse.queryReadableBy 6).keys = ∅ ∧
    openHouse.callerAccessibleDrives 6 = ∅ :=
  ⟨by decide +kernel, by decide +kernel, by decide +kernel⟩

end OxiCloud.Acl
