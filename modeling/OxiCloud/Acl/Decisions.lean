import OxiCloud.Acl.Engine
import OxiCloud.Folders.Placement

/-! # The decision and the grants

What the engine is for: `Granted s p r` says that the resource exists, that the permission is `Read` or
the drive of the resource is not read-only, and that some unexpired grant to the subject, on the drive,
on a folder above the resource or on the resource itself, has a role with the permission.

The engine asks for the drive first and keeps only the strongest role it finds there. The roles are not
ordered by their permissions: a contributor may not comment, a commenter may, and the first is the
stronger one. So `check` says no to `Comment` where a subject holds both on a drive and nothing else
allows it (`Collapsed`). Apart from that it is right (`check_iff_granted`), if no grant names a drive, a
calendar, an address book or a playlist that is gone, whose existence is not looked at, and if no user
has the id of a group, since types and ids are matched separately. -/

namespace OxiCloud.Acl

open Lib.Tables Lib.Memos Lib.Forests Folders Schema Option

/-! ### Roles -/

/-- The place of a role in the order of `storage.grant_role`. -/
def Role.rank : Role → ℕ
  | owner => 0
  | editor => 1
  | contributor => 2
  | commenter => 3
  | viewer => 4

theorem mem_grantRoles (r : Role) : r ∈ grantRoles := by
  rcases r with _ | _ | _ | _ | _ <;> decide

theorem grantRoles_sorted : grantRoles.Pairwise fun r r' => r.rank < r'.rank := by decide

/-- `MIN(role)` over the roles with `b`. -/
theorem find_grantRoles {b : Role → Bool} {r : Role} (h : grantRoles.find? b = some r) :
    b r = true ∧ ∀ r', r'.rank < r.rank → b r' = false := by
  obtain ⟨hb, l, l', hl, hbefore⟩ := List.find?_eq_some_iff_append.mp h
  refine ⟨hb, fun r' hr' => ?_⟩
  have hsorted := grantRoles_sorted
  have hmem := mem_grantRoles r'
  rw [hl] at hsorted hmem
  rcases List.mem_append.mp hmem with hbef | haft
  · exact (Bool.not_eq_true' _).mp (hbefore r' hbef)
  · rcases List.mem_cons.mp haft with rfl | haft
    · exact absurd hr' (Nat.lt_irrefl _)
    · have hlt := (List.pairwise_cons.mp (List.pairwise_append.mp hsorted).2.1).1 r' haft
      omega

/-- A stronger role has every permission of a weaker one, but for the comments of a commenter. -/
theorem expand_of_rank {r r' : Role} {p : Permission} (h : r.rank ≤ r'.rank) (hp : p ∈ r'.expand) :
    p ∈ r.expand ∨ r = .contributor ∧ r' = .commenter ∧ p = .comment := by
  rcases r with _ | _ | _ | _ | _ <;> rcases r' with _ | _ | _ | _ | _ <;>
    simp_all [Role.rank, Role.expand]
  all_goals tauto

/-- **The strongest role allows what some role allows, but for comments.** -/
theorem roleAllows_find (b : Role → Bool) (p : Permission) :
    roleAllows (grantRoles.find? b) p = true ↔ (∃ r, b r = true ∧ p ∈ r.expand) ∧
      ¬ (p = .comment ∧ b .owner = false ∧ b .editor = false ∧ b .contributor = true) := by
  rcases hf : grantRoles.find? b with _ | r
  · have hnone : ∀ r, b r = false := fun r =>
      (Bool.not_eq_true _).mp (List.find?_eq_none.mp hf r (mem_grantRoles r))
    constructor
    · intro h
      exact absurd h Bool.false_ne_true
    · rintro ⟨⟨r, hr, -⟩, -⟩
      rw [hnone r] at hr
      exact absurd hr Bool.false_ne_true
  · obtain ⟨hb, hmin⟩ := find_grantRoles hf
    rw [roleAllows, any_some, decide_eq_true_iff]
    constructor
    · intro hp
      refine ⟨⟨r, hb, hp⟩, ?_⟩
      rintro ⟨rfl, ho, he, hc⟩
      -- a role with `Comment` that is not an owner or editor is weaker than a contributor
      rcases r with _ | _ | _ | _ | _
      · exact absurd hp (by decide)
      · rw [hmin .contributor (by decide)] at hc
        exact absurd hc Bool.false_ne_true
      · exact absurd hp (by decide)
      · rw [he] at hb
        exact absurd hb Bool.false_ne_true
      · rw [ho] at hb
        exact absurd hb Bool.false_ne_true
    · rintro ⟨⟨r', hb', hp⟩, hn⟩
      have hle : r.rank ≤ r'.rank := by
        by_contra hlt
        rw [hmin r' (Nat.lt_of_not_le hlt)] at hb'
        exact absurd hb' Bool.false_ne_true
      rcases expand_of_rank hle hp with hp | ⟨rfl, rfl, rfl⟩
      · exact hp
      · exact absurd ⟨rfl, hmin _ (by decide), hmin _ (by decide), hb⟩ hn

namespace Store

variable (db : Store)

/-! ### What a grant gives -/

/-- A grant to `target` is a grant to `s`: to the subject itself and, for a user, to a group the user is
in and to the internal group, if the user is internal. -/
def Addresses (s target : Subject) : Prop :=
  target = s ∨ match s, target with
    | .user u, .group g => Within db.members u g ∨ g = internalGroupId ∧ db.users.get u = some false
    | _, _ => False

/-- The resource exists. -/
def Exists : Resource → Prop
  | .folder f => (db.tree.folders.get f).isSome
  | .file x => (db.tree.files.get x).isSome
  | .drive d => (db.tree.drives.get d).isSome
  | .calendar c => c ∈ db.calendars
  | .addressBook b => b ∈ db.addressBooks
  | .playlist l => l ∈ db.playlists

/-- The drive of a resource, if it belongs to one. -/
def homeDrive : Resource → Option DriveId
  | .drive d => some d
  | r => db.driveOf r

/-- The folder a resource is in or is. -/
def folderOf : Resource → Option FolderId
  | .folder f => some f
  | .file x => db.fileParent x
  | _ => none

/-- A grant on `on` is one on the resource itself or on a folder above it. -/
def Near (on r : Resource) : Prop :=
  on = r ∨ match on with
    | .folder h => ∃ f ∈ db.folderOf r, Climbs db.tree.par f h
    | _ => False

/-- A grant on `on` reaches the resource. -/
def Covers (on r : Resource) : Prop := (∃ d ∈ db.homeDrive r, on = .drive d) ∨ db.Near on r

/-- An unexpired grant to the subject. -/
structure Holds (s : Subject) (g : Grant) : Prop where
  mem : g ∈ db.grants
  unexpired : g.unexpired db.now = true
  addressed : db.Addresses s g.subject

/-- **The access relation.** -/
def Granted (s : Subject) (p : Permission) (r : Resource) : Prop :=
  db.Exists r ∧ (p = .read ∨ ∀ d ∈ db.homeDrive r, db.readOnly d = false) ∧
    ∃ g, db.Holds s g ∧ db.Covers g.resource r ∧ p ∈ g.role.expand

/-- The subject holds the role on the drive. -/
def Member (s : Subject) (d : DriveId) (role : Role) : Prop :=
  ∃ g, db.Holds s g ∧ g.resource = .drive d ∧ g.role = role

/-- The subject may comment as a commenter of the drive only, and is also a contributor. -/
def Collapsed (s : Subject) (p : Permission) (r : Resource) : Prop :=
  p = .comment ∧ db.Exists r ∧ ∃ d ∈ db.homeDrive r, db.readOnly d = false ∧
    db.Member s d .commenter ∧ db.Member s d .contributor ∧ ¬ db.Member s d .editor ∧
    ¬ db.Member s d .owner ∧
    ∀ g, db.Holds s g → db.Covers g.resource r → .comment ∈ g.role.expand → g.resource = .drive d

/-- No grant is taken for one to the subject because a user and a group have the same id. -/
def Typed (s : Subject) : Prop :=
  ∀ g ∈ db.grants, (db.matchSet s).selects g.subject = true → db.Addresses s g.subject

/-- A drive, calendar, address book or playlist exists if there is a grant on it. -/
def Kept : Resource → Prop
  | .folder _ => True
  | .file _ => True
  | r => ∀ g ∈ db.grants, g.resource = r → db.Exists r

variable {s : Subject} {p : Permission} {r : Resource} {d : DriveId} {g : Grant}

instance (s target : Subject) : Decidable (db.Addresses s target) := by
  unfold Addresses
  split <;> infer_instance

instance (r : Resource) : Decidable (db.Exists r) := by
  unfold Exists
  split <;> infer_instance

instance (on r : Resource) : Decidable (db.Near on r) := by
  unfold Near
  split <;> infer_instance

instance (on r : Resource) : Decidable (db.Covers on r) := by unfold Covers; infer_instance

instance (s : Subject) : Decidable (db.Typed s) := by unfold Typed; infer_instance

instance (r : Resource) : Decidable (db.Kept r) := by
  unfold Kept
  split <;> infer_instance

theorem exists_holds {s : Subject} {P : Grant → Prop} : (∃ g, db.Holds s g ∧ P g) ↔
    ∃ g ∈ db.grants, g.unexpired db.now = true ∧ db.Addresses s g.subject ∧ P g :=
  exists_congr fun _ => ⟨fun ⟨h, hp⟩ => ⟨h.mem, h.unexpired, h.addressed, hp⟩,
    fun ⟨h1, h2, h3, hp⟩ => ⟨⟨h1, h2, h3⟩, hp⟩⟩

instance (s : Subject) (P : Grant → Prop) [DecidablePred P] : Decidable (∃ g, db.Holds s g ∧ P g) :=
  decidable_of_iff _ db.exists_holds.symm

instance (s : Subject) (p : Permission) (r : Resource) : Decidable (db.Granted s p r) := by
  unfold Granted; infer_instance

variable {db}

/-! ### The queries find the grants -/

theorem selects_of_addresses (h : db.Addresses s g.subject) : (db.matchSet s).selects g.subject = true := by
  rw [MatchSet.selects, Bool.and_eq_true, decide_eq_true_iff, decide_eq_true_iff]
  rcases h with h | h
  · rw [h]
    rcases s with u | k | t
    · exact ⟨List.mem_cons_self, Finset.mem_insert_self _ _⟩
    · exact ⟨List.mem_singleton_self _, Finset.mem_singleton_self _⟩
    · exact ⟨List.mem_singleton_self _, Finset.mem_singleton_self _⟩
  · split at h
    case h_2 => exact h.elim
    rename_i u k hk
    rw [hk]
    refine ⟨List.mem_cons_of_mem _ List.mem_cons_self, Finset.mem_insert_of_mem (Finset.mem_union.mpr ?_)⟩
    rcases h with h | ⟨rfl, hu⟩
    · exact .inr (mem_groupsForUser.mpr h)
    · rw [if_pos hu]
      exact .inl (Finset.mem_singleton_self _)

theorem live_iff (ht : db.Typed s) (hg : g ∈ db.grants) :
    db.live (db.matchSet s) g = true ↔ db.Holds s g := by
  rw [live, Bool.and_eq_true]
  constructor
  · rintro ⟨hsel, hexp⟩
    exact ⟨hg, hexp, ht g hg hsel⟩
  · intro h
    exact ⟨selects_of_addresses h.addressed, h.unexpired⟩

theorem any_live (ht : db.Typed s) {q : Grant → Bool} :
    db.grants.any (fun g => db.live (db.matchSet s) g && q g) = true ↔
      ∃ g, db.Holds s g ∧ q g = true := by
  rw [RoleGrants.any_eq_true]
  constructor
  · rintro ⟨g, hg, h⟩
    rw [Bool.and_eq_true] at h
    exact ⟨g, (live_iff ht hg).mp h.1, h.2⟩
  · rintro ⟨g, hg, hq⟩
    exact ⟨g, hg.mem, by rw [Bool.and_eq_true]; exact ⟨(live_iff ht hg.mem).mpr hg, hq⟩⟩

theorem roleAllows_iff (ht : db.Typed s) : roleAllows (db.driveRole s d) p = true ↔
    (∃ role, db.Member s d role ∧ p ∈ role.expand) ∧
      ¬ (p = .comment ∧ ¬ db.Member s d .owner ∧ ¬ db.Member s d .editor ∧ db.Member s d .contributor) := by
  have hb : ∀ role, (db.grants.any fun g => db.live (db.matchSet s) g && decide (g.resource = .drive d) &&
      decide (g.role = role)) = true ↔ db.Member s d role := by
    intro role
    simp only [Bool.and_assoc]
    rw [any_live ht]
    simp only [Bool.and_eq_true, decide_eq_true_iff, Member]
  rw [driveRole, strongestRole, roleAllows_find]
  simp [hb, ← Bool.not_eq_true]

theorem directGrantExists_iff (ht : db.Typed s) : db.directGrantExists (db.matchSet s) p r = true ↔
    ∃ g, db.Holds s g ∧ g.resource = r ∧ p ∈ g.role.expand := by
  rw [directGrantExists]
  simp only [Bool.and_assoc]
  rw [any_live ht]
  simp only [Bool.and_eq_true, decide_eq_true_iff, mem_rolesImplying]
  exact exists_congr fun g => and_congr_right fun _ => and_comm

theorem hasFolder_of_climbs (hp : db.tree.Placed) {f h : FolderId} (hf : db.tree.HasFolder f)
    (hc : Climbs db.tree.par f h) : db.tree.HasFolder h := by
  induction hc with
  | refl => exact hf
  | tail _ hup ih =>
    obtain ⟨q, hq⟩ := ih
    have hpar : db.tree.par _ = some _ := hup
    rw [Tree.par_of_get hq] at hpar
    obtain ⟨q', hq', -⟩ := (hp.folders _ q hq).below _ hpar
    exact ⟨q', hq'⟩

theorem above_iff (hp : db.tree.Placed) {f h : FolderId} (hf : db.tree.HasFolder f) :
    db.above h f = true ↔ Climbs db.tree.par f h := by
  obtain ⟨q, hq⟩ := hf
  rw [above, any_eq_true]
  constructor
  · rintro ⟨r, hr, hu⟩
    exact (hp.under_iff hr hq).mp hu
  · intro hc
    obtain ⟨r, hr⟩ := hasFolder_of_climbs hp ⟨q, hq⟩ hc
    exact ⟨r, hr, (hp.under_iff hr hq).mpr hc⟩

theorem folderCascadeGrantExists_iff (hp : db.tree.Placed) (ht : db.Typed s) {f : FolderId}
    (hf : db.tree.HasFolder f) : db.folderCascadeGrantExists (db.matchSet s) p f = true ↔
      ∃ g h, db.Holds s g ∧ g.resource = .folder h ∧ Climbs db.tree.par f h ∧ p ∈ g.role.expand := by
  rw [folderCascadeGrantExists]
  simp only [Bool.and_assoc]
  rw [any_live ht]
  simp only [Bool.and_eq_true, decide_eq_true_iff, mem_rolesImplying]
  refine exists_congr fun g => ?_
  rcases hr : g.resource with h | _ | _ | _ | _ | _
  · simp only [above_iff hp hf]
    constructor
    · rintro ⟨hg, hpg, hc⟩
      exact ⟨h, hg, rfl, hc, hpg⟩
    · rintro ⟨h', hg, heq, hc, hpg⟩
      obtain rfl := Resource.folder.inj heq
      exact ⟨hg, hpg, hc⟩
  all_goals simp

theorem near_folder {f h : FolderId} {on : Resource} (hf : db.folderOf r = some f)
    (hon : on = .folder h) (hc : Climbs db.tree.par f h) : db.Near on r := by
  subst hon
  exact .inr ⟨f, hf, hc⟩

theorem near_cases {on : Resource} (hn : db.Near on r) : on = r ∨
    ∃ f h, db.folderOf r = some f ∧ on = .folder h ∧ Climbs db.tree.par f h := by
  rcases hn with hn | hn
  · exact .inl hn
  · split at hn
    · next h =>
      obtain ⟨f, hf, hc⟩ := hn
      exact .inr ⟨f, h, hf, rfl, hc⟩
    · exact hn.elim

/-- A resource that is a drive or lies in one. -/
def InDrive : Resource → Prop
  | .folder _ => True
  | .file _ => True
  | .drive _ => True
  | _ => False

theorem cascadeGrant_iff (hp : db.tree.Placed) (ht : db.Typed s) (hr : InDrive r)
    (hd : db.homeDrive r = some d) : db.cascadeGrant s r p = true ↔
      ∃ g, db.Holds s g ∧ db.Near g.resource r ∧ g.resource ≠ .drive d ∧ p ∈ g.role.expand := by
  rcases r with f | x | d' | _ | _ | _
  · obtain ⟨q, hq, -⟩ := map_eq_some_iff.mp hd
    rw [cascadeGrant, folderCascadeGrantExists_iff hp ht ⟨q, hq⟩]
    constructor
    · rintro ⟨g, h, hg, hres, hc, hpg⟩
      exact ⟨g, hg, near_folder rfl hres hc, by rw [hres]; exact Resource.noConfusion, hpg⟩
    · rintro ⟨g, hg, hnear, -, hpg⟩
      rcases near_cases hnear with hres | ⟨f', h, hf', hres, hc⟩
      · exact ⟨g, f, hg, hres, .refl, hpg⟩
      · obtain rfl := Option.some.inj hf'
        exact ⟨g, h, hg, hres, hc, hpg⟩
  · obtain ⟨q, hq, -⟩ := map_eq_some_iff.mp hd
    have hparent : ∀ {f : FolderId}, db.fileParent x = some f → db.tree.HasFolder f := by
      intro f hf
      rw [fileParent, hq] at hf
      obtain ⟨q', hq', -⟩ := hp.files x q hq f hf
      exact ⟨q', hq'⟩
    rw [cascadeGrant, Bool.or_eq_true, directGrantExists_iff ht, any_eq_true]
    constructor
    · rintro (⟨f, hf, hcas⟩ | ⟨g, hg, hres, hpg⟩)
      · obtain ⟨g, h, hg, hres, hc, hpg⟩ := (folderCascadeGrantExists_iff hp ht (hparent hf)).mp hcas
        exact ⟨g, hg, near_folder hf hres hc, by rw [hres]; exact Resource.noConfusion, hpg⟩
      · exact ⟨g, hg, .inl hres, by rw [hres]; exact Resource.noConfusion, hpg⟩
    · rintro ⟨g, hg, hnear, -, hpg⟩
      rcases near_cases hnear with hres | ⟨f, h, hf, hres, hc⟩
      · exact .inr ⟨g, hg, hres, hpg⟩
      · exact .inl ⟨f, hf, (folderCascadeGrantExists_iff hp ht (hparent hf)).mpr ⟨g, h, hg, hres, hc, hpg⟩⟩
  · obtain rfl := Option.some.inj hd
    constructor
    · intro h
      exact absurd h Bool.false_ne_true
    · rintro ⟨g, -, hnear, hne, -⟩
      rcases near_cases hnear with hres | ⟨f, h, hf, -⟩
      · exact absurd hres hne
      · exact absurd hf (some_ne_none f).symm
  all_goals exact hr.elim

theorem decision_inDrive (hm : db.migrationReadonly = false) (hr : InDrive r) :
    db.decision s p r = true ↔ ∃ d, db.homeDrive r = some d ∧ db.stops p d = false ∧
      (roleAllows (db.driveRole s d) p = true ∨ db.cascadeGrant s r p = true) := by
  unfold decision
  rw [hm, Bool.and_false, if_neg Bool.false_ne_true]
  rcases r with f | x | d' | _ | _ | _
  · rw [any_eq_true]
    simp only [Bool.and_eq_true, Bool.not_eq_true', Bool.or_eq_true]
    rfl
  · show Option.any _ _ = true ↔ _
    rw [any_eq_true]
    simp only [Bool.and_eq_true, Bool.not_eq_true', Bool.or_eq_true]
    rfl
  · simp only [Bool.and_eq_true, Bool.not_eq_true']
    constructor
    · rintro ⟨h1, h2⟩
      exact ⟨d', rfl, h1, .inl h2⟩
    · rintro ⟨d, hd, h1, h2 | h2⟩
      · obtain rfl := Option.some.inj hd
        exact ⟨h1, h2⟩
      · exact absurd h2 Bool.false_ne_true
  all_goals exact hr.elim

theorem exists_of_homeDrive (hr : InDrive r) (hk : db.Kept r) (hd : db.homeDrive r = some d)
    (hg : g ∈ db.grants) (hc : db.Covers g.resource r) : db.Exists r := by
  cases r with
  | folder | file =>
    obtain ⟨q, hq, -⟩ := map_eq_some_iff.mp hd
    exact isSome_of_eq_some hq
  | drive =>
    refine hk g hg ?_
    rcases hc with ⟨d₁, hd₁, hres⟩ | hnear
    · rw [hres, ← Option.some.inj hd₁]
    rcases near_cases hnear with hres | ⟨f, h, hf, -⟩
    · exact hres
    · exact absurd hf (some_ne_none f).symm
  | _ => exact hr.elim

theorem homeDrive_of_exists (hr : InDrive r) (he : db.Exists r) : ∃ d, db.homeDrive r = some d := by
  cases r with
  | folder | file =>
    obtain ⟨q, hq⟩ := isSome_iff_exists.mp he
    exact ⟨q.driveId, map_eq_some_iff.mpr ⟨q, hq, rfl⟩⟩
  | drive d => exact ⟨d, rfl⟩
  | _ => exact hr.elim

theorem stops_eq_false_iff (hd : db.homeDrive r = some d) : db.stops p d = false ↔
    p = .read ∨ ∀ d, db.homeDrive r = some d → db.readOnly d = false := by
  rw [stops, readOnlyGateApplies, Bool.and_eq_false_iff, Bool.not_eq_false', decide_eq_true_iff]
  refine or_congr_right ⟨fun h d' hd' => ?_, fun h => h d hd⟩
  rwa [← mem_unique hd hd']

/-- The check in a drive finds the grants, unless they collapse. -/
theorem decision_iff_inDrive (hm : db.migrationReadonly = false) (hp : db.tree.Placed) (ht : db.Typed s)
    (hk : db.Kept r) (hr : InDrive r) :
    db.decision s p r = true ↔ db.Granted s p r ∧ ¬ db.Collapsed s p r := by
  rw [decision_inDrive hm hr]
  constructor
  · rintro ⟨d, hd, hstop, hrole | hcas⟩
    · obtain ⟨⟨role, ⟨g, hg, hres, rfl⟩, hpr⟩, hlost⟩ := (roleAllows_iff ht).mp hrole
      have hc : db.Covers g.resource r := .inl ⟨d, hd, hres⟩
      refine ⟨⟨exists_of_homeDrive hr hk hd hg.mem hc, (stops_eq_false_iff hd).mp hstop, g, hg, hc, hpr⟩, ?_⟩
      rintro ⟨hpc, -, d', hd', -, -, hcon, hed, how, -⟩
      obtain rfl := mem_unique hd hd'
      exact hlost ⟨hpc, how, hed, hcon⟩
    · obtain ⟨g, hg, hnear, hne, hpr⟩ := (cascadeGrant_iff hp ht hr hd).mp hcas
      have hc : db.Covers g.resource r := .inr hnear
      refine ⟨⟨exists_of_homeDrive hr hk hd hg.mem hc, (stops_eq_false_iff hd).mp hstop, g, hg, hc, hpr⟩, ?_⟩
      rintro ⟨rfl, -, d', hd', -, -, -, -, -, honly⟩
      obtain rfl := mem_unique hd hd'
      exact hne (honly g hg hc hpr)
  · rintro ⟨⟨he, hgate, g, hg, hc, hpr⟩, hnc⟩
    obtain ⟨d, hd⟩ := homeDrive_of_exists hr he
    have hstop := (stops_eq_false_iff hd).mpr hgate
    refine ⟨d, hd, hstop, ?_⟩
    -- a grant that is not on the drive is found by the cascade
    have hnear : ∀ g', db.Holds s g' → db.Covers g'.resource r → p ∈ g'.role.expand →
        g'.resource ≠ .drive d → db.cascadeGrant s r p = true := by
      intro g' hg' hc' hpr' hne
      refine (cascadeGrant_iff hp ht hr hd).mpr ⟨g', hg', ?_, hne, hpr'⟩
      rcases hc' with ⟨d', hd', hres⟩ | hnear
      · rw [mem_unique hd hd'] at hne
        exact absurd hres hne
      · exact hnear
    by_cases hres : g.resource = .drive d
    · by_cases hlost : p = .comment ∧ ¬ db.Member s d .owner ∧ ¬ db.Member s d .editor ∧
          db.Member s d .contributor
      · obtain ⟨rfl, how, hed, hcon⟩ := hlost
        have hcom : db.Member s d .commenter := by
          refine ⟨g, hg, hres, ?_⟩
          rcases hrole : g.role with _ | _ | _ | _ | _
          · rw [hrole] at hpr
            exact absurd hpr (by decide)
          · rfl
          · rw [hrole] at hpr
            exact absurd hpr (by decide)
          · exact absurd ⟨g, hg, hres, hrole⟩ hed
          · exact absurd ⟨g, hg, hres, hrole⟩ how
        have hro : db.readOnly d = false :=
          (hgate.resolve_left (by decide)) d hd
        by_contra hno
        refine hnc ⟨rfl, he, d, hd, hro, hcom, hcon, hed, how, ?_⟩
        intro g' hg' hc' hpr'
        by_contra hne
        exact hno (.inr (hnear g' hg' hc' hpr' hne))
      · exact .inl ((roleAllows_iff ht).mpr ⟨⟨g.role, ⟨g, hg, hres, rfl⟩, hpr⟩, hlost⟩)
    · exact .inr (hnear g hg hc hpr hres)

theorem decision_iff_alone (ht : db.Typed s)
    (hhome : db.homeDrive r = none) (hfolder : db.folderOf r = none)
    (hdec : db.decision s p r = db.directGrantExists (db.matchSet s) p r)
    (hk : ∀ g ∈ db.grants, g.resource = r → db.Exists r) :
    db.decision s p r = true ↔ db.Granted s p r ∧ ¬ db.Collapsed s p r := by
  have hcov : ∀ on, db.Covers on r ↔ on = r := by
    intro on
    constructor
    · rintro (⟨d, hd, -⟩ | hnear)
      · rw [hhome] at hd
        exact absurd hd (some_ne_none d).symm
      rcases near_cases hnear with h | ⟨f, h, hf, -⟩
      · exact h
      · rw [hfolder] at hf
        exact absurd hf (some_ne_none f).symm
    · exact fun h => .inr (.inl h)
  rw [hdec, directGrantExists_iff ht]
  constructor
  · rintro ⟨g, hg, hres, hpr⟩
    refine ⟨⟨hk g hg.mem hres, .inr fun d hd => ?_, g, hg, (hcov _).mpr hres, hpr⟩, ?_⟩
    · rw [hhome] at hd
      exact absurd hd (some_ne_none d).symm
    · rintro ⟨-, -, d, hd, -⟩
      rw [hhome] at hd
      exact absurd hd (some_ne_none d).symm
  · rintro ⟨⟨-, -, g, hg, hc, hpr⟩, -⟩
    exact ⟨g, hg, (hcov _).mp hc, hpr⟩

/-- **The engine finds exactly the grants, unless they collapse.** -/
theorem decision_iff (hm : db.migrationReadonly = false) (hp : db.tree.Placed) (ht : db.Typed s)
    (hk : db.Kept r) : db.decision s p r = true ↔ db.Granted s p r ∧ ¬ db.Collapsed s p r := by
  cases r with
  | folder | file | drive => exact decision_iff_inDrive hm hp ht hk trivial
  | _ => exact decision_iff_alone ht rfl rfl (by rw [decision, hm, Bool.and_false, if_neg Bool.false_ne_true]) hk

theorem Collapsed.granted (h : db.Collapsed s p r) : db.Granted s p r := by
  obtain ⟨rfl, he, d, hd, hro, ⟨g, hg, hres, hrole⟩, -⟩ := h
  refine ⟨he, .inr fun d' hd' => ?_, g, hg, .inl ⟨d, hd, hres⟩, by rw [hrole]; decide⟩
  rwa [← mem_unique hd hd']

end Store

/-! ### A commenter who is also a contributor -/

/-- One drive with a folder in its root and a file in the folder. -/
def officeTree : Tree where
  now := 0
  folders := (Table.empty.set 0 ⟨['a'], none, 0, ['a'], [0], false, none, none, 0⟩).set 1
    ⟨['b'], some 0, 0, ['a', '/', 'b'], [0, 1], false, none, none, 0⟩
  files := Table.empty.set 0 ⟨['f'], some 1, 0, ['h'], 1, false, none, none, 0⟩
  drives := Table.empty.set 0 ⟨some 0, false, false⟩

theorem officeTree_placed : officeTree.Placed where
  folders f r hr := by
    have hget : officeTree.folders.get f = some r := hr
    simp only [officeTree, Table.get_set] at hget
    split_ifs at hget with h1 h0
    · obtain rfl := Option.some.inj hget
      subst h1
      refine ⟨fun h => absurd h (by decide), fun p hp => ?_⟩
      obtain rfl := Option.some.inj hp
      exact ⟨_, rfl, ⟨rfl, rfl, rfl⟩⟩
    · obtain rfl := Option.some.inj hget
      subst h0
      exact ⟨fun _ => ⟨rfl, rfl⟩, fun p hp => absurd hp (by simp)⟩
    · exact absurd hget (by simp)
  files x r hr := by
    have hget : officeTree.files.get x = some r := hr
    simp only [officeTree, Table.get_set] at hget
    split_ifs at hget with h0
    · obtain rfl := Option.some.inj hget
      intro p hp
      obtain rfl := Option.some.inj hp
      exact ⟨_, rfl, rfl⟩
    · exact absurd hget (by simp)

/-- The shared drive of the tree; the user 5 is in the group 3, which is in the group 2. -/
def office (grants : List (GrantId × Grant)) : Store where
  tree := officeTree
  terms _ := ⟨.shared, false, false⟩
  calendars := ∅
  addressBooks := ∅
  playlists := ∅
  users := (Table.empty.set 5 false).set 6 false
  groups := ((Table.empty.set 1 true).set 2 false).set 3 false
  members := {(2, .group 3), (3, .user 5)}
  grants := .ofList grants
  migrationReadonly := false

/-- The user is a contributor and, through the groups, a commenter of the drive. -/
def mixed : Store :=
  office [(0, ⟨.user 5, .drive 0, .contributor, 6, none⟩), (1, ⟨.group 2, .drive 0, .commenter, 6, none⟩)]

/-- A grant on a drive that is gone. -/
def vanished : Store := office [(0, ⟨.user 5, .drive 7, .owner, 6, none⟩)]

/-- A grant to a user with the id of a group. -/
def twin : Store := office [(0, ⟨.user 3, .drive 0, .owner, 6, none⟩)]

/-- **The batch returns the files that the single check lets read**, whatever the order of the rows. -/
theorem checkFilesReadBatch_iff (db : Store) (s : Subject) {ids : List FileId} {pairs : List (FileId × DriveId)}
    {e : Engine} (hp : ∀ x d, (x, d) ∈ pairs ↔ x ∈ ids ∧ db.driveOf (.file x) = some d) (he : Fresh db e)
    (x : FileId) : x ∈ (checkFilesReadBatch db s pairs e).1 ↔
      x ∈ ids ∧ (check db s .read (.file x) e).1 = true := by
  have hprime := List.foldlRecOn pairs (fun e x => Engine.owner.put (.file x.1) x.2 e) he
    fun e he x hx => he.owner_put ((hp x.1 x.2).mp hx).2
  obtain ⟨m, hr, -, hall⟩ := driveReadable_returns (s := s) pairs (Memo.true_empty _)
  have hfiles := allowedFiles_returns fun x hx => ⟨hall x hx, ((hp x.1 x.2).mp hx).2⟩
  have hbatch : (checkFilesReadBatch db s pairs e).1 = _ := (hr.bind hfiles _ hprime).1
  rw [hbatch, (check_returns s .read _ e he).1, Finset.mem_filter, List.mem_toFinset, List.mem_map]
  refine ⟨?_, fun ⟨hx, hd⟩ => ?_⟩
  · rintro ⟨⟨y, hy, rfl⟩, hd⟩
    exact ⟨((hp y.1 y.2).mp hy).1, hd⟩
  · obtain ⟨d, hdrive, -⟩ := (any_eq_true ..).mp (id hd : (db.driveOf (.file x)).any _ = true)
    exact ⟨⟨(x, d), (hp x d).mpr ⟨hx, hdrive⟩, rfl⟩, hd⟩

/-- A file that exists, asked for twice, and one that does not. -/
theorem checkFilesReadBatch_iff_mixed :
    0 ∈ (checkFilesReadBatch mixed (.user 5) [(0, 0)] .empty).1 ↔
      0 ∈ [0, 7, 0] ∧ (check mixed (.user 5) .read (.file 0) .empty).1 = true := by
  refine checkFilesReadBatch_iff mixed (.user 5) (fun x d => ?_) (fresh_empty _) 0
  by_cases hx : x = 0 <;> simp [hx, Store.driveOf, mixed, office, officeTree, Table.get_set, eq_comm]

end OxiCloud.Acl
