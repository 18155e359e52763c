import OxiCloud.Acl.Mutations
import OxiCloud.Acl.Decisions

/-! # Grant changes and cached answers

Calls of `check` and grant mutations on one engine, one after the other. `coldAnswers` is what new
engines would answer to the checks, each on the table of its moment.

`Asked` says that an answer in the caches took account of grants of a kind: they were among those the
answer was computed from, or would have been had there been any. A mutation that touches no unexpired
grant asked for by an answer it leaves in the caches keeps every remaining answer true
(`Fresh.apply`), so a run of such calls is answered as by new engines
(`answers_eq_coldAnswers`). `set_role` and `clear_role` drop all answers about their resource and always
are such calls; the other four can leave answers behind (`answers_stale`). -/

namespace OxiCloud.Acl

open Lib.Tables Lib.Memos Folders Schema

/-! ### Runs of calls -/

inductive Call where
  | check (subject : Subject) (permission : Permission) (resource : Resource)
  | mutate (m : Mutation)

/-- The state after a call. -/
def Call.apply (x : Service) : Call → Service
  | check s p r => ⟨x.db, (Acl.check x.db s p r x.engine).2⟩
  | mutate m => m.apply x

/-- The answers to the checks of a run. -/
def answers : List Call → Service → List Bool
  | [], _ => []
  | .check s p r :: l, x => (check x.db s p r x.engine).1 :: answers l (Call.apply x (.check s p r))
  | .mutate m :: l, x => answers l (m.apply x)

/-- The answers of engines without cache entries. -/
def coldAnswers : List Call → Store → List Bool
  | [], _ => []
  | .check s p r :: l, db => (check db s p r .empty).1 :: coldAnswers l db
  | .mutate m :: l, db => coldAnswers l ((m.effect db.grants).elim db db.withGrants)

/-! ### Answers that rest on a grant -/

/-- An answer in the caches took account of grants of the role to `target` on `on`. -/
def Asked (db : Store) (e : Engine) (target : Subject) (on : Resource) (role : Role) : Prop :=
  ∃ s, (db.matchSet s).selects target = true ∧
    ((∃ d, on = .drive d ∧ (e.driveRoleCache (s, d)).isSome) ∨
    (∃ r p, p ∈ role.expand ∧ db.reaches on r = true ∧ (e.cascadeGrantCache (s, r, p)).isSome) ∨
    ∃ p, p ∈ role.expand ∧ (e.directGrantCache (s, on, p)).isSome)

/-- The mutation is `set_role` or `clear_role`, or it touches no grant that an answer it leaves in the
caches took account of. -/
def Quiet (x : Service) : Mutation → Prop
  | .setRole .. => True
  | .clearRole .. => True
  | m => ∀ target on role, m.Touches x.db target on role → ¬ Asked x.db (m.flush x.engine) target on role

/-- Every mutation of the run is quiet. -/
def QuietRun : List Call → Service → Prop
  | [], _ => True
  | .check s p r :: l, x => QuietRun l (Call.apply x (.check s p r))
  | .mutate m :: l, x => Quiet x m ∧ QuietRun l (m.apply x)

variable {db : Store} {e e' : Engine} {m : Mutation} {x : Service}

/-! ### Answers that stay true -/

theorem Fresh.invalidateFor (h : Fresh db e) (r : Resource) : Fresh db (e.invalidateFor r) := by
  rcases r with _ | _ | d | _ | _ | _
  · exact { h with cascadeGrant := Memo.true_empty _ }
  · exact { h with cascadeGrant := Memo.true_empty _ }
  · refine { h with driveRole := fun k v hv => h.driveRole k v ?_ }
    have hif : (if k.2 = d then none else e.driveRoleCache k) = some v := hv
    split_ifs at hif
    exact hif
  all_goals exact { h with directGrant := Memo.true_empty _, alone := fun _ _ hk => nomatch hk }

theorem Fresh.flush (h : Fresh db e) (m : Mutation) : Fresh db (m.flush e) := by
  rcases m with _ | ⟨_, r⟩ | _ | _ | _ | _
  · exact h.invalidateFor _
  · exact h.invalidateFor r
  · exact h
  · exact h
  · exact h
  · exact { h with cascadeGrant := Memo.true_empty _ }

/-- No answer about a resource is left after its caches were dropped. -/
theorem Fresh.not_asked (h : Fresh db e) (target : Subject) (r : Resource) (role : Role) :
    ¬ Asked db (e.invalidateFor r) target r role := by
  have hdirect : r.Alone ∨ ∀ s p, e.directGrantCache (s, r, p) = none := by
    by_cases hr : r.Alone
    · exact .inl hr
    · right
      intro s p
      rcases hk : e.directGrantCache (s, r, p) with _ | v
      · rfl
      · exact absurd (h.alone _ v hk) hr
  rintro ⟨s, -, ⟨d, hd, hk⟩ | ⟨r', p, -, hre, hk⟩ | ⟨p, -, hk⟩⟩
  · subst hd
    have hif : (if d = d then none else e.driveRoleCache (s, d)).isSome = true := hk
    rw [if_pos rfl] at hif
    exact absurd hif Bool.false_ne_true
  · rcases r with f | x | d | _ | _ | _
    · exact absurd hk Bool.false_ne_true
    · exact absurd hk Bool.false_ne_true
    all_goals exact absurd hre Bool.false_ne_true
  · rcases r with f | x | d | _ | _ | _
    case calendar | addressBook | playlist => exact absurd hk Bool.false_ne_true
    all_goals
      have hnone := hdirect.resolve_left id s p
      have hsome : (e.directGrantCache (s, _, p)).isSome = true := hk
      rw [hnone] at hsome
      exact absurd hsome Bool.false_ne_true

/-- **Answers stay true if what they took account of stands as before.** -/
theorem Fresh.withGrants {t : RoleGrants} (h : Fresh db e)
    (hst : ∀ target on role, Asked db e target on role →
      (db.Stands target on role ↔ (db.withGrants t).Stands target on role)) :
    Fresh (db.withGrants t) e where
  userGroups := h.userGroups
  owner := h.owner
  driveRole k v hv := by
    refine (h.driveRole k v hv).trans (Store.driveRole_congr rfl fun target role hsel => ?_)
    exact hst _ _ _ ⟨k.1, hsel, .inl ⟨k.2, rfl, Option.isSome_of_eq_some hv⟩⟩
  drivePolicies := h.drivePolicies
  cascadeGrant k v hv := by
    refine (h.cascadeGrant k v hv).trans ?_
    rw [Bool.eq_iff_iff, Store.cascadeGrant_iff_stands, Store.cascadeGrant_iff_stands]
    refine exists_congr fun target => exists_congr fun on => exists_congr fun role => ?_
    refine and_congr_right fun hsel => ?_
    -- only grants with the permission that reach the resource count
    have hiff : ∀ hp : k.2.2 ∈ role.expand, ∀ hre : db.reaches on k.2.1 = true,
        (db.Stands target on role ↔ (db.withGrants t).Stands target on role) := fun hp hre =>
      hst _ _ _ ⟨k.1, hsel, .inr (.inl ⟨k.2.1, k.2.2, hp, hre, Option.isSome_of_eq_some hv⟩)⟩
    constructor
    · rintro ⟨hs, hp, hre⟩
      exact ⟨(hiff hp hre).mp hs, hp, hre⟩
    · rintro ⟨hs, hp, hre⟩
      exact ⟨(hiff hp hre).mpr hs, hp, hre⟩
  directGrant k v hv := by
    refine (h.directGrant k v hv).trans ?_
    rw [Bool.eq_iff_iff, Store.directGrantExists_iff_stands, Store.directGrantExists_iff_stands]
    refine exists_congr fun target => exists_congr fun role => and_congr_right fun hsel => ?_
    have hiff : ∀ hp : k.2.2 ∈ role.expand,
        (db.Stands target k.2.1 role ↔ (db.withGrants t).Stands target k.2.1 role) := fun hp =>
      hst _ _ _ ⟨k.1, hsel, .inr (.inr ⟨k.2.2, hp, Option.isSome_of_eq_some hv⟩)⟩
    constructor
    · rintro ⟨hs, hp⟩
      exact ⟨(hiff hp).mp hs, hp⟩
    · rintro ⟨hs, hp⟩
      exact ⟨(hiff hp).mpr hs, hp⟩
  alone := h.alone
  fileParent := h.fileParent

/-- What a quiet mutation touches, no answer it leaves took account of. -/
theorem Quiet.not_asked (hq : Quiet x m) (h : Fresh x.db x.engine) {target : Subject} {on : Resource}
    {role : Role} (ht : m.Touches x.db target on role) : ¬ Asked x.db (m.flush x.engine) target on role := by
  rcases m with ⟨by', subject, role', resource, expiresAt, id⟩ | ⟨subject, resource⟩ | id | resource |
    subject | ⟨subject, expiresAt⟩
  · obtain ⟨-, rfl⟩ := ht
    exact h.not_asked target on role
  · obtain ⟨-, rfl⟩ := ht
    exact h.not_asked target on role
  all_goals exact hq target on role ht

/-- A quiet mutation leaves true answers only. -/
theorem Fresh.apply (h : Fresh x.db x.engine) (hq : Quiet x m) : Fresh (m.apply x).db (m.apply x).engine := by
  unfold Mutation.apply
  rcases ht : m.effect x.db.grants with _ | t
  · exact h
  · refine (h.flush m).withGrants fun target on role hask => ?_
    exact Mutation.stands_effect ht fun htouch => hq.not_asked h htouch hask

theorem db_apply (m : Mutation) (x : Service) :
    (m.apply x).db = (m.effect x.db.grants).elim x.db x.db.withGrants := by
  unfold Mutation.apply
  rcases m.effect x.db.grants with _ | t <;> rfl

theorem answers_of_fresh : ∀ (l : List Call) (x : Service), Fresh x.db x.engine → QuietRun l x →
    answers l x = coldAnswers l x.db
  | [], _, _, _ => rfl
  | .check s p r :: l, x, h, hq => by
    obtain ⟨hans, hfresh⟩ := check_returns s p r x.engine h
    rw [answers, coldAnswers, hans, check_empty, answers_of_fresh l _ hfresh hq]
    rfl
  | .mutate m :: l, x, h, hq => by
    rw [answers, coldAnswers, answers_of_fresh l _ (h.apply hq.1) hq.2, db_apply]

/-- **In a run of checks and quiet mutations every check is answered as by a new engine.** -/
theorem answers_eq_coldAnswers (db : Store) (l : List Call) (hq : QuietRun l ⟨db, .empty⟩) :
    answers l ⟨db, .empty⟩ = coldAnswers l db :=
  answers_of_fresh l ⟨db, .empty⟩ (fresh_empty db) hq

/-! ### Runs -/

theorem not_asked_empty (db : Store) (target : Subject) (on : Resource) (role : Role) :
    ¬ Asked db .empty target on role := by
  rintro ⟨s, -, ⟨d, -, hk⟩ | ⟨r, p, -, -, hk⟩ | ⟨p, -, hk⟩⟩
  all_goals exact absurd hk Bool.false_ne_true

/-- The user 5 owns the drive through a group; the user 6 edits the folder in it. -/
def desk : Store :=
  office [(0, ⟨.group 2, .drive 0, .owner, 6, none⟩), (1, ⟨.user 6, .folder 1, .editor, 5, none⟩)]

/-- A grant is revoked before anything was asked, another one given and taken away. -/
def dayshift : List Call :=
  [.mutate (.revoke 1), .check (.user 6) .update (.file 0),
    .mutate (.setRole 5 (.user 6) .editor (.folder 0) (some 9) 2), .check (.user 6) .update (.file 0),
    .mutate (.clearRole (.user 6) (.folder 0)), .check (.user 6) .update (.file 0),
    .mutate (.setRole 5 (.user 6) .viewer (.drive 0) none 3), .check (.user 6) .read (.file 0)]

theorem answers_eq_coldAnswers_dayshift : answers dayshift ⟨desk, .empty⟩ = [false, true, false, true] := by
  have hq : QuietRun dayshift ⟨desk, .empty⟩ :=
    ⟨fun target on role _ => not_asked_empty desk target on role, trivial, trivial, trivial, trivial⟩
  have hcold : coldAnswers dayshift desk = [false, true, false, true] := by decide +kernel
  rw [answers_eq_coldAnswers desk dayshift hq, hcold]

/-- Ask, change a grant, ask again. -/
def around (s : Subject) (r : Resource) (m : Mutation) : List Call :=
  [.check s .read r, .mutate m, .check s .read r]

/-- After `revoke`, the two `revoke_all_…` and `set_expiry_for_subject` the old answers are given. -/
theorem answers_stale :
    (answers (around (.user 5) (.drive 0) (.revoke 0)) ⟨desk, .empty⟩ = [true, true] ∧
      coldAnswers (around (.user 5) (.drive 0) (.revoke 0)) desk = [true, false]) ∧
    (answers (around (.user 6) (.file 0) (.revokeAllForResource (.folder 1))) ⟨desk, .empty⟩ = [true, true] ∧
      coldAnswers (around (.user 6) (.file 0) (.revokeAllForResource (.folder 1))) desk = [true, false]) ∧
    (answers (around (.user 6) (.file 0) (.revokeAllForSubject (.user 6))) ⟨desk, .empty⟩ = [true, true] ∧
      coldAnswers (around (.user 6) (.file 0) (.revokeAllForSubject (.user 6))) desk = [true, false]) ∧
    answers (around (.user 5) (.drive 0) (.setExpiryForSubject (.group 2) (some 0))) ⟨desk, .empty⟩ =
        [true, true] ∧
      coldAnswers (around (.user 5) (.drive 0) (.setExpiryForSubject (.group 2) (some 0))) desk =
        [true, false] := by
  refine ⟨⟨?_, ?_⟩, ⟨?_, ?_⟩, ⟨?_, ?_⟩, ?_, ?_⟩
  all_goals decide +kernel

end OxiCloud.Acl
