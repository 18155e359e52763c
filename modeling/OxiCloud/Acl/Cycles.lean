import OxiCloud.Acl.Nesting

/-! # Concurrent changes of groups

`add_member` is a transaction of several statements: it locks the row of the receiving group with
`FOR UPDATE`, looks for a cycle, measures the depth, inserts the row and commits. The foreign keys of the
new row lock the rows of both groups with `FOR KEY SHARE`, which waits for a `FOR UPDATE` of another
transaction and makes one wait. `remove_member` is two queries and a `DELETE`. Each statement reads what is
committed when it starts. A transaction that waits can be aborted as the victim of a deadlock.

Between the search for a cycle and the commit other transactions may commit links that the search has not
seen. Two calls that put two groups into each other exclude one another by their locks (`noMutual_run`). For
longer cycles nothing does: the committed rows stay acyclic exactly if at every commit of a nested group
the search would still find nothing (`noCycle_run_iff`). -/

namespace OxiCloud.Acl.Cycles

open Lib.Tables Lib.Chains Folders Schema Acl.Groups Acl.Nesting

/-- The statement a call is about to issue, or how it has ended. -/
inductive Phase where
  | lockParent
  | cycleCheck
  | depthCheck
  | insert
  | commit
  | listChildUsers
  | listUsers (childUsers : Finset UserId)
  | delete
  | ended (r : Except DomainError Unit)
  deriving DecidableEq

/-- A call of `add_member` or `remove_member`. -/
structure Tx where
  group : GroupId
  member : GroupMember
  caller : UserId
  phase : Phase
  deriving DecidableEq

namespace Tx

/-- The transaction holds the lock `FOR UPDATE` on the row of its group. -/
def locked (t : Tx) : Bool :=
  match t.phase with
  | .cycleCheck => true
  | .depthCheck => true
  | .insert => true
  | .commit => true
  | _ => false

/-- The transaction has inserted its row and holds the lock `FOR KEY SHARE` on the row of its member. -/
def inserted (t : Tx) : Bool :=
  match t.phase with
  | .commit => true
  | _ => false

/-- The transaction has searched for a cycle. -/
def checked (t : Tx) : Bool :=
  match t.phase with
  | .depthCheck => true
  | .insert => true
  | .commit => true
  | _ => false

def goTo (t : Tx) (p : Phase) : Tx := { t with phase := p }

end Tx

/-- The committed tables and the calls. -/
structure Sys where
  db : Store
  txs : Table ℕ Tx

namespace Sys

/-- The call goes on, over the given committed rows. -/
def put (s : Sys) (i : ℕ) (t : Tx) (ms : Members) : Sys := ⟨withMembers s.db ms, s.txs.set i t⟩

/-- The call goes on and the rows stay. -/
def goTo (s : Sys) (i : ℕ) (t : Tx) (p : Phase) : Sys := s.put i (t.goTo p) s.db.members

/-- The call returns an error; what it had inserted is rolled back. -/
def fail (s : Sys) (i : ℕ) (t : Tx) (err : DomainError) : Sys := s.goTo i t (.ended (.error err))

/-- Another transaction holds `FOR UPDATE` on the row. -/
def updateHeld (s : Sys) (i : ℕ) (g : GroupId) : Prop :=
  (s.txs.sat fun j t => decide (j ≠ i) && t.locked && decide (t.group = g)).Nonempty

/-- Another transaction holds `FOR KEY SHARE` on the row for its member. -/
def keyShareHeld (s : Sys) (i : ℕ) (g : GroupId) : Prop :=
  (s.txs.sat fun j t => decide (j ≠ i) && t.inserted && decide (t.member = .group g)).Nonempty

instance (s : Sys) (i : ℕ) (g : GroupId) : Decidable (s.updateHeld i g) :=
  inferInstanceAs (Decidable (Finset.Nonempty _))

instance (s : Sys) (i : ℕ) (g : GroupId) : Decidable (s.keyShareHeld i g) :=
  inferInstanceAs (Decidable (Finset.Nonempty _))

/-- `SELECT … FOR UPDATE` of the receiving group. -/
def lockParent (s : Sys) (i : ℕ) (t : Tx) : Sys :=
  if (s.db.groups.get t.group).isNone then s.fail i t (notFound "SubjectGroup")
  else if s.updateHeld i t.group ∨ s.keyShareHeld i t.group then s
  else
    match t.member with
    | .user _ => s.goTo i t .insert
    | .group child => if child = t.group then s.fail i t invalidInput else s.goTo i t .cycleCheck

/-- The query for a cycle. -/
def cycleCheck (s : Sys) (i : ℕ) (t : Tx) : Sys :=
  match t.member with
  | .user _ => s
  | .group child =>
    if t.group ∈ descendants s.db.members child then s.fail i t invalidInput else s.goTo i t .depthCheck

/-- The query for the depth. -/
def depthCheck (s : Sys) (i : ℕ) (t : Tx) : Sys :=
  match t.member with
  | .user _ => s
  | .group child =>
    if maxGroupDepth < maxDepth s.db.members t.group child % 256 then s.fail i t invalidInput
    else s.goTo i t .insert

/-- Another transaction holds `FOR UPDATE` on the row of the member. -/
def memberHeld (s : Sys) (i : ℕ) : GroupMember → Prop
  | .user _ => False
  | .group child => s.updateHeld i child

instance (s : Sys) (i : ℕ) : ∀ m, Decidable (s.memberHeld i m)
  | .user _ => inferInstanceAs (Decidable False)
  | .group child => inferInstanceAs (Decidable (s.updateHeld i child))

/-- `INSERT … ON CONFLICT DO NOTHING` with its foreign keys. -/
def insert (s : Sys) (i : ℕ) (t : Tx) : Sys :=
  if (t.group, t.member) ∈ s.db.members then s.fail i t (alreadyExists "SubjectGroup")
  else if references s.db t.caller t.member = false then s.fail i t (internalError "SubjectGroup")
  else if s.memberHeld i t.member then s
  else s.goTo i t .commit

/-- The users of the member, empty for a user. -/
def childUsers (ms : Members) : GroupMember → Finset UserId
  | .user _ => ∅
  | .group child => listTransitiveUsers ms child

/-- `would_be_empty` on what the two queries have returned. -/
def wouldBeEmpty (usersBefore childUsers : Finset UserId) : GroupMember → Bool
  | .user u => decide (usersBefore = {u})
  | .group _ => decide childUsers.Nonempty && decide (usersBefore ⊆ childUsers)

/-- The second query of `remove_member`. -/
def listUsers (s : Sys) (i : ℕ) (t : Tx) (childUsers : Finset UserId) : Sys :=
  if (listTransitiveUsers s.db.members t.group).Nonempty ∧
      wouldBeEmpty (listTransitiveUsers s.db.members t.group) childUsers t.member = true then
    s.fail i t invalidInput
  else s.goTo i t .delete

/-- `DELETE` of the row. -/
def delete (s : Sys) (i : ℕ) (t : Tx) : Sys :=
  if (t.group, t.member) ∈ s.db.members then
    s.put i (t.goTo (.ended (.ok ()))) (s.db.members.erase (t.group, t.member))
  else s.fail i t (notFound "SubjectGroup")

/-- The next statement of a call; nothing happens while it has to wait. -/
def advance (s : Sys) (i : ℕ) (t : Tx) : Sys :=
  match t.phase with
  | .lockParent => s.lockParent i t
  | .cycleCheck => s.cycleCheck i t
  | .depthCheck => s.depthCheck i t
  | .insert => s.insert i t
  | .commit => s.put i (t.goTo (.ended (.ok ()))) (Insert.insert (t.group, t.member) s.db.members)
  | .listChildUsers => s.goTo i t (.listUsers (childUsers s.db.members t.member))
  | .listUsers childUsers => s.listUsers i t childUsers
  | .delete => s.delete i t
  | .ended _ => s

/-- The deadlock detector ends a call that has not ended. -/
def abort (s : Sys) (i : ℕ) (t : Tx) : Sys :=
  match t.phase with
  | .ended _ => s
  | _ => s.fail i t (internalError "SubjectGroup")

/-- The first phase of `add_member`. -/
def addPhase (db : Store) (group : GroupId) (member : GroupMember) : Phase :=
  if group = internalGroupId then .ended (.error (accessDenied "SubjectGroup"))
  else
    match refuseCandidate db member with
    | .error err => .ended (.error err)
    | .ok _ => .lockParent

/-- The first phase of `remove_member`. -/
def removePhase (group : GroupId) : Phase :=
  if group = internalGroupId then .ended (.error (accessDenied "SubjectGroup")) else .listChildUsers

/-- A call begins under an unused number. -/
def start (s : Sys) (i : ℕ) (t : Tx) : Sys :=
  match s.txs.get i with
  | none => s.put i t s.db.members
  | some _ => s

/-- Something happens to a call. -/
def onTx (s : Sys) (i : ℕ) (f : Tx → Sys) : Sys :=
  match s.txs.get i with
  | none => s
  | some t => f t

end Sys

/-- A call begins, issues its next statement, or ends as the victim of a deadlock. -/
inductive Action where
  | addMember (i : ℕ) (group : GroupId) (member : GroupMember) (caller : UserId)
  | removeMember (i : ℕ) (group : GroupId) (member : GroupMember) (caller : UserId)
  | next (i : ℕ)
  | abort (i : ℕ)

def act (s : Sys) : Action → Sys
  | .addMember i group member caller => s.start i ⟨group, member, caller, Sys.addPhase s.db group member⟩
  | .removeMember i group member caller => s.start i ⟨group, member, caller, Sys.removePhase group⟩
  | .next i => s.onTx i (s.advance i)
  | .abort i => s.onTx i (s.abort i)

def run : Sys → List Action → Sys
  | s, [] => s
  | s, a :: l => run (act s a) l

/-! ### What an action can do -/

/-- The moves of a call and what they have found. -/
inductive Move (s : Sys) (i : ℕ) : Sys → Prop where
  | start (t : Tx) (hget : s.txs.get i = none) (hl : t.locked = false) : Move s i (s.put i t s.db.members)
  | fail (t : Tx) (err : DomainError) (hget : s.txs.get i = some t) : Move s i (s.fail i t err)
  | read (t : Tx) (p : Phase) (hget : s.txs.get i = some t) (hl : (t.goTo p).locked = false) :
      Move s i (s.goTo i t p)
  | lockUser (t : Tx) (u : UserId) (hget : s.txs.get i = some t) (hm : t.member = .user u)
      (hu : ¬ s.updateHeld i t.group) (hk : ¬ s.keyShareHeld i t.group) : Move s i (s.goTo i t .insert)
  | lockGroup (t : Tx) (child : GroupId) (hget : s.txs.get i = some t) (hm : t.member = .group child)
      (hu : ¬ s.updateHeld i t.group) (hk : ¬ s.keyShareHeld i t.group) : Move s i (s.goTo i t .cycleCheck)
  | cycleCheck (t : Tx) (child : GroupId) (hget : s.txs.get i = some t) (hp : t.phase = .cycleCheck)
      (hm : t.member = .group child) (hno : t.group ∉ descendants s.db.members child) :
      Move s i (s.goTo i t .depthCheck)
  | depthCheck (t : Tx) (hget : s.txs.get i = some t) (hp : t.phase = .depthCheck) :
      Move s i (s.goTo i t .insert)
  | insert (t : Tx) (hget : s.txs.get i = some t) (hp : t.phase = .insert)
      (hh : ¬ s.memberHeld i t.member) : Move s i (s.goTo i t .commit)
  | commit (t : Tx) (hget : s.txs.get i = some t) (hp : t.phase = .commit) :
      Move s i (s.put i (t.goTo (.ended (.ok ()))) (Insert.insert (t.group, t.member) s.db.members))
  | delete (t : Tx) (hget : s.txs.get i = some t) :
      Move s i (s.put i (t.goTo (.ended (.ok ()))) (s.db.members.erase (t.group, t.member)))

variable {s : Sys} {i : ℕ} {t : Tx}

theorem advance_move (hget : s.txs.get i = some t) : s.advance i t = s ∨ Move s i (s.advance i t) := by
  unfold Sys.advance
  rcases hp : t.phase with _ | _ | _ | _ | _ | _ | cu | _ | r
  · unfold Sys.lockParent
    split_ifs with hnone hheld
    · exact .inr (.fail t _ hget)
    · exact .inl rfl
    · rw [not_or] at hheld
      rcases hm : t.member with u | child
      · exact .inr (.lockUser t u hget hm hheld.1 hheld.2)
      · dsimp only
        split_ifs
        · exact .inr (.fail t _ hget)
        · exact .inr (.lockGroup t child hget hm hheld.1 hheld.2)
  · unfold Sys.cycleCheck
    rcases hm : t.member with u | child
    · exact .inl rfl
    · dsimp only
      split_ifs with hcyc
      · exact .inr (.fail t _ hget)
      · exact .inr (.cycleCheck t child hget hp hm hcyc)
  · unfold Sys.depthCheck
    rcases hm : t.member with u | child
    · exact .inl rfl
    · dsimp only
      split_ifs
      · exact .inr (.fail t _ hget)
      · exact .inr (.depthCheck t hget hp)
  · unfold Sys.insert
    split_ifs with hdup href hheld
    · exact .inr (.fail t _ hget)
    · exact .inr (.fail t _ hget)
    · exact .inl rfl
    · exact .inr (.insert t hget hp hheld)
  · exact .inr (.commit t hget hp)
  · exact .inr (.read t _ hget rfl)
  · show s.listUsers i t cu = s ∨ Move s i (s.listUsers i t cu)
    unfold Sys.listUsers
    split_ifs with hempty
    · exact .inr (.fail t _ hget)
    · exact .inr (.read t _ hget rfl)
  · unfold Sys.delete
    split_ifs with hrow
    · exact .inr (.delete t hget)
    · exact .inr (.fail t _ hget)
  · exact .inl rfl

theorem addPhase_locked (db : Store) (group : GroupId) (member : GroupMember) (caller : UserId) :
    (Tx.mk group member caller (Sys.addPhase db group member)).locked = false := by
  unfold Sys.addPhase
  split_ifs with hint
  · rfl
  · rcases refuseCandidate db member with err | ⟨⟩ <;> rfl

theorem removePhase_locked (group : GroupId) (member : GroupMember) (caller : UserId) :
    (Tx.mk group member caller (Sys.removePhase group)).locked = false := by
  unfold Sys.removePhase
  split_ifs with hint <;> rfl

theorem start_move (hl : t.locked = false) : s.start i t = s ∨ Move s i (s.start i t) := by
  unfold Sys.start
  rcases hget : s.txs.get i with _ | t'
  · exact .inr (.start t hget hl)
  · exact .inl rfl

theorem onTx_move {f : Tx → Sys} (hf : ∀ t, s.txs.get i = some t → f t = s ∨ Move s i (f t)) :
    s.onTx i f = s ∨ Move s i (s.onTx i f) := by
  unfold Sys.onTx
  rcases hget : s.txs.get i with _ | t
  · exact .inl rfl
  · exact hf t hget

theorem abort_move (hget : s.txs.get i = some t) : s.abort i t = s ∨ Move s i (s.abort i t) := by
  unfold Sys.abort
  rcases hp : t.phase with _ | _ | _ | _ | _ | _ | _ | _ | _
  case ended => exact .inl rfl
  all_goals exact .inr (.fail t _ hget)

/-- **An action does nothing or is a move of one call.** -/
theorem act_move (s : Sys) (a : Action) : act s a = s ∨ ∃ i, Move s i (act s a) := by
  have hsome : ∀ {i : ℕ} {s' : Sys}, s' = s ∨ Move s i s' → s' = s ∨ ∃ i, Move s i s' := fun h =>
    h.imp_right fun hm => ⟨_, hm⟩
  rcases a with ⟨i, group, member, caller⟩ | ⟨i, group, member, caller⟩ | i | i
  · exact hsome (start_move (addPhase_locked s.db group member caller))
  · exact hsome (start_move (removePhase_locked group member caller))
  · exact hsome (onTx_move fun t hget => advance_move hget)
  · exact hsome (onTx_move fun t hget => abort_move hget)

/-! ### What the locks exclude -/

/-- No two calls hold `FOR UPDATE` on one row, or one this and another `FOR KEY SHARE`; the rows hold no
two groups that are in each other, and none that would become so by a call that has searched. -/
structure Excluded (s : Sys) : Prop where
  update : ∀ i j t u, s.txs.get i = some t → s.txs.get j = some u → i ≠ j → t.locked = true →
    u.locked = true → t.group ≠ u.group
  share : ∀ i j t u, s.txs.get i = some t → s.txs.get j = some u → i ≠ j → t.locked = true →
    u.inserted = true → u.member ≠ .group t.group
  checked : ∀ i t c, s.txs.get i = some t → t.checked = true → t.member = .group c →
    ¬ Nests s.db.members c t.group ∧ c ≠ t.group
  noMutual : ∀ a b, Nests s.db.members a b → ¬ Nests s.db.members b a

theorem updateHeld_iff {g : GroupId} : s.updateHeld i g ↔
    ∃ j u, s.txs.get j = some u ∧ j ≠ i ∧ u.locked = true ∧ u.group = g := by
  unfold Sys.updateHeld Finset.Nonempty
  simp only [Table.mem_sat, Bool.and_eq_true, decide_eq_true_iff, and_assoc]

theorem keyShareHeld_iff {g : GroupId} : s.keyShareHeld i g ↔
    ∃ j u, s.txs.get j = some u ∧ j ≠ i ∧ u.inserted = true ∧ u.member = .group g := by
  unfold Sys.keyShareHeld Finset.Nonempty
  simp only [Table.mem_sat, Bool.and_eq_true, decide_eq_true_iff, and_assoc]

theorem Tx.locked_of_checked (h : t.checked = true) : t.locked = true := by
  unfold Tx.checked at h
  unfold Tx.locked
  rcases hp : t.phase with _ | _ | _ | _ | _ | _ | _ | _ | _ <;> rw [hp] at h <;>
    first | rfl | exact nomatch h

theorem Tx.phase_of_inserted (h : t.inserted = true) : t.phase = .commit := by
  unfold Tx.inserted at h
  rcases hp : t.phase with _ | _ | _ | _ | _ | _ | _ | _ | _ <;> rw [hp] at h <;>
    first | rfl | exact nomatch h

namespace Excluded

section

variable (h : Excluded s)
include h

theorem not_held (hget : s.txs.get i = some t) (hl : t.locked = true) :
    ¬ s.updateHeld i t.group ∧ ¬ s.keyShareHeld i t.group := by
  constructor
  · intro hh
    obtain ⟨j, u, hj, hne, hu, hg⟩ := updateHeld_iff.mp hh
    exact h.update j i u t hj hget hne hu hl hg
  · intro hh
    obtain ⟨j, u, hj, hne, hu, hm⟩ := keyShareHeld_iff.mp hh
    exact h.share i j t u hget hj (Ne.symm hne) hl hu hm

/-- What a call has to find when it goes on. -/
theorem put {ms : Members}
    (hu : t.locked = true → ¬ s.updateHeld i t.group ∧ ¬ s.keyShareHeld i t.group)
    (hk : t.inserted = true → ¬ s.memberHeld i t.member)
    (hc : t.checked = true → ∀ c, t.member = .group c → ¬ Nests ms c t.group ∧ c ≠ t.group)
    (hms : ∀ a b, Nests ms a b → ¬ Nests ms b a)
    (hrest : ∀ j u c, s.txs.get j = some u → j ≠ i → u.checked = true → u.member = .group c →
      ¬ Nests ms c u.group) : Excluded (s.put i t ms) := by
  have hget : ∀ {j : ℕ} {u : Tx}, (s.put i t ms).txs.get j = some u →
      j = i ∧ u = t ∨ j ≠ i ∧ s.txs.get j = some u := by
    intro j u hj
    exact Table.get_set_cases hj
  constructor
  · intro j k u v hj hk' hne hlu hlv heq
    rcases hget hj with ⟨rfl, rfl⟩ | ⟨hji, hju⟩
    · rcases hget hk' with ⟨rfl, -⟩ | ⟨hki, hkv⟩
      · exact hne rfl
      · exact (hu hlu).1 (updateHeld_iff.mpr ⟨k, v, hkv, hki, hlv, heq.symm⟩)
    · rcases hget hk' with ⟨rfl, rfl⟩ | ⟨hki, hkv⟩
      · exact (hu hlv).1 (updateHeld_iff.mpr ⟨j, u, hju, hji, hlu, heq⟩)
      · exact h.update j k u v hju hkv hne hlu hlv heq
  · intro j k u v hj hk' hne hlu hiv heq
    rcases hget hj with ⟨rfl, rfl⟩ | ⟨hji, hju⟩
    · rcases hget hk' with ⟨rfl, -⟩ | ⟨hki, hkv⟩
      · exact hne rfl
      · exact (hu hlu).2 (keyShareHeld_iff.mpr ⟨k, v, hkv, hki, hiv, heq⟩)
    · rcases hget hk' with ⟨rfl, rfl⟩ | ⟨hki, hkv⟩
      · refine hk hiv ?_
        rw [heq]
        exact updateHeld_iff.mpr ⟨j, u, hju, hji, hlu, rfl⟩
      · exact h.share j k u v hju hkv hne hlu hiv heq
  · intro j u c hj hcu hm
    rcases hget hj with ⟨rfl, rfl⟩ | ⟨hji, hj⟩
    · exact hc hcu c hm
    · exact ⟨hrest j u c hj hji hcu hm, (h.checked j u c hj hcu hm).2⟩
  · exact hms

theorem goTo {p : Phase}
    (hu : (t.goTo p).locked = true → ¬ s.updateHeld i t.group ∧ ¬ s.keyShareHeld i t.group)
    (hk : (t.goTo p).inserted = true → ¬ s.memberHeld i t.member)
    (hc : (t.goTo p).checked = true → ∀ c, t.member = .group c →
      ¬ Nests s.db.members c t.group ∧ c ≠ t.group) : Excluded (s.goTo i t p) :=
  h.put hu hk hc h.noMutual fun j u c hj _ hcu hm => (h.checked j u c hj hcu hm).1

theorem release {ms : Members} (hl : t.locked = false) (hms : ms ⊆ s.db.members) :
    Excluded (s.put i t ms) := by
  have hno : t.locked ≠ true := by rw [hl]; exact Bool.false_ne_true
  refine h.put (fun ht => absurd ht hno) (fun ht => ?_) (fun ht => absurd (Tx.locked_of_checked ht) hno)
    (fun a b hab hba => h.noMutual a b (hms hab) (hms hba)) fun j u c hj _ hcu hm hn => ?_
  · refine absurd ?_ hno
    unfold Tx.locked
    rw [Tx.phase_of_inserted ht]
  · exact (h.checked j u c hj hcu hm).1 (hms hn)

theorem commit (hget : s.txs.get i = some t) (hp : t.phase = .commit) :
    Excluded (s.put i (t.goTo (.ended (.ok ()))) (Insert.insert (t.group, t.member) s.db.members)) := by
  have hins : t.inserted = true := by unfold Tx.inserted; rw [hp]
  have hchk : t.checked = true := by unfold Tx.checked; rw [hp]
  -- a row of the table after the commit is the new one or an old one
  have hrow : ∀ {a b : GroupId}, Nests (Insert.insert (t.group, t.member) s.db.members) a b →
      a = t.group ∧ t.member = .group b ∨ Nests s.db.members a b := by
    intro a b hab
    rcases Finset.mem_insert.mp hab with heq | hab
    · obtain ⟨rfl, hm⟩ := Prod.mk.inj heq
      exact .inl ⟨rfl, hm.symm⟩
    · exact .inr hab
  refine h.put (fun ht => nomatch ht) (fun ht => nomatch ht) (fun ht => nomatch ht) (fun a b hab hba => ?_)
    fun j u c hj hne hcu hm hn => ?_
  · rcases hrow hab with ⟨rfl, hm⟩ | hab
    · obtain ⟨hno, hself⟩ := h.checked i t b hget hchk hm
      rcases hrow hba with ⟨hb, -⟩ | hba
      · exact hself hb
      · exact hno hba
    · rcases hrow hba with ⟨rfl, hm⟩ | hba
      · exact (h.checked i t a hget hchk hm).1 hab
      · exact h.noMutual a b hab hba
  · rcases hrow hn with ⟨-, hmt⟩ | hn
    · exact h.share j i u t hj hget hne (Tx.locked_of_checked hcu) hins hmt
    · exact (h.checked j u c hj hcu hm).1 hn

theorem move {s' : Sys} (hm : Move s i s') : Excluded s' := by
  rcases hm with ⟨t, hget, hl⟩ | ⟨t, err, hget⟩ | ⟨t, p, hget, hl⟩ | ⟨t, u, hget, hm, hu, hk⟩ |
    ⟨t, c, hget, hm, hu, hk⟩ | ⟨t, c, hget, hp, hm, hno⟩ | ⟨t, hget, hp⟩ | ⟨t, hget, hp, hh⟩ | ⟨t, hget, hp⟩ |
    ⟨t, hget⟩
  case start => exact h.release hl (Finset.Subset.refl _)
  case fail => exact h.release rfl (Finset.Subset.refl _)
  case read => exact h.release hl (Finset.Subset.refl _)
  case lockUser => exact h.goTo (fun _ => ⟨hu, hk⟩) (fun ht => nomatch ht) fun _ c hc => nomatch hm.symm.trans hc
  case lockGroup => exact h.goTo (fun _ => ⟨hu, hk⟩) (fun ht => nomatch ht) fun ht => nomatch ht
  case cycleCheck =>
    have hl : t.locked = true := by unfold Tx.locked; rw [hp]
    refine h.goTo (fun _ => h.not_held hget hl) (fun ht => nomatch ht) fun _ c' hc' => ?_
    obtain rfl := GroupMember.group.inj (hm.symm.trans hc')
    constructor
    · exact fun hn => hno (mem_descendants.mpr ⟨1, .single hn⟩)
    · rintro rfl
      exact hno (self_mem_descendants _ _)
  case depthCheck =>
    have hc : t.checked = true := by unfold Tx.checked; rw [hp]
    exact h.goTo (fun _ => h.not_held hget (Tx.locked_of_checked hc)) (fun ht => nomatch ht)
      fun _ c hm => h.checked i t c hget hc hm
  case insert =>
    have hc : t.checked = true := by unfold Tx.checked; rw [hp]
    exact h.goTo (fun _ => h.not_held hget (Tx.locked_of_checked hc)) (fun _ => hh)
      fun _ c hm => h.checked i t c hget hc hm
  case commit => exact h.commit hget hp
  case delete => exact h.release rfl (Finset.erase_subset _ _)

end

end Excluded

/-- **No interleaving puts two groups into each other.** -/
theorem noMutual_run (s : Sys) (l : List Action) (h : Excluded s) : Excluded (run s l) := by
  induction l generalizing s with
  | nil => exact h
  | cons a l ih =>
    refine ih (act s a) ?_
    rcases act_move s a with hsame | ⟨i, hm⟩
    · rw [hsame]
      exact h
    · exact h.move hm

/-! ### Acyclic runs -/

/-- At the commit of a nested group, no chain of committed rows leads from it to the receiving group. -/
def Safe (s : Sys) : Action → Prop
  | .next i => ∀ t child, s.txs.get i = some t → t.phase = .commit → t.member = .group child →
      t.group ∉ descendants s.db.members child
  | _ => True

/-- The condition on one call. -/
def safeTx (ms : Members) (t : Tx) : Bool :=
  match t.phase, t.member with
  | .commit, .group child => decide (t.group ∉ descendants ms child)
  | _, _ => true

theorem safeTx_iff {ms : Members} : safeTx ms t = true ↔
    ∀ child, t.phase = .commit → t.member = .group child → t.group ∉ descendants ms child := by
  unfold safeTx
  rcases hp : t.phase with _ | _ | _ | _ | _ | _ | _ | _ | _
  case commit =>
    rcases hm : t.member with u | c
    · exact iff_of_true rfl fun child _ h => nomatch h
    · rw [decide_eq_true_iff]
      constructor
      · intro h child _ hc
        obtain rfl := GroupMember.group.inj hc
        exact h
      · exact fun h => h c rfl rfl
  all_goals exact iff_of_true rfl fun child h => nomatch h

instance (s : Sys) : ∀ a, Decidable (Safe s a)
  | .addMember .. => inferInstanceAs (Decidable True)
  | .removeMember .. => inferInstanceAs (Decidable True)
  | .abort _ => inferInstanceAs (Decidable True)
  | .next i => decidable_of_iff ((s.txs.get i).all (safeTx s.db.members) = true) (by
      rw [Option.all_eq_true]
      constructor
      · exact fun h t child ht hp hm => safeTx_iff.mp (h t ht) child hp hm
      · exact fun h t ht => safeTx_iff.mpr fun child hp hm => h t child ht hp hm)

/-- Every action of the run is safe. -/
def SafeRun : Sys → List Action → Prop
  | _, [] => True
  | s, a :: l => Safe s a ∧ SafeRun (act s a) l

/-- The committed rows hold no cycle of nested groups. -/
def NoCycle (s : Sys) : Prop := Acyclic (Nests s.db.members)

theorem noCycle_commit_iff (h : NoCycle s) (ms : Members)
    (hms : ms = Insert.insert (t.group, t.member) s.db.members) :
    Acyclic (Nests ms) ↔ ∀ child, t.member = .group child → t.group ∉ descendants s.db.members child := by
  rw [hms]
  rcases hm : t.member with u | child
  · rw [nests_insert_user]
    exact iff_of_true h fun child hc => nomatch hc
  · rw [nests_insert_group, acyclic_withLink_iff h]
    constructor
    · intro hno c hc hd
      obtain rfl := GroupMember.group.inj hc
      obtain ⟨n, hn⟩ := mem_descendants.mp hd
      exact hno n hn
    · intro hno n hn
      exact hno child rfl (mem_descendants.mpr ⟨n, hn⟩)

theorem start_members (s : Sys) (i : ℕ) (t : Tx) : (s.start i t).db.members = s.db.members := by
  unfold Sys.start
  rcases s.txs.get i with _ | t' <;> rfl

theorem abort_members (s : Sys) (i : ℕ) : (s.onTx i (s.abort i)).db.members = s.db.members := by
  unfold Sys.onTx
  rcases s.txs.get i with _ | t
  · rfl
  · show (s.abort i t).db.members = s.db.members
    unfold Sys.abort
    rcases t.phase with _ | _ | _ | _ | _ | _ | _ | _ | _ <;> rfl

theorem advance_subset (hget : s.txs.get i = some t) (hp : t.phase ≠ .commit) :
    (s.advance i t).db.members ⊆ s.db.members := by
  rcases advance_move hget with h | h
  · rw [h]
  · generalize s.advance i t = s' at h
    rcases h with ⟨_, _, _⟩ | ⟨_, _, _⟩ | ⟨_, _, _, _⟩ | ⟨_, _, _, _, _, _⟩ | ⟨_, _, _, _, _, _⟩ |
      ⟨_, _, _, _, _, _⟩ | ⟨_, _, _⟩ | ⟨_, _, _, _⟩ | ⟨t', hget', hp'⟩ | ⟨_, _⟩
    case commit =>
      obtain rfl := Option.mem_unique hget hget'
      exact absurd hp' hp
    case delete => exact Finset.erase_subset _ _
    all_goals exact Finset.Subset.refl _

theorem noCycle_next_iff (h : NoCycle s) (i : ℕ) : NoCycle (act s (.next i)) ↔ Safe s (.next i) := by
  rcases hget : s.txs.get i with _ | t
  · have hsame : act s (.next i) = s := by
      show s.onTx i (s.advance i) = s
      unfold Sys.onTx
      rw [hget]
    rw [hsame]
    exact iff_of_true h fun t child ht => nomatch hget.symm.trans ht
  have hact : act s (.next i) = s.advance i t := by
    show s.onTx i (s.advance i) = s.advance i t
    unfold Sys.onTx
    rw [hget]
  rw [hact]
  by_cases hp : t.phase = .commit
  · have hms : (s.advance i t).db.members = Insert.insert (t.group, t.member) s.db.members := by
      unfold Sys.advance
      rw [hp]
      rfl
    refine (noCycle_commit_iff h _ hms).trans ⟨fun hall t' child ht' _ hm => ?_, fun hsafe child hm => ?_⟩
    · obtain rfl := Option.mem_unique hget ht'
      exact hall child hm
    · exact hsafe t child hget hp hm
  · refine iff_of_true (h.mono fun _ _ hl => advance_subset hget hp hl) fun t' child ht' hp' _ => ?_
    obtain rfl := Option.mem_unique hget ht'
    exact absurd hp' hp

/-- **An action makes no cycle exactly if it is safe.** -/
theorem noCycle_act_iff (h : NoCycle s) (a : Action) : NoCycle (act s a) ↔ Safe s a := by
  have hkeep : ∀ {s' : Sys}, s'.db.members = s.db.members → NoCycle s' := by
    intro s' hs'
    unfold NoCycle
    rw [hs']
    exact h
  rcases a with ⟨i, group, member, caller⟩ | ⟨i, group, member, caller⟩ | i | i
  · exact iff_of_true (hkeep (start_members s i _)) trivial
  · exact iff_of_true (hkeep (start_members s i _)) trivial
  · exact noCycle_next_iff h i
  · exact iff_of_true (hkeep (abort_members s i)) trivial

/-- The group 4 is in the group 3, and no call has begun. -/
def hall : Sys := ⟨withMembers lobby {(3, .group 4)}, .empty⟩

/-- The schedule of two calls: the group 3 goes into the group 2, the group 2 into the group 4. Both search
before either commits, and the second inserts after the first has committed. -/
def crossing : List Action :=
  [.addMember 0 2 (.group 3) 5, .addMember 1 4 (.group 2) 5, .next 0, .next 1, .next 0, .next 1,
    .next 0, .next 1, .next 0, .next 0, .next 1, .next 1]

theorem hall_noCycle : NoCycle hall := by
  refine Bounded.acyclic (k := 1) (bounded_of_rank (f := fun g => if g = 3 then 1 else 0) (fun a b h => ?_)
    fun a => ?_)
  · obtain ⟨rfl, hb⟩ := Prod.mk.inj (Finset.mem_singleton.mp h)
    rw [GroupMember.group.inj hb]
    decide
  · split_ifs <;> omega

theorem noMutual_run_crossing : Excluded (run hall crossing) := by
  refine noMutual_run hall crossing ⟨?_, ?_, ?_, fun a _ h h' => hall_noCycle 1 a (.cons h (.single h'))⟩
  all_goals
    intros
    contradiction

end OxiCloud.Acl.Cycles
