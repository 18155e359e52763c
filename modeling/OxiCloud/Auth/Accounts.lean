import OxiCloud.Auth.Logins
import OxiCloud.Lib.Pools

/-! # The rows of the accounts

An administrative call looks at roles in the flags cache and at the target's row, and then writes one column
of that row without looking again. A user's own call reads the row, changes its copy, and writes back the
whole copy. The database refuses a second owner, and external rows with another role or with usage.

`owner_kept`: there is one owner, active and internal, if the row that is demoted, deactivated or deleted is not
the owner's when it is written, ownership goes to a row that is active then, and a copy written back has the
role of the row. `meant_kept`: no call changes a column it is not meant to change, if a copy is written back
only over the row it was read from. Nothing checks this (`owner_lost`, `deactivation_undone`). -/

namespace OxiCloud.Auth.Accounts

open Lib.Programs Lib.Pools Lib.Tables
open Logins (Role)

def outranks : Role → Role → Bool
  | .owner, .admin | .owner, .user | .admin, .user => true
  | _, _ => false

structure User where
  role : Role
  active : Bool
  isExternal : Bool
  isOidc : Bool
  username : Option ℕ
  passwordHash : Option ℕ
  quota : ℤ
  used : ℤ
  givenName : Option ℕ
  familyName : Option ℕ
  preferredLocale : Option ℕ
  notifyOnShare : Bool
deriving DecidableEq

/-- The checks and the index of `auth.users`. -/
def Constraints (t : Table ℕ User) : Prop :=
  t.count (fun _ u => u.role = .owner) ≤ 1 ∧
    t.Forall fun _ u => ¬ (u.isExternal = true ∧ u.role ≠ .user) ∧ (u.isExternal = true → u.used = 0)

instance (t : Table ℕ User) : Decidable (Constraints t) := instDecidableAnd

structure UpdateProfileDto where
  username : Option ℕ
  givenName : Option ℕ
  familyName : Option ℕ
  preferredLocale : Option (Option ℕ)
  notifyOnShare : Option Bool
deriving DecidableEq

/-- What a call changes in its copy of a row. -/
inductive Change where
  | updatePasswordHash (hash : ℕ)
  | updateProfile (dto : UpdateProfileDto)
  | promoteToInternal (hash : Option ℕ) (quota : ℤ)
  | setUsername (name : ℕ)

def Change.apply (u : User) : Change → User
  | updatePasswordHash hash => { u with passwordHash := some hash }
  | updateProfile dto =>
      { u with
        username := dto.username <|> u.username
        givenName := dto.givenName <|> u.givenName
        familyName := dto.familyName <|> u.familyName
        preferredLocale := dto.preferredLocale.getD u.preferredLocale
        notifyOnShare := dto.notifyOnShare.getD u.notifyOnShare }
  | promoteToInternal hash quota =>
      { u with isExternal := false, passwordHash := hash <|> u.passwordHash, quota := quota }
  | setUsername name => { u with username := some name }

/-- `meant` is the table in which every write has changed only the columns it is meant to change; `past` lists
the earlier tables, whose values the flags cache may still return. -/
structure World where
  users : Table ℕ User
  meant : Table ℕ User
  past : List (Table ℕ User)

inductive Write where
  | changeRole (id : ℕ) (admin : Bool)
  | setActive (id : ℕ) (active : Bool)
  | delete (id : ℕ)
  | transfer (source target : ℕ)
  | updateQuota (id : ℕ) (quota : ℤ)
  | updateUsage (id : ℕ) (used : ℤ)
  | updateUser (id : ℕ) (copy : User) (change : Change)

inductive Op where
  | flags (id : ℕ)
  | getUser (id : ℕ)
  | freeName
  | passes
  | write (s : Write)

def Op.Resp : Op → Type
  | flags _ => Option Role
  | getUser _ => Option User
  | freeName => Option ℕ
  | passes | write _ => Bool

abbrev Sig : Lib.Programs.Sig := ⟨Op, Op.Resp⟩

def onRow (id : ℕ) (f : User → User) (t : Table ℕ User) : Table ℕ User :=
  t.modify fun k u => if k = id then f u else u

def setRole (role : Role) (u : User) : User := { u with role := role }

def swap (source target : ℕ) (t : Table ℕ User) : Table ℕ User :=
  onRow target (setRole .owner) (onRow source (setRole .admin) t)

def remove (id : ℕ) (t : Table ℕ User) : Table ℕ User := t.erase id

namespace World

variable (w : World)

/-- A transaction that goes on if `found`, turns the rows into `f` of them, and was meant to turn them into
`g` of them. -/
def commit (found : Bool) (f g : Table ℕ User → Table ℕ User) : Option World :=
  if found = true ∧ Constraints (f w.users) then some ⟨f w.users, g w.meant, w.users :: w.past⟩ else none

def update (f : Table ℕ User → Table ℕ User) : Option World := w.commit true f f

/-- The writes; `none` if the database refuses. -/
def write : Write → Option World
  | .changeRole id admin => w.update (onRow id (setRole (if admin then .admin else .user)))
  | .setActive id active => w.update (onRow id fun u => { u with active := active })
  | .delete id => w.update (remove id)
  | .transfer source target =>
      w.commit ((w.users.get source).any (·.role = .owner) && (w.users.get target).isSome)
        (swap source target) (swap source target)
  | .updateQuota id quota => w.update (onRow id fun u => { u with quota := quota })
  | .updateUsage id used => w.update (onRow id fun u => { u with used := used })
  | .updateUser id copy change => w.commit true (onRow id fun _ => change.apply copy) (onRow id change.apply)

end World

/-- Whether a statement or another test succeeds, how old the flags are, and a name that seems free. -/
structure Choice where
  ok : Bool := true
  age : ℕ := 0
  name : Option ℕ := none

def answer (w : World) (ch : Choice) : (op : Op) → op.Resp
  | .flags id => (((w.users :: w.past).getD ch.age w.users).get id).map (·.role)
  | .getUser id => if ch.ok then w.users.get id else none
  | .freeName => ch.name
  | .passes => ch.ok
  | .write s => ch.ok && (w.write s).isSome

def effect (w : World) (ch : Choice) : Op → World
  | .write s => if ch.ok then (w.write s).getD w else w
  | _ => w

abbrev machine : Machine Sig World where
  Choice := Choice
  exec op ch w := some (answer w ch op, effect w ch op)

def ask (op : Op) : Prog Sig op.Resp := Prog.stmt (E := Sig) op

def write (s : Write) : Prog Sig Bool := ask (.write s)

def requireCanModify (caller target : ℕ) : Prog Sig Bool := do
  if caller = target then return true
  let some role ← ask (.flags caller) | pure false
  let some role' ← ask (.flags target) | pure false
  pure (outranks role role')

def transferOwnership (caller newOwner : ℕ) : Prog Sig Bool := do
  let some .owner ← ask (.flags caller) | pure false
  if caller = newOwner then return false
  let some target ← ask (.getUser newOwner) | pure false
  if target.isExternal || !target.active || target.username.isNone then return false
  write (.transfer caller newOwner)

def deleteUserAdmin (caller id : ℕ) : Prog Sig Bool := do
  if caller = id then return false
  let .true ← requireCanModify caller id | pure false
  let some _ ← ask (.getUser id) | pure false
  write (.delete id)

def resolveReactivationCollision (id : ℕ) : Prog Sig Bool := do
  let some target ← ask (.getUser id) | pure false
  let some current := target.username | pure true
  let some name ← ask .freeName | pure false
  if name = current then return true
  write (.updateUser id target (.setUsername name))

def setUserActive (caller id : ℕ) (active : Bool) : Prog Sig Bool := do
  if caller = id ∧ active = false then return false
  let .true ← requireCanModify caller id | pure false
  if active then
    let .true ← resolveReactivationCollision id | pure false
    write (.setActive id true)
  else write (.setActive id false)

def changeUserRole (caller id : ℕ) (role : Role) : Prog Sig Bool := do
  if caller = id then return false
  let .true ← requireCanModify caller id | pure false
  if role = .owner then return false
  let some target ← ask (.getUser id) | pure false
  if target.role = .owner ∨ role.atLeastAdmin ∧ target.isExternal then return false
  write (.changeRole id (role = .admin))

def updateUserQuota (caller id : ℕ) (quota : ℤ) : Prog Sig Bool := do
  let .true ← requireCanModify caller id | pure false
  if quota < 0 then return false
  write (.updateQuota id quota)

/-- `change_password`; the tests of the two passwords are `passes`. -/
def changePassword (id hash : ℕ) : Prog Sig Bool := do
  let some user ← ask (.getUser id) | pure false
  if user.passwordHash.isNone then return false
  let .true ← ask .passes | pure false
  write (.updateUser id user (.updatePasswordHash hash))

/-- `update_profile_with_perms`; a row is written only if a field changes. -/
def updateProfile (id : ℕ) (dto : UpdateProfileDto) : Prog Sig Bool := do
  let some user ← ask (.getUser id) | pure false
  if user.isOidc ∧ (dto.givenName.isSome ∨ dto.familyName.isSome) then return false
  if dto.username.isSome ∧ user.username.isSome then return false
  let .true ← ask .passes | pure false
  let dto := { dto with notifyOnShare := dto.notifyOnShare.filter (· ≠ user.notifyOnShare) }
  if dto = ⟨none, none, none, none, none⟩ then return true
  write (.updateUser id user (.updateProfile dto))

def upgradeToInternal (id : ℕ) (hash : Option ℕ) (quota : ℤ) : Prog Sig Bool := do
  let some user ← ask (.getUser id) | pure false
  if !user.isExternal || user.isOidc then return false
  let .true ← ask .passes | pure false
  write (.updateUser id user (.promoteToInternal hash quota))

inductive Call where
  | transferOwnership (caller newOwner : ℕ)
  | deleteUserAdmin (caller id : ℕ)
  | setUserActive (caller id : ℕ) (active : Bool)
  | changeUserRole (caller id : ℕ) (role : Role)
  | updateUserQuota (caller id : ℕ) (quota : ℤ)
  | updateStorageUsage (id : ℕ) (used : ℤ)
  | changePassword (id hash : ℕ)
  | updateProfile (id : ℕ) (dto : UpdateProfileDto)
  | upgradeToInternal (id : ℕ) (hash : Option ℕ) (quota : ℤ)

def Call.program : Call → Prog Sig Bool
  | transferOwnership caller newOwner => Accounts.transferOwnership caller newOwner
  | deleteUserAdmin caller id => Accounts.deleteUserAdmin caller id
  | setUserActive caller id active => Accounts.setUserActive caller id active
  | changeUserRole caller id role => Accounts.changeUserRole caller id role
  | updateUserQuota caller id quota => Accounts.updateUserQuota caller id quota
  | updateStorageUsage id used => write (.updateUsage id used)
  | changePassword id hash => Accounts.changePassword id hash
  | updateProfile id dto => Accounts.updateProfile id dto
  | upgradeToInternal id hash quota => Accounts.upgradeToInternal id hash quota

/-- `P` is reached by the calls `l`, every statement being `fair`. -/
def Reaches (fair : World → Op → Bool) (users : Table ℕ User) (l : List Call) (P : Pool Sig World Unit Bool) :
    Prop :=
  Runs machine Ledger.idle (fun op _ w _ => fair w op = true)
    (Pool.start ⟨users, users, []⟩ (l.map Call.program)) P

variable {t users : Table ℕ User} {w w' : World} {f g : Table ℕ User → Table ℕ User} {o id : ℕ} {u : User}
  {s : Write} {l : List Call} {P : Pool Sig World Unit Bool} {fair : World → Op → Bool}

theorem Reaches.invariant {I : World → Prop} (h : Reaches fair users l P) (hi : I ⟨users, users, []⟩)
    (hw : ∀ {w s w'}, I w → fair w (.write s) = true → w.write s = some w' → I w') : I P.store := by
  refine Runs.invariant (fun op ch w r w' _ hI hf he => ?_) h hi
  obtain ⟨-, rfl⟩ := Prod.mk.inj (Option.some.inj he)
  fun_cases effect w ch op <;> try exact hI
  next s _ =>
    rcases hs : w.write s with _ | w'
    · exact hI
    · exact hw hI hf hs

theorem committed {found : Bool} (h : w.commit found f g = some w') :
    found = true ∧ Constraints (f w.users) ∧ w'.users = f w.users ∧ w'.meant = g w.meant := by
  unfold World.commit at h
  split_ifs at h with hc
  obtain rfl := Option.some.inj h
  exact ⟨hc.1, hc.2, rfl, rfl⟩

/-! ### One owner -/

/-- There is one owner, active and internal. -/
def Owned (t : Table ℕ User) : Prop :=
  ∃ o u, t.get o = some u ∧ u.role = .owner ∧ u.active = true ∧ u.isExternal = false ∧
    ∀ k v, t.get k = some v → v.role = .owner → k = o

/-- A demotion, a deactivation and a deletion do not find the owner, a transfer finds its target active, and
a copy that is written back has the role of the row, and is active if that is the owner's. -/
def guarded (w : World) : Op → Bool
  | .write (.changeRole id _) | .write (.delete id) | .write (.setActive id false) =>
      ∀ u ∈ w.users.get id, u.role ≠ .owner
  | .write (.transfer _ target) => ∀ u ∈ w.users.get target, u.active = true
  | .write (.updateUser id copy _) =>
      ∀ u ∈ w.users.get id, copy.role = u.role ∧ (u.role = .owner → copy.active = true)
  | _ => true

theorem owned_of_constraints (hc : Constraints t) (hu : t.get o = some u) (hr : u.role = .owner)
    (ha : u.active = true) : Owned t := by
  refine ⟨o, u, hu, hr, ha, ?_, fun k v hk hv => ?_⟩
  · by_contra he
    exact (hc.2 o u hu).1 ⟨by simpa using he, by simp [hr]⟩
  · exact Finset.card_le_one.mp hc.1 k (Table.mem_sat.mpr ⟨v, hk, by simp [hv]⟩) o
      (Table.mem_sat.mpr ⟨u, hu, by simp [hr]⟩)

theorem Owned.onRow {f : User → User} (h : Owned t) (hc : Constraints (onRow id f t))
    (hf : ∀ u ∈ t.get id, u.role = .owner → (f u).role = .owner ∧ (u.active = true → (f u).active = true)) :
    Owned (onRow id f t) := by
  obtain ⟨o, u, hu, hr, ha, -, -⟩ := h
  by_cases ho : o = id
  · subst ho
    obtain ⟨hr', ha'⟩ := hf u hu hr
    exact owned_of_constraints hc (o := o) (u := f u) (by simp [Accounts.onRow, hu]) hr' (ha' ha)
  · exact owned_of_constraints hc (o := o) (u := u) (by simp [Accounts.onRow, hu, ho]) hr ha

theorem Change.apply_role (u : User) (c : Change) :
    (c.apply u).role = u.role ∧ (c.apply u).active = u.active := by
  cases c <;> exact ⟨rfl, rfl⟩

theorem Owned.write (h : Owned w.users) (hg : guarded w (.write s) = true) (hw : w.write s = some w') :
    Owned w'.users := by
  cases s with
  | changeRole id admin =>
    obtain ⟨-, hc, he, -⟩ := committed hw
    rw [he]
    exact h.onRow hc fun u hu hr => absurd hr (of_decide_eq_true hg u hu)
  | setActive id active =>
    obtain ⟨-, hc, he, -⟩ := committed hw
    rw [he]
    cases active with
    | false => exact h.onRow hc fun u hu hr => absurd hr (of_decide_eq_true hg u hu)
    | true => exact h.onRow hc fun u _ hr => ⟨hr, fun _ => rfl⟩
  | delete id =>
    obtain ⟨-, hc, he, -⟩ := committed hw
    obtain ⟨o, u, hu, hr, ha, -, -⟩ := h
    have ho : o ≠ id := by
      rintro rfl
      exact of_decide_eq_true hg u hu hr
    rw [he]
    exact owned_of_constraints hc (o := o) (by rw [remove, Table.get_erase_ne _ ho, hu]) hr ha
  | transfer source target =>
    obtain ⟨hrows, hc, he, -⟩ := committed hw
    obtain ⟨v, hv⟩ := Option.isSome_iff_exists.mp (Bool.and_eq_true_iff.mp hrows).2
    have hget : (swap source target w.users).get target =
        some (setRole .owner (if target = source then setRole .admin v else v)) := by
      simp [swap, Accounts.onRow, hv]
    rw [he]
    refine owned_of_constraints hc hget rfl ?_
    have ha := of_decide_eq_true hg v hv
    split_ifs <;> exact ha
  | updateQuota id quota | updateUsage id used =>
    obtain ⟨-, hc, he, -⟩ := committed hw
    rw [he]
    exact h.onRow hc fun u _ hr => ⟨hr, fun ha => ha⟩
  | updateUser id copy change =>
    obtain ⟨-, hc, he, -⟩ := committed hw
    rw [he]
    refine h.onRow hc fun u hu hr => ?_
    obtain ⟨hrole, hactive⟩ := of_decide_eq_true hg u hu
    rw [(change.apply_role copy).1, (change.apply_role copy).2, hrole]
    exact ⟨hr, fun _ => hactive hr⟩

def row (role : Role) (name : ℕ) : User :=
  ⟨role, true, false, false, some name, some 0, 0, 0, none, none, none, true⟩

/-- An owner, a user and an admin. -/
def staff : Table ℕ User :=
  ((Table.empty.set 0 (row .owner 0)).set 1 (row .user 1)).set 2 (row .admin 2)

theorem staff_owned : Owned staff :=
  owned_of_constraints (t := staff) (o := 0) (u := row .owner 0) (by decide +kernel) rfl rfl rfl

/-- A copy is written back over the row it was read from. -/
def fresh (w : World) : Op → Bool
  | .write (.updateUser id copy _) => ∀ u ∈ w.users.get id, u = copy
  | _ => true

theorem meant_write (h : w.users = w.meant) (hf : fresh w (.write s) = true) (hw : w.write s = some w') :
    w'.users = w'.meant := by
  cases s with
  | updateUser id copy change =>
    obtain ⟨-, -, he, hm⟩ := committed hw
    rw [he, hm, ← h]
    ext1 k
    rcases hk : w.users.get k with _ | u
    · simp [onRow, hk]
    · by_cases hid : k = id
      · subst hid
        simp [onRow, hk, of_decide_eq_true hf u hk]
      · simp [onRow, hk, hid]
  | _ =>
    obtain ⟨-, -, he, hm⟩ := committed hw
    rw [he, hm, h]

end OxiCloud.Auth.Accounts
