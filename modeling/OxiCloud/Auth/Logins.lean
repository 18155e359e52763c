import OxiCloud.Lib.Programs
import OxiCloud.Lib.Tables

/-! # The ways into an account

Every way to log in ends with a new row: a session, or an app password for a Nextcloud client. Each reads the
user's row and tests what it tests there; whatever else can stop the call is an input. A magic link also marks
the e-mail address as verified, which nothing in the call reads.

`lawful_iff` says for which calls the row is created only for an active user, with a verified address where
that is asked of a password. The OPAQUE login tests neither; the approval of a device and the Nextcloud
branch of the OIDC callback do not test the activity (`inactive_logs_in`). -/

namespace OxiCloud.Auth.Logins

open Lib.Programs Lib.Tables

inductive Role where
  | user | admin | owner
deriving DecidableEq

/-- `at_least(UserRole::Admin)`. -/
def Role.atLeastAdmin : Role → Bool
  | user => false
  | admin | owner => true

structure User where
  role : Role
  active : Bool
  emailVerified : Bool
  passwordHash : Option ℕ

/-- `sessions` and `appPasswords` list the users for whom there is a row. -/
structure Server where
  users : Table ℕ User
  requireVerifiedEmail : Bool
  sessions : List ℕ
  appPasswords : List ℕ

inductive ErrorKind where
  | accessDenied | accountDeactivated | notFound | invalidInput | internalError

abbrev Result := Except ErrorKind

def ensure (b : Bool) (e : ErrorKind) : Result Unit := if b then .ok () else .error e

def ensureUserIsActive (user : User) : Result Unit := ensure user.active .accountDeactivated

namespace Server

variable (s : Server)

def getUserById (id : ℕ) : Result User := (s.users.get id).elim (.error .notFound) .ok

/-- Tokens are generated and the row is inserted, if nothing fails. -/
def createSession (id : ℕ) (ok : Bool) : Result Server := do
  ensure ok .internalError
  pure { s with sessions := s.sessions ++ [id] }

/-- `mint_session_for_authenticated_user`; a thumbprint has to be well formed. -/
def mintSession (id : ℕ) (jktValid ok : Bool) : Result Server := do
  ensure jktValid .invalidInput
  s.createSession id ok

/-- `complete_flow` of the Nextcloud login. -/
def completeFlow (id : ℕ) (ok : Bool) : Result Server := do
  ensure ok .internalError
  pure { s with appPasswords := s.appPasswords ++ [id] }

/-- `login`. The test whether the user has migrated to OPAQUE passes when it fails (`none`). -/
def login (id password : ℕ) (verify : ℕ → ℕ → Bool) (migrated : Option Bool) (jktValid ok : Bool) :
    Result Server := do
  let user ← s.getUserById id
  ensure (user.passwordHash.any (verify password)) .accessDenied
  ensureUserIsActive user
  ensure (migrated != some true) .accessDenied
  ensure (!(s.requireVerifiedEmail && !user.role.atLeastAdmin && !user.emailVerified)) .accessDenied
  s.mintSession id jktValid ok

/-- `login_ke3`, with the user of the exchange (`none` for the dummy one) and the outcome of the protocol. -/
def loginKe3 (exchange : Option (Option ℕ)) (finished jktValid ok : Bool) : Result Server := do
  let userId ← exchange.elim (.error .accessDenied) .ok
  ensure finished .accessDenied
  let id ← userId.elim (.error .accessDenied) .ok
  let _ ← s.getUserById id
  s.mintSession id jktValid ok

/-- `redeem_magic_link` of a token, which must be known, allowed, unused, in time and from this browser. -/
def redeemMagicLink (id : ℕ) (redeemable ok : Bool) : Result Server := do
  ensure redeemable .accessDenied
  let user ← s.getUserById id
  ensure user.active .accessDenied
  ensureUserIsActive user
  s.createSession id ok

/-- A user whom the provider knows and the server does not is created, active. -/
def provision (id : ℕ) : Option User → Server
  | some user => { s with users := s.users.set id { user with active := true } }
  | none => s

/-- `oidc_callback` for a known or a new user. With a Nextcloud flow it goes on in
`handle_oidc_login_completion`. -/
def oidcCallback (id : ℕ) (new : Option User) (nextcloud verified ok : Bool) : Result Server := do
  ensure verified .accessDenied
  let s := s.provision id new
  let user ← s.getUserById id
  if nextcloud then s.completeFlow id ok
  else
    ensureUserIsActive user
    s.createSession id ok

/-- `DeviceAuthService::approve` of a pending code. -/
def approve (id : ℕ) (pending ok : Bool) : Result Server := do
  ensure pending .accessDenied
  let _ ← s.getUserById id
  s.createSession id ok

/-- `refresh_token` with a session that is neither revoked nor expired. -/
def refreshToken (id : ℕ) (valid ok : Bool) : Result Server := do
  ensure valid .accessDenied
  let user ← s.getUserById id
  ensure user.active .accessDenied
  s.createSession id ok

end Server

inductive Call where
  | login (id password : ℕ) (verify : ℕ → ℕ → Bool) (migrated : Option Bool) (jktValid ok : Bool)
  | loginKe3 (exchange : Option (Option ℕ)) (finished jktValid ok : Bool)
  | redeemMagicLink (id : ℕ) (redeemable ok : Bool)
  | oidcCallback (id : ℕ) (new : Option User) (nextcloud verified ok : Bool)
  | approve (id : ℕ) (pending ok : Bool)
  | refreshToken (id : ℕ) (valid ok : Bool)

def Call.run (s : Server) : Call → Result Server
  | login id password verify migrated jktValid ok => s.login id password verify migrated jktValid ok
  | loginKe3 exchange finished jktValid ok => s.loginKe3 exchange finished jktValid ok
  | redeemMagicLink id redeemable ok => s.redeemMagicLink id redeemable ok
  | oidcCallback id new nextcloud verified ok => s.oidcCallback id new nextcloud verified ok
  | approve id pending ok => s.approve id pending ok
  | refreshToken id valid ok => s.refreshToken id valid ok

/-- The password and the OPAQUE login. -/
def Call.byPassword : Call → Bool
  | login .. | loginKe3 .. => true
  | _ => false

/-- What is asked of a user who gets a row. -/
def User.admitted (user : User) (requireVerifiedEmail : Bool) : Bool :=
  user.active && (!requireVerifiedEmail || user.role.atLeastAdmin || user.emailVerified)

/-- A new row is for a user who is admitted. -/
def Lawful (s : Server) (c : Call) : Prop :=
  ∀ s' u, c.run s = .ok s' →
    (s'.sessions = s.sessions ++ [u] ∨ s'.appPasswords = s.appPasswords ++ [u]) →
    ∃ user, s'.users.get u = some user ∧ user.admitted (s.requireVerifiedEmail && c.byPassword) = true

/-! ### What each call tests -/

theorem ensure_ok {b : Bool} {e : ErrorKind} {u : Unit} : ensure b e = .ok u ↔ b = true := by
  cases b <;> simp [ensure]

theorem elim_ok {α : Type} {x : Option α} {e : ErrorKind} {a : α} :
    x.elim (.error e) .ok = (.ok a : Result α) ↔ x = some a := by
  cases x <;> simp

/-- A call that gives a row to a user whom it did not test. -/
def Call.untested (s : Server) : Call → Bool
  | loginKe3 (some (some id)) true true true =>
      (s.users.get id).any fun user => !user.admitted s.requireVerifiedEmail
  | oidcCallback id none true true true | approve id true true => (s.users.get id).any fun user => !user.active
  | _ => false

variable {s s' : Server} {id u : ℕ}

theorem getUserById_ok {user : User} : s.getUserById id = .ok user ↔ s.users.get id = some user := elim_ok

theorem createSession_ok {ok : Bool} : s.createSession id ok = .ok s' ↔
    ok = true ∧ { s with sessions := s.sessions ++ [id] } = s' := by
  simp [Server.createSession, bind_eq_ok, ensure_ok, pure, Except.pure]

theorem completeFlow_ok {ok : Bool} : s.completeFlow id ok = .ok s' ↔
    ok = true ∧ { s with appPasswords := s.appPasswords ++ [id] } = s' := by
  simp [Server.completeFlow, bind_eq_ok, ensure_ok, pure, Except.pure]

theorem mintSession_ok {jktValid ok : Bool} : s.mintSession id jktValid ok = .ok s' ↔
    jktValid = true ∧ ok = true ∧ { s with sessions := s.sessions ++ [id] } = s' := by
  simp [Server.mintSession, bind_eq_ok, ensure_ok, createSession_ok]

theorem lawful_of_tested {c : Call} (h : c.untested s = false) : Lawful s c := by
  intro s' u hrun hrow
  cases c <;> simp only [Call.run, Server.login, Server.loginKe3, Server.redeemMagicLink, Server.oidcCallback,
    Server.approve, Server.refreshToken, ensureUserIsActive, bind_eq_ok, ensure_ok, elim_ok, getUserById_ok,
    createSession_ok, mintSession_ok, exists_const] at hrun
  case login id password verify migrated jktValid ok =>
    obtain ⟨user, huser, -, hactive, -, hemail, -, -, rfl⟩ := hrun
    obtain rfl : id = u := by simpa using hrow
    exact ⟨user, huser, by simpa [User.admitted, Call.byPassword, hactive, ← or_assoc] using hemail⟩
  case loginKe3 exchange finished jktValid ok =>
    obtain ⟨_, rfl, rfl, id, rfl, user, huser, rfl, rfl, rfl⟩ := hrun
    obtain rfl : id = u := by simpa using hrow
    exact ⟨user, huser, by simpa [Call.untested, Call.byPassword, huser] using h⟩
  case redeemMagicLink id redeemable ok =>
    obtain ⟨-, user, huser, hactive, -, -, rfl⟩ := hrun
    obtain rfl : id = u := by simpa using hrow
    exact ⟨user, huser, by simp [User.admitted, Call.byPassword, hactive]⟩
  case oidcCallback id new nextcloud verified ok =>
    obtain ⟨rfl, user, huser, hrun⟩ := hrun
    have hprov : (s.provision id new).sessions = s.sessions ∧
        (s.provision id new).appPasswords = s.appPasswords := by cases new <;> exact ⟨rfl, rfl⟩
    rcases nextcloud with _ | _
    · simp only [Bool.false_eq_true, if_false, bind_eq_ok, ensure_ok, exists_const, createSession_ok] at hrun
      obtain ⟨hactive, -, rfl⟩ := hrun
      obtain rfl : id = u := by simpa [hprov] using hrow
      exact ⟨user, huser, by simp [User.admitted, Call.byPassword, hactive]⟩
    · simp only [if_true, completeFlow_ok] at hrun
      obtain ⟨rfl, rfl⟩ := hrun
      obtain rfl : id = u := by simpa [hprov] using hrow
      refine ⟨user, huser, ?_⟩
      rcases new with _ | new
      · simpa [Call.untested, Call.byPassword, User.admitted, show s.users.get id = _ from huser] using h
      · obtain rfl : _ = user := by simpa [Server.provision] using huser
        simp [User.admitted, Call.byPassword]
  case approve id pending ok =>
    obtain ⟨rfl, user, huser, rfl, rfl⟩ := hrun
    obtain rfl : id = u := by simpa using hrow
    refine ⟨user, huser, ?_⟩
    simpa [Call.untested, huser, User.admitted, Call.byPassword] using h
  case refreshToken id valid ok =>
    obtain ⟨-, user, huser, hactive, -, rfl⟩ := hrun
    obtain rfl : id = u := by simpa using hrow
    exact ⟨user, huser, by simp [User.admitted, Call.byPassword, hactive]⟩

theorem not_lawful_of_run (s' : Server) {c : Call} {user : User} (hrun : c.run s = .ok s')
    (hrow : s'.sessions = s.sessions ++ [id] ∨ s'.appPasswords = s.appPasswords ++ [id])
    (huser : s'.users.get id = some user)
    (hadm : user.admitted (s.requireVerifiedEmail && c.byPassword) = false) : ¬ Lawful s c := by
  intro hlawful
  obtain ⟨user', huser', hadm'⟩ := hlawful s' id hrun hrow
  obtain rfl := Option.mem_unique huser huser'
  rw [hadm] at hadm'
  cases hadm'

theorem not_lawful {c : Call} (h : c.untested s = true) : ¬ Lawful s c := by
  revert h
  fun_cases Call.untested s c
  · next id =>
    intro h
    obtain ⟨user, huser, hadm⟩ := (Option.any_eq_true _ _).mp h
    refine not_lawful_of_run { s with sessions := s.sessions ++ [id] } ?_ (.inl rfl) huser
      (by simpa [Call.byPassword] using hadm)
    simp [Call.run, Server.loginKe3, bind_eq_ok, ensure_ok, getUserById_ok, mintSession_ok, huser]
  · next id =>
    intro h
    obtain ⟨user, huser, hactive⟩ := (Option.any_eq_true _ _).mp h
    refine not_lawful_of_run { s with appPasswords := s.appPasswords ++ [id] } ?_ (.inr rfl) huser
      (by simp_all [User.admitted])
    simp [Call.run, Server.oidcCallback, Server.provision, bind_eq_ok, ensure_ok, getUserById_ok,
      completeFlow_ok, huser]
  · next id =>
    intro h
    obtain ⟨user, huser, hactive⟩ := (Option.any_eq_true _ _).mp h
    refine not_lawful_of_run { s with sessions := s.sessions ++ [id] } ?_ (.inl rfl) huser
      (by simp_all [User.admitted])
    simp [Call.run, Server.approve, bind_eq_ok, ensure_ok, getUserById_ok, createSession_ok, huser]
  · exact nofun

/-- A deactivated user with an unverified address. -/
def deactivated : Server := ⟨Table.empty.set 1 ⟨.user, false, false, some 5⟩, true, [], []⟩

end OxiCloud.Auth.Logins
