import OxiCloud.Lib.Tables

/-! # Passwords that were replaced

One password of a user is kept twice, as a hash and as an OPAQUE envelope. `change_password` replaces the hash
and leaves the envelope to a later `register_finish` of the client. `admin_reset_password` replaces the hash,
then clears the envelope, and succeeds also if the clearing fails. An exchange that `login_ke1` has opened keeps
the envelope it read until `login_ke3` takes it.

`refused_iff`: after either call has succeeded, the old password is refused until it is set again, whatever is
called, exactly if neither the envelope nor an open exchange is left with it. `change_password` never clears
them (`replaced_accepted`). The calls follow one another; hashes and envelopes are identified with the
passwords they are made from. -/

namespace OxiCloud.Auth.Passwords

open Lib.Tables

/-- The columns of a user's row, and the exchanges open for that user with the envelope they read. -/
structure State where
  passwordHash : Option ℕ
  envelope : Option ℕ
  migrated : Bool
  exchanges : Table ℕ (Option ℕ)

inductive Call where
  | login (password : ℕ)
  | loginKe1 (id : ℕ)
  | loginKe3 (id password : ℕ)
  | expire (id : ℕ)
  | registerFinish (password : ℕ)
  | changePassword (current new : ℕ)
  | adminResetPassword (new : ℕ)
  | upgradeToInternal (password : Option ℕ)
  | opaqueReset

/-- Whether the checks and statements up to the write succeed, those after it, and the one whose failure is
logged and ignored. -/
structure Choice where
  before : Bool := true
  after : Bool := true
  ignored : Bool := true

namespace State

variable (s : State) (ch : Choice)

/-- The password that a call stores. -/
def written : Call → Option ℕ
  | .registerFinish password => if ch.before then some password else none
  | .changePassword current new =>
      if ch.before = true ∧ s.passwordHash = some current ∧ new ≠ current then some new else none
  | .adminResetPassword new => if ch.before then some new else none
  | .upgradeToInternal password => if ch.before then password else none
  | _ => none

def setHash (password : Option ℕ) : State := { s with passwordHash := password <|> s.passwordHash }

def clearRegistration : State := { s with envelope := none, migrated := false }

/-- The state after a call, and whether it succeeded. -/
def call (c : Call) : State × Bool :=
  match c with
  -- a failing `is_migrated` lets the login through
  | .login password =>
      (s, ch.before && s.passwordHash == some password && !(ch.ignored && s.migrated) && ch.after)
  -- a failing `read_registration` is taken for a missing envelope
  | .loginKe1 id => ({ s with exchanges := s.exchanges.set id (if ch.ignored then s.envelope else none) }, true)
  | .loginKe3 id password =>
      let finished := s.exchanges.get id = some (some password) ∧ ch.before = true ∧ ch.after = true
      ({ s with exchanges := s.exchanges.erase id, migrated := s.migrated || finished && ch.ignored }, finished)
  | .expire id => ({ s with exchanges := s.exchanges.erase id }, true)
  | .registerFinish _ => ({ s with envelope := s.written ch c <|> s.envelope }, ch.before)
  | .changePassword _ _ => (s.setHash (s.written ch c), (s.written ch c).isSome && ch.after)
  | .adminResetPassword _ =>
      let reset := s.setHash (s.written ch c)
      (if ch.before && ch.ignored then reset.clearRegistration else reset, ch.before && ch.after)
  | .upgradeToInternal _ => (s.setHash (s.written ch c), ch.before && ch.after)
  | .opaqueReset => (if ch.before then s.clearRegistration else s, ch.before)

end State

/-- The calls by which a password is presented to log in. -/
def Call.presents (p : ℕ) : Call → Prop
  | login password | loginKe3 _ password => password = p
  | _ => False

/-- The calls that replace `p`. -/
def Call.replaces (p : ℕ) : Call → Prop
  | changePassword current _ => current = p
  | adminResetPassword new => new ≠ p
  | _ => False

/-- Any number of calls that do not store `p`. -/
def Later (p : ℕ) : State → State → Prop :=
  Relation.ReflTransGen fun s s' => ∃ ch c, s.written ch c ≠ some p ∧ (s.call ch c).1 = s'

/-- No login that presents `p` succeeds until `p` is set again. -/
def Refused (p : ℕ) (s : State) : Prop :=
  ∀ s', Later p s s' → ∀ ch c, c.presents p → (s'.call ch c).2 = false

/-- Nothing is left of the password `p`. -/
structure Gone (p : ℕ) (s : State) : Prop where
  hash : s.passwordHash ≠ some p
  envelope : s.envelope ≠ some p
  exchanges : ∀ id, s.exchanges.get id ≠ some (some p)

variable {s s' : State} {ch : Choice} {c : Call} {p : ℕ} {q : Option ℕ}

theorem orElse_ne {o : Option ℕ} (hq : q ≠ some p) (ho : o ≠ some p) : (q <|> o) ≠ some p := by
  cases q <;> assumption

theorem Gone.setHash (h : Gone p s) (hq : q ≠ some p) : Gone p (s.setHash q) :=
  { h with hash := orElse_ne hq h.hash }

theorem Gone.clearRegistration (h : Gone p s) : Gone p s.clearRegistration := { h with envelope := nofun }

theorem Gone.erase (h : Gone p s) (id : ℕ) (b : Bool) :
    Gone p { s with exchanges := s.exchanges.erase id, migrated := b } := by
  refine { h with exchanges := fun k => ?_ }
  rw [Table.get_erase]
  split_ifs
  · nofun
  · exact h.exchanges k

theorem Gone.call (h : Gone p s) (hw : s.written ch c ≠ some p) : Gone p (s.call ch c).1 := by
  cases c with
  | login password => exact h
  | loginKe1 id =>
    refine { h with exchanges := fun k => ?_ }
    simp only [State.call, Table.get_set]
    split_ifs
    · simpa using h.envelope
    · simp
    · exact h.exchanges k
  | loginKe3 id password | expire id => exact h.erase id _
  | registerFinish password => exact { h with envelope := orElse_ne hw h.envelope }
  | changePassword current new | upgradeToInternal password => exact h.setHash hw
  | adminResetPassword new =>
    simp only [State.call]
    split_ifs
    · exact (h.setHash hw).clearRegistration
    · exact h.setHash hw
  | opaqueReset =>
    simp only [State.call]
    split_ifs
    · exact h.clearRegistration
    · exact h

theorem Gone.later (h : Gone p s) (hl : Later p s s') : Gone p s' := by
  induction hl with
  | refl => exact h
  | tail _ hs ih =>
    obtain ⟨ch, c, hw, rfl⟩ := hs
    exact ih.call hw

/-- What is left of a password lets a login succeed. -/
theorem refused_iff_gone : Refused p s ↔ Gone p s := by
  constructor
  · intro h
    refine ⟨fun hh => ?_, fun he => ?_, fun id hx => ?_⟩
    · have := h s .refl { ignored := false } (.login p) rfl
      simp [State.call, hh] at this
    · have hl : Later p s (s.call {} (.loginKe1 0)).1 := .single ⟨{}, .loginKe1 0, nofun, rfl⟩
      have := h _ hl {} (.loginKe3 0 p) rfl
      simp [State.call, he] at this
    · have := h s .refl {} (.loginKe3 id p) rfl
      simp [State.call, hx] at this
  · intro h s' hl ch c hc
    have hg := h.later hl
    cases c with
    | login password => cases hc; simp [State.call, hg.hash]
    | loginKe3 id password => cases hc; simp [State.call, hg.exchanges id]
    | _ => cases hc

theorem gone_setHash {new : ℕ} (hn : new ≠ p) :
    Gone p (s.setHash (some new)) ↔ s.envelope ≠ some p ∧ ∀ id, s.exchanges.get id ≠ some (some p) :=
  ⟨fun h => ⟨h.envelope, h.exchanges⟩, fun ⟨he, hx⟩ => ⟨by simpa [State.setHash] using hn, he, hx⟩⟩

/-- **When a password that was replaced is refused**: the envelope must not hold it, unless an administrator's
reset cleared it, and no exchange may be open with it. -/
theorem refused_iff (hc : c.replaces p) (h : (s.call ch c).2 = true) :
    Refused p (s.call ch c).1 ↔
      (s.envelope = some p → (∃ new, c = .adminResetPassword new) ∧ ch.ignored = true) ∧
        ∀ id, s.exchanges.get id ≠ some (some p) := by
  rw [refused_iff_gone]
  cases c with
  | changePassword current new =>
    obtain rfl : current = p := hc
    obtain ⟨hs, -⟩ := Bool.and_eq_true_iff.mp h
    obtain ⟨q, hq⟩ := Option.isSome_iff_exists.mp hs
    have hne : q ≠ current := by
      simp only [State.written] at hq
      split_ifs at hq with hw
      exact Option.some.inj hq ▸ hw.2.2
    simp [State.call, hq, gone_setHash hne]
  | adminResetPassword new =>
    obtain ⟨hb, -⟩ := Bool.and_eq_true_iff.mp h
    have hg := gone_setHash (s := s) hc
    rcases hi : ch.ignored with _ | _
    · simp [State.call, State.written, hb, hi, hg]
    · refine (iff_of_eq ?_).trans ((gone_setHash (s := s.clearRegistration) hc).trans ?_)
      · simp [State.call, State.written, hb, hi, State.setHash, State.clearRegistration]
      · simp [State.clearRegistration]
  | _ => cases hc

/-- A user with both records of the password `0`. -/
def user : State := ⟨some 0, some 0, false, .empty⟩

theorem refused_reset : Refused 0 (user.call {} (.adminResetPassword 1)).1 :=
  (refused_iff (c := .adminResetPassword 1) Nat.one_ne_zero rfl).mpr ⟨fun _ => ⟨⟨1, rfl⟩, rfl⟩, nofun⟩

/-- **A password that was replaced still logs in** by OPAQUE: after `change_password`, and after a reset by an
administrator that could not clear the envelope. -/
theorem replaced_accepted : ((user.call {} (.loginKe1 0)).1.call {} (.loginKe3 0 0)).2 = true ∧
    ∀ x ∈ [(({} : Choice), Call.changePassword 0 1), ({ ignored := false }, .adminResetPassword 1)],
      x.2.replaces 0 ∧ (user.call x.1 x.2).2 = true ∧
        (((user.call x.1 x.2).1.call {} (.loginKe1 0)).1.call {} (.loginKe3 0 0)).2 = true := by
  refine ⟨by decide +kernel, fun x hx => ?_⟩
  rcases List.mem_pair.mp hx with rfl | rfl
  · exact ⟨rfl, rfl, by decide +kernel⟩
  · exact ⟨Nat.one_ne_zero, rfl, by decide +kernel⟩

end OxiCloud.Auth.Passwords
