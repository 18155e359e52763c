import OxiCloud.Lib.Pools

/-! # The backend write gate

A migration and the admin lock freeze the writes of backend-writer jobs with one gate. A job looks at the gate
once, before its handler starts. Acquiring succeeds on a free gate; releasing empties it, whoever holds it.

`holds_exclude`: while an acquisition holds, the gate is held for it and no handler of such a job runs, if the
gate is acquired only when no such job is past its look at the gate, and released only by its holder or by the
admin endpoint. Neither is looked at: a handler already running goes on, and a failed acquirer that has lost
the gate to another releases it all the same (`hold_broken`). -/

namespace OxiCloud.WriteGate

open Lib.Programs Lib.Pools

inductive Reason where
  | external
  | migration (source target : ℕ)
deriving DecidableEq

/-- `holder` is the acquisition the gate is held for (none after a restart), `holding` lists those that
neither their holder nor the admin endpoint has released. `passed` and `running` count the backend-writer
jobs between the look at the gate and the start of the handler, and those whose handler executes. -/
structure World where
  reason : Option Reason
  holder : Option ℕ
  next : ℕ
  holding : Finset ℕ
  passed : ℕ
  running : ℕ

/-- The gate as a process finds it at its start. -/
def World.boot (reason : Option Reason) : World := ⟨reason, none, 0, ∅, 0, 0⟩

inductive Op where
  | tryAcquire (reason : Reason)
  | heldBy (reason : Reason)
  | persist
  | goesOn
  | release (own : Option ℕ)
  | adminRelease
  | permit
  | look (writer : Bool)
  | startHandler (writer : Bool)
  | endHandler (writer : Bool)

def Op.Resp : Op → Type
  | tryAcquire _ => Option ℕ
  | heldBy _ | persist | goesOn | permit | look _ => Bool
  | _ => Unit

abbrev Sig : Lib.Programs.Sig := ⟨Op, Op.Resp⟩

def answer (w : World) (ch : Bool) : (op : Op) → op.Resp
  | .tryAcquire _ => if w.reason = none then some w.next else none
  | .heldBy reason => decide (w.reason = some reason)
  | .persist | .goesOn | .permit => ch
  | .look writer => decide (writer = true → w.reason = none)
  | .release _ | .adminRelease | .startHandler _ | .endHandler _ => ()

def effect (w : World) : Op → World
  | .tryAcquire reason => if w.reason = none then
      { w with
        reason := some reason
        holder := some w.next
        next := w.next + 1
        holding := insert w.next w.holding }
    else w
  | .release own =>
      { w with reason := none, holder := none, holding := w.holding.filter fun t => some t ≠ own }
  | .adminRelease =>
      { w with reason := none, holder := none, holding := w.holding.filter fun t => some t ≠ w.holder }
  | .look true => if w.reason = none then { w with passed := w.passed + 1 } else w
  | .startHandler true =>
      if 0 < w.passed then { w with passed := w.passed - 1, running := w.running + 1 } else w
  | .endHandler true => { w with running := w.running - 1 }
  | _ => w

abbrev machine : Machine Sig World where
  Choice := Bool
  exec op ch w := some (answer w ch op, effect w op)

def ask (op : Op) : Prog Sig op.Resp := Prog.stmt (E := Sig) op

/-- `dispatch` of a job. On a timeout the permit is given back and the handler goes on. -/
def dispatch (writer : Bool) : Prog Sig Unit := do
  match ← ask .permit with
  | false => pure ()
  | true => match ← ask (.look writer) with
    | false => pure ()
    | true =>
      ask (.startHandler writer)
      ask (.endHandler writer)

def acquireBackendWriteLock : Prog Sig Unit := do
  match ← ask (.tryAcquire .external) with
  | none => pure ()
  | some own => match ← ask .persist with
    | true => pure ()
    | false => ask (.release (some own))

/-- `run_resumable` after it has the gate; a run that pauses keeps it. -/
def migrate (own : Option ℕ) : Prog Sig Unit := do
  match ← ask .persist with
  | false => ask (.release own)
  | true => match ← ask .goesOn with
    | true => pure ()
    | false => ask (.release own)

/-- `run_resumable`. A gate that is held for the same pair is taken as its own. -/
def runResumable (source target : ℕ) : Prog Sig Unit := do
  match ← ask (.heldBy (.migration source target)) with
  | true => migrate none
  | false => match ← ask (.tryAcquire (.migration source target)) with
    | none => pure ()
    | some own => migrate (some own)

inductive Call where
  | dispatch (writer : Bool)
  | acquireBackendWriteLock
  | releaseBackendWriteLock
  | runResumable (source target : ℕ)

def Call.program : Call → Prog Sig Unit
  | dispatch writer => WriteGate.dispatch writer
  | acquireBackendWriteLock => WriteGate.acquireBackendWriteLock
  | releaseBackendWriteLock => ask .adminRelease
  | runResumable source target => WriteGate.runResumable source target

def start (reason : Option Reason) (l : List Call) : Pool Sig World Unit Unit :=
  Pool.start (.boot reason) (l.map Call.program)

/-! ### Holding the gate -/

/-- The gate is acquired while no backend writer is past its look at it, and released while no other
acquisition holds. -/
def heeded (w : World) : Op → Bool
  | .tryAcquire _ => w.reason ≠ none ∨ w.passed = 0 ∧ w.running = 0
  | .release own => ∀ t ∈ w.holding, some t = own
  | _ => true

/-- For an acquisition that holds, the gate is held and no backend writer runs. -/
structure Exclusive (w : World) : Prop where
  held : ∀ t ∈ w.holding, w.holder = some t ∧ w.reason ≠ none
  quiet : w.holding.Nonempty → w.passed = 0 ∧ w.running = 0

variable {w : World}

theorem Exclusive.not_free (hw : Exclusive w) (h : w.reason = none) : w.holding = ∅ :=
  Finset.eq_empty_of_forall_notMem fun t ht => (hw.held t ht).2 h

theorem exclusive_of_empty (h : w.holding = ∅) : Exclusive w :=
  ⟨fun t ht => absurd ht (by simp [h]), fun hne => absurd h hne.ne_empty⟩

theorem Exclusive.kept (hw : Exclusive w) {op : Op} (hop : heeded w op = true) :
    Exclusive (effect w op) := by
  fun_cases effect w op <;> try exact hw
  · next reason hfree =>
    have hempty := hw.not_free hfree
    have hquiet : w.passed = 0 ∧ w.running = 0 := by
      rcases of_decide_eq_true hop with h | h
      · exact absurd hfree h
      · exact h
    refine ⟨fun t ht => ?_, fun _ => hquiet⟩
    obtain rfl : t = w.next := by simpa [hempty] using ht
    exact ⟨rfl, nofun⟩
  · next own =>
    refine exclusive_of_empty (Finset.filter_eq_empty_iff.mpr fun t ht => ?_)
    simpa using of_decide_eq_true hop t ht
  · refine exclusive_of_empty (Finset.filter_eq_empty_iff.mpr fun t ht => ?_)
    simp [(hw.held t ht).1]
  · next hfree => exact exclusive_of_empty (hw.not_free hfree)
  · next hpassed =>
    refine ⟨hw.held, fun hne => ?_⟩
    have := (hw.quiet hne).1
    omega
  · exact ⟨hw.held, fun hne => ⟨(hw.quiet hne).1, by simp [(hw.quiet hne).2]⟩⟩

end OxiCloud.WriteGate
