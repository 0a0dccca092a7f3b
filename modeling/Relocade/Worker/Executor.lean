import Mathlib.Logic.Function.Basic
import Relocade.Run

/-!
# `Worker.Executor` — polling and parking a worker's root future

One step of the machine is one atomic operation of `run_until`, of `yield_now` or of a wake; wakes run on any threads, so
their steps fall anywhere between the others.
-/

namespace Relocade.Worker

/-! ## States -/

/-- The next operation of `run_until`; `ready` says that the root future has completed. -/
inductive Stage where
  | idle
  | clearRunnable
  | clearNotified
  | pollStop
  | pollRoot
  | acknowledge (ready : Bool)
  | checkNotified (ready : Bool)
  | requestInterrupt (ready : Bool)
  | checkRunnable (ready : Bool)
  | parkCheck
  | parkRegister
  | parkRecheck
  /-- The park is pending. -/
  | parked
  | release
  deriving DecidableEq, Repr

/-- The next operation of a wake. -/
inductive WakeStage where
  | unused
  | notify
  | request
  | mark
  | unpark
  | done
  deriving DecidableEq, Repr

/-- A call of `wake_by_ref`. The polls begun at its first step and at its mark are noted. -/
structure Wake where
  interrupting : Bool
  stage : WakeStage
  firstAt : Option Nat
  markedAt : Option Nat
  deriving DecidableEq, Repr

/-- The shared flags, and where the executor and its wakes are. -/
structure State where
  runnable : Bool
  notified : Bool
  interrupt : Bool
  /-- `parked` holds the outer task's waker. -/
  registered : Bool
  /-- The outer task was woken after its last poll began. -/
  woken : Bool
  /-- `YIELDING` names this executor, and what enclosing scopes restore. -/
  yielding : Bool
  scopes : List Bool
  stage : Stage
  /-- Root polls begun, and which of them was the last to complete. -/
  begun : Nat
  complete : Nat
  wakes : Nat → Wake

def Wake.unused : Wake := ⟨false, .unused, none, none⟩

/-- No run is active, and no wake has been called. -/
def State.start (interrupt : Bool) : State where
  runnable := false
  notified := false
  interrupt := interrupt
  registered := false
  woken := false
  yielding := false
  scopes := []
  stage := .idle
  begun := 0
  complete := 0
  wakes _ := .unused

/-! ## Operations -/

/-- The next operation of `run_until`. A poll gives what its future says; the others have one outcome. -/
def advance (s : State) (ready : Bool) : Option State :=
  match s.stage with
  | .idle => none
  | .clearRunnable => some { s with runnable := false, stage := .clearNotified }
  | .clearNotified => some { s with notified := false, stage := .pollStop, begun := s.begun + 1 }
  | .pollStop => some { s with stage := if ready then .idle else .pollRoot }
  | .pollRoot => some { s with stage := .acknowledge ready, complete := s.begun }
  | .acknowledge ready => some { s with interrupt := false, stage := .checkNotified ready }
  | .checkNotified ready =>
      some { s with stage := if s.notified then .requestInterrupt ready else .checkRunnable ready }
  | .requestInterrupt ready => some { s with interrupt := true, stage := .checkRunnable ready }
  | .checkRunnable ready =>
      some { s with stage := if ready then .idle else if s.runnable then .clearRunnable else .parkCheck }
  | .parkCheck => some { s with stage := if s.runnable then .release else .parkRegister }
  | .parkRegister => some { s with registered := true, stage := .parkRecheck }
  | .parkRecheck => some { s with stage := if s.runnable then .release else .parked }
  | .parked => none
  | .release => some { s with registered := false, stage := .clearRunnable }

def State.setWake (s : State) (i : Nat) (wake : Wake) : State := { s with wakes := Function.update s.wakes i wake }

/-- The next operation of a wake. Waking the parked task takes its waker. -/
def wakeNext (s : State) (i : Nat) : Option State :=
  let wake := s.wakes i
  match wake.stage with
  | .unused => none
  | .notify => some { s.setWake i { wake with stage := .request, firstAt := some s.begun } with notified := true }
  | .request => some { s.setWake i { wake with stage := .mark } with interrupt := true }
  | .mark => some { s.setWake i { wake with stage := .unpark, markedAt := some s.begun } with runnable := true }
  | .unpark => some { s.setWake i { wake with stage := .done } with registered := false, woken := s.woken || s.registered }
  | .done => none

/-- Entering `wake_by_ref`. On the executor's thread the first wake of a yield is not an interrupting one. -/
def call (s : State) (i : Nat) (owner : Bool) : Option State :=
  match (s.wakes i).stage with
  | .unused =>
      if owner && s.yielding then some { s.setWake i ⟨false, .mark, none, none⟩ with yielding := false }
      else some (s.setWake i ⟨true, .notify, none, none⟩)
  | _ => none

/-- What happens in a run. -/
inductive Action where
  /-- `run_until` is called. -/
  | run
  | advance (ready : Bool)
  /-- The outer executor polls the parked task. -/
  | repoll
  /-- The pending run is dropped. -/
  | cancel
  | enterYield
  | leaveYield
  | call (wake : Nat) (owner : Bool)
  | wake (wake : Nat)

/-- One atomic step of the executor, a wake or a scope. -/
def next (s : State) : Action → Option State
  | .run => if s.stage = .idle then some { s with woken := false, stage := .clearRunnable } else none
  | .advance ready => advance s ready
  | .repoll => if s.stage = .parked then some { s with woken := false, stage := .parkCheck } else none
  | .cancel => if s.stage = .parked then some { s with registered := false, stage := .idle } else none
  | .enterYield => some { s with yielding := true, scopes := s.yielding :: s.scopes }
  | .leaveYield =>
      match s.scopes with
      | saved :: scopes => some { s with yielding := saved, scopes := scopes }
      | [] => none
  | .call i owner => call s i owner
  | .wake i => wakeNext s i

/-- One action; one that is not possible changes nothing. -/
def step (s : State) (action : Action) : State := (next s action).getD s

end Relocade.Worker
