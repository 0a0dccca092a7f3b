import Relocade.Runtime.Calls

/-!
# `Runtime.Execution` — the driver that alternates guest execution with polling retained host calls

The bodies of `Cpu::run` and of what it calls, over the requests of `Runtime.Calls`. The driver's loop and the loop of
`run_guest` are blocks: `drive` is one iteration of the former, `runGuest` one test of the latter, and `outside` the
time between two polls of the run future.
-/

namespace Relocade.Runtime

open Interaction Code

/-! ## Polling calls -/

/-- What a poll leaves: the call is completed or still there, or its handler panicked and the call unwound. -/
def settle (call : Call) (polled : Polled) : Driver (Option Call) := do
  match polled.acts.foldlM (handlerAct call) (← get) with
  | none => do
      modify fun s => s.drop call
      panic
  | some s => do
      modify fun _ => s
      if polled.ready then
        modify fun s => s.complete call
        return none
      else
        return some call

/-- `Call::poll`. -/
def Call.poll (call : Call) : Driver (Option Call) := do
  let polled ← ask (.poll call)
  settle call polled

/-- `Call::start` of the handler registered for a service. -/
def Call.start (serviceId : BitVec 32) : Driver (Option Call) := do
  let registered ← ask (.handler serviceId)
  if registered then
    let call := (← get).started
    modify fun s => { s with started := s.started + 1 }
    let polled ← ask (.start serviceId call)
    settle call polled
  else panic

/-! ## Interrupts -/

/-- `Cpu::poll_irq`. -/
def pollIrq : Driver (Option (BitVec 8)) := do
  let cpu ← ask .irqState
  if cpu.ioEmpty || !cpu.real16 || !cpu.interruptsEnabled then
    return none
  else
    let (interrupt, effects) ← ask .pollInterrupt
    modify fun s => s.observe effects
    match interrupt with
    | .ready vector => return some vector
    | .pending => return none

/-- `dispatch.enter_interrupt`. -/
def enterInterrupt (vector : BitVec 8) (returned : Option Sender) : Driver ExecutionExit := do
  let (entered, effects) ← ask (.enterInterrupt vector returned)
  modify fun s => s.observe effects
  return entered

/-- The active call is parked below nothing: it becomes the top of the stack. -/
def park (returned : Option Sender) (s : State) : State :=
  match s.pending with
  | some call => { s with pending := none, suspended := ⟨call, returned⟩ :: s.suspended }
  | none => s

/-- The entry of the interrupt that was found, and what follows it. -/
def deliver (invocation : Option Request) (vector : BitVec 8) : Driver (Except ExecutionExit Bool) := do
  let entered ← enterInterrupt vector (invocation.map Request.returned)
  match (← get).exit with
  | some exit => return .error exit
  | none =>
      if entered = .interruptEntered then
        modify (park (invocation.map Request.returned))
        return .ok true
      else
        -- an entry fault leaves the caller waiting, to be retried from the same boundary
        match invocation with
        | none => return .error entered
        | some call =>
            match put (← get) call with
            | some s => do
                modify fun _ => s
                return .error entered
            | none => panic

/-- `Cpu::try_deliver_interrupt`. -/
def tryDeliverInterrupt : Driver (Except ExecutionExit Bool) := do
  match (← get).exit with
  | some exit => return .error exit
  | none => do
      let invocation ← takeInterrupt
      let interrupt ← match invocation with
        | some call => pure (some call.vector)
        | none => pollIrq
      match (← get).exit with
      | some exit => return .error exit
      | none =>
          match interrupt with
          | none => return .ok false
          | some vector => deliver invocation vector

/-! ## The stack of parked calls -/

/-- `Cpu::resume_call`. -/
def resumeCall : Driver (Except ExecutionExit (Option Call)) := do
  match (← get).suspended with
  | [] => return .error (.host .resume)
  | parked :: rest => do
      modify fun s => { s with suspended := rest }
      modify fun s => s.signal parked.returned
      let call ← Call.poll parked.call
      return .ok call

/-- Drops a call and runs its destructors. -/
def dropCall (call : Call) : Driver Unit := do
  modify fun s => s.drop call
  let effects ← ask (.drop call)
  modify fun s => s.observe effects

/-- Pops and drops the parked calls, innermost first. -/
def popAll : List SuspendedCall → Driver Unit
  | [] => return ()
  | parked :: rest => do
      modify fun s => { s with suspended := rest }
      dropCall parked.call
      popAll rest

/-- `Cpu::abandon_suspended_calls`. -/
def abandonSuspendedCalls : Driver Unit := do
  popAll (← get).suspended

/-- `self.pending.take()` for its destructors. -/
def dropPending : Driver Unit := do
  match (← get).pending with
  | none => return ()
  | some call => do
      modify State.takePending
      dropCall call

/-! ## The driver -/

/-- Where the driver goes on. -/
inductive Point
  | outside (result : Option (Poll ExecutionExit))
  | drive
  | guest (exit : ExecutionExit)

/-- The end of `Cpu::run`: an exit that ends execution releases what is retained and consumes the exit requests made
    until then. -/
def finish (exit : ExecutionExit) : Driver Point := do
  if exit.releases then
    dropPending
    abandonSuspendedCalls
    modify fun s => { s with exit := none }
    return .outside (some (.ready exit))
  else
    return .outside (some (.ready exit))

/-- The start of a poll of `Cpu::run`, which polls the active call once. -/
def pollRun : Driver Point := do
  match (← get).exit with
  | some exit => finish exit
  | none =>
      match (← get).pending with
      | none => return .drive
      | some call => do
          modify State.takePending
          let pending ← Call.poll call
          modify fun s => s.setPending pending
          return .drive

/-- One iteration of the loop of `Cpu::run`, up to the dispatch of guest code. -/
def drive : Driver Point := do
  match ← tryDeliverInterrupt with
  | .error exit => finish exit
  | .ok interruptDelivered => do
      if !interruptDelivered && (← get).pending.isSome then
        return .outside (some .pending)
      else
        let (exit, effects) ← ask .dispatch
        modify fun s => s.observe effects
        return .guest exit

/-- What `Cpu::run` does with a guest exit; an exit request goes first. -/
def guestExited (exit : ExecutionExit) : Driver Point := do
  match (← get).exit with
  | some _ => return .drive
  | none =>
      match exit with
      | .host (.call serviceId) => do
          let pending ← Call.start serviceId
          modify fun s => s.setPending pending
          return .drive
      | .host .resume => do
          match ← resumeCall with
          | .ok pending => do
              modify fun s => s.setPending pending
              return .drive
          | .error exit => finish exit
      | .stepComplete => return .drive
      | .interruptsEnabled => return .drive
      | .interruptEntered => return .drive
      | exit => finish exit

/-- The loop of `Cpu::run_guest`: steps the successors of an instruction that inhibits interrupts. -/
def runGuest (exit : ExecutionExit) : Driver Point := do
  if exit = .interruptInhibited ∧ (← get).exit = none then
    let (exit, effects) ← ask .step
    modify fun s => s.observe effects
    return .guest exit
  else
    guestExited exit

/-- The embedding, between two polls. -/
def outside (result : Option (Poll ExecutionExit)) : Driver Point := do
  match ← ask (.outside result) with
  | .poll => pollRun
  | .replaceWaiter => return .outside none
  | .requestExit requested => do
      modify fun s => s.requestExit requested
      return .outside none
  | .abandonSuspendedCalls => do
      abandonSuspendedCalls
      return .outside none
  | .drop => do
      dropPending
      abandonSuspendedCalls
      nomatch ← ask .dropped

/-- The driver's blocks. -/
def blocks : Point → Driver Point
  | .outside result => outside result
  | .drive => drive
  | .guest exit => runGuest exit

/-- A session over a new CPU. -/
def session : Prog State Action Reply Point := .done .new (.outside none)

end Relocade.Runtime
