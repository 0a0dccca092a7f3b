import Relocade.Interaction

/-!
# `Runtime.Calls` — host calls, the places that hold them, and what the driver asks of its surroundings

A host call is one started invocation of a service. The CPU's owner of calls is the active slot and the stack of parked
ones; a request for a guest interrupt made by a handler waits in a slot of its own, with the sender that its caller
awaits. Everything the driver runs that is not its own code (guest dispatch, the poll of a handler's future, a device
callback, a destructor, the embedding between two polls) is a request whose reply is arbitrary: every reply can carry
exit requests, and a handler's poll can also request interrupts.
-/

namespace Relocade.Runtime

open Interaction

/-! ## Exits -/

/-- A fault at its restart boundary. -/
inductive Exception
  | divideError
  | boundRangeExceeded
  | invalidOpcode
  | segmentNotPresent (errorCode : BitVec 32)
  | stackFault (errorCode : BitVec 32)
  | generalProtection (errorCode : BitVec 32)
  | pageFault (linearAddress errorCode : BitVec 32)
  | floatingPoint
  | simdFloatingPoint
  deriving DecidableEq

/-- Host control flow carried by an execution exit. -/
inductive HostExit
  | «return»
  | call (serviceId : BitVec 32)
  | resume
  deriving DecidableEq

/-- A return from a generated execution entry. -/
inductive ExecutionExit
  | host (exit : HostExit)
  | exception (exception : Exception)
  | unsupportedInstruction (eip : BitVec 32) (opcode : BitVec 8)
  | interruptEntered
  | interruptInhibited
  | interrupted
  | stepComplete
  | interruptsEnabled
  | unhandledException (exception : Exception)
  deriving DecidableEq

/-- The exits at whose return `run` releases what it retains. -/
def ExecutionExit.releases : ExecutionExit → Bool
  | host .return => true
  | unhandledException _ => true
  | _ => false

/-- `ExitHandle::request` and `ExitHandle::request_unhandled_exception`. -/
inductive ExitRequest
  | request
  | requestUnhandledException (exception : Exception)
  deriving DecidableEq

/-- The exit a request stores. -/
def ExitRequest.exit : ExitRequest → ExecutionExit
  | request => .host .return
  | requestUnhandledException exception => .unhandledException exception

@[simp] theorem ExitRequest.releases_exit (requested : ExitRequest) : requested.exit.releases = true := by
  cases requested <;> rfl

/-- The result of polling. -/
inductive Poll (α : Type)
  | ready (value : α)
  | pending
  deriving DecidableEq

/-! ## Calls and who holds them -/

/-- A started host call, numbered in the order of starting. -/
abbrev Call := Nat

/-- The sending half of the channel on which a call awaits the return of an interrupt it requested. -/
structure Sender where
  call : Call
  channel : Nat
  deriving DecidableEq

/-- An interrupt requested by a handler. -/
structure Request where
  vector : BitVec 8
  returned : Sender

/-- A call parked during guest interrupt execution, with the sender of the interrupt it requested, if it did. -/
structure SuspendedCall where
  call : Call
  returned : Option Sender

/-- The driver's two owners of calls (`suspended` with the most recently parked call first), and the record of calls
    started, completed and dropped and of completions signalled. -/
structure Calls where
  pending : Option Call
  suspended : List SuspendedCall
  started : Nat
  completed : List Call
  dropped : List Call
  signalled : List Sender

/-- The driver's state: the calls, the interrupt request slot, the exit cell, and the channels made and those whose
    receiver is gone. -/
structure State extends Calls where
  interruptCalls : Option Request
  exit : Option ExecutionExit
  channels : Nat
  canceled : List Sender

/-- A new CPU. -/
def State.new : State where
  pending := none
  suspended := []
  started := 0
  completed := []
  dropped := []
  signalled := []
  interruptCalls := none
  exit := none
  channels := 0
  canceled := []

namespace State

variable (s : State)

/-- `self.pending = call`, which drops a call that is there. -/
def setPending (call : Option Call) : State :=
  { s with pending := call, dropped := s.pending.toList ++ s.dropped }

/-- The call is moved out of the active slot. -/
def takePending : State := { s with pending := none }

/-- A call ran to its end. -/
def complete (call : Call) : State := { s with completed := call :: s.completed }

/-- A call is dropped. -/
def drop (call : Call) : State := { s with dropped := call :: s.dropped }

/-- `returned.send(())`. -/
def signal (returned : Option Sender) : State := { s with signalled := returned.toList ++ s.signalled }

/-- `ExitHandle`'s store to the exit cell. -/
def requestExit (requested : ExitRequest) : State := { s with exit := some requested.exit }

end State

/-! ## Requests and replies -/

/-- What code outside the driver did while the driver waited for it: the last exit it requested, and the channels whose
    receiver it dropped. -/
structure Effects where
  exit : Option ExitRequest
  canceled : List Sender

/-- What the embedding does between two polls. A waiter holds no state of the driver's, so replacing one does nothing;
    `drop` drops the CPU. -/
inductive Embedding
  | poll
  | replaceWaiter
  | requestExit (requested : ExitRequest)
  | abandonSuspendedCalls
  | drop

/-- What a handler can do to the driver while it is polled. -/
inductive HandlerAct
  | requestExit (requested : ExitRequest)
  | callInterrupt (vector : BitVec 8)
  | cancel (returned : Sender)

/-- A poll of a handler's future: what it did, in order, and whether it ran to its end. -/
structure Polled where
  acts : List HandlerAct
  ready : Bool

/-- What `poll_irq` reads before it polls the devices. -/
structure IrqState where
  ioEmpty : Bool
  real16 : Bool
  interruptsEnabled : Bool

/-- What the driver asks for. `outside` hands the result of a poll of `run`, if there is one to hand out, to the
    embedding; `enter` tells whose return the entered interrupt answers, if a handler requested it. -/
inductive Action
  | outside (result : Option (Poll ExecutionExit))
  | poll (call : Call)
  | handler (serviceId : BitVec 32)
  | start (serviceId : BitVec 32) (call : Call)
  | drop (call : Call)
  | irqState
  | pollInterrupt
  | enterInterrupt (vector : BitVec 8) (returned : Option Sender)
  | dispatch
  | step
  | panic
  | dropped

/-- The replies to each request. A panic and the end of a CPU have none. -/
abbrev Reply : Action → Type
  | .outside _ => Embedding
  | .poll _ => Polled
  | .handler _ => Bool
  | .start _ _ => Polled
  | .drop _ => Effects
  | .irqState => IrqState
  | .pollInterrupt => Poll (BitVec 8) × Effects
  | .enterInterrupt _ _ => ExecutionExit × Effects
  | .dispatch => ExecutionExit × Effects
  | .step => ExecutionExit × Effects
  | .panic => Empty
  | .dropped => Empty

/-- Driver code. -/
abbrev Driver := Code State Action Reply

/-- Asks the surroundings. -/
def ask (a : Action) : Driver (Reply a) := Code.perform a

/-- Takes the effects of code outside the driver. -/
def State.observe (s : State) (effects : Effects) : State :=
  { s with
    exit := (effects.exit.map ExitRequest.exit).or s.exit
    canceled := effects.canceled ++ s.canceled }

/-- The program stops with a panic. -/
def panic {α : Type} : Driver α := do
  nomatch ← ask .panic

/-! ## The interrupt request slot -/

/-- `InterruptCalls::put`: replaces a request only when its caller is gone. -/
def put (s : State) (request : Request) : Option State :=
  if s.interruptCalls.all fun call => decide (call.returned ∈ s.canceled) then
    some { s with interruptCalls := some request }
  else none

theorem put_eq_some {s s' : State} {req : Request} (h : put s req = some s') :
    s' = { s with interruptCalls := some req } := by
  unfold put at h
  split at h
  next => exact (Option.some.inj h).symm
  next => cases h

theorem put_of_empty {s : State} {req : Request} (h : s.interruptCalls = none) :
    put s req = some { s with interruptCalls := some req } := by
  unfold put
  rw [h]
  rfl

/-- One act of a handler in a poll of its call; `InterruptCalls::call` makes a channel and puts the request. -/
def handlerAct (call : Call) (s : State) : HandlerAct → Option State
  | .requestExit requested => some (s.requestExit requested)
  | .callInterrupt vector => put { s with channels := s.channels + 1 } ⟨vector, ⟨call, s.channels⟩⟩
  | .cancel returned => some { s with canceled := returned :: s.canceled }

/-- `InterruptCalls::take`: a request whose caller is gone is discarded. -/
def takeInterrupt : Driver (Option Request) := do
  let s ← Code.get
  Code.modify fun s => { s with interruptCalls := none }
  return s.interruptCalls.filter fun call => decide (call.returned ∉ s.canceled)

end Relocade.Runtime
