import Relocade.Runtime.Execution
import Mathlib.Data.List.Nodup
import Mathlib.Data.List.Perm.Basic
import Mathlib.Data.List.Range

/-!
# `Runtime.Suspended` — suspended host calls form a strict stack

Between two requests of the driver the calls move in few ways (`Moves`): nothing moves, a call is started, the active
call is parked on top of the stack, the top of the stack becomes active, or the top of the stack is dropped. `At` says
what holds of the driver's state since the last reply; each function keeps it, and `Discipline` is what it gives at
every request.
-/

namespace Relocade.Runtime

open Interaction Code

/-- An answered request. -/
abbrev Answered := Event State Action Reply

/-- The call in use at a request: the one being polled, or the pending one. -/
def active (s : State) : Action → Option Call
  | .poll call => some call
  | .start _ call => some call
  | _ => s.pending

/-- The exit with which a reply leaves the guest. -/
def guestExit : Answered → Option ExecutionExit
  | ⟨_, .dispatch, reply⟩ => some reply.1
  | ⟨_, .step, reply⟩ => some reply.1
  | _ => none

/-- The entry of an interrupt that a reply completes: whose return it answers. -/
def entry : Answered → Option (Option Sender)
  | ⟨_, .enterInterrupt _ returned, reply⟩ => if reply.1 = .interruptEntered then some returned else none
  | _ => none

/-- The vector of a device interrupt that a reply carries. -/
def deviceVector : Answered → Option (BitVec 8)
  | ⟨_, .pollInterrupt, reply⟩ =>
      match reply.1 with
      | .ready vector => some vector
      | .pending => none
  | _ => none

/-! ## What holds at every request -/

/-- Every started call is in one place, the interrupt slot belongs to the active call, and a parked call waits for an
    interrupt of its own, if for any. -/
structure Holding (s : State) (now : Option Call) : Prop where
  places : (now.toList ++ s.suspended.map SuspendedCall.call ++ s.completed ++ s.dropped).Perm (List.range s.started)
  requested : ∀ request, s.interruptCalls = some request → ∀ call, now = some call → request.returned.call = call
  returned : ∀ parked ∈ s.suspended, ∀ returned, parked.returned = some returned → returned.call = parked.call
  exits : ∀ exit, s.exit = some exit → exit.releases = true

/-- Since a reply no call was started, parked, resumed or dropped from the stack. -/
structure Kept (e : Answered) (s : State) (now : Option Call) : Prop where
  suspended : s.suspended = e.state.suspended
  signalled : s.signalled = e.state.signalled
  active : ∀ call, now = some call → active e.state e.action = some call
  completed : e.state.completed <:+ s.completed
  dropped : e.state.dropped <:+ s.dropped

/-- How the calls moved between a reply and the next request. -/
inductive Moves (e : Answered) (s : State) (now : Option Call) : Prop
  | kept (h : Kept e s now)
  | started (h : s.toCalls = { e.state.toCalls with started := e.state.started + 1 }) (hnow : now = some e.state.started)
  | parked (call : Call) (returned : Option Sender) (hentry : entry e = some returned)
      (hactive : active e.state e.action = some call) (hreturned : ∀ sender, returned = some sender → sender.call = call)
      (h : s.toCalls = { e.state.toCalls with pending := none, suspended := ⟨call, returned⟩ :: e.state.suspended })
      (hnow : now = none)
  | resumed (parked : SuspendedCall) (hexit : guestExit e = some (.host .resume))
      (hactive : active e.state e.action = none) (hsuspended : e.state.suspended = parked :: s.suspended)
      (h : s.toCalls = { e.state.toCalls with
        suspended := s.suspended, signalled := parked.returned.toList ++ e.state.signalled })
      (hnow : now = some parked.call)
  | released (parked : SuspendedCall) (hsuspended : e.state.suspended = parked :: s.suspended)
      (hsignalled : s.signalled = e.state.signalled)
      (hactive : ∀ call, now = some call → active e.state e.action = some call)
      (hcompleted : e.state.completed <:+ s.completed) (hdropped : e.state.dropped <:+ s.dropped)
      (hcall : parked.call ∈ s.dropped)

/-- A result keeps the calls that the driver held at the last reply. -/
def Keeps (last : Option Answered) (s : State) : Prop :=
  ∃ e, last = some e ∧ s.toCalls = e.state.toCalls ∧ active e.state e.action = s.pending

/-- What a request needs beyond the places of the calls. -/
def Allowed (last : Option Answered) (s : State) : Action → Prop
  | .poll call => s.pending = none ∧ ∃ e, last = some e ∧
      (active e.state e.action = some call ∨
        ∃ parked, parked.call = call ∧ e.state.suspended = parked :: s.suspended ∧ guestExit e = some (.host .resume))
  | .start _ call => s.pending = none ∧ s.started = call + 1
  | .dispatch => s.exit = none ∧ s.pending = none
  | .step => s.exit = none ∧ s.pending = none
  | .outside (some (.ready exit)) =>
      (exit.releases = true → s.pending = none ∧ s.suspended = [] ∧ s.exit = none) ∧
        (exit.releases = false → Keeps last s)
  | .outside (some .pending) => Keeps last s
  | .enterInterrupt vector none => ∃ e, last = some e ∧ deviceVector e = some vector
  | .enterInterrupt _ (some returned) => returned ∉ s.canceled ∧ ∀ call, s.pending = some call → returned.call = call
  | _ => True

/-- What holds at a request. -/
structure Discipline (last : Option Answered) (s : State) (a : Action) : Prop where
  holding : Holding s (active s a)
  moves : ∀ e, last = some e → Moves e s (active s a)
  allowed : Allowed last s a

/-- What holds of the state since the last reply, while nothing moved. -/
structure At (last : Option Answered) (s : State) (now : Option Call) : Prop where
  holding : Holding s now
  kept : ∀ e, last = some e → Kept e s now

variable {last : Option Answered} {s s' : State} {now : Option Call} {call : Call}

/-! ## What keeps it -/

variable {a : Action}

theorem At.discipline (h : At last s s.pending) (hactive : active s a = s.pending)
    (hallow : Allowed last s a) : Discipline last s a where
  holding := by rw [hactive]; exact h.holding
  moves := by
    intro e he
    rw [hactive]
    exact .kept (h.kept e he)
  allowed := hallow

/-- A reply moves nothing. -/
theorem Holding.replied (h : Holding s (active s a)) (r : Reply a) : At (some ⟨s, a, r⟩) s (active s a) where
  holding := h
  kept := by
    rintro e ⟨⟩
    exact ⟨rfl, rfl, fun _ h => h, List.suffix_refl _, List.suffix_refl _⟩

/-- The calls and the slot stay, and what is stored to the exit cell ends execution. -/
theorem At.of_toCalls (h : At last s now) (hcalls : s'.toCalls = s.toCalls)
    (hslot : ∀ request, s'.interruptCalls = some request →
      s.interruptCalls = some request ∨ ∀ call, now = some call → request.returned.call = call)
    (hexit : ∀ exit, s'.exit = some exit → exit.releases = true) : At last s' now where
  holding := by
    refine ⟨?_, ?_, ?_, hexit⟩
    · rw [show s'.suspended = s.suspended from congrArg Calls.suspended hcalls,
        show s'.completed = s.completed from congrArg Calls.completed hcalls,
        show s'.dropped = s.dropped from congrArg Calls.dropped hcalls,
        show s'.started = s.started from congrArg Calls.started hcalls]
      exact h.holding.places
    · intro request hreq
      rcases hslot request hreq with hold | hnew
      · exact h.holding.requested request hold
      · exact hnew
    · rw [show s'.suspended = s.suspended from congrArg Calls.suspended hcalls]
      exact h.holding.returned
  kept := by
    intro e he
    obtain ⟨h1, h2, h3, h4, h5⟩ := h.kept e he
    refine ⟨?_, ?_, h3, ?_, ?_⟩
    · exact (congrArg Calls.suspended hcalls).trans h1
    · exact (congrArg Calls.signalled hcalls).trans h2
    · rw [show s'.completed = s.completed from congrArg Calls.completed hcalls]
      exact h4
    · rw [show s'.dropped = s.dropped from congrArg Calls.dropped hcalls]
      exact h5

theorem State.observe_exit (h : ∀ exit, s.exit = some exit → exit.releases = true) (effects : Effects)
    (exit : ExecutionExit) (hexit : (s.observe effects).exit = some exit) : exit.releases = true := by
  unfold State.observe at hexit
  cases hreq : effects.exit with
  | none => exact h exit (by simpa [hreq] using hexit)
  | some requested =>
    obtain rfl : requested.exit = exit := by simpa [hreq] using hexit
    exact requested.releases_exit

theorem At.observe (h : At last s now) (effects : Effects) : At last (s.observe effects) now :=
  h.of_toCalls rfl (fun _ hreq => Or.inl hreq) (State.observe_exit h.holding.exits effects)

/-- An act of the active call's handler. -/
theorem At.handlerAct (h : At last s (some call)) (act : HandlerAct) (hact : handlerAct call s act = some s') :
    At last s' (some call) ∧ s'.toCalls = s.toCalls := by
  cases act with
  | requestExit requested =>
    obtain rfl := Option.some.inj hact
    refine ⟨h.of_toCalls rfl (fun _ hreq => Or.inl hreq) ?_, rfl⟩
    intro exit hexit
    obtain rfl := Option.some.inj hexit
    exact requested.releases_exit
  | cancel returned =>
    obtain rfl := Option.some.inj hact
    exact ⟨h.of_toCalls rfl (fun _ hreq => Or.inl hreq) h.holding.exits, rfl⟩
  | callInterrupt vector =>
    obtain rfl := put_eq_some hact
    refine ⟨h.of_toCalls rfl ?_ h.holding.exits, rfl⟩
    intro request hreq
    obtain rfl := Option.some.inj hreq
    exact Or.inr fun _ heq => Option.some.inj heq

theorem At.handlerActs (h : At last s (some call)) (acts : List HandlerAct)
    (hacts : acts.foldlM (Runtime.handlerAct call) s = some s') : At last s' (some call) ∧ s'.toCalls = s.toCalls := by
  induction acts generalizing s with
  | nil =>
    obtain rfl := Option.some.inj hacts
    exact ⟨h, rfl⟩
  | cons act acts ih =>
    obtain ⟨mid, hact, hrest⟩ := Option.bind_eq_some_iff.mp hacts
    obtain ⟨hmid, hcalls⟩ := h.handlerAct act hact
    obtain ⟨hend, hcalls'⟩ := ih hmid hrest
    exact ⟨hend, hcalls'.trans hcalls⟩

/-- The active call leaves for the completed ones. -/
theorem At.complete (h : At last s (some call)) : At last (s.complete call) none where
  holding := by
    refine ⟨?_, nofun, h.holding.returned, h.holding.exits⟩
    refine List.Perm.trans ?_ h.holding.places
    simp only [Option.toList_none, List.nil_append, State.complete, Option.toList_some, List.append_assoc,
      List.cons_append]
    exact List.perm_middle
  kept := by
    intro e he
    obtain ⟨h1, h2, -, h4, h5⟩ := h.kept e he
    exact ⟨h1, h2, nofun, h4.trans (List.suffix_cons _ _), h5⟩

/-- The active call leaves for the dropped ones. -/
theorem At.drop (h : At last s (some call)) : At last (s.drop call) none where
  holding := by
    refine ⟨?_, nofun, h.holding.returned, h.holding.exits⟩
    refine List.Perm.trans ?_ h.holding.places
    simp only [Option.toList_none, List.nil_append, State.drop, Option.toList_some, List.cons_append]
    exact List.perm_middle
  kept := by
    intro e he
    obtain ⟨h1, h2, -, h4, h5⟩ := h.kept e he
    exact ⟨h1, h2, nofun, h4, h5.trans (List.suffix_cons _ _)⟩

theorem At.takePending (h : At last s now) : At last s.takePending now :=
  ⟨⟨h.holding.places, h.holding.requested, h.holding.returned, h.holding.exits⟩,
    fun e he => ⟨(h.kept e he).suspended, (h.kept e he).signalled, (h.kept e he).active, (h.kept e he).completed,
      (h.kept e he).dropped⟩⟩

theorem At.setPending (h : At last s now) (hpend : s.pending = none) : At last (s.setPending now) now := by
  have hdropped : (s.setPending now).dropped = s.dropped := by simp [State.setPending, hpend]
  refine ⟨⟨?_, h.holding.requested, h.holding.returned, h.holding.exits⟩, ?_⟩
  · rw [hdropped]
    exact h.holding.places
  · intro e he
    obtain ⟨h1, h2, h3, h4, h5⟩ := h.kept e he
    refine ⟨h1, h2, h3, h4, ?_⟩
    rw [hdropped]
    exact h5

/-! ## One lemma per function -/

theorem safe_ask (a : Action) {Q : Option Answered → State → Reply a → Prop} :
    Safe Discipline Q last (ask a) s ↔ Discipline last s a ∧ ∀ r, Q (some ⟨s, a, r⟩) s r :=
  safe_perform a

/-- Where the exit cell is checked before going on. -/
theorem safe_checkExit {α : Type} {Q : Option Answered → State → α → Prop} {f : ExecutionExit → Driver α}
    {code : Driver α} (hsome : ∀ exit, s.exit = some exit → Safe Discipline Q last (f exit) s)
    (hnone : s.exit = none → Safe Discipline Q last code s) :
    Safe Discipline Q last
      (get >>= fun s =>
        match s.exit with
        | some exit => f exit
        | none => code) s := by
  rw [safe_bind, safe_get]
  cases hexit : s.exit with
  | some exit => exact hsome exit hexit
  | none => exact hnone hexit

theorem safe_panic {α : Type} {Q : Option Answered → State → α → Prop} (h : At last s s.pending) :
    Safe Discipline Q last (panic : Driver α) s :=
  ⟨h.discipline rfl trivial, nofun⟩

variable {Q : Option Answered → State → Option Call → Prop}

theorem safe_settle (h : At last s (some call))
    (hpend : s.pending = none) (polled : Polled)
    (hQ : ∀ s' now, At last s' now → s'.pending = none → Q last s' now) :
    Safe Discipline Q last (settle call polled) s := by
  unfold settle
  rw [safe_bind, safe_get]
  cases hacts : polled.acts.foldlM (Runtime.handlerAct call) s with
  | none =>
    rw [safe_bind, safe_modify]
    refine safe_panic ?_
    rw [show (s.drop call).pending = none from hpend]
    exact h.drop
  | some mid =>
    obtain ⟨hmid, hcalls⟩ := h.handlerActs polled.acts hacts
    have hnone : mid.pending = none := (congrArg Calls.pending hcalls).trans hpend
    rw [safe_bind, safe_modify]
    split
    next =>
      rw [safe_bind, safe_modify, safe_pure]
      exact hQ _ _ hmid.complete hnone
    next =>
      rw [safe_pure]
      exact hQ _ _ hmid hnone

theorem safe_poll (h : Discipline last s (.poll call))
    (hQ : ∀ last s' now, At last s' now → s'.pending = none → Q last s' now) :
    Safe Discipline Q last (Call.poll call) s := by
  unfold Call.poll
  rw [safe_bind, safe_ask]
  refine ⟨h, fun polled => ?_⟩
  exact safe_settle (h.holding.replied polled) h.allowed.1 polled fun s' now => hQ _ s' now

/-- A call that is being started takes the next number. -/
theorem Holding.start (h : Holding s none) (hslot : s.interruptCalls = none) :
    Holding { s with started := s.started + 1 } (some s.started) := by
  refine ⟨?_, ?_, h.returned, h.exits⟩
  · rw [List.range_succ]
    exact ((h.places.cons s.started).trans (List.perm_append_singleton s.started _).symm)
  · intro request hreq
    rw [hslot] at hreq
    cases hreq

theorem safe_start (h : At last s none) (hpend : s.pending = none)
    (hslot : s.interruptCalls = none) (serviceId : BitVec 32)
    (hQ : ∀ last s' now, At last s' now → s'.pending = none → Q last s' now) :
    Safe Discipline Q last (Call.start serviceId) s := by
  have hidle : At last s s.pending := by rw [hpend]; exact h
  unfold Call.start
  rw [safe_bind, safe_ask]
  refine ⟨hidle.discipline rfl trivial, fun registered => ?_⟩
  have hreplied : At (some ⟨s, .handler serviceId, registered⟩) s s.pending := hidle.holding.replied registered
  split
  next =>
    rw [safe_bind, safe_get, safe_bind, safe_modify, safe_bind, safe_ask]
    have hst : Discipline (some ⟨s, .handler serviceId, registered⟩) { s with started := s.started + 1 }
        (.start serviceId s.started) :=
      ⟨h.holding.start hslot, (by rintro e ⟨⟩; exact .started rfl rfl), hpend, rfl⟩
    refine ⟨hst, fun polled => ?_⟩
    exact safe_settle (hst.holding.replied polled) hpend polled fun s' now => hQ _ s' now
  next => exact safe_panic hreplied

/-- After `poll_irq` the calls are where they were, and a vector came from a device. -/
theorem safe_pollIrq {Q : Option Answered → State → Option (BitVec 8) → Prop} (h : At last s s.pending)
    (hQ : ∀ e s' interrupt, At (some e) s' s'.pending → s'.interruptCalls = s.interruptCalls → Keeps (some e) s' →
      (∀ vector, interrupt = some vector → deviceVector e = some vector) → Q (some e) s' interrupt) :
    Safe Discipline Q last pollIrq s := by
  unfold pollIrq
  rw [safe_bind, safe_ask]
  refine ⟨h.discipline rfl trivial, fun cpu => ?_⟩
  have hcpu : At (some ⟨s, .irqState, cpu⟩) s s.pending := h.holding.replied cpu
  split
  next =>
    rw [safe_pure]
    exact hQ _ _ _ hcpu rfl ⟨_, rfl, rfl, rfl⟩ nofun
  next =>
    rw [safe_bind, safe_ask]
    refine ⟨hcpu.discipline rfl trivial, fun reply => ?_⟩
    have hreply : At (some ⟨s, .pollInterrupt, reply⟩) s s.pending := h.holding.replied reply
    obtain ⟨interrupt, effects⟩ := reply
    have hobs := hreply.observe effects
    dsimp only
    rw [safe_bind, safe_modify]
    cases interrupt with
    | ready vector => exact hQ _ _ _ hobs rfl ⟨_, rfl, rfl, rfl⟩ (fun _ hsome => hsome)
    | pending => exact hQ _ _ _ hobs rfl ⟨_, rfl, rfl, rfl⟩ nofun

variable (returned : Option Sender)

/-- An interrupt's entry parks the active call on top of the stack. -/
theorem Holding.park (h : Holding s s.pending)
    (hreturned : ∀ sender, returned = some sender → ∀ call, s.pending = some call → sender.call = call) :
    Holding (Runtime.park returned s) (Runtime.park returned s).pending := by
  unfold Runtime.park
  split
  next call hcall =>
    refine ⟨?_, nofun, ?_, h.exits⟩
    · have hplaces := h.places
      rw [hcall] at hplaces
      exact hplaces
    · intro parked hparked sender hsender
      rcases List.mem_cons.mp hparked with rfl | hold
      · exact hreturned sender hsender call hcall
      · exact h.returned parked hold sender hsender
  next => exact h

@[simp] theorem park_pending (s : State) : (Runtime.park returned s).pending = none := by
  unfold Runtime.park
  split
  next => rfl
  next hnone => exact hnone

@[simp] theorem park_exit (s : State) : (Runtime.park returned s).exit = s.exit := by
  unfold Runtime.park
  split <;> rfl

@[simp] theorem park_interruptCalls (s : State) : (Runtime.park returned s).interruptCalls = s.interruptCalls := by
  unfold Runtime.park
  split <;> rfl

variable {e : Answered}

/-- The entry of an interrupt moves the active call to the top of the stack, if there is one. -/
theorem moves_park {returned : Option Sender} (h : Kept e s s.pending) (hent : entry e = some returned)
    (hcalls : s.toCalls = e.state.toCalls) (hactive : active e.state e.action = s.pending)
    (hreturned : ∀ sender, returned = some sender → ∀ call, s.pending = some call → sender.call = call) :
    Moves e (Runtime.park returned s) (Runtime.park returned s).pending := by
  unfold Runtime.park
  split
  next call hcall =>
    refine .parked call returned hent (hactive.trans hcall) (fun sender hs => hreturned sender hs call hcall) ?_ rfl
    rw [← hcalls]
  next => exact .kept h

/-- What an attempt to deliver an interrupt leaves: an exit to return, or the calls as they were at the last reply, or
    with the active call parked by the entry that completed. -/
def Delivered (last : Option Answered) (s : State) : Except ExecutionExit Bool → Prop
  | .error exit => At last s s.pending ∧ (exit.releases = false → Keeps last s)
  | .ok delivered => Holding s s.pending ∧ (∀ e, last = some e → Moves e s s.pending) ∧ s.exit = none ∧
      s.interruptCalls = none ∧ (delivered = true → s.pending = none) ∧ (delivered = false → Keeps last s)

variable {exit : ExecutionExit}

/-- An exit request ends the attempt. -/
theorem At.delivered_exit (h : At last s s.pending) (hexit : s.exit = some exit) :
    Delivered last s (.error exit) := by
  refine ⟨h, fun hkeeps => ?_⟩
  rw [h.holding.exits exit hexit] at hkeeps
  cases hkeeps

theorem safe_deliver {Q : Option Answered → State → Except ExecutionExit Bool → Prop} (h : At last s s.pending)
    (hslot : s.interruptCalls = none) (invocation : Option Request) (vector : BitVec 8)
    (hcaller : ∀ call, invocation = some call → call.returned ∉ s.canceled ∧
      ∀ active, s.pending = some active → call.returned.call = active)
    (hdevice : invocation = none → ∃ e, last = some e ∧ deviceVector e = some vector)
    (hQ : ∀ last s' delivered, Delivered last s' delivered → Q last s' delivered) :
    Safe Discipline Q last (deliver invocation vector) s := by
  have hallow : Allowed last s (.enterInterrupt vector (invocation.map Request.returned)) := by
    cases invocation with
    | none => exact hdevice rfl
    | some call => exact hcaller call rfl
  have hsender : ∀ sender, invocation.map Request.returned = some sender →
      ∀ active, s.pending = some active → sender.call = active := by
    intro sender hsender
    obtain ⟨call, hcall, rfl⟩ := Option.map_eq_some_iff.mp hsender
    exact (hcaller call hcall).2
  unfold deliver enterInterrupt
  rw [safe_bind, safe_bind, safe_ask]
  refine ⟨h.discipline rfl hallow, fun reply => ?_⟩
  have hreply : At (some ⟨s, .enterInterrupt vector (invocation.map Request.returned), reply⟩) s s.pending :=
    h.holding.replied reply
  obtain ⟨entered, effects⟩ := reply
  have hobs := hreply.observe effects
  dsimp only
  rw [safe_bind, safe_modify, safe_pure]
  refine safe_checkExit ?_ ?_
  · intro exit hexit
    exact hQ _ _ _ (hobs.delivered_exit hexit)
  · intro hexit
    split
    next hentered =>
      rw [safe_bind, safe_modify, safe_pure]
      refine hQ _ _ _ ⟨hobs.holding.park _ hsender, ?_, ?_, ?_, fun _ => park_pending _ _, nofun⟩
      · rintro e ⟨⟩
        exact moves_park (hobs.kept _ rfl) (if_pos hentered) rfl rfl hsender
      · rw [park_exit]
        exact hexit
      · rw [park_interruptCalls]
        exact hslot
    next =>
      have hkeeps : Keeps (some ⟨s, .enterInterrupt vector (invocation.map Request.returned), (entered, effects)⟩)
          (s.observe effects) := ⟨_, rfl, rfl, rfl⟩
      cases invocation with
      | none =>
        rw [safe_pure]
        exact hQ _ _ _ ⟨hobs, fun _ => hkeeps⟩
      | some call =>
        have hput : put (s.observe effects) call = some { s.observe effects with interruptCalls := some call } :=
          put_of_empty hslot
        dsimp only
        rw [safe_bind, safe_get, hput]
        dsimp only
        rw [safe_bind, safe_modify, safe_pure]
        refine hQ _ _ _ ⟨?_, fun _ => hkeeps⟩
        refine hobs.of_toCalls rfl ?_ hobs.holding.exits
        intro request hreq
        obtain rfl := Option.some.inj hreq
        exact Or.inr (hcaller call rfl).2

theorem safe_tryDeliverInterrupt {Q : Option Answered → State → Except ExecutionExit Bool → Prop}
    (h : At last s s.pending) (hQ : ∀ last s' delivered, Delivered last s' delivered → Q last s' delivered) :
    Safe Discipline Q last tryDeliverInterrupt s := by
  unfold tryDeliverInterrupt
  refine safe_checkExit (fun exit hexit => hQ _ _ _ (h.delivered_exit hexit)) fun hexit => ?_
  unfold takeInterrupt
  rw [safe_bind, safe_bind, safe_get, safe_bind, safe_modify, safe_pure]
  have htaken : At last { s with interruptCalls := none } s.pending :=
    h.of_toCalls rfl nofun h.holding.exits
  cases hinvocation : s.interruptCalls.filter fun call => decide (call.returned ∉ s.canceled) with
  | some call =>
    obtain ⟨hslot, hcanceled⟩ := Option.filter_eq_some_iff.mp hinvocation
    dsimp only
    rw [safe_bind, safe_pure]
    refine safe_checkExit (fun exit hexit => hQ _ _ _ (htaken.delivered_exit hexit)) fun _ => ?_
    refine safe_deliver htaken rfl (some call) call.vector ?_ nofun hQ
    rintro _ ⟨⟩
    exact ⟨of_decide_eq_true hcanceled, h.holding.requested call hslot⟩
  | none =>
    dsimp only
    rw [safe_bind]
    refine safe_pollIrq htaken ?_
    intro e s' interrupt hat hslot hkeeps hdevice
    refine safe_checkExit (fun exit hexit => hQ _ _ _ (hat.delivered_exit hexit)) fun hexit => ?_
    cases interrupt with
    | none =>
      rw [safe_pure]
      refine hQ _ _ _ ⟨hat.holding, ?_, hexit, hslot, nofun, fun _ => hkeeps⟩
      rintro _ ⟨⟩
      exact .kept (hat.kept e rfl)
    | some vector =>
      exact safe_deliver hat hslot none vector nofun
        (fun _ => ⟨e, rfl, hdevice vector rfl⟩) hQ

/-! ### Dropping what is retained -/

variable {Q : Option Answered → State → Unit → Prop}

theorem safe_dropCall (h : Discipline last (s.drop call) (.drop call))
    (hQ : ∀ last s', At last s' s'.pending → s'.toCalls = (s.drop call).toCalls → Q last s' ()) :
    Safe Discipline Q last (dropCall call) s := by
  unfold dropCall
  rw [safe_bind, safe_modify, safe_bind, safe_ask]
  refine ⟨h, fun effects => ?_⟩
  have hreply : At (some ⟨s.drop call, .drop call, effects⟩) (s.drop call) (s.drop call).pending :=
    h.holding.replied effects
  exact hQ _ _ (hreply.observe effects) rfl

variable {parked : SuspendedCall}

variable {rest : List SuspendedCall}

/-- The top of the stack leaves for the dropped calls. -/
theorem Holding.release (h : Holding s now)
    (hsusp : s.suspended = parked :: rest) :
    Holding ({ s with suspended := rest }.drop parked.call) now := by
  refine ⟨?_, h.requested, ?_, h.exits⟩
  · refine List.Perm.trans ?_ h.places
    rw [hsusp]
    simp only [State.drop, List.map_cons, List.append_assoc, List.cons_append]
    refine List.Perm.append_left _ ?_
    rw [← List.append_assoc, ← List.append_assoc]
    exact List.perm_middle
  · intro waiting hwaiting
    exact h.returned waiting (hsusp ▸ List.mem_cons_of_mem parked hwaiting)

theorem safe_popAll {parked : List SuspendedCall}
    (h : At last s s.pending) (hsusp : s.suspended = parked)
    (hQ : ∀ last s', At last s' s'.pending → s'.suspended = [] → s'.pending = s.pending → Q last s' ()) :
    Safe Discipline Q last (popAll parked) s := by
  induction parked generalizing last s with
  | nil => exact hQ last s h hsusp rfl
  | cons top rest ih =>
    unfold popAll
    rw [safe_bind, safe_modify, safe_bind]
    have hdrop : Discipline last ({ s with suspended := rest }.drop top.call) (.drop top.call) := by
      refine ⟨h.holding.release hsusp, ?_, trivial⟩
      intro e he
      obtain ⟨h1, h2, h3, h4, h5⟩ := h.kept e he
      exact .released top (h1.symm.trans hsusp) h2 h3 h4 (h5.trans (List.suffix_cons _ _)) List.mem_cons_self
    refine safe_dropCall hdrop ?_
    intro last' s' hat hcalls
    refine ih hat (congrArg Calls.suspended hcalls) ?_
    intro last'' s'' hat' hemp hpend
    exact hQ last'' s'' hat' hemp (hpend.trans ((congrArg Calls.pending hcalls).trans rfl))

theorem safe_abandonSuspendedCalls (h : At last s s.pending)
    (hQ : ∀ last s', At last s' s'.pending → s'.suspended = [] → s'.pending = s.pending → Q last s' ()) :
    Safe Discipline Q last abandonSuspendedCalls s := by
  unfold abandonSuspendedCalls
  rw [safe_bind, safe_get]
  exact safe_popAll h rfl hQ

theorem safe_dropPending (h : At last s s.pending)
    (hQ : ∀ last s', At last s' s'.pending → s'.pending = none → Q last s' ()) :
    Safe Discipline Q last dropPending s := by
  unfold dropPending
  rw [safe_bind, safe_get]
  cases hpend : s.pending with
  | none => exact hQ last s h hpend
  | some call =>
    dsimp only
    rw [safe_bind, safe_modify]
    rw [hpend] at h
    have hdropped : At last (s.takePending.drop call) none := h.takePending.drop
    refine safe_dropCall (hdropped.discipline rfl trivial) ?_
    intro last' s' hat hcalls
    exact hQ last' s' hat ((congrArg Calls.pending hcalls).trans rfl)

/-! ### The driver's blocks -/

/-- What a block leaves at its label. -/
def Reached (last : Option Answered) (s : State) : Point → Prop
  | .outside result => Discipline last s (.outside result)
  | .drive => At last s s.pending
  | .guest exit => At last s s.pending ∧ s.pending = none ∧ s.interruptCalls = none ∧ Keeps last s ∧
      ∃ e, last = some e ∧ guestExit e = some exit

theorem safe_finish (h : At last s s.pending) (hkeeps : exit.releases = false → Keeps last s) :
    Safe Discipline Reached last (finish exit) s := by
  unfold finish
  split
  next hreleases =>
    rw [safe_bind]
    refine safe_dropPending h ?_
    intro last s h hpend
    rw [safe_bind]
    refine safe_abandonSuspendedCalls h ?_
    intro last s' h' hemp hpend'
    rw [safe_bind, safe_modify, safe_pure]
    have hcleared : At last { s' with exit := none } s'.pending :=
      h'.of_toCalls rfl (fun _ hreq => Or.inl hreq) nofun
    refine hcleared.discipline rfl ⟨fun _ => ⟨hpend'.trans hpend, hemp, rfl⟩, fun hnot => ?_⟩
    rw [hreleases] at hnot
    cases hnot
  next hreleases =>
    rw [safe_pure]
    exact h.discipline rfl ⟨fun hreleases' => absurd hreleases' hreleases, hkeeps⟩

/-- An exit request is honoured. -/
theorem safe_finish_request (h : At last s s.pending) (hexit : s.exit = some exit) :
    Safe Discipline Reached last (finish exit) s := by
  refine safe_finish h fun hkeeps => ?_
  rw [h.holding.exits exit hexit] at hkeeps
  cases hkeeps

/-- What a poll of the active call leaves becomes pending. -/
theorem At.reached_drive (h : At last s now) (hpend : s.pending = none) : Reached last (s.setPending now) .drive :=
  h.setPending hpend

theorem safe_pollRun (h : At (some e) s s.pending) : Safe Discipline Reached (some e) pollRun s := by
  unfold pollRun
  refine safe_checkExit (fun exit hexit => safe_finish_request h hexit) fun _ => ?_
  rw [safe_bind, safe_get]
  cases hpend : s.pending with
  | none => exact h
  | some call =>
    dsimp only
    rw [safe_bind, safe_modify, safe_bind]
    rw [hpend] at h
    have htaken := h.takePending
    have hactive := (htaken.kept e rfl).active call rfl
    refine safe_poll ⟨htaken.holding, fun e he => .kept (htaken.kept e he), rfl, e, rfl, Or.inl hactive⟩ ?_
    intro last s' now hat hnone
    rw [safe_bind, safe_modify, safe_pure]
    exact hat.reached_drive hnone

theorem safe_drive (h : At last s s.pending) : Safe Discipline Reached last drive s := by
  unfold drive
  rw [safe_bind]
  refine safe_tryDeliverInterrupt h ?_
  rintro last s (exit | delivered) hdelivered
  · exact safe_finish hdelivered.1 hdelivered.2
  · obtain ⟨hholding, hmoves, hexit, hslot, hparked, hkeeps⟩ := hdelivered
    dsimp only
    rw [safe_bind, safe_get]
    split
    next hpend =>
      rw [safe_pure]
      obtain ⟨hnot, -⟩ := (Bool.and_eq_true _ _).mp hpend
      exact ⟨hholding, hmoves, hkeeps ((Bool.not_eq_true' _).mp hnot)⟩
    next hpend =>
      have hnone : s.pending = none := by
        cases delivered with
        | true => exact hparked rfl
        | false =>
          cases hsome : s.pending with
          | none => rfl
          | some call => simp [hsome] at hpend
      rw [safe_bind, safe_ask]
      refine ⟨⟨hholding, hmoves, hexit, hnone⟩, fun reply => ?_⟩
      have hreply : At (some ⟨s, .dispatch, reply⟩) s s.pending := hholding.replied reply
      obtain ⟨exit, effects⟩ := reply
      dsimp only
      rw [safe_bind, safe_modify, safe_pure]
      exact ⟨hreply.observe effects, hnone, hslot, ⟨_, rfl, rfl, rfl⟩, _, rfl, rfl⟩

/-- The most recently parked call becomes the active one. -/
theorem Holding.resume (h : Holding s none)
    (hsusp : s.suspended = parked :: rest) (hslot : s.interruptCalls = none) :
    Holding ({ s with suspended := rest }.signal parked.returned) (some parked.call) := by
  refine ⟨?_, ?_, ?_, h.exits⟩
  · have hplaces := h.places
    rw [hsusp] at hplaces
    exact hplaces
  · intro request hreq
    have hsome : s.interruptCalls = some request := hreq
    rw [hslot] at hsome
    cases hsome
  · intro waiting hwaiting
    exact h.returned waiting (hsusp ▸ List.mem_cons_of_mem parked hwaiting)

/-- The calls were where they are at the guest's exit. -/
theorem Keeps.resumed (h : Keeps (some e) s)
    (hexit : guestExit e = some (.host .resume)) (hpend : s.pending = none)
    (hsusp : s.suspended = parked :: rest) :
    Moves e ({ s with suspended := rest }.signal parked.returned) (some parked.call) := by
  obtain ⟨_, heq, hcalls, hactive⟩ := h
  obtain rfl := Option.some.inj heq
  refine .resumed parked hexit (hactive.trans hpend) ?_ ?_ rfl
  · rw [← hcalls]
    exact hsusp
  · rw [← hcalls]
    rfl

theorem safe_guestExited (h : Reached last s (.guest exit)) :
    Safe Discipline Reached last (guestExited exit) s := by
  obtain ⟨hat, hpend, hslot, hkeeps, e, rfl, hexit⟩ := h
  have hidle : At (some e) s none := hpend ▸ hat
  unfold guestExited
  refine safe_checkExit ?_ fun _ => ?_
  · intro exit _
    rw [safe_pure]
    exact hat
  have hfinish : Safe Discipline Reached (some e) (finish exit) s := safe_finish hat fun _ => hkeeps
  have hdrive : Safe Discipline Reached (some e) (pure .drive) s := hat
  cases exit with
  | host exit =>
    cases exit with
    | «return» => exact hfinish
    | call serviceId =>
      dsimp only
      rw [safe_bind]
      refine safe_start hidle hpend hslot serviceId ?_
      intro last s' now hat' hnone
      rw [safe_bind, safe_modify, safe_pure]
      exact hat'.reached_drive hnone
    | resume =>
      unfold resumeCall
      dsimp only
      rw [safe_bind, safe_bind, safe_get]
      cases hsusp : s.suspended with
      | nil =>
        dsimp only
        rw [safe_pure]
        exact hfinish
      | cons parked rest =>
        dsimp only
        rw [safe_bind, safe_modify, safe_bind, safe_modify, safe_bind]
        have hbef := (hat.kept e rfl).suspended.symm.trans hsusp
        refine safe_poll ⟨hidle.holding.resume hsusp hslot, ?_, hpend, e, rfl,
          Or.inr ⟨parked, rfl, hbef, hexit⟩⟩ ?_
        · rintro _ ⟨⟩
          exact hkeeps.resumed hexit hpend hsusp
        · intro last s' now hat' hnone
          rw [safe_pure]
          dsimp only
          rw [safe_bind, safe_modify, safe_pure]
          exact hat'.reached_drive hnone
  | stepComplete => exact hdrive
  | interruptsEnabled => exact hdrive
  | interruptEntered => exact hdrive
  | exception => exact hfinish
  | unsupportedInstruction => exact hfinish
  | interruptInhibited => exact hfinish
  | interrupted => exact hfinish
  | unhandledException => exact hfinish

theorem safe_runGuest (h : Reached last s (.guest exit)) : Safe Discipline Reached last (runGuest exit) s := by
  obtain ⟨hat, hpend, hslot, hkeeps, e, he, hexit⟩ := id h
  unfold runGuest
  rw [safe_bind, safe_get]
  split
  next hinhibited =>
    rw [safe_bind, safe_ask]
    refine ⟨hat.discipline rfl ⟨hinhibited.2, hpend⟩, fun reply => ?_⟩
    have hreply : At (some ⟨s, .step, reply⟩) s s.pending := hat.holding.replied reply
    obtain ⟨exit, effects⟩ := reply
    dsimp only
    rw [safe_bind, safe_modify, safe_pure]
    exact ⟨hreply.observe effects, hpend, hslot, ⟨_, rfl, rfl, rfl⟩, _, rfl, rfl⟩
  next => exact safe_guestExited h

/-- A request without results, at which the calls are where they were. -/
theorem At.reached_outside (h : At last s s.pending) : Reached last s (.outside none) :=
  h.discipline rfl trivial

theorem safe_outside {res : Option (Poll ExecutionExit)} (h : Discipline last s (.outside res)) :
    Safe Discipline Reached last (outside res) s := by
  unfold outside
  rw [safe_bind, safe_ask]
  refine ⟨h, fun embedding => ?_⟩
  have hreply : At (some ⟨s, .outside res, embedding⟩) s s.pending := h.holding.replied embedding
  cases embedding with
  | poll => exact safe_pollRun hreply
  | replaceWaiter => exact hreply.reached_outside
  | requestExit requested =>
    dsimp only
    rw [safe_bind, safe_modify, safe_pure]
    refine At.reached_outside (hreply.of_toCalls rfl (fun _ hreq => Or.inl hreq) ?_)
    intro exit hexit
    obtain rfl := Option.some.inj hexit
    exact requested.releases_exit
  | abandonSuspendedCalls =>
    dsimp only
    rw [safe_bind]
    refine safe_abandonSuspendedCalls hreply ?_
    intro last s' hat _ _
    rw [safe_pure]
    exact hat.reached_outside
  | drop =>
    dsimp only
    rw [safe_bind]
    refine safe_dropPending hreply ?_
    intro last s' hat _
    rw [safe_bind]
    refine safe_abandonSuspendedCalls hat ?_
    intro last s'' hat' _ _
    rw [safe_bind, safe_ask]
    exact ⟨hat'.discipline rfl trivial, nofun⟩

/-- Every block keeps what is reached. -/
theorem safe_blocks (last : Option Answered) (s : State) (point : Point) (h : Reached last s point) :
    Safe Discipline Reached last (blocks point) s := by
  cases point with
  | outside result => exact safe_outside h
  | drive => exact safe_drive h
  | guest exit => exact safe_runGuest h

theorem reached_new : Reached none .new (.outside none) :=
  ⟨⟨List.Perm.refl [], fun _ hnone => (nomatch hnone), fun _ hmem => (nomatch hmem), fun _ hnone => nomatch hnone⟩,
    (fun _ hnone => nomatch hnone), trivial⟩

/-- A session makes the request, after the last reply. -/
def Requests (last : Option Answered) (s : State) (a : Action) : Prop :=
  ∃ next, Reaches blocks session last (.act s a next)

theorem Requests.discipline (h : Requests last s a) : Discipline last s a := by
  obtain ⟨next, hreaches⟩ := h
  exact hreaches.request (show session.Safe Discipline Reached none from reached_new) safe_blocks

theorem Requests.holding_answered (h : Requests (some e) s a) : Holding e.state (active e.state e.action) := by
  obtain ⟨next, hreaches⟩ := h
  obtain ⟨last, next', hanswered⟩ := hreaches.answered
  exact (Requests.discipline ⟨next', hanswered⟩).holding

/-! ## The strict stack -/

/-- A call has one place. -/
theorem Holding.nodup (h : Holding s now) :
    (now.toList ++ s.suspended.map SuspendedCall.call ++ s.completed ++ s.dropped).Nodup :=
  h.places.nodup_iff.mpr List.nodup_range

/-- A parked call is not in use. -/
theorem Holding.ne_parked (h : Holding s now) (hmem : parked ∈ s.suspended) : now ≠ some parked.call := by
  rintro rfl
  have hplaces := h.nodup
  rw [List.append_assoc, List.append_assoc, Option.toList_some, List.singleton_append, List.nodup_cons] at hplaces
  exact hplaces.1 (List.mem_append_left _ (List.mem_map_of_mem hmem))

/-- A call is parked once. -/
theorem Holding.parked_eq (h : Holding s now) {p q : SuspendedCall} (hp : p ∈ s.suspended) (hq : q ∈ s.suspended)
    (hcall : p.call = q.call) : p = q := by
  have hplaces := h.nodup
  rw [List.append_assoc, List.append_assoc] at hplaces
  have hparked : (s.suspended.map SuspendedCall.call).Nodup :=
    (List.nodup_append.mp (List.nodup_append.mp hplaces).2.1).1
  exact List.inj_on_of_nodup_map hparked hp hq hcall

/-- A parked call was started. -/
theorem Holding.parked_lt (h : Holding s now) (hmem : parked ∈ s.suspended) : parked.call < s.started := by
  refine List.mem_range.mp (h.places.mem_iff.mp ?_)
  simp only [List.mem_append]
  exact Or.inl (Or.inl (Or.inr (List.mem_map_of_mem hmem)))

/-- What holds at a request of the driver, in relation to the reply before it. -/
structure StrictStack (last : Option Answered) (s : State) (a : Action) : Prop where
  /-- Each started call is active, parked once, completed or dropped. -/
  places : ((active s a).toList ++ s.suspended.map SuspendedCall.call ++ s.completed ++ s.dropped).Perm
    (List.range s.started)
  /-- Completed and dropped calls stay so. -/
  settled : ∀ e, last = some e → e.state.completed <:+ s.completed ∧ e.state.dropped <:+ s.dropped
  /-- The call that is polled is the active one, or it has just been resumed. -/
  polled : ∀ call, a = .poll call → s.pending = none ∧ ∃ e, last = some e ∧
    (active e.state e.action = some call ∨
      ∃ parked, parked.call = call ∧ e.state.suspended = parked :: s.suspended ∧ guestExit e = some (.host .resume))
  /-- The stack changes only at its top: the active call is parked by a completed interrupt entry, with the sender of
      the interrupt that it requested if it was this interrupt, or the top is resumed or dropped. -/
  stack : ∀ e, last = some e → s.suspended = e.state.suspended ∨
    (∃ parked, s.suspended = parked :: e.state.suspended ∧ active e.state e.action = some parked.call ∧
      entry e = some parked.returned ∧ ∀ returned, parked.returned = some returned → returned.call = parked.call) ∨
    ∃ parked, e.state.suspended = parked :: s.suspended ∧ (active s a = some parked.call ∨ parked.call ∈ s.dropped)
  /-- An interrupt is entered for a device, or for the active call that requested it and still awaits it. -/
  entered : ∀ vector returned, a = .enterInterrupt vector returned →
    (returned = none → ∃ e, last = some e ∧ deviceVector e = some vector) ∧
      ∀ sender, returned = some sender → sender ∉ s.canceled ∧ ∀ call, active s a = some call → sender.call = call
  /-- A parked call becomes active only by a resume exit of the guest, as the most recently parked one, and the
      interrupt that parked it, if it was its own, is signalled. -/
  resumed : ∀ e, last = some e → ∀ parked ∈ e.state.suspended, active s a = some parked.call →
    guestExit e = some (.host .resume) ∧ e.state.suspended = parked :: s.suspended ∧
      s.signalled = parked.returned.toList ++ e.state.signalled
  /-- Nothing else is signalled. -/
  signalled : ∀ e, last = some e → (∀ parked ∈ e.state.suspended, active s a ≠ some parked.call) →
    s.signalled = e.state.signalled
  /-- Guest code runs without an exit request and without an active call. -/
  guest : a = .dispatch ∨ a = .step → s.exit = none ∧ active s a = none
  /-- A result that ends execution leaves no call and no exit request. -/
  ended : ∀ exit, a = .outside (some (.ready exit)) → exit.releases = true →
    active s a = none ∧ s.suspended = [] ∧ s.exit = none
  /-- Every other result keeps the calls. -/
  kept : ∀ result, a = .outside (some result) → (∀ exit, result = .ready exit → exit.releases = false) →
    ∃ e, last = some e ∧ s.toCalls = e.state.toCalls ∧ active s a = active e.state e.action

/-- Completed and dropped calls stay so, whatever moved. -/
theorem Moves.settled (h : Moves e s now) : e.state.completed <:+ s.completed ∧ e.state.dropped <:+ s.dropped := by
  have hcalls : ∀ {calls : Calls}, s.toCalls = calls → calls.completed = e.state.completed →
      calls.dropped = e.state.dropped → e.state.completed <:+ s.completed ∧ e.state.dropped <:+ s.dropped := by
    rintro calls rfl hcompleted hdropped
    exact ⟨hcompleted ▸ List.suffix_refl _, hdropped ▸ List.suffix_refl _⟩
  cases h with
  | kept h => exact ⟨h.completed, h.dropped⟩
  | started h _ => exact hcalls h rfl rfl
  | parked call returned _ _ _ h _ => exact hcalls h rfl rfl
  | resumed parked _ _ _ h _ => exact hcalls h rfl rfl
  | released parked _ _ _ hcompleted hdropped _ => exact ⟨hcompleted, hdropped⟩

theorem Moves.stack (h : Moves e s now) : s.suspended = e.state.suspended ∨
    (∃ parked, s.suspended = parked :: e.state.suspended ∧ active e.state e.action = some parked.call ∧
      entry e = some parked.returned ∧ ∀ returned, parked.returned = some returned → returned.call = parked.call) ∨
    ∃ parked, e.state.suspended = parked :: s.suspended ∧ (now = some parked.call ∨ parked.call ∈ s.dropped) := by
  cases h with
  | kept h => exact Or.inl h.suspended
  | started h _ => exact Or.inl ((congrArg Calls.suspended h).trans rfl)
  | parked call returned hent hactive hreturned h _ =>
    exact Or.inr (Or.inl ⟨⟨call, returned⟩, (congrArg Calls.suspended h).trans rfl, hactive, hent, hreturned⟩)
  | resumed parked _ _ hsusp _ hnow => exact Or.inr (Or.inr ⟨parked, hsusp, Or.inl hnow⟩)
  | released parked hsusp _ _ _ _ hcall => exact Or.inr (Or.inr ⟨parked, hsusp, Or.inr hcall⟩)

/-- A parked call that is in use at the next request has been resumed. -/
theorem Moves.resumed_of_active (h : Moves e s now) (hbef : Holding e.state (active e.state e.action))
    (hmem : parked ∈ e.state.suspended) (hnow : now = some parked.call) :
    guestExit e = some (.host .resume) ∧ e.state.suspended = parked :: s.suspended ∧
      s.signalled = parked.returned.toList ++ e.state.signalled := by
  cases h with
  | kept h => exact absurd (h.active parked.call hnow) (hbef.ne_parked hmem)
  | started _ hstarted =>
    have hcall : e.state.started = parked.call := Option.some.inj (hstarted.symm.trans hnow)
    exact absurd (hcall ▸ hbef.parked_lt hmem) (lt_irrefl _)
  | parked call returned _ _ _ _ hnone =>
    rw [hnone] at hnow
    cases hnow
  | resumed top hexit _ hsusp h hresumed =>
    have hcall : top.call = parked.call := Option.some.inj (hresumed.symm.trans hnow)
    have htop : top ∈ e.state.suspended := hsusp ▸ List.mem_cons_self
    obtain rfl := hbef.parked_eq htop hmem hcall
    exact ⟨hexit, hsusp, (congrArg Calls.signalled h).trans rfl⟩
  | released top _ _ hactive _ _ _ => exact absurd (hactive parked.call hnow) (hbef.ne_parked hmem)

theorem Moves.signalled (h : Moves e s now) (hparked : ∀ parked ∈ e.state.suspended, now ≠ some parked.call) :
    s.signalled = e.state.signalled := by
  cases h with
  | kept h => exact h.signalled
  | started h _ => exact (congrArg Calls.signalled h).trans rfl
  | parked call returned _ _ _ h _ => exact (congrArg Calls.signalled h).trans rfl
  | resumed parked _ _ hsusp _ hnow =>
    have hmem : parked ∈ e.state.suspended := hsusp ▸ List.mem_cons_self
    exact absurd hnow (hparked parked hmem)
  | released parked _ hsignalled _ _ _ _ => exact hsignalled

/-- **Suspended host calls form a strict stack**, at every request of every session and whatever the replies. -/
theorem suspended_calls (last : Option Answered) (s : State) (a : Action) (h : Requests last s a) :
    StrictStack last s a := by
  obtain ⟨hholding, hmoves, hallowed⟩ := h.discipline
  have hresumed : ∀ e, last = some e → ∀ parked ∈ e.state.suspended, active s a = some parked.call →
      guestExit e = some (.host .resume) ∧ e.state.suspended = parked :: s.suspended ∧
        s.signalled = parked.returned.toList ++ e.state.signalled := by
    rintro e rfl parked hmem hactive
    exact (hmoves e rfl).resumed_of_active h.holding_answered hmem hactive
  refine ⟨hholding.places, fun e he => (hmoves e he).settled, ?_, fun e he => (hmoves e he).stack, ?_, hresumed,
    fun e he => (hmoves e he).signalled, ?_, ?_, ?_⟩
  · rintro call rfl
    exact hallowed
  · rintro vector returned rfl
    cases returned with
    | none => exact ⟨fun _ => hallowed, nofun⟩
    | some sender =>
        refine ⟨nofun, ?_⟩
        rintro _ ⟨⟩
        exact hallowed
  · rintro (rfl | rfl)
    · exact hallowed
    · exact hallowed
  · rintro exit rfl hreleases
    exact hallowed.1 hreleases
  · rintro (exit | _) rfl hreleases
    · obtain ⟨e, he, hcalls, hactive⟩ := hallowed.2 (hreleases exit rfl)
      exact ⟨e, he, hcalls, hactive.symm⟩
    · obtain ⟨e, he, hcalls, hactive⟩ := hallowed
      exact ⟨e, he, hcalls, hactive.symm⟩

/-- A call that asks for interrupt 21 is parked by its entry, and the guest's resume exit signals it and polls it. -/
theorem suspended_calls_resume :
    ∃ last s, StrictStack last s (.poll 0) ∧ s.signalled = [⟨0, 0⟩] := by
  have hpoll := (show Reaches blocks session none session from .start).jump.reply .poll
  have hguest := hpoll.jump.reply ⟨true, true, true⟩
  have hcall := (hguest.reply (.host (.call 7), ⟨none, []⟩)).jump.reply true
  have hwaits := hcall.reply ⟨[.callInterrupt 0x21], false⟩
  have hparked := hwaits.jump.reply (.interruptEntered, ⟨none, []⟩)
  have hresume := (hparked.reply (.host .resume, ⟨none, []⟩)).jump
  exact ⟨_, _, suspended_calls _ _ _ ⟨_, hresume⟩, rfl⟩

end Relocade.Runtime
