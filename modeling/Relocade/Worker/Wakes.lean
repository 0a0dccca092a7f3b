import Relocade.Worker.Executor

/-!
# `Worker.Wakes` — no wake of a worker is lost
-/

namespace Relocade.Worker

/-! ## The invariant -/

/-- An interrupting wake has made its request. -/
def Wake.Requested (wake : Wake) : Prop :=
  wake.interrupting = true ∧ (wake.stage = .mark ∨ wake.stage = .unpark ∨ wake.stage = .done)

/-- No root poll that began after the wake's first step has completed. -/
def State.Unserved (s : State) (wake : Wake) : Prop := ∃ first, wake.firstAt = some first ∧ s.complete ≤ first

/-- The wake marked the executor runnable after the last root poll began. -/
def State.Marked (s : State) (wake : Wake) : Prop := wake.markedAt = some s.begun

def State.Polling (s : State) : Prop := s.stage = .pollStop ∨ s.stage = .pollRoot

/-- The park is polled, or pending. -/
def State.Parking (s : State) : Prop :=
  s.stage = .parkCheck ∨ s.stage = .parkRegister ∨ s.stage = .parkRecheck ∨ s.stage = .parked

/-- A check is still to come, and finds the executor runnable. -/
def State.ParkReady (s : State) : Prop := s.stage ≠ .parked ∧ s.runnable = true

/-- Requests may have been acknowledged but not made again. -/
def Stage.Silent : Stage → Prop
  | .checkNotified _ | .requestInterrupt _ => True
  | _ => False

/-- Wakes since the poll began are noted. -/
def Stage.Noting : Stage → Prop
  | .pollStop | .pollRoot | .acknowledge _ | .checkNotified _ => True
  | _ => False

/-- What each wake can rely on. -/
structure WakeValid (s : State) (wake : Wake) : Prop where
  first_le : ∀ first, wake.firstAt = some first → first ≤ s.begun
  marked_le : ∀ marked, wake.markedAt = some marked → marked ≤ s.begun
  /-- A mark stands until the next poll is about to begin. -/
  runnable : s.stage ≠ .clearNotified → s.Marked wake → s.runnable = true
  /-- A mark after the last check is followed by a wake of the parked task. -/
  parked : s.stage = .parked → s.Marked wake → s.woken = true ∨ wake.stage = .unpark
  /-- Requests that no poll served are still set, or about to be set again. -/
  heard : ¬ s.stage.Silent → wake.Requested → s.Unserved wake → s.interrupt = true
  noted : s.stage.Noting → wake.interrupting = true → wake.firstAt = some s.begun → s.notified = true

structure Inv (s : State) : Prop where
  complete_le : s.complete ≤ s.begun
  wakes : ∀ i, WakeValid s (s.wakes i)
  /-- Until the note is checked, the poll just completed is the last that began. -/
  complete : ∀ ready, s.stage = .acknowledge ready ∨ s.stage = .checkNotified ready → s.complete = s.begun
  /-- A wake after the registration finds it. -/
  registered : s.stage = .parkRecheck ∨ s.stage = .parked → s.woken = true ∨ s.registered = true

variable {s s' : State}

theorem Inv.start (interrupt : Bool) : Inv (.start interrupt) where
  complete_le := Nat.le_refl 0
  wakes _ := ⟨nofun, nofun, nofun, nofun, (fun _ h => nomatch h.1), fun h => h.elim⟩
  complete _ h := by rcases h with h | h <;> exact nomatch h
  registered h := by rcases h with h | h <;> exact nomatch h

/-! ## Operations of the executor -/

variable {wake : Wake}

/-- The stage changes to one where nothing more is relied on, and where no wake is waited for. -/
theorem WakeValid.moved (h : WakeValid s wake) {stage : Stage} (woken registered : Bool) (hstage : s.stage ≠ .clearNotified)
    (hparked : stage ≠ .parked) (hsilent : s.stage.Silent → stage.Silent) (hnoting : stage.Noting → s.stage.Noting) :
    WakeValid { s with stage := stage, woken := woken, registered := registered } wake :=
  ⟨h.first_le, h.marked_le, fun _ => h.runnable hstage, fun h => absurd h hparked, fun hs => h.heard fun hold => hs (hsilent hold),
    fun hn => h.noted (hnoting hn)⟩

/-- The executor neither checks its notes nor waits for a wake. -/
def Stage.Quiet : Stage → Prop
  | .idle | .clearRunnable | .checkRunnable _ | .parkCheck | .parkRegister | .release => True
  | _ => False

theorem Inv.quiet (h : Inv s) {stage : Stage} (woken registered : Bool) (hstage : s.stage ≠ .clearNotified)
    (hsilent : ¬ s.stage.Silent) (hquiet : stage.Quiet) :
    Inv { s with stage := stage, woken := woken, registered := registered } := by
  refine ⟨h.complete_le, fun i => (h.wakes i).moved woken registered hstage ?_ (fun hs => absurd hs hsilent) fun hn => ?_, fun _ hr => ?_,
    fun hp => ?_⟩
  · rintro rfl
    exact hquiet
  · cases stage <;> first | exact hquiet.elim | exact hn.elim
  · rcases hr with rfl | rfl <;> exact False.elim hquiet
  · rcases hp with rfl | rfl <;> exact False.elim hquiet

theorem Inv.advance (h : Inv s) {ready : Bool} (hnext : advance s ready = some s') : Inv s' := by
  unfold Worker.advance at hnext
  cases hstage : s.stage with
  | idle | parked =>
    rw [hstage] at hnext
    exact nomatch hnext
  | clearRunnable =>
    rw [hstage] at hnext
    cases hnext
    refine ⟨h.complete_le, fun i => ?_, fun _ hr => ?_, fun hp => ?_⟩
    · have hwake := h.wakes i
      exact ⟨hwake.first_le, hwake.marked_le, (fun hne => absurd rfl hne), nofun,
        fun _ => hwake.heard (by rw [hstage]; exact id), fun h => h.elim⟩
    · rcases hr with hr | hr <;> exact nomatch hr
    · rcases hp with hp | hp <;> exact nomatch hp
  | clearNotified =>
    rw [hstage] at hnext
    cases hnext
    refine ⟨Nat.le_succ_of_le h.complete_le, fun i => ?_, fun _ hr => ?_, fun hp => ?_⟩
    · have hwake := h.wakes i
      refine ⟨fun first hfst => Nat.le_succ_of_le (hwake.first_le first hfst),
        fun marked hmarked => Nat.le_succ_of_le (hwake.marked_le marked hmarked), fun _ hmarked => ?_, nofun,
        fun _ => hwake.heard (by rw [hstage]; exact id), fun _ _ hfst => ?_⟩
      · exact absurd (hwake.marked_le _ hmarked) (Nat.not_succ_le_self _)
      · exact absurd (hwake.first_le _ hfst) (Nat.not_succ_le_self _)
    · rcases hr with hr | hr <;> exact nomatch hr
    · rcases hp with hp | hp <;> exact nomatch hp
  | pollStop =>
    rw [hstage] at hnext
    cases hnext
    cases ready with
    | true => exact h.quiet s.woken s.registered (by rw [hstage]; exact nofun) (by rw [hstage]; exact id) trivial
    | false =>
      refine ⟨h.complete_le, fun i => ?_, fun _ hr => ?_, fun hp => ?_⟩
      · exact (h.wakes i).moved s.woken s.registered (by rw [hstage]; exact nofun) nofun (by rw [hstage]; exact id) fun _ => by
          rw [hstage]
          trivial
      · rcases hr with hr | hr <;> exact nomatch hr
      · rcases hp with hp | hp <;> exact nomatch hp
  | pollRoot =>
    rw [hstage] at hnext
    cases hnext
    refine ⟨Nat.le_refl _, fun i => ?_, fun _ _ => rfl, fun hp => ?_⟩
    · have hwake := h.wakes i
      have hmoved := hwake.runnable (by rw [hstage]; exact nofun)
      refine ⟨hwake.first_le, hwake.marked_le, fun _ => hmoved, nofun, fun _ hreqd hi => ?_,
        fun _ => hwake.noted (by rw [hstage]; trivial)⟩
      obtain ⟨first, hfst, hle⟩ := hi
      exact hwake.heard (by rw [hstage]; exact id) hreqd ⟨first, hfst, Nat.le_trans h.complete_le hle⟩
    · rcases hp with hp | hp <;> exact nomatch hp
  | acknowledge ready =>
    rw [hstage] at hnext
    cases hnext
    refine ⟨h.complete_le, fun i => ?_, fun r _ => h.complete ready (.inl hstage), fun hp => ?_⟩
    · have hwake := h.wakes i
      have hmoved := hwake.runnable (by rw [hstage]; exact nofun)
      exact ⟨hwake.first_le, hwake.marked_le, fun _ => hmoved, nofun, fun hs => absurd trivial hs,
        fun _ => hwake.noted (by rw [hstage]; trivial)⟩
    · rcases hp with hp | hp <;> exact nomatch hp
  | checkNotified ready =>
    rw [hstage] at hnext
    cases hnext
    have hcomplete := h.complete ready (.inr hstage)
    have hmoved : s.stage ≠ .clearNotified := by
      rw [hstage]
      exact nofun
    by_cases hnotified : s.notified = true
    · rw [if_pos hnotified]
      refine ⟨h.complete_le, fun i => ?_, fun _ hr => ?_, fun hp => ?_⟩
      · exact (h.wakes i).moved s.woken s.registered hmoved nofun (fun _ => trivial) fun h => h.elim
      · rcases hr with hr | hr <;> exact nomatch hr
      · rcases hp with hp | hp <;> exact nomatch hp
    · rw [if_neg hnotified]
      refine ⟨h.complete_le, fun i => ?_, fun _ hr => ?_, fun hp => ?_⟩
      · have hwake := h.wakes i
        refine ⟨hwake.first_le, hwake.marked_le, fun _ => hwake.runnable hmoved, nofun, fun _ hreqd hi => ?_,
          fun h => h.elim⟩
        -- a wake that no poll served came during this one, and was noted
        obtain ⟨first, hfst, hle⟩ := hi
        have hbegun : first = s.begun := Nat.le_antisymm (hwake.first_le first hfst) (hcomplete ▸ hle)
        rw [hbegun] at hfst
        exact absurd (hwake.noted (by rw [hstage]; trivial) hreqd.1 hfst) hnotified
      · rcases hr with hr | hr <;> exact nomatch hr
      · rcases hp with hp | hp <;> exact nomatch hp
  | requestInterrupt ready =>
    rw [hstage] at hnext
    cases hnext
    refine ⟨h.complete_le, fun i => ?_, fun _ hr => ?_, fun hp => ?_⟩
    · have hwake := h.wakes i
      have hmoved := hwake.runnable (by rw [hstage]; exact nofun)
      exact ⟨hwake.first_le, hwake.marked_le, fun _ => hmoved, nofun, fun _ _ _ => rfl, fun h => h.elim⟩
    · rcases hr with hr | hr <;> exact nomatch hr
    · rcases hp with hp | hp <;> exact nomatch hp
  | checkRunnable ready =>
    rw [hstage] at hnext
    cases hnext
    refine h.quiet s.woken s.registered (by rw [hstage]; exact nofun) (by rw [hstage]; exact id) ?_
    split
    next => trivial
    next => split <;> trivial
  | parkCheck =>
    rw [hstage] at hnext
    cases hnext
    by_cases hset : s.runnable = true
    · rw [if_pos hset]
      exact h.quiet s.woken s.registered (by rw [hstage]; exact nofun) (by rw [hstage]; exact id) trivial
    · rw [if_neg hset]
      exact h.quiet s.woken s.registered (by rw [hstage]; exact nofun) (by rw [hstage]; exact id) trivial
  | parkRegister =>
    rw [hstage] at hnext
    cases hnext
    refine ⟨h.complete_le, fun i => ?_, fun _ hr => ?_, fun _ => .inr rfl⟩
    · have hwake := h.wakes i
      have hmoved := hwake.runnable (by rw [hstage]; exact nofun)
      exact ⟨hwake.first_le, hwake.marked_le, fun _ => hmoved, nofun,
        fun _ => hwake.heard (by rw [hstage]; exact id), fun h => h.elim⟩
    · rcases hr with hr | hr <;> exact nomatch hr
  | parkRecheck =>
    rw [hstage] at hnext
    cases hnext
    have hmoved : s.stage ≠ .clearNotified := by
      rw [hstage]
      exact nofun
    by_cases hset : s.runnable = true
    · rw [if_pos hset]
      exact h.quiet s.woken s.registered hmoved (by rw [hstage]; exact id) trivial
    · rw [if_neg hset]
      refine ⟨h.complete_le, fun i => ?_, fun _ hr => ?_, fun _ => h.registered (.inl hstage)⟩
      · have hwake := h.wakes i
        exact ⟨hwake.first_le, hwake.marked_le, fun _ => hwake.runnable hmoved,
          fun _ hmarked => absurd (hwake.runnable hmoved hmarked) hset, fun _ => hwake.heard (by rw [hstage]; exact id),
          fun h => h.elim⟩
      · rcases hr with hr | hr <;> exact nomatch hr
  | release =>
    rw [hstage] at hnext
    cases hnext
    exact h.quiet s.woken false (by rw [hstage]; exact nofun) (by rw [hstage]; exact id) trivial

/-! ## Operations of wakes -/

variable {i : Nat}

/-- What holds of one wake's replacement and of the other wakes holds of all. -/
theorem forall_setWake {P : Wake → Prop} (hwake : P wake) (hother : ∀ j, P (s.wakes j)) (j : Nat) :
    P ((s.setWake i wake).wakes j) := by
  show P (Function.update s.wakes i wake j)
  by_cases hj : j = i
  · rw [hj, Function.update_self]
    exact hwake
  · rw [Function.update_of_ne hj]
    exact hother j

/-- A wake's operation only sets flags, as far as the other wakes are concerned. -/
theorem WakeValid.grow (h : WakeValid s wake) (hstage : s'.stage = s.stage) (hbegun : s'.begun = s.begun)
    (hcomplete : s'.complete = s.complete) (hrunnable : s.runnable = true → s'.runnable = true)
    (hnotified : s.notified = true → s'.notified = true) (hinterrupt : s.interrupt = true → s'.interrupt = true)
    (hwoken : s.woken = true → s'.woken = true) : WakeValid s' wake := by
  have hmarked : s'.Marked wake → s.Marked wake := fun hm => Eq.trans hm (congrArg some hbegun)
  have hunserved : s'.Unserved wake → s.Unserved wake := fun ⟨first, hfst, hle⟩ => ⟨first, hfst, hcomplete ▸ hle⟩
  refine ⟨?_, ?_, fun hs hm => hrunnable (h.runnable (hstage ▸ hs) (hmarked hm)),
    fun hs hm => (h.parked (hstage ▸ hs) (hmarked hm)).imp_left hwoken,
    fun hs hr hu => hinterrupt (h.heard (hstage ▸ hs) hr (hunserved hu)),
    fun hs hi hf => hnotified (h.noted (hstage ▸ hs) hi (hf.trans (congrArg some hbegun)))⟩
  · rw [hbegun]
    exact h.first_le
  · rw [hbegun]
    exact h.marked_le

theorem Inv.wakeNext (h : Inv s) (hnext : wakeNext s i = some s') : Inv s' := by
  have hvalid := h.wakes i
  unfold Worker.wakeNext at hnext
  dsimp only at hnext
  cases hwake : (s.wakes i).stage with
  | unused | done =>
    rw [hwake] at hnext
    exact nomatch hnext
  | notify =>
    rw [hwake] at hnext
    cases hnext
    refine ⟨h.complete_le, forall_setWake ?_ fun j => (h.wakes j).grow rfl rfl rfl id (fun _ => rfl) id id, h.complete,
      h.registered⟩
    refine ⟨fun first hfst => ?_, hvalid.marked_le, hvalid.runnable, fun hs hm => ?_, fun _ hr => ?_, fun _ _ _ => rfl⟩
    · cases hfst
      exact Nat.le_refl _
    · exact .inl ((hvalid.parked hs hm).resolve_right (by rw [hwake]; exact nofun))
    · rcases hr.2 with hr | hr | hr <;> exact nomatch hr
  | request =>
    rw [hwake] at hnext
    cases hnext
    refine ⟨h.complete_le, forall_setWake ?_ fun j => (h.wakes j).grow rfl rfl rfl id id (fun _ => rfl) id, h.complete,
      h.registered⟩
    exact ⟨hvalid.first_le, hvalid.marked_le, hvalid.runnable,
      fun hs hm => .inl ((hvalid.parked hs hm).resolve_right (by rw [hwake]; exact nofun)), fun _ _ _ => rfl, hvalid.noted⟩
  | mark =>
    rw [hwake] at hnext
    cases hnext
    refine ⟨h.complete_le, forall_setWake ?_ fun j => (h.wakes j).grow rfl rfl rfl (fun _ => rfl) id id id, h.complete,
      h.registered⟩
    refine ⟨hvalid.first_le, fun marked hmarked => ?_, fun _ _ => rfl, fun _ _ => .inr rfl,
      fun hs hr hu => hvalid.heard hs ⟨hr.1, .inl hwake⟩ hu, hvalid.noted⟩
    cases hmarked
    exact Nat.le_refl _
  | unpark =>
    rw [hwake] at hnext
    cases hnext
    have hwoken : s.woken = true → (s.woken || s.registered) = true := fun hw => by rw [hw, Bool.true_or]
    refine ⟨h.complete_le, forall_setWake ?_ fun j => (h.wakes j).grow rfl rfl rfl id id id hwoken, h.complete,
      fun hp => .inl (Bool.or_eq_true_iff.mpr (h.registered hp))⟩
    exact ⟨hvalid.first_le, hvalid.marked_le, hvalid.runnable,
      fun hs _ => .inl (Bool.or_eq_true_iff.mpr (h.registered (.inr hs))),
      fun hs hr hu => hvalid.heard hs ⟨hr.1, .inr (.inl hwake)⟩ hu, hvalid.noted⟩

/-- A wake that has not taken its first step relies on nothing. -/
theorem WakeValid.called (s : State) (interrupting : Bool) (stage : WakeStage) : WakeValid s ⟨interrupting, stage, none, none⟩ :=
  ⟨nofun, nofun, nofun, nofun, (fun _ _ h => nomatch h.choose_spec.1), nofun⟩

theorem Inv.call (h : Inv s) {owner : Bool} (hnext : call s i owner = some s') : Inv s' := by
  unfold Worker.call at hnext
  split at hnext
  next =>
    split at hnext
    next =>
      cases hnext
      exact ⟨h.complete_le, forall_setWake (.called ..) fun j => (h.wakes j).grow rfl rfl rfl id id id id, h.complete,
        h.registered⟩
    next =>
      cases hnext
      exact ⟨h.complete_le, forall_setWake (.called ..) fun j => (h.wakes j).grow rfl rfl rfl id id id id, h.complete,
        h.registered⟩
  next => exact nomatch hnext

/-! ## Runs -/

theorem Inv.next (h : Inv s) {action : Action} (hnext : next s action = some s') : Inv s' := by
  cases action with
  | advance ready => exact h.advance hnext
  | call i owner => exact h.call hnext
  | wake i => exact h.wakeNext hnext
  | run =>
    unfold Worker.next at hnext
    dsimp only at hnext
    split at hnext
    next hidle =>
      cases hnext
      exact h.quiet false s.registered (by rw [hidle]; exact nofun) (by rw [hidle]; exact id) trivial
    next => exact nomatch hnext
  | repoll =>
    unfold Worker.next at hnext
    dsimp only at hnext
    split at hnext
    next hparked =>
      cases hnext
      exact h.quiet false s.registered (by rw [hparked]; exact nofun) (by rw [hparked]; exact id) trivial
    next => exact nomatch hnext
  | cancel =>
    unfold Worker.next at hnext
    dsimp only at hnext
    split at hnext
    next hparked =>
      cases hnext
      exact h.quiet s.woken false (by rw [hparked]; exact nofun) (by rw [hparked]; exact id) trivial
    next => exact nomatch hnext
  | enterYield =>
    cases hnext
    exact ⟨h.complete_le, fun j => (h.wakes j).grow rfl rfl rfl id id id id, h.complete, h.registered⟩
  | leaveYield =>
    unfold Worker.next at hnext
    dsimp only at hnext
    split at hnext
    next =>
      cases hnext
      exact ⟨h.complete_le, fun j => (h.wakes j).grow rfl rfl rfl id id id id, h.complete, h.registered⟩
    next => exact nomatch hnext

/-- Every action keeps the invariant. -/
theorem Inv.step (h : Inv s) (action : Action) : Inv (step s action) := by
  unfold Worker.step
  cases hnext : Worker.next s action with
  | none => exact h
  | some s' => exact h.next hnext

theorem inv_run (interrupt : Bool) (actions : List Action) : Inv (Run.after step (.start interrupt) actions) :=
  Run.invariant (fun _ action h => h.step action) (.start interrupt) actions

/-! ## Yields -/

/-- A yielding wake skips the first two operations. -/
def Wake.Skips (wake : Wake) : Prop :=
  (wake.interrupting = false → wake.stage ≠ .notify ∧ wake.stage ≠ .request) ∧
    (wake.stage = .unused → wake.interrupting = false)

/-- Without interrupting wakes, nothing asks for an interrupt. -/
structure YieldInv (interrupt : Bool) (s : State) : Prop where
  skips : ∀ i, (s.wakes i).Skips
  quiet : (∀ i, (s.wakes i).interrupting = false) →
    s.notified = false ∧ (∀ ready, s.stage ≠ .requestInterrupt ready) ∧ (s.interrupt = true → interrupt = true)

theorem YieldInv.start (interrupt : Bool) : YieldInv interrupt (.start interrupt) :=
  ⟨fun _ => ⟨fun _ => ⟨nofun, nofun⟩, fun _ => rfl⟩, fun _ => ⟨rfl, nofun, id⟩⟩

variable {interrupt : Bool}

/-- The executor asks for an interrupt only when a wake was noted. -/
theorem advance_asks {ready : Bool} (hnext : advance s ready = some s') :
    s'.wakes = s.wakes ∧ (s'.notified = true → s.notified = true) ∧
      (∀ r, s'.stage = .requestInterrupt r → s.notified = true) ∧
      (s'.interrupt = true → s.interrupt = true ∨ ∃ r, s.stage = .requestInterrupt r) := by
  unfold Worker.advance at hnext
  cases hstage : s.stage <;> rw [hstage] at hnext <;> cases hnext
  all_goals
    refine ⟨rfl, ?_, ?_, ?_⟩ <;> dsimp only <;> grind

theorem YieldInv.advance (h : YieldInv interrupt s) {ready : Bool} (hnext : advance s ready = some s') : YieldInv interrupt s' := by
  obtain ⟨hwakes, hnotified, hstage, hinterrupt⟩ := advance_asks hnext
  refine ⟨hwakes ▸ h.skips, fun hyields => ?_⟩
  obtain ⟨hquiet, hidle, hbef⟩ := h.quiet (hwakes ▸ hyields)
  refine ⟨?_, fun r hr => ?_, fun hset => ?_⟩
  · by_contra hset
    exact nomatch hquiet.symm.trans (hnotified (Bool.not_eq_false _ ▸ hset))
  · exact nomatch hquiet.symm.trans (hstage r hr)
  · rcases hinterrupt hset with hset | ⟨r, hr⟩
    · exact hbef hset
    · exact absurd hr (hidle r)

theorem setWake_self (s : State) (i : Nat) (wake : Wake) : (s.setWake i wake).wakes i = wake := Function.update_self ..

/-- A wake stays what it was called as. -/
theorem setWake_interrupting (h : wake.interrupting = (s.wakes i).interrupting) (j : Nat) :
    ((s.setWake i wake).wakes j).interrupting = (s.wakes j).interrupting := by
  show (Function.update s.wakes i wake j).interrupting = _
  by_cases hj : j = i
  · rw [hj, Function.update_self]
    exact h
  · rw [Function.update_of_ne hj]

/-- Wakes that all yield did so before. -/
theorem yields_before (h : ∀ j, ((s.setWake i wake).wakes j).interrupting = false)
    (hwake : wake.interrupting = (s.wakes i).interrupting) (j : Nat) : (s.wakes j).interrupting = false :=
  (setWake_interrupting hwake j).symm.trans (h j)

/-- A wake that is to notify or request is an interrupting one. -/
theorem Wake.Skips.interrupts (h : wake.Skips) (hstage : wake.stage = .notify ∨ wake.stage = .request) :
    wake.interrupting = true := by
  by_contra hyield
  obtain ⟨hnotify, hreq⟩ := h.1 (Bool.not_eq_true _ ▸ hyield)
  exact hstage.elim hnotify hreq

theorem YieldInv.wakeNext (h : YieldInv interrupt s) (hnext : wakeNext s i = some s') : YieldInv interrupt s' := by
  have hskips := h.skips i
  unfold Worker.wakeNext at hnext
  dsimp only at hnext
  cases hwake : (s.wakes i).stage with
  | unused | done =>
    rw [hwake] at hnext
    exact nomatch hnext
  | notify =>
    rw [hwake] at hnext
    cases hnext
    refine ⟨forall_setWake ⟨fun hyield => ?_, nofun⟩ h.skips, fun hyields => ?_⟩
    · exact nomatch hyield.symm.trans (hskips.interrupts (.inl hwake))
    · exact nomatch (yields_before hyields rfl i).symm.trans (hskips.interrupts (.inl hwake))
  | request =>
    rw [hwake] at hnext
    cases hnext
    refine ⟨forall_setWake ⟨fun _ => ⟨nofun, nofun⟩, nofun⟩ h.skips, fun hyields => ?_⟩
    exact nomatch (yields_before hyields rfl i).symm.trans (hskips.interrupts (.inr hwake))
  | mark =>
    rw [hwake] at hnext
    cases hnext
    exact ⟨forall_setWake ⟨fun _ => ⟨nofun, nofun⟩, nofun⟩ h.skips,
      fun hyields => h.quiet (yields_before hyields rfl)⟩
  | unpark =>
    rw [hwake] at hnext
    cases hnext
    exact ⟨forall_setWake ⟨fun _ => ⟨nofun, nofun⟩, nofun⟩ h.skips,
      fun hyields => h.quiet (yields_before hyields rfl)⟩

theorem YieldInv.call (h : YieldInv interrupt s) {owner : Bool} (hnext : call s i owner = some s') :
    YieldInv interrupt s' := by
  have hskips := h.skips i
  unfold Worker.call at hnext
  split at hnext
  next hunused =>
    split at hnext
    next =>
      cases hnext
      exact ⟨forall_setWake ⟨fun _ => ⟨nofun, nofun⟩, nofun⟩ h.skips,
        fun hyields => h.quiet (yields_before hyields (hskips.2 hunused).symm)⟩
    next =>
      cases hnext
      refine ⟨forall_setWake ⟨nofun, nofun⟩ h.skips, fun hyields => ?_⟩
      have hself : ((s.setWake i ⟨true, .notify, none, none⟩).wakes i).interrupting = true :=
        congrArg Wake.interrupting (setWake_self ..)
      exact nomatch (hyields i).symm.trans hself
  next => exact nomatch hnext

theorem YieldInv.next (h : YieldInv interrupt s) {action : Action} (hnext : next s action = some s') : YieldInv interrupt s' := by
  cases action with
  | advance ready => exact h.advance hnext
  | call i owner => exact h.call hnext
  | wake i => exact h.wakeNext hnext
  | enterYield =>
    cases hnext
    exact ⟨h.skips, h.quiet⟩
  | run | repoll | cancel =>
    unfold Worker.next at hnext
    dsimp only at hnext
    split at hnext
    next =>
      cases hnext
      exact ⟨h.skips, fun hyields => ⟨(h.quiet hyields).1, nofun, (h.quiet hyields).2.2⟩⟩
    next => exact nomatch hnext
  | leaveYield =>
    unfold Worker.next at hnext
    dsimp only at hnext
    split at hnext
    next =>
      cases hnext
      exact ⟨h.skips, h.quiet⟩
    next => exact nomatch hnext

theorem YieldInv.step (h : YieldInv interrupt s) (action : Action) : YieldInv interrupt (step s action) := by
  unfold Worker.step
  cases hnext : Worker.next s action with
  | none => exact h
  | some s' => exact h.next hnext

theorem yieldInv_run (interrupt : Bool) (actions : List Action) :
    YieldInv interrupt (Run.after step (.start interrupt) actions) :=
  Run.invariant (fun _ action h => h.step action) (.start interrupt) actions

/-- The first wake of a yield is not an interrupting one. -/
theorem call_yielding (hyielding : s.yielding = true) (hunused : (s.wakes i).stage = .unused) :
    ((step s (.call i true)).wakes i).interrupting = false := by
  have hcall : next s (.call i true) = some { s.setWake i ⟨false, .mark, none, none⟩ with yielding := false } := by
    show call s i true = _
    unfold call
    rw [hunused]
    exact if_pos hyielding
  unfold step
  rw [hcall]
  exact congrArg Wake.interrupting (setWake_self s i _)

/-- The operations of a yielding wake leave the request and the note. -/
theorem wake_yielding (hskips : (s.wakes i).Skips) (hyield : (s.wakes i).interrupting = false) :
    (step s (.wake i)).interrupt = s.interrupt ∧ (step s (.wake i)).notified = s.notified := by
  obtain ⟨hnotify, hreq⟩ := hskips.1 hyield
  have hnext : next s (.wake i) = wakeNext s i := rfl
  unfold step
  rw [hnext]
  unfold wakeNext
  dsimp only
  cases hwake : (s.wakes i).stage with
  | notify => exact absurd hwake hnotify
  | request => exact absurd hwake hreq
  | unused | mark | unpark | done => exact ⟨rfl, rfl⟩

/-- The state after a run from the executor's creation. -/
def reached (interrupt : Bool) (actions : List Action) : State := Run.after step (.start interrupt) actions

/-- In every interleaving of the executor's operations with those of any number of wakes:

    - while the executor parks, a completed wake that marked it after the last root poll began made the park ready, or
      woke the outer task;
    - while a root poll executes, an interrupting wake that made its request, and that no complete root poll followed,
      finds the request set;
    - the first wake of a yield is not an interrupting one, wakes that are not leave the request and the note as they are,
      and without interrupting wakes no request is made. -/
theorem wakes_not_lost (interrupt : Bool) (actions : List Action) :
    ((reached interrupt actions).Parking → ∀ i, ((reached interrupt actions).wakes i).stage = .done →
      (reached interrupt actions).Marked ((reached interrupt actions).wakes i) →
      (reached interrupt actions).ParkReady ∨ (reached interrupt actions).woken = true) ∧
    ((reached interrupt actions).Polling → ∀ i, ((reached interrupt actions).wakes i).Requested →
      (reached interrupt actions).Unserved ((reached interrupt actions).wakes i) →
      (reached interrupt actions).interrupt = true) ∧
    (∀ i, (reached interrupt actions).yielding = true → ((reached interrupt actions).wakes i).stage = .unused →
      ((step (reached interrupt actions) (.call i true)).wakes i).interrupting = false) ∧
    (∀ i, ((reached interrupt actions).wakes i).interrupting = false →
      (step (reached interrupt actions) (.wake i)).interrupt = (reached interrupt actions).interrupt ∧
        (step (reached interrupt actions) (.wake i)).notified = (reached interrupt actions).notified) ∧
    ((∀ i, ((reached interrupt actions).wakes i).interrupting = false) → (reached interrupt actions).interrupt = true →
      interrupt = true) := by
  have hinv : Inv (reached interrupt actions) := inv_run interrupt actions
  have hyield : YieldInv interrupt (reached interrupt actions) := yieldInv_run interrupt actions
  generalize reached interrupt actions = s at hinv hyield
  refine ⟨fun hparking i hdone hmarked => ?_, fun hpolling i hrequested hunserved => ?_,
    fun i hyielding hunused => call_yielding hyielding hunused, fun i => wake_yielding (hyield.skips i),
    fun hyields => (hyield.quiet hyields).2.2⟩
  · have hwake := hinv.wakes i
    by_cases hparked : s.stage = .parked
    · exact .inr ((hwake.parked hparked hmarked).resolve_right (by rw [hdone]; exact nofun))
    · refine .inl ⟨hparked, hwake.runnable ?_ hmarked⟩
      rcases hparking with h | h | h | h <;> rw [h] <;> exact nofun
  · refine (hinv.wakes i).heard ?_ hrequested hunserved
    rcases hpolling with h | h <;> rw [h] <;> exact id

/-- A wake that arrives between the last check and the pending park. -/
theorem wakes_not_lost_parked :
    (reached false [.run, .advance false, .advance false, .advance false, .advance false, .advance false, .advance false,
      .advance false, .advance false, .advance false, .call 0 false, .advance false, .wake 0, .wake 0, .wake 0,
      .wake 0]).woken = true := by
  refine Or.resolve_left ((wakes_not_lost false _).1 (.inr (.inr (.inr ?_))) 0 ?_ ?_) fun hready => ?_
  · rfl
  · rfl
  · rfl
  · exact hready.1 rfl

end Relocade.Worker
