import Relocade.Pit.Timer

/-!
# `Pit.Polling` — timer interrupts do not depend on when the timer is polled

Synchronizing more often changes neither the channels nor the level of IRQ0, since advancing is additive and the clock
conversion is absolute. Under an edge-triggered PIC the request of IRQ0 records the rises of OUT0: the edge search
finds them however long a synchronization was delayed.
-/

namespace Relocade.Pit

open Pic

variable {W : Type}

/-! ## The clock -/

theorem clocksAt_mono {a b : Nat} (h : a ≤ b) : clocksAt a ≤ clocksAt b :=
  Nat.div_le_div_right (Nat.mul_le_mul_right _ h)

/-! ## Polling -/

/-- Events whose clocks do not run backwards, from `start` to `stop`. -/
def InOrder (start : Nat) : List (Event W) → Nat → Prop
  | [], stop => start ≤ stop
  | e :: events, stop =>
      match e.now? with
      | some now => start ≤ now ∧ InOrder now events stop
      | none => InOrder start events stop

/-- Whether an event does more to the timer than to synchronize it. An access of another width or port does not. -/
def Event.programs : Event W → Bool
  | .wake _ | .pic _ => false
  | .readPort _ port bytes => bytes = 1 ∧ (port = channel0Port ∨ port = channel2Port)
  | .writePort _ port bytes _ => bytes = 1 ∧ (port = channel0Port ∨ port = channel2Port ∨ port = controlPort)
  | _ => true

theorem apply_of_not_programs {e : Event W} (h : e.programs = false) (p : Pit) : (e.apply p).1 = p := by
  cases e with
  | readPort now port bytes =>
    have hother := of_decide_eq_false h
    rw [Event.apply]
    split
    · next hbytes =>
        obtain ⟨h0, h2⟩ := not_or.mp fun hport => hother ⟨hbytes, hport⟩
        rw [readRegister, if_neg h0, if_neg h2]
    · rfl
  | writePort now port bytes value =>
    have hother := of_decide_eq_false h
    rw [Event.apply]
    split
    · next hbytes =>
        obtain ⟨h0, hrest⟩ := not_or.mp fun hport => hother ⟨hbytes, hport⟩
        obtain ⟨h2, hcontrol⟩ := not_or.mp hrest
        have hchannel : writtenChannel port (value.setWidth 8) = none := by
          rw [writtenChannel, if_neg h0, if_neg h2, if_neg hcontrol]
        rw [writeRegister, if_neg fun hboth => hcontrol hboth.1, hchannel]
    · rfl
  | wake now => rfl
  | pic op => rfl
  | _ => cases h

/-- The accesses of registers and the gate changes of a history. -/
def programming (events : List (Event W)) : List (Event W) := events.filter Event.programs

theorem InOrder.mono {start start' stop : Nat} {events : List (Event W)} (h : InOrder start events stop)
    (hle : start' ≤ start) : InOrder start' events stop := by
  induction events with
  | nil => exact Nat.le_trans hle h
  | cons e events ih =>
    unfold InOrder at h ⊢
    split at h
    · exact ⟨Nat.le_trans hle h.1, h.2⟩
    · exact ih h

theorem InOrder.programming {start stop : Nat} {events : List (Event W)} (h : InOrder start events stop) :
    InOrder start (programming events) stop := by
  induction events generalizing start with
  | nil => exact h
  | cons e events ih =>
    unfold InOrder at h
    by_cases hp : e.programs = true
    · rw [Pit.programming, List.filter_cons_of_pos hp, InOrder]
      split at h
      · exact ⟨h.1, ih h.2⟩
      · exact ih h
    · rw [Pit.programming, List.filter_cons_of_neg hp]
      split at h
      · exact (ih h.2).mono h.1
      · exact ih h

/-- The registers after some events. -/
def run (p : Pit) (events : List (Event W)) : Pit := Run.after (fun p e => (p.step e).1) p events

/-- The invariant of both channels. -/
structure Valid (p : Pit) : Prop where
  channel0 : p.channel0.Valid
  channel2 : p.channel2.Valid

section

variable {p : Pit}

theorem Valid.withClock (now : Nat) : (Pit.withClock now).Valid := by
  have hdefault : Counter.default.Valid := ⟨by decide, by decide⟩
  refine ⟨?_, hdefault⟩
  have hprogrammed : ((((Counter.default.setGate true).program 0x36).write 0).write 0).Valid :=
    (((hdefault.setGate true).program 0x36).write 0).write 0
  show (Counter.advance _ 1).1.Valid
  rw [Counter.advance_eq_iterate hprogrammed]
  exact hprogrammed.iterate 1

theorem Valid.sync (h : p.Valid) (now : Nat) : (syncToClock (W := W) p now).1.Valid := by
  constructor
  · show (p.channel0.advance _).1.Valid
    rw [Counter.advance_eq_iterate h.channel0]
    exact h.channel0.iterate _
  · show (p.channel2.advance _).1.Valid
    rw [Counter.advance_eq_iterate h.channel2]
    exact h.channel2.iterate _

theorem Valid.readBack (h : p.Valid) (value : BitVec 8) : (p.readBack value).Valid := by
  unfold Pit.readBack
  dsimp only
  split
  · constructor
    · dsimp only
      split
      · exact h.channel0.latch _ _
      · exact h.channel0
    · dsimp only
      split
      · exact h.channel2.latch _ _
      · exact h.channel2
  · exact h

theorem readBack_output (p : Pit) (value : BitVec 8) :
    (p.readBack value).channel0.output = p.channel0.output ∧ (p.readBack value).atTime = p.atTime := by
  unfold Pit.readBack
  dsimp only
  split
  · refine ⟨?_, rfl⟩
    dsimp only
    split
    · exact Counter.latch_output _ _ _
    · rfl
  · exact ⟨rfl, rfl⟩

/-- A write drives IRQ0 to the new OUT0, or leaves OUT0 alone. -/
theorem writeRegister_spec (h : p.Valid) (port : Nat) (value : BitVec 8) :
    let r := writeRegister (W := W) p port value
    r.1.Valid ∧ r.1.atTime = p.atTime ∧
      ((r.2 = [] ∧ r.1.channel0.output = p.channel0.output) ∨ r.2 = [.setLevel timerIrq r.1.channel0.output]) := by
  unfold writeRegister
  dsimp only
  split
  · obtain ⟨hout, hat⟩ := readBack_output p value
    exact ⟨h.readBack value, hat, Or.inl ⟨rfl, hout⟩⟩
  have hacc : ∀ {c : Counter}, c.Valid → (if port = controlPort then c.program value else c.write value).Valid := by
    intro c hc
    split
    · exact hc.program value
    · exact hc.write value
  split
  · refine ⟨⟨hacc h.channel0, h.channel2⟩, rfl, ?_⟩
    by_cases hlatch : port = controlPort ∧ value &&& 0x30 = 0
    · refine Or.inl ⟨if_pos (decide_eq_true hlatch), ?_⟩
      show (if port = controlPort then p.channel0.program value else p.channel0.write value).output = _
      rw [if_pos hlatch.1, Counter.program, if_pos hlatch.2]
      exact Counter.latch_output _ _ _
    · exact Or.inr (if_neg (fun h => hlatch (of_decide_eq_true h)))
  · split
    · exact ⟨⟨h.channel0, hacc h.channel2⟩, rfl, Or.inl ⟨rfl, rfl⟩⟩
    · exact ⟨⟨h.channel0, hacc h.channel2⟩, rfl, Or.inl ⟨rfl, rfl⟩⟩
  · exact ⟨h, rfl, Or.inl ⟨rfl, rfl⟩⟩

/-- What an event does to the synchronized timer. -/
theorem apply_spec (h : p.Valid) (e : Event W) :
    (e.apply p).1.Valid ∧ (e.apply p).1.atTime = p.atTime ∧
      (((e.apply p).2 = [] ∧ (e.apply p).1.channel0.output = p.channel0.output) ∨
        (e.apply p).2 = [.setLevel timerIrq (e.apply p).1.channel0.output]) := by
  cases e with
  | wake now => exact ⟨h, rfl, Or.inl ⟨rfl, rfl⟩⟩
  | pic op => exact ⟨h, rfl, Or.inl ⟨rfl, rfl⟩⟩
  | takeChannel2Update => exact ⟨⟨h.channel0, h.channel2⟩, rfl, Or.inl ⟨rfl, rfl⟩⟩
  | setChannel2Gate now high => exact ⟨⟨h.channel0, h.channel2.setGate high⟩, rfl, Or.inl ⟨rfl, rfl⟩⟩
  | readPort now port bytes =>
    unfold Event.apply
    dsimp only
    split
    · unfold readRegister
      split
      · exact ⟨⟨h.channel0.read, h.channel2⟩, rfl, Or.inl ⟨rfl, Counter.read_output _⟩⟩
      split
      · exact ⟨⟨h.channel0, h.channel2.read⟩, rfl, Or.inl ⟨rfl, rfl⟩⟩
      · exact ⟨h, rfl, Or.inl ⟨rfl, rfl⟩⟩
    · exact ⟨h, rfl, Or.inl ⟨rfl, rfl⟩⟩
  | writePort now port bytes value =>
    unfold Event.apply
    dsimp only
    split
    · exact writeRegister_spec h port _
    · exact ⟨h, rfl, Or.inl ⟨rfl, rfl⟩⟩

theorem Valid.step (h : p.Valid) (e : Event W) : (p.step e).1.Valid := by
  unfold Pit.step
  split
  · exact (apply_spec (h.sync _) e).1
  · exact (apply_spec h e).1

/-- Two synchronizations do what the later one does alone. -/
theorem sync_sync (h : p.Valid) {t t' : Nat} (ht : p.atTime ≤ t) (ht' : t ≤ t') :
    (syncToClock (W := W) (syncToClock (W := W) p t).1 t').1 = (syncToClock (W := W) p t').1 := by
  have hclocks : clocksAt t' - clocksAt p.atTime =
      (clocksAt t - clocksAt p.atTime) + (clocksAt t' - clocksAt t) := by
    have := clocksAt_mono ht
    have := clocksAt_mono ht'
    omega
  unfold syncToClock
  dsimp only
  rw [hclocks, Counter.advance_add h.channel0, Counter.advance_add h.channel2]

/-- A synchronization before an event that synchronizes later is lost in it. -/
theorem step_sync (h : p.Valid) {t t' : Nat} (ht : p.atTime ≤ t) (ht' : t ≤ t') {e : Event W} (he : e.now? = some t') :
    ((syncToClock (W := W) p t).1.step e).1 = (p.step e).1 := by
  unfold Pit.step
  rw [he]
  dsimp only
  rw [sync_sync h ht ht']

/-- A synchronization before events that synchronize later is lost in them. -/
theorem run_sync (h : p.Valid) {t stop : Nat} (ht : p.atTime ≤ t) {events : List (Event W)}
    (hin : InOrder t events stop) :
    (syncToClock (W := W) ((syncToClock (W := W) p t).1.run events) stop).1 = (syncToClock (W := W) (p.run events) stop).1 := by
  induction events generalizing p with
  | nil => exact sync_sync h ht hin
  | cons e events ih =>
    rw [Pit.run, Pit.run, Run.after_cons, Run.after_cons]
    cases he : e.now? with
    | some t' =>
      rw [InOrder, he] at hin
      rw [step_sync h ht hin.1 he]
    | none =>
      rw [InOrder, he] at hin
      have hcomm : ((syncToClock (W := W) p t).1.step e).1 = (syncToClock (W := W) (p.step e).1 t).1 := by
        cases e with
        | takeChannel2Update => rfl
        | pic op => rfl
        | _ => exact absurd he (by simp [Event.now?])
      rw [hcomm]
      refine ih (h.step e) ?_ hin
      have hat : (p.step e).1.atTime = p.atTime := by
        unfold Pit.step
        rw [he]
        exact (apply_spec h e).2.1
      rwa [hat]

theorem step_atTime (h : p.Valid) {e : Event W} : (p.step e).1.atTime = e.now?.getD p.atTime := by
  unfold Pit.step
  cases he : e.now? with
  | some t => exact (apply_spec (h.sync t) e).2.1
  | none => exact (apply_spec h e).2.1

/-- The registers at the end of a history depend on its accesses of registers and its gate changes alone. -/
theorem run_programming (h : p.Valid) {events : List (Event W)} {stop : Nat} (hin : InOrder p.atTime events stop) :
    (syncToClock (W := W) (p.run events) stop).1 = (syncToClock (W := W) (p.run (programming events)) stop).1 := by
  induction events generalizing p with
  | nil => rfl
  | cons e events ih =>
    have hin' : InOrder (p.step e).1.atTime events stop := by
      rw [step_atTime h]
      rw [InOrder] at hin
      cases he : e.now? with
      | some t => rw [he] at hin; exact hin.2
      | none => rw [he] at hin; exact hin
    have htail := ih (h.step e) hin'
    rw [Pit.run, Run.after_cons]
    refine Eq.trans htail ?_
    by_cases hp : e.programs = true
    · rw [programming, programming, List.filter_cons_of_pos hp]
      rfl
    · rw [programming, programming, List.filter_cons_of_neg hp]
      have happly := apply_of_not_programs (Bool.eq_false_iff.mpr hp)
      rw [InOrder] at hin
      cases he : e.now? with
      | some t =>
        have hstep : (p.step e).1 = (syncToClock (W := W) p t).1 := by
          rw [Pit.step, he]
          exact happly _
        rw [he] at hin
        rw [hstep]
        exact run_sync h hin.1 hin.2.programming
      | none =>
        have hstep : (p.step e).1 = p := by
          rw [Pit.step, he]
          exact happly p
        rw [hstep]

end

/-! ## The line of IRQ0 -/

/-- Whether OUT0 has a low-to-high transition during an event: on the clocks it synchronizes, or forced by it. -/
def Rose (p : Pit) (e : Event W) : Prop :=
  match e.now? with
  | some now => p.channel0.Rises (clocksAt now - clocksAt p.atTime) ∨
      ((syncToClock (W := W) p now).1.channel0.output = false ∧ (p.step e).1.channel0.output = true)
  | none => False

/-- What line operations do to IRQ0: its request comes with a rise, in edge mode. -/
structure Drives (c d : Controller W) (level : Bool) (rise : Prop) : Prop where
  level : has d.levels timerIrq = level
  trigger : d.levelTriggered = c.levelTriggered
  request : c.levelTriggered = false → (has d.requests timerIrq = true ↔ has c.requests timerIrq = true ∨ rise)

variable (c : Controller W)

/-- Setting the line raises a request when the line was low. -/
theorem drives_setLevel (level : Bool) :
    Drives c (Pic.step c (.setLevel timerIrq level)) level (has c.levels timerIrq = false ∧ level = true) := by
  have hi : initializes (.setLevel timerIrq level : Op W) = false := rfl
  refine ⟨?_, step_levelTriggered hi, fun hedge => ?_⟩
  · rw [step_levels]
    exact if_pos rfl
  · rw [(step_requests hedge hi).2]
    cases level <;> simp [raises, acknowledges]

theorem Drives.trans {c d e : Controller W} {level level' : Bool} {rise rise' : Prop} (h : Drives c d level rise)
    (h' : Drives d e level' rise') : Drives c e level' (rise ∨ rise') := by
  refine ⟨h'.level, h'.trigger.trans h.trigger, fun hedge => ?_⟩
  rw [h'.request (h.trigger.trans hedge), h.request hedge, or_assoc]

theorem Drives.congr {c d : Controller W} {level : Bool} {rise rise' : Prop} (h : Drives c d level rise)
    (hiff : rise ↔ rise') : Drives c d level rise' :=
  ⟨h.level, h.trigger, fun hedge => (h.request hedge).trans (or_congr_right hiff)⟩

theorem drives_pulse : Drives c (Pic.run c (pulse timerIrq)) false True := by
  have h₁ := drives_setLevel c false
  have h₂ := drives_setLevel (Pic.step c (.setLevel timerIrq false)) true
  have h₃ := drives_setLevel (Pic.step (Pic.step c (.setLevel timerIrq false)) (.setLevel timerIrq true)) false
  refine ((h₁.trans h₂).trans h₃).congr ⟨fun _ => trivial, fun _ => Or.inl (Or.inr ⟨h₁.level, rfl⟩)⟩

theorem run_line (xs ys : List (Op W)) : Pic.run c (xs ++ ys) = Pic.run (Pic.run c xs) ys :=
  Run.after_append xs ys

/-- A synchronization leaves the line at OUT0 and requests an interrupt when OUT0 rose. -/
theorem drives_sync {p : Pit} (h : p.Valid) {c : Controller W} (hlevel : has c.levels timerIrq = p.channel0.output)
    (now : Nat) :
    Drives c (Pic.run c (p.syncToClock now).2) (syncToClock (W := W) p now).1.channel0.output
      (p.channel0.Rises (clocksAt now - clocksAt p.atTime)) := by
  have hedge := Counter.nextRisingEdge_le_iff h.channel0 (clocksAt now - clocksAt p.atTime)
  have hstay : p.channel0.output = false → ¬ p.channel0.Rises (clocksAt now - clocksAt p.atTime) →
      (Counter.tick^[clocksAt now - clocksAt p.atTime] p.channel0).output = false :=
    fun hlow hrises => Counter.output_iterate_of_not_rises hlow hrises
  rw [← Counter.advance_eq_iterate h.channel0] at hstay
  by_cases hrise : p.channel0.Rises (clocksAt now - clocksAt p.atTime)
  · obtain ⟨edge, hnext, hle⟩ := hedge.mpr hrise
    have hops : (syncToClock (W := W) p now).2 =
        pulse timerIrq ++ [.setLevel timerIrq (syncToClock (W := W) p now).1.channel0.output] := by
      unfold syncToClock
      dsimp only
      rw [hnext]
      dsimp only
      rw [if_pos hle]
    rw [hops, run_line]
    refine ((drives_pulse c).trans (drives_setLevel _ _)).congr ?_
    simp [hrise]
  · have hops : (syncToClock (W := W) p now).2 =
        [.setLevel timerIrq (syncToClock (W := W) p now).1.channel0.output] := by
      unfold syncToClock
      dsimp only
      cases hnext : p.channel0.nextRisingEdge with
      | none => rfl
      | some edge =>
        dsimp only
        rw [if_neg fun hle => hrise (hedge.mp ⟨edge, hnext, hle⟩)]
        rfl
    rw [hops]
    refine (drives_setLevel c _).congr ⟨fun hup => absurd hup.2 ?_, fun hr => absurd hr hrise⟩
    rw [Bool.not_eq_true]
    exact hstay (hlevel.symm.trans hup.1) hrise

/-- An event of the timer leaves the line at OUT0 and requests an interrupt when OUT0 rose. -/
theorem drives_step {p : Pit} (h : p.Valid) {c : Controller W} (hlevel : has c.levels timerIrq = p.channel0.output)
    {e : Event W} {now : Nat} (he : e.now? = some now) :
    Drives c (Pic.run c (p.step e).2) (p.step e).1.channel0.output (Rose p e) := by
  have hsync := drives_sync h hlevel now
  obtain ⟨-, -, hline⟩ := apply_spec (h.sync (W := W) now) e
  have hstep : p.step e = ((e.apply (syncToClock (W := W) p now).1).1,
      (p.syncToClock now).2 ++ (e.apply (syncToClock (W := W) p now).1).2) := by
    unfold Pit.step
    rw [he]
  have hrose : Rose p e ↔ p.channel0.Rises (clocksAt now - clocksAt p.atTime) ∨
      ((syncToClock (W := W) p now).1.channel0.output = false ∧
        (e.apply (syncToClock (W := W) p now).1).1.channel0.output = true) := by
    rw [Rose, he, hstep]
  rw [hstep, run_line]
  rcases hline with ⟨hnil, hout⟩ | hset
  · have hsame : ¬ ((syncToClock (W := W) p now).1.channel0.output = false ∧
        (syncToClock (W := W) p now).1.channel0.output = true) := by
      rintro ⟨hlow, hhi⟩
      rw [hlow] at hhi
      exact absurd hhi (by decide)
    rw [hnil, hout]
    rw [hout] at hrose
    exact hsync.congr ⟨fun hr => hrose.mpr (Or.inl hr), fun hr => (hrose.mp hr).resolve_right hsame⟩
  · rw [hset]
    refine (hsync.trans (drives_setLevel _ _)).congr ?_
    rw [hrose, hsync.level]

/-! ## The timer and its PIC -/

/-- Whether an event leaves the line of IRQ0 to the timer. -/
def Event.LeavesLine (e : Event W) : Prop := ∀ op, e = .pic op → ∀ high, drives op ≠ some (timerIrq, high)

/-- Whether an event acknowledges IRQ0 or initializes the PIC. -/
def Clears (t : Timer W) (e : Event W) : Prop :=
  ∃ op, e = .pic op ∧ (acknowledges t.pic op = some timerIrq ∨ initializes op = true)

/-- The invariant of a timer with its PIC. -/
structure Timer.Coherent (t : Timer W) : Prop where
  valid : t.pit.Valid
  level : has t.pic.levels timerIrq = t.pit.channel0.output

namespace Timer

variable {t : Timer W} {e : Event W}

theorem step_pit (t : Timer W) (e : Event W) : (t.step e).pit = (t.pit.step e).1 := by
  cases e <;> rfl

theorem run_pit (t : Timer W) (events : List (Event W)) : (t.run events).pit = t.pit.run events := by
  induction events generalizing t with
  | nil => rfl
  | cons e events ih =>
    refine (ih (t.step e)).trans ?_
    rw [step_pit]
    rfl

/-- An event of the timer drives the line as OUT0. -/
theorem drives_timer (h : t.Coherent) {now : Nat} (he : e.now? = some now) :
    Drives t.pic (t.step e).pic (t.step e).pit.channel0.output (Rose t.pit e) := by
  have hdrives := drives_step h.valid h.level he
  cases e with
  | pic op => exact absurd he (by simp [Event.now?])
  | takeChannel2Update => exact absurd he (by simp [Event.now?])
  | _ => exact hdrives

/-- An operation on the PIC leaves the line of IRQ0 alone. -/
theorem level_pic {op : Op W} (hline : (Event.pic op).LeavesLine) :
    has (Pic.step t.pic op).levels timerIrq = has t.pic.levels timerIrq := by
  rw [step_levels]
  cases hd : drives op with
  | none => rfl
  | some line =>
    obtain ⟨irq, high⟩ := line
    dsimp only
    rw [if_neg]
    rintro rfl
    exact hline op rfl high hd

theorem Coherent.step (h : t.Coherent) (hline : e.LeavesLine) : (t.step e).Coherent := by
  refine ⟨by rw [step_pit]; exact h.valid.step e, ?_⟩
  cases he : e.now? with
  | some now => exact (drives_timer h he).level
  | none =>
    cases e with
    | pic op => exact (level_pic hline).trans h.level
    | takeChannel2Update => exact h.level
    | _ => exact absurd he (by simp [Event.now?])

theorem raises_of_leavesLine {op : Op W} (hline : (Event.pic op).LeavesLine) (c : Controller W) :
    raises c op timerIrq = false := by
  cases op with
  | setLevel irq high =>
    cases high with
    | false => rfl
    | true =>
      have hne : irq ≠ timerIrq := by
        rintro rfl
        exact hline _ rfl true rfl
      simp [raises, hne]
  | _ => rfl

/-- An edge-mode request of IRQ0 comes with a rise of OUT0 and goes with an acknowledgement or an initialization. -/
theorem request_step (h : t.Coherent) (hline : e.LeavesLine) :
    EdgeRequest timerIrq (t.step e).pic ↔
      (t.pic.levelTriggered = false ∧ Rose t.pit e) ∨ (EdgeRequest timerIrq t.pic ∧ ¬ Clears t e) := by
  cases he : e.now? with
  | some now =>
    have hclears : ¬ Clears t e := by
      rintro ⟨op, rfl, -⟩
      exact absurd he (by simp [Event.now?])
    have hdrives := drives_timer h he
    unfold EdgeRequest
    rw [hdrives.trigger]
    constructor
    · rintro ⟨hedge, hreq⟩
      rcases (hdrives.request hedge).mp hreq with hold | hrose
      · exact Or.inr ⟨⟨hedge, hold⟩, hclears⟩
      · exact Or.inl ⟨hedge, hrose⟩
    · rintro (⟨hedge, hrose⟩ | ⟨⟨hedge, hold⟩, -⟩)
      · exact ⟨hedge, (hdrives.request hedge).mpr (Or.inr hrose)⟩
      · exact ⟨hedge, (hdrives.request hedge).mpr (Or.inl hold)⟩
  | none =>
    have hrose : ¬ Rose t.pit e := by
      unfold Rose
      rw [he]
      exact id
    have hnorise : ¬ (t.pic.levelTriggered = false ∧ Rose t.pit e) := fun hr => hrose hr.2
    rw [or_iff_right hnorise]
    cases e with
    | takeChannel2Update =>
      refine ⟨fun hr => ⟨hr, ?_⟩, And.left⟩
      rintro ⟨op, hop, -⟩
      cases hop
    | pic op =>
      show EdgeRequest timerIrq (Pic.step t.pic op) ↔ _
      by_cases hi : initializes op = true
      · refine ⟨fun hr => absurd hr.2 ?_, fun hr => absurd ⟨op, rfl, Or.inr hi⟩ hr.2⟩
        rw [(step_initializes hi).1]
        simp
      · have hi' : initializes op = false := by simpa using hi
        have hclears : Clears t (.pic op) ↔ acknowledges t.pic op = some timerIrq := by
          constructor
          · rintro ⟨op', hop, hack | hinit⟩
            · obtain rfl := Event.pic.inj hop
              exact hack
            · obtain rfl := Event.pic.inj hop
              exact absurd hinit hi
          · exact fun hack => ⟨op, rfl, Or.inl hack⟩
        unfold EdgeRequest
        rw [step_levelTriggered hi', hclears, and_assoc]
        refine and_congr_right fun hedge => ?_
        rw [(step_requests hedge hi').2, raises_of_leavesLine hline, Bool.or_false, Bool.and_eq_true,
          decide_eq_true_eq]
    | _ => exact absurd he (by simp [Event.now?])

theorem Coherent.withClock (now : Nat) (base : Byte) : (Timer.withClock (W := W) now base).Coherent := by
  refine ⟨Valid.withClock now, ?_⟩
  show has (Pic.step (Controller.new base : Controller W) _).levels timerIrq = _
  rw [step_levels]
  exact if_pos rfl

theorem not_edgeRequest_withClock (now : Nat) (base : Byte) :
    ¬ EdgeRequest timerIrq (Timer.withClock (W := W) now base).pic := by
  rintro ⟨-, hreq⟩
  have hi : initializes (.connect timerIrq (Pit.withClock now).channel0.output : Op W) = false := rfl
  have hstep := (step_requests (c := (Controller.new base : Controller W)) rfl hi).2 timerIrq
  rw [show (Timer.withClock (W := W) now base).pic = Pic.step (.new base) (.connect timerIrq _) from rfl, hstep] at hreq
  simp [Controller.new, raises] at hreq

theorem Coherent.run (h : t.Coherent) {events : List (Event W)} (hline : ∀ e ∈ events, e.LeavesLine) :
    (t.run events).Coherent := by
  induction events generalizing t with
  | nil => exact h
  | cons e events ih =>
    exact ih (h.step (hline e List.mem_cons_self)) fun e' he' => hline e' (List.mem_cons_of_mem _ he')

end Timer

/-- Timer interrupts do not depend on when the timer is polled. Two histories with the same port accesses and gate
    changes at the same clocks end in the same registers with IRQ0 at the same level, however they poll; and while the
    PIC is edge-triggered IRQ0 is requested exactly when OUT0 rose since it was last acknowledged or the PIC was
    initialized. -/
theorem timer_interrupts (now : Nat) (base : Byte) :
    (∀ (xs ys : List (Event W)) stop, InOrder now xs stop → InOrder now ys stop →
      (∀ e ∈ xs, e.LeavesLine) → (∀ e ∈ ys, e.LeavesLine) → programming xs = programming ys →
      ((Timer.withClock now base).run (xs ++ [.wake stop])).pit = ((Timer.withClock now base).run (ys ++ [.wake stop])).pit ∧
      has ((Timer.withClock now base).run (xs ++ [.wake stop])).pic.levels timerIrq =
        has ((Timer.withClock now base).run (ys ++ [.wake stop])).pic.levels timerIrq) ∧
    (∀ events : List (Event W), (∀ e ∈ events, e.LeavesLine) →
      ((Timer.withClock now base).run events).pic.levelTriggered = false →
      (has ((Timer.withClock now base).run events).pic.requests timerIrq = true ↔
        ∃ pre e post, events = pre ++ e :: post ∧
          (((Timer.withClock now base).run pre).pic.levelTriggered = false ∧
            Rose ((Timer.withClock now base).run pre).pit e) ∧
          ∀ q e' r, post = q ++ e' :: r → ¬ Clears ((Timer.withClock now base).run (pre ++ e :: q)) e')) := by
  have hwake : ∀ stop, (Event.wake stop : Event W).LeavesLine := fun stop op h => absurd h (by simp)
  constructor
  · intro xs ys stop hx hy hlx hly hprog
    have hfinal : ∀ zs : List (Event W), InOrder now zs stop →
        ((Timer.withClock now base).run (zs ++ [.wake stop])).pit =
          (syncToClock (W := W) ((Pit.withClock now).run (programming zs)) stop).1 := by
      intro zs hz
      rw [Timer.run_pit, Pit.run, Run.after_append]
      exact run_programming (Valid.withClock now) hz
    have hpit : ((Timer.withClock now base).run (xs ++ [.wake stop])).pit =
        ((Timer.withClock now base).run (ys ++ [.wake stop])).pit := by
      rw [hfinal xs hx, hfinal ys hy, hprog]
    refine ⟨hpit, ?_⟩
    have hlines : ∀ zs : List (Event W), (∀ e ∈ zs, e.LeavesLine) → ∀ e ∈ zs ++ [.wake stop], e.LeavesLine := by
      intro zs hz e he
      rcases List.mem_append.mp he with he | he
      · exact hz e he
      · obtain rfl := List.mem_singleton.mp he
        exact hwake stop
    rw [((Timer.Coherent.withClock now base).run (hlines xs hlx)).level,
      ((Timer.Coherent.withClock now base).run (hlines ys hly)).level, hpit]
  · intro events hline hedge
    have hsince := Run.since_iff (P := fun t => EdgeRequest timerIrq t.pic)
      (fun t (e : Event W) ht he => Timer.Coherent.step ht he) (fun t e ht he => Timer.request_step ht he)
      (Timer.Coherent.withClock now base) (Timer.not_edgeRequest_withClock now base) events hline
    exact ⟨fun hreq => hsince.mp ⟨hedge, hreq⟩, fun hrose => (hsince.mpr hrose).2⟩

end Relocade.Pit
