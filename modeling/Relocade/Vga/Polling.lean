import Relocade.Vga.Retrace

/-!
# `Vga.Polling` — raster time is independent of polling

A history is a list of events at clock times: polls, which only update the raster, and changes of its timing, which
update it first. Polls inside a history change nothing (`run_changes`): two histories with the same changes have the
same raster at every common time. After every history the next update counts the retraces in real time and the
deadline is the first time whose update counts one (`raster_time`).
-/

namespace Relocade.Vga

/-! ## Histories -/

inductive Action where
  | poll
  | setTiming (programming : Programming)
  | restart (programming : Programming)

structure Event where
  time : Nat
  action : Action

/-- A device access: it updates the raster before it changes the timing. -/
def Event.perform (r : Raster) (event : Event) : Option Raster := do
  let (_, r) ← r.updateTo event.time
  match event.action with
  | .poll => pure r
  | .setTiming programming =>
      let (_, r) ← r.setTiming programming.timing
      pure r
  | .restart programming => pure (r.restart programming.timing)

def run (r : Raster) : List Event → Option Raster
  | [] => some r
  | event :: events => do
      let r ← event.perform r
      run r events

def Event.isPoll (event : Event) : Bool :=
  match event.action with
  | .poll => true
  | _ => false

/-- The changes of a history. -/
def changes (events : List Event) : List Event := events.filter fun event => !event.isPoll

/-- The times of a history do not decrease, from a start and to a time. -/
def Timed (now : Nat) : Nat → List Event → Prop
  | start, [] => start ≤ now
  | start, event :: events => start ≤ event.time ∧ Timed now event.time events

variable {r : Raster} {start now : Nat} {events : List Event}

theorem Timed.le (h : Timed now start events) : start ≤ now := by
  induction events generalizing start with
  | nil => exact h
  | cons event events ih => exact Nat.le_trans h.1 (ih h.2)

theorem Timed.weaken {earlier : Nat} (h : Timed now start events) (hle : earlier ≤ start) : Timed now earlier events := by
  cases events with
  | nil => exact Nat.le_trans hle h
  | cons event events => exact ⟨Nat.le_trans hle h.1, h.2⟩

theorem Timed.changes (h : Timed now start events) : Timed now start (changes events) := by
  induction events generalizing start with
  | nil => exact h
  | cons event events ih =>
    unfold Vga.changes
    rw [List.filter_cons]
    split
    next => exact ⟨h.1, ih h.2⟩
    next => exact (ih h.2).weaken h.1

/-! ## Polls -/

/-- An event leaves a valid raster at its time. -/
theorem perform_spec (h : r.Valid) {event : Event} (hle : r.updated ≤ event.time) (htime : event.time < 2 ^ 64) :
    ∃ r', event.perform r = some r' ∧ r'.Valid ∧ r'.updated = event.time ∧ (event.isPoll → r' = r.advance event.time) := by
  have hvalid := r.advance_valid h hle
  rw [Event.perform, r.updateTo_eq h hle htime, Option.bind_eq_bind, Option.bind_some]
  unfold Event.isPoll
  cases event.action with
  | poll => exact ⟨_, rfl, hvalid, r.updated_advance _, fun _ => rfl⟩
  | setTiming programming =>
    obtain ⟨changed, r', hset, hvalid', hupdated, -⟩ := (r.advance event.time).setTiming_spec hvalid programming.decoded
    refine ⟨r', ?_, hvalid', hupdated.trans (r.updated_advance _), fun hpoll => by cases hpoll⟩
    dsimp only
    rw [hset]
    rfl
  | restart programming =>
    exact ⟨_, rfl, (r.advance event.time).restart_valid hvalid programming.decoded, r.updated_advance _,
      fun hpoll => by cases hpoll⟩

/-- A poll before an event is absorbed by it. -/
theorem perform_advance (h : r.Valid) {event : Event} (hle : r.updated ≤ now) (hle' : now ≤ event.time)
    (htime : event.time < 2 ^ 64) : event.perform (r.advance now) = event.perform r := by
  have hle'' : (r.advance now).updated ≤ event.time := by rwa [r.updated_advance]
  rw [Event.perform, (r.advance now).updateTo_eq (r.advance_valid h hle) hle'' htime,
    r.advance_advance h hle hle', Event.perform, r.updateTo_eq h (Nat.le_trans hle hle') htime]
  rfl

theorem run_spec (h : r.Valid) (htimed : Timed now r.updated events) (hnow : now < 2 ^ 64) :
    ∃ r', run r events = some r' ∧ r'.Valid ∧ r'.updated ≤ now := by
  induction events generalizing r with
  | nil => exact ⟨r, rfl, h, htimed⟩
  | cons event events ih =>
    have htime := Nat.lt_of_le_of_lt htimed.2.le hnow
    obtain ⟨r', hperform, hvalid, hupdated, -⟩ := perform_spec h htimed.1 htime
    rw [run, hperform]
    exact ih hvalid (hupdated ▸ htimed.2)

/-- A history followed by an update. -/
def finish (now : Nat) (r : Raster) (events : List Event) : Option Raster := (run r events).map (·.advance now)

/-- A poll before a history is absorbed by it. -/
theorem finish_advance {poll : Nat} (h : r.Valid) (hle : r.updated ≤ poll) (htimed : Timed now poll events)
    (hnow : now < 2 ^ 64) : finish now (r.advance poll) events = finish now r events := by
  cases events with
  | nil => exact congrArg some (r.advance_advance h hle htimed)
  | cons event events =>
    have htime := Nat.lt_of_le_of_lt htimed.2.le hnow
    unfold finish
    rw [run, run, perform_advance h hle htimed.1 htime]

/-- Only the changes of a history matter. -/
theorem finish_changes (h : r.Valid) (htimed : Timed now r.updated events) (hnow : now < 2 ^ 64) :
    finish now r events = finish now r (changes events) := by
  induction events generalizing r with
  | nil => rfl
  | cons event events ih =>
    have htime := Nat.lt_of_le_of_lt htimed.2.le hnow
    obtain ⟨r', hperform, hvalid, hupdated, hpoll⟩ := perform_spec h htimed.1 htime
    have hrest := ih hvalid (hupdated ▸ htimed.2)
    have hcons : finish now r (event :: events) = finish now r' events := by
      unfold finish
      rw [run, hperform]
      rfl
    rw [hcons, hrest]
    unfold changes
    rw [List.filter_cons]
    by_cases hevent : event.isPoll
    · rw [if_neg (by simp [hevent]), hpoll hevent]
      exact finish_advance h htimed.1 htimed.2.changes hnow
    · rw [if_pos (by simp [hevent])]
      unfold finish
      rw [run, hperform]
      rfl

/-! ## Raster time -/

theorem new_valid (start : Nat) (programming : Programming) : (Raster.new start programming.timing).Valid :=
  ⟨programming.decoded, programming.timing.frame_pos programming.decoded,
    programming.timing.denominator_pos programming.decoded, Nat.zero_le _⟩

/-- What an update of a raster does in real time. -/
structure Exact (r : Raster) (now : Nat) (date : Option Nat) (r' : Raster) : Prop where
  dot : r'.dot < r'.timing.frame
  remainder : r'.dotRemainder < r'.timing.denominator
  count : r'.retraceCount = r.retraceCount + (r.crossed now).ncard
  undated : date = none ↔ r.crossed now = ∅
  dated : ∀ d ∈ date, ∃ t, IsGreatest (r.crossed now) t ∧ ⌈t⌉ = (d : ℤ)

theorem updateTo_exact (h : r.Valid) (hle : r.updated ≤ now) (hnow : now < 2 ^ 64) :
    ∃ date, r.updateTo now = some (date, r.advance now) ∧ Exact r now date (r.advance now) := by
  have hvalid := r.advance_valid h hle
  obtain ⟨hundated, hdated⟩ := r.latest_spec h hle
  refine ⟨_, r.updateTo_eq h hle hnow, hvalid.dot, hvalid.remainder, ?_, hundated, hdated⟩
  rw [r.ncard_crossed h hle]
  unfold Raster.advance
  split
  next hrun =>
    have hretraces : r.retraces now = 0 := by
      unfold Raster.retraces Timing.retrace
      rw [if_neg fun hcond => hrun hcond.1]
    rw [hretraces]
    rfl
  next => rfl

/-- Raster time is exact and independent of polling. -/
theorem raster_time (start now : Nat) (programming : Programming) (xs ys : List Event)
    (hxs : Timed now start xs) (hys : Timed now start ys) (hchanges : changes xs = changes ys) (hnow : now < 2 ^ 64) :
    ∃ r s, run (Raster.new start programming.timing) xs = some r ∧
      run (Raster.new start programming.timing) ys = some s ∧
      (r.dot < r.timing.frame ∧ r.dotRemainder < r.timing.denominator) ∧
      (∃ date date' r', r.updateTo now = some (date, r') ∧ s.updateTo now = some (date', r') ∧ Exact r now date r') ∧
      ∃ next, r.nextRetraceAt = some next ∧ ∀ later, r.updated ≤ later → later < 2 ^ 64 →
        ((∃ date r', r.updateTo later = some (date, r') ∧ r.retraceCount < r'.retraceCount) ↔ ∃ n ∈ next, n ≤ later) := by
  have hnew := new_valid start programming
  obtain ⟨r, hr, hvalid, hupdated⟩ := run_spec hnew hxs hnow
  obtain ⟨s, hs, hvalid', hupdated'⟩ := run_spec hnew hys hnow
  have hsame : r.advance now = s.advance now := by
    have hx := finish_changes hnew hxs hnow
    rw [hchanges, ← finish_changes hnew hys hnow] at hx
    unfold finish at hx
    rw [hr, hs] at hx
    exact Option.some.inj hx
  obtain ⟨date, hupdate, hexact⟩ := updateTo_exact hvalid hupdated hnow
  obtain ⟨date', hupdate', -⟩ := updateTo_exact hvalid' hupdated' hnow
  obtain ⟨next, hnext, hiff⟩ := r.nextRetraceAt_spec hvalid (Nat.lt_of_le_of_lt hupdated hnow)
  refine ⟨r, s, hr, hs, ⟨hvalid.dot, hvalid.remainder⟩, ⟨date, date', _, hupdate, hsame ▸ hupdate', hexact⟩, next, hnext,
    fun later hle hlater => Iff.trans ?_ (hiff later hle)⟩
  obtain ⟨date'', hupdate'', hexact''⟩ := updateTo_exact hvalid hle hlater
  have hcount := hexact''.count
  rw [r.ncard_crossed hvalid hle] at hcount
  constructor
  · rintro ⟨d, r', hr', hlt⟩
    rw [hupdate''] at hr'
    cases hr'
    omega
  · intro hpos
    exact ⟨date'', _, hupdate'', by omega⟩

/-- A poll before a mode change changes nothing. -/
theorem raster_time_poll : ∃ r s,
    run (Raster.new 0 (Programming.svga .r640x480).timing) [⟨7, .poll⟩, ⟨9, .restart (.svga .r800x600)⟩] = some r ∧
      run (Raster.new 0 (Programming.svga .r640x480).timing) [⟨9, .restart (.svga .r800x600)⟩] = some s ∧
        ∃ date date' r', r.updateTo 20 = some (date, r') ∧ s.updateTo 20 = some (date', r') := by
  obtain ⟨r, s, hr, hs, -, ⟨date, date', r', h, h', -⟩, -⟩ :=
    raster_time 0 20 (.svga .r640x480) [⟨7, .poll⟩, ⟨9, .restart (.svga .r800x600)⟩]
      [⟨9, .restart (.svga .r800x600)⟩] ⟨Nat.zero_le 7, Nat.le_add_right 7 2, Nat.le_add_right 9 11⟩
      ⟨Nat.zero_le 9, Nat.le_add_right 9 11⟩ rfl (by decide)
  exact ⟨r, s, hr, hs, date, date', r', h, h'⟩

/-- The latest retrace is not dated at its time rounded down. -/
theorem dated_not_floor : ∃ r' t,
    (Raster.new 0 (Programming.svga .r640x480).timing).updateTo 15571003 = some (some 15571003, r') ∧
      IsGreatest ((Raster.new 0 (Programming.svga .r640x480).timing).crossed 15571003) t ∧ ⌊t⌋ ≠ (15571003 : ℤ) := by
  have hvalid := new_valid 0 (.svga .r640x480)
  have hupdate := @Raster.updateTo_eq _ hvalid 15571003 (Nat.zero_le _) (by decide)
  have hlatest : (Raster.new 0 (Programming.svga .r640x480).timing).latest 15571003 = some 15571003 := by decide
  obtain ⟨t, ht, hceil⟩ := (Raster.latest_spec hvalid (Nat.zero_le 15571003)).2 _ hlatest
  refine ⟨_, t, hlatest ▸ hupdate, ht, fun hfloor => ?_⟩
  have hle := Int.floor_le t
  have hge := Int.le_ceil t
  rw [hfloor] at hle
  rw [hceil] at hge
  have heq : t = 15571003 := le_antisymm (by exact_mod_cast hge) (by exact_mod_cast hle)
  obtain ⟨-, -, boundary, hboundary, n, hposition⟩ := ht.1
  have hboundary' : boundary = 392000 := Option.some.inj (hboundary.symm.trans (by decide))
  rw [heq, hboundary'] at hposition
  have hdots : ((0 : ℕ) : ℚ) + (((0 : ℕ) : ℚ) + (15571003 - ((0 : ℕ) : ℚ)) * ((25175000 : ℕ) : ℚ)) /
      ((1000000000 : ℕ) : ℚ) = ((392000 : ℕ) : ℚ) + n * ((420000 : ℕ) : ℚ) := hposition
  have hnat : (15571003 * 25175000 : ℚ) = (392000 + n * 420000) * 1000000000 := by
    push_cast at hdots
    linarith
  have hnat' : 15571003 * 25175000 = (392000 + n * 420000) * 1000000000 := by exact_mod_cast hnat
  omega

end Relocade.Vga
