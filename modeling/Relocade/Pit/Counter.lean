import Mathlib.Algebra.Order.Ring.Nat
import Mathlib.Data.Nat.Count
import Mathlib.Logic.Function.Iterate

/-!
# `Pit.Counter` — one 8254 counter

A counter is programmed and read byte by byte and advances in whole input clocks, any number at once. The abstract
counter `tick` takes one clock; `advance` refines its iteration (`advance_eq_iterate`), so advancing is additive.
-/

namespace Relocade.Pit

/-- One counter. The source keeps the counts in `u32`; they never exceed 65536. -/
structure Counter where
  control : BitVec 8
  gate : Bool
  reload : Nat
  active : Nat
  phase : Nat
  loading : Bool
  nullCount : Bool
  writeLow : Option (BitVec 8)
  readHigh : Bool
  latchedCount : Option (BitVec 16)
  latchedStatus : Option (BitVec 8)
  deriving DecidableEq, Repr

namespace Counter

def default : Counter where
  control := 0
  gate := false
  reload := 0
  active := 0
  phase := 0
  loading := false
  nullCount := false
  writeLow := none
  readHigh := false
  latchedCount := none
  latchedStatus := none

variable (c : Counter)

/-- The supported modes: 2 and 3, binary. -/
def mode : Option Nat :=
  let mode := ((c.control >>> 1) &&& 3).toNat
  if c.control &&& 1 = 0 ∧ (mode = 2 ∨ mode = 3) then some mode else none

def highClocks : Nat := if c.mode = some 3 then (c.active + 1) / 2 else c.active - 1

def output : Bool :=
  c.mode.isSome && (!c.gate || c.loading || c.active = 0 || decide (c.phase < c.highClocks))

def load : Counter := { c with active := if c.reload ≥ 2 then c.reload else 0, nullCount := false }

/-- The count that software reads. -/
def count : BitVec 16 :=
  .ofNat 16 (
    if c.mode = some 2 then c.active - c.phase
    else if c.active = 0 then 0
    else
      let halfPhase := if c.phase < c.highClocks then c.phase else c.phase - c.highClocks
      -- an odd count loses its low bit
      c.active / 2 * 2 - 2 * halfPhase)

/-- Preserves each requested value until it has been read completely. -/
def latch (count status : Bool) : Counter :=
  let c := if count ∧ c.latchedCount = none then { c with latchedCount := some c.count } else c
  let bits : BitVec 8 := c.control ||| (BitVec.ofNat 8 c.nullCount.toNat <<< 6) |||
    (BitVec.ofNat 8 c.output.toNat <<< 7)
  if status ∧ c.latchedStatus = none then { c with latchedStatus := some bits } else c

/-- Programs the low six bits of a control word. Access mode zero latches the count. -/
def program (value : BitVec 8) : Counter :=
  if value &&& 0x30 = 0 then c.latch true false
  else { default with control := value &&& 0x3F, gate := c.gate, nullCount := true }

/-- Writes a count byte in the programmed access order. -/
def write (value : BitVec 8) : Counter :=
  let finish (c : Counter) (count : BitVec 16) : Counter :=
    let c := { c with reload := if count = 0 then 65536 else count.toNat, nullCount := true }
    if c.active = 0 then { c with loading := true } else c
  let access := c.control &&& 0x30
  if access = 0x10 then finish c (value.setWidth 16)
  else if access = 0x20 then finish c (value.setWidth 16 <<< 8)
  else if access = 0x30 then
    match c.writeLow with
    | some low => finish { c with writeLow := none } (value ++ low)
    | none => { c with writeLow := some value }
  else c

/-- Reads pending status first, then count bytes in the programmed order. -/
def read : Counter × BitVec 8 :=
  match c.latchedStatus with
  | some status => ({ c with latchedStatus := none }, status)
  | none =>
      let count := c.latchedCount.getD c.count
      let access := c.control &&& 0x30
      let high : Bool := access = 0x20 ∨ (access = 0x30 ∧ c.readHigh)
      let readHigh : Bool := access = 0x30 ∧ ¬ c.readHigh
      let c := { c with readHigh := readHigh, latchedCount := if readHigh then c.latchedCount else none }
      (c, if high then (count >>> 8).setWidth 8 else count.setWidth 8)

/-- A low gate forces OUT high; a rising gate reloads on the next clock. -/
def setGate (high : Bool) : Counter :=
  let c := if high ∧ ¬ c.gate ∧ c.reload ≠ 0 then { c with loading := true } else c
  { c with gate := high }

/-- Advances a running counter, and counts the clocks with OUT high. -/
def advancePeriodic (clocks : Nat) : Counter × Nat :=
  let stop := c.phase + clocks
  ({ c with phase := stop % c.active },
    stop / c.active * c.highClocks + min (stop % c.active) c.highClocks - min c.phase c.highClocks)

/-- The phase at which a running counter takes a pending count. -/
def reloadBoundary : Nat := if c.mode = some 3 ∧ c.phase < c.highClocks then c.highClocks else c.active

/-- The last stretch of an advance, with no pending count left to take. -/
def advanceRest (high clocks : Nat) : Counter × Nat :=
  if c.active = 0 then (c, high + clocks * c.output.toNat)
  else
    let r := c.advancePeriodic clocks
    (r.1, high + r.2)

/-- An advance after the initial load. -/
def advanceLoaded (high clocks : Nat) : Counter × Nat :=
  if c.mode = none ∨ c.active = 0 ∨ ¬ c.gate then (c, high + clocks * c.output.toNat)
  else if c.nullCount ∧ clocks ≥ c.reloadBoundary - c.phase then
    let untilReload := c.reloadBoundary - c.phase
    let nextHigh : Bool := c.reloadBoundary = c.active
    let r := c.advancePeriodic untilReload
    let c := r.1.load
    { c with phase := if nextHigh then 0 else c.highClocks }.advanceRest (high + r.2) (clocks - untilReload)
  else c.advanceRest high clocks

/-- Advances input clocks, and counts those with OUT high. -/
def advance (clocks : Nat) : Counter × Nat :=
  if c.loading ∧ clocks ≠ 0 then
    { c.load with phase := 0, loading := false }.advanceLoaded c.output.toNat (clocks - 1)
  else c.advanceLoaded 0 clocks

/-- Clocks to the next load or output transition of a running counter. -/
def nextTransition : Option Nat :=
  if c.mode = none ∨ ¬ c.gate then none
  else if c.loading then some 1
  else if c.active = 0 then none
  else some ((if c.phase < c.highClocks then c.highClocks else c.active) - c.phase)

/-- The edge search, transition by transition. It gives nothing when the fuel runs out. -/
def risingEdgeFrom : Nat → Counter → Nat → Option (Option Nat)
  | 0, _, _ => none
  | fuel + 1, c, clocks =>
      match c.nextTransition with
      | none => some none
      | some untilNext =>
          let next := (c.advance untilNext).1
          let clocks := clocks + untilNext
          if c.output = false ∧ next.output = true then some (some clocks) else risingEdgeFrom fuel next clocks

/-- Clocks to the next rise of OUT: at most a load, a falling edge and a rising edge away. -/
def nextRisingEdge : Option Nat := (risingEdgeFrom 3 c 0).getD none

/-! ## The abstract counter -/

/-- One input clock. -/
def tick : Counter :=
  if c.loading then { c.load with phase := 0, loading := false }
  else if c.mode = none ∨ c.active = 0 ∨ ¬ c.gate then c
  else if c.nullCount ∧ c.phase + 1 = c.reloadBoundary then
    let nextHigh : Bool := c.reloadBoundary = c.active
    let c := c.load
    { c with phase := if nextHigh then 0 else c.highClocks }
  else { c with phase := (c.phase + 1) % c.active }

/-- A running counter has at least two clocks in a period and its phase is inside the period. -/
structure Valid (c : Counter) : Prop where
  active_ne_one : c.active ≠ 1
  phase_lt : c.active ≠ 0 → c.phase < c.active

variable {c}

theorem load_active_ne_one : c.load.active ≠ 1 := by
  unfold load
  dsimp only
  split <;> omega

theorem highClocks_lt (h : c.active ≠ 0) (h' : c.active ≠ 1) : c.highClocks < c.active := by
  unfold highClocks
  split <;> omega

theorem highClocks_pos (h : c.active ≠ 0) (h' : c.active ≠ 1) : 0 < c.highClocks := by
  unfold highClocks
  split <;> omega

theorem Valid.tick (h : c.Valid) : c.tick.Valid := by
  unfold Counter.tick
  split
  · refine ⟨load_active_ne_one, fun hne => ?_⟩
    exact Nat.pos_of_ne_zero hne
  split
  · exact h
  next hrun =>
  split
  · refine ⟨load_active_ne_one, fun hne => ?_⟩
    dsimp only at hne ⊢
    split
    · exact Nat.pos_of_ne_zero hne
    · exact highClocks_lt hne load_active_ne_one
  · refine ⟨h.active_ne_one, fun hne => ?_⟩
    exact Nat.mod_lt _ (Nat.pos_of_ne_zero hne)

theorem Valid.iterate (h : c.Valid) (n : Nat) : (Counter.tick^[n] c).Valid := by
  induction n generalizing c with
  | zero => exact h
  | succ n ih => exact ih h.tick

/-! ## Advancing is ticking -/

/-- The clocks with OUT high up to a point of free-running periods grow by one in the first part of each period. -/
theorem highUpTo_succ {period high : Nat} (hhi : high ≤ period) (hperiod : 0 < period) (x : Nat) :
    (x + 1) / period * high + min ((x + 1) % period) high =
      x / period * high + min (x % period) high + (decide (x % period < high)).toNat := by
  have hlt := Nat.mod_lt x hperiod
  obtain ⟨q, r, hx⟩ : ∃ q r, x = period * q + r ∧ r < period :=
    ⟨x / period, x % period, (Nat.div_add_mod x period).symm, hlt⟩
  obtain ⟨rfl, hr⟩ := hx
  rw [Nat.mul_add_div hperiod, Nat.mul_add_mod, Nat.div_eq_of_lt hr, Nat.mod_eq_of_lt hr, Nat.add_assoc,
    Nat.mul_add_div hperiod, Nat.mul_add_mod, Nat.add_zero]
  rcases Nat.lt_or_ge (r + 1) period with hnext | hend
  · rw [Nat.div_eq_of_lt hnext, Nat.mod_eq_of_lt hnext, Nat.add_zero, Nat.add_assoc]
    congr 1
    rcases Nat.lt_or_ge r high with hin | hout
    · rw [decide_eq_true hin, Nat.min_eq_left (by omega), Nat.min_eq_left (by omega)]
      rfl
    · rw [decide_eq_false (by omega), Nat.min_eq_right (by omega), Nat.min_eq_right (by omega)]
      rfl
  · -- the last clock of a period has OUT low, unless OUT is always high
    obtain rfl : r + 1 = period := by omega
    rw [Nat.div_self (by omega), Nat.mod_self, Nat.add_one_mul, Nat.add_assoc, Nat.add_assoc]
    congr 1
    rcases Nat.lt_or_ge r high with hin | hout
    · rw [decide_eq_true hin, Nat.min_eq_left (by omega), Nat.min_eq_left (by omega)]
      show high + 0 = r + 1
      omega
    · rw [decide_eq_false (by omega), Nat.zero_min, Nat.min_eq_right hout]
      rfl

/-- The phase of a running counter counts the clocks of its period. -/
theorem advancePeriodic_snd (h : c.phase < c.active) (hhi : c.highClocks ≤ c.active) (clocks : Nat) :
    (c.advancePeriodic clocks).2 = Nat.count (fun i => (c.phase + i) % c.active < c.highClocks) clocks := by
  have hpos : 0 < c.active := Nat.lt_of_le_of_lt (Nat.zero_le _) h
  have hsum : (c.phase + clocks) / c.active * c.highClocks + min ((c.phase + clocks) % c.active) c.highClocks =
      Nat.count (fun i => (c.phase + i) % c.active < c.highClocks) clocks + min c.phase c.highClocks := by
    induction clocks with
    | zero =>
      rw [Nat.add_zero, Nat.div_eq_of_lt h, Nat.mod_eq_of_lt h, Nat.count_zero, Nat.zero_mul]
    | succ clocks ih =>
      rw [← Nat.add_assoc, highUpTo_succ hhi hpos, ih, Nat.count_succ]
      by_cases hin : (c.phase + clocks) % c.active < c.highClocks
      · rw [decide_eq_true hin, if_pos hin]
        show _ + 1 = _
        omega
      · rw [decide_eq_false hin, if_neg hin]
        show _ + 0 = _
        omega
  unfold advancePeriodic
  dsimp only
  rw [hsum, Nat.add_sub_cancel]

/-- The clocks after the first one. -/
theorem advancePeriodic_succ (h : c.phase < c.active) (hhi : c.highClocks ≤ c.active) (clocks : Nat) :
    c.advancePeriodic (clocks + 1) = (({ c with phase := (c.phase + 1) % c.active }.advancePeriodic clocks).1,
      (decide (c.phase < c.highClocks)).toNat +
        ({ c with phase := (c.phase + 1) % c.active }.advancePeriodic clocks).2) := by
  refine Prod.ext ?_ ?_
  · unfold advancePeriodic
    dsimp only
    rw [Nat.mod_add_mod, Nat.add_assoc, Nat.add_comm 1 clocks]
  dsimp only
  have hpos : 0 < c.active := Nat.lt_of_le_of_lt (Nat.zero_le _) h
  have hnext : { c with phase := (c.phase + 1) % c.active }.phase < c.active := Nat.mod_lt _ hpos
  rw [advancePeriodic_snd h hhi,
    advancePeriodic_snd (c := { c with phase := (c.phase + 1) % c.active }) hnext hhi, Nat.count_succ', Nat.add_comm]
  congr 1
  · rw [Nat.add_zero, Nat.mod_eq_of_lt h]
    by_cases hin : c.phase < c.highClocks
    · rw [if_pos hin, decide_eq_true hin]
      rfl
    · rw [if_neg hin, decide_eq_false hin]
      rfl
  · show _ = Nat.count (fun i => ((c.phase + 1) % c.active + i) % c.active < c.highClocks) clocks
    simp only [Nat.mod_add_mod, Nat.add_assoc, Nat.add_comm 1]

theorem advancePeriodic_zero (h : c.phase < c.active) : c.advancePeriodic 0 = (c, 0) := by
  unfold advancePeriodic
  dsimp only
  rw [Nat.add_zero, Nat.div_eq_of_lt h, Nat.mod_eq_of_lt h, Nat.zero_mul, Nat.zero_add, Nat.sub_self]

theorem tick_loading (c : Counter) : c.tick.loading = false := by
  unfold Counter.tick
  cases h : c.loading with
  | true => rfl
  | false =>
    rw [if_neg (by simp)]
    split
    · exact h
    · split
      · exact h
      · rfl

theorem output_of_running (hm : c.mode ≠ none) (hg : c.gate = true) (hl : c.loading = false) (ha : c.active ≠ 0) :
    c.output = decide (c.phase < c.highClocks) := by
  have hsome : c.mode.isSome = true := Option.isSome_iff_ne_none.mpr hm
  simp [output, hsome, hg, hl, ha]

/-- The clocks counted so far are added to. -/
theorem advanceLoaded_high (c : Counter) (high clocks : Nat) :
    c.advanceLoaded high clocks = ((c.advanceLoaded 0 clocks).1, high + (c.advanceLoaded 0 clocks).2) := by
  unfold advanceLoaded advanceRest
  dsimp only
  split
  · rw [Nat.zero_add]
  split
  · split
    · rw [Nat.zero_add, Nat.add_assoc]
    · rw [Nat.zero_add, Nat.add_assoc]
  · split
    · rw [Nat.zero_add]
    · rw [Nat.zero_add]

/-- A counter does not move in no clocks. -/
theorem advanceLoaded_zero (h : c.Valid) (high : Nat) : c.advanceLoaded high 0 = (c, high) := by
  unfold advanceLoaded
  split
  · rw [Nat.zero_mul, Nat.add_zero]
  next hrun =>
  rw [not_or, not_or] at hrun
  have hphase := h.phase_lt hrun.2.1
  have hbound : c.phase < c.reloadBoundary := by
    unfold reloadBoundary
    split
    · next hm => exact hm.2
    · exact hphase
  rw [if_neg (by omega), advanceRest, if_neg hrun.2.1, advancePeriodic_zero hphase]
  rfl

/-- A counter that took its count has none pending. -/
theorem advanceLoaded_of_load {d : Counter} (hm : d.mode ≠ none) (hg : d.gate = true) (hn : d.nullCount = false)
    (high clocks : Nat) : d.advanceLoaded high clocks = d.advanceRest high clocks := by
  unfold advanceLoaded
  by_cases ha : d.active = 0
  · rw [if_pos (Or.inr (Or.inl ha)), advanceRest, if_pos ha]
  · rw [if_neg (by simp [hm, ha, hg]), if_neg (by simp [hn])]

/-- The clocks after the first one. -/
theorem advanceLoaded_succ (h : c.Valid) (hl : c.loading = false) (high clocks : Nat) :
    c.advanceLoaded high (clocks + 1) = c.tick.advanceLoaded (high + c.output.toNat) clocks := by
  unfold Counter.tick
  rw [if_neg (by simp [hl])]
  by_cases hrun : c.mode = none ∨ c.active = 0 ∨ ¬ c.gate
  · rw [if_pos hrun, advanceLoaded, advanceLoaded, if_pos hrun, if_pos hrun, Nat.add_one_mul, Nat.add_assoc,
      Nat.add_comm c.output.toNat]
  rw [if_neg hrun]
  have hrun' := hrun
  rw [not_or, not_or, not_not] at hrun'
  obtain ⟨hmode, hact, hgate⟩ := hrun'
  have hphase := h.phase_lt hact
  have hhi := highClocks_lt hact h.active_ne_one
  have hbound : c.phase < c.reloadBoundary ∧ c.reloadBoundary ≤ c.active := by
    unfold reloadBoundary
    split
    · next hm => exact ⟨hm.2, Nat.le_of_lt hhi⟩
    · exact ⟨hphase, le_refl _⟩
  have hfst (n : Nat) := advancePeriodic_succ hphase (Nat.le_of_lt hhi) n
  rw [← output_of_running hmode hgate hl hact] at hfst
  -- a stretch with no count to take
  have hrest (n : Nat) : c.advanceRest high (n + 1) =
      { c with phase := (c.phase + 1) % c.active }.advanceRest (high + c.output.toNat) n := by
    rw [advanceRest, advanceRest, if_neg hact, if_neg hact, hfst]
    dsimp only
    rw [Nat.add_assoc]
  by_cases hreload : c.nullCount = true ∧ c.phase + 1 = c.reloadBoundary
  · -- the first clock takes the pending count
    have hone : c.reloadBoundary - c.phase = 0 + 1 := by omega
    have hnext : (c.phase + 1) % c.active < c.active := Nat.mod_lt _ (Nat.pos_of_ne_zero hact)
    rw [if_pos hreload, advanceLoaded, if_neg hrun, if_pos ⟨hreload.1, by omega⟩]
    dsimp only
    rw [hone, hfst, advancePeriodic_zero hnext, Nat.add_zero, Nat.zero_add, Nat.add_sub_cancel]
    exact (advanceLoaded_of_load (d := { c.load with phase := _ }) hmode hgate rfl _ _).symm
  rw [if_neg hreload]
  have hrun₁ : ¬ ({ c with phase := (c.phase + 1) % c.active }.mode = none ∨
    { c with phase := (c.phase + 1) % c.active }.active = 0 ∨
    ¬ { c with phase := (c.phase + 1) % c.active }.gate = true) := hrun
  by_cases hnull : c.nullCount = true
  · -- the pending count is still ahead
    have hlt : c.phase + 1 < c.reloadBoundary := by
      have : c.phase + 1 ≠ c.reloadBoundary := fun heq => hreload ⟨hnull, heq⟩
      omega
    have hmod : (c.phase + 1) % c.active = c.phase + 1 := Nat.mod_eq_of_lt (by omega)
    have hsame : { c with phase := (c.phase + 1) % c.active }.reloadBoundary = c.reloadBoundary := by
      have hmode' : { c with phase := (c.phase + 1) % c.active }.mode = c.mode := rfl
      have hhi' : { c with phase := (c.phase + 1) % c.active }.highClocks = c.highClocks := rfl
      unfold reloadBoundary at hlt ⊢
      rw [hmode', hhi']
      dsimp only
      rw [hmod]
      split at hlt
      · next hm => rw [if_pos ⟨hm.1, hlt⟩, if_pos hm]
      · next hm => rw [if_neg (fun hm' => hm ⟨hm'.1, by omega⟩), if_neg hm]
    rw [advanceLoaded, if_neg hrun, advanceLoaded, if_neg hrun₁, hsame]
    have huntil : c.reloadBoundary - c.phase = c.reloadBoundary - (c.phase + 1) + 1 := by omega
    by_cases hfar : clocks + 1 ≥ c.reloadBoundary - c.phase
    · rw [if_pos ⟨hnull, hfar⟩, if_pos ⟨hnull, by dsimp only; rw [hmod]; omega⟩]
      dsimp only
      rw [huntil, hfst, hmod, Nat.add_sub_add_right, Nat.add_assoc]
    · rw [if_neg (fun hn => hfar hn.2),
        if_neg (fun hn => hfar (by have := hn.2; dsimp only at this; rw [hmod] at this; omega)), hrest]
  · rw [advanceLoaded, if_neg hrun, if_neg (fun hn => hnull hn.1), advanceLoaded, if_neg hrun₁,
      if_neg (fun hn => hnull hn.1), hrest]

/-- An advance is a clock and the rest. -/
theorem advance_succ (h : c.Valid) (clocks : Nat) :
    c.advance (clocks + 1) = ((c.tick.advance clocks).1, c.output.toNat + (c.tick.advance clocks).2) := by
  have hnext : c.tick.advance clocks = c.tick.advanceLoaded 0 clocks := by
    rw [advance, if_neg (by simp [tick_loading])]
  rw [hnext, ← advanceLoaded_high]
  cases hl : c.loading with
  | true =>
    have htick : c.tick = { c.load with phase := 0, loading := false } := by
      rw [Counter.tick, if_pos hl]
    rw [advance, if_pos ⟨hl, by omega⟩, Nat.add_sub_cancel, htick]
  | false =>
    rw [advance, if_neg (by simp [hl]), advanceLoaded_succ h hl, Nat.zero_add]

theorem advance_zero (h : c.Valid) : c.advance 0 = (c, 0) := by
  rw [advance, if_neg (by simp), advanceLoaded_zero h]

/-- Advancing some clocks is ticking as often. -/
theorem advance_eq_iterate (h : c.Valid) (clocks : Nat) : (c.advance clocks).1 = Counter.tick^[clocks] c := by
  induction clocks generalizing c with
  | zero => rw [advance_zero h, Function.iterate_zero_apply]
  | succ clocks ih => rw [advance_succ h, Function.iterate_succ_apply, ih h.tick]

/-- Advancing is additive. -/
theorem advance_add (h : c.Valid) (a b : Nat) : (c.advance (a + b)).1 = ((c.advance a).1.advance b).1 := by
  rw [advance_eq_iterate h, advance_eq_iterate h, advance_eq_iterate (h.iterate a), Nat.add_comm,
    Function.iterate_add_apply]

/-! ## Output transitions -/

theorem tick_mode (c : Counter) : c.tick.mode = c.mode := by
  unfold Counter.tick
  split
  · rfl
  split
  · rfl
  split <;> rfl

theorem tick_gate (c : Counter) : c.tick.gate = c.gate := by
  unfold Counter.tick
  split
  · rfl
  split
  · rfl
  split <;> rfl

/-- A counter with no transition ahead keeps its output. -/
theorem output_tick_of_none (h : c.nextTransition = none) : c.tick.output = c.output ∧ c.tick.nextTransition = none := by
  unfold nextTransition at h
  split at h
  · next hidle =>
      have hidle' : c.tick.mode = none ∨ ¬ c.tick.gate := by rwa [tick_mode, tick_gate]
      refine ⟨?_, by rw [nextTransition, if_pos hidle']⟩
      unfold output
      rw [tick_mode, tick_gate]
      rcases hidle with hm | hg
      · simp [hm]
      · simp [hg]
  next hrun =>
  split at h
  · cases h
  next hl =>
  split at h
  · next ha =>
      have htick : c.tick = c := by rw [Counter.tick, if_neg hl, if_pos (Or.inr (Or.inl ha))]
      rw [htick, nextTransition, if_neg hrun, if_neg hl, if_pos ha]
      exact ⟨rfl, rfl⟩
  · cases h

variable {n : Nat}

/-- Before its next transition a counter keeps its output, and the transition comes a clock nearer. -/
theorem output_tick_of_some (h : c.Valid) (hn : c.nextTransition = some n) :
    0 < n ∧ (1 < n → c.tick.output = c.output ∧ c.tick.nextTransition = some (n - 1)) := by
  unfold nextTransition at hn
  split at hn
  · cases hn
  next hrun =>
  split at hn
  · obtain rfl := Option.some.inj hn
    exact ⟨Nat.one_pos, fun h => absurd h (by simp)⟩
  next hl =>
  split at hn
  · cases hn
  next ha =>
  have hphase := h.phase_lt ha
  have hhi := highClocks_lt ha h.active_ne_one
  obtain rfl := Option.some.inj hn
  rw [not_or, not_not] at hrun
  refine ⟨by split <;> omega, fun hfar => ?_⟩
  -- the transition is not yet due, so no pending count is taken and the phase does not wrap
  have hreload : ¬ (c.nullCount = true ∧ c.phase + 1 = c.reloadBoundary) := by
    rintro ⟨-, heq⟩
    unfold reloadBoundary at heq
    split at heq <;> split at hfar <;> omega
  have hnext : c.phase + 1 < c.active := by
    split at hfar <;> omega
  have htick : c.tick = { c with phase := c.phase + 1 } := by
    rw [Counter.tick, if_neg hl, if_neg (by simp [hrun.1, ha, hrun.2]), if_neg hreload, Nat.mod_eq_of_lt hnext]
  have hhighSame : { c with phase := c.phase + 1 }.highClocks = c.highClocks := rfl
  have hmodeSame : { c with phase := c.phase + 1 }.mode = c.mode := rfl
  have hside : c.phase + 1 < c.highClocks ↔ c.phase < c.highClocks := by
    split at hfar <;> omega
  rw [htick]
  constructor
  · unfold output
    rw [hhighSame, hmodeSame]
    dsimp only
    rw [decide_eq_decide.mpr hside]
  · rw [nextTransition, hhighSame, hmodeSame, if_neg (by simp [hrun.1, hrun.2]), if_neg hl, if_neg ha]
    dsimp only
    by_cases hp : c.phase < c.highClocks
    · rw [if_pos hp, if_pos (hside.mpr hp)]
      rfl
    · rw [if_neg hp, if_neg (mt hside.mp hp)]
      rfl

/-- Whether OUT rises within some clocks. -/
def Rises (c : Counter) (clocks : Nat) : Prop :=
  ∃ k < clocks, (Counter.tick^[k] c).output = false ∧ (Counter.tick^[k + 1] c).output = true

theorem rises_succ (c : Counter) (clocks : Nat) :
    c.Rises (clocks + 1) ↔ (c.output = false ∧ c.tick.output = true) ∨ c.tick.Rises clocks := by
  constructor
  · rintro ⟨k, hk, hlow, hhi⟩
    cases k with
    | zero => exact Or.inl ⟨hlow, hhi⟩
    | succ k => exact Or.inr ⟨k, by omega, hlow, hhi⟩
  · rintro (⟨hlow, hhi⟩ | ⟨k, hk, hlow, hhi⟩)
    · exact ⟨0, by omega, hlow, hhi⟩
    · exact ⟨k + 1, by omega, hlow, hhi⟩

theorem not_rises_of_none (h : c.nextTransition = none) (clocks : Nat) : ¬ c.Rises clocks := by
  induction clocks generalizing c with
  | zero => exact fun ⟨_, hk, _⟩ => absurd hk (by omega)
  | succ clocks ih =>
    obtain ⟨hout, hnext⟩ := output_tick_of_none h
    rw [rises_succ]
    rintro (⟨hlow, hhi⟩ | hrises)
    · rw [hout, hlow] at hhi
      exact absurd hhi (by decide)
    · exact ih hnext hrises

/-- Up to the next transition OUT does not rise; there it rises when it is low before and high after. -/
theorem rises_of_some (h : c.Valid) (hn : c.nextTransition = some n) (clocks : Nat) :
    c.Rises clocks ↔ (n ≤ clocks ∧ c.output = false ∧ (Counter.tick^[n] c).output = true) ∨
      (n ≤ clocks ∧ (Counter.tick^[n] c).Rises (clocks - n)) := by
  induction clocks generalizing c n with
  | zero =>
    obtain ⟨hpos, -⟩ := output_tick_of_some h hn
    constructor
    · exact fun ⟨_, hk, _⟩ => absurd hk (by omega)
    · rintro (⟨hle, -⟩ | ⟨hle, -⟩) <;> omega
  | succ clocks ih =>
    obtain ⟨hpos, hfar⟩ := output_tick_of_some h hn
    rw [rises_succ]
    rcases Nat.lt_or_ge 1 n with hlt | hge
    · obtain ⟨hout, hnext⟩ := hfar hlt
      rw [ih h.tick hnext, hout]
      obtain ⟨m, rfl⟩ : ∃ m, n = m + 1 := ⟨n - 1, by omega⟩
      rw [Function.iterate_succ_apply, Nat.add_sub_cancel, Nat.add_le_add_iff_right, Nat.add_sub_add_right]
      have hno : ¬ (c.output = false ∧ c.output = true) := by
        rintro ⟨hlow, hhi⟩
        rw [hlow] at hhi
        exact absurd hhi (by decide)
      simp [hno]
    · obtain rfl : n = 1 := by omega
      simp

/-! ## The edge search -/

/-- The search gives no clock before its start. -/
theorem le_of_risingEdgeFrom {fuel clocks e : Nat} (hrun : risingEdgeFrom fuel c clocks = some (some e)) :
    clocks ≤ e := by
  induction fuel generalizing c clocks with
  | zero => exact absurd hrun (by simp [risingEdgeFrom])
  | succ fuel ih =>
    rw [risingEdgeFrom] at hrun
    split at hrun
    · cases hrun
    · dsimp only at hrun
      split at hrun
      · obtain rfl : _ = e := by simpa using hrun
        exact Nat.le_add_right _ _
      · exact (Nat.le_add_right _ _).trans (ih hrun)

/-- The search gives the first rise, if it does not run out of fuel. -/
theorem risingEdgeFrom_spec (h : c.Valid) {fuel clocks : Nat} {edge : Option Nat}
    (hrun : risingEdgeFrom fuel c clocks = some edge) (n : Nat) :
    (∃ e, edge = some (clocks + e) ∧ e ≤ n) ↔ c.Rises n := by
  induction fuel generalizing c clocks n with
  | zero => exact absurd hrun (by simp [risingEdgeFrom])
  | succ fuel ih =>
    rw [risingEdgeFrom] at hrun
    cases hn : c.nextTransition with
    | none =>
      rw [hn] at hrun
      obtain rfl := Option.some.inj hrun
      constructor
      · rintro ⟨e, he, -⟩
        cases he
      · exact fun hr => absurd hr (not_rises_of_none hn n)
    | some m =>
      rw [hn] at hrun
      dsimp only at hrun
      rw [advance_eq_iterate h] at hrun
      rw [rises_of_some h hn]
      split at hrun
      · next hrise =>
          obtain rfl := Option.some.inj hrun
          constructor
          · rintro ⟨e, he, hle⟩
            obtain rfl : m = e := by simpa using he
            exact Or.inl ⟨hle, hrise⟩
          · rintro (⟨hle, -⟩ | ⟨hle, -⟩) <;> exact ⟨m, rfl, hle⟩
      · next hrise =>
          constructor
          · rintro ⟨e, he, hle⟩
            have hst := le_of_risingEdgeFrom (he ▸ hrun)
            obtain ⟨e', rfl⟩ : ∃ e', e = m + e' := ⟨e - m, by omega⟩
            refine Or.inr ⟨by omega, (ih (h.iterate m) hrun (n - m)).mp ⟨e', ?_, by omega⟩⟩
            rw [he, Nat.add_assoc]
          · rintro (⟨-, hr⟩ | ⟨hle, hr⟩)
            · exact absurd hr hrise
            · obtain ⟨e, he, hle'⟩ := (ih (h.iterate m) hrun (n - m)).mpr hr
              exact ⟨m + e, by rw [he, Nat.add_assoc], by omega⟩

/-- What a transition that is due next says about a counter. -/
theorem due_of_nextTransition (h : c.Valid) (hl : c.loading = false) (hn : c.nextTransition = some 1) :
    c.mode ≠ none ∧ c.gate = true ∧ c.active ≠ 0 ∧
      (if c.phase < c.highClocks then c.phase + 1 = c.highClocks else c.phase + 1 = c.active) := by
  unfold nextTransition at hn
  split at hn
  · cases hn
  next hrun =>
  rw [if_neg (by simp [hl])] at hn
  split at hn
  · cases hn
  next ha =>
  have hphase := h.phase_lt ha
  rw [not_or, not_not] at hrun
  refine ⟨hrun.1, hrun.2, ha, ?_⟩
  have := Option.some.inj hn
  split at this <;> split <;> omega

theorem output_of_idle (hm : c.mode ≠ none) (ha : c.active = 0) : c.output = true := by
  have hsome : c.mode.isSome = true := Option.isSome_iff_ne_none.mpr hm
  simp [output, hsome, ha]

theorem nextTransition_of_idle (hl : c.loading = false) (ha : c.active = 0) : c.nextTransition = none := by
  unfold nextTransition
  split
  · rfl
  · rw [if_neg (Bool.eq_false_iff.mp hl)]

/-- A counter with OUT low rises at its next transition. -/
theorem output_of_low (h : c.Valid) (hlow : c.output = false) (hn : c.nextTransition = some n) :
    (Counter.tick^[n] c).output = true := by
  induction n generalizing c with
  | zero =>
    obtain ⟨hpos, -⟩ := output_tick_of_some h hn
    omega
  | succ n ih =>
    obtain ⟨-, hfar⟩ := output_tick_of_some h hn
    rw [Function.iterate_succ_apply]
    rcases Nat.eq_zero_or_pos n with rfl | hpos
    · have hl : c.loading = false := by
        by_contra hl
        have hsome : c.mode.isSome = true := by
          unfold nextTransition at hn
          split at hn
          · cases hn
          · next hrun => exact Option.isSome_iff_ne_none.mpr (not_or.mp hrun).1
        simp [output, hsome, hl] at hlow
      obtain ⟨hm, hg, ha, hdue⟩ := due_of_nextTransition h hl hn
      rw [output_of_running hm hg hl ha, decide_eq_false_iff_not] at hlow
      rw [if_neg hlow] at hdue
      have hbound : c.reloadBoundary = c.active := by
        rw [reloadBoundary, if_neg (fun hb => hlow hb.2)]
      show c.tick.output = true
      rw [Counter.tick, if_neg (by simp [hl]), if_neg (by simp [hm, ha, hg])]
      split
      · rw [hbound]
        by_cases ha' : c.load.active = 0
        · exact output_of_idle hm ha'
        · have := highClocks_pos ha' load_active_ne_one
          rw [output_of_running (by exact hm) (by exact hg) (by exact hl) (by exact ha')]
          show decide ((if decide (c.active = c.active) = true then 0 else c.load.highClocks) < c.load.highClocks) = true
          simpa using this
      · have := highClocks_pos ha h.active_ne_one
        rw [output_of_running (by exact hm) (by exact hg) (by exact hl) (by exact ha)]
        show decide ((c.phase + 1) % c.active < c.highClocks) = true
        rw [hdue, Nat.mod_self]
        exact decide_eq_true this
    · obtain ⟨hout, hnext⟩ := hfar (by omega)
      exact ih h.tick (hout.trans hlow) hnext

/-- A running counter with OUT high falls at its next transition, or stops. -/
theorem output_of_high (h : c.Valid) (hl : c.loading = false) (hhi : c.output = true)
    (hn : c.nextTransition = some n) :
    (Counter.tick^[n] c).output = false ∨ (Counter.tick^[n] c).nextTransition = none := by
  induction n generalizing c with
  | zero =>
    obtain ⟨hpos, -⟩ := output_tick_of_some h hn
    omega
  | succ n ih =>
    obtain ⟨-, hfar⟩ := output_tick_of_some h hn
    rw [Function.iterate_succ_apply]
    rcases Nat.eq_zero_or_pos n with rfl | hpos
    · obtain ⟨hm, hg, ha, hdue⟩ := due_of_nextTransition h hl hn
      rw [output_of_running hm hg hl ha, decide_eq_true_iff] at hhi
      rw [if_pos hhi] at hdue
      have hlt := highClocks_lt ha h.active_ne_one
      show c.tick.output = false ∨ c.tick.nextTransition = none
      rw [Counter.tick, if_neg (by simp [hl]), if_neg (by simp [hm, ha, hg])]
      split
      · next hreload =>
          have hbound : c.reloadBoundary ≠ c.active := by omega
          by_cases ha' : c.load.active = 0
          · exact Or.inr (nextTransition_of_idle hl ha')
          · refine Or.inl ?_
            rw [output_of_running (by exact hm) (by exact hg) (by exact hl) (by exact ha'), decide_eq_false_iff_not]
            dsimp only
            rw [decide_eq_false hbound, if_neg (by decide)]
            exact Nat.lt_irrefl _
      · refine Or.inl ?_
        rw [output_of_running (by exact hm) (by exact hg) (by exact hl) (by exact ha), decide_eq_false_iff_not]
        dsimp only
        rw [hdue, Nat.mod_eq_of_lt hlt]
        exact Nat.lt_irrefl _
    · obtain ⟨hout, hnext⟩ := hfar (by omega)
      exact ih h.tick (tick_loading c) (hout.trans hhi) hnext

theorem tick_iterate_loading (hn : 0 < n) (c : Counter) : (Counter.tick^[n] c).loading = false := by
  obtain ⟨m, rfl⟩ : ∃ m, n = m + 1 := ⟨n - 1, by omega⟩
  rw [Function.iterate_succ_apply']
  exact tick_loading _

/-- One transition of the search. -/
theorem risingEdgeFrom_succ (h : c.Valid) {fuel clocks n : Nat} (hn : c.nextTransition = some n) :
    risingEdgeFrom (fuel + 1) c clocks =
      if c.output = false ∧ (Counter.tick^[n] c).output = true then some (some (clocks + n))
      else risingEdgeFrom fuel (Counter.tick^[n] c) (clocks + n) := by
  rw [risingEdgeFrom, hn]
  dsimp only
  rw [advance_eq_iterate h]

/-- A load, a falling edge and a rising edge are all the search can meet. -/
theorem risingEdgeFrom_terminates (h : c.Valid) (clocks : Nat) : ∃ edge, risingEdgeFrom 3 c clocks = some edge := by
  have hnone : ∀ {c : Counter} {fuel clocks}, c.nextTransition = none →
      ∃ edge, risingEdgeFrom (fuel + 1) c clocks = some edge := by
    intro c fuel clocks hn
    exact ⟨none, by rw [risingEdgeFrom, hn]⟩
  have hlow : ∀ {c : Counter} {fuel clocks}, c.Valid → c.output = false →
      ∃ edge, risingEdgeFrom (fuel + 1) c clocks = some edge := by
    intro c fuel clocks hc hout
    cases hn : c.nextTransition with
    | none => exact hnone hn
    | some n => exact ⟨_, by rw [risingEdgeFrom_succ hc hn, if_pos ⟨hout, output_of_low hc hout hn⟩]⟩
  have hhi : ∀ {c : Counter} {fuel clocks}, c.Valid → c.loading = false →
      ∃ edge, risingEdgeFrom (fuel + 2) c clocks = some edge := by
    intro c fuel clocks hc hl
    cases hout : c.output with
    | false => exact hlow hc hout
    | true =>
      cases hn : c.nextTransition with
      | none => exact hnone hn
      | some n =>
        rw [risingEdgeFrom_succ hc hn, if_neg (by simp [hout])]
        rcases output_of_high hc hl hout hn with h' | h'
        · exact hlow (hc.iterate n) h'
        · exact hnone h'
  cases hn : c.nextTransition with
  | none => exact hnone hn
  | some n =>
    obtain ⟨hpos, -⟩ := output_tick_of_some h hn
    rw [risingEdgeFrom_succ h hn]
    split
    · exact ⟨_, rfl⟩
    · exact hhi (h.iterate n) (tick_iterate_loading hpos c)

/-- The next rising edge is due within some clocks exactly when OUT rises within them. -/
theorem nextRisingEdge_le_iff (h : c.Valid) (clocks : Nat) :
    (∃ edge, c.nextRisingEdge = some edge ∧ edge ≤ clocks) ↔ c.Rises clocks := by
  obtain ⟨edge, hrun⟩ := risingEdgeFrom_terminates h 0
  rw [← risingEdgeFrom_spec h hrun clocks, nextRisingEdge, hrun]
  simp

/-- A low OUT that does not rise stays low. -/
theorem output_iterate_of_not_rises (hlow : c.output = false) {clocks : Nat} (h : ¬ c.Rises clocks) :
    (Counter.tick^[clocks] c).output = false := by
  induction clocks generalizing c with
  | zero => exact hlow
  | succ clocks ih =>
    rw [rises_succ, not_or] at h
    rw [Function.iterate_succ_apply]
    refine ih ?_ h.2
    by_contra hne
    exact h.1 ⟨hlow, by simpa using hne⟩

/-! ## Programming -/

theorem Valid.latch (h : c.Valid) (count status : Bool) : (c.latch count status).Valid := by
  unfold Counter.latch
  dsimp only
  split <;> split <;> exact ⟨h.active_ne_one, h.phase_lt⟩

theorem Valid.program (h : c.Valid) (value : BitVec 8) : (c.program value).Valid := by
  unfold Counter.program
  split
  · exact h.latch true false
  · exact ⟨by simp [default], by simp [default]⟩

theorem Valid.write (h : c.Valid) (value : BitVec 8) : (c.write value).Valid := by
  unfold Counter.write
  dsimp only
  split
  · split <;> exact ⟨h.active_ne_one, h.phase_lt⟩
  split
  · split <;> exact ⟨h.active_ne_one, h.phase_lt⟩
  split
  · split
    · split <;> exact ⟨h.active_ne_one, h.phase_lt⟩
    · exact ⟨h.active_ne_one, h.phase_lt⟩
  · exact h

theorem Valid.read (h : c.Valid) : c.read.1.Valid := by
  unfold Counter.read
  split <;> exact ⟨h.active_ne_one, h.phase_lt⟩

theorem Valid.setGate (h : c.Valid) (high : Bool) : (c.setGate high).Valid := by
  unfold Counter.setGate
  dsimp only
  split <;> exact ⟨h.active_ne_one, h.phase_lt⟩

theorem latch_output (c : Counter) (count status : Bool) : (c.latch count status).output = c.output := by
  unfold Counter.latch
  dsimp only
  split <;> split <;> rfl

theorem read_output (c : Counter) : c.read.1.output = c.output := by
  unfold Counter.read
  split <;> rfl

end Counter

end Relocade.Pit
