import Relocade.Pit.Counter
import Relocade.Run

/-!
# `Pit.Stepping` — many clocks are one clock many times

Every advance of a reachable counter is that many clocks of mode 2 or mode 3, and counts the ones that start with OUT
high (`advance_snd`). The transition search stops at the first clock that changes OUT, loads a count, or stops the
counter (`nextTransition_spec`).
-/

namespace Relocade.Pit.Counter

variable {c : Counter}

/-! ## One clock -/

/-- Takes a pending count. -/
def reloaded (c : Counter) : Counter := if c.nullCount then c.load else c

/-- A clock of a running counter in mode 2: OUT is low for the last clock of the period, at whose end the count is
    reloaded. -/
def clock2 (c : Counter) : Counter :=
  if c.phase + 1 = c.active then { c.reloaded with phase := 0 } else { c with phase := c.phase + 1 }

/-- A clock of a running counter in mode 3: OUT is low for the second half of the period, the shorter one of an odd
    count, and the count is reloaded at the end of each half. -/
def clock3 (c : Counter) : Counter :=
  if c.phase + 1 = (c.active + 1) / 2 then { c.reloaded with phase := (c.reloaded.active + 1) / 2 }
  else if c.phase + 1 = c.active then { c.reloaded with phase := 0 }
  else { c with phase := c.phase + 1 }

/-- A clock of an 8254 counter. An initial load or a gate trigger takes it for the load. -/
def clock (c : Counter) : Counter :=
  if c.loading then { c.load with phase := 0, loading := false }
  else if c.gate = false ∨ c.active = 0 then c
  else if c.mode = some 2 then c.clock2
  else if c.mode = some 3 then c.clock3
  else c

theorem mode_cases (c : Counter) : c.mode = none ∨ c.mode = some 2 ∨ c.mode = some 3 := by
  unfold mode
  dsimp only
  split
  next h =>
    rcases h.2 with h | h
    · exact Or.inr (Or.inl (congrArg some h))
    · exact Or.inr (Or.inr (congrArg some h))
  next => exact Or.inl rfl

theorem highClocks_of_mode3 (h : c.mode = some 3) : c.highClocks = (c.active + 1) / 2 := if_pos h

theorem highClocks_of_mode2 (h : c.mode = some 2) : c.highClocks = c.active - 1 :=
  if_neg (by rw [h]; decide)

theorem reloadBoundary_of_mode2 (h : c.mode = some 2) : c.reloadBoundary = c.active :=
  if_neg fun hm => absurd (h.symm.trans hm.1) (by decide)

theorem reloaded_of_pending (h : c.nullCount = true) : c.reloaded = c.load := if_pos h

theorem reloaded_of_taken (h : c.nullCount = false) : c.reloaded = c := if_neg (by rw [h]; decide)

theorem tick_eq_clock2 (h : c.phase < c.active) (hm : c.mode = some 2) (hl : c.loading = false) (hg : c.gate = true) :
    c.tick = c.clock2 := by
  have ha : c.active ≠ 0 := Nat.ne_of_gt (Nat.lt_of_le_of_lt (Nat.zero_le _) h)
  unfold tick clock2
  rw [if_neg (by rw [hl]; decide), if_neg (by simp [hm, ha, hg]), reloadBoundary_of_mode2 hm]
  by_cases hend : c.phase + 1 = c.active
  · rw [if_pos hend]
    by_cases hn : c.nullCount = true
    · rw [if_pos ⟨hn, hend⟩, reloaded_of_pending hn]
      simp
    · rw [if_neg (fun hp => hn hp.1), reloaded_of_taken (Bool.eq_false_iff.mpr hn), hend, Nat.mod_self]
  · rw [if_neg (fun hp => hend hp.2), if_neg hend, Nat.mod_eq_of_lt (by omega)]

theorem tick_eq_clock3 (h : c.phase < c.active) (h' : c.active ≠ 1) (hm : c.mode = some 3) (hl : c.loading = false)
    (hg : c.gate = true) : c.tick = c.clock3 := by
  have ha : c.active ≠ 0 := Nat.ne_of_gt (Nat.lt_of_le_of_lt (Nat.zero_le _) h)
  have hhi := highClocks_of_mode3 hm
  have hlt := highClocks_lt ha h'
  unfold tick clock3
  rw [if_neg (by rw [hl]; decide), if_neg (by simp [hm, ha, hg]), ← hhi]
  by_cases hhalf : c.phase + 1 = c.highClocks
  · have hbound : c.reloadBoundary = c.highClocks := if_pos ⟨hm, by omega⟩
    rw [if_pos hhalf, hbound]
    by_cases hn : c.nullCount = true
    · rw [if_pos ⟨hn, hhalf⟩, reloaded_of_pending hn, decide_eq_false (Nat.ne_of_lt hlt),
        ← highClocks_of_mode3 (c := c.load) hm]
      simp
    · rw [if_neg (fun hp => hn hp.1), reloaded_of_taken (Bool.eq_false_iff.mpr hn), ← hhi, hhalf, Nat.mod_eq_of_lt hlt]
  · rw [if_neg hhalf]
    by_cases hend : c.phase + 1 = c.active
    · have hbound : c.reloadBoundary = c.active := if_neg fun hb => by omega
      rw [if_pos hend, hbound]
      by_cases hn : c.nullCount = true
      · rw [if_pos ⟨hn, hend⟩, reloaded_of_pending hn]
        simp
      · rw [if_neg (fun hp => hn hp.1), reloaded_of_taken (Bool.eq_false_iff.mpr hn), hend, Nat.mod_self]
    · have hbound : c.phase + 1 ≠ c.reloadBoundary := by
        unfold reloadBoundary
        split
        · exact hhalf
        · exact hend
      rw [if_neg (fun hp => hbound hp.2), if_neg hend, Nat.mod_eq_of_lt (by omega)]

/-- A step of the advance is a clock of the counter's mode. -/
theorem tick_eq_clock (h : c.Valid) : c.tick = c.clock := by
  unfold clock
  cases hl : c.loading with
  | true =>
    rw [if_pos rfl, tick, if_pos hl]
  | false =>
    rw [if_neg (by decide)]
    by_cases hidle : c.gate = false ∨ c.active = 0
    · rw [if_pos hidle, tick, if_neg (by rw [hl]; decide)]
      rcases hidle with hg | ha
      · rw [if_pos (Or.inr (Or.inr (by simp [hg])))]
      · rw [if_pos (Or.inr (Or.inl ha))]
    · rw [if_neg hidle]
      rw [not_or, Bool.not_eq_false] at hidle
      have hphase := h.phase_lt hidle.2
      rcases mode_cases c with hm | hm | hm
      · rw [if_neg (by simp [hm]), if_neg (by simp [hm]), tick, if_neg (by rw [hl]; decide), if_pos (Or.inl hm)]
      · rw [if_pos hm, tick_eq_clock2 hphase hm hl hidle.1]
      · rw [if_neg (by simp [hm]), if_pos hm, tick_eq_clock3 hphase h.active_ne_one hm hl hidle.1]

/-! ## The clocks with OUT high -/

/-- An advance counts the clocks that start with OUT high. -/
theorem advance_snd (h : c.Valid) (clocks : Nat) :
    (c.advance clocks).2 = Nat.count (fun i => (tick^[i] c).output = true) clocks := by
  induction clocks generalizing c with
  | zero => rw [advance_zero h, Nat.count_zero]
  | succ clocks ih =>
    rw [advance_succ h, ih h.tick, Nat.count_succ', Function.iterate_zero_apply, Nat.add_comm]
    cases c.output with
    | true => rfl
    | false => rfl

/-- Counts of consecutive advances add up. -/
theorem advance_add_snd (h : c.Valid) (n m : Nat) :
    (c.advance (n + m)).2 = (c.advance n).2 + ((c.advance n).1.advance m).2 := by
  rw [advance_eq_iterate h, advance_snd h, advance_snd h, advance_snd (h.iterate n), Nat.count_add]
  simp only [← Function.iterate_add_apply, Nat.add_comm]

/-! ## Steady counters -/

/-- A stopped counter is at the start of its period. -/
structure Steady (c : Counter) : Prop extends c.Valid where
  phase_eq_zero : c.active = 0 → c.phase = 0

theorem highClocks_of_stopped (h : c.active = 0) : c.highClocks = 0 := by
  unfold highClocks
  rw [h]
  split <;> rfl

theorem Steady.tick (h : c.Steady) : c.tick.Steady where
  toValid := h.toValid.tick
  phase_eq_zero := by
    unfold Counter.tick
    split
    · exact fun _ => rfl
    split
    · exact h.phase_eq_zero
    next hrun =>
    split
    · intro hstopped
      dsimp only
      split
      · rfl
      · exact highClocks_of_stopped hstopped
    · exact fun hstopped => absurd (Or.inr (Or.inl hstopped)) hrun

theorem Steady.iterate (h : c.Steady) (n : Nat) : (Counter.tick^[n] c).Steady := by
  induction n generalizing c with
  | zero => exact h
  | succ n ih => exact ih h.tick

/-- Whatever keeps the count and the phase keeps a counter steady. -/
theorem Steady.congr {d : Counter} (h : c.Steady) (hact : d.active = c.active) (hphase : d.phase = c.phase) :
    d.Steady := by
  refine ⟨⟨?_, ?_⟩, ?_⟩
  · rw [hact]
    exact h.active_ne_one
  · rw [hact, hphase]
    exact h.phase_lt
  · rw [hact, hphase]
    exact h.phase_eq_zero

/-! ## Transitions -/

/-- What a due transition does: OUT changes, unless the clock is for an initial load or a gate trigger, or stops the
    counter on a count out of range. -/
def Moves (c : Counter) : Prop := c.loading = true ∨ c.tick.output ≠ c.output ∨ (c.active ≠ 0 ∧ c.tick.active = 0)

theorem moves_of_due (h : c.Valid) (hdue : c.nextTransition = some 1) : c.Moves := by
  cases hl : c.loading with
  | true => exact Or.inl hl
  | false =>
    obtain ⟨hm, hg, ha, -⟩ := due_of_nextTransition h hl hdue
    cases hout : c.output with
    | false =>
      have hrise : c.tick.output = true := output_of_low h hout hdue
      exact Or.inr (Or.inl (by rw [hrise, hout]; decide))
    | true =>
      have hfall : c.tick.output = false ∨ c.tick.nextTransition = none := output_of_high h hl hout hdue
      rcases hfall with hlow | hstopped
      · exact Or.inr (Or.inl (by rw [hlow, hout]; decide))
      · refine Or.inr (Or.inr ⟨ha, ?_⟩)
        by_contra hact
        rw [nextTransition, tick_mode, tick_gate, tick_loading, if_neg (by simp [hm, hg]), if_neg (by decide),
          if_neg hact] at hstopped
        exact absurd hstopped (Option.some_ne_none _)

theorem not_moves_of_far (h : c.Valid) {n : Nat} (hn : c.nextTransition = some n) (hfar : 1 < n) : ¬ c.Moves := by
  obtain ⟨-, hnext⟩ := output_tick_of_some h hn
  obtain ⟨hout, hnext⟩ := hnext hfar
  rintro (hl | hout' | ⟨-, hstopped⟩)
  · unfold nextTransition at hn
    rw [hl] at hn
    split at hn
    · exact absurd hn.symm (Option.some_ne_none _)
    · exact absurd (Option.some.inj hn) (Nat.ne_of_lt hfar)
  · exact hout' hout
  · rw [nextTransition_of_idle (tick_loading c) hstopped] at hnext
    exact absurd hnext.symm (Option.some_ne_none _)

/-- The search stops at the first clock that does something to a counter. -/
theorem nextTransition_spec (h : c.Valid) {n : Nat} (hn : c.nextTransition = some n) :
    0 < n ∧ (tick^[n - 1] c).Moves ∧ ∀ k, k < n - 1 → ¬ (tick^[k] c).Moves := by
  obtain ⟨hpos, -⟩ := output_tick_of_some h hn
  refine ⟨hpos, ?_⟩
  obtain ⟨m, rfl⟩ : ∃ m, n = m + 1 := ⟨n - 1, by omega⟩
  rw [Nat.add_sub_cancel]
  clear hpos
  induction m generalizing c with
  | zero => exact ⟨moves_of_due h hn, fun k hk => absurd hk (Nat.not_lt_zero k)⟩
  | succ m ih =>
    have hfst := not_moves_of_far h hn (by omega)
    obtain ⟨-, hnext⟩ := output_tick_of_some h hn
    obtain ⟨hmoves, hbef⟩ := ih h.tick (hnext (by omega)).2
    refine ⟨hmoves, fun k hk => ?_⟩
    cases k with
    | zero => exact hfst
    | succ k => exact hbef k (by omega)

/-- OUT keeps its level up to a clock that does something. -/
theorem output_of_not_moves {n : Nat} (h : ∀ k, k < n → ¬ (tick^[k] c).Moves) (k : Nat) (hk : k ≤ n) :
    (tick^[k] c).output = c.output := by
  induction k with
  | zero => rfl
  | succ k ih =>
    have hstill := h k hk
    rw [Function.iterate_succ_apply', ← ih (Nat.le_of_succ_le hk)]
    by_contra hchange
    exact hstill (Or.inr (Or.inl hchange))

/-- Where the search finds nothing, OUT keeps its level. -/
theorem output_of_none (h : c.nextTransition = none) (n : Nat) : (tick^[n] c).output = c.output := by
  induction n generalizing c with
  | zero => rfl
  | succ n ih =>
    obtain ⟨hout, hnext⟩ := output_tick_of_none h
    exact (ih hnext).trans hout

/-- OUT rises at a clock. -/
def RisesAt (c : Counter) (n : Nat) : Prop := 0 < n ∧ (clock^[n - 1] c).output = false ∧ (clock^[n] c).output = true

theorem iterate_clock (h : c.Valid) (n : Nat) : clock^[n] c = tick^[n] c := by
  induction n generalizing c with
  | zero => rfl
  | succ n ih => rw [Function.iterate_succ_apply, Function.iterate_succ_apply, ← tick_eq_clock h, ih h.tick]

theorem rises_iff (h : c.Valid) (n : Nat) : c.Rises n ↔ ∃ k, k ≤ n ∧ c.RisesAt k := by
  unfold Rises RisesAt
  simp only [iterate_clock h]
  constructor
  · rintro ⟨k, hk, hlow, hhi⟩
    exact ⟨k + 1, hk, Nat.succ_pos k, hlow, hhi⟩
  · rintro ⟨k, hk, hpos, hlow, hhi⟩
    refine ⟨k - 1, by omega, hlow, ?_⟩
    rw [Nat.sub_add_cancel hpos]
    exact hhi

/-- The search finds the first rise of OUT. -/
theorem nextRisingEdge_spec (h : c.Valid) (n : Nat) :
    c.nextRisingEdge = some n ↔ c.RisesAt n ∧ ∀ k, k < n → ¬ c.RisesAt k := by
  have hle (clocks : Nat) := (nextRisingEdge_le_iff h clocks).trans (rises_iff h clocks)
  constructor
  · intro hn
    have hbef : ∀ k, k < n → ¬ c.RisesAt k := by
      intro k hk hrises
      obtain ⟨edge, hedge, hedgele⟩ := (hle k).mpr ⟨k, Nat.le_refl k, hrises⟩
      obtain rfl := Option.some.inj (hn.symm.trans hedge)
      omega
    obtain ⟨k, hk, hrises⟩ := (hle n).mp ⟨n, hn, Nat.le_refl n⟩
    have hkn : k = n := by
      by_contra hne
      exact hbef k (by omega) hrises
    subst hkn
    exact ⟨hrises, hbef⟩
  · rintro ⟨hrises, hbef⟩
    obtain ⟨edge, hedge, hedgele⟩ := (hle n).mpr ⟨n, Nat.le_refl n, hrises⟩
    obtain ⟨k, hk, hrises'⟩ := (hle edge).mp ⟨edge, hedge, Nat.le_refl edge⟩
    have hkn : ¬ k < n := fun hlt => hbef k hlt hrises'
    rw [hedge, show edge = n by omega]

/-! ## Reachable counters -/

/-- What is done to a counter. -/
inductive CounterOp where
  | control (value : BitVec 8)
  | write (value : BitVec 8)
  | read
  | latch (count status : Bool)
  | setGate (high : Bool)
  | advance (clocks : Nat)

def step (c : Counter) : CounterOp → Counter
  | .control value => c.program value
  | .write value => c.write value
  | .read => c.read.1
  | .latch count status => c.latch count status
  | .setGate high => c.setGate high
  | .advance clocks => (c.advance clocks).1

def reach (ops : List CounterOp) : Counter := Run.after step default ops

theorem latch_active (c : Counter) (count status : Bool) :
    (c.latch count status).active = c.active ∧ (c.latch count status).phase = c.phase := by
  unfold latch
  dsimp only
  split <;> split <;> exact ⟨rfl, rfl⟩

theorem write_active (c : Counter) (value : BitVec 8) :
    (c.write value).active = c.active ∧ (c.write value).phase = c.phase := by
  unfold write
  dsimp only
  split
  · split <;> exact ⟨rfl, rfl⟩
  split
  · split <;> exact ⟨rfl, rfl⟩
  split
  · split
    · split <;> exact ⟨rfl, rfl⟩
    · exact ⟨rfl, rfl⟩
  · exact ⟨rfl, rfl⟩

theorem read_active (c : Counter) : c.read.1.active = c.active ∧ c.read.1.phase = c.phase := by
  unfold read
  split <;> exact ⟨rfl, rfl⟩

theorem setGate_active (c : Counter) (high : Bool) :
    (c.setGate high).active = c.active ∧ (c.setGate high).phase = c.phase := by
  unfold setGate
  dsimp only
  split <;> exact ⟨rfl, rfl⟩

theorem Steady.step (h : c.Steady) (op : CounterOp) : (c.step op).Steady := by
  cases op with
  | control value =>
    show (c.program value).Steady
    unfold program
    split
    · exact h.congr (latch_active c true false).1 (latch_active c true false).2
    · exact ⟨⟨Nat.zero_ne_one, fun hne => absurd rfl hne⟩, fun _ => rfl⟩
  | write value => exact h.congr (write_active c value).1 (write_active c value).2
  | read => exact h.congr (read_active c).1 (read_active c).2
  | latch count status => exact h.congr (latch_active c count status).1 (latch_active c count status).2
  | setGate high => exact h.congr (setGate_active c high).1 (setGate_active c high).2
  | advance clocks =>
    show (c.advance clocks).1.Steady
    rw [advance_eq_iterate h.toValid]
    exact h.iterate clocks

theorem steady_reach (ops : List CounterOp) : (reach ops).Steady := by
  have hdefault : default.Steady := ⟨⟨Nat.zero_ne_one, fun hne => absurd rfl hne⟩, fun _ => rfl⟩
  exact Run.invariant (P := Steady) (fun _ op h => h.step op) hdefault ops

/-- The count that is read back stays within its period. -/
structure CountFits (c : Counter) : Prop where
  mode2 : c.mode = some 2 → c.phase ≤ c.active
  mode3 : c.mode = some 3 → c.active ≠ 0 →
    2 * (if c.phase < c.highClocks then c.phase else c.phase - c.highClocks) ≤ c.active / 2 * 2

theorem Steady.countFits (h : c.Steady) : c.CountFits where
  mode2 _ := by
    by_cases ha : c.active = 0
    · rw [h.phase_eq_zero ha]
      exact Nat.zero_le _
    · exact Nat.le_of_lt (h.phase_lt ha)
  mode3 hm ha := by
    have hphase := h.phase_lt ha
    rw [highClocks_of_mode3 hm]
    split <;> omega

/-- A running counter is out of its initial load, with its gate high. -/
structure Running (c : Counter) : Prop where
  loading : c.loading = false
  gate : c.gate = true
  active : c.active ≠ 0

theorem Running.output_of_mode2 (h : c.Running) (hm : c.mode = some 2) :
    c.output = true ↔ c.phase + 1 < c.active := by
  have hact := h.active
  rw [output_of_running (by rw [hm]; exact Option.some_ne_none _) h.gate h.loading hact, decide_eq_true_iff,
    highClocks_of_mode2 hm]
  omega

theorem Running.output_of_mode3 (h : c.Running) (hm : c.mode = some 3) :
    c.output = true ↔ 2 * c.phase < c.active := by
  rw [output_of_running (by rw [hm]; exact Option.some_ne_none _) h.gate h.loading h.active, decide_eq_true_iff,
    highClocks_of_mode3 hm]
  omega

/-- Every reachable counter: advances are clocks of its mode, with a count of those with OUT high, and add up; the
    searches name the first clock that does something and the first rise of OUT, and end; the phase stays below the
    active count, and no count underflows. -/
theorem advances_are_clocks (ops : List CounterOp) :
    let c := reach ops
    (∀ n m, (c.advance (n + m)).1 = ((c.advance n).1.advance m).1 ∧
      (c.advance (n + m)).2 = (c.advance n).2 + ((c.advance n).1.advance m).2) ∧
    (∀ n, c.advance n = (clock^[n] c, Nat.count (fun i => (clock^[i] c).output = true) n)) ∧
    c.advance 1 = (c.clock, c.output.toNat) ∧
    (c.Running → (c.mode = some 2 → (c.output = true ↔ c.phase + 1 < c.active)) ∧
      (c.mode = some 3 → (c.output = true ↔ 2 * c.phase < c.active))) ∧
    (∀ n, c.nextTransition = some n → 0 < n ∧ (∀ k, k < n → (clock^[k] c).output = c.output) ∧
      (clock^[n - 1] c).Moves ∧ ∀ k, k < n - 1 → ¬ (clock^[k] c).Moves) ∧
    (c.nextTransition = none → ∀ n, (clock^[n] c).output = c.output) ∧
    (∃ edge, risingEdgeFrom 3 c 0 = some edge) ∧
    (∀ n, c.nextRisingEdge = some n ↔ c.RisesAt n ∧ ∀ k, k < n → ¬ c.RisesAt k) ∧
    (c.active ≠ 0 → c.phase < c.active) ∧ c.CountFits := by
  intro c
  have h : c.Steady := steady_reach ops
  have hadvance (n : Nat) : c.advance n = (clock^[n] c, Nat.count (fun i => (clock^[i] c).output = true) n) := by
    simp only [iterate_clock h.toValid]
    exact Prod.ext (advance_eq_iterate h.toValid n) (advance_snd h.toValid n)
  refine ⟨fun n m => ⟨advance_add h.toValid n m, advance_add_snd h.toValid n m⟩, hadvance, ?_,
    fun hrun => ⟨hrun.output_of_mode2, hrun.output_of_mode3⟩, fun n hn => ?_, fun hn n => ?_,
    risingEdgeFrom_terminates h.toValid 0, nextRisingEdge_spec h.toValid, h.phase_lt, h.countFits⟩
  · rw [hadvance 1, Nat.count_succ, Nat.count_zero, Function.iterate_one, Function.iterate_zero_apply]
    cases c.output with
    | true => rfl
    | false => rfl
  · obtain ⟨hpos, hmoves, hbefore⟩ := nextTransition_spec h.toValid hn
    simp only [iterate_clock h.toValid]
    refine ⟨hpos, fun k hk => ?_, hmoves, hbefore⟩
    exact output_of_not_moves hbefore k (by omega)
  · rw [iterate_clock h.toValid]
    exact output_of_none hn n

/-- An initial load takes a clock, at which OUT stays high. -/
theorem initial_load_keeps_out :
    ¬ ∀ ops n, (reach ops).nextTransition = some n → (clock^[n] (reach ops)).output ≠ (clock^[n - 1] (reach ops)).output := by
  intro h
  exact h [.control 0x34, .setGate true, .write 2, .write 0] 1 (by decide) (by decide)

end Relocade.Pit.Counter
