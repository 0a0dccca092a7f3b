import Relocade.Pit.Stepping
import Relocade.Pit.Timer
import Relocade.Words.Checked

/-!
# `Speaker.Audio` — samples of the timer's output

Playback advances a copy of counter 2 by one sample at a time. A sample lasts `inputHz` units of time and an input
clock lasts as many units as the sample rate, so both a sample and a clock are whole numbers of units. A sample's
integral counts its units with OUT high; the fraction is the part of the current clock that earlier samples used up.
-/

namespace Relocade.Speaker

open Pit Pit.Counter
open Option (bind_eq_bind bind_some)

/-- The stream's configuration, as far as synthesis reads it. Attaching refuses a zero rate. -/
structure Config where
  sampleRate : Nat
  bufferSize : Option Nat
  rate_pos : 0 < sampleRate
  rate_lt : sampleRate < 2 ^ 32

/-- The samples of a buffer: a fixed size is brought into `1..=256`. -/
def Config.batch (config : Config) : Nat := config.bufferSize.elim 256 fun n => max 1 (min n 256)

structure Audio where
  config : Config
  counter : Counter
  fraction : Nat

namespace Audio

def attach (config : Config) (counter : Counter) : Audio := ⟨config, counter, 0⟩

def update (audio : Audio) (counter : Counter) : Audio := { audio with counter := counter, fraction := 0 }

/-- The integral of one sample, before it is scaled; `none` where the unsigned arithmetic fails. -/
def sample (audio : Audio) : Option (Nat × Audio) := do
  let rate := audio.config.sampleRate
  let initialHigh := audio.counter.output.toNat
  let span ← Checked.add 64 audio.fraction inputHz
  let clocks ← Checked.div span rate
  let advanced := audio.counter.advance clocks
  let nextFraction ← Checked.mod span rate
  -- the whole clocks plus the two fractional endpoints
  let whole ← Checked.mul 64 advanced.2 rate
  let last ← Checked.mul 64 nextFraction advanced.1.output.toNat
  let charged ← Checked.add 64 whole last
  let first ← Checked.mul 64 audio.fraction initialHigh
  let integral ← Checked.sub charged first
  return (integral, { audio with counter := advanced.1, fraction := nextFraction })

/-- Consecutive samples. -/
def samples : Nat → Audio → Option (List Nat × Audio)
  | 0, audio => some ([], audio)
  | count + 1, audio => do
      let (integral, audio) ← audio.sample
      let (integrals, audio) ← samples count audio
      return (integral :: integrals, audio)

/-- The integrals of a buffer's samples. Every channel plays the same scaled value; muted output is silence. -/
def buffer (audio : Audio) (enabled : Bool) : Option (List Nat × Audio) :=
  if enabled then samples audio.config.batch audio else some (List.replicate audio.config.batch 0, audio)

/-- Consecutive enabled buffers. -/
def buffers : Nat → Audio → Option (List Nat × Audio)
  | 0, audio => some ([], audio)
  | count + 1, audio => do
      let (first, audio) ← audio.buffer true
      let (rest, audio) ← buffers count audio
      return (first ++ rest, audio)

end Audio

/-! ## High time -/

section HighTime

variable {p : Nat → Prop} [DecidablePred p] {rate : Nat}

/-- The units of a part of a clock all have its level. -/
theorem count_part (n : Nat) {part : Nat} (hpart : part ≤ rate) :
    Nat.count (fun unit => p (unit / rate)) (n * rate + part) =
      Nat.count (fun unit => p (unit / rate)) (n * rate) + part * (decide (p n)).toNat := by
  induction part with
  | zero => rw [Nat.zero_mul]; rfl
  | succ part ih =>
    have hunit : (n * rate + part) / rate = n := by
      rw [Nat.add_comm, Nat.add_mul_div_right _ _ (by omega), Nat.div_eq_of_lt hpart, Nat.zero_add]
    rw [← Nat.add_assoc, Nat.count_succ, ih (Nat.le_of_succ_le hpart), hunit, Nat.succ_mul, Nat.add_assoc]
    by_cases hp : p n <;> simp [hp]

/-- The units of whole clocks. -/
theorem count_whole (n : Nat) : Nat.count (fun unit => p (unit / rate)) (n * rate) = Nat.count p n * rate := by
  induction n with
  | zero => simp
  | succ n ih =>
    rw [Nat.succ_mul, count_part n (Nat.le_refl rate), ih, Nat.count_succ, Nat.add_mul]
    by_cases hp : p n <;> simp [hp]

/-- The units with OUT high before a position, when each clock lasts `rate` units from the counter's state on. -/
def highUpTo (counter : Counter) (rate unit : Nat) : Nat :=
  Nat.count (fun unit => (tick^[unit / rate] counter).output = true) unit

variable {counter : Counter} {unit : Nat}

variable (counter : Counter)

/-- High time is that of the whole clocks and of the part of the clock under way. -/
theorem highUpTo_eq (rate unit : Nat) (hrate : 0 < rate) :
    highUpTo counter rate unit = Nat.count (fun i => (tick^[i] counter).output = true) (unit / rate) * rate +
      unit % rate * (tick^[unit / rate] counter).output.toNat := by
  have hpart := count_part (p := fun i => (tick^[i] counter).output = true) (unit / rate)
    (Nat.le_of_lt (Nat.mod_lt unit hrate))
  rw [Nat.div_add_mod', count_whole (p := fun i => (tick^[i] counter).output = true), Bool.decide_eq_true] at hpart
  exact hpart

theorem highUpTo_le (rate : Nat) {stop : Nat} (h : unit ≤ stop) :
    highUpTo counter rate unit ≤ highUpTo counter rate stop :=
  Nat.count_monotone _ h

/-- No more units are high than pass. -/
theorem highUpTo_add_le (rate unit length : Nat) :
    highUpTo counter rate (unit + length) ≤ highUpTo counter rate unit + length := by
  rw [highUpTo, Nat.count_add]
  exact Nat.add_le_add_left (Nat.count_le _) _

end HighTime

namespace Audio

variable {config : Config} {counter : Counter}

/-- Playback of a counter at a position. -/
def reached (config : Config) (counter : Counter) (unit : Nat) : Audio where
  config := config
  counter := tick^[unit / config.sampleRate] counter
  fraction := unit % config.sampleRate

/-- A sample integrates the output over its own units. -/
theorem sample_eq (h : counter.Valid) (unit : Nat) :
    (reached config counter unit).sample =
      some (highUpTo counter config.sampleRate (unit + inputHz) - highUpTo counter config.sampleRate unit,
        reached config counter (unit + inputHz)) := by
  have hrate := config.rate_pos
  have hfrac : unit % config.sampleRate < config.sampleRate := Nat.mod_lt _ hrate
  have hlt := config.rate_lt
  have hhz : inputHz = 1193182 := rfl
  -- where the sample ends
  have hstop : unit + inputHz = unit % config.sampleRate + inputHz + unit / config.sampleRate * config.sampleRate := by
    have := Nat.div_add_mod' unit config.sampleRate
    omega
  have hclocks : (unit + inputHz) / config.sampleRate =
      (unit % config.sampleRate + inputHz) / config.sampleRate + unit / config.sampleRate := by
    rw [hstop, Nat.add_mul_div_right _ _ hrate]
  have hnext : (unit + inputHz) % config.sampleRate = (unit % config.sampleRate + inputHz) % config.sampleRate := by
    rw [hstop, Nat.add_mul_mod_self_right]
  have hadvance := advance_eq_iterate (h.iterate (unit / config.sampleRate))
    ((unit % config.sampleRate + inputHz) / config.sampleRate)
  rw [← Function.iterate_add_apply, ← hclocks] at hadvance
  -- the clocks it advances by
  have hhi := advance_snd (h.iterate (unit / config.sampleRate))
    ((unit % config.sampleRate + inputHz) / config.sampleRate)
  have hcnt := Nat.count_add (fun i => (tick^[i] counter).output = true) (unit / config.sampleRate)
    ((unit % config.sampleRate + inputHz) / config.sampleRate)
  simp only [← Function.iterate_add_apply] at hhi
  simp only [Nat.add_comm (unit / config.sampleRate)] at hcnt
  rw [← hhi, ← hclocks] at hcnt
  have hle := highUpTo_le counter config.sampleRate (Nat.le_add_right unit inputHz)
  have hfrom := highUpTo_eq counter config.sampleRate unit hrate
  have hto := highUpTo_eq counter config.sampleRate (unit + inputHz) hrate
  rw [hcnt, hnext, Nat.add_mul] at hto
  have hcountle : ((tick^[unit / config.sampleRate] counter).advance
      ((unit % config.sampleRate + inputHz) / config.sampleRate)).2 * config.sampleRate ≤
      unit % config.sampleRate + inputHz := by
    rw [hhi]
    exact Nat.le_trans (Nat.mul_le_mul_right _ (Nat.count_le _)) (Nat.div_mul_le_self _ _)
  have hlast := Nat.mod_lt (unit % config.sampleRate + inputHz) hrate
  have hlastle := Nat.mul_le_mul_left ((unit % config.sampleRate + inputHz) % config.sampleRate)
    (Bool.toNat_le (tick^[(unit + inputHz) / config.sampleRate] counter).output)
  have hfirstle := Nat.mul_le_mul_left (unit % config.sampleRate)
    (Bool.toNat_le (tick^[unit / config.sampleRate] counter).output)
  simp only [sample, reached, bind_eq_bind]
  rw [Checked.add_eq (by omega), bind_some, Checked.div_eq hrate, bind_some, hadvance,
    Checked.mod_eq hrate, bind_some, Checked.mul_eq (by omega), bind_some, Checked.mul_eq (by omega),
    bind_some, Checked.add_eq (by omega), bind_some, Checked.mul_eq (by omega), bind_some,
    Checked.sub_eq (by omega), bind_some, hnext]
  refine congrArg some (Prod.ext ?_ rfl)
  dsimp only
  omega

/-- The high time of a sample, by its number. -/
def sampleTime (config : Config) (counter : Counter) (k : Nat) : Nat :=
  highUpTo counter config.sampleRate ((k + 1) * inputHz) - highUpTo counter config.sampleRate (k * inputHz)

theorem sampleTime_le (k : Nat) : sampleTime config counter k ≤ inputHz := by
  have := highUpTo_add_le counter config.sampleRate (k * inputHz) inputHz
  rw [sampleTime, Nat.succ_mul]
  omega

/-- The high times of consecutive samples telescope. -/
theorem sum_sampleTime (first count : Nat) :
    ((List.range' first count).map (sampleTime config counter)).sum =
      highUpTo counter config.sampleRate ((first + count) * inputHz) -
        highUpTo counter config.sampleRate (first * inputHz) := by
  induction count generalizing first with
  | zero => simp
  | succ count ih =>
    rw [List.range'_succ, List.map_cons, List.sum_cons, ih, sampleTime, Nat.add_assoc, Nat.add_comm 1 count]
    have hnext := highUpTo_le counter config.sampleRate
      (Nat.mul_le_mul_right inputHz (Nat.le_add_right first 1))
    have hrest := highUpTo_le counter config.sampleRate
      (Nat.mul_le_mul_right inputHz (show first + 1 ≤ first + (count + 1) by omega))
    omega

/-- A run of samples integrates the output sample by sample. -/
theorem samples_eq (h : counter.Valid) (count first : Nat) :
    samples count (reached config counter (first * inputHz)) =
      some ((List.range' first count).map (sampleTime config counter),
        reached config counter ((first + count) * inputHz)) := by
  induction count generalizing first with
  | zero => rfl
  | succ count ih =>
    rw [samples, sample_eq h, bind_eq_bind, bind_some, ← Nat.succ_mul]
    dsimp only
    rw [ih (first + 1), bind_eq_bind, bind_some, List.range'_succ, List.map_cons, Nat.add_assoc,
      Nat.add_comm 1 count]
    rfl

/-- So does a run of buffers. -/
theorem buffers_eq (config : Config) (h : counter.Valid) (count first : Nat) :
    buffers count (reached config counter (first * inputHz)) =
      some ((List.range' first (count * config.batch)).map (sampleTime config counter),
        reached config counter ((first + count * config.batch) * inputHz)) := by
  induction count generalizing first with
  | zero => rw [Nat.zero_mul]; rfl
  | succ count ih =>
    have hbatch : (reached config counter (first * inputHz)).config.batch = config.batch := rfl
    rw [buffers, buffer, if_pos rfl, hbatch, samples_eq h, bind_eq_bind, bind_some]
    dsimp only
    rw [ih, bind_some, Nat.succ_mul, Nat.add_comm (count * config.batch),
      ← List.range'_append_1, List.map_append, Nat.add_assoc]
    rfl

theorem attach_eq (config : Config) (counter : Counter) :
    attach config counter = reached config counter (0 * inputHz) := by
  rw [attach, reached, Nat.zero_mul, Nat.zero_mod, Nat.zero_div]
  rfl

/-- From any state of the counter, buffers are produced without failing arithmetic; no sample exceeds its length, and
the samples from any one on add up to the time OUT2 is high from its start to the end of the last. -/
theorem buffers_integrate (config : Config) (ops : List CounterOp) (count : Nat) :
    ∃ integrals audio, buffers count (attach config (reach ops)) = some (integrals, audio) ∧
      integrals.length = count * config.batch ∧ audio.fraction < config.sampleRate ∧
      (∀ integral ∈ integrals, integral ≤ inputHz) ∧
      ∀ first n, first + n ≤ integrals.length → ((integrals.drop first).take n).sum =
        highUpTo (reach ops) config.sampleRate ((first + n) * inputHz) -
          highUpTo (reach ops) config.sampleRate (first * inputHz) := by
  have hrun := buffers_eq config (steady_reach ops).toValid count 0
  rw [attach_eq, hrun]
  refine ⟨_, _, rfl, by simp, Nat.mod_lt _ config.rate_pos, fun integral hintegral => ?_, fun first n hn => ?_⟩
  · obtain ⟨k, -, rfl⟩ := List.mem_map.mp hintegral
    exact sampleTime_le k
  · rw [List.length_map, List.length_range'] at hn
    rw [← List.map_drop, ← List.map_take, ← sum_sampleTime]
    have hrange : ((List.range' 0 (count * config.batch)).drop first).take n = List.range' first n := by
      refine List.ext_getElem (by simp; omega) fun i _ _ => ?_
      rw [List.getElem_take, List.getElem_drop, List.getElem_range', List.getElem_range']
      omega
    rw [hrange]

/-- The first two samples at 44100 Hz of a square wave of period 2386. -/
theorem square_wave_integrated :
    ∃ integrals audio, buffers 1 (attach ⟨44100, some 2, by decide, by decide⟩
        (reach [.control 0xB6, .write 0x52, .write 0x09, .setGate true])) = some (integrals, audio) ∧
      integrals.length = 2 ∧ integrals.sum = 2 * inputHz := by
  obtain ⟨integrals, audio, hrun, hlength, -, -, hsum⟩ := buffers_integrate ⟨44100, some 2, by decide, by decide⟩
    [.control 0xB6, .write 0x52, .write 0x09, .setGate true] 1
  have htwo : integrals.length = 2 := hlength
  refine ⟨integrals, audio, hrun, htwo, ?_⟩
  have htake := hsum 0 2 (by omega)
  rw [List.drop_zero, List.take_of_length_le (by omega)] at htake
  rw [htake, highUpTo_eq _ _ _ (by decide), highUpTo_eq _ _ _ (by decide)]
  decide

end Audio

end Relocade.Speaker
