import Relocade.Flags.Change
import Relocade.X87.File

/-!
# `X87.Payload` — one retained register value

A payload is loaded when first read and stored at publication. A guarded write is kept beside the value it may replace
until the guard is known to have held, or publication resolves it.
-/

namespace Relocade.X87

open Flags (Val)

/-- How the builder identifies its integer expressions, and which of them are constant while building. -/
structure Naming (N : Type) extends Flags.Naming N where
  literal : Nat → N
  add : N → N → N
  sub : N → N → N
  masked : N → Nat → N
  shr : N → N → N
  truncate : N → N
  classified : N → N
  empty : N → N → N
  isConstant : N → Bool

section

variable {N : Type} {w : Nat} (naming : Naming N)

namespace Naming

def int (w value : Nat) : Val N (BitVec w) := ⟨naming.literal value, BitVec.ofNat w value⟩

def sum (a b : Val N (BitVec w)) : Val N (BitVec w) := ⟨naming.add a.name b.name, a.value + b.value⟩

def difference (a b : Val N (BitVec w)) : Val N (BitVec w) := ⟨naming.sub a.name b.name, a.value - b.value⟩

/-- `a.and(mask)`. -/
def mask (a : Val N (BitVec w)) (mask : Nat) : Val N (BitVec w) :=
  ⟨naming.masked a.name mask, a.value &&& BitVec.ofNat w mask⟩

end Naming

/-- A position that is constant while building. -/
def knownSlot (value : Val N (BitVec 32)) : Option (Fin 8) :=
  if h : naming.isConstant value.name ∧ value.value.toNat < 8 then some ⟨value.value.toNat, h.2⟩ else none

end

/-! ## The code -/

/-- A register value: an expression, and the encoding it has on the run. -/
abbrev ExtendedValue (N : Type) := Val N ExtendedBits

structure ConditionalWrite (N : Type) where
  enabled : Val N Bool
  value : ExtendedValue N

/-- `value` precedes a pending conditional write. -/
structure Payload (N : Type) where
  address : BitVec 32
  value : Option (ExtendedValue N)
  dirty : Bool
  conditionalWrite : Option (ConditionalWrite N)

namespace Payload

variable {N : Type} [DecidableEq N] (naming : Naming N) (m : Memory) (payload : Payload N)

def new (address : BitVec 32) : Payload N := ⟨address, none, false, none⟩

def define (value : ExtendedValue N) : Payload N := { payload with value := some value, dirty := true }

def load (address : Nat) : ExtendedValue N := ⟨naming.loaded address, loadRegister m address⟩

def read : ExtendedValue N × Payload N :=
  let previous := payload.value.getD (load naming m payload.address.toNat)
  let value :=
    match payload.conditionalWrite with
    | some write => write.enabled.select naming.toNaming write.value previous
    | none => previous
  (value, { payload with value := some previous })

/-- A false guard must establish a pending exception. Equal guards let the later write replace the earlier one;
    different guards retain the earlier conditional result as the new write's fallback. -/
def write (value : ExtendedValue N) (enabled : Val N Bool) : Payload N :=
  if enabled = naming.bool true then { payload.define value with conditionalWrite := none }
  else
    let payload :=
      match payload.conditionalWrite with
      | some write =>
          if write.enabled ≠ enabled then
            let (previous, payload) := payload.read naming m
            payload.define previous
          else payload
      | none => payload
    { payload with conditionalWrite := some ⟨enabled, value⟩ }

def discardWriteGuard : Payload N :=
  match payload.conditionalWrite with
  | some write => { payload.define write.value with conditionalWrite := none }
  | none => payload

def publishValue : Memory :=
  match payload.dirty, payload.value with
  | true, some value => storeRegister m payload.address.toNat value.value
  | _, _ => m

def publish : Memory :=
  match payload.conditionalWrite with
  | some write =>
      if write.enabled.value then storeRegister m payload.address.toNat write.value.value else payload.publishValue m
  | none => payload.publishValue m

end Payload

/-! ## What a payload stands for -/

namespace Payload

variable {N : Type} {naming : Naming N} {payload : Payload N} {m w : Memory} {i : Fin 8} {bits : ExtendedBits}

/-- The value before a pending conditional write. -/
def previous (payload : Payload N) (m : Memory) : ExtendedBits :=
  (payload.value.map (·.value)).getD (loadRegister m payload.address.toNat)

def current (payload : Payload N) (m : Memory) : ExtendedBits :=
  match payload.conditionalWrite with
  | some write => if write.enabled.value then write.value.value else payload.previous m
  | none => payload.previous m

/-- The payload stands for a register with the given value. -/
structure Valid (payload : Payload N) (m : Memory) (i : Fin 8) (bits : ExtendedBits) : Prop where
  address : payload.address.toNat = registerAddress i
  clean : payload.dirty = false → payload.previous m = loadRegister m (registerAddress i)
  dirty : payload.dirty = true → payload.value.isSome
  current : payload.current m = bits

/-- Discarding the guard leaves the value as it is. -/
def Settled (payload : Payload N) (m : Memory) : Prop :=
  ∀ write, payload.conditionalWrite = some write → write.value.value = payload.current m

theorem Valid.new {addr : BitVec 32} (h : addr.toNat = registerAddress i) :
    (new addr : Payload N).Valid m i (loadRegister m (registerAddress i)) := by
  refine ⟨h, fun _ => ?_, nofun, ?_⟩
  · show loadRegister m addr.toNat = _
    rw [h]
  · show loadRegister m addr.toNat = _
    rw [h]

theorem Settled.new {addr : BitVec 32} : (new addr : Payload N).Settled m := nofun

theorem previous_read (payload : Payload N) (naming : Naming N) (m : Memory) :
    (payload.read naming m).2.previous m = payload.previous m := by
  unfold previous read
  cases payload.value <;> rfl

theorem current_read (payload : Payload N) (naming : Naming N) (m : Memory) :
    (payload.read naming m).2.current m = payload.current m := by
  unfold current
  rw [previous_read]
  rfl

theorem read_value (payload : Payload N) (naming : Naming N) (m : Memory) :
    (payload.read naming m).1.value = payload.current m := by
  have hprev : (payload.value.getD (load naming m payload.address.toNat)).value = payload.previous m := by
    unfold previous
    cases payload.value <;> rfl
  unfold read current
  dsimp only
  split
  next write _ =>
    rw [← hprev]
    unfold Val.select
    cases write.enabled.value <;> rfl
  next => exact hprev

theorem Valid.read (h : payload.Valid m i bits) (naming : Naming N) : (payload.read naming m).2.Valid m i bits := by
  refine ⟨h.address, fun hclean => ?_, fun _ => rfl, ?_⟩
  · rw [previous_read]
    exact h.clean hclean
  · rw [current_read]
    exact h.current

theorem Settled.read (h : payload.Settled m) (naming : Naming N) : (payload.read naming m).2.Settled m := by
  intro write hwr
  rw [current_read]
  exact h write hwr

/-- A payload depends on its own register's bytes. -/
theorem Valid.congr (h : payload.Valid m i bits)
    (hload : loadRegister w (registerAddress i) = loadRegister m (registerAddress i)) : payload.Valid w i bits := by
  have hprev : payload.previous w = payload.previous m := by
    unfold previous
    rw [h.address, hload]
  refine ⟨h.address, fun hclean => ?_, h.dirty, ?_⟩
  · rw [hprev, hload]
    exact h.clean hclean
  · rw [← h.current]
    unfold Payload.current
    rw [hprev]

section

variable [DecidableEq N] {enabled : Val N Bool}

/-- A write takes effect when it is enabled. -/
theorem Valid.write (h : payload.Valid m i bits) (value : ExtendedValue N) (enabled : Val N Bool) :
    (payload.write naming m value enabled).Valid m i (if enabled.value then value.value else bits) := by
  unfold Payload.write
  split
  next htrue =>
    rw [htrue]
    exact ⟨h.address, nofun, fun _ => rfl, rfl⟩
  next =>
    cases hwr : payload.conditionalWrite with
    | none =>
      refine ⟨h.address, h.clean, h.dirty, ?_⟩
      rw [← h.current]
      unfold Payload.current
      rw [hwr]
      rfl
    | some earlier =>
      dsimp only
      split
      next =>
        refine ⟨h.address, nofun, fun _ => rfl, ?_⟩
        rw [← h.current, ← read_value payload naming m]
        rfl
      next hsame =>
        refine ⟨h.address, h.clean, h.dirty, ?_⟩
        rw [← h.current]
        unfold Payload.current
        rw [hwr, ← Classical.not_not.mp hsame]
        dsimp only
        split <;> rfl

/-- A write that takes effect, or would change nothing, leaves nothing to resolve. -/
theorem Settled.write (h : payload.Valid m i bits) (value : ExtendedValue N) (hen : enabled.value = false → value.value = bits) :
    (payload.write naming m value enabled).Settled m := by
  intro write hwr
  have hcur : (payload.write naming m value enabled).current m = _ := (h.write value enabled).current
  rw [hcur]
  have hval : write.value = value := by
    unfold Payload.write at hwr
    split at hwr
    next => exact nomatch hwr
    next =>
      cases hwr
      rfl
  rw [hval]
  split
  next => rfl
  next hdis => exact hen (Bool.not_eq_true _ ▸ hdis)

end

/-- Once its guard is known to have held, the pending write is the value. -/
theorem Valid.discardWriteGuard (h : payload.Valid m i bits) (hsettled : payload.Settled m) :
    payload.discardWriteGuard.Valid m i bits ∧ payload.discardWriteGuard.Settled m := by
  unfold Payload.discardWriteGuard
  cases hwr : payload.conditionalWrite with
  | none => exact ⟨h, hsettled⟩
  | some write =>
    refine ⟨⟨h.address, nofun, fun _ => rfl, ?_⟩, nofun⟩
    rw [← h.current]
    exact hsettled write hwr

theorem publishValue_eq (h : payload.Valid m i bits) :
    payload.publishValue m = storeRegister m (registerAddress i) (payload.previous m) := by
  unfold publishValue
  rw [h.address]
  split
  next hdirty value hval =>
    unfold previous
    rw [hval]
    rfl
  next hnot =>
    have hclean : payload.dirty = false := by
      by_contra hdirty
      rw [Bool.not_eq_false] at hdirty
      obtain ⟨value, hval⟩ := Option.isSome_iff_exists.mp (h.dirty hdirty)
      exact hnot value hdirty hval
    rw [h.clean hclean, storeRegister_self]

/-- Publication stores the value. -/
theorem Valid.publish (h : payload.Valid m i bits) : payload.publish m = storeRegister m (registerAddress i) bits := by
  rw [← h.current]
  unfold Payload.publish Payload.current
  cases payload.conditionalWrite with
  | none => exact publishValue_eq h
  | some write =>
    dsimp only
    split
    next => rw [h.address]
    next => exact publishValue_eq h

end Payload

end Relocade.X87
