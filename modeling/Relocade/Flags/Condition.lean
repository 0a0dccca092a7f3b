import Mathlib.Data.Finset.Insert
import Mathlib.Data.Finset.Basic

/-!
# `Flags.Condition` — logical flags, sets of them and the sixteen conditions
-/

namespace Relocade.Flags

/-- Dense indices for the six flags supplied by arithmetic status sources. -/
inductive StatusFlag where
  | cf | pf | af | zf | sf | of
  deriving DecidableEq, Repr

def StatusFlag.all : List StatusFlag := [.cf, .pf, .af, .zf, .sf, .of]

/-- Architectural flag identity, independent of its stored representation. -/
inductive Flag where
  | status (flag : StatusFlag)
  | tf | df | nt | ac | id | if_
  deriving DecidableEq, Repr

def Flag.all : List Flag := StatusFlag.all.map .status ++ [.tf, .df, .nt, .ac, .id, .if_]

/-- A set of logical flags. -/
abbrev FlagMask := Finset Flag

namespace FlagMask

def status : FlagMask := {.status .cf, .status .pf, .status .af, .status .zf, .status .sf, .status .of}

/-- The flags of a set, in order. -/
def flags (mask : FlagMask) : List Flag := Flag.all.filter (· ∈ mask)

def statusFlags (mask : FlagMask) : List StatusFlag := StatusFlag.all.filter (.status · ∈ mask)

end FlagMask

theorem StatusFlag.mem_all (flag : StatusFlag) : flag ∈ StatusFlag.all := by
  cases flag <;> decide

theorem Flag.mem_all (flag : Flag) : flag ∈ Flag.all := by
  cases flag with
  | status flag => cases flag <;> decide
  | _ => decide

theorem FlagMask.mem_status {flag : Flag} : flag ∈ status ↔ ∃ f, flag = .status f := by
  cases flag with
  | status flag => exact ⟨fun _ => ⟨flag, rfl⟩, fun _ => by cases flag <;> decide⟩
  | _ => exact ⟨fun h => absurd h (by decide), fun ⟨f, h⟩ => nomatch h⟩

theorem FlagMask.mem_flags {mask : FlagMask} {flag : Flag} : flag ∈ mask.flags ↔ flag ∈ mask := by
  simp [flags, Flag.mem_all]

theorem FlagMask.mem_statusFlags {mask : FlagMask} {flag : StatusFlag} :
    flag ∈ mask.statusFlags ↔ .status flag ∈ mask := by
  simp [statusFlags, StatusFlag.mem_all]

/-! ## Conditions -/

/-- In opcode order: the low bit of a condition's code inverts a pair. -/
inductive Condition where
  | o | no | b | ae | e | ne | be | a | s | ns | p | np | l | ge | le | g
  deriving DecidableEq, Repr

/-- The condition that one flag decides. -/
def StatusFlag.condition : StatusFlag → Option Condition
  | cf => some .b
  | pf => some .p
  | af => none
  | zf => some .e
  | sf => some .s
  | of => some .o

namespace Condition

/-- One predicate per inverse pair. -/
def canonical : Condition → Condition
  | o | no => o
  | b | ae => b
  | e | ne => e
  | be | a => be
  | s | ns => s
  | p | np => p
  | l | ge => l
  | le | g => le

def isInverted : Condition → Bool
  | no | ae | ne | a | ns | np | ge | g => true
  | o | b | e | be | s | p | l | le => false

/-- The flags that a condition depends on. -/
def flags : Condition → FlagMask
  | o | no => {.status .of}
  | b | ae => {.status .cf}
  | e | ne => {.status .zf}
  | be | a => {.status .cf, .status .zf}
  | s | ns => {.status .sf}
  | p | np => {.status .pf}
  | l | ge => {.status .sf, .status .of}
  | le | g => {.status .zf, .status .sf, .status .of}

/-- Reads only the status bits needed by the condition, in the order of the source. -/
def evaluate {m : Type → Type} [Monad m] (read : StatusFlag → m Bool) : Condition → m Bool
  | o => read .of
  | no => do return !(← read .of)
  | b => read .cf
  | ae => do return !(← read .cf)
  | e => read .zf
  | ne => do return !(← read .zf)
  | be => do return (← read .cf) || (← read .zf)
  | a => do return !((← read .cf) || (← read .zf))
  | s => read .sf
  | ns => do return !(← read .sf)
  | p => read .pf
  | np => do return !(← read .pf)
  | l => do return (← read .sf) ^^ (← read .of)
  | ge => do return !((← read .sf) ^^ (← read .of))
  | le => do return (← read .zf) || ((← read .sf) ^^ (← read .of))
  | g => do return !((← read .zf) || ((← read .sf) ^^ (← read .of)))

/-- The relation implied by subtracting right from left. Its absence means that the condition needs result flags. -/
def operandComparison (w : Nat) : Condition → Option (BitVec w → BitVec w → Bool)
  | b => some fun left right => left.ult right
  | ae => some fun left right => right.ule left
  | e => some fun left right => left == right
  | ne => some fun left right => left != right
  | be => some fun left right => left.ule right
  | a => some fun left right => right.ult left
  | l => some fun left right => left.slt right
  | ge => some fun left right => right.sle left
  | le => some fun left right => left.sle right
  | g => some fun left right => right.slt left
  | o | no | s | ns | p | np => none

/-- The zero test that a logical result answers directly. -/
def logicResultComparison (w : Nat) : Condition → Option (BitVec w → Bool)
  | e => some fun result => result == 0
  | ne => some fun result => result != 0
  | _ => none

/-- A condition of an explicit flag vector. -/
def holds (condition : Condition) (flags : StatusFlag → Bool) : Bool :=
  Id.run (condition.evaluate fun flag => pure (flags flag))

variable {condition : Condition}

/-- A condition depends on its flags only. -/
theorem holds_congr {f g : StatusFlag → Bool}
    (h : ∀ flag, .status flag ∈ condition.flags → f flag = g flag) : condition.holds f = condition.holds g := by
  cases condition <;> simp only [flags, Finset.mem_insert, Finset.mem_singleton, Flag.status.injEq] at h <;>
    simp [holds, evaluate, h]

/-- Reads that succeed on the needed flags give the condition. -/
theorem evaluate_eq_some {read : StatusFlag → Option Bool} {f : StatusFlag → Bool}
    (h : ∀ flag, .status flag ∈ condition.flags → read flag = some (f flag)) :
    condition.evaluate read = some (condition.holds f) := by
  cases condition <;> simp only [flags, Finset.mem_insert, Finset.mem_singleton, Flag.status.injEq] at h <;>
    simp [holds, evaluate, h]

/-- The paired condition is the negation. -/
theorem holds_canonical (condition : Condition) (f : StatusFlag → Bool) :
    condition.holds f = (condition.isInverted ^^ condition.canonical.holds f) := by
  cases condition <;> simp [holds, evaluate, isInverted, canonical]

/-- A flag that decides a condition is all it depends on. -/
theorem holds_of_condition {flag : StatusFlag} (h : flag.condition = some condition)
    (f : StatusFlag → Bool) : condition.holds f = f flag := by
  cases flag <;> cases h <;> rfl

end Condition

end Relocade.Flags
