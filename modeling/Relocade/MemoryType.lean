import Relocade.Memory

/-!
# `MemoryType` — the types that memory accesses transfer

A load or store transfers one of five types, whole bytes in little-endian order.
-/

namespace Relocade

/-- `I8`, `I16`, `I32`, `I64` and `V128`. -/
inductive MemoryType where
  | byte | word | dword | qword | vector
  deriving DecidableEq, Repr

namespace MemoryType

def bytes : MemoryType → Nat
  | byte => 1
  | word => 2
  | dword => 4
  | qword => 8
  | vector => 16

theorem bytes_inj {a b : MemoryType} (h : a.bytes = b.bytes) : a = b := by
  cases a <;> cases b <;> first | rfl | exact absurd h (by decide)

theorem bytes_pos (type : MemoryType) : 0 < type.bytes := by
  cases type <;> decide

end MemoryType

end Relocade
