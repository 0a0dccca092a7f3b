import Relocade.Flags.Change
import Relocade.Memory

/-!
# `Flags.Record` — the stored flag record, its writers and its generated readers

A tag selects what the record means: kind zero reads the stored flag bytes, the others derive the flags from stored
operands. Publication writes one record; the readers dispatch on the tag and trap on an unknown one.
-/

namespace Relocade.Flags

/-! ## Backing fields -/

def kindOffset : Nat := 0
def leftOffset : Nat := 4
def rightOffset : Nat := 8

def statusOffset : StatusFlag → Nat
  | .cf => 12
  | .pf => 13
  | .af => 14
  | .zf => 15
  | .sf => 16
  | .of => 17

/-- `direct_location`. -/
def directLocation : Flag → Option Nat
  | .status _ => none
  | .tf => some 18
  | .df => some 19
  | .nt => some 20
  | .ac => some 21
  | .id => some 22
  | .if_ => some 23

def concreteKind : BitVec 8 := 0

def widthCode : Width → BitVec 8
  | .byte => 0
  | .word => 4
  | .dword => 8

def encodeKind (width : Width) (operation : ArithmeticOp) : BitVec 8 :=
  widthCode width |||
    match operation with
    | .subtract => 1
    | .add => 2

def encodeLogic (width : Width) : BitVec 8 := widthCode width ||| 3

/-! ## Writers -/

/-- A payload, which determines its kind and fields. -/
inductive FlagRecord (w : Nat) where
  | arithmetic (operation : ArithmeticOp) (left right : BitVec w)
  | logic (result : BitVec w)
  | concrete (status : StatusFlag → Bool)

def FlagRecord.fromSource {w : Nat} : StatusSource w → FlagRecord w
  | .arithmetic operation left right _ _ => arithmetic operation left right
  | .logic result => logic result
  | .explicit flags => concrete flags

def storeByte (m : Memory) (offset : Nat) (value : BitVec 8) : Memory := m.write offset [value]

def storeDword {w : Nat} (m : Memory) (offset : Nat) (value : BitVec w) : Memory :=
  m.write offset (Memory.lowBytes 4 (value.setWidth 32))

def writeConcrete (m : Memory) (status : StatusFlag → Bool) : Memory :=
  let m := StatusFlag.all.foldl (fun m flag => storeByte m (statusOffset flag) ((BitVec.ofBool (status flag)).setWidth 8)) m
  storeByte m kindOffset concreteKind

/-- The tag is published after the fields it describes. -/
def FlagRecord.write (width : Width) (m : Memory) : FlagRecord width.bits → Memory
  | arithmetic operation left right =>
      storeByte (storeDword (storeDword m leftOffset left) rightOffset right) kindOffset (encodeKind width operation)
  | logic result => storeByte (storeDword m leftOffset result) kindOffset (encodeLogic width)
  | concrete status => writeConcrete m status

def publishSource (m : Memory) (source : AnyStatusSource) : Memory :=
  (FlagRecord.fromSource source.source).write source.width m

/-! ## Readers -/

section

variable (m : Memory)

def readConcreteFlag (flag : StatusFlag) : Bool := (m (statusOffset flag)).getLsbD 0

/-- A stored operand, truncated to its width. -/
def operand (offset w : Nat) : BitVec w := (m.load 32 offset 4).setWidth w

inductive FlagQuery where
  | condition (condition : Condition)
  | flags (mask : FlagMask)

namespace FlagQuery

def returnConcrete : FlagQuery → List Bool
  | condition c => [Id.run (c.evaluate fun flag => pure (readConcreteFlag m flag))]
  | flags mask => mask.statusFlags.map (readConcreteFlag m)

def returnFromSource (source : AnyStatusSource) : FlagQuery → List Bool
  | condition c => [source.condition c]
  | flags mask => mask.statusFlags.map source.flag

end FlagQuery

/-- The source of a stored operation. -/
def storedArithmetic (width : Width) (operation : ArithmeticOp) : AnyStatusSource :=
  let left := operand m leftOffset width.bits
  let right := operand m rightOffset width.bits
  ⟨width, .arithmetic operation left right (operation.result left right) rfl⟩

def storedLogic (width : Width) : AnyStatusSource := ⟨width, .logic (operand m leftOffset width.bits)⟩

/-- The records of one width; any other tag traps. -/
def returnQuery (width : Width) (kind : BitVec 8) (query : FlagQuery) : Option (List Bool) :=
  if kind = encodeKind width .subtract then some (query.returnFromSource (storedArithmetic m width .subtract))
  else if kind = encodeKind width .add then some (query.returnFromSource (storedArithmetic m width .add))
  else if kind = encodeLogic width then some (query.returnFromSource (storedLogic m width))
  else none

def defineFlagResolver (query : FlagQuery) : Option (List Bool) :=
  let kind := m kindOffset
  if kind = concreteKind then some (query.returnConcrete m)
  else if kind < widthCode .word then returnQuery m .byte kind query
  else if kind < widthCode .dword then returnQuery m .word kind query
  else returnQuery m .dword kind query

/-- `Cpu::read_flags`: the requested flags, in one dispatch. -/
def readFlags (mask : FlagMask) : Option (StatusFlag → Option Bool) :=
  if mask = ∅ then some fun _ => none
  else do
    let values ← defineFlagResolver m (.flags mask)
    return fun flag => (mask.statusFlags.zip values).lookup flag

def readConditionFallback (condition : Condition) : Option Bool := do
  let value ← (← defineFlagResolver m (.condition condition.canonical)).head?
  return if condition.isInverted then !value else value

def readSubtraction (width : Width) (condition : Condition) : Option Bool :=
  (condition.operandComparison width.bits).map fun compare =>
    compare (operand m leftOffset width.bits) (operand m rightOffset width.bits)

def readLogic (width : Width) (condition : Condition) : Option Bool :=
  (condition.logicResultComparison width.bits).map fun compare => compare (operand m leftOffset width.bits)

/-- The record cases that a condition answers from operands, by tag. -/
def recordQueries (condition : Condition) : List (BitVec 8 × (Condition → Option Bool)) :=
  [.byte, .word, .dword].map (fun width => (encodeKind width .subtract, readSubtraction m width)) ++
    if (condition.logicResultComparison 32).isSome then
      [.byte, .word, .dword].map fun width => (encodeLogic width, readLogic m width)
    else []

/-- `Cpu::read_condition`. -/
def readCondition (condition : Condition) : Option Bool :=
  if (condition.operandComparison 32).isNone then readConditionFallback m condition
  else
    match (recordQueries m condition).lookup (m kindOffset) with
    | some query => query condition
    | none => readConditionFallback m condition

end

/-! ## What a record stands for -/

/-- The source of a record of a valid kind. -/
inductive Stores (m : Memory) : AnyStatusSource → Prop where
  | concrete (h : m kindOffset = concreteKind) : Stores m ⟨.byte, .explicit (readConcreteFlag m)⟩
  | arithmetic (width : Width) (operation : ArithmeticOp) (h : m kindOffset = encodeKind width operation) :
      Stores m (storedArithmetic m width operation)
  | logic (width : Width) (h : m kindOffset = encodeLogic width) : Stores m (storedLogic m width)

variable {m : Memory} {source : AnyStatusSource}

theorem returnQuery_arithmetic (m : Memory) (width : Width) (op : ArithmeticOp) (query : FlagQuery) :
    returnQuery m width (encodeKind width op) query =
      some (query.returnFromSource (storedArithmetic m width op)) := by
  unfold returnQuery
  cases op with
  | subtract => rw [if_pos rfl]
  | add => rw [if_neg (by cases width <;> decide), if_pos rfl]

theorem returnQuery_logic (m : Memory) (width : Width) (query : FlagQuery) :
    returnQuery m width (encodeLogic width) query = some (query.returnFromSource (storedLogic m width)) := by
  unfold returnQuery
  rw [if_neg (by cases width <;> decide), if_neg (by cases width <;> decide), if_pos rfl]

/-- The dispatch on width groups finds the group of a tag. -/
theorem defineFlagResolver_group {width : Width} {tag : BitVec 8} (htag : tag = 1 ∨ tag = 2 ∨ tag = 3)
    (h : m kindOffset = widthCode width ||| tag) (query : FlagQuery) :
    defineFlagResolver m query = returnQuery m width (m kindOffset) query := by
  unfold defineFlagResolver
  rw [h]
  rcases htag with rfl | rfl | rfl <;> cases width <;> rfl

/-- The resolver answers from the record's source. -/
theorem Stores.resolver (h : Stores m source) (query : FlagQuery) :
    defineFlagResolver m query = some (query.returnFromSource source) := by
  cases h with
  | concrete h =>
    unfold defineFlagResolver
    rw [h, if_pos rfl]
    cases query <;> rfl
  | arithmetic width operation h =>
    rw [defineFlagResolver_group (by cases operation <;> decide) h, h, returnQuery_arithmetic]
  | logic width h =>
    rw [defineFlagResolver_group (by decide) h, h, returnQuery_logic]

theorem lookup_zip_map {α : Type} [DecidableEq α] {f : α → Bool} (flags : List α) (flag : α) :
    (flags.zip (flags.map f)).lookup flag = if flag ∈ flags then some (f flag) else none := by
  induction flags with
  | nil => rfl
  | cons first rest ih =>
    rw [List.map_cons, List.zip_cons_cons, List.lookup_cons]
    by_cases hflag : flag = first
    · simp [hflag]
    · simp [hflag, beq_eq_false_iff_ne.mpr hflag, ih]

/-- Exactly the requested flags are read. -/
theorem Stores.readFlags (h : Stores m source) (mask : FlagMask) :
    readFlags m mask = some fun flag => if .status flag ∈ mask then some (source.flag flag) else none := by
  unfold Flags.readFlags
  split
  next hemp =>
    subst hemp
    simp
  next =>
    rw [h.resolver]
    simp only [Option.bind_eq_bind, Option.bind_some, FlagQuery.returnFromSource, lookup_zip_map,
      FlagMask.mem_statusFlags]
    rfl

theorem Stores.fallback (h : Stores m source) (cond : Condition) :
    readConditionFallback m cond = some (cond.holds source.flag) := by
  unfold readConditionFallback
  rw [h.resolver]
  simp only [FlagQuery.returnFromSource, Option.bind_eq_bind, Option.bind_some, List.head?_cons,
    AnyStatusSource.condition_eq]
  rw [Condition.holds_canonical cond]
  cases cond.isInverted <;> simp

theorem recordQueries_subtract (m : Memory) (cond : Condition) (width : Width) :
    (recordQueries m cond).lookup (encodeKind width .subtract) = some (readSubtraction m width) := by
  cases width <;> rfl

theorem recordQueries_logic (m : Memory) (cond : Condition) (width : Width) :
    (recordQueries m cond).lookup (encodeLogic width) =
      if (cond.logicResultComparison 32).isSome then some (readLogic m width) else none := by
  unfold recordQueries
  split <;> cases width <;> rfl

/-- Other tags are left to the shared reader. -/
theorem recordQueries_other (m : Memory) (cond : Condition) {kind : BitVec 8}
    (h : kind = concreteKind ∨ ∃ width, kind = encodeKind width .add) :
    (recordQueries m cond).lookup kind = none := by
  unfold recordQueries
  rcases h with rfl | ⟨width, rfl⟩
  · split <;> rfl
  · split <;> cases width <;> rfl

theorem operandComparison_isSome (cond : Condition) (w w' : Nat) :
    (cond.operandComparison w).isSome = (cond.operandComparison w').isSome := by
  cases cond <;> rfl

theorem logicResultComparison_isSome (cond : Condition) (w w' : Nat) :
    (cond.logicResultComparison w).isSome = (cond.logicResultComparison w').isSome := by
  cases cond <;> rfl

/-- A stored condition is that of the record's flags. -/
theorem Stores.readCondition (h : Stores m source) (cond : Condition) :
    readCondition m cond = some (cond.holds source.flag) := by
  unfold Flags.readCondition
  split
  next => exact h.fallback cond
  next hcompare =>
    have hsome : (cond.operandComparison 32).isSome = true := by
      rw [Option.isSome_iff_ne_none, ne_eq, ← Option.isNone_iff_eq_none]
      exact hcompare
    have hfallback := h.fallback cond
    cases h with
    | concrete h =>
      rw [h, recordQueries_other m cond (.inl rfl)]
      exact hfallback
    | arithmetic width operation h =>
      rw [h]
      cases operation with
      | add =>
        rw [recordQueries_other m cond (.inr ⟨width, rfl⟩)]
        exact hfallback
      | subtract =>
        rw [operandComparison_isSome cond 32 width.bits] at hsome
        obtain ⟨compare, hcompare⟩ := Option.isSome_iff_exists.mp hsome
        rw [recordQueries_subtract]
        dsimp only
        rw [readSubtraction, hcompare, Option.map_some]
        exact congrArg some (operandComparison_eq hcompare _ _ width.bits_pos)
    | logic width h =>
      rw [h, recordQueries_logic, logicResultComparison_isSome cond 32 width.bits]
      cases hlogic : cond.logicResultComparison width.bits with
      | none => exact hfallback
      | some compare =>
        dsimp only [Option.isSome_some, if_true]
        rw [if_pos rfl]
        dsimp only
        rw [readLogic, hlogic, Option.map_some]
        exact congrArg some (logicResultComparison_eq hlogic _)

/-! ## Reading back what was published -/

theorem storeByte_same (m : Memory) (offset : Nat) (value : BitVec 8) : storeByte m offset value offset = value := by
  simp [storeByte, Memory.write]

theorem storeByte_self (m : Memory) (offset : Nat) : storeByte m offset (m offset) = m := by
  refine Memory.write_eq_self ?_
  rfl

theorem storeByte_other {offset x : Nat} (value : BitVec 8) (h : x ≠ offset) : storeByte m offset value x = m x :=
  Memory.write_outside (by rw [List.length_singleton]; omega)

theorem storeDword_other {w offset x : Nat} (value : BitVec w) (h : x < offset ∨ offset + 4 ≤ x) :
    storeDword m offset value x = m x :=
  Memory.write_outside (by rw [Memory.length_lowBytes]; omega)

theorem operand_congr {n : Memory} {offset w : Nat} (h : ∀ x, offset ≤ x → x < offset + 4 → m x = n x) :
    operand m offset w = operand n offset w := by
  unfold operand Memory.load
  rw [Memory.read_congr.mpr h]

/-- A stored operand is read back at its width. -/
theorem operand_storeDword (m : Memory) (offset : Nat) (width : Width) (value : BitVec width.bits) :
    operand (storeDword m offset value) offset width.bits = value := by
  unfold operand storeDword Memory.load
  have hread := Memory.read_write m offset (Memory.lowBytes 4 (value.setWidth 32))
  rw [Memory.length_lowBytes] at hread
  rw [hread]
  refine BitVec.eq_of_getLsbD_eq fun i hi => ?_
  have : i < 32 := by
    cases width <;> (simp only [Width.bits] at hi; omega)
  rw [BitVec.getLsbD_setWidth, Memory.getLsbD_ofBytes_lowBytes, BitVec.getLsbD_setWidth]
  simp [hi, this]

theorem writeConcrete_flag (m : Memory) (status : StatusFlag → Bool) (flag : StatusFlag) :
    writeConcrete m status (statusOffset flag) = (BitVec.ofBool (status flag)).setWidth 8 := by
  cases flag <;> simp [writeConcrete, StatusFlag.all, statusOffset, kindOffset, storeByte, Memory.write]

theorem readConcreteFlag_writeConcrete (m : Memory) (status : StatusFlag → Bool) :
    readConcreteFlag (writeConcrete m status) = status := by
  funext flag
  unfold readConcreteFlag
  rw [writeConcrete_flag]
  cases status flag <;> rfl

/-- Concrete flags are read back. -/
theorem writeConcrete_stores (m : Memory) (status : StatusFlag → Bool) :
    ∃ stored, Stores (writeConcrete m status) stored ∧ stored.flag = status :=
  ⟨_, .concrete (storeByte_same _ _ _), readConcreteFlag_writeConcrete m status⟩

/-- A published source is read back with its flags. -/
theorem publishSource_stores (m : Memory) (source : AnyStatusSource) :
    ∃ stored, Stores (publishSource m source) stored ∧ stored.flag = source.flag := by
  obtain ⟨width, source⟩ := source
  cases source with
  | arithmetic operation left right result hres =>
    subst hres
    have hkind : publishSource m ⟨width, .arithmetic operation left right _ rfl⟩ kindOffset =
        encodeKind width operation :=
      storeByte_same (storeDword (storeDword m leftOffset left) rightOffset right) kindOffset (encodeKind width operation)
    refine ⟨_, .arithmetic width operation hkind, ?_⟩
    have hleft : operand (publishSource m ⟨width, .arithmetic operation left right _ rfl⟩) leftOffset width.bits =
        left := by
      refine (operand_congr fun x hlo hhi => ?_).trans (operand_storeDword m leftOffset width left)
      rw [publishSource, FlagRecord.fromSource, FlagRecord.write, storeByte_other _ (by simp [kindOffset, leftOffset] at *; omega),
        storeDword_other _ (.inl (by simp [rightOffset, leftOffset] at *; omega))]
    have hright : operand (publishSource m ⟨width, .arithmetic operation left right _ rfl⟩) rightOffset width.bits =
        right := by
      refine (operand_congr fun x hlo hhi => ?_).trans
        (operand_storeDword (storeDword m leftOffset left) rightOffset width right)
      rw [publishSource, FlagRecord.fromSource, FlagRecord.write,
        storeByte_other _ (by simp [kindOffset, rightOffset] at *; omega)]
    funext flag
    show operation.flag _ _ (operation.result _ _) false flag = operation.flag left right _ false flag
    rw [hleft, hright]
    rfl
  | logic result =>
    have hkind : publishSource m ⟨width, .logic result⟩ kindOffset = encodeLogic width :=
      storeByte_same (storeDword m leftOffset result) kindOffset (encodeLogic width)
    refine ⟨_, .logic width hkind, ?_⟩
    have hres : operand (publishSource m ⟨width, .logic result⟩) leftOffset width.bits = result := by
      refine (operand_congr fun x hlo hhi => ?_).trans (operand_storeDword m leftOffset width result)
      rw [publishSource, FlagRecord.fromSource, FlagRecord.write,
        storeByte_other _ (by simp [kindOffset, leftOffset] at *; omega)]
    funext flag
    show logicFlag _ flag = logicFlag result flag
    rw [hres]
    rfl
  | explicit flags => exact writeConcrete_stores m flags

end Relocade.Flags
