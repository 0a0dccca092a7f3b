import Relocade.Compiler.Emit.Selection
import Relocade.Compiler.Fold.Bits

/-!
# `Compiler.Emit.Memory` — pure conversions covered by a memory access

A store observes only the low bits of its payload, or a lane of it, so it covers a chain of conversions that keep them.
A load that feeds a chain of sign extensions only, or a reinterpretation, leaves the result of the chain itself.
-/

namespace Relocade.Compiler.Emit

open Words

/-! ## Memory instructions -/

inductive StoreInstruction where
  | i32Store8 | i32Store16 | i32Store
  | i64Store8 | i64Store16 | i64Store32 | i64Store
  | f64Store | v128Store
  | v128Store8Lane (lane : Nat)
  | v128Store16Lane (lane : Nat)
  | v128Store32Lane (lane : Nat)
  | v128Store64Lane (lane : Nat)
  deriving DecidableEq

inductive LoadInstruction where
  | i32Load8U | i32Load8S | i32Load16U | i32Load16S | i32Load
  | i64Load8S | i64Load16S | i64Load32S | i64Load
  | f64Load | v128Load64Zero | v128Load64Splat | v128Load
  deriving DecidableEq

/-- The first bytes of a number, the lowest one first. -/
def littleEndian (n x : Nat) : List Nat := (List.range n).map fun i => lane 8 i x

theorem littleEndian_congr {n x y : Nat} (h : x % 2 ^ (n * 8) = y % 2 ^ (n * 8)) :
    littleEndian n x = littleEndian n y := by
  refine List.map_congr_left fun i hi => ?_
  have hle : i * 8 + 8 ≤ n * 8 := by
    have := List.mem_range.mp hi
    omega
  rw [← lane_mod hle, h, lane_mod hle]

/-- The bytes that an instruction writes, from a carrier. -/
def StoreInstruction.written (instruction : StoreInstruction) (x : Nat) : List Nat :=
  match instruction with
  | i32Store8 | i64Store8 => littleEndian 1 x
  | i32Store16 | i64Store16 => littleEndian 2 x
  | i32Store | i64Store32 => littleEndian 4 x
  | i64Store | f64Store => littleEndian 8 x
  | v128Store => littleEndian 16 x
  | v128Store8Lane index => littleEndian 1 (lane 8 index x)
  | v128Store16Lane index => littleEndian 2 (lane 16 index x)
  | v128Store32Lane index => littleEndian 4 (lane 32 index x)
  | v128Store64Lane index => littleEndian 8 (lane 64 index x)

/-- The carrier that an instruction leaves, from the number that memory holds at its address. -/
def LoadInstruction.loaded (instruction : LoadInstruction) (m : Nat) : Nat :=
  match instruction with
  | i32Load8U => m % 2 ^ 8
  | i32Load8S => word 32 (signed 8 m)
  | i32Load16U => m % 2 ^ 16
  | i32Load16S => word 32 (signed 16 m)
  | i32Load => m % 2 ^ 32
  | i64Load8S => word 64 (signed 8 m)
  | i64Load16S => word 64 (signed 16 m)
  | i64Load32S => word 64 (signed 32 m)
  | i64Load | f64Load | v128Load64Zero => m % 2 ^ 64
  | v128Load64Splat => Packed.splat .i64 (m % 2 ^ 64)
  | v128Load => m % 2 ^ 128

/-- A store retains its carrier and storage width. -/
def store (bytes : Nat) (valueType : Ty) (form : StoreForm) : Option StoreInstruction :=
  match form, valueType.carrier, bytes with
  | .plain, .i32, 1 => some .i32Store8
  | .plain, .i32, 2 => some .i32Store16
  | .plain, .i32, 4 => some .i32Store
  | .plain, .i64, 1 => some .i64Store8
  | .plain, .i64, 2 => some .i64Store16
  | .plain, .i64, 4 => some .i64Store32
  | .plain, .i64, 8 => some .i64Store
  | .plain, .f64, 8 => some .f64Store
  | .plain, .v128, 8 => some (.v128Store64Lane 0)
  | .plain, .v128, 16 => some .v128Store
  | .lane lane, .v128, 1 => some (.v128Store8Lane lane)
  | .lane lane, .v128, 2 => some (.v128Store16Lane lane)
  | .lane lane, .v128, 4 => some (.v128Store32Lane lane)
  | .lane lane, .v128, 8 => some (.v128Store64Lane lane)
  | _, _, _ => none

/-- A load retains its type or widens with its original sign. -/
def load (bytes : Nat) (target : Ty) (form : LoadForm) : Option LoadInstruction :=
  match form, target.carrier, bytes with
  | .plain, .i32, 1 => some .i32Load8U
  | .signed, .i32, 1 => some .i32Load8S
  | .plain, .i32, 2 => some .i32Load16U
  | .signed, .i32, 2 => some .i32Load16S
  | .plain, .i32, 4 => some .i32Load
  | .signed, .i64, 1 => some .i64Load8S
  | .signed, .i64, 2 => some .i64Load16S
  | .signed, .i64, 4 => some .i64Load32S
  | .plain, .i64, 8 => some .i64Load
  | .plain, .f64, 8 => some .f64Load
  | .plain, .v128, 8 => some .v128Load64Zero
  | .plain, .v128, 16 => some .v128Load
  | .splat64, .v128, 8 => some .v128Load64Splat
  | _, _, _ => none

/-! ## Covering -/

namespace Selection

def load (selection : Selection) (graph : FunctionGraph) (effect : Nat) : SelectedLoad :=
  match selection.memory effect with
  | some (.load load) => load
  | _ => ⟨((graph.effect effect).results.head?).getD 0, .plain⟩

def store (selection : Selection) (graph : FunctionGraph) (effect : Nat) : SelectedStore :=
  match selection.memory effect with
  | some (.store store) => store
  | _ => ⟨selection.resolve ((graph.effect effect).operation.inputs.getLast?.getD 0), .plain⟩

/-- How a store of a conversion becomes one of its input. -/
def storeConversion (selection : Selection) (graph : FunctionGraph) (value bytes : Nat) : Option SelectedStore :=
  match graph.values.definition value with
  | .expression (.unary operator input) =>
      let inputType := graph.values.ty input
      let ty := graph.values.ty value
      let bits := bytes * 8
      let form := match operator with
        -- A store observes only its low bits, regardless of signedness.
        | .lowBits kept => if bits ≤ kept ∧ inputType.isInteger then some StoreForm.plain else none
        | .signExtend source => if bits ≤ source.bits ∧ inputType.isInteger then some .plain else none
        | .convert =>
            if inputType.isInteger ∧ ty.isInteger ∧ bits ≤ inputType.bits then some .plain else none
        | .extractLane lane => if ty.bits = bits ∧ inputType.carrier = Ty.v128 then some (.lane lane) else none
        | .reinterpret => if ty = Ty.i64 ∧ bits = 64 ∧ inputType.carrier = Ty.v128 then some (.lane 0) else none
        | _ => none
      form.map fun form => ⟨selection.resolve input, form⟩
  | _ => none

/-- Cover the conversions under a plain store, each of which names an earlier value. -/
def coverConversions (graph : FunctionGraph) (bytes : Nat) :
    Nat → Selection → SelectedStore → Selection × SelectedStore
  | 0, selection, store => (selection, store)
  | n + 1, selection, store =>
      if store.form = .plain then
        match selection.storeConversion graph store.value bytes with
        | none => (selection, store)
        | some next => coverConversions graph bytes n (selection.replaceInput graph store.value next.value) next
      else (selection, store)

/-- Stores the value under the conversions of a payload. -/
def coverStore (selection : Selection) (graph : FunctionGraph) (effect : Nat) : Selection :=
  match (graph.effect effect).operation.kind with
  | .store access =>
      let value := selection.resolve ((graph.effect effect).operation.inputs.getLast?.getD 0)
      match selection.storeConversion graph value access.bytes with
      | none => selection
      | some store =>
          let (selection, store) :=
            coverConversions graph access.bytes value (selection.replaceInput graph value store.value) store
          { selection with memory := Function.update selection.memory effect (some (.store store)) }
  | _ => selection

/-- Follow a chain of conversions to a load, each of which names an earlier value. -/
def coverChain (graph : FunctionGraph) (result : Nat) (form : LoadForm) (selection : Selection) :
    Nat → Nat → Nat → List Nat → Selection
  | 0, _, _, _ => selection
  | n + 1, bits, input, conversions =>
      let input := selection.resolve input
      if selection.uses input ≠ 1 then selection
      else
        match graph.values.definition input with
        | .expression (.unary (.signExtend inputType) original) =>
            if form = .signed ∧ inputType.bits ≤ bits then
              coverChain graph result form selection n inputType.bits original (conversions ++ [input])
            else selection
        | .result (.effect effect) _ =>
            match (graph.effect effect).operation.kind with
            | .load access =>
                if bits ≠ access.bytes * 8 then selection
                else
                  -- Only the loaded result's representation changes. The read stays at this effect.
                  { selection with
                    memory := Function.update selection.memory effect (some (.load ⟨result, form⟩))
                    skipped := fun value => conversions.contains value || selection.skipped value }
            | _ => selection
        | _ => selection

/-- Loads the result of a chain of conversions at once. -/
def coverLoad (selection : Selection) (graph : FunctionGraph) (result : Nat) : Selection :=
  match graph.values.definition result with
  | .expression (.unary operator input) =>
      match operator with
      | .signExtend inputType => coverChain graph result .signed selection result inputType.bits input [result]
      | .reinterpret =>
          if graph.values.ty result = .v64 ∧ graph.values.ty input = .i64 then
            coverChain graph result .splat64 selection result 64 input [result]
          else selection
      | _ => selection
  | _ => selection

end Selection

/-! ## Stores -/

theorem store_congr {a b : Ty} (h : a.carrier = b.carrier) (bytes : Nat) (form : StoreForm) :
    store bytes a form = store bytes b form := by
  unfold store
  rw [h]

variable {instruction : StoreInstruction}

variable {bytes : Nat}

/-- A plain store writes the low bytes of a carrier. -/
theorem store_plain_written {ty : Ty}
    (h : store bytes ty .plain = some instruction) (x : Nat) : instruction.written x = littleEndian bytes x := by
  unfold store at h
  split at h <;> first | contradiction | cases h
  all_goals first
    | rfl
    | exact littleEndian_congr (by rw [lane, Nat.zero_mul, Nat.shiftRight_zero]; exact Nat.mod_mod _ _)

theorem store_plain_bits {ty : Ty}
    (h : store bytes ty .plain = some instruction) : bytes * 8 ≤ ty.carrier.bits := by
  unfold store at h
  split at h <;> first | contradiction | cases h
  all_goals
    next hcar =>
    rw [hcar]
    decide

/-- A plain store of an integer, in a carrier that is wide enough. -/
theorem store_plain_integer {a b : Ty} (ha : a.isInteger = true)
    (hb : b.isInteger = true) (hbits : bytes * 8 ≤ b.carrier.bits) (h : store bytes a .plain = some instruction) :
    ∃ instr', store bytes b .plain = some instr' := by
  unfold store at h ⊢
  rcases Ty.carrier_cases_of_isInteger ha with ha | ha <;> rcases Ty.carrier_cases_of_isInteger hb with hb | hb <;>
    rw [ha] at h <;> rw [hb] at hbits ⊢
  · exact ⟨instruction, h⟩
  · split at h <;> first | contradiction | exact ⟨_, rfl⟩
  · split at h <;> first | contradiction | exact ⟨_, rfl⟩
  · exact ⟨instruction, h⟩

/-- A lane store writes a lane of the width of the access. -/
theorem store_lane {a b : Ty} (index : Nat) (hb : b.carrier = .v128)
    (ha : a.isLane = true) (hbits : a.bits = bytes * 8) (h : store bytes a .plain = some instruction) :
    ∃ instr', store bytes b (.lane index) = some instr' ∧
      ∀ x, instr'.written x = littleEndian bytes (lane (bytes * 8) index x) := by
  unfold store at h ⊢
  rw [hb]
  cases a with
  | i8 =>
    obtain rfl : bytes = 1 := by simp only [Ty.bits] at hbits; omega
    exact ⟨_, rfl, fun _ => rfl⟩
  | i16 =>
    obtain rfl : bytes = 2 := by simp only [Ty.bits] at hbits; omega
    exact ⟨_, rfl, fun _ => rfl⟩
  | i32 =>
    obtain rfl : bytes = 4 := by simp only [Ty.bits] at hbits; omega
    exact ⟨_, rfl, fun _ => rfl⟩
  | i64 =>
    obtain rfl : bytes = 8 := by simp only [Ty.bits] at hbits; omega
    exact ⟨_, rfl, fun _ => rfl⟩
  | i1 | f64 | v64 | v128 => cases ha

section Stores

variable {F : Floating} {g : FunctionGraph} {selection : Selection} {τ : Nat → Option Nat}
  (hgood : g.values.Good) (halias : selection.Aliased g.values)
  (hτ : Emitted F g.values selection.resolve τ)

/-- Two stores write the same bytes, when the payload of neither traps. -/
def SameBytes (τ : Nat → Option Nat) (value : Nat) (instruction : StoreInstruction) (value' : Nat)
    (instruction' : StoreInstruction) : Prop :=
  (τ value').map instruction'.written = (τ value).map instruction.written

include hgood halias hτ

/-- The operand of a one-input operation, and what the operation makes of it. -/
theorem Emitted.unary {value input : Nat} {operator : UnaryOp} (hval : value < g.values.size)
    (h : g.values.definition value = .expression (.unary operator input)) :
    selection.resolve input < value ∧
      UnaryOp.wellTyped operator (g.values.ty input) (g.values.ty value) = true ∧
      τ value = evalExpr F g.values (fun i => τ (selection.resolve i)) (g.values.ty value)
        (.unary operator input) 0 ∧
      ∀ x, τ (selection.resolve input) = some x → x < 2 ^ (g.values.ty input).carrier.bits := by
  have hv := ValueTable.value_eq_iff.mpr ⟨rfl, h⟩
  have hlt := hgood.inputs_lt hval hv input (List.mem_singleton_self _)
  have hrsv := Nat.lt_of_le_of_lt (halias.resolve_le input) hlt
  refine ⟨hrsv, hgood.typed hval hv, hτ.expression hval hv, fun x hx => ?_⟩
  rw [← halias.resolve_carrier input]
  exact hτ.lt hgood (hrsv.trans hval) hx

variable {instruction : StoreInstruction}

/-- A store of a conversion's input writes what a plain store of the conversion writes. -/
theorem storeConversion_spec {value bytes : Nat} {next : SelectedStore}
    (hval : value < g.values.size) (h : selection.storeConversion g value bytes = some next)
    (hstore : store bytes (g.values.ty value) .plain = some instruction) :
    next.value < value ∧ ∃ instr', store bytes (g.values.ty next.value) next.form = some instr' ∧
      SameBytes τ value instruction next.value instr' := by
  rw [Selection.storeConversion] at h
  split at h
  · next operator input hdef =>
      obtain ⟨hrsv, htyped, heval, hlt⟩ := hτ.unary hgood halias hval hdef
      obtain ⟨form, hform, rfl⟩ := Option.map_eq_some_iff.mp h
      refine ⟨hrsv, ?_⟩
      have hcar := halias.resolve_carrier input
      -- It is enough to compare the bytes of an operand that does not trap.
      have hsame : ∀ instr', (∀ x, τ (selection.resolve input) = some x →
          x < 2 ^ (g.values.ty input).carrier.bits →
          ∃ y, τ value = some y ∧ instr'.written x = instruction.written y) →
          SameBytes τ value instruction (selection.resolve input) instr' := by
        intro instr' hbytes
        rw [SameBytes]
        cases hx : τ (selection.resolve input) with
        | some x =>
          obtain ⟨y, hy, hwr⟩ := hbytes x hx (hlt x hx)
          rw [hy, Option.map_some, Option.map_some, hwr]
        | none =>
          cases hy : τ value with
          | none => rfl
          | some y =>
            rw [heval] at hy
            obtain ⟨x, hx'⟩ := evalExpr_inputs hy input (List.mem_singleton_self _)
            rw [hx] at hx'
            cases hx'
      have hplain : (g.values.ty input).isInteger = true → bytes * 8 ≤ (g.values.ty input).carrier.bits →
          (g.values.ty value).isInteger = true → ∃ instr',
            store bytes (g.values.ty (selection.resolve input)) .plain = some instr' := by
        intro hint hbits hvalueInteger
        obtain ⟨instr', hstore'⟩ := store_plain_integer hvalueInteger hint hbits hstore
        exact ⟨instr', (store_congr hcar bytes .plain).trans hstore'⟩
      split at hform
      · next kept =>
          split at hform <;> cases hform
          next hguard =>
          simp only [UnaryOp.wellTyped, Bool.and_eq_true, decide_eq_true_eq] at htyped
          have hstore' := (store_congr (hcar.trans htyped.1.2) bytes .plain).trans hstore
          refine ⟨instruction, hstore', hsame instruction fun x hx hlt => ⟨x % 2 ^ kept, ?_, ?_⟩⟩
          · rw [heval]
            exact eval_lowBits hx hlt (by simp [UnaryOp.wellTyped, htyped])
          · rw [store_plain_written hstore, store_plain_written hstore]
            exact littleEndian_congr (mod_mod_two_pow hguard.1).symm
      · next source =>
          split at hform <;> cases hform
          next hguard =>
          obtain ⟨hsrc, hcar', hint, -⟩ := signExtend_spec htyped
          have hin : (g.values.ty input).carrier.bits = 32 := by rw [hcar']; rfl
          obtain ⟨instr', hstore'⟩ := hplain hguard.2 (by omega) hint
          refine ⟨instr', hstore', hsame instr' fun x hx hlt =>
            ⟨_, heval.trans (eval_signExtend hx hlt htyped), ?_⟩⟩
          rw [store_plain_written hstore, store_plain_written hstore']
          refine littleEndian_congr ?_
          rw [word_mod _ (store_plain_bits hstore), word_signed x hguard.1]
      · split at hform <;> cases hform
        next hguard =>
        obtain ⟨hin, hres, hbits⟩ := hguard
        obtain ⟨instr', hstore'⟩ := hplain hin (hbits.trans (Ty.bits_le_carrier _)) hres
        refine ⟨instr', hstore', hsame instr' fun x hx hlt => ⟨_, heval.trans (eval_convert hx hlt), ?_⟩⟩
        rw [store_plain_written hstore, store_plain_written hstore']
        exact littleEndian_congr (mod_mod_two_pow (store_plain_bits hstore)).symm
      · next index =>
          split at hform <;> cases hform
          next hguard =>
          simp only [UnaryOp.wellTyped, Bool.and_eq_true, decide_eq_true_eq] at htyped
          obtain ⟨instr', hstore', hwr⟩ := store_lane index (hcar.trans hguard.2) htyped.1.2 hguard.1 hstore
          refine ⟨instr', hstore', hsame instr' fun x hx hlt => ⟨_, heval.trans (evalExpr_extractLane hx), ?_⟩⟩
          rw [hwr, store_plain_written hstore, hguard.1]
          refine (littleEndian_congr (mod_mod_two_pow ?_)).symm
          rw [← hguard.1]
          exact Ty.bits_le_of_isScalar (Ty.isScalar_of_isInteger (Ty.carrier_of_isLane htyped.1.2))
      · split at hform <;> cases hform
        next hguard =>
        obtain ⟨hres, hbits, hin⟩ := hguard
        have hbytes : bytes = 8 := by omega
        subst hbytes
        have hvector : (g.values.ty input).isScalar = false := by
          rw [← Ty.isScalar_carrier, hin]
          rfl
        refine ⟨.v128Store64Lane 0, ?_, hsame _ fun x hx hlt =>
          ⟨_, heval.trans (eval_reinterpret_low hx hlt hvector (by rw [hres]; rfl)), ?_⟩⟩
        · exact store_congr (b := .v128) (hcar.trans hin) 8 (.lane 0)
        · rw [store_plain_written hstore, hres]
          refine littleEndian_congr ?_
          rw [lane, Nat.zero_mul, Nat.shiftRight_zero]
          rfl
      · cases hform
  · cases h

omit hgood halias hτ in
theorem SameBytes.trans {u v w : Nat} {i j k : StoreInstruction} (h : SameBytes τ u i v j) (h' : SameBytes τ v j w k) :
    SameBytes τ u i w k := Eq.trans h' h

/-- Covering further conversions changes no byte. -/
theorem coverConversions_spec {bytes : Nat} (n : Nat) {store : SelectedStore}
    (hval : store.value < g.values.size)
    (hstore : Emit.store bytes (g.values.ty store.value) store.form = some instruction) :
    ∃ sel' store', Selection.coverConversions g bytes n selection store = (sel', store') ∧
      sel'.aliases = selection.aliases ∧ sel'.memory = selection.memory ∧
      ∃ instr', Emit.store bytes (g.values.ty store'.value) store'.form = some instr' ∧
        SameBytes τ store.value instruction store'.value instr' := by
  induction n generalizing selection store instruction with
  | zero => exact ⟨selection, store, rfl, rfl, rfl, instruction, hstore, rfl⟩
  | succ n ih =>
    rw [Selection.coverConversions]
    split
    · next hplain =>
        rw [hplain] at hstore
        split
        · exact ⟨selection, store, rfl, rfl, rfl, instruction, hplain ▸ hstore, rfl⟩
        · next next hnext =>
            obtain ⟨hlt, instr', hstore', hsame⟩ := storeConversion_spec hgood halias hτ hval hnext hstore
            have haliases : (selection.replaceInput g store.value next.value).aliases = selection.aliases :=
              Selection.replaceInput_aliases ..
            obtain ⟨selection'', store'', heq, haliases', hmem, instruction'', hstore'', hsame'⟩ :=
              ih (halias.congr haliases) (by rw [Selection.resolve_congr haliases]; exact hτ)
                (hlt.trans hval) hstore'
            exact ⟨selection'', store'', heq, haliases'.trans haliases,
              hmem.trans (Selection.replaceInput_memory ..), instruction'', hstore'', hsame.trans hsame'⟩
    · exact ⟨selection, store, rfl, rfl, rfl, instruction, hstore, rfl⟩

/-- The value and form that a store covers write the bytes of the plain payload. -/
theorem coverStore_spec {effect : Nat} {access : MemoryAccess}
    (hkind : (g.effect effect).operation.kind = .store access) (hmem : selection.memory effect = none)
    (hval : (selection.store g effect).value < g.values.size)
    (hstore : store access.bytes (g.values.ty (selection.store g effect).value) .plain = some instruction) :
    ∃ instr', store access.bytes (g.values.ty ((selection.coverStore g effect).store g effect).value)
        ((selection.coverStore g effect).store g effect).form = some instr' ∧
      (τ ((selection.coverStore g effect).store g effect).value).map instr'.written =
        (τ (selection.store g effect).value).map instruction.written := by
  have hpay : selection.store g effect =
      ⟨selection.resolve ((g.effect effect).operation.inputs.getLast?.getD 0), .plain⟩ := by
    rw [Selection.store, hmem]
  rw [hpay] at hval hstore ⊢
  dsimp only at hval hstore ⊢
  rw [Selection.coverStore, hkind]
  dsimp only
  split
  · rw [hpay]
    exact ⟨instruction, hstore, rfl⟩
  · next next hnext =>
      obtain ⟨hlt, instr', hstore', hsame⟩ := storeConversion_spec hgood halias hτ hval hnext hstore
      have haliases : (selection.replaceInput g
          (selection.resolve ((g.effect effect).operation.inputs.getLast?.getD 0)) next.value).aliases =
          selection.aliases := Selection.replaceInput_aliases ..
      obtain ⟨selection', store', heq, -, -, instruction'', hstore'', hsame'⟩ :=
        coverConversions_spec hgood (halias.congr haliases) (by rw [Selection.resolve_congr haliases]; exact hτ)
          (selection.resolve ((g.effect effect).operation.inputs.getLast?.getD 0)) (hlt.trans hval) hstore'
      rw [heq]
      dsimp only [Selection.store]
      rw [Function.update_self]
      exact ⟨instruction'', hstore'', hsame.trans hsame'⟩

end Stores

/-! ## Loads -/

section Loads

variable {F : Floating} {g : FunctionGraph} {selection : Selection} {τ : Nat → Option Nat}

/-- A result that is what the covering load makes of the low bits of a value. -/
def Follows (τ : Nat → Option Nat) (t : ValueTable) (result : Nat) (form : LoadForm) (bits input : Nat) : Prop :=
  match form with
  | .plain => False
  | .signed => (t.ty result).isInteger ∧ bits < (t.ty result).carrier.bits ∧ bits ≤ 32 ∧ (t.ty input).carrier = .i32 ∧
      ∀ x, τ input = some x → τ result = some (word (t.ty result).carrier.bits (signed bits x))
  | .splat64 => (t.ty result).carrier = .v128 ∧ (t.ty input).carrier = .i64 ∧
      ∀ x, τ input = some x → τ result = some (Packed.splat .i64 x)

/-- A sign extension of a sign extension from fewer bits is one from those bits. -/
theorem signed_word_signed_of_le {a b c x : Nat} (hab : a ≤ b) (hbc : b ≤ c) :
    signed b (word c (signed a x)) = signed a x := by
  rw [← signed_mod (word c (signed a x)) (Nat.le_refl b), word_mod _ hbc, signed_word_signed hab]

/-- The covering form leaves what the result is of the loaded value. -/
theorem Follows.load {res r bytes m : Nat} {form : LoadForm} {instruction : LoadInstruction}
    (h : Follows τ g.values res form (bytes * 8) r)
    (hload : Emit.load bytes (g.values.ty r) .plain = some instruction) (hr : τ r = some (instruction.loaded m)) :
    ∃ instr', Emit.load bytes (g.values.ty res) form = some instr' ∧
      τ res = some (instr'.loaded m) := by
  unfold Emit.load at hload ⊢
  cases form with
  | plain => exact False.elim h
  | signed =>
    obtain ⟨hint, hbits, -, hcar, hres⟩ := h
    rw [hres _ hr]
    rw [hcar] at hload
    rcases Ty.carrier_cases_of_isInteger hint with hc | hc <;> rw [hc] at hbits ⊢ <;> split at hload <;>
      first
      | contradiction
      | (cases hload
         first
         | exact absurd hbits (by decide)
         | exact ⟨_, rfl, by rw [LoadInstruction.loaded, signed_mod m (Nat.le_refl _)]; rfl⟩)
  | splat64 =>
    obtain ⟨hvector, hcar, hres⟩ := h
    rw [hres _ hr, hvector]
    rw [hcar] at hload
    split at hload <;> first | contradiction | (cases hload; exact ⟨_, rfl, rfl⟩)

variable (hgood : g.values.Good) (halias : selection.Aliased g.values)
  (hτ : Emitted F g.values selection.resolve τ)

include hgood halias hτ

/-- A chain that is covered ends at a load of its bits. -/
theorem coverChain_spec {res effect : Nat} {form : LoadForm} {covered : MemorySelection} (n : Nat)
    {bits input : Nat} {conversions : List Nat} (hin : input < g.values.size)
    (hfollows : Follows τ g.values res form bits (selection.resolve input))
    (hmem : selection.memory effect = none)
    (h : (Selection.coverChain g res form selection n bits input conversions).memory effect = some covered) :
    covered = .load ⟨res, form⟩ ∧ ∃ r comp access,
      g.values.definition r = .result (.effect effect) comp ∧
      (g.effect effect).operation.kind = .load access ∧
      Follows τ g.values res form (access.bytes * 8) r := by
  induction n generalizing bits input conversions with
  | zero =>
    rw [Selection.coverChain, hmem] at h
    cases h
  | succ n ih =>
    rw [Selection.coverChain] at h
    have hrng := Nat.lt_of_le_of_lt (halias.resolve_le input) hin
    split at h
    · rw [hmem] at h
      cases h
    · split at h
      · next inputType original hdef =>
          split at h
          · next hguard =>
              obtain ⟨rfl, hle⟩ := hguard
              obtain ⟨hlt, htyped, heval, hcar⟩ := hτ.unary hgood halias hrng hdef
              obtain ⟨hint, hbits, hbits', hword, hres⟩ := hfollows
              refine ih (Nat.lt_of_le_of_lt ?_ hrng) ⟨hint, Nat.lt_of_le_of_lt hle hbits,
                hle.trans hbits', (halias.resolve_carrier original).trans (signExtend_spec htyped).2.1, fun x hx => ?_⟩ h
              · exact Nat.le_of_lt (hgood.inputs_lt hrng (ValueTable.value_eq_iff.mpr ⟨rfl, hdef⟩) original
                  (List.mem_singleton_self _))
              · have hy := heval.trans (eval_signExtend hx (hcar x hx) htyped)
                rw [hres _ hy, hword]
                exact congrArg (fun i => some (word _ i)) (signed_word_signed_of_le hle hbits')
          · rw [hmem] at h
            cases h
      · next effect' comp hdef =>
          split at h
          · next access hkind =>
              split at h
              · rw [hmem] at h
                cases h
              · next hbits =>
                  dsimp only at h
                  by_cases heq : effect = effect'
                  · subst heq
                    rw [Function.update_self] at h
                    cases h
                    refine ⟨rfl, _, comp, access, hdef, hkind, ?_⟩
                    rw [← not_not.mp hbits]
                    exact hfollows
                  · rw [Function.update_of_ne heq, hmem] at h
                    cases h
          · rw [hmem] at h
            cases h
      · rw [hmem] at h
        cases h

/-- The form of a load that covers a chain of conversions leaves their result. -/
theorem coverLoad_spec (hwidens : g.values.Widens) {res effect r m : Nat} {access : MemoryAccess}
    {instruction : LoadInstruction} (hres : res < g.values.size)
    (hkind : (g.effect effect).operation.kind = .load access) (hresults : (g.effect effect).results = [r])
    (honly : ∀ value comp, g.values.definition value = .result (.effect effect) comp → value = r)
    (hmem : selection.memory effect = none)
    (hload : load access.bytes (g.values.ty r) .plain = some instruction) (hr : τ r = some (instruction.loaded m)) :
    ∃ instr', load access.bytes (g.values.ty ((selection.coverLoad g res).load g effect).result)
        ((selection.coverLoad g res).load g effect).form = some instr' ∧
      τ ((selection.coverLoad g res).load g effect).result = some (instr'.loaded m) := by
  cases hcov : (selection.coverLoad g res).memory effect with
  | none =>
    rw [Selection.load, hcov, hresults]
    exact ⟨instruction, hload, hr⟩
  | some covered =>
    obtain ⟨form, rfl, r', comp, access', hdef, hkind', hfollows⟩ : ∃ form,
        covered = .load ⟨res, form⟩ ∧ ∃ r comp access,
          g.values.definition r = .result (.effect effect) comp ∧
          (g.effect effect).operation.kind = .load access ∧
          Follows τ g.values res form (access.bytes * 8) r := by
      rw [Selection.coverLoad] at hcov
      split at hcov
      · next operator input hdef =>
          obtain ⟨hlt, htyped, heval, hcar⟩ := hτ.unary hgood halias hres hdef
          have hin := (hgood.inputs_lt hres (ValueTable.value_eq_iff.mpr ⟨rfl, hdef⟩) input
            (List.mem_singleton_self _)).trans hres
          split at hcov
          · next inputType =>
              obtain ⟨hbits, hcar', hint, -⟩ := signExtend_spec htyped
              exact ⟨.signed, coverChain_spec hgood halias hτ res hin ⟨hint, hwidens res inputType input hdef, hbits,
                (halias.resolve_carrier input).trans hcar',
                fun x hx => heval.trans (eval_signExtend hx (hcar x hx) htyped)⟩ hmem hcov⟩
          · split at hcov
            · next hguard =>
                refine ⟨.splat64, coverChain_spec hgood halias hτ res hin ?_ hmem hcov⟩
                refine ⟨by rw [hguard.1]; rfl, (halias.resolve_carrier input).trans (by rw [hguard.2]; rfl),
                  fun x hx => ?_⟩
                exact heval.trans (eval_reinterpret_splat hx (hcar x hx) (by rw [hguard.2]; rfl)
                  (by rw [hguard.1]; rfl))
            · rw [hmem] at hcov
              cases hcov
          · rw [hmem] at hcov
            cases hcov
      · rw [hmem] at hcov
        cases hcov
    obtain rfl := honly r' comp hdef
    rw [hkind] at hkind'
    cases hkind'
    rw [Selection.load, hcov]
    exact hfollows.load hload hr

end Loads

/-! ## Selection of memory instructions -/

/-- A store writes the bytes of its original payload, and a load leaves what its conversions make of a plain load. -/
theorem cover_exact {F : Floating} {graph : FunctionGraph} {selection : Selection} {τ : Nat → Option Nat}
    (hgood : graph.values.Good) (hwidens : graph.values.Widens) (haliased : selection.Aliased graph.values)
    (hτ : Emitted F graph.values selection.resolve τ) {effect : Nat} (hmemory : selection.memory effect = none) :
    (∀ access instruction, (graph.effect effect).operation.kind = .store access →
      (selection.store graph effect).value < graph.values.size →
      store access.bytes (graph.values.ty (selection.store graph effect).value) .plain = some instruction →
      ∃ instruction', store access.bytes
          (graph.values.ty ((selection.coverStore graph effect).store graph effect).value)
          ((selection.coverStore graph effect).store graph effect).form = some instruction' ∧
        (τ ((selection.coverStore graph effect).store graph effect).value).map instruction'.written =
          (τ (selection.store graph effect).value).map instruction.written) ∧
    ∀ access instruction result r m, (graph.effect effect).operation.kind = .load access →
      (graph.effect effect).results = [r] →
      (∀ value component, graph.values.definition value = .result (.effect effect) component → value = r) →
      result < graph.values.size → load access.bytes (graph.values.ty r) .plain = some instruction →
      τ r = some (instruction.loaded m) →
      ∃ instruction', load access.bytes (graph.values.ty ((selection.coverLoad graph result).load graph effect).result)
          ((selection.coverLoad graph result).load graph effect).form = some instruction' ∧
        τ ((selection.coverLoad graph result).load graph effect).result = some (instruction'.loaded m) :=
  ⟨fun _ _ hkind hvalue hstore => coverStore_spec hgood haliased hτ hkind hmemory hvalue hstore,
    fun _ _ _ _ _ hkind hresults honly hresult hload hr =>
      coverLoad_spec hgood haliased hτ hwidens hresult hkind hresults honly hmemory hload hr⟩

/-- A loaded byte is sign extended, narrowed again and stored. -/
def copyTable : ValueTable :=
  ((((ValueTable.empty.push ⟨.i32, .parameter 0 0⟩).2.push ⟨.i8, .result (.effect 0) 0⟩).2.push
    ⟨.i32, .expression (.unary (.signExtend .i8) 1)⟩).2.push ⟨.i8, .expression (.unary .convert 2)⟩).2

def copyGraph : FunctionGraph where
  values := copyTable
  effects := [⟨[1], ⟨.load ⟨0, 0, 1⟩, [0]⟩⟩, ⟨[], ⟨.store ⟨0, 0, 1⟩, [0, 3]⟩⟩]
  blocks := [⟨[0], [.effect 0, .evaluate 2, .evaluate 3, .effect 1], [], .ret []⟩]
  layout := [.block 0]
  entry := 0

def copySelection : Selection := ⟨fun _ => false, fun _ => none, fun _ => false, fun _ => none, fun _ => 1⟩

/-- The loaded byte is negative. -/
def copyCarriers : Nat → Option Nat := denote .uncommitted copyTable fun id => if id = 1 then 0x85 else 0

theorem copyTable_good : copyTable.Good := by
  refine ValueTable.push_good (ValueTable.push_good (ValueTable.push_good (ValueTable.push_good
    ValueTable.good_empty ?_) ?_) ?_) ?_
  · trivial
  · trivial
  · exact ⟨by decide, by decide⟩
  · exact ⟨by decide, by decide⟩

theorem copyTable_definition (id : Nat) :
    (id = 0 ∧ copyTable.definition id = .parameter 0 0) ∨ (id = 1 ∧ copyTable.definition id = .result (.effect 0) 0) ∨
      (id = 2 ∧ copyTable.definition id = .expression (.unary (.signExtend .i8) 1)) ∨
      (id = 3 ∧ copyTable.definition id = .expression (.unary .convert 2)) ∨ copyTable.definition id = .literal 0 := by
  rcases id with - | - | - | - | id
  · exact Or.inl ⟨rfl, rfl⟩
  · exact Or.inr (Or.inl ⟨rfl, rfl⟩)
  · exact Or.inr (Or.inr (Or.inl ⟨rfl, rfl⟩))
  · exact Or.inr (Or.inr (Or.inr (Or.inl ⟨rfl, rfl⟩)))
  · exact Or.inr (Or.inr (Or.inr (Or.inr rfl)))

theorem copyTable_widens : copyTable.Widens := by
  intro id inputType input h
  rcases copyTable_definition id with ⟨-, h'⟩ | ⟨-, h'⟩ | ⟨rfl, h'⟩ | ⟨-, h'⟩ | h' <;> cases h'.symm.trans h
  decide

theorem copySelection_emitted : Emitted .uncommitted copyGraph.values copySelection.resolve copyCarriers := by
  have hrsv : copySelection.resolve = id := funext fun _ => Selection.resolve_of_none rfl
  rw [hrsv]
  refine emitted_id.mpr (denote_valuation copyTable_good ?_)
  unfold Respects
  decide +kernel

theorem copySelection_aliased : copySelection.Aliased copyGraph.values :=
  ⟨nofun, nofun⟩

/-- The copy stores the loaded byte as it is, and its sign extension is loaded at once. -/
theorem cover_exact_copy :
    (∃ instruction', store 1 (copyGraph.values.ty ((copySelection.coverStore copyGraph 1).store copyGraph 1).value)
        ((copySelection.coverStore copyGraph 1).store copyGraph 1).form = some instruction' ∧
      (copyCarriers ((copySelection.coverStore copyGraph 1).store copyGraph 1).value).map instruction'.written =
        (copyCarriers (copySelection.store copyGraph 1).value).map StoreInstruction.i32Store8.written) ∧
    ∃ instruction', load 1 (copyGraph.values.ty ((copySelection.coverLoad copyGraph 2).load copyGraph 0).result)
        ((copySelection.coverLoad copyGraph 2).load copyGraph 0).form = some instruction' ∧
      copyCarriers ((copySelection.coverLoad copyGraph 2).load copyGraph 0).result =
        some (instruction'.loaded 0x85) := by
  refine ⟨(cover_exact copyTable_good copyTable_widens copySelection_aliased copySelection_emitted rfl).1 ⟨0, 0, 1⟩
      .i32Store8 rfl (by decide) rfl,
    (cover_exact copyTable_good copyTable_widens copySelection_aliased copySelection_emitted rfl).2 ⟨0, 0, 1⟩
      .i32Load8U 2 1 0x85 rfl rfl ?_ (by decide) rfl (by decide +kernel)⟩
  intro value component h
  rcases copyTable_definition value with ⟨-, h'⟩ | ⟨hid, -⟩ | ⟨-, h'⟩ | ⟨-, h'⟩ | h'
  · cases h'.symm.trans h
  · exact hid
  · cases h'.symm.trans h
  · cases h'.symm.trans h
  · cases h'.symm.trans h

example : (copySelection.coverStore copyGraph 1).store copyGraph 1 = ⟨1, .plain⟩ := by decide +kernel

example : (copySelection.coverLoad copyGraph 2).load copyGraph 0 = ⟨2, .signed⟩ := by decide +kernel

end Relocade.Compiler.Emit
