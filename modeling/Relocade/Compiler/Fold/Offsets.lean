import Relocade.Compiler.Fold.Rules

/-!
# `Compiler.Fold.Offsets` — modular constant offsets

`addConstant` combines consecutive constant offsets modulo the bits its caller observes. Conversions and other
operations remain boundaries.
-/

namespace Relocade.Compiler

open Words

/-- Position `r` has the carrier type of `ty` and agrees with whatever `D` computes on `bits` bits. -/
structure HoldsLow (F : Floating) (t : ValueTable) (ty : Ty) (bits : Nat) (D : (Nat → Option Nat) → Option Nat)
    (r : Nat) : Prop where
  lt : r < t.size
  carrier_eq : (t.ty r).carrier = ty.carrier
  value : ∀ {σ v}, Valuation F t σ → D σ = some v → ∃ u, σ r = some u ∧ u % 2 ^ bits = v % 2 ^ bits

namespace Folder

/-- The base and the offset of an addition of a constant. -/
def constantOffset (t : ValueTable) (input : Nat) : Option (Nat × Nat) :=
  match t.definition input with
  | .expression (.binary (.integer .add) left right) => (t.scalarLiteral right).map fun offset => (left, offset)
  | _ => none

/-- One turn of the offset loop: the base under one more constant, and the sum of the constants so far. -/
def offsetStep (t : ValueTable) (mask : Nat) (state : Nat × Nat) : Option (Nat × Nat) :=
  (constantOffset t state.1).map fun (base, previous) => (base, (state.2 + previous) &&& mask)

/-- Adds a constant, joined with those already added. -/
def addConstant (ty : Ty) (input offset observedBits : Nat) : Construct Nat := do
  let t ← get
  let mask := lowMask observedBits
  let (input, offset) := Descend.run (offsetStep t mask) (input + 1) (input, offset &&& mask)
  if offset = 0 then pure input
  else
    match t.scalarLiteral input with
    | some value => carrierLiteral ty ((value + offset) &&& mask)
    | none => do
      let constant ← carrierLiteral ty offset
      intern ty (.binary (.integer .add) input constant)

variable {F : Floating} {t : ValueTable} {ty : Ty} {input offset bits : Nat}

theorem constantOffset_eq_some {base prev : Nat} (h : constantOffset t input = some (base, prev)) :
    ∃ right, t.definition input = .expression (.binary (.integer .add) base right) ∧
      t.scalarLiteral right = some prev := by
  unfold constantOffset at h
  split at h
  · next left right hdef =>
      obtain ⟨o, ho, heq⟩ := Option.map_eq_some_iff.mp h
      obtain ⟨rfl, rfl⟩ := Prod.mk.inj heq
      exact ⟨right, hdef, ho⟩
  · cases h

/-- Adding a constant, as a step of the chain below a value. -/
theorem constantOffset_spec (ht : Invariant F t) (hin : input < t.size) {base prev : Nat}
    (h : constantOffset t input = some (base, prev)) :
    base < input ∧ (t.ty base).carrier = (t.ty input).carrier ∧ (t.ty input).isInteger = true ∧
      ∀ σ, Valuation F t σ → ∀ v, σ input = some v →
        ∃ u, σ base = some u ∧ v = (u + prev) % 2 ^ (t.ty input).carrier.bits := by
  obtain ⟨right, hdef, hlit⟩ := constantOffset_eq_some h
  have hval := ValueTable.value_eq_iff.mpr ⟨rfl, hdef⟩
  have hlt := ht.good.inputs_lt hin hval
  have hbase := hlt base (by simp)
  have hright := hlt right (by simp)
  have hw : BinaryOp.wellTyped (.integer .add) (t.ty base) (t.ty right) (t.ty input) = true := ht.good.typed hin hval
  obtain ⟨hint, hcar, -⟩ := integer_spec hw
  refine ⟨hbase, hcar, hint, ?_⟩
  intro σ hσ v hv
  rw [hσ.expression hin hval] at hv
  obtain ⟨u, hu⟩ := evalExpr_inputs hv base (by simp)
  obtain ⟨hr, hrlt⟩ := ValueTable.value_of_scalarLiteral ht.good hσ (by omega : right < t.size) hlit
  rw [eval_integer hu hr (ht.carrier_lt hσ (by omega) hu) hrlt hw] at hv
  obtain rfl := Option.some.inj hv
  exact ⟨u, hu, mod_mod_two_pow (Ty.carrier_bits_of_isInteger hint)⟩

theorem yields_addConstant (ht : Invariant F t) (hin : input < t.size) (hty : ty.isInteger = true)
    (hcar : (t.ty input).carrier = ty.carrier) (hbits : bits ≤ ty.carrier.bits) :
    Yields F t (addConstant ty input offset bits) fun r t' =>
      HoldsLow F t' ty bits (fun σ => (σ input).map (· + offset)) r := by
  have h64 : bits ≤ 64 := Nat.le_trans hbits (Ty.carrier_bits_of_isInteger hty)
  -- what remains to be added to the base of the chain
  let P : Nat × Nat → Prop := fun s => s.1 < t.size ∧ (t.ty s.1).carrier = ty.carrier ∧
    ∀ σ, Valuation F t σ → ∀ v, σ input = some v → ∃ u, σ s.1 = some u ∧ (u + s.2) % 2 ^ bits = (v + offset) % 2 ^ bits
  have hstep : ∀ a b, P a → offsetStep t (lowMask bits) a = some b → P b := by
    rintro ⟨i, o⟩ ⟨j, p⟩ ⟨hi, hci, hval⟩ hs
    obtain ⟨⟨base, previous⟩, hco, heq⟩ := Option.map_eq_some_iff.mp hs
    obtain ⟨rfl, rfl⟩ := Prod.mk.inj heq
    obtain ⟨hlt, hcb, -, hbase⟩ := constantOffset_spec ht hi hco
    refine ⟨Nat.lt_trans hlt hi, hcb.trans hci, ?_⟩
    intro σ hσ v hv
    obtain ⟨u, hu, hmod⟩ := hval σ hσ v hv
    obtain ⟨w, hw, rfl⟩ := hbase σ hσ u hu
    refine ⟨w, hw, ?_⟩
    rw [← hmod, and_lowMask]
    simp only [Nat.add_mod_mod]
    have : bits ≤ (t.ty i).carrier.bits := by rw [hci]; exact hbits
    rw [Nat.add_mod ((w + previous) % _), mod_mod_two_pow this, ← Nat.add_mod]
    congr 1
    omega
  have hfinal := Descend.run_invariant (n := input + 1) hstep (a := (input, offset &&& lowMask bits)) ⟨hin, hcar, by
    intro σ _ v hv
    exact ⟨v, hv, by rw [and_lowMask, Nat.add_mod_mod]⟩⟩
  refine Yields.get ?_
  rcases hrun : Descend.run (offsetStep t (lowMask bits)) (input + 1) (input, offset &&& lowMask bits) with ⟨i, o⟩
  rw [hrun] at hfinal
  obtain ⟨hi, hci, hval⟩ := hfinal
  simp only [hrun]
  split
  · next h0 =>
      subst h0
      refine Yields.pure ht ⟨hi, hci, ?_⟩
      intro σ v hσ hv
      obtain ⟨x, hx, rfl⟩ := Option.map_eq_some_iff.mp hv
      exact hval σ hσ x hx
  · cases hlit : t.scalarLiteral i with
    | some value =>
      refine (yields_carrierLiteral ht ty _).mono ?_
      rintro r t' hx ht' ⟨hr, -⟩
      refine ⟨hr.lt, by rw [hr.ty_eq], ?_⟩
      intro σ v hσ hv
      obtain ⟨x, hx', rfl⟩ := Option.map_eq_some_iff.mp hv
      have hσ' := hσ.restrict ht.good hx
      obtain ⟨u, hu, hmod⟩ := hval σ hσ' x hx'
      rw [(ValueTable.value_of_scalarLiteral ht.good hσ' hi hlit).1] at hu
      obtain rfl := Option.some.inj hu
      refine ⟨_, hr.value hσ rfl, ?_⟩
      rw [and_lowMask, mod_mod_two_pow hbits, Nat.mod_mod, hmod]
    | none =>
      refine Yields.bind (yields_carrierLiteral ht ty o) ?_
      rintro k t' hx ht' ⟨hk, -⟩
      have hi' := hx.lt hi
      have hci' : (t'.ty i).carrier = ty.carrier := by rw [hx.ty_eq hi, hci]
      have hw : BinaryOp.wellTyped (.integer .add) (t'.ty i) (t'.ty k) ty = true := by
        simp [BinaryOp.wellTyped, hty, hci', hk.ty_eq]
      refine (yields_intern (e := .binary (.integer .add) i k) ht' (by simp [hi', hk.lt]) hw
        (fun _ _ => trivial) (by rintro _ _ _ ⟨⟩)).mono ?_
      rintro r t'' hx' ht'' hr
      refine ⟨hr.lt, by rw [hr.ty_eq], ?_⟩
      intro σ v hσ hv
      obtain ⟨x, hxv, rfl⟩ := Option.map_eq_some_iff.mp hv
      have hσ' := hσ.restrict ht'.good hx'
      obtain ⟨u, hu, hmod⟩ := hval σ (hσ'.restrict ht.good hx) x hxv
      have hkv := hk.value hσ' rfl
      have hev := eval_integer (F := F) (c := 0) hu hkv (ht'.carrier_lt hσ' hi' hu) (ht'.carrier_lt hσ' hk.lt hkv) hw
      refine ⟨_, hr.value hσ hev, ?_⟩
      rw [mod_mod_two_pow hbits, mod_mod_two_pow h64, Nat.add_mod, mod_mod_two_pow hbits, ← Nat.add_mod, hmod]

end Folder

end Relocade.Compiler
