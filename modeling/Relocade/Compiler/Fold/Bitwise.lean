import Relocade.Compiler.Fold.Comparisons

/-!
# `Compiler.Fold.Bitwise` — bitwise identities and mask rewrites

These rewrites preserve every result bit, including unobserved upper bits.
-/

namespace Relocade.Compiler

open Words
open ValueTable (representation_spec scalarLiteral_lt value_of_literal_representation representation_le
  eq_of_representation)

namespace Folder

def andConstant (self : Fold) (ty : Ty) (input mask : Nat) : Construct (Option Nat) := do
  let bits := trailingOnes 64 mask
  if ((← get).boundsOf input).unsigned ≤ bits then pure (some input)
  else if mask = lowMask bits then some <$> foldLowBits self ty input bits
  else pure none

/-- The operands of a stored bitwise operation. -/
def bitwiseOf (t : ValueTable) (operator : BitwiseOp) (id : Nat) : Option (Nat × Nat) :=
  match t.definition id with
  | .expression (.binary (.bitwise o) left right) => if o = operator then some (left, right) else none
  | _ => none

/-- An exclusive or one of whose operands is an exclusive or: the rewritten operand, and the combined constant
    mask when one remains. -/
def xorOperand (t : ValueTable) (nested other : Nat) : Option (Nat × Option Nat) :=
  match bitwiseOf t .xor nested with
  | none => none
  | some (innerLeft, innerRight) =>
      let a := t.representation innerLeft
      let b := t.representation innerRight
      if b = other then some (innerLeft, none)
      else if a = other then some (innerRight, none)
      else
        match t.scalarLiteral other with
        | none => none
        | some outerMask =>
            (besideLiteral innerLeft innerRight (t.scalarLiteral a) (t.scalarLiteral b)).map
              fun (base, innerMask) => (base, some (innerMask ^^^ outerMask))

/-- XOR cancels repeated operands and combines adjacent constant masks. Inputs already identify their carrier
    representations. -/
def foldXor (self : Fold) (ty : Ty) (left right : Nat) : Construct (Option Nat) := do
  let t ← get
  match (xorOperand t left right).or (xorOperand t right left) with
  | none => pure none
  | some (input, none) => pure (some input)
  | some (base, some bits) => do
      let mask ← carrierLiteral ty bits
      some <$> self ty (.binary (.bitwise .xor) base mask) 0

/-- Whether `input` is the same operation with `other` among its operands. -/
def absorbs (t : ValueTable) (operator : BitwiseOp) (input other : Nat) : Bool :=
  match bitwiseOf t operator (t.representation input) with
  | some (left, right) => t.representation left = other || t.representation right = other
  | none => false

/-- Masks over one carrier: an `and` with a constant, and an `or` that rejoins extracted bits. -/
def foldMasks (self : Fold) (ty : Ty) (operator : BitwiseOp) (left right : Nat) : Construct (Option Nat) := do
  let t ← get
  match operator with
  | .and =>
      match besideLiteral left right (t.scalarLiteral (t.representation left))
        (t.scalarLiteral (t.representation right)) with
      | some (input, mask) => andConstant self ty input mask
      | none => pure none
  | .or => if ty.isInteger then rejoinBits self ty left right else pure none
  | .xor => pure none

/-- Identities between the operands. -/
def foldIdentities (self : Fold) (ty : Ty) (operator : BitwiseOp) (left right : Nat) : Construct (Option Nat) := do
  let t ← get
  let a := t.representation left
  let b := t.representation right
  let x := t.scalarLiteral a
  let y := t.scalarLiteral b
  if complementaryPredicates t left right then some <$> carrierLiteral ty (decide (operator ≠ .and)).toNat
  else if (operator = .or ∨ operator = .xor) ∧ y = some 0 then pure (some left)
  else if (operator = .or ∨ operator = .xor) ∧ x = some 0 then pure (some right)
  else if operator = .or ∧ y = some ty.carrier.mask then pure (some right)
  else if operator = .or ∧ x = some ty.carrier.mask then pure (some left)
  else if operator = .xor ∧ a = b then some <$> literal ty 0
  else if operator = .xor then foldXor self ty a b
  else if a = b then pure (some left)
  else if absorbs t operator left b then pure (some left)
  else if absorbs t operator right a then pure (some right)
  else pure none

def foldBitwise (self : Fold) (ty : Ty) (operator : BitwiseOp) (left right : Nat) : Construct (Option Nat) := do
  let masked ← foldMasks self ty operator left right
  if masked.isSome then pure masked else foldIdentities self ty operator left right

variable {F : Floating} {t : ValueTable} {ty : Ty} {self : Fold} {n left right input : Nat} {σ : Nat → Option Nat}

variable {o : BitwiseOp}

theorem bitwiseOf_eq_some {id l r : Nat} (h : bitwiseOf t o id = some (l, r)) :
    t.definition id = .expression (.binary (.bitwise o) l r) := by
  unfold bitwiseOf at h
  split at h
  · next o' l' r' hdef =>
      split at h
      · next heq =>
          obtain ⟨rfl, rfl⟩ := Prod.mk.inj (Option.some.inj h)
          rw [hdef, heq]
      · cases h
  · cases h

/-- Operands of a bitwise operation and its value. -/
structure BitwiseOperands (F : Floating) (t : ValueTable) (ty : Ty) (o : BitwiseOp) (left right : Nat) : Prop where
  left_lt : left < t.size
  right_lt : right < t.size
  left_carrier : (t.ty left).carrier = ty.carrier
  right_carrier : (t.ty right).carrier = ty.carrier
  not_f64 : ty.carrier ≠ .f64
  value : ∀ {σ v}, Valuation F t σ → evalExpr F t σ ty (.binary (.bitwise o) left right) 0 = some v →
    ∃ x y, σ left = some x ∧ σ right = some y ∧ x < 2 ^ ty.carrier.bits ∧ y < 2 ^ ty.carrier.bits ∧
      v = o.apply x y

theorem bitwiseOperands (ht : Invariant F t) (hl : left < t.size) (hr : right < t.size)
    (hw : BinaryOp.wellTyped (.bitwise o) (t.ty left) (t.ty right) ty = true) :
    BitwiseOperands F t ty o left right := by
  have hw' := hw
  simp only [BinaryOp.wellTyped, Bool.and_eq_true, decide_eq_true_eq] at hw'
  obtain ⟨⟨hcl, hcr⟩, hne⟩ := hw'
  refine ⟨hl, hr, hcl, hcr, hne, ?_⟩
  intro σ v hσ hv
  obtain ⟨x, hx, hxlt⟩ := ht.operand hσ hv hl (by simp)
  obtain ⟨y, hy, hylt⟩ := ht.operand hσ hv hr (by simp)
  rw [eval_bitwise hx hy hxlt hylt hw] at hv
  rw [hcl] at hxlt
  rw [hcr] at hylt
  exact ⟨x, y, hx, hy, hxlt, hylt, (Option.some.inj hv).symm⟩

/-- An operand that already is the result. -/
theorem BitwiseOperands.yields_operand (h : BitwiseOperands F t ty o left right) (ht : Invariant F t)
    {i : Nat} (hi : i < t.size) (hc : (t.ty i).carrier = ty.carrier)
    (hv : ∀ {σ x y}, Valuation F t σ → σ left = some x → σ right = some y → x < 2 ^ ty.carrier.bits →
      y < 2 ^ ty.carrier.bits → σ i = some (o.apply x y)) :
    Yields F t (pure (some i)) (Rewrites F ty (evalExpr F t · ty (.binary (.bitwise o) left right) 0)) := by
  refine Yields.pure ht (Rewrites.some (Converts.of_value ht hi (Or.inr ⟨hc, convert_wellTyped hc h.not_f64⟩) ?_))
  intro σ v hσ hσv
  obtain ⟨x, y, hx, hy, hxlt, hylt, rfl⟩ := h.value hσ hσv
  exact hv hσ hx hy hxlt hylt

theorem yields_andConstant (hself : FoldsBelow F n self) (hn : 0 < n) (ht : Invariant F t)
    (h : BitwiseOperands F t ty .and left right) {mask : Nat}
    (hbeside : besideLiteral left right (t.scalarLiteral (t.representation left))
      (t.scalarLiteral (t.representation right)) = some (input, mask)) :
    Yields F t (andConstant self ty input mask)
      (Rewrites F ty (evalExpr F t · ty (.binary (.bitwise .and) left right) 0)) := by
  -- the operand beside the constant mask, and what the mask leaves of it
  have hside : input < t.size ∧ (t.ty input).carrier = ty.carrier ∧ mask < 2 ^ ty.carrier.bits ∧
      ty.isScalar = true ∧
      ∀ {σ v}, Valuation F t σ → evalExpr F t σ ty (.binary (.bitwise .and) left right) 0 = some v →
        ∃ x, σ input = some x ∧ v = x &&& mask := by
    obtain ⟨hla, hca, -⟩ := representation_spec ht h.left_lt
    obtain ⟨hlb, hcb, -⟩ := representation_spec ht h.right_lt
    have hscalar : ∀ {i b : Nat}, (t.ty i).carrier = ty.carrier → t.scalarLiteral i = some b → ty.isScalar = true := by
      intro i b hc hlit
      obtain ⟨-, -, hs, -⟩ := ValueTable.scalarLiteral_eq_some hlit
      rw [← Ty.isScalar_carrier, ← hc, Ty.isScalar_carrier]
      exact hs
    rcases besideLiteral_eq_some hbeside with ⟨rfl, hlit⟩ | ⟨rfl, hlit⟩
    · have hc := hcb.trans h.right_carrier
      have hmask := scalarLiteral_lt ht.good (by have := h.right_lt; omega) hlit
      rw [hc] at hmask
      refine ⟨h.left_lt, h.left_carrier, hmask, hscalar hc hlit, ?_⟩
      intro σ v hσ hv
      obtain ⟨x, y, hx, hy, -, -, rfl⟩ := h.value hσ hv
      obtain rfl := value_of_literal_representation ht hσ h.right_lt hlit hy
      exact ⟨x, hx, rfl⟩
    · have hc := hca.trans h.left_carrier
      have hmask := scalarLiteral_lt ht.good (by have := h.left_lt; omega) hlit
      rw [hc] at hmask
      refine ⟨h.right_lt, h.right_carrier, hmask, hscalar hc hlit, ?_⟩
      intro σ v hσ hv
      obtain ⟨x, y, hx, hy, -, -, rfl⟩ := h.value hσ hv
      obtain rfl := value_of_literal_representation ht hσ h.left_lt hlit hx
      exact ⟨y, hy, Nat.and_comm _ _⟩
  obtain ⟨hi, hci, hmask, hs, hval⟩ := hside
  refine Yields.get ?_
  split
  · next hfits =>
      refine Yields.pure ht (Rewrites.some (Converts.of_value ht hi (Or.inr ⟨hci, convert_wellTyped hci h.not_f64⟩) ?_))
      intro σ v hσ hv
      obtain ⟨x, hx, rfl⟩ := hval hσ hv
      have hlt := lt_two_pow_mono (ht.inBounds hσ hi hx).unsigned hfits
      have hones := and_mod_of_ones (x := x) fun i hi => testBit_of_lt_trailingOnes (n := 64) (m := mask) hi
      rw [Nat.mod_eq_of_lt hlt, Nat.mod_eq_of_lt (Nat.lt_of_le_of_lt Nat.and_le_left hlt)] at hones
      rw [hones, hx]
  split
  · next hlow =>
      have hint : ty.isInteger = true := by
        have hne := h.not_f64
        revert hs hne
        cases ty <;> decide
      have hbits : trailingOnes 64 mask ≤ ty.carrier.bits := by
        by_contra hlt
        have hp := Nat.pow_lt_pow_right (a := 2) (by decide) (Nat.not_le.mp hlt)
        rw [hlow, lowMask] at hmask
        omega
      refine yields_some ((yields_foldLowBits hself hn ht hi hint hci hbits).mono ?_)
      intro r t' hx ht' hr
      refine ⟨hr.lt, hr.typed, ?_⟩
      intro σ v hσ hv
      obtain ⟨x, hxv, rfl⟩ := hval (hσ.restrict ht.good hx) hv
      refine hr.value hσ ?_
      rw [hxv, hlow, and_lowMask, ← hlow]
      rfl
  · exact Yields.pure ht Rewrites.none

/-- Rewriting below an exclusive or: an operand equal to the result, or one whose remaining mask is the constant. -/
theorem xorOperand_spec (ht : Invariant F t) {nested other base : Nat} {mask : Option Nat}
    (hn : nested < t.size) (ho : other < t.size) (hcn : (t.ty nested).carrier = ty.carrier)
    (hco : (t.ty other).carrier = ty.carrier) (h : xorOperand t nested other = some (base, mask)) :
    base < nested ∧ (t.ty base).carrier = ty.carrier ∧
      (∀ m, mask = some m → m < 2 ^ ty.carrier.bits ∧ ty.isScalar = true ∧ t.scalarLiteral other ≠ none) ∧
      ∀ {σ x y}, Valuation F t σ → σ nested = some x → σ other = some y →
        ∃ u, σ base = some u ∧ x ^^^ y = u ^^^ mask.getD 0 := by
  unfold xorOperand at h
  split at h
  · cases h
  next innerLeft innerRight hof =>
  obtain ⟨hlt₁, hlt₂, hc₁, hc₂, hval⟩ := bitwise_operands ht hn (bitwiseOf_eq_some hof)
  obtain ⟨hla, hca, hva⟩ := representation_spec ht (by omega : innerLeft < t.size)
  obtain ⟨hlb, hcb, hvb⟩ := representation_spec ht (by omega : innerRight < t.size)
  dsimp only at h
  split at h
  · next hother =>
      obtain ⟨rfl, rfl⟩ := Prod.mk.inj (Option.some.inj h)
      refine ⟨hlt₁, hc₁.trans hcn, by simp, ?_⟩
      intro σ x y hσ hx hy
      obtain ⟨u, v, hu, hv, rfl⟩ := hval σ hσ x hx
      have := hvb σ hσ v hv
      rw [hother, hy] at this
      obtain rfl := Option.some.inj this
      refine ⟨u, hu, ?_⟩
      show (u ^^^ y) ^^^ y = u ^^^ 0
      rw [Nat.xor_assoc, Nat.xor_self]
  split at h
  · next hother =>
      obtain ⟨rfl, rfl⟩ := Prod.mk.inj (Option.some.inj h)
      refine ⟨hlt₂, hc₂.trans hcn, by simp, ?_⟩
      intro σ x y hσ hx hy
      obtain ⟨u, v, hu, hv, rfl⟩ := hval σ hσ x hx
      have := hva σ hσ u hu
      rw [hother, hy] at this
      obtain rfl := Option.some.inj this
      refine ⟨v, hv, ?_⟩
      show (y ^^^ v) ^^^ y = v ^^^ 0
      rw [Nat.xor_comm y v, Nat.xor_assoc, Nat.xor_self]
  split at h
  · cases h
  next outerMask houter =>
  obtain ⟨⟨b, innerMask⟩, hbeside, hp⟩ := Option.map_eq_some_iff.mp h
  obtain ⟨rfl, rfl⟩ := Prod.mk.inj hp
  have hout := scalarLiteral_lt ht.good ho houter
  rw [hco] at hout
  have hscalar : ty.isScalar = true := by
    obtain ⟨-, -, hs, -⟩ := ValueTable.scalarLiteral_eq_some houter
    rw [← Ty.isScalar_carrier, ← hco, Ty.isScalar_carrier]
    exact hs
  -- the two constants combine, whichever side the inner one is on
  have finish : ∀ {i j : Nat}, t.scalarLiteral (t.representation j) = some innerMask → j < t.size →
      (t.ty (t.representation j)).carrier = ty.carrier → i < nested → (t.ty i).carrier = ty.carrier →
      (∀ σ, Valuation F t σ → ∀ x, σ nested = some x → ∃ u v, σ i = some u ∧ σ j = some v ∧ x = u ^^^ v) →
      i < nested ∧ (t.ty i).carrier = ty.carrier ∧
        (∀ m, some (innerMask ^^^ outerMask) = some m →
          m < 2 ^ ty.carrier.bits ∧ ty.isScalar = true ∧ t.scalarLiteral other ≠ none) ∧
        ∀ {σ x y}, Valuation F t σ → σ nested = some x → σ other = some y →
          ∃ u, σ i = some u ∧ x ^^^ y = u ^^^ (some (innerMask ^^^ outerMask)).getD 0 := by
    intro i j hlit hj hcj hi hci hv
    refine ⟨hi, hci, ?_, ?_⟩
    · intro m hm
      obtain rfl := Option.some.inj hm
      have hin := scalarLiteral_lt ht.good
        (Nat.lt_of_le_of_lt (representation_le ht.good hj) hj) hlit
      rw [hcj] at hin
      exact ⟨Nat.xor_lt_two_pow hin hout, hscalar, by rw [houter]; simp⟩
    · intro σ x y hσ hx hy
      obtain ⟨u, v, hu, hvv, rfl⟩ := hv σ hσ x hx
      obtain rfl := value_of_literal_representation ht hσ hj hlit hvv
      rw [(ValueTable.value_of_scalarLiteral ht.good hσ ho houter).1] at hy
      obtain rfl := Option.some.inj hy
      exact ⟨u, hu, Nat.xor_assoc _ _ _⟩
  rcases besideLiteral_eq_some hbeside with ⟨rfl, hlit⟩ | ⟨rfl, hlit⟩
  · refine finish hlit (by omega) (hcb.trans (hc₂.trans hcn)) hlt₁ (hc₁.trans hcn) ?_
    intro σ hσ x hx
    obtain ⟨u, v, hu, hv, rfl⟩ := hval σ hσ x hx
    exact ⟨u, v, hu, hv, rfl⟩
  · refine finish hlit (by omega) (hca.trans (hc₁.trans hcn)) hlt₂ (hc₂.trans hcn) ?_
    intro σ hσ x hx
    obtain ⟨u, v, hu, hv, rfl⟩ := hval σ hσ x hx
    exact ⟨v, u, hv, hu, Nat.xor_comm u v⟩

theorem xorDepth_le (ht : t.Good) (hin : input < t.size) : t.xorDepth input ≤ input + 1 := by
  have := representation_le ht hin
  unfold ValueTable.xorDepth
  split <;> omega

theorem xorDepth_literal {bits : Nat} (hs : (t.ty input).isScalar = true) (h : t.definition input = .literal bits) :
    t.xorDepth input = 0 := by
  have hconv : t.convertInput input = none := by rw [ValueTable.convertInput, h]
  have hrep : t.representation input = input := by
    rw [ValueTable.representation, Descend.run, hconv]
  have hlit : t.scalarLiteral input = some (bits % 2 ^ 64) := by
    have h' : (t.value input).definition = .literal bits := h
    rw [ValueTable.scalarLiteral, Value.scalarLiteral, h']
    exact if_pos hs
  rw [ValueTable.xorDepth, hrep, hlit]

theorem yields_foldXor (hself : FoldsBelow F n self) (ht : Invariant F t)
    (h : BitwiseOperands F t ty .xor left right) (hn : max (t.xorDepth left) (t.xorDepth right) < n + 1) :
    Yields F t (foldXor self ty (t.representation left) (t.representation right))
      (Rewrites F ty (evalExpr F t · ty (.binary (.bitwise .xor) left right) 0)) := by
  obtain ⟨hla, hca, hva⟩ := representation_spec ht h.left_lt
  obtain ⟨hlb, hcb, hvb⟩ := representation_spec ht h.right_lt
  have hl := h.left_lt
  have hr := h.right_lt
  have hca' := hca.trans h.left_carrier
  have hcb' := hcb.trans h.right_carrier
  -- what either order of the operands gives
  have hside : ∀ {base : Nat} {mask : Option Nat},
      (xorOperand t (t.representation left) (t.representation right)).or
        (xorOperand t (t.representation right) (t.representation left)) = some (base, mask) →
      base < t.size ∧ (t.ty base).carrier = ty.carrier ∧
        (∀ m, mask = some m → m < 2 ^ ty.carrier.bits ∧ ty.isScalar = true ∧ base + 1 < n) ∧
        ∀ {σ x y}, Valuation F t σ → σ left = some x → σ right = some y →
          ∃ u, σ base = some u ∧ x ^^^ y = u ^^^ mask.getD 0 := by
    intro base mask hor
    rcases Option.or_eq_some_iff.mp hor with hx | ⟨-, hx⟩
    · obtain ⟨hlt, hc, hm, hval⟩ := xorOperand_spec ht (by omega) (by omega) hca' hcb' hx
      have hdef : t.scalarLiteral (t.representation left) = none := by
        unfold xorOperand at hx
        split at hx
        · cases hx
        · next hof =>
            have hdef := bitwiseOf_eq_some hof
            have h' : (t.value (t.representation left)).definition = _ := hdef
            rw [ValueTable.scalarLiteral, Value.scalarLiteral, h']
      refine ⟨by omega, hc, ?_, ?_⟩
      · intro m hmm
        have hd : t.xorDepth left = t.representation left + 1 := by rw [ValueTable.xorDepth, hdef]
        exact ⟨(hm m hmm).1, (hm m hmm).2.1, by omega⟩
      · intro σ x y hσ hx hy
        exact hval hσ (hva σ hσ x hx) (hvb σ hσ y hy)
    · obtain ⟨hlt, hc, hm, hval⟩ := xorOperand_spec ht (by omega) (by omega) hcb' hca' hx
      have hdef : t.scalarLiteral (t.representation right) = none := by
        unfold xorOperand at hx
        split at hx
        · cases hx
        · next hof =>
            have hdef := bitwiseOf_eq_some hof
            have h' : (t.value (t.representation right)).definition = _ := hdef
            rw [ValueTable.scalarLiteral, Value.scalarLiteral, h']
      refine ⟨by omega, hc, ?_, ?_⟩
      · intro m hmm
        have hd : t.xorDepth right = t.representation right + 1 := by rw [ValueTable.xorDepth, hdef]
        exact ⟨(hm m hmm).1, (hm m hmm).2.1, by omega⟩
      · intro σ x y hσ hx hy
        obtain ⟨u, hu, huv⟩ := hval hσ (hvb σ hσ y hy) (hva σ hσ x hx)
        exact ⟨u, hu, by rw [Nat.xor_comm, huv]⟩
  refine Yields.get ?_
  split
  · exact Yields.pure ht Rewrites.none
  · next base hor =>
      obtain ⟨hb, hc, -, hval⟩ := hside hor
      refine h.yields_operand ht hb hc ?_
      intro σ x y hσ hx hy _ _
      obtain ⟨u, hu, huv⟩ := hval hσ hx hy
      rw [hu]
      exact congrArg some (by rw [BitwiseOp.apply, huv, Option.getD_none, Nat.xor_zero])
  · next base bits hor =>
      obtain ⟨hb, hc, hm, hval⟩ := hside hor
      obtain ⟨hbits, hs, hdepth⟩ := hm bits rfl
      refine Yields.bind (yields_carrierLiteral ht ty bits) ?_
      rintro k t₁ hx₁ ht₁ ⟨hk, hkdef⟩
      have hb₁ := hx₁.lt hb
      have hc₁ : (t₁.ty base).carrier = ty.carrier := by rw [hx₁.ty_eq hb, hc]
      have hw : BinaryOp.wellTyped (.bitwise .xor) (t₁.ty base) (t₁.ty k) ty = true := by
        simp [BinaryOp.wellTyped, hc₁, hk.ty_eq, h.not_f64]
      have hdepth₁ : t₁.foldDepth ty (.binary (.bitwise .xor) base k) < n := by
        have h₁ := xorDepth_le ht₁.good hb₁
        have h₂ := xorDepth_literal (by rw [hk.ty_eq]; exact hs) hkdef
        simp only [ValueTable.foldDepth, h₂]
        omega
      refine yields_some ((hself (e := .binary (.bitwise .xor) base k) ht₁ (by simp [hb₁, hk.lt])
        hw Nat.one_pos (fun _ _ => trivial) hdepth₁).mono ?_)
      intro r t₂ hx₂ ht₂ hres
      refine Holds.converts ⟨hres.lt, hres.ty_eq, ?_⟩ ht₂
      intro σ v hσ hv
      have hσ₁ := hσ.restrict ht₁.good hx₂
      have hσ₀ := hσ₁.restrict ht.good hx₁
      obtain ⟨x, y, hx, hy, -, -, rfl⟩ := h.value hσ₀ hv
      obtain ⟨u, hu, huv⟩ := hval hσ₀ hx hy
      have hkv := hk.value hσ₁ rfl
      refine hres.value hσ ?_
      rw [eval_bitwise hu hkv (ht₁.carrier_lt hσ₁ hb₁ hu) (ht₁.carrier_lt hσ₁ hk.lt hkv) hw, Nat.mod_eq_of_lt hbits]
      exact congrArg some huv.symm

theorem absorbs_spec (ht : Invariant F t) (hσ : Valuation F t σ) {other x y : Nat}
    (hin : input < t.size) (ho : o ≠ .xor) (h : absorbs t o input other = true)
    (hx : σ input = some x) (hy : σ other = some y) : o.apply x y = x := by
  obtain ⟨hle, -, hval⟩ := representation_spec ht hin
  unfold absorbs at h
  split at h
  · next l r hof =>
      obtain ⟨hl, hr, -, -, hv⟩ := bitwise_operands ht (by omega) (bitwiseOf_eq_some hof)
      obtain ⟨u, v, hu, hv, rfl⟩ := hv σ hσ x (hval σ hσ x hx)
      obtain ⟨-, -, hul⟩ := representation_spec ht (by omega : l < t.size)
      obtain ⟨-, -, hvr⟩ := representation_spec ht (by omega : r < t.size)
      simp only [Bool.or_eq_true, decide_eq_true_eq] at h
      rcases h with h | h
      · have := hul σ hσ u hu
        rw [h, hy] at this
        obtain rfl := Option.some.inj this
        cases o with
        | and =>
          show (y &&& v) &&& y = y &&& v
          rw [Nat.and_comm, ← Nat.and_assoc, Nat.and_self]
        | or =>
          show (y ||| v) ||| y = y ||| v
          rw [Nat.or_comm, ← Nat.or_assoc, Nat.or_self]
        | xor => exact absurd rfl ho
      · have := hvr σ hσ v hv
        rw [h, hy] at this
        obtain rfl := Option.some.inj this
        cases o with
        | and =>
          show (u &&& y) &&& y = u &&& y
          rw [Nat.and_assoc, Nat.and_self]
        | or =>
          show (u ||| y) ||| y = u ||| y
          rw [Nat.or_assoc, Nat.or_self]
        | xor => exact absurd rfl ho
  · cases h

theorem yields_foldMasks (hself : FoldsBelow F n self) (ht : Invariant F t)
    (h : BitwiseOperands F t ty o left right) (hn : t.foldDepth ty (.binary (.bitwise o) left right) < n + 1) :
    Yields F t (foldMasks self ty o left right)
      (Rewrites F ty (evalExpr F t · ty (.binary (.bitwise o) left right) 0)) := by
  refine Yields.get ?_
  cases o with
  | and =>
    dsimp only
    split
    · next input mask hbeside => exact yields_andConstant hself (by simp [ValueTable.foldDepth] at hn; omega) ht h hbeside
    · exact Yields.pure ht Rewrites.none
  | or =>
    dsimp only
    split
    · next hint =>
        refine (yields_rejoinBits hself (by simp [ValueTable.foldDepth] at hn; omega) ht h.left_lt h.right_lt hint
          h.left_carrier h.right_carrier).mono ?_
        intro r t' hx ht' hr i hi
        obtain ⟨hlt, hty, hval⟩ := hr i hi
        refine ⟨hlt, hty, ?_⟩
        intro σ v hσ hv
        obtain ⟨x, y, hxv, hyv, -, -, rfl⟩ := h.value (hσ.restrict ht.good hx) hv
        exact hval hσ (by rw [hxv, hyv]; rfl)
    · exact Yields.pure ht Rewrites.none
  | xor => exact Yields.pure ht Rewrites.none

theorem yields_foldIdentities (hself : FoldsBelow F n self) (ht : Invariant F t)
    (h : BitwiseOperands F t ty o left right) (hn : t.foldDepth ty (.binary (.bitwise o) left right) < n + 1) :
    Yields F t (foldIdentities self ty o left right)
      (Rewrites F ty (evalExpr F t · ty (.binary (.bitwise o) left right) 0)) := by
  obtain ⟨hla, hca, hva⟩ := representation_spec ht h.left_lt
  obtain ⟨hlb, hcb, hvb⟩ := representation_spec ht h.right_lt
  have hl := h.left_lt
  have hr := h.right_lt
  refine Yields.get ?_
  dsimp only
  split
  · next hcomp =>
      refine yields_some ((yields_carrierLiteral ht ty _).mono ?_)
      rintro r t' hx ht' ⟨hres, -⟩
      refine Holds.converts ⟨hres.lt, hres.ty_eq, ?_⟩ ht'
      intro σ v hσ hv
      have hσ₀ := hσ.restrict ht.good hx
      obtain ⟨x, y, hxv, hyv, hxlt, hylt, rfl⟩ := h.value hσ₀ hv
      have hxy := complementaryPredicates_spec ht hσ₀ hl hr hcomp hxv hyv
      refine hres.value hσ (congrArg some ?_)
      have hone : 1 % 2 ^ ty.carrier.bits = 1 := by
        rcases hxy with ⟨-, rfl⟩ | ⟨rfl, -⟩
        · exact Nat.mod_eq_of_lt hylt
        · exact Nat.mod_eq_of_lt hxlt
      rcases hxy with ⟨rfl, rfl⟩ | ⟨rfl, rfl⟩ <;> cases o <;> simp [BitwiseOp.apply, hone]
  split
  · next hcond =>
      refine h.yields_operand ht hl h.left_carrier ?_
      intro σ x y hσ hx hy _ _
      obtain rfl := value_of_literal_representation ht hσ hr hcond.2 hy
      rw [hx]
      rcases hcond.1 with rfl | rfl
      · exact congrArg some (Nat.or_zero x).symm
      · exact congrArg some (Nat.xor_zero x).symm
  split
  · next hcond =>
      refine h.yields_operand ht hr h.right_carrier ?_
      intro σ x y hσ hx hy _ _
      obtain rfl := value_of_literal_representation ht hσ hl hcond.2 hx
      rw [hy]
      rcases hcond.1 with rfl | rfl
      · exact congrArg some (Nat.zero_or y).symm
      · exact congrArg some (Nat.zero_xor y).symm
  -- all bits of the carrier
  have hones : ∀ {x : Nat}, x < 2 ^ ty.carrier.bits → x ||| ty.carrier.mask = ty.carrier.mask := by
    intro x hx
    apply Nat.eq_of_testBit_eq
    intro i
    rw [Nat.testBit_or, Ty.mask, testBit_lowMask]
    by_cases hi : i < ty.carrier.bits
    · simp [hi]
    · simp [hi, testBit_of_lt hx (Nat.not_lt.mp hi)]
  split
  · next hcond =>
      obtain ⟨rfl, hlit⟩ := hcond
      refine h.yields_operand ht hr h.right_carrier ?_
      intro σ x y hσ hx hy hxlt _
      obtain rfl := value_of_literal_representation ht hσ hr hlit hy
      rw [hy]
      exact congrArg some (hones hxlt).symm
  split
  · next hcond =>
      obtain ⟨rfl, hlit⟩ := hcond
      refine h.yields_operand ht hl h.left_carrier ?_
      intro σ x y hσ hx hy _ hylt
      obtain rfl := value_of_literal_representation ht hσ hl hlit hx
      rw [hx]
      exact congrArg some ((Nat.or_comm _ _).trans (hones hylt)).symm
  split
  · next hcond =>
      obtain ⟨rfl, hrep⟩ := hcond
      refine yields_some ((yields_literal ht ty 0).mono ?_)
      rintro r t' hx ht' ⟨hres, -⟩
      refine Holds.converts ⟨hres.lt, hres.ty_eq, ?_⟩ ht'
      intro σ v hσ hv
      have hσ₀ := hσ.restrict ht.good hx
      obtain ⟨x, y, hxv, hyv, -, -, rfl⟩ := h.value hσ₀ hv
      obtain rfl := eq_of_representation ht hσ₀ hl hr hrep hxv hyv
      refine hres.value hσ (congrArg some ?_)
      rw [Nat.zero_mod]
      exact (Nat.xor_self x).symm
  split
  · next hxor =>
      subst hxor
      exact yields_foldXor hself ht h hn
  next hxor =>
  split
  · next hrep =>
      refine h.yields_operand ht hl h.left_carrier ?_
      intro σ x y hσ hx hy _ _
      obtain rfl := eq_of_representation ht hσ hl hr hrep hx hy
      rw [hx]
      cases o with
      | and => exact congrArg some (Nat.and_self x).symm
      | or => exact congrArg some (Nat.or_self x).symm
      | xor => exact absurd rfl hxor
  split
  · next habs =>
      refine h.yields_operand ht hl h.left_carrier ?_
      intro σ x y hσ hx hy _ _
      rw [hx, absorbs_spec ht hσ hl hxor habs hx (hvb σ hσ y hy)]
  split
  · next habs =>
      refine h.yields_operand ht hr h.right_carrier ?_
      intro σ x y hσ hx hy _ _
      have := absorbs_spec ht hσ hr hxor habs hy (hva σ hσ x hx)
      rw [hy, ← this]
      cases o with
      | and => exact congrArg some (by rw [this]; exact (Nat.and_comm x y).trans this |>.symm)
      | or => exact congrArg some (by rw [this]; exact (Nat.or_comm x y).trans this |>.symm)
      | xor => exact absurd rfl hxor
  · exact Yields.pure ht Rewrites.none

theorem yields_foldBitwise (hself : FoldsBelow F n self) (ht : Invariant F t) (hl : left < t.size)
    (hr : right < t.size) (hw : BinaryOp.wellTyped (.bitwise o) (t.ty left) (t.ty right) ty = true)
    (hn : t.foldDepth ty (.binary (.bitwise o) left right) < n + 1) :
    Yields F t (foldBitwise self ty o left right)
      (Rewrites F ty (evalExpr F t · ty (.binary (.bitwise o) left right) 0)) := by
  refine Yields.bind (yields_foldMasks hself ht (bitwiseOperands ht hl hr hw) hn) ?_
  intro masked t₁ hx₁ ht₁ hmasked
  split
  · exact Yields.pure ht₁ hmasked
  · have hw₁ : BinaryOp.wellTyped (.bitwise o) (t₁.ty left) (t₁.ty right) ty = true := by
      rw [hx₁.ty_eq hl, hx₁.ty_eq hr]
      exact hw
    refine (yields_foldIdentities hself ht₁ (bitwiseOperands ht₁ (hx₁.lt hl) (hx₁.lt hr) hw₁) ?_).mono ?_
    · rw [hx₁.foldDepth_eq ht.good (by simp [hl, hr])]
      exact hn
    · intro r t₂ _ _ hr₂ i hi
      obtain ⟨hlt, hty, hval⟩ := hr₂ i hi
      refine ⟨hlt, hty, ?_⟩
      intro σ v hσ hv
      exact hval hσ (by rw [evalExpr_extends hx₁ (by simp [hl, hr])]; exact hv)

end Folder

end Relocade.Compiler
