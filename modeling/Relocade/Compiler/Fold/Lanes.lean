import Relocade.Compiler.Fold.Shifts

/-!
# `Compiler.Fold.Lanes` — local lane and byte routing

No graph analysis or demand state is needed to follow lanes through replacements and immediate shuffles.
-/

namespace Relocade.Compiler

open Words

namespace Folder

/-! ## Definitions -/

/-- The lane type, the lane and the operands of a stored replacement. -/
def replaceLaneOf (t : ValueTable) (id : Nat) : Option (Ty × Nat × Nat × Nat) :=
  match t.definition id with
  | .expression (.binary (.replaceLane laneType lane) left right) => some (laneType, lane, left, right)
  | _ => none

/-- The routing and the operands of a stored immediate shuffle. -/
def shuffleOf (t : ValueTable) (id : Nat) : Option (ShuffleMask × Nat × Nat) :=
  match t.definition id with
  | .expression (.binary (.shuffleImmediate mask) left right) => some (mask, left, right)
  | _ => none

/-- One turn of the loop below an extraction: past a replacement of other bits. -/
def extractStep (t : ValueTable) (ty : Ty) (lane base : Nat) : Option Nat :=
  match replaceLaneOf t base with
  | none => none
  | some (laneType, replaced, left, _) =>
      let start := lane * ty.bits
      let replacedStart := replaced * laneType.bits
      if ty = laneType ∧ lane = replaced then none
      else if start < replacedStart + laneType.bits ∧ replacedStart < start + ty.bits then none
      else some (t.representation left)

/-- The operand and the lane that a routing gives an extraction, when it routes a whole lane. -/
def routedLane (mask : ShuffleMask) (ty : Ty) (lane left right : Nat) : Option (Nat × Nat) :=
  let width := ty.bits / 8
  let offset := lane * width
  let first := mask.index offset
  if first % width = 0 ∧ (List.range width).all fun i => mask.index (offset + i) = first + i then
    some (if first < 16 then left else right, first % 16 / width)
  else none

/-- What the loop below an extraction stopped at. -/
def extractTarget (t : ValueTable) (ty : Ty) (lane base : Nat) : Option (Nat × Nat) :=
  match shuffleOf t base with
  | some (mask, left, right) => routedLane mask ty lane left right
  | none => none

/-- A lane taken from where replacements and routing got it. -/
def foldExtractLane (self : Fold) (ty : Ty) (lane input : Nat) : Construct (Option Nat) := do
  let t ← get
  let base := Descend.run (extractStep t ty lane) (input + 1) (t.representation input)
  match replaceLaneOf t base with
  | some (laneType, replaced, _, right) =>
      -- A narrow replacement may have dirty scalar carrier bits. Extraction zero-extends by its opcode width.
      if ty = laneType ∧ lane = replaced then some <$> foldLowBits self ty right ty.bits
      else if base ≠ t.representation input then some <$> self ty (.unary (.extractLane lane) base) 0
      else pure none
  | none =>
      match extractTarget t ty lane base with
      | some (source, lane) => some <$> self ty (.unary (.extractLane lane) source) 0
      | none =>
          if base ≠ t.representation input then some <$> self ty (.unary (.extractLane lane) base) 0
          else pure none

/-- Whether the scalar written into a lane was read from that lane of the same vector. -/
def writesBack (t : ValueTable) (laneType : Ty) (lane left right : Nat) : Bool :=
  let scalar := t.representation right
  match t.definition scalar with
  | .expression (.unary (.extractLane extracted) input) =>
      t.ty scalar = laneType && lane = extracted && t.representation input = t.representation left
  | _ => false

/-- A lane that is written back, or replaced a second time. -/
def foldReplaceLane (self : Fold) (ty laneType : Ty) (lane left right : Nat) : Construct (Option Nat) := do
  let t ← get
  if writesBack t laneType lane left right then pure (some left)
  else
    match replaceLaneOf t (t.representation left) with
    | some (previousType, previous, base, _) =>
        if laneType = previousType ∧ lane = previous then
          some <$> self ty (.binary (.replaceLane laneType lane) base right) 0
        else pure none
    | none => pure none

/-- Whether every byte of a routing stays in its place of one input. -/
def staysIn (index : Nat → Nat) (length width half : Nat) (same : Bool) : Bool :=
  (List.range length).all fun byte =>
    index byte < width * 2 && index byte % width = byte && (index byte / width = half || same)

def shuffleIdentity (t : ValueTable) (index : Nat → Nat) (length width left right : Nat) : Option Nat :=
  let same : Bool := t.representation left = t.representation right
  if staysIn index length width 0 same then some left
  else if staysIn index length width 1 same then some right
  else none

/-- The slot of a source among at most two. -/
def slotOf (sources : List Nat) (source : Nat) : Option (Nat × List Nat) :=
  match sources with
  | [] => some (0, [source])
  | [a] => if a = source then some (0, sources) else some (1, [a, source])
  | a :: b :: _ => if a = source then some (0, sources) else if b = source then some (1, sources) else none

/-- The sources and the indices of the first `n` bytes of a routing, when two sources are enough. -/
def composeRoutes (route : Nat → Nat × Nat) : Nat → Option (List Nat × List Nat)
  | 0 => some ([], [])
  | n + 1 => do
      let (sources, indices) ← composeRoutes route n
      let (slot, sources) ← slotOf sources (route n).1
      some (sources, indices ++ [slot * 16 + (route n).2])

/-- One byte of an operand, followed through the operand's own immediate shuffle. -/
def innerRoute (t : ValueTable) (input byte : Nat) : Nat × Nat :=
  match shuffleOf t input with
  | some (inner, left, right) =>
      let k := inner.index byte
      (if k / 16 = 0 then t.representation left else t.representation right, k % 16)
  | none => (input, byte)

/-- A shuffle that keeps an operand, or composes with one below it. -/
def foldShuffle (ty : Ty) (mask : ShuffleMask) (left right : Nat) : Construct (Option Nat) := do
  let t ← get
  match shuffleIdentity t mask.index 16 16 left right with
  | some input => pure (some input)
  | none =>
      -- Compose one level when the resulting routing still needs at most two sources. More general gathers would
      -- add operations instead of removing one.
      let a := t.representation left
      let b := t.representation right
      if (shuffleOf t a).isNone ∧ (shuffleOf t b).isNone then pure none
      else
        let route := fun i => innerRoute t (if mask.index i / 16 = 0 then a else b) (mask.index i % 16)
        match composeRoutes route 16 with
        | none => pure none
        | some (sources, indices) =>
            let left := sources.getD 0 0
            let right := sources.getD 1 left
            let index := fun i => indices.getD i 0
            match shuffleIdentity t index 16 16 left right with
            | some input => pure (some input)
            | none => some <$> intern ty (.binary (.shuffleImmediate (.ofIndices index)) left right)

variable {F : Floating} {t : ValueTable} {ty : Ty} {self : Fold} {n left right input : Nat} {σ : Nat → Option Nat}

/-! ## Stored replacements and routings -/

variable {a : Ty}

theorem replaceLaneOf_eq_some {id l : Nat} (h : replaceLaneOf t id = some (a, l, left, right)) :
    t.definition id = .expression (.binary (.replaceLane a l) left right) := by
  unfold replaceLaneOf at h
  split at h
  · next hdef =>
      simp only [Option.some.injEq, Prod.mk.injEq] at h
      obtain ⟨rfl, rfl, rfl, rfl⟩ := h
      exact hdef
  · cases h

variable {mask : ShuffleMask}

theorem shuffleOf_eq_some {id : Nat} (h : shuffleOf t id = some (mask, left, right)) :
    t.definition id = .expression (.binary (.shuffleImmediate mask) left right) := by
  unfold shuffleOf at h
  split at h
  · next hdef =>
      simp only [Option.some.injEq, Prod.mk.injEq] at h
      obtain ⟨rfl, rfl, rfl⟩ := h
      exact hdef
  · cases h

/-- The operands of a stored replacement. -/
theorem replaceLane_operands (ht : Invariant F t) {id l : Nat} (hid : id < t.size)
    (h : replaceLaneOf t id = some (a, l, left, right)) :
    left < id ∧ right < id ∧ (t.ty left).carrier = .v128 ∧ (t.ty right).carrier = a.carrier ∧ a.isLane = true ∧
      l * a.bits + a.bits ≤ 128 ∧
      ∀ σ, Valuation F t σ → ∀ v, σ id = some v →
        ∃ x y, σ left = some x ∧ σ right = some y ∧ v = replace 128 a.bits l x y := by
  have hval := ValueTable.value_eq_iff.mpr ⟨rfl, replaceLaneOf_eq_some h⟩
  have hlt := ht.good.inputs_lt hid hval
  have hl := hlt left (by simp)
  have hr := hlt right (by simp)
  have hw : BinaryOp.wellTyped (.replaceLane a l) (t.ty left) (t.ty right) (t.ty id) = true := ht.good.typed hid hval
  have hw' := hw
  simp only [BinaryOp.wellTyped, Bool.and_eq_true, decide_eq_true_eq, Nat.add_mul, Nat.one_mul] at hw'
  obtain ⟨⟨⟨⟨ha, hcl⟩, hcr⟩, -⟩, hle⟩ := hw'
  refine ⟨hl, hr, hcl, hcr, ha, hle, ?_⟩
  intro σ hσ v hv
  rw [hσ.expression hid hval] at hv
  obtain ⟨x, hx⟩ := evalExpr_inputs hv left (by simp)
  obtain ⟨y, hy⟩ := evalExpr_inputs hv right (by simp)
  rw [eval_replaceLane hx hy (ht.carrier_lt hσ (by omega) hx) (ht.carrier_lt hσ (by omega) hy) hw] at hv
  exact ⟨x, y, hx, hy, (Option.some.inj hv).symm⟩

/-- The operands of a stored immediate shuffle. -/
theorem shuffle_operands (ht : Invariant F t) {id : Nat} (hid : id < t.size)
    (h : shuffleOf t id = some (mask, left, right)) :
    left < id ∧ right < id ∧ (t.ty left).carrier = .v128 ∧ (t.ty right).carrier = .v128 ∧
      ∀ σ, Valuation F t σ → ∀ v, σ id = some v →
        ∃ x y, σ left = some x ∧ σ right = some y ∧ v = Packed.shuffle x y mask := by
  have hval := ValueTable.value_eq_iff.mpr ⟨rfl, shuffleOf_eq_some h⟩
  have hlt := ht.good.inputs_lt hid hval
  have hl := hlt left (by simp)
  have hr := hlt right (by simp)
  have hw : BinaryOp.wellTyped (.shuffleImmediate mask) (t.ty left) (t.ty right) (t.ty id) = true :=
    ht.good.typed hid hval
  have hw' := hw
  simp only [BinaryOp.wellTyped, Bool.and_eq_true, decide_eq_true_eq] at hw'
  refine ⟨hl, hr, hw'.1.1, hw'.1.2, ?_⟩
  intro σ hσ v hv
  rw [hσ.expression hid hval] at hv
  obtain ⟨x, hx⟩ := evalExpr_inputs hv left (by simp)
  obtain ⟨y, hy⟩ := evalExpr_inputs hv right (by simp)
  rw [eval_shuffleImmediate hx hy (ht.carrier_lt hσ (by omega) hx) (ht.carrier_lt hσ (by omega) hy) hw] at hv
  exact ⟨x, y, hx, hy, (Option.some.inj hv).symm⟩

/-! ## Extraction -/

/-- Position `base` is an earlier vector with the same lane. -/
def SameLane (F : Floating) (t : ValueTable) (ty : Ty) (l input base : Nat) : Prop :=
  base ≤ t.representation input ∧ (t.ty base).carrier = .v128 ∧
    ∀ σ, Valuation F t σ → ∀ v, σ input = some v → ∃ u, σ base = some u ∧ lane ty.bits l u = lane ty.bits l v

theorem extractStep_invariant (ht : Invariant F t) {l : Nat} (hin : input < t.size) (hl : l * ty.bits + ty.bits ≤ 128)
    (base next : Nat) (h : SameLane F t ty l input base) (hstep : extractStep t ty l base = some next) :
    SameLane F t ty l input next := by
  obtain ⟨hle, hcar, hval⟩ := h
  have hlt : base < t.size := Nat.lt_of_le_of_lt (hle.trans (ValueTable.representation_le ht.good hin)) hin
  unfold extractStep at hstep
  split at hstep
  · cases hstep
  next a replaced left right hrep =>
  obtain ⟨hll, -, hcl, -, -, hb, hv⟩ := replaceLane_operands ht hlt hrep
  dsimp only at hstep
  split at hstep
  · cases hstep
  split at hstep
  · cases hstep
  next hdisj =>
  obtain rfl := Option.some.inj hstep
  obtain ⟨hle', hcar', hval'⟩ := ValueTable.representation_spec ht (by omega : left < t.size)
  refine ⟨by omega, hcar'.trans hcl, ?_⟩
  intro σ hσ v hσv
  obtain ⟨u, hu, huv⟩ := hval σ hσ v hσv
  obtain ⟨x, y, hx, -, rfl⟩ := hv σ hσ u hu
  refine ⟨x, hval' σ hσ x hx, ?_⟩
  rw [← huv, lane_replace_of_disjoint hb hl hdisj]

/-- A lane type spans a whole number of bytes that divides a vector. -/
theorem Ty.bytes_of_isLane (ha : a.isLane = true) :
    a.bits = a.bits / 8 * 8 ∧ (a.bits / 8 = 1 ∨ a.bits / 8 = 2 ∨ a.bits / 8 = 4 ∨ a.bits / 8 = 8) := by
  revert ha
  cases a <;> decide

/-- A lane of a shuffle is the lane that the routing gives it whole. -/
theorem lane_shuffle {width l x y : Nat} (hw : width = 1 ∨ width = 2 ∨ width = 4 ∨ width = 8)
    (hl : l * width + width ≤ 16) (hfst : mask.index (l * width) % width = 0)
    (hroute : ∀ i < width, mask.index (l * width + i) = mask.index (l * width) + i) :
    lane (width * 8) l (Packed.shuffle x y mask) =
      lane (width * 8) (mask.index (l * width) % 16 / width) (if mask.index (l * width) < 16 then x else y) := by
  have hidx := mask.index_lt (l * width)
  generalize hf : mask.index (l * width) = first at *
  apply Nat.eq_of_testBit_eq
  intro k
  rw [testBit_lane, testBit_lane]
  by_cases hk : k < width * 8
  · -- bit `k` of the lane is in its byte `k / 8`
    have hdiv : (l * (width * 8) + k) / 8 = l * width + k / 8 := by
      rw [show l * (width * 8) = l * width * 8 by ring]
      omega
    have hmod : (l * (width * 8) + k) % 8 = k % 8 := by
      rw [show l * (width * 8) = l * width * 8 by ring]
      omega
    have hbyte : k / 8 < width := by omega
    have hlt : l * width + k / 8 < 16 := by omega
    rw [Packed.shuffle, testBit_pack (by decide), hdiv, hmod, hroute _ hbyte, Packed.routed, testBit_lane]
    have hsrc : (first + k / 8) / 16 = 0 ↔ first < 16 := by
      rcases hw with rfl | rfl | rfl | rfl <;> omega
    have hpos : (first + k / 8) % 16 * 8 + k % 8 = first % 16 / width * (width * 8) + k := by
      rcases hw with rfl | rfl | rfl | rfl <;> omega
    rw [hpos]
    simp only [hsrc, hlt, hk, Nat.mod_lt k (by decide : 8 > 0), decide_true, Bool.true_and]
  · simp [hk]

theorem routedLane_eq_some {l source l' : Nat} (hlane : ty.isLane = true)
    (hl : l * ty.bits + ty.bits ≤ 128) (h : routedLane mask ty l left right = some (source, l')) :
    (source = left ∨ source = right) ∧ l' * ty.bits + ty.bits ≤ 128 ∧
      ∀ x y, lane ty.bits l (Packed.shuffle x y mask) =
        lane ty.bits l' (if mask.index (l * (ty.bits / 8)) < 16 then x else y) ∧
        (mask.index (l * (ty.bits / 8)) < 16 → source = left) ∧
        (¬ mask.index (l * (ty.bits / 8)) < 16 → source = right) := by
  obtain ⟨hbits, hwidth⟩ := Ty.bytes_of_isLane hlane
  unfold routedLane at h
  simp only [Option.ite_none_right_eq_some, Option.some.injEq, Prod.mk.injEq] at h
  obtain ⟨⟨hfst, hall⟩, hsource, hl'⟩ := h
  generalize ty.bits / 8 = width at *
  rw [hbits] at hl ⊢
  have hidx := mask.index_lt (l * width)
  have hroute : ∀ i < width, mask.index (l * width + i) = mask.index (l * width) + i := by
    intro i hi
    have := List.all_eq_true.mp hall i (List.mem_range.mpr hi)
    simpa using this
  refine ⟨?_, ?_, ?_⟩
  · rw [← hsource]
    split
    · exact Or.inl rfl
    · exact Or.inr rfl
  · rw [← hl']
    rcases hwidth with rfl | rfl | rfl | rfl <;> omega
  · intro x y
    refine ⟨?_, fun h => ?_, fun h => ?_⟩
    · rw [← hl']
      exact lane_shuffle hwidth (by rcases hwidth with rfl | rfl | rfl | rfl <;> omega) hfst hroute
    · rw [← hsource, if_pos h]
    · rw [← hsource, if_neg h]

theorem extractTarget_spec (ht : Invariant F t) {base l source l' : Nat} (hlane : ty.isLane = true)
    (hl : l * ty.bits + ty.bits ≤ 128) (hbase : base < t.size)
    (h : extractTarget t ty l base = some (source, l')) :
    source < base ∧ (t.ty source).carrier = .v128 ∧ l' * ty.bits + ty.bits ≤ 128 ∧
      ∀ σ, Valuation F t σ → ∀ v, σ base = some v →
        ∃ u, σ source = some u ∧ lane ty.bits l' u = lane ty.bits l v := by
  unfold extractTarget at h
  split at h
  · next mask left right hshuffle =>
      obtain ⟨hll, hrl, hcl, hcr, hv⟩ := shuffle_operands ht hbase hshuffle
      obtain ⟨hsource, hl', hroute⟩ := routedLane_eq_some hlane hl h
      refine ⟨?_, ?_, hl', ?_⟩
      · rcases hsource with rfl | rfl <;> assumption
      · rcases hsource with rfl | rfl <;> assumption
      · intro σ hσ v hσv
        obtain ⟨x, y, hx, hy, rfl⟩ := hv σ hσ v hσv
        obtain ⟨hlaneEq, hleft, hright⟩ := hroute x y
        by_cases hidx : mask.index (l * (ty.bits / 8)) < 16
        · obtain rfl := hleft hidx
          exact ⟨x, hx, by rw [hlaneEq, if_pos hidx]⟩
        · obtain rfl := hright hidx
          exact ⟨y, hy, by rw [hlaneEq, if_neg hidx]⟩
  · cases h

theorem yields_foldExtractLane (hself : FoldsBelow F n self) (ht : Invariant F t) {l : Nat} (hin : input < t.size)
    (hw : UnaryOp.wellTyped (.extractLane l) (t.ty input) ty = true)
    (hn : t.foldDepth ty (.unary (.extractLane l) input) < n + 1) :
    Yields F t (foldExtractLane self ty l input)
      (Rewrites F ty (evalExpr F t · ty (.unary (.extractLane l) input) 0)) := by
  have hw' := hw
  simp only [UnaryOp.wellTyped, Bool.and_eq_true, decide_eq_true_eq, Nat.add_mul, Nat.one_mul] at hw'
  obtain ⟨⟨hci, hlane⟩, hl⟩ := hw'
  simp only [ValueTable.foldDepth] at hn
  have h64 := (Ty.bits_of_isLane hlane).2
  have heval : ∀ {σ i l x}, σ i = some x → evalExpr F t σ ty (.unary (.extractLane l) i) 0 = some (lane ty.bits l x) := by
    intro σ i l x hx
    rw [evalExpr_extractLane hx, mod_two_pow_of_lt (lane_lt _ _ _) h64]
  have hrepr := ValueTable.representation_spec ht hin
  refine Yields.get ?_
  dsimp only
  -- the loop stops at a vector with the same lane
  have hbase : SameLane F t ty l input
      (Descend.run (extractStep t ty l) (input + 1) (t.representation input)) := by
    refine Descend.run_invariant (extractStep_invariant ht hin hl) ⟨Nat.le_refl _, hrepr.2.1.trans hci, ?_⟩
    intro σ hσ v hv
    exact ⟨v, hrepr.2.2 σ hσ v hv, rfl⟩
  generalize Descend.run (extractStep t ty l) (input + 1) (t.representation input) = base at *
  obtain ⟨hle, hcar, hval⟩ := hbase
  have hlt : base < t.size := by omega
  -- extraction of the same lane from an earlier vector
  have extract : ∀ {source l' : Nat}, source < input → (t.ty source).carrier = .v128 →
      l' * ty.bits + ty.bits ≤ 128 →
      (∀ σ, Valuation F t σ → ∀ v, σ input = some v → ∃ u, σ source = some u ∧ lane ty.bits l' u = lane ty.bits l v) →
      Yields F t (some <$> self ty (.unary (.extractLane l') source) 0)
        (Rewrites F ty (evalExpr F t · ty (.unary (.extractLane l) input) 0)) := by
    intro source l' hs hc hl' hv
    have hs' : source < t.size := by omega
    have hws : UnaryOp.wellTyped (.extractLane l') (t.ty source) ty = true := by
      simp [UnaryOp.wellTyped, hc, hlane, Nat.add_mul, hl']
    refine yields_some ((hself (e := .unary (.extractLane l') source) ht (by simp [hs']) hws
      Nat.one_pos (fun _ _ => trivial) (by simp only [ValueTable.foldDepth]; omega)).mono ?_)
    intro r t' hx ht' hr
    refine Holds.converts ⟨hr.lt, hr.ty_eq, ?_⟩ ht'
    intro σ v hσ hσv
    have hσ₀ := hσ.restrict ht.good hx
    obtain ⟨x, hxv⟩ := evalExpr_inputs hσv input (by simp)
    obtain ⟨u, hu, hlu⟩ := hv σ hσ₀ x hxv
    rw [heval hxv] at hσv
    exact hr.value hσ (by rw [heval hu, hlu]; exact hσv)
  have moved : Yields F t
      (if base ≠ t.representation input then some <$> self ty (.unary (.extractLane l) base) 0 else pure none)
      (Rewrites F ty (evalExpr F t · ty (.unary (.extractLane l) input) 0)) := by
    split
    · next hne => exact extract (by omega) hcar hl hval
    · exact Yields.pure ht Rewrites.none
  split
  · next a replaced left right hrep =>
      obtain ⟨hll, hrl, hcl, hcr, ha, hb, hv⟩ := replaceLane_operands ht hlt hrep
      split
      · next hsame =>
          obtain ⟨rfl, rfl⟩ := hsame
          -- the lane was written by this very replacement
          have hint := Ty.carrier_of_isLane hlane
          refine yields_some ((yields_foldLowBits hself (by omega) ht (by omega) hint hcr ty.bits_le_carrier).mono ?_)
          intro r t' hx ht' hr
          refine ⟨hr.lt, hr.typed, ?_⟩
          intro σ v hσ hσv
          have hσ₀ := hσ.restrict ht.good hx
          obtain ⟨x, hxv⟩ := evalExpr_inputs hσv input (by simp)
          obtain ⟨u, hu, hlu⟩ := hval σ hσ₀ x hxv
          obtain ⟨p, q, -, hq, rfl⟩ := hv σ hσ₀ u hu
          rw [heval hxv, ← hlu, lane_replace_self hb] at hσv
          exact hr.value hσ (by rw [hq]; exact hσv)
      · exact moved
  · split
    · next source l' htarget =>
        obtain ⟨hlts, hcs, hl', hv⟩ := extractTarget_spec ht hlane hl hlt htarget
        refine extract (by omega) hcs hl' ?_
        intro σ hσ v hσv
        obtain ⟨u, hu, hlu⟩ := hval σ hσ v hσv
        obtain ⟨w, hw, hlw⟩ := hv σ hσ u hu
        exact ⟨w, hw, hlw.trans hlu⟩
    · exact moved

/-! ## Replacement -/

theorem writesBack_eq_true {l : Nat} (h : writesBack t a l left right = true) :
    ∃ source, t.definition (t.representation right) = .expression (.unary (.extractLane l) source) ∧
      t.ty (t.representation right) = a ∧ t.representation source = t.representation left := by
  unfold writesBack at h
  dsimp only at h
  split at h
  · next extracted source hdef =>
      simp only [Bool.and_eq_true, decide_eq_true_eq] at h
      obtain ⟨⟨hty, rfl⟩, hrep⟩ := h
      exact ⟨source, hdef, hty, hrep⟩
  · cases h

theorem yields_foldReplaceLane (hself : FoldsBelow F n self) (ht : Invariant F t) {l : Nat}
    (hl : left < t.size) (hr : right < t.size)
    (hw : BinaryOp.wellTyped (.replaceLane a l) (t.ty left) (t.ty right) ty = true)
    (hn : t.foldDepth ty (.binary (.replaceLane a l) left right) < n + 1) :
    Yields F t (foldReplaceLane self ty a l left right)
      (Rewrites F ty (evalExpr F t · ty (.binary (.replaceLane a l) left right) 0)) := by
  have hw' := hw
  simp only [BinaryOp.wellTyped, Bool.and_eq_true, decide_eq_true_eq, Nat.add_mul, Nat.one_mul] at hw'
  obtain ⟨⟨⟨⟨ha, hcl⟩, hcr⟩, hty⟩, hle⟩ := hw'
  simp only [ValueTable.foldDepth] at hn
  have hops : ∀ {σ v}, Valuation F t σ → evalExpr F t σ ty (.binary (.replaceLane a l) left right) 0 = some v →
      ∃ x y, σ left = some x ∧ σ right = some y ∧ x < 2 ^ 128 ∧ v = replace 128 a.bits l x y := by
    intro σ v hσ hv
    obtain ⟨x, hx, hxlt⟩ := ht.operand hσ hv hl (by simp)
    obtain ⟨y, hy⟩ := evalExpr_inputs hv right (by simp)
    rw [eval_replaceLane hx hy hxlt (ht.carrier_lt hσ hr hy) hw] at hv
    rw [hcl] at hxlt
    exact ⟨x, y, hx, hy, hxlt, (Option.some.inj hv).symm⟩
  obtain ⟨hlel, hcarl, hvall⟩ := ValueTable.representation_spec ht hl
  obtain ⟨hler, -, hvalr⟩ := ValueTable.representation_spec ht hr
  refine Yields.get ?_
  split
  · next hback =>
      obtain ⟨source, hdef, hta, hrep⟩ := writesBack_eq_true hback
      have hid : t.representation right < t.size := by omega
      have hval := ValueTable.value_eq_iff.mpr ⟨rfl, hdef⟩
      have hs := ht.good.inputs_lt hid hval source (by simp)
      have hc := hcl.trans hty.symm
      refine Yields.pure ht (Rewrites.some (Converts.of_value ht hl
        (Or.inr ⟨hc, convert_wellTyped hc (by rw [hty]; decide)⟩) ?_))
      intro σ v hσ hσv
      obtain ⟨x, y, hx, hy, hxlt, rfl⟩ := hops hσ hσv
      -- the scalar is the lane that the vector already has there
      have hyv := hvalr σ hσ y hy
      rw [hσ.expression hid hval] at hyv
      obtain ⟨u, hu⟩ := evalExpr_inputs hyv source (by simp)
      rw [evalExpr_extractLane hu, hta] at hyv
      obtain rfl := ValueTable.eq_of_representation ht hσ (by omega) hl hrep hu hx
      obtain rfl := Option.some.inj hyv
      rw [replace_lane_self hle hxlt ?_, hx]
      rw [mod_two_pow_of_lt (lane_lt _ _ _) (Ty.bits_of_isLane ha).2, Nat.mod_eq_of_lt (lane_lt _ _ _)]
  split
  · next previousType previous base written hrep =>
      obtain ⟨hlt, -, hcb, -, -, -, hv⟩ := replaceLane_operands ht (by omega) hrep
      split
      · next hsame =>
          obtain ⟨rfl, rfl⟩ := hsame
          have hwb : BinaryOp.wellTyped (.replaceLane a l) (t.ty base) (t.ty right) ty = true := by
            simp [BinaryOp.wellTyped, ha, hcb, hcr, hty, Nat.add_mul, hle]
          have hin : ∀ i ∈ (Expression.binary (.replaceLane a l) base right).inputs, i < t.size := by
            simp [hr]
            omega
          refine yields_some ((hself (e := .binary (.replaceLane a l) base right) ht hin hwb Nat.one_pos (fun _ _ => trivial)
            (by simp only [ValueTable.foldDepth]; omega)).mono ?_)
          intro r t' hx ht' hres
          refine Holds.converts ⟨hres.lt, hres.ty_eq, ?_⟩ ht'
          intro σ v hσ hσv
          have hσ₀ := hσ.restrict ht.good hx
          obtain ⟨x, y, hxv, hyv, hxlt, rfl⟩ := hops hσ₀ hσv
          obtain ⟨p, q, hp, -, hpq⟩ := hv σ hσ₀ x (hvall σ hσ₀ x hxv)
          refine hres.value hσ ?_
          rw [eval_replaceLane hp hyv (ht.carrier_lt hσ₀ (by omega) hp) (ht.carrier_lt hσ₀ hr hyv) hwb, hpq,
            replace_replace hle]
      · exact Yields.pure ht Rewrites.none
  · exact Yields.pure ht Rewrites.none

/-! ## Immediate shuffles -/

/-- A byte of a shuffle is the byte its index names. -/
theorem lane_shuffle_byte {x y i : Nat} (hi : i < 16) :
    lane 8 i (Packed.shuffle x y mask) = Packed.routed x y (mask.index i) := by
  rw [Packed.shuffle, lane_pack (by decide) _ hi]
  exact Nat.mod_eq_of_lt (lane_lt _ _ _)

theorem staysIn_eq_true {index : Nat → Nat} {length width half : Nat} {same : Bool}
    (h : staysIn index length width half same = true) {i : Nat} (hi : i < length) :
    index i < width * 2 ∧ index i % width = i ∧ (index i / width = half ∨ same = true) := by
  have := List.all_eq_true.mp h i (List.mem_range.mpr hi)
  simpa [and_assoc] using this

/-- A routing that leaves every byte in place is one of its inputs. -/
theorem shuffleIdentity_spec (ht : Invariant F t) {index : Nat → Nat} {r : Nat} (hl : left < t.size)
    (hr : right < t.size) (h : shuffleIdentity t index 16 16 left right = some r) :
    (r = left ∨ r = right) ∧ ∀ σ, Valuation F t σ → ∀ x y, σ left = some x → σ right = some y →
      x < 2 ^ 128 → y < 2 ^ 128 → σ r = some (pack 8 (fun i => Packed.routed x y (index i)) 16) := by
  have whole : ∀ {x y z half : Nat}, z < 2 ^ 128 →
      staysIn index 16 16 half (decide (t.representation left = t.representation right)) = true →
      (half = 0 ∧ z = x ∨ half = 1 ∧ z = y) → (t.representation left = t.representation right → x = y) →
      pack 8 (fun i => Packed.routed x y (index i)) 16 = z := by
    intro x y z half hz hstays hhalf hsame
    rw [← pack_lane (w := 8) (n := 16) (by decide) hz]
    refine pack_congr fun i hi => ?_
    obtain ⟨hlt, hmod, hside⟩ := staysIn_eq_true hstays hi
    rw [Packed.routed, hmod]
    have hxy : (if index i / 16 = 0 then x else y) = z := by
      rcases hside with hside | hside
      · rcases hhalf with ⟨rfl, rfl⟩ | ⟨rfl, rfl⟩
        · rw [if_pos hside]
        · rw [if_neg (by omega)]
      · obtain rfl := hsame (of_decide_eq_true hside)
        rw [ite_self]
        rcases hhalf with ⟨-, h⟩ | ⟨-, h⟩ <;> exact h.symm
    rw [hxy]
  have hsame : ∀ {σ x y}, Valuation F t σ → σ left = some x → σ right = some y →
      t.representation left = t.representation right → x = y := fun hσ hx hy h =>
    ValueTable.eq_of_representation ht hσ hl hr h hx hy
  unfold shuffleIdentity at h
  dsimp only at h
  split at h
  · next hstays =>
      obtain rfl := Option.some.inj h
      refine ⟨Or.inl rfl, fun σ hσ x y hx hy hxlt _ => ?_⟩
      rw [whole hxlt hstays (Or.inl ⟨rfl, rfl⟩) (hsame hσ hx hy), hx]
  split at h
  · next hstays =>
      obtain rfl := Option.some.inj h
      refine ⟨Or.inr rfl, fun σ hσ x y hx hy _ hylt => ?_⟩
      rw [whole hylt hstays (Or.inr ⟨rfl, rfl⟩) (hsame hσ hx hy), hy]
  · cases h

theorem slotOf_spec {sources sources' : List Nat} {source slot : Nat} (h : slotOf sources source = some (slot, sources'))
    (hlen : sources.length ≤ 2) :
    slot < 2 ∧ sources'.length ≤ 2 ∧ 0 < sources'.length ∧ sources'[slot]? = some source ∧
      (∀ k v : Nat, sources[k]? = some v → sources'[k]? = some v) ∧ ∀ v ∈ sources', v ∈ sources ∨ v = source := by
  rcases sources with _ | ⟨a, _ | ⟨b, _ | ⟨c, rest⟩⟩⟩
  · simp only [slotOf, Option.some.injEq, Prod.mk.injEq] at h
    obtain ⟨rfl, rfl⟩ := h
    simp
  · simp only [slotOf] at h
    split at h <;> simp only [Option.some.injEq, Prod.mk.injEq] at h <;> obtain ⟨rfl, rfl⟩ := h
    · next heq => simp [heq]
    · next hne =>
        refine ⟨by decide, by simp, by simp, by simp, ?_, by simp⟩
        intro k v hk
        cases k with
        | zero => exact hk
        | succ k => simp at hk
  · simp only [slotOf] at h
    split at h
    · next heq =>
        simp only [Option.some.injEq, Prod.mk.injEq] at h
        obtain ⟨rfl, rfl⟩ := h
        simp [heq]
    split at h
    · next heq =>
        simp only [Option.some.injEq, Prod.mk.injEq] at h
        obtain ⟨rfl, rfl⟩ := h
        refine ⟨by decide, by simp, by simp, by simp [heq], fun _ _ h => h, fun v hv => Or.inl hv⟩
    · cases h
  · simp at hlen

variable {sources indices : List Nat}

variable {route : Nat → Nat × Nat}

/-- Every composed index names its source's slot and its byte. -/
theorem composeRoutes_spec {m : Nat}
    (h : composeRoutes route m = some (sources, indices)) :
    sources.length ≤ 2 ∧ (0 < m → 0 < sources.length) ∧ indices.length = m ∧
      (∀ i < m, ∃ slot, slot < 2 ∧ sources[slot]? = some (route i).1 ∧ indices[i]? = some (slot * 16 + (route i).2)) ∧
      ∀ v ∈ sources, ∃ i < m, v = (route i).1 := by
  induction m generalizing sources indices with
  | zero =>
    simp only [composeRoutes, Option.some.injEq, Prod.mk.injEq] at h
    obtain ⟨rfl, rfl⟩ := h
    simp
  | succ m ih =>
    simp only [composeRoutes, Option.bind_eq_bind, Option.bind_eq_some_iff, Prod.exists, Option.some.injEq,
      Prod.mk.injEq] at h
    obtain ⟨before, done, hdone, slot, after, hslot, rfl, rfl⟩ := h
    obtain ⟨hlen, -, hdoneLen, hroutes, hmem⟩ := ih hdone
    obtain ⟨hslot2, hlen', hpos, hget, hmono, hmem'⟩ := slotOf_spec hslot hlen
    refine ⟨hlen', fun _ => hpos, by simp [hdoneLen], ?_, ?_⟩
    · intro i hi
      by_cases him : i = m
      · subst him
        exact ⟨slot, hslot2, hget, by simp [hdoneLen]⟩
      · obtain ⟨k, hk, hkget, hkidx⟩ := hroutes i (by omega)
        refine ⟨k, hk, hmono k _ hkget, ?_⟩
        rw [List.getElem?_append_left (by omega)]
        exact hkidx
    · intro v hv
      rcases hmem' v hv with hv | rfl
      · obtain ⟨i, hi, rfl⟩ := hmem v hv
        exact ⟨i, by omega, rfl⟩
      · exact ⟨m, by omega, rfl⟩

/-- Byte `p.2` of position `p.1` is byte `byte` of the vector at `input`. -/
theorem innerRoute_spec (ht : Invariant F t) {byte : Nat} (hin : input < t.size)
    (hc : (t.ty input).carrier = .v128) (hbyte : byte < 16) :
    (innerRoute t input byte).1 ≤ input ∧ (t.ty (innerRoute t input byte).1).carrier = .v128 ∧
      (innerRoute t input byte).2 < 16 ∧ ∀ σ, Valuation F t σ → ∀ v, σ input = some v →
        ∃ u, σ (innerRoute t input byte).1 = some u ∧ lane 8 (innerRoute t input byte).2 u = lane 8 byte v := by
  unfold innerRoute
  split
  · next inner left right hshuffle =>
      obtain ⟨hl, hr, hcl, hcr, hv⟩ := shuffle_operands ht hin hshuffle
      obtain ⟨hlel, hcarl, hvall⟩ := ValueTable.representation_spec ht (by omega : left < t.size)
      obtain ⟨hler, hcarr, hvalr⟩ := ValueTable.representation_spec ht (by omega : right < t.size)
      dsimp only
      refine ⟨?_, ?_, Nat.mod_lt _ (by decide), ?_⟩
      · split <;> omega
      · split
        · exact hcarl.trans hcl
        · exact hcarr.trans hcr
      · intro σ hσ v hσv
        obtain ⟨x, y, hx, hy, rfl⟩ := hv σ hσ v hσv
        rw [lane_shuffle_byte hbyte, Packed.routed]
        split
        · exact ⟨x, hvall σ hσ x hx, rfl⟩
        · exact ⟨y, hvalr σ hσ y hy, rfl⟩
  · exact ⟨Nat.le_refl _, hc, hbyte, fun σ _ v hv => ⟨v, hv, rfl⟩⟩

/-- A composed routing selects the bytes that the two routings select one after the other. -/
theorem routed_composed {x y p q : Nat}
    (h : composeRoutes route 16 = some (sources, indices))
    (hroute : ∀ i < 16, (route i).2 < 16 ∧
      ∃ u, σ (route i).1 = some u ∧ lane 8 (route i).2 u = Packed.routed x y (mask.index i))
    (hp : σ (sources.getD 0 0) = some p) (hq : σ (sources.getD 1 (sources.getD 0 0)) = some q) :
    ∀ i < 16, indices.getD i 0 < 32 ∧ Packed.routed p q (indices.getD i 0) = Packed.routed x y (mask.index i) := by
  obtain ⟨-, -, -, hslots, -⟩ := composeRoutes_spec h
  intro i hi
  obtain ⟨slot, hslot, hget, hidx⟩ := hslots i hi
  obtain ⟨hbyte, u, hu, hlane⟩ := hroute i hi
  have hval : indices.getD i 0 = slot * 16 + (route i).2 := by rw [List.getD_eq_getElem?_getD, hidx, Option.getD_some]
  refine ⟨by omega, ?_⟩
  rw [hval, ← hlane, Packed.routed, show (slot * 16 + (route i).2) % 16 = (route i).2 by omega,
    show (slot * 16 + (route i).2) / 16 = slot by omega]
  -- the slot's source is the operand the composed routing reads
  have hslot' : slot = 0 ∨ slot = 1 := by omega
  rcases hslot' with rfl | rfl
  · rw [List.getD_eq_getElem?_getD, hget, Option.getD_some, hu] at hp
    rw [if_pos rfl, Option.some.inj hp]
  · rw [List.getD_eq_getElem?_getD (a := sources.getD 0 0), hget, Option.getD_some, hu] at hq
    rw [if_neg (by decide), Option.some.inj hq]

/-- The operands of a composed routing are among the sources of its bytes. -/
theorem composeRoutes_operands
    (h : composeRoutes route 16 = some (sources, indices)) {P : Nat → Prop} (hP : ∀ i < 16, P (route i).1) :
    P (sources.getD 0 0) ∧ P (sources.getD 1 (sources.getD 0 0)) := by
  obtain ⟨-, hpos, -, -, hmem⟩ := composeRoutes_spec h
  have hP' : ∀ v ∈ sources, P v := by
    intro v hv
    obtain ⟨i, hi, rfl⟩ := hmem v hv
    exact hP i hi
  have hpos' := hpos (by decide)
  have h0 : P (sources.getD 0 0) := by
    rw [List.getD_eq_getElem _ _ hpos']
    exact hP' _ (List.getElem_mem _)
  refine ⟨h0, ?_⟩
  by_cases h1 : 1 < sources.length
  · rw [List.getD_eq_getElem _ _ h1]
    exact hP' _ (List.getElem_mem _)
  · rw [List.getD_eq_default _ _ (by omega)]
    exact h0

theorem yields_foldShuffle (ht : Invariant F t) (hl : left < t.size) (hr : right < t.size)
    (hw : BinaryOp.wellTyped (.shuffleImmediate mask) (t.ty left) (t.ty right) ty = true) :
    Yields F t (foldShuffle ty mask left right)
      (Rewrites F ty (evalExpr F t · ty (.binary (.shuffleImmediate mask) left right) 0)) := by
  have hw' := hw
  simp only [BinaryOp.wellTyped, Bool.and_eq_true, decide_eq_true_eq] at hw'
  obtain ⟨⟨hcl, hcr⟩, hty⟩ := hw'
  have hops : ∀ {σ v}, Valuation F t σ →
      evalExpr F t σ ty (.binary (.shuffleImmediate mask) left right) 0 = some v →
      ∃ x y, σ left = some x ∧ σ right = some y ∧ x < 2 ^ 128 ∧ y < 2 ^ 128 ∧ v = Packed.shuffle x y mask := by
    intro σ v hσ hv
    obtain ⟨x, hx, hxlt⟩ := ht.operand hσ hv hl (by simp)
    obtain ⟨y, hy, hylt⟩ := ht.operand hσ hv hr (by simp)
    rw [eval_shuffleImmediate hx hy hxlt hylt hw] at hv
    rw [hcl] at hxlt
    rw [hcr] at hylt
    exact ⟨x, y, hx, hy, hxlt, hylt, (Option.some.inj hv).symm⟩
  -- an existing vector with the shuffled bytes
  have same : ∀ {i : Nat}, i < t.size → (t.ty i).carrier = .v128 →
      (∀ {σ x y}, Valuation F t σ → σ left = some x → σ right = some y → x < 2 ^ 128 → y < 2 ^ 128 →
        σ i = some (Packed.shuffle x y mask)) →
      Yields F t (pure (some i))
        (Rewrites F ty (evalExpr F t · ty (.binary (.shuffleImmediate mask) left right) 0)) := by
    intro i hi hc hv
    have hc' := hc.trans hty.symm
    refine Yields.pure ht (Rewrites.some (Converts.of_value ht hi
      (Or.inr ⟨hc', convert_wellTyped hc' (by rw [hty]; decide)⟩) ?_))
    intro σ v hσ hσv
    obtain ⟨x, y, hx, hy, hxlt, hylt, rfl⟩ := hops hσ hσv
    exact hv hσ hx hy hxlt hylt
  obtain ⟨hlel, hcarl, hvall⟩ := ValueTable.representation_spec ht hl
  obtain ⟨hler, hcarr, hvalr⟩ := ValueTable.representation_spec ht hr
  refine Yields.get ?_
  split
  · next input hident =>
      obtain ⟨hinput, hv⟩ := shuffleIdentity_spec ht hl hr hident
      refine same ?_ ?_ fun hσ hx hy hxlt hylt => hv _ hσ _ _ hx hy hxlt hylt
      · rcases hinput with rfl | rfl <;> assumption
      · rcases hinput with rfl | rfl <;> assumption
  -- each byte of the shuffle, followed through the operand it comes from
  have hstep : ∀ i < 16, ∃ r, innerRoute t (if mask.index i / 16 = 0 then t.representation left
        else t.representation right) (mask.index i % 16) = r ∧ r.1 < t.size ∧ (t.ty r.1).carrier = .v128 ∧ r.2 < 16 ∧
      ∀ σ, Valuation F t σ → ∀ x y, σ left = some x → σ right = some y →
        ∃ u, σ r.1 = some u ∧ lane 8 r.2 u = Packed.routed x y (mask.index i) := by
    intro i hi
    have hb : mask.index i % 16 < 16 := Nat.mod_lt _ (by decide)
    refine ⟨_, rfl, ?_⟩
    by_cases hside : mask.index i / 16 = 0
    · simp only [hside, if_true]
      obtain ⟨h₁, h₂, h₃, h₄⟩ := innerRoute_spec ht (by omega : t.representation left < t.size) (hcarl.trans hcl) hb
      refine ⟨by omega, h₂, h₃, fun σ hσ x y hx _ => ?_⟩
      rw [Packed.routed, if_pos hside]
      exact h₄ σ hσ x (hvall σ hσ x hx)
    · simp only [hside, if_false]
      obtain ⟨h₁, h₂, h₃, h₄⟩ := innerRoute_spec ht (by omega : t.representation right < t.size) (hcarr.trans hcr) hb
      refine ⟨by omega, h₂, h₃, fun σ hσ x y _ hy => ?_⟩
      rw [Packed.routed, if_neg hside]
      exact h₄ σ hσ y (hvalr σ hσ y hy)
  dsimp only
  split
  · exact Yields.pure ht Rewrites.none
  split
  · exact Yields.pure ht Rewrites.none
  next sources indices hroutes =>
  have hP := composeRoutes_operands hroutes (P := fun r => r < t.size ∧ (t.ty r).carrier = .v128) (by
    intro i hi
    obtain ⟨r, hr, h₁, h₂, -⟩ := hstep i hi
    rw [hr]
    exact ⟨h₁, h₂⟩)
  -- the composed routing selects the same bytes
  have hcomposed : ∀ {σ x y}, Valuation F t σ → σ left = some x → σ right = some y →
      ∃ p q, σ (sources.getD 0 0) = some p ∧ σ (sources.getD 1 (sources.getD 0 0)) = some q ∧
        ∀ i < 16, indices.getD i 0 < 32 ∧
          Packed.routed p q (indices.getD i 0) = Packed.routed x y (mask.index i) := by
    intro σ x y hσ hx hy
    obtain ⟨⟨p, hp⟩, ⟨q, hq⟩⟩ := composeRoutes_operands hroutes (P := fun r => ∃ u, σ r = some u) (by
      intro i hi
      obtain ⟨r, hr, -, -, -, hv⟩ := hstep i hi
      obtain ⟨u, hu, -⟩ := hv σ hσ x y hx hy
      rw [hr]
      exact ⟨u, hu⟩)
    refine ⟨p, q, hp, hq, routed_composed hroutes ?_ hp hq⟩
    intro i hi
    obtain ⟨r, hr, -, -, hlt, hv⟩ := hstep i hi
    obtain ⟨u, hu⟩ := hv σ hσ x y hx hy
    rw [hr]
    exact ⟨hlt, u, hu⟩
  obtain ⟨⟨hl', hcl'⟩, hr', hcr'⟩ := hP
  generalize sources.getD 0 0 = a at *
  generalize sources.getD 1 a = b at *
  split
  · next input hident =>
      obtain ⟨hinput, hv⟩ := shuffleIdentity_spec ht hl' hr' hident
      refine same ?_ ?_ ?_
      · rcases hinput with rfl | rfl <;> assumption
      · rcases hinput with rfl | rfl <;> assumption
      · intro σ x y hσ hx hy _ _
        obtain ⟨p, q, hp, hq, hbytes⟩ := hcomposed hσ hx hy
        have hplt := ht.carrier_lt hσ hl' hp
        have hqlt := ht.carrier_lt hσ hr' hq
        rw [hcl'] at hplt
        rw [hcr'] at hqlt
        rw [hv σ hσ p q hp hq hplt hqlt, Packed.shuffle]
        exact congrArg some (pack_congr fun i hi => by rw [(hbytes i hi).2])
  · have hwc : BinaryOp.wellTyped (.shuffleImmediate (ShuffleMask.ofIndices fun i => indices.getD i 0)) (t.ty a)
        (t.ty b) ty = true := by
      simp [BinaryOp.wellTyped, hcl', hcr', hty]
    refine yields_some ((yields_intern ht (e := .binary (.shuffleImmediate _) a b) (by simp [hl', hr'])
      hwc (fun _ _ => trivial) (by rintro _ _ _ ⟨⟩)).mono ?_)
    intro r t' hx ht' hres
    refine Holds.converts ⟨hres.lt, hres.ty_eq, ?_⟩ ht'
    intro σ v hσ hσv
    have hσ₀ := hσ.restrict ht.good hx
    obtain ⟨x, y, hxv, hyv, -, -, rfl⟩ := hops hσ₀ hσv
    obtain ⟨p, q, hp, hq, hbytes⟩ := hcomposed hσ₀ hxv hyv
    refine hres.value hσ ?_
    rw [eval_shuffleImmediate hp hq (ht.carrier_lt hσ₀ hl' hp) (ht.carrier_lt hσ₀ hr' hq) hwc, Packed.shuffle,
      Packed.shuffle]
    refine congrArg some (pack_congr fun i hi => ?_)
    rw [ShuffleMask.index_ofIndices _ hi, Nat.mod_eq_of_lt (hbytes i hi).1, (hbytes i hi).2]

end Folder

end Relocade.Compiler
