import Mathlib.Algebra.Group.Nat.Defs
import Mathlib.Logic.Basic
import Relocade.Memory

/-!
# `X87.File` — eight registers with TOP and tags

The direct reading of the register state: a file is TOP's stored byte, the tag word and eight encodings, and each
operation acts on it at once. `File.of` reads a file from the CPU's backing memory.
-/

namespace Relocade.X87

/-! ## Values -/

/-- A register's encoding. A numerical value is the encoding that it expands to. -/
structure ExtendedBits where
  significand : BitVec 64
  signExponent : BitVec 16
  deriving DecidableEq, Repr

namespace ExtendedBits

variable (bits : ExtendedBits)

def exponentField : BitVec 16 := bits.signExponent &&& 0x7fff

def zero : Bool := bits.exponentField = 0 ∧ bits.significand = 0

def normal : Bool :=
  bits.exponentField ≠ 0 ∧ bits.exponentField ≠ 0x7fff ∧ bits.significand &&& 0x8000000000000000 ≠ 0

/-- `classification().tag()`. -/
def tag : BitVec 16 := if bits.zero then 1 else if bits.normal then 0 else 2

theorem tag_lt : bits.tag.toNat < 4 := by
  unfold tag
  split
  next => decide
  next => split <;> decide

end ExtendedBits

/-! ## Positions -/

/-- The register at a position, modulo eight. -/
def slotAt {w : Nat} (position : BitVec w) : Fin 8 := ⟨position.toNat % 8, Nat.mod_lt _ (by decide)⟩

theorem toNat_and_seven {w : Nat} (pos : BitVec w) (hw : 3 ≤ w) : (pos &&& 7).toNat = pos.toNat % 8 := by
  have hseven : (7 : BitVec w).toNat = 7 := by
    have hpow : 8 ≤ 2 ^ w := Nat.pow_le_pow_right Nat.two_pos hw
    exact Nat.mod_eq_of_lt (Nat.lt_of_lt_of_le (by decide : 7 < 8) hpow)
  rw [BitVec.toNat_and, hseven]
  exact Nat.and_two_pow_sub_one_eq_mod _ 3

section

variable {a b : BitVec 32}

theorem slotAt_add : slotAt (a + b) = slotAt a + slotAt b := by
  refine Fin.ext ?_
  simp only [slotAt, BitVec.toNat_add, Fin.val_add]
  omega

theorem slotAt_sub : slotAt (a - b) = slotAt a - slotAt b := by
  refine Fin.ext ?_
  have := b.isLt
  simp only [slotAt, BitVec.toNat_sub, Fin.sub_def]
  omega

theorem slotAt_and_seven {w : Nat} (pos : BitVec w) (hw : 3 ≤ w) : slotAt (pos &&& 7) = slotAt pos := by
  refine Fin.ext ?_
  simp only [slotAt, toNat_and_seven pos hw, Nat.mod_mod]

theorem slotAt_setWidth {w v : Nat} (pos : BitVec w) (hv : 3 ≤ v) : slotAt (pos.setWidth v) = slotAt pos := by
  refine Fin.ext ?_
  have hdvd : 8 ∣ 2 ^ v := Nat.pow_dvd_pow 2 hv
  simp only [slotAt, BitVec.toNat_setWidth, Nat.mod_mod_of_dvd _ hdvd]

theorem slotAt_ofNat (i : Fin 8) : slotAt (BitVec.ofNat 32 i) = i := by
  refine Fin.ext ?_
  have := i.isLt
  simp only [slotAt, BitVec.toNat_ofNat]
  omega

end

/-! ## The tag word -/

/-- Two bits for each physical register. -/
def tagOf (word : BitVec 16) (i : Fin 8) : BitVec 16 := word >>> (2 * i.val) &&& 3

/-- Replaces one register's bits. -/
def packTag (word : BitVec 16) (i : Fin 8) (tag : BitVec 16) : BitVec 16 :=
  word &&& ((3 : BitVec 16) <<< (2 * i.val) ^^^ 0xffff) ||| tag <<< (2 * i.val)

/-- An empty register. -/
def emptyTag : BitVec 16 := 3

theorem getLsbD_three (k : Nat) : (3 : BitVec 16).getLsbD k = decide (k < 2) := by
  by_cases hk : k < 16
  · have hall : ∀ k : Fin 16, (3 : BitVec 16).getLsbD k = decide (k.val < 2) := by decide
    exact hall ⟨k, hk⟩
  · rw [BitVec.getLsbD_of_ge _ _ (by omega)]
    exact (decide_eq_false (by omega)).symm

theorem getLsbD_ones {k : Nat} (hk : k < 16) : (0xffff : BitVec 16).getLsbD k = true := by
  have hall : ∀ k : Fin 16, (0xffff : BitVec 16).getLsbD k = true := by decide
  exact hall ⟨k, hk⟩

theorem getLsbD_of_lt_four {tag : BitVec 16} (h : tag.toNat < 4) {k : Nat} (hk : 2 ≤ k) : tag.getLsbD k = false := by
  refine Nat.testBit_lt_two_pow (Nat.lt_of_lt_of_le h ?_)
  exact Nat.pow_le_pow_right Nat.two_pos hk

theorem getLsbD_tagOf (word : BitVec 16) (i : Fin 8) (k : Nat) :
    (tagOf word i).getLsbD k = (decide (k < 2) && word.getLsbD (2 * i.val + k)) := by
  rw [tagOf, BitVec.getLsbD_and, BitVec.getLsbD_ushiftRight, getLsbD_three, Bool.and_comm]

theorem getLsbD_packTag (word : BitVec 16) (i : Fin 8) {tag : BitVec 16} (htag : tag.toNat < 4) {k : Nat} (hk : k < 16) :
    (packTag word i tag).getLsbD k =
      if 2 * i.val ≤ k ∧ k < 2 * i.val + 2 then tag.getLsbD (k - 2 * i.val) else word.getLsbD k := by
  simp only [packTag, BitVec.getLsbD_or, BitVec.getLsbD_and, BitVec.getLsbD_xor, BitVec.getLsbD_shiftLeft, getLsbD_three,
    getLsbD_ones hk, hk, decide_true, Bool.true_and]
  by_cases hlo : k < 2 * i.val
  · simp [hlo, Nat.not_le_of_lt hlo]
  · by_cases hhi : k < 2 * i.val + 2
    · have hin : k - 2 * i.val < 2 := by omega
      simp [hlo, hhi, hin, Nat.le_of_not_lt hlo]
    · have hout : ¬ k - 2 * i.val < 2 := by omega
      simp [hlo, hhi, hout, getLsbD_of_lt_four htag (Nat.le_of_not_lt hout)]

theorem tagOf_packTag (word : BitVec 16) (i j : Fin 8) {tag : BitVec 16} (htag : tag.toNat < 4) :
    tagOf (packTag word i tag) j = if i = j then tag else tagOf word j := by
  refine BitVec.eq_of_getLsbD_eq fun k hk => ?_
  rw [getLsbD_tagOf]
  have hj := j.isLt
  by_cases hlow : k < 2
  · rw [getLsbD_packTag word i htag (by omega)]
    split
    next hin =>
      have heq : i = j := by omega
      subst heq
      simp [hlow]
    next hout =>
      rw [if_neg (by rintro rfl; omega), getLsbD_tagOf]
  · split
    next => simp [hlow, getLsbD_of_lt_four htag (Nat.le_of_not_lt hlow)]
    next => simp [hlow, getLsbD_tagOf]

/-- A tag word is its eight tags. -/
theorem tagWord_ext {a b : BitVec 16} (h : ∀ i, tagOf a i = tagOf b i) : a = b := by
  refine BitVec.eq_of_getLsbD_eq fun k hk => ?_
  have hbit := congrArg (·.getLsbD (k % 2)) (h ⟨k / 2, by omega⟩)
  have hlow : k % 2 < 2 := Nat.mod_lt _ (by decide)
  simp only [getLsbD_tagOf, hlow, decide_true, Bool.true_and] at hbit
  rwa [Nat.div_add_mod] at hbit

theorem tagOf_lt (word : BitVec 16) (i : Fin 8) : (tagOf word i).toNat < 4 := by
  rw [tagOf, BitVec.toNat_and]
  exact Nat.lt_succ_of_le Nat.and_le_right

/-! ## Backing memory -/

def tagWordOffset : Nat := 188
def topOffset : Nat := 211
def registersOffset : Nat := 224
def registerBytes : Nat := 16
def signExponentOffset : Nat := 8

/-- `payload::load`. -/
def loadRegister (m : Memory) (address : Nat) : ExtendedBits :=
  ⟨m.load 64 (address + registersOffset) 8, m.load 16 (address + (registersOffset + signExponentOffset)) 2⟩

/-- `payload::store`. -/
def storeRegister (m : Memory) (address : Nat) (bits : ExtendedBits) : Memory :=
  (m.write (address + registersOffset) (Memory.lowBytes 8 bits.significand)).write
    (address + (registersOffset + signExponentOffset)) (Memory.lowBytes 2 bits.signExponent)

def loadTagWord (m : Memory) : BitVec 16 := m.load 16 tagWordOffset 2

def storeTagWord (m : Memory) (word : BitVec 16) : Memory := m.write tagWordOffset (Memory.lowBytes 2 word)

/-- Where a physical register lies. -/
def registerAddress (i : Fin 8) : Nat := i.val * registerBytes

/-- The bytes of a register; the padding after them is not its own. -/
def InRegister (i : Fin 8) (x : Nat) : Prop :=
  registerAddress i + registersOffset ≤ x ∧ x < registerAddress i + registersOffset + 10

def InTagWord (x : Nat) : Prop := tagWordOffset ≤ x ∧ x < tagWordOffset + 2

section

variable {m w : Memory} {i j : Fin 8} {x : Nat} {bits : ExtendedBits}

theorem InRegister.apart (h : InRegister i x) (hne : i ≠ j) : ¬ InRegister j x := by
  unfold InRegister registerAddress registersOffset registerBytes at *
  omega

theorem InRegister.not_inTagWord (h : InRegister i x) : ¬ InTagWord x := by
  unfold InRegister InTagWord registersOffset tagWordOffset at *
  omega

theorem loadRegister_congr (h : ∀ x, InRegister i x → m x = w x) :
    loadRegister m (registerAddress i) = loadRegister w (registerAddress i) := by
  unfold loadRegister Memory.load
  rw [Memory.read_congr.mpr fun x hlo hhi => h x ⟨hlo, by omega⟩, Memory.read_congr.mpr fun x hlo hhi => h x ?_]
  unfold InRegister
  unfold registersOffset signExponentOffset at *
  omega

theorem loadTagWord_congr (h : ∀ x, InTagWord x → m x = w x) : loadTagWord m = loadTagWord w := by
  unfold loadTagWord Memory.load
  rw [Memory.read_congr.mpr fun x hlo hhi => h x ⟨hlo, hhi⟩]

theorem storeRegister_other (h : ¬ InRegister i x) : storeRegister m (registerAddress i) bits x = m x := by
  unfold InRegister at h
  unfold storeRegister
  rw [Memory.write_outside, Memory.write_outside]
  · rw [Memory.length_lowBytes]
    omega
  · rw [Memory.length_lowBytes]
    unfold registersOffset signExponentOffset at *
    omega

theorem loadRegister_storeRegister (m : Memory) (i : Fin 8) (bits : ExtendedBits) :
    loadRegister (storeRegister m (registerAddress i) bits) (registerAddress i) = bits := by
  have hlow : (storeRegister m (registerAddress i) bits).load 64 (registerAddress i + registersOffset) 8 =
      bits.significand := by
    refine Eq.trans ?_ (@Memory.load_lowBytes 64 8 m (registerAddress i + registersOffset) bits.significand rfl)
    refine congrArg (Memory.ofBytes 64) (Memory.read_congr.mpr fun x hlo hhi => Memory.write_outside ?_)
    unfold registersOffset signExponentOffset at *
    omega
  have hhigh := @Memory.load_lowBytes 16 2 (m.write (registerAddress i + registersOffset) (Memory.lowBytes 8 bits.significand))
    (registerAddress i + (registersOffset + signExponentOffset)) bits.signExponent rfl
  unfold loadRegister
  rw [hlow]
  exact congrArg (ExtendedBits.mk bits.significand) hhigh

/-- Storing back what is there changes nothing. -/
theorem storeRegister_self (m : Memory) (i : Fin 8) :
    storeRegister m (registerAddress i) (loadRegister m (registerAddress i)) = m := by
  unfold storeRegister loadRegister
  rw [@Memory.write_load 64 8 m _ rfl]
  exact @Memory.write_load 16 2 m _ rfl

theorem storeTagWord_self (m : Memory) : storeTagWord m (loadTagWord m) = m := @Memory.write_load 16 2 m _ rfl

theorem loadTagWord_storeTagWord (m : Memory) (word : BitVec 16) : loadTagWord (storeTagWord m word) = word :=
  Memory.load_lowBytes m tagWordOffset word rfl

theorem storeTagWord_other {word : BitVec 16} (h : ¬ InTagWord x) : storeTagWord m word x = m x := by
  refine Memory.write_outside ?_
  rw [Memory.length_lowBytes]
  exact h

end

/-! ## Files -/

/-- TOP's stored byte, the tags and the registers. -/
structure File where
  top : BitVec 8
  tagWord : BitVec 16
  registers : Fin 8 → ExtendedBits

/-- What the backing memory holds. -/
def File.of (m : Memory) : File := ⟨m topOffset, loadTagWord m, fun i => loadRegister m (registerAddress i)⟩

/-- The bytes of a file. -/
def InFile (x : Nat) : Prop := x = topOffset ∨ InTagWord x ∨ ∃ i, InRegister i x

namespace File

variable (file : File)

/-- The register that a stack position names. -/
def slot {w : Nat} (index : BitVec w) : Fin 8 := slotAt file.top + slotAt index

def tag (i : Fin 8) : BitVec 16 := tagOf file.tagWord i

def setTag (i : Fin 8) (tag : BitVec 16) : File := { file with tagWord := packTag file.tagWord i tag }

def setRegister (i : Fin 8) (value : ExtendedBits) : File :=
  { file with registers := fun j => if j = i then value else file.registers j }

/-- TOP moves and its byte holds the position alone. -/
def move (delta : Int) : File := { file with top := BitVec.ofNat 8 ((file.top.toNat + delta) % 8).toNat }

def write (i : Fin 8) (value : ExtendedBits) (tag : BitVec 16) : File := (file.setRegister i value).setTag i tag

/-- What a save stores for a register: an occupied one is classified by its value. -/
def savedTag (i : Fin 8) : BitVec 16 := if file.tag i = emptyTag then emptyTag else (file.registers i).tag

def savedTagWord : BitVec 16 := (List.finRange 8).foldl (fun word i => word ||| file.savedTag i <<< (2 * i.val)) 0

/-- The stack from its top. -/
def stackBits : List ExtendedBits := (List.finRange 8).map fun i => file.registers (slotAt file.top + i)

/-- MMX state: TOP is zero and every register has one tag. -/
def reset (tags : BitVec 16) : File := { file with top := 0, tagWord := tags }

/-- An environment image replaces TOP and the tags; a full image the registers too, in stack order. -/
def restore (top : BitVec 32) (tags : BitVec 16) (values : Option (Fin 8 → ExtendedBits)) : File :=
  let registers := fun i => values.elim (file.registers i) fun values => values (i - slotAt top)
  { top := (top &&& 7).setWidth 8
    tagWord := (List.finRange 8).foldl (fun word i =>
      packTag word i (if tagOf tags i = emptyTag then emptyTag else (registers i).tag)) 0
    registers := registers }

/-- One register of an image, which starts at a position. -/
def restoreRegister (start : Fin 8) (tags : BitVec 16) (values : Option (Fin 8 → ExtendedBits)) (index : Fin 8) : File :=
  let file := values.elim file fun values => file.setRegister (start + index) (values index)
  file.setTag (start + index)
    (if tagOf tags (start + index) = emptyTag then emptyTag else (file.registers (start + index)).tag)

end File

/-! ## Restored images -/

/-- The tag that an image leaves. -/
def restoredTagOf (tags : BitVec 16) (i : Fin 8) (value : ExtendedBits) : BitVec 16 :=
  if tagOf tags i = emptyTag then emptyTag else value.tag

theorem restoredTagOf_lt (tags : BitVec 16) (i : Fin 8) (value : ExtendedBits) : (restoredTagOf tags i value).toNat < 4 := by
  unfold restoredTagOf
  split
  next => decide
  next => exact value.tag_lt

/-- What an image leaves in a register. -/
def restoredValue (file : File) (start : Fin 8) (values : Option (Fin 8 → ExtendedBits)) (i : Fin 8) : ExtendedBits :=
  values.elim (file.registers i) fun values => values (i - start)

section

variable {start : Fin 8} {tags : BitVec 16} {values : Option (Fin 8 → ExtendedBits)} {file other : File}

/-- A file is its TOP, tags and registers. -/
theorem File.ext_tags (htop : file.top = other.top) (htags : ∀ i, file.tag i = other.tag i)
    (hregs : ∀ i, file.registers i = other.registers i) : file = other := by
  have htagWord : file.tagWord = other.tagWord := tagWord_ext htags
  obtain ⟨top, tagWord, registers⟩ := file
  cases htop
  cases htagWord
  cases funext hregs
  rfl

theorem restoreRegister_registers (file : File) (start : Fin 8) (tags : BitVec 16) (values : Option (Fin 8 → ExtendedBits))
    (index i : Fin 8) :
    (file.restoreRegister start tags values index).registers i =
      if i = start + index then restoredValue file start values i else file.registers i := by
  cases values with
  | none =>
    show file.registers i = if _ then file.registers i else _
    split <;> rfl
  | some values =>
    show (if i = start + index then values index else _) = if i = start + index then values (i - start) else _
    split
    next h =>
      have hidx : i - start = index := by omega
      rw [hidx]
    next => rfl

theorem restoreRegister_tag (file : File) (start : Fin 8) (tags : BitVec 16) (values : Option (Fin 8 → ExtendedBits))
    (index i : Fin 8) :
    (file.restoreRegister start tags values index).tag i =
      if i = start + index then restoredTagOf tags i (restoredValue file start values i) else file.tag i := by
  have hval := restoreRegister_registers file start tags values index (start + index)
  rw [if_pos rfl] at hval
  refine (tagOf_packTag _ (start + index) i (restoredTagOf_lt tags (start + index) _)).trans ?_
  by_cases hpl : i = start + index
  · rw [if_pos hpl.symm, if_pos hpl, hpl]
    exact congrArg (restoredTagOf tags (start + index)) hval
  · rw [if_neg (Ne.symm hpl), if_neg hpl]
    cases values <;> rfl

theorem restoredValue_restoreRegister (file : File) (index i : Fin 8) :
    restoredValue (file.restoreRegister start tags values index) start values i = restoredValue file start values i := by
  cases values <;> rfl

/-- Registers of an image, in any order; those restored already stay. -/
theorem foldl_restoreRegister (file : File) (indices : List (Fin 8)) :
    (indices.foldl (fun file => file.restoreRegister start tags values) file).top = file.top ∧
      (∀ i, file.registers i = restoredValue file start values i ∨ i - start ∈ indices →
        (indices.foldl (fun file => file.restoreRegister start tags values) file).registers i =
          restoredValue file start values i) ∧
      ∀ i, file.tag i = restoredTagOf tags i (restoredValue file start values i) ∨ i - start ∈ indices →
        (indices.foldl (fun file => file.restoreRegister start tags values) file).tag i =
          restoredTagOf tags i (restoredValue file start values i) := by
  induction indices generalizing file with
  | nil => exact ⟨rfl, fun i h => h.resolve_right List.not_mem_nil, fun i h => h.resolve_right List.not_mem_nil⟩
  | cons first rest ih =>
    obtain ⟨htop, hregs, htags⟩ := ih (file.restoreRegister start tags values first)
    have hfst : ∀ i : Fin 8, i - start = first → i = start + first := fun i h => by omega
    refine ⟨htop.trans (by cases values <;> rfl), fun i h => ?_, fun i h => ?_⟩
    · rw [List.foldl_cons, hregs i, restoredValue_restoreRegister]
      rw [restoreRegister_registers, restoredValue_restoreRegister]
      rcases h with h | h
      · exact .inl (ite_eq_left_iff.mpr fun _ => h)
      · exact (List.mem_cons.mp h).imp_left fun h => if_pos (hfst i h)
    · rw [List.foldl_cons, htags i, restoredValue_restoreRegister]
      rw [restoreRegister_tag, restoredValue_restoreRegister]
      rcases h with h | h
      · exact .inl (ite_eq_left_iff.mpr fun _ => h)
      · exact (List.mem_cons.mp h).imp_left fun h => if_pos (hfst i h)

theorem tagOf_foldl_packTag {f : Fin 8 → BitVec 16} (hf : ∀ i, (f i).toNat < 4) {word : BitVec 16} {indices : List (Fin 8)}
    {i : Fin 8} (h : tagOf word i = f i ∨ i ∈ indices) :
    tagOf (indices.foldl (fun word i => packTag word i (f i)) word) i = f i := by
  induction indices generalizing word with
  | nil => exact h.resolve_right List.not_mem_nil
  | cons first rest ih =>
    refine ih ?_
    rw [tagOf_packTag _ _ _ (hf first)]
    by_cases heq : first = i
    · rw [heq, if_pos rfl]
      exact .inl rfl
    · rw [if_neg heq]
      exact h.imp_right fun h => (List.mem_cons.mp h).resolve_left (Ne.symm heq)

/-- Restoring the registers one by one restores the image. -/
theorem foldl_restoreRegister_eq (old : File) (top : BitVec 32) (htop : file.top = (top &&& 7).setWidth 8)
    (hval : ∀ i, restoredValue file start values i = restoredValue old (slotAt top) values i) :
    (List.finRange 8).foldl (fun file => file.restoreRegister start tags values) file = old.restore top tags values := by
  obtain ⟨htop', hregs, htags⟩ := @foldl_restoreRegister start tags values file (List.finRange 8)
  refine File.ext_tags (htop'.trans htop) (fun i => ?_) fun i => ?_
  · rw [htags i (.inr (List.mem_finRange _)), hval]
    have hpacked := tagOf_foldl_packTag (fun i => restoredTagOf_lt tags i (restoredValue old (slotAt top) values i))
      (show tagOf 0 i = _ ∨ i ∈ List.finRange 8 from .inr (List.mem_finRange i))
    exact hpacked.symm
  · rw [hregs i (.inr (List.mem_finRange _)), hval]
    rfl

end

end Relocade.X87
