import Mathlib.Data.List.Basic

/-!
# `Memory` — flat byte memories

A memory gives a byte to every address. It is read and written in blocks of bytes. Writing what is already there
changes nothing, and a list of writes that all agree with a memory `w` brings the memory to `w` on every byte they
touch (`writeAll_agree`), whatever their order and overlap. Words are blocks in little-endian order (`lowBytes`,
`ofBytes`).
-/

abbrev Memory := Nat → BitVec 8

namespace Memory

variable {m w : Memory} {address : Nat} {bytes : List (BitVec 8)}

/-- The block of `count` bytes at an address. -/
def read (m : Memory) (address count : Nat) : List (BitVec 8) := (List.range count).map fun i => m (address + i)

/-- The memory after a block is written. -/
def write (m : Memory) (address : Nat) (bytes : List (BitVec 8)) : Memory := fun x =>
  if address ≤ x ∧ x < address + bytes.length then bytes.getD (x - address) 0 else m x

@[simp] theorem length_read (count : Nat) : (m.read address count).length = count := by simp [read]

theorem read_congr {count : Nat} : m.read address count = w.read address count ↔
    ∀ x, address ≤ x → x < address + count → m x = w x := by
  constructor
  · intro h x hlo hhi
    obtain ⟨i, rfl⟩ := Nat.exists_eq_add_of_le hlo
    have := congrArg (·[i]?) h
    simpa [read, show i < count by omega] using this
  · intro h
    refine List.map_congr_left fun i hi => ?_
    exact h _ (Nat.le_add_right _ _) (by have := List.mem_range.mp hi; omega)

theorem write_outside {x : Nat} (h : ¬ (address ≤ x ∧ x < address + bytes.length)) : m.write address bytes x = m x :=
  if_neg h

/-- A write whose bytes are those of `w` brings the memory to `w` on the block. -/
theorem write_inside {x : Nat} (hw : w.read address bytes.length = bytes) (hlo : address ≤ x)
    (hhi : x < address + bytes.length) : m.write address bytes x = w x := by
  obtain ⟨i, rfl⟩ := Nat.exists_eq_add_of_le hlo
  rw [write, if_pos ⟨hlo, hhi⟩, Nat.add_sub_cancel_left, ← hw]
  simp [read, List.getD_eq_getElem?_getD, show i < bytes.length by omega]

theorem write_eq_self (h : m.read address bytes.length = bytes) : m.write address bytes = m := by
  funext x
  by_cases hx : address ≤ x ∧ x < address + bytes.length
  · exact write_inside h hx.1 hx.2
  · exact write_outside hx

/-- Memories that agree on a byte agree on it after the same write. -/
theorem write_congr {x : Nat} (h : ¬ (address ≤ x ∧ x < address + bytes.length) → m x = w x) :
    m.write address bytes x = w.write address bytes x := by
  by_cases hx : address ≤ x ∧ x < address + bytes.length
  · rw [write, write, if_pos hx, if_pos hx]
  · rw [write_outside hx, write_outside hx, h hx]

/-- What was written is read back. -/
theorem read_write (m : Memory) (address : Nat) (bytes : List (BitVec 8)) :
    (m.write address bytes).read address bytes.length = bytes := by
  refine List.ext_getElem (by simp) fun i hi _ => ?_
  have hi' : i < bytes.length := by simpa using hi
  simp [read, write, hi']

/-- The memory that starts with a list of bytes. -/
def ofList (bytes : List (BitVec 8)) : Memory := fun x => bytes.getD x 0

theorem read_ofList (bytes : List (BitVec 8)) : (ofList bytes).read 0 bytes.length = bytes := by
  refine List.ext_getElem (by simp) fun i _ hi => ?_
  simp [read, ofList, hi]

@[simp] theorem write_nil (m : Memory) (address : Nat) : m.write address [] = m := by
  funext x
  exact write_outside (by rw [List.length_nil]; omega)

/-- A block may be written from its first byte on. -/
theorem write_cons (m : Memory) (address : Nat) (byte : BitVec 8) (bytes : List (BitVec 8)) :
    (m.write address [byte]).write (address + 1) bytes = m.write address (byte :: bytes) := by
  funext x
  simp only [write, List.length_cons, List.length_nil]
  by_cases hx : x = address
  · subst hx
    rw [if_neg (by omega), if_pos (by omega), if_pos (by omega), Nat.sub_self]
    rfl
  · by_cases hin : address + 1 ≤ x ∧ x < address + 1 + bytes.length
    · obtain ⟨i, rfl⟩ := Nat.exists_eq_add_of_le hin.1
      rw [if_pos hin, if_pos (by omega), Nat.add_sub_cancel_left, show address + 1 + i - address = i + 1 by omega,
        List.getD_cons_succ]
    · rw [if_neg hin, if_neg (by omega), if_neg (by omega)]

/-- A block may be written up to its last byte first. -/
theorem write_concat (m : Memory) (address : Nat) (bytes : List (BitVec 8)) (byte : BitVec 8) :
    (m.write address bytes).write (address + bytes.length) [byte] = m.write address (bytes ++ [byte]) := by
  induction bytes generalizing m address with
  | nil =>
    rw [write_nil]
    rfl
  | cons first bytes ih =>
    rw [← write_cons m address first bytes, List.length_cons, Nat.add_comm bytes.length 1, ← Nat.add_assoc, ih,
      write_cons, List.cons_append]

/-- Consecutive bytes written one by one are a block. -/
theorem foldl_write (m : Memory) (address : Nat) (f : Nat → BitVec 8) (count : Nat) :
    (List.range count).foldl (fun m i => m.write (address + i) [f i]) m =
      m.write address ((List.range count).map f) := by
  induction count with
  | zero => exact (write_nil m address).symm
  | succ count ih =>
    rw [List.range_succ, List.foldl_append, ih, List.map_append]
    have hlast := write_concat m address ((List.range count).map f) (f count)
    rw [List.length_map, List.length_range] at hlast
    exact hlast

/-- The memory after a list of writes, first to last. -/
def writeAll (m : Memory) (writes : List (Nat × List (BitVec 8))) : Memory :=
  writes.foldl (fun m write => m.write write.1 write.2) m

theorem writeAll_agree {writes : List (Nat × List (BitVec 8))}
    (h : ∀ write ∈ writes, w.read write.1 write.2.length = write.2) (x : Nat) :
    (m x = w x ∨ ∃ write ∈ writes, write.1 ≤ x ∧ x < write.1 + write.2.length) → m.writeAll writes x = w x := by
  induction writes generalizing m with
  | nil =>
    rintro (hx | ⟨_, hmem, -⟩)
    · exact hx
    · exact absurd hmem List.not_mem_nil
  | cons write writes ih =>
    intro hx
    refine ih (m := m.write write.1 write.2) (fun v hv => h v (List.mem_cons_of_mem _ hv)) ?_
    by_cases hin : write.1 ≤ x ∧ x < write.1 + write.2.length
    · exact Or.inl (write_inside (h write List.mem_cons_self) hin.1 hin.2)
    · rw [write_outside hin]
      rcases hx with hx | ⟨v, hv, hr⟩
      · exact Or.inl hx
      · rcases List.mem_cons.mp hv with rfl | hv
        · exact absurd hr hin
        · exact Or.inr ⟨v, hv, hr⟩

/-! ## Consecutive blocks -/

theorem read_add (m : Memory) (address a b : Nat) :
    m.read address (a + b) = m.read address a ++ m.read (address + a) b := by
  simp [read, List.range_add, Nat.add_assoc]

theorem read_succ (m : Memory) (address count : Nat) :
    m.read address (count + 1) = m address :: m.read (address + 1) count := by
  rw [Nat.add_comm, read_add]
  rfl

/-- A block made of equal pieces is read piece by piece. -/
theorem read_flatMap {α : Type} {f : α → List (BitVec 8)} {size : Nat} (hf : ∀ x, (f x).length = size) {xs : List α}
    (h : m.read address (size * xs.length) = xs.flatMap f) {i : Nat} (hi : i < xs.length) :
    m.read (address + size * i) size = f xs[i] := by
  induction xs generalizing address i with
  | nil => cases hi
  | cons x xs ih =>
    rw [List.length_cons, Nat.mul_add_one, Nat.add_comm, read_add, List.flatMap_cons] at h
    obtain ⟨hx, hxs⟩ := List.append_inj h (by rw [length_read, hf])
    cases i with
    | zero => exact hx
    | succ i =>
      rw [List.getElem_cons_succ, ← ih hxs (by simpa using hi), Nat.mul_add_one, Nat.add_comm (size * i) size,
        Nat.add_assoc]

/-! ## Words -/

section

variable {n : Nat}

/-- The low bytes of a word, least significant first. -/
def lowBytes (count : Nat) (value : BitVec n) : List (BitVec 8) :=
  (List.range count).map fun i => (value >>> (8 * i)).setWidth 8

/-- The word of a list of bytes, least significant first. -/
def ofBytes (n : Nat) : List (BitVec 8) → BitVec n
  | [] => 0
  | byte :: bytes => byte.setWidth n ||| ofBytes n bytes <<< 8

/-- The word at an address. -/
def load (m : Memory) (n address count : Nat) : BitVec n := ofBytes n (m.read address count)

@[simp] theorem length_lowBytes (count : Nat) (value : BitVec n) : (lowBytes count value).length = count := by
  simp [lowBytes]

theorem lowBytes_add (a b : Nat) (value : BitVec n) :
    lowBytes (a + b) value = lowBytes a value ++ lowBytes b (value >>> (8 * a)) := by
  simp [lowBytes, List.range_add, BitVec.shiftRight_add, Nat.mul_add]

theorem lowBytes_one (value : BitVec n) : lowBytes 1 value = [value.setWidth 8] := by
  simp [lowBytes]

theorem ofBytes_append (xs ys : List (BitVec 8)) :
    ofBytes n (xs ++ ys) = ofBytes n xs ||| ofBytes n ys <<< (8 * xs.length) := by
  induction xs with
  | nil => simp [ofBytes]
  | cons x xs ih =>
    rw [List.cons_append, ofBytes, ofBytes, ih, BitVec.shiftLeft_or_distrib, ← BitVec.shiftLeft_add, List.length_cons,
      Nat.mul_add_one, BitVec.or_assoc]

/-- A word gathered byte by byte. -/
theorem foldl_ofBytes (f : Nat → BitVec 8) (count : Nat) :
    (List.range count).foldl (fun value i => value ||| (f i).setWidth n <<< (i * 8)) 0 =
      ofBytes n ((List.range count).map f) := by
  induction count with
  | zero => rfl
  | succ count ih =>
    rw [List.range_succ, List.foldl_append, ih, List.map_append, ofBytes_append]
    simp [ofBytes, Nat.mul_comm]

theorem getLsbD_ofBytes (bytes : List (BitVec 8)) (i : Nat) :
    (ofBytes n bytes).getLsbD i = (decide (i < n) && (bytes.getD (i / 8) 0).getLsbD (i % 8)) := by
  induction bytes generalizing i with
  | nil => simp [ofBytes]
  | cons byte bytes ih =>
    rw [ofBytes, BitVec.getLsbD_or, BitVec.getLsbD_setWidth, BitVec.getLsbD_shiftLeft, ih]
    rcases Nat.lt_or_ge i 8 with h | h
    · simp [h, Nat.div_eq_of_lt h, Nat.mod_eq_of_lt h]
    · obtain ⟨j, rfl⟩ := Nat.exists_eq_add_of_le h
      have hdiv : (8 + j) / 8 = j / 8 + 1 := by omega
      have hmod : (8 + j) % 8 = j % 8 := by omega
      rw [hdiv, hmod, BitVec.getLsbD_of_ge _ _ h]
      by_cases hn : 8 + j < n
      · simp [hn, show j < n by omega]
      · simp [hn]

variable {count : Nat}

theorem getLsbD_lowBytes {value : BitVec n} {i : Nat} (hi : i < count) {j : Nat} :
    ((lowBytes count value).getD i 0).getLsbD j = (decide (j < 8) && value.getLsbD (8 * i + j)) := by
  simp [lowBytes, List.getD_eq_getElem?_getD, hi]

/-- The word of the low bytes keeps the low bits. -/
theorem getLsbD_ofBytes_lowBytes (count : Nat) (value : BitVec n) (k i : Nat) :
    (ofBytes k (lowBytes count value)).getLsbD i = (decide (i < k) && decide (i < 8 * count) && value.getLsbD i) := by
  rw [getLsbD_ofBytes]
  by_cases h : i / 8 < count
  · have hmod : 8 * (i / 8) + i % 8 = i := Nat.div_add_mod i 8
    rw [getLsbD_lowBytes h, hmod]
    simp [Nat.mod_lt i (by decide : 8 > 0), show i < 8 * count by omega]
  · rw [List.getD_eq_getElem?_getD, List.getElem?_eq_none (by rw [length_lowBytes]; omega)]
    simp [show ¬ i < 8 * count by omega]

theorem lowBytes_setWidth {count k : Nat} (h : 8 * count ≤ k) (value : BitVec n) :
    lowBytes count (value.setWidth k) = lowBytes count value := by
  refine List.map_congr_left fun i hi => BitVec.eq_of_getLsbD_eq fun j hj => ?_
  have := List.mem_range.mp hi
  simp only [BitVec.getLsbD_setWidth, BitVec.getLsbD_ushiftRight, show 8 * i + j < k by omega, decide_true, Bool.true_and]

/-- A word of bytes that fit is the same at every width they fit. -/
theorem setWidth_ofBytes {bytes : List (BitVec 8)} (h : 8 * bytes.length ≤ n) (k : Nat) :
    (ofBytes n bytes).setWidth k = ofBytes k bytes := by
  refine BitVec.eq_of_getLsbD_eq fun i hi => ?_
  rw [BitVec.getLsbD_setWidth, getLsbD_ofBytes, getLsbD_ofBytes]
  by_cases hin : i / 8 < bytes.length
  · simp [show i < n by omega]
  · rw [List.getD_eq_getElem?_getD, List.getElem?_eq_none (Nat.not_lt.mp hin)]
    simp

/-- The bytes of a word of bytes. -/
theorem lowBytes_ofBytes {bytes : List (BitVec 8)} (h : 8 * bytes.length ≤ n) :
    lowBytes bytes.length (ofBytes n bytes) = bytes := by
  refine List.ext_getElem (by simp) fun i hi hi' => BitVec.eq_of_getLsbD_eq fun j hj => ?_
  simp only [lowBytes, List.getElem_map, List.getElem_range, BitVec.getLsbD_setWidth, BitVec.getLsbD_ushiftRight]
  rw [getLsbD_ofBytes, Nat.mul_add_div (by decide), Nat.div_eq_of_lt hj, Nat.mul_add_mod, Nat.mod_eq_of_lt hj]
  simp [hj, List.getD_eq_getElem?_getD, hi', show 8 * i + j < n by omega]

/-- A word is that of its bytes. -/
theorem ofBytes_lowBytes (value : BitVec n) (hn : n = 8 * count) : ofBytes n (lowBytes count value) = value := by
  refine BitVec.eq_of_getLsbD_eq fun i hi => ?_
  rw [getLsbD_ofBytes_lowBytes]
  simp [hi, ← hn]

theorem load_lowBytes (m : Memory) (address : Nat) (value : BitVec n) (hn : n = 8 * count) :
    (m.write address (lowBytes count value)).load n address count = value := by
  have hread := read_write m address (lowBytes count value)
  rw [length_lowBytes] at hread
  rw [load, hread, ofBytes_lowBytes value hn]

theorem write_load (m : Memory) (address : Nat) (hn : n = 8 * count) :
    m.write address (lowBytes count (m.load n address count)) = m := by
  refine write_eq_self ?_
  have hbytes := @lowBytes_ofBytes n (m.read address count) (by rw [length_read]; exact Nat.le_of_eq hn.symm)
  rw [length_read] at hbytes
  rw [length_lowBytes]
  exact hbytes.symm

end

end Memory
