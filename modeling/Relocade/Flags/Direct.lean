import Relocade.Flags.Tracker
import Relocade.Ssa.WriteBack

/-!
# `Flags.Direct` — control and system flags as retained bytes

The direct flags are single bytes of the CPU state, so their fields never overlap: reading and defining them stores
nothing, and the memory of a path stays as it was until publication.
-/

namespace Relocade.Flags

open Ssa (StateFields Definition LocationKey Coherent Wellformed)

/-- The direct bytes follow the status record. -/
def directStart : Nat := 18

theorem directStart_le {flag : Flag} {loc : Nat} (h : directLocation flag = some loc) : directStart ≤ loc := by
  cases flag <;> cases h <;> decide

section

variable {N : Type} {s : StateFields (Val N (BitVec 8))} {offset : Nat}

/-- Every retained field is a direct byte. -/
def Bytes (s : StateFields (Val N (BitVec 8))) : Prop :=
  ∀ entry ∈ s.definitions, entry.location.bytes = 1 ∧ entry.type = .byte ∧ directStart ≤ entry.location.offset

/-- Apart from its own entry, no retained byte overlaps a byte. -/
theorem Bytes.apart (h : Bytes s) (hfind : s.definitions.find? (·.location = .of offset .byte) = none) :
    ∀ entry ∈ s.definitions, (LocationKey.of offset .byte).span.overlaps entry.span = false := by
  intro entry hent
  have hbytes := (h entry hent).1
  have hne := List.find?_eq_none.mp hfind entry hent
  rw [decide_eq_true_iff] at hne
  by_contra hoverlap
  rw [Bool.not_eq_false, Ssa.Span.overlaps, decide_eq_true_iff] at hoverlap
  dsimp only [LocationKey.span, Definition.span, Ssa.Span.new, LocationKey.of, MemoryType.bytes] at hoverlap
  rw [hbytes] at hoverlap
  have hoff : entry.location.offset = offset := by omega
  exact hne (LocationKey.mk.injEq .. ▸ ⟨hoff, hbytes⟩)

theorem Bytes.push (h : Bytes s) (hoff : directStart ≤ offset) (value : Ssa.TrackedValue (Val N (BitVec 8)))
    (first : Option Nat) : Bytes (s.push ⟨.of offset .byte, .byte, value, first⟩) := by
  intro entry hent
  rcases List.mem_append.mp hent with hold | hnew
  · exact h entry hold
  · rw [List.mem_singleton.mp hnew]
    exact ⟨rfl, rfl, hoff⟩

variable {naming : Naming N} {m w : Memory}

/-- The retained bytes are those of `w`, where the memory is still `m`. -/
structure Direct (naming : Naming N) (s : StateFields (Val N (BitVec 8))) (m w : Memory) : Prop where
  base : s.base = ⟨naming.base, 0⟩
  wellformed : Wellformed s
  bytes : Bytes s
  coherent : Coherent byteValue s m w

theorem Direct.new : Direct naming (.withBase ⟨naming.base, 0⟩) m m :=
  ⟨rfl, .withBase _, fun _ h => absurd h List.not_mem_nil, .withBase _⟩

/-- A fixed field lies at its offset. -/
theorem runAddress_byteLocation (name : N) (offset : Nat) :
    (byteLocation offset).runAddress byteValue (⟨name, 0⟩ : Val N (BitVec 8)) = offset := by
  show (((0 : BitVec 8).setWidth 128).setWidth 32).toNat + offset = offset
  rw [show (((0 : BitVec 8).setWidth 128).setWidth 32).toNat = 0 from rfl, Nat.zero_add]

theorem lowBytes_byteValue (value : Val N (BitVec 8)) : Memory.lowBytes 1 (byteValue value) = [value.value] := by
  rw [Memory.lowBytes_one, byteValue, BitVec.setWidth_setWidth_of_le _ (by decide), BitVec.setWidth_eq]

/-- Reading a byte loads it at most. -/
theorem Bytes.read (h : Bytes s) (hoff : directStart ≤ offset) (loaded : Val N (BitVec 8)) {value : Val N (BitVec 8)}
    {code : List (Ssa.Instr (Val N (BitVec 8)))} {s' : StateFields (Val N (BitVec 8))}
    (hread : s.read (byteLocation offset) loaded = some (value, code, s')) :
    Bytes s' ∧ (code = [] ∨ code = [.load .byte (.base s.base) offset loaded]) := by
  unfold StateFields.read byteLocation at hread
  dsimp only at hread
  split at hread
  next entry hfind =>
    split at hread
    next =>
      cases hread
      exact ⟨h, .inl rfl⟩
    next => exact nomatch hread
  next hfind =>
    rw [Ssa.flush_apart (h.apart hfind), Ssa.retain_apart (h.apart hfind)] at hread
    cases hread
    exact ⟨h.push hoff _ _, .inr rfl⟩

theorem Bytes.redefine [DecidableEq N] (h : Bytes s) {entry : Definition (Val N (BitVec 8))} (hent : entry ∈ s.definitions)
    (value : Val N (BitVec 8)) : Bytes (s.redefine entry.location entry value) := by
  obtain ⟨entry', hdefs, hloc, htype, -⟩ := Ssa.redefine_definitions (s := s) entry value
  intro e he
  rw [hdefs] at he
  obtain ⟨old, hold, rfl⟩ := List.mem_map.mp he
  split
  next =>
    rw [hloc, htype]
    exact h entry hent
  next => exact h old hold

/-- Defining a byte emits nothing. -/
theorem Bytes.define [DecidableEq N] (h : Bytes s) (hoff : directStart ≤ offset) (value : Val N (BitVec 8))
    {code : List (Ssa.Instr (Val N (BitVec 8)))}
    {s' : StateFields (Val N (BitVec 8))} (hdefn : s.define (byteLocation offset) value = some (code, s')) :
    Bytes s' ∧ code = [] := by
  unfold StateFields.define byteLocation at hdefn
  dsimp only at hdefn
  split at hdefn
  next entry hfind =>
    obtain ⟨hent, hloc⟩ := Ssa.find_spec hfind
    split at hdefn
    next =>
      cases hdefn
      refine ⟨?_, rfl⟩
      rw [← hloc]
      exact h.redefine hent value
    next => exact nomatch hdefn
  next hfind =>
    rw [Ssa.flush_apart (h.apart hfind), Ssa.retain_apart (h.apart hfind)] at hdefn
    cases hdefn
    exact ⟨h.push hoff _ _, rfl⟩

/-! ## Retained bytes against a written memory -/

/-- A retained byte is read without changing the memory. -/
theorem readDirect_spec (h : Direct naming s m w) (hoff : directStart ≤ offset) :
    ∃ value s', readDirect naming m s offset = some (value, s', m) ∧ value.value = w offset ∧ Direct naming s' m w := by
  obtain ⟨value, code, s', hread, hbase, hwf, hspec⟩ :=
    Ssa.read_spec h.wellformed (byteLocation offset) ⟨naming.loaded offset, m offset⟩
  obtain ⟨hbytes, hcode⟩ := h.bytes.read hoff _ hread
  have haddr := runAddress_byteLocation naming.base offset
  have hexecute : Ssa.execute byteValue m code = m := by
    rcases hcode with rfl | rfl <;> rfl
  have hloads : Ssa.Loads byteValue m code := by
    rcases hcode with rfl | rfl
    · trivial
    · refine ⟨?_, trivial⟩
      rw [h.base]
      refine (lowBytes_byteValue _).trans ?_
      show _ = m.read ((byteLocation offset).runAddress byteValue (⟨naming.base, 0⟩ : Val N (BitVec 8))) 1
      rw [haddr]
      rfl
  obtain ⟨hcoh, hval⟩ := hspec h.coherent trivial hloads
  rw [h.base, haddr] at hval
  rw [hexecute] at hcoh
  have hbyte : [value.value] = [w offset] := (lowBytes_byteValue value).symm.trans hval
  refine ⟨value, s', ?_, List.head_eq_of_cons_eq hbyte, hbase.trans h.base, hwf, hbytes, hcoh⟩
  simp only [readDirect, hread, hexecute, Option.bind_eq_bind, Option.bind_some]
  rfl

/-- Defining a byte writes it to `w`. -/
theorem defineDirect_spec [DecidableEq N] (h : Direct naming s m w) (hoff : directStart ≤ offset) (value : Val N (BitVec 8)) :
    ∃ s', defineDirect m s offset value = some (s', m) ∧ Direct naming s' m (storeByte w offset value.value) := by
  obtain ⟨code, s', hdefn, hbase, hwf, hspec⟩ := Ssa.define_spec h.wellformed (byteLocation offset) value
  obtain ⟨hbytes, rfl⟩ := h.bytes.define hoff value hdefn
  have hcoh := hspec h.coherent trivial
  rw [h.base, runAddress_byteLocation] at hcoh
  refine ⟨s', ?_, hbase.trans h.base, hwf, hbytes, ?_⟩
  · simp only [defineDirect, hdefn, Option.bind_eq_bind, Option.bind_some]
    rfl
  · rw [storeByte, ← lowBytes_byteValue value]
    exact hcoh

/-- Publication brings the direct bytes to `w` and leaves the status record. -/
theorem publishDirect_spec (h : Direct naming s m w) {published : Memory}
    (hpublished : ∀ x, directStart ≤ x → published x = m x) (x : Nat) :
    Ssa.execute byteValue published s.publish x = if x < directStart then published x else w x := by
  have hcoh : Coherent byteValue s published (fun x => if x < directStart then published x else w x) := by
    refine ⟨fun entry hent => ?_, fun x hx => ?_⟩
    · refine (Memory.read_congr.mpr fun x hlo _ => if_neg ?_).trans (h.coherent.current entry hent)
      have hoff := (h.bytes entry hent).2.2
      have : entry.location.offset ≤ x := by
        have hbase : (Ssa.Pointer.base s.base).address byteValue = 0 := by
          rw [h.base]
          rfl
        rw [Definition.address, hbase] at hlo
        omega
      omega
    · split
      next => rfl
      next hhi => rw [hpublished x (by omega), h.coherent.backed x hx]
  rw [Ssa.publish_spec hcoh]

end

end Relocade.Flags
