import Mathlib.Logic.Function.Basic
import Relocade.Flags.Change
import Relocade.Ssa.WriteBack
import Relocade.Total

/-!
# `X87.Fields` — fields of the CPU state that lie apart

Control, status and metadata are kept in fields that never overlap. Reading and defining them stores nothing, so the
memory of a path stays as it was until publication.
-/

namespace Relocade.X87

open Flags (Val)
open Ssa (StateFields Definition LocationKey Coherent Wellformed)

/-! ## Values -/

/-- A value of a field, at the width of the fields that hold it. -/
def wordValue {N : Type} (value : Val N (BitVec 32)) : BitVec 128 := value.value.setWidth 128

/-- The value has no bits beyond its bytes. -/
def Narrow (count : Nat) (value : BitVec 32) : Prop := Memory.ofBytes 32 (Memory.lowBytes count value) = value

theorem narrow_setWidth {n count : Nat} (value : BitVec n) (hn : n ≤ 8 * count) : Narrow count (value.setWidth 32) := by
  refine BitVec.eq_of_getLsbD_eq fun i hi => ?_
  rw [Memory.getLsbD_ofBytes_lowBytes, BitVec.getLsbD_setWidth]
  by_cases hin : i < 8 * count
  · simp [hi, hin]
  · simp [hi, hin, BitVec.getLsbD_of_ge value i (by omega)]

theorem lowBytes_wordValue {N : Type} {count : Nat} (hcnt : count ≤ 4) (value : Val N (BitVec 32)) :
    Memory.lowBytes count (wordValue value) = Memory.lowBytes count value.value :=
  Memory.lowBytes_setWidth (by omega) value.value

/-! ## Placement -/

/-- Where fields lie in the CPU state. -/
structure Placement (F : Type) where
  offset : F → Nat
  type : F → MemoryType
  apart : ∀ f g, f ≠ g → offset f + (type f).bytes ≤ offset g ∨ offset g + (type g).bytes ≤ offset f
  short : ∀ f, (type f).bytes ≤ 4

namespace Placement

variable {F N : Type} (p : Placement F)

def location (f : F) : Ssa.Location (Val N (BitVec 32)) := ⟨p.type f, .fixed (p.offset f)⟩

def key (f : F) : LocationKey := .of (p.offset f) (p.type f)

/-- What a memory holds in a field. -/
def load (m : Memory) (f : F) : BitVec 32 := m.load 32 (p.offset f) (p.type f).bytes

/-- The bytes of the fields. -/
def InField (x : Nat) : Prop := ∃ f, p.offset f ≤ x ∧ x < p.offset f + (p.type f).bytes

variable {p} {m w : Memory}

theorem load_congr {f : F} (h : ∀ x, p.offset f ≤ x → x < p.offset f + (p.type f).bytes → m x = w x) :
    p.load m f = p.load w f :=
  congrArg (Memory.ofBytes 32) (Memory.read_congr.mpr h)

variable (m : Memory)

theorem narrow_load (f : F) : Narrow (p.type f).bytes (p.load m f) := by
  have hbytes := @Memory.lowBytes_ofBytes 32 (m.read (p.offset f) (p.type f).bytes) (by
    have := p.short f
    rw [Memory.length_read]
    omega)
  rw [Memory.length_read] at hbytes
  exact congrArg (Memory.ofBytes 32) hbytes

theorem lowBytes_load (f : F) :
    Memory.lowBytes (p.type f).bytes (p.load m f) = m.read (p.offset f) (p.type f).bytes := by
  have hbytes := @Memory.lowBytes_ofBytes 32 (m.read (p.offset f) (p.type f).bytes) (by
    have := p.short f
    rw [Memory.length_read]
    omega)
  rw [Memory.length_read] at hbytes
  exact hbytes

/-- A field that is written holds what was written. -/
theorem load_write (f : F) {value : BitVec 32} (h : Narrow (p.type f).bytes value) :
    p.load (m.write (p.offset f) (Memory.lowBytes (p.type f).bytes value)) f = value := by
  have hread := Memory.read_write m (p.offset f) (Memory.lowBytes (p.type f).bytes value)
  rw [Memory.length_lowBytes] at hread
  exact (congrArg (Memory.ofBytes 32) hread).trans h

/-- The other fields are left. -/
theorem load_write_other {f g : F} (hne : g ≠ f) (value : BitVec 32) :
    p.load (m.write (p.offset f) (Memory.lowBytes (p.type f).bytes value)) g = p.load m g := by
  refine load_congr fun x hlo hhi => Memory.write_outside ?_
  rw [Memory.length_lowBytes]
  rcases p.apart g f hne with h | h
  · omega
  · omega

end Placement

/-! ## The code -/

/-- Construction over retained fields and the memory. -/
abbrev FieldBuild (N : Type) := StateT (StateFields (Val N (BitVec 32)) × Memory) Option

section

variable {F N : Type} [DecidableEq N] (naming : Flags.Naming N) (p : Placement F)

def newFields : StateFields (Val N (BitVec 32)) := .withBase ⟨naming.base, 0⟩

/-- `fields.read`; a load names its result by its place. -/
def readField (f : F) : FieldBuild N (Val N (BitVec 32)) := fun (s, m) => do
  let (value, code, s) ← s.read (p.location f) ⟨naming.loaded (p.offset f), p.load m f⟩
  return (value, s, Ssa.execute wordValue m code)

/-- `fields.define`. -/
def defineField (f : F) (value : Val N (BitVec 32)) : FieldBuild N Unit := fun (s, m) => do
  let (code, s) ← s.define (p.location f) value
  return ((), s, Ssa.execute wordValue m code)

end

/-! ## What retained fields stand for -/

section

variable {F N : Type} {naming : Flags.Naming N} {p : Placement F} {s : StateFields (Val N (BitVec 32))}
variable {m w : Memory} {values : F → BitVec 32} {f : F}

/-- Every retained entry is a field with a value of its width. -/
def Placed (p : Placement F) (s : StateFields (Val N (BitVec 32))) : Prop :=
  ∀ entry ∈ s.definitions,
    ∃ f, entry.location = p.key f ∧ entry.type = p.type f ∧ Narrow (p.type f).bytes entry.value.value.value

/-- The retained fields are those of a memory whose fields have these values, where the memory is still `m`. -/
structure Retains (naming : Flags.Naming N) (p : Placement F) (s : StateFields (Val N (BitVec 32))) (m : Memory)
    (values : F → BitVec 32) : Prop where
  base : s.base = ⟨naming.base, 0⟩
  wellformed : Wellformed s
  placed : Placed p s
  coherent : ∃ w, Coherent wordValue s m w ∧ ∀ f, p.load w f = values f

theorem Retains.new (naming : Flags.Naming N) (p : Placement F) (m : Memory) :
    Retains naming p (newFields naming) m (p.load m) :=
  ⟨rfl, .withBase _, fun _ h => absurd h List.not_mem_nil, m, .withBase _, fun _ => rfl⟩

/-- A fixed field lies at its offset. -/
theorem runAddress_location (name : N) (f : F) :
    (p.location f).runAddress wordValue (⟨name, 0⟩ : Val N (BitVec 32)) = p.offset f := by
  show (((0 : BitVec 32).setWidth 128).setWidth 32).toNat + p.offset f = p.offset f
  rw [show (((0 : BitVec 32).setWidth 128).setWidth 32).toNat = 0 from rfl, Nat.zero_add]

theorem address_zero (hbase : s.base = ⟨naming.base, 0⟩) (entry : Definition (Val N (BitVec 32))) :
    entry.address wordValue s.base = entry.location.offset := by
  have hpointer : (Ssa.Pointer.base s.base).address wordValue = 0 := by
    rw [hbase]
    rfl
  rw [Definition.address, hpointer, Nat.zero_add]

/-- Apart from its own entry, no retained field overlaps a field. -/
theorem Placed.apart (h : Placed p s) (hfind : s.definitions.find? (·.location = p.key f) = none) :
    ∀ entry ∈ s.definitions, (LocationKey.of (p.offset f) (p.type f)).span.overlaps entry.span = false := by
  intro entry hent
  obtain ⟨g, hloc, -, -⟩ := h entry hent
  have hne := List.find?_eq_none.mp hfind entry hent
  rw [decide_eq_true_iff, hloc] at hne
  have hfld : f ≠ g := fun heq => hne (heq ▸ rfl)
  rw [Definition.span, hloc, Ssa.Span.overlaps, decide_eq_false_iff_not]
  dsimp only [LocationKey.span, Ssa.Span.new, Placement.key, LocationKey.of]
  rcases p.apart f g hfld with hbef | hafter
  · omega
  · omega

theorem Placed.push (h : Placed p s) {value : Ssa.TrackedValue (Val N (BitVec 32))} {first : Option Nat}
    (hval : Narrow (p.type f).bytes value.value.value) : Placed p (s.push ⟨p.key f, p.type f, value, first⟩) := by
  intro entry hent
  rcases List.mem_append.mp hent with hold | hnew
  · exact h entry hold
  · rw [List.mem_singleton.mp hnew]
    exact ⟨f, rfl, rfl, hval⟩

/-- Reading a field loads it at most. -/
theorem Placed.read (h : Placed p s) {loaded value : Val N (BitVec 32)} {code : List (Ssa.Instr (Val N (BitVec 32)))}
    {s' : StateFields (Val N (BitVec 32))} (hread : s.read (p.location f) loaded = some (value, code, s'))
    (hloaded : Narrow (p.type f).bytes loaded.value) :
    Placed p s' ∧ Narrow (p.type f).bytes value.value ∧
      (code = [] ∨ code = [.load (p.type f) (.base s.base) (p.offset f) loaded]) := by
  unfold StateFields.read Placement.location at hread
  dsimp only at hread
  split at hread
  next entry hfind =>
    obtain ⟨hent, hloc⟩ := Ssa.find_spec hfind
    split at hread
    next htype =>
      cases hread
      obtain ⟨g, -, hg, hnarrow⟩ := h entry hent
      rw [← hg, htype] at hnarrow
      exact ⟨h, hnarrow, .inl rfl⟩
    next => exact nomatch hread
  next hfind =>
    rw [Ssa.flush_apart (h.apart hfind), Ssa.retain_apart (h.apart hfind)] at hread
    cases hread
    exact ⟨h.push hloaded, hloaded, .inr rfl⟩

/-- Defining a field emits nothing. -/
theorem Placed.define [DecidableEq N] (h : Placed p s) {value : Val N (BitVec 32)}
    (hval : Narrow (p.type f).bytes value.value) {code : List (Ssa.Instr (Val N (BitVec 32)))}
    {s' : StateFields (Val N (BitVec 32))} (hdefn : s.define (p.location f) value = some (code, s')) :
    Placed p s' ∧ code = [] := by
  unfold StateFields.define Placement.location at hdefn
  dsimp only at hdefn
  split at hdefn
  next entry hfind =>
    obtain ⟨hent, hloc⟩ := Ssa.find_spec hfind
    split at hdefn
    next htype =>
      cases hdefn
      refine ⟨?_, rfl⟩
      rw [← hloc]
      obtain ⟨entry', hdefs, hloc', htype', hval', -⟩ := Ssa.redefine_definitions (s := s) entry value
      intro e he
      rw [hdefs] at he
      obtain ⟨old, hold, rfl⟩ := List.mem_map.mp he
      split
      next =>
        refine ⟨f, hloc'.trans hloc, htype'.trans htype, ?_⟩
        rw [hval']
        exact hval
      next => exact h old hold
    next => exact nomatch hdefn
  next hfind =>
    rw [Ssa.flush_apart (h.apart hfind), Ssa.retain_apart (h.apart hfind)] at hdefn
    cases hdefn
    exact ⟨h.push hval, rfl⟩

/-- The retained fields do not depend on the rest of the memory. -/
theorem Retains.congr (h : Retains naming p s m values) {m' : Memory} (hm : ∀ x, p.InField x → m' x = m x) :
    Retains naming p s m' values := by
  classical
  obtain ⟨w, hcoh, hvals⟩ := h.coherent
  have hfld : ∀ f x, p.offset f ≤ x → x < p.offset f + (p.type f).bytes →
      (if p.InField x then w x else m' x) = w x := fun f x hlo hhi => if_pos ⟨f, hlo, hhi⟩
  refine ⟨h.base, h.wellformed, h.placed, fun x => if p.InField x then w x else m' x,
      ⟨fun entry hent => ?_, fun x hx => ?_⟩,
    fun f => (Placement.load_congr (hfld f)).trans (hvals f)⟩
  · refine (Memory.read_congr.mpr fun x hlo hhi => ?_).trans (hcoh.current entry hent)
    obtain ⟨f, hloc, htype, -⟩ := h.placed entry hent
    rw [address_zero h.base, hloc] at hlo hhi
    rw [htype] at hhi
    exact hfld f x hlo hhi
  · by_cases hin : p.InField x
    · exact (hm x hin).trans ((hcoh.backed x hx).trans (if_pos hin).symm)
    · exact (if_neg hin).symm

/-! ## Accesses -/

/-- The memory is still `m`, and the fields retained over it have these values. -/
structure Keeps (naming : Flags.Naming N) (p : Placement F) (m : Memory) (values : F → BitVec 32)
    (s : StateFields (Val N (BitVec 32)) × Memory) : Prop where
  memory : s.2 = m
  retains : Retains naming p s.1 m values

/-- A field is read without changing the memory. -/
theorem readField_spec {s : StateFields (Val N (BitVec 32)) × Memory} (h : Keeps naming p m values s) (f : F) :
    Total s (readField naming p f) fun value s' => value.value = values f ∧ Keeps naming p m values s' := by
  obtain ⟨s, m⟩ := s
  obtain ⟨rfl, h⟩ := h
  dsimp only at h ⊢
  obtain ⟨w, hcoh, hvals⟩ := h.coherent
  obtain ⟨value, code, s', hread, hbase, hwf, hspec⟩ :=
    Ssa.read_spec h.wellformed (p.location f) ⟨naming.loaded (p.offset f), p.load m f⟩
  obtain ⟨hplc, hnarrow, hcode⟩ := h.placed.read hread (Placement.narrow_load m f)
  have haddr := runAddress_location (p := p) naming.base f
  have hexecute : Ssa.execute wordValue m code = m := by
    rcases hcode with rfl | rfl <;> rfl
  have hloads : Ssa.Loads wordValue m code := by
    rcases hcode with rfl | rfl
    · trivial
    · refine ⟨?_, trivial⟩
      rw [h.base, lowBytes_wordValue (p.short f)]
      refine (Placement.lowBytes_load m f).trans ?_
      show _ = m.read ((p.location f).runAddress wordValue (⟨naming.base, 0⟩ : Val N (BitVec 32))) _
      rw [haddr]
  obtain ⟨hcoh', hval⟩ := hspec hcoh trivial hloads
  rw [h.base, haddr, show (p.location f).type = p.type f from rfl, lowBytes_wordValue (p.short f)] at hval
  rw [hexecute] at hcoh'
  refine ⟨value, (s', _), ?_, ?_, rfl, hbase.trans h.base, hwf, hplc, w, hcoh', hvals⟩
  · simp only [readField, hread, hexecute, Option.bind_eq_bind, Option.bind_some]
    rfl
  · rw [← hvals f, Placement.load, Memory.load]
    exact hnarrow.symm.trans (congrArg (Memory.ofBytes 32) hval)

/-- A field is replaced, and the others are left. -/
theorem defineField_spec [DecidableEq F] [DecidableEq N] {s : StateFields (Val N (BitVec 32)) × Memory}
    (h : Keeps naming p m values s) (f : F) {value : Val N (BitVec 32)} (hval : Narrow (p.type f).bytes value.value) :
    Total s (defineField p f value) fun _ s' => Keeps naming p m (Function.update values f value.value) s' := by
  obtain ⟨s, m⟩ := s
  obtain ⟨rfl, h⟩ := h
  dsimp only at h ⊢
  obtain ⟨w, hcoh, hvals⟩ := h.coherent
  obtain ⟨code, s', hdefn, hbase, hwf, hspec⟩ := Ssa.define_spec h.wellformed (p.location f) value
  obtain ⟨hplc, rfl⟩ := h.placed.define hval hdefn
  have hcoh' := hspec hcoh trivial
  have htype : (p.location f : Ssa.Location (Val N (BitVec 32))).type = p.type f := rfl
  rw [h.base, runAddress_location, htype, lowBytes_wordValue (p.short f)] at hcoh'
  refine ⟨(), (s', _), ?_, rfl, hbase.trans h.base, hwf, hplc, _, hcoh', fun g => ?_⟩
  · simp only [defineField, hdefn, Option.bind_eq_bind, Option.bind_some]
    rfl
  · by_cases hg : g = f
    · rw [hg, Function.update_self]
      exact Placement.load_write w f hval
    · rw [Function.update_of_ne hg, ← hvals g]
      exact Placement.load_write_other w hg value.value

end

end Relocade.X87
