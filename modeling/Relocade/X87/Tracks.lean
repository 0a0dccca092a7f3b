import Relocade.Total
import Relocade.X87.Registers

/-!
# `X87.Tracks` — the register tracker stands for a file
-/

namespace Relocade.X87

open Flags (Val storeByte)
open Ssa (StateFields Definition)

/-! ## TOP -/

section

variable {N : Type} {nm : Naming N} {s : StateFields (Val N (BitVec 8))} {m w : Memory} {byte : BitVec 8}

/-- TOP is the one field retained. -/
structure TopValid (naming : Naming N) (s : StateFields (Val N (BitVec 8))) (m : Memory) (byte : BitVec 8) : Prop where
  direct : Flags.Direct naming.toNaming s m (storeByte m topOffset byte)
  located : ∀ entry ∈ s.definitions, entry.location.offset = topOffset

theorem TopValid.new : TopValid nm (.withBase ⟨nm.base, 0⟩) m (m topOffset) := by
  refine ⟨?_, fun _ h => absurd h List.not_mem_nil⟩
  rw [Flags.storeByte_self]
  exact .new

theorem storeByte_top (m : Memory) (byte : BitVec 8) : storeByte m topOffset byte topOffset = byte :=
  Flags.storeByte_same ..

/-- Where an entry lies. -/
theorem TopValid.address (h : TopValid nm s m byte) {entry : Definition (Val N (BitVec 8))}
    (hent : entry ∈ s.definitions) : entry.address Flags.byteValue s.base = topOffset := by
  have hbase : (Ssa.Pointer.base s.base).address Flags.byteValue = 0 := by
    rw [h.direct.base]
    rfl
  rw [Definition.address, hbase, Nat.zero_add, h.located entry hent]

/-- The retained byte does not depend on the rest of the memory. -/
theorem TopValid.congr (h : TopValid nm s m byte) (hw : w topOffset = m topOffset) : TopValid nm s w byte := by
  refine ⟨⟨h.direct.base, h.direct.wellformed, h.direct.bytes, fun entry hent => ?_, fun x hx => ?_⟩, h.located⟩
  · have hcur := h.direct.coherent.current entry hent
    rw [(h.direct.bytes entry hent).2.1, h.address hent] at hcur ⊢
    rw [← hcur]
    show [storeByte w topOffset byte topOffset] = [storeByte m topOffset byte topOffset]
    rw [storeByte_top, storeByte_top]
  · by_cases htop : x = topOffset
    · have hbacked := h.direct.coherent.backed x hx
      rw [htop, storeByte_top] at hbacked ⊢
      rw [hw, hbacked]
    · exact (Flags.storeByte_other byte htop).symm

theorem located_read (hs : Flags.Bytes s) (h : ∀ entry ∈ s.definitions, entry.location.offset = topOffset)
    {loaded value : Val N (BitVec 8)} {code : List (Ssa.Instr (Val N (BitVec 8)))} {s' : StateFields (Val N (BitVec 8))}
    (hread : s.read (Flags.byteLocation topOffset) loaded = some (value, code, s')) :
    ∀ entry ∈ s'.definitions, entry.location.offset = topOffset := by
  unfold StateFields.read Flags.byteLocation at hread
  dsimp only at hread
  split at hread
  next =>
    split at hread
    next =>
      cases hread
      exact h
    next => exact nomatch hread
  next hfind =>
    rw [Ssa.flush_apart (hs.apart hfind), Ssa.retain_apart (hs.apart hfind)] at hread
    cases hread
    intro entry hent
    rcases List.mem_append.mp hent with hold | hnew
    · exact h entry hold
    · rw [List.mem_singleton.mp hnew]
      rfl

theorem located_define [DecidableEq N] (hs : Flags.Bytes s)
    (h : ∀ entry ∈ s.definitions, entry.location.offset = topOffset) {value : Val N (BitVec 8)}
    {code : List (Ssa.Instr (Val N (BitVec 8)))} {s' : StateFields (Val N (BitVec 8))}
    (hdefn : s.define (Flags.byteLocation topOffset) value = some (code, s')) :
    ∀ entry ∈ s'.definitions, entry.location.offset = topOffset := by
  unfold StateFields.define Flags.byteLocation at hdefn
  dsimp only at hdefn
  split at hdefn
  next entry hfind =>
    obtain ⟨hent, hloc⟩ := Ssa.find_spec hfind
    split at hdefn
    next =>
      cases hdefn
      rw [← hloc]
      obtain ⟨entry', hdefs, hloc', -⟩ := Ssa.redefine_definitions (s := s) entry value
      rw [hdefs]
      intro e he
      obtain ⟨old, hold, rfl⟩ := List.mem_map.mp he
      split
      next =>
        rw [hloc']
        exact h entry hent
      next => exact h old hold
    next => exact nomatch hdefn
  next hfind =>
    rw [Ssa.flush_apart (hs.apart hfind), Ssa.retain_apart (hs.apart hfind)] at hdefn
    cases hdefn
    intro entry hent
    rcases List.mem_append.mp hent with hold | hnew
    · exact h entry hold
    · rw [List.mem_singleton.mp hnew]
      rfl

/-- TOP is read. -/
theorem TopValid.read (h : TopValid nm s m byte) :
    ∃ value s', Flags.readDirect nm.toNaming m s topOffset = some (value, s', m) ∧ value.value = byte ∧
      TopValid nm s' m byte := by
  obtain ⟨value, s', hread, hval, hdir⟩ :=
    Flags.readDirect_spec h.direct (show Flags.directStart ≤ topOffset by decide)
  refine ⟨value, s', hread, hval.trans (storeByte_top m byte), hdir, ?_⟩
  unfold Flags.readDirect at hread
  cases hfld : s.read (Flags.byteLocation topOffset) ⟨nm.loaded topOffset, m topOffset⟩ with
  | none =>
    rw [hfld] at hread
    exact nomatch hread
  | some result =>
    obtain ⟨value', code, fields⟩ := result
    rw [hfld] at hread
    change some (value', fields, _) = some (value, s', m) at hread
    rw [Option.some.injEq, Prod.mk.injEq, Prod.mk.injEq] at hread
    obtain ⟨-, rfl, -⟩ := hread
    exact located_read h.direct.bytes h.located hfld

/-- TOP is replaced. -/
theorem TopValid.define [DecidableEq N] (h : TopValid nm s m byte) (value : Val N (BitVec 8)) :
    ∃ s', Flags.defineDirect m s topOffset value = some (s', m) ∧ TopValid nm s' m value.value := by
  obtain ⟨s', hdefn, hdir⟩ := Flags.defineDirect_spec h.direct (show Flags.directStart ≤ topOffset by decide) value
  have hstore : storeByte (storeByte m topOffset byte) topOffset value.value = storeByte m topOffset value.value := by
    funext x
    by_cases htop : x = topOffset
    · rw [htop, storeByte_top, storeByte_top]
    · rw [Flags.storeByte_other _ htop, Flags.storeByte_other _ htop, Flags.storeByte_other _ htop]
  rw [hstore] at hdir
  refine ⟨s', hdefn, hdir, ?_⟩
  unfold Flags.defineDirect at hdefn
  cases hfld : s.define (Flags.byteLocation topOffset) value with
  | none =>
    rw [hfld] at hdefn
    exact nomatch hdefn
  | some result =>
    obtain ⟨code, fields⟩ := result
    rw [hfld] at hdefn
    change some (fields, _) = some (s', m) at hdefn
    rw [Option.some.injEq, Prod.mk.injEq] at hdefn
    obtain ⟨rfl, -⟩ := hdefn
    exact located_define h.direct.bytes h.located hfld

end

/-! ## The invariant -/

/-- What holds on entry: whether ES is set, and whether a suppressed movement is still in the stack mapping. -/
structure Protocol where
  pending : Bool
  moved : Bool

/-- The bank stands for the file; without one, the memory does. -/
def RegistersValid {N : Type} (m : Memory) (pending : Bool) (file : File) : Option (Bank N) → Prop
  | some bank => bank.Valid m pending file
  | none => Bank.Stored m file

/-- The tracker stands for a file. Only the file's bytes differ from those of `origin`. -/
structure Tracks {N : Type} (naming : Naming N) (origin : Memory) (protocol : Protocol) (file : File)
    (s : Registers N × Memory) : Prop where
  top : TopValid naming s.1.topFields s.2 file.top
  registers : RegistersValid s.2 protocol.pending file s.1.bank
  aligned : protocol.moved = false →
    ∀ bank, s.1.bank = some bank → ∀ t, bank.stackTop = some t → bank.place t = slotAt file.top
  frame : ∀ x, ¬ InFile x → s.2 x = origin x

/-- A slot of the current bank names a register. -/
structure Located {N : Type} (naming : Naming N) (origin : Memory) (protocol : Protocol) (file : File) (place slot : Fin 8)
    (s : Registers N × Memory) : Prop where
  tracks : Tracks naming origin protocol file s
  located : ∃ bank, s.1.bank = some bank ∧ bank.place slot = place

/-- The physical register of a code. -/
def RegisterCode.place {N : Type} : RegisterCode N → Fin 8
  | .known code => slotAt code
  | .indexed code => slotAt code.value

section

variable {N : Type} {nm : Naming N} {origin : Memory} {pr : Protocol} {file : File} {place slot : Fin 8}
variable {s : Registers N × Memory}

theorem Tracks.new (nm : Naming N) (m : Memory) (pend : Bool) :
    Tracks nm m ⟨pend, false⟩ (File.of m) (.new nm, m) :=
  ⟨.new, ⟨fun _ => rfl, rfl⟩, nofun, fun _ _ => rfl⟩

/-- An exception may become pending at any time. -/
theorem Tracks.pend (h : Tracks nm origin pr file s) {pending : Bool}
    (hpend : pending = false → pr.pending = false) : Tracks nm origin { pr with pending := pending } file s := by
  refine ⟨h.top, ?_, h.aligned, h.frame⟩
  have hregs := h.registers
  cases hbank : s.1.bank with
  | none =>
    rw [hbank] at hregs
    exact hregs
  | some bank =>
    rw [hbank] at hregs
    exact Bank.Valid.mono hregs hpend

theorem knownSlot_spec {value : Val N (BitVec 32)} {i : Fin 8} (h : knownSlot nm value = some i) :
    slotAt value.value = i := by
  unfold knownSlot at h
  split at h
  next hknown =>
    cases h
    exact Fin.ext (Nat.mod_eq_of_lt hknown.2)
  next => exact nomatch h

theorem not_inTagWord_top : ¬ InTagWord topOffset := by
  unfold InTagWord topOffset tagWordOffset
  omega

theorem not_inRegister_top (i : Fin 8) : ¬ InRegister i topOffset := by
  unfold InRegister topOffset registersOffset
  omega

theorem readTop_spec (h : Tracks nm origin pr file s) :
    Total s (Registers.readTop nm) fun value s' =>
      value.value = file.top ∧ s'.1.bank = s.1.bank ∧ Tracks nm origin pr file s' := by
  obtain ⟨value, fields, hread, hval, htop⟩ := h.top.read
  refine ⟨value, ({ s.1 with topFields := fields }, s.2), ?_, hval, rfl, htop, h.registers, h.aligned, h.frame⟩
  show (Flags.readDirect nm.toNaming s.2 s.1.topFields topOffset).bind _ = _
  rw [hread]
  rfl

theorem getBank_spec {α : Type} {f : Option (Bank N) → Build N α} {Q : α → Registers N × Memory → Prop}
    (h : Total s (f s.1.bank) Q) : Total s (Registers.getBank >>= f) Q := h

/-- The bank's contents are replaced by ones that stand for a file with the same TOP. -/
theorem Tracks.setBank (h : Tracks nm origin pr file s) {protocol' : Protocol} {file' : File} {bank : Bank N}
    (hvalid : bank.Valid s.2 protocol'.pending file') (htop : file'.top = file.top)
    (haligned : protocol'.moved = false → ∀ t, bank.stackTop = some t → bank.place t = slotAt file.top) :
    Tracks nm origin protocol' file' ({ s.1 with bank := some bank }, s.2) := by
  refine ⟨?_, hvalid, fun hmoved other hother t ht => ?_, h.frame⟩
  · rw [htop]
    exact h.top
  · cases hother
    rw [htop]
    exact haligned hmoved t ht

/-! ## The bank -/

/-- Forgetting the stack mapping leaves nothing to align. -/
theorem forgetStackTop_spec (h : Tracks nm origin pr file s) :
    Total s Registers.forgetStackTop fun _ s' => Tracks nm origin { pr with moved := false } file s' := by
  refine getBank_spec (Total.modify ?_)
  have hregs := h.registers
  cases hbank : s.1.bank with
  | none =>
    rw [hbank] at hregs
    exact ⟨h.top, hregs, nofun, h.frame⟩
  | some bank =>
    rw [hbank] at hregs
    exact h.setBank ⟨hregs.payloads, hregs.tags, hregs.word, hregs.tagWord⟩ rfl
      nofun

/-- Publication empties the bank into memory. -/
theorem rebase_spec (h : Tracks nm origin pr file s) (protocol' : Protocol) :
    Total s (Registers.rebase nm) fun _ s' => s'.1.bank = none ∧ Tracks nm origin protocol' file s' := by
  obtain ⟨registers, m⟩ := s
  refine Total.modify ⟨rfl, ?_⟩
  have hregs := h.registers
  dsimp only at hregs ⊢
  cases hbank : registers.bank with
  | none =>
    rw [hbank] at hregs
    exact ⟨h.top, hregs, nofun, h.frame⟩
  | some bank =>
    rw [hbank] at hregs
    obtain ⟨hstored, hframe⟩ := Bank.publish_spec hregs nm
    refine ⟨h.top.congr (hframe _ not_inTagWord_top not_inRegister_top), hstored, nofun, fun x hx => ?_⟩
    rw [← h.frame x hx]
    exact hframe x (fun htag => hx (.inr (.inl htag))) fun i hi => hx (.inr (.inr ⟨i, hi⟩))

theorem setBank_spec {bank : Option (Bank N)} {Q : Unit → Registers N × Memory → Prop}
    (h : Q () ({ s.1 with bank := bank }, s.2)) : Total s (Registers.setBank bank) Q := ⟨(), _, rfl, h⟩

/-- An access to the bank that was located. -/
theorem withBank_spec {α : Type} {access : Memory → Bank N → α × Bank N} {bank : Bank N}
    {Q : α → Registers N × Memory → Prop} (hbank : s.1.bank = some bank)
    (h : Q (access s.2 bank).1 ({ s.1 with bank := some (access s.2 bank).2 }, s.2)) :
    Total s (Registers.withBank access) Q := by
  refine ⟨_, _, ?_, h⟩
  show (s.1.bank).bind _ = _
  rw [hbank]
  rfl

/-- A new bank over memory. -/
theorem newBank_spec (h : Tracks nm origin pr file s) (hnone : s.1.bank = none) (start : Val N (BitVec 32))
    (slot : Fin 8) :
    Total s (Registers.setBank (some (.new start))) fun _ s' =>
      Located nm origin pr file (slotAt start.value + slot) slot s' := by
  have hregs := h.registers
  rw [hnone] at hregs
  have hvalid : (Bank.new start).Valid s.2 pr.pending file := .new hregs start
  exact setBank_spec ⟨h.setBank hvalid rfl nofun, _, rfl, rfl⟩

/-- The bank, or a new one over memory. -/
theorem RegistersValid.getD {m : Memory} {pend : Bool} {bank : Option (Bank N)}
    (h : RegistersValid m pend file bank) (start : Val N (BitVec 32)) :
    (bank.getD (.new start)).Valid m pend file := by
  cases bank with
  | none => exact .new h start
  | some bank => exact h

theorem imageBank_spec (h : Tracks nm origin pr file s) :
    Total s (Registers.imageBank nm) fun _ s' => Tracks nm origin pr file s' ∧ ∃ bank, s'.1.bank = some bank := by
  unfold Registers.imageBank
  refine getBank_spec (setBank_spec ⟨h.setBank (h.registers.getD _) rfl fun hmoved t ht => ?_, _, rfl⟩)
  cases hbank : s.1.bank with
  | none =>
    rw [hbank] at ht
    exact nomatch ht
  | some bank =>
    rw [hbank] at ht
    exact h.aligned hmoved bank hbank t ht

theorem tagWord_spec (h : Tracks nm origin pr file s) :
    Total s (Registers.tagWord nm) fun tags s' => tags = file.tagWord ∧ Tracks nm origin pr file s' := by
  refine Total.bind (imageBank_spec h) fun _ s' ⟨htr, bank, hbank⟩ => ?_
  have hvalid := htr.registers
  rw [hbank] at hvalid
  obtain ⟨htags, hvalid'⟩ := Bank.readPackedTags_spec hvalid nm
  exact withBank_spec hbank ⟨htags, htr.setBank hvalid' rfl fun hmoved t ht => htr.aligned hmoved bank hbank t ht⟩

theorem savedTagWord_spec (h : Tracks nm origin pr file s) :
    Total s (Registers.savedTagWord nm) fun tags s' => tags = file.savedTagWord ∧ Tracks nm origin pr file s' := by
  refine Total.bind (imageBank_spec h) fun _ s' ⟨htr, bank, hbank⟩ => ?_
  have hvalid := htr.registers
  rw [hbank] at hvalid
  obtain ⟨htags, hvalid', horigin, hstackTop⟩ := Bank.savedTagWord_spec hvalid nm
  refine withBank_spec hbank ⟨htags, htr.setBank hvalid' rfl fun hmoved t ht => ?_⟩
  rw [Bank.place_congr horigin]
  exact htr.aligned hmoved bank hbank t (hstackTop.symm.trans ht)

theorem restoredTag_value (start : Val N (BitVec 32)) (tags : Val N (BitVec 16)) (value : ExtendedValue N) (index : Fin 8) :
    (Registers.restoredTag nm start tags value index).value =
      restoredTagOf tags.value (slotAt start.value + index) value.value := by
  have hpl : (nm.mask (nm.sum start (nm.int 32 index)) 7).value.toNat = (slotAt start.value + index).val := by
    have hadd : slotAt (start.value + BitVec.ofNat 32 index) = slotAt start.value + index := by
      rw [slotAt_add, slotAt_ofNat]
    show ((start.value + BitVec.ofNat 32 index) &&& 7).toNat = _
    rw [toNat_and_seven _ (by decide), ← hadd]
    rfl
  unfold Registers.restoredTag restoredTagOf tagOf Val.select
  dsimp only
  rw [hpl]
  split
  next hemp => rw [decide_eq_true hemp]; rfl
  next hoccupied => rw [decide_eq_false hoccupied]; rfl

/-- An unguarded write has no disabled case. -/
theorem not_disabled {p : Prop} (nm : Naming N) : pr.pending = false → (nm.bool true).value = false → p :=
  nofun

/-! ## Reading a slot -/

theorem read_spec (h : Located nm origin pr file place slot s) :
    Total s (Registers.read nm slot) fun value s' =>
      value.value = file.registers place ∧ Located nm origin pr file place slot s' := by
  obtain ⟨htr, bank, hbank, hpl⟩ := h
  have hvalid := htr.registers
  rw [hbank] at hvalid
  refine withBank_spec hbank ⟨?_, ?_, _, rfl, hpl⟩
  · rw [← hpl]
    exact Bank.read_fst hvalid nm slot
  · exact htr.setBank (Bank.read_snd hvalid nm slot) rfl fun hmoved t ht => htr.aligned hmoved bank hbank t ht

theorem tag_spec (h : Located nm origin pr file place slot s) :
    Total s (Registers.tag nm slot) fun tag s' =>
      tag.value = file.tag place ∧ Located nm origin pr file place slot s' := by
  obtain ⟨htr, bank, hbank, hpl⟩ := h
  have hvalid := htr.registers
  rw [hbank] at hvalid
  obtain ⟨htag, hvalid', horigin, hstackTop, -⟩ := Bank.tag_spec hvalid nm slot
  have hplaces : (bank.tag nm s.2 slot).2.place = bank.place := Bank.place_congr horigin
  refine withBank_spec hbank ⟨?_, ?_, _, rfl, ?_⟩
  · rw [← hpl]
    exact htag
  · refine htr.setBank hvalid' rfl fun hmoved t ht => ?_
    rw [hplaces]
    exact htr.aligned hmoved bank hbank t (hstackTop.symm.trans ht)
  · rw [hplaces]
    exact hpl

/-! ## Addressing -/

theorem top_spec (h : Tracks nm origin pr file s) :
    Total s (Registers.top nm) fun value s' =>
      value.value = (file.top &&& 7).setWidth 32 ∧ s'.1.bank = s.1.bank ∧ Tracks nm origin pr file s' := by
  refine Total.bind (readTop_spec h) fun value s' ⟨hval, hbank, htr⟩ => Total.pure ⟨?_, hbank, htr⟩
  rw [← hval]
  rfl

theorem slotAt_top (top : BitVec 8) : slotAt ((top &&& 7).setWidth 32) = slotAt top := by
  rw [slotAt_setWidth _ (by decide), slotAt_and_seven _ (by decide)]

section

variable [DecidableEq N]

/-- TOP and its stack mapping are replaced together. -/
theorem defineTop_spec (h : Tracks nm origin pr file s) {moved : Bool} (value : Val N (BitVec 8))
    (haligned : moved = false →
      ∀ bank, s.1.bank = some bank → ∀ t, bank.stackTop = some t → bank.place t = slotAt value.value) :
    Total s (Registers.defineTop value) fun _ s' =>
      Tracks nm origin { pr with moved := moved } { file with top := value.value } s' := by
  obtain ⟨fields, hdefn, htop⟩ := h.top.define value
  refine ⟨(), ({ s.1 with topFields := fields }, s.2), ?_, htop, ?_, haligned, h.frame⟩
  · show (Flags.defineDirect s.2 s.1.topFields topOffset value).bind _ = _
    rw [hdefn]
    rfl
  · have hregs := h.registers
    show RegistersValid s.2 pr.pending { file with top := value.value } s.1.bank
    cases hbank : s.1.bank with
    | none =>
      rw [hbank] at hregs
      exact ⟨hregs.registers, hregs.tagWord⟩
    | some bank =>
      rw [hbank] at hregs
      exact Bank.Valid.ofFile hregs rfl rfl

theorem discardWriteGuards_spec (h : Tracks nm origin pr file s) (hclear : pr.pending = false) :
    Total s Registers.discardWriteGuards fun _ s' => Tracks nm origin pr file s' := by
  refine getBank_spec (Total.modify ?_)
  have hregs := h.registers
  rw [hclear] at hregs
  cases hbank : s.1.bank with
  | none =>
    rw [hbank] at hregs
    exact ⟨h.top, hregs, nofun, h.frame⟩
  | some bank =>
    rw [hbank] at hregs
    have hvalid := Bank.discardWriteGuards_spec hregs
    rw [← hclear] at hvalid
    exact h.setBank hvalid rfl fun hmoved t ht => h.aligned hmoved bank hbank t ht

/-- An address is found in the bank, or the bank is replaced. -/
theorem locate_spec (h : Tracks nm origin pr file s) (addr : Address N) :
    Total s (Registers.locate nm addr) fun slot s' =>
      Located nm origin pr file (slotAt addr.origin.value + addr.offset) slot s' := by
  unfold Registers.locate
  refine getBank_spec ?_
  dsimp only
  split
  next hsame =>
    obtain ⟨bank, hbank, horigin⟩ := (Option.any_eq_true _ _).mp hsame
    rw [decide_eq_true_iff] at horigin
    refine Total.pure ⟨h, bank, hbank, ?_⟩
    unfold Bank.place
    rw [horigin]
  next =>
    have hphys : slotAt (nm.mask (nm.sum addr.origin (nm.int 32 addr.offset)) 7).value =
        slotAt addr.origin.value + addr.offset := by
      show slotAt ((addr.origin.value + BitVec.ofNat 32 addr.offset) &&& 7) = _
      rw [slotAt_and_seven _ (by decide), slotAt_add, slotAt_ofNat]
    split
    next relative hrelative =>
      obtain ⟨bank, hbank, hknown⟩ := Option.bind_eq_some_iff.mp hrelative
      refine Total.pure ⟨h, bank, hbank, ?_⟩
      rw [← knownSlot_spec hknown, Bank.place, ← hphys]
      generalize (nm.mask (nm.sum addr.origin (nm.int 32 addr.offset)) 7) = physical
      show _ + slotAt ((physical.value - bank.origin.value) &&& 7) = _
      rw [slotAt_and_seven _ (by decide), slotAt_sub]
      omega
    next =>
      refine Total.bind (rebase_spec h pr) fun _ s' ⟨hnone, htr⟩ => ?_
      obtain ⟨registers, m⟩ := s'
      split
      next index hidx =>
        refine Total.bind (newBank_spec htr hnone (nm.int 32 0) index) fun _ s' hlocated => Total.pure ?_
        rw [← hphys, knownSlot_spec hidx]
        rwa [show slotAt (nm.int 32 0).value = 0 from rfl, Fin.zero_add] at hlocated
      next => exact Total.bind (newBank_spec htr hnone addr.origin addr.offset) fun _ s' hlocated => Total.pure hlocated

/-- A stack position is found where no suppressed movement is in the mapping. -/
theorem slot_spec (h : Tracks nm origin pr file s) (hmoved : pr.moved = false)
    (index : Val N (BitVec 32)) :
    Total s (Registers.slot nm index) fun slot s' =>
      Located nm origin pr file (file.slot index.value) slot s' := by
  unfold Registers.slot
  refine Total.bind (top_spec h) fun top s' ⟨htop, _, htr⟩ => getBank_spec ?_
  have hslot : slotAt top.value = slotAt file.top := by rw [htop, slotAt_top]
  split
  next index' stackTop hidx hstackTop =>
    obtain ⟨bank, hbank, hret⟩ := Option.bind_eq_some_iff.mp hstackTop
    refine Total.pure ⟨htr, bank, hbank, ?_⟩
    rw [File.slot, ← htr.aligned hmoved bank hbank stackTop hret, knownSlot_spec hidx]
    unfold Bank.place
    omega
  next index' hidx _ =>
    refine Total.bind (locate_spec htr ⟨top, index'⟩) fun slot s'' ⟨htr', bank, hbank, hpl⟩ => ?_
    rw [hslot] at hpl
    dsimp only at hpl
    have hvalid := htr'.registers
    rw [hbank] at hvalid
    refine Total.bind (Q := fun _ s' => Located nm origin pr file (file.slot index.value) slot s') ?_
      fun _ _ hlocated => Total.pure hlocated
    have hmapped : Bank.Valid { bank with stackTop := some (slot - index') } s''.2 pr.pending file :=
      ⟨hvalid.payloads, hvalid.tags, hvalid.word, hvalid.tagWord⟩
    refine withBank_spec hbank ⟨htr'.setBank hmapped rfl fun _ t ht => ?_, _, rfl, ?_⟩
    · cases ht
      show bank.place _ = _
      unfold Bank.place at hpl ⊢
      omega
    · rw [File.slot, knownSlot_spec hidx]
      exact hpl
  next =>
    refine (locate_spec htr _).mono fun slot s'' hlocated => ?_
    have hpl : slotAt (nm.mask (nm.sum top index) 7).value + 0 = file.slot index.value := by
      show slotAt ((top.value + index.value) &&& 7) + 0 = _
      rw [slotAt_and_seven _ (by decide), slotAt_add, hslot, Fin.add_zero]
      rfl
    dsimp only at hlocated
    rwa [show slotAt (0 : BitVec 32) = 0 from rfl, hpl] at hlocated

theorem physical_spec (h : Tracks nm origin pr file s) (reg : RegisterCode N) :
    Total s (Registers.physical nm reg) fun slot s' => Located nm origin pr file reg.place slot s' := by
  cases reg with
  | known code =>
    have hlocate := locate_spec h ⟨nm.int 32 0, slotAt code⟩
    rwa [show slotAt (nm.int 32 0).value = 0 from rfl, Fin.zero_add] at hlocate
  | indexed code =>
    have hlocate := locate_spec h ⟨nm.mask code 7, slotAt (0 : BitVec 32)⟩
    dsimp only at hlocate
    rwa [show slotAt (0 : BitVec 32) = 0 from rfl, show slotAt (nm.mask code 7).value + 0 = slotAt code.value by
      rw [Fin.add_zero]
      exact slotAt_and_seven _ (by decide)] at hlocate

/-! ## Writing a slot -/

variable {enabled : Val N Bool}

theorem writeValue_spec (h : Located nm origin pr file place slot s) {value : ExtendedValue N}
    (hpend : pr.pending = false → enabled.value = false → value.value = file.registers place) :
    Total s (Registers.writeValue nm slot value enabled) fun _ s' =>
      Located nm origin pr (if enabled.value then file.setRegister place value.value else file) place slot s' := by
  obtain ⟨htr, bank, hbank, rfl⟩ := h
  have hvalid := htr.registers
  rw [hbank] at hvalid
  refine withBank_spec hbank ⟨htr.setBank (Bank.write_spec hvalid nm slot value hpend) ?_ fun hmoved t ht =>
    htr.aligned hmoved bank hbank t ht, _, rfl, rfl⟩
  split <;> rfl

theorem setTag_spec (h : Located nm origin pr file place slot s) {tag : Val N (BitVec 16)}
    (htag : tag.value.toNat < 4)
    (hpend : pr.pending = false → enabled.value = false → tag.value = file.tag place) :
    Total s (Registers.setTag nm slot tag enabled) fun _ s' =>
      Located nm origin pr (if enabled.value then file.setTag place tag.value else file) place slot s' := by
  obtain ⟨htr, bank, hbank, rfl⟩ := h
  have hvalid := htr.registers
  rw [hbank] at hvalid
  obtain ⟨horigin, hstackTop⟩ := Bank.setTag_keeps hvalid nm slot tag enabled
  have hplaces : (bank.setTag nm s.2 slot tag enabled).place = bank.place := Bank.place_congr horigin
  refine withBank_spec hbank ⟨htr.setBank (Bank.setTag_spec hvalid nm slot htag hpend) ?_ fun hmoved t ht => ?_,
    _, rfl, ?_⟩
  · split <;> rfl
  · rw [hplaces]
    exact htr.aligned hmoved bank hbank t (hstackTop.symm.trans ht)
  · rw [hplaces]

theorem write_spec (h : Located nm origin pr file place slot s) {value : ExtendedValue N}
    {tag : Val N (BitVec 16)} (htag : tag.value.toNat < 4)
    (hval : pr.pending = false → enabled.value = false → value.value = file.registers place)
    (hpend : pr.pending = false → enabled.value = false → tag.value = file.tag place) :
    Total s (Registers.write nm slot value tag enabled) fun _ s' =>
      Located nm origin pr (if enabled.value then file.write place value.value tag.value else file) place slot
        s' := by
  refine Total.bind (writeValue_spec h hval) fun _ s' hlocated => ?_
  cases hen : enabled.value with
  | true =>
    rw [hen] at hlocated
    have hset : Total s' (Registers.setTag nm slot tag enabled) _ :=
      setTag_spec hlocated htag fun _ hdis => nomatch hen.symm.trans hdis
    rw [hen] at hset
    exact hset
  | false =>
    rw [hen] at hlocated
    have hset : Total s' (Registers.setTag nm slot tag enabled) _ := setTag_spec hlocated htag hpend
    rw [hen] at hset
    exact hset

/-! ## Moving TOP -/

theorem slotAt_slotOf (top : BitVec 8) (delta : Int) :
    (slotAt top + slotOf delta).val = ((top.toNat + delta) % 8).toNat := by
  simp only [slotAt, slotOf, Fin.val_add]
  omega

/-- The byte of a position is the one that a move stores. -/
theorem move_top (file : File) (delta : Int) {pos : BitVec 32}
    (h : pos.toNat = (slotAt file.top + slotOf delta).val) : pos.setWidth 8 = (file.move delta).top := by
  refine BitVec.eq_of_toNat_eq ?_
  rw [BitVec.toNat_setWidth, h, slotAt_slotOf]
  exact (BitVec.toNat_ofNat ..).symm

theorem slotAt_move (file : File) (delta : Int) : slotAt (file.move delta).top = slotAt file.top + slotOf delta := by
  refine Fin.ext ?_
  rw [slotAt_slotOf]
  show (BitVec.ofNat 8 _).toNat % 8 = _
  rw [BitVec.toNat_ofNat]
  omega

/-- TOP follows a mapping that has moved. -/
theorem followTop_spec {moved : Bool} (h : Tracks nm origin { pr with moved := moved } file s) {delta : Int}
    {updated : Val N (BitVec 32)} (hupdated : updated.value.toNat = (slotAt file.top + slotOf delta).val)
    (hahead : ∀ bank, s.1.bank = some bank → ∀ t, bank.stackTop = some t → bank.place t = slotAt file.top + slotOf delta)
    (enabled : Val N Bool) :
    Total s (do
      let previous ← Registers.readTop nm
      Registers.defineTop (enabled.select nm.toNaming ⟨nm.truncate updated.name, updated.value.setWidth 8⟩ previous))
      fun _ s' => Tracks nm origin { pr with moved := !enabled.value }
        (if enabled.value then file.move delta else file) s' := by
  refine Total.bind (readTop_spec h) fun previous s' ⟨hprev, hbank, htr⟩ => ?_
  have hdefined : (enabled.select nm.toNaming ⟨nm.truncate updated.name, updated.value.setWidth 8⟩ previous).value =
      (if enabled.value then file.move delta else file).top := by
    unfold Val.select
    cases enabled.value with
    | true => exact move_top file delta hupdated
    | false => exact hprev
  have hfile : { file with top := (if enabled.value then file.move delta else file).top } =
      (if enabled.value then file.move delta else file) := by
    split <;> rfl
  have hdefn := @defineTop_spec _ _ _ _ _ _ _ htr (!enabled.value)
    (enabled.select nm.toNaming ⟨nm.truncate updated.name, updated.value.setWidth 8⟩ previous) ?_
  · rw [hdefined, hfile] at hdefn
    exact hdefn
  · intro hen bank hbank' t ht
    rw [Bool.not_eq_false'] at hen
    rw [hdefined, hen, if_pos rfl, slotAt_move]
    exact hahead bank (hbank.symm.trans hbank') t ht

section

variable (h : Tracks nm origin pr file s)

include h

/-- An enabled movement takes the mapping with it; a suppressed one leaves the mapping ahead of TOP. -/
theorem advance_spec (hmoved : pr.moved = false) (delta : Int)
    (enabled : Val N Bool) :
    Total s (Registers.advance nm delta enabled) fun _ s' =>
      Tracks nm origin { pr with moved := !enabled.value } (if enabled.value then file.move delta else file) s' := by
  unfold Registers.advance
  refine getBank_spec ?_
  dsimp only
  split
  next bank t hbank ht =>
    rw [hbank] at ht
    have hpl := h.aligned hmoved bank hbank t ht
    have hnext : bank.place (t + slotOf delta) = slotAt file.top + slotOf delta := by
      rw [← hpl]
      unfold Bank.place
      omega
    have hvalid := h.registers
    rw [hbank] at hvalid
    let ahead : Bank N := { bank with stackTop := some (t + slotOf delta) }
    have hahead : ahead.Valid s.2 pr.pending file :=
      ⟨hvalid.payloads, hvalid.tags, hvalid.word, hvalid.tagWord⟩
    have hahead' : Tracks nm origin { pr with moved := true } file ({ s.1 with bank := some ahead }, s.2) :=
      h.setBank hahead rfl nofun
    refine Total.bind (Q := fun _ s' =>
      Tracks nm origin { pr with moved := true } file s' ∧ s'.1.bank = some ahead)
      (setBank_spec ⟨hahead', rfl⟩) fun _ s' ⟨htr, hbank'⟩ => ?_
    refine Total.pureBind (followTop_spec htr ?_ ?_ enabled)
    · rw [bank.toNat_physical, hnext]
    · intro other hother t' ht'
      cases hbank'.symm.trans hother
      cases ht'
      exact hnext
  next hnone =>
    refine Total.bind (top_spec h) fun top s' ⟨htop, hbank, htr⟩ => ?_
    refine Total.pureBind (followTop_spec htr ?_ ?_ enabled)
    · show ((top.value + BitVec.ofNat 32 (slotOf delta)) &&& 7).toNat = _
      rw [toNat_and_seven _ (by decide), ← slotAt_top, ← htop]
      have hadd : slotAt (top.value + BitVec.ofNat 32 (slotOf delta)) = slotAt top.value + slotOf delta := by
        rw [slotAt_add, slotAt_ofNat]
      exact congrArg Fin.val hadd
    · intro bank hbank' t ht
      rw [hbank] at hbank'
      exact (hnone bank t hbank' (by rw [hbank']; exact ht)).elim

/-! ## Resets -/

/-- A reset keeps the payloads, and its mapping is that of the new TOP. -/
theorem reset_spec (tags : BitVec 16) :
    Total s (Registers.reset nm tags) fun _ s' =>
      Tracks nm origin { pr with moved := false } (file.reset tags) s' := by
  unfold Registers.reset
  refine Total.bind (@defineTop_spec _ _ _ _ _ _ _ h true (nm.int 8 0) nofun)
    fun _ s' htr => getBank_spec ?_
  have hvalid := htr.registers.getD (nm.int 32 0)
  generalize s'.1.bank.getD (.new (nm.int 32 0)) = bank at hvalid
  dsimp only
  generalize hstackTop : knownSlot nm (nm.mask (nm.difference (nm.int 32 0) bank.origin) 7) = stackTop
  have hbank : Bank.Valid { bank with stackTop := stackTop } s'.2 pr.pending { file with top := (nm.int 8 0).value } :=
    ⟨hvalid.payloads, hvalid.tags, hvalid.word, hvalid.tagWord⟩
  have hreset := Bank.resetTags_spec hbank nm tags
  refine setBank_spec (htr.setBank (hreset.ofFile rfl rfl) rfl fun _ t ht => ?_)
  have hknown := knownSlot_spec (hstackTop.trans ht)
  change slotAt (((0 : BitVec 32) - bank.origin.value) &&& 7) = t at hknown
  rw [slotAt_and_seven _ (by decide), slotAt_sub] at hknown
  show bank.place t = slotAt (0 : BitVec 8)
  unfold Bank.place
  rw [← hknown]
  show _ = (0 : Fin 8)
  rw [show slotAt (0 : BitVec 32) = 0 from rfl]
  omega

theorem initializeState_spec :
    Total s (Registers.initializeState nm) fun _ s' => Tracks nm origin ⟨false, false⟩ (file.reset 0xffff) s' := by
  unfold Registers.initializeState
  exact Total.bind (rebase_spec h ⟨false, false⟩) fun _ s' ⟨_, htr⟩ => reset_spec htr 0xffff

/-! ## Whole images -/

/-- A save finds every register from TOP itself. -/
theorem stackBits_spec :
    Total s (Registers.stackBits nm) fun values s' =>
      values = file.stackBits ∧ Tracks nm origin { pr with moved := false } file s' := by
  unfold Registers.stackBits
  refine Total.bind (forgetStackTop_spec h) fun _ s' htr => ?_
  refine Total.mapM (I := Tracks nm origin { pr with moved := false } file) (fun index _ s htr => ?_) htr
  refine Total.bind (slot_spec htr rfl (nm.int 32 index)) fun slot s' hlocated => ?_
  refine Total.bind (read_spec hlocated) fun value s' ⟨hval, hlocated⟩ => Total.pure ⟨?_, hlocated.tracks⟩
  rw [hval]
  show file.registers (slotAt file.top + slotAt (BitVec.ofNat 32 index)) = _
  rw [slotAt_ofNat]

/-- A restored register and its tag. -/
theorem restoreRegister_spec (start : Val N (BitVec 32))
    (tags : Val N (BitVec 16)) (values : Option (Fin 8 → ExtendedValue N)) (index : Fin 8) :
    Total s (Registers.restoreRegister nm start tags values index) fun _ s' =>
      Tracks nm origin pr
        (file.restoreRegister (slotAt start.value) tags.value (values.map fun values i => (values i).value) index) s' := by
  unfold Registers.restoreRegister
  refine Total.bind (locate_spec h ⟨start, index⟩) fun slot s' hlocated => ?_
  have htagged : ∀ {s' : Registers N × Memory} {file' : File} {value : ExtendedValue N},
      value.value = file'.registers (slotAt start.value + index) →
      Located nm origin pr file' (slotAt start.value + index) slot s' →
      Total s' (Registers.setTag nm slot (Registers.restoredTag nm start tags value index) (nm.bool true))
        fun _ s'' => Tracks nm origin pr (file'.setTag (slotAt start.value + index)
          (restoredTagOf tags.value (slotAt start.value + index) (file'.registers (slotAt start.value + index)))) s'' := by
    intro s' file' value hval hlocated
    refine (setTag_spec hlocated ?_ (not_disabled nm)).mono fun _ s'' hset => ?_
    · rw [restoredTag_value]
      exact restoredTagOf_lt ..
    · rw [restoredTag_value, hval] at hset
      exact hset.tracks
  cases values with
  | some values =>
    refine Total.bind (writeValue_spec hlocated (not_disabled nm)) fun _ s'' hlocated => ?_
    refine Total.pureBind (htagged ?_ hlocated)
    exact (if_pos rfl).symm
  | none => exact Total.bind (read_spec hlocated) fun value s'' ⟨hval, hlocated⟩ => htagged hval hlocated

end

theorem slotAt_masked (top : BitVec 32) : slotAt ((top &&& 7).setWidth 8) = slotAt top := by
  rw [slotAt_setWidth _ (by decide), slotAt_and_seven _ (by decide)]

/-- A full image replaces every register, so nothing is left to resolve; otherwise no exception may pend. -/
theorem restore_spec (h : Tracks nm origin pr file s) (top : Val N (BitVec 32)) (tags : Val N (BitVec 16))
    (values : Option (Fin 8 → ExtendedValue N)) {pend : Bool}
    (hpend : values = none → pend = false → pr.pending = false) :
    Total s (Registers.restore nm top tags values) fun _ s' =>
      Tracks nm origin ⟨pend, false⟩
        (file.restore top.value tags.value (values.map fun values i => (values i).value)) s' := by
  unfold Registers.restore
  refine Total.bind (@defineTop_spec _ _ _ _ _ _ _ h true _ nofun) fun _ s' htr => ?_
  cases values with
  | some values =>
    let replaced : File := ⟨(top.value &&& 7).setWidth 8, 0xffff, fun i => loadRegister s'.2 (registerAddress i)⟩
    have hnew : (Bank.new top).Valid s'.2 pend { replaced with tagWord := loadTagWord s'.2 } :=
      .new ⟨fun _ => rfl, rfl⟩ top
    have hbank : Bank.Valid { Bank.new top with stackTop := some (slotAt (0 : BitVec 32)) } s'.2 pend
        { replaced with tagWord := loadTagWord s'.2 } := ⟨hnew.payloads, hnew.tags, hnew.word, hnew.tagWord⟩
    have hvalid : Bank.Valid (Bank.resetTags nm { Bank.new top with stackTop := some (slotAt (0 : BitVec 32)) } 0xffff) s'.2 pend replaced :=
      (Bank.resetTags_spec hbank nm 0xffff).ofFile rfl rfl
    refine Total.bind (Q := fun _ s' => Tracks nm origin ⟨pend, false⟩ replaced s')
      (setBank_spec (htr.setBank hvalid rfl fun _ t ht => ?_)) fun _ s'' hreplaced => ?_
    · cases ht
      show slotAt top.value + 0 = _
      rw [Fin.add_zero]
      exact (slotAt_masked top.value).symm
    · refine Total.pureBind (Total.mono (Total.forM (I := fun file s => Tracks nm origin ⟨pend, false⟩ file s)
        (fun index _ file s htr => restoreRegister_spec htr top tags (some values) index) hreplaced)
        fun _ s' hrestored => ?_)
      rw [foldl_restoreRegister_eq file top.value] at hrestored
      · exact hrestored
      · rfl
      · exact fun _ => rfl
  | none =>
    refine Total.bind (forgetStackTop_spec htr) fun _ s'' hforgotten => ?_
    refine Total.pureBind (Total.mono (Total.forM (I := fun file s => Tracks nm origin ⟨pend, false⟩ file s)
      (fun index _ file s htr => restoreRegister_spec htr (nm.int 32 0) tags none index)
      (hforgotten.pend (hpend rfl))) fun _ s' hrestored => ?_)
    rw [foldl_restoreRegister_eq file top.value] at hrestored
    · exact hrestored
    · rfl
    · exact fun _ => rfl

end

/-! ## Publication -/

/-- Publication stores the file and nothing else. -/
theorem publish_spec (h : Tracks nm origin protocol file s) :
    File.of (Registers.publish nm s.1 s.2) = file ∧
      ∀ x, ¬ InFile x → Registers.publish nm s.1 s.2 x = origin x := by
  have hexecute : Ssa.execute Flags.byteValue s.2 s.1.topFields.publish = storeByte s.2 topOffset file.top :=
    Ssa.publish_spec h.top.direct.coherent
  have hother : ∀ x, x ≠ topOffset → storeByte s.2 topOffset file.top x = s.2 x := fun x hx => Flags.storeByte_other _ hx
  have hload : ∀ i, loadRegister (storeByte s.2 topOffset file.top) (registerAddress i) =
      loadRegister s.2 (registerAddress i) := fun i =>
    loadRegister_congr fun x hx => hother x (by rintro rfl; exact not_inRegister_top i hx)
  have htagWord : loadTagWord (storeByte s.2 topOffset file.top) = loadTagWord s.2 :=
    loadTagWord_congr fun x hx => hother x (by rintro rfl; exact not_inTagWord_top hx)
  have hregs := h.registers
  unfold Registers.publish
  rw [hexecute]
  cases hbank : s.1.bank with
  | none =>
    rw [hbank] at hregs
    refine ⟨?_, fun x hx => (hother x fun htop => hx (.inl htop)).trans (h.frame x hx)⟩
    exact File.ext_tags (storeByte_top s.2 file.top) (fun i => congrArg (tagOf · i) (htagWord.trans hregs.tagWord)) fun i =>
      (hload i).trans (hregs.registers i)
  | some bank =>
    rw [hbank] at hregs
    obtain ⟨hstored, hframe⟩ := Bank.publish_spec (Bank.Valid.congr hregs hload htagWord) nm
    refine ⟨?_, fun x hx => ?_⟩
    · refine File.ext_tags ?_ (fun i => congrArg (tagOf · i) hstored.tagWord) hstored.registers
      exact (hframe topOffset not_inTagWord_top not_inRegister_top).trans (storeByte_top ..)
    · refine (hframe x (fun htag => hx (.inr (.inl htag))) fun i hi => hx (.inr (.inr ⟨i, hi⟩))).trans ?_
      exact (hother x fun htop => hx (.inl htop)).trans (h.frame x hx)

end

end Relocade.X87
