import Relocade.Virtual.Spans

/-!
# `Virtual.Transfer` — typed transfers through resolved spans

A granted span that is not scattered is transferred at once from its first byte's address; a scattered one byte by byte,
with a frame lookup for each.
-/

namespace Relocade.Virtual

open Physical (Intent)

section

variable (table guest : Memory)

/-- One part of a scattered read, of at most eight bytes. -/
def readPart (linear : BitVec 32) (part bytes : Nat) : BitVec 64 :=
  (List.range bytes).foldl (fun value offset =>
    let address := linear + BitVec.ofNat 32 (part + offset)
    let byte := guest (physicalAddress (entry table address) address).toNat
    value ||| byte.setWidth 64 <<< (offset * 8)) 0

/-- A scattered read. -/
def declareReader (type : MemoryType) (linear : BitVec 32) : BitVec 128 :=
  match type with
  | .vector =>
      let low := readPart table guest linear 0 8
      let high := readPart table guest linear 8 8
      low.setWidth 128 ||| high.setWidth 128 <<< 64
  | type => ((readPart table guest linear 0 type.bytes).setWidth (8 * type.bytes)).setWidth 128

/-- One part of a scattered write. -/
def writePart (linear : BitVec 32) (part bytes : Nat) (value : BitVec 64) : Memory :=
  (List.range bytes).foldl (fun guest offset =>
    let address := linear + BitVec.ofNat 32 (part + offset)
    guest.write (physicalAddress (entry table address) address).toNat [(value >>> (offset * 8)).setWidth 8]) guest

/-- A scattered write. -/
def declareWriter (type : MemoryType) (linear : BitVec 32) (value : BitVec 128) : Memory :=
  match type with
  | .vector => writePart table (writePart table guest linear 0 8 (value.setWidth 64)) linear 8 8
      ((value >>> 64).setWidth 64)
  | type => writePart table guest linear 0 type.bytes ((value.setWidth (8 * type.bytes)).setWidth 64)

variable (access : Access) (offset : Nat) (type : MemoryType)

/-- A field fits a checked span of constant length. -/
def Access.checkField : Bool :=
  match access.constantBytes with
  | some bytes => offset ≤ bytes.toNat ∧ type.bytes ≤ bytes.toNat - offset
  | none => false

/-- `VirtualMemory::read`; nothing where the code asserts. -/
def read : Option (BitVec 128) :=
  if access.checkField offset type then
    if access.constantBytes = some 1 then some (guest.load 128 access.physical.toNat type.bytes)
    else if access.scattered then
      some (declareReader table guest type (access.linear + BitVec.ofNat 32 offset))
    else some (guest.load 128 (access.physical.toNat + offset) type.bytes)
  else none

/-- `VirtualMemory::write`. -/
def write (value : BitVec 128) : Option Memory :=
  if access.checkField offset type ∧ access.intent = .write then
    if access.constantBytes = some 1 then
      some (guest.write access.physical.toNat (Memory.lowBytes type.bytes value))
    else if access.scattered then
      some (declareWriter table guest type (access.linear + BitVec.ofNat 32 offset) value)
    else some (guest.write (access.physical.toNat + offset) (Memory.lowBytes type.bytes value))
  else none

end

/-! ## The bytes of a span -/

variable {table guest : Memory} {s : BitVec 32} {n i : Nat}

/-- The physical address of a span's byte, through its own entry. -/
def byteAddress (table : Memory) (start : BitVec 32) (i : Nat) : Nat := (translate table (byteAt start i)).toNat

/-- A field's bytes read through their own entries. -/
def readBytes (table guest : Memory) (start : BitVec 32) (offset count : Nat) : List (BitVec 8) :=
  (List.range count).map fun j => guest (byteAddress table start (offset + j))

/-- A field's bytes written through their own entries, in order. -/
def writeBytes (table guest : Memory) (start : BitVec 32) (offset count : Nat) (value : BitVec 128) : Memory :=
  (List.range count).foldl (fun guest j =>
    guest.write (byteAddress table start (offset + j)) [(value >>> (8 * j)).setWidth 8]) guest

theorem byteAddress_eq (table : Memory) (s : BitVec 32) (i : Nat) :
    byteAddress table s i = frame table (byteAt s i) + (s.toNat + i) % 4096 := by
  unfold byteAddress translate frame
  rw [toNat_physicalAddress, toNat_byteAt]
  omega

/-- The bytes of a span that is not scattered follow its first byte. -/
theorem contiguous (h : ¬ Scattered table s n) (hi : i < n) :
    byteAddress table s i = (translate table s).toNat + i := by
  induction i with
  | zero => rw [byteAddress, byteAt_zero, Nat.add_zero]
  | succ i ih =>
    have hbef := ih (by omega)
    rw [byteAddress_eq] at hbef ⊢
    by_cases halign : (byteAt s (i + 1)).toNat % 4096 = 0
    · have hframe : frame table (byteAt s (i + 1)) = frame table (byteAt s i) + 4096 := by
        by_contra hne
        exact h ⟨i, hi, halign, hne⟩
      rw [toNat_byteAt] at halign
      omega
    · have hsame : frame table (byteAt s (i + 1)) = frame table (byteAt s i) := by
        unfold frame
        rw [entry_congr table (show (byteAt s (i + 1)).toNat / 4096 = (byteAt s i).toNat / 4096 by
          rw [toNat_byteAt] at halign
          rw [toNat_byteAt, toNat_byteAt]
          omega)]
      rw [toNat_byteAt] at halign
      omega

theorem byteAt_byteAt (s : BitVec 32) (i j : Nat) : byteAt (byteAt s i) j = byteAt s (i + j) := by
  unfold byteAt
  rw [BitVec.add_assoc, BitVec.ofNat_add]

/-! ## Transfers through a granted access -/

/-- An access that stands for a span of constant length: it starts at the span's first byte, and unless it is scattered
    the bytes follow. -/
structure Access.Grants (access : Access) (table : Memory) (start bytes : BitVec 32) : Prop where
  linear : access.linear = start
  physical : access.physical = translate table start
  constant : access.constantBytes = some bytes
  direct : access.scattered = false → ∀ i < bytes.toNat,
    byteAddress table start i = (translate table start).toNat + i

variable {access : Access} {bytes : BitVec 32} {offset : Nat} {type : MemoryType}

theorem Access.Grants.fits (h : access.Grants table s bytes) (hfld : access.checkField offset type = true) :
    offset + type.bytes ≤ bytes.toNat := by
  unfold Access.checkField at hfld
  rw [h.constant] at hfld
  have := of_decide_eq_true hfld
  omega

/-- A field of a one-byte span is its byte. -/
theorem Access.Grants.byte (h : access.Grants table s bytes) (hfld : access.checkField offset type = true)
    (hone : access.constantBytes = some 1) : offset = 0 ∧ type.bytes = 1 ∧
      (translate table s).toNat = byteAddress table s 0 := by
  have hfits := h.fits hfld
  have hpos := type.bytes_pos
  obtain rfl : bytes = 1 := Option.some.inj (h.constant.symm.trans hone)
  have : (1 : BitVec 32).toNat = 1 := rfl
  refine ⟨by omega, by omega, ?_⟩
  rw [byteAddress, byteAt_zero]

theorem readPart_eq (table guest : Memory) (s : BitVec 32) (offset part count : Nat) :
    readPart table guest (byteAt s offset) part count =
      Memory.ofBytes 64 (readBytes table guest s (offset + part) count) := by
  unfold readPart readBytes
  rw [← Memory.foldl_ofBytes]
  refine congrArg (fun f => (List.range count).foldl f 0) ?_
  funext value j
  rw [Nat.add_assoc, byteAddress, ← byteAt_byteAt]
  rfl

theorem readBytes_add (table guest : Memory) (s : BitVec 32) (offset a b : Nat) :
    readBytes table guest s offset (a + b) =
      readBytes table guest s offset a ++ readBytes table guest s (offset + a) b := by
  simp [readBytes, List.range_add, Nat.add_assoc]

theorem length_readBytes (table guest : Memory) (s : BitVec 32) (offset count : Nat) :
    (readBytes table guest s offset count).length = count := by
  simp [readBytes]

theorem declareReader_eq (table guest : Memory) (type : MemoryType) (s : BitVec 32) (offset : Nat) :
    declareReader table guest type (byteAt s offset) =
      Memory.ofBytes 128 (readBytes table guest s offset type.bytes) := by
  have hscalar : ∀ count, 8 * count ≤ 64 →
      ((readPart table guest (byteAt s offset) 0 count).setWidth (8 * count)).setWidth 128 =
        Memory.ofBytes 128 (readBytes table guest s offset count) := by
    intro count hcnt
    have hlen := length_readBytes table guest s offset count
    rw [readPart_eq, Nat.add_zero, Memory.setWidth_ofBytes (by rw [hlen]; exact hcnt),
      Memory.setWidth_ofBytes (by rw [hlen])]
  cases type with
  | vector =>
    have hlow := length_readBytes table guest s offset 8
    have hhi := length_readBytes table guest s (offset + 8) 8
    unfold declareReader
    dsimp only
    rw [readPart_eq, readPart_eq, Nat.add_zero, Memory.setWidth_ofBytes (by rw [hlow]),
      Memory.setWidth_ofBytes (by rw [hhi]), show MemoryType.vector.bytes = 8 + 8 from rfl, readBytes_add,
      Memory.ofBytes_append, hlow]
  | byte => exact hscalar 1 (by decide)
  | word => exact hscalar 2 (by decide)
  | dword => exact hscalar 4 (by decide)
  | qword => exact hscalar 8 (by decide)

/-- A read is that of each byte through its own entry. -/
theorem read_spec (guest : Memory) (h : access.Grants table s bytes)
    (hfld : access.checkField offset type = true) :
    read table guest access offset type =
      some (Memory.ofBytes 128 (readBytes table guest s offset type.bytes)) := by
  have hfits := h.fits hfld
  unfold read
  rw [if_pos hfld]
  split
  next hone =>
    obtain ⟨rfl, hbytes, haddr⟩ := h.byte hfld hone
    rw [h.physical, haddr, hbytes, Memory.load]
    rfl
  next =>
    split
    next =>
      rw [h.linear, show s + BitVec.ofNat 32 offset = byteAt s offset from rfl, declareReader_eq]
    next hscat =>
      rw [h.physical, Memory.load, Memory.read]
      refine congrArg (fun bytes => some (Memory.ofBytes 128 bytes)) (List.map_congr_left fun j hj => ?_)
      have := List.mem_range.mp hj
      rw [h.direct (by simpa using hscat) (offset + j) (by omega), Nat.add_assoc]

theorem writePart_eq (table guest : Memory) (s : BitVec 32) (offset part count : Nat) (value : BitVec 64)
    (whole : BitVec 128) (hval : ∀ j < count, (value >>> (8 * j)).setWidth 8 = (whole >>> (8 * j)).setWidth 8) :
    writePart table guest (byteAt s offset) part count value =
      writeBytes table guest s (offset + part) count whole := by
  unfold writePart writeBytes
  refine List.foldl_ext _ _ _ fun guest j hj => ?_
  dsimp only
  rw [Nat.mul_comm j 8, hval j (List.mem_range.mp hj), Nat.add_assoc, byteAddress, ← byteAt_byteAt]
  rfl

theorem writeBytes_add (table guest : Memory) (s : BitVec 32) (offset a b : Nat) (value : BitVec 128) :
    writeBytes table guest s offset (a + b) value =
      writeBytes table (writeBytes table guest s offset a value) s (offset + a) b (value >>> (8 * a)) := by
  unfold writeBytes
  rw [List.range_add, List.foldl_append, List.foldl_map]
  refine List.foldl_ext _ _ _ fun guest j _ => ?_
  rw [← Nat.add_assoc, Nat.mul_add, BitVec.shiftRight_add]

theorem declareWriter_eq (table guest : Memory) (type : MemoryType) (s : BitVec 32) (offset : Nat)
    (value : BitVec 128) :
    declareWriter table guest type (byteAt s offset) value = writeBytes table guest s offset type.bytes value := by
  have hbytes : ∀ (k : Nat) (v : BitVec 128) (j : Nat), 8 * j + 8 ≤ k →
      ((v.setWidth k) >>> (8 * j)).setWidth 8 = (v >>> (8 * j)).setWidth 8 := by
    intro k v j hj
    refine BitVec.eq_of_getLsbD_eq fun i hi => ?_
    simp only [BitVec.getLsbD_setWidth, BitVec.getLsbD_ushiftRight, show 8 * j + i < k by omega, decide_true,
      Bool.true_and]
  have hscalar : ∀ count, count ≤ 8 →
      writePart table guest (byteAt s offset) 0 count ((value.setWidth (8 * count)).setWidth 64) =
        writeBytes table guest s offset count value := by
    intro count hcnt
    refine writePart_eq table guest s offset 0 count _ value fun j hj => ?_
    refine BitVec.eq_of_getLsbD_eq fun i hi => ?_
    simp only [BitVec.getLsbD_setWidth, BitVec.getLsbD_ushiftRight, show 8 * j + i < 64 by omega,
      show 8 * j + i < 8 * count by omega, decide_true, Bool.true_and]
  cases type with
  | vector =>
    unfold declareWriter
    dsimp only
    rw [writePart_eq table guest s offset 0 8 _ value fun j hj => hbytes 64 value j (by omega),
      writePart_eq table _ s offset 8 8 _ (value >>> 64) fun j hj => hbytes 64 _ j (by omega),
      show MemoryType.vector.bytes = 8 + 8 from rfl, writeBytes_add]
    rfl
  | byte => exact hscalar 1 (by decide)
  | word => exact hscalar 2 (by decide)
  | dword => exact hscalar 4 (by decide)
  | qword => exact hscalar 8 (by decide)

/-- A write is that of each byte through its own entry, in order. -/
theorem write_spec (guest : Memory) (value : BitVec 128) (h : access.Grants table s bytes)
    (hfld : access.checkField offset type = true) (hintent : access.intent = .write) :
    write table guest access offset type value = some (writeBytes table guest s offset type.bytes value) := by
  have hfits := h.fits hfld
  have hblk : ∀ address, (∀ j < type.bytes, byteAddress table s (offset + j) = address + j) →
      guest.write address (Memory.lowBytes type.bytes value) =
        writeBytes table guest s offset type.bytes value := by
    intro address haddr
    unfold writeBytes Memory.lowBytes
    rw [← Memory.foldl_write]
    refine List.foldl_ext _ _ _ fun guest j hj => ?_
    rw [haddr j (List.mem_range.mp hj)]
  unfold write
  rw [if_pos ⟨hfld, hintent⟩]
  split
  next hone =>
    obtain ⟨rfl, hbytes, haddr⟩ := h.byte hfld hone
    refine congrArg some (hblk _ fun j hj => ?_)
    obtain rfl : j = 0 := by omega
    rw [h.physical, haddr]
    rfl
  next =>
    split
    next =>
      rw [h.linear, show s + BitVec.ofNat 32 offset = byteAt s offset from rfl, declareWriter_eq]
    next hscat =>
      refine congrArg some (hblk _ fun j hj => ?_)
      rw [h.physical, h.direct (by simpa using hscat) (offset + j) (by omega), Nat.add_assoc]

/-! ## Resolved spans -/

/-- A denial, raised or returned. -/
def denies : Except PageFault Access → Bool
  | .error _ => true
  | .ok access => access.denied

/-- The backing of a granted span: whether it is scattered, and where it starts. -/
def backing : Except PageFault Access → Option (Bool × BitVec 32)
  | .error _ => none
  | .ok access => if access.denied then none else some (access.scattered, access.physical)

/-- The first denied page in walk order. -/
def FirstDeniedPage (table : Memory) (intent : Intent) (start : BitVec 32) (n k : Nat) : Prop :=
  k ≤ boundaries start n ∧ ¬ Allows table intent (pageAt start k) ∧ ∀ j < k, Allows table intent (pageAt start j)

variable {intent : Intent} {length : Length} {faulting : Bool} {result : Except PageFault Access}

theorem not_permitted_iff : ¬ Permitted table intent s n ↔ ∃ i < n, ¬ Allows table intent (byteAt s i) := by
  unfold Permitted
  push Not
  rfl

/-- The page of the first denied byte is the first denied page, and the byte is its first one in the span. -/
theorem FirstDenied.page (hn : 0 < n) (h : FirstDenied table intent s n i) :
    ∃ k, FirstDeniedPage table intent s n k ∧ byteAt s i = (if k = 0 then s else pageAt s k) ∧
      entry table (byteAt s i) = entry table (pageAt s k) := by
  obtain ⟨hi, hden, hbef⟩ := h
  have hexists : ∃ k, k ≤ boundaries s n ∧ ¬ Allows table intent (pageAt s k) := by
    refine ⟨_, @le_boundaries s _ _ hn hi, ?_⟩
    unfold Allows at hden ⊢
    rwa [← entry_byteAt]
  have hmin : ∃ k, FirstDeniedPage table intent s n k := by
    refine ⟨Nat.find hexists, (Nat.find_spec hexists).1, (Nat.find_spec hexists).2, fun j hj => ?_⟩
    by_contra hnot
    have hle := (Nat.find_spec hexists).1
    exact Nat.find_min hexists hj ⟨by omega, hnot⟩
  obtain ⟨k, hk, hkdenied, hkbefore⟩ := hmin
  obtain ⟨j, ⟨-, hjdenied, hjbefore⟩, haddr, hent⟩ := firstDenied_of_page hn hk hkdenied hkbefore
  obtain rfl : j = i := by
    rcases Nat.lt_trichotomy j i with hlt | heq | hlt
    · exact absurd (hbef j hlt) hjdenied
    · exact heq
    · exact absurd (hjbefore i hlt) hden
  exact ⟨k, ⟨hk, hkdenied, hkbefore⟩, haddr, hent⟩

theorem Resolved.denies_iff (h : Resolved table s length intent faulting result) :
    denies result = true ↔ ¬ Permitted table intent s length.bytes.toNat := by
  constructor
  · intro hdenies hperm
    obtain ⟨unavailable, rfl, -⟩ := h.granted hperm
    exact Bool.false_ne_true hdenies
  · intro hnot
    cases faulting with
    | true =>
      obtain ⟨i, -, rfl⟩ := h.faulted hnot rfl
      rfl
    | false =>
      rw [h.denied hnot rfl]
      rfl

/-- Granted resolutions stand for their span. -/
theorem Resolved.of_ok (h : Resolved table s length intent faulting (.ok access))
    (hden : access.denied = false) :
    Permitted table intent s length.bytes.toNat ∧ access.linear = s ∧
      access.physical = translate table s ∧ access.intent = intent ∧
      access.constantBytes = length.constantBytes ∧
      (access.scattered = true ↔ Scattered table s length.bytes.toNat) := by
  have hperm : Permitted table intent s length.bytes.toNat := by
    by_contra hnot
    exact absurd (h.denies_iff.mpr hnot) (by rw [denies, hden]; decide)
  obtain ⟨unavailable, heq, hscat⟩ := h.granted hperm
  obtain rfl := Except.ok.inj heq
  refine ⟨hperm, rfl, rfl, rfl, rfl, ?_⟩
  rw [← hscat, Access.scattered, Bool.not_false, Bool.and_true]

theorem Resolved.grants (h : Resolved table s (.constant bytes) intent faulting (.ok access))
    (hden : access.denied = false) : access.Grants table s bytes := by
  obtain ⟨-, hlinear, hphys, -, hconst, hscat⟩ := h.of_ok hden
  refine ⟨hlinear, hphys, hconst, fun hdir i hi => contiguous ?_ hi⟩
  rw [← Bool.not_eq_true] at hdir
  exact fun hnot => hdir (hscat.mpr hnot)

/-- The backing is told by the span alone. -/
theorem Resolved.backing_eq {length' : Length} {faulting' : Bool} {res' : Except PageFault Access}
    (h : Resolved table s length intent faulting result)
    (h' : Resolved table s length' intent faulting' res') (hbytes : length'.bytes = length.bytes) :
    denies res' = denies result ∧ backing res' = backing result := by
  by_cases hperm : Permitted table intent s length.bytes.toNat
  · obtain ⟨unavailable, rfl, hscat⟩ := h.granted hperm
    obtain ⟨unavailable', rfl, hscat'⟩ := h'.granted (hbytes ▸ hperm)
    rw [hbytes] at hscat'
    obtain rfl : unavailable' = unavailable := Bool.eq_iff_iff.mpr (hscat'.trans hscat.symm)
    exact ⟨rfl, rfl⟩
  · have hdenies := h.denies_iff.mpr hperm
    have hdenies' := h'.denies_iff.mpr (hbytes ▸ hperm)
    refine ⟨hdenies'.trans hdenies.symm, ?_⟩
    have hnone : ∀ {answer : Except PageFault Access}, denies answer = true → backing answer = none := by
      intro answer hanswer
      cases answer with
      | error fault => rfl
      | ok access => exact if_pos hanswer
    rw [hnone hdenies, hnone hdenies']

theorem Access.checkField_iff (hconst : access.constantBytes = some bytes) :
    access.checkField offset type = true ↔ offset + type.bytes ≤ bytes.toNat := by
  have hpos := type.bytes_pos
  unfold Access.checkField
  rw [hconst, decide_eq_true_iff]
  omega

/-- Every way of resolving a nonempty span denies it exactly when a touched byte's entry lacks a permission, faults at
    its first denied page, and tells scattered backing from backing that follows the first byte; transfers through the
    granted span are those of each byte through its own entry. -/
theorem virtual_spans (table : Memory) (start : BitVec 32) (length : Length) (intent : Intent) (faulting : Bool)
    (cache : Option PageCache) (hcache : ∀ retained, cache = some retained → PageCache.Loop table retained)
    (hn : length.bytes ≠ 0) :
    let result := (resolveAccess table start length intent faulting cache).1
    let n := length.bytes.toNat
    (denies result = true ↔ ∃ i < n, ¬ Allows table intent (byteAt start i)) ∧
    (faulting = true → denies result = true → ∃ k, FirstDeniedPage table intent start n k ∧
      result = .error ⟨if k = 0 then start else pageAt start k,
        errorCode intent (isPresent (entry table (pageAt start k)))⟩) ∧
    (faulting = false → ∃ access, result = .ok access) ∧
    (∀ access, result = .ok access → access.denied = false →
      (access.scattered = true ↔ Scattered table start n) ∧
      (access.scattered = false → ∀ i < n, byteAddress table start i = access.physical.toNat + i)) ∧
    (∀ length' faulting' cache', length'.bytes = length.bytes →
      (∀ retained, cache' = some retained → PageCache.Loop table retained) →
      let result' := (resolveAccess table start length' intent faulting' cache').1
      denies result' = denies result ∧ backing result' = backing result) ∧
    ∀ access guest offset type, result = .ok access → access.denied = false →
      length = .constant length.bytes → offset + type.bytes ≤ n →
      read table guest access offset type =
        some (Memory.ofBytes 128 (readBytes table guest start offset type.bytes)) ∧
      (intent = .write → ∀ value, write table guest access offset type value =
        some (writeBytes table guest start offset type.bytes value)) := by
  have hpos : 0 < length.bytes.toNat := by
    by_contra hzero
    exact hn (BitVec.eq_of_toNat_eq (Nat.eq_zero_of_not_pos hzero))
  have h := resolveAccess_resolved table start intent length faulting cache hcache hpos
  dsimp only
  refine ⟨h.denies_iff.trans not_permitted_iff, ?_, ?_, ?_, ?_, ?_⟩
  · rintro hfaulting hdenies
    obtain ⟨i, hdenied, hresult⟩ := h.faulted (h.denies_iff.mp hdenies) hfaulting
    obtain ⟨k, hpage, haddress, hentry⟩ := hdenied.page hpos
    exact ⟨k, hpage, by rw [hresult, hentry, haddress]⟩
  · intro hfaulting
    by_cases hpermitted : Permitted table intent start length.bytes.toNat
    · obtain ⟨unavailable, hresult, -⟩ := h.granted hpermitted
      exact ⟨_, hresult⟩
    · exact ⟨_, h.denied hpermitted hfaulting⟩
  · intro access hresult hdenied
    obtain ⟨-, -, hphysical, -, -, hscattered⟩ := (hresult ▸ h).of_ok hdenied
    refine ⟨hscattered, fun hdirect i hi => ?_⟩
    rw [hphysical]
    refine contiguous (fun hnot => ?_) hi
    exact absurd (hscattered.mpr hnot) (by rw [hdirect]; decide)
  · intro length' faulting' cache' hbytes hcache'
    exact h.backing_eq
      (resolveAccess_resolved table start intent length' faulting' cache' hcache' (hbytes ▸ hpos)) hbytes
  · intro access guest offset type hresult hdenied hconstant hfits
    have hresolved : Resolved table start (.constant length.bytes) intent faulting (.ok access) := by
      rw [← hconstant, ← hresult]
      exact h
    have hgrants := hresolved.grants hdenied
    have hfield := (Access.checkField_iff hgrants.constant).mpr hfits
    refine ⟨read_spec guest hgrants hfield, ?_⟩
    rintro rfl value
    obtain ⟨-, -, -, hintent, -⟩ := hresolved.of_ok hdenied
    exact write_spec guest value hgrants hfield hintent

/-- One writable page, backed by the page after it. -/
def onePage : Memory := Memory.ofList ((encodeEntry 0x1000 true).getD [])

/-- A write of four bytes is denied across the end of the page, from its third byte on, and granted in front of it. -/
theorem virtual_spans_onePage :
    (denies (resolveAccess onePage 0xFFE (.constant 4) .write true (some .empty)).1 = true ∧
      ¬ Allows onePage .write (byteAt 0xFFE 2)) ∧
    ∃ access, (resolveAccess onePage 0xFFC (.constant 4) .write true (some .empty)).1 = .ok access ∧
      access.scattered = false ∧ ∀ guest value, write onePage guest access 0 .dword value =
        some (writeBytes onePage guest 0xFFC 0 4 value) := by
  have hempty : ∀ retained, some PageCache.empty = some retained → PageCache.Loop onePage retained :=
    fun _ h => Option.some.inj h ▸ .empty
  have hdenied : ¬ Allows onePage .write (byteAt 0xFFE 2) := by decide
  have hspans := virtual_spans onePage 0xFFE (.constant 4) .write true (some .empty) hempty (by decide)
  refine ⟨⟨hspans.1.mpr ⟨2, by decide, hdenied⟩, hdenied⟩, ?_⟩
  obtain ⟨access, haccess, hgranted, hdirect⟩ : ∃ access,
      (resolveAccess onePage 0xFFC (.constant 4) .write true (some .empty)).1 = .ok access ∧
        access.denied = false ∧ access.scattered = false := ⟨_, rfl, by decide +kernel, by decide +kernel⟩
  obtain ⟨-, -, -, -, -, htransfers⟩ := virtual_spans onePage 0xFFC (.constant 4) .write true (some .empty) hempty
    (by decide)
  refine ⟨access, haccess, hdirect, fun guest value => ?_⟩
  exact (htransfers access guest 0 .dword haccess hgranted rfl (by decide)).2 rfl value

end Relocade.Virtual
