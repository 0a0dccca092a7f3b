import Mathlib.Tactic.Ring
import Relocade.Physical.Transfer

/-!
# `Physical.Routing` — transfers follow the map byte by byte

The abstract model transfers a span byte by byte where the map of the moment says, and hands adjacent MMIO bytes to
one callback. The general reader and writer, the typed transfers over them and the direct path refine it.
-/

namespace Relocade.Physical

open PhysicalMemoryMap
open BitVec (ofNat eq_of_getLsbD_eq getLsbD_and toNat_ofNat toNat_shiftLeft toNat_add toNat_sub setWidth_eq ofNat_add)
open Memory (lowBytes ofBytes read_add lowBytes_one setWidth_ofBytes)

/-! ## Words -/

theorem toNat_pageMask (x : BitVec 32) : (x &&& pageMask).toNat = x.toNat % 4096 := by
  rw [BitVec.toNat_and, show pageMask.toNat = 2 ^ 12 - 1 from rfl, Nat.and_two_pow_sub_one_eq_mod]

theorem toNat_page (x : BitVec 32) : (x >>> pageShift).toNat = x.toNat / 4096 := by
  rw [BitVec.toNat_ushiftRight, Nat.shiftRight_eq_div_pow]
  rfl

theorem load_eq {table : Memory} {addr : Nat} {word : BitVec 32}
    (h : table.read addr 4 = lowBytes 4 word) : table.load 32 addr 4 = word := by
  rw [Memory.load, h]
  refine eq_of_getLsbD_eq fun i hi => ?_
  rw [Memory.getLsbD_ofBytes_lowBytes]
  simp [hi]

/-! ## Maps -/

section

variable {map : PhysicalMemoryMap}

variable {a : BitVec 32}

/-- Clearing bit 20 of an address below 0x110000 wraps it at 1 MiB. -/
theorem toNat_clear_a20 (ha : a.toNat < 0x110000) :
    (a &&& ~~~(1#32 <<< 20)).toNat = if 0x100000 ≤ a.toNat then a.toNat - 0x100000 else a.toNat := by
  have hbit : ∀ i, (~~~(1#32 <<< 20)).getLsbD i = (decide (i < 32) && decide (i ≠ 20)) := by
    have key : ∀ i : Fin 32, (~~~(1#32 <<< 20)).getLsbD i = decide (i.val ≠ 20) := by decide
    intro i
    rcases Nat.lt_or_ge i 32 with hi | hi
    · simpa [hi] using key ⟨i, hi⟩
    · rw [BitVec.getLsbD_of_ge _ _ hi]
      simp [Nat.not_lt.mpr hi]
  by_cases h : 0x100000 ≤ a.toNat
  · rw [if_pos h]
    obtain ⟨r, hr⟩ := Nat.exists_eq_add_of_le h
    have heq : a &&& ~~~(1#32 <<< 20) = ofNat 32 r := by
      refine eq_of_getLsbD_eq fun i hi => ?_
      rw [getLsbD_and, hbit, BitVec.getLsbD_ofNat]
      have ha' : a.getLsbD i = Nat.testBit (2 ^ 20 + r) i := congrArg (Nat.testBit · i) hr
      rcases Nat.lt_trichotomy i 20 with hlt | rfl | hgt
      · rw [ha', Nat.testBit_two_pow_add_gt hlt]
        simp [hi, Nat.ne_of_lt hlt]
      · rw [Nat.testBit_lt_two_pow (show r < 2 ^ 20 by omega)]
        simp
      · have hpow : 2 ^ 21 ≤ 2 ^ i := Nat.pow_le_pow_right (by decide) hgt
        rw [ha', Nat.testBit_lt_two_pow (show 2 ^ 20 + r < 2 ^ i by omega),
          Nat.testBit_lt_two_pow (show r < 2 ^ i by omega)]
        simp
    rw [heq, toNat_ofNat]
    omega
  · rw [if_neg h]
    refine congrArg BitVec.toNat (eq_of_getLsbD_eq fun i hi => ?_ : a &&& ~~~(1#32 <<< 20) = a)
    rw [getLsbD_and, hbit]
    by_cases h20 : i = 20
    · subst h20
      have : a.getLsbD 20 = false := Nat.testBit_lt_two_pow (Nat.not_le.mp h)
      rw [this]
      rfl
    · simp [hi, h20]

/-- Where the bus addresses wrap: at 1 MiB, or not below the end of the table. -/
def wrapPoint (map : PhysicalMemoryMap) : Nat := if map.a20Enabled then 0x110000 else 0x100000

theorem wrapPoint_cases (map : PhysicalMemoryMap) : wrapPoint map = 0x110000 ∨ wrapPoint map = 0x100000 := by
  unfold wrapPoint
  split
  · exact Or.inl rfl
  · exact Or.inr rfl

/-- Below 0x110000 the A20 gate subtracts 1 MiB from the addresses that wrap. -/
theorem toNat_busAddress (ha : a.toNat < 0x110000) :
    (map.busAddress a).toNat = if wrapPoint map ≤ a.toNat then a.toNat - 0x100000 else a.toNat := by
  unfold busAddress addressMask wrapPoint
  cases map.a20Enabled with
  | true => rw [if_pos rfl, BitVec.and_allOnes, if_pos rfl, if_neg (by omega)]
  | false =>
    show (a &&& ~~~(1#32 <<< 20)).toNat = if 0x100000 ≤ a.toNat then a.toNat - 0x100000 else a.toNat
    exact toNat_clear_a20 ha

theorem toNat_busAddress_lt (map : PhysicalMemoryMap) (ha : a.toNat < 0x110000) : (map.busAddress a).toNat < 0x110000 := by
  rw [toNat_busAddress ha]
  split <;> omega

/-- The page an address is on, after the A20 gate. -/
def page (map : PhysicalMemoryMap) (a : BitVec 32) (ha : a.toNat < 0x110000) : PhysicalMapping :=
  map.pages ⟨(map.busAddress a >>> pageShift).toNat, by
    have := toNat_busAddress_lt map ha
    rw [toNat_page, pageCount]
    omega⟩

theorem get_eq (ha : a.toNat < 0x110000) :
    map.get a = (page map a ha).advance (map.busAddress a &&& pageMask) := by
  have hlt : (map.busAddress a >>> pageShift).toNat < pageCount := by
    have := toNat_busAddress_lt map ha
    rw [toNat_page, pageCount]
    omega
  rw [PhysicalMemoryMap.get, if_neg (by rw [show pageCount * pageBytes.toNat = 0x110000 from rfl]; omega)]
  dsimp only
  rw [dif_pos hlt]
  rfl

/-- Backing pages are whole pages of the backing address space. -/
def Aligned (pages : Fin pageCount → PhysicalMapping) : Prop :=
  ∀ page offset, (pages page).backingOffset = some offset → offset.toNat % 4096 = 0 ∧ offset.toNat + 4096 ≤ 2 ^ 32

theorem addRegion_aligned {pages pages' : Fin pageCount → PhysicalMapping} {region : Region} (h : Aligned pages)
    (hadd : addRegion pages region = .ok pages') : Aligned pages' := by
  obtain ⟨start, stop, mapping⟩ := region
  unfold addRegion at hadd
  dsimp only at hadd
  split at hadd
  · exact absurd hadd (by simp)
  next hne =>
  split at hadd
  · exact absurd hadd (by simp)
  next hal =>
  split at hadd
  · exact absurd hadd (by simp)
  next hbound =>
  rw [not_or, not_not, not_not] at hal
  have hst : start.toNat % 4096 = 0 := by rw [← toNat_pageMask, hal.1]; rfl
  have hstop : stop.toNat % 4096 = 4095 := by rw [← toNat_pageMask, hal.2]; rfl
  have hle : start.toNat ≤ stop.toNat := Nat.not_lt.mp hne
  have hpages : pages' = fun page : Fin pageCount =>
      if (start >>> pageShift).toNat ≤ page.val ∧ page.val < (stop >>> pageShift).toNat + 1 then
        mapping.advance (ofNat 32 (page.val - (start >>> pageShift).toNat) <<< pageShift)
      else pages page := by
    split at hadd
    · split at hadd
      · exact absurd hadd (by simp)
      split at hadd
      · exact absurd hadd (by simp)
      · exact (Except.ok.inj hadd).symm
    · exact (Except.ok.inj hadd).symm
  have hbacking : ∀ backing, mapping.backingOffset = some backing →
      backing.toNat % 4096 = 0 ∧ backing.toNat + (stop.toNat - start.toNat + 1) ≤ 2 ^ 32 := by
    intro backing hb
    rw [hb] at hadd
    dsimp only at hadd
    split at hadd
    · exact absurd hadd (by simp)
    next hmask =>
    split at hadd
    · exact absurd hadd (by simp)
    next hsum =>
    rw [not_not] at hmask
    exact ⟨by rw [← toNat_pageMask, hmask]; rfl, by omega⟩
  intro page offset hoff
  rw [hpages] at hoff
  dsimp only at hoff
  split at hoff
  · next hin =>
      rw [toNat_page, toNat_page] at hin
      have hadvance : ∀ backing, mapping.backingOffset = some backing →
          offset = backing + ofNat 32 (page.val - (start >>> pageShift).toNat) <<< pageShift →
          offset.toNat % 4096 = 0 ∧ offset.toNat + 4096 ≤ 2 ^ 32 := by
        rintro backing hb rfl
        obtain ⟨hmod, hsum⟩ := hbacking backing hb
        have hsh : (ofNat 32 (page.val - (start >>> pageShift).toNat) <<< pageShift).toNat =
            (page.val - start.toNat / 4096) * 4096 := by
          have : page.val < 272 := page.isLt
          rw [toNat_shiftLeft, toNat_page, toNat_ofNat, Nat.shiftLeft_eq, show pageShift = 12 from rfl]
          omega
        rw [toNat_add, hsh]
        omega
      cases mapping with
      | unmapped => exact absurd hoff (by simp [PhysicalMapping.advance, PhysicalMapping.backingOffset])
      | mmio => exact absurd hoff (by simp [PhysicalMapping.advance, PhysicalMapping.backingOffset])
      | ram backing => exact hadvance backing rfl (Option.some.inj hoff).symm
      | rom backing => exact hadvance backing rfl (Option.some.inj hoff).symm
  · exact h page offset hoff

theorem new_aligned {regions : List Region} (h : PhysicalMemoryMap.new regions = .ok map) : Aligned map.pages := by
  have hfold : ∀ (regions : List Region) pages pages', Aligned pages →
      regions.foldlM addRegion pages = .ok pages' → Aligned pages' := by
    intro regions
    induction regions with
    | nil =>
      intro pages pages' hp hok
      obtain rfl := Except.ok.inj hok
      exact hp
    | cons region regions ih =>
      intro pages pages' hp hok
      rw [List.foldlM_cons] at hok
      cases hadd : addRegion pages region with
      | error e =>
        rw [hadd] at hok
        exact absurd hok (by simp [bind, Except.bind])
      | ok mid =>
        rw [hadd] at hok
        exact ih mid pages' (addRegion_aligned hp hadd) hok
  unfold PhysicalMemoryMap.new at h
  cases hf : regions.foldlM addRegion (fun _ => PhysicalMapping.unmapped) with
  | error e =>
    rw [hf] at h
    exact absurd h (by simp [bind, Except.bind])
  | ok pages =>
    rw [hf] at h
    obtain rfl := Except.ok.inj h
    exact hfold regions _ pages (fun _ _ hoff => absurd hoff (by simp [PhysicalMapping.backingOffset])) hf

/-! ## The installed table -/

/-- A table that holds the image of a map with whole backing pages. -/
structure Holds (map : PhysicalMemoryMap) (table : Memory) : Prop where
  image : table.read 0 byteLen = map.toBytes
  aligned : Aligned map.pages

theorem Installed.holds {table : Memory} (h : Installed table) : ∃ map, Holds map table := by
  obtain ⟨regions, map, enabled, hnew, himage⟩ := h
  have haligned : Aligned map.pages := new_aligned hnew
  exact ⟨map.setA20Enabled enabled, himage, haligned⟩

variable {table : Memory}

theorem Holds.load_mask (h : Holds map table) : table.load 32 a20MaskOffset 4 = map.addressMask := by
  have himage := h.image
  rw [byteLen, read_add, toBytes] at himage
  refine load_eq ?_
  have := (List.append_inj' himage (by simp)).2
  rwa [Nat.zero_add] at this

theorem Holds.load_page (h : Holds map table) (page : Fin pageCount) :
    table.load 32 (8 * page.val) 4 = (map.pages page).words.1 ∧
      table.load 32 (8 * page.val + 4) 4 = (map.pages page).words.2 := by
  have himage := h.image
  rw [byteLen, read_add, toBytes] at himage
  have hentries := (List.append_inj' himage (by simp)).1
  have hsize : a20MaskOffset = 8 * (List.finRange pageCount).length := by
    rw [List.length_finRange]
    rfl
  rw [hsize] at hentries
  have hent := Memory.read_flatMap (fun _ => by simp) hentries (i := page.val) (by simp)
  rw [Nat.zero_add, List.getElem_finRange] at hent
  obtain ⟨hkind, hbacking⟩ := List.append_inj ((read_add table (8 * page.val) 4 4).symm.trans hent) (by simp)
  exact ⟨load_eq hkind, load_eq hbacking⟩

/-- A lookup finds the page of an address below 0x110000. -/
theorem Holds.lookup (h : Holds map table) (ha : a.toNat < 0x110000) :
    lookup table a = ⟨(page map a ha).words.1, map.busAddress a, (page map a ha).words.2⟩ := by
  have hbus : a &&& table.load 32 a20MaskOffset 4 = map.busAddress a := by rw [h.load_mask, busAddress]
  have hpage := toNat_page (map.busAddress a)
  have hlt := toNat_busAddress_lt map ha
  have hoffset : ((map.busAddress a >>> pageShift) <<< 3).toNat = 8 * (map.busAddress a >>> pageShift).toNat := by
    rw [toNat_shiftLeft, Nat.shiftLeft_eq, hpage]
    omega
  unfold Physical.lookup
  dsimp only
  rw [hbus, hoffset]
  obtain ⟨hkind, hbacking⟩ := h.load_page ⟨(map.busAddress a >>> pageShift).toNat, by
    rw [hpage, pageCount]
    omega⟩
  rw [hkind, hbacking]
  rfl

/-- Where an entry routes its address. -/
def Entry.mapping (entry : Entry) : PhysicalMapping :=
  if entry.kind = ramKind then .ram entry.backingAddress
  else if entry.kind = romKind then .rom entry.backingAddress
  else if entry.kind = mmioKind then .mmio
  else .unmapped

/-- A lookup routes an address as the map does. -/
theorem Holds.get (h : Holds map table) (ha : a.toNat < 0x110000) :
    map.get a = (Physical.lookup table a).mapping := by
  rw [get_eq ha, h.lookup ha]
  cases page map a ha <;> rfl

/-! ## Adjacent addresses -/

theorem kind_eq_mmio (h : Holds map table) (ha : a.toNat < 0x110000) :
    (Physical.lookup table a).kind = mmioKind ↔ map.get a = .mmio := by
  rw [get_eq ha, h.lookup ha]
  cases page map a ha <;> simp [PhysicalMapping.words, PhysicalMapping.advance, unmappedKind, ramKind, romKind, mmioKind]

/-- Addresses on one page of the bus are routed to MMIO together. -/
theorem get_mmio_congr {a b : BitVec 32} (ha : a.toNat < 0x110000) (hb : b.toNat < 0x110000)
    (h : (map.busAddress a).toNat / 4096 = (map.busAddress b).toNat / 4096) (hm : map.get a = .mmio) :
    map.get b = .mmio := by
  have hpage : page map b hb = page map a ha := by
    simp only [page, toNat_page, h]
  rw [get_eq ha] at hm
  rw [get_eq hb, hpage]
  cases hp : page map a ha with
  | mmio => rfl
  | _ =>
    rw [hp] at hm
    exact absurd hm (by simp [PhysicalMapping.advance])

theorem toNat_ofNat_lt {a : Nat} (ha : a < 0x110000) : (ofNat 32 a).toNat = a := by
  rw [toNat_ofNat]
  omega

/-- Within a page the bus addresses are adjacent. -/
theorem busAddress_add (map : PhysicalMemoryMap) {a j : Nat} (haj : a + j < 0x110000) (hj : a % 4096 + j < 4096) :
    (map.busAddress (.ofNat 32 (a + j))).toNat = (map.busAddress (.ofNat 32 a)).toNat + j := by
  have ha : a < 0x110000 := by omega
  rw [toNat_busAddress (by rwa [toNat_ofNat_lt haj]), toNat_busAddress (by rwa [toNat_ofNat_lt ha]),
    toNat_ofNat_lt haj, toNat_ofNat_lt ha]
  have := wrapPoint_cases map
  split <;> split <;> omega

theorem busAddress_mod {a : Nat} (ha : a < 0x110000) : (map.busAddress (.ofNat 32 a)).toNat % 4096 = a % 4096 := by
  rw [toNat_busAddress (by rwa [toNat_ofNat_lt ha]), toNat_ofNat_lt ha]
  have := wrapPoint_cases map
  split <;> omega

/-- Bus addresses stay adjacent across the end of a page where the address at that end does not wrap. -/
theorem wrap_add {k a j : Nat} (hk : k = 0x110000 ∨ k = 0x100000)
    (hend : (if k ≤ (if k ≤ a then a - 0x100000 else a) + (4096 - a % 4096) then
        (if k ≤ a then a - 0x100000 else a) + (4096 - a % 4096) - 0x100000
      else (if k ≤ a then a - 0x100000 else a) + (4096 - a % 4096)) =
      (if k ≤ a then a - 0x100000 else a) + (4096 - a % 4096))
    (haj : a + j < 0x110000) (hj : j < 8) :
    (if k ≤ a + j then a + j - 0x100000 else a + j) = (if k ≤ a then a - 0x100000 else a) + j := by
  by_cases ha : k ≤ a
  · rw [if_pos ha, if_pos (by omega)]
    omega
  · rw [if_neg ha] at hend ⊢
    split at hend
    · omega
    · rw [if_neg (by omega)]

/-- The next part of a span: one byte outside MMIO, else adjacent MMIO bytes with adjacent bus addresses. -/
theorem transferBytes_spec (h : Holds map table) {a n : Nat} (hn : 1 ≤ n) (hn' : n ≤ 8) (ha : a + n ≤ 0x110000) :
    ∃ c, transferBytes table (Physical.lookup table (.ofNat 32 a)) (.ofNat 32 n) = .ofNat 32 c ∧ 1 ≤ c ∧ c ≤ n ∧
      (map.get (.ofNat 32 a) ≠ .mmio → c = 1) ∧
      (map.get (.ofNat 32 a) = .mmio → ∀ j < c, map.get (.ofNat 32 (a + j)) = .mmio ∧
        (map.busAddress (.ofNat 32 (a + j))).toNat = (map.busAddress (.ofNat 32 a)).toNat + j) := by
  have ha' : (ofNat 32 a).toNat < 0x110000 := by rw [toNat_ofNat_lt] <;> omega
  have hkind := kind_eq_mmio h ha'
  have hmod : (map.busAddress (.ofNat 32 a)).toNat % 4096 = a % 4096 := busAddress_mod (by omega)
  by_cases hm : map.get (.ofNat 32 a) = .mmio
  case neg =>
    refine ⟨1, ?_, le_refl _, hn, fun _ => rfl, fun hmmio => absurd hmmio hm⟩
    unfold transferBytes
    dsimp only
    rw [if_neg (c := _ = mmioKind) (fun hk => hm (hkind.mp hk))]
    rfl
  have haddr : (Physical.lookup table (.ofNat 32 a)).address = map.busAddress (.ofNat 32 a) := by rw [h.lookup ha']
  -- bytes on the first page
  have hwithin : ∀ j, a % 4096 + j < 4096 → a + j < 0x110000 → map.get (.ofNat 32 (a + j)) = .mmio ∧
      (map.busAddress (.ofNat 32 (a + j))).toNat = (map.busAddress (.ofNat 32 a)).toNat + j := by
    intro j hj haj
    have hbus := busAddress_add map haj hj
    refine ⟨get_mmio_congr ha' (by rwa [toNat_ofNat_lt haj]) ?_ hm, hbus⟩
    rw [hbus]
    omega
  have hinPage : (pageBytes - (map.busAddress (.ofNat 32 a) &&& pageMask)) = .ofNat 32 (4096 - a % 4096) := by
    refine BitVec.eq_of_toNat_eq ?_
    rw [toNat_sub, toNat_pageMask, hmod, toNat_ofNat, show pageBytes.toNat = 4096 from rfl]
    omega
  have hremaining : (ofNat 32 n).toNat = n := toNat_ofNat_lt (by omega)
  have hinPage' : (ofNat 32 (4096 - a % 4096)).toNat = 4096 - a % 4096 := toNat_ofNat_lt (by omega)
  unfold transferBytes
  dsimp only
  rw [haddr, hinPage, if_pos (c := _ = mmioKind) (hkind.mpr hm)]
  by_cases hcross : 4096 - a % 4096 < n
  case neg =>
    refine ⟨n, ?_, hn, le_refl _, fun hne => absurd hm hne, fun _ j hj => hwithin j (by omega) (by omega)⟩
    rw [if_neg (by rw [BitVec.lt_def, hinPage', hremaining]; exact hcross)]
  rw [if_pos (by rw [BitVec.lt_def, hinPage', hremaining]; exact hcross), if_pos (hkind.mpr hm)]
  split
  case isFalse =>
    exact ⟨4096 - a % 4096, rfl, by omega, by omega, fun hne => absurd hm hne,
      fun _ j hj => hwithin j (by omega) (by omega)⟩
  next hnext =>
  refine ⟨n, rfl, hn, le_refl _, fun hne => absurd hm hne, fun _ j hj => ?_⟩
  by_cases hj' : a % 4096 + j < 4096
  · exact hwithin j hj' (by omega)
  -- bytes on the second page
  obtain ⟨hkind', hadjacent⟩ := hnext
  have hbus_le : (map.busAddress (.ofNat 32 a)).toNat ≤ a := by
    rw [toNat_busAddress ha', toNat_ofNat_lt (by omega)]
    split <;> omega
  have hnextNat : (map.busAddress (.ofNat 32 a) + .ofNat 32 (4096 - a % 4096)).toNat =
      (map.busAddress (.ofNat 32 a)).toNat + (4096 - a % 4096) := by
    rw [toNat_add, hinPage']
    omega
  have hnextLt : (map.busAddress (.ofNat 32 a) + .ofNat 32 (4096 - a % 4096)).toNat < 0x110000 := by
    rw [hnextNat]
    omega
  have hgetNext := (kind_eq_mmio h hnextLt).mp hkind'
  rw [h.lookup hnextLt] at hadjacent
  dsimp only at hadjacent
  have hadjacent' := congrArg BitVec.toNat hadjacent
  rw [toNat_busAddress hnextLt, hnextNat] at hadjacent'
  have haj : a + j < 0x110000 := by omega
  have hbus : (map.busAddress (.ofNat 32 (a + j))).toNat = (map.busAddress (.ofNat 32 a)).toNat + j := by
    rw [toNat_busAddress ha', toNat_ofNat_lt (show a < 0x110000 by omega)] at hadjacent' ⊢
    rw [toNat_busAddress (by rwa [toNat_ofNat_lt haj]), toNat_ofNat_lt haj]
    exact wrap_add (wrapPoint_cases map) hadjacent' haj (by omega)
  refine ⟨get_mmio_congr hnextLt (by rwa [toNat_ofNat_lt haj]) ?_ hgetNext, hbus⟩
  rw [hbus, hadjacent, hnextNat]
  omega

end

/-! ## The abstract model -/

section

variable {D : Type} (host : Host D)

/-- A read of the bytes from `a` to `stop`: each byte outside MMIO comes from where the map of the moment routes it,
    and adjacent MMIO bytes at adjacent bus addresses come from one callback. -/
inductive Reads : Nat → Nat → Bus D → List (BitVec 8) → Bus D → Prop where
  | done {a bus} : Reads a a bus [] bus
  | direct {a stop bus bytes bus' map offset} : Holds map bus.table →
      (map.get (.ofNat 32 a) = .ram offset ∨ map.get (.ofNat 32 a) = .rom offset) →
      Reads (a + 1) stop bus bytes bus' → Reads a stop bus (bus.backing offset.toNat :: bytes) bus'
  | hole {a stop bus bytes bus' map} : Holds map bus.table → map.get (.ofNat 32 a) = .unmapped →
      Reads (a + 1) stop bus bytes bus' → Reads a stop bus (0xFF :: bytes) bus'
  | mmio {a stop bus bytes bus' map} (n : Nat) : Holds map bus.table → 1 ≤ n → n ≤ 8 →
      (∀ j < n, map.get (.ofNat 32 (a + j)) = .mmio ∧
        (map.busAddress (.ofNat 32 (a + j))).toNat = (map.busAddress (.ofNat 32 a)).toNat + j) →
      Reads (a + n) stop (host.readMmio (map.busAddress (.ofNat 32 a)) (.ofNat 32 n) bus).2 bytes bus' →
      Reads a stop bus
        (lowBytes n (host.readMmio (map.busAddress (.ofNat 32 a)) (.ofNat 32 n) bus).1 ++ bytes) bus'

/-- A write of the bytes from `a` to `stop`. Writes to holes and ROM are dropped. -/
inductive Writes : Nat → Nat → List (BitVec 8) → Bus D → Bus D → Prop where
  | done {a bus} : Writes a a [] bus bus
  | ram {a stop byte bytes bus bus' map offset} : Holds map bus.table → map.get (.ofNat 32 a) = .ram offset →
      Writes (a + 1) stop bytes { bus with backing := bus.backing.write offset.toNat [byte] } bus' →
      Writes a stop (byte :: bytes) bus bus'
  | dropped {a stop byte bytes bus bus' map} : Holds map bus.table →
      (map.get (.ofNat 32 a) = .unmapped ∨ ∃ offset, map.get (.ofNat 32 a) = .rom offset) →
      Writes (a + 1) stop bytes bus bus' → Writes a stop (byte :: bytes) bus bus'
  | mmio {a stop bytes bus bus' map} (chunk : List (BitVec 8)) : Holds map bus.table → 1 ≤ chunk.length →
      chunk.length ≤ 8 → (∀ j < chunk.length, map.get (.ofNat 32 (a + j)) = .mmio ∧
        (map.busAddress (.ofNat 32 (a + j))).toNat = (map.busAddress (.ofNat 32 a)).toNat + j) →
      Writes (a + chunk.length) stop bytes
        (host.writeMmio (map.busAddress (.ofNat 32 a)) (.ofNat 32 chunk.length) (ofBytes 64 chunk) bus) bus' →
      Writes a stop (chunk ++ bytes) bus bus'

variable {host}

theorem Reads.trans {a b c : Nat} {bus bus' bus'' : Bus D} {xs ys : List (BitVec 8)} (h : Reads host a b bus xs bus')
    (h' : Reads host b c bus' ys bus'') : Reads host a c bus (xs ++ ys) bus'' := by
  induction h with
  | done => exact h'
  | direct hm hget _ ih => exact .direct hm hget (ih h')
  | hole hm hget _ ih => exact .hole hm hget (ih h')
  | mmio n hm hn hn' hget _ ih =>
    rw [List.append_assoc]
    exact .mmio n hm hn hn' hget (ih h')

theorem Writes.trans {a b c : Nat} {bus bus' bus'' : Bus D} {xs ys : List (BitVec 8)}
    (h : Writes host a b xs bus bus') (h' : Writes host b c ys bus' bus'') :
    Writes host a c (xs ++ ys) bus bus'' := by
  induction h with
  | done => exact h'
  | ram hm hget _ ih => exact .ram hm hget (ih h')
  | dropped hm hget _ ih => exact .dropped hm hget (ih h')
  | mmio chunk hm hn hn' hget _ ih =>
    rw [List.append_assoc]
    exact .mmio chunk hm hn hn' hget (ih h')

/-! ## One part -/

theorem mapping_cases (entry : Entry) :
    (entry.kind = ramKind ∧ entry.mapping = .ram entry.backingAddress) ∨
    (entry.kind = romKind ∧ entry.mapping = .rom entry.backingAddress) ∨
    (entry.kind = mmioKind ∧ entry.mapping = .mmio) ∨
    (entry.kind ≠ ramKind ∧ entry.kind ≠ romKind ∧ entry.kind ≠ mmioKind ∧ entry.mapping = .unmapped) := by
  unfold Entry.mapping
  by_cases hram : entry.kind = ramKind
  · exact Or.inl ⟨hram, if_pos hram⟩
  · by_cases hrom : entry.kind = romKind
    · exact Or.inr (Or.inl ⟨hrom, by rw [if_neg hram, if_pos hrom]⟩)
    · by_cases hmmio : entry.kind = mmioKind
      · exact Or.inr (Or.inr (Or.inl ⟨hmmio, by rw [if_neg hram, if_neg hrom, if_pos hmmio]⟩))
      · exact Or.inr (Or.inr (Or.inr ⟨hram, hrom, hmmio, by rw [if_neg hram, if_neg hrom, if_neg hmmio]⟩))

variable {bus : Bus D}

/-- A part that is read is a step of the abstract read. -/
theorem readPart_spec (host : Host D) (hinst : Installed bus.table) {a n : Nat} (hn : 1 ≤ n) (hn' : n ≤ 8)
    (ha : a + n ≤ 0x110000) :
    ∃ c, transferBytes bus.table (lookup bus.table (.ofNat 32 a)) (.ofNat 32 n) = .ofNat 32 c ∧ 1 ≤ c ∧ c ≤ n ∧
      Installed (readPart host bus (lookup bus.table (.ofNat 32 a)) (.ofNat 32 c)).2.table ∧
      Reads host a (a + c) bus
        (lowBytes c (readPart host bus (lookup bus.table (.ofNat 32 a)) (.ofNat 32 c)).1)
        (readPart host bus (lookup bus.table (.ofNat 32 a)) (.ofNat 32 c)).2 := by
  obtain ⟨map, hm⟩ := hinst.holds
  have ha' : (ofNat 32 a).toNat < 0x110000 := by rw [toNat_ofNat_lt] <;> omega
  obtain ⟨c, hc, hc₁, hcn, hone, hmany⟩ := transferBytes_spec hm hn hn' ha
  refine ⟨c, hc, hc₁, hcn, ?_⟩
  have hget := hm.get ha'
  have haddr : (lookup bus.table (.ofNat 32 a)).address = map.busAddress (.ofNat 32 a) := by rw [hm.lookup ha']
  generalize lookup bus.table (.ofNat 32 a) = entry at hget haddr ⊢
  have hord : entry.kind ≠ mmioKind → map.get (.ofNat 32 a) ≠ .mmio → c = 1 := fun _ h => hone h
  unfold readPart
  rcases mapping_cases entry with ⟨hk, hmap⟩ | ⟨hk, hmap⟩ | ⟨hk, hmap⟩ | ⟨hram, hrom, hmmio, hmap⟩
  · rw [hmap] at hget
    obtain rfl := hone (by rw [hget]; simp)
    rw [if_neg (by rw [hk]; decide), if_pos (by simp [Entry.readable, hk]), lowBytes_one]
    refine ⟨hinst, ?_⟩
    rw [BitVec.setWidth_setWidth_of_le _ (by decide), setWidth_eq]
    exact .direct hm (Or.inl hget) .done
  · rw [hmap] at hget
    obtain rfl := hone (by rw [hget]; simp)
    rw [if_neg (by rw [hk]; decide), if_pos (by simp [Entry.readable, hk]), lowBytes_one]
    refine ⟨hinst, ?_⟩
    rw [BitVec.setWidth_setWidth_of_le _ (by decide), setWidth_eq]
    exact .direct hm (Or.inr hget) .done
  · rw [hmap] at hget
    rw [if_pos hk, haddr]
    refine ⟨host.readMmio_installed hinst, ?_⟩
    have hstep : Reads host a (a + c) bus (_ ++ []) _ := .mmio c hm hc₁ (hcn.trans hn') (hmany hget) .done
    rwa [List.append_nil] at hstep
  · rw [hmap] at hget
    obtain rfl := hone (by rw [hget]; simp)
    rw [if_neg hmmio, if_neg (by simp [Entry.readable, hram, hrom]), lowBytes_one]
    have hbyte : (BitVec.allOnes 64).setWidth 8 = 0xFF#8 := by decide
    rw [hbyte]
    exact ⟨hinst, .hole hm hget .done⟩

/-- The mask of a part keeps exactly its bytes. -/
theorem and_byteMask (value : BitVec 64) {c : Nat} (hc₁ : 1 ≤ c) (hc : c ≤ 8) :
    value &&& byteMask (.ofNat 32 c) = ofBytes 64 (lowBytes c value) := by
  have hsh : (((8 : BitVec 32) - .ofNat 32 c) <<< 3).toNat % 64 = 8 * (8 - c) % 64 := by
    rw [toNat_shiftLeft, Nat.shiftLeft_eq, toNat_sub, toNat_ofNat,
      show (8 : BitVec 32).toNat = 8 from rfl]
    omega
  refine eq_of_getLsbD_eq fun i hi => ?_
  rw [Memory.getLsbD_ofBytes_lowBytes, byteMask, hsh, getLsbD_and, BitVec.getLsbD_ushiftRight,
    BitVec.getLsbD_allOnes, Bool.and_comm]
  rw [show 8 * (8 - c) % 64 = 64 - 8 * c by omega]
  by_cases h : i < 8 * c
  · simp [hi, h, show 64 - 8 * c + i < 64 by omega]
  · simp [h, show ¬ 64 - 8 * c + i < 64 by omega]

/-- A part that is written is a step of the abstract write. -/
theorem writePart_spec (host : Host D) (hinst : Installed bus.table) {a n : Nat} (hn : 1 ≤ n) (hn' : n ≤ 8)
    (ha : a + n ≤ 0x110000) (value : BitVec 64) :
    ∃ c, transferBytes bus.table (lookup bus.table (.ofNat 32 a)) (.ofNat 32 n) = .ofNat 32 c ∧ 1 ≤ c ∧ c ≤ n ∧
      Installed (writePart host bus (lookup bus.table (.ofNat 32 a)) (.ofNat 32 c) value).table ∧
      Writes host a (a + c) (lowBytes c value) bus
        (writePart host bus (lookup bus.table (.ofNat 32 a)) (.ofNat 32 c) value) := by
  obtain ⟨map, hm⟩ := hinst.holds
  have ha' : (ofNat 32 a).toNat < 0x110000 := by rw [toNat_ofNat_lt] <;> omega
  obtain ⟨c, hc, hc₁, hcn, hone, hmany⟩ := transferBytes_spec hm hn hn' ha
  refine ⟨c, hc, hc₁, hcn, ?_⟩
  have hget := hm.get ha'
  have haddr : (lookup bus.table (.ofNat 32 a)).address = map.busAddress (.ofNat 32 a) := by rw [hm.lookup ha']
  generalize lookup bus.table (.ofNat 32 a) = entry at hget haddr ⊢
  unfold writePart
  rcases mapping_cases entry with ⟨hk, hmap⟩ | ⟨hk, hmap⟩ | ⟨hk, hmap⟩ | ⟨hram, hrom, hmmio, hmap⟩
  · rw [hmap] at hget
    obtain rfl := hone (by rw [hget]; simp)
    rw [if_neg (by rw [hk]; decide), if_pos hk, lowBytes_one]
    exact ⟨hinst, .ram hm hget .done⟩
  · rw [hmap] at hget
    obtain rfl := hone (by rw [hget]; simp)
    rw [if_neg (by rw [hk]; decide), if_neg (by rw [hk]; decide), lowBytes_one]
    exact ⟨hinst, .dropped hm (Or.inr ⟨_, hget⟩) .done⟩
  · rw [hmap] at hget
    rw [if_pos hk, haddr, and_byteMask value hc₁ (by omega)]
    refine ⟨host.writeMmio_installed hinst, ?_⟩
    have hlen := Memory.length_lowBytes c value
    have hstep : Writes host a (a + (lowBytes c value).length) (lowBytes c value ++ []) bus _ :=
      .mmio _ hm (by rwa [hlen]) (by omega) (by rw [hlen]; exact hmany hget) .done
    rwa [List.append_nil, hlen] at hstep
  · rw [hmap] at hget
    obtain rfl := hone (by rw [hget]; simp)
    rw [if_neg hmmio, if_neg hram, lowBytes_one]
    exact ⟨hinst, .dropped hm (Or.inl hget) .done⟩

/-! ## The general reader and writer -/

theorem shift_done {done : Nat} (h : done < 8) : ((ofNat 32 done) <<< 3).toNat % 64 = 8 * done := by
  rw [toNat_shiftLeft, Nat.shiftLeft_eq, toNat_ofNat]
  omega

/-- The counter of the bytes that are left. -/
theorem remaining_eq {bytes done : Nat} (hb : bytes ≤ 8) (hdone : done < bytes) :
    ofNat 32 bytes - ofNat 32 done = .ofNat 32 (bytes - done) := by
  refine BitVec.eq_of_toNat_eq ?_
  rw [toNat_sub, toNat_ofNat, toNat_ofNat, toNat_ofNat]
  omega

/-- The counters meet at the end of the span only. -/
theorem done_eq_bytes_iff {bytes done : Nat} (hb : bytes ≤ 8) (hdone : done ≤ bytes) :
    ofNat 32 done = .ofNat 32 bytes ↔ done = bytes := by
  constructor
  · intro h
    have hnat := congrArg BitVec.toNat h
    rw [toNat_ofNat, toNat_ofNat] at hnat
    omega
  · exact fun h => by rw [h]

/-- The general reader terminates with the word of an abstract read. -/
theorem readLoop_spec (host : Host D) {addr bytes : Nat} (hb : bytes ≤ 8) (ha : addr + bytes ≤ 0x110000) {fuel done : Nat}
    {read : List (BitVec 8)} (hinst : Installed bus.table) (hlen : read.length = done)
    (hdone : done < bytes) (hfuel : bytes - done ≤ fuel) :
    ∃ bus' rest, readLoop host (.ofNat 32 addr) (.ofNat 32 bytes) fuel (.ofNat 32 done) (ofBytes 64 read) bus =
        some (ofBytes 64 (read ++ rest), bus') ∧
      rest.length = bytes - done ∧ Installed bus'.table ∧
      Reads host (addr + done) (addr + bytes) bus rest bus' := by
  induction fuel generalizing done bus read with
  | zero => omega
  | succ fuel ih =>
    have hcur : ofNat 32 addr + ofNat 32 done = .ofNat 32 (addr + done) :=
      (ofNat_add _ _).symm
    obtain ⟨c, hc, hc₁, hcn, hinst', hrd⟩ :=
      readPart_spec host hinst (a := addr + done) (n := bytes - done) (by omega) (by omega) (by omega)
    rw [readLoop]
    dsimp only
    rw [hcur, remaining_eq hb hdone, hc]
    generalize hpart : readPart host bus (lookup bus.table (.ofNat 32 (addr + done))) (.ofNat 32 c) = part
      at hinst' hrd
    have hval : ofBytes 64 read ||| ((part.1 &&& byteMask (.ofNat 32 c)) <<<
        ((ofNat 32 done <<< 3).toNat % 64)) = ofBytes 64 (read ++ lowBytes c part.1) := by
      rw [Memory.ofBytes_append, and_byteMask _ hc₁ (by omega), shift_done (by omega), hlen]
    have hnext : ofNat 32 done + ofNat 32 c = .ofNat 32 (done + c) := (ofNat_add _ _).symm
    have hend := done_eq_bytes_iff hb (show done + c ≤ bytes by omega)
    rw [hval, hnext]
    by_cases hlast : done + c = bytes
    · rw [if_pos (hend.mpr hlast)]
      refine ⟨part.2, lowBytes c part.1, rfl, by rw [Memory.length_lowBytes]; omega, hinst', ?_⟩
      rwa [Nat.add_assoc, hlast] at hrd
    · rw [if_neg (fun h => hlast (hend.mp h))]
      obtain ⟨bus', rest, hrun, hrest, hinst'', hrd'⟩ :=
        ih hinst' (show (read ++ lowBytes c part.1).length = done + c by simp [hlen]) (by omega) (by omega)
      refine ⟨bus', lowBytes c part.1 ++ rest, by rw [hrun, List.append_assoc], ?_, hinst'', ?_⟩
      · rw [List.length_append, Memory.length_lowBytes, hrest]
        omega
      · rw [Nat.add_assoc] at hrd
        exact hrd.trans hrd'

/-- The general writer terminates with an abstract write of the bytes that are left. -/
theorem writeLoop_spec (host : Host D) {addr bytes : Nat} (hb : bytes ≤ 8) (ha : addr + bytes ≤ 0x110000) (value : BitVec 64)
    {fuel done : Nat} (hinst : Installed bus.table) (hdone : done < bytes)
    (hfuel : bytes - done ≤ fuel) :
    ∃ bus', writeLoop host (.ofNat 32 addr) (.ofNat 32 bytes) value fuel (.ofNat 32 done) bus = some bus' ∧
      Installed bus'.table ∧
      Writes host (addr + done) (addr + bytes) (lowBytes (bytes - done) (value >>> (8 * done))) bus bus' := by
  induction fuel generalizing done bus with
  | zero => omega
  | succ fuel ih =>
    have hcur : ofNat 32 addr + ofNat 32 done = .ofNat 32 (addr + done) :=
      (ofNat_add _ _).symm
    obtain ⟨c, hc, hc₁, hcn, hinst', hwrites⟩ := writePart_spec host hinst (a := addr + done)
      (n := bytes - done) (by omega) (by omega) (by omega) (value >>> (8 * done))
    rw [writeLoop]
    rw [hcur, remaining_eq hb hdone, hc, shift_done (by omega : done < 8)]
    generalize writePart host bus (lookup bus.table (.ofNat 32 (addr + done))) (.ofNat 32 c)
      (value >>> (8 * done)) = bus₁ at hinst' hwrites ⊢
    have hnext : ofNat 32 done + ofNat 32 c = .ofNat 32 (done + c) := (ofNat_add _ _).symm
    have hend := done_eq_bytes_iff hb (show done + c ≤ bytes by omega)
    rw [hnext]
    by_cases hlast : done + c = bytes
    · rw [if_pos (hend.mpr hlast)]
      refine ⟨bus₁, rfl, hinst', ?_⟩
      rwa [Nat.add_assoc, hlast, show c = bytes - done by omega] at hwrites
    · rw [if_neg (fun h => hlast (hend.mp h))]
      obtain ⟨bus', hrun, hinst'', hwrites'⟩ := ih hinst' (show done + c < bytes by omega) (by omega)
      refine ⟨bus', hrun, hinst'', ?_⟩
      rw [show bytes - done = c + (bytes - (done + c)) by omega, Memory.lowBytes_add, ← BitVec.shiftRight_add,
        ← Nat.mul_add]
      rw [Nat.add_assoc] at hwrites
      exact hwrites.trans hwrites'

/-- The general reader terminates with an abstract read of the whole span. -/
theorem reader_spec (host : Host D) (hinst : Installed bus.table) {a n fuel : Nat} (hn : 1 ≤ n)
    (hn' : n ≤ 8) (ha : a + n ≤ 0x110000) (hfuel : 8 ≤ fuel) :
    ∃ bytes bus', readLoop host (.ofNat 32 a) (.ofNat 32 n) fuel 0 0 bus = some (ofBytes 64 bytes, bus') ∧
      bytes.length = n ∧ Installed bus'.table ∧ Reads host a (a + n) bus bytes bus' := by
  have hspec := readLoop_spec host hn' ha hinst (List.length_nil (α := BitVec 8)) hn (show n - 0 ≤ fuel by omega)
  obtain ⟨bus', bytes, hrun, hlen, hinst', hrd⟩ := hspec
  exact ⟨bytes, bus', hrun, hlen, hinst', hrd⟩

/-- The general writer terminates with an abstract write of the low bytes of its value. -/
theorem writer_spec (host : Host D) (hinst : Installed bus.table) {a n fuel : Nat} (hn : 1 ≤ n)
    (hn' : n ≤ 8) (ha : a + n ≤ 0x110000) (hfuel : 8 ≤ fuel) (value : BitVec 64) :
    ∃ bus', writeLoop host (.ofNat 32 a) (.ofNat 32 n) value fuel 0 bus = some bus' ∧ Installed bus'.table ∧
      Writes host a (a + n) (lowBytes n value) bus bus' := by
  obtain ⟨bus', hrun, hinst', hwrites⟩ := writeLoop_spec host hn' ha value hinst hn (show n - 0 ≤ fuel by omega)
  refine ⟨bus', hrun, hinst', ?_⟩
  rwa [Nat.mul_zero, BitVec.ushiftRight_zero, Nat.sub_zero] at hwrites

/-! ## Typed transfers -/

theorem ofNat_add_eight (a : Nat) : ofNat 32 a + 8 = .ofNat 32 (a + 8) := (ofNat_add _ _).symm

variable {a fuel : Nat}

/-- Reading in parts is an abstract read of the whole span. -/
theorem readParts_spec (host : Host D) (hinst : Installed bus.table) (type : MemoryType)
    (ha : a + type.bytes ≤ 0x110000) (hfuel : 8 ≤ fuel) :
    ∃ bytes bus', readParts host bus fuel type (.ofNat 32 a) = some (ofBytes 128 bytes, bus') ∧
      bytes.length = type.bytes ∧ Installed bus'.table ∧ Reads host a (a + type.bytes) bus bytes bus' := by
  have hz : ofNat 32 a + 0 = .ofNat 32 a := BitVec.add_zero _
  have scalar : type ≠ .vector → ∃ bytes bus',
      readParts host bus fuel type (.ofNat 32 a) = some (ofBytes 128 bytes, bus') ∧
      bytes.length = type.bytes ∧ Installed bus'.table ∧ Reads host a (a + type.bytes) bus bytes bus' := by
    intro hne
    have hn : type.bytes ≤ 8 := by
      cases type <;> first | decide | exact absurd rfl hne
    obtain ⟨bytes, bus', hrun, hlen, hinst', hrd⟩ := reader_spec host hinst type.bytes_pos hn ha hfuel
    refine ⟨bytes, bus', ?_, hlen, hinst', hrd⟩
    have hparts : readParts host bus fuel type (.ofNat 32 a) =
        (readLoop host (.ofNat 32 a + 0) (.ofNat 32 type.bytes) fuel 0 0 bus).bind fun r =>
          some ((r.1.setWidth (8 * type.bytes)).setWidth 128, r.2) := by
      cases type <;> first | rfl | exact absurd rfl hne
    rw [hparts, hz, hrun, Option.bind_some, setWidth_ofBytes (by omega), setWidth_ofBytes (by omega)]
  cases type with
  | vector =>
    rw [MemoryType.bytes] at ha
    obtain ⟨low, bus₁, hlow, hlen, hinst₁, hreads₁⟩ := reader_spec host hinst (show 1 ≤ 8 by decide) (le_refl 8)
      (show a + 8 ≤ 0x110000 by omega) hfuel
    obtain ⟨high, bus₂, hhi, hlen', hinst₂, hreads₂⟩ := reader_spec host hinst₁ (show 1 ≤ 8 by decide) (le_refl 8)
      (show a + 8 + 8 ≤ 0x110000 by omega) hfuel
    refine ⟨low ++ high, bus₂, ?_, by rw [List.length_append, hlen, hlen']; rfl, hinst₂, hreads₁.trans hreads₂⟩
    have hparts : readParts host bus fuel .vector (.ofNat 32 a) =
        (readLoop host (.ofNat 32 a + 0) 8 fuel 0 0 bus).bind fun r =>
          (readLoop host (.ofNat 32 a + 8) 8 fuel 0 0 r.2).bind fun r' =>
            some (r.1.setWidth 128 ||| (r'.1.setWidth 128 <<< 64), r'.2) := rfl
    have hlow' : readLoop host (.ofNat 32 a) 8 fuel 0 0 bus = _ := hlow
    have hhi' : readLoop host (.ofNat 32 (a + 8)) 8 fuel 0 0 bus₁ = _ := hhi
    rw [hparts, hz, hlow', Option.bind_some, ofNat_add_eight, hhi', Option.bind_some,
      setWidth_ofBytes (by omega), setWidth_ofBytes (by omega), Memory.ofBytes_append, hlen]
  | _ => exact scalar (by simp)

/-- Writing in parts is an abstract write of the whole span. -/
theorem writeParts_spec (host : Host D) (hinst : Installed bus.table) (type : MemoryType)
    (ha : a + type.bytes ≤ 0x110000) (hfuel : 8 ≤ fuel) (value : BitVec 128) :
    ∃ bus', writeParts host bus fuel type (.ofNat 32 a) value = some bus' ∧ Installed bus'.table ∧
      Writes host a (a + type.bytes) (lowBytes type.bytes value) bus bus' := by
  have hz : ofNat 32 a + 0 = .ofNat 32 a := BitVec.add_zero _
  have scalar : type ≠ .vector → ∃ bus', writeParts host bus fuel type (.ofNat 32 a) value = some bus' ∧
      Installed bus'.table ∧ Writes host a (a + type.bytes) (lowBytes type.bytes value) bus bus' := by
    intro hne
    have hn : type.bytes ≤ 8 := by
      cases type <;> first | decide | exact absurd rfl hne
    obtain ⟨bus', hrun, hinst', hwrites⟩ := writer_spec host hinst type.bytes_pos hn ha hfuel
      ((value.setWidth (8 * type.bytes)).setWidth 64)
    refine ⟨bus', ?_, hinst', ?_⟩
    · have hparts : writeParts host bus fuel type (.ofNat 32 a) value =
          writeLoop host (.ofNat 32 a + 0) (.ofNat 32 type.bytes) ((value.setWidth (8 * type.bytes)).setWidth 64) fuel 0
            bus := by
        cases type <;> first | rfl | exact absurd rfl hne
      rw [hparts, hz, hrun]
    · rwa [Memory.lowBytes_setWidth (by omega), Memory.lowBytes_setWidth (le_refl _)] at hwrites
  cases type with
  | vector =>
    rw [MemoryType.bytes] at ha
    obtain ⟨bus₁, hlow, hinst₁, hwrites₁⟩ := writer_spec host hinst (show 1 ≤ 8 by decide) (le_refl 8)
      (show a + 8 ≤ 0x110000 by omega) hfuel (value.setWidth 64)
    obtain ⟨bus₂, hhi, hinst₂, hwrites₂⟩ := writer_spec host hinst₁ (show 1 ≤ 8 by decide) (le_refl 8)
      (show a + 8 + 8 ≤ 0x110000 by omega) hfuel ((value >>> 64).setWidth 64)
    refine ⟨bus₂, ?_, hinst₂, ?_⟩
    · have hparts : writeParts host bus fuel .vector (.ofNat 32 a) value =
          (writeLoop host (.ofNat 32 a + 0) 8 (value.setWidth 64) fuel 0 bus).bind fun bus =>
            writeLoop host (.ofNat 32 a + 8) 8 ((value >>> 64).setWidth 64) fuel 0 bus := rfl
      have hlow' : writeLoop host (.ofNat 32 a) 8 _ fuel 0 bus = _ := hlow
      have hhi' : writeLoop host (.ofNat 32 (a + 8)) 8 _ fuel 0 bus₁ = _ := hhi
      rw [hparts, hz, hlow', Option.bind_some, ofNat_add_eight, hhi']
    · rw [Memory.lowBytes_setWidth (by decide)] at hwrites₁ hwrites₂
      have := hwrites₁.trans hwrites₂
      rwa [← Memory.lowBytes_add] at this
  | _ => exact scalar (by simp)

/-! ## The direct path -/

variable {bytes : List (BitVec 8)}

variable {bus bus' : Bus D}

theorem Reads.le {a stop : Nat}
    (h : Reads host a stop bus bytes bus') : a ≤ stop := by
  induction h with
  | done => exact le_refl _
  | direct _ _ _ ih => omega
  | hole _ _ _ ih => omega
  | mmio n _ _ _ _ ih => omega

theorem Writes.le {a stop : Nat}
    (h : Writes host a stop bytes bus bus') : a ≤ stop := by
  induction h with
  | done => exact le_refl _
  | ram _ _ _ ih => omega
  | dropped _ _ _ ih => omega
  | mmio chunk _ _ _ _ ih => omega

/-- Maps of one table route an address alike. -/
theorem Holds.get_unique {map map' : PhysicalMemoryMap} {table : Memory} (h : Holds map table) (h' : Holds map' table)
    {a : Nat} (ha : a < 0x110000) : map.get (.ofNat 32 a) = map'.get (.ofNat 32 a) := by
  have ha' : (ofNat 32 a).toNat < 0x110000 := by rwa [toNat_ofNat_lt ha]
  rw [h.get ha', h'.get ha']

variable {map : PhysicalMemoryMap}

/-- An abstract read of adjacent backing memory gives its bytes and changes nothing. -/
theorem Reads.eq_direct {a stop p : Nat}
    (h : Reads host a stop bus bytes bus') (hm : Holds map bus.table) (hstop : stop ≤ 0x110000)
    (hmap : ∀ j, a + j < stop → ∃ offset : BitVec 32, offset.toNat = p + j ∧
      (map.get (.ofNat 32 (a + j)) = .ram offset ∨ map.get (.ofNat 32 (a + j)) = .rom offset)) :
    bytes = bus.backing.read p (stop - a) ∧ bus' = bus := by
  induction h generalizing p with
  | done =>
    rw [Nat.sub_self]
    exact ⟨rfl, rfl⟩
  | @direct a stop bus bytes bus' map' offset hm' hget hrest ih =>
    have hle := hrest.le
    obtain ⟨offset', hoff, hget'⟩ := hmap 0 (by omega)
    rw [Nat.add_zero, hm.get_unique hm' (by omega)] at hget'
    have hoffset : offset = offset' := by
      rcases hget with hget | hget <;> rcases hget' with hget' | hget' <;> rw [hget] at hget' <;> simp_all
    obtain ⟨hbytes, hbus⟩ := ih hm hstop (p := p + 1) fun j hj => by
      obtain ⟨offset'', hoff'', hget''⟩ := hmap (j + 1) (by omega)
      exact ⟨offset'', by omega, by rwa [show a + 1 + j = a + (j + 1) by omega]⟩
    rw [show stop - a = stop - (a + 1) + 1 by omega, Memory.read_succ, ← hbytes, hoffset, hoff]
    exact ⟨rfl, hbus⟩
  | @hole a stop bus bytes bus' map' hm' hget hrest ih =>
    have hle := hrest.le
    obtain ⟨offset, -, hget'⟩ := hmap 0 (by omega)
    rw [Nat.add_zero, hm.get_unique hm' (by omega), hget] at hget'
    exact absurd hget' (by simp)
  | @mmio a stop bus bytes bus' map' n hm' hn _ hget hrest ih =>
    have hle := hrest.le
    obtain ⟨offset, -, hget'⟩ := hmap 0 (by omega)
    have hget₀ := (hget 0 hn).1
    rw [Nat.add_zero] at hget₀
    rw [Nat.add_zero, hm.get_unique hm' (by omega), hget₀] at hget'
    exact absurd hget' (by simp)

/-- An abstract write of adjacent RAM writes its bytes. -/
theorem Writes.eq_direct {a stop p : Nat}
    (h : Writes host a stop bytes bus bus') (hm : Holds map bus.table) (hstop : stop ≤ 0x110000)
    (hmap : ∀ j, a + j < stop → ∃ offset : BitVec 32, offset.toNat = p + j ∧ map.get (.ofNat 32 (a + j)) = .ram offset) :
    bus' = { bus with backing := bus.backing.write p bytes } := by
  induction h generalizing p with
  | done => rw [Memory.write_nil]
  | @ram a stop byte bytes bus bus' map' offset hm' hget hrest ih =>
    have hle := hrest.le
    obtain ⟨offset', hoff, hget'⟩ := hmap 0 (by omega)
    rw [Nat.add_zero, hm.get_unique hm' (by omega), hget, PhysicalMapping.ram.injEq] at hget'
    have := ih (p := p + 1) hm hstop fun j hj => by
      obtain ⟨offset'', hoff'', hget''⟩ := hmap (j + 1) (by omega)
      exact ⟨offset'', by omega, by rwa [show a + 1 + j = a + (j + 1) by omega]⟩
    rw [this, hget', hoff, Nat.add_zero, Memory.write_cons]
  | @dropped a stop byte bytes bus bus' map' hm' hget hrest ih =>
    have hle := hrest.le
    obtain ⟨offset, -, hget'⟩ := hmap 0 (by omega)
    rw [Nat.add_zero, hm.get_unique hm' (by omega)] at hget'
    rcases hget with hget | ⟨offset', hget⟩ <;> rw [hget] at hget' <;> exact absurd hget' (by simp)
  | @mmio a stop bytes bus bus' map' chunk hm' hn _ hget hrest ih =>
    have hle := hrest.le
    obtain ⟨offset, -, hget'⟩ := hmap 0 (by omega)
    have hget₀ := (hget 0 hn).1
    rw [Nat.add_zero] at hget₀
    rw [Nat.add_zero, hm.get_unique hm' (by omega), hget₀] at hget'
    exact absurd hget' (by simp)

/-- Within a page of backing memory the offsets are adjacent. -/
theorem get_add (hal : Aligned map.pages) {a j : Nat} (haj : a + j < 0x110000)
    (hj : a % 4096 + j < 4096) (offset : BitVec 32) :
    (map.get (.ofNat 32 a) = .ram offset → ∃ offset' : BitVec 32, offset'.toNat = offset.toNat + j ∧
      map.get (.ofNat 32 (a + j)) = .ram offset') ∧
    (map.get (.ofNat 32 a) = .rom offset → ∃ offset' : BitVec 32, offset'.toNat = offset.toNat + j ∧
      map.get (.ofNat 32 (a + j)) = .rom offset') := by
  have ha' : (ofNat 32 a).toNat < 0x110000 := by rw [toNat_ofNat_lt] <;> omega
  have haj' : (ofNat 32 (a + j)).toNat < 0x110000 := by rwa [toNat_ofNat_lt haj]
  have hbus := busAddress_add map haj hj
  have hmod : (map.busAddress (.ofNat 32 a)).toNat % 4096 = a % 4096 := busAddress_mod (by omega)
  have hpage : page map (.ofNat 32 (a + j)) haj' = page map (.ofNat 32 a) ha' := by
    simp only [page, toNat_page, hbus]
    congr 2
    omega
  have hoffset : ∀ backing : BitVec 32, backing.toNat % 4096 = 0 ∧ backing.toNat + 4096 ≤ 2 ^ 32 →
      (backing + (map.busAddress (.ofNat 32 (a + j)) &&& pageMask)).toNat =
        (backing + (map.busAddress (.ofNat 32 a) &&& pageMask)).toNat + j := by
    intro backing hb
    rw [toNat_add, toNat_add, toNat_pageMask, toNat_pageMask, hbus, hmod]
    omega
  rw [get_eq ha', get_eq haj', hpage]
  have hbacking := hal ⟨(map.busAddress (.ofNat 32 a) >>> pageShift).toNat, by
    have := toNat_busAddress_lt map ha'
    rw [toNat_page, pageCount]
    omega⟩
  cases hp : page map (.ofNat 32 a) ha' with
  | unmapped => simp [PhysicalMapping.advance]
  | mmio => simp [PhysicalMapping.advance]
  | ram backing =>
    have hb := hbacking backing (by show (page map _ ha').backingOffset = _; rw [hp]; rfl)
    refine ⟨fun h => ?_, fun h => absurd h (by simp [PhysicalMapping.advance])⟩
    obtain rfl := PhysicalMapping.ram.inj h
    exact ⟨_, hoffset backing hb, rfl⟩
  | rom backing =>
    have hb := hbacking backing (by show (page map _ ha').backingOffset = _; rw [hp]; rfl)
    refine ⟨fun h => absurd h (by simp [PhysicalMapping.advance]), fun h => ?_⟩
    obtain rfl := PhysicalMapping.rom.inj h
    exact ⟨_, hoffset backing hb, rfl⟩

/-- A span that is not unavailable lies within a page. -/
theorem directRange_within {table : Memory} {a n : Nat} {intent : Intent} (ha : a < 0x110000) (hn : n ≤ 16)
    (h : (directRange table (.ofNat 32 a) (.ofNat 32 n) intent).unavailable = false) : a % 4096 + n ≤ 4096 := by
  simp only [directRange, decide_eq_false_iff_not, not_or, ge_iff_le] at h
  have hlt := h.2.2.2
  rw [BitVec.not_le, BitVec.lt_def, toNat_pageMask, toNat_ofNat_lt ha, toNat_sub, toNat_ofNat,
    show (pageBytes + 1).toNat = 4097 from rfl] at hlt
  omega

/-- The direct path reads what the parts read. -/
theorem read_eq_readParts (host : Host D) (hinst : Installed bus.table) (type : MemoryType)
    (ha : a + type.bytes ≤ 0x110000) (hfuel : 8 ≤ fuel) :
    read host bus fuel type (.ofNat 32 a) = readParts host bus fuel type (.ofNat 32 a) := by
  have hpos := type.bytes_pos
  have hsize : type.bytes ≤ 16 := by cases type <;> decide
  have ha' : (ofNat 32 a).toNat < 0x110000 := by rw [toNat_ofNat_lt] <;> omega
  unfold read
  dsimp only
  split
  · rfl
  next hdir =>
  have hdir := Bool.not_eq_true _ ▸ hdir
  have hwithin := directRange_within (by omega) hsize hdir
  obtain ⟨map, hm⟩ := hinst.holds
  obtain ⟨bytes, bus', hparts, -, -, hrd⟩ := readParts_spec host hinst type ha hfuel
  have hreadable : (lookup bus.table (.ofNat 32 a)).readable = true := by
    simp only [directRange, decide_eq_false_iff_not, not_or] at hdir
    simpa using hdir.1
  have hget : map.get (.ofNat 32 a) = .ram (lookup bus.table (.ofNat 32 a)).backingAddress ∨
      map.get (.ofNat 32 a) = .rom (lookup bus.table (.ofNat 32 a)).backingAddress := by
    rw [hm.get ha']
    rcases mapping_cases (lookup bus.table (.ofNat 32 a)) with ⟨-, h⟩ | ⟨-, h⟩ | ⟨hk, -⟩ | ⟨hram, hrom, -, -⟩
    · exact Or.inl h
    · exact Or.inr h
    · exact absurd hreadable (by simp [Entry.readable, hk, mmioKind, ramKind, romKind])
    · exact absurd hreadable (by simp [Entry.readable, hram, hrom])
  obtain ⟨hbytes, hbus⟩ := hrd.eq_direct hm ha (p := (lookup bus.table (.ofNat 32 a)).backingAddress.toNat)
    fun j hj => by
      obtain ⟨hram, hrom⟩ := get_add hm.aligned (a := a) (j := j) (by omega) (by omega)
        (lookup bus.table (.ofNat 32 a)).backingAddress
      rcases hget with hget | hget
      · obtain ⟨offset, ho, h⟩ := hram hget
        exact ⟨offset, ho, Or.inl h⟩
      · obtain ⟨offset, ho, h⟩ := hrom hget
        exact ⟨offset, ho, Or.inr h⟩
  rw [hparts, hbus, hbytes, Nat.add_sub_cancel_left]
  rfl

/-- The direct path writes what the parts write. -/
theorem write_eq_writeParts (host : Host D) (hinst : Installed bus.table) (type : MemoryType)
    (ha : a + type.bytes ≤ 0x110000) (hfuel : 8 ≤ fuel) (value : BitVec 128) :
    write host bus fuel type (.ofNat 32 a) value = writeParts host bus fuel type (.ofNat 32 a) value := by
  have hpos := type.bytes_pos
  have hsize : type.bytes ≤ 16 := by cases type <;> decide
  have ha' : (ofNat 32 a).toNat < 0x110000 := by rw [toNat_ofNat_lt] <;> omega
  unfold write
  dsimp only
  split
  · rfl
  next hdir =>
  have hdir := Bool.not_eq_true _ ▸ hdir
  have hwithin := directRange_within (by omega) hsize hdir
  obtain ⟨map, hm⟩ := hinst.holds
  obtain ⟨bus', hparts, -, hwrites⟩ := writeParts_spec host hinst type ha hfuel value
  have hkind : (lookup bus.table (.ofNat 32 a)).kind = ramKind := by
    simp only [directRange, decide_eq_false_iff_not, not_or] at hdir
    simpa using hdir.1
  have hget : map.get (.ofNat 32 a) = .ram (lookup bus.table (.ofNat 32 a)).backingAddress := by
    rw [hm.get ha', Entry.mapping, if_pos hkind]
  rw [hparts, hwrites.eq_direct hm ha fun j hj => (get_add hm.aligned (by omega) (by omega) _).1 hget]
  rfl

/-- Every physical transfer below 0x110000 terminates and follows the map of the moment byte by byte, whatever the
    callbacks do to the devices, the backing memory and the table; the general reader and writer do so for every
    width, and the direct path gives the result of the parts. -/
theorem physical_transfers (host : Host D) {bus : Bus D} (hinst : Installed bus.table) {address : BitVec 32}
    {fuel : Nat} (hfuel : 8 ≤ fuel) :
    (∀ n, 1 ≤ n → n ≤ 8 → address.toNat + n ≤ 0x110000 →
      (∃ bytes bus', readLoop host address (.ofNat 32 n) fuel 0 0 bus = some (ofBytes 64 bytes, bus') ∧
        bytes.length = n ∧ Reads host address.toNat (address.toNat + n) bus bytes bus') ∧
      ∀ value, ∃ bus', writeLoop host address (.ofNat 32 n) value fuel 0 bus = some bus' ∧
        Writes host address.toNat (address.toNat + n) (lowBytes n value) bus bus') ∧
    ∀ type : MemoryType, address.toNat + type.bytes ≤ 0x110000 →
      (∃ bytes bus', read host bus fuel type address = some (ofBytes 128 bytes, bus') ∧
        bytes.length = type.bytes ∧ Reads host address.toNat (address.toNat + type.bytes) bus bytes bus') ∧
      (∀ value, ∃ bus', write host bus fuel type address value = some bus' ∧
        Writes host address.toNat (address.toNat + type.bytes) (lowBytes type.bytes value) bus bus') ∧
      read host bus fuel type address = readParts host bus fuel type address ∧
      ∀ value, write host bus fuel type address value = writeParts host bus fuel type address value := by
  have haddress : ofNat 32 address.toNat = address := by rw [BitVec.ofNat_toNat, setWidth_eq]
  refine ⟨fun n hn hn' ha => ⟨?_, fun value => ?_⟩, fun type ha => ⟨?_, fun value => ?_, ?_, fun value => ?_⟩⟩
  · obtain ⟨bytes, bus', hrun, hlen, -, hreads⟩ := reader_spec host hinst hn hn' ha hfuel
    rw [haddress] at hrun
    exact ⟨bytes, bus', hrun, hlen, hreads⟩
  · obtain ⟨bus', hrun, -, hwrites⟩ := writer_spec host hinst hn hn' ha hfuel value
    rw [haddress] at hrun
    exact ⟨bus', hrun, hwrites⟩
  · obtain ⟨bytes, bus', hrun, hlen, -, hreads⟩ := readParts_spec host hinst type ha hfuel
    rw [← read_eq_readParts host hinst type ha hfuel, haddress] at hrun
    exact ⟨bytes, bus', hrun, hlen, hreads⟩
  · obtain ⟨bus', hrun, -, hwrites⟩ := writeParts_spec host hinst type ha hfuel value
    rw [← write_eq_writeParts host hinst type ha hfuel, haddress] at hrun
    exact ⟨bus', hrun, hwrites⟩
  · have := read_eq_readParts host hinst type ha hfuel
    rwa [haddress] at this
  · have := write_eq_writeParts host hinst type ha hfuel value
    rwa [haddress] at this

end

/-! ## A machine with a page of RAM and a page of MMIO -/

/-- Devices that answer a fixed word. -/
def answeringHost : Host Unit where
  readMmio _ _ bus := (0x44332211, bus)
  writeMmio _ _ _ bus := bus
  readMmio_installed := id
  writeMmio_installed := id

def twoPages : PhysicalMemoryMap :=
  ⟨fun page => if page.val = 0 then .ram 0 else if page.val = 1 then .mmio else .unmapped, false⟩

/-- RAM on page zero, backed by zeros. -/
def twoPagesBus : Bus Unit := ⟨fun _ => 0, Memory.ofList twoPages.toBytes, ()⟩

theorem twoPages_new : PhysicalMemoryMap.new [⟨0, 0xFFF, .ram 0⟩, ⟨0x1000, 0x1FFF, .mmio⟩] = .ok twoPages := by
  have hpages : [⟨0, 0xFFF, .ram 0⟩, ⟨0x1000, 0x1FFF, .mmio⟩].foldlM addRegion (fun _ => .unmapped) =
      .ok twoPages.pages := by
    have hfirst : 4096 >>> pageShift = 1 := rfl
    have hlast : 4095 >>> pageShift = 0 ∧ 8191 >>> pageShift = 1 := ⟨rfl, rfl⟩
    refine congrArg Except.ok (funext fun page => ?_)
    by_cases hram : page.val = 0
    · simp [twoPages, hram, hfirst, hlast, PhysicalMapping.advance]
    · by_cases hmmio : page.val = 1
      · simp [twoPages, hmmio, hfirst, hlast, PhysicalMapping.advance]
      · simp [twoPages, hram, hmmio, hfirst, hlast]
        omega
  rw [PhysicalMemoryMap.new, hpages]
  rfl

theorem twoPagesBus_installed : Installed twoPagesBus.table := by
  refine ⟨_, twoPages, false, twoPages_new, ?_⟩
  have hlen : twoPages.toBytes.length = byteLen := by
    simp [toBytes, byteLen, a20MaskOffset]
  rw [← hlen]
  exact Memory.read_ofList _

/-- A dword read across the end of RAM takes its upper half from one callback. -/
theorem physical_transfers_twoPages :
    (read answeringHost twoPagesBus 8 .dword 0xFFE).map Prod.fst = some 0x22110000 ∧ ∃ bytes bus',
      read answeringHost twoPagesBus 8 .dword 0xFFE = some (ofBytes 128 bytes, bus') ∧ bytes.length = 4 ∧
        Reads answeringHost 0xFFE 0x1002 twoPagesBus bytes bus' :=
  ⟨by decide +kernel, ((physical_transfers answeringHost twoPagesBus_installed (le_refl 8)).2 .dword (by decide)).1⟩

end Relocade.Physical
