import Relocade.Memory
import Mathlib.Data.Nat.Bitwise

/-!
# `Virtual.PageTable` — the host-managed page table of protected-mode guest memory

One four-byte entry per 4-KiB linear page holds a backing frame and access permissions. The range resolver walks the
pages of a span and packs what it finds into one word: the first frame and its permissions, with a flag for scattered
backing, or the denied page with its presence and a flag for a later page.
-/

namespace Relocade.Virtual

def pageShift : Nat := 12
def entryShift : Nat := 2
def pageBytes : BitVec 32 := 1#32 <<< pageShift
def pageOffset : BitVec 32 := pageBytes - 1
def frameMask : BitVec 32 := ~~~pageOffset
def present : BitVec 32 := 1
def writable : BitVec 32 := 2

-- private flags of a resolved range
def scatteredFlag : BitVec 32 := 4
def laterDenial : BitVec 32 := 8

/-- Byte offset of the entry for the page that contains an address. -/
def entryOffset (linearAddress : BitVec 32) : BitVec 32 := (linearAddress >>> pageShift) <<< entryShift

/-- The bytes of a present page's entry, if its backing offset is page aligned. -/
def encodeEntry (backingOffset : BitVec 32) (isWritable : Bool) : Option (List (BitVec 8)) :=
  if backingOffset &&& pageOffset ≠ 0 then none
  else some (Memory.lowBytes 4 (backingOffset ||| present ||| if isWritable then writable else 0))

/-- `PageTable::entry`. -/
def entry (table : Memory) (address : BitVec 32) : BitVec 32 := table.load 32 (entryOffset address).toNat 4

def scatteredBacking (firstFrame nextEntry : BitVec 32) : Bool :=
  let nextFrame := firstFrame + pageBytes
  nextEntry &&& frameMask ≠ nextFrame ∨ nextFrame < firstFrame

def crossesPage (start bytes : BitVec 32) : Bool :=
  if bytes = 1 then false else start &&& pageOffset ≥ pageBytes - bytes + 1

/-- A backing frame with a linear page offset. Low backing bits are ignored. -/
def physicalAddress (backing address : BitVec 32) : BitVec 32 :=
  (backing &&& frameMask) ||| (address &&& pageOffset)

/-- The loop of the range resolver: the pages after `address`, whose frame is `frame`. A denied page ends it with the
    word to return. -/
def walk (table : Memory) (required : BitVec 32) : Nat → BitVec 32 → BitVec 32 → Bool → Except (BitVec 32) Bool
  | 0, _, _, scattered => .ok scattered
  | remaining + 1, address, frame, scattered =>
      let nextAddress := address + pageBytes
      let next := entry table nextAddress
      if next &&& required ≠ required then .error (nextAddress ||| (next &&& present) ||| laterDenial)
      else walk table required remaining nextAddress (next &&& frameMask) (scattered || scatteredBacking frame next)

/-- Resolves every touched page of a nonempty span. -/
def rangeResolver (table : Memory) (start lastByteOffset firstEntry required : BitVec 32) : BitVec 32 :=
  if firstEntry &&& required ≠ required then firstEntry &&& (frameMask ||| present ||| writable)
  else
    -- counts page boundaries without overflowing `start + lastByteOffset`
    let boundaries := (lastByteOffset >>> pageShift) +
      (((start &&& pageOffset) + (lastByteOffset &&& pageOffset)) >>> pageShift)
    match walk table required boundaries.toNat (start &&& frameMask) (firstEntry &&& frameMask) false with
    | .error denied => denied
    | .ok scattered =>
        (firstEntry &&& (frameMask ||| present ||| writable)) ||| ((BitVec.ofBool scattered).setWidth 32 <<< 2)

/-! ## The retained entry -/

/-- A page-table entry retained across the iterations of a loop. -/
structure PageCache where
  index : BitVec 32
  entry : BitVec 32

namespace PageCache

/-- No byte offset of the table equals this initial key. -/
def empty : PageCache := ⟨BitVec.allOnes 32, 0⟩

/-- The entry for an address, and the cache that retains it. -/
def lookup (cache : PageCache) (table : Memory) (address : BitVec 32) : BitVec 32 × PageCache :=
  let index := (address >>> pageShift) <<< 2
  let entry := if index = cache.index then cache.entry else table.load 32 index.toNat 4
  (entry, ⟨index, entry⟩)

/-- The caches of a loop: the empty one, and those after a lookup. -/
inductive Loop (table : Memory) : PageCache → Prop where
  | empty : Loop table empty
  | lookup {cache : PageCache} (h : Loop table cache) (address : BitVec 32) : Loop table (cache.lookup table address).2

end PageCache

/-! ## As numbers -/

theorem toNat_pageBytes : pageBytes.toNat = 4096 := rfl

theorem toNat_pageOffset : pageOffset.toNat = 4095 := rfl

theorem toNat_and_pageOffset (addr : BitVec 32) : (addr &&& pageOffset).toNat = addr.toNat % 4096 := by
  rw [BitVec.toNat_and, toNat_pageOffset]
  exact Nat.and_two_pow_sub_one_eq_mod addr.toNat 12

theorem toNat_shiftRight_page (addr : BitVec 32) : (addr >>> pageShift).toNat = addr.toNat / 4096 := by
  rw [BitVec.toNat_ushiftRight, Nat.shiftRight_eq_div_pow]
  rfl

theorem and_frameMask_add (addr : BitVec 32) : (addr &&& frameMask) + (addr &&& pageOffset) = addr := by
  have hdisj : (addr &&& frameMask) &&& (addr &&& pageOffset) = 0 := by
    unfold frameMask
    ext i hi
    simp
    tauto
  rw [BitVec.add_eq_or_of_and_eq_zero _ _ hdisj, ← BitVec.and_or_distrib_left]
  exact BitVec.and_allOnes

theorem toNat_and_frameMask (addr : BitVec 32) : (addr &&& frameMask).toNat = addr.toNat / 4096 * 4096 := by
  have hsum := congrArg BitVec.toNat (and_frameMask_add addr)
  rw [BitVec.toNat_add, toNat_and_pageOffset] at hsum
  have hle : (addr &&& frameMask).toNat ≤ addr.toNat := by
    rw [BitVec.toNat_and]
    exact Nat.and_le_left
  have := addr.isLt
  omega

theorem toNat_physicalAddress (backing addr : BitVec 32) :
    (physicalAddress backing addr).toNat = backing.toNat / 4096 * 4096 + addr.toNat % 4096 := by
  have hdisj : (backing &&& frameMask) &&& (addr &&& pageOffset) = 0 := by
    unfold frameMask
    ext i hi
    simp
    tauto
  unfold physicalAddress
  rw [← BitVec.add_eq_or_of_and_eq_zero _ _ hdisj, BitVec.toNat_add, toNat_and_frameMask, toNat_and_pageOffset]
  have := backing.isLt
  omega

theorem toNat_entryOffset (addr : BitVec 32) : (entryOffset addr).toNat = addr.toNat / 4096 * 4 := by
  unfold entryOffset entryShift
  rw [BitVec.toNat_shiftLeft, toNat_shiftRight_page, Nat.shiftLeft_eq]
  have := addr.isLt
  omega

/-- Addresses of one page have one entry. -/
theorem entry_congr (table : Memory) {a b : BitVec 32} (h : a.toNat / 4096 = b.toNat / 4096) :
    entry table a = entry table b := by
  unfold entry
  rw [toNat_entryOffset, toNat_entryOffset, h]

/-- The low bits of a backing do not matter. -/
theorem physicalAddress_congr {a b : BitVec 32} (h : a.toNat / 4096 = b.toNat / 4096) (addr : BitVec 32) :
    physicalAddress a addr = physicalAddress b addr := by
  apply BitVec.eq_of_toNat_eq
  rw [toNat_physicalAddress, toNat_physicalAddress, h]

/-- Backing is scattered unless the next frame follows the first, without wrap. -/
theorem scatteredBacking_eq_true {firstFrame nextEntry : BitVec 32} (h : firstFrame.toNat % 4096 = 0) :
    scatteredBacking firstFrame nextEntry = true ↔
      nextEntry.toNat / 4096 * 4096 ≠ firstFrame.toNat + 4096 := by
  unfold scatteredBacking
  rw [decide_eq_true_iff, ne_eq, ← BitVec.toNat_inj, toNat_and_frameMask, BitVec.lt_def, BitVec.toNat_add,
    toNat_pageBytes]
  have := firstFrame.isLt
  have := nextEntry.isLt
  omega

/-- Only spans of one page or less are tested. -/
theorem crossesPage_eq_true {start bytes : BitVec 32} (hpos : bytes ≠ 0) (hle : bytes.toNat ≤ 4096) :
    crossesPage start bytes = true ↔ 4096 < start.toNat % 4096 + bytes.toNat := by
  have hlt := Nat.mod_lt start.toNat (show 4096 > 0 by decide)
  have hne : bytes.toNat ≠ 0 := fun h => hpos (BitVec.eq_of_toNat_eq h)
  unfold crossesPage
  split
  next hone =>
    have : bytes.toNat = 1 := congrArg BitVec.toNat hone
    refine ⟨nofun, fun h => ?_⟩
    omega
  next =>
    rw [decide_eq_true_iff, ge_iff_le, BitVec.le_def, toNat_and_pageOffset, BitVec.toNat_add, BitVec.toNat_sub,
      toNat_pageBytes]
    have hone : (1 : BitVec 32).toNat = 1 := rfl
    omega

/-! ## The retained entry is the table's -/

theorem PageCache.lookup_fst (cache : PageCache) (table : Memory) (addr : BitVec 32) :
    (cache.lookup table addr).1 =
      if entryOffset addr = cache.index then cache.entry else Virtual.entry table addr := rfl

/-- A retained entry is found again under its key only. -/
theorem PageCache.Loop.entry_eq {table : Memory} {cache : PageCache} (h : Loop table cache) (addr : BitVec 32)
    (hidx : entryOffset addr = cache.index) : cache.entry = Virtual.entry table addr := by
  induction h generalizing addr with
  | empty =>
    have hoff := toNat_entryOffset addr
    rw [hidx, show PageCache.empty.index.toNat = 4294967295 from rfl] at hoff
    omega
  | @lookup cache _ other ih =>
    have hsame : entryOffset addr = entryOffset other := hidx
    have hent : Virtual.entry table addr = Virtual.entry table other := by
      unfold Virtual.entry
      rw [hsame]
    rw [hent]
    show (cache.lookup table other).1 = _
    rw [lookup_fst]
    split
    next hit => exact ih other hit
    next => rfl

theorem PageCache.Loop.lookup_eq {table : Memory} {cache : PageCache} (h : Loop table cache) (addr : BitVec 32) :
    (cache.lookup table addr).1 = Virtual.entry table addr := by
  rw [lookup_fst]
  split
  next hit => exact h.entry_eq addr hit
  next => rfl

end Relocade.Virtual
