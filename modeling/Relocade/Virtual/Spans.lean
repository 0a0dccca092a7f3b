import Relocade.Virtual.Access

/-!
# `Virtual.Spans` — what a resolution says of a span

A span's pages are those of its bytes in address order, wrapping at 2^32. `Permitted`, `FirstDenied` and `Scattered` say
of the bytes' own entries what a resolution has to find out; the range resolver finds it page by page, the shortcuts
for short spans from one entry or two.
-/

namespace Relocade.Virtual

open Physical (Intent)
open BitVec (toNat_add toNat_ofNat eq_of_toNat_eq getLsbD_and)

/-! ## The bytes and pages of a span -/

/-- The address of a span's byte. -/
def byteAt (start : BitVec 32) (i : Nat) : BitVec 32 := start + BitVec.ofNat 32 i

/-- The address of a span's page, in walk order. -/
def pageAt (start : BitVec 32) : Nat → BitVec 32
  | 0 => start &&& frameMask
  | k + 1 => pageAt start k + pageBytes

/-- How many page boundaries a span of `n` bytes crosses. -/
def boundaries (start : BitVec 32) (n : Nat) : Nat := (start.toNat % 4096 + (n - 1)) / 4096

/-- The entry of an address grants an intent. -/
def Allows (table : Memory) (intent : Intent) (address : BitVec 32) : Prop :=
  entry table address &&& requiredPermissions intent = requiredPermissions intent

instance (table : Memory) (intent : Intent) (address : BitVec 32) : Decidable (Allows table intent address) :=
  inferInstanceAs (Decidable (_ = _))

/-- Where a byte's own entry sends it. -/
def translate (table : Memory) (address : BitVec 32) : BitVec 32 := physicalAddress (entry table address) address

/-- The frame of a byte's own entry. -/
def frame (table : Memory) (address : BitVec 32) : Nat := (entry table address).toNat / 4096 * 4096

variable {t : Memory} {s : BitVec 32} {intent : Intent} {n i k : Nat}

theorem toNat_byteAt (s : BitVec 32) (i : Nat) : (byteAt s i).toNat = (s.toNat + i) % 4294967296 := by
  unfold byteAt
  rw [toNat_add, toNat_ofNat, Nat.add_mod_mod]

theorem byteAt_zero (s : BitVec 32) : byteAt s 0 = s := BitVec.add_zero s

theorem toNat_pageAt (s : BitVec 32) (k : Nat) :
    (pageAt s k).toNat = (s.toNat / 4096 * 4096 + k * 4096) % 4294967296 := by
  induction k with
  | zero =>
    have := s.isLt
    rw [pageAt, toNat_and_frameMask]
    omega
  | succ k ih =>
    rw [pageAt, toNat_add, ih, toNat_pageBytes]
    omega

theorem pageAt_aligned (s : BitVec 32) (k : Nat) : (pageAt s k).toNat % 4096 = 0 := by
  rw [toNat_pageAt]
  omega

/-- A byte is on the page that its distance from the start's page gives. -/
theorem page_byteAt (s : BitVec 32) (i : Nat) :
    (byteAt s i).toNat / 4096 = (pageAt s ((s.toNat % 4096 + i) / 4096)).toNat / 4096 := by
  rw [toNat_byteAt, toNat_pageAt]
  omega

/-- The first byte of a later page. -/
theorem byteAt_eq_pageAt (h : s.toNat % 4096 + i = 4096 * k) : byteAt s i = pageAt s k := by
  apply eq_of_toNat_eq
  rw [toNat_byteAt, toNat_pageAt]
  omega

theorem entry_byteAt (t : Memory) (s : BitVec 32) (i : Nat) :
    entry t (byteAt s i) = entry t (pageAt s ((s.toNat % 4096 + i) / 4096)) :=
  entry_congr t (page_byteAt s i)

theorem entry_pageAt_zero (t : Memory) (s : BitVec 32) : entry t (pageAt s 0) = entry t s := by
  refine entry_congr t ?_
  rw [pageAt, toNat_and_frameMask]
  omega

/-! ## What a resolution has to find out -/

/-- Every byte's entry grants the intent. -/
def Permitted (table : Memory) (intent : Intent) (start : BitVec 32) (n : Nat) : Prop :=
  ∀ i < n, Allows table intent (byteAt start i)

/-- The first byte whose entry does not. -/
def FirstDenied (table : Memory) (intent : Intent) (start : BitVec 32) (n i : Nat) : Prop :=
  i < n ∧ ¬ Allows table intent (byteAt start i) ∧ ∀ j < i, Allows table intent (byteAt start j)

/-- Some touched page after the first is not backed right after the one before it, without wrap. -/
def Scattered (table : Memory) (start : BitVec 32) (n : Nat) : Prop :=
  ∃ i, i + 1 < n ∧ (byteAt start (i + 1)).toNat % 4096 = 0 ∧
    frame table (byteAt start (i + 1)) ≠ frame table (byteAt start i) + 4096

/-- A verdict on a span: the denied address with its presence, or whether the backing is scattered. -/
def Judged (table : Memory) (intent : Intent) (start : BitVec 32) (n : Nat) : Except (BitVec 32 × Bool) Bool → Prop
  | .ok scattered => Permitted table intent start n ∧ (scattered = true ↔ Scattered table start n)
  | .error (address, isPresent) => ∃ i, FirstDenied table intent start n i ∧ address = byteAt start i ∧
      isPresent = Virtual.isPresent (entry table (byteAt start i))

/-- A byte of a later page, and the page's first byte. -/
theorem le_boundaries (hn : 0 < n) (hi : i < n) : (s.toNat % 4096 + i) / 4096 ≤ boundaries s n := by
  unfold boundaries
  exact Nat.div_le_div_right (by omega)

theorem exists_byteAt (hn : 0 < n) (hpos : 0 < k) (hk : k ≤ boundaries s n) :
    ∃ i, 0 < i ∧ i < n ∧ s.toNat % 4096 + i = 4096 * k := by
  unfold boundaries at hk
  refine ⟨4096 * k - s.toNat % 4096, ?_, ?_, ?_⟩ <;> omega

theorem permitted_iff (hn : 0 < n) :
    Permitted t intent s n ↔ ∀ k ≤ boundaries s n, Allows t intent (pageAt s k) := by
  constructor
  · intro h k hk
    rcases Nat.eq_zero_or_pos k with rfl | hpos
    · have hz := h 0 hn
      unfold Allows at hz ⊢
      rwa [entry_pageAt_zero, ← byteAt_zero s]
    · obtain ⟨i, -, hi, hik⟩ := exists_byteAt hn hpos hk
      rw [← byteAt_eq_pageAt hik]
      exact h i hi
  · intro h i hi
    have hpage := h _ (@le_boundaries s _ _ hn hi)
    unfold Allows at hpage ⊢
    rwa [entry_byteAt]

theorem frame_byteAt (t : Memory) (s : BitVec 32) (i : Nat) :
    frame t (byteAt s i) = frame t (pageAt s ((s.toNat % 4096 + i) / 4096)) := by
  unfold frame
  rw [entry_byteAt]

theorem scattered_iff (hn : 0 < n) : Scattered t s n ↔
    ∃ k < boundaries s n, frame t (pageAt s (k + 1)) ≠ frame t (pageAt s k) + 4096 := by
  constructor
  · rintro ⟨i, hi, halign, hframe⟩
    rw [toNat_byteAt] at halign
    rw [frame_byteAt, frame_byteAt] at hframe
    have hsucc : (s.toNat % 4096 + (i + 1)) / 4096 = (s.toNat % 4096 + i) / 4096 + 1 := by omega
    refine ⟨(s.toNat % 4096 + i) / 4096, ?_, hsucc ▸ hframe⟩
    have := @le_boundaries s _ _ hn hi
    omega
  · rintro ⟨k, hk, hframe⟩
    obtain ⟨i, hpos, hi, hik⟩ := @exists_byteAt s _ _ hn (Nat.succ_pos k) hk
    obtain ⟨j, rfl⟩ : ∃ j, i = j + 1 := ⟨i - 1, by omega⟩
    refine ⟨j, hi, ?_, ?_⟩
    · rw [toNat_byteAt]
      omega
    · rw [frame_byteAt, frame_byteAt, hik, show (s.toNat % 4096 + j) / 4096 = k by omega,
        show 4096 * (k + 1) / 4096 = k + 1 by omega]
      exact hframe

/-- The first denied page gives the first denied byte. -/
theorem firstDenied_of_page (hn : 0 < n) (hk : k ≤ boundaries s n) (hden : ¬ Allows t intent (pageAt s k))
    (hbef : ∀ j < k, Allows t intent (pageAt s j)) :
    ∃ i, FirstDenied t intent s n i ∧ byteAt s i = (if k = 0 then s else pageAt s k) ∧
      entry t (byteAt s i) = entry t (pageAt s k) := by
  have hearlier : ∀ j, (s.toNat % 4096 + j) / 4096 < k → Allows t intent (byteAt s j) := by
    intro j hj
    have hpage := hbef _ hj
    unfold Allows at hpage ⊢
    rwa [entry_byteAt]
  rcases Nat.eq_zero_or_pos k with rfl | hpos
  · have hent : entry t (byteAt s 0) = entry t (pageAt s 0) := by
      rw [byteAt_zero, entry_pageAt_zero]
    refine ⟨0, ⟨hn, ?_, fun j hj => absurd hj (Nat.not_lt_zero j)⟩, byteAt_zero s, hent⟩
    unfold Allows at hden ⊢
    rwa [hent]
  · obtain ⟨i, -, hi, hik⟩ := exists_byteAt hn hpos hk
    rw [if_neg (Nat.ne_of_gt hpos)]
    refine ⟨i, ⟨hi, ?_, fun j hj => hearlier j (by omega)⟩, byteAt_eq_pageAt hik, ?_⟩
    · rw [byteAt_eq_pageAt hik]
      exact hden
    · rw [byteAt_eq_pageAt hik]

/-! ## The range resolver -/

/-- The walk over the pages after the `k`-th. -/
theorem walk_spec (t : Memory) (intent : Intent) (s : BitVec 32) (rem k : Nat) (scattered : Bool) :
    match walk t (requiredPermissions intent) rem (pageAt s k) (entry t (pageAt s k) &&& frameMask)
      scattered with
    | .ok result => (∀ j, k < j → j ≤ k + rem → Allows t intent (pageAt s j)) ∧
        (result = true ↔ scattered = true ∨ ∃ j, k ≤ j ∧ j < k + rem ∧
          frame t (pageAt s (j + 1)) ≠ frame t (pageAt s j) + 4096)
    | .error word => ∃ j, k < j ∧ j ≤ k + rem ∧ ¬ Allows t intent (pageAt s j) ∧
        (∀ m, k < m → m < j → Allows t intent (pageAt s m)) ∧
        word = pageAt s j ||| (entry t (pageAt s j) &&& present) ||| laterDenial := by
  induction rem generalizing k scattered with
  | zero =>
    refine ⟨fun j hj hle => absurd hle (by omega), fun h => Or.inl h, ?_⟩
    rintro (h | ⟨j, hj, hlt, -⟩)
    · exact h
    · omega
  | succ rem ih =>
    unfold walk
    dsimp only
    have hpage : pageAt s k + pageBytes = pageAt s (k + 1) := rfl
    rw [hpage]
    by_cases hallows : Allows t intent (pageAt s (k + 1))
    · have hscat : scatteredBacking (entry t (pageAt s k) &&& frameMask)
          (entry t (pageAt s (k + 1))) = true ↔
          frame t (pageAt s (k + 1)) ≠ frame t (pageAt s k) + 4096 := by
        rw [scatteredBacking_eq_true (by rw [toNat_and_frameMask]; omega), toNat_and_frameMask]
        exact Iff.rfl
      have hrest := ih (k + 1) (scattered || scatteredBacking (entry t (pageAt s k) &&& frameMask)
        (entry t (pageAt s (k + 1))))
      rw [if_neg (not_not_intro (show _ &&& requiredPermissions intent = requiredPermissions intent from hallows))]
      revert hrest
      cases walk t (requiredPermissions intent) rem (pageAt s (k + 1))
        (entry t (pageAt s (k + 1)) &&& frameMask) (scattered || scatteredBacking
          (entry t (pageAt s k) &&& frameMask) (entry t (pageAt s (k + 1)))) with
      | ok result =>
        rintro ⟨hpages, hres⟩
        refine ⟨?_, ?_⟩
        · intro j hj hle
          rcases Nat.lt_or_ge (k + 1) j with hlt | hge
          · exact hpages j hlt (by omega)
          · obtain rfl : j = k + 1 := by omega
            exact hallows
        · rw [hres, Bool.or_eq_true, hscat, or_assoc]
          refine or_congr Iff.rfl ⟨?_, ?_⟩
          · rintro (hk | ⟨j, hj, hlt, hframe⟩)
            · exact ⟨k, le_refl k, by omega, hk⟩
            · exact ⟨j, by omega, by omega, hframe⟩
          · rintro ⟨j, hj, hlt, hframe⟩
            rcases Nat.eq_or_lt_of_le hj with rfl | hkj
            · exact Or.inl hframe
            · exact Or.inr ⟨j, hkj, by omega, hframe⟩
      | error word =>
        rintro ⟨j, hj, hle, hden, hbef, hword⟩
        refine ⟨j, by omega, by omega, hden, ?_, hword⟩
        intro m hm hmj
        rcases Nat.lt_or_ge (k + 1) m with hlt | hge
        · exact hbef m hlt hmj
        · obtain rfl : m = k + 1 := by omega
          exact hallows
    · rw [if_pos (show _ &&& requiredPermissions intent ≠ requiredPermissions intent from hallows)]
      exact ⟨k + 1, by omega, by omega, hallows, fun m hm hmj => absurd hmj (by omega), rfl⟩

/-! ### The resolver's words -/

theorem and_eq_right_iff (x m : BitVec 32) : x &&& m = m ↔ ∀ i < 32, m.getLsbD i = true → x.getLsbD i = true := by
  constructor
  · intro h i _ hm
    rw [← h, getLsbD_and] at hm
    exact ((Bool.and_eq_true _ _).mp hm).1
  · intro h
    refine BitVec.eq_of_getLsbD_eq fun i hi => ?_
    rw [getLsbD_and]
    cases hm : m.getLsbD i with
    | false => exact Bool.and_false _
    | true => rw [h i hi hm, Bool.and_self]

/-- Only the presence bit, and for writes the bit above it, are required. -/
theorem and_required (x : BitVec 32) (intent : Intent) :
    x &&& requiredPermissions intent = requiredPermissions intent ↔
      x.getLsbD 0 = true ∧ (intent = .write → x.getLsbD 1 = true) := by
  have hpresent : ∀ i < 32, present.getLsbD i = true ↔ i = 0 := by decide
  have hboth : ∀ i < 32, (present ||| writable).getLsbD i = true ↔ i = 0 ∨ i = 1 := by decide
  have hrd : x &&& present = present ↔ x.getLsbD 0 = true := by
    rw [and_eq_right_iff]
    refine ⟨fun h => h 0 (by decide) rfl, fun h i hi hm => ?_⟩
    rwa [(hpresent i hi).mp hm]
  cases intent with
  | write =>
    rw [show requiredPermissions .write = present ||| writable from rfl, and_eq_right_iff]
    refine ⟨fun h => ⟨h 0 (by decide) rfl, fun _ => h 1 (by decide) rfl⟩, fun h i hi hm => ?_⟩
    rcases (hboth i hi).mp hm with rfl | rfl
    · exact h.1
    · exact h.2 rfl
  | read => exact hrd.trans ⟨fun h => ⟨h, nofun⟩, fun h => h.1⟩
  | readOrExecute => exact hrd.trans ⟨fun h => ⟨h, nofun⟩, fun h => h.1⟩
  | fetch => exact hrd.trans ⟨fun h => ⟨h, nofun⟩, fun h => h.1⟩

theorem and_bit {bit : BitVec 32} {k : Nat} (hbit : bit = BitVec.twoPow 32 k) (hne : bit ≠ 0) (x : BitVec 32) :
    x &&& bit ≠ 0 ↔ x.getLsbD k = true := by
  rw [hbit, BitVec.and_twoPow, ← hbit]
  split
  next h => exact ⟨fun _ => h, fun _ => hne⟩
  next h => exact ⟨fun hz => absurd rfl hz, fun h' => absurd h' h⟩

variable {address : BitVec 32}

theorem and_frameMask_of_aligned (h : address.toNat % 4096 = 0) : address &&& frameMask = address := by
  apply eq_of_toNat_eq
  rw [toNat_and_frameMask]
  omega

theorem getLsbD_of_aligned (h : address.toNat % 4096 = 0) {i : Nat} (hi : i < 12) : address.getLsbD i = false := by
  have hmask : ∀ i < 12, frameMask.getLsbD i = false := by decide
  rw [← and_frameMask_of_aligned h, getLsbD_and, hmask i hi, Bool.and_false]

/-- The word of a granted range. -/
def grantedWord (firstEntry : BitVec 32) (scattered : Bool) : BitVec 32 :=
  (firstEntry &&& (frameMask ||| present ||| writable)) ||| ((BitVec.ofBool scattered).setWidth 32 <<< 2)

theorem getLsbD_grantedWord (e : BitVec 32) (s : Bool) :
    (grantedWord e s).getLsbD 0 = e.getLsbD 0 ∧ (grantedWord e s).getLsbD 1 = e.getLsbD 1 ∧
    (grantedWord e s).getLsbD 2 = s ∧ (grantedWord e s).getLsbD 3 = false := by
  have hmask : (frameMask ||| present ||| writable) = 0xfffff003#32 := rfl
  unfold grantedWord
  rw [hmask]
  simp only [BitVec.getLsbD_or, getLsbD_and]
  cases s <;> simp

theorem grantedWord_frame (e : BitVec 32) (s : Bool) : grantedWord e s &&& frameMask = e &&& frameMask := by
  have hflag : ((BitVec.ofBool s).setWidth 32 <<< 2) &&& frameMask = 0#32 := by cases s <;> rfl
  unfold grantedWord
  rw [BitVec.and_or_distrib_right, hflag, BitVec.or_zero, BitVec.and_assoc]
  rfl

/-- The word of a denial on a later page. -/
def deniedWord (address e : BitVec 32) : BitVec 32 := address ||| (e &&& present) ||| laterDenial

theorem getLsbD_deniedWord (h : address.toNat % 4096 = 0) (e : BitVec 32) :
    (deniedWord address e).getLsbD 0 = e.getLsbD 0 ∧ (deniedWord address e).getLsbD 1 = false ∧
      (deniedWord address e).getLsbD 3 = true := by
  unfold deniedWord
  simp only [BitVec.getLsbD_or, getLsbD_and, getLsbD_of_aligned h (show 0 < 12 by decide),
    getLsbD_of_aligned h (show 1 < 12 by decide), getLsbD_of_aligned h (show 3 < 12 by decide)]
  simp [present, laterDenial]

theorem deniedWord_frame (h : address.toNat % 4096 = 0) (e : BitVec 32) :
    deniedWord address e &&& frameMask = address := by
  unfold deniedWord
  rw [BitVec.and_or_distrib_right, BitVec.and_or_distrib_right, and_frameMask_of_aligned h, BitVec.and_assoc,
    show present &&& frameMask = 0 from rfl, show laterDenial &&& frameMask = 0 from rfl]
  simp

theorem unpack_granted {e : BitVec 32} (h : e &&& requiredPermissions intent = requiredPermissions intent)
    (s : BitVec 32) (scattered : Bool) :
    unpack s intent (grantedWord e scattered) = .ok (scattered, physicalAddress e s) := by
  obtain ⟨hz, hone, htwo, -⟩ := getLsbD_grantedWord e scattered
  have hreq : grantedWord e scattered &&& requiredPermissions intent = requiredPermissions intent := by
    rw [and_required, hz, hone]
    exact (and_required e intent).mp h
  have hflag : (grantedWord e scattered &&& scatteredFlag ≠ 0) ↔ scattered = true := by
    rw [and_bit (show scatteredFlag = BitVec.twoPow 32 2 from rfl) (by decide), htwo]
  unfold unpack
  rw [if_neg (not_not_intro hreq)]
  simp only [hflag, Bool.decide_eq_true, physicalAddress, grantedWord_frame]

theorem unpack_first {e : BitVec 32} (h : e &&& requiredPermissions intent ≠ requiredPermissions intent)
    (s : BitVec 32) : unpack s intent (grantedWord e false) = .error (s, isPresent e) := by
  obtain ⟨hz, hone, -, hthree⟩ := getLsbD_grantedWord e false
  have hreq : grantedWord e false &&& requiredPermissions intent ≠ requiredPermissions intent := by
    rw [ne_eq, and_required, hz, hone, ← and_required]
    exact h
  have hlater : ¬ (grantedWord e false &&& laterDenial ≠ 0) := by
    rw [and_bit (show laterDenial = BitVec.twoPow 32 3 from rfl) (by decide), hthree]
    decide
  unfold unpack
  rw [if_pos hreq, if_neg hlater, isPresent, hz]
  rfl

theorem unpack_later {e address : BitVec 32} (h : e &&& requiredPermissions intent ≠ requiredPermissions intent)
    (halign : address.toNat % 4096 = 0) (s : BitVec 32) :
    unpack s intent (deniedWord address e) = .error (address, isPresent e) := by
  obtain ⟨hz, hone, hthree⟩ := getLsbD_deniedWord halign e
  have hreq : deniedWord address e &&& requiredPermissions intent ≠ requiredPermissions intent := by
    rw [ne_eq, and_required, hz, hone]
    rintro ⟨hpresent, hwr⟩
    refine h ((and_required e intent).mpr ⟨hpresent, fun hintent => ?_⟩)
    exact absurd (hwr hintent) (by decide)
  have hlater : deniedWord address e &&& laterDenial ≠ 0 := by
    rw [and_bit (show laterDenial = BitVec.twoPow 32 3 from rfl) (by decide), hthree]
  unfold unpack
  rw [if_pos hreq, if_pos hlater, isPresent, hz, deniedWord_frame halign]
  rfl

/-! ### The resolver's verdict -/

/-- A resolution's answer for a verdict. -/
def answer (table : Memory) (start : BitVec 32) :
    Except (BitVec 32 × Bool) Bool → Except (BitVec 32 × Bool) (Bool × BitVec 32)
  | .error denied => .error denied
  | .ok scattered => .ok (scattered, translate table start)

theorem toNat_sub_one {bytes : BitVec 32} (h : 0 < bytes.toNat) : (bytes - 1).toNat = bytes.toNat - 1 := by
  rw [BitVec.toNat_sub]
  have := bytes.isLt
  have : (1 : BitVec 32).toNat = 1 := rfl
  omega

variable {s bytes : BitVec 32}

/-- Boundaries are counted without overflow. -/
theorem toNat_boundaries (h : 0 < bytes.toNat) :
    (((bytes - 1) >>> pageShift) + (((s &&& pageOffset) + ((bytes - 1) &&& pageOffset)) >>> pageShift)).toNat =
      boundaries s bytes.toNat := by
  unfold boundaries
  rw [toNat_add, toNat_shiftRight_page, toNat_shiftRight_page, toNat_add, toNat_and_pageOffset,
    toNat_and_pageOffset, toNat_sub_one h]
  have := bytes.isLt
  omega

theorem resolvePages_judged (t : Memory) (s : BitVec 32) (intent : Intent) (length : Length)
    (hn : 0 < length.bytes.toNat) : ∃ verdict, Judged t intent s length.bytes.toNat verdict ∧
      resolvePages t s length intent (entry t s) = answer t s verdict := by
  have hframe : (entry t s &&& frameMask) = entry t (pageAt s 0) &&& frameMask := by
    rw [entry_pageAt_zero]
  unfold resolvePages rangeResolver
  dsimp only
  rw [toNat_boundaries hn, hframe, show s &&& frameMask = pageAt s 0 from rfl]
  by_cases hfst : Allows t intent s
  · rw [if_neg (not_not_intro (show _ &&& requiredPermissions intent = requiredPermissions intent from hfst))]
    have hz : Allows t intent (pageAt s 0) := by
      unfold Allows at hfst ⊢
      rwa [entry_pageAt_zero]
    have hwalk := walk_spec t intent s (boundaries s length.bytes.toNat) 0 false
    revert hwalk
    cases walk t (requiredPermissions intent) (boundaries s length.bytes.toNat) (pageAt s 0)
      (entry t (pageAt s 0) &&& frameMask) false with
    | ok scattered =>
      rintro ⟨hpages, hscat⟩
      refine ⟨.ok scattered, ⟨?_, ?_⟩, ?_⟩
      · rw [permitted_iff hn]
        intro k hk
        rcases Nat.eq_zero_or_pos k with rfl | hpos
        · exact hz
        · exact hpages k hpos (by omega)
      · rw [hscat, scattered_iff hn]
        simp
      · exact unpack_granted hfst s scattered
    | error word =>
      rintro ⟨k, hpos, hk, hden, hbef, rfl⟩
      have hearlier : ∀ j < k, Allows t intent (pageAt s j) := by
        intro j hj
        rcases Nat.eq_zero_or_pos j with rfl | hjpos
        · exact hz
        · exact hbef j hjpos hj
      obtain ⟨i, hi, haddr, -⟩ := firstDenied_of_page hn (by omega) hden hearlier
      rw [if_neg (Nat.ne_of_gt hpos)] at haddr
      refine ⟨.error (byteAt s i, isPresent (entry t (byteAt s i))), ⟨i, hi, rfl, rfl⟩, ?_⟩
      rw [haddr]
      exact unpack_later hden (pageAt_aligned s k) s
  · rw [if_pos (show _ &&& requiredPermissions intent ≠ requiredPermissions intent from hfst)]
    have hden : ¬ Allows t intent (pageAt s 0) := by
      unfold Allows at hfst ⊢
      rwa [entry_pageAt_zero]
    obtain ⟨i, hi, haddr, hent⟩ :=
      firstDenied_of_page hn (Nat.zero_le _) hden fun j hj => absurd hj (Nat.not_lt_zero j)
    rw [if_pos rfl] at haddr
    refine ⟨.error (s, isPresent (entry t s)), ⟨i, hi, haddr.symm, ?_⟩, ?_⟩
    · rw [hent, entry_pageAt_zero]
    · have hword : entry t s &&& (frameMask ||| present ||| writable) = grantedWord (entry t s) false := by
        unfold grantedWord
        exact (BitVec.or_zero).symm
      rw [hword]
      exact unpack_first hfst s

/-! ## Spans of one page or less -/

theorem boundaries_eq_zero (hn : 0 < n) (h : s.toNat % 4096 + n ≤ 4096) : boundaries s n = 0 := by
  unfold boundaries
  omega

/-- A span within one page is judged by its first entry. -/
theorem single_judged (t : Memory) (intent : Intent) (hn : 0 < n) (h : s.toNat % 4096 + n ≤ 4096) :
    Judged t intent s n
      (if entry t s &&& requiredPermissions intent ≠ requiredPermissions intent then
        .error (s, isPresent (entry t s)) else .ok false) := by
  have hz := boundaries_eq_zero hn h
  split
  next hden =>
    have hpage : ¬ Allows t intent (pageAt s 0) := by
      unfold Allows
      rwa [entry_pageAt_zero]
    obtain ⟨i, hi, haddr, hent⟩ :=
      firstDenied_of_page hn (Nat.zero_le _) hpage fun j hj => absurd hj (Nat.not_lt_zero j)
    refine ⟨i, hi, haddr.symm, ?_⟩
    rw [hent, entry_pageAt_zero]
  next hallow =>
    refine ⟨(permitted_iff hn).mpr ?_, nofun, fun hscat => ?_⟩
    · intro k hk
      obtain rfl : k = 0 := by omega
      unfold Allows
      rw [entry_pageAt_zero]
      exact not_not.mp hallow
    · obtain ⟨k, hk, -⟩ := (scattered_iff hn).mp hscat
      omega

/-- An aligned power of two does not leave its page. -/
theorem fits_of_aligned {bytes : BitVec 32} (hpower : isPowerOfTwo bytes = true) (hle : bytes.toNat ≤ 4096)
    (halign : s &&& (bytes - 1) = 0) : s.toNat % 4096 + bytes.toNat ≤ 4096 := by
  obtain ⟨k, hk, hbytes⟩ := List.any_eq_true.mp hpower
  have hk32 := List.mem_range.mp hk
  have htoNat : bytes.toNat = 2 ^ k := by
    rw [of_decide_eq_true hbytes, BitVec.toNat_shiftLeft, Nat.shiftLeft_eq, toNat_ofNat, Nat.one_mod,
      Nat.one_mul]
    exact Nat.mod_eq_of_lt (Nat.pow_lt_pow_right (by decide) hk32)
  have hmod : s.toNat % 2 ^ k = 0 := by
    rw [← Nat.and_two_pow_sub_one_eq_mod, ← htoNat, ← toNat_sub_one (htoNat ▸ Nat.two_pow_pos k), ← BitVec.toNat_and,
      halign]
    rfl
  have hk12 : k ≤ 12 := by
    rw [htoNat] at hle
    exact (Nat.pow_le_pow_iff_right (show 1 < 2 by decide)).mp hle
  have hpage : 2 ^ k ∣ 4096 := Nat.pow_dvd_pow 2 hk12
  have hoff : 2 ^ k ∣ s.toNat % 4096 := (Nat.dvd_mod_iff hpage).mpr (Nat.dvd_of_mod_eq_zero hmod)
  have hlt := Nat.mod_lt s.toNat (show 4096 > 0 by decide)
  have hroom := Nat.le_of_dvd (by omega) (Nat.dvd_sub hpage hoff)
  rw [htoNat]
  omega

/-- Every way of checking a span judges it. -/
theorem checks_judged (t : Memory) (s : BitVec 32) (intent : Intent) (length : Length) (faulting : Bool)
    (hn : 0 < length.bytes.toNat) : ∃ verdict, Judged t intent s length.bytes.toNat verdict ∧
      checks t s length intent faulting (entry t s) = answer t s verdict := by
  have hpages := resolvePages_judged t s intent length hn
  have hemp : ∀ bytes : BitVec 32, 0 < bytes.toNat → ¬ (!faulting && decide (bytes = 0)) = true := by
    intro bytes hbytes hz
    have hz' := of_decide_eq_true ((Bool.and_eq_true _ _).mp hz).2
    rw [hz'] at hbytes
    exact absurd hbytes (by decide)
  unfold checks
  cases length with
  | dynamic bytes =>
    dsimp only
    rw [if_neg (hemp bytes hn)]
    exact hpages
  | constant bytes =>
    dsimp only
    split
    next hle =>
      have hle' : bytes.toNat ≤ 4096 := hle
      have hne : bytes ≠ 0 := by
        rintro rfl
        exact absurd hn (by decide)
      by_cases hcross : ((if isPowerOfTwo bytes then decide (s &&& (bytes - 1) ≠ 0) else true) &&
          crossesPage s bytes) = true
      · rw [if_pos hcross]
        exact hpages
      · have hfits : s.toNat % 4096 + bytes.toNat ≤ 4096 := by
          by_contra hroom
          rw [(crossesPage_eq_true hne hle').mpr (Nat.lt_of_not_le hroom), Bool.and_true] at hcross
          split at hcross
          next hpower =>
            refine hroom (fits_of_aligned hpower hle' ?_)
            by_contra halign
            exact hcross (decide_eq_true halign)
          next => exact hcross rfl
        rw [if_neg hcross]
        refine ⟨_, single_judged t intent hn hfits, ?_⟩
        split
        next => rfl
        next => rfl
    next =>
      rw [if_neg (hemp bytes hn)]
      exact hpages

/-! ## Two pages -/

theorem and_and_required {x y required : BitVec 32} :
    x &&& y &&& required = required ↔ x &&& required = required ∧ y &&& required = required := by
  simp only [and_eq_right_iff, getLsbD_and, Bool.and_eq_true]
  exact ⟨fun h => ⟨fun i hi hm => (h i hi hm).1, fun i hi hm => (h i hi hm).2⟩,
    fun h i hi hm => ⟨h.1 i hi hm, h.2 i hi hm⟩⟩

/-- The entry of the last byte is that of the second page of a short span that crosses. -/
theorem entry_last (t : Memory) (hcross : 4096 < s.toNat % 4096 + bytes.toNat)
    (hle : bytes.toNat ≤ 4096) :
    entry t (s + (bytes - 1)) = entry t (pageAt s 1) ∧ boundaries s bytes.toNat = 1 := by
  have hlast : s + (bytes - 1) = byteAt s (bytes.toNat - 1) := by
    unfold byteAt
    congr 1
    apply eq_of_toNat_eq
    rw [toNat_sub_one (by omega), toNat_ofNat]
    omega
  unfold boundaries
  rw [hlast, entry_byteAt]
  constructor
  · rw [show (s.toNat % 4096 + (bytes.toNat - 1)) / 4096 = 1 by omega]
  · omega

/-- The probe of two pages. -/
theorem two_pages (t : Memory) (intent : Intent)
    (hcross : 4096 < s.toNat % 4096 + bytes.toNat) (hle : bytes.toNat ≤ 4096) :
    (entry t s &&& entry t (s + (bytes - 1)) &&& requiredPermissions intent =
      requiredPermissions intent ↔ Permitted t intent s bytes.toNat) ∧
    (scatteredBacking (entry t s &&& frameMask) (entry t (s + (bytes - 1))) = true ↔
      Scattered t s bytes.toNat) := by
  obtain ⟨hlast, hboundaries⟩ := entry_last t hcross hle
  have hn : 0 < bytes.toNat := by omega
  rw [hlast, permitted_iff hn, scattered_iff hn, hboundaries, ← entry_pageAt_zero]
  constructor
  · rw [and_and_required]
    constructor
    · rintro ⟨hfst, hsnd⟩ k hk
      obtain rfl | rfl : k = 0 ∨ k = 1 := by omega
      · exact hfst
      · exact hsnd
    · exact fun h => ⟨h 0 (by decide), h 1 (by decide)⟩
  · rw [scatteredBacking_eq_true (by rw [toNat_and_frameMask]; omega), toNat_and_frameMask]
    constructor
    · exact fun h => ⟨0, by decide, h⟩
    · rintro ⟨k, hk, hframe⟩
      obtain rfl : k = 0 := by omega
      exact hframe

/-! ## The resolution -/

/-- The error code of a denial, from the denied page's presence. -/
def errorCode (intent : Intent) (isPresent : Bool) : BitVec 32 :=
  match intent with
  | .write => (BitVec.ofBool isPresent).setWidth 32 ||| 2
  | .read | .readOrExecute => 0
  | .fetch => 16

/-- What a resolution answers. -/
structure Resolved (table : Memory) (start : BitVec 32) (length : Length) (intent : Intent) (faulting : Bool)
    (result : Except PageFault Access) : Prop where
  /-- A permitted span is granted at its first byte's address, and marked scattered when its backing is. -/
  granted : Permitted table intent start length.bytes.toNat → ∃ unavailable,
    result = .ok ⟨start, translate table start, false, unavailable, intent, length.constantBytes⟩ ∧
      (unavailable = true ↔ Scattered table start length.bytes.toNat)
  /-- A denied span faults at its first denied byte. -/
  faulted : ¬ Permitted table intent start length.bytes.toNat → faulting = true →
    ∃ i, FirstDenied table intent start length.bytes.toNat i ∧
      result = .error ⟨byteAt start i, errorCode intent (isPresent (entry table (byteAt start i)))⟩
  /-- Without a fault handler it is marked denied and unavailable. -/
  denied : ¬ Permitted table intent start length.bytes.toNat → faulting = false →
    result = .ok ⟨start, translate table start, true, true, intent, length.constantBytes⟩

theorem finishDenial_eq (s address : BitVec 32) (length : Length) (intent : Intent) (faulting : Bool)
    (firstEntry : BitVec 32) (isPresent : Bool) :
    finishDenial s length intent faulting firstEntry address isPresent =
      if faulting then .error ⟨address, errorCode intent isPresent⟩
      else .ok ⟨s, physicalAddress firstEntry s, true, true, intent, length.constantBytes⟩ := by
  unfold finishDenial
  cases intent <;> rfl

/-- A verdict gives the resolution. -/
theorem Judged.resolved {length : Length} {faulting : Bool} {verdict : Except (BitVec 32 × Bool) Bool}
    (h : Judged t intent s length.bytes.toNat verdict) :
    Resolved t s length intent faulting
      (match answer t s verdict with
      | .error (address, isPresent) =>
        finishDenial s length intent faulting (entry t s) address isPresent
      | .ok (unavailable, physical) =>
        .ok ⟨s, physical, false, unavailable, intent, length.constantBytes⟩) := by
  cases verdict with
  | ok scattered =>
    obtain ⟨hperm, hscat⟩ := h
    exact ⟨fun _ => ⟨scattered, rfl, hscat⟩, fun hnot => absurd hperm hnot, fun hnot => absurd hperm hnot⟩
  | error denial =>
    obtain ⟨address, isPresent⟩ := denial
    obtain ⟨i, hden, rfl, rfl⟩ := h
    dsimp only [answer]
    rw [finishDenial_eq]
    refine ⟨fun hperm => absurd (hperm i hden.1) hden.2.1, ?_, ?_⟩
    · rintro - rfl
      exact ⟨i, hden, rfl⟩
    · rintro - rfl
      rfl

theorem resolveFrom_checks (t : Memory) (s : BitVec 32) (intent : Intent) (length : Length) (faulting : Bool)
    (hn : 0 < length.bytes.toNat) :
    Resolved t s length intent faulting
      (match checks t s length intent faulting (entry t s) with
      | .error (address, isPresent) =>
        finishDenial s length intent faulting (entry t s) address isPresent
      | .ok (unavailable, physical) =>
        .ok ⟨s, physical, false, unavailable, intent, length.constantBytes⟩) := by
  obtain ⟨verdict, hjudged, hchecks⟩ := checks_judged t s intent length faulting hn
  rw [hchecks]
  exact hjudged.resolved

/-- Without a fault handler, a span of one page or less is probed directly. -/
theorem probe_resolved (t : Memory) (s bytes : BitVec 32) (intent : Intent) (hn : 0 < bytes.toNat)
    (hle : bytes.toNat ≤ 4096) :
    Resolved t s (.constant bytes) intent false
      (resolveFrom t s (.constant bytes) intent false (entry t s)) := by
  have hne : bytes ≠ 0 := by
    rintro rfl
    exact absurd hn (by decide)
  have hshort : (!false) = true ∧ bytes ≤ pageBytes := ⟨rfl, hle⟩
  unfold resolveFrom
  dsimp only
  rw [if_pos hshort, if_neg hne]
  by_cases hcross : crossesPage s bytes = true
  · obtain ⟨hperm, hscat⟩ := two_pages t intent ((crossesPage_eq_true hne hle).mp hcross) hle
    rw [if_pos hcross]
    refine ⟨fun h => ?_, nofun, fun h _ => ?_⟩
    · have hallow := hperm.mpr h
      refine ⟨_, ?_, hscat⟩
      simp only [hallow, ne_eq, not_true_eq_false, decide_false, Bool.false_or]
      rfl
    · have hden : entry t s &&& entry t (s + (bytes - 1)) &&& requiredPermissions intent ≠
          requiredPermissions intent := fun hall => h (hperm.mp hall)
      rw [decide_eq_true hden]
      rfl
  · have hroom : s.toNat % 4096 + bytes.toNat ≤ 4096 := by
      by_contra hroom
      exact hcross ((crossesPage_eq_true hne hle).mpr (Nat.lt_of_not_le hroom))
    have hjudged : Judged t intent s (Length.constant bytes).bytes.toNat _ :=
      single_judged t intent hn hroom
    rw [if_neg hcross]
    split at hjudged
    next hden =>
      rw [decide_eq_true hden]
      exact hjudged.resolved
    next hallow =>
      rw [decide_eq_false hallow]
      exact hjudged.resolved

/-- A faulting byte needs one entry. -/
theorem byte_resolved (t : Memory) (s : BitVec 32) (intent : Intent) :
    Resolved t s (.constant 1) intent true
      (resolveFrom t s (.constant 1) intent true (entry t s)) := by
  have hroom : s.toNat % 4096 + (1 : BitVec 32).toNat ≤ 4096 := by
    have := Nat.mod_lt s.toNat (show 4096 > 0 by decide)
    have : (1 : BitVec 32).toNat = 1 := rfl
    omega
  have hjudged : Judged t intent s (Length.constant 1).bytes.toNat _ :=
    single_judged t intent (show 0 < (1 : BitVec 32).toNat by decide) hroom
  unfold resolveFrom
  dsimp only
  rw [if_neg (by decide), if_pos ⟨rfl, rfl⟩]
  split at hjudged
  next hden =>
    rw [if_pos (decide_eq_true hden)]
    exact hjudged.resolved
  next hallow =>
    rw [if_neg (by rw [decide_eq_false hallow]; decide)]
    exact hjudged.resolved

theorem resolveFrom_resolved (t : Memory) (s : BitVec 32) (intent : Intent) (length : Length) (faulting : Bool)
    (hn : 0 < length.bytes.toNat) :
    Resolved t s length intent faulting
      (resolveFrom t s length intent faulting (entry t s)) := by
  have hchecks := resolveFrom_checks t s intent length faulting hn
  cases length with
  | dynamic bytes => exact hchecks
  | constant bytes =>
    by_cases hshort : (!faulting) = true ∧ bytes ≤ pageBytes
    · obtain rfl : faulting = false := (Bool.not_eq_true' _).mp hshort.1
      exact probe_resolved t s bytes intent hn hshort.2
    · by_cases hbyte : bytes = 1 ∧ faulting = true
      · obtain ⟨rfl, rfl⟩ := hbyte
        exact byte_resolved t s intent
      · unfold resolveFrom
        dsimp only
        rw [if_neg hshort, if_neg hbyte]
        exact hchecks

/-- Every resolution of a nonempty span answers from the entries of its bytes, with any retained entry of its loop. -/
theorem resolveAccess_resolved (t : Memory) (s : BitVec 32) (intent : Intent) (length : Length) (faulting : Bool)
    (cache : Option PageCache) (hcache : ∀ retained, cache = some retained → PageCache.Loop t retained)
    (hn : 0 < length.bytes.toNat) :
    Resolved t s length intent faulting (resolveAccess t s length intent faulting cache).1 := by
  have hrsvd := resolveFrom_resolved t s intent length faulting hn
  cases cache with
  | none => exact hrsvd
  | some retained =>
    have hent := (hcache retained rfl).lookup_eq s
    rw [← hent] at hrsvd
    exact hrsvd

end Relocade.Virtual
