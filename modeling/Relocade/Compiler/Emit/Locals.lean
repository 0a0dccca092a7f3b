import Mathlib.Data.List.Induction
import Mathlib.Data.List.Sort
import Mathlib.Logic.Function.Basic

/-!
# `Compiler.Emit.Locals` — reuse of locals between values whose accesses do not overlap

A slot lives from its first access to its last, and to the end of every loop it enters alive. Slots are taken in the
order of their first accesses; a local whose slot has ended is used again for a slot of its type.
-/

namespace Relocade.Compiler.Locals

open Function (update update_self update_of_ne)

inductive ValType where
  | i32
  | i64
  | f64
  | v128
  deriving DecidableEq, Repr

/-! ## Lifetimes -/

/-- The first and the last access of every slot. -/
def lifetimes (accesses : List Nat) : Nat → Option (Nat × Nat) :=
  accesses.zipIdx.foldl (fun lifetimes access =>
    update lifetimes access.1 (some (((lifetimes access.1).elim access.2 Prod.fst), access.2))) fun _ => none

/-- Values entering a loop stay live across its backedge, even when their final lexical use is near its beginning.
    Values defined within the loop still reuse storage after their last use in each iteration. -/
def extend (loopRanges : List (Nat × Nat)) (lifetime : Nat × Nat) : Nat × Nat :=
  loopRanges.foldl (fun lifetime range =>
    if lifetime.1 < range.1 ∧ range.1 ≤ lifetime.2 then (lifetime.1, max lifetime.2 range.2) else lifetime) lifetime

structure Interval where
  first : Nat
  last : Nat
  slot : Nat
  deriving DecidableEq, Repr

def Interval.le (a b : Interval) : Prop := a.first < b.first ∨ a.first = b.first ∧ a.slot ≤ b.slot

instance : DecidableRel Interval.le := fun a b =>
  inferInstanceAs (Decidable (a.first < b.first ∨ a.first = b.first ∧ a.slot ≤ b.slot))

/-- Stack forwarding can leave a planned slot without any local access. -/
def intervals (accesses : List Nat) (slots : Nat) (loopRanges : List (Nat × Nat)) : List Interval :=
  ((List.range slots).filterMap fun slot => (lifetimes accesses slot).map fun lifetime =>
    (⟨lifetime.1, (extend loopRanges lifetime).2, slot⟩ : Interval)).insertionSort Interval.le

/-! ## Assignment -/

/-- Heaps are kept in the order in which they are popped. -/
structure Allocation where
  types : List ValType
  indices : Nat → Option Nat
  /-- The ends of the slots that hold a local. -/
  active : List (Nat × Nat)
  free : ValType → List Nat

def Allocation.empty : Allocation := ⟨[], fun _ => none, [], fun _ => []⟩

def earlier (a b : Nat × Nat) : Bool := decide (a.1 < b.1 ∨ a.1 = b.1 ∧ a.2 ≤ b.2)

/-- Put an element before the first one that does not come earlier. -/
def insertBy {α : Type} (before : α → α → Bool) (a : α) : List α → List α
  | [] => [a]
  | b :: rest => if before a b then a :: b :: rest else b :: insertBy before a rest

/-- Locals whose slots have ended become free for their types. -/
def release (types : List ValType) (first : Nat) :
    List (Nat × Nat) → (ValType → List Nat) → List (Nat × Nat) × (ValType → List Nat)
  | [], free => ([], free)
  | (last, index) :: active, free =>
      if first ≤ last then ((last, index) :: active, free)
      else
        let ty := types.getD index .i32
        release types first active (update free ty (insertBy (fun a b => decide (a ≤ b)) index (free ty)))

/-- A local must retain its value through its last access. After that, another value of the same type can use it, even
    if the old value is still on the stack. -/
def place (slotTypes : List ValType) (a : Allocation) (interval : Interval) : Allocation :=
  let (active, free) := release a.types interval.first a.active a.free
  let ty := slotTypes.getD interval.slot .i32
  match free ty with
  | index :: rest =>
      { types := a.types
        indices := update a.indices interval.slot (some index)
        active := insertBy earlier (interval.last, index) active
        free := update free ty rest }
  | [] =>
      { types := a.types ++ [ty]
        indices := update a.indices interval.slot (some a.types.length)
        active := insertBy earlier (interval.last, a.types.length) active
        free := free }

/-- An access to a slot without a type panics. -/
def allocate (accesses : List Nat) (slotTypes : List ValType) (loopRanges : List (Nat × Nat)) : Option Allocation :=
  if accesses.all (· < slotTypes.length) then
    some ((intervals accesses slotTypes.length loopRanges).foldl (place slotTypes) .empty)
  else none

/-! ## Lifetimes span accesses -/

theorem lifetimes_append (accesses : List Nat) (slot : Nat) :
    lifetimes (accesses ++ [slot]) = update (lifetimes accesses) slot
      (some ((((lifetimes accesses) slot).elim accesses.length Prod.fst), accesses.length)) := by
  rw [lifetimes, List.zipIdx_append, List.foldl_append, Nat.zero_add]
  rfl

/-- A lifetime begins and ends with accesses of its slot, and every access of the slot lies in it. -/
structure Spans (accesses : List Nat) (slot : Nat) (lifetime : Nat × Nat) : Prop where
  first : accesses[lifetime.1]? = some slot
  within : ∀ position, accesses[position]? = some slot → lifetime.1 ≤ position ∧ position ≤ lifetime.2

variable {accesses : List Nat}

theorem getElem?_concat_eq {last slot pos : Nat} :
    (accesses ++ [last])[pos]? = some slot ↔
      accesses[pos]? = some slot ∨ pos = accesses.length ∧ last = slot := by
  rcases Nat.lt_trichotomy pos accesses.length with hlt | heq | hgt
  · rw [List.getElem?_append_left hlt]
    constructor
    · exact Or.inl
    · rintro (h | ⟨h, -⟩)
      · exact h
      · omega
  · subst heq
    rw [List.getElem?_concat_length, List.getElem?_eq_none (Nat.le_refl _)]
    constructor
    · exact fun h => Or.inr ⟨rfl, Option.some.inj h⟩
    · rintro (h | ⟨-, rfl⟩)
      · cases h
      · rfl
  · rw [List.getElem?_eq_none (by rw [List.length_append, List.length_singleton]; omega),
      List.getElem?_eq_none (by omega)]
    constructor
    · exact fun h => Or.inl h
    · rintro (h | ⟨h, -⟩)
      · exact h
      · omega

theorem lifetimes_spec (accesses : List Nat) (slot : Nat) :
    (∀ life, lifetimes accesses slot = some life → Spans accesses slot life) ∧
      (lifetimes accesses slot = none → slot ∉ accesses) := by
  induction accesses using List.reverseRecOn with
  | nil => exact ⟨nofun, fun _ => List.not_mem_nil⟩
  | append_singleton accesses last ih =>
    obtain ⟨ihsome, ihnone⟩ := ih
    rw [lifetimes_append]
    by_cases heq : slot = last
    · subst heq
      rw [update_self]
      refine ⟨fun life h => ?_, nofun⟩
      cases h
      cases hprev : lifetimes accesses slot with
      | none =>
        have hnot := ihnone hprev
        refine ⟨List.getElem?_concat_length, fun position hpos => ?_⟩
        rcases getElem?_concat_eq.mp hpos with h | ⟨rfl, -⟩
        · exact absurd (List.mem_of_getElem? h) hnot
        · exact ⟨Nat.le_refl _, Nat.le_refl _⟩
      | some life =>
        have hspans := ihsome life hprev
        refine ⟨getElem?_concat_eq.mpr (Or.inl hspans.first), fun position hpos => ?_⟩
        have hfst := (List.getElem?_eq_some_iff.mp hspans.first).1
        rcases getElem?_concat_eq.mp hpos with h | ⟨rfl, -⟩
        · exact ⟨(hspans.within position h).1, Nat.le_of_lt (List.getElem?_eq_some_iff.mp h).1⟩
        · exact ⟨Nat.le_of_lt hfst, Nat.le_refl _⟩
    · rw [update_of_ne heq]
      refine ⟨fun life h => ?_, fun h hmem => ?_⟩
      · have hspans := ihsome life h
        refine ⟨getElem?_concat_eq.mpr (Or.inl hspans.first), fun position hpos => ?_⟩
        rcases getElem?_concat_eq.mp hpos with h | ⟨-, h⟩
        · exact hspans.within position h
        · exact absurd h.symm heq
      · rcases List.mem_append.mp hmem with hmem | hmem
        · exact ihnone h hmem
        · exact heq (List.mem_singleton.mp hmem)

/-! ## Loops entered alive -/

variable (loopRanges : List (Nat × Nat))

theorem extend_spec (life : Nat × Nat) :
    (extend loopRanges life).1 = life.1 ∧ life.2 ≤ (extend loopRanges life).2 ∧
      ∀ range ∈ loopRanges, life.1 < range.1 → range.1 ≤ life.2 →
        range.2 ≤ (extend loopRanges life).2 := by
  induction loopRanges generalizing life with
  | nil => exact ⟨rfl, Nat.le_refl _, nofun⟩
  | cons range loopRanges ih =>
    rw [extend, List.foldl_cons]
    by_cases hlive : life.1 < range.1 ∧ range.1 ≤ life.2
    · rw [if_pos hlive]
      obtain ⟨hfst, hlast, hranges⟩ := ih (life.1, max life.2 range.2)
      refine ⟨hfst, (Nat.le_max_left ..).trans hlast, fun other hother hbef hafter => ?_⟩
      rcases List.mem_cons.mp hother with rfl | hother
      · exact (Nat.le_max_right ..).trans hlast
      · exact hranges other hother hbef (hafter.trans (Nat.le_max_left ..))
    · rw [if_neg hlive]
      obtain ⟨hfst, hlast, hranges⟩ := ih life
      refine ⟨hfst, hlast, fun other hother hbef hafter => ?_⟩
      rcases List.mem_cons.mp hother with rfl | hother
      · exact absurd ⟨hbef, hafter⟩ hlive
      · exact hranges other hother hbef hafter

/-! ## Heaps -/

theorem mem_insertBy {α : Type} {before : α → α → Bool} {a b : α} {heap : List α} :
    b ∈ insertBy before a heap ↔ b = a ∨ b ∈ heap := by
  induction heap with
  | nil => exact List.mem_cons
  | cons c heap ih =>
    rw [insertBy]
    split
    · exact List.mem_cons
    · rw [List.mem_cons, ih, List.mem_cons]
      exact or_left_comm

theorem map_insertBy_nodup {α β : Type} {before : α → α → Bool} {a : α} {heap : List α} (f : α → β)
    (h : (heap.map f).Nodup) (hnew : f a ∉ heap.map f) : ((insertBy before a heap).map f).Nodup := by
  induction heap with
  | nil => exact List.nodup_singleton _
  | cons c heap ih =>
    rw [insertBy]
    obtain ⟨hc, hheap⟩ := List.nodup_cons.mp h
    split
    · exact List.nodup_cons.mpr ⟨hnew, h⟩
    · rw [List.map_cons, List.mem_cons, not_or] at hnew
      refine List.nodup_cons.mpr ⟨fun hmem => ?_, ih hheap hnew.2⟩
      obtain ⟨b, hb, hfb⟩ := List.mem_map.mp hmem
      rcases mem_insertBy.mp hb with rfl | hb
      · exact hnew.1 hfb
      · exact hc (List.mem_map.mpr ⟨b, hb, hfb⟩)

/-! ## Locals and their slots -/

/-- Every local is held by one slot or free for its type. -/
structure Sound (types : List ValType) (active : List (Nat × Nat)) (free : ValType → List Nat) : Prop where
  activeLt : ∀ entry ∈ active, entry.2 < types.length
  activeNodup : (active.map Prod.snd).Nodup
  freeTyped : ∀ ty, ∀ index ∈ free ty, types[index]? = some ty
  freeNodup : ∀ ty, (free ty).Nodup
  apart : ∀ ty, ∀ index ∈ free ty, index ∉ active.map Prod.snd

variable {types : List ValType}

/-- Releasing keeps the locals, and takes only slots that have ended from the active ones. -/
theorem release_spec {first : Nat} {active : List (Nat × Nat)} {free : ValType → List Nat}
    (h : Sound types active free) :
    Sound types (release types first active free).1 (release types first active free).2 ∧
      ∀ entry ∈ active, entry ∈ (release types first active free).1 ∨ entry.1 < first := by
  induction active generalizing free with
  | nil => exact ⟨h, nofun⟩
  | cons entry active ih =>
    rw [release]
    split
    · exact ⟨h, fun _ h => Or.inl h⟩
    · next hended =>
        have hlt := h.activeLt entry List.mem_cons_self
        obtain ⟨hent, hact⟩ := List.nodup_cons.mp h.activeNodup
        have hty : types[entry.2]? = some (types.getD entry.2 .i32) := by
          rw [List.getD_eq_getElem?_getD, List.getElem?_eq_getElem hlt]
          rfl
        obtain ⟨hsound, hends⟩ := @ih (update free (types.getD entry.2 .i32)
            (insertBy (fun a b => decide (a ≤ b)) entry.2 (free (types.getD entry.2 .i32)))) {
          activeLt := fun other hother => h.activeLt other (List.mem_cons_of_mem _ hother)
          activeNodup := hact
          freeTyped := by
            intro ty index hidx
            by_cases heq : ty = types.getD entry.2 .i32
            · subst heq
              rw [update_self] at hidx
              rcases mem_insertBy.mp hidx with rfl | hidx
              · exact hty
              · exact h.freeTyped _ index hidx
            · rw [update_of_ne heq] at hidx
              exact h.freeTyped ty index hidx
          freeNodup := by
            intro ty
            by_cases heq : ty = types.getD entry.2 .i32
            · subst heq
              rw [update_self, ← List.map_id (insertBy ..)]
              refine map_insertBy_nodup id (by rw [List.map_id]; exact h.freeNodup _) ?_
              rw [List.map_id]
              exact fun hmem => h.apart _ entry.2 hmem List.mem_cons_self
            · rw [update_of_ne heq]
              exact h.freeNodup ty
          apart := by
            intro ty index hidx hmem
            by_cases heq : ty = types.getD entry.2 .i32
            · subst heq
              rw [update_self] at hidx
              rcases mem_insertBy.mp hidx with rfl | hidx
              · exact hent hmem
              · exact h.apart _ index hidx (List.mem_cons_of_mem _ hmem)
            · rw [update_of_ne heq] at hidx
              exact h.apart ty index hidx (List.mem_cons_of_mem _ hmem) }
        refine ⟨hsound, fun other hother => ?_⟩
        rcases List.mem_cons.mp hother with rfl | hother
        · exact Or.inr (Nat.not_le.mp hended)
        · exact hends other hother

/-- What was placed so far, up to a first access: every slot has a local of its type, which it holds unless it has
    ended, and slots that share one do not overlap. -/
structure Placed (slotTypes : List ValType) (bound : Nat) (done : List Interval) (a : Allocation) : Prop where
  sound : Sound a.types a.active a.free
  indexed : ∀ i ∈ done, ∃ index, a.indices i.slot = some index ∧
    a.types[index]? = some (slotTypes.getD i.slot .i32) ∧ ((i.last, index) ∈ a.active ∨ i.last < bound)
  apart : ∀ i ∈ done, ∀ j ∈ done, i.slot ≠ j.slot → a.indices i.slot = a.indices j.slot →
    i.last < j.first ∨ j.last < i.first

/-- What placing an interval at a local changes. -/
structure Given (ty : ValType) (interval : Interval) (index : Nat) (a a' : Allocation) : Prop where
  indices : a'.indices = update a.indices interval.slot (some index)
  sound : Sound a'.types a'.active a'.free
  typed : a'.types[index]? = some ty
  kept : ∀ (i : Nat) (t : ValType), a.types[i]? = some t → a'.types[i]? = some t
  held : (interval.last, index) ∈ a'.active
  stays : ∀ entry ∈ a.active, entry ∈ a'.active ∨ entry.1 < interval.first
  ended : ∀ entry ∈ a.active, entry.2 = index → entry.1 < interval.first

/-- A free local can be held. -/
theorem Sound.reuse {active : List (Nat × Nat)} {free : ValType → List Nat} {ty : ValType}
    {index : Nat} {rest : List Nat} (h : Sound types active free) (hfree : free ty = index :: rest) (last : Nat) :
    Sound types (insertBy earlier (last, index) active) (update free ty rest) := by
  have hmem : index ∈ free ty := by rw [hfree]; exact List.mem_cons_self
  have htyped := h.freeTyped ty index hmem
  obtain ⟨hidx, hnodup⟩ := List.nodup_cons.mp (hfree ▸ h.freeNodup ty)
  have hrest : ∀ other ∈ rest, other ∈ free ty := by
    intro other hother
    rw [hfree]
    exact List.mem_cons_of_mem _ hother
  refine {
    activeLt := fun entry hent => ?_
    activeNodup := map_insertBy_nodup Prod.snd h.activeNodup (h.apart ty index hmem)
    freeTyped := fun t other hother => ?_
    freeNodup := fun t => ?_
    apart := fun t other hother hact => ?_ }
  · rcases mem_insertBy.mp hent with rfl | hent
    · exact (List.getElem?_eq_some_iff.mp htyped).1
    · exact h.activeLt entry hent
  · by_cases heq : t = ty
    · subst heq
      rw [update_self] at hother
      exact h.freeTyped t other (hrest other hother)
    · rw [update_of_ne heq] at hother
      exact h.freeTyped t other hother
  · by_cases heq : t = ty
    · subst heq
      rw [update_self]
      exact hnodup
    · rw [update_of_ne heq]
      exact h.freeNodup t
  · obtain ⟨entry, hent, rfl⟩ := List.mem_map.mp hact
    by_cases heq : t = ty
    · subst heq
      rw [update_self] at hother
      rcases mem_insertBy.mp hent with rfl | hent
      · exact hidx hother
      · exact h.apart t _ (hrest _ hother) (List.mem_map.mpr ⟨entry, hent, rfl⟩)
    · rw [update_of_ne heq] at hother
      rcases mem_insertBy.mp hent with rfl | hent
      · exact heq (Option.some.inj ((h.freeTyped t index hother).symm.trans htyped))
      · exact h.apart t _ hother (List.mem_map.mpr ⟨entry, hent, rfl⟩)

theorem getElem?_kept {ty t : ValType} {i : Nat} (h : types[i]? = some t) : (types ++ [ty])[i]? = some t := by
  rw [List.getElem?_append_left (List.getElem?_eq_some_iff.mp h).1]
  exact h

/-- A new local can be held. -/
theorem Sound.fresh {active : List (Nat × Nat)} {free : ValType → List Nat}
    (h : Sound types active free) (ty : ValType) (last : Nat) :
    Sound (types ++ [ty]) (insertBy earlier (last, types.length) active) free := by
  refine {
    activeLt := fun entry hent => ?_
    activeNodup := map_insertBy_nodup Prod.snd h.activeNodup fun hmem => ?_
    freeTyped := fun t other hother => getElem?_kept (h.freeTyped t other hother)
    freeNodup := h.freeNodup
    apart := fun t other hother hact => ?_ }
  · rw [List.length_append, List.length_singleton]
    rcases mem_insertBy.mp hent with rfl | hent
    · exact Nat.lt_succ_self _
    · exact Nat.lt_succ_of_lt (h.activeLt entry hent)
  · obtain ⟨entry, hent, heq⟩ := List.mem_map.mp hmem
    exact Nat.ne_of_lt (h.activeLt entry hent) heq
  · obtain ⟨entry, hent, rfl⟩ := List.mem_map.mp hact
    rcases mem_insertBy.mp hent with rfl | hent
    · exact Nat.lt_irrefl _ (List.getElem?_eq_some_iff.mp (h.freeTyped t _ hother)).1
    · exact h.apart t _ hother (List.mem_map.mpr ⟨entry, hent, rfl⟩)

theorem place_given (slotTypes : List ValType) {a : Allocation} (h : Sound a.types a.active a.free)
    (ivl : Interval) :
    ∃ index, Given (slotTypes.getD ivl.slot .i32) ivl index a (place slotTypes a ivl) := by
  obtain ⟨hsound, hends⟩ := @release_spec _ ivl.first _ _ h
  rw [place]
  generalize release a.types ivl.first a.active a.free = released at *
  obtain ⟨active, free⟩ := released
  dsimp only at *
  generalize slotTypes.getD ivl.slot .i32 = ty
  cases hfree : free ty with
  | cons index rest =>
    have hmem : index ∈ free ty := by rw [hfree]; exact List.mem_cons_self
    exact ⟨index, {
      indices := rfl
      sound := hsound.reuse hfree ivl.last
      typed := hsound.freeTyped ty index hmem
      kept := fun _ _ hkept => hkept
      held := mem_insertBy.mpr (Or.inl rfl)
      stays := fun entry hent => (hends entry hent).imp (fun hin => mem_insertBy.mpr (Or.inr hin)) id
      ended := fun entry hent hshared => (hends entry hent).resolve_left fun hin =>
        hsound.apart ty index hmem (List.mem_map.mpr ⟨entry, hin, hshared⟩) }⟩
  | nil =>
    exact ⟨a.types.length, {
      indices := rfl
      sound := hsound.fresh ty ivl.last
      typed := List.getElem?_concat_length
      kept := fun _ _ => getElem?_kept
      held := mem_insertBy.mpr (Or.inl rfl)
      stays := fun entry hent => (hends entry hent).imp (fun hin => mem_insertBy.mpr (Or.inr hin)) id
      ended := fun entry hent hshared => absurd hshared (Nat.ne_of_lt (h.activeLt entry hent)) }⟩

variable {slotTypes : List ValType}

/-- A slot gets a local that no slot holds any more. -/
theorem place_spec {bound : Nat} {done : List Interval} {a : Allocation}
    (h : Placed slotTypes bound done a) {ivl : Interval} (hbound : bound ≤ ivl.first)
    (hnew : ∀ i ∈ done, i.slot ≠ ivl.slot) :
    Placed slotTypes ivl.first (done ++ [ivl]) (place slotTypes a ivl) := by
  obtain ⟨index, hgiven⟩ := place_given slotTypes h.sound ivl
  have hindices := hgiven.indices
  have hself : (place slotTypes a ivl).indices ivl.slot = some index := by
    rw [hindices, update_self]
  have hold : ∀ i ∈ done, (place slotTypes a ivl).indices i.slot = a.indices i.slot := fun i hi => by
    rw [hindices, update_of_ne (hnew i hi)]
  -- a slot that had the same local has ended
  have hended : ∀ i ∈ done, a.indices i.slot = some index → i.last < ivl.first := by
    intro i hi hshared
    obtain ⟨index', hidx', -, hheld⟩ := h.indexed i hi
    obtain rfl := Option.some.inj (hidx'.symm.trans hshared)
    rcases hheld with hheld | hbef
    · exact hgiven.ended _ hheld rfl
    · exact Nat.lt_of_lt_of_le hbef hbound
  refine ⟨hgiven.sound, fun i hi => ?_, fun i hi j hj hne hshared => ?_⟩
  · rcases List.mem_append.mp hi with hi | hi
    · obtain ⟨index', hidx', htype, hheld⟩ := h.indexed i hi
      refine ⟨index', (hold i hi).trans hidx', hgiven.kept _ _ htype, ?_⟩
      rcases hheld with hheld | hbef
      · exact hgiven.stays _ hheld
      · exact Or.inr (Nat.lt_of_lt_of_le hbef hbound)
    · rw [List.mem_singleton.mp hi]
      exact ⟨index, hself, hgiven.typed, Or.inl hgiven.held⟩
  · rcases List.mem_append.mp hi with hi | hi
    · rw [hold i hi] at hshared
      rcases List.mem_append.mp hj with hj | hj
      · rw [hold j hj] at hshared
        exact h.apart i hi j hj hne hshared
      · rw [List.mem_singleton.mp hj] at hshared ⊢
        exact Or.inl (hended i hi (hshared.trans hself))
    · rw [List.mem_singleton.mp hi] at hne hshared ⊢
      rw [hself] at hshared
      rcases List.mem_append.mp hj with hj | hj
      · rw [hold j hj] at hshared
        exact Or.inr (hended j hj hshared.symm)
      · exact absurd (congrArg Interval.slot (List.mem_singleton.mp hj)).symm hne

theorem placed_foldl {bound : Nat} {done : List Interval} {a : Allocation}
    (h : Placed slotTypes bound done a) {rest : List Interval} (hsorted : rest.Pairwise fun i j => i.first ≤ j.first)
    (hbound : ∀ i ∈ rest, bound ≤ i.first) (hnodup : ((done ++ rest).map Interval.slot).Nodup) :
    ∃ bound', Placed slotTypes bound' (done ++ rest) (rest.foldl (place slotTypes) a) := by
  induction rest generalizing bound done a with
  | nil => exact ⟨bound, by rw [List.append_nil]; exact h⟩
  | cons interval rest ih =>
    obtain ⟨hfst, hrest⟩ := List.pairwise_cons.mp hsorted
    have hnew : ∀ i ∈ done, i.slot ≠ interval.slot := by
      intro i hi heq
      rw [List.map_append] at hnodup
      exact List.disjoint_of_nodup_append hnodup (List.mem_map.mpr ⟨i, hi, heq⟩) List.mem_cons_self
    have hplc := place_spec h (hbound interval List.mem_cons_self) hnew
    have hassoc : done ++ interval :: rest = done ++ [interval] ++ rest := by
      rw [List.append_assoc, List.singleton_append]
    rw [List.foldl_cons, hassoc]
    rw [hassoc] at hnodup
    exact ih hplc hrest hfst hnodup

/-! ## The allocation -/

theorem mem_intervals {slots : Nat} {loopRanges : List (Nat × Nat)} {ivl : Interval} :
    ivl ∈ intervals accesses slots loopRanges ↔ ivl.slot < slots ∧ ∃ life,
      lifetimes accesses ivl.slot = some life ∧ ivl.first = life.1 ∧
        ivl.last = (extend loopRanges life).2 := by
  rw [intervals, List.mem_insertionSort, List.mem_filterMap]
  constructor
  · rintro ⟨slot, hslot, hlifetime⟩
    obtain ⟨life, hsome, rfl⟩ := Option.map_eq_some_iff.mp hlifetime
    exact ⟨List.mem_range.mp hslot, life, hsome, rfl, rfl⟩
  · rintro ⟨hslot, life, hlifetime, hfst, hlast⟩
    refine ⟨ivl.slot, List.mem_range.mpr hslot, ?_⟩
    rw [hlifetime, Option.map_some, ← hfst, ← hlast]

theorem intervals_sorted (accesses : List Nat) (slots : Nat) :
    (intervals accesses slots loopRanges).Pairwise fun i j => i.first ≤ j.first := by
  have : Std.Total Interval.le := ⟨fun a b => by unfold Interval.le; omega⟩
  have : IsTrans Interval Interval.le := ⟨fun a b c hab hbc => by unfold Interval.le at *; omega⟩
  refine (List.pairwise_insertionSort Interval.le _).imp fun {a b} hle => ?_
  unfold Interval.le at hle
  omega

theorem intervals_nodup (accesses : List Nat) (slots : Nat) :
    ((intervals accesses slots loopRanges).map Interval.slot).Nodup := by
  have hperm := (List.perm_insertionSort Interval.le ((List.range slots).filterMap fun slot =>
    (lifetimes accesses slot).map fun life =>
      (⟨life.1, (extend loopRanges life).2, slot⟩ : Interval))).map Interval.slot
  refine hperm.nodup_iff.mpr ?_
  rw [List.map_filterMap]
  have hsub : ∀ slots : List Nat, (slots.filterMap fun slot => ((lifetimes accesses slot).map fun life =>
      (⟨life.1, (extend loopRanges life).2, slot⟩ : Interval)).map Interval.slot).Sublist slots := by
    intro slots
    induction slots with
    | nil => exact .slnil
    | cons slot slots ih =>
      rw [List.filterMap_cons]
      cases lifetimes accesses slot with
      | none => exact ih.cons slot
      | some life => exact ih.cons_cons slot
  exact (hsub _).nodup List.nodup_range

/-- How long a slot lives: over its accesses, and to the end of every loop it enters alive. -/
structure Lives (accesses : List Nat) (loopRanges : List (Nat × Nat)) (slot first last : Nat) : Prop where
  begins : accesses[first]? = some slot
  within : ∀ position, accesses[position]? = some slot → first ≤ position ∧ position ≤ last
  loops : ∀ range ∈ loopRanges, ∀ position, accesses[position]? = some slot → first < range.1 → range.1 ≤ position →
    range.2 ≤ last

theorem lives_of_lifetime {slot : Nat} {life : Nat × Nat}
    (h : lifetimes accesses slot = some life) :
    Lives accesses loopRanges slot life.1 (extend loopRanges life).2 := by
  have hspans := (lifetimes_spec accesses slot).1 life h
  obtain ⟨-, hlast, hloops⟩ := extend_spec loopRanges life
  refine ⟨hspans.first, fun position hpos => ?_, fun range hrng position hpos hbef hafter => ?_⟩
  · obtain ⟨hfst, hwithin⟩ := hspans.within position hpos
    exact ⟨hfst, hwithin.trans hlast⟩
  · exact hloops range hrng hbef (hafter.trans (hspans.within position hpos).2)

theorem slot_lt_of_allocate {loopRanges : List (Nat × Nat)}
    {a : Allocation} (h : allocate accesses slotTypes loopRanges = some a) :
    ∀ slot ∈ accesses, slot < slotTypes.length := by
  rw [allocate] at h
  split at h
  · next hrng => exact fun slot hslot => of_decide_eq_true (List.all_eq_true.mp hrng slot hslot)
  · cases h

/-- Every accessed slot has a local of its type, and slots that share one do not live at the same time. -/
theorem allocate_spec {loopRanges : List (Nat × Nat)} {a : Allocation}
    (h : allocate accesses slotTypes loopRanges = some a) :
    ∃ first last : Nat → Nat,
      (∀ slot ∈ accesses, Lives accesses loopRanges slot (first slot) (last slot) ∧
        ∃ index, a.indices slot = some index ∧ a.types[index]? = slotTypes[slot]?) ∧
      ∀ slot ∈ accesses, ∀ other ∈ accesses, slot ≠ other → a.indices slot = a.indices other →
        last slot < first other ∨ last other < first slot := by
  have htyped := slot_lt_of_allocate h
  rw [allocate] at h
  split at h
  · next =>
      obtain ⟨bound, hplc⟩ := @placed_foldl slotTypes 0 [] .empty
        ⟨⟨nofun, .nil, nofun, fun _ => .nil, nofun⟩, nofun, nofun⟩
        (intervals accesses slotTypes.length loopRanges) (intervals_sorted ..) (fun _ _ => Nat.zero_le _)
        (intervals_nodup ..)
      rw [List.nil_append] at hplc
      cases h
      have hinterval : ∀ slot ∈ accesses, ∃ life, lifetimes accesses slot = some life ∧
          (⟨life.1, (extend loopRanges life).2, slot⟩ : Interval) ∈
            intervals accesses slotTypes.length loopRanges := by
        intro slot hslot
        cases hlifetime : lifetimes accesses slot with
        | none => exact absurd hslot ((lifetimes_spec accesses slot).2 hlifetime)
        | some life => exact ⟨life, rfl, mem_intervals.mpr ⟨htyped slot hslot, life, hlifetime, rfl, rfl⟩⟩
      refine ⟨fun slot => (lifetimes accesses slot).elim 0 Prod.fst,
        fun slot => (lifetimes accesses slot).elim 0 fun life => (extend loopRanges life).2,
        fun slot hslot => ?_, fun slot hslot other hother hne hshared => ?_⟩
      · obtain ⟨life, hlifetime, hmem⟩ := hinterval slot hslot
        dsimp only
        rw [hlifetime]
        obtain ⟨index, hidx, htype, -⟩ := hplc.indexed _ hmem
        refine ⟨lives_of_lifetime loopRanges hlifetime, index, hidx, htype.trans ?_⟩
        rw [List.getD_eq_getElem?_getD, List.getElem?_eq_getElem (htyped slot hslot)]
        rfl
      · obtain ⟨life, hlifetime, hmem⟩ := hinterval slot hslot
        obtain ⟨lifetime', hlifetime', hmem'⟩ := hinterval other hother
        dsimp only
        rw [hlifetime, hlifetime']
        exact hplc.apart _ hmem _ hmem' hne hshared
  · cases h

theorem length_foldl_place (intervals : List Interval) (a : Allocation) :
    (intervals.foldl (place slotTypes) a).types.length ≤ a.types.length + intervals.length := by
  induction intervals generalizing a with
  | nil => exact Nat.le_refl _
  | cons interval rest ih =>
    have hplace : (place slotTypes a interval).types.length ≤ a.types.length + 1 := by
      unfold place
      dsimp only
      split
      · exact Nat.le_succ _
      · exact Nat.le_of_eq (List.length_append ..)
    have hrest := ih (place slotTypes a interval)
    rw [List.foldl_cons, List.length_cons]
    omega

/-- Accesses of slots with types are given no more locals than there are slots. -/
theorem allocate_typed {loopRanges : List (Nat × Nat)} (h : ∀ slot ∈ accesses, slot < slotTypes.length) :
    ∃ a, allocate accesses slotTypes loopRanges = some a ∧ a.types.length ≤ slotTypes.length := by
  refine ⟨_, if_pos (List.all_eq_true.mpr fun slot hslot => decide_eq_true (h slot hslot)), ?_⟩
  have hintervals : (intervals accesses slotTypes.length loopRanges).length ≤ slotTypes.length := by
    rw [intervals, List.length_insertionSort]
    exact (List.length_filterMap_le ..).trans (Nat.le_of_eq List.length_range)
  have hlen := @length_foldl_place slotTypes (intervals accesses slotTypes.length loopRanges) .empty
  exact hlen.trans (by rw [Allocation.empty, List.length_nil, Nat.zero_add]; exact hintervals)

end Relocade.Compiler.Locals
