import Mathlib.Data.List.Basic

/-!
# `CopyOnWrite` — shared immutable cells

Cells are allocated once and named by references. A cell is changed in place when its reference is the only one, and
copied otherwise, so that other references always read what they read before (`makeMut_other`).
-/

namespace Relocade.CopyOnWrite

/-- Allocated cells; references at or beyond `next` name none. -/
structure Heap (α : Type) where
  contents : Nat → α
  next : Nat

namespace Heap

variable {α : Type} (heap : Heap α)

/-- Changes a cell. -/
def update (id : Nat) (value : α) : Heap α :=
  { heap with contents := fun other => if other = id then value else heap.contents other }

/-- A fresh cell and its reference. -/
def alloc (value : α) : Nat × Heap α := (heap.next, { heap.update heap.next value with next := heap.next + 1 })

/-- The reference through which a cell is changed: its own where it is unique, a fresh copy's otherwise. -/
def makeMut (id : Nat) (unique : Bool) (f : α → α) : Nat × Heap α :=
  if unique then (id, heap.update id (f (heap.contents id))) else heap.alloc (f (heap.contents id))

variable {heap} {id other : Nat} {unique : Bool} {value : α} {f : α → α}

@[simp] theorem contents_alloc : (heap.alloc value).2.contents (heap.alloc value).1 = value := if_pos rfl

theorem alloc_other (h : other < heap.next) : (heap.alloc value).2.contents other = heap.contents other :=
  if_neg (Nat.ne_of_lt h)

/-- The changed cell holds the new value. -/
theorem contents_makeMut : (heap.makeMut id unique f).2.contents (heap.makeMut id unique f).1 = f (heap.contents id) := by
  unfold makeMut
  split
  · exact if_pos rfl
  · exact contents_alloc

/-- Other references read what they read before. -/
theorem makeMut_other (h : other < heap.next) (hne : unique = true → other ≠ id) :
    (heap.makeMut id unique f).2.contents other = heap.contents other := by
  unfold makeMut
  split
  next hunique => exact if_neg (hne hunique)
  next => exact alloc_other h

theorem next_le_makeMut : heap.next ≤ (heap.makeMut id unique f).2.next := by
  unfold makeMut
  split
  · exact Nat.le_refl _
  · exact Nat.le_succ _

theorem makeMut_lt (h : id < heap.next) : (heap.makeMut id unique f).1 < (heap.makeMut id unique f).2.next := by
  unfold makeMut
  split
  · exact h
  · exact Nat.lt_succ_self _

end Heap

end Relocade.CopyOnWrite
