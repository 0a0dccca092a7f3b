import Relocade.Dispatch.EntryTable

/-!
# `Dispatch.Table` — the function table and the published address table

A batch of entries is installed in steps. Every export is resolved first, then both resources are reserved, then the
slots are filled, and the address table that names them is written last. Generated code may look at any state between
these steps.
-/

namespace Relocade.Dispatch

open List (not_mem_nil map_cons mem_cons_self mem_cons_of_mem)

/-- A function of the table. `host id` is the generated body that asks for a host service; `code` stands for the other
functions of installed modules. -/
inductive Callable (F : Type) where
  | interpreter
  | host (id : BitVec 32)
  | code (function : F)

/-- Why a batch is refused. -/
inductive Failure where
  | module
  | missingExport
  | tableGrowth
  | memoryGrowth
  | outside
deriving DecidableEq

/-- A computation of the host that may fail, or panic. -/
inductive Attempt (α : Type) where
  | done (value : α)
  | failed (failure : Failure)
  | panicked

namespace Attempt

variable {α β : Type}

def bind : Attempt α → (α → Attempt β) → Attempt β
  | .done value, next => next value
  | .failed failure, _ => .failed failure
  | .panicked, _ => .panicked

instance : Monad Attempt where
  pure := .done
  bind := bind

/-- A checked operation: `none` is a panic. -/
def expect : Option α → Attempt α
  | some value => .done value
  | none => .panicked

/-- An operation with its own failure. -/
def orFail (failure : Failure) : Option α → Attempt α
  | some value => .done value
  | none => .failed failure

theorem bind_eq_done {x : Attempt α} {next : α → Attempt β} {b : β} (h : (x >>= next) = .done b) :
    ∃ a, x = .done a ∧ next a = .done b := by
  cases x with
  | done a => exact ⟨a, rfl, h⟩
  | failed _ => cases h
  | panicked => cases h

theorem expect_eq_done {x : Option α} {a : α} (h : expect x = .done a) : x = some a := by
  cases x with
  | none => cases h
  | some b =>
    cases h
    rfl

theorem orFail_eq_done {failure : Failure} {x : Option α} {a : α} (h : orFail failure x = .done a) : x = some a := by
  cases x with
  | none => cases h
  | some b =>
    cases h
    rfl

end Attempt

/-! ## What generated code sees -/

variable {F : Type}

def pageBytes : Nat := 65536

/-- The pages of a 32-bit memory. -/
def maximumPages : Nat := 65536

def divCeil (n divisor : Nat) : Nat := if n % divisor > 0 then n / divisor + 1 else n / divisor

/-- The function table and the memory of the address table. -/
structure Linked (F : Type) where
  functions : List (Option (Callable F))
  entries : Memory
  pages : Nat

/-- Which growth the engine grants. -/
structure Grants where
  slots : Bool
  pages : Bool

namespace Linked

/-- Grows the table to at least `minimum` slots; new slots are empty. -/
def ensureTableSize (grants : Grants) (minimum : BitVec 32) (linked : Linked F) : Except Failure (Linked F) :=
  if minimum.toNat > linked.functions.length then
    if grants.slots then
      .ok { linked with
        functions := linked.functions ++ List.replicate (minimum.toNat - linked.functions.length) none }
    else .error .tableGrowth
  else .ok linked

/-- Grows the memory when needed to contain `byteLen` bytes. -/
def ensureMemorySize (grants : Grants) (byteLen : Nat) (linked : Linked F) : Except Failure (Linked F) :=
  let pages := divCeil byteLen pageBytes
  if pages > linked.pages then
    if grants.pages ∧ pages ≤ maximumPages then .ok { linked with pages } else .error .memoryGrowth
  else .ok linked

/-- Installs a function in an existing slot. -/
def setTableFunction (slot : BitVec 32) (function : Callable F) (linked : Linked F) : Except Failure (Linked F) :=
  if slot.toNat < linked.functions.length then
    .ok { linked with functions := linked.functions.set slot.toNat (some function) }
  else .error .outside

/-- Writes at offset zero of the memory. -/
def write (bytes : List (BitVec 8)) (linked : Linked F) : Except Failure (Linked F) :=
  if bytes.length ≤ linked.pages * pageBytes then .ok { linked with entries := linked.entries.write 0 bytes }
  else .error .outside

end Linked

/-- A step of an installation, once its slots are reserved. -/
inductive Effect (F : Type) where
  | ensureMemorySize (byteLen : Nat)
  | setTableFunction (slot : BitVec 32) (function : Callable F)
  | write (bytes : List (BitVec 8))

def Effect.apply (grants : Grants) (linked : Linked F) : Effect F → Except Failure (Linked F)
  | .ensureMemorySize byteLen => linked.ensureMemorySize grants byteLen
  | .setTableFunction slot function => linked.setTableFunction slot function
  | .write bytes => linked.write bytes

/-- How far a list of steps got: the refusal that ended it, the last state, and the states after each step. -/
structure Progress (F : Type) where
  failure : Option Failure
  linked : Linked F
  seen : List (Linked F)

/-- Applies effects up to the first that fails. -/
def perform (grants : Grants) : List (Effect F) → Linked F → Progress F
  | [], linked => ⟨none, linked, []⟩
  | effect :: effects, linked =>
      match effect.apply grants linked with
      | .error failure => ⟨some failure, linked, []⟩
      | .ok next =>
          let rest := perform grants effects next
          { rest with seen := next :: rest.seen }

/-! ## The dispatch table -/

/-- An export to install at a guest linear address. -/
structure DispatchEntry where
  address : BitVec 32
  exportName : String

structure DispatchTable (F : Type) where
  linked : Linked F
  addresses : EntryTable
  nextSlot : BitVec 32
  capacity : BitVec 32

/-- What an installation leaves, and what generated code saw meanwhile. -/
structure Installation (F : Type) where
  failure : Option Failure
  table : DispatchTable F
  seen : List (Linked F)

/-- The address table, the next slot and the functions to fill, once every export is resolved. -/
structure Resolved (F : Type) where
  addresses : EntryTable
  nextSlot : BitVec 32
  functions : List (BitVec 32 × Callable F)

/-- The steps that fill the slots and publish the table: all functions exist before their addresses become visible to
dispatch. -/
def Resolved.steps (resolved : Resolved F) (bytes : List (BitVec 8)) : List (Effect F) :=
  .ensureMemorySize bytes.length ::
    (resolved.functions.map fun pair => .setTableFunction pair.1 pair.2) ++ [.write bytes]

/-- The slot of an address: its own, or the next one. -/
def slotOf (addresses : EntryTable) (nextSlot address : BitVec 32) : Option (BitVec 32 × BitVec 32) :=
  match addresses.get address with
  | some slot => some (slot, nextSlot)
  | none => if nextSlot.toNat + 1 < 2 ^ 32 then some (nextSlot, nextSlot + 1) else none

/-- Resolves every export, over a copy of the address table. -/
def resolve (exports : String → Option (Callable F)) (addresses : EntryTable) (nextSlot : BitVec 32) :
    List DispatchEntry → Attempt (Resolved F)
  | [] => .done ⟨addresses, nextSlot, []⟩
  | entry :: entries => do
      let function ← Attempt.orFail .missingExport (exports entry.exportName)
      let (slot, nextSlot) ← Attempt.expect (slotOf addresses nextSlot entry.address)
      let (_, addresses) ← Attempt.expect (addresses.insert entry.address slot)
      let rest ← resolve exports addresses nextSlot entries
      return { rest with functions := (slot, function) :: rest.functions }

namespace DispatchTable

def firstDynamicSlot : BitVec 32 := 2

/-- Twice a capacity, or the largest one. -/
def saturatingDouble (capacity : BitVec 32) : BitVec 32 :=
  if capacity.toNat * 2 < 2 ^ 32 then capacity * 2 else BitVec.allOnes 32

/-- Reserves slots up to `nextSlot`, and as many again. -/
def reserveSlots (table : DispatchTable F) (grants : Grants) (nextSlot : BitVec 32) : Installation F :=
  if nextSlot > table.capacity then
    let doubled := saturatingDouble table.capacity
    let capacity := if doubled ≤ nextSlot then nextSlot else doubled
    match table.linked.ensureTableSize grants capacity with
    | .error failure => ⟨some failure, table, []⟩
    | .ok linked => ⟨none, { table with linked, capacity }, [linked]⟩
  else ⟨none, table, []⟩

/-- Reserves the memory, fills the slots and publishes the table, in this order. -/
def commit (table : DispatchTable F) (grants : Grants) (resolved : Resolved F) (bytes : List (BitVec 8)) :
    Installation F :=
  let progress := perform grants (resolved.steps bytes) table.linked
  match progress.failure with
  | some failure => ⟨some failure, { table with linked := progress.linked }, progress.seen⟩
  | none => ⟨none, ⟨progress.linked, resolved.addresses, resolved.nextSlot, table.capacity⟩, progress.seen⟩

/-- Reserves both resources before any live slot is replaced. -/
def publish (table : DispatchTable F) (grants : Grants) (resolved : Resolved F) (bytes : List (BitVec 8)) :
    Installation F :=
  let reserved := table.reserveSlots grants resolved.nextSlot
  match reserved.failure with
  | some _ => reserved
  | none =>
      let committed := reserved.table.commit grants resolved bytes
      { committed with seen := reserved.seen ++ committed.seen }

/-- Installs a batch of entries; `none` is a panic. -/
def install (table : DispatchTable F) (grants : Grants) (exports : String → Option (Callable F))
    (entries : List DispatchEntry) : Option (Installation F) :=
  match resolve exports table.addresses table.nextSlot entries with
  | .panicked => none
  | .failed failure => some ⟨some failure, table, []⟩
  | .done resolved => resolved.addresses.toBytes.map (table.publish grants resolved)

/-- A new table, with the interpreter installed; the memory has one page and the function table two slots. -/
def initial : DispatchTable F where
  linked := ⟨[none, some .interpreter], Memory.write (fun _ => 0) 0 (EntryTable.default.toBytes.getD []), 1⟩
  addresses := EntryTable.default
  nextSlot := firstDynamicSlot
  capacity := 2

end DispatchTable

/-! ## Resolving a batch -/

section Resolving

variable {exports : String → Option (Callable F)} {addresses : EntryTable} {nextSlot : BitVec 32}

/-- Slots of addresses are dynamic ones already handed out, and no two addresses share one. -/
structure Slots (addresses : EntryTable) (nextSlot : BitVec 32) : Prop where
  count : nextSlot.toNat = addresses.entries.size + 2
  bounds : ∀ address slot : BitVec 32, addresses.get address = some slot →
    2 ≤ slot.toNat ∧ slot.toNat < nextSlot.toNat
  distinct : ∀ address other slot : BitVec 32, addresses.get address = some slot → addresses.get other = some slot →
    address = other

/-- What entering one address does to the copy of the table. -/
theorem slotOf_insert (hslots : Slots addresses nextSlot) {address slot next : BitVec 32}
    {previous : Option (BitVec 32)}
    {after : EntryTable} (hslot : slotOf addresses nextSlot address = some (slot, next))
    (hinsert : addresses.insert address slot = some (previous, after)) :
    Slots after next ∧ after.get address = some slot ∧
      (∀ held, addresses.get address = some held → held = slot) ∧
      ∀ other, other ≠ address → after.get other = addresses.get other := by
  have hafter : after.entries = addresses.entries.insert address slot := by
    rw [EntryTable.insert] at hinsert
    split at hinsert
    · obtain ⟨-, rfl⟩ := Prod.mk.inj (Option.some.inj hinsert)
      rfl
    · cases hinsert
  have hget := EntryTable.get_of_insert hafter
  have hsize : after.entries.size =
      if (addresses.get address).isSome then addresses.entries.size else addresses.entries.size + 1 := by
    rw [hafter, Std.TreeMap.size_insert]
    refine if_congr ?_ rfl rfl
    rw [Std.TreeMap.contains_eq_isSome_getElem?]
    exact Iff.rfl
  have hself : after.get address = some slot := by rw [hget, if_pos rfl]
  have hother : ∀ other, other ≠ address → after.get other = addresses.get other := by
    intro other hne
    rw [hget, if_neg fun heq => hne heq.symm]
  rw [slotOf] at hslot
  split at hslot
  · next held hheld =>
      obtain ⟨rfl, rfl⟩ := Prod.mk.inj (Option.some.inj hslot)
      have hsame : ∀ other, after.get other = addresses.get other := by
        intro other
        by_cases heq : other = address
        · rw [heq, hself, hheld]
        · exact hother other heq
      rw [hheld, Option.isSome_some, if_pos rfl] at hsize
      refine ⟨⟨by rw [hsize, hslots.count], ?_, ?_⟩, hself, fun held h => ?_, hother⟩
      · intro other slot h
        exact hslots.bounds other slot (hsame other ▸ h)
      · intro a b slot ha hb
        exact hslots.distinct a b slot (hsame a ▸ ha) (hsame b ▸ hb)
      · exact Option.some.inj (h.symm.trans hheld)
  · next hfresh =>
      split at hslot
      · next hroom =>
          obtain ⟨rfl, rfl⟩ := Prod.mk.inj (Option.some.inj hslot)
          have hnext : (nextSlot + 1).toNat = nextSlot.toNat + 1 := by
            rw [BitVec.toNat_add]
            exact Nat.mod_eq_of_lt hroom
          have hcnt := hslots.count
          rw [hfresh, Option.isSome_none, if_neg Bool.false_ne_true] at hsize
          have hold : ∀ other held, other ≠ address → after.get other = some held →
              2 ≤ held.toNat ∧ held.toNat < nextSlot.toNat := by
            intro other held hne h
            exact hslots.bounds other held (hother other hne ▸ h)
          refine ⟨⟨by omega, ?_, ?_⟩, hself, fun held h => ?_, hother⟩
          · intro other held h
            by_cases heq : other = address
            · rw [heq, hself] at h
              cases h
              omega
            · have := hold other held heq h
              omega
          · intro a b held ha hb
            by_cases hea : a = address
            · by_cases heb : b = address
              · rw [hea, heb]
              · rw [hea, hself] at ha
                cases ha
                exact absurd (hold b nextSlot heb hb).2 (Nat.lt_irrefl _)
            · by_cases heb : b = address
              · rw [heb, hself] at hb
                cases hb
                exact absurd (hold a nextSlot hea ha).2 (Nat.lt_irrefl _)
              · exact hslots.distinct a b held (hother a hea ▸ ha) (hother b heb ▸ hb)
          · rw [hfresh] at h
            cases h
      · cases hslot

/-- A batch is resolved to the slots and functions of its entries. -/
structure Resolves (exports : String → Option (Callable F)) (addresses : EntryTable) (entries : List DispatchEntry)
    (resolved : Resolved F) : Prop where
  slots : Slots resolved.addresses resolved.nextSlot
  kept : ∀ address slot, addresses.get address = some slot → resolved.addresses.get address = some slot
  frame : ∀ address, address ∉ entries.map DispatchEntry.address →
    resolved.addresses.get address = addresses.get address
  pairs : ∀ pair ∈ resolved.functions, ∃ entry ∈ entries, resolved.addresses.get entry.address = some pair.1
  functions : ∀ entry ∈ entries, ∃ pair ∈ resolved.functions, resolved.addresses.get entry.address = some pair.1 ∧
    exports entry.exportName = some pair.2
  nodup : (resolved.functions.map Prod.fst).Nodup

theorem resolve_spec {entries : List DispatchEntry} {resolved : Resolved F} (hslots : Slots addresses nextSlot)
    (hnodup : (entries.map DispatchEntry.address).Nodup)
    (h : resolve exports addresses nextSlot entries = .done resolved) :
    Resolves exports addresses entries resolved := by
  induction entries generalizing addresses nextSlot resolved with
  | nil =>
    cases h
    exact ⟨hslots, fun _ _ h => h, fun _ _ => rfl, fun _ h => absurd h not_mem_nil,
      fun _ h => absurd h not_mem_nil, List.nodup_nil⟩
  | cons entry entries ih =>
    rw [resolve] at h
    obtain ⟨function, hfun, h⟩ := Attempt.bind_eq_done h
    obtain ⟨⟨slot, next⟩, hslot, h⟩ := Attempt.bind_eq_done h
    obtain ⟨⟨previous, after⟩, hinsert, h⟩ := Attempt.bind_eq_done h
    obtain ⟨rest, hrest, h⟩ := Attempt.bind_eq_done h
    cases h
    obtain ⟨hafter, hself, hheld, hother⟩ :=
      slotOf_insert hslots (Attempt.expect_eq_done hslot) (Attempt.expect_eq_done hinsert)
    rw [map_cons, List.nodup_cons] at hnodup
    have hall := ih hafter hnodup.2 hrest
    have hent : rest.addresses.get entry.address = some slot := by
      rw [hall.frame entry.address hnodup.1]
      exact hself
    refine ⟨hall.slots, fun address held h => ?_, fun address hmem => ?_, fun pair hpair => ?_, fun other hmem => ?_,
      List.nodup_cons.mpr ⟨fun hmem => ?_, hall.nodup⟩⟩
    · refine hall.kept address held ?_
      by_cases heq : address = entry.address
      · rw [heq] at h ⊢
        rw [hself, hheld held h]
      · rw [hother address heq]
        exact h
    · rw [map_cons, List.mem_cons, not_or] at hmem
      rw [hall.frame address hmem.2, hother address hmem.1]
    · rcases List.mem_cons.mp hpair with rfl | hpair
      · exact ⟨entry, mem_cons_self, hent⟩
      · obtain ⟨other, hmem, hget⟩ := hall.pairs pair hpair
        exact ⟨other, mem_cons_of_mem _ hmem, hget⟩
    · rcases List.mem_cons.mp hmem with rfl | hmem
      · exact ⟨(slot, function), mem_cons_self, hent, Attempt.orFail_eq_done hfun⟩
      · obtain ⟨pair, hpair, hget⟩ := hall.functions other hmem
        exact ⟨pair, mem_cons_of_mem _ hpair, hget⟩
    · -- Two entries of one slot would have one address.
      obtain ⟨pair, hpair, hsame⟩ := List.mem_map.mp hmem
      obtain ⟨other, hmem, hget⟩ := hall.pairs pair hpair
      rw [hsame] at hget
      have heq := hall.slots.distinct entry.address other.address slot hent hget
      exact hnodup.1 (heq ▸ List.mem_map_of_mem hmem)

/-- There is a slot for an address while the next one fits 32 bits. -/
theorem slotOf_total (hslots : Slots addresses nextSlot) (hroom : nextSlot.toNat + 1 < 2 ^ 32) (address : BitVec 32) :
    ∃ slot next, slotOf addresses nextSlot address = some (slot, next) ∧ slot ≠ 0 ∧
      next.toNat ≤ nextSlot.toNat + 1 := by
  rw [slotOf]
  cases hget : addresses.get address with
  | some slot =>
    refine ⟨slot, nextSlot, rfl, fun hz => ?_, Nat.le_succ _⟩
    have hfst := (hslots.bounds address slot hget).1
    rw [hz] at hfst
    exact absurd hfst (by decide)
  | none =>
    refine ⟨nextSlot, nextSlot + 1, if_pos hroom, fun hz => ?_, ?_⟩
    · have hcnt := hslots.count
      rw [hz] at hcnt
      cases hcnt
    · rw [BitVec.toNat_add]
      exact Nat.mod_le _ _

/-- An entry whose export and slot are found. -/
theorem resolve_cons {entry : DispatchEntry} (entries : List DispatchEntry) {function : Callable F}
    {slot next : BitVec 32} {previous : Option (BitVec 32)} {after : EntryTable}
    (hexport : exports entry.exportName = some function)
    (hslot : slotOf addresses nextSlot entry.address = some (slot, next))
    (hinsert : addresses.insert entry.address slot = some (previous, after)) :
    resolve exports addresses nextSlot (entry :: entries) =
      (resolve exports after next entries).bind fun rest =>
        .done { rest with functions := (slot, function) :: rest.functions } := by
  rw [resolve, hexport, hslot]
  show (Attempt.expect (addresses.insert entry.address slot) >>= _) = _
  rw [hinsert]
  rfl

/-- Resolving does not panic while every address may get a slot, and fails only where an export is missing. -/
theorem resolve_total (exports : String → Option (Callable F)) (entries : List DispatchEntry)
    (hslots : Slots addresses nextSlot)
    (hroom : nextSlot.toNat + entries.length < 2 ^ 32) :
    (∃ failure, resolve exports addresses nextSlot entries = .failed failure ∧
        ∃ entry ∈ entries, exports entry.exportName = none) ∨
      ∃ resolved, resolve exports addresses nextSlot entries = .done resolved ∧
        resolved.nextSlot.toNat ≤ nextSlot.toNat + entries.length := by
  induction entries generalizing addresses nextSlot with
  | nil => exact Or.inr ⟨_, rfl, Nat.le_refl _⟩
  | cons entry entries ih =>
    rw [List.length_cons] at hroom
    cases hexport : exports entry.exportName with
    | none =>
      refine Or.inl ⟨.missingExport, ?_, entry, mem_cons_self, hexport⟩
      rw [resolve, hexport]
      rfl
    | some function =>
      obtain ⟨slot, next, hslot, hne, hnext⟩ := slotOf_total hslots (by omega) entry.address
      obtain ⟨after, hinsert, -⟩ := EntryTable.insert_eq addresses entry.address hne
      have hafter := (slotOf_insert hslots hslot hinsert).1
      rw [resolve_cons entries hexport hslot hinsert, List.length_cons]
      rcases ih hafter (by omega) with ⟨failure, hrest, other, hmem, hnone⟩ | ⟨rest, hrest, hle⟩
      · rw [hrest]
        exact Or.inl ⟨failure, rfl, other, mem_cons_of_mem _ hmem, hnone⟩
      · rw [hrest]
        refine Or.inr ⟨_, rfl, ?_⟩
        show rest.nextSlot.toNat ≤ _
        omega

end Resolving

/-! ## The steps of an installation -/

section Steps

variable {grants : Grants} {l : Linked F}

/-- Slots filled in order. -/
def fill (functions : List (Option (Callable F))) (pairs : List (BitVec 32 × Callable F)) :
    List (Option (Callable F)) :=
  pairs.foldl (fun functions pair => functions.set pair.1.toNat (some pair.2)) functions

theorem length_fill (functions : List (Option (Callable F))) (pairs : List (BitVec 32 × Callable F)) :
    (fill functions pairs).length = functions.length := by
  induction pairs generalizing functions with
  | nil => rfl
  | cons pair pairs ih => exact (ih _).trans List.length_set

/-- Slots that are not named keep their function. -/
theorem fill_of_not_mem {functions : List (Option (Callable F))} {pairs : List (BitVec 32 × Callable F)} {i : Nat}
    (h : ∀ pair ∈ pairs, pair.1.toNat ≠ i) : (fill functions pairs)[i]? = functions[i]? := by
  induction pairs generalizing functions with
  | nil => rfl
  | cons pair pairs ih =>
    have hne : pair.1.toNat ≠ i := h pair mem_cons_self
    refine (ih fun pair hpair => h pair (mem_cons_of_mem _ hpair)).trans ?_
    exact List.getElem?_set_ne hne

/-- A named slot holds the function it was filled with. -/
theorem fill_of_mem {functions : List (Option (Callable F))} {pairs : List (BitVec 32 × Callable F)}
    (hnodup : (pairs.map Prod.fst).Nodup) (hbounds : ∀ pair ∈ pairs, pair.1.toNat < functions.length)
    {pair : BitVec 32 × Callable F} (h : pair ∈ pairs) :
    (fill functions pairs)[pair.1.toNat]? = some (some pair.2) := by
  induction pairs generalizing functions with
  | nil => cases h
  | cons first pairs ih =>
    rw [map_cons, List.nodup_cons] at hnodup
    rcases List.mem_cons.mp h with rfl | h
    · have hset : (functions.set pair.1.toNat (some pair.2))[pair.1.toNat]? = some (some pair.2) :=
        List.getElem?_set_self (hbounds pair mem_cons_self)
      refine Eq.trans (@fill_of_not_mem F _ pairs _ fun other hother heq => ?_) hset
      exact hnodup.1 (List.mem_map.mpr ⟨other, hother, BitVec.eq_of_toNat_eq heq⟩)
    · refine ih hnodup.2 (fun pair hpair => ?_) h
      rw [List.length_set]
      exact hbounds pair (mem_cons_of_mem _ hpair)

/-- A list of steps is its first part, and the rest if nothing was refused. -/
theorem perform_append (first rest : List (Effect F)) : perform grants (first ++ rest) l =
    match (perform grants first l).failure with
    | some _ => perform grants first l
    | none =>
      let after := perform grants rest (perform grants first l).linked
      { after with seen := (perform grants first l).seen ++ after.seen } := by
  induction first generalizing l with
  | nil => rfl
  | cons effect first ih =>
    rw [List.cons_append, perform, perform]
    cases heffect : effect.apply grants l with
    | error failure => rfl
    | ok next =>
      have hnext := @ih next
      cases hfail : (perform grants first next).failure with
      | none => simp [hnext, hfail]
      | some failure => simp [hnext, hfail]

/-- What every step keeps holds of every state on the way. -/
theorem perform_invariant {P : Linked F → Prop} {effects : List (Effect F)}
    (hstep : ∀ effect ∈ effects, ∀ before after, P before → effect.apply grants before = .ok after → P after)
    (h : P l) : P (perform grants effects l).linked ∧ ∀ seen ∈ (perform grants effects l).seen, P seen := by
  induction effects generalizing l with
  | nil => exact ⟨h, fun seen hseen => absurd hseen not_mem_nil⟩
  | cons effect effects ih =>
    rw [perform]
    cases heffect : effect.apply grants l with
    | error failure => exact ⟨h, fun seen hseen => absurd hseen not_mem_nil⟩
    | ok next =>
      have hnext : P next := hstep effect mem_cons_self l next h heffect
      obtain ⟨hlast, hrest⟩ := ih (fun effect hmem => hstep effect (mem_cons_of_mem _ hmem)) hnext
      refine ⟨hlast, fun seen hseen => ?_⟩
      rcases List.mem_cons.mp hseen with rfl | hseen
      · exact hnext
      · exact hrest seen hseen

/-- Filling slots that exist is never refused. -/
theorem perform_fill {pairs : List (BitVec 32 × Callable F)}
    (hbounds : ∀ pair ∈ pairs, pair.1.toNat < l.functions.length) :
    let progress := perform grants (pairs.map fun pair => Effect.setTableFunction pair.1 pair.2) l
    progress.failure = none ∧ progress.linked = { l with functions := fill l.functions pairs } := by
  induction pairs generalizing l with
  | nil => exact ⟨rfl, rfl⟩
  | cons pair pairs ih =>
    have hset : (Effect.setTableFunction pair.1 pair.2).apply grants l =
        .ok { l with functions := l.functions.set pair.1.toNat (some pair.2) } :=
      if_pos (hbounds pair mem_cons_self)
    rw [map_cons, perform, hset]
    refine ih fun pair hpair => ?_
    rw [List.length_set]
    exact hbounds pair (mem_cons_of_mem _ hpair)

end Steps

/-! ## What is published -/

namespace Linked

/-- The memory publishes an address table, and every slot that it names is filled. -/
structure Serves (linked : Linked F) (addresses : EntryTable) : Prop where
  published : ∃ bytes, addresses.toBytes = some bytes ∧ bytes.length ≤ linked.pages * pageBytes ∧
    linked.entries.read 0 bytes.length = bytes
  pages : linked.pages ≤ maximumPages
  filled : ∀ address slot, addresses.get address = some slot → 2 ≤ slot.toNat ∧
    ∃ function, linked.functions[slot.toNat]? = some (some function)
  interpreter : linked.functions[EntryTable.interpreterSlot.toNat]? = some (some .interpreter)

variable {l after : Linked F} {es : EntryTable} {grants : Grants}

/-- Filling more slots, and growing, keeps what is published. -/
theorem Serves.mono (h : l.Serves es) (hentries : after.entries = l.entries)
    (hpages : l.pages ≤ after.pages) (hmaximum : after.pages ≤ maximumPages)
    (hfilled : ∀ (i : Nat) (function : Callable F), l.functions[i]? = some (some function) →
      ∃ other, after.functions[i]? = some (some other))
    (hinterpreter : after.functions[EntryTable.interpreterSlot.toNat]? =
      l.functions[EntryTable.interpreterSlot.toNat]?) : after.Serves es := by
  obtain ⟨bytes, hbytes, hlen, hread⟩ := h.published
  refine ⟨⟨bytes, hbytes, Nat.le_trans hlen (Nat.mul_le_mul_right _ hpages), by rw [hentries, hread]⟩, hmaximum,
    fun address slot hget => ?_, by rw [hinterpreter, h.interpreter]⟩
  obtain ⟨hfst, function, hfun⟩ := h.filled address slot hget
  exact ⟨hfst, hfilled _ _ hfun⟩

theorem ensureTableSize_eq {minimum : BitVec 32} (h : l.ensureTableSize grants minimum = .ok after) :
    after = { l with
      functions := l.functions ++ List.replicate (minimum.toNat - l.functions.length) none } := by
  rw [ensureTableSize] at h
  split at h
  · split at h
    · cases h
      rfl
    · cases h
  · next hsize =>
      cases h
      rw [Nat.sub_eq_zero_of_le (Nat.not_lt.mp hsize), List.replicate_zero, List.append_nil]

theorem ensureMemorySize_eq {byteLen : Nat} (h : l.ensureMemorySize grants byteLen = .ok after) :
    ∃ pages, after = { l with pages } ∧ l.pages ≤ pages ∧ byteLen ≤ pages * pageBytes ∧
      (pages ≤ l.pages ∨ pages ≤ maximumPages) := by
  have hdiv : ∀ pages, divCeil byteLen pageBytes ≤ pages → byteLen ≤ pages * pageBytes := by
    intro pages hpages
    rw [divCeil, pageBytes] at hpages
    rw [pageBytes]
    split at hpages <;> omega
  rw [ensureMemorySize] at h
  split at h
  · next hsize =>
      split at h
      · next hgrant =>
          cases h
          exact ⟨_, rfl, Nat.le_of_lt hsize, hdiv _ (Nat.le_refl _), Or.inr hgrant.2⟩
      · cases h
  · next hsize =>
      cases h
      exact ⟨_, rfl, Nat.le_refl _, hdiv _ (Nat.not_lt.mp hsize), Or.inl (Nat.le_refl _)⟩

theorem ensureMemorySize_error {byteLen : Nat} {failure : Failure}
    (h : l.ensureMemorySize grants byteLen = .error failure) : failure = .memoryGrowth := by
  rw [ensureMemorySize] at h
  split at h
  · split at h
    · cases h
    · cases h
      rfl
  · cases h

theorem getElem?_append_empty {functions : List (Option (Callable F))} {n i : Nat} {function : Callable F} :
    (functions ++ List.replicate n none)[i]? = some (some function) ↔ functions[i]? = some (some function) := by
  rw [List.getElem?_append]
  split
  · exact Iff.rfl
  · next hlt =>
      rw [List.getElem?_replicate, List.getElem?_eq_none (Nat.not_lt.mp hlt)]
      split <;> simp

/-- Growing the table keeps what is published. -/
theorem Serves.grow (h : l.Serves es) (added : Nat) :
    Serves { l with functions := l.functions ++ List.replicate added none } es := by
  refine h.mono rfl (Nat.le_refl _) h.pages (fun i function hi => ⟨function, getElem?_append_empty.mpr hi⟩) ?_
  rw [h.interpreter]
  exact getElem?_append_empty.mpr h.interpreter

/-- Every step but the last keeps what is published. -/
theorem Serves.step {effect : Effect F} (h : l.Serves es)
    (heffect : ∀ slot function, effect = .setTableFunction slot function → 2 ≤ slot.toNat)
    (hwr : ∀ bytes, effect ≠ .write bytes) (happly : effect.apply grants l = .ok after) :
    after.Serves es := by
  cases effect with
  | ensureMemorySize byteLen =>
    obtain ⟨pages, rfl, hpages, -, hmaximum⟩ := ensureMemorySize_eq happly
    refine h.mono rfl hpages ?_ (fun i function hi => ⟨function, hi⟩) rfl
    rcases hmaximum with hle | hle
    · exact Nat.le_trans hle h.pages
    · exact hle
  | setTableFunction slot function =>
    have hslot := heffect slot function rfl
    rw [Effect.apply, setTableFunction] at happly
    split at happly
    · next hbound =>
        cases happly
        refine h.mono rfl (Nat.le_refl _) h.pages (fun i held hi => ?_) ?_
        · by_cases heq : slot.toNat = i
          · exact ⟨function, by rw [← heq]; exact List.getElem?_set_self hbound⟩
          · exact ⟨held, by rw [← hi]; exact List.getElem?_set_ne heq⟩
        · refine List.getElem?_set_ne fun heq => ?_
          rw [heq] at hslot
          exact absurd hslot (by decide)
    · cases happly
  | write bytes => exact absurd rfl (hwr bytes)

/-- What fits the memory has few addresses. -/
theorem Serves.size (h : l.Serves es) : es.entries.size ≤ 2 ^ 28 := by
  obtain ⟨bytes, hbytes, hlen, -⟩ := h.published
  have hmaximum : maximumPages * pageBytes ≤ 2 ^ 32 := by decide
  have hfew := (EntryTable.length_le_iff hbytes).mp
    (Nat.le_trans hlen (Nat.le_trans (Nat.mul_le_mul_right _ h.pages) hmaximum))
  exact Nat.le_trans hfew (by decide)

/-- Whatever is published, the generated lookup ends in a filled slot. -/
theorem Serves.lookup (h : l.Serves es) (address : BitVec 32) :
    ∃ fuel reads, EntryTable.lookup l.entries address fuel =
        some (reads, (es.get address).getD EntryTable.interpreterSlot) ∧
      (∀ read ∈ reads, read + 4 ≤ l.pages * pageBytes) ∧
      ∃ function, l.functions[((es.get address).getD EntryTable.interpreterSlot).toNat]? =
        some (some function) := by
  obtain ⟨bytes, hbytes, hlen, hread⟩ := h.published
  obtain ⟨bytes', hbytes', hlookup⟩ := EntryTable.lookup_eq es h.size
  obtain rfl : bytes = bytes' := Option.some.inj (hbytes.symm.trans hbytes')
  obtain ⟨fuel, reads, hfound, hrd⟩ := hlookup l.entries hread address
  refine ⟨fuel, reads, hfound, fun read hmem => Nat.le_trans (hrd read hmem) hlen, ?_⟩
  cases hget : es.get address with
  | none => exact ⟨_, h.interpreter⟩
  | some slot => exact (h.filled address slot hget).2

end Linked

/-! ## Installing a batch -/

namespace DispatchTable

variable {table : DispatchTable F} {grants : Grants} {exports : String → Option (Callable F)}
  {entries : List DispatchEntry}

/-- What holds of a dispatch table between batches. -/
structure Sound (table : DispatchTable F) : Prop where
  serves : table.linked.Serves table.addresses
  slots : Slots table.addresses table.nextSlot
  size : table.linked.functions.length = table.capacity.toNat
  room : table.nextSlot.toNat ≤ table.capacity.toNat

/-- No slot that existed and no address changed; slots may have been added, which are empty. -/
structure Unchanged (table after : DispatchTable F) : Prop where
  addresses : after.addresses = table.addresses
  nextSlot : after.nextSlot = table.nextSlot
  entries : after.linked.entries = table.linked.entries
  pages : after.linked.pages = table.linked.pages
  functions : ∃ added, after.linked.functions = table.linked.functions ++ List.replicate added none

theorem Unchanged.refl (table : DispatchTable F) : table.Unchanged table :=
  ⟨rfl, rfl, rfl, rfl, 0, by rw [List.replicate_zero, List.append_nil]⟩

/-- The functions after a batch: the slots of the batch are filled with its functions, the others keep theirs. -/
structure Filled (table : DispatchTable F) (resolved : Resolved F) (after : DispatchTable F) : Prop where
  addresses : after.addresses = resolved.addresses
  filled : ∀ pair ∈ resolved.functions, after.linked.functions[pair.1.toNat]? = some (some pair.2)
  kept : ∀ i, (∀ pair ∈ resolved.functions, pair.1.toNat ≠ i) → ∀ function,
    table.linked.functions[i]? = some (some function) → after.linked.functions[i]? = some (some function)

/-- Reserving slots: the table has room for the next slot, or it is as it was. -/
theorem reserveSlots_spec (grants : Grants) (hsound : table.Sound) (nextSlot : BitVec 32) :
    let reserved := table.reserveSlots grants nextSlot
    reserved.table.Sound ∧ table.Unchanged reserved.table ∧ (∀ seen ∈ reserved.seen, seen.Serves table.addresses) ∧
      (∀ failure, reserved.failure = some failure → reserved.table = table) ∧
      (reserved.failure = none → nextSlot.toNat ≤ reserved.table.capacity.toNat) := by
  intro reserved
  by_cases hroom : nextSlot > table.capacity
  · cases hgrow : table.linked.ensureTableSize grants (if saturatingDouble table.capacity ≤ nextSlot then nextSlot
        else saturatingDouble table.capacity) with
    | error failure =>
      have hresv : reserved = ⟨some failure, table, []⟩ := by
        simp only [reserved, reserveSlots, if_pos hroom, hgrow]
      rw [hresv]
      exact ⟨hsound, Unchanged.refl table, fun seen hseen => absurd hseen not_mem_nil, fun _ _ => rfl, nofun⟩
    | ok linked =>
      have hresv : reserved = ⟨none, { table with
          linked := linked
          capacity := if saturatingDouble table.capacity ≤ nextSlot then nextSlot
            else saturatingDouble table.capacity }, [linked]⟩ := by
        simp only [reserved, reserveSlots, if_pos hroom, hgrow]
      have hcapacity : nextSlot.toNat ≤ (if saturatingDouble table.capacity ≤ nextSlot then nextSlot
          else saturatingDouble table.capacity).toNat := by
        split
        · exact Nat.le_refl _
        · next hlt => exact Nat.le_of_lt (BitVec.not_le.mp hlt)
      have hlt : table.capacity.toNat < nextSlot.toNat := hroom
      have hlinked := Linked.ensureTableSize_eq hgrow
      have hserves : linked.Serves table.addresses := hlinked ▸ hsound.serves.grow _
      rw [hresv]
      refine ⟨⟨hserves, hsound.slots, ?_, ?_⟩, ⟨rfl, rfl, by rw [hlinked], by rw [hlinked], _, by rw [hlinked]⟩,
        fun seen hseen => ?_, nofun, fun _ => hcapacity⟩
      · show linked.functions.length = _
        rw [hlinked, List.length_append, List.length_replicate, hsound.size]
        exact Nat.add_sub_cancel' (Nat.le_trans (Nat.le_of_lt hlt) hcapacity)
      · exact Nat.le_trans hsound.room (Nat.le_trans (Nat.le_of_lt hlt) hcapacity)
      · rw [List.mem_singleton.mp hseen]
        exact hserves
  · have hresv : reserved = ⟨none, table, []⟩ := if_neg hroom
    rw [hresv]
    exact ⟨hsound, Unchanged.refl table, fun seen hseen => absurd hseen not_mem_nil, fun _ _ => rfl,
      fun _ => Nat.not_lt.mp hroom⟩

variable {resolved : Resolved F}

/-- Once slots are reserved, only the growth of the memory is refused, before any slot is filled; until the last step
the old addresses are served. -/
theorem perform_steps (grants : Grants) {linked : Linked F} {addresses : EntryTable} (hserves : linked.Serves addresses)
    (hpairs : ∀ pair ∈ resolved.functions, 2 ≤ pair.1.toNat ∧ pair.1.toNat < linked.functions.length)
    (bytes : List (BitVec 8)) :
    let progress := perform grants (resolved.steps bytes) linked
    (∀ failure, progress.failure = some failure →
      failure = .memoryGrowth ∧ progress.linked = linked ∧ progress.seen = []) ∧
    (progress.failure = none → ∃ pages ≤ maximumPages, bytes.length ≤ pages * pageBytes ∧
      progress.linked = ⟨fill linked.functions resolved.functions, linked.entries.write 0 bytes, pages⟩ ∧
      ∀ seen ∈ progress.seen, seen.Serves addresses ∨ seen = progress.linked) := by
  intro progress
  cases hgrow : linked.ensureMemorySize grants bytes.length with
  | error failure =>
    have hprog : progress = ⟨some failure, linked, []⟩ := by
      simp only [progress, Resolved.steps, List.cons_append, perform, Effect.apply, hgrow]
    rw [hprog]
    refine ⟨fun other h => ⟨?_, rfl, rfl⟩, nofun⟩
    rw [← Option.some.inj h]
    exact Linked.ensureMemorySize_error hgrow
  | ok grown =>
    obtain ⟨pages, hgrown, -, hlen, hmaximum⟩ := Linked.ensureMemorySize_eq hgrow
    have hle : pages ≤ maximumPages := hmaximum.elim (fun h => Nat.le_trans h hserves.pages) id
    -- Everything but the last step keeps what is served.
    let steps : List (Effect F) := .ensureMemorySize bytes.length ::
      resolved.functions.map fun pair => .setTableFunction pair.1 pair.2
    have hsteps := @perform_invariant F grants linked (fun linked => linked.Serves addresses) steps
      (fun effect hmem before after hbef happly => by
        rcases List.mem_cons.mp hmem with rfl | hmem
        · exact hbef.step (fun _ _ h => by cases h) (fun _ h => by cases h) happly
        · obtain ⟨pair, hpair, rfl⟩ := List.mem_map.mp hmem
          refine hbef.step (fun slot function h => ?_) (fun _ h => by cases h) happly
          cases h
          exact (hpairs pair hpair).1) hserves
    obtain ⟨hfill, hfilled⟩ := @perform_fill F grants grown resolved.functions
      (fun pair hpair => by rw [hgrown]; exact (hpairs pair hpair).2)
    have hfst : (perform grants steps linked).failure = none ∧ (perform grants steps linked).linked =
        { grown with functions := fill grown.functions resolved.functions } := by
      simp only [steps, perform, Effect.apply, hgrow]
      exact ⟨hfill, hfilled⟩
    let last : Linked F := ⟨fill linked.functions resolved.functions, linked.entries.write 0 bytes, pages⟩
    have hwr : (Effect.write bytes).apply grants
        { grown with functions := fill grown.functions resolved.functions } = .ok last := by
      rw [hgrown]
      exact if_pos hlen
    have hprog : progress = ⟨none, last, (perform grants steps linked).seen ++ [last]⟩ := by
      refine (perform_append steps [.write bytes]).trans ?_
      rw [hfst.1, hfst.2]
      simp only [perform, hwr]
    rw [hprog]
    refine ⟨fun _ h => (by cases h), fun _ => ⟨pages, hle, hlen, rfl, fun seen hseen => ?_⟩⟩
    rcases List.mem_append.mp hseen with hseen | hseen
    · exact Or.inl (hsteps.2 seen hseen)
    · exact Or.inr (List.mem_singleton.mp hseen)

variable {bytes : List (BitVec 8)}

/-- Once its slots are filled, the new table may be written. -/
theorem serves_publish {linked : Linked F} {addresses : EntryTable} (hserves : linked.Serves addresses)
    (hpairs : ∀ pair ∈ resolved.functions, 2 ≤ pair.1.toNat ∧ pair.1.toNat < linked.functions.length)
    (hrsvd : Resolves exports addresses entries resolved)
    (hbytes : resolved.addresses.toBytes = some bytes) {pages : Nat} (hlen : bytes.length ≤ pages * pageBytes)
    (hpages : pages ≤ maximumPages) :
    Linked.Serves ⟨fill linked.functions resolved.functions, linked.entries.write 0 bytes, pages⟩
      resolved.addresses := by
  have hfilled : ∀ pair ∈ resolved.functions,
      (fill linked.functions resolved.functions)[pair.1.toNat]? = some (some pair.2) := fun pair hpair =>
    fill_of_mem hrsvd.nodup (fun pair hpair => (hpairs pair hpair).2) hpair
  refine ⟨⟨bytes, hbytes, hlen, Memory.read_write _ 0 bytes⟩, hpages, fun address slot hget => ?_, ?_⟩
  · by_cases hent : address ∈ entries.map DispatchEntry.address
    · obtain ⟨entry, hmem, rfl⟩ := List.mem_map.mp hent
      obtain ⟨pair, hpair, hslot, -⟩ := hrsvd.functions entry hmem
      obtain rfl := Option.some.inj (hslot.symm.trans hget)
      exact ⟨(hpairs pair hpair).1, pair.2, hfilled pair hpair⟩
    · have hold : addresses.get address = some slot := hrsvd.frame address hent ▸ hget
      obtain ⟨hfst, function, hfun⟩ := hserves.filled address slot hold
      refine ⟨hfst, ?_⟩
      by_cases hmem : ∃ pair ∈ resolved.functions, pair.1.toNat = slot.toNat
      · obtain ⟨pair, hpair, heq⟩ := hmem
        exact ⟨pair.2, heq ▸ hfilled pair hpair⟩
      · refine ⟨function, (fill_of_not_mem fun pair hpair heq => ?_).trans hfun⟩
        exact hmem ⟨pair, hpair, heq⟩
  · refine (fill_of_not_mem fun pair hpair heq => ?_).trans hserves.interpreter
    have hfst := (hpairs pair hpair).1
    rw [heq] at hfst
    exact absurd hfst (by decide)

/-- Committing a resolved batch: everything is published, or nothing is. -/
theorem commit_spec (grants : Grants) (hsound : table.Sound)
    (hrsvd : Resolves exports table.addresses entries resolved)
    (hroom : resolved.nextSlot.toNat ≤ table.capacity.toNat) (hbytes : resolved.addresses.toBytes = some bytes) :
    let after := table.commit grants resolved bytes
    after.table.Sound ∧
      (∀ seen ∈ after.seen, seen.Serves table.addresses ∨ seen.Serves after.table.addresses) ∧
      (∀ failure, after.failure = some failure → after.table = table ∧ failure = .memoryGrowth) ∧
      (after.failure = none → table.Filled resolved after.table) := by
  intro after
  have hbounds : ∀ pair ∈ resolved.functions, 2 ≤ pair.1.toNat ∧ pair.1.toNat < table.linked.functions.length := by
    intro pair hpair
    obtain ⟨entry, -, hget⟩ := hrsvd.pairs pair hpair
    have := hrsvd.slots.bounds entry.address pair.1 hget
    rw [hsound.size]
    omega
  obtain ⟨hrefused, hpublished⟩ := perform_steps grants hsound.serves hbounds bytes
  cases hprog : (perform grants (resolved.steps bytes) table.linked).failure with
  | some failure =>
    obtain ⟨hfail, hlinked, hnone⟩ := hrefused failure hprog
    have hafter : after = ⟨some failure, table, []⟩ := by
      simp only [after, commit, hprog, hlinked, hnone]
    rw [hafter]
    refine ⟨hsound, fun seen h => absurd h not_mem_nil, fun other h => ⟨rfl, ?_⟩, fun h => by cases h⟩
    rw [← Option.some.inj h, hfail]
  | none =>
    obtain ⟨pages, hpages, hlen, hlinked, hlast⟩ := hpublished hprog
    have hafter : after = ⟨none, ⟨(perform grants (resolved.steps bytes) table.linked).linked, resolved.addresses,
        resolved.nextSlot, table.capacity⟩, (perform grants (resolved.steps bytes) table.linked).seen⟩ := by
      simp only [after, commit, hprog]
    have hserved := serves_publish hsound.serves hbounds hrsvd hbytes hlen hpages
    rw [← hlinked] at hserved
    rw [hafter]
    refine ⟨⟨hserved, hrsvd.slots, ?_, hroom⟩, fun seen h =>
        (hlast seen h).imp_right fun heq => by rw [heq]; exact hserved,
      fun _ h => (by cases h), fun _ => ⟨rfl, fun pair hpair => ?_, fun i hi function h => ?_⟩⟩
    · show List.length (Linked.functions _) = _
      rw [hlinked]
      exact (length_fill _ _).trans hsound.size
    · show (Linked.functions _)[_]? = _
      rw [hlinked]
      exact fill_of_mem hrsvd.nodup (fun pair hpair => (hbounds pair hpair).2) hpair
    · show (Linked.functions _)[_]? = _
      rw [hlinked]
      exact (fill_of_not_mem hi).trans h

/-- A batch that is resolved is published entirely, or nothing of it. -/
theorem publish_spec (grants : Grants) (hsound : table.Sound)
    (hrsvd : Resolves exports table.addresses entries resolved) (hbytes : resolved.addresses.toBytes = some bytes) :
    let after := table.publish grants resolved bytes
    after.table.Sound ∧
      (∀ seen ∈ after.seen, seen.Serves table.addresses ∨ seen.Serves after.table.addresses) ∧
      (∀ failure, after.failure = some failure →
        table.Unchanged after.table ∧ (failure = .memoryGrowth ∨ after.table = table)) ∧
      (after.failure = none → table.Filled resolved after.table) := by
  obtain ⟨hresv, hunchanged, hseen, hfailed, hroom⟩ := reserveSlots_spec grants hsound resolved.nextSlot
  intro after
  cases hfail : (table.reserveSlots grants resolved.nextSlot).failure with
  | some failure =>
    have hafter : after = table.reserveSlots grants resolved.nextSlot := by
      simp only [after, publish, hfail]
    rw [hafter]
    exact ⟨hresv, fun seen h => Or.inl (hseen seen h), fun _ h => ⟨hunchanged, Or.inr (hfailed _ h)⟩,
      fun h => by rw [hfail] at h; cases h⟩
  | none =>
    have hafter : after = { (table.reserveSlots grants resolved.nextSlot).table.commit grants resolved bytes with
        seen := (table.reserveSlots grants resolved.nextSlot).seen ++
          ((table.reserveSlots grants resolved.nextSlot).table.commit grants resolved bytes).seen } := by
      simp only [after, publish, hfail]
    obtain ⟨hsound', hseen', hfailed', hfilled⟩ := commit_spec grants hresv
      (hunchanged.addresses ▸ hrsvd) (hroom hfail) hbytes
    rw [hafter]
    refine ⟨hsound', fun seen h => ?_, fun failure h => ⟨?_, Or.inl (hfailed' failure h).2⟩, fun h => ?_⟩
    · rcases List.mem_append.mp h with h | h
      · exact Or.inl (hseen seen h)
      · rw [hunchanged.addresses] at hseen'
        exact hseen' seen h
    · show Unchanged _ _
      rw [(hfailed' failure h).1]
      exact hunchanged
    · have hfilled := hfilled h
      refine ⟨hfilled.addresses, hfilled.filled, fun i hi function h => hfilled.kept i hi function ?_⟩
      obtain ⟨added, hadded⟩ := hunchanged.functions
      rw [hadded]
      exact Linked.getElem?_append_empty.mpr h

/-- A batch is installed: its addresses lead to its functions, and the others where they led. -/
structure Installed (table : DispatchTable F) (exports : String → Option (Callable F)) (entries : List DispatchEntry)
    (after : DispatchTable F) : Prop where
  kept : ∀ address slot, table.addresses.get address = some slot → after.addresses.get address = some slot
  entered : ∀ entry ∈ entries, ∃ slot function, after.addresses.get entry.address = some slot ∧
    exports entry.exportName = some function ∧ after.linked.functions[slot.toNat]? = some (some function)
  frame : ∀ address, address ∉ entries.map DispatchEntry.address →
    after.addresses.get address = table.addresses.get address
  functions : ∀ address, address ∉ entries.map DispatchEntry.address → ∀ slot function,
    table.addresses.get address = some slot → table.linked.functions[slot.toNat]? = some (some function) →
      after.linked.functions[slot.toNat]? = some (some function)

/-- What a batch of distinct addresses does. -/
theorem install_spec {after : Installation F} (hsound : table.Sound)
    (hnodup : (entries.map DispatchEntry.address).Nodup) (h : table.install grants exports entries = some after) :
    after.table.Sound ∧
      (∀ seen ∈ after.seen, seen.Serves table.addresses ∨ seen.Serves after.table.addresses) ∧
      (∀ failure, after.failure = some failure →
        table.Unchanged after.table ∧ (failure = .memoryGrowth ∨ after.table = table)) ∧
      (after.failure = none → table.Installed exports entries after.table) := by
  rw [install] at h
  cases hrsv : resolve exports table.addresses table.nextSlot entries with
  | panicked =>
    rw [hrsv] at h
    cases h
  | failed failure =>
    rw [hrsv] at h
    cases h
    exact ⟨hsound, fun _ h => absurd h not_mem_nil, fun _ _ => ⟨Unchanged.refl table, Or.inr rfl⟩,
      fun h => by cases h⟩
  | done resolved =>
    rw [hrsv] at h
    obtain ⟨bytes, hbytes, rfl⟩ := Option.map_eq_some_iff.mp h
    have hrsvd := resolve_spec hsound.slots hnodup hrsv
    obtain ⟨hafter, hseen, hfailed, hfilled⟩ := publish_spec grants hsound hrsvd hbytes
    refine ⟨hafter, hseen, hfailed, fun hnone => ?_⟩
    have hdone := hfilled hnone
    refine ⟨fun address slot hget => ?_, fun entry hmem => ?_, fun address hmem => ?_,
      fun address hmem slot function hget hheld => ?_⟩
    · rw [hdone.addresses]
      exact hrsvd.kept address slot hget
    · obtain ⟨pair, hpair, hslot, hfun⟩ := hrsvd.functions entry hmem
      rw [hdone.addresses]
      exact ⟨pair.1, pair.2, hslot, hfun, hdone.filled pair hpair⟩
    · rw [hdone.addresses]
      exact hrsvd.frame address hmem
    · -- A slot that the batch fills belongs to one of its addresses.
      refine hdone.kept slot.toNat (fun pair hpair heq => ?_) function hheld
      obtain ⟨entry, hent, hslot⟩ := hrsvd.pairs pair hpair
      rw [BitVec.eq_of_toNat_eq heq] at hslot
      have hsame := hrsvd.slots.distinct entry.address address slot hslot (hrsvd.kept address slot hget)
      exact hmem (hsame ▸ List.mem_map_of_mem hent)

/-- A batch that 32 bits have room for does not panic. -/
theorem install_total (grants : Grants) (exports : String → Option (Callable F)) (hsound : table.Sound)
    (hnodup : (entries.map DispatchEntry.address).Nodup)
    (hcnt : entries.length ≤ 2 ^ 30) : ∃ after, table.install grants exports entries = some after := by
  have hsize := hsound.serves.size
  have hslots := hsound.slots.count
  rw [install]
  rcases resolve_total exports entries hsound.slots (by omega) with
    ⟨failure, hrsv, -⟩ | ⟨resolved, hrsv, hle⟩
  · rw [hrsv]
    exact ⟨_, rfl⟩
  · have hrsvd := (resolve_spec hsound.slots hnodup hrsv).slots.count
    obtain ⟨rows, hbytes, -⟩ := EntryTable.toBytes_eq resolved.addresses (by omega)
    rw [hrsv]
    exact ⟨_, congrArg (Option.map _) hbytes⟩

/-- A new table is sound. -/
theorem initial_sound : (initial : DispatchTable F).Sound := by
  have hemp : ∀ address slot, EntryTable.default.get address ≠ some slot := by
    intro address slot
    simp [EntryTable.default, EntryTable.get]
  obtain ⟨rows, hbytes, hrows, -⟩ := EntryTable.toBytes_eq EntryTable.default (by decide)
  have horder : EntryTable.default.order ≤ 1 := EntryTable.order_le (by decide) (by decide)
  have hpow : 2 ^ EntryTable.default.order ≤ 2 ^ 1 := Nat.pow_le_pow_right (by decide) horder
  have hpages : 1 ≤ maximumPages := by decide
  have hfst : firstDynamicSlot.toNat = EntryTable.default.entries.size + 2 := by decide
  refine ⟨⟨⟨_, hbytes, ?_, ?_⟩, hpages, fun address slot h => absurd h (hemp address slot), rfl⟩,
    ⟨hfst, fun address slot h => absurd h (hemp address slot),
      fun address _ slot h => absurd h (hemp address slot)⟩, rfl, Nat.le_refl _⟩
  · rw [EntryTable.length_serialized, hrows]
    show _ ≤ 1 * 65536
    omega
  · show Memory.read (Memory.write _ 0 (EntryTable.default.toBytes.getD [])) 0 _ = _
    rw [hbytes, Option.getD_some]
    exact Memory.read_write _ 0 _

end DispatchTable

end Relocade.Dispatch
