import Relocade.Dispatch.Table

/-!
# `Dispatch.Hooks` — host services behind generated entries

A batch of hooks is compiled to a module: every host handler gets a service id, and an entry that asks for it. The
handlers are installed after the entries, and an address that is overwritten releases its handler but keeps its id.
-/

namespace Relocade.Dispatch

open List (mem_cons_self not_mem_nil map_cons mem_cons_of_mem)

/-! ## Batches by address -/

section Collecting

variable {α : Type}

/-- Collects pairs by address in ascending order. -/
def collect (pairs : List (BitVec 32 × α)) : List (BitVec 32 × α) :=
  (pairs.foldl (fun (held : Std.TreeMap (BitVec 32) α) pair => held.insert pair.1 pair.2) ∅).toList

/-- The last pair of an address. -/
def lastOf (pairs : List (BitVec 32 × α)) (address : BitVec 32) : Option α :=
  (pairs.reverse.find? fun pair => pair.1 = address).map Prod.snd

theorem nodup_collect (pairs : List (BitVec 32 × α)) : ((collect pairs).map Prod.fst).Nodup := by
  rw [List.Nodup, List.pairwise_map]
  exact Std.TreeMap.distinct_keys_toList.imp fun hne heq => hne (by rw [heq]; exact Std.ReflCmp.compare_self)

theorem mem_collect {pairs : List (BitVec 32 × α)} {addr : BitVec 32} {value : α} :
    (addr, value) ∈ collect pairs ↔ lastOf pairs addr = some value := by
  have hget : ∀ pairs : List (BitVec 32 × α),
      (pairs.foldl (fun (held : Std.TreeMap (BitVec 32) α) pair => held.insert pair.1 pair.2) ∅)[addr]? =
        lastOf pairs addr := by
    intro pairs
    induction pairs using List.reverseRecOn with
    | nil => rfl
    | append_singleton pairs pair ih =>
      rw [List.foldl_append, List.foldl_cons, List.foldl_nil, Std.TreeMap.getElem?_insert, ih, lastOf, lastOf,
        List.reverse_append, List.reverse_singleton, List.singleton_append, List.find?_cons]
      by_cases heq : pair.1 = addr
      · simp [heq]
      · simp [heq]
  rw [collect, Std.TreeMap.mem_toList_iff_getElem?_eq_some, hget]

theorem length_collect (pairs : List (BitVec 32 × α)) : (collect pairs).length ≤ pairs.length := by
  rw [collect, Std.TreeMap.length_toList]
  induction pairs using List.reverseRecOn with
  | nil => exact Nat.le_refl _
  | append_singleton pairs pair ih =>
    rw [List.foldl_append, List.foldl_cons, List.foldl_nil, List.length_append, List.length_singleton]
    exact Nat.le_trans Std.TreeMap.size_insert_le (Nat.succ_le_succ ih)

/-- An address is collected if it has a pair. -/
theorem mem_addresses_collect {pairs : List (BitVec 32 × α)} {addr : BitVec 32} :
    addr ∈ (collect pairs).map Prod.fst ↔ (lastOf pairs addr).isSome := by
  rw [List.mem_map, Option.isSome_iff_exists]
  constructor
  · rintro ⟨⟨other, value⟩, hmem, rfl⟩
    exact ⟨value, mem_collect.mp hmem⟩
  · rintro ⟨value, hval⟩
    exact ⟨(addr, value), mem_collect.mpr hval, rfl⟩

end Collecting

/-! ## Hooks -/

variable {F H : Type}

/-- What a hook does: a host handler, or a block builder with what it returns. -/
inductive Implementation (F H : Type) where
  | host (handler : H)
  | block (build : Option F)

/-- A handler that waits for its entry. -/
structure PreparedHandler (H : Type) where
  address : BitVec 32
  id : BitVec 32
  handler : H

/-- A generated module, its exports by address, and the captured handlers. -/
structure HookModule (F H : Type) where
  functions : List (String × Callable F)
  exports : List DispatchEntry
  handlers : List (PreparedHandler H)

/-- Service ids by address, and the handlers by id. -/
structure Hooks (H : Type) where
  ids : BitVec 32 → Option (BitVec 32)
  handlers : List (Option H)

def entryName (index : Nat) : String := "entry_" ++ toString index

/-- The export of a name. -/
def HookModule.function (module : HookModule F H) (name : String) : Option (Callable F) := module.functions.lookup name

namespace Hooks

def default : Hooks H := ⟨fun _ => none, []⟩

/-- The handler of a service id; `none` is a panic. -/
def handler (hooks : Hooks H) (id : BitVec 32) : Option H := (hooks.handlers[id.toNat]?).bind fun handler => handler

/-- The id of an address: its own, or the next one. -/
def idOf (hooks : Hooks H) (nextId : Nat) (address : BitVec 32) : Option (BitVec 32 × Nat) :=
  match hooks.ids address with
  | some id => some (id, nextId)
  | none => if nextId < 2 ^ 32 then some (BitVec.ofNat 32 nextId, nextId + 1) else none

/-- The entries of a batch from an index on. -/
def compileFrom (hooks : Hooks H) (index nextId : Nat) :
    List (BitVec 32 × Implementation F H) → Attempt (HookModule F H)
  | [] => .done ⟨[], [], []⟩
  | (address, .host handler) :: batch => do
      let (id, nextId) ← Attempt.expect (hooks.idOf nextId address)
      let rest ← compileFrom hooks (index + 1) nextId batch
      return ⟨(entryName index, .host id) :: rest.functions, ⟨address, entryName index⟩ :: rest.exports,
        ⟨address, id, handler⟩ :: rest.handlers⟩
  | (address, .block build) :: batch => do
      let function ← Attempt.orFail .module build
      let rest ← compileFrom hooks (index + 1) nextId batch
      return ⟨(entryName index, .code function) :: rest.functions, ⟨address, entryName index⟩ :: rest.exports,
        rest.handlers⟩

/-- The last hook at an address wins, before any block builders run. -/
def compile (hooks : Hooks H) (batch : List (BitVec 32 × Implementation F H)) : Attempt (HookModule F H) :=
  compileFrom hooks 0 hooks.handlers.length (collect batch)

/-- Installs one prepared handler, with room for its id. -/
def installOne (hooks : Hooks H) (prepared : PreparedHandler H) : Hooks H where
  ids := Function.update hooks.ids prepared.address (some prepared.id)
  handlers := (hooks.handlers ++ List.replicate (prepared.id.toNat + 1 - hooks.handlers.length) none).set
    prepared.id.toNat (some prepared.handler)

/-- Installs prepared handlers after their entries are installed. -/
def install (hooks : Hooks H) (prepared : List (PreparedHandler H)) : Hooks H := prepared.foldl installOne hooks

/-- Releases the handler of an address, which keeps its id. -/
def removeOne (hooks : Hooks H) (address : BitVec 32) : Hooks H :=
  match hooks.ids address with
  | some id => { hooks with handlers := hooks.handlers.set id.toNat none }
  | none => hooks

/-- Releases overwritten handlers, retaining their ids for reinstallation. -/
def remove (hooks : Hooks H) (addresses : List (BitVec 32)) : Hooks H := addresses.foldl removeOne hooks

end Hooks

theorem entryName_injective {i j : Nat} (h : entryName i = entryName j) : i = j := by
  have hrepr : (Nat.repr i).toList = (Nat.repr j).toList := congrArg String.toList ((String.append_right_inj _).mp h)
  rw [Nat.toList_repr, Nat.toList_repr] at hrepr
  rw [← Nat.ofDigitChars_ten_toDigits (n := i), hrepr, Nat.ofDigitChars_ten_toDigits]

/-! ## Compiling a batch -/

namespace Hooks

variable {hooks : Hooks H}

/-- Ids are in range of the handlers, and no two addresses share one. -/
structure Sound (hooks : Hooks H) : Prop where
  bounds : ∀ address id : BitVec 32, hooks.ids address = some id → id.toNat < hooks.handlers.length
  distinct : ∀ address other id : BitVec 32, hooks.ids address = some id → hooks.ids other = some id → address = other
  complete : ∀ i < hooks.handlers.length, ∃ address id, hooks.ids address = some id ∧ id.toNat = i

theorem default_sound : (default : Hooks H).Sound :=
  ⟨fun _ _ h => (by cases h), fun _ _ _ h => (by cases h), fun _ h => absurd h (Nat.not_lt_zero _)⟩

/-- An id of a prepared handler: the one its address has, or a new one from `nextId` on. -/
def Assigned (hooks : Hooks H) (nextId : Nat) (address id : BitVec 32) : Prop :=
  hooks.ids address = some id ∨ hooks.ids address = none ∧ nextId ≤ id.toNat

/-- A batch is compiled to a module: an entry for every address, and a handler for every host entry. -/
structure Compiles (hooks : Hooks H) (nextId : Nat) (batch : List (BitVec 32 × Implementation F H))
    (module : HookModule F H) : Prop where
  addresses : module.exports.map DispatchEntry.address = batch.map Prod.fst
  host : ∀ address handler, (address, .host handler) ∈ batch → ∃ id name, ⟨address, name⟩ ∈ module.exports ∧
    module.function name = some (.host id) ∧ ⟨address, id, handler⟩ ∈ module.handlers
  block : ∀ address build, (address, .block build) ∈ batch → ∃ function name, build = some function ∧
    ⟨address, name⟩ ∈ module.exports ∧ module.function name = some (.code function)
  handlers : ∀ prepared ∈ module.handlers, (prepared.address, .host prepared.handler) ∈ batch ∧
    hooks.Assigned nextId prepared.address prepared.id
  nodup : (module.handlers.map PreparedHandler.id).Nodup
  distinct : (module.handlers.map PreparedHandler.address).Nodup
  complete : ∃ next, nextId ≤ next ∧ (∀ prepared ∈ module.handlers, prepared.id.toNat < next) ∧
    ∀ i, nextId ≤ i → i < next → ∃ prepared ∈ module.handlers, prepared.id.toNat = i

theorem idOf_spec (hsound : hooks.Sound) {nextId next : Nat} (hlen : hooks.handlers.length ≤ nextId)
    {addr id : BitVec 32} (h : hooks.idOf nextId addr = some (id, next)) :
    nextId ≤ next ∧ hooks.Assigned nextId addr id ∧ id.toNat < next ∧ ∀ i, nextId ≤ i → i < next → id.toNat = i := by
  rw [idOf] at h
  split at h
  · next held hheld =>
      obtain ⟨rfl, rfl⟩ := Prod.mk.inj (Option.some.inj h)
      exact ⟨Nat.le_refl _, Or.inl hheld, Nat.lt_of_lt_of_le (hsound.bounds addr held hheld) hlen,
        fun i hle hlt => absurd hlt (Nat.not_lt.mpr hle)⟩
  · next hfresh =>
      split at h
      · next hroom =>
          obtain ⟨rfl, rfl⟩ := Prod.mk.inj (Option.some.inj h)
          have hid : (BitVec.ofNat 32 nextId).toNat = nextId := by
            rw [BitVec.toNat_ofNat, Nat.mod_eq_of_lt hroom]
          exact ⟨Nat.le_succ _, Or.inr ⟨hfresh, hid.ge⟩, by omega, fun i hle hlt => by omega⟩
      · cases h

/-- A function of an earlier name does not hide the later ones. -/
theorem function_of_later {index : Nat} {functions : List (String × Callable F)} {first : Callable F}
    (hnames : ∀ func ∈ functions, ∃ i, index + 1 ≤ i ∧ func.1 = entryName i) {name : String}
    {func : Callable F} (h : functions.lookup name = some func) :
    ((entryName index, first) :: functions).lookup name = some func := by
  obtain ⟨before, after, hsplit, -⟩ := List.lookup_eq_some_iff.mp h
  have hmem : (name, func) ∈ functions := by
    rw [hsplit]
    exact List.mem_append_right _ mem_cons_self
  obtain ⟨i, hi, hname⟩ := hnames _ hmem
  have hname : name = entryName i := hname
  have hne : (name == entryName index) = false := by
    rw [beq_eq_false_iff_ne, hname]
    intro heq
    have := entryName_injective heq
    omega
  rw [List.lookup_cons, hne]
  exact h

variable {batch : List (BitVec 32 × Implementation F H)}

variable {module : HookModule F H}

/-- The ids of a batch are assigned in turn, and under names of their indices. -/
theorem compileFrom_spec (hsound : hooks.Sound) {index nextId : Nat}
    (hlen : hooks.handlers.length ≤ nextId) (hnodup : (batch.map Prod.fst).Nodup)
    (h : hooks.compileFrom index nextId batch = .done module) :
    hooks.Compiles nextId batch module ∧ ∀ function ∈ module.functions, ∃ i, index ≤ i ∧ function.1 = entryName i := by
  induction batch generalizing index nextId module with
  | nil =>
    cases h
    exact ⟨⟨rfl, fun _ _ h => absurd h not_mem_nil, fun _ _ h => absurd h not_mem_nil,
      fun _ h => absurd h not_mem_nil, List.nodup_nil, List.nodup_nil, nextId, Nat.le_refl _,
      fun _ h => absurd h not_mem_nil, fun i hle hlt => absurd hlt (Nat.not_lt.mpr hle)⟩,
      fun _ h => absurd h not_mem_nil⟩
  | cons first batch ih =>
    obtain ⟨address, implementation⟩ := first
    rw [map_cons, List.nodup_cons] at hnodup
    cases implementation with
    | host handler =>
      rw [compileFrom] at h
      obtain ⟨⟨id, next⟩, hid, h⟩ := Attempt.bind_eq_done h
      obtain ⟨rest, hrest, h⟩ := Attempt.bind_eq_done h
      cases h
      obtain ⟨hnext, hassigned, hlt, hnew⟩ := idOf_spec hsound hlen (Attempt.expect_eq_done hid)
      obtain ⟨hall, hnames⟩ := ih (Nat.le_trans hlen hnext) hnodup.2 hrest
      refine ⟨⟨congrArg (address :: ·) hall.addresses, fun other held hmem => ?_, fun other build hmem => ?_,
        fun p hmem => ?_, List.nodup_cons.mpr ⟨fun hmem => ?_, hall.nodup⟩,
        List.nodup_cons.mpr ⟨fun hmem => ?_, hall.distinct⟩, ?_⟩, ?_⟩
      · rcases List.mem_cons.mp hmem with heq | hmem
        · cases heq
          exact ⟨id, entryName index, mem_cons_self, List.lookup_cons_self, mem_cons_self⟩
        · obtain ⟨id, name, hexport, hfun, hhandler⟩ := hall.host other held hmem
          exact ⟨id, name, mem_cons_of_mem _ hexport, function_of_later hnames hfun,
            mem_cons_of_mem _ hhandler⟩
      · rcases List.mem_cons.mp hmem with heq | hmem
        · cases heq
        · obtain ⟨function, name, hbuild, hexport, hfun⟩ := hall.block other build hmem
          exact ⟨function, name, hbuild, mem_cons_of_mem _ hexport, function_of_later hnames hfun⟩
      · rcases List.mem_cons.mp hmem with rfl | hmem
        · exact ⟨mem_cons_self, hassigned⟩
        · obtain ⟨hbatch, hids⟩ := hall.handlers p hmem
          exact ⟨mem_cons_of_mem _ hbatch, hids.imp_right fun h => ⟨h.1, Nat.le_trans hnext h.2⟩⟩
      · -- An id of a later address is that address's own, or is not handed out yet.
        obtain ⟨p, hprep, hsame⟩ := List.mem_map.mp hmem
        obtain ⟨hbatch, hids⟩ := hall.handlers p hprep
        have hsame : p.id = id := hsame
        have hlater : p.address ∈ batch.map Prod.fst := List.mem_map.mpr ⟨_, hbatch, rfl⟩
        rw [hsame] at hids
        rcases hids with hheld | ⟨-, hle⟩
        · rcases hassigned with hown | ⟨-, hle⟩
          · exact hnodup.1 (hsound.distinct _ _ _ hown hheld ▸ hlater)
          · have := hsound.bounds _ _ hheld
            omega
        · omega
      · obtain ⟨p, hprep, hsame⟩ := List.mem_map.mp hmem
        exact hnodup.1 (List.mem_map.mpr ⟨_, (hall.handlers p hprep).1, hsame⟩)
      · obtain ⟨last, hle, hids, hcover⟩ := hall.complete
        refine ⟨last, Nat.le_trans hnext hle, fun p hmem => ?_, fun i hlo hhi => ?_⟩
        · rcases List.mem_cons.mp hmem with rfl | hmem
          · exact Nat.lt_of_lt_of_le hlt hle
          · exact hids p hmem
        · rcases Nat.lt_or_ge i next with hi | hi
          · exact ⟨_, mem_cons_self, hnew i hlo hi⟩
          · obtain ⟨p, hmem, heq⟩ := hcover i hi hhi
            exact ⟨p, mem_cons_of_mem _ hmem, heq⟩
      · intro function hmem
        rcases List.mem_cons.mp hmem with rfl | hmem
        · exact ⟨index, Nat.le_refl _, rfl⟩
        · obtain ⟨i, hi, hname⟩ := hnames function hmem
          exact ⟨i, Nat.le_of_succ_le hi, hname⟩
    | block build =>
      rw [compileFrom] at h
      obtain ⟨function, hfun, h⟩ := Attempt.bind_eq_done h
      obtain ⟨rest, hrest, h⟩ := Attempt.bind_eq_done h
      cases h
      obtain ⟨hall, hnames⟩ := ih hlen hnodup.2 hrest
      refine ⟨⟨congrArg (address :: ·) hall.addresses, fun other held hmem => ?_, fun other build hmem => ?_,
        fun p hmem => ?_, hall.nodup, hall.distinct, hall.complete⟩, ?_⟩
      · rcases List.mem_cons.mp hmem with heq | hmem
        · cases heq
        · obtain ⟨id, name, hexport, hlookup, hhandler⟩ := hall.host other held hmem
          exact ⟨id, name, mem_cons_of_mem _ hexport, function_of_later hnames hlookup, hhandler⟩
      · rcases List.mem_cons.mp hmem with heq | hmem
        · cases heq
          exact ⟨function, entryName index, Attempt.orFail_eq_done hfun, mem_cons_self, List.lookup_cons_self⟩
        · obtain ⟨function, name, hbuild, hexport, hlookup⟩ := hall.block other build hmem
          exact ⟨function, name, hbuild, mem_cons_of_mem _ hexport, function_of_later hnames hlookup⟩
      · obtain ⟨hbatch, hids⟩ := hall.handlers p hmem
        exact ⟨mem_cons_of_mem _ hbatch, hids⟩
      · intro function hmem
        rcases List.mem_cons.mp hmem with rfl | hmem
        · exact ⟨index, Nat.le_refl _, rfl⟩
        · obtain ⟨i, hi, hname⟩ := hnames function hmem
          exact ⟨i, Nat.le_of_succ_le hi, hname⟩

theorem compile_spec (hsound : hooks.Sound)
    (h : hooks.compile batch = .done module) :
    hooks.Compiles hooks.handlers.length (collect batch) module :=
  (compileFrom_spec hsound (Nat.le_refl _) (nodup_collect batch) h).1

/-- Compiling does not panic while every entry may get an id. -/
theorem compileFrom_total (hooks : Hooks H) (batch : List (BitVec 32 × Implementation F H)) {index nextId : Nat}
    (hroom : nextId + batch.length ≤ 2 ^ 32) : hooks.compileFrom index nextId batch ≠ .panicked := by
  induction batch generalizing index nextId with
  | nil => exact fun h => by cases h
  | cons first batch ih =>
    obtain ⟨address, implementation⟩ := first
    rw [List.length_cons] at hroom
    cases implementation with
    | host handler =>
      obtain ⟨id, next, hid, hnext⟩ : ∃ id next, hooks.idOf nextId address = some (id, next) ∧
          next ≤ nextId + 1 := by
        rw [idOf]
        cases hooks.ids address with
        | some id => exact ⟨id, nextId, rfl, Nat.le_succ _⟩
        | none => exact ⟨_, _, if_pos (by omega), Nat.le_refl _⟩
      have hrest := @ih (index + 1) next (by omega)
      rw [compileFrom, hid]
      show (hooks.compileFrom (index + 1) next batch >>= _) ≠ _
      cases hcompile : hooks.compileFrom (index + 1) next batch with
      | done rest => exact fun h => by cases h
      | failed failure => exact fun h => by cases h
      | panicked => exact absurd hcompile hrest
    | block build =>
      have hrest := @ih (index + 1) nextId (by omega)
      rw [compileFrom]
      cases build with
      | none => exact fun h => by cases h
      | some function =>
        show (hooks.compileFrom (index + 1) nextId batch >>= _) ≠ _
        cases hcompile : hooks.compileFrom (index + 1) nextId batch with
        | done rest => exact fun h => by cases h
        | failed failure => exact fun h => by cases h
        | panicked => exact absurd hcompile hrest

/-! ## Installing the handlers -/

/-- The handlers after one is installed. -/
theorem handler_installOne (hooks : Hooks H) (p : PreparedHandler H) (id : BitVec 32) :
    (hooks.installOne p).handler id = if id = p.id then some p.handler else hooks.handler id := by
  rw [handler, installOne, handler]
  split
  · next heq =>
      rw [heq, List.getElem?_set_self (by rw [List.length_append, List.length_replicate]; omega)]
      rfl
  · next hne =>
      rw [List.getElem?_set_ne fun heq => hne (BitVec.eq_of_toNat_eq heq).symm, List.getElem?_append]
      split
      · rfl
      · next hlt =>
          rw [List.getElem?_eq_none (Nat.not_lt.mp hlt), List.getElem?_replicate]
          split <;> rfl

theorem length_installOne (hooks : Hooks H) (p : PreparedHandler H) :
    (hooks.installOne p).handlers.length = max hooks.handlers.length (p.id.toNat + 1) := by
  rw [installOne, List.length_set, List.length_append, List.length_replicate]
  omega

/-- The ids and the handlers after a list of handlers is installed. -/
theorem install_spec {p : List (PreparedHandler H)} (hids : (p.map PreparedHandler.id).Nodup)
    (haddrs : (p.map PreparedHandler.address).Nodup) :
    (∀ one ∈ p, (hooks.install p).ids one.address = some one.id ∧
      (hooks.install p).handler one.id = some one.handler ∧
      one.id.toNat < (hooks.install p).handlers.length) ∧
    (∀ address, address ∉ p.map PreparedHandler.address →
      (hooks.install p).ids address = hooks.ids address) ∧
    (∀ id, id ∉ p.map PreparedHandler.id → (hooks.install p).handler id = hooks.handler id) ∧
    hooks.handlers.length ≤ (hooks.install p).handlers.length ∧
    ∀ bound, hooks.handlers.length ≤ bound → (∀ one ∈ p, one.id.toNat < bound) →
      (hooks.install p).handlers.length ≤ bound := by
  induction p generalizing hooks with
  | nil =>
    exact ⟨fun _ h => absurd h not_mem_nil, fun _ _ => rfl, fun _ _ => rfl, Nat.le_refl _, fun _ h _ => h⟩
  | cons first p ih =>
    rw [map_cons, List.nodup_cons] at hids haddrs
    obtain ⟨hrest, hkept, hheld, hlen, hbound⟩ := @ih (hooks.installOne first) hids.2 haddrs.2
    have hstep : hooks.install (first :: p) = (hooks.installOne first).install p := rfl
    have hone := length_installOne hooks first
    rw [hstep]
    refine ⟨fun one hmem => ?_, fun address hmem => ?_, fun id hmem => ?_,
      Nat.le_trans (by omega) hlen, fun bound hle hall => ?_⟩
    · rcases List.mem_cons.mp hmem with rfl | hmem
      · refine ⟨?_, ?_, Nat.lt_of_lt_of_le (by omega) hlen⟩
        · rw [hkept _ haddrs.1]
          exact Function.update_self ..
        · rw [hheld _ hids.1, handler_installOne, if_pos rfl]
      · exact hrest one hmem
    · rw [map_cons, List.mem_cons, not_or] at hmem
      rw [hkept address hmem.2]
      exact Function.update_of_ne hmem.1 ..
    · rw [map_cons, List.mem_cons, not_or] at hmem
      rw [hheld id hmem.2, handler_installOne, if_neg hmem.1]
    · have hfst := hall first mem_cons_self
      exact hbound bound (by omega) fun one hmem => hall one (mem_cons_of_mem _ hmem)

theorem removeOne_spec (hooks : Hooks H) (addr : BitVec 32) :
    (hooks.removeOne addr).ids = hooks.ids ∧
      (hooks.removeOne addr).handlers.length = hooks.handlers.length ∧
      ∀ id, (hooks.removeOne addr).handler id = if hooks.ids addr = some id then none else hooks.handler id := by
  rw [removeOne]
  split
  · next held hheld =>
      refine ⟨rfl, List.length_set, fun id => ?_⟩
      rw [handler, handler]
      by_cases heq : held = id
      · rw [if_pos (heq ▸ hheld), heq, List.getElem?_set]
        split
        · split <;> rfl
        · next hne => exact absurd rfl hne
      · rw [if_neg fun h => heq (Option.some.inj (hheld.symm.trans h)),
          List.getElem?_set_ne fun h => heq (BitVec.eq_of_toNat_eq h)]
  · next hnone =>
      refine ⟨rfl, rfl, fun id => ?_⟩
      rw [if_neg (by rw [hnone]; exact nofun)]

/-- What releasing the handlers of a list of addresses does. -/
theorem remove_spec (hooks : Hooks H) (addrs : List (BitVec 32)) :
    (hooks.remove addrs).ids = hooks.ids ∧
      (hooks.remove addrs).handlers.length = hooks.handlers.length ∧
      ∀ id, (hooks.remove addrs).handler id =
        if ∃ address ∈ addrs, hooks.ids address = some id then none else hooks.handler id := by
  induction addrs generalizing hooks with
  | nil =>
    refine ⟨rfl, rfl, fun id => ?_⟩
    rw [if_neg (by rintro ⟨_, hmem, -⟩; exact absurd hmem not_mem_nil)]
    rfl
  | cons address addrs ih =>
    obtain ⟨hids, hlen, hheld⟩ := removeOne_spec hooks address
    obtain ⟨hids', hlen', hheld'⟩ := ih (hooks.removeOne address)
    have hstep : hooks.remove (address :: addrs) = (hooks.removeOne address).remove addrs := rfl
    rw [hstep]
    refine ⟨hids'.trans hids, hlen'.trans hlen, fun id => ?_⟩
    rw [hheld', hheld, hids]
    by_cases hfst : hooks.ids address = some id
    · have hmem : ∃ other ∈ address :: addrs, hooks.ids other = some id := ⟨address, mem_cons_self, hfst⟩
      rw [if_pos hfst, if_pos hmem, ite_self]
    · rw [if_neg hfst]
      refine if_congr ?_ rfl rfl
      simp [hfst]

/-- What a batch leaves of the ids and handlers once it is installed. -/
structure Settled (hooks : Hooks H) (batch : List (BitVec 32 × Implementation F H)) (module : HookModule F H)
    (after : Hooks H) : Prop where
  sound : after.Sound
  host : ∀ prepared ∈ module.handlers, after.ids prepared.address = some prepared.id ∧
    after.handler prepared.id = some prepared.handler
  block : ∀ address build, (address, .block build) ∈ batch → after.ids address = hooks.ids address ∧
    ∀ id, hooks.ids address = some id → after.handler id = none
  frame : ∀ address, address ∉ batch.map Prod.fst → after.ids address = hooks.ids address ∧
    ∀ id, hooks.ids address = some id → after.handler id = hooks.handler id

/-- An id of a prepared handler belongs to no other address. -/
theorem Compiles.own (hsound : hooks.Sound)
    (hmodule : hooks.Compiles hooks.handlers.length batch module) {p : PreparedHandler H}
    (hprep : p ∈ module.handlers) {addr : BitVec 32} (h : hooks.ids addr = some p.id) :
    addr = p.address := by
  rcases (hmodule.handlers p hprep).2 with hheld | ⟨-, hfresh⟩
  · exact hsound.distinct _ _ _ h hheld
  · exact absurd (hsound.bounds _ _ h) (Nat.not_lt.mpr hfresh)

/-- Overwritten handlers are released, then the handlers of the batch are installed. -/
theorem settle (hsound : hooks.Sound)
    (hnodup : (batch.map Prod.fst).Nodup)
    (hmodule : hooks.Compiles hooks.handlers.length batch module) {addrs : List (BitVec 32)}
    (haddrs : ∀ address, address ∈ addrs ↔ address ∈ batch.map Prod.fst) :
    Settled hooks batch module ((hooks.remove addrs).install module.handlers) := by
  obtain ⟨hids, hlen, hreleased⟩ := remove_spec hooks addrs
  obtain ⟨hinst, hkept, hheld, hgrown, hbound⟩ := @install_spec H (hooks.remove addrs) _ hmodule.nodup
    hmodule.distinct
  rw [hids] at hkept
  rw [hlen] at hgrown hbound
  have hother : ∀ address, (∀ handler, (address, .host handler) ∉ batch) →
      address ∉ module.handlers.map PreparedHandler.address ∧
        ∀ id, hooks.ids address = some id → id ∉ module.handlers.map PreparedHandler.id := by
    intro address hhost
    refine ⟨fun hmem => ?_, fun id hid hmem => ?_⟩
    · obtain ⟨p, hprep, rfl⟩ := List.mem_map.mp hmem
      exact hhost _ (hmodule.handlers p hprep).1
    · obtain ⟨p, hprep, rfl⟩ := List.mem_map.mp hmem
      have heq := hmodule.own hsound hprep hid
      exact hhost _ (heq ▸ (hmodule.handlers p hprep).1)
  have hone : ∀ p ∈ module.handlers, ∀ other,
      ((hooks.remove addrs).install module.handlers).ids other = some p.id → other = p.address := by
    intro p hprep other h
    by_cases hmem : other ∈ module.handlers.map PreparedHandler.address
    · obtain ⟨second, hsnd, rfl⟩ := List.mem_map.mp hmem
      have hid := Option.some.inj ((hinst second hsnd).1.symm.trans h)
      rw [List.inj_on_of_nodup_map hmodule.nodup hsnd hprep hid]
    · rw [hkept other hmem] at h
      exact hmodule.own hsound hprep h
  refine ⟨⟨fun address id h => ?_, fun a b id ha hb => ?_, fun i hi => ?_⟩, fun p hprep => ?_,
    fun address build hmem => ?_, fun address hmem => ?_⟩
  · by_cases hmem : address ∈ module.handlers.map PreparedHandler.address
    · obtain ⟨p, hprep, rfl⟩ := List.mem_map.mp hmem
      obtain ⟨hid, -, hbound⟩ := hinst p hprep
      obtain rfl := Option.some.inj (hid.symm.trans h)
      exact hbound
    · rw [hkept address hmem] at h
      exact Nat.lt_of_lt_of_le (hsound.bounds address id h) hgrown
  · by_cases hmema : a ∈ module.handlers.map PreparedHandler.address
    · obtain ⟨p, hprep, rfl⟩ := List.mem_map.mp hmema
      obtain rfl := Option.some.inj ((hinst p hprep).1.symm.trans ha)
      exact (hone p hprep b hb).symm
    · by_cases hmemb : b ∈ module.handlers.map PreparedHandler.address
      · obtain ⟨p, hprep, rfl⟩ := List.mem_map.mp hmemb
        obtain rfl := Option.some.inj ((hinst p hprep).1.symm.trans hb)
        exact hone p hprep a ha
      · rw [hkept a hmema] at ha
        rw [hkept b hmemb] at hb
        exact hsound.distinct a b id ha hb
  · -- An old id stays with its address; a new one is a p handler's.
    rcases Nat.lt_or_ge i hooks.handlers.length with hold | hnew
    · obtain ⟨address, id, hid, heq⟩ := hsound.complete i hold
      by_cases hmem : address ∈ module.handlers.map PreparedHandler.address
      · obtain ⟨p, hprep, rfl⟩ := List.mem_map.mp hmem
        rcases (hmodule.handlers p hprep).2 with hsame | ⟨hnone, -⟩
        · obtain rfl := Option.some.inj (hsame.symm.trans hid)
          exact ⟨_, _, (hinst p hprep).1, heq⟩
        · rw [hnone] at hid
          cases hid
      · exact ⟨address, id, (hkept address hmem).trans hid, heq⟩
    · obtain ⟨last, hle, hlast, hcover⟩ := hmodule.complete
      obtain ⟨p, hprep, heq⟩ := hcover i hnew (Nat.lt_of_lt_of_le hi (hbound last hle hlast))
      exact ⟨_, _, (hinst p hprep).1, heq⟩
  · exact ⟨(hinst p hprep).1, (hinst p hprep).2.1⟩
  · have hhost : ∀ handler, (address, .host handler) ∉ batch := by
      intro handler hhandler
      cases List.inj_on_of_nodup_map hnodup hmem hhandler rfl
    obtain ⟨haddr, hid⟩ := hother address hhost
    refine ⟨hkept address haddr, fun id h => ?_⟩
    rw [hheld id (hid id h), hreleased, if_pos ⟨address, (haddrs address).mpr (List.mem_map_of_mem hmem), h⟩]
  · have hhost : ∀ handler, (address, .host handler) ∉ batch := fun handler hhandler =>
      hmem (List.mem_map_of_mem hhandler)
    obtain ⟨haddr, hid⟩ := hother address hhost
    refine ⟨hkept address haddr, fun id h => ?_⟩
    rw [hheld id (hid id h), hreleased, if_neg]
    rintro ⟨other, hother, hsame⟩
    exact hmem ((haddrs address).mp (hsound.distinct _ _ _ h hsame ▸ hother))

end Hooks

end Relocade.Dispatch
