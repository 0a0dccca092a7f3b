import Mathlib.Order.Interval.Finset.Nat
import Mathlib.Tactic.Choose
import Relocade.Dispatch.Hooks

/-!
# `Dispatch.Batches` — installing hooks and modules

A batch of hooks or of module entries is installed in the dispatch table, and the handlers follow it. Addresses may be
installed again, as host services or as module functions, and a batch may be refused on its way.
-/

namespace Relocade.Dispatch

variable {F H : Type}

/-- A batch to install, with what the engine makes of it: whether the module links, its exports, and which growth is
granted. -/
inductive Batch (F H : Type) where
  | install (hooks : List (BitVec 32 × Implementation F H)) (links : Bool) (grants : Grants)
  | installModule (exports : Option (String → Option F)) (entries : List DispatchEntry) (grants : Grants)

/-- The dispatch table, and the hooks behind its entries. -/
structure Dispatcher (F H : Type) where
  table : DispatchTable F
  hooks : Hooks H

/-- What a batch leaves, and what generated code saw meanwhile. -/
structure Outcome (F H : Type) where
  failure : Option Failure
  after : Dispatcher F H
  seen : List (Linked F)

/-- The address and the export name of an entry. -/
def DispatchEntry.pair (entry : DispatchEntry) : BitVec 32 × String := (entry.address, entry.exportName)

/-- The entries of a module: the last one at an address wins. -/
def collectEntries (entries : List DispatchEntry) : List DispatchEntry :=
  (collect (entries.map DispatchEntry.pair)).map fun pair => ⟨pair.1, pair.2⟩

namespace Dispatcher

def initial : Dispatcher F H := ⟨DispatchTable.initial, Hooks.default⟩

/-- Installs the entries of a module; `none` for the exports when it is not linked. -/
def installModule (dispatch : Dispatcher F H) (grants : Grants) (exports : Option (String → Option (Callable F)))
    (entries : List DispatchEntry) : Option (Outcome F H) :=
  match exports with
  | none => some ⟨some .module, dispatch, []⟩
  | some exports =>
      (dispatch.table.install grants exports (collectEntries entries)).map fun installed =>
        match installed.failure with
        | some failure => ⟨some failure, ⟨installed.table, dispatch.hooks⟩, installed.seen⟩
        | none =>
            let addresses := (collectEntries entries).map DispatchEntry.address
            ⟨none, ⟨installed.table, dispatch.hooks.remove addresses⟩, installed.seen⟩

/-- Installs hooks: their module first, and then their handlers. -/
def install (dispatch : Dispatcher F H) (grants : Grants) (links : Bool)
    (hooks : List (BitVec 32 × Implementation F H)) : Option (Outcome F H) :=
  match dispatch.hooks.compile hooks with
  | .panicked => none
  | .failed failure => some ⟨some failure, dispatch, []⟩
  | .done module =>
      (dispatch.installModule grants (if links then some module.function else none) module.exports).map fun outcome =>
        match outcome.failure with
        | some _ => outcome
        | none =>
            let after := outcome.after
            { outcome with after := { after with hooks := after.hooks.install module.handlers } }

/-- One batch; `none` is a panic. -/
def step (dispatch : Dispatcher F H) : Batch F H → Option (Outcome F H)
  | .install hooks links grants => dispatch.install grants links hooks
  | .installModule exports entries grants =>
      dispatch.installModule grants (exports.map fun exports name => (exports name).map .code) entries

/-- A sequence of batches, and those that were installed. -/
def run (batches : List (Batch F H)) : Option (Dispatcher F H × List (Batch F H)) :=
  batches.foldlM (fun (dispatch, installed) batch =>
    (step dispatch batch).map fun outcome =>
      (outcome.after, if outcome.failure = none then installed ++ [batch] else installed)) (initial, [])

end Dispatcher

/-- The number of entries of a batch. -/
def Batch.size : Batch F H → Nat
  | .install hooks _ _ => hooks.length
  | .installModule _ entries _ => entries.length

/-! ## What was installed last -/

/-- What an address leads to. -/
inductive Target (F H : Type) where
  | host (handler : H)
  | code (function : F)
deriving DecidableEq

def Implementation.target : Implementation F H → Option (Target F H)
  | .host handler => some (.host handler)
  | .block build => build.map .code

/-- What a batch installs at an address. -/
def Batch.target (batch : Batch F H) (address : BitVec 32) : Option (Target F H) :=
  match batch with
  | .install hooks _ _ => (lastOf hooks address).bind Implementation.target
  | .installModule exports entries _ =>
      exports.bind fun exports =>
        (lastOf (entries.map DispatchEntry.pair) address).bind fun name => (exports name).map .code

/-- What was installed last at an address. -/
def latest (installed : List (Batch F H)) (address : BitVec 32) : Option (Target F H) :=
  installed.foldl (fun held batch => (batch.target address).or held) none

/-! ## Collected entries -/

section Entries

variable {entries : List DispatchEntry} {a : BitVec 32}

theorem nodup_collectEntries (entries : List DispatchEntry) :
    ((collectEntries entries).map DispatchEntry.address).Nodup := by
  rw [collectEntries, List.map_map]
  exact nodup_collect _

theorem mem_collectEntries {name : String} :
    ⟨a, name⟩ ∈ collectEntries entries ↔ lastOf (entries.map DispatchEntry.pair) a = some name := by
  rw [← mem_collect, collectEntries, List.mem_map]
  constructor
  · rintro ⟨⟨_, _⟩, hmem, heq⟩
    cases heq
    exact hmem
  · intro hmem
    exact ⟨_, hmem, rfl⟩

theorem mem_addresses_collectEntries :
    a ∈ (collectEntries entries).map DispatchEntry.address ↔
      (lastOf (entries.map DispatchEntry.pair) a).isSome := by
  rw [← mem_addresses_collect, collectEntries, List.map_map]
  exact Iff.rfl

theorem lastOf_isSome {α : Type} {pairs : List (BitVec 32 × α)} :
    (lastOf pairs a).isSome ↔ a ∈ pairs.map Prod.fst := by
  rw [lastOf, Option.isSome_map, List.find?_isSome, List.mem_map]
  simp

/-- Of distinct addresses, the last pair is the only one. -/
theorem lastOf_of_nodup {α : Type} {pairs : List (BitVec 32 × α)} (hnodup : (pairs.map Prod.fst).Nodup) {value : α} :
    lastOf pairs a = some value ↔ (a, value) ∈ pairs := by
  rw [lastOf, Option.map_eq_some_iff]
  constructor
  · rintro ⟨pair, hfind, rfl⟩
    have hmem := List.mem_of_find?_eq_some hfind
    have heq : pair.1 = a := by simpa using List.find?_some hfind
    exact heq ▸ List.mem_reverse.mp hmem
  · intro hmem
    cases hfind : pairs.reverse.find? (fun pair => pair.1 = a) with
    | none =>
      have := List.find?_eq_none.mp hfind _ (List.mem_reverse.mpr hmem)
      simp at this
    | some pair =>
      refine ⟨pair, rfl, ?_⟩
      have hpair := List.mem_reverse.mp (List.mem_of_find?_eq_some hfind)
      have heq : pair.1 = a := by simpa using List.find?_some hfind
      exact congrArg Prod.snd (List.inj_on_of_nodup_map hnodup hpair hmem heq)

end Entries

/-! ## What a batch does -/

namespace Dispatcher

variable {dispatch d : Dispatcher F H}

structure Sound (dispatch : Dispatcher F H) : Prop where
  table : dispatch.table.Sound
  hooks : dispatch.hooks.Sound

/-- An address leads to its target: its slot asks for the id of the handler, or holds the function. An address without
a handler has released the one it had. -/
def Leads (dispatch : Dispatcher F H) (address : BitVec 32) : Option (Target F H) → Prop
  | none => dispatch.table.addresses.get address = none ∧ dispatch.hooks.ids address = none
  | some (.host handler) => ∃ slot id : BitVec 32, dispatch.table.addresses.get address = some slot ∧
      dispatch.table.linked.functions[slot.toNat]? = some (some (.host id)) ∧
      dispatch.hooks.ids address = some id ∧ dispatch.hooks.handler id = some handler
  | some (.code function) => ∃ slot : BitVec 32, dispatch.table.addresses.get address = some slot ∧
      dispatch.table.linked.functions[slot.toNat]? = some (some (.code function)) ∧
      ∀ id, dispatch.hooks.ids address = some id → dispatch.hooks.handler id = none

/-- What does not change an address. -/
theorem Leads.frame {after : Dispatcher F H} {a : BitVec 32} {target : Option (Target F H)}
    (h : d.Leads a target)
    (haddr : after.table.addresses.get a = d.table.addresses.get a)
    (hfunctions : ∀ slot function, d.table.addresses.get a = some slot →
      d.table.linked.functions[slot.toNat]? = some (some function) →
        after.table.linked.functions[slot.toNat]? = some (some function))
    (hids : after.hooks.ids a = d.hooks.ids a)
    (hhandlers : ∀ id, d.hooks.ids a = some id →
      after.hooks.handler id = d.hooks.handler id) : after.Leads a target := by
  cases target with
  | none => exact ⟨haddr.trans h.1, hids.trans h.2⟩
  | some target =>
    cases target with
    | host handler =>
      obtain ⟨slot, id, hslot, hfun, hid, hhandler⟩ := h
      exact ⟨slot, id, haddr.trans hslot, hfunctions slot _ hslot hfun, hids.trans hid,
        (hhandlers id hid).trans hhandler⟩
    | code function =>
      obtain ⟨slot, hslot, hfun, hreleased⟩ := h
      refine ⟨slot, haddr.trans hslot, hfunctions slot _ hslot hfun, fun id hid => ?_⟩
      rw [hids] at hid
      exact (hhandlers id hid).trans (hreleased id hid)

/-- What a batch may do: lead its addresses to its entries, or change nothing but empty slots. -/
structure Does (dispatch : Dispatcher F H) (target : BitVec 32 → Option (Target F H)) (outcome : Outcome F H) :
    Prop where
  sound : outcome.after.Sound
  seen : ∀ linked ∈ outcome.seen,
    linked.Serves dispatch.table.addresses ∨ linked.Serves outcome.after.table.addresses
  kept : ∀ address slot, dispatch.table.addresses.get address = some slot →
    outcome.after.table.addresses.get address = some slot
  refused : ∀ failure, outcome.failure = some failure → outcome.after.hooks = dispatch.hooks ∧
    dispatch.table.Unchanged outcome.after.table ∧ (failure = .memoryGrowth ∨ outcome.after = dispatch)
  leads : outcome.failure = none → ∀ address held, dispatch.Leads address held →
    outcome.after.Leads address ((target address).or held)

/-- A batch that is refused before its entries are installed changes nothing. -/
theorem Does.refuse (hsound : d.Sound) (target : BitVec 32 → Option (Target F H)) (failure : Failure) :
    d.Does target ⟨some failure, d, []⟩ :=
  ⟨hsound, fun _ h => absurd h List.not_mem_nil, fun _ _ h => h,
    fun _ _ => ⟨rfl, DispatchTable.Unchanged.refl _, Or.inr rfl⟩, fun h => by cases h⟩

variable {entries : List DispatchEntry}

variable {grants : Grants}

/-- What installing the entries of a module does, before any handler is installed. -/
theorem installModule_spec {exports : Option (String → Option (Callable F))}
    {outcome : Outcome F H} (hsound : d.Sound)
    (h : d.installModule grants exports entries = some outcome) :
    (∀ target, outcome.failure ≠ none → d.Does target outcome) ∧
      (outcome.failure = none → outcome.after.table.Sound ∧
        (∀ linked ∈ outcome.seen, linked.Serves d.table.addresses ∨ linked.Serves outcome.after.table.addresses) ∧
        outcome.after.hooks = d.hooks.remove ((collectEntries entries).map DispatchEntry.address) ∧
        ∃ held, exports = some held ∧
          d.table.Installed held (collectEntries entries) outcome.after.table) := by
  cases exports with
  | none =>
    cases h
    exact ⟨fun target _ => Does.refuse hsound target .module, fun h => by cases h⟩
  | some exports =>
    obtain ⟨installed, hinstall, rfl⟩ := Option.map_eq_some_iff.mp h
    obtain ⟨htable, hseen, hrefused, hdone⟩ :=
      DispatchTable.install_spec hsound.table (nodup_collectEntries entries) hinstall
    cases hfail : installed.failure with
    | some failure =>
      obtain ⟨hunchanged, hreason⟩ := hrefused failure hfail
      refine ⟨fun target _ => ⟨⟨htable, hsound.hooks⟩, hseen, fun a slot h => ?_, fun other h => ?_,
        fun h => by cases h⟩, fun h => by cases h⟩
      · exact hunchanged.addresses ▸ h
      · cases h
        refine ⟨rfl, hunchanged, hreason.imp_right fun heq => ?_⟩
        show Dispatcher.mk _ _ = _
        rw [heq]
    | none =>
      exact ⟨fun target h => absurd rfl h, fun _ => ⟨htable, hseen, rfl, exports, rfl, hdone hfail⟩⟩

/-- A batch of module entries. -/
theorem step_installModule {exports : Option (String → Option F)}
    {outcome : Outcome F H} (hsound : d.Sound)
    (h : d.step (.installModule exports entries grants) = some outcome) :
    d.Does (Batch.installModule exports entries grants : Batch F H).target outcome := by
  obtain ⟨hrefused, hdone⟩ := installModule_spec hsound h
  cases hfail : outcome.failure with
  | some failure => exact hrefused _ (by rw [hfail]; exact fun h => by cases h)
  | none =>
    obtain ⟨htable, hseen, hhooks, held, hheld, hinst⟩ := hdone hfail
    obtain ⟨exports, rfl, rfl⟩ := Option.map_eq_some_iff.mp hheld
    obtain ⟨hids, hlen, hreleased⟩ :=
      Hooks.remove_spec d.hooks ((collectEntries entries).map DispatchEntry.address)
    rw [← hhooks] at hids hlen hreleased
    refine ⟨⟨htable, ⟨fun address id h => ?_, fun a b id ha hb => ?_, fun i hi => ?_⟩⟩, hseen, hinst.kept,
      fun failure h => ?_, fun _ address held hleads => ?_⟩
    · rw [hlen]
      exact hsound.hooks.bounds address id (hids ▸ h)
    · rw [hids] at ha hb
      exact hsound.hooks.distinct a b id ha hb
    · rw [hids]
      exact hsound.hooks.complete i (hlen ▸ hi)
    · rw [hfail] at h
      cases h
    · by_cases hmem : address ∈ (collectEntries entries).map DispatchEntry.address
      · obtain ⟨name, hname⟩ := Option.isSome_iff_exists.mp (mem_addresses_collectEntries.mp hmem)
        obtain ⟨slot, function, hslot, hexport, hfun⟩ :=
          hinst.entered ⟨address, name⟩ (mem_collectEntries.mpr hname)
        obtain ⟨function, hcode, rfl⟩ := Option.map_eq_some_iff.mp hexport
        have htarget : (Batch.installModule (some exports) entries grants : Batch F H).target address =
            some (.code function) := by
          simp only [Batch.target, Option.bind_some, hname, hcode, Option.map_some]
        rw [htarget]
        refine ⟨slot, hslot, hfun, fun id hid => ?_⟩
        rw [hids] at hid
        rw [hreleased, if_pos ⟨address, hmem, hid⟩]
      · have htarget : (Batch.installModule (some exports) entries grants : Batch F H).target address = none := by
          rw [mem_addresses_collectEntries, Bool.not_eq_true, Option.isSome_eq_false_iff, Option.isNone_iff_eq_none]
            at hmem
          simp only [Batch.target, Option.bind_some, hmem, Option.bind_none]
        rw [htarget, Option.none_or]
        refine hleads.frame (hinst.frame address hmem) (hinst.functions address hmem) (by rw [hids])
          fun id hid => ?_
        rw [hreleased, if_neg]
        rintro ⟨other, hother, hsame⟩
        exact hmem (hsound.hooks.distinct _ _ _ hid hsame ▸ hother)

/-- A batch of hooks. -/
theorem step_install {links : Bool} {hooks : List (BitVec 32 × Implementation F H)}
    {outcome : Outcome F H} (hsound : d.Sound) (h : d.step (.install hooks links grants) = some outcome) :
    d.Does (Batch.install hooks links grants).target outcome := by
  have h : d.install grants links hooks = some outcome := h
  rw [install] at h
  cases hcompile : d.hooks.compile hooks with
  | panicked =>
    rw [hcompile] at h
    cases h
  | failed failure =>
    rw [hcompile] at h
    cases h
    exact Does.refuse hsound _ failure
  | done module =>
    rw [hcompile] at h
    obtain ⟨entered, hentered, rfl⟩ := Option.map_eq_some_iff.mp h
    obtain ⟨hrefused, hdone⟩ := installModule_spec hsound hentered
    cases hfail : entered.failure with
    | some failure => exact hrefused _ (by rw [hfail]; exact fun h => by cases h)
    | none =>
      obtain ⟨htable, hseen, hhooks, held, hheld, hinst⟩ := hdone hfail
      have hmodule := Hooks.compile_spec hsound.hooks hcompile
      have hlinked : held = module.function := by
        cases links with
        | true => exact (Option.some.inj hheld).symm
        | false => cases hheld
      have haddrs : ∀ a, a ∈ (collectEntries module.exports).map DispatchEntry.address ↔
          a ∈ (collect hooks).map Prod.fst := by
        intro a
        rw [mem_addresses_collectEntries, lastOf_isSome, List.map_map, ← hmodule.addresses]
        exact Iff.rfl
      have hent : ∀ a name, (⟨a, name⟩ : DispatchEntry) ∈ module.exports →
          ∃ slot function, entered.after.table.addresses.get a = some slot ∧
            module.function name = some function ∧
            entered.after.table.linked.functions[slot.toNat]? = some (some function) := by
        intro a name hmem
        rw [← hlinked]
        refine hinst.entered ⟨a, name⟩ (mem_collectEntries.mpr ?_)
        rw [lastOf_of_nodup]
        · exact List.mem_map_of_mem hmem
        · rw [List.map_map]
          exact hmodule.addresses ▸ nodup_collect hooks
      have hsettled := Hooks.settle hsound.hooks (nodup_collect hooks) hmodule haddrs
      rw [← hhooks] at hsettled
      refine ⟨⟨htable, hsettled.sound⟩, hseen, hinst.kept, fun failure h => ?_, fun _ a held hleads => ?_⟩
      · cases h
      · by_cases hmem : a ∈ (collect hooks).map Prod.fst
        · obtain ⟨implementation, hlast⟩ := Option.isSome_iff_exists.mp (mem_addresses_collect.mp hmem)
          have hcollected := mem_collect.mpr hlast
          cases implementation with
          | host handler =>
            obtain ⟨id, name, hexport, hname, hprep⟩ := hmodule.host a handler hcollected
            obtain ⟨slot, function, hslot, hfun, hfilled⟩ := hent a name hexport
            obtain rfl := Option.some.inj (hname.symm.trans hfun)
            obtain ⟨hid, hhandler⟩ := hsettled.host _ hprep
            have htarget : (Batch.install hooks links grants).target a = some (.host handler) := by
              simp only [Batch.target, hlast, Option.bind_some, Implementation.target]
            rw [htarget]
            exact ⟨slot, id, hslot, hfilled, hid, hhandler⟩
          | block build =>
            obtain ⟨code, name, rfl, hexport, hname⟩ := hmodule.block a build hcollected
            obtain ⟨slot, function, hslot, hfun, hfilled⟩ := hent a name hexport
            obtain rfl := Option.some.inj (hname.symm.trans hfun)
            obtain ⟨hid, hhandler⟩ := hsettled.block a _ hcollected
            have htarget : (Batch.install hooks links grants).target a = some (.code code) := by
              simp only [Batch.target, hlast, Option.bind_some, Implementation.target, Option.map_some]
            rw [htarget]
            exact ⟨slot, hslot, hfilled, fun id h => hhandler id (hid ▸ h)⟩
        · have htarget : (Batch.install hooks links grants).target a = none := by
            rw [mem_addresses_collect, Bool.not_eq_true, Option.isSome_eq_false_iff, Option.isNone_iff_eq_none]
              at hmem
            simp only [Batch.target, hmem, Option.bind_none]
          have hother : a ∉ (collectEntries module.exports).map DispatchEntry.address := fun h =>
            hmem ((haddrs a).mp h)
          obtain ⟨hid, hhandler⟩ := hsettled.frame a hmem
          rw [htarget, Option.none_or]
          exact hleads.frame (hinst.frame a hother) (hinst.functions a hother) hid hhandler

/-- What one batch does. -/
theorem step_spec {batch : Batch F H} {outcome : Outcome F H} (hsound : d.Sound)
    (h : d.step batch = some outcome) : d.Does batch.target outcome := by
  cases batch with
  | install hooks links grants => exact step_install hsound h
  | installModule exports entries grants => exact step_installModule hsound h

/-- A refused batch leaves every address where it led. -/
theorem Does.stays {target : BitVec 32 → Option (Target F H)} {outcome : Outcome F H} (h : d.Does target outcome)
    {failure : Failure} (hfail : outcome.failure = some failure) {a : BitVec 32} {held : Option (Target F H)}
    (hleads : d.Leads a held) : outcome.after.Leads a held := by
  obtain ⟨hhooks, hunchanged, -⟩ := h.refused failure hfail
  obtain ⟨added, hadded⟩ := hunchanged.functions
  refine hleads.frame (by rw [hunchanged.addresses]) (fun slot function _ hheld => ?_) (by rw [hhooks])
    fun id _ => by rw [hhooks]
  rw [hadded]
  exact Linked.getElem?_append_empty.mpr hheld

/-! ## Every run -/

theorem initial_sound : (initial : Dispatcher F H).Sound :=
  ⟨DispatchTable.initial_sound, Hooks.default_sound⟩

theorem latest_concat (installed : List (Batch F H)) (batch : Batch F H) (a : BitVec 32) :
    latest (installed ++ [batch]) a = (batch.target a).or (latest installed a) := by
  rw [latest, List.foldl_append]
  rfl

/-- In every run, every address leads to what was installed there last. -/
theorem run_spec {batches : List (Batch F H)} {installed : List (Batch F H)}
    (h : run batches = some (d, installed)) :
    d.Sound ∧ ∀ a, d.Leads a (latest installed a) := by
  induction batches using List.reverseRecOn generalizing d installed with
  | nil =>
    cases h
    refine ⟨initial_sound, fun a => ⟨?_, rfl⟩⟩
    show EntryTable.default.get a = none
    simp [EntryTable.default, EntryTable.get]
  | append_singleton batches batch ih =>
    rw [run, List.foldlM_append, Option.bind_eq_bind, Option.bind_eq_some_iff] at h
    obtain ⟨⟨before, done⟩, hbef, hlast⟩ := h
    obtain ⟨hsound, hleads⟩ := ih hbef
    rw [List.foldlM_cons, Option.bind_eq_bind, Option.bind_eq_some_iff] at hlast
    obtain ⟨after, hlast, hafter⟩ := hlast
    cases hafter
    have hmap : (before.step batch).map (fun outcome => (outcome.after,
        if outcome.failure = none then done ++ [batch] else done)) = some (d, installed) := hlast
    obtain ⟨outcome, hstep, heq⟩ := Option.map_eq_some_iff.mp hmap
    cases heq
    have hdoes := @step_spec F H before batch outcome hsound hstep
    refine ⟨hdoes.sound, fun a => ?_⟩
    cases hfail : outcome.failure with
    | some failure =>
      rw [if_neg (fun h => by cases h)]
      exact hdoes.stays hfail (hleads a)
    | none =>
      rw [if_pos rfl, latest_concat]
      exact hdoes.leads hfail a _ (hleads a)

/-- There are no more handlers than addresses with a slot. -/
theorem length_handlers (hsound : d.Sound)
    (hlive : ∀ a, d.Leads a none ∨ ∃ slot, d.table.addresses.get a = some slot) :
    d.hooks.handlers.length ≤ 2 ^ 28 := by
  have hslot : ∀ i < d.hooks.handlers.length, ∃ (a id slot : BitVec 32),
      d.hooks.ids a = some id ∧ id.toNat = i ∧ d.table.addresses.get a = some slot := by
    intro i hi
    obtain ⟨a, id, hid, heq⟩ := hsound.hooks.complete i hi
    rcases hlive a with hnone | ⟨slot, hget⟩
    · rw [hnone.2] at hid
      cases hid
    · exact ⟨a, id, slot, hid, heq, hget⟩
  choose! a id slot hid heq hget using hslot
  have hcnt := hsound.table.slots.count
  have hsize := hsound.table.serves.size
  -- The slots of the ids' addresses are different dynamic slots.
  have hcard := Finset.card_le_card_of_injOn (s := Finset.range d.hooks.handlers.length)
    (t := Finset.Ico 2 d.table.nextSlot.toNat) (fun i => (slot i).toNat) (fun i hi => by
      have hi := Finset.mem_range.mp (Finset.mem_coe.mp hi)
      exact Finset.mem_coe.mpr (Finset.mem_Ico.mpr (hsound.table.slots.bounds _ _ (hget i hi))))
    (fun i hi j hj hsame => by
      have hi := Finset.mem_range.mp (Finset.mem_coe.mp hi)
      have hj := Finset.mem_range.mp (Finset.mem_coe.mp hj)
      have hslots : slot i = slot j := BitVec.eq_of_toNat_eq hsame
      have haddr := hsound.table.slots.distinct _ _ _ (hget i hi) (hslots ▸ hget j hj)
      have hids := hid i hi
      rw [haddr, hid j hj] at hids
      rw [← heq i hi, ← heq j hj, Option.some.inj hids])
  rw [Finset.card_range, Nat.card_Ico] at hcard
  omega

/-- A batch of module entries that 32 bits have room for does not panic. -/
theorem installModule_total (hsound : d.Sound) (grants : Grants)
    (exports : Option (String → Option (Callable F)))
        (hcnt : entries.length ≤ 2 ^ 30) :
    ∃ outcome, d.installModule grants exports entries = some outcome := by
  cases exports with
  | none => exact ⟨_, rfl⟩
  | some exports =>
    have hlen : (collectEntries entries).length ≤ 2 ^ 30 := by
      rw [collectEntries, List.length_map]
      refine Nat.le_trans (length_collect _) ?_
      rw [List.length_map]
      exact hcnt
    obtain ⟨installed, hinst⟩ := DispatchTable.install_total grants exports hsound.table
      (nodup_collectEntries entries) hlen
    exact ⟨_, congrArg (Option.map _) hinst⟩

/-- In every run, a further batch that 32 bits have room for does not panic. -/
theorem step_total {batches installed : List (Batch F H)} (h : run batches = some (d, installed))
    {batch : Batch F H} (hcnt : batch.size ≤ 2 ^ 30) : ∃ outcome, d.step batch = some outcome := by
  obtain ⟨hsound, hleads⟩ := run_spec h
  cases batch with
  | installModule exports entries grants => exact installModule_total hsound grants _ hcnt
  | install hooks links grants =>
    have hlen : d.hooks.handlers.length ≤ 2 ^ 28 := by
      refine length_handlers hsound fun a => ?_
      have haddr := hleads a
      cases htarget : latest installed a with
      | none => exact Or.inl (htarget ▸ haddr)
      | some target =>
        rw [htarget] at haddr
        cases target with
        | host handler => exact Or.inr ⟨haddr.choose, haddr.choose_spec.choose_spec.1⟩
        | code function => exact Or.inr ⟨haddr.choose, haddr.choose_spec.1⟩
    have hcollect : (collect hooks).length ≤ 2 ^ 30 := Nat.le_trans (length_collect hooks) hcnt
    show ∃ outcome, d.install grants links hooks = some outcome
    rw [install]
    cases hcompile : d.hooks.compile hooks with
    | panicked => exact absurd hcompile (Hooks.compileFrom_total d.hooks (collect hooks) (by omega))
    | failed failure => exact ⟨_, rfl⟩
    | done module =>
      have hexports : module.exports.length ≤ 2 ^ 30 := by
        have hsame := congrArg List.length (Hooks.compile_spec hsound.hooks hcompile).addresses
        rw [List.length_map, List.length_map] at hsame
        exact hsame ▸ hcollect
      obtain ⟨entered, hentered⟩ := installModule_total hsound grants
        (if links then some module.function else none) hexports
      exact ⟨_, congrArg (Option.map _) hentered⟩

end Dispatcher

/-! ## What the lookup enters -/

/-- The generated lookup of an address ends in a slot with this function; its loads stay inside the memory. -/
def Linked.Enters (linked : Linked F) (address : BitVec 32) (function : Callable F) : Prop :=
  ∃ (fuel : Nat) (reads : List Nat) (slot : BitVec 32),
    EntryTable.lookup linked.entries address fuel = some (reads, slot) ∧
      (∀ read ∈ reads, read + 4 ≤ linked.pages * pageBytes) ∧
      linked.functions[slot.toNat]? = some (some function)

theorem Linked.Serves.enters {linked : Linked F} {addresses : EntryTable} (h : linked.Serves addresses)
    (address : BitVec 32) : ∃ function, linked.Enters address function := by
  obtain ⟨fuel, reads, hfound, hrd, function, hfun⟩ := h.lookup address
  exact ⟨function, fuel, reads, _, hfound, hrd, hfun⟩

/-- Dispatch at an address runs its target: the handler of the service id that is asked for, or the function. -/
def Dispatcher.Dispatches (dispatch : Dispatcher F H) (address : BitVec 32) : Option (Target F H) → Prop
  | none => dispatch.table.linked.Enters address .interpreter
  | some (.host handler) => ∃ id : BitVec 32, dispatch.table.linked.Enters address (.host id) ∧
      dispatch.hooks.handler id = some handler
  | some (.code function) => dispatch.table.linked.Enters address (.code function)

theorem Dispatcher.Leads.dispatches {d : Dispatcher F H} (hsound : d.Sound) {address : BitVec 32}
    {target : Option (Target F H)} (h : d.Leads address target) : d.Dispatches address target := by
  obtain ⟨fuel, reads, hfound, hrd, -⟩ := hsound.table.serves.lookup address
  cases target with
  | none =>
    rw [h.1] at hfound
    exact ⟨fuel, reads, _, hfound, hrd, hsound.table.serves.interpreter⟩
  | some target =>
    cases target with
    | host handler =>
      obtain ⟨slot, id, hslot, hfun, -, hhandler⟩ := h
      rw [hslot] at hfound
      exact ⟨id, ⟨fuel, reads, slot, hfound, hrd, hfun⟩, hhandler⟩
    | code function =>
      obtain ⟨slot, hslot, hfun, -⟩ := h
      rw [hslot] at hfound
      exact ⟨fuel, reads, slot, hfound, hrd, hfun⟩

open Dispatcher in
/-- In every run, dispatch at an address runs what was installed there last, no two addresses share a slot, and every
slot that the published table names is filled. In a further batch addresses keep their slots, every state on the way
has the slots that its table names filled, and a refused batch leaves every slot, address and handler as it was; only
where the memory is not granted may the function table have grown by empty slots. -/
theorem latest_dispatched (batches installed : List (Batch F H)) (dispatch : Dispatcher F H)
    (hrun : run batches = some (dispatch, installed)) :
    (∀ address, dispatch.Dispatches address (latest installed address)) ∧
      (∀ address other slot, dispatch.table.addresses.get address = some slot →
        dispatch.table.addresses.get other = some slot → address = other) ∧
      dispatch.table.linked.Serves dispatch.table.addresses ∧
      (∀ batch : Batch F H, batch.size ≤ 2 ^ 30 → ∃ outcome, dispatch.step batch = some outcome) ∧
      ∀ batch outcome, dispatch.step batch = some outcome →
        (∀ address slot, dispatch.table.addresses.get address = some slot →
          outcome.after.table.addresses.get address = some slot) ∧
        (∀ linked ∈ outcome.seen,
          (linked.Serves dispatch.table.addresses ∨ linked.Serves outcome.after.table.addresses) ∧
            ∀ address, ∃ function, linked.Enters address function) ∧
        ∀ failure, outcome.failure = some failure → outcome.after.hooks = dispatch.hooks ∧
          dispatch.table.Unchanged outcome.after.table ∧ (failure = .memoryGrowth ∨ outcome.after = dispatch) := by
  obtain ⟨hsound, hleads⟩ := run_spec hrun
  refine ⟨fun address => (hleads address).dispatches hsound, hsound.table.slots.distinct, hsound.table.serves,
    fun batch hcount => step_total hrun hcount, fun batch outcome hstep => ?_⟩
  have hdoes := step_spec hsound hstep
  refine ⟨hdoes.kept, fun linked hseen => ⟨hdoes.seen linked hseen, fun address => ?_⟩, hdoes.refused⟩
  rcases hdoes.seen linked hseen with h | h
  · exact h.enters address
  · exact h.enters address

/-! ## A refused batch that grew the table -/

section Crowded

/-- Distinct addresses with slots are no more than the entries. -/
theorem length_le_size (table : EntryTable) {addresses : List (BitVec 32)} (hnodup : addresses.Nodup)
    (h : ∀ address ∈ addresses, ∃ slot, table.get address = some slot) : addresses.length ≤ table.entries.size := by
  have hsub : addresses ⊆ table.entries.toList.map Prod.fst := by
    intro address hmem
    obtain ⟨slot, hslot⟩ := h address hmem
    exact List.mem_map.mpr ⟨(address, slot), EntryTable.mem_entries.mpr hslot, rfl⟩
  have hle := (hnodup.subperm hsub).length_le
  rw [List.length_map, Std.TreeMap.length_toList] at hle
  exact hle

/-- A table that does not fit one page, where the memory may not grow. -/
theorem publish_crowded (table : DispatchTable F) {resolved : Resolved F} {bytes : List (BitVec 8)}
    (hpages : table.linked.pages = 1) (hbytes : pageBytes < bytes.length)
    (hroom : table.linked.functions.length < resolved.nextSlot.toNat)
    (hcapacity : resolved.nextSlot > table.capacity) :
    let after := table.publish ⟨true, false⟩ resolved bytes
    after.failure = some .memoryGrowth ∧ table.linked.functions.length < after.table.linked.functions.length := by
  obtain ⟨capacity, hle, hresv⟩ : ∃ capacity : BitVec 32, resolved.nextSlot.toNat ≤ capacity.toNat ∧
      table.reserveSlots ⟨true, false⟩ resolved.nextSlot =
        let grown : Linked F :=
          ⟨table.linked.functions ++ List.replicate (capacity.toNat - table.linked.functions.length) none,
            table.linked.entries, table.linked.pages⟩
        ⟨none, ⟨grown, table.addresses, table.nextSlot, capacity⟩, [grown]⟩ := by
    have hmax : resolved.nextSlot.toNat ≤ (if DispatchTable.saturatingDouble table.capacity ≤ resolved.nextSlot then
        resolved.nextSlot else DispatchTable.saturatingDouble table.capacity).toNat := by
      split
      · exact Nat.le_refl _
      · next hlt => exact Nat.le_of_lt (BitVec.not_le.mp hlt)
    refine ⟨_, hmax, ?_⟩
    rw [DispatchTable.reserveSlots, if_pos hcapacity]
    simp only [Linked.ensureTableSize, gt_iff_lt, if_pos (Nat.lt_of_lt_of_le hroom hmax), if_true]
  have hrefused : ∀ functions : List (Option (Callable F)),
      Linked.ensureMemorySize ⟨true, false⟩ bytes.length ⟨functions, table.linked.entries, table.linked.pages⟩ =
        .error .memoryGrowth := by
    intro functions
    have hgrow : divCeil bytes.length pageBytes > table.linked.pages := by
      rw [pageBytes] at hbytes
      rw [hpages, divCeil, pageBytes]
      split <;> omega
    rw [Linked.ensureMemorySize, if_pos hgrow]
    rfl
  intro after
  have hafter : after.failure = some .memoryGrowth ∧ after.table.linked.functions =
      table.linked.functions ++ List.replicate (capacity.toNat - table.linked.functions.length) none := by
    simp only [after, DispatchTable.publish, hresv, DispatchTable.commit, Resolved.steps, List.cons_append, perform,
      Effect.apply, hrefused, and_self]
  refine ⟨hafter.1, ?_⟩
  rw [hafter.2, List.length_append, List.length_replicate]
  omega

/-- The entries of the first addresses. -/
def firstEntries (count : Nat) : List DispatchEntry := (List.range count).map fun i => ⟨BitVec.ofNat 32 i, "run"⟩

theorem firstEntries_slots {count : Nat} (hcnt : count ≤ 2 ^ 32) {exports : String → Option (Callable F)}
    {addresses : EntryTable} {resolved : Resolved F}
    (h : Resolves exports addresses (collectEntries (firstEntries count)) resolved) :
    count ≤ resolved.addresses.entries.size := by
  have hnodup : ((List.range count).map (BitVec.ofNat 32)).Nodup := by
    refine List.nodup_range.map_on fun i hi j hj heq => ?_
    have heq := congrArg BitVec.toNat heq
    have hi := List.mem_range.mp hi
    have hj := List.mem_range.mp hj
    rwa [BitVec.toNat_ofNat, BitVec.toNat_ofNat, Nat.mod_eq_of_lt (by omega), Nat.mod_eq_of_lt (by omega)] at heq
  have hle := length_le_size resolved.addresses hnodup fun address hmem => by
    have hent : address ∈ ((firstEntries count).map DispatchEntry.pair).map Prod.fst := by
      rw [firstEntries, List.map_map, List.map_map]
      exact hmem
    obtain ⟨name, hname⟩ := Option.isSome_iff_exists.mp (lastOf_isSome.mpr hent)
    obtain ⟨pair, -, hslot, -⟩ := h.functions _ (mem_collectEntries.mpr hname)
    exact ⟨pair.1, hslot⟩
  rw [List.length_map, List.length_range] at hle
  exact hle

/-- A batch of module entries whose installation is refused. -/
theorem step_of_refused (d : Dispatcher F H) (exports : String → Option F) {entries : List DispatchEntry}
    {grants : Grants} {installed : Installation F} {failure : Failure}
    (hinstall : d.table.install grants (fun name => (exports name).map .code) (collectEntries entries) =
      some installed) (hfail : installed.failure = some failure) :
    d.step (.installModule (some exports) entries grants) =
      some ⟨some failure, ⟨installed.table, d.hooks⟩, installed.seen⟩ := by
  simp only [Dispatcher.step, Option.map_some, Dispatcher.installModule, hinstall, hfail]

open Dispatcher in
/-- Without room for a second page, a batch of many addresses is refused after the function table has grown. -/
theorem refused_table_grown : ¬ ∀ (batches installed : List (Batch Unit Unit)) (dispatch : Dispatcher Unit Unit) batch
    outcome failure, run batches = some (dispatch, installed) → dispatch.step batch = some outcome →
      outcome.failure = some failure → outcome.after.table.linked.functions = dispatch.table.linked.functions := by
  intro hall
  let exports : String → Option (Callable Unit) := fun _ => some (.code ())
  have hsound := DispatchTable.initial_sound (F := Unit)
  have hlength : (collectEntries (firstEntries 2049)).length ≤ 2049 := by
    rw [collectEntries, List.length_map]
    refine Nat.le_trans (length_collect _) ?_
    rw [List.length_map, firstEntries, List.length_map, List.length_range]
  have hfirst : (DispatchTable.initial : DispatchTable Unit).nextSlot.toNat = 2 := rfl
  rcases resolve_total exports (collectEntries (firstEntries 2049)) hsound.slots (by omega) with
    ⟨failure, -, entry, -, hnone⟩ | ⟨resolved, hresolve, hle⟩
  · cases hnone
  · have hresolved := resolve_spec hsound.slots (nodup_collectEntries _) hresolve
    have hsize := firstEntries_slots (by decide) hresolved
    have hcount := hresolved.slots.count
    obtain ⟨rows, hbytes, hrows, -⟩ := EntryTable.toBytes_eq resolved.addresses (by omega)
    have horder : 13 ≤ resolved.addresses.order := by
      by_contra hlt
      have hpow : 2 ^ resolved.addresses.order ≤ 2 ^ 12 := Nat.pow_le_pow_right (by decide) (by omega)
      have hcapacity : resolved.addresses.entries.size * 2 ≤ 2 ^ resolved.addresses.order :=
        Nat.le_trans (Nat.le_max_left _ _) (Nat.le_pow_clog (by decide) _)
      omega
    have hcrowded : pageBytes < (Memory.lowBytes 4 resolved.addresses.tableMask ++
        rows.flatMap EntryTable.rowBytes).length := by
      have hpow : 2 ^ 13 ≤ 2 ^ resolved.addresses.order := Nat.pow_le_pow_right (by decide) horder
      rw [EntryTable.length_serialized, hrows, pageBytes]
      omega
    have hslots : (DispatchTable.initial : DispatchTable Unit).linked.functions.length < resolved.nextSlot.toNat := by
      show 2 < _
      omega
    obtain ⟨hfailure, hgrown⟩ := publish_crowded DispatchTable.initial rfl hcrowded hslots
      (show (2 : BitVec 32).toNat < _ from hslots)
    have hinstall : (DispatchTable.initial : DispatchTable Unit).install ⟨true, false⟩ exports
        (collectEntries (firstEntries 2049)) = some (DispatchTable.publish DispatchTable.initial ⟨true, false⟩ resolved
          (Memory.lowBytes 4 resolved.addresses.tableMask ++ rows.flatMap EntryTable.rowBytes)) := by
      rw [DispatchTable.install, hresolve]
      exact congrArg (Option.map _) hbytes
    have hstep := step_of_refused (initial : Dispatcher Unit Unit) (fun _ => some ()) hinstall hfailure
    have hsame := hall [] [] initial _ _ .memoryGrowth rfl hstep rfl
    exact absurd (congrArg List.length hsame) (Nat.ne_of_gt hgrown)

end Crowded

/-- A host service that a module replaces and that is installed again; a batch whose export is missing is refused. -/
theorem service_restored : ∃ (dispatch : Dispatcher Bool Nat) (installed : List (Batch Bool Nat)), Dispatcher.run [
      .install [(5, .host 7), (6, .host 8), (5, .host 9)] true ⟨true, true⟩,
      .installModule (some fun name => if name = "run" then some true else none) [⟨5, "run"⟩] ⟨true, true⟩,
      .installModule (some fun name => if name = "run" then some true else none) [⟨6, "run"⟩, ⟨7, "walk"⟩]
        ⟨true, true⟩,
      .install [(5, .host 10)] true ⟨true, true⟩] = some (dispatch, installed) ∧
    dispatch.Dispatches 5 (some (.host 10)) ∧ dispatch.Dispatches 6 (some (.host 8)) ∧ dispatch.Dispatches 7 none := by
  generalize hbatches : [
      Batch.install [((5 : BitVec 32), Implementation.host 7), (6, .host 8), (5, .host 9)] true ⟨true, true⟩,
      .installModule (some fun name => if name = "run" then some true else none) [⟨5, "run"⟩] ⟨true, true⟩,
      .installModule (some fun name => if name = "run" then some true else none) [⟨6, "run"⟩, ⟨7, "walk"⟩]
        ⟨true, true⟩,
      .install [(5, .host 10)] true ⟨true, true⟩] = batches
  have hlast : (Dispatcher.run batches).map (fun ran => [latest ran.2 5, latest ran.2 6, latest ran.2 7]) =
      some [some (.host 10), some (.host 8), none] := by
    rw [← hbatches]
    decide +kernel
  obtain ⟨⟨dispatch, installed⟩, hrun, htargets⟩ := Option.map_eq_some_iff.mp hlast
  obtain ⟨hdispatches, -⟩ := latest_dispatched batches installed dispatch hrun
  simp only [List.cons.injEq] at htargets
  refine ⟨dispatch, installed, hrun, ?_, ?_, ?_⟩
  · exact htargets.1 ▸ hdispatches 5
  · exact htargets.2.1 ▸ hdispatches 6
  · exact htargets.2.2.1 ▸ hdispatches 7

end Relocade.Dispatch
