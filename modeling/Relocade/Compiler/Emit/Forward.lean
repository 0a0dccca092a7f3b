import Relocade.Compiler.Emit.View

/-!
# `Compiler.Emit.Forward` — forward encoding over placed items and operand-stack coverage

Covered items are emitted where their results are consumed, and all other results go through their own locals. The
emitted order is the order of the items, so every instruction receives the operands it has when every result goes
through a local.
-/

namespace Relocade.Compiler.Emit

open Function (update update_self update_of_ne)
open List (append_assoc zip_cons_cons foldlM_cons reverse_reverse mem_cons_of_mem mem_cons_self reverse_cons
  map_append foldlM_append mem_append_left nodup_cons mem_append_right)
open OperandView

/-! ## Emitted code -/

inductive Pending where
  | value (value : Nat)
  | item (item : BlockItem)
  | finish (item : BlockItem)
  deriving DecidableEq

/-- Instructions over symbolic locals; `instruction` stands for what an item is encoded as. -/
inductive Code where
  | const (ty : Ty) (bits : Nat)
  | get (index : Nat)
  | instruction (item : BlockItem)
  | set (index : Nat)
  | drop
  deriving DecidableEq

section Writer

variable (graph : FunctionGraph) (selection : Selection) (view : OperandView) (locals : Nat → Nat)

/-- Expand what is pending, in a number of steps. -/
def expand : Nat → List Pending → Option (List Code)
  | _, [] => some []
  | 0, _ :: _ => none
  | n + 1, .value value :: pending =>
      let value := selection.resolve value
      match graph.values.definition value with
      | .literal bits => (expand n pending).map (.const (graph.values.ty value).carrier bits :: ·)
      | _ =>
          match (view.producer value).filter view.inline with
          | some item => expand n (.item item :: pending)
          | none => (expand n pending).map (.get (locals value) :: ·)
  | n + 1, .item item :: pending =>
      expand n ((selection.inputs graph item).map .value ++ .finish item :: pending)
  | n + 1, .finish item :: pending => (expand n pending).map (.instruction item :: ·)

/-- The results of an item leave the stack, the last one first. -/
def storeResults (item : BlockItem) : List Code :=
  (selection.results graph item).reverse.map fun result =>
    if view.uses result = 0 then .drop else .set (locals result)

def blockItems (n : Nat) : List BlockItem → Option (List Code)
  | [] => some []
  | item :: items =>
      if !selection.enabled item || view.inline item then blockItems n items
      else do
        let code ← expand graph selection view locals n [.item item]
        return code ++ storeResults graph selection view locals item ++ (← blockItems n items)

end Writer

/-- The local of a value: the entry block's parameters are the parameters of the function. -/
def writerLocal (graph : FunctionGraph) (parameterCount value : Nat) : Nat :=
  match graph.values.definition value with
  | .parameter _ component =>
      if (graph.block graph.entry).parameters.contains value then component else slotOf value
  | _ => slotOf value
where
  /-- Other values that are no literals follow in order. -/
  slotOf (value : Nat) : Nat :=
    parameterCount + ((List.range value).filter fun other =>
      !(graph.block graph.entry).parameters.contains other &&
        (match graph.values.definition other with
          | .literal _ => false
          | _ => true)).length

/-! ## Runs -/

variable {V W : Type}

/-- What constants and the instructions of items do. An instruction without results stops the run. -/
structure Semantics (V W : Type) where
  constant : Ty → Nat → V
  execute : BlockItem → List V → W → Option (List V) × W

/-- The world, and the items that have been executed with their operands. -/
structure Progress (V W : Type) where
  world : W
  events : List (BlockItem × List V)

def Semantics.perform (semantics : Semantics V W) (item : BlockItem) (operands : List V) (progress : Progress V W) :
    Except (Progress V W) (List V × Progress V W) :=
  let outcome := semantics.execute item operands progress.world
  let progress : Progress V W := ⟨outcome.2, progress.events ++ [(item, operands)]⟩
  match outcome.1 with
  | some results => .ok (results, progress)
  | none => .error progress

structure Machine (V W : Type) where
  locals : Nat → V
  stack : List V
  progress : Progress V W

/-- One instruction. The top of the stack comes first. -/
def Machine.step (graph : FunctionGraph) (selection : Selection) (semantics : Semantics V W) (machine : Machine V W) :
    Code → Except (Progress V W) (Machine V W)
  | .const ty bits => .ok { machine with stack := semantics.constant ty bits :: machine.stack }
  | .get index => .ok { machine with stack := machine.locals index :: machine.stack }
  | .instruction item =>
      let count := (selection.inputs graph item).length
      (semantics.perform item (machine.stack.take count).reverse machine.progress).map fun performed =>
        { machine with stack := performed.1.reverse ++ machine.stack.drop count, progress := performed.2 }
  | .set index =>
      match machine.stack with
      | value :: stack => .ok { machine with locals := update machine.locals index value, stack := stack }
      | [] => .ok machine
  | .drop => .ok { machine with stack := machine.stack.tail }

/-- Values on top of the stack, the topmost first. -/
def Machine.push (machine : Machine V W) (values : List V) (progress : Progress V W) : Machine V W :=
  { machine with stack := values ++ machine.stack, progress := progress }

@[simp] theorem Machine.push_progress (mach : Machine V W) (values : List V) (progress : Progress V W) :
    (mach.push values progress).progress = progress := rfl

@[simp] theorem Machine.push_locals (mach : Machine V W) (values : List V) (progress : Progress V W) :
    (mach.push values progress).locals = mach.locals := rfl

/-- Values that all have a local of their own. -/
structure Reference (V W : Type) where
  store : Nat → V
  progress : Progress V W

def Reference.read (graph : FunctionGraph) (semantics : Semantics V W) (reference : Reference V W) (value : Nat) : V :=
  match graph.values.definition value with
  | .literal bits => semantics.constant (graph.values.ty value).carrier bits
  | _ => reference.store value

def assign (store : Nat → V) (results : List Nat) (values : List V) : Nat → V :=
  (results.zip values).foldl (fun store result => update store result.1 result.2) store

/-- One item, with operands and results in their locals. -/
def Reference.step (graph : FunctionGraph) (selection : Selection) (semantics : Semantics V W)
    (reference : Reference V W) (item : BlockItem) : Except (Progress V W) (Reference V W) :=
  let operands := (selection.inputs graph item).map fun input =>
    reference.read graph semantics (selection.resolve input)
  (semantics.perform item operands reference.progress).map fun performed =>
    ⟨assign reference.store (selection.results graph item) performed.1, performed.2⟩

/-! ## Expansion -/

section Expansion

variable (graph : FunctionGraph) (selection : Selection) (view : OperandView) (locals : Nat → Nat)

/-- What is pending, and the code that it expands to. -/
inductive Expands : List Pending → List Code → Prop
  | nil : Expands [] []
  | literal {value bits : Nat} {pending : List Pending} {code : List Code}
      (h : graph.values.definition (selection.resolve value) = .literal bits) (rest : Expands pending code) :
      Expands (.value value :: pending) (.const (graph.values.ty (selection.resolve value)).carrier bits :: code)
  | get {value : Nat} {pending : List Pending} {code : List Code}
      (hliteral : ∀ bits, graph.values.definition (selection.resolve value) ≠ .literal bits)
      (hkept : ∀ item, view.producer (selection.resolve value) = some item → view.inline item = false)
      (rest : Expands pending code) :
      Expands (.value value :: pending) (.get (locals (selection.resolve value)) :: code)
  | inline {value : Nat} {item : BlockItem} {pending : List Pending} {code : List Code}
      (hliteral : ∀ bits, graph.values.definition (selection.resolve value) ≠ .literal bits)
      (hproducer : view.producer (selection.resolve value) = some item) (hinline : view.inline item = true)
      (rest : Expands (.item item :: pending) code) : Expands (.value value :: pending) code
  | item {item : BlockItem} {pending : List Pending} {code : List Code}
      (rest : Expands ((selection.inputs graph item).map .value ++ .finish item :: pending) code) :
      Expands (.item item :: pending) code
  | finish {item : BlockItem} {pending : List Pending} {code : List Code} (rest : Expands pending code) :
      Expands (.finish item :: pending) (.instruction item :: code)

variable {graph selection view locals} {a b pending : List Pending} {code code' : List Code}

/-- Enough steps emit the code. -/
theorem Expands.expand (h : Expands graph selection view locals pending code) :
    ∃ n, ∀ m, n ≤ m → Emit.expand graph selection view locals m pending = some code := by
  have hstep : ∀ {n m : Nat}, n + 1 ≤ m → ∃ k, m = k + 1 ∧ n ≤ k := fun h =>
    ⟨_, (Nat.sub_add_cancel (by omega)).symm, by omega⟩
  induction h with
  | nil => exact ⟨0, fun m _ => by cases m <;> rfl⟩
  | literal h _ ih =>
    obtain ⟨n, ih⟩ := ih
    refine ⟨n + 1, fun m hm => ?_⟩
    obtain ⟨k, rfl, hk⟩ := hstep hm
    rw [Emit.expand]
    rw [h, ih k hk]
    rfl
  | @get value pending code hlit hkept _ ih =>
    obtain ⟨n, ih⟩ := ih
    refine ⟨n + 1, fun m hm => ?_⟩
    obtain ⟨k, rfl, hk⟩ := hstep hm
    have hnone : (view.producer (selection.resolve value)).filter view.inline = none := by
      rw [Option.filter_eq_none_iff]
      exact fun item hitem h => Bool.false_ne_true ((hkept item hitem).symm.trans h)
    rw [Emit.expand]
    split
    · next bits h => exact absurd h (hlit bits)
    · rw [hnone, ih k hk]
      rfl
  | @inline value item pending code hlit hprod hinline _ ih =>
    obtain ⟨n, ih⟩ := ih
    refine ⟨n + 1, fun m hm => ?_⟩
    obtain ⟨k, rfl, hk⟩ := hstep hm
    rw [Emit.expand]
    split
    · next bits h => exact absurd h (hlit bits)
    · rw [hprod, Option.filter_some, if_pos hinline]
      exact ih k hk
  | item _ ih =>
    obtain ⟨n, ih⟩ := ih
    refine ⟨n + 1, fun m hm => ?_⟩
    obtain ⟨k, rfl, hk⟩ := hstep hm
    exact ih k hk
  | finish _ ih =>
    obtain ⟨n, ih⟩ := ih
    refine ⟨n + 1, fun m hm => ?_⟩
    obtain ⟨k, rfl, hk⟩ := hstep hm
    rw [Emit.expand, ih k hk]
    rfl

theorem Expands.append (h : Expands graph selection view locals a code)
    (h' : Expands graph selection view locals b code') :
    Expands graph selection view locals (a ++ b) (code ++ code') := by
  induction h with
  | nil => exact h'
  | literal h _ ih => exact .literal h ih
  | get hlit hkept _ ih => exact .get hlit hkept ih
  | inline hlit hprod hinline _ ih => exact .inline hlit hprod hinline ih
  | item _ ih =>
    refine .item ?_
    rw [append_assoc] at ih
    exact ih
  | finish _ ih => exact .finish ih

theorem Expands.split {all : List Pending} (h : Expands graph selection view locals all code) :
    ∀ {a b}, all = a ++ b → ∃ front back, code = front ++ back ∧ Expands graph selection view locals a front ∧
      Expands graph selection view locals b back := by
  induction h with
  | nil =>
    intro a b heq
    obtain ⟨rfl, rfl⟩ := List.append_eq_nil_iff.mp heq.symm
    exact ⟨[], [], rfl, .nil, .nil⟩
  | literal h rest ih =>
    intro a b heq
    rcases List.cons_eq_append_iff.mp heq with ⟨rfl, rfl⟩ | ⟨a, rfl, rfl⟩
    · exact ⟨[], _, rfl, .nil, .literal h rest⟩
    · obtain ⟨front, back, rfl, hfront, hback⟩ := ih rfl
      exact ⟨_ :: front, back, rfl, .literal h hfront, hback⟩
  | get hlit hkept rest ih =>
    intro a b heq
    rcases List.cons_eq_append_iff.mp heq with ⟨rfl, rfl⟩ | ⟨a, rfl, rfl⟩
    · exact ⟨[], _, rfl, .nil, .get hlit hkept rest⟩
    · obtain ⟨front, back, rfl, hfront, hback⟩ := ih rfl
      exact ⟨_ :: front, back, rfl, .get hlit hkept hfront, hback⟩
  | inline hlit hprod hinline rest ih =>
    intro a b heq
    rcases List.cons_eq_append_iff.mp heq with ⟨rfl, rfl⟩ | ⟨a, rfl, rfl⟩
    · exact ⟨[], _, rfl, .nil, .inline hlit hprod hinline rest⟩
    · obtain ⟨front, back, rfl, hfront, hback⟩ := ih (List.cons_append ..).symm
      exact ⟨front, back, rfl, .inline hlit hprod hinline hfront, hback⟩
  | item rest ih =>
    intro a b heq
    rcases List.cons_eq_append_iff.mp heq with ⟨rfl, rfl⟩ | ⟨a, rfl, rfl⟩
    · exact ⟨[], _, rfl, .nil, .item rest⟩
    · obtain ⟨front, back, rfl, hfront, hback⟩ := ih (append_assoc _ (_ :: a) b).symm
      exact ⟨front, back, rfl, .item hfront, hback⟩
  | finish rest ih =>
    intro a b heq
    rcases List.cons_eq_append_iff.mp heq with ⟨rfl, rfl⟩ | ⟨a, rfl, rfl⟩
    · exact ⟨[], _, rfl, .nil, .finish rest⟩
    · obtain ⟨front, back, rfl, hfront, hback⟩ := ih rfl
      exact ⟨_ :: front, back, rfl, .finish hfront, hback⟩

end Expansion

/-! ## Results in their locals -/

section Stores

variable {g : FunctionGraph} {s : Selection} {sem : Semantics V W}

variable {value : Nat}

theorem assign_of_not_mem {store : Nat → V} {results : List Nat} {values : List V}
    (h : value ∉ results) : assign store results values value = store value := by
  rw [assign]
  induction results generalizing store values with
  | nil => rfl
  | cons result results ih =>
    rw [List.mem_cons, not_or] at h
    cases values with
    | nil => rfl
    | cons v values =>
      rw [zip_cons_cons, List.foldl_cons, ih h.2]
      exact update_of_ne h.1 ..

theorem assign_single (store : Nat → V) (res : Nat) (v : V) : assign store [res] [v] res = v :=
  update_self ..

theorem Reference.read_of_not_literal {r : Reference V W}
    (h : ∀ bits, g.values.definition value ≠ .literal bits) :
    r.read g sem value = r.store value := by
  rw [read]
  split
  · next bits hbits => exact absurd hbits (h bits)
  · rfl

variable {r reference' : Reference V W}

/-- Reading a value depends on its local only. -/
theorem Reference.read_congr
    (h : reference'.store value = r.store value) :
    reference'.read g sem value = r.read g sem value := by
  rw [read, read, h]

theorem Reference.step_store {item : BlockItem}
    (h : r.step g s sem item = .ok reference')
    (hval : value ∉ s.results g item) : reference'.store value = r.store value := by
  rw [step] at h
  cases hperform : sem.perform item ((s.inputs g item).map fun input =>
      r.read g sem (s.resolve input)) r.progress with
  | error p =>
    rw [hperform] at h
    cases h
  | ok performed =>
    rw [hperform] at h
    cases h
    exact assign_of_not_mem hval

/-- Items leave other values alone. -/
theorem Reference.foldlM_store {items : List BlockItem}
    (h : items.foldlM (Reference.step g s sem) r = .ok reference')
    (hval : value ∉ items.flatMap (s.results g)) : reference'.store value = r.store value := by
  induction items generalizing r with
  | nil =>
    cases h
    rfl
  | cons item items ih =>
    rw [List.flatMap_cons, List.mem_append, not_or] at hval
    rw [foldlM_cons] at h
    cases hstep : r.step g s sem item with
    | error p =>
      rw [hstep] at h
      cases h
    | ok next =>
      rw [hstep] at h
      exact (ih h hval.2).trans (Reference.step_store hstep hval.1)

end Stores

/-! ## The code between two positions of the cursor -/

/-- A value that is used and goes through its local. -/
structure Kept (graph : FunctionGraph) (view : OperandView) (value : Nat) : Prop where
  used : view.uses value ≠ 0
  producer : ∀ item, view.producer value = some item → view.inline item = false

/-- Producers are those of the items, and values that are no literals have locals of their own. -/
structure Placement (graph : FunctionGraph) (selection : Selection) (view : OperandView) (locals : Nat → Nat)
    (items : List BlockItem) : Prop where
  produced : ∀ value item, view.producer value = some item → item ∈ items ∧ value ∈ selection.results graph item
  producer : ∀ item ∈ items, ∀ value ∈ selection.results graph item, view.producer value = some item
  distinct : ∀ item ∈ items, (selection.results graph item).Nodup
  literal : ∀ item ∈ items, ∀ value ∈ selection.results graph item, ∀ bits,
    graph.values.definition value ≠ .literal bits
  locals : ∀ a b, (∀ bits, graph.values.definition a ≠ .literal bits) →
    (∀ bits, graph.values.definition b ≠ .literal bits) → locals a = locals b → a = b

/-- Used values that go through their locals have them in the machine. -/
structure Agrees (graph : FunctionGraph) (view : OperandView) (locals : Nat → Nat) (reference : Reference V W)
    (machine : Machine V W) : Prop where
  progress : machine.progress = reference.progress
  locals : ∀ value, Kept graph view value → (∀ bits, graph.values.definition value ≠ .literal bits) →
    machine.locals (locals value) = reference.store value

section Simulation

variable {g : FunctionGraph} {s : Selection} {view : OperandView} {locals : Nat → Nat}
  {items : List BlockItem} {sem : Semantics V W}
  (hp : Placement g s view locals items)
  (harity : ∀ item ∈ items, ∀ operands world results, (sem.execute item operands world).1 = some results →
    results.length = (s.results g item).length)

/-- An instruction takes its operands from the stack, where the last one is on top. -/
theorem Machine.step_instruction {m : Machine V W} (item : BlockItem) (operands stack : List V)
    (hstack : m.stack = operands.reverse ++ stack)
    (hlen : operands.length = (s.inputs g item).length) :
    m.step g s sem (.instruction item) =
      (sem.perform item operands m.progress).map fun perf =>
        { m with stack := perf.1.reverse ++ stack, progress := perf.2 } := by
  have hlen' : operands.reverse.length = (s.inputs g item).length := by
    rw [List.length_reverse, hlen]
  rw [step, hstack, ← hlen', List.take_left, List.drop_left, reverse_reverse]

include hp

omit hp in
/-- A value that is kept is read from its local, or is a constant. -/
theorem Kept.expands (sem : Semantics V W) (locals : Nat → Nat) {input : Nat}
    (h : Kept g view (s.resolve input)) :
    ∃ code, Expands g s view locals [.value input] [code] ∧
      ∀ (r : Reference V W) (m : Machine V W),
        ((∀ bits, g.values.definition (s.resolve input) ≠ .literal bits) →
          m.locals (locals (s.resolve input)) = r.store (s.resolve input)) →
        m.step g s sem code = .ok { m with
          stack := r.read g sem (s.resolve input) :: m.stack } := by
  by_cases hlit : ∃ bits, g.values.definition (s.resolve input) = .literal bits
  · obtain ⟨bits, hbits⟩ := hlit
    refine ⟨_, .literal hbits .nil, fun r m _ => ?_⟩
    rw [Reference.read, hbits]
    rfl
  · push Not at hlit
    refine ⟨_, .get hlit h.producer .nil, fun r m hlocal => ?_⟩
    rw [Reference.read_of_not_literal hlit, ← hlocal hlit]
    rfl

/-- Covered items change no local that is kept. -/
theorem Kept.not_mem {value : Nat} (h : Kept g view value) {covered : List BlockItem}
    (hitems : ∀ item ∈ covered, item ∈ items) (hinline : ∀ item ∈ covered, view.inline item = true) :
    value ∉ covered.flatMap (s.results g) := by
  intro hmem
  obtain ⟨item, hitem, hval⟩ := List.mem_flatMap.mp hmem
  have hprod := hp.producer item (hitems item hitem) value hval
  exact Bool.false_ne_true ((h.producer item hprod).symm.trans (hinline item hitem))

include harity

omit hp in
theorem perform_length {item : BlockItem} (hitem : item ∈ items) {operands results : List V}
    {p progress' : Progress V W} (h : sem.perform item operands p = .ok (results, progress')) :
    results.length = (s.results g item).length := by
  rw [Semantics.perform] at h
  split at h
  · next values hvals =>
      cases h
      exact harity item hitem operands p.world _ hvals
  · cases h

/-- The code of the operands executes the items that the cursor covers, and leaves the operands on the
    stack in order. -/
theorem OperandView.Covers.simulates {before covered rest : List BlockItem} {pending kept : List Nat}
    (h : Covers g s view.producer view.uses before pending kept covered rest)
    (hbef : ∀ item ∈ before, item ∈ items) (hnodup : before.Nodup)
    (hinline : ∀ item ∈ covered, view.inline item = true) (hkept : ∀ value ∈ kept, Kept g view value) :
    ∃ code, Expands g s view locals (pending.reverse.map .value) code ∧
      ∀ (r : Reference V W) (m : Machine V W), Agrees g view locals r m →
        code.foldlM (Machine.step g s sem) m =
          (covered.reverse.foldlM (Reference.step g s sem) r).map fun reference' =>
            m.push (pending.map fun input => reference'.read g sem (s.resolve input))
              reference'.progress := by
  induction h with
  | done before =>
    refine ⟨[], .nil, fun r m hagr => ?_⟩
    show Except.ok m = Except.ok (m.push [] r.progress)
    rw [← hagr.progress]
    rfl
  | @keep before covered rest pending kept input h ih =>
    obtain ⟨code, hcode, hruns⟩ := ih hbef hnodup hinline fun value hval => hkept value
      (mem_cons_of_mem _ hval)
    have hin := hkept _ mem_cons_self
    obtain ⟨token, htoken, hstep⟩ := hin.expands sem locals
    refine ⟨code ++ [token], ?_, fun r m hagr => ?_⟩
    · rw [reverse_cons, map_append]
      exact hcode.append htoken
    · rw [foldlM_append, hruns r m hagr]
      cases hrun : covered.reverse.foldlM (Reference.step g s sem) r with
      | error p => rfl
      | ok reference' =>
        have hstore := Reference.foldlM_store hrun (hin.not_mem hp
          (fun other hother => hbef other (h.before_eq ▸ mem_append_left _ (List.mem_reverse.mp hother)))
          fun other hother => hinline other (List.mem_reverse.mp hother))
        show List.foldlM (Machine.step g s sem) _ [token] = _
        dsimp only
        rw [foldlM_cons, hstep reference' (m.push _ reference'.progress) fun hlit =>
          (hagr.locals _ hin hlit).trans hstore.symm]
        rfl
  | @take before covered rest pending kept input item hprod huses hsingle h ih =>
    rw [nodup_cons] at hnodup
    obtain ⟨code, hcode, hruns⟩ := ih (fun other hother => hbef other (mem_cons_of_mem _ hother)) hnodup.2
      (fun other hother => hinline other (mem_cons_of_mem _ hother)) hkept
    have hitem := hbef item mem_cons_self
    have hres := (hp.produced _ _ hprod).2
    have hlit := hp.literal item hitem _ hres
    obtain ⟨result, hresults⟩ := List.length_eq_one_iff.mp hsingle
    rw [hresults, List.mem_singleton] at hres
    rw [List.reverse_append, reverse_reverse, map_append] at hcode
    obtain ⟨front, back, rfl, hfront, hback⟩ := hcode.split rfl
    refine ⟨front ++ (back ++ [.instruction item]), ?_, fun r m hagr => ?_⟩
    · rw [reverse_cons, map_append]
      exact hfront.append (.inline hlit hprod (hinline item mem_cons_self)
        (.item (hback.append (.finish .nil))))
    · rw [← append_assoc, foldlM_append, hruns r m hagr, reverse_cons, foldlM_append]
      cases hrun : covered.reverse.foldlM (Reference.step g s sem) r with
      | error p => rfl
      | ok reference' =>
        show List.foldlM (Machine.step g s sem) _ [Code.instruction item] =
          Except.map _ (List.foldlM (Reference.step g s sem) reference' [item])
        dsimp only
        rw [foldlM_cons, foldlM_cons, Machine.step_instruction item
          ((s.inputs g item).map fun input => reference'.read g sem (s.resolve input))
          (pending.map (fun input => reference'.read g sem (s.resolve input)) ++ m.stack)
          (by simp only [Machine.push, map_append, List.map_reverse, append_assoc]) (List.length_map ..),
          Reference.step, Machine.push_progress]
        cases hperform : sem.perform item ((s.inputs g item).map fun input =>
            reference'.read g sem (s.resolve input)) reference'.progress with
        | error p => rfl
        | ok performed =>
          obtain ⟨results, p⟩ := performed
          have hlen := perform_length harity hitem hperform
          rw [hsingle] at hlen
          obtain ⟨v, rfl⟩ := List.length_eq_one_iff.mp hlen
          have hother : ∀ other ∈ pending, s.resolve other ∉ s.results g item := by
            intro other hmem hmem'
            have hprod' := hp.producer item hitem _ hmem'
            rcases h.pending_mem (mem_append_right _ hmem) with hkeep | ⟨item', hitem', hprod''⟩
            · have := (hkept _ hkeep).producer item hprod'
              rw [hinline item mem_cons_self] at this
              cases this
            · cases hprod'.symm.trans hprod''
              exact hnodup.1 (h.before_eq ▸ mem_append_left _ hitem')
          have htail : pending.map (fun other => Reference.read g sem
              ⟨assign reference'.store (s.results g item) [v], p⟩ (s.resolve other)) =
              pending.map fun other => reference'.read g sem (s.resolve other) :=
            List.map_congr_left fun other hmem => Reference.read_congr (assign_of_not_mem (hother other hmem))
          have hhead : Reference.read g sem
              ⟨assign reference'.store (s.results g item) [v], p⟩ (s.resolve input) =
              v := by
            rw [Reference.read_of_not_literal hlit, hresults, hres]
            exact assign_single ..
          show _ = Except.ok (m.push (List.map _ (input :: pending)) p)
          rw [List.map_cons, hhead, htail]
          rfl

end Simulation

/-! ## Blocks -/

theorem assign_of_mem {store : Nat → V} {results : List Nat} {values : List V} (hnodup : results.Nodup) {value : Nat}
    {v : V} (h : (value, v) ∈ results.zip values) : assign store results values value = v := by
  rw [assign]
  induction results generalizing store values with
  | nil => cases h
  | cons result results ih =>
    rw [nodup_cons] at hnodup
    cases values with
    | nil => cases h
    | cons w values =>
      rw [zip_cons_cons, List.mem_cons] at h
      rw [zip_cons_cons, List.foldl_cons]
      rcases h with h | h
      · cases h
        exact (assign_of_not_mem hnodup.1).trans (update_self ..)
      · exact ih hnodup.2 h

/-- Emitted code that does what the items do when all results go through locals. -/
inductive Simulates (graph : FunctionGraph) (view : OperandView) (locals : Nat → Nat) (stack : List V) :
    Except (Progress V W) (Reference V W) → Except (Progress V W) (Machine V W) → Prop
  | stopped (progress : Progress V W) : Simulates graph view locals stack (.error progress) (.error progress)
  | running {reference : Reference V W} {machine : Machine V W} (hstack : machine.stack = stack)
      (hagrees : Agrees graph view locals reference machine) :
      Simulates graph view locals stack (.ok reference) (.ok machine)

theorem Simulates.bind {graph : FunctionGraph} {view : OperandView} {locals : Nat → Nat} {stack : List V}
    {x : Except (Progress V W) (Reference V W)} {y : Except (Progress V W) (Machine V W)}
    {f : Reference V W → Except (Progress V W) (Reference V W)} {g : Machine V W → Except (Progress V W) (Machine V W)}
    (h : Simulates graph view locals stack x y) (hnext : ∀ ref mach, mach.stack = stack →
      Agrees graph view locals ref mach → Simulates graph view locals stack (f ref) (g mach)) :
    Simulates graph view locals stack (x >>= f) (y >>= g) := by
  cases h with
  | stopped progress => exact .stopped progress
  | running hstack hagr => exact hnext _ _ hstack hagr

section Blocks

variable {g : FunctionGraph} {s : Selection} {view : OperandView} {locals : Nat → Nat}
  {items : List BlockItem} {sem : Semantics V W}
  (hp : Placement g s view locals items)

/-- Results leave the stack for their locals, the topmost first. -/
theorem foldlM_results (s : Selection) (view : OperandView) (sem : Semantics V W)
    (hlocals : ∀ a b, (∀ bits, g.values.definition a ≠ .literal bits) →
      (∀ bits, g.values.definition b ≠ .literal bits) → locals a = locals b → a = b)
    {results : List Nat} {values stack : List V} {m : Machine V W} (hnodup : results.Nodup)
    (hlen : results.length = values.length)
    (hlit : ∀ value ∈ results, ∀ bits, g.values.definition value ≠ .literal bits)
    (hstack : m.stack = values ++ stack) :
    ∃ machine', (results.map fun result => if view.uses result = 0 then Code.drop else .set (locals result)).foldlM
        (Machine.step g s sem) m = .ok machine' ∧
      machine'.stack = stack ∧ machine'.progress = m.progress ∧
      (∀ value, (∀ bits, g.values.definition value ≠ .literal bits) → value ∉ results →
        machine'.locals (locals value) = m.locals (locals value)) ∧
      ∀ value v, (value, v) ∈ results.zip values → view.uses value ≠ 0 → machine'.locals (locals value) = v := by
  induction results generalizing values m with
  | nil =>
    obtain rfl := List.length_eq_zero_iff.mp hlen.symm
    exact ⟨m, rfl, hstack, rfl, fun _ _ _ => rfl, nofun⟩
  | cons result results ih =>
    rw [nodup_cons] at hnodup
    cases values with
    | nil => cases hlen
    | cons v values =>
      have hrest := fun value hval => hlit value (mem_cons_of_mem result hval)
      have hres := hlit result mem_cons_self
      -- The first result is dropped or set, and the others follow.
      obtain ⟨next, hstep, hstack', hprog', hothers, hself⟩ : ∃ next,
          m.step g s sem
            (if view.uses result = 0 then Code.drop else .set (locals result)) = .ok next ∧
          next.stack = values ++ stack ∧ next.progress = m.progress ∧
          (∀ value, (∀ bits, g.values.definition value ≠ .literal bits) → value ≠ result →
            next.locals (locals value) = m.locals (locals value)) ∧
          (view.uses result ≠ 0 → next.locals (locals result) = v) := by
        split
        · next hunused =>
            refine ⟨_, rfl, ?_, rfl, fun _ _ _ => rfl, fun h => absurd hunused h⟩
            show m.stack.tail = _
            rw [hstack]
            rfl
        · refine ⟨{ m with
              locals := update m.locals (locals result) v
              stack := values ++ stack }, ?_, rfl, rfl, fun value hval hne => ?_, fun _ => update_self ..⟩
          · rw [Machine.step, hstack]
            rfl
          · exact update_of_ne (fun h => hne (hlocals value result hval hres h)) ..
      obtain ⟨machine', hrun, hstack'', hprog'', hothers', hself'⟩ := ih hnodup.2 (Nat.succ.inj hlen) hrest hstack'
      refine ⟨machine', ?_, hstack'', hprog''.trans hprog', fun value hval hmem => ?_,
        fun value w hmem hused => ?_⟩
      · rw [List.map_cons, foldlM_cons, hstep]
        exact hrun
      · rw [List.mem_cons, not_or] at hmem
        exact (hothers' value hval hmem.2).trans (hothers value hval hmem.1)
      · rw [zip_cons_cons, List.mem_cons] at hmem
        rcases hmem with hmem | hmem
        · cases hmem
          exact (hothers' result hres hnodup.1).trans (hself hused)
        · exact hself' value w hmem hused

include hp

/-- Storing the results of an item is assigning them, as far as they are kept. -/
theorem storeResults_agrees (sem : Semantics V W) {item : BlockItem} (hitem : item ∈ items)
    {r : Reference V W} (m : Machine V W) {results : List V} {stack : List V} {p : Progress V W}
    (hlen : results.length = (s.results g item).length)
    (hstack : m.stack = results.reverse ++ stack) (hprog : m.progress = p)
    (hagr : ∀ value, Kept g view value → (∀ bits, g.values.definition value ≠ .literal bits) →
      m.locals (locals value) = r.store value) :
    ∃ machine', (storeResults g s view locals item).foldlM
      (Machine.step g s sem) m = .ok machine' ∧ machine'.stack = stack ∧
      Agrees g view locals ⟨assign r.store (s.results g item) results, p⟩ machine' := by
  have hdistinct := hp.distinct item hitem
  obtain ⟨machine', hrun, hstack', hprog', hothers, hself⟩ := foldlM_results s view sem
    hp.locals (List.nodup_reverse.mpr hdistinct)
    (by rw [List.length_reverse, List.length_reverse, hlen])
    (fun value hval => hp.literal item hitem value (List.mem_reverse.mp hval)) hstack
  refine ⟨machine', hrun, hstack', hprog'.trans hprog, fun value hkept hlit => ?_⟩
  dsimp only
  by_cases hmem : value ∈ s.results g item
  · obtain ⟨v, hpair⟩ : ∃ v, (value, v) ∈ (s.results g item).zip results := by
      rw [← List.map_fst_zip (Nat.le_of_eq hlen.symm)] at hmem
      obtain ⟨⟨_, v⟩, hpair, rfl⟩ := List.mem_map.mp hmem
      exact ⟨v, hpair⟩
    rw [assign_of_mem hdistinct hpair]
    refine hself _ _ ?_ hkept.used
    rw [List.zip, ← List.reverse_zipWith hlen.symm]
    exact List.mem_reverse.mpr hpair
  · rw [assign_of_not_mem hmem, hothers value hlit (fun h => hmem (List.mem_reverse.mp h))]
    exact hagr value hkept hlit

omit hp in
theorem blockItems_append {n : Nat} {a b : List BlockItem} {code code' : List Code}
    (h : blockItems g s view locals n a = some code)
    (h' : blockItems g s view locals n b = some code') :
    blockItems g s view locals n (a ++ b) = some (code ++ code') := by
  induction a generalizing code with
  | nil =>
    cases h
    exact h'
  | cons item a ih =>
    rw [blockItems] at h
    rw [List.cons_append, blockItems]
    split
    · next hskip =>
        rw [if_pos hskip] at h
        exact ih h
    · next hskip =>
        rw [if_neg hskip] at h
        obtain ⟨front, hfront, h⟩ := Option.bind_eq_some_iff.mp h
        obtain ⟨back, hback, h⟩ := Option.bind_eq_some_iff.mp h
        cases h
        rw [hfront, Option.bind_eq_bind, Option.bind_some, ih hback]
        simp only [Option.bind_some, Option.pure_def, append_assoc]

omit hp in
/-- Covered items are emitted with their consumers. -/
theorem blockItems_covered (g : FunctionGraph) (s : Selection) (locals : Nat → Nat) (n : Nat)
    (covered : List BlockItem) (h : ∀ item ∈ covered, view.inline item = true) :
    blockItems g s view locals n covered = some [] := by
  induction covered with
  | nil => rfl
  | cons item covered ih =>
    rw [blockItems, if_pos (by rw [h item mem_cons_self, Bool.or_true])]
    exact ih fun other hother => h other (mem_cons_of_mem _ hother)

variable (harity : ∀ item ∈ items, ∀ operands world results, (sem.execute item operands world).1 = some results →
    results.length = (s.results g item).length)
  (hen : ∀ item ∈ items, s.enabled item = true)

include harity hen

/-- An item that is not covered: its operands' code, its instruction, and its results. -/
theorem root_follows {item : BlockItem} {before covered rest : List BlockItem} {kept : List Nat}
    (h : Covers g s view.producer view.uses before (s.inputs g item).reverse kept covered rest)
    (hitem : item ∈ items) (hroot : view.inline item = false) (hbef : ∀ item ∈ before, item ∈ items)
    (hnodup : before.Nodup) (hinline : ∀ item ∈ covered, view.inline item = true)
    (hkept : ∀ v ∈ kept, Kept g view v) :
    ∃ code n, (∀ m, n ≤ m → blockItems g s view locals m (covered.reverse ++ [item]) = some code) ∧
      ∀ (r : Reference V W) (mach : Machine V W), Agrees g view locals r mach →
        Simulates g view locals mach.stack
          ((covered.reverse ++ [item]).foldlM (Reference.step g s sem) r)
          (code.foldlM (Machine.step g s sem) mach) := by
  obtain ⟨code, hcode, hruns⟩ := h.simulates hp harity hbef hnodup hinline hkept
  rw [reverse_reverse] at hcode
  have hcode' : Expands g s view locals [.item item] (code ++ [.instruction item]) :=
    .item (hcode.append (.finish .nil))
  obtain ⟨n, hn⟩ := hcode'.expand
  refine ⟨code ++ ([.instruction item] ++ storeResults g s view locals item), n, fun m hm => ?_,
    fun r mach hagr => ?_⟩
  · have hcov := blockItems_covered g s locals m covered.reverse
      fun other hother => hinline other (List.mem_reverse.mp hother)
    rw [← List.nil_append (code ++ _)]
    refine blockItems_append hcov ?_
    rw [blockItems, if_neg (by rw [hen item hitem, hroot]; exact Bool.false_ne_true), hn m hm]
    simp only [blockItems, Option.bind_eq_bind, Option.bind_some, Option.pure_def, append_assoc, List.append_nil]
  · rw [foldlM_append, foldlM_append, hruns r mach hagr]
    cases hrun : covered.reverse.foldlM (Reference.step g s sem) r with
    | error p => exact .stopped p
    | ok reference' =>
      show Simulates g view locals mach.stack
        (List.foldlM (Reference.step g s sem) reference' [item])
        (List.foldlM (Machine.step g s sem) (mach.push _ reference'.progress)
          ([.instruction item] ++ storeResults g s view locals item))
      have hkept' : ∀ v, Kept g view v → (∀ bits, g.values.definition v ≠ .literal bits) →
          mach.locals (locals v) = reference'.store v := by
        intro v hval hlit
        rw [hagr.locals v hval hlit]
        refine (Reference.foldlM_store hrun (hval.not_mem hp
          (fun other hother => ?_) fun other hother => ?_)).symm
        · exact hbef other (h.before_eq ▸ mem_append_left _ (List.mem_reverse.mp hother))
        · exact hinline other (List.mem_reverse.mp hother)
      rw [List.singleton_append, foldlM_cons, foldlM_cons, Machine.step_instruction item
        ((s.inputs g item).map fun input => reference'.read g sem (s.resolve input))
        mach.stack (by simp only [Machine.push, List.map_reverse]) (List.length_map ..), Reference.step,
        Machine.push_progress]
      cases hperform : sem.perform item ((s.inputs g item).map fun input =>
          reference'.read g sem (s.resolve input)) reference'.progress with
      | error p => exact .stopped p
      | ok performed =>
        obtain ⟨results, p⟩ := performed
        obtain ⟨machine', hstore, hstack, hagr'⟩ := storeResults_agrees hp sem hitem
          ⟨mach.locals, results.reverse ++ mach.stack, p⟩
            (perform_length harity hitem hperform) rfl rfl hkept'
        show Simulates g view locals mach.stack (.ok _) (List.foldlM (Machine.step g s sem)
          ⟨mach.locals, results.reverse ++ mach.stack, p⟩ _)
        rw [hstore]
        exact .running hstack hagr'

/-- The code of the items before the cursor. -/
theorem OperandView.Segments.follows {before covered : List BlockItem} {kept : List Nat}
    (h : Segments g s view.producer view.uses before kept covered)
    (hbef : ∀ item ∈ before, item ∈ items) (hnodup : before.Nodup)
    (hroots : ∀ item ∈ before, view.inline item = true ↔ item ∈ covered)
    (hkept : ∀ v ∈ kept, Kept g view v) :
    ∃ code n, (∀ m, n ≤ m → blockItems g s view locals m before.reverse = some code) ∧
      ∀ (r : Reference V W) (mach : Machine V W), Agrees g view locals r mach →
        Simulates g view locals mach.stack
          (before.reverse.foldlM (Reference.step g s sem) r)
          (code.foldlM (Machine.step g s sem) mach) := by
  induction h with
  | nil => exact ⟨[], 0, fun _ _ => rfl, fun r mach hagr => .running rfl hagr⟩
  | @root before covered covered' rest kept kept' item h h' ih =>
    rw [nodup_cons] at hnodup
    have heq := h.before_eq
    have hparts := hnodup.2
    rw [heq, List.nodup_append] at hparts
    have hrest : ∀ other ∈ rest, other ∈ before := fun other hother => heq ▸ mem_append_right _ hother
    have hfst : ∀ other ∈ covered, other ∈ before := fun other hother => heq ▸ mem_append_left _ hother
    have hroot : view.inline item = false := by
      rw [Bool.eq_false_iff]
      intro hinline
      rcases List.mem_append.mp ((hroots item mem_cons_self).mp hinline) with hmem | hmem
      · exact hnodup.1 (hfst item hmem)
      · exact hnodup.1 (hrest item (h'.covered_sublist.subset hmem))
    have hroots' : ∀ other ∈ rest, view.inline other = true ↔ other ∈ covered' := by
      intro other hother
      rw [hroots other (mem_cons_of_mem _ (hrest other hother)), List.mem_append]
      exact or_iff_right fun hmem => hparts.2.2 other hmem other hother rfl
    obtain ⟨code, n, hcode, hruns⟩ := ih (fun other hother => hbef other
      (mem_cons_of_mem _ (hrest other hother)))
      hparts.2.1 hroots' fun v hval => hkept v (mem_append_right _ hval)
    obtain ⟨code', n', hcode', hruns'⟩ := root_follows hp harity hen h
      (hbef item mem_cons_self) hroot (fun other hother => hbef other (mem_cons_of_mem _ hother))
      hnodup.2 (fun other hother => (hroots other (mem_cons_of_mem _ (hfst other hother))).mpr
        (mem_append_left _ hother)) fun v hval => hkept v (mem_append_left _ hval)
    have hreverse : (item :: before).reverse = rest.reverse ++ (covered.reverse ++ [item]) := by
      rw [reverse_cons, heq, List.reverse_append, append_assoc]
    rw [hreverse]
    refine ⟨code ++ code', max n n', fun m hm => blockItems_append (hcode m (by omega)) (hcode' m (by omega)),
      fun r mach hagr => ?_⟩
    rw [foldlM_append, foldlM_append]
    refine (hruns r mach hagr).bind fun reference' machine' hstack hagr' => ?_
    rw [← hstack]
    exact hruns' reference' machine' hagr'

end Blocks

/-- Disabled items emit nothing. -/
theorem blockItems_filter (graph : FunctionGraph) (selection : Selection) (view : OperandView) (locals : Nat → Nat)
    (n : Nat) (items : List BlockItem) : blockItems graph selection view locals n (items.filter selection.enabled) =
      blockItems graph selection view locals n items := by
  induction items with
  | nil => rfl
  | cons item items ih =>
    rw [List.filter_cons]
    cases hen : selection.enabled item with
    | false =>
      rw [if_neg Bool.false_ne_true, ih, blockItems, if_pos (by rw [hen]; rfl)]
    | true => rw [if_pos rfl, blockItems, blockItems, ih]

/-! ## Locals of the writer -/

/-- The parameters of the entry block are the parameters of the function, in order. -/
structure Entry (graph : FunctionGraph) (parameterCount : Nat) : Prop where
  length : (graph.block graph.entry).parameters.length = parameterCount
  parameter : ∀ k value, (graph.block graph.entry).parameters[k]? = some value →
    graph.values.definition value = .parameter graph.entry k

section Locals

variable {graph g : FunctionGraph} {parameterCount : Nat}

theorem writerLocal_entry (h : Entry g parameterCount) {v : Nat}
    (hval : v ∈ (g.block g.entry).parameters) :
    ∃ k, k < parameterCount ∧ (g.block g.entry).parameters[k]? = some v ∧
      writerLocal g parameterCount v = k := by
  obtain ⟨k, hk⟩ := List.mem_iff_getElem?.mp hval
  refine ⟨k, ?_, hk, ?_⟩
  · rw [← h.length]
    exact (List.getElem?_eq_some_iff.mp hk).1
  · rw [writerLocal, h.parameter k v hk]
    exact if_pos (List.contains_iff_mem.mpr hval)

theorem writerLocal_slot {v : Nat} (hval : v ∉ (g.block g.entry).parameters) :
    writerLocal g parameterCount v = writerLocal.slotOf g parameterCount v := by
  rw [writerLocal]
  split
  · exact if_neg fun h => hval (List.contains_iff_mem.mp h)
  · rfl

/-- Later values have later slots. -/
theorem slotOf_lt {a b : Nat} (hab : a < b) (ha : a ∉ (g.block g.entry).parameters)
    (hlit : ∀ bits, g.values.definition a ≠ .literal bits) :
    writerLocal.slotOf g parameterCount a < writerLocal.slotOf g parameterCount b := by
  obtain ⟨c, rfl⟩ := Nat.exists_eq_add_of_lt hab
  rw [writerLocal.slotOf, writerLocal.slotOf, Nat.add_assoc, List.range_add, List.filter_append, List.length_append]
  refine Nat.add_lt_add_left (Nat.lt_add_of_pos_right (List.length_pos_of_mem (a := a) ?_)) _
  refine List.mem_filter.mpr ⟨List.mem_map.mpr ⟨0, List.mem_range.mpr (Nat.succ_pos c), rfl⟩, ?_⟩
  have hcont : (g.block g.entry).parameters.contains a = false := by
    rw [Bool.eq_false_iff, ne_eq, List.contains_iff_mem]
    exact ha
  rw [hcont]
  split
  · next bits h => exact absurd h (hlit bits)
  · rfl

/-- Values that are no literals have locals of their own. -/
theorem writerLocal_injective (h : Entry g parameterCount) (a b : Nat)
    (ha : ∀ bits, g.values.definition a ≠ .literal bits) (hb : ∀ bits, g.values.definition b ≠ .literal bits)
    (heq : writerLocal g parameterCount a = writerLocal g parameterCount b) : a = b := by
  have hslot : ∀ v, parameterCount ≤ writerLocal.slotOf g parameterCount v := fun v => Nat.le_add_right ..
  by_cases hmem : a ∈ (g.block g.entry).parameters
  · obtain ⟨k, hk, hka, hlocal⟩ := writerLocal_entry h hmem
    by_cases hmem' : b ∈ (g.block g.entry).parameters
    · obtain ⟨k', hk', hkb, hlocal'⟩ := writerLocal_entry h hmem'
      rw [hlocal, hlocal'] at heq
      rw [heq, hkb] at hka
      exact (Option.some.inj hka).symm
    · rw [hlocal, writerLocal_slot hmem'] at heq
      have := hslot b
      omega
  · by_cases hmem' : b ∈ (g.block g.entry).parameters
    · obtain ⟨k', hk', hkb, hlocal'⟩ := writerLocal_entry h hmem'
      rw [hlocal', writerLocal_slot hmem] at heq
      have := hslot a
      omega
    · rw [writerLocal_slot hmem, writerLocal_slot hmem'] at heq
      rcases Nat.lt_trichotomy a b with hlt | rfl | hlt
      · exact absurd heq (slotOf_lt hlt hmem ha).ne
      · rfl
      · exact absurd heq.symm (slotOf_lt hlt hmem' hb).ne

end Locals

/-! ## Placed blocks -/

section Placed

variable {graph g : FunctionGraph} {selection : Selection} {reachable : Nat → Bool} {parameterCount : Nat}
  {semantics : Semantics V W}

theorem new_placement (hproduced : Produced g selection ((List.range g.blocks.length).filter reachable))
    (hent : Entry g parameterCount) :
    Placement g selection (OperandView.new g selection reachable) (writerLocal g parameterCount)
      (((List.range g.blocks.length).filter reachable).flatMap (OperandView.items g selection)) := by
  have hblocks : ((List.range g.blocks.length).filter reachable).Nodup := List.nodup_range.filter _
  rw [OperandView.new]
  generalize (List.range g.blocks.length).filter reachable = blocks at hproduced hblocks ⊢
  obtain ⟨kept, covered, -, hmarks⟩ := foldl_coverBlock blocks (OperandView.start g selection blocks) hblocks
    hproduced.items fun _ _ => rfl
  refine ⟨fun v item h => ?_, fun item hitem v hval => ?_, fun item hitem => ?_, hproduced.literal,
    writerLocal_injective hent⟩
  · rw [hmarks.producer] at h
    exact start_produced h
  · rw [hmarks.producer]
    exact start_producer hproduced hitem hval
  · exact (List.nodup_flatMap.mp hproduced.results).1 item hitem

/-- An item that runs leaves a record of it and its operands. -/
theorem Reference.foldlM_events {items : List BlockItem} {r reference' : Reference V W}
    (h : items.foldlM (Reference.step g selection semantics) r = .ok reference') :
    reference'.progress.events.map Prod.fst = r.progress.events.map Prod.fst ++ items := by
  induction items generalizing r with
  | nil =>
    cases h
    exact (List.append_nil _).symm
  | cons item items ih =>
    rw [foldlM_cons] at h
    cases hstep : r.step g selection semantics item with
    | error p =>
      rw [hstep] at h
      cases h
    | ok next =>
      rw [hstep] at h
      rw [ih h]
      have hevents : next.progress.events.map Prod.fst = r.progress.events.map Prod.fst ++ [item] := by
        rw [Reference.step, Semantics.perform] at hstep
        split at hstep
        · cases hstep
          rw [map_append]
          rfl
        · cases hstep
      rw [hevents, append_assoc]
      rfl

/-- Forwarding results on the operand stack is not observed. The code of a placed block and of what its exit reads
    executes the enabled items once each and in their order, with the operands they have when every result goes through
    its own local, and leaves what the exit reads on the stack in order. Arguments that are read after control is
    transferred are in their locals, or are constants. -/
theorem forwards (hproduced : Produced graph selection ((List.range graph.blocks.length).filter reachable))
    (hentry : Entry graph parameterCount)
    (harity : ∀ item ∈ ((List.range graph.blocks.length).filter reachable).flatMap (OperandView.items graph selection),
      ∀ operands world results, (semantics.execute item operands world).1 = some results →
        results.length = (selection.results graph item).length)
    {block : Nat} (hblock : block < graph.blocks.length) (hreachable : reachable block = true) :
    ∃ code exit n,
      (∀ m, n ≤ m →
        blockItems graph selection (OperandView.new graph selection reachable) (writerLocal graph parameterCount) m
          (graph.block block).items = some code ∧
        expand graph selection (OperandView.new graph selection reachable) (writerLocal graph parameterCount) m
          ((selection.exitInputs graph (graph.block block).exit).map .value) = some exit) ∧
      (∀ (reference : Reference V W) (machine : Machine V W),
        Agrees graph (OperandView.new graph selection reachable) (writerLocal graph parameterCount) reference machine →
        (∀ progress, (OperandView.items graph selection block).foldlM (Reference.step graph selection semantics)
            reference = .error progress →
          (code ++ exit).foldlM (Machine.step graph selection semantics) machine = .error progress) ∧
        ∀ reference', (OperandView.items graph selection block).foldlM (Reference.step graph selection semantics)
            reference = .ok reference' →
          reference'.progress.events.map Prod.fst =
            reference.progress.events.map Prod.fst ++ OperandView.items graph selection block ∧
          ∃ machine', (code ++ exit).foldlM (Machine.step graph selection semantics) machine = .ok machine' ∧
            machine'.stack = ((selection.exitInputs graph (graph.block block).exit).map fun input =>
              reference'.read graph semantics (selection.resolve input)).reverse ++ machine.stack ∧
            Agrees graph (OperandView.new graph selection reachable) (writerLocal graph parameterCount) reference'
              machine') ∧
      ∀ argument ∈ exitArguments (graph.block block).exit, ∃ token,
        (∃ n, ∀ m, n ≤ m → expand graph selection (OperandView.new graph selection reachable)
          (writerLocal graph parameterCount) m [.value argument] = some [token]) ∧
        ∀ (reference : Reference V W) (machine : Machine V W),
          Agrees graph (OperandView.new graph selection reachable) (writerLocal graph parameterCount) reference
            machine →
          machine.step graph selection semantics token = .ok { machine with
            stack := reference.read graph semantics (selection.resolve argument) :: machine.stack } := by
  have hplacement := new_placement hproduced hentry
  obtain ⟨kept, covered, hpasses, hinline, hkept⟩ := new_passes hproduced
  have hmem : block ∈ (List.range graph.blocks.length).filter reachable :=
    List.mem_filter.mpr ⟨List.mem_range.mpr hblock, hreachable⟩
  have hitems : ∀ item ∈ OperandView.items graph selection block,
      item ∈ ((List.range graph.blocks.length).filter reachable).flatMap (OperandView.items graph selection) :=
    fun item hitem => List.mem_flatMap.mpr ⟨block, hmem, hitem⟩
  have hdisjoint := List.nodup_flatMap.mp hproduced.items
  -- an item of this block is covered by the pass over this block or by none
  have hown : ∀ item ∈ OperandView.items graph selection block,
      (OperandView.new graph selection reachable).inline item = true ↔ item ∈ covered block := by
    intro item hitem
    rw [hinline, List.mem_flatMap]
    refine ⟨fun ⟨other, hother, hcovered⟩ => ?_, fun hcovered => ⟨block, hmem, hcovered⟩⟩
    have hitem' : item ∈ OperandView.items graph selection other :=
      List.mem_reverse.mp ((hpasses other hother).covered_sublist.subset hcovered)
    by_cases heq : other = block
    · exact heq ▸ hcovered
    · have hsymm : Std.Symm (Function.onFun List.Disjoint (OperandView.items graph selection)) :=
        ⟨fun _ _ h => List.Disjoint.symm h⟩
      exact absurd hitem (hdisjoint.2.forall hother hmem heq hitem')
  have hkeep : ∀ value ∈ kept block ++ (exitArguments (graph.block block).exit).map selection.resolve,
      Kept graph (OperandView.new graph selection reachable) value := fun value hvalue =>
    ⟨(hkept block hmem value hvalue).1, (hkept block hmem value hvalue).2⟩
  have hpass := hpasses block hmem
  have hnodup : (OperandView.items graph selection block).reverse.Nodup :=
    List.nodup_reverse.mpr (hdisjoint.1 block hmem)
  generalize OperandView.new graph selection reachable = view at *
  generalize covered block = coveredItems at hown hpass
  generalize kept block = keptValues at hkeep hpass
  -- the pass covers items for the exit, which come last, and then for the roots before them
  obtain ⟨h, h'⟩ := hpass
  rename_i covered₁ covered₂ rest kept₁ kept₂
  have heq := h.before_eq
  have hitems' : OperandView.items graph selection block = rest.reverse ++ covered₁.reverse := by
    rw [← List.reverse_append, ← heq, reverse_reverse]
  have hparts := hnodup
  rw [heq, List.nodup_append] at hparts
  have hrest : ∀ item ∈ rest, item ∈ OperandView.items graph selection block := fun item hitem =>
    hitems' ▸ mem_append_left _ (List.mem_reverse.mpr hitem)
  have hfirst : ∀ item ∈ covered₁, view.inline item = true := fun item hitem =>
    (hown item (hitems' ▸ mem_append_right _ (List.mem_reverse.mpr hitem))).mpr (mem_append_left _ hitem)
  have hroots : ∀ item ∈ rest, view.inline item = true ↔ item ∈ covered₂ := by
    intro item hitem
    rw [hown item (hrest item hitem), List.mem_append]
    exact or_iff_right fun hmem => hparts.2.2 item hmem item hitem rfl
  have henabled : ∀ item ∈ ((List.range graph.blocks.length).filter reachable).flatMap
    (OperandView.items graph selection), selection.enabled item = true := by
    intro item hitem
    obtain ⟨other, -, hitem⟩ := List.mem_flatMap.mp hitem
    exact (List.mem_filter.mp hitem).2
  -- the roots run one after the other, each after what it covers; the exit runs what is left
  obtain ⟨code, n, hcode, hruns⟩ := h'.follows hplacement harity henabled
    (fun item hitem => hitems item (hrest item hitem)) hparts.2.1 hroots fun value hvalue =>
      hkeep value (mem_append_left _ (mem_append_right _ hvalue))
  obtain ⟨exit, hexit, hexitRuns⟩ := h.simulates hplacement harity
    (fun item hitem => hitems item (List.mem_reverse.mp hitem)) hnodup hfirst fun value hvalue =>
      hkeep value (mem_append_left _ (mem_append_left _ hvalue))
  rw [reverse_reverse] at hexit
  obtain ⟨n', hexit'⟩ := hexit.expand
  refine ⟨code, exit, max n n', fun m hm => ⟨?_, hexit' m (by omega)⟩, fun reference machine hagrees => ?_,
    fun argument hargument => ?_⟩
  · rw [← blockItems_filter]
    show blockItems graph selection view _ m (OperandView.items graph selection block) = _
    rw [hitems', ← List.append_nil code]
    exact blockItems_append (hcode m (by omega)) (blockItems_covered graph selection _ m covered₁.reverse
      fun item hitem => hfirst item (List.mem_reverse.mp hitem))
  · suffices hmain : (∀ progress, (OperandView.items graph selection block).foldlM
          (Reference.step graph selection semantics) reference = .error progress →
        (code ++ exit).foldlM (Machine.step graph selection semantics) machine = .error progress) ∧
        ∀ reference', (OperandView.items graph selection block).foldlM (Reference.step graph selection semantics)
            reference = .ok reference' →
          ∃ machine', (code ++ exit).foldlM (Machine.step graph selection semantics) machine = .ok machine' ∧
            machine'.stack = ((selection.exitInputs graph (graph.block block).exit).map fun input =>
              reference'.read graph semantics (selection.resolve input)).reverse ++ machine.stack ∧
            Agrees graph view (writerLocal graph parameterCount) reference' machine' from
      ⟨hmain.1, fun reference' hrun => ⟨Reference.foldlM_events hrun, hmain.2 reference' hrun⟩⟩
    rw [hitems', foldlM_append, foldlM_append]
    have hfollows := hruns reference machine hagrees
    generalize rest.reverse.foldlM (Reference.step graph selection semantics) reference = x at hfollows ⊢
    generalize code.foldlM (Machine.step graph selection semantics) machine = y at hfollows ⊢
    cases hfollows with
    | stopped progress => exact ⟨fun _ h => by cases h; rfl, fun _ h => by cases h⟩
    | @running reference₁ machine₁ hstack hagrees₁ =>
        show (∀ progress, covered₁.reverse.foldlM (Reference.step graph selection semantics) reference₁ =
            .error progress → exit.foldlM (Machine.step graph selection semantics) machine₁ = .error progress) ∧
          ∀ reference', covered₁.reverse.foldlM (Reference.step graph selection semantics) reference₁ =
            .ok reference' → ∃ machine', exit.foldlM (Machine.step graph selection semantics) machine₁ = .ok machine' ∧
              machine'.stack = _ ∧ Agrees graph view (writerLocal graph parameterCount) reference' machine'
        rw [hexitRuns reference₁ machine₁ hagrees₁]
        refine ⟨fun progress hrun => by rw [hrun]; rfl, fun reference' hrun => ?_⟩
        rw [hrun]
        refine ⟨_, rfl, ?_, rfl, fun value hvalue hliteral => ?_⟩
        · show List.map _ _ ++ machine₁.stack = _
          rw [hstack, List.map_reverse]
        · rw [Machine.push_locals, hagrees₁.locals value hvalue hliteral]
          refine (Reference.foldlM_store hrun (hvalue.not_mem hplacement (fun item hitem => ?_)
            fun item hitem => hfirst item (List.mem_reverse.mp hitem))).symm
          exact hitems item (hitems' ▸ mem_append_right _ hitem)
  · obtain ⟨token, htoken, hstep⟩ := (hkeep (selection.resolve argument) (mem_append_right _
      (List.mem_map_of_mem hargument))).expands semantics (writerLocal graph parameterCount)
    exact ⟨token, htoken.expand, fun reference machine hagrees =>
      hstep reference machine fun hliteral => hagrees.locals _ (hkeep (selection.resolve argument)
        (mem_append_right _ (List.mem_map_of_mem hargument))) hliteral⟩

end Placed

/-! ## A run -/

/-- A loaded word is added to its address, and the sum is returned. -/
def sumTable : ValueTable :=
  (((ValueTable.empty.push ⟨.i32, .parameter 0 0⟩).2.push ⟨.i32, .result (.effect 0) 0⟩).2.push
    ⟨.i32, .expression (.binary (.integer .add) 1 0)⟩).2

def sumGraph : FunctionGraph where
  values := sumTable
  effects := [⟨[1], ⟨.load ⟨0, 0, 4⟩, [0]⟩⟩]
  blocks := [⟨[0], [.effect 0, .evaluate 2], [], .ret [2]⟩]
  layout := [.block 0]
  entry := 0

def sumSelection : Selection := ⟨fun _ => false, fun _ => none, fun _ => false, fun _ => none, fun _ => 1⟩

/-- The load adds seven to its address. -/
def sumSemantics : Semantics Nat Unit where
  constant := fun _ bits => bits
  execute := fun item operands world =>
    match item with
    | .effect _ => (some [operands.headD 0 + 7], world)
    | .evaluate _ => (some [operands.sum], world)

theorem sumGraph_produced :
    Produced sumGraph sumSelection ((List.range sumGraph.blocks.length).filter fun _ => true) := by
  have hitems : ((List.range sumGraph.blocks.length).filter fun _ => true).flatMap
      (OperandView.items sumGraph sumSelection) = [.effect 0, .evaluate 2] := rfl
  refine ⟨⟨fun _ _ h => (by cases h), fun _ _ h => (by cases h)⟩, by decide, by decide,
    fun item hitem value hval bits h => ?_⟩
  rw [hitems] at hitem
  rcases List.mem_pair.mp hitem with rfl | rfl
  · rw [List.mem_singleton.mp hval] at h
    cases h
  · rw [List.mem_singleton.mp hval] at h
    cases h

theorem sumGraph_entry : Entry sumGraph 1 := by
  refine ⟨rfl, fun k value h => ?_⟩
  rcases k with - | k
  · cases h
    rfl
  · cases h

theorem sumSemantics_arity : ∀ item ∈ ((List.range sumGraph.blocks.length).filter fun _ => true).flatMap
    (OperandView.items sumGraph sumSelection), ∀ operands world results,
    (sumSemantics.execute item operands world).1 = some results →
      results.length = (sumSelection.results sumGraph item).length := by
  have hitems : ((List.range sumGraph.blocks.length).filter fun _ => true).flatMap
      (OperandView.items sumGraph sumSelection) = [.effect 0, .evaluate 2] := rfl
  intro item hitem operands world results h
  rw [hitems] at hitem
  rcases List.mem_pair.mp hitem with rfl | rfl
  · cases h
    rfl
  · cases h
    rfl

/-- The load and the sum are executed on the way to the return, which finds the sum on the stack. -/
theorem forwards_sum : ∃ code exit : List Code, ∃ machine : Machine Nat Unit,
    (code ++ exit).foldlM (Machine.step sumGraph sumSelection sumSemantics) ⟨fun _ => 5, [], ⟨(), []⟩⟩ = .ok machine ∧
      machine.stack = [17] := by
  obtain ⟨code, exit, n, -, hruns, -⟩ := forwards sumGraph_produced sumGraph_entry sumSemantics_arity
    (show 0 < sumGraph.blocks.length by decide) rfl
  obtain ⟨-, hruns⟩ := hruns ⟨fun _ => 5, ⟨(), []⟩⟩ ⟨fun _ => 5, [], ⟨(), []⟩⟩ ⟨rfl, fun _ _ _ => rfl⟩
  obtain ⟨-, machine, hrun, hstack, -⟩ := hruns _ rfl
  exact ⟨code, exit, machine, hrun, hstack⟩

example : expand sumGraph sumSelection (OperandView.new sumGraph sumSelection fun _ => true) (writerLocal sumGraph 1) 10
    [.value 2] = some [.get 0, .instruction (.effect 0), .get 0, .instruction (.evaluate 2)] := by decide +kernel

end Relocade.Compiler.Emit
