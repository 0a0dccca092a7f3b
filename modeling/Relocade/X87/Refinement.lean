import Relocade.X87.Tracks

/-!
# `X87.Refinement` — the register tracker refines a register file

Runs are sequences of operations with runtime or constant indices. An operation whose guard is false leaves ES set, and a
waiting operation comes after a check that ES is clear.
-/

namespace Relocade.X87

open Flags (Val)

/-! ## Operations -/

/-- A stack value whose tag fits its two bits. -/
structure TaggedValue (N : Type) extends StackValue N where
  tag_lt : tag.value.toNat < 4

/-- An operation on the register stack. -/
inductive Op (N : Type) where
  /-- Execution continues past an exception check. -/
  | check
  /-- An exception becomes pending. -/
  | raise
  | top
  | tagWord
  | savedTagWord
  | stackBits
  | readStack (index : Val N (BitVec 32))
  | pushTag
  | push (value : ExtendedValue N) (enabled : Val N Bool)
  | pushWhen (value : ExtendedValue N) (condition enabled : Val N Bool)
  | writeStack (index : Val N (BitVec 32)) (value : TaggedValue N) (enabled : Val N Bool)
  | writeStackWhen (index : Val N (BitVec 32)) (value : TaggedValue N) (condition enabled : Val N Bool)
  | popN (count : Nat) (enabled : Val N Bool)
  | free (index : Val N (BitVec 32))
  | rotate (increment : Bool)
  | readMmx (register : RegisterCode N)
  | writeMmx (register : RegisterCode N) (value : Val N (BitVec 64))
  | completeMmx
  | emptyMmx
  | initializeState
  | clearExceptions
  | maskExceptions
  /-- The restored flags and masks settle whether an exception pends. -/
  | restore (top : Val N (BitVec 32)) (tags : Val N (BitVec 16)) (values : Option (Fin 8 → ExtendedValue N)) (pending : Bool)

/-- What an operation tells. -/
inductive Answer where
  | none
  | position (top : BitVec 32)
  | tags (word : BitVec 16)
  | tag (tag : BitVec 16)
  | stack (value : ExtendedBits) (tag : BitVec 16)
  | image (values : List ExtendedBits)
  | significand (value : BitVec 64)
  deriving DecidableEq, Repr

section

variable {N : Type} [DecidableEq N] (naming : Naming N)

/-- The operation as the tracker builds it. -/
def Op.build : Op N → Build N Answer
  | check => do
      Registers.discardWriteGuards
      return .none
  | raise => return .none
  | top => return .position (← Registers.top naming).value
  | tagWord => return .tags (← Registers.tagWord naming)
  | savedTagWord => return .tags (← Registers.savedTagWord naming)
  | stackBits => return .image (← Registers.stackBits naming)
  | readStack index => do
      let value ← X87Access.readStack naming index
      return .stack value.value.value value.tag.value
  | pushTag => return .tag (← X87Access.pushTag naming).value
  | push value enabled => do
      X87Access.push naming value enabled
      return .none
  | pushWhen value condition enabled => do
      X87Access.pushWhen naming value condition enabled
      return .none
  | writeStack index value enabled => do
      X87Access.writeStack naming index value.toStackValue enabled
      return .none
  | writeStackWhen index value condition enabled => do
      X87Access.writeStackWhen naming index value.toStackValue condition enabled
      return .none
  | popN count enabled => do
      X87Access.popN naming count enabled
      return .none
  | free index => do
      X87Access.free naming index
      return .none
  | rotate increment => do
      X87Access.rotate naming increment
      return .none
  | readMmx register => return .significand (← X87Access.readMmx naming register)
  | writeMmx register value => do
      X87Access.writeMmx naming register value
      return .none
  | completeMmx => do
      X87Access.completeMmx naming
      return .none
  | emptyMmx => do
      X87Access.emptyMmx naming
      return .none
  | initializeState => do
      Registers.initializeState naming
      return .none
  | clearExceptions => do
      X87Access.clearExceptions naming
      return .none
  | maskExceptions => do
      X87Access.maskExceptions naming
      return .none
  | restore position tags values _ => do
      Registers.restore naming position tags values
      return .none

def buildAll : List (Op N) → Build N (List Answer)
  | [] => return []
  | op :: ops => do
      let answer ← op.build naming
      let answers ← buildAll ops
      return answer :: answers

end

/-! ## The same on a file -/

namespace File

variable (file : File)

/-- A push writes ST(7) and moves TOP to it. -/
def push (value : ExtendedBits) : File := (file.write (file.slot (7 : BitVec 32)) value value.tag).move (-1)

/-- Pops empty the registers from the top, and move TOP past them. -/
def popN (count : Nat) : File :=
  if count = 0 then file
  else ((List.range count).foldl (fun f index => f.setTag (file.slot (BitVec.ofNat 32 index)) emptyTag) file).move count

end File

section

variable {N : Type}

/-- The direct execution of an operation on eight registers with TOP and tags. -/
def Op.execute (op : Op N) (file : File) : Answer × File :=
  match op with
  | check | raise | clearExceptions | maskExceptions => (.none, file)
  | top => (.position ((file.top &&& 7).setWidth 32), file)
  | tagWord => (.tags file.tagWord, file)
  | savedTagWord => (.tags file.savedTagWord, file)
  | stackBits => (.image file.stackBits, file)
  | readStack index => (.stack (file.registers (file.slot index.value)) (file.tag (file.slot index.value)), file)
  | pushTag => (.tag (file.tag (file.slot (7 : BitVec 32))), file)
  | push value enabled => (.none, if enabled.value then file.push value.value else file)
  | pushWhen value condition enabled => (.none, if condition.value && enabled.value then file.push value.value else file)
  | writeStack index value enabled =>
      (.none, if enabled.value then file.write (file.slot index.value) value.value.value value.tag.value else file)
  | writeStackWhen index value condition enabled =>
      (.none, if condition.value && enabled.value then file.write (file.slot index.value) value.value.value value.tag.value
        else file)
  | popN count enabled => (.none, if enabled.value then file.popN count else file)
  | free index => (.none, file.setTag (file.slot index.value) emptyTag)
  | rotate increment => (.none, file.move (if increment then 1 else -1))
  | readMmx register => (.significand (file.registers register.place).significand, file)
  | writeMmx register value => (.none, file.setRegister register.place ⟨value.value, 0xffff⟩)
  | completeMmx => (.none, file.reset 0)
  | emptyMmx | initializeState => (.none, file.reset 0xffff)
  | restore position tags values _ =>
      (.none, file.restore position.value tags.value (values.map fun values i => (values i).value))

def executeAll : List (Op N) → File → List Answer × File
  | [], file => ([], file)
  | op :: ops, file =>
      let (answer, file) := op.execute file
      let (answers, file) := executeAll ops file
      (answer :: answers, file)

/-! ## The exception protocol -/

/-- Whether a guarded operation's effect is suppressed. -/
def Op.suppressed : Op N → Bool
  | push _ enabled | writeStack _ _ enabled => !enabled.value
  | popN count enabled => decide (count ≠ 0) && !enabled.value
  | pushWhen _ condition enabled | writeStackWhen _ _ condition enabled => condition.value && !enabled.value
  | _ => false

/-- Whether an operation moves the stack under a guard. -/
def Op.movesStack : Op N → Bool
  | push .. | pushWhen .. | popN .. => true
  | _ => false

/-- A suppressed effect leaves ES set; ES is cleared by initialization, by clearing or masking exceptions and by an image
    that leaves none. A save finds TOP again. -/
def Op.after (op : Op N) (protocol : Protocol) : Protocol :=
  match op with
  | raise => { protocol with pending := true }
  | initializeState | clearExceptions | maskExceptions => ⟨false, false⟩
  | restore _ _ _ pending => ⟨pending, false⟩
  | completeMmx | emptyMmx | stackBits => { protocol with moved := false }
  | op => ⟨protocol.pending || op.suppressed, protocol.moved || op.movesStack && op.suppressed⟩

/-- A check is passed with ES clear. Waiting operations do not follow a suppressed movement; a waiting image load
    does not follow a suppressed effect at all. -/
def Op.Allowed (op : Op N) (protocol : Protocol) : Prop :=
  match op with
  | check => protocol.pending = false
  | readStack _ | pushTag | push .. | pushWhen .. | writeStack .. | writeStackWhen .. | popN .. | free _ | rotate _ =>
      protocol.moved = false
  | restore _ _ values _ => values = none → protocol.pending = false
  | _ => True

/-- Every operation of a run is allowed where it stands. -/
def Allowed : Protocol → List (Op N) → Prop
  | _, [] => True
  | protocol, op :: ops => op.Allowed protocol ∧ Allowed (op.after protocol) ops

end

/-! ## What instructions use -/

section

variable {N : Type} {nm : Naming N} {origin : Memory} {pr : Protocol} {file : File}
variable {s : Registers N × Memory}

theorem constantBits_spec {cond : Val N Bool} {b : Bool} (h : X87Access.constantBits nm cond = some b) :
    cond.value = b := by
  unfold X87Access.constantBits at h
  split at h
  next => exact Option.some.inj h
  next => exact nomatch h

/-- A computation whose answer is not used. -/
theorem unanswered {x : Build N Unit} {Q : Registers N × Memory → Prop} (h : Total s x fun _ s' => Q s') :
    Total s (do
      x
      return Answer.none) fun answer s' => answer = .none ∧ Q s' :=
  Total.bind h fun _ _ hq => Total.pure ⟨rfl, hq⟩

/-- A computation whose answer is told. -/
theorem answered {α : Type} {x : Build N α} {f : α → Answer} {answer : Answer} {Q : Registers N × Memory → Prop}
    (h : Total s x fun a s' => f a = answer ∧ Q s') :
    Total s (do return f (← x)) fun a s' => a = answer ∧ Q s' :=
  Total.bind h fun _ _ hq => Total.pure hq

/-- An operation with nothing to suppress leaves the protocol. -/
theorem after_quiet (pr : Protocol) (moves : Bool) :
    (⟨pr.pending || false, pr.moved || moves && false⟩ : Protocol) = pr := by
  rw [Bool.or_false, Bool.and_false, Bool.or_false]

theorem after_write (pr : Protocol) (suppressed : Bool) :
    (⟨pr.pending || suppressed, pr.moved || false && suppressed⟩ : Protocol) =
      { pr with pending := pr.pending || suppressed } := by
  rw [Bool.false_and, Bool.or_false]

theorem after_move (hmoved : pr.moved = false) (suppressed : Bool) :
    (⟨pr.pending || suppressed, pr.moved || true && suppressed⟩ : Protocol) =
      ⟨pr.pending || suppressed, suppressed⟩ := by
  rw [hmoved, Bool.true_and, Bool.false_or]

/-- A suppressed effect leaves an exception pending. -/
theorem Tracks.suppress (h : Tracks nm origin pr file s) (suppressed : Bool) :
    Tracks nm origin { pr with pending := pr.pending || suppressed } file s :=
  h.pend fun hclear => (Bool.or_eq_false_iff.mp hclear).1

variable [DecidableEq N]

/-- Writing back what a register holds changes nothing. -/
theorem write_self (file : File) (i : Fin 8) : file.write i (file.registers i) (file.tag i) = file := by
  unfold File.write
  rw [Bank.setRegister_self]
  exact Bank.setTag_self file i

section

variable (h : Tracks nm origin pr file s) (hmoved : pr.moved = false)

include h hmoved

theorem readStack_spec
    (index : Val N (BitVec 32)) :
    Total s (X87Access.readStack nm index) fun value s' =>
      (value.value.value = file.registers (file.slot index.value) ∧ value.tag.value = file.tag (file.slot index.value)) ∧
        Tracks nm origin pr file s' := by
  refine Total.bind (slot_spec h hmoved index) fun slot s' hlocated => ?_
  refine Total.bind (tag_spec hlocated) fun tag s' ⟨htag, hlocated⟩ => ?_
  exact Total.bind (read_spec hlocated) fun value s' ⟨hval, hlocated⟩ => Total.pure ⟨⟨hval, htag⟩, hlocated.tracks⟩

theorem pushTag_spec :
    Total s (X87Access.pushTag nm) fun tag s' =>
      tag.value = file.tag (file.slot (7 : BitVec 32)) ∧ Tracks nm origin pr file s' := by
  refine Total.bind (slot_spec h hmoved (nm.int 32 7)) fun slot s' hlocated => ?_
  exact (tag_spec hlocated).mono fun tag s' ⟨htag, hlocated⟩ => ⟨htag, hlocated.tracks⟩

variable {enabled en : Val N Bool}

/-- A disabled write may go on with no exception pending when it would change nothing. -/
theorem writeStack_spec
    (index : Val N (BitVec 32)) {value : StackValue N} (htag : value.tag.value.toNat < 4)
    (hpend : pr.pending = false → en.value = false →
      value.value.value = file.registers (file.slot index.value) ∧ value.tag.value = file.tag (file.slot index.value)) :
    Total s (X87Access.writeStack nm index value en) fun _ s' =>
      Tracks nm origin pr
        (if en.value then file.write (file.slot index.value) value.value.value value.tag.value else file) s' := by
  refine Total.bind (slot_spec h hmoved index) fun slot s' hlocated => ?_
  exact (write_spec hlocated htag (fun hclear hdis => (hpend hclear hdis).1)
    fun hclear hdis => (hpend hclear hdis).2).mono fun _ s' hlocated => hlocated.tracks

/-- A write whose condition fails writes back what it read. -/
theorem writeStackWhen_spec
    (index : Val N (BitVec 32)) (value : TaggedValue N) {cond en : Val N Bool}
    (hpend : pr.pending = false → (cond.value && !en.value) = false) :
    Total s (X87Access.writeStackWhen nm index value.toStackValue cond en) fun _ s' =>
      Tracks nm origin pr
        (if cond.value && en.value then
          file.write (file.slot index.value) value.value.value value.tag.value else file) s' := by
  unfold X87Access.writeStackWhen
  split
  next hconst =>
    rw [constantBits_spec hconst]
    exact Total.pure h
  next hconst =>
    rw [constantBits_spec hconst, Bool.true_and] at hpend ⊢
    exact writeStack_spec h hmoved index value.tag_lt fun hclear hdis =>
      nomatch hdis.symm.trans (Bool.not_eq_eq_eq_not.mp (hpend hclear))
  next =>
    refine Total.bind (readStack_spec h hmoved index) fun previous s' ⟨⟨hval, htag⟩, htr⟩ => ?_
    have hselected : ∀ {α : Type} (a b : Val N α),
        (cond.select nm.toNaming a b).value = if cond.value then a.value else b.value := by
      intro α a b
      unfold Val.select
      cases cond.value <;> rfl
    refine (writeStack_spec htr hmoved index ?_ fun hclear hdis => ?_).mono fun _ s' htr => ?_
    · dsimp only
      rw [hselected, htag]
      split
      next => exact value.tag_lt
      next => exact tagOf_lt _ _
    · have hfalse : cond.value = false := by
        have hclear' := hpend hclear
        rw [hdis, Bool.not_false, Bool.and_true] at hclear'
        exact hclear'
      dsimp only
      rw [hselected, hselected, hfalse]
      exact ⟨hval, htag⟩
    · dsimp only at htr
      rw [hselected, hselected] at htr
      cases hcond : cond.value with
      | true =>
        rw [hcond] at htr
        exact htr
      | false =>
        rw [hcond, if_neg Bool.false_ne_true, if_neg Bool.false_ne_true, hval, htag, write_self, ite_self] at htr
        exact htr

theorem pushGuarded_spec
    (value : ExtendedValue N) (hpend : pr.pending = false → en.value = true) :
    Total s (X87Access.pushGuarded nm value en) fun _ s' =>
      Tracks nm origin { pr with moved := !en.value }
        (if en.value then file.push value.value else file) s' := by
  have hdis : ∀ {p : Prop}, pr.pending = false → en.value = false → p := fun hclear hdis =>
    nomatch hdis.symm.trans (hpend hclear)
  refine Total.bind (slot_spec h hmoved (nm.int 32 7)) fun slot s' hlocated => ?_
  refine Total.bind (write_spec hlocated value.value.tag_lt hdis hdis) fun _ s' hlocated => ?_
  refine (advance_spec hlocated.tracks hmoved (-1) en).mono fun _ s' htr => ?_
  cases hen : en.value with
  | true =>
    rw [hen] at htr
    exact htr
  | false =>
    rw [hen] at htr
    exact htr

/-- A condition that is not known leaves no mapping to resolve. -/
theorem pushWhen_spec
    (value : ExtendedValue N) {cond en : Val N Bool}
    (hpend : pr.pending = false → (cond.value && !en.value) = false) :
    Total s (X87Access.pushWhen nm value cond en) fun _ s' =>
      Tracks nm origin { pr with moved := cond.value && !en.value }
        (if cond.value && en.value then file.push value.value else file) s' := by
  unfold X87Access.pushWhen
  dsimp only
  split
  next hconst =>
    rw [constantBits_spec hconst, Bool.false_and, Bool.false_and, if_neg Bool.false_ne_true, ← hmoved]
    exact Total.pure h
  next =>
    split
    next hconst =>
      have htrue := constantBits_spec hconst
      rw [htrue, Bool.true_and] at hpend
      have hboth : (X87Access.both nm cond en).value = en.value := by
        unfold X87Access.both
        rw [htrue, Bool.true_and]
      refine Total.bind (pushGuarded_spec h hmoved value fun hclear => ?_) fun _ s' htr => Total.pure ?_
      · rw [hboth]
        exact Bool.not_eq_eq_eq_not.mp (hpend hclear)
      · rw [hboth] at htr
        rw [htrue, Bool.true_and, Bool.true_and]
        exact htr
    next =>
      -- the guard is resolved at once, whether or not an exception pends
      have hpended : Tracks nm origin { pr with pending := true } file s := h.pend nofun
      refine Total.bind (pushGuarded_spec hpended hmoved value nofun) fun _ s' htr => ?_
      exact (rebase_spec htr _).mono fun _ s' ⟨_, htr⟩ => htr

end

theorem foldl_const {α β : Type} (xs : List β) (a : α) : xs.foldl (fun a _ => a) a = a := by
  induction xs with
  | nil => rfl
  | cons b rest ih => exact ih

theorem popN_spec (h : Tracks nm origin pr file s) (hmoved : pr.moved = false) (count : Nat)
    (hpend : pr.pending = false → (decide (count ≠ 0) && !en.value) = false) :
    Total s (X87Access.popN nm count en) fun _ s' =>
      Tracks nm origin { pr with moved := decide (count ≠ 0) && !en.value }
        (if en.value then file.popN count else file) s' := by
  unfold X87Access.popN File.popN
  split
  next hz =>
    rw [hz, ite_self]
    rw [show (decide (0 ≠ 0) && !en.value) = pr.moved from hmoved.symm]
    exact Total.pure h
  next hpos =>
    rw [decide_eq_true hpos, Bool.true_and] at hpend ⊢
    have hloop : Total s ((List.range count).forM fun index => do
        let slot ← Registers.slot nm (nm.int 32 index)
        Registers.setTag nm slot (nm.int 16 3) en) fun _ s' =>
        Tracks nm origin pr ((List.range count).foldl (fun f index =>
          if en.value then f.setTag (file.slot (BitVec.ofNat 32 index)) emptyTag else f) file) s' ∧
        ((List.range count).foldl (fun f index =>
          if en.value then f.setTag (file.slot (BitVec.ofNat 32 index)) emptyTag else f) file).top = file.top := by
      refine Total.forM (I := fun f s => Tracks nm origin pr f s ∧ f.top = file.top)
        (fun index _ f s ⟨htr, htop⟩ => ?_) ⟨h, rfl⟩
      refine Total.bind (slot_spec htr hmoved (nm.int 32 index)) fun slot s' hlocated => ?_
      refine (setTag_spec hlocated (show emptyTag.toNat < 4 by decide) fun hclear hdis => ?_).mono fun _ s' hset => ?_
      · exact nomatch hdis.symm.trans (Bool.not_eq_eq_eq_not.mp (hpend hclear))
      · have hslot : f.slot (nm.int 32 index).value = file.slot (BitVec.ofNat 32 index) := by
          unfold File.slot
          rw [htop]
          rfl
        rw [hslot] at hset
        refine ⟨hset.tracks, ?_⟩
        split <;> exact htop
    refine Total.bind hloop fun _ s' ⟨htr, _⟩ => ?_
    refine (advance_spec htr hmoved count en).mono fun _ s' htr => ?_
    cases hen : en.value with
    | true =>
      rw [hen] at htr
      exact htr
    | false =>
      rw [hen, if_neg Bool.false_ne_true] at htr
      simp only [Bool.false_eq_true, if_false, foldl_const] at htr
      exact htr

theorem free_spec (h : Tracks nm origin pr file s) (hmoved : pr.moved = false) (index : Val N (BitVec 32)) :
    Total s (X87Access.free nm index) fun _ s' =>
      Tracks nm origin pr (file.setTag (file.slot index.value) emptyTag) s' := by
  refine Total.bind (slot_spec h hmoved index) fun slot s' hlocated => ?_
  exact (setTag_spec hlocated (show emptyTag.toNat < 4 by decide) (not_disabled nm)).mono fun _ s' hset => hset.tracks

theorem readMmx_spec (h : Tracks nm origin pr file s) (reg : RegisterCode N) :
    Total s (X87Access.readMmx nm reg) fun value s' =>
      value = (file.registers reg.place).significand ∧ Tracks nm origin pr file s' := by
  refine Total.bind (physical_spec h reg) fun slot s' hlocated => ?_
  exact Total.bind (read_spec hlocated) fun value s' ⟨hval, hlocated⟩ =>
    Total.pure ⟨congrArg ExtendedBits.significand hval, hlocated.tracks⟩

theorem writeMmx_spec (h : Tracks nm origin pr file s) (reg : RegisterCode N) (value : Val N (BitVec 64)) :
    Total s (X87Access.writeMmx nm reg value) fun _ s' =>
      Tracks nm origin pr (file.setRegister reg.place ⟨value.value, 0xffff⟩) s' := by
  refine Total.bind (physical_spec h reg) fun slot s' hlocated => ?_
  exact (writeValue_spec hlocated (not_disabled nm)).mono fun _ s' hwr => hwr.tracks

/-! ## Runs -/

/-- One operation, allowed where it stands, answers as the file does and keeps the tracker in step. -/
theorem step_spec (op : Op N) (h : Tracks nm origin pr file s) (hallow : op.Allowed pr) :
    Total s (op.build nm) fun answer s' =>
      answer = (op.execute file).1 ∧ Tracks nm origin (op.after pr) (op.execute file).2 s' := by
  cases op with
  | check =>
    rw [show Op.after .check pr = pr from after_quiet pr false]
    exact unanswered (discardWriteGuards_spec h hallow)
  | raise =>
    refine Total.pure ⟨rfl, ?_⟩
    exact h.pend nofun
  | top =>
    rw [show Op.after .top pr = pr from after_quiet pr false]
    refine answered ((top_spec h).mono fun value s' ⟨hval, _, htr⟩ => ⟨?_, htr⟩)
    rw [hval]
    rfl
  | tagWord =>
    rw [show Op.after .tagWord pr = pr from after_quiet pr false]
    exact answered ((tagWord_spec h).mono fun tags s' ⟨htags, htr⟩ => ⟨congrArg Answer.tags htags, htr⟩)
  | savedTagWord =>
    rw [show Op.after .savedTagWord pr = pr from after_quiet pr false]
    exact answered ((savedTagWord_spec h).mono fun tags s' ⟨htags, htr⟩ => ⟨congrArg Answer.tags htags, htr⟩)
  | stackBits =>
    exact answered ((stackBits_spec h).mono fun values s' ⟨hvals, htr⟩ => ⟨congrArg Answer.image hvals, htr⟩)
  | readStack index =>
    rw [show Op.after (.readStack index) pr = pr from after_quiet pr false]
    refine Total.bind (readStack_spec h hallow index) fun value s' ⟨⟨hval, htag⟩, htr⟩ => Total.pure ⟨?_, htr⟩
    rw [hval, htag]
    rfl
  | pushTag =>
    rw [show Op.after .pushTag pr = pr from after_quiet pr false]
    exact answered ((pushTag_spec h hallow).mono fun tag s' ⟨htag, htr⟩ => ⟨congrArg Answer.tag htag, htr⟩)
  | push value en =>
    rw [show Op.after (.push value en) pr = _ from after_move hallow (!en.value)]
    exact unanswered (pushWhen_spec (h.suppress (!en.value)) hallow value fun hclear =>
      (Bool.or_eq_false_iff.mp hclear).2)
  | pushWhen value condition en =>
    rw [show Op.after (.pushWhen value condition en) pr = _ from
      after_move hallow (condition.value && !en.value)]
    exact unanswered (pushWhen_spec (h.suppress (condition.value && !en.value)) hallow value fun hclear =>
      (Bool.or_eq_false_iff.mp hclear).2)
  | writeStack index value en =>
    rw [show Op.after (.writeStack index value en) pr = _ from after_write pr (!en.value)]
    refine unanswered (writeStack_spec (h.suppress (!en.value)) hallow index value.tag_lt fun hclear hdis => ?_)
    have hen := (Bool.or_eq_false_iff.mp hclear).2
    rw [hdis] at hen
    exact nomatch hen
  | writeStackWhen index value condition en =>
    rw [show Op.after (.writeStackWhen index value condition en) pr = _ from
      after_write pr (condition.value && !en.value)]
    exact unanswered (writeStackWhen_spec (h.suppress (condition.value && !en.value)) hallow index value fun hclear =>
      (Bool.or_eq_false_iff.mp hclear).2)
  | popN count en =>
    rw [show Op.after (.popN count en) pr = _ from after_move hallow (decide (count ≠ 0) && !en.value)]
    exact unanswered (popN_spec (h.suppress (decide (count ≠ 0) && !en.value)) hallow count fun hclear =>
      (Bool.or_eq_false_iff.mp hclear).2)
  | free index =>
    rw [show Op.after (.free index) pr = pr from after_quiet pr false]
    exact unanswered (free_spec h hallow index)
  | rotate increment =>
    rw [show Op.after (.rotate increment) pr = pr from after_quiet pr false]
    refine unanswered ((advance_spec h hallow _ (nm.bool true)).mono fun _ s' htr => ?_)
    rw [← show pr.moved = !(nm.bool true).value from hallow] at htr
    exact htr
  | readMmx register =>
    rw [show Op.after (.readMmx register) pr = pr from after_quiet pr false]
    exact answered ((readMmx_spec h register).mono fun value s' ⟨hval, htr⟩ =>
      ⟨congrArg Answer.significand hval, htr⟩)
  | writeMmx register value =>
    rw [show Op.after (.writeMmx register value) pr = pr from after_quiet pr false]
    exact unanswered (writeMmx_spec h register value)
  | completeMmx => exact unanswered (reset_spec h 0)
  | emptyMmx => exact unanswered (reset_spec h 0xffff)
  | initializeState => exact unanswered (initializeState_spec h)
  | clearExceptions => exact unanswered ((rebase_spec h _).mono fun _ _ ⟨_, htr⟩ => htr)
  | maskExceptions => exact unanswered ((rebase_spec h _).mono fun _ _ ⟨_, htr⟩ => htr)
  | restore top tags values pending =>
    exact unanswered (restore_spec h top tags values fun hnone _ => hallow hnone)

/-- A run answers as the file does. -/
theorem run_spec (ops : List (Op N)) {pr : Protocol} {file : File} {s : Registers N × Memory}
    (h : Tracks nm origin pr file s) (hallow : Allowed pr ops) :
    Total s (buildAll nm ops) fun answers s' =>
      answers = (executeAll ops file).1 ∧ ∃ protocol', Tracks nm origin protocol' (executeAll ops file).2 s' := by
  induction ops generalizing pr file s with
  | nil => exact Total.pure ⟨rfl, pr, h⟩
  | cons op ops ih =>
    refine Total.bind (step_spec op h hallow.1) fun answer s' ⟨hanswer, htr⟩ => ?_
    refine Total.bind (ih htr hallow.2) fun answers s'' ⟨hanswers, hres⟩ => Total.pure ⟨?_, hres⟩
    rw [hanswer, hanswers]
    rfl

end

/-- For every initial memory and every run that keeps the exception protocol, the tracker's construction succeeds, its
    answers are those of the file directly executing the run, and publication stores that file and nothing else. -/
theorem registers_refine {N : Type} [DecidableEq N] (naming : Naming N) (m : Memory) (pending : Bool) (ops : List (Op N))
    (h : Allowed ⟨pending, false⟩ ops) :
    ∃ answers registers m', buildAll naming ops (.new naming, m) = some (answers, registers, m') ∧
      answers = (executeAll ops (File.of m)).1 ∧
      File.of (Registers.publish naming registers m') = (executeAll ops (File.of m)).2 ∧
      ∀ x, ¬ InFile x → Registers.publish naming registers m' x = m x := by
  obtain ⟨answers, s, hbuild, hanswers, protocol, htracks⟩ := run_spec ops (Tracks.new naming m pending) h
  have hpublish := publish_spec htracks
  refine ⟨answers, s.1, s.2, hbuild, hanswers, ?_⟩
  exact hpublish

/-- A push of one, and a suppressed push that a save and FNCLEX come after. -/
theorem registers_refine_suppressed :
    ∃ naming : Naming Nat, ∃ registers m', buildAll naming
        [.push ⟨101, ⟨0x8000000000000000, 0x3fff⟩⟩ ⟨1, true⟩, .push ⟨102, ⟨0, 0⟩⟩ ⟨103, false⟩, .stackBits,
          .clearExceptions, .readStack ⟨200, 0⟩] (.new naming, fun _ => 0) =
      some ([.none, .none, .image (⟨0x8000000000000000, 0x3fff⟩ :: List.replicate 7 ⟨0, 0⟩), .none,
        .stack ⟨0x8000000000000000, 0x3fff⟩ 0], registers, m') ∧
      Registers.publish naming registers m' topOffset = 7 := by
  obtain ⟨naming, hnaming⟩ : ∃ naming : Naming Nat,
    naming = ⟨⟨Bool.toNat, (· + · + 2), fun a b c => a + b + c + 2, id, id, 0⟩, (· + 200), (· + · + 1000), (· + · + 2000),
      (· + · + 3000), (· + · + 4000), (· + 5000), (· + 6000), (· + · + 7000),
      fun name => name < 2 ∨ 200 ≤ name ∧ name < 300⟩ := ⟨_, rfl⟩
  obtain ⟨answers, registers, m', hbuild, hanswers, hfile, -⟩ := registers_refine naming (fun _ => 0) false
    [.push ⟨101, ⟨0x8000000000000000, 0x3fff⟩⟩ ⟨1, true⟩, .push ⟨102, ⟨0, 0⟩⟩ ⟨103, false⟩, .stackBits,
      .clearExceptions, .readStack ⟨200, 0⟩] ⟨rfl, rfl, trivial, trivial, rfl, trivial⟩
  refine ⟨naming, registers, m', hbuild.trans ?_, congrArg File.top hfile⟩
  rw [hanswers]
  rfl

end Relocade.X87
