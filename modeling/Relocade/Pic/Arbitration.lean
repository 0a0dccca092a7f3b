import Mathlib.Algebra.Group.Fin.Basic
import Relocade.Pic.Controller

/-!
# `Pic.Arbitration` — which interrupt is delivered, and when

Facts about every run of a connected controller: acknowledgements respect the current priorities, edges are neither
lost nor repeated, non-specific EOIs nest, and a CPU that found nothing to deliver is woken.
-/

namespace Relocade.Pic

variable {W : Type}

/-! ## Register bits -/

theorem getLsbD_bit (irq : Irq) (i : Nat) : (bit irq).getLsbD i = decide (i = irq.val) := by
  have key : ∀ irq i : Fin 8, (bit irq).getLsbD i.val = decide (i.val = irq.val) := by decide
  rcases lt_or_ge i 8 with hi | hi
  · exact key irq ⟨i, hi⟩
  · have := irq.isLt
    rw [BitVec.getLsbD_of_ge _ _ hi, eq_comm, decide_eq_false_iff_not]
    omega

/-- A register has the bit of an input when masking with it leaves something. -/
theorem has_eq_getLsbD (bits : Byte) (irq : Irq) : has bits irq = bits.getLsbD irq.val := by
  unfold has
  rw [Bool.eq_iff_iff, decide_eq_true_iff]
  constructor
  · intro h
    by_contra hne
    refine h (BitVec.eq_of_getLsbD_eq fun i hi => ?_)
    rw [BitVec.getLsbD_and, getLsbD_bit]
    by_cases hi' : i = irq.val
    · subst hi'
      rw [Bool.not_eq_true] at hne
      rw [hne]
      simp
    · simp [hi']
  · intro h h0
    have hb := congrArg (·.getLsbD irq.val) h0
    rw [BitVec.getLsbD_and, getLsbD_bit, h] at hb
    simp at hb

@[simp] theorem has_and (a b : Byte) (irq : Irq) : has (a &&& b) irq = (has a irq && has b irq) := by
  simp [has_eq_getLsbD]

@[simp] theorem has_or (a b : Byte) (irq : Irq) : has (a ||| b) irq = (has a irq || has b irq) := by
  simp [has_eq_getLsbD]

@[simp] theorem has_not (a : Byte) (irq : Irq) : has (~~~a) irq = !has a irq := by
  simp [has_eq_getLsbD]

@[simp] theorem has_bit (irq irq' : Irq) : has (bit irq) irq' = decide (irq' = irq) := by
  rw [has_eq_getLsbD, getLsbD_bit, decide_eq_decide, Fin.ext_iff]

@[simp] theorem has_zero (irq : Irq) : has 0#8 irq = false := by
  simp [has_eq_getLsbD]

/-- A register is the set of its inputs. -/
theorem eq_of_has {a b : Byte} (h : ∀ irq, has a irq = has b irq) : a = b := by
  refine BitVec.eq_of_getLsbD_eq fun i hi => ?_
  have := h ⟨i, hi⟩
  rwa [has_eq_getLsbD, has_eq_getLsbD] at this

namespace Controller

variable {c : Controller W} {irq : Irq} {bits : Byte}

/-! ## The service order -/

/-- The input of highest priority: the set input of lowest rank. -/
theorem highestPriority_eq_some :
    c.highestPriority bits = some irq ↔
      has bits irq = true ∧ ∀ irq', has bits irq' = true → c.priorityRank irq ≤ c.priorityRank irq' := by
  have hrank : ∀ k : Irq, c.priorityRank (c.highestPriorityIrq + k) = k.val := by
    intro k
    rw [priorityRank, add_sub_cancel_left]
  have hget : ∀ (i : Nat) (h : i < ((List.finRange 8).map fun offset => c.highestPriorityIrq + offset).length),
      ((List.finRange 8).map fun offset => c.highestPriorityIrq + offset)[i] =
        c.highestPriorityIrq + ⟨i, by simpa using h⟩ := by
    intro i h
    simp
  unfold highestPriority
  rw [List.find?_eq_some_iff_getElem]
  constructor
  · rintro ⟨hb, i, hi, hirq, hbef⟩
    refine ⟨hb, fun irq' h' => ?_⟩
    rw [hget] at hirq
    subst hirq
    rw [hrank]
    by_contra hlt
    -- the earlier input would have been found
    have hj : c.priorityRank irq' < i := by simpa using Nat.lt_of_not_le hlt
    have hne := hbef _ hj
    rw [hget] at hne
    have : c.highestPriorityIrq + ⟨c.priorityRank irq', (irq' - c.highestPriorityIrq).isLt⟩ = irq' := by
      rw [show (⟨c.priorityRank irq', (irq' - c.highestPriorityIrq).isLt⟩ : Irq) = irq' - c.highestPriorityIrq from rfl,
        add_sub_cancel]
    rw [this, h'] at hne
    exact absurd hne (by decide)
  · rintro ⟨hb, hmin⟩
    have hlt : c.priorityRank irq < ((List.finRange 8).map fun offset => c.highestPriorityIrq + offset).length := by
      rw [List.length_map, List.length_finRange]
      exact (irq - c.highestPriorityIrq).isLt
    refine ⟨hb, c.priorityRank irq, hlt, ?_, ?_⟩
    · rw [hget _ hlt]
      show c.highestPriorityIrq + (irq - c.highestPriorityIrq) = irq
      exact add_sub_cancel _ _
    · intro j hj
      rw [hget, Bool.not_eq_true']
      by_contra hne
      have := hmin _ (by simpa using hne)
      rw [hrank] at this
      dsimp only at this
      omega

theorem highestPriority_eq_none : c.highestPriority bits = none ↔ bits = 0#8 := by
  constructor
  · intro h
    refine eq_of_has fun irq => ?_
    rw [has_zero]
    by_contra hne
    have hb : has bits irq = true := by simpa using hne
    unfold highestPriority at h
    rw [List.find?_eq_none] at h
    refine h irq ?_ hb
    rw [List.mem_map]
    exact ⟨irq - c.highestPriorityIrq, List.mem_finRange _, add_sub_cancel _ _⟩
  · rintro rfl
    unfold highestPriority
    rw [List.find?_eq_none]
    simp

theorem priorityRank_inj {irq' : Irq} (h : c.priorityRank irq = c.priorityRank irq') : irq = irq' := by
  have := Fin.ext h
  exact sub_left_injective this

/-- What the controller may deliver: a request that is not masked, above every blocking interrupt in service and
    above every other request that is not masked. -/
structure Eligible (c : Controller W) (irq : Irq) : Prop where
  ready : c.initialization = .ready
  requested : has c.requests irq = true
  unmasked : has c.mask irq = false
  above_service : ∀ irq', has c.blockingService irq' = true → c.priorityRank irq < c.priorityRank irq'
  above_requests : ∀ irq', irq' ≠ irq → has c.requests irq' = true → has c.mask irq' = false →
    c.priorityRank irq < c.priorityRank irq'

theorem eligible_of_nextIrq (h : c.nextIrq = some irq) : Eligible c irq := by
  unfold nextIrq at h
  split at h
  · cases h
  next hready =>
  obtain ⟨pending, hp, h⟩ := Option.bind_eq_some_iff.mp h
  have hpend := highestPriority_eq_some.mp hp
  simp only [has_and, has_not, Bool.and_eq_true, Bool.not_eq_true'] at hpend
  have hirq : pending = irq ∧ ∀ irq', has c.blockingService irq' = true → c.priorityRank irq < c.priorityRank irq' := by
    split at h
    · next active ha =>
        split at h
        · cases h
        · next hlt =>
            obtain rfl := Option.some.inj h
            refine ⟨rfl, fun irq' h' => ?_⟩
            have := (highestPriority_eq_some.mp ha).2 irq' h'
            omega
    · next ha =>
        obtain rfl := Option.some.inj h
        rw [highestPriority_eq_none.mp ha]
        exact ⟨rfl, fun irq' h' => absurd h' (by simp)⟩
  obtain ⟨rfl, hservice⟩ := hirq
  refine ⟨by simpa using hready, hpend.1.1, hpend.1.2, hservice, ?_⟩
  intro irq' hne hr hm
  refine lt_of_le_of_ne (hpend.2 irq' ⟨hr, hm⟩) fun heq => hne (priorityRank_inj heq).symm

/-- The next interrupt is the one that may be delivered. -/
theorem nextIrq_eq_some : c.nextIrq = some irq ↔ Eligible c irq := by
  refine ⟨eligible_of_nextIrq, fun h => ?_⟩
  have hpending : c.highestPriority (c.requests &&& ~~~c.mask) = some irq := by
    refine highestPriority_eq_some.mpr ⟨by simp [h.requested, h.unmasked], fun irq' h' => ?_⟩
    simp only [has_and, has_not, Bool.and_eq_true, Bool.not_eq_true'] at h'
    by_cases heq : irq' = irq
    · rw [heq]
    · exact le_of_lt (h.above_requests irq' heq h'.1 h'.2)
  rw [nextIrq, if_neg (not_not.mpr h.ready), hpending, Option.bind_some]
  cases hactive : c.highestPriority c.blockingService with
  | none => rfl
  | some active =>
    have habove := h.above_service active (highestPriority_eq_some.mp hactive).1
    exact if_neg (Nat.not_le_of_lt habove)

end Controller

/-! ## What one operation does -/

/-- The command byte an operation writes. -/
def commandByte : Op W → Option Byte
  | .writePort port bytes value => if bytes = 1 ∧ port = commandPort then some (value.setWidth 8) else none
  | _ => none

/-- Whether an operation re-initializes the controller. -/
def initializes (op : Op W) : Bool := (commandByte op).any fun value => value &&& icw1Initialize ≠ 0

/-- The OCW2 an operation writes. -/
def ocw2 (op : Op W) : Option Byte :=
  (commandByte op).filter fun value => value &&& icw1Initialize = 0 ∧ value &&& ocw3Select = 0

/-- The input an operation acknowledges: a CPU poll, or a read after a poll command. -/
def acknowledges (c : Controller W) : Op W → Option Irq
  | .pollInterrupt _ => c.nextIrq
  | .readPort port bytes => if bytes = 1 ∧ port = commandPort ∧ c.pollPending then c.nextIrq else none
  | _ => none

/-- Whether an operation asks for an interrupt: a CPU poll, or a read after a poll command. -/
def asks (c : Controller W) : Op W → Bool
  | .pollInterrupt _ => true
  | .readPort port bytes => bytes = 1 ∧ port = commandPort ∧ c.pollPending
  | _ => false

/-- An operation that asks is to be given the input that may be delivered. -/
def Delivers (c : Controller W) (op : Op W) (irq : Irq) : Prop := asks c op = true ∧ c.Eligible irq

/-- The acknowledged input that stays in service until an EOI. -/
def services (c : Controller W) (op : Op W) : Option Irq := if c.autoEoi then none else acknowledges c op

/-- Whether an operation raises a line that was low. -/
def raises (c : Controller W) (op : Op W) (irq : Irq) : Bool :=
  match op with
  | .setLevel irq' true => irq' = irq && !has c.levels irq
  | _ => false

/-- The input whose service an EOI ends. -/
def ends (c : Controller W) (op : Op W) : Option Irq :=
  (ocw2 op).bind fun value =>
    if value &&& ocw2Eoi = 0 then none
    else if value &&& ocw2SpecificIrq ≠ 0 then some (Controller.namedIrq value)
    else c.highestPriority c.blockingService

/-- Whether an operation moves the service order. -/
def rotates (c : Controller W) (op : Op W) : Bool :=
  (ocw2 op).any (fun value => value &&& ocw2Rotate ≠ 0 ∧ (value &&& ocw2Eoi ≠ 0 ∨ value &&& ocw2SpecificIrq ≠ 0)) ||
    (c.autoEoi && c.rotateOnAutoEoi && (acknowledges c op).isSome)

namespace Controller

variable {c : Controller W} {irq : Irq}

theorem refreshLevels_of_edge (h : c.levelTriggered = false) : c.refreshLevels = c := by
  rw [refreshLevels, h]
  rfl

/-- Refreshing the levels changes nothing but the requests. -/
theorem refreshLevels_eq : ∃ requests, c.refreshLevels = { c with requests := requests } := by
  unfold refreshLevels
  split
  · exact ⟨_, rfl⟩
  · exact ⟨c.requests, rfl⟩

theorem acknowledge_none (h : c.nextIrq = none) : c.acknowledge = (c, none) := by
  rw [acknowledge, h]

/-- An acknowledgement takes the input into service, or under automatic EOI may move the service order. -/
theorem acknowledge_some (h : c.nextIrq = some irq) :
    ∃ requests, c.acknowledge.1 = { c with
      requests := requests
      inService := if c.autoEoi then c.inService else c.inService ||| bit irq
      highestPriorityIrq := if c.autoEoi ∧ c.rotateOnAutoEoi then irq + 1 else c.highestPriorityIrq } ∧
      (c.levelTriggered = false → requests = c.requests &&& ~~~bit irq) := by
  rw [acknowledge, h]
  dsimp only
  generalize hc : (if c.autoEoi = true then _ else _ : Controller W) = c'
  have hc' : c' = { c with
      requests := c.requests &&& ~~~bit irq
      inService := if c.autoEoi then c.inService else c.inService ||| bit irq
      highestPriorityIrq := if c.autoEoi ∧ c.rotateOnAutoEoi then irq + 1 else c.highestPriorityIrq } := by
    rw [← hc]
    cases ha : c.autoEoi <;> cases hr : c.rotateOnAutoEoi <;> simp [setLowestPriority]
  obtain ⟨requests, hreq⟩ := c'.refreshLevels_eq
  refine ⟨requests, by rw [hreq, hc'], fun hedge => ?_⟩
  have hedge' : c'.levelTriggered = false := by rw [hc']; exact hedge
  have := congrArg Controller.requests hreq
  rw [refreshLevels_of_edge hedge', hc'] at this
  exact this.symm

end Controller

variable {c : Controller W}

variable {op : Op W}

theorem acknowledges_eq_some {irq : Irq} : acknowledges c op = some irq ↔ Delivers c op irq := by
  rw [Delivers, ← Controller.nextIrq_eq_some]
  cases op with
  | pollInterrupt w => exact (and_iff_right rfl).symm
  | readPort port bytes =>
    rw [acknowledges, asks, decide_eq_true_eq]
    split
    · next h => exact (and_iff_right h).symm
    · next h => exact ⟨fun hack => (by cases hack), fun hasks => absurd hasks.1 h⟩
  | _ => exact ⟨fun hack => (by cases hack), fun hasks => absurd hasks.1 Bool.false_ne_true⟩

section

variable (c : Controller W) (f : Controller W → Controller W)

/-- An update keeps the registers of the changed controller. -/
theorem update_controller : ∃ w, (update c f).controller = { f c with waker := w } := by
  unfold update
  dsimp only
  split
  · exact ⟨none, rfl⟩
  · exact ⟨(f c).waker, rfl⟩

end

namespace Controller

variable {c : Controller W} {irq : Irq} {value : Byte}

/-- An OCW2 or OCW3 leaves the requests and their trigger mode alone. -/
theorem command_edge (hi : value &&& icw1Initialize = 0) :
    (c.command value).requests = c.requests ∧ (c.command value).levelTriggered = c.levelTriggered := by
  rw [command, if_neg (by simpa using hi)]
  split
  · unfold writeOcw3
    dsimp only
    split <;> split <;> exact ⟨rfl, rfl⟩
  · unfold writeOcw2
    dsimp only
    split
    · split
      · split <;> exact ⟨rfl, rfl⟩
      · exact ⟨rfl, rfl⟩
    · split
      · exact ⟨rfl, rfl⟩
      · split <;> exact ⟨rfl, rfl⟩

theorem data_edge (h : c.levelTriggered = false) :
    (c.data value).requests = c.requests ∧ (c.data value).levelTriggered = false := by
  unfold data
  dsimp only
  split <;> rw [refreshLevels_of_edge (by exact h)] <;> exact ⟨rfl, h⟩

theorem recordLevel_edge (irq : Irq) (high : Bool) (h : c.levelTriggered = false) :
    (c.recordLevel irq high).requests = c.requests ∧ (c.recordLevel irq high).levelTriggered = false := by
  unfold recordLevel
  dsimp only
  rw [refreshLevels_of_edge (by exact h)]
  exact ⟨rfl, h⟩

theorem setLevel_edge (irq : Irq) (high : Bool) (h : c.levelTriggered = false) :
    (c.setLevel irq high).levelTriggered = false ∧ ∀ irq', has (c.setLevel irq high).requests irq' =
      (has c.requests irq' || (high && (irq = irq') && !has c.levels irq')) := by
  unfold setLevel
  dsimp only
  split
  · next hrise =>
      obtain ⟨hreq, hlev⟩ := recordLevel_edge irq high (c := { c with requests := c.requests ||| bit irq }) h
      refine ⟨hlev, fun irq' => ?_⟩
      rw [hreq, has_or, has_bit, hrise.1]
      by_cases hirq : irq = irq'
      · subst hirq
        simp [hrise.2]
      · simp [hirq, Ne.symm hirq]
  · next hrise =>
      obtain ⟨hreq, hlev⟩ := recordLevel_edge irq high (c := c) h
      refine ⟨hlev, fun irq' => ?_⟩
      rw [hreq]
      by_cases hirq : irq = irq'
      · subst hirq
        cases high <;> simp_all
      · simp [hirq]

end Controller

/-- In edge mode a request comes from a rising edge and goes with an acknowledgement. -/
theorem step_requests (h : c.levelTriggered = false) (hi : initializes op = false) :
    (step c op).levelTriggered = false ∧ ∀ irq, has (step c op).requests irq =
      ((has c.requests irq && decide (acknowledges c op ≠ some irq)) || raises c op irq) := by
  have acknowledged : ∀ {d : Controller W} {op : Op W}, d.levelTriggered = false → (∀ irq, raises c op irq = false) →
      acknowledges c op = d.nextIrq → d.requests = c.requests → d.acknowledge.1.levelTriggered = false ∧
      ∀ irq, has d.acknowledge.1.requests irq =
        ((has c.requests irq && decide (acknowledges c op ≠ some irq)) || raises c op irq) := by
    intro d op hedge hraise hack hreq
    cases hn : d.nextIrq with
    | none =>
      rw [Controller.acknowledge_none hn, hack, hn]
      exact ⟨hedge, fun irq => by simp [hraise, hreq]⟩
    | some irq' =>
      obtain ⟨requests, heq, hrequests⟩ := Controller.acknowledge_some hn
      rw [heq]
      refine ⟨hedge, fun irq => ?_⟩
      rw [hrequests hedge, hack, hn, hraise, hreq]
      by_cases hirq : irq = irq'
      · subst hirq
        simp
      · simp [hirq, Ne.symm hirq]
  have changed : ∀ f : Controller W → Controller W, (f c).levelTriggered = false → (∀ irq, raises c op irq = false) →
      acknowledges c op = none → (f c).requests = c.requests → (update c f).controller.levelTriggered = false ∧
      ∀ irq, has (update c f).controller.requests irq =
        ((has c.requests irq && decide (acknowledges c op ≠ some irq)) || raises c op irq) := by
    intro f hedge hraise hack hreq
    obtain ⟨w, hw⟩ := update_controller c f
    rw [hw, hack]
    exact ⟨hedge, fun irq => by simp [hraise, hreq]⟩
  cases op with
  | connect irq high =>
    obtain ⟨hreq, hlev⟩ := Controller.recordLevel_edge irq high h
    exact changed _ hlev (fun _ => rfl) rfl hreq
  | unmaskIrq irq => exact changed _ h (fun _ => rfl) rfl rfl
  | setLevel irq high =>
    obtain ⟨hlev, hreq⟩ := Controller.setLevel_edge irq high h
    obtain ⟨w, hw⟩ := update_controller c fun c => c.setLevel irq high
    show (update c _).controller.levelTriggered = false ∧ ∀ irq', has (update c _).controller.requests irq' = _
    rw [hw]
    refine ⟨hlev, fun irq' => ?_⟩
    rw [hreq]
    cases high <;> simp [raises, acknowledges]
  | readPort port bytes =>
    show (readPort c port bytes).controller.levelTriggered = false ∧
      ∀ irq, has (readPort c port bytes).controller.requests irq = _
    unfold readPort
    split
    · next hb => exact ⟨h, fun irq => by simp [raises, acknowledges, hb]⟩
    next hb =>
    split
    · next hp =>
        unfold Controller.readCommand
        dsimp only
        split
        · next hpoll =>
            have hack : acknowledges c (.readPort port bytes) = c.nextIrq := by
              rw [acknowledges, if_pos ⟨by simpa using hb, hp, hpoll⟩]
            exact acknowledged (d := { c with pollPending := false }) h (fun _ => rfl) hack rfl
        · next hpoll => split <;> exact ⟨h, fun irq => by simp [raises, acknowledges, hpoll]⟩
    · next hp => split <;> exact ⟨h, fun irq => by simp [raises, acknowledges, hp]⟩
  | writePort port bytes value =>
    show (writePort c port bytes value).controller.levelTriggered = false ∧
      ∀ irq, has (writePort c port bytes value).controller.requests irq = _
    unfold writePort
    split
    · exact ⟨h, fun irq => by simp [raises, acknowledges]⟩
    next hb =>
    refine changed _ ?_ (fun _ => rfl) rfl ?_ <;> split
    · next hp =>
        have hv : value.setWidth 8 &&& icw1Initialize = 0 := by simp_all [initializes, commandByte]
        rw [(Controller.command_edge hv).2, h]
    · split
      · exact (Controller.data_edge h).2
      · exact h
    · next hp =>
        have hv : value.setWidth 8 &&& icw1Initialize = 0 := by simp_all [initializes, commandByte]
        exact (Controller.command_edge hv).1
    · split
      · exact (Controller.data_edge h).1
      · rfl
  | pollInterrupt w => exact acknowledged (d := { c with waker := some w }) h (fun _ => rfl) rfl rfl

/-- Initialization clears the requests and the service register. -/
theorem step_initializes (hi : initializes op = true) : (step c op).requests = 0 ∧ (step c op).inService = 0 := by
  cases op with
  | writePort port bytes value =>
    unfold initializes commandByte at hi
    dsimp only at hi
    split at hi
    · next h =>
        obtain ⟨rfl, rfl⟩ := h
        have hv : value.setWidth 8 &&& icw1Initialize ≠ 0 := by simpa using hi
        obtain ⟨w, hw⟩ := update_controller c fun c => c.command (value.setWidth 8)
        have heq : (step c (.writePort commandPort 1 value)) =
            { c.command (value.setWidth 8) with waker := w } := hw
        rw [heq, Controller.command, if_pos hv]
        exact ⟨rfl, rfl⟩
    · cases hi
  | _ => exact absurd hi (by simp [initializes, commandByte])

namespace Controller

variable {c : Controller W} {irq : Irq} {value : Byte} {high : Bool}

theorem refreshLevels_service : c.refreshLevels.inService = c.inService ∧
    c.refreshLevels.highestPriorityIrq = c.highestPriorityIrq ∧ c.refreshLevels.waker = c.waker := by
  obtain ⟨requests, h⟩ := c.refreshLevels_eq
  rw [h]
  exact ⟨rfl, rfl, rfl⟩

theorem recordLevel_service : (c.recordLevel irq high).inService = c.inService ∧
    (c.recordLevel irq high).highestPriorityIrq = c.highestPriorityIrq ∧ (c.recordLevel irq high).waker = c.waker :=
  refreshLevels_service

theorem setLevel_service : (c.setLevel irq high).inService = c.inService ∧
    (c.setLevel irq high).highestPriorityIrq = c.highestPriorityIrq ∧ (c.setLevel irq high).waker = c.waker := by
  unfold setLevel
  dsimp only
  split <;> exact recordLevel_service

theorem refreshLevels_levelTriggered : c.refreshLevels.levelTriggered = c.levelTriggered := by
  obtain ⟨requests, h⟩ := c.refreshLevels_eq
  rw [h]

theorem recordLevel_levelTriggered : (c.recordLevel irq high).levelTriggered = c.levelTriggered :=
  refreshLevels_levelTriggered

theorem setLevel_levelTriggered : (c.setLevel irq high).levelTriggered = c.levelTriggered := by
  unfold setLevel
  dsimp only
  split <;> exact recordLevel_levelTriggered

theorem data_levelTriggered : (c.data value).levelTriggered = c.levelTriggered := by
  unfold data
  dsimp only
  split <;> exact refreshLevels_levelTriggered

theorem acknowledge_levelTriggered : c.acknowledge.1.levelTriggered = c.levelTriggered := by
  cases h : c.nextIrq with
  | none => rw [acknowledge_none h]
  | some irq =>
    obtain ⟨requests, heq, -⟩ := acknowledge_some h
    rw [heq]

theorem refreshLevels_levels : c.refreshLevels.levels = c.levels := by
  obtain ⟨requests, h⟩ := c.refreshLevels_eq
  rw [h]

theorem acknowledge_levels : c.acknowledge.1.levels = c.levels := by
  cases h : c.nextIrq with
  | none => rw [acknowledge_none h]
  | some irq =>
    obtain ⟨requests, heq, -⟩ := acknowledge_some h
    rw [heq]

theorem data_levels : (c.data value).levels = c.levels := by
  unfold data
  dsimp only
  split <;> exact refreshLevels_levels

theorem command_levels : (c.command value).levels = c.levels := by
  unfold command
  split
  · rfl
  split
  · unfold writeOcw3
    dsimp only
    split <;> split <;> rfl
  · unfold writeOcw2
    dsimp only
    split
    · split
      · split <;> rfl
      · rfl
    · split
      · rfl
      · split <;> rfl

theorem data_service : (c.data value).inService = c.inService ∧
    (c.data value).highestPriorityIrq = c.highestPriorityIrq ∧ (c.data value).waker = c.waker := by
  unfold data
  dsimp only
  split <;> exact refreshLevels_service

theorem writeOcw3_service : (c.writeOcw3 value).inService = c.inService ∧
    (c.writeOcw3 value).highestPriorityIrq = c.highestPriorityIrq ∧ (c.writeOcw3 value).waker = c.waker := by
  unfold writeOcw3
  dsimp only
  split <;> split <;> exact ⟨rfl, rfl, rfl⟩

end Controller

/-- The effect of an OCW2 on the service register and the service order. -/
theorem writeOcw2_service {value : Byte} (h : ocw2 op = some value) :
    (∀ irq, has (c.writeOcw2 value).inService irq = (has c.inService irq && decide (ends c op ≠ some irq))) ∧
      (rotates c op = false → (c.writeOcw2 value).highestPriorityIrq = c.highestPriorityIrq) := by
  have hrot : rotates c op = false →
      ¬ (value &&& ocw2Rotate ≠ 0 ∧ (value &&& ocw2Eoi ≠ 0 ∨ value &&& ocw2SpecificIrq ≠ 0)) := by
    intro hr
    simp only [rotates, h, Option.any_some, Bool.or_eq_false_iff, decide_eq_false_iff_not] at hr
    exact hr.1
  have hends : ends c op = if value &&& ocw2Eoi = 0 then none
      else if value &&& ocw2SpecificIrq ≠ 0 then some (Controller.namedIrq value)
      else c.highestPriority c.blockingService := by
    rw [ends, h]
    rfl
  rw [hends]
  unfold Controller.writeOcw2
  dsimp only
  split
  · next heoi =>
      simp only [decide_eq_true_eq]
      generalize (if value &&& ocw2SpecificIrq ≠ 0 then some (Controller.namedIrq value)
        else c.highestPriority c.blockingService) = ended
      cases ended with
      | none => exact ⟨fun irq => by simp, fun _ => rfl⟩
      | some irq' =>
        constructor
        · intro irq
          by_cases hirq : irq = irq'
          · subst hirq
            simp only [ne_eq, not_true, decide_false, Bool.and_false]
            split <;> simp [Controller.setLowestPriority]
          · simp only [ne_eq, Option.some.injEq, Ne.symm hirq, not_false_eq_true, decide_true, Bool.and_true]
            split <;> simp [Controller.setLowestPriority, hirq]
        · intro hr
          dsimp only
          rw [if_neg fun hrotate => hrot hr ⟨by simpa using hrotate, Or.inl heoi⟩]
  · next heoi =>
      rw [if_pos (not_not.mp heoi)]
      split
      · exact ⟨fun irq => by simp, fun _ => rfl⟩
      · next hspec =>
          split
          · next hrotate =>
              refine ⟨fun irq => by simp [Controller.setLowestPriority], fun hr => ?_⟩
              exact absurd ⟨by simpa using hrotate, Or.inr (by simpa using hspec)⟩ (hrot hr)
          · exact ⟨fun irq => by simp, fun _ => rfl⟩

/-- Acknowledged inputs enter service, and an EOI ends the service of one. -/
theorem step_service (hi : initializes op = false) :
    (∀ irq, has (step c op).inService irq =
      ((has c.inService irq || decide (services c op = some irq)) && decide (ends c op ≠ some irq))) ∧
      (rotates c op = false → (step c op).highestPriorityIrq = c.highestPriorityIrq) := by
  have changed : ∀ {op : Op W} (f : Controller W → Controller W), acknowledges c op = none → ends c op = none →
      (f c).inService = c.inService → (f c).highestPriorityIrq = c.highestPriorityIrq →
      (∀ irq, has (update c f).controller.inService irq =
        ((has c.inService irq || decide (services c op = some irq)) && decide (ends c op ≠ some irq))) ∧
      (rotates c op = false → (update c f).controller.highestPriorityIrq = c.highestPriorityIrq) := by
    intro op f hack hend hs hp
    obtain ⟨w, hw⟩ := update_controller c f
    rw [hw]
    refine ⟨fun irq => ?_, fun _ => hp⟩
    simp [services, hack, hend, hs]
  have kept : ∀ {op : Op W}, acknowledges c op = none → ends c op = none →
      (∀ irq, has c.inService irq =
        ((has c.inService irq || decide (services c op = some irq)) && decide (ends c op ≠ some irq))) ∧
      (rotates c op = false → c.highestPriorityIrq = c.highestPriorityIrq) := by
    intro op hack hend
    exact ⟨fun irq => by simp [services, hack, hend], fun _ => rfl⟩
  have acknowledged : ∀ {d : Controller W} {op : Op W}, acknowledges c op = d.nextIrq → ends c op = none →
      d.inService = c.inService → d.highestPriorityIrq = c.highestPriorityIrq → d.autoEoi = c.autoEoi →
      d.rotateOnAutoEoi = c.rotateOnAutoEoi →
      (∀ irq, has d.acknowledge.1.inService irq =
        ((has c.inService irq || decide (services c op = some irq)) && decide (ends c op ≠ some irq))) ∧
      (rotates c op = false → d.acknowledge.1.highestPriorityIrq = c.highestPriorityIrq) := by
    intro d op hack hend hs hp ha hr
    cases hn : d.nextIrq with
    | none =>
      rw [Controller.acknowledge_none hn]
      exact ⟨fun irq => by simp [services, hack, hn, hend, hs], fun _ => hp⟩
    | some irq' =>
      obtain ⟨requests, heq, -⟩ := Controller.acknowledge_some hn
      rw [heq]
      refine ⟨fun irq => ?_, fun hrot => ?_⟩
      · dsimp only
        rw [services, hack, hn, hend, hs, ha]
        cases c.autoEoi <;> simp [eq_comm]
      · simp only [rotates, hack, hn, Option.isSome_some, Bool.and_true, Bool.or_eq_false_iff] at hrot
        have : ¬ (c.autoEoi = true ∧ c.rotateOnAutoEoi = true) := by
          rintro ⟨h₁, h₂⟩
          simp [h₁, h₂] at hrot
        dsimp only
        rw [ha, hr, if_neg this, hp]
  cases op with
  | connect irq high =>
    exact changed _ rfl rfl Controller.recordLevel_service.1 Controller.recordLevel_service.2.1
  | unmaskIrq irq => exact changed _ rfl rfl rfl rfl
  | setLevel irq high => exact changed _ rfl rfl Controller.setLevel_service.1 Controller.setLevel_service.2.1
  | readPort port bytes =>
    show (∀ irq, has (readPort c port bytes).controller.inService irq = _) ∧
      (_ → (readPort c port bytes).controller.highestPriorityIrq = _)
    unfold readPort
    split
    · next hb => exact kept (by simp [acknowledges, hb]) rfl
    next hb =>
    split
    · next hp =>
        unfold Controller.readCommand
        dsimp only
        split
        · next hpoll =>
            have hack : acknowledges c (.readPort port bytes) = c.nextIrq := by
              rw [acknowledges, if_pos ⟨by simpa using hb, hp, hpoll⟩]
            exact acknowledged (d := { c with pollPending := false }) hack rfl rfl rfl rfl rfl
        · next hpoll => split <;> exact kept (by simp [acknowledges, hpoll]) rfl
    · next hp => split <;> exact kept (by simp [acknowledges, hp]) rfl
  | writePort port bytes value =>
    show (∀ irq, has (writePort c port bytes value).controller.inService irq = _) ∧
      (_ → (writePort c port bytes value).controller.highestPriorityIrq = _)
    unfold writePort
    split
    · next hb => exact kept rfl (by simp [ends, ocw2, commandByte, hb])
    next hb =>
    obtain rfl : bytes = 1 := by simpa using hb
    by_cases hp : port = commandPort
    · subst hp
      have hv : value.setWidth 8 &&& icw1Initialize = 0 := by simpa [initializes, commandByte] using hi
      obtain ⟨w, hw⟩ := update_controller c fun c => c.command (value.setWidth 8)
      simp only [if_true, hw]
      rw [Controller.command, if_neg (by simpa using hv)]
      split
      · next hocw3 =>
          have hend : ends c (.writePort commandPort 1 value) = none := by
            simp only [ends, ocw2, commandByte, and_self, if_true, Option.filter_some]
            rw [if_neg fun h => hocw3 (of_decide_eq_true h).2]
            rfl
          obtain ⟨hs, hh, -⟩ := @Controller.writeOcw3_service W c (value.setWidth 8)
          exact ⟨fun irq => by simp [services, acknowledges, hend, hs], fun _ => hh⟩
      · next hocw3 =>
          have hocw2 : ocw2 (.writePort commandPort 1 value : Op W) = some (value.setWidth 8) := by
            simp only [ocw2, commandByte, and_self, if_true, Option.filter_some]
            rw [if_pos]
            simpa [hv] using hocw3
          obtain ⟨hs, hh⟩ := writeOcw2_service (c := c) hocw2
          exact ⟨fun irq => by simp [services, acknowledges, hs], hh⟩
    · have hend : ends c (.writePort port 1 value) = none := by simp [ends, ocw2, commandByte, hp]
      simp only [if_neg hp]
      split
      · exact changed _ rfl hend Controller.data_service.1 Controller.data_service.2.1
      · exact changed _ rfl hend rfl rfl
  | pollInterrupt w => exact acknowledged (d := { c with waker := some w }) rfl rfl rfl rfl rfl rfl

/-- Only an initialization changes the trigger mode. -/
theorem step_levelTriggered (hi : initializes op = false) : (step c op).levelTriggered = c.levelTriggered := by
  have changed : ∀ f : Controller W → Controller W, (f c).levelTriggered = c.levelTriggered →
      (update c f).controller.levelTriggered = c.levelTriggered := by
    intro f hf
    obtain ⟨w, hw⟩ := update_controller c f
    rw [hw]
    exact hf
  cases op with
  | connect irq high => exact changed _ Controller.recordLevel_levelTriggered
  | unmaskIrq irq => exact changed _ rfl
  | setLevel irq high => exact changed _ Controller.setLevel_levelTriggered
  | readPort port bytes =>
    show (readPort c port bytes).controller.levelTriggered = _
    unfold readPort
    split
    · rfl
    split
    · unfold Controller.readCommand
      dsimp only
      split
      · exact Controller.acknowledge_levelTriggered (c := { c with pollPending := false })
      · split <;> rfl
    · split <;> rfl
  | writePort port bytes value =>
    show (writePort c port bytes value).controller.levelTriggered = _
    unfold writePort
    split
    · rfl
    next hb =>
    refine changed _ ?_
    split
    · next hp =>
        have hv : value.setWidth 8 &&& icw1Initialize = 0 := by simp_all [initializes, commandByte]
        exact (Controller.command_edge hv).2
    · split
      · exact Controller.data_levelTriggered
      · rfl
  | pollInterrupt w => exact Controller.acknowledge_levelTriggered (c := { c with waker := some w })

/-- The line an operation drives, and its new level. -/
def drives : Op W → Option (Irq × Bool)
  | .connect irq high | .setLevel irq high => some (irq, high)
  | _ => none

/-- The levels follow the operations that drive their lines. -/
theorem step_levels (irq : Irq) : has (step c op).levels irq =
    match drives op with
    | some (irq', high) => if irq = irq' then high else has c.levels irq
    | none => has c.levels irq := by
  have changed : ∀ f : Controller W → Controller W,
      has (update c f).controller.levels irq = has (f c).levels irq := by
    intro f
    obtain ⟨w, hw⟩ := update_controller c f
    rw [hw]
  have recorded : ∀ (d : Controller W) irq' high, d.levels = c.levels → has (d.recordLevel irq' high).levels irq =
      if irq = irq' then high else has c.levels irq := by
    intro d irq' high hd
    unfold Controller.recordLevel
    dsimp only
    rw [Controller.refreshLevels_levels]
    dsimp only
    rw [hd]
    cases high <;> by_cases hirq : irq = irq' <;> simp [hirq]
  cases op with
  | connect irq' high => exact (changed _).trans (recorded c irq' high rfl)
  | unmaskIrq irq' => exact changed _
  | setLevel irq' high =>
    refine (changed _).trans ?_
    unfold Controller.setLevel
    dsimp only
    split
    · exact recorded _ irq' high rfl
    · exact recorded _ irq' high rfl
  | readPort port bytes =>
    show has (readPort c port bytes).controller.levels irq = _
    unfold readPort
    split
    · rfl
    split
    · unfold Controller.readCommand
      dsimp only
      split
      · exact congrArg (has · irq) (Controller.acknowledge_levels (c := { c with pollPending := false }))
      · split <;> rfl
    · split <;> rfl
  | writePort port bytes value =>
    show has (writePort c port bytes value).controller.levels irq = _
    unfold writePort
    split
    · rfl
    · refine (changed _).trans (congrArg (has · irq) ?_)
      split
      · exact Controller.command_levels
      · split
        · exact Controller.data_levels
        · rfl
  | pollInterrupt w => exact congrArg (has · irq) (Controller.acknowledge_levels (c := { c with waker := some w }))

section

variable {c : Controller W} {irq : Irq}

/-- An edge-mode request. -/
def EdgeRequest (irq : Irq) (c : Controller W) : Prop := c.levelTriggered = false ∧ has c.requests irq = true

/-- An edge request stays until it is acknowledged or the controller is initialized. -/
theorem EdgeRequest.step (h : EdgeRequest irq c) (op : Op W) :
    EdgeRequest irq (step c op) ∨ (acknowledges c op = some irq ∨ initializes op = true) := by
  by_cases hi : initializes op = true
  · exact Or.inr (Or.inr hi)
  by_cases hack : acknowledges c op = some irq
  · exact Or.inr (Or.inl hack)
  obtain ⟨hlev, hreq⟩ := step_requests h.1 (show initializes op = false by simpa using hi)
  exact Or.inl ⟨hlev, by rw [hreq, h.2]; simp [hack]⟩

end

/-! ## Nested service -/

/-- The stack lists the inputs in service by falling priority from the bottom. -/
structure Nested (c : Controller W) (stack : List Irq) : Prop where
  mem_iff : ∀ irq, irq ∈ stack ↔ has c.inService irq = true
  sorted : stack.Pairwise fun a b => c.priorityRank a < c.priorityRank b

theorem nested_nil (h : c.inService = 0) : Nested c [] :=
  ⟨fun irq => by rw [h]; simp, List.Pairwise.nil⟩

variable {stack : List Irq}

theorem Nested.step (h : Nested c stack)
    (hrot : rotates c op = false) (hmask : c.specialMask = false) :
    Nested (step c op) (((services c op).toList ++ stack).filter (has (step c op).inService)) := by
  by_cases hi : initializes op = true
  · have hs := (step_initializes (c := c) hi).2
    have hnil : ((services c op).toList ++ stack).filter (has (Pic.step c op).inService) = [] := by
      rw [List.filter_eq_nil_iff, hs]
      simp
    rw [hnil]
    exact nested_nil hs
  obtain ⟨hs, hp⟩ := step_service (c := c) (show initializes op = false by simpa using hi)
  have hrank : ∀ irq, (Pic.step c op).priorityRank irq = c.priorityRank irq := by
    intro irq
    rw [Controller.priorityRank, hp hrot]
    rfl
  constructor
  · intro irq
    rw [List.mem_filter, List.mem_append, Option.mem_toList, h.mem_iff, hs]
    simp only [Bool.and_eq_true, Bool.or_eq_true, decide_eq_true_eq]
    tauto
  · simp only [hrank]
    refine List.Pairwise.filter _ (List.pairwise_append.mpr ⟨?_, h.sorted, ?_⟩)
    · cases services c op with
      | none => exact List.Pairwise.nil
      | some irq => exact List.pairwise_singleton _ _
    · intro irq hirq irq' hirq'
      have hack : acknowledges c op = some irq := by
        rw [Option.mem_toList, services] at hirq
        split at hirq
        · cases hirq
        · exact hirq
      refine (acknowledges_eq_some.mp hack).2.above_service irq' ?_
      rw [Controller.blockingService, hmask]
      exact (h.mem_iff irq').mp hirq'

end Relocade.Pic
