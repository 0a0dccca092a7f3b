import Relocade.Flags.Direct
import Relocade.Flags.Publication

/-!
# `Flags.LazyFlags` — the flag tracker against an explicit flag vector

Along every path of changes and reads the tracker answers as a vector of twelve flags to which the changes are applied
one by one, and after publication the stored record and the direct bytes hold that vector. Changes whose guard is false
leave no trace in the stored bytes.
-/

namespace Relocade.Flags

open Ssa (StateFields)
open Option (map_some bind_eq_bind bind_some)

/-! ## Paths -/

/-- What a path does with its flags. -/
inductive Op (N : Type) where
  | apply (change : FlagChange N)
  | read (flag : Flag)
  | readFlags (requested : List Flag)
  | condition (condition : Condition)

section

variable {N : Type} [DecidableEq N] (naming : Naming N)

/-- One operation: its answer, and the tracker and memory it leaves. -/
def perform (state : FlagTracker N × Memory) : Op N → Option (List Bool × FlagTracker N × Memory)
  | .apply change => do
      let (tracker, m) ← state.1.apply naming state.2 change
      return ([], tracker, m)
  | .read flag => do
      let (value, tracker, m) ← state.1.read naming state.2 flag
      return ([value], tracker, m)
  | .readFlags requested => state.1.readFlags naming state.2 requested
  | .condition condition => do
      let (value, tracker) ← state.1.condition state.2 condition
      return ([value], tracker, state.2)

/-- The answers of a path, and what it leaves. -/
def run (state : FlagTracker N × Memory) : List (Op N) → Option (List (List Bool) × FlagTracker N × Memory)
  | [] => some ([], state)
  | op :: rest => do
      let (answer, state) ← perform naming state op
      let (answers, state) ← run state rest
      return (answer :: answers, state)

end

/-! ## The explicit flag vector -/

section

variable {N : Type}

/-- The flags after an operation. -/
def Op.after (flags : Flag → Bool) : Op N → Flag → Bool
  | .apply change => change.applyTo flags
  | .read _ | .readFlags _ | .condition _ => flags

/-- The answer of an operation. -/
def Op.answer (flags : Flag → Bool) : Op N → List Bool
  | .apply _ => []
  | .read flag => [flags flag]
  | .readFlags requested => requested.map flags
  | .condition c => [c.holds fun flag => flags (.status flag)]

def answers (flags : Flag → Bool) : List (Op N) → List (List Bool)
  | [] => []
  | op :: rest => op.answer flags :: answers (op.after flags) rest

/-- The flags after a path. -/
def flagsAfter (flags : Flag → Bool) (ops : List (Op N)) : Flag → Bool := ops.foldl Op.after flags

/-- The low bit of a direct byte. -/
def directBit (m : Memory) (flag : Flag) : Bool :=
  ((directLocation flag).map fun location => (m location).getLsbD 0).getD false

/-- The flags of a stored record and the direct bytes. -/
def storedFlags (m : Memory) (stored : AnyStatusSource) : Flag → Bool
  | .status flag => stored.flag flag
  | flag => directBit m flag

/-- Everything but a change whose guard is false. -/
def Op.active : Op N → Bool
  | .apply change => change.active
  | .read _ | .readFlags _ | .condition _ => true

/-! ## What publication will leave -/

/-- The flag vector, with the owner of the record and the written direct bytes. -/
structure Eager where
  flags : Flag → Bool
  owner : Owner
  bytes : Memory

/-- A direct flag's byte after an active change. -/
def writeFlag (change : FlagChange N) (bytes : Memory) (flag : Flag) : Memory :=
  match directLocation flag, change.flag flag with
  | some location, some value =>
      if change.active then storeByte bytes location ((BitVec.ofBool value.value).setWidth 8) else bytes
  | _, _ => bytes

def Eager.apply (eager : Eager) (change : FlagChange N) : Eager where
  flags := change.applyTo eager.flags
  owner :=
    if change.writes ∩ FlagMask.status = ∅ then eager.owner else claim eager.owner (change.retaining FlagMask.status)
  bytes := change.writes.flags.foldl (writeFlag change) eager.bytes

def Eager.after (eager : Eager) : Op N → Eager
  | .apply change => eager.apply change
  | .read _ | .readFlags _ | .condition _ => eager

def Eager.published (m : Memory) (eager : Eager) : Memory := fun x =>
  if x < directStart then eager.owner.write m (fun flag => eager.flags (.status flag)) x else eager.bytes x

variable {change : FlagChange N} {flag : Flag} {eager : Eager}

theorem Eager.after_flags (eager : Eager) (op : Op N) : (eager.after op).flags = op.after eager.flags := by
  cases op <;> rfl

theorem writeFlag_inactive (h : change.active = false) (bytes : Memory) (flag : Flag) :
    writeFlag change bytes flag = bytes := by
  unfold writeFlag
  rw [h]
  split <;> rfl

/-- A change whose guard is false has no effect. -/
theorem Eager.apply_inactive (eager : Eager) (h : change.active = false) : eager.apply change = eager := by
  have hbytes : ∀ flags : List Flag, flags.foldl (writeFlag change) eager.bytes = eager.bytes := by
    intro flags
    induction flags with
    | nil => rfl
    | cons flag rest ih => rw [List.foldl_cons, writeFlag_inactive h, ih]
  unfold Eager.apply FlagChange.applyTo
  rw [hbytes, claim_inactive (show (change.retaining FlagMask.status).active = false from h), ite_self]
  simp only [FlagChange.after_of_inactive h]

/-- A change of no flags has no effect. -/
theorem Eager.apply_empty (eager : Eager) (h : change.writes = ∅) : eager.apply change = eager := by
  have hflags : change.applyTo eager.flags = eager.flags := by
    funext flag
    exact FlagChange.after_of_not_writes (by rw [h]; exact Finset.notMem_empty _) _
  have hbytes : change.writes.flags = [] := by
    rw [h]
    rfl
  unfold Eager.apply
  rw [hflags, hbytes, h, if_pos (by decide)]
  rfl

/-- An unconditional form of an active change has its effect. -/
theorem Eager.apply_unconditional (eager : Eager) (h : change.active = true) :
    eager.apply { change with condition := none } = eager.apply change := by
  have hafter : ∀ flag old, FlagChange.after { change with condition := none } flag old = change.after flag old := by
    intro flag old
    unfold FlagChange.after
    rw [h]
    rfl
  have hwrite : writeFlag { change with condition := none } = writeFlag change := by
    funext bytes flag
    unfold writeFlag
    rw [h]
    rfl
  have hclaim : claim eager.owner (FlagChange.retaining { change with condition := none } FlagMask.status) =
      claim eager.owner (change.retaining FlagMask.status) := by
    unfold claim
    rw [show (change.retaining FlagMask.status).active = true from h]
    rfl
  unfold Eager.apply FlagChange.applyTo
  simp only [hafter, hwrite, hclaim]

variable (ops : List (Op N))

theorem Eager.run_flags (eager : Eager) : (ops.foldl Eager.after eager).flags = flagsAfter eager.flags ops := by
  unfold flagsAfter
  induction ops generalizing eager with
  | nil => rfl
  | cons op rest ih => rw [List.foldl_cons, List.foldl_cons, ih, Eager.after_flags]

theorem Eager.after_inactive (eager : Eager) {op : Op N} (h : ∀ change, op = .apply change → change.active = false) :
    eager.after op = eager := by
  cases op with
  | apply change => exact eager.apply_inactive (h change rfl)
  | _ => rfl

/-- Changes whose guard is false have no effect. -/
theorem Eager.run_active (eager : Eager) :
    (ops.filter Op.active).foldl Eager.after eager = ops.foldl Eager.after eager := by
  induction ops generalizing eager with
  | nil => rfl
  | cons op rest ih =>
    rw [List.foldl_cons, List.filter_cons]
    split
    next => rw [List.foldl_cons, ih]
    next hinactive =>
      rw [ih, eager.after_inactive]
      rintro change rfl
      simpa [Op.active] using hinactive

theorem Eager.run_inactive (eager : Eager) {ops : List (Op N)}
    (h : ∀ change, .apply change ∈ ops → change.active = false) : ops.foldl Eager.after eager = eager := by
  induction ops with
  | nil => rfl
  | cons op rest ih =>
    rw [List.foldl_cons, eager.after_inactive]
    · exact ih fun change hchange => h change (List.mem_cons_of_mem _ hchange)
    · rintro change rfl
      exact h change List.mem_cons_self

/-- The owner's flags are the vector's. -/
def Eager.Agrees (stored : AnyStatusSource) (eager : Eager) : Prop :=
  eager.owner.Agrees stored fun flag => eager.flags (.status flag)

theorem Eager.Agrees.after {stored : AnyStatusSource} (h : eager.Agrees stored) (op : Op N) : (eager.after op).Agrees stored := by
  cases op with
  | apply change =>
    have hafter : (fun flag => (change.retaining FlagMask.status).after (.status flag) (eager.flags (.status flag))) =
        fun flag => change.after (.status flag) (eager.flags (.status flag)) :=
      funext fun flag => FlagChange.after_retaining (FlagMask.mem_status.mpr ⟨flag, rfl⟩) _
    have hclaim := Owner.Agrees.claim h (change.retaining FlagMask.status)
    rw [hafter] at hclaim
    show Owner.Agrees stored (fun flag => change.after (.status flag) (eager.flags (.status flag))) (ite _ _ _)
    split
    next hemp =>
      have hflags : (fun flag => change.after (.status flag) (eager.flags (.status flag))) =
          fun flag => eager.flags (.status flag) :=
        funext fun flag => @history_congr _ flag (fun flag => eager.flags (.status flag)) _ _ hemp
          (FlagMask.mem_status.mpr ⟨flag, rfl⟩)
      rw [hflags]
      exact h
    next => exact hclaim
  | read => exact h
  | readFlags => exact h
  | condition => exact h

theorem Eager.Agrees.run {stored : AnyStatusSource} (h : eager.Agrees stored) :
    (ops.foldl Eager.after eager).Agrees stored := by
  induction ops generalizing eager with
  | nil => exact h
  | cons op rest ih => exact ih (h.after op)

/-! ## The direct flags -/

theorem eq_of_directLocation {a b : Flag} {loc : Nat} (ha : directLocation a = some loc)
    (hb : directLocation b = some loc) : a = b := by
  cases a <;> cases ha <;> cases b <;> cases hb <;> rfl

theorem storeByte_bit (m : Memory) (loc : Nat) (b : Bool) :
    (storeByte m loc ((BitVec.ofBool b).setWidth 8) loc).getLsbD 0 = b := by
  rw [storeByte_same]
  cases b <;> rfl

/-- Writing a flag's byte applies the change to the flag. -/
theorem directBit_writeFlag (bytes : Memory) {written : Flag} (hwr : written ∈ change.writes)
    (hflag : (directLocation flag).isSome) :
    directBit (writeFlag change bytes written) flag =
      if written = flag then change.after flag (directBit bytes flag) else directBit bytes flag := by
  obtain ⟨location, hloc⟩ := Option.isSome_iff_exists.mp hflag
  obtain ⟨value, hval⟩ := FlagChange.exists_flag hwr
  unfold directBit writeFlag
  rw [hloc, hval]
  cases hother : directLocation written with
  | none =>
    rw [if_neg]
    rintro rfl
    exact nomatch hloc.symm.trans hother
  | some other =>
    dsimp only [map_some, Option.getD_some]
    cases hact : change.active with
    | false => rw [if_neg Bool.false_ne_true, FlagChange.after_of_inactive hact, ite_self]
    | true =>
      rw [if_pos rfl]
      split
      next heq =>
        subst heq
        obtain rfl := Option.some.inj (hloc.symm.trans hother)
        rw [storeByte_bit, FlagChange.after_of_active hact hval]
      next hne =>
        rw [storeByte_other]
        rintro rfl
        exact hne (eq_of_directLocation hother hloc)

theorem directBit_foldl (bytes : Memory) {flags : List Flag} (hflags : ∀ flag ∈ flags, flag ∈ change.writes)
    (hnodup : flags.Nodup) (hflag : (directLocation flag).isSome) :
    directBit (flags.foldl (writeFlag change) bytes) flag =
      if flag ∈ flags then change.after flag (directBit bytes flag) else directBit bytes flag := by
  induction flags generalizing bytes with
  | nil => rfl
  | cons first rest ih =>
    obtain ⟨hfst, hrest⟩ := List.nodup_cons.mp hnodup
    rw [List.foldl_cons, ih _ (fun f hf => hflags f (List.mem_cons_of_mem _ hf)) hrest,
      directBit_writeFlag bytes (hflags first List.mem_cons_self) hflag]
    by_cases heq : first = flag
    · subst heq
      rw [if_neg hfst, if_pos rfl, if_pos List.mem_cons_self]
    · rw [if_neg heq]
      simp [Ne.symm heq]

/-- The written bytes hold the changed direct flags. -/
theorem Eager.apply_bits (hbits : ∀ flag, (directLocation flag).isSome → directBit eager.bytes flag = eager.flags flag)
    (change : FlagChange N) (hflag : (directLocation flag).isSome) :
    directBit (eager.apply change).bytes flag = (eager.apply change).flags flag := by
  have hnodup : change.writes.flags.Nodup := List.Nodup.filter _ (by decide)
  unfold Eager.apply FlagChange.applyTo
  dsimp only
  rw [directBit_foldl _ (fun flag hflag => FlagMask.mem_flags.mp hflag) hnodup hflag, hbits flag hflag]
  split
  next => rfl
  next hmem => rw [FlagChange.after_of_not_writes fun hwrites => hmem (FlagMask.mem_flags.mpr hwrites)]

/-! ## The invariant -/

variable {naming : Naming N} {m w : Memory} {direct : StateFields (Val N (BitVec 8))} {stored : AnyStatusSource}
  {tracker : FlagTracker N}

/-- The tracker stands for the flag vector, over a memory that is still as it was. -/
structure Tracks (naming : Naming N) (m : Memory) (stored : AnyStatusSource) (tracker : FlagTracker N) (eager : Eager) :
    Prop where
  valid : tracker.status.Valid stored
  status : ∀ flag, tracker.status.flags stored flag = eager.flags (.status flag)
  owner : tracker.status.owner = eager.owner
  direct : Direct naming tracker.direct m eager.bytes
  bits : ∀ flag, (directLocation flag).isSome → directBit eager.bytes flag = eager.flags flag

/-- What the vector starts from. -/
def Eager.start (m : Memory) (stored : AnyStatusSource) : Eager := ⟨storedFlags m stored, .kept, m⟩

theorem Tracks.new : Tracks naming m stored (.new naming) (.start m stored) := by
  refine ⟨.new, fun _ => rfl, rfl, .new, fun flag hflag => ?_⟩
  cases flag with
  | status => exact nomatch hflag
  | _ => rfl

/-- Queries of the status flags keep the invariant. -/
theorem Tracks.reads (h : Tracks naming m stored tracker eager) {base : StatusBase}
    (hrd : StatusBase.Reads stored tracker.status.base base) :
    Tracks naming m stored { tracker with status := { tracker.status with base := base } } eager := by
  obtain ⟨hvalid, howner⟩ := h.valid.reads hrd
  refine ⟨hvalid, fun flag => ?_, howner.trans h.owner, h.direct, h.bits⟩
  rw [← h.status flag]
  exact congrFun (StatusState.flags_of_reads hrd) flag

theorem Tracks.withDirect (h : Tracks naming m stored tracker eager) (hdir : Direct naming direct m eager.bytes) :
    Tracks naming m stored { tracker with direct := direct } eager :=
  ⟨h.valid, h.status, h.owner, hdir, h.bits⟩

/-- Admitting the status part of a change, once its direct flags are defined. -/
theorem Tracks.admit (h : Tracks naming m stored tracker eager)
    (hdir : Direct naming direct m (eager.apply change).bytes) :
    Tracks naming m stored
      ⟨if (change.retaining FlagMask.status).writes = ∅ then tracker.status
        else tracker.status.apply (change.retaining FlagMask.status), direct⟩ (eager.apply change) := by
  have hafter : ∀ flag old, (change.retaining FlagMask.status).after (.status flag) old = change.after (.status flag) old :=
    fun flag old => FlagChange.after_retaining (FlagMask.mem_status.mpr ⟨flag, rfl⟩) old
  have hstatus : (change.retaining FlagMask.status).writes ⊆ FlagMask.status := Finset.inter_subset_right
  obtain ⟨hvalid, hflags, howner⟩ := apply_spec h.valid hstatus
  refine ⟨?_, fun flag => ?_, ?_, hdir, fun flag => Eager.apply_bits h.bits change⟩
  · split
    next => exact h.valid
    next => exact hvalid
  · show _ = change.after (.status flag) (eager.flags (.status flag))
    rw [← h.status flag, ← hafter]
    split
    next hemp => rw [FlagChange.after_of_not_writes (by rw [hemp]; exact Finset.notMem_empty _)]
    next => exact hflags flag
  · show _ = ite _ _ _
    split
    next hemp => exact h.owner.trans (if_pos hemp).symm
    next hsome =>
      rw [h.owner] at howner
      exact howner.trans (if_neg hsome).symm

/-- A direct flag is the low bit of its byte. -/
theorem read_direct {loc : Nat} (h : directLocation flag = some loc) :
    tracker.read naming m flag = (readDirect naming m tracker.direct loc).map fun read =>
      (read.1.value.getLsbD 0, { tracker with direct := read.2.1 }, read.2.2) := by
  cases flag <;> cases h <;> cases hread : readDirect naming m tracker.direct _ <;> simp [FlagTracker.read, directLocation, hread]

theorem Tracks.read (hstored : Stores m stored) (h : Tracks naming m stored tracker eager) (flag : Flag) :
    ∃ tracker', tracker.read naming m flag = some (eager.flags flag, tracker', m) ∧
      Tracks naming m stored tracker' eager := by
  have hdir : (directLocation flag).isSome → ∃ tracker',
      tracker.read naming m flag = some (eager.flags flag, tracker', m) ∧ Tracks naming m stored tracker' eager := by
    intro hflag
    obtain ⟨location, hloc⟩ := Option.isSome_iff_exists.mp hflag
    obtain ⟨value, direct, hread, hval, hdir⟩ := readDirect_spec h.direct (directStart_le hloc)
    have hbit := h.bits flag hflag
    unfold directBit at hbit
    rw [hloc, map_some, Option.getD_some, ← hval] at hbit
    refine ⟨{ tracker with direct := direct }, ?_, h.withDirect hdir⟩
    rw [read_direct hloc, hread, map_some, hbit]
  cases flag with
  | status flag =>
    obtain ⟨base, hread, hrd⟩ := readFlag_spec hstored h.valid.base flag
    refine ⟨{ tracker with status := { tracker.status with base := base } }, ?_, h.reads hrd⟩
    rw [h.status] at hread
    simp only [FlagTracker.read, hread, bind_eq_bind, bind_some]
    rfl
  | _ => exact hdir rfl

/-- The answers that a subset read gathers. -/
theorem Tracks.gather (hstored : Stores m stored) (h : Tracks naming m stored tracker eager)
    {status : StatusFlag → Option Bool} {flags : List Flag}
    (hstatus : ∀ flag, .status flag ∈ flags → status flag = some (eager.flags (.status flag)))
    (values : List (Flag × Bool)) :
    ∃ tracker', flags.foldlM (fun (values, tracker, m) flag =>
        match flag with
        | .status f => (status f).map fun value => (values ++ [(flag, value)], tracker, m)
        | flag => (FlagTracker.read naming m tracker flag).map fun (value, tracker, m) =>
          (values ++ [(flag, value)], tracker, m)) (values, tracker, m) =
        some (values ++ flags.map fun flag => (flag, eager.flags flag), tracker', m) ∧
      Tracks naming m stored tracker' eager := by
  induction flags generalizing values tracker with
  | nil => exact ⟨tracker, by simp, h⟩
  | cons first rest ih =>
    have hrest : ∀ flag, .status flag ∈ rest → status flag = some (eager.flags (.status flag)) :=
      fun flag hmem => hstatus flag (List.mem_cons_of_mem _ hmem)
    cases first with
    | status flag =>
      obtain ⟨tracker', hfold, htr⟩ := ih h hrest (values ++ [(.status flag, eager.flags (.status flag))])
      refine ⟨tracker', ?_, htr⟩
      rw [List.foldlM_cons]
      simp only [hstatus flag List.mem_cons_self, map_some, bind_eq_bind, bind_some]
      simpa using hfold
    | _ =>
      obtain ⟨tracker₁, hread, htracks₁⟩ := h.read hstored _
      obtain ⟨tracker₂, hfold, htracks₂⟩ := ih htracks₁ hrest _
      refine ⟨tracker₂, ?_, htracks₂⟩
      rw [List.foldlM_cons]
      dsimp only
      rw [hread]
      refine hfold.trans ?_
      simp

/-- Every requested flag is among the gathered ones. -/
theorem mapM_lookup {requested gathered : List Flag} (h : requested ⊆ gathered) (flags : Flag → Bool) :
    requested.mapM (fun flag => (gathered.map fun flag => (flag, flags flag)).lookup flag) =
      some (requested.map flags) := by
  induction requested with
  | nil => rfl
  | cons flag rest ih =>
    obtain ⟨hflag, hrest⟩ := List.cons_subset.mp h
    rw [List.mapM_cons, ih hrest, List.map_prod_left_eq_zip, lookup_zip_map, if_pos hflag]
    rfl

/-- Flags asked for together are the vector's, in request order. -/
theorem Tracks.readFlags (hstored : Stores m stored) (h : Tracks naming m stored tracker eager) (requested : List Flag) :
    ∃ tracker', tracker.readFlags naming m requested = some (requested.map eager.flags, tracker', m) ∧
      Tracks naming m stored tracker' eager := by
  obtain ⟨base, hrsv, hrd⟩ := resolveFlags_spec hstored h.valid.base tracker.status.updates
    (requested.toFinset ∩ FlagMask.status)
  obtain ⟨status, hstatus⟩ : ∃ status : StatusFlag → Option Bool, status = fun flag =>
    if .status flag ∈ requested.toFinset ∩ FlagMask.status then
      some (history tracker.status.updates flag (tracker.status.base.flags stored flag)) else none := ⟨_, rfl⟩
  have hneeded : ∀ flag, .status flag ∈ FlagMask.flags requested.toFinset →
      status flag = some (eager.flags (.status flag)) := by
    intro flag hflag
    rw [hstatus, ← h.status]
    exact if_pos (Finset.mem_inter_of_mem (FlagMask.mem_flags.mp hflag) (FlagMask.mem_status.mpr ⟨flag, rfl⟩))
  obtain ⟨tracker', hfold, htr⟩ := (h.reads hrd).gather hstored hneeded []
  have hreqd : requested ⊆ FlagMask.flags requested.toFinset := fun flag hflag =>
    FlagMask.mem_flags.mpr (List.mem_toFinset.mpr hflag)
  refine ⟨tracker', ?_, htr⟩
  unfold FlagTracker.readFlags
  simp only [hrsv, ← hstatus, bind_eq_bind, bind_some]
  refine Option.bind_eq_some_iff.mpr ⟨_, hfold, ?_⟩
  rw [List.nil_append, mapM_lookup hreqd]
  rfl

/-! ## One operation -/

section

variable [DecidableEq N]

theorem applyDirect_spec (h : Direct naming direct m w) (hflag : flag ∈ change.writes) :
    ∃ direct', FlagTracker.applyDirect naming change (direct, m) flag = some (direct', m) ∧
      Direct naming direct' m (writeFlag change w flag) := by
  obtain ⟨value, hval⟩ := FlagChange.exists_flag hflag
  unfold FlagTracker.applyDirect writeFlag
  rw [hval]
  cases hloc : directLocation flag with
  | none => exact ⟨direct, rfl, h⟩
  | some location =>
    have hst := directStart_le hloc
    simp only [bind_eq_bind, bind_some]
    cases hcond : change.condition with
    | none =>
      rw [FlagChange.active_of_unconditional hcond]
      exact defineDirect_spec h hst _
    | some condition =>
      obtain ⟨old, direct', hread, hold, hdir⟩ := readDirect_spec h hst
      simp only [hread, bind_some]
      obtain ⟨direct'', hdefn, hdir'⟩ := defineDirect_spec hdir hst
        (condition.select naming ⟨naming.extend value.name, (BitVec.ofBool value.value).setWidth 8⟩ old)
      refine ⟨direct'', hdefn, ?_⟩
      rw [FlagChange.active_of_condition hcond]
      unfold Val.select at hdir'
      cases hguard : condition.value with
      | true =>
        rw [hguard] at hdir'
        exact hdir'
      | false =>
        rw [hguard] at hdir'
        dsimp only [cond_false] at hdir'
        rw [hold, storeByte_self] at hdir'
        exact hdir'

theorem foldlM_applyDirect (h : Direct naming direct m w) {flags : List Flag} (hflags : ∀ flag ∈ flags, flag ∈ change.writes) :
    ∃ direct', flags.foldlM (FlagTracker.applyDirect naming change) (direct, m) = some (direct', m) ∧
      Direct naming direct' m (flags.foldl (writeFlag change) w) := by
  induction flags generalizing direct w with
  | nil => exact ⟨direct, rfl, h⟩
  | cons first rest ih =>
    obtain ⟨direct', hfst, hdir⟩ := applyDirect_spec h (hflags first List.mem_cons_self)
    obtain ⟨direct'', hrest, hdir'⟩ := ih hdir fun f hf => hflags f (List.mem_cons_of_mem _ hf)
    refine ⟨direct'', ?_, hdir'⟩
    rw [List.foldlM_cons, hfst]
    exact hrest

/-- Applying a change moves the vector by it. -/
theorem Tracks.apply (h : Tracks naming m stored tracker eager) (change : FlagChange N) :
    ∃ tracker', tracker.apply naming m change = some (tracker', m) ∧
      Tracks naming m stored tracker' (eager.apply change) := by
  unfold FlagTracker.apply
  split
  next hemp =>
    rw [eager.apply_empty hemp]
    exact ⟨tracker, rfl, h⟩
  next =>
    split
    next hfalse =>
      rw [eager.apply_inactive (FlagChange.active_of_condition hfalse)]
      exact ⟨tracker, rfl, h⟩
    next =>
      obtain ⟨change', hchange', heager⟩ : ∃ change' : FlagChange N, change' =
          (if change.condition = some (naming.bool true) then { change with condition := none } else change) ∧
          eager.apply change' = eager.apply change := by
        refine ⟨_, rfl, ?_⟩
        split
        next htrue => exact eager.apply_unconditional (FlagChange.active_of_condition htrue)
        next => rfl
      rw [← hchange', ← heager]
      have hflags : ∀ flag ∈ change'.writes.flags, flag ∈ change'.writes := fun flag hflag => FlagMask.mem_flags.mp hflag
      obtain ⟨direct, hfold, hdir⟩ := foldlM_applyDirect h.direct hflags
      dsimp only
      rw [hfold]
      exact ⟨_, rfl, h.admit hdir⟩

/-! ## Whole paths -/

/-- An operation answers from the vector, and keeps the invariant. -/
theorem perform_spec (hstored : Stores m stored) (h : Tracks naming m stored tracker eager) (op : Op N) :
    ∃ tracker', perform naming (tracker, m) op = some (op.answer eager.flags, tracker', m) ∧
      Tracks naming m stored tracker' (eager.after op) := by
  cases op with
  | apply change =>
    obtain ⟨tracker', happly, htr⟩ := h.apply change
    refine ⟨tracker', ?_, htr⟩
    simp only [perform, happly, bind_eq_bind, bind_some]
    rfl
  | read flag =>
    obtain ⟨tracker', hread, htr⟩ := h.read hstored flag
    refine ⟨tracker', ?_, htr⟩
    simp only [perform, hread, bind_eq_bind, bind_some]
    rfl
  | readFlags requested => exact h.readFlags hstored requested
  | condition condition =>
    obtain ⟨base, hcond, hrd⟩ := condition_spec hstored h.valid.base condition
    refine ⟨{ tracker with status := { tracker.status with base := base } }, ?_, h.reads hrd⟩
    rw [show tracker.status.flags stored = fun flag => eager.flags (.status flag) from funext h.status] at hcond
    simp only [perform, FlagTracker.condition, hcond, bind_eq_bind, bind_some]
    rfl

/-- A path answers from the vector, and keeps the invariant. -/
theorem run_spec (hstored : Stores m stored) (h : Tracks naming m stored tracker eager) (ops : List (Op N)) :
    ∃ tracker', run naming (tracker, m) ops = some (answers eager.flags ops, tracker', m) ∧
      Tracks naming m stored tracker' (ops.foldl Eager.after eager) := by
  induction ops generalizing tracker eager with
  | nil => exact ⟨tracker, rfl, h⟩
  | cons op rest ih =>
    obtain ⟨tracker₁, hop, htracks₁⟩ := perform_spec hstored h op
    obtain ⟨tracker₂, hrest, htracks₂⟩ := ih htracks₁
    refine ⟨tracker₂, ?_, htracks₂⟩
    rw [Eager.after_flags] at hrest
    simp only [run, hop, hrest, bind_eq_bind, bind_some]
    rfl

/-! ## Publication -/

/-- A record depends on the bytes below the direct ones. -/
theorem Stores.congr (h : Stores m stored) (hagree : ∀ x, x < directStart → w x = m x) : Stores w stored := by
  have hkind : w kindOffset = m kindOffset := hagree _ (by decide)
  have hoperand : ∀ (offset : Nat) (width : Width), offset ≤ 14 → operand m offset width.bits = operand w offset width.bits :=
    fun offset width hoff => operand_congr fun x _ hx => (hagree x (by simp only [directStart]; omega)).symm
  cases h with
  | concrete h =>
    have hflags : readConcreteFlag m = readConcreteFlag w := by
      funext flag
      unfold readConcreteFlag
      rw [hagree _ (by cases flag <;> decide)]
    rw [hflags]
    exact .concrete (hkind.trans h)
  | arithmetic width operation h =>
    have hstored : storedArithmetic m width operation = storedArithmetic w width operation := by
      simp only [storedArithmetic, hoperand leftOffset width (by decide), hoperand rightOffset width (by decide)]
    rw [hstored]
    exact .arithmetic width operation (hkind.trans h)
  | logic width h =>
    have hstored : storedLogic m width = storedLogic w width := by
      unfold storedLogic
      rw [hoperand leftOffset width (by decide)]
    rw [hstored]
    exact .logic width (hkind.trans h)

theorem writeConcrete_direct (m : Memory) (flags : StatusFlag → Bool) {x : Nat} (hx : directStart ≤ x) :
    writeConcrete m flags x = m x := by
  unfold directStart at hx
  unfold writeConcrete
  rw [storeByte_other _ (by simp only [kindOffset]; omega)]
  simp only [StatusFlag.all, List.foldl_cons, List.foldl_nil, statusOffset]
  repeat rw [storeByte_other _ (by omega)]

/-- Records lie below the direct bytes. -/
theorem Owner.write_direct (owner : Owner) (m : Memory) (flags : StatusFlag → Bool) {x : Nat} (hx : directStart ≤ x) :
    owner.write m flags x = m x := by
  have hlow : 17 < x := hx
  cases owner with
  | kept => rfl
  | concrete => exact writeConcrete_direct m flags hx
  | published source =>
    obtain ⟨width, source⟩ := source
    cases source with
    | arithmetic operation left right result hres =>
      show storeByte (storeDword (storeDword m leftOffset left) rightOffset right) kindOffset _ x = m x
      rw [storeByte_other _ (by simp only [kindOffset]; omega),
        storeDword_other _ (by simp only [rightOffset]; omega),
        storeDword_other _ (by simp only [leftOffset]; omega)]
    | logic result =>
      show storeByte (storeDword m leftOffset result) kindOffset _ x = m x
      rw [storeByte_other _ (by simp only [kindOffset]; omega),
        storeDword_other _ (by simp only [leftOffset]; omega)]
    | explicit values => exact writeConcrete_direct m values hx

/-- Publication leaves what the vector's side says. -/
theorem Tracks.publish (hstored : Stores m stored) (h : Tracks naming m stored tracker eager) :
    tracker.publish naming m = some (eager.published m) := by
  have hstatus := publish_spec naming hstored h.valid
  rw [h.owner, show tracker.status.flags stored = fun flag => eager.flags (.status flag) from funext h.status] at hstatus
  unfold FlagTracker.publish
  rw [hstatus]
  refine congrArg some (funext fun x => ?_)
  exact publishDirect_spec h.direct (fun x hx => eager.owner.write_direct m _ hx) x

/-! ## The refinement -/

/-- What was published is read back. -/
theorem Eager.published_stores (hstored : Stores m stored) (h : eager.Agrees stored) :
    ∃ source, Stores (eager.published m) source ∧ source.flag = fun flag => eager.flags (.status flag) := by
  obtain ⟨source, hsrc, hflags⟩ := Owner.stores hstored h
  exact ⟨source, hsrc.congr fun x hx => if_pos hx, hflags⟩

/-- The tracker refines the explicit flag vector, on every path and in what it publishes. -/
theorem lazy_flags (naming : Naming N) (m : Memory) (stored : AnyStatusSource) (hstored : Stores m stored)
    (ops : List (Op N)) :
    ∃ tracker m', run naming (.new naming, m) ops = some (answers (storedFlags m stored) ops, tracker, m) ∧
      tracker.publish naming m = some m' ∧
      (∀ mask, readFlags m' mask = some fun flag =>
        if .status flag ∈ mask then some (flagsAfter (storedFlags m stored) ops (.status flag)) else none) ∧
      (∀ condition, readCondition m' condition =
        some (condition.holds fun flag => flagsAfter (storedFlags m stored) ops (.status flag))) ∧
      (∀ flag location, directLocation flag = some location →
        (m' location).getLsbD 0 = flagsAfter (storedFlags m stored) ops flag) ∧
      (∃ answers' tracker', run naming (.new naming, m) (ops.filter Op.active) = some (answers', tracker', m) ∧
        tracker'.publish naming m = some m') ∧
      ((∀ change, .apply change ∈ ops → change.active = false) → m' = m) := by
  have hnew : Tracks naming m stored (.new naming) (.start m stored) := .new
  obtain ⟨tracker, hrun, htracks⟩ := run_spec hstored hnew ops
  obtain ⟨tracker', hrun', htracks'⟩ := run_spec hstored hnew (ops.filter Op.active)
  rw [Eager.run_active] at htracks'
  obtain ⟨eager, heager⟩ : ∃ eager, eager = ops.foldl Eager.after (.start m stored) := ⟨_, rfl⟩
  rw [← heager] at htracks htracks'
  have hflags : flagsAfter (storedFlags m stored) ops = eager.flags := by
    rw [heager, Eager.run_flags]
    rfl
  have hagrees : eager.Agrees stored := by
    rw [heager]
    have hstart : (Eager.start m stored).Agrees stored := rfl
    exact hstart.run ops
  obtain ⟨source, hsource, hsourceFlags⟩ := Eager.published_stores hstored hagrees
  rw [hflags]
  refine ⟨tracker, eager.published m, hrun, htracks.publish hstored, fun mask => ?_, fun condition => ?_,
    fun flag location hlocation => ?_, ⟨_, tracker', hrun', htracks'.publish hstored⟩, fun hinactive => ?_⟩
  · rw [hsource.readFlags, hsourceFlags]
  · rw [hsource.readCondition, hsourceFlags]
  · have hbit := htracks.bits flag (by rw [hlocation]; rfl)
    unfold directBit at hbit
    rw [hlocation] at hbit
    rw [← hbit, Eager.published, if_neg (Nat.not_lt.mpr (directStart_le hlocation))]
    rfl
  · rw [heager, Eager.run_inactive _ hinactive]
    exact funext fun x => ite_self _

end

end

/-- Setting the carry flag over cleared flags, then a change that does not happen. -/
theorem lazy_flags_carry :
    ∃ naming : Naming Nat, ∃ tracker m', run naming (.new naming, fun _ => 0)
        [.apply (.partialChange [(.status .cf, naming.bool true)]),
          .apply ((FlagChange.partialChange [(.df, naming.bool true)]).when naming ⟨7, false⟩),
          .readFlags [.df, .status .cf], .condition .b] =
        some ([[], [], [false, true], [true]], tracker, fun _ => 0) ∧
      tracker.publish naming (fun _ => 0) = some m' ∧ readCondition m' .b = some true ∧ (m' 19).getLsbD 0 = false := by
  obtain ⟨naming, hnaming⟩ : ∃ naming : Naming Nat,
    naming = ⟨Bool.toNat, (· + · + 2), fun a b c => a + b + c + 2, id, id, 0⟩ := ⟨_, rfl⟩
  obtain ⟨tracker, m', hrun, hpublish, -, hcondition, hdirect, -⟩ := lazy_flags naming (fun _ => 0) _ (.concrete rfl)
    [.apply (.partialChange [(.status .cf, naming.bool true)]),
      .apply ((FlagChange.partialChange [(.df, naming.bool true)]).when naming ⟨7, false⟩),
      .readFlags [.df, .status .cf], .condition .b]
  exact ⟨naming, tracker, m', hrun, hpublish, hcondition .b, hdirect .df 19 rfl⟩

end Relocade.Flags
