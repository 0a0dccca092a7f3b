import Relocade.Flags.Queries

/-!
# `Flags.Publication` — admission and terminal publication of status changes

Publication writes what the last active change says: the payload of a complete source, concrete flags after a partial
change, or nothing. `Owner` says which; changes whose guard is false do not count.
-/

namespace Relocade.Flags

/-- Who owns the record that publication leaves. -/
inductive Owner where
  | kept
  | published (source : AnyStatusSource)
  | concrete

namespace Owner

/-- The stored bytes after publication. -/
def write (m : Memory) (flags : StatusFlag → Bool) : Owner → Memory
  | kept => m
  | published source => publishSource m source
  | concrete => writeConcrete m flags

/-- The owner's flags are the current ones. -/
def Agrees (stored : AnyStatusSource) (flags : StatusFlag → Bool) : Owner → Prop
  | kept => flags = stored.flag
  | published source => flags = source.flag
  | concrete => True

end Owner

/-- The owner after a status change. -/
def claim {N : Type} (owner : Owner) (change : FlagChange N) : Owner :=
  if change.active then (change.statusSource FlagMask.status).elim .concrete .published else owner

def StatusBase.owner : StatusBase → Owner
  | .stored _ => .kept
  | .localSource source => .published source

def StatusState.owner {N : Type} (state : StatusState N) : Owner := state.updates.foldl claim state.base.owner

section

variable {N : Type} {m : Memory} {stored : AnyStatusSource} {state : StatusState N} {updates : List (FlagChange N)}
  {change : FlagChange N} {flags : StatusFlag → Bool} {owner : Owner}

theorem claim_inactive (h : change.active = false) (owner : Owner) : claim owner change = owner := by
  unfold claim
  rw [h]
  rfl

/-- A complete active source gives every status flag its value. -/
theorem after_of_complete {source : AnyStatusSource} (hsrc : change.statusSource FlagMask.status = some source)
    (hact : change.active = true) (flag : StatusFlag) (old : Bool) :
    change.after (.status flag) old = source.flag flag := by
  obtain ⟨value, hval, heq⟩ := Option.map_eq_some_iff.mp
    (FlagChange.flag_of_statusSource hsrc (f := flag) (FlagMask.mem_status.mpr ⟨flag, rfl⟩))
  rw [FlagChange.after_of_active hact hval, heq]

theorem Owner.Agrees.claim (h : owner.Agrees stored flags) (change : FlagChange N) :
    (claim owner change).Agrees stored fun flag => change.after (.status flag) (flags flag) := by
  cases hact : change.active with
  | false =>
    rw [claim_inactive hact]
    simp only [FlagChange.after_of_inactive hact]
    exact h
  | true =>
    unfold Flags.claim
    rw [hact, if_pos rfl]
    cases hsrc : change.statusSource FlagMask.status with
    | none => trivial
    | some source => exact funext fun flag => after_of_complete hsrc hact flag _

/-- What was published is read back. -/
theorem Owner.stores (hstored : Stores m stored) (h : owner.Agrees stored flags) :
    ∃ source, Stores (owner.write m flags) source ∧ source.flag = flags := by
  cases owner with
  | kept => exact ⟨stored, hstored, h.symm⟩
  | published source =>
    obtain ⟨read, hread, hflags⟩ := publishSource_stores m source
    exact ⟨read, hread, hflags.trans h.symm⟩
  | concrete => exact writeConcrete_stores m flags

/-! ## Admission -/

/-- Complete sources among the updates are guarded. -/
structure StatusState.Valid (stored : AnyStatusSource) (state : StatusState N) : Prop where
  base : state.base.Valid stored
  guarded : ∀ update ∈ state.updates, update.condition = none → update.statusSource FlagMask.status = none

theorem StatusState.Valid.new : (new : StatusState N).Valid stored :=
  ⟨.empty, fun _ h => absurd h List.not_mem_nil⟩

theorem StatusBase.Reads.owner_eq {base base' : StatusBase} (h : StatusBase.Reads stored base base') :
    base'.owner = base.owner := by
  cases base' with
  | localSource source => rw [(h.2.2 source).mp rfl]
  | stored cache =>
    cases base with
    | stored => rfl
    | localSource source => exact nomatch (h.2.2 source).mpr rfl

/-- Queries keep a valid state, its flags and its owner. -/
theorem StatusState.Valid.reads (h : state.Valid stored) {base : StatusBase}
    (hrd : StatusBase.Reads stored state.base base) :
    StatusState.Valid stored { state with base := base } ∧
      StatusState.owner { state with base := base } = state.owner :=
  ⟨⟨hrd.1, h.guarded⟩, congrArg (fun owner => state.updates.foldl claim owner) hrd.owner_eq⟩

/-- Admission applies the change to the flags and the owner. -/
theorem apply_spec (h : state.Valid stored) (hwrites : change.writes ⊆ FlagMask.status) :
    (state.apply change).Valid stored ∧
      (∀ flag, (state.apply change).flags stored flag = change.after (.status flag) (state.flags stored flag)) ∧
      (state.apply change).owner = claim state.owner change := by
  have hpushed : (change.condition = none → change.statusSource FlagMask.status = none) →
      StatusState.Valid stored { state with updates := state.updates ++ [change] } ∧
      (∀ flag, StatusState.flags stored { state with updates := state.updates ++ [change] } flag =
        change.after (.status flag) (state.flags stored flag)) ∧
      StatusState.owner { state with updates := state.updates ++ [change] } = claim state.owner change := by
    refine fun hguarded => ⟨⟨h.base, fun update hmem => ?_⟩, fun flag => history_append _ _ _ _, List.foldl_append⟩
    rcases List.mem_append.mp hmem with hold | hnew
    · exact h.guarded update hold
    · rw [List.mem_singleton.mp hnew]
      exact hguarded
  unfold StatusState.apply
  dsimp only
  split
  next hcomplete =>
    obtain ⟨hcond, hall⟩ := hcomplete
    rw [Option.isNone_iff_eq_none] at hcond
    split
    next source names hvals =>
      have hsrc : change.statusSource FlagMask.status = some source := by
        unfold FlagChange.statusSource
        rw [hvals, hall]
        exact if_pos (Finset.Subset.refl _)
      have hact := FlagChange.active_of_unconditional hcond
      refine ⟨⟨trivial, fun _ h => absurd h List.not_mem_nil⟩,
        fun flag => (after_of_complete hsrc hact flag _).symm, ?_⟩
      unfold claim
      rw [hact, hsrc]
      rfl
    next values hvals =>
      refine hpushed fun _ => ?_
      unfold FlagChange.statusSource
      rw [hvals]
  next hnot =>
    refine hpushed fun hcond => ?_
    by_contra hsome
    obtain ⟨source, hsrc⟩ := Option.ne_none_iff_exists'.mp hsome
    exact hnot ⟨by rw [hcond]; rfl, hwrites.antisymm (FlagChange.statusSource_eq_some hsrc).2⟩

/-! ## Publication -/

/-- Whether the last active update is partial. -/
def lastPartial (updates : List (FlagChange N)) : Bool :=
  updates.foldl (fun last update => if update.active then (update.statusSource FlagMask.status).isNone else last) false

theorem lastPartial_append (updates : List (FlagChange N)) (update : FlagChange N) :
    lastPartial (updates ++ [update]) =
      if update.active then (update.statusSource FlagMask.status).isNone else lastPartial updates := List.foldl_append

theorem needsConcrete_value (state : StatusState N) (naming : Naming N) :
    (state.needsConcrete naming).value = lastPartial state.updates := by
  unfold StatusState.needsConcrete
  induction state.updates using List.reverseRecOn with
  | nil => rfl
  | append_singleton updates update ih =>
    rw [List.foldl_append, lastPartial_append, ← ih]
    cases hcond : update.condition with
    | none =>
      rw [FlagChange.active_of_unconditional hcond]
      simp [hcond, Naming.bool]
    | some condition =>
      rw [FlagChange.active_of_condition hcond]
      cases hval : condition.value <;> simp [hcond, hval, Naming.bool, Val.select]

theorem any_of_lastPartial (h : lastPartial updates = true) :
    (updates.any fun update => (update.statusSource FlagMask.status).isNone) = true := by
  induction updates using List.reverseRecOn with
  | nil => exact nomatch h
  | append_singleton updates update ih =>
    rw [lastPartial_append] at h
    rw [List.any_append]
    split at h
    next => simp [h]
    next => rw [ih h, Bool.true_or]

/-- Unless the last active update is partial, the reverse search finds the owner. -/
theorem publishReplacement_spec (m : Memory) (state : StatusState N) (flags : StatusFlag → Bool)
    (hguarded : ∀ update ∈ updates, update.condition = none → update.statusSource FlagMask.status = none) :
    if lastPartial updates then updates.foldl claim state.base.owner = .concrete
    else state.publishReplacement m updates.reverse =
      some ((updates.foldl claim state.base.owner).write m flags) := by
  induction updates using List.reverseRecOn with
  | nil =>
    refine congrArg some ?_
    unfold StatusState.publishBase
    cases state.base <;> rfl
  | append_singleton updates update ih =>
    have hupdate := hguarded update (List.mem_append_right _ (List.mem_singleton_self _))
    have hih := ih fun u hu => hguarded u (List.mem_append_left _ hu)
    rw [lastPartial_append, List.foldl_append, List.reverse_append]
    show if _ then claim _ update = _ else state.publishReplacement m (update :: updates.reverse) =
      some ((claim _ update).write m flags)
    cases hact : update.active with
    | false =>
      rw [claim_inactive hact, if_neg Bool.false_ne_true, StatusState.publishReplacement]
      cases hsrc : update.statusSource FlagMask.status with
      | none => exact hih
      | some source =>
        obtain ⟨condition, hcond⟩ := Option.ne_none_iff_exists'.mp fun hnone =>
          Option.some_ne_none source (hsrc.symm.trans (hupdate hnone))
        rw [FlagChange.active_of_condition hcond] at hact
        simpa [hcond, hact] using hih
    | true =>
      rw [if_pos rfl, StatusState.publishReplacement]
      unfold claim
      rw [hact, if_pos rfl]
      cases hsrc : update.statusSource FlagMask.status with
      | none => simp
      | some source =>
        obtain ⟨condition, hcond⟩ := Option.ne_none_iff_exists'.mp fun hnone =>
          Option.some_ne_none source (hsrc.symm.trans (hupdate hnone))
        rw [FlagChange.active_of_condition hcond] at hact
        simp [hcond, hact, Owner.write]

theorem publishConcrete_spec (hstored : Stores m stored) (h : state.Valid stored) :
    state.publishConcrete m = some (writeConcrete m (state.flags stored)) := by
  obtain ⟨base, hrsv, -⟩ := resolveFlags_spec hstored h.base state.updates FlagMask.status
  have hstatus : StatusFlag.tryMap (fun flag => if Flag.status flag ∈ FlagMask.status then
      some (history state.updates flag (state.base.flags stored flag)) else none) = some (state.flags stored) :=
    StatusFlag.tryMap_eq fun flag => if_pos (FlagMask.mem_status.mpr ⟨flag, rfl⟩)
  unfold StatusState.publishConcrete
  simp only [hrsv, hstatus, Option.bind_eq_bind, Option.bind_some]
  rfl

/-- Publication writes the owner's record. -/
theorem publish_spec [DecidableEq N] (naming : Naming N) (hstored : Stores m stored) (h : state.Valid stored) :
    state.publish m naming = some (state.owner.write m (state.flags stored)) := by
  have hrepl := publishReplacement_spec m state (state.flags stored) h.guarded
  have hconcrete := publishConcrete_spec hstored h
  have hval := needsConcrete_value state naming
  have howner : lastPartial state.updates = true →
      state.publishConcrete m = some (state.owner.write m (state.flags stored)) := by
    intro hlast
    rw [if_pos hlast] at hrepl
    rw [hconcrete, StatusState.owner, hrepl]
    rfl
  unfold StatusState.publish
  split
  next hemp =>
    unfold StatusState.owner StatusState.publishBase
    rw [hemp]
    cases state.base <;> rfl
  next =>
    dsimp only
    split
    next htrue =>
      refine howner ?_
      rw [← hval, htrue.2]
      rfl
    next =>
      split
      next hruntime => exact howner (hval.symm.trans hruntime.2.2)
      next hneither =>
        rw [if_neg] at hrepl
        · exact hrepl
        · intro hlast
          refine hneither ⟨any_of_lastPartial hlast, fun hfalse => ?_, hval.trans hlast⟩
          rw [hlast, hfalse] at hval
          exact nomatch hval

end

end Relocade.Flags
