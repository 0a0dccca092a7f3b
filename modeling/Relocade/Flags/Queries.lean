import Relocade.Flags.Tracker

/-!
# `Flags.Queries` — lazy status queries answer as the eager flags

The eager value of a flag applies every update in program order to the base's value (`history`). A query reaches the
same value from the newest source that settles it, and a cached answer is the stored record's.
-/

namespace Relocade.Flags

open Option (map_some bind_eq_bind bind_some)

/-! ## Positions -/

variable {α : Type}

theorem rposition_eq_none {p : α → Bool} {xs : List α} (h : rposition p xs = none) : ∀ y ∈ xs, p y = false := by
  induction xs with
  | nil => exact fun y hy => absurd hy List.not_mem_nil
  | cons first rest ih =>
    rw [rposition] at h
    split at h
    next => exact nomatch h
    next hrest =>
      split at h
      next => exact nomatch h
      next hfst =>
        intro y hy
        rcases List.mem_cons.mp hy with rfl | hmem
        · exact Bool.eq_false_iff.mpr hfst
        · exact ih hrest y hmem

theorem rposition_eq_some {p : α → Bool} {xs : List α} {i : Nat} (h : rposition p xs = some i) :
    ∃ before x after, xs = before ++ x :: after ∧ before.length = i ∧ p x = true ∧ ∀ y ∈ after, p y = false := by
  induction xs generalizing i with
  | nil => exact nomatch h
  | cons first rest ih =>
    rw [rposition] at h
    split at h
    next j hrest =>
      obtain ⟨before, x, after, rfl, rfl, hx, hafter⟩ := ih hrest
      exact ⟨first :: before, x, after, rfl, Option.some.inj h, hx, hafter⟩
    next hrest =>
      split at h
      next hfst => exact ⟨[], first, rest, rfl, Option.some.inj h, hfst, rposition_eq_none hrest⟩
      next => exact nomatch h

theorem drop_length_succ (before : List α) (x : α) (after : List α) :
    (before ++ x :: after).drop (before.length + 1) = after := by
  simp [List.drop_append]

/-! ## One flag's history -/

section

variable {N : Type} {updates : List (FlagChange N)} {flag : StatusFlag}

/-- A flag after a list of updates. -/
def history (updates : List (FlagChange N)) (flag : StatusFlag) (old : Bool) : Bool :=
  updates.foldl (fun old update => update.after (.status flag) old) old

theorem history_append (xs ys : List (FlagChange N)) (flag : StatusFlag) (old : Bool) :
    history (xs ++ ys) flag old = history ys flag (history xs flag old) := List.foldl_append

/-- Merging an update is applying it. -/
theorem merge_eq (flag : Flag) (value : Bool) (update : FlagChange N) :
    merge flag value update = some (update.after flag value) := by
  unfold merge
  split
  next hwrites =>
    obtain ⟨changed, hchanged⟩ := FlagChange.exists_flag hwrites
    rw [hchanged, map_some]
    cases hcond : update.condition with
    | none => rw [FlagChange.after_of_active (FlagChange.active_of_unconditional hcond) hchanged]
    | some condition =>
      have hact := FlagChange.active_of_condition hcond
      cases hval : condition.value with
      | true =>
        rw [hval] at hact
        rw [FlagChange.after_of_active hact hchanged]
        simp [hval]
      | false =>
        rw [hval] at hact
        rw [FlagChange.after_of_inactive hact]
        simp [hval]
  next hwrites => rw [FlagChange.after_of_not_writes hwrites]

theorem foldlM_merge (updates : List (FlagChange N)) (flag : StatusFlag) (value : Bool) :
    updates.foldlM (merge (.status flag)) value = some (history updates flag value) := by
  induction updates generalizing value with
  | nil => rfl
  | cons update rest ih =>
    rw [List.foldlM_cons, merge_eq]
    exact ih _

/-- An unconditional definition settles a flag, whatever came before. -/
theorem history_definition {before after : List (FlagChange N)} {update : FlagChange N}
    (hcond : update.condition = none) {value : Val N Bool} (hflag : update.flag (.status flag) = some value)
    (old : Bool) : history (before ++ update :: after) flag old = history after flag value.value := by
  rw [history_append, history, List.foldl_cons,
    FlagChange.after_of_active (FlagChange.active_of_unconditional hcond) hflag]
  rfl

theorem resolveFlag_eq {inherited : Option Bool} {base : Bool}
    (hinherited : start updates flag = none → inherited = some base) :
    resolveFlag updates flag inherited = some (history updates flag base) := by
  unfold resolveFlag
  split
  next index hst =>
    obtain ⟨before, update, after, rfl, rfl, hdefines, -⟩ := rposition_eq_some hst
    obtain ⟨hcond, hwrites⟩ := of_decide_eq_true hdefines
    obtain ⟨value, hval⟩ := FlagChange.exists_flag hwrites
    rw [Option.isNone_iff_eq_none] at hcond
    rw [history_definition hcond hval]
    simp [hval, foldlM_merge]
  next hst =>
    rw [hinherited hst]
    exact foldlM_merge updates flag base

/-- Updates that leave the needed flags alone do not matter to them. -/
theorem history_congr {flags : StatusFlag → Bool} {update : FlagChange N} {needed : FlagMask}
    (h : update.writes ∩ needed = ∅) (hflag : .status flag ∈ needed) :
    update.after (.status flag) (flags flag) = flags flag := by
  refine FlagChange.after_of_not_writes (fun hwrites => ?_) _
  have := Finset.mem_inter_of_mem hwrites hflag
  rw [h] at this
  exact absurd this (Finset.notMem_empty _)

end

/-! ## The base -/

/-- A status array with no failure. -/
theorem StatusFlag.tryMap_eq {f : StatusFlag → Option α} {g : StatusFlag → α}
    (h : ∀ flag, f flag = some (g flag)) : StatusFlag.tryMap f = some g := by
  unfold StatusFlag.tryMap
  rw [h .cf, h .pf, h .af, h .zf, h .sf, h .of]
  refine congrArg some (funext fun flag => ?_)
  cases flag <;> rfl

/-- Retained answers are those of the stored flags. -/
structure CpuFlagCache.Valid (cache : CpuFlagCache) (flags : StatusFlag → Bool) : Prop where
  conditions : ∀ condition value, cache.conditions condition = some value → value = condition.holds flags
  auxiliary : ∀ value, cache.auxiliary = some value → value = flags .af

namespace CpuFlagCache

variable {cache : CpuFlagCache} {flags : StatusFlag → Bool} {flag : StatusFlag} {value : Bool}

theorem Valid.empty : empty.Valid flags := ⟨nofun, nofun⟩

theorem eq_af_of_condition (h : flag.condition = none) : flag = .af := by
  cases flag <;> first | rfl | exact nomatch h

theorem Valid.flagSlot (h : cache.Valid flags) (hslot : cache.flagSlot flag = some value) : value = flags flag := by
  unfold CpuFlagCache.flagSlot at hslot
  split at hslot
  next hcond => rw [h.auxiliary value hslot, eq_af_of_condition hcond]
  next condition hcond =>
    rw [h.conditions condition value hslot]
    exact Condition.holds_of_condition hcond flags

theorem Valid.setCondition (h : cache.Valid flags) (condition : Condition) (hval : value = condition.holds flags) :
    (cache.setCondition condition value).Valid flags := by
  refine ⟨fun c v hv => ?_, h.auxiliary⟩
  dsimp only [CpuFlagCache.setCondition] at hv
  split at hv
  next heq =>
    rw [heq, ← Option.some.inj hv]
    exact hval
  next => exact h.conditions c v hv

theorem Valid.setFlagSlot (h : cache.Valid flags) (flag : StatusFlag) :
    (cache.setFlagSlot flag (flags flag)).Valid flags := by
  unfold CpuFlagCache.setFlagSlot
  split
  next hcond =>
    refine ⟨h.conditions, fun v hv => ?_⟩
    rw [← eq_af_of_condition hcond]
    exact (Option.some.inj hv).symm
  next condition hcond => exact h.setCondition condition (Condition.holds_of_condition hcond flags).symm

/-- Setting a slot fills it and empties none. -/
theorem flagSlot_setFlagSlot (cache : CpuFlagCache) (flag other : StatusFlag) (value : Bool) :
    (cache.setFlagSlot flag value).flagSlot other = if other = flag then some value else cache.flagSlot other := by
  cases flag <;> cases other <;> rfl

/-- Filling the missing slots from a read of the record. -/
theorem Valid.fill (h : cache.Valid flags) (requested : StatusFlag → Option Bool)
    (hreqd : ∀ flag value, requested flag = some value → value = flags flag) (order : List StatusFlag) :
    let filled := order.foldl (fun cache flag => (requested flag).elim cache (cache.setFlagSlot flag)) cache
    filled.Valid flags ∧ ∀ flag, (flag ∈ order ∧ (requested flag).isSome) ∨ (cache.flagSlot flag).isSome →
      (filled.flagSlot flag).isSome := by
  induction order generalizing cache with
  | nil => exact ⟨h, fun flag hor => hor.resolve_left fun hmem => absurd hmem.1 List.not_mem_nil⟩
  | cons first rest ih =>
    rw [List.foldl_cons]
    cases hfst : requested first with
    | none =>
      obtain ⟨hvalid, hsome⟩ := ih h
      refine ⟨hvalid, fun flag hor => hsome flag ?_⟩
      rcases hor with ⟨hmem, hflag⟩ | hslot
      · rcases List.mem_cons.mp hmem with rfl | hmem
        · rw [hfst] at hflag
          exact nomatch hflag
        · exact .inl ⟨hmem, hflag⟩
      · exact .inr hslot
    | some value =>
      obtain rfl := hreqd first value hfst
      obtain ⟨hvalid, hsome⟩ := ih (h.setFlagSlot first)
      refine ⟨hvalid, fun flag hor => hsome flag ?_⟩
      rw [flagSlot_setFlagSlot]
      by_cases heq : flag = first
      · rw [if_pos heq]
        exact .inr rfl
      · rw [if_neg heq]
        refine hor.imp_left fun ⟨hmem, hflag⟩ => ⟨?_, hflag⟩
        exact (List.mem_cons.mp hmem).resolve_left heq

end CpuFlagCache

/-- The flags that a base stands for, over a stored record. -/
def StatusBase.flags (stored : AnyStatusSource) : StatusBase → StatusFlag → Bool
  | .stored _ => stored.flag
  | .localSource source => source.flag

def StatusBase.Valid (stored : AnyStatusSource) : StatusBase → Prop
  | .stored cache => cache.Valid stored.flag
  | .localSource _ => True

/-- Reading leaves a base of the same kind, with valid answers. -/
def StatusBase.Reads (stored : AnyStatusSource) (base base' : StatusBase) : Prop :=
  base'.Valid stored ∧ base'.flags stored = base.flags stored ∧ ∀ source, base' = .localSource source ↔ base = .localSource source

section

variable {m : Memory} {stored : AnyStatusSource} {base : StatusBase}

theorem StatusBase.Reads.refl (h : base.Valid stored) : StatusBase.Reads stored base base := ⟨h, rfl, fun _ => Iff.rfl⟩

theorem StatusBase.Reads.of_cache {cache cache' : CpuFlagCache} (h : cache'.Valid stored.flag) :
    StatusBase.Reads stored (.stored cache) (.stored cache') :=
  ⟨h, rfl, fun _ => iff_of_false nofun nofun⟩

theorem FlagMask.mem_ofStatus {p : StatusFlag → Bool} {flag : StatusFlag} :
    .status flag ∈ FlagMask.ofStatus p ↔ p flag = true := by
  simp [FlagMask.ofStatus, StatusFlag.mem_all]

theorem CpuFlagCache.readCanonical_spec {cache : CpuFlagCache} (hstored : Stores m stored) (h : cache.Valid stored.flag)
    (condition : Condition) :
    ∃ cache', cache.readCanonical m condition = some (condition.holds stored.flag, cache') ∧ cache'.Valid stored.flag := by
  unfold CpuFlagCache.readCanonical
  split
  next value hslot =>
    obtain rfl := h.conditions condition value hslot
    exact ⟨cache, rfl, h⟩
  next =>
    rw [hstored.readCondition]
    exact ⟨_, rfl, h.setCondition condition rfl⟩

/-- After the read every needed slot is filled. -/
theorem CpuFlagCache.readMissing_spec {cache : CpuFlagCache} (hstored : Stores m stored) (h : cache.Valid stored.flag)
    (needed : FlagMask) :
    ∃ cache', cache.readMissing m needed = some cache' ∧ cache'.Valid stored.flag ∧
      ∀ flag, .status flag ∈ needed → cache'.flagSlot flag = some (stored.flag flag) := by
  have hfilled : ∀ {filled : CpuFlagCache}, filled.Valid stored.flag →
      (∀ flag, .status flag ∈ needed → (filled.flagSlot flag).isSome) →
      ∀ flag, .status flag ∈ needed → filled.flagSlot flag = some (stored.flag flag) := by
    intro filled hvalid hsome flag hflag
    obtain ⟨value, hval⟩ := Option.isSome_iff_exists.mp (hsome flag hflag)
    rw [hval, hvalid.flagSlot hval]
  unfold CpuFlagCache.readMissing
  dsimp only
  split
  next hemp =>
    refine ⟨cache, rfl, h, hfilled h fun flag hflag => ?_⟩
    by_contra hnone
    have hmem : Flag.status flag ∈
        FlagMask.ofStatus fun flag => .status flag ∈ needed ∧ (cache.flagSlot flag).isNone := by
      rw [FlagMask.mem_ofStatus, decide_eq_true_iff]
      exact ⟨hflag, by simpa using hnone⟩
    rw [hemp] at hmem
    exact absurd hmem (Finset.notMem_empty _)
  next =>
    have hreqd : ∀ mask : FlagMask, ∀ flag value,
        (if Flag.status flag ∈ mask then some (stored.flag flag) else none) = some value → value = stored.flag flag := by
      intro mask flag value hval
      split at hval
      next => exact (Option.some.inj hval).symm
      next => exact nomatch hval
    rw [hstored.readFlags, map_some]
    obtain ⟨hvalid, hsome⟩ := CpuFlagCache.Valid.fill h _ (hreqd _) StatusFlag.all
    refine ⟨_, rfl, hvalid, hfilled hvalid fun flag hflag => hsome flag ?_⟩
    cases hslot : cache.flagSlot flag with
    | some value => exact .inr rfl
    | none =>
      refine .inl ⟨StatusFlag.mem_all flag, ?_⟩
      rw [if_pos]
      · rfl
      · rw [FlagMask.mem_ofStatus, decide_eq_true_iff, hslot]
        exact ⟨hflag, rfl⟩

theorem StatusBase.condition_spec (hstored : Stores m stored) (h : base.Valid stored) (condition : Condition) :
    ∃ base', base.condition m condition = some (condition.holds (base.flags stored), base') ∧
      StatusBase.Reads stored base base' := by
  cases base with
  | localSource source =>
    exact ⟨_, congrArg (fun value => some (value, _)) (source.condition_eq condition), .refl h⟩
  | stored cache =>
    obtain ⟨cache', hread, hvalid⟩ := CpuFlagCache.readCanonical_spec hstored h condition.canonical
    refine ⟨.stored cache', ?_, .of_cache hvalid⟩
    unfold StatusBase.condition
    rw [show (StatusBase.stored cache).flags stored = stored.flag from rfl, Condition.holds_canonical condition]
    simp only [hread, bind_eq_bind, bind_some]
    cases condition.isInverted <;> simp

theorem StatusBase.readFlags_spec (hstored : Stores m stored) (h : base.Valid stored) (needed : FlagMask) :
    ∃ base', base.readFlags m needed =
        some (fun flag => if .status flag ∈ needed then some (base.flags stored flag) else none, base') ∧
      StatusBase.Reads stored base base' := by
  cases base with
  | localSource source => exact ⟨_, rfl, .refl h⟩
  | stored cache =>
    obtain ⟨cache', hread, hvalid, hslots⟩ := CpuFlagCache.readMissing_spec hstored h needed
    refine ⟨.stored cache', ?_, .of_cache hvalid⟩
    have hflags : StatusFlag.tryMap (fun flag =>
        if Flag.status flag ∈ needed then (cache'.flagSlot flag).map some else some none) =
        some fun flag => if .status flag ∈ needed then some (stored.flag flag) else none := by
      refine StatusFlag.tryMap_eq fun flag => ?_
      split
      next hflag => rw [hslots flag hflag, map_some]
      next => rfl
    unfold StatusBase.readFlags
    simp only [hread, hflags, bind_eq_bind, bind_some]
    rfl

/-- A subset of the flags, from the base and the updates. -/
theorem resolveFlags_spec {N : Type} (hstored : Stores m stored) (h : base.Valid stored) (updates : List (FlagChange N))
    (needed : FlagMask) :
    ∃ base', resolveFlags m base updates needed =
        some (fun flag => if .status flag ∈ needed then some (history updates flag (base.flags stored flag)) else none,
          base') ∧ StatusBase.Reads stored base base' := by
  obtain ⟨mask, hmask⟩ : ∃ mask, mask =
    FlagMask.ofStatus fun flag => .status flag ∈ needed ∧ (start updates flag).isNone := ⟨_, rfl⟩
  have hmem : ∀ flag, .status flag ∈ mask ↔ .status flag ∈ needed ∧ (start updates flag).isNone := by
    intro flag
    rw [hmask, FlagMask.mem_ofStatus, decide_eq_true_iff]
  obtain ⟨base', hread, hrd⟩ := StatusBase.readFlags_spec hstored h mask
  have hflags : StatusFlag.tryMap (fun flag =>
      let inherited := if Flag.status flag ∈ mask then some (base.flags stored flag) else none
      if Flag.status flag ∈ needed then (resolveFlag updates flag inherited).map some else some inherited) =
      some fun flag => if .status flag ∈ needed then some (history updates flag (base.flags stored flag)) else none := by
    refine StatusFlag.tryMap_eq fun flag => ?_
    dsimp only
    split
    next hflag =>
      rw [resolveFlag_eq fun hst => if_pos ((hmem flag).mpr ⟨hflag, by rw [hst]; rfl⟩), map_some]
    next hflag => rw [if_neg fun hin => hflag ((hmem flag).mp hin).1]
  dsimp only at hflags
  refine ⟨base', ?_, hrd⟩
  unfold resolveFlags
  dsimp only
  rw [← hmask]
  simp only [hread, hflags, bind_eq_bind, bind_some]
  rfl

end

/-! ## Conditions -/

section

variable {N : Type} {m : Memory} {stored : AnyStatusSource} {state : StatusState N} {updates : List (FlagChange N)}
  {update : FlagChange N} {condition : Condition} {needed : FlagMask}

/-- An update that either supplies every needed flag or none of them. -/
def Whole (needed : FlagMask) (update : FlagChange N) : Prop :=
  update.writes ∩ needed = ∅ ∨ (update.statusSource needed).isSome

theorem whole_of_not_partial (h : StatusState.isPartial needed update = false) : Whole needed update := by
  by_contra hnot
  obtain ⟨hwrites, hsrc⟩ := not_or.mp hnot
  have hpartial : StatusState.isPartial needed update = true := decide_eq_true ⟨hwrites, by simpa using hsrc⟩
  rw [h] at hpartial
  exact Bool.false_ne_true hpartial

/-- A whole update changes a condition as it changes the condition's flags. -/
theorem follow_eq (h : Whole condition.flags update) (flags : StatusFlag → Bool) :
    StatusState.follow condition (condition.holds flags) update =
      condition.holds fun flag => update.after (.status flag) (flags flag) := by
  unfold StatusState.follow
  cases hsrc : update.statusSource condition.flags with
  | none =>
    have hwrites := h.resolve_right (by rw [hsrc]; decide)
    exact Condition.holds_congr fun flag hflag => (history_congr hwrites hflag).symm
  | some source =>
    have hact : update.active = true → source.condition condition =
        condition.holds fun flag => update.after (.status flag) (flags flag) := by
      intro hact
      rw [AnyStatusSource.condition_eq]
      refine Condition.holds_congr fun flag hflag => ?_
      obtain ⟨value, hval, heq⟩ := Option.map_eq_some_iff.mp (FlagChange.flag_of_statusSource hsrc hflag)
      rw [FlagChange.after_of_active hact hval, heq]
    have hinactive : update.active = false → condition.holds flags =
        condition.holds fun flag => update.after (.status flag) (flags flag) := by
      intro hinactive
      exact Condition.holds_congr fun flag _ => (FlagChange.after_of_inactive hinactive _ _).symm
    dsimp only
    split
    next predicate hcond =>
      have hval := FlagChange.active_of_condition hcond
      cases hpredicate : predicate.value with
      | true => exact hact (hval.trans hpredicate)
      | false => exact hinactive (hval.trans hpredicate)
    next hcond => exact hact (FlagChange.active_of_unconditional hcond)

theorem foldl_follow (h : ∀ update ∈ updates, Whole condition.flags update) (flags : StatusFlag → Bool) :
    updates.foldl (StatusState.follow condition) (condition.holds flags) =
      condition.holds fun flag => history updates flag (flags flag) := by
  induction updates generalizing flags with
  | nil => rfl
  | cons update rest ih =>
    rw [List.foldl_cons, follow_eq (h update List.mem_cons_self)]
    exact ih (fun u hu => h u (List.mem_cons_of_mem _ hu)) _

/-- The status flags of a state, over a stored record. -/
def StatusState.flags (stored : AnyStatusSource) (state : StatusState N) (flag : StatusFlag) : Bool :=
  history state.updates flag (state.base.flags stored flag)

/-- Queries only fill the base's answers. -/
theorem StatusState.flags_of_reads {base : StatusBase} (h : StatusBase.Reads stored state.base base) :
    StatusState.flags stored { state with base := base } = state.flags stored := by
  funext flag
  exact congrArg (fun flags => history state.updates flag (flags flag)) h.2.1

/-- The updates after the newest partial one are whole. -/
theorem whole_after_partial {bound : Nat} (h : ∀ i, rposition (StatusState.isPartial needed) updates = some i → i < bound) :
    ∀ update ∈ updates.drop bound, Whole needed update := by
  intro update hmem
  cases hlast : rposition (StatusState.isPartial needed) updates with
  | none => exact whole_of_not_partial (rposition_eq_none hlast update (List.mem_of_mem_drop hmem))
  | some i =>
    have hdrop := List.drop_subset_drop_left updates (h i hlast) hmem
    obtain ⟨before, x, after, rfl, rfl, -, hafter⟩ := rposition_eq_some hlast
    rw [drop_length_succ] at hdrop
    exact whole_of_not_partial (hafter update hdrop)

/-- What settles a condition gives its value over the older history. -/
theorem settled_spec (hstored : Stores m stored) (h : state.base.Valid stored) (condition : Condition) :
    ∃ flags following base, state.settled m condition = some (condition.holds flags, following, base) ∧
      StatusBase.Reads stored state.base base ∧ (∀ update ∈ following, Whole condition.flags update) ∧
      ∀ flag, .status flag ∈ condition.flags → history following flag (flags flag) = state.flags stored flag := by
  unfold StatusState.settled
  dsimp only
  cases hpartial : (rposition (StatusState.isPartial condition.flags) state.updates).filter
      fun index => (rposition (StatusState.replaces condition.flags) state.updates).all (index > ·) with
  | some index =>
    obtain ⟨hlast, -⟩ := Option.filter_eq_some_iff.mp hpartial
    obtain ⟨base, hrsv, hrd⟩ := resolveFlags_spec hstored h (state.updates.take (index + 1)) condition.flags
    refine ⟨fun flag => history (state.updates.take (index + 1)) flag (state.base.flags stored flag),
      state.updates.drop (index + 1), base, ?_, hrd, whole_after_partial fun i hi => ?_, fun flag _ => ?_⟩
    · have hevaluate : condition.evaluate (fun flag => if .status flag ∈ condition.flags then
          some (history (state.updates.take (index + 1)) flag (state.base.flags stored flag)) else none) =
          some (condition.holds fun flag =>
            history (state.updates.take (index + 1)) flag (state.base.flags stored flag)) :=
        Condition.evaluate_eq_some fun flag hflag => if_pos hflag
      dsimp only
      rw [hrsv]
      simp only [bind_eq_bind, bind_some, hevaluate]
    · rw [hlast] at hi
      exact Nat.lt_succ_of_le (Option.some.inj hi).ge
    · rw [← history_append, List.take_append_drop]
      rfl
  | none =>
    cases hrepl : rposition (StatusState.replaces condition.flags) state.updates with
    | some index =>
      obtain ⟨before, update, after, hupdates, rfl, hreplaces, -⟩ := rposition_eq_some hrepl
      obtain ⟨hcond, hsome⟩ := of_decide_eq_true hreplaces
      obtain ⟨source, hsrc⟩ := Option.isSome_iff_exists.mp hsome
      rw [Option.isNone_iff_eq_none] at hcond
      have hafter : state.updates.drop (before.length + 1) = after := by
        rw [hupdates, drop_length_succ]
      refine ⟨source.flag, after, state.base, ?_, .refl h, ?_, fun flag hflag => ?_⟩
      · simp [hupdates, hsrc, AnyStatusSource.condition_eq]
      · rw [← hafter]
        refine whole_after_partial fun i hi => ?_
        rw [hi, hrepl] at hpartial
        simp at hpartial
        omega
      · obtain ⟨value, hval, heq⟩ := Option.map_eq_some_iff.mp (FlagChange.flag_of_statusSource hsrc hflag)
        rw [StatusState.flags, hupdates, history_definition hcond hval, heq]
    | none =>
      obtain ⟨base, hcond, hrd⟩ := StatusBase.condition_spec hstored h condition
      refine ⟨state.base.flags stored, state.updates, base, ?_, hrd, ?_, fun flag _ => rfl⟩
      · dsimp only
        rw [hcond]
        rfl
      · rw [← List.drop_zero (l := state.updates)]
        refine whole_after_partial fun i hi => ?_
        rw [hi, hrepl] at hpartial
        simp at hpartial

/-- A condition is that of the eager flags, and the query keeps them. -/
theorem condition_spec (hstored : Stores m stored) (h : state.base.Valid stored) (condition : Condition) :
    ∃ base, state.condition m condition =
        some (condition.holds (state.flags stored), { state with base := base }) ∧
      StatusBase.Reads stored state.base base := by
  obtain ⟨flags, following, base, hsettled, hrd, hwhole, hflags⟩ := settled_spec hstored h condition
  refine ⟨base, ?_, hrd⟩
  unfold StatusState.condition
  rw [hsettled]
  simp only [bind_eq_bind, bind_some, foldl_follow hwhole, Condition.holds_congr hflags]
  rfl

/-- A flag is the eager one, and the query keeps them all. -/
theorem readFlag_spec (hstored : Stores m stored) (h : state.base.Valid stored) (flag : StatusFlag) :
    ∃ base, state.readFlag m flag = some (state.flags stored flag, { state with base := base }) ∧
      StatusBase.Reads stored state.base base := by
  unfold StatusState.readFlag
  split
  next condition hcond =>
    obtain ⟨base, hread, hrd⟩ := condition_spec hstored h condition
    rw [Condition.holds_of_condition hcond] at hread
    exact ⟨base, hread, hrd⟩
  next =>
    obtain ⟨base, hrsv, hrd⟩ := resolveFlags_spec hstored h state.updates {Flag.status flag}
    refine ⟨base, ?_, hrd⟩
    simp only [hrsv, bind_eq_bind, bind_some, Finset.mem_singleton, if_true]
    rfl

end

end Relocade.Flags
