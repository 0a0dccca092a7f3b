import Relocade.Flags.Source

/-!
# `Flags.Change` — masked, optionally guarded changes of flags
-/

namespace Relocade.Flags

/-- An expression's value on a run, and what identifies the expression. Two are the same expression when both agree;
    on one run the name settles the value. -/
structure Val (N α : Type) where
  name : N
  value : α
  deriving DecidableEq, Repr

/-- How the builder identifies the expressions it makes, folded or not. -/
structure Naming (N : Type) where
  constant : Bool → N
  and : N → N → N
  select : N → N → N → N
  extend : N → N
  loaded : Nat → N
  base : N

section

variable {N α : Type}

def Naming.bool (naming : Naming N) (b : Bool) : Val N Bool := ⟨naming.constant b, b⟩

/-- `Val::select`. -/
def Val.select (condition : Val N Bool) (naming : Naming N) (whenTrue whenFalse : Val N α) : Val N α :=
  ⟨naming.select condition.name whenTrue.name whenFalse.name,
    bif condition.value then whenTrue.value else whenFalse.value⟩

end

/-! ## Changes -/

inductive FlagValues (N : Type) where
  | status (source : AnyStatusSource) (names : StatusFlag → N)
  | explicit (flags : Flag → Option (Val N Bool))

/-- Status sources write status flags only, explicit values exactly the flags they hold. -/
def FlagValues.Defines {N : Type} (values : FlagValues N) (writes : FlagMask) : Prop :=
  match values with
  | status _ _ => writes ⊆ FlagMask.status
  | explicit flags => ∀ flag, flag ∈ writes ↔ (flags flag).isSome

/-- A change; no condition denotes an unconditional one. -/
structure FlagChange (N : Type) where
  condition : Option (Val N Bool)
  values : FlagValues N
  writes : FlagMask
  defines : values.Defines writes

namespace FlagChange

variable {N : Type}

/-- Omitted flags retain their previous values. A later value of a flag replaces an earlier one. -/
def partialChange (flags : List (Flag × Val N Bool)) : FlagChange N where
  condition := none
  values := .explicit fun flag => (flags.reverse.lookup flag)
  writes := (flags.map (·.1)).toFinset
  defines flag := by
    rw [List.mem_toFinset, List.mem_map, List.lookup_isSome_iff]
    constructor
    · rintro ⟨entry, hentry, rfl⟩
      exact ⟨entry, List.mem_reverse.mpr hentry, beq_self_eq_true _⟩
    · rintro ⟨entry, hentry, hflag⟩
      exact ⟨entry, List.mem_reverse.mp hentry, (eq_of_beq hflag).symm⟩

/-- The change of a complete source. -/
def ofSource (source : AnyStatusSource) (names : StatusFlag → N) : FlagChange N where
  condition := none
  values := .status source names
  writes := FlagMask.status
  defines := Finset.Subset.refl _

variable (change : FlagChange N)

/-- Restricts the change to executions where the predicate is true. Repeated conditions combine with AND. -/
def when (naming : Naming N) (condition : Val N Bool) : FlagChange N :=
  { change with
    condition := some <|
      match change.condition with
      | some previous => ⟨naming.and previous.name condition.name, previous.value && condition.value⟩
      | none => condition }

/-- The value of a flag that the change writes; asking for another is an error. -/
def flag (flag : Flag) : Option (Val N Bool) :=
  if flag ∈ change.writes then
    match change.values, flag with
    | .status source names, .status flag => some ⟨names flag, source.flag flag⟩
    | .status .., _ => none
    | .explicit flags, flag => flags flag
  else none

/-- Restricts the write set without changing the retained source or predicate. -/
def retaining (mask : FlagMask) : FlagChange N where
  condition := change.condition
  values :=
    match change.values with
    | .status source names => .status source names
    | .explicit flags => .explicit fun flag => if flag ∈ change.writes ∩ mask then flags flag else none
  writes := change.writes ∩ mask
  defines := by
    have hdefines := change.defines
    split
    next source names hvalues =>
      rw [hvalues] at hdefines
      exact Finset.inter_subset_left.trans hdefines
    next flags hvalues =>
      rw [hvalues] at hdefines
      intro flag
      dsimp only
      split
      next hmem => exact iff_of_true hmem ((hdefines flag).mp (Finset.mem_of_mem_inter_left hmem))
      next hmem => exact iff_of_false hmem (by simp)

/-- A recipe can answer a condition directly only if it supplies every dependency. -/
def statusSource (needed : FlagMask) : Option AnyStatusSource :=
  match change.values with
  | .status source _ => if needed ⊆ change.writes then some source else none
  | .explicit _ => none

/-! ## Changes of an explicit flag vector -/

/-- The guard, on the run. -/
def active : Bool := change.condition.elim true (·.value)

/-- What a change leaves in one flag. -/
def after (flag : Flag) (old : Bool) : Bool :=
  if change.active then ((change.flag flag).map (·.value)).getD old else old

/-- The flags after a change. -/
def applyTo (flags : Flag → Bool) : Flag → Bool := fun flag => change.after flag (flags flag)

end FlagChange

/-! ## What the operations on changes do -/

section

variable {N : Type} {change : FlagChange N} {flag : Flag} {mask needed : FlagMask} {source : AnyStatusSource}

/-- Exactly the written flags have values. -/
theorem FlagChange.flag_isSome : (change.flag flag).isSome ↔ flag ∈ change.writes := by
  have hdefines := change.defines
  unfold FlagChange.flag
  split
  next hmem =>
    refine iff_of_true ?_ hmem
    split
    next => rfl
    next source names hvals hnot =>
      rw [hvals] at hdefines
      obtain ⟨f, rfl⟩ := FlagMask.mem_status.mp (hdefines hmem)
      exact absurd rfl (hnot f)
    next flags hvals =>
      rw [hvals] at hdefines
      exact (hdefines _).mp hmem
  next hmem => exact iff_of_false (by simp) hmem

theorem FlagChange.flag_eq_none (h : flag ∉ change.writes) : change.flag flag = none := if_neg h

theorem FlagChange.exists_flag (h : flag ∈ change.writes) : ∃ value, change.flag flag = some value :=
  Option.isSome_iff_exists.mp (flag_isSome.mpr h)

theorem FlagChange.flag_retaining (h : flag ∈ mask) : (change.retaining mask).flag flag = change.flag flag := by
  unfold FlagChange.flag FlagChange.retaining
  by_cases hmem : flag ∈ change.writes
  · rw [if_pos (Finset.mem_inter_of_mem hmem h), if_pos hmem]
    dsimp only
    cases change.values with
    | status source names => rfl
    | explicit flags => simp [hmem, h]
  · rw [if_neg hmem, if_neg fun hinter => hmem (Finset.mem_of_mem_inter_left hinter)]

theorem FlagChange.after_of_not_writes (h : flag ∉ change.writes) (old : Bool) : change.after flag old = old := by
  unfold FlagChange.after
  rw [flag_eq_none h]
  exact ite_self _

theorem FlagChange.after_of_inactive (h : change.active = false) (flag : Flag) (old : Bool) :
    change.after flag old = old := by
  unfold FlagChange.after
  rw [h]
  rfl

theorem FlagChange.after_of_active (h : change.active = true) {value : Val N Bool} (hflag : change.flag flag = some value)
    (old : Bool) : change.after flag old = value.value := by
  unfold FlagChange.after
  rw [h, hflag]
  rfl

theorem FlagChange.after_retaining (h : flag ∈ mask) (old : Bool) :
    (change.retaining mask).after flag old = change.after flag old := by
  unfold FlagChange.after
  rw [flag_retaining h]
  rfl

theorem FlagChange.active_of_unconditional (h : change.condition = none) : change.active = true := by
  unfold FlagChange.active
  rw [h]
  rfl

theorem FlagChange.active_of_condition {cond : Val N Bool} (h : change.condition = some cond) :
    change.active = cond.value := by
  unfold FlagChange.active
  rw [h]
  rfl

theorem FlagChange.statusSource_eq_some (h : change.statusSource needed = some source) :
    (∃ names, change.values = .status source names) ∧ needed ⊆ change.writes := by
  unfold FlagChange.statusSource at h
  split at h
  next other names hvals =>
    split at h
    next hsubset => exact ⟨⟨names, Option.some.inj h ▸ hvals⟩, hsubset⟩
    next => exact nomatch h
  next => exact nomatch h

/-- A source that supplies the needed flags gives them their values. -/
theorem FlagChange.flag_of_statusSource (h : change.statusSource needed = some source) {f : StatusFlag}
    (hf : .status f ∈ needed) : (change.flag (.status f)).map (·.value) = some (source.flag f) := by
  obtain ⟨⟨names, hvals⟩, hsubset⟩ := statusSource_eq_some h
  unfold FlagChange.flag
  rw [if_pos (hsubset hf), hvals]
  rfl

end

end Relocade.Flags
