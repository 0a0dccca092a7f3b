import Mathlib.Data.List.Basic

/-!
# `Graphs.Worklist` — loops that pop what is pending until nothing is left

A visit may add to what is pending only where it makes progress, so the loop ends. What every visit keeps holds of the
last state, where nothing is pending.
-/

namespace Relocade.Graphs

variable {σ V : Type}

/-- Pop what is pending, the last of it first, until nothing is left. -/
def drain (visit : σ → V → σ × List V) : Nat → σ → List V → Option σ
  | _, s, [] => some s
  | 0, _, _ :: _ => none
  | n + 1, s, v :: pending => drain visit n (visit s v).1 ((visit s v).2 ++ pending)

/-- Visits that keep an invariant, and lower a measure where they add something, end in a state with nothing pending. -/
theorem drain_spec {visit : σ → V → σ × List V} {I : σ → List V → Prop} (measure : σ → Nat)
    (hvisit : ∀ s v pending, I s (v :: pending) → I (visit s v).1 ((visit s v).2 ++ pending) ∧
      (measure (visit s v).1 < measure s ∨ (visit s v).1 = s ∧ (visit s v).2 = []))
    {s : σ} {pending : List V} (h : I s pending) :
    ∃ t, I t [] ∧ ∃ n, ∀ m, n ≤ m → drain visit m s pending = some t := by
  induction hmeasure : measure s using Nat.strongRecOn generalizing s pending with
  | ind k ih =>
    subst hmeasure
    induction pending with
    | nil => exact ⟨s, h, 0, fun m _ => by cases m <;> rfl⟩
    | cons v pending ihp =>
      obtain ⟨hnext, hprogress⟩ := hvisit s v pending h
      obtain ⟨t, ht, n, hn⟩ : ∃ t, I t [] ∧ ∃ n, ∀ m, n ≤ m →
          drain visit m (visit s v).1 ((visit s v).2 ++ pending) = some t := by
        rcases hprogress with hlt | ⟨hsame, hnone⟩
        · exact ih _ hlt hnext rfl
        · rw [hsame, hnone] at hnext ⊢
          exact ihp hnext
      refine ⟨t, ht, n + 1, fun m hm => ?_⟩
      obtain ⟨m, rfl⟩ := Nat.exists_eq_add_of_le' (Nat.le_trans (Nat.succ_pos n) hm)
      exact hn m (Nat.le_of_succ_le_succ hm)

/-! ## Marks -/

/-- How many nodes below a bound are not marked. -/
def unmarked (marked : Nat → Bool) (bound : Nat) : Nat := (List.range bound).countP fun v => !marked v

theorem unmarked_succ (marked : Nat → Bool) (bound : Nat) :
    unmarked marked (bound + 1) = unmarked marked bound + if marked bound then 0 else 1 := by
  rw [unmarked, List.range_succ, List.countP_append, unmarked, List.countP_singleton]
  cases marked bound <;> rfl

/-- Marking a node leaves fewer. -/
theorem unmarked_update {marked : Nat → Bool} {v bound : Nat} (hv : v < bound) (h : marked v = false) :
    unmarked (Function.update marked v true) bound < unmarked marked bound := by
  have hle : ∀ bound, unmarked (Function.update marked v true) bound ≤ unmarked marked bound := by
    intro bound
    refine List.countP_mono_left fun w _ hw => ?_
    by_cases heq : w = v
    · rw [heq, h]
      rfl
    · rwa [Function.update_of_ne heq] at hw
  induction bound with
  | zero => exact absurd hv (Nat.not_lt_zero v)
  | succ bound ih =>
    rw [unmarked_succ, unmarked_succ]
    rcases Nat.lt_succ_iff_lt_or_eq.mp hv with hlt | rfl
    · have := ih hlt
      rw [Function.update_of_ne (Nat.ne_of_gt hlt)]
      omega
    · have := hle v
      rw [Function.update_self, h]
      simp only [if_true, Bool.false_eq_true, if_false]
      omega

end Relocade.Graphs
