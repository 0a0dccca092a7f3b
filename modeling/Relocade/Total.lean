import Mathlib.Data.List.Basic

/-!
# `Total` — total correctness of stateful computations that can fail
-/

namespace Relocade

/-- From `s`, `x` succeeds with an outcome that satisfies `Q`. -/
def Total {σ α : Type} (s : σ) (x : StateT σ Option α) (Q : α → σ → Prop) : Prop :=
  ∃ a s', x s = some (a, s') ∧ Q a s'

namespace Total

variable {σ α β γ : Type} {s : σ} {x : StateT σ Option α} {Q Q' : α → σ → Prop} {R : β → σ → Prop}

theorem pure {a : α} (h : Q a s) : Total s (pure a) Q := ⟨a, s, rfl, h⟩

theorem mono (hx : Total s x Q) (h : ∀ a s', Q a s' → Q' a s') : Total s x Q' := by
  obtain ⟨a, s', hx, hq⟩ := hx
  exact ⟨a, s', hx, h a s' hq⟩

theorem bind {f : α → StateT σ Option β} (hx : Total s x Q) (hf : ∀ a s', Q a s' → Total s' (f a) R) :
    Total s (x >>= f) R := by
  obtain ⟨a, s', hx, hq⟩ := hx
  obtain ⟨b, s'', hf, hr⟩ := hf a s' hq
  refine ⟨b, s'', ?_, hr⟩
  show (x s).bind (fun p => f p.1 p.2) = _
  rw [hx]
  exact hf

theorem pureBind {a : α} {f : α → StateT σ Option β} (h : Total s (f a) R) : Total s (Pure.pure a >>= f) R := h

theorem modify {f : σ → σ} {Q : PUnit → σ → Prop} (h : Q ⟨⟩ (f s)) : Total s (modify f) Q := ⟨⟨⟩, f s, rfl, h⟩

/-- A loop follows a fold, step by step. -/
theorem forM {xs : List β} {f : β → StateT σ Option PUnit} {I : γ → σ → Prop} {g : γ → β → γ} {c : γ}
    (h : ∀ b ∈ xs, ∀ c s, I c s → Total s (f b) fun _ s' => I (g c b) s') (hs : I c s) :
    Total s (xs.forM f) fun _ s' => I (xs.foldl g c) s' := by
  induction xs generalizing c s with
  | nil => exact pure hs
  | cons b rest ih =>
    show Total s (f b >>= fun _ => rest.forM f) _
    refine bind (h b List.mem_cons_self c s hs) fun _ s' hs' => ?_
    exact ih (fun b hb => h b (List.mem_cons_of_mem _ hb)) hs'

/-- A loop that keeps an invariant collects the answers of its steps. -/
theorem mapM {xs : List β} {f : β → StateT σ Option α} {I : σ → Prop} {g : β → α}
    (h : ∀ b ∈ xs, ∀ s, I s → Total s (f b) fun a s' => a = g b ∧ I s') (hs : I s) :
    Total s (xs.mapM f) fun as s' => as = xs.map g ∧ I s' := by
  induction xs generalizing s with
  | nil => exact pure ⟨rfl, hs⟩
  | cons b rest ih =>
    rw [List.mapM_cons]
    refine bind (h b List.mem_cons_self s hs) fun a s' ⟨ha, hs'⟩ => ?_
    refine bind (ih (fun b hb => h b (List.mem_cons_of_mem _ hb)) hs') fun as s'' ⟨has, hs''⟩ => ?_
    rw [ha, has]
    exact pure ⟨rfl, hs''⟩

/-- An accumulating loop follows a fold, step by step. -/
theorem foldlM {xs : List β} {f : α → β → StateT σ Option α} {I : γ → α → σ → Prop} {g : γ → β → γ} {a : α} {c : γ}
    (h : ∀ b ∈ xs, ∀ c a s, I c a s → Total s (f a b) fun a' s' => I (g c b) a' s') (hs : I c a s) :
    Total s (xs.foldlM f a) fun a' s' => I (xs.foldl g c) a' s' := by
  induction xs generalizing a c s with
  | nil => exact pure hs
  | cons b rest ih =>
    rw [List.foldlM_cons]
    refine bind (h b List.mem_cons_self c a s hs) fun a' s' hs' => ?_
    exact ih (fun b hb => h b (List.mem_cons_of_mem _ hb)) hs'

end Total

end Relocade
