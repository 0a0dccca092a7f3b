import Mathlib.Data.List.Basic
import Mathlib.Data.Finset.Defs

/-!
# `Graphs.Paths` — paths from a root, and the nodes they cannot avoid
-/

namespace Relocade.Graphs

section Dominance

variable {V : Type} {successors : V → List V} {root : V}

/-- A path from the root, its last node first. -/
inductive Path (successors : V → List V) (root : V) : V → List V → Prop where
  | root : Path successors root root [root]
  | step {a b : V} {nodes : List V} (h : Path successors root a nodes) (hedge : b ∈ successors a) :
      Path successors root b (b :: nodes)

def Reachable (successors : V → List V) (root b : V) : Prop := ∃ nodes, Path successors root b nodes

/-- Every path to `b` passes through `a`. -/
def Dominates (successors : V → List V) (root a b : V) : Prop := ∀ nodes, Path successors root b nodes → a ∈ nodes

theorem Path.mem_last {b : V} {nodes : List V} (h : Path successors root b nodes) : b ∈ nodes := by
  cases h with
  | root => exact List.mem_singleton_self _
  | step _ _ => exact List.mem_cons_self

theorem Reachable.refl : Reachable successors root root := ⟨[root], .root⟩

theorem Reachable.step {a b : V} (h : Reachable successors root a) (hedge : b ∈ successors a) :
    Reachable successors root b :=
  let ⟨nodes, hpath⟩ := h
  ⟨b :: nodes, hpath.step hedge⟩

theorem Dominates.refl (b : V) : Dominates successors root b b := fun _ hpath => hpath.mem_last

/-- A dominator of a node other than itself dominates its predecessors. -/
theorem Dominates.of_edge {a b p : V} (h : Dominates successors root a b) (hne : a ≠ b) (hedge : b ∈ successors p) :
    Dominates successors root a p := fun nodes hpath =>
  (List.mem_cons.mp (h (b :: nodes) (hpath.step hedge))).resolve_left hne

theorem Dominates.root_eq {a : V} (h : Dominates successors root a root) : a = root :=
  List.mem_singleton.mp (h [root] .root)

/-- A path passes through each of its nodes by a path. -/
theorem Path.to_mem {b s : V} {nodes : List V} (h : Path successors root b nodes) (hs : s ∈ nodes) :
    ∃ before, Path successors root s before ∧ ∀ x ∈ before, x ∈ nodes := by
  induction h with
  | root =>
    rw [List.mem_singleton.mp hs]
    exact ⟨[root], .root, fun _ hx => hx⟩
  | step hpath hedge ih =>
    rcases List.mem_cons.mp hs with rfl | hs
    · exact ⟨_, hpath.step hedge, fun _ hx => hx⟩
    · obtain ⟨before, hbef, hsub⟩ := ih hs
      exact ⟨before, hbef, fun x hx => List.mem_cons_of_mem _ (hsub x hx)⟩

theorem Dominates.trans {a b c : V} (hab : Dominates successors root a b) (hbc : Dominates successors root b c) :
    Dominates successors root a c := by
  intro nodes hpath
  obtain ⟨before, hbef, hsub⟩ := hpath.to_mem (hbc nodes hpath)
  exact hsub a (hab before hbef)

end Dominance

end Relocade.Graphs
