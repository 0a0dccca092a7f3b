import Relocade.Compiler.Place.Ancestors

/-!
# `Compiler.Place.Rounds` — what a round does to the provisional tree

A round gives every node the nearest common ancestor of its predecessors, in a tree whose earlier nodes are new and
whose later nodes are old. After a first round, ancestors are only lost: what is above every predecessor of a node is
above the node, and what is above a node is above its earlier predecessors.
-/

namespace Relocade.Compiler.Place

open Dominators (Meets)

variable {n : Nat} {nodes : Fin n → Prop} {predecessors : Fin n → List (Fin n)} {rank : Fin n → Nat} {root : Fin n}

/-- Nodes in an order in which all but the root come after one of their predecessors. -/
structure Ranked (nodes : Fin n → Prop) (predecessors : Fin n → List (Fin n)) (rank : Fin n → Nat) (root : Fin n) :
    Prop where
  rootNode : nodes root
  rootFirst : ∀ v, nodes v → v ≠ root → rank root < rank v
  injective : ∀ a b, nodes a → nodes b → rank a = rank b → a = b
  earlier : ∀ v, nodes v → v ≠ root → ∃ q ∈ predecessors v, nodes q ∧ rank q < rank v

/-- While a node is processed, the nodes before it are new and the others old. -/
def mixed (rank : Fin n → Nat) (old new : Fin n → Option (Fin n)) (v x : Fin n) : Option (Fin n) :=
  if rank x < rank v then new x else old x

/-- Every node was given the nearest common ancestor of its predecessors. -/
def Passed (nodes : Fin n → Prop) (predecessors : Fin n → List (Fin n)) (rank : Fin n → Nat) (root : Fin n)
    (old new : Fin n → Option (Fin n)) : Prop :=
  ∀ v, nodes v → v ≠ root → ∃ c, new v = some c ∧ Meets (mixed rank old new v) (predecessors v) c

/-- A tree of all the nodes. -/
structure Spanning (nodes : Fin n → Prop) (rank : Fin n → Nat) (root : Fin n) (parent : Fin n → Option (Fin n)) :
    Prop where
  descending : Descending parent rank root
  isSome_iff : ∀ x, (parent x).isSome ↔ nodes x

/-- What holds of a node holds of its earlier predecessors, itself apart. -/
def Earlier (nodes : Fin n → Prop) (predecessors : Fin n → List (Fin n)) (rank : Fin n → Nat) (root : Fin n)
    (above : Fin n → Fin n → Prop) : Prop :=
  ∀ v, nodes v → v ≠ root → ∀ q ∈ predecessors v, nodes q → rank q < rank v → ∀ s, above v s → s ≠ v → above q s

/-- A tree between rounds. -/
structure Stage (nodes : Fin n → Prop) (predecessors : Fin n → List (Fin n)) (rank : Fin n → Nat) (root : Fin n)
    (parent : Fin n → Option (Fin n)) : Prop extends Spanning nodes rank root parent where
  earlier : Earlier nodes predecessors rank root (Above parent)
  closed : ∀ v, nodes v → v ≠ root → ∀ s, (∀ p ∈ predecessors v, nodes p → Above parent p s) → Above parent v s

/-! ## Ancestors in a mixed tree -/

theorem above_congr {parent parent' : Fin n → Option (Fin n)} (h : Descending parent rank root) {bound : Nat}
    (hsame : ∀ x, rank x < bound → parent' x = parent x) {x s : Fin n} (hx : rank x < bound) :
    Above parent' x s ↔ Above parent x s := by
  constructor
  · intro habove
    induction habove using Relation.ReflTransGen.head_induction_on with
    | refl => exact .refl s
    | @head x y hstep _ ih =>
      rw [hsame x hx] at hstep
      exact (above_parent hstep).trans (ih (Nat.lt_of_le_of_lt (h.rank_le (above_parent hstep)) hx))
  · intro habove
    induction habove using Relation.ReflTransGen.head_induction_on with
    | refl => exact .refl s
    | @head x y hstep _ ih =>
      have hlt := Nat.lt_of_le_of_lt (h.rank_le (above_parent hstep)) hx
      rw [← hsame x hx] at hstep
      exact (above_parent hstep).trans (ih hlt)

section Mixed

variable {old new : Fin n → Option (Fin n)} {v : Fin n}

theorem mixed_above (hnew : Descending new rank root) {x s : Fin n} (hx : rank x < rank v) :
    Above (mixed rank old new v) x s ↔ Above new x s :=
  above_congr hnew (fun _ hy => if_pos hy) hx

/-- An earlier ancestor in the mixed tree is reached through an earlier ancestor in the old one. -/
theorem mixed_down (hnew : Descending new rank root) {p s : Fin n} (h : Above (mixed rank old new v) p s)
    (hs : rank s < rank v) : ∃ u, Above old p u ∧ rank u < rank v ∧ Above new u s := by
  induction h using Relation.ReflTransGen.head_induction_on with
  | refl => exact ⟨s, .refl s, hs, .refl s⟩
  | @head p p' hstep habove ih =>
    by_cases hp : rank p < rank v
    · exact ⟨p, .refl p, hp, (mixed_above hnew hp).mp ((above_parent hstep).trans habove)⟩
    · obtain ⟨u, hu, hlt, hus⟩ := ih
      rw [mixed, if_neg hp] at hstep
      exact ⟨u, (above_parent hstep).trans hu, hlt, hus⟩

/-- The nearest earlier ancestor in the old tree continues in the new one. -/
theorem mixed_up (hranked : Ranked nodes predecessors rank root) (hold : Spanning nodes rank root old)
    (hnew : Descending new rank root) (hv : nodes v) (hroot : v ≠ root) {p : Fin n} (hp : nodes p) :
    ∃ u, Above old p u ∧ rank u < rank v ∧ (∀ s, Above old p s → rank s < rank v → Above old u s) ∧
      ∀ s, Above new u s → Above (mixed rank old new v) p s := by
  generalize hr : rank p = r
  induction r using Nat.strongRecOn generalizing p with
  | ind r ih =>
    by_cases hlt : rank p < rank v
    · exact ⟨p, .refl p, hlt, fun s hs _ => hs, fun s hs => (mixed_above hnew hlt).mpr hs⟩
    · have hne : p ≠ root := fun heq => hlt (heq ▸ hranked.rootFirst v hv hroot)
      obtain ⟨p', hp'⟩ := Option.isSome_iff_exists.mp ((hold.isSome_iff p).mpr hp)
      obtain ⟨hrank, hsome⟩ := hold.descending.lower p p' hp' hne
      obtain ⟨u, hu, hulv, hnearest, hcontinues⟩ := ih (rank p') (hr ▸ hrank) ((hold.isSome_iff p').mp hsome) rfl
      refine ⟨u, (above_parent hp').trans hu, hulv, fun s hs hslt => ?_, fun s hs => ?_⟩
      · refine hnearest s (((above_iff hp').mp hs).resolve_left fun heq => ?_) hslt
        exact hlt (heq ▸ hslt)
      · have hstep : mixed rank old new v p = some p' := by rw [mixed, if_neg hlt, hp']
        exact (above_parent hstep).trans (hcontinues s hs)

end Mixed

/-! ## A round -/

/-- What holds below an ancestor and is of lower rank holds of the ancestor. -/
theorem Earlier.carry {above above' : Fin n → Fin n → Prop} (hranked : Ranked nodes predecessors rank root)
    (h : Earlier nodes predecessors rank root above) (h' : Earlier nodes predecessors rank root above')
    (hroot : ∀ s, above root s → s = root) (hle : ∀ t s, nodes t → above t s → rank s ≤ rank t) {t u s : Fin n}
    (ht : nodes t) (hu : above t u) (hs : above' t s) (hlt : rank s < rank u) : above' u s := by
  generalize hr : rank t = r
  induction r using Nat.strongRecOn generalizing t with
  | ind r ih =>
    by_cases heq : t = u
    · exact heq ▸ hs
    · have hne : t ≠ root := by
        rintro rfl
        exact heq (hroot u hu).symm
      obtain ⟨q, hq, hnodes, hrank⟩ := hranked.earlier t ht hne
      refine ih (rank q) (hr ▸ hrank) hnodes (h t ht hne q hq hnodes hrank u hu fun h => heq h.symm) ?_ rfl
      refine h' t ht hne q hq hnodes hrank s hs ?_
      rintro rfl
      exact absurd (hle s u ht hu) (Nat.not_le.mpr hlt)

/-- What is above a node is above it in a tree, when the tree gathers it from the nodes before. -/
theorem above_of_gathered (rank : Fin n → Nat) {new : Fin n → Option (Fin n)} {above : Fin n → Fin n → Prop}
    (hroot : ∀ s, above root s → s = root) {s : Fin n}
    (hstep : ∀ v, nodes v → v ≠ root → s ≠ v → above v s →
      (∀ u, nodes u → rank u < rank v → above u s → Above new u s) → Above new v s) {v : Fin n} (hv : nodes v)
    (hs : above v s) : Above new v s := by
  generalize hr : rank v = r
  induction r using Nat.strongRecOn generalizing v with
  | ind r ih =>
    by_cases heq : s = v
    · rw [heq]
      exact .refl v
    · have hne : v ≠ root := by
        rintro rfl
        exact heq (hroot s hs)
      exact hstep v hv hne heq hs fun u hu hlt hus => ih (rank u) (hr ▸ hlt) hu hus rfl

namespace Passed

variable {old new : Fin n → Option (Fin n)}

/-- The new parent of a node has a lower rank. -/
theorem exists_parent (h : Passed nodes predecessors rank root old new) (hnew : Descending new rank root) {v : Fin n}
    (hv : nodes v) (hne : v ≠ root) :
    ∃ c, new v = some c ∧ (∀ s, Above new v s ↔ v = s ∨ Above new c s) ∧
      ∀ s, Above new c s ↔
        ∀ p ∈ predecessors v, (mixed rank old new v p).isSome → Above (mixed rank old new v) p s := by
  obtain ⟨c, hc, -, habove⟩ := h v hv hne
  exact ⟨c, hc, fun s => above_iff hc, fun s => ((mixed_above hnew (hnew.lower v c hc hne).1).symm.trans (habove s))⟩

/-- What is above a node is above its earlier predecessors. -/
theorem earlier (h : Passed nodes predecessors rank root old new) (hnew : Spanning nodes rank root new) :
    Earlier nodes predecessors rank root (Above new) := by
  intro v hv hne q hq hnodes hrank s hs hsv
  obtain ⟨c, hc, hself, habove⟩ := h.exists_parent hnew.descending hv hne
  have hcs := ((hself s).mp hs).resolve_left fun heq => hsv heq.symm
  refine (mixed_above hnew.descending hrank).mp ((habove s).mp hcs q hq ?_)
  rw [mixed, if_pos hrank]
  exact (hnew.isSome_iff q).mpr hnodes

theorem mixed_isSome {v p : Fin n} (hold : Spanning nodes rank root old) (hnew : Spanning nodes rank root new) :
    (mixed rank old new v p).isSome ↔ nodes p := by
  rw [mixed]
  split
  · exact hnew.isSome_iff p
  · exact hold.isSome_iff p

section Again

variable (hranked : Ranked nodes predecessors rank root) (hold : Stage nodes predecessors rank root old)
  (hnew : Spanning nodes rank root new) (h : Passed nodes predecessors rank root old new)

include hranked hold hnew h

/-- A round only loses ancestors. -/
theorem shrinks {v s : Fin n} (hv : nodes v) (hs : Above new v s) : Above old v s := by
  generalize hr : rank v = r
  induction r using Nat.strongRecOn generalizing v with
  | ind r ih =>
    by_cases hne : v = root
    · subst hne
      rw [hnew.descending.above_root hs]
      exact .refl v
    · obtain ⟨c, hc, hself, habove⟩ := h.exists_parent hnew.descending hv hne
      rcases (hself s).mp hs with rfl | hcs
      · exact .refl v
      · refine hold.closed v hv hne s fun p hp hnodes => ?_
        have hlt : rank s < rank v :=
          Nat.lt_of_le_of_lt (hnew.descending.rank_le hcs) (hnew.descending.lower v c hc hne).1
        obtain ⟨u, hu, hulv, hus⟩ := mixed_down hnew.descending
          ((habove s).mp hcs p hp ((mixed_isSome hold.toSpanning hnew).mpr hnodes)) hlt
        have hunodes := (hold.isSome_iff u).mp (hold.descending.isSome hu ((hold.isSome_iff p).mpr hnodes))
        exact hu.trans (ih (rank u) (hr ▸ hulv) hunodes hus rfl)

/-- What is above the predecessors of a node by a relation that old ancestors carry is above the node. -/
theorem gather {above : Fin n → Fin n → Prop} (habove : Earlier nodes predecessors rank root above)
    (hsub : ∀ v s, nodes v → above v s → Above old v s) {v s : Fin n} (hv : nodes v) (hne : v ≠ root)
    (hlow : ∀ u, nodes u → rank u < rank v → above u s → Above new u s)
    (hs : ∀ p ∈ predecessors v, nodes p → above p s) : Above new v s := by
  obtain ⟨c, hc, hself, hcs⟩ := h.exists_parent hnew.descending hv hne
  obtain ⟨q, hq, hqnodes, hqlt⟩ := hranked.earlier v hv hne
  have hlt : rank s < rank v :=
    Nat.lt_of_le_of_lt (hold.descending.rank_le (hsub q s hqnodes (hs q hq hqnodes))) hqlt
  refine (hself s).mpr (Or.inr ((hcs s).mpr fun p hp hsome => ?_))
  have hnodes := (mixed_isSome hold.toSpanning hnew).mp hsome
  obtain ⟨u, hu, hulv, hnearest, hcontinues⟩ := mixed_up hranked hold.toSpanning hnew.descending hv hne hnodes
  have hus := hnearest s (hsub p s hnodes (hs p hp hnodes)) hlt
  have hunodes := (hold.isSome_iff u).mp (hold.descending.isSome hu ((hold.isSome_iff p).mpr hnodes))
  refine hcontinues s ?_
  by_cases heq : s = u
  · rw [heq]
    exact .refl u
  · refine hlow u hunodes hulv (hold.earlier.carry hranked habove (fun _ => hold.descending.above_root)
      (fun _ _ _ => hold.descending.rank_le) hnodes hu (hs p hp hnodes) (hold.descending.rank_lt hus heq))

/-- A round keeps a stage. -/
theorem stage : Stage nodes predecessors rank root new where
  toSpanning := hnew
  earlier := h.earlier hnew
  closed := fun _ hv hne _ hs => gather hranked hold hnew h (h.earlier hnew)
    (fun _ _ hv => shrinks hranked hold hnew h hv) hv hne (fun _ _ _ hu => hu) hs

/-- A round keeps what a node's predecessors share, when the old tree had it. -/
theorem contains (above : Fin n → Fin n → Prop) (hroot : ∀ s, above root s → s = root)
    (hpreds : ∀ v s, above v s → s ≠ v → ∀ p ∈ predecessors v, above p s)
    (hsub : ∀ v s, nodes v → above v s → Above old v s) {v s : Fin n} (hv : nodes v) (hs : above v s) :
    Above new v s := by
  refine above_of_gathered rank hroot (fun v hv hne heq hs ih => ?_) hv hs
  exact gather hranked hold hnew h (fun v _ _ q hq _ _ s hs hsv => hpreds v s hs hsv q hq) hsub hv hne ih
    fun p hp _ => hpreds v s hs heq p hp

end Again

/-! ## The first round -/

section First

variable (hranked : Ranked nodes predecessors rank root) (hold : ∀ x, (old x).isSome ↔ x = root)
  (hnew : Spanning nodes rank root new) (h : Passed nodes predecessors rank root old new)

include hranked hold hnew h

/-- In the first round, only the nodes before a node have parents. -/
theorem first_above {v s : Fin n} (hv : nodes v) (hne : v ≠ root)
    (hs : ∀ p ∈ predecessors v, nodes p → rank p < rank v → Above new p s) : Above new v s := by
  obtain ⟨c, hc, hself, habove⟩ := h.exists_parent hnew.descending hv hne
  refine (hself s).mpr (Or.inr ((habove s).mpr fun p hp hsome => ?_))
  by_cases hlt : rank p < rank v
  · rw [mixed, if_pos hlt] at hsome
    exact (mixed_above hnew.descending hlt).mpr (hs p hp ((hnew.isSome_iff p).mp hsome) hlt)
  · rw [mixed, if_neg hlt] at hsome
    exact absurd ((hold p).mp hsome ▸ hranked.rootFirst v hv hne) hlt

theorem first_stage : Stage nodes predecessors rank root new where
  toSpanning := hnew
  earlier := h.earlier hnew
  closed := fun _ hv hne _ hs => first_above hranked hold hnew h hv hne fun p hp hnodes _ => hs p hp hnodes

theorem first_contains (above : Fin n → Fin n → Prop) (hroot : ∀ s, above root s → s = root)
    (hpreds : ∀ v s, above v s → s ≠ v → ∀ p ∈ predecessors v, above p s) {v s : Fin n} (hv : nodes v)
    (hs : above v s) : Above new v s := by
  refine above_of_gathered rank hroot (fun v hv hne heq hs ih => ?_) hv hs
  exact first_above hranked hold hnew h hv hne fun p hp hnodes hlt => ih p hnodes hlt (hpreds v s hs heq p hp)

end First

end Passed

end Relocade.Compiler.Place
