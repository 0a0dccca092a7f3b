import Mathlib.Algebra.BigOperators.Fin
import Mathlib.Logic.Relation
import Relocade.Compiler.Place.Dominance
import Relocade.Graphs.Paths

/-!
# `Compiler.Place.DepthFirst` — the reverse postorder of a depth-first walk

The nodes on the stack, followed by those that were left, are an order in which every node but the root comes after one
of its predecessors. Leaving a node does not change this order, and entering a node puts it after its predecessor.
-/

namespace Relocade.Compiler.Place

open Function (update update_self update_of_ne)
open List (mem_cons_self map_cons reverse_cons sum_cons)
open Graphs (Path Reachable Dominates)

/-! ## Loops that end -/

section Loops

variable {σ : Type} {step : σ → Option σ}

/-- A loop ends where its steps end. -/
theorem steps_enough {s t : σ} (h : Relation.ReflTransGen (fun s s' => step s = some s') s t) (hlast : step t = none) :
    ∃ enough, ∀ fuel, enough ≤ fuel → repeatWhile step fuel s = some t := by
  induction h using Relation.ReflTransGen.head_induction_on with
  | refl =>
    refine ⟨1, fun fuel hfuel => ?_⟩
    obtain ⟨fuel, rfl⟩ := Nat.exists_eq_succ_of_ne_zero (Nat.ne_of_gt hfuel)
    rw [repeatWhile, hlast]
  | head hstep _ ih =>
    obtain ⟨enough, henough⟩ := ih
    refine ⟨enough + 1, fun fuel hfuel => ?_⟩
    obtain ⟨fuel, rfl⟩ := Nat.exists_eq_succ_of_ne_zero (Nat.ne_of_gt (Nat.lt_of_lt_of_le (Nat.succ_pos _) hfuel))
    rw [repeatWhile, hstep]
    exact henough fuel (Nat.le_of_succ_le_succ hfuel)

/-- Steps that keep an invariant and decrease a measure reach a last state. -/
theorem exists_last {invariant : σ → Prop} (measure : σ → Nat)
    (hstep : ∀ s s', invariant s → step s = some s' → invariant s' ∧ measure s' < measure s) {s : σ}
    (hs : invariant s) :
    ∃ t, Relation.ReflTransGen (fun s s' => step s = some s') s t ∧ step t = none ∧ invariant t := by
  generalize hmeasure : measure s = m
  induction m using Nat.strongRecOn generalizing s with
  | ind m ih =>
    cases hnext : step s with
    | none => exact ⟨s, .refl, hnext, hs⟩
    | some s' =>
      obtain ⟨hinv, hlt⟩ := hstep s s' hs hnext
      obtain ⟨t, hsteps, hlast, ht⟩ := ih (measure s') (hmeasure ▸ hlt) hinv rfl
      exact ⟨t, .head hnext hsteps, hlast, ht⟩

end Loops

/-! ## The order along the walk -/

variable {n : Nat} {successors : Fin n → List (Fin n)} {root : Fin n}

/-- The nodes on the stack and those that were left, each after the node it was entered from. -/
def Walk.order (walk : Walk n) : List (Fin n) := (walk.work.map Prod.fst).reverse ++ walk.postorder

/-- Every node but the root comes after one of its predecessors. -/
def Preceded (successors : Fin n → List (Fin n)) (root : Fin n) (order : List (Fin n)) : Prop :=
  ∀ b ∈ order, b ≠ root → ∃ a, [a, b].Sublist order ∧ b ∈ successors a

structure Walk.Sound (successors : Fin n → List (Fin n)) (root : Fin n) (walk : Walk n) : Prop where
  seen_iff : ∀ x, walk.seen x = true ↔ x ∈ walk.order
  nodup : walk.order.Nodup
  head : walk.order.head? = some root
  reachable : ∀ x ∈ walk.order, Reachable successors root x
  preceded : Preceded successors root walk.order
  left : ∀ x ∈ walk.postorder, ∀ y ∈ successors x, y ∈ walk.order
  entered : ∀ entry ∈ walk.work, ∀ y ∈ (successors entry.1).take entry.2, y ∈ walk.order

theorem update_seen {seen : Fin n → Bool} {a x : Fin n} :
    update seen a true x = true ↔ x = a ∨ seen x = true := by
  by_cases hx : x = a
  · subst hx
    rw [update_self]
    exact ⟨fun _ => Or.inl rfl, fun _ => rfl⟩
  · rw [update_of_ne hx]
    exact ⟨Or.inr, fun h => h.resolve_left hx⟩

theorem sound_start : (Walk.start root).Sound successors root where
  seen_iff := by
    intro x
    show update (fun _ => false) root true x = true ↔ x ∈ [root]
    rw [update_seen, List.mem_singleton]
    exact ⟨fun h => h.resolve_right Bool.false_ne_true, Or.inl⟩
  nodup := List.nodup_singleton root
  head := rfl
  reachable := by
    intro x hx
    rw [List.mem_singleton.mp hx]
    exact .refl
  preceded := fun b hb hne => absurd (List.mem_singleton.mp hb) hne
  left := nofun
  entered := by
    intro entry hent y hy
    rw [List.mem_singleton.mp hent] at hy
    cases hy

/-- Entering a node puts it after the node at the top of the stack. -/
theorem preceded_insert {before after : List (Fin n)} {node successor : Fin n}
    (h : Preceded successors root (before ++ after)) (hnode : node ∈ before) (hedge : successor ∈ successors node) :
    Preceded successors root (before ++ successor :: after) := by
  intro b hb hne
  have hsublist : (before ++ after).Sublist (before ++ successor :: after) :=
    (List.Sublist.refl before).append (List.sublist_cons_self successor after)
  by_cases heq : b = successor
  · subst heq
    refine ⟨node, ?_, hedge⟩
    exact (List.singleton_sublist.mpr hnode).append (List.singleton_sublist.mpr mem_cons_self)
  · have hold : b ∈ before ++ after := by
      rcases List.mem_append.mp hb with hb | hb
      · exact List.mem_append_left _ hb
      · exact List.mem_append_right _ ((List.mem_cons.mp hb).resolve_left heq)
    obtain ⟨a, ha, hpred⟩ := h b hold hne
    exact ⟨a, ha.trans hsublist, hpred⟩

variable {walk walk' : Walk n}

/-- A step either leaves a node whose successors were all seen, passes over a successor that was seen, or enters one. -/
theorem step_cases (h : walk.step successors = some walk') :
    ∃ node next work, walk.work = (node, next) :: work ∧
      (((successors node)[next]? = none ∧
          walk' = { walk with postorder := node :: walk.postorder, work := work }) ∨
        ∃ successor, (successors node)[next]? = some successor ∧
          ((walk.seen successor = true ∧ walk' = { walk with work := (node, next + 1) :: work }) ∨
            (walk.seen successor = false ∧ walk' = { walk with
              seen := update walk.seen successor true
              work := (successor, 0) :: (node, next + 1) :: work }))) := by
  rw [Walk.step] at h
  split at h
  · cases h
  · next node next work hwork =>
      refine ⟨node, next, work, hwork, ?_⟩
      split at h
      · next hnone => exact Or.inl ⟨hnone, (Option.some.inj h).symm⟩
      · next successor hsome =>
          refine Or.inr ⟨successor, hsome, ?_⟩
          cases hseen : walk.seen successor with
          | true =>
            rw [hseen] at h
            exact Or.inl ⟨rfl, (Option.some.inj h).symm⟩
          | false =>
            rw [hseen] at h
            exact Or.inr ⟨rfl, (Option.some.inj h).symm⟩

theorem mem_take_succ {nodes : List (Fin n)} {next : Nat} {successor y : Fin n} (hsome : nodes[next]? = some successor)
    (hy : y ∈ nodes.take (next + 1)) : y ∈ nodes.take next ∨ y = successor := by
  rw [List.take_add_one, hsome] at hy
  rcases List.mem_append.mp hy with hy | hy
  · exact Or.inl hy
  · exact Or.inr (List.mem_singleton.mp hy)

/-- A walk over the same order is sound where what it left and entered is in that order. -/
theorem Walk.Sound.of_order_eq (hsound : walk.Sound successors root) (horder : walk'.order = walk.order)
    (hseen : walk'.seen = walk.seen)
    (hleft : ∀ x ∈ walk'.postorder, ∀ y ∈ successors x, y ∈ walk.order)
    (hentered : ∀ entry ∈ walk'.work, ∀ y ∈ (successors entry.1).take entry.2, y ∈ walk.order) :
    walk'.Sound successors root where
  seen_iff := by rw [horder, hseen]; exact hsound.seen_iff
  nodup := by rw [horder]; exact hsound.nodup
  head := by rw [horder]; exact hsound.head
  reachable := by rw [horder]; exact hsound.reachable
  preceded := by rw [horder]; exact hsound.preceded
  left := by rw [horder]; exact hleft
  entered := by rw [horder]; exact hentered

theorem sound_step (hsound : walk.Sound successors root) (h : walk.step successors = some walk') :
    walk'.Sound successors root := by
  obtain ⟨node, next, work, hwork, ⟨hnone, rfl⟩ | ⟨successor, hsome, ⟨hseen, rfl⟩ | ⟨hunseen, rfl⟩⟩⟩ := step_cases h
  · have horder : ({ walk with postorder := node :: walk.postorder, work := work } : Walk n).order = walk.order := by
      rw [Walk.order, Walk.order, hwork, map_cons, reverse_cons, List.append_assoc]
      rfl
    have hentered := hsound.entered
    rw [hwork] at hentered
    refine hsound.of_order_eq horder rfl (fun x hx y hy => ?_) fun entry hent y hy => ?_
    · rcases List.mem_cons.mp hx with rfl | hx
      · refine hentered (x, next) mem_cons_self y ?_
        rw [List.take_of_length_le (List.getElem?_eq_none_iff.mp hnone)]
        exact hy
      · exact hsound.left x hx y hy
    · exact hentered entry (List.mem_cons_of_mem _ hent) y hy
  · have horder : ({ walk with work := (node, next + 1) :: work } : Walk n).order = walk.order := by
      rw [Walk.order, Walk.order, hwork]
      rfl
    have hentered := hsound.entered
    rw [hwork] at hentered
    refine hsound.of_order_eq horder rfl hsound.left fun entry hent y hy => ?_
    rcases List.mem_cons.mp hent with rfl | hent
    · rcases mem_take_succ hsome hy with hy | rfl
      · exact hentered (node, next) mem_cons_self y hy
      · exact (hsound.seen_iff y).mp hseen
    · exact hentered entry (List.mem_cons_of_mem _ hent) y hy
  · have hold : walk.order = ((work.map Prod.fst).reverse ++ [node]) ++ walk.postorder := by
      rw [Walk.order, hwork, map_cons, reverse_cons]
    have hnew : ({ walk with
        seen := update walk.seen successor true
        work := (successor, 0) :: (node, next + 1) :: work } : Walk n).order =
        ((work.map Prod.fst).reverse ++ [node]) ++ successor :: walk.postorder := by
      rw [Walk.order, map_cons, map_cons, reverse_cons, reverse_cons, List.append_assoc]
      rfl
    have hedge : successor ∈ successors node := List.mem_of_getElem? hsome
    have hnode : node ∈ (work.map Prod.fst).reverse ++ [node] := List.mem_append_right _ (List.mem_singleton_self _)
    have hmem : ∀ x, x ∈ ((work.map Prod.fst).reverse ++ [node]) ++ successor :: walk.postorder ↔
        x = successor ∨ x ∈ walk.order := by
      intro x
      rw [hold, List.mem_append, List.mem_cons, or_left_comm, ← List.mem_append]
    have hentered := hsound.entered
    rw [hwork] at hentered
    refine {
      seen_iff := fun x => ?_
      nodup := ?_
      head := ?_
      reachable := fun x hx => ?_
      preceded := ?_
      left := fun x hx y hy => ?_
      entered := fun entry hent y hy => ?_ }
    · rw [hnew, hmem]
      exact update_seen.trans (or_congr_right (hsound.seen_iff x))
    · have hnotin : successor ∉ walk.order := by
        intro hin
        rw [(hsound.seen_iff successor).mpr hin] at hunseen
        cases hunseen
      rw [hnew]
      refine List.nodup_middle.mpr (List.nodup_cons.mpr ⟨?_, ?_⟩)
      · rw [← hold]
        exact hnotin
      · rw [← hold]
        exact hsound.nodup
    · have hhead := hsound.head
      rw [hold] at hhead
      rw [hnew]
      cases hreverse : (work.map Prod.fst).reverse with
      | nil =>
        rw [hreverse] at hhead
        exact hhead
      | cons first rest =>
        rw [hreverse] at hhead
        exact hhead
    · rw [hnew, hmem] at hx
      rcases hx with rfl | hx
      · refine (hsound.reachable node ?_).step hedge
        rw [hold]
        exact List.mem_append_left _ hnode
      · exact hsound.reachable x hx
    · rw [hnew]
      exact preceded_insert (hold ▸ hsound.preceded) hnode hedge
    · rw [hnew, hmem]
      exact Or.inr (hsound.left x hx y hy)
    · rw [hnew, hmem]
      rcases List.mem_cons.mp hent with rfl | hent
      · cases hy
      · rcases List.mem_cons.mp hent with rfl | hent
        · rcases mem_take_succ hsome hy with hy | rfl
          · exact Or.inr (hentered (node, next) mem_cons_self y hy)
          · exact Or.inl rfl
        · exact Or.inr (hentered entry (List.mem_cons_of_mem _ hent) y hy)

theorem work_eq_nil {walk : Walk n} (h : walk.step successors = none) : walk.work = [] := by
  rw [Walk.step] at h
  split at h
  · next hwork => exact hwork
  · split at h
    · cases h
    · split at h
      · cases h
      · cases h

/-! ## Reverse postorder -/

/-- What is left of the walk. -/
def Walk.measure (successors : Fin n → List (Fin n)) (walk : Walk n) : Nat :=
  (∑ x, if walk.seen x then 0 else (successors x).length + 2) +
    (walk.work.map fun entry => (successors entry.1).length - entry.2 + 1).sum

theorem measure_step (h : walk.step successors = some walk') :
    walk'.measure successors < walk.measure successors := by
  obtain ⟨node, next, work, hwork, ⟨hnone, rfl⟩ | ⟨successor, hsome, ⟨hseen, rfl⟩ | ⟨hunseen, rfl⟩⟩⟩ := step_cases h
  · rw [Walk.measure, Walk.measure, hwork, map_cons, sum_cons]
    dsimp only
    omega
  · have hlt : next < (successors node).length := (List.getElem?_eq_some_iff.mp hsome).1
    rw [Walk.measure, Walk.measure, hwork, map_cons, sum_cons, map_cons, sum_cons]
    dsimp only
    omega
  · have hlt : next < (successors node).length := (List.getElem?_eq_some_iff.mp hsome).1
    have hseen : (∑ x, if update walk.seen successor true x then 0 else (successors x).length + 2) +
        ((successors successor).length + 2) = ∑ x, if walk.seen x then 0 else (successors x).length + 2 := by
      have hupdate : (fun x => if update walk.seen successor true x then 0 else (successors x).length + 2) =
          update (fun x => if walk.seen x then 0 else (successors x).length + 2) successor 0 := by
        funext x
        by_cases hx : x = successor
        · subst hx
          rw [update_self, update_self]
          rfl
        · rw [update_of_ne hx, update_of_ne hx]
      rw [hupdate, Finset.sum_update_of_mem (Finset.mem_univ successor), Nat.zero_add,
        Finset.sum_eq_sum_sdiff_singleton_add (Finset.mem_univ successor), hunseen]
      rfl
    rw [Walk.measure, Walk.measure, hwork, map_cons, sum_cons, map_cons, sum_cons, map_cons,
      sum_cons]
    dsimp only at *
    omega

/-- The reachable nodes, the root first, each other one after one of its predecessors. -/
structure Ordered (successors : Fin n → List (Fin n)) (root : Fin n) (order : List (Fin n)) : Prop where
  nodup : order.Nodup
  head : order.head? = some root
  mem_iff : ∀ x, x ∈ order ↔ Reachable successors root x
  preceded : Preceded successors root order

theorem postorder_spec (successors : Fin n → List (Fin n)) (root : Fin n) :
    ∃ order, Ordered successors root order ∧
      ∃ enough, ∀ fuel, enough ≤ fuel → postorder fuel root successors = some order := by
  obtain ⟨walk, hsteps, hlast, hsound⟩ := exists_last (Walk.measure successors)
    (fun walk walk' (hsound : Walk.Sound successors root walk) hstep => ⟨sound_step hsound hstep, measure_step hstep⟩)
    sound_start
  obtain ⟨enough, henough⟩ := steps_enough hsteps hlast
  have hwork : walk.work = [] := work_eq_nil hlast
  have horder : walk.order = walk.postorder := by rw [Walk.order, hwork]; rfl
  refine ⟨walk.postorder, ⟨horder ▸ hsound.nodup, horder ▸ hsound.head, fun x => ⟨fun hx => ?_, ?_⟩,
    horder ▸ hsound.preceded⟩, enough, fun fuel hfuel => by rw [postorder, henough fuel hfuel]; rfl⟩
  · exact hsound.reachable x (horder ▸ hx)
  · rintro ⟨nodes, hpath⟩
    induction hpath with
    | root => exact List.mem_of_mem_head? (horder ▸ hsound.head)
    | step _ hedge ih => exact horder ▸ hsound.left _ ih _ hedge

end Relocade.Compiler.Place
