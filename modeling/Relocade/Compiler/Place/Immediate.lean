import Mathlib.Algebra.Order.BigOperators.Group.List
import Mathlib.Algebra.Order.Group.Nat
import Mathlib.Data.List.Nodup
import Relocade.Compiler.Place.DepthFirst
import Relocade.Compiler.Place.Rounds

/-!
# `Compiler.Place.Immediate` — rounds until nothing changes

Every round gives its nodes their nearest common ancestors, and loses ancestors if it changes anything, so that the
rounds end. The last one leaves above each node what is above all of its predecessors: its dominators.
-/

namespace Relocade.Compiler.Place

open Function (update update_self update_of_ne)
open Graphs (Path Reachable Dominates)
open Dominators (Meets)

variable {n : Nat} {successors predecessors : Fin n → List (Fin n)} {root : Fin n} {order : List (Fin n)}

/-! ## Ranks -/

theorem ranks_append (before : List (Fin n)) (v : Fin n) :
    Dominators.ranks (before ++ [v]) = update (Dominators.ranks before) v before.length := by
  rw [Dominators.ranks, List.zipIdx_append, List.foldl_append, Nat.zero_add]
  rfl

variable {v : Fin n}

/-- The rank of a node is its position. -/
theorem ranks_getElem (hnodup : order.Nodup) {i : Nat} (h : order[i]? = some v) :
    Dominators.ranks order v = i := by
  induction order using List.reverseRecOn with
  | nil => cases h
  | append_singleton before last ih =>
    rw [ranks_append]
    obtain ⟨hbef, -, hdisj⟩ := List.nodup_append.mp hnodup
    rcases Nat.lt_or_ge i before.length with hlt | hge
    · rw [List.getElem?_append_left hlt] at h
      have hne : v ≠ last := hdisj v (List.mem_of_getElem? h) last (List.mem_singleton_self last)
      rw [update_of_ne hne]
      exact ih hbef h
    · rw [List.getElem?_append_right hge] at h
      have hi : i - before.length = 0 := by
        have := (List.getElem?_eq_some_iff.mp h).1
        rw [List.length_singleton] at this
        omega
      rw [hi] at h
      cases h
      rw [update_self]
      omega

variable {before after : List (Fin n)}

/-- Nodes come before one another as their ranks say. -/
theorem ranks_lt_iff (hnodup : order.Nodup)
    (horder : order = before ++ v :: after) {x : Fin n} (hx : x ∈ order) :
    Dominators.ranks order x < Dominators.ranks order v ↔ x ∈ before := by
  have hv : Dominators.ranks order v = before.length := ranks_getElem hnodup (by
    rw [horder, List.getElem?_append_right (Nat.le_refl _), Nat.sub_self]
    rfl)
  obtain ⟨i, hi, rfl⟩ := List.getElem_of_mem hx
  rw [ranks_getElem hnodup (List.getElem?_eq_getElem hi), hv]
  constructor
  · intro hlt
    have hget : (before ++ v :: after)[i]? = some order[i] := by
      rw [← List.getElem?_eq_getElem hi]
      exact congrArg (·[i]?) horder.symm
    rw [List.getElem?_append_left hlt] at hget
    exact List.mem_of_getElem? hget
  · intro hmem
    obtain ⟨j, hj, hji⟩ := List.getElem_of_mem hmem
    have hget : (before ++ v :: after)[j]? = some order[i] := by
      rw [List.getElem?_append_left hj, List.getElem?_eq_getElem hj]
      exact congrArg some hji
    rw [← horder] at hget
    have hsame := (ranks_getElem hnodup hget).symm.trans (ranks_getElem hnodup (List.getElem?_eq_getElem hi))
    omega

theorem ranks_lt (hnodup : order.Nodup) (hv : v ∈ order) : Dominators.ranks order v < n := by
  obtain ⟨i, hi, rfl⟩ := List.getElem_of_mem hv
  rw [ranks_getElem hnodup (List.getElem?_eq_getElem hi)]
  have hlen := hnodup.length_le_card
  rw [Fintype.card_fin] at hlen
  exact Nat.lt_of_lt_of_le hi hlen

theorem mem_before_of_sublist {q v : Fin n} (hnodup : (before ++ v :: after).Nodup)
    (h : [q, v].Sublist (before ++ v :: after)) : q ∈ before := by
  have hafter : v ∉ after := (List.nodup_cons.mp (List.nodup_append.mp hnodup).2.1).1
  obtain ⟨first, second, heq, hfst, hsnd⟩ := List.sublist_append_iff.mp h
  cases first with
  | nil =>
    rw [List.nil_append] at heq
    rw [← heq] at hsnd
    rcases List.sublist_cons_iff.mp hsnd with hrest | ⟨rest, hrest, hsub⟩
    · exact absurd (hrest.subset (List.mem_cons_of_mem _ (List.mem_singleton_self v))) hafter
    · obtain ⟨-, rfl⟩ := List.cons.inj hrest
      exact absurd (hsub.subset (List.mem_singleton_self v)) hafter
  | cons a first =>
    obtain ⟨rfl, -⟩ := List.cons.inj heq
    exact hfst.subset List.mem_cons_self

theorem Ordered.eq_cons (h : Ordered successors root order) : ∃ rest, order = root :: rest := by
  have hhead := h.head
  cases order with
  | nil => cases hhead
  | cons x rest => exact ⟨rest, by rw [Option.some.inj hhead]⟩

theorem ranked_of_ordered (h : Ordered successors root order)
    (hcons : ∀ a b, b ∈ successors a ↔ a ∈ predecessors b) :
    Ranked (· ∈ order) predecessors (Dominators.ranks order) root := by
  obtain ⟨rest, horder⟩ := h.eq_cons
  have hroot : root ∈ order := horder ▸ List.mem_cons_self
  refine ⟨hroot, fun v hv hne => ?_, fun a b ha hb hrank => ?_, fun v hv hne => ?_⟩
  · obtain ⟨before, after, hsplit⟩ := List.append_of_mem hv
    refine (ranks_lt_iff h.nodup hsplit hroot).mpr ?_
    cases before with
    | nil => exact absurd (List.cons.inj (hsplit.symm.trans horder)).1 hne
    | cons x before => exact (List.cons.inj (hsplit.symm.trans horder)).1 ▸ List.mem_cons_self
  · obtain ⟨i, hi, rfl⟩ := List.getElem_of_mem ha
    obtain ⟨j, hj, rfl⟩ := List.getElem_of_mem hb
    rw [ranks_getElem h.nodup (List.getElem?_eq_getElem hi),
      ranks_getElem h.nodup (List.getElem?_eq_getElem hj)] at hrank
    subst hrank
    rfl
  · obtain ⟨q, hsublist, hedge⟩ := h.preceded v hv hne
    obtain ⟨before, after, hsplit⟩ := List.append_of_mem hv
    have hqmem : q ∈ order := hsublist.subset List.mem_cons_self
    refine ⟨q, (hcons q v).mp hedge, hqmem, (ranks_lt_iff h.nodup hsplit hqmem).mpr ?_⟩
    rw [hsplit] at hsublist
    exact mem_before_of_sublist (hsplit ▸ h.nodup) hsublist

/-! ## A round -/

/-- The provisional tree after some nodes of a round. -/
structure During (order : List (Fin n)) (root : Fin n) (old : Fin n → Option (Fin n)) (before : List (Fin n))
    (tree : Dominators n) : Prop where
  rank : tree.rank = Dominators.ranks order
  ancestors : tree.ancestors = []
  descending : Descending tree.parent tree.rank root
  isSome_iff : ∀ x, (tree.parent x).isSome ↔ x ∈ before ∨ (old x).isSome
  rest : ∀ x, x ∉ before → tree.parent x = old x

/-- What the rest of a round does. -/
structure Finishes (predecessors : Fin n → List (Fin n)) (order : List (Fin n)) (root : Fin n)
    (old : Fin n → Option (Fin n)) (after : List (Fin n)) (tree : Dominators n) (changed : Bool) (tree' : Dominators n)
    (changed' : Bool) : Prop where
  during : During order root old order tree'
  same : ∀ x, x ∉ after → tree'.parent x = tree.parent x
  meets : ∀ v ∈ after, ∃ c, tree'.parent v = some c ∧
    Meets (mixed (Dominators.ranks order) old tree'.parent v) (predecessors v) c
  unchanged : changed' = false → changed = false ∧ tree' = tree
  changed : changed' = true → changed = true ∨ ∃ v ∈ after, tree'.parent v ≠ tree.parent v

variable {tree : Dominators n}

/-- Processing a node gives it the nearest common ancestor of its predecessors. -/
theorem process_spec (hranked : Ranked (· ∈ order) predecessors (Dominators.ranks order) root)
    {old : Fin n → Option (Fin n)} (hold : ∀ x, (old x).isSome → x ∈ order)
    (hnodup : order.Nodup) (hsplit : order = before ++ v :: after) (hroot : root ∈ before)
    (h : During order root old before tree) (changed : Bool) :
    ∃ c changed', (∀ fuel, 2 * n ≤ fuel → Dominators.process fuel predecessors (tree, changed) v =
        some ({ tree with parent := update tree.parent v (some c) }, changed')) ∧
      Meets tree.parent (predecessors v) c ∧
      During order root old (before ++ [v]) { tree with parent := update tree.parent v (some c) } ∧
      (changed' = false → changed = false ∧ tree.parent v = some c) ∧
      (changed' = true → changed = true ∨ tree.parent v ≠ some c) := by
  have hmem : ∀ x, (tree.parent x).isSome → x ∈ order := by
    intro x hx
    rcases (h.isSome_iff x).mp hx with hx | hx
    · rw [hsplit]
      exact List.mem_append_left _ hx
    · exact hold x hx
  have hv : v ∈ order := by
    rw [hsplit]
    exact List.mem_append_right _ List.mem_cons_self
  have hvbefore : v ∉ before := by
    rw [hsplit] at hnodup
    exact fun hbef => (List.nodup_append.mp hnodup).2.2 v hbef v List.mem_cons_self rfl
  have hne : v ≠ root := fun heq => hvbefore (heq ▸ hroot)
  obtain ⟨q, hq, hqorder, hqlt⟩ := hranked.earlier v hv hne
  have hqbefore : q ∈ before := (ranks_lt_iff hnodup hsplit hqorder).mp hqlt
  have hqsome : (tree.parent q).isSome := (h.isSome_iff q).mpr (Or.inl hqbefore)
  have hbound : ∀ a b, (tree.parent a).isSome → (tree.parent b).isSome → tree.rank a + tree.rank b < 2 * n := by
    intro a b ha hb
    have hranka := ranks_lt hnodup (hmem a ha)
    have hrankb := ranks_lt hnodup (hmem b hb)
    rw [h.rank]
    omega
  obtain ⟨c, hmeet, hmeets⟩ := Dominators.meet_spec h.descending h.ancestors hbound hq hqsome
  have hcq : Above tree.parent q c := (hmeets.2 c).mp (.refl c) q hq hqsome
  have hclt : tree.rank c < tree.rank v := by
    refine Nat.lt_of_le_of_lt (h.descending.rank_le hcq) ?_
    rw [h.rank]
    exact hqlt
  have hduring : During order root old (before ++ [v])
      { tree with parent := update tree.parent v (some c) } := by
    have hsome : ∀ x, (update tree.parent v (some c) x).isSome ↔ x = v ∨ (tree.parent x).isSome := by
      intro x
      by_cases hx : x = v
      · rw [hx, update_self]
        exact ⟨fun _ => Or.inl rfl, fun _ => rfl⟩
      · rw [update_of_ne hx]
        exact ⟨Or.inr, fun h => h.resolve_left hx⟩
    have hin : ∀ x, (update tree.parent v (some c) x).isSome → x ∈ order := fun x hx =>
      ((hsome x).mp hx).elim (fun heq => heq ▸ hv) (hmem x)
    refine ⟨h.rank, h.ancestors, ⟨?_, fun b a hb hbroot => ?_, fun a b ha hb hrank => ?_⟩, fun x => ?_, fun x hx => ?_⟩
    · exact (update_of_ne hne.symm ..).trans h.descending.rootParent
    · replace hb : update tree.parent v (some c) b = some a := hb
      by_cases hbv : b = v
      · rw [hbv, update_self] at hb
        cases hb
        rw [hbv]
        exact ⟨hclt, (hsome c).mpr (Or.inr hmeets.1)⟩
      · rw [update_of_ne hbv] at hb
        obtain ⟨hlt, ha⟩ := h.descending.lower b a hb hbroot
        exact ⟨hlt, (hsome a).mpr (Or.inr ha)⟩
    · dsimp only at hrank
      rw [h.rank] at hrank
      exact hranked.injective a b (hin a ha) (hin b hb) hrank
    · refine (hsome x).trans ?_
      rw [h.isSome_iff, List.mem_append, List.mem_singleton, or_assoc, or_left_comm]
    · rw [List.mem_append, List.mem_singleton, not_or] at hx
      exact (update_of_ne hx.2 ..).trans (h.rest x hx.1)
  by_cases hsame : tree.parent v = some c
  · refine ⟨c, changed, fun fuel hfuel => ?_, hmeets, hduring, fun hc => ⟨hc, hsame⟩, Or.inl⟩
    have hself : update tree.parent v (some c) = tree.parent := by
      rw [← hsame]
      exact Function.update_eq_self v tree.parent
    rw [Dominators.process, hmeet fuel hfuel, hself]
    exact if_neg (not_not.mpr hsame)
  · refine ⟨c, true, fun fuel hfuel => ?_, hmeets, hduring, nofun, fun _ => Or.inr hsame⟩
    rw [Dominators.process, hmeet fuel hfuel]
    exact if_pos hsame

theorem fold_spec (hranked : Ranked (· ∈ order) predecessors (Dominators.ranks order) root)
    {old : Fin n → Option (Fin n)} (hold : ∀ x, (old x).isSome → x ∈ order)
    (hnodup : order.Nodup) (hsplit : order = before ++ after) (hroot : root ∈ before)
    (h : During order root old before tree) (changed : Bool) :
    ∃ tree' changed', (∀ fuel, 2 * n ≤ fuel →
        after.foldlM (Dominators.process fuel predecessors) (tree, changed) = some (tree', changed')) ∧
      Finishes predecessors order root old after tree changed tree' changed' := by
  induction after generalizing before tree changed with
  | nil =>
    rw [List.append_nil] at hsplit
    subst hsplit
    exact ⟨tree, changed, fun _ _ => rfl, h, fun _ _ => rfl, nofun, fun hc => ⟨hc, rfl⟩, Or.inl⟩
  | cons v after ih =>
    obtain ⟨c, changed₁, hprocess, hmeets, hduring, hunchanged, hchanged⟩ :=
      process_spec hranked hold hnodup hsplit hroot h changed
    obtain ⟨tree', changed', hfold, hfinishes⟩ := ih (hsplit.trans (by rw [List.append_assoc, List.singleton_append]))
      (List.mem_append_left _ hroot) hduring changed₁
    have hv : v ∉ after := by
      rw [hsplit] at hnodup
      exact (List.nodup_cons.mp (List.nodup_append.mp hnodup).2.1).1
    have hvparent : tree'.parent v = some c := by
      rw [hfinishes.same v hv]
      exact update_self ..
    refine ⟨tree', changed', fun fuel hfuel => ?_, hfinishes.during, fun x hx => ?_, fun w hw => ?_, fun hc => ?_,
      fun hc => ?_⟩
    · rw [List.foldlM_cons, hprocess fuel hfuel]
      exact hfold fuel hfuel
    · rw [List.mem_cons, not_or] at hx
      rw [hfinishes.same x hx.2]
      exact update_of_ne hx.1 ..
    · rcases List.mem_cons.mp hw with rfl | hw
      · refine ⟨c, hvparent, ?_⟩
        -- the tree in which the node was processed
        have htree : mixed (Dominators.ranks order) old tree'.parent w = tree.parent := by
          funext x
          rw [mixed]
          split
          · next hlt =>
              by_cases hxorder : x ∈ order
              · have hx := (ranks_lt_iff hnodup hsplit hxorder).mp hlt
                rw [hsplit] at hnodup
                have hxafter : x ∉ w :: after := fun hmem => (List.nodup_append.mp hnodup).2.2 x hx x hmem rfl
                rw [List.mem_cons, not_or] at hxafter
                rw [hfinishes.same x hxafter.2]
                exact update_of_ne hxafter.1 ..
              · rw [hsplit, List.mem_append, List.mem_cons, not_or, not_or] at hxorder
                rw [hfinishes.same x hxorder.2.2]
                exact update_of_ne hxorder.2.1 ..
          · next hge =>
              refine (h.rest x fun hx => hge ?_).symm
              refine (ranks_lt_iff hnodup hsplit ?_).mpr hx
              rw [hsplit]
              exact List.mem_append_left _ hx
        rw [htree]
        exact hmeets
      · exact hfinishes.meets w hw
    · obtain ⟨hc₁, htree⟩ := hfinishes.unchanged hc
      obtain ⟨hc₀, hsame⟩ := hunchanged hc₁
      refine ⟨hc₀, htree.trans ?_⟩
      rw [← hsame, Function.update_eq_self]
    · rcases hfinishes.changed hc with hc₁ | ⟨w, hw, hdiffers⟩
      · refine (hchanged hc₁).imp_right fun hdiffers => ⟨v, List.mem_cons_self, ?_⟩
        rw [hvparent]
        exact fun heq => hdiffers heq.symm
      · have hwv : w ≠ v := fun heq => hv (heq ▸ hw)
        exact Or.inr ⟨w, List.mem_cons_of_mem _ hw, fun heq =>
          hdiffers (heq.trans (update_of_ne hwv (some c) tree.parent).symm)⟩

/-- The provisional tree between rounds. -/
structure Provisional (order : List (Fin n)) (root : Fin n) (tree : Dominators n) : Prop where
  rank : tree.rank = Dominators.ranks order
  ancestors : tree.ancestors = []
  descending : Descending tree.parent (Dominators.ranks order) root
  mem : ∀ x, (tree.parent x).isSome → x ∈ order

/-- A round gives every node the nearest common ancestor of its predecessors. -/
theorem pass_spec (hranked : Ranked (· ∈ order) predecessors (Dominators.ranks order) root)
    (hordered : Ordered successors root order) (h : Provisional order root tree) :
    ∃ tree' changed, (∀ fuel, 2 * n ≤ fuel → Dominators.pass fuel predecessors order tree = some (tree', changed)) ∧
      Provisional order root tree' ∧ Spanning (· ∈ order) (Dominators.ranks order) root tree'.parent ∧
      Passed (· ∈ order) predecessors (Dominators.ranks order) root tree.parent tree'.parent ∧
      (changed = false → tree' = tree) ∧ (changed = true → ∃ v ∈ order, tree'.parent v ≠ tree.parent v) := by
  obtain ⟨rest, horder⟩ := hordered.eq_cons
  have hroot : (tree.parent root).isSome := by
    rw [h.descending.rootParent]
    rfl
  have hduring : During order root tree.parent [root] tree := by
    refine ⟨h.rank, h.ancestors, h.rank ▸ h.descending, fun x => ⟨Or.inr, ?_⟩, fun _ _ => rfl⟩
    rintro (hx | hx)
    · rw [List.mem_singleton.mp hx]
      exact hroot
    · exact hx
  obtain ⟨tree', changed, hfold, hfinishes⟩ := fold_spec hranked h.mem hordered.nodup
    (horder.trans (List.singleton_append ..).symm) (List.mem_singleton_self root) hduring false
  have hspanning : Spanning (· ∈ order) (Dominators.ranks order) root tree'.parent := by
    refine ⟨hfinishes.during.rank ▸ hfinishes.during.descending, fun x => ?_⟩
    rw [hfinishes.during.isSome_iff]
    exact ⟨fun hx => hx.elim id (h.mem x), Or.inl⟩
  refine ⟨tree', changed, fun fuel hfuel => ?_, ?_, hspanning, fun v hv hne => ?_, fun hc => (hfinishes.unchanged hc).2,
    fun hc => ?_⟩
  · rw [Dominators.pass, horder, List.tail_cons]
    exact hfold fuel hfuel
  · exact ⟨hfinishes.during.rank, hfinishes.during.ancestors, hspanning.descending,
      fun x hx => (hspanning.isSome_iff x).mp hx⟩
  · rw [horder] at hv
    exact hfinishes.meets v ((List.mem_cons.mp hv).resolve_left hne)
  · obtain ⟨v, hv, hdiffers⟩ := (hfinishes.changed hc).resolve_left nofun
    exact ⟨v, horder ▸ List.mem_cons_of_mem _ hv, hdiffers⟩

/-! ## The last round -/

/-- The finished provisional tree: no round changes it, and it has the nodes that paths cannot avoid. -/
structure Solved (successors predecessors : Fin n → List (Fin n)) (root : Fin n) (order : List (Fin n))
    (tree : Dominators n) : Prop where
  provisional : Provisional order root tree
  stage : Stage (· ∈ order) predecessors (Dominators.ranks order) root tree.parent
  contains : ∀ v s, v ∈ order → Dominates successors root s v → Above tree.parent v s
  passed : Passed (· ∈ order) predecessors (Dominators.ranks order) root tree.parent tree.parent

/-- The ranks of the parents. -/
def parentRanks (order : List (Fin n)) (parent : Fin n → Option (Fin n)) : Nat :=
  (order.map fun v => (parent v).elim 0 (Dominators.ranks order)).sum

/-- A round that changes something lowers the ranks of parents. -/
theorem parentRanks_lt (hranked : Ranked (· ∈ order) predecessors (Dominators.ranks order) root)
    {old new : Fin n → Option (Fin n)} (hold : Stage (· ∈ order) predecessors (Dominators.ranks order) root old)
    (hnew : Spanning (· ∈ order) (Dominators.ranks order) root new)
    (h : Passed (· ∈ order) predecessors (Dominators.ranks order) root old new)
    (hchanged : ∃ v ∈ order, new v ≠ old v) : parentRanks order new < parentRanks order old := by
  have hparents : ∀ v ∈ order, new v = old v ∨
      (new v).elim 0 (Dominators.ranks order) < (old v).elim 0 (Dominators.ranks order) := by
    intro v hv
    by_cases hne : v = root
    · rw [hne, hnew.descending.rootParent, hold.descending.rootParent]
      exact Or.inl rfl
    · obtain ⟨c, hc, -⟩ := h v hv hne
      obtain ⟨d, hd⟩ := Option.isSome_iff_exists.mp ((hold.isSome_iff v).mpr hv)
      have hlt := (hnew.descending.lower v c hc hne).1
      have habove := Passed.shrinks hranked hold hnew h hv (above_parent hc)
      rw [hc, hd]
      by_cases heq : c = d
      · exact Or.inl (by rw [heq])
      · refine Or.inr (hold.descending.rank_lt (((above_iff hd).mp habove).resolve_left fun hself => ?_) heq)
        rw [hself] at hlt
        exact absurd hlt (Nat.lt_irrefl _)
  obtain ⟨v, hv, hdiffers⟩ := hchanged
  refine List.sum_lt_sum _ _ (fun w hw => ?_) ⟨v, hv, (hparents v hv).resolve_left hdiffers⟩
  rcases hparents w hw with heq | hlt
  · rw [heq]
  · exact Nat.le_of_lt hlt

theorem solve_stage (hcons : ∀ a b, b ∈ successors a ↔ a ∈ predecessors b)
    (hordered : Ordered successors root order) (h : Provisional order root tree)
    (hstage : Stage (· ∈ order) predecessors (Dominators.ranks order) root tree.parent)
    (hcont : ∀ v s, v ∈ order → Dominates successors root s v → Above tree.parent v s) :
    ∃ tree' enough, (∀ fuel rounds, 2 * n ≤ fuel → enough ≤ rounds →
        Dominators.solve fuel predecessors order rounds tree = some tree') ∧
      Solved successors predecessors root order tree' := by
  have hranked := ranked_of_ordered hordered hcons
  generalize hmeasure : parentRanks order tree.parent = measure
  induction measure using Nat.strongRecOn generalizing tree with
  | ind measure ih =>
    obtain ⟨next, changed, hpass, hprovisional, hspanning, hpassed, hunchanged, hchanged⟩ :=
      pass_spec hranked hordered h
    cases changed with
    | false =>
      obtain rfl := hunchanged rfl
      refine ⟨next, 1, fun fuel rounds hfuel hrounds => ?_, h, hstage, hcont, hpassed⟩
      obtain ⟨rounds, rfl⟩ := Nat.exists_eq_succ_of_ne_zero (Nat.ne_of_gt hrounds)
      rw [Dominators.solve, hpass fuel hfuel]
      rfl
    | true =>
      have hlt := parentRanks_lt hranked hstage hspanning hpassed (hchanged rfl)
      obtain ⟨tree', enough, hsolve, hsolved⟩ := ih (parentRanks order next.parent) (hmeasure ▸ hlt) hprovisional
        (Passed.stage hranked hstage hspanning hpassed)
        (fun _ _ hv hs => Passed.contains hranked hstage hspanning hpassed
          (fun v s => Dominates successors root s v) (fun _ => Dominates.root_eq)
          (fun _ _ hdom hne p hp => hdom.of_edge hne ((hcons p _).mpr hp)) hcont hv hs) rfl
      refine ⟨tree', enough + 1, fun fuel rounds hfuel hrounds => ?_, hsolved⟩
      obtain ⟨rounds, rfl⟩ := Nat.exists_eq_succ_of_ne_zero
        (Nat.ne_of_gt (Nat.lt_of_lt_of_le (Nat.succ_pos _) hrounds))
      rw [Dominators.solve, hpass fuel hfuel]
      exact hsolve fuel rounds hfuel (Nat.le_of_succ_le_succ hrounds)

/-- The tree before the first round: only the root has a parent. -/
def provisional (order : List (Fin n)) (root : Fin n) : Dominators n :=
  ⟨update (fun _ => none) root (some root), Dominators.ranks order, fun _ => (0, 0), []⟩

theorem provisional_isSome (x : Fin n) : ((provisional order root).parent x).isSome ↔ x = root := by
  show (update (fun _ => none) root (some root) x).isSome ↔ x = root
  by_cases hx : x = root
  · subst hx
    rw [update_self]
    exact ⟨fun _ => rfl, fun _ => rfl⟩
  · rw [update_of_ne hx]
    exact ⟨nofun, fun h => absurd h hx⟩

theorem provisional_spec (hordered : Ordered successors root order) :
    Provisional order root (provisional order root) := by
  have hroot : (provisional order root).parent root = some root := by
    show update (fun _ => none) root (some root) root = some root
    rw [update_self]
  have heq : ∀ x, ((provisional order root).parent x).isSome → x = root := fun x => (provisional_isSome x).mp
  obtain ⟨rest, horder⟩ := hordered.eq_cons
  refine ⟨rfl, rfl, ⟨hroot, fun b a hb hne => ?_, fun a b ha hb _ => (heq a ha).trans (heq b hb).symm⟩, fun x hx => ?_⟩
  · exact absurd (heq b (by rw [hb]; rfl)) hne
  · rw [heq x hx, horder]
    exact List.mem_cons_self

/-- The rounds end. -/
theorem solve_spec (hcons : ∀ a b, b ∈ successors a ↔ a ∈ predecessors b)
    (hordered : Ordered successors root order) :
    ∃ tree enough, (∀ fuel rounds, 2 * n ≤ fuel → enough ≤ rounds →
        Dominators.solve fuel predecessors order rounds (provisional order root) = some tree) ∧
      Solved successors predecessors root order tree := by
  have hranked := ranked_of_ordered hordered hcons
  obtain ⟨next, changed, hpass, hprovisional, hspanning, hpassed, hunchanged, -⟩ :=
    pass_spec hranked hordered (provisional_spec hordered)
  have hstage := Passed.first_stage hranked provisional_isSome hspanning hpassed
  have hcont : ∀ v s, v ∈ order → Dominates successors root s v → Above next.parent v s := fun _ _ hv hs =>
    Passed.first_contains hranked provisional_isSome hspanning hpassed (fun v s => Dominates successors root s v)
      (fun _ => Dominates.root_eq) (fun _ _ hdom hne p hp => hdom.of_edge hne ((hcons p _).mpr hp)) hv hs
  cases changed with
  | false =>
    have hsame := hunchanged rfl
    rw [← hsame] at hpassed
    refine ⟨next, 1, fun fuel rounds hfuel hrounds => ?_, hprovisional, hstage, hcont, hpassed⟩
    obtain ⟨rounds, rfl⟩ := Nat.exists_eq_succ_of_ne_zero (Nat.ne_of_gt hrounds)
    rw [Dominators.solve, hpass fuel hfuel]
    rfl
  | true =>
    obtain ⟨tree, enough, hsolve, hsolved⟩ := solve_stage hcons hordered hprovisional hstage hcont
    refine ⟨tree, enough + 1, fun fuel rounds hfuel hrounds => ?_, hsolved⟩
    obtain ⟨rounds, rfl⟩ := Nat.exists_eq_succ_of_ne_zero
      (Nat.ne_of_gt (Nat.lt_of_lt_of_le (Nat.succ_pos _) hrounds))
    rw [Dominators.solve, hpass fuel hfuel]
    exact hsolve fuel rounds hfuel (Nat.le_of_succ_le_succ hrounds)

/-- Ancestors in the finished tree are dominators. -/
theorem above_iff_dominates (hcons : ∀ a b, b ∈ successors a ↔ a ∈ predecessors b)
    (hordered : Ordered successors root order)
    (h : Solved successors predecessors root order tree) {v s : Fin n} (hv : Reachable successors root v) :
    Above tree.parent v s ↔ Dominates successors root s v := by
  refine ⟨fun habove nodes hpath => ?_, h.contains v s ((hordered.mem_iff v).mpr hv)⟩
  have hdesc := h.stage.descending
  induction hpath with
  | root => exact List.mem_singleton.mpr (hdesc.above_root habove)
  | @step a b nodes hpath hedge ih =>
    by_cases heq : s = b
    · rw [heq]
      exact List.mem_cons_self
    · have hne : b ≠ root := by
        rintro rfl
        exact heq (hdesc.above_root habove)
      have ha : Reachable successors root a := ⟨nodes, hpath⟩
      obtain ⟨c, hc, -, hmeets⟩ := h.passed b ((hordered.mem_iff b).mpr hv) hne
      have hself : mixed (Dominators.ranks order) tree.parent tree.parent b = tree.parent := by
        funext x
        exact ite_self _
      rw [hself] at hmeets
      have hcs := ((above_iff hc).mp habove).resolve_left fun h => heq h.symm
      refine List.mem_cons_of_mem _ (ih ha ((hmeets s).mp hcs a ((hcons a b).mp hedge) ?_))
      exact (h.stage.isSome_iff a).mpr ((hordered.mem_iff a).mpr ha)

end Relocade.Compiler.Place
