import Mathlib.Logic.Relation
import Relocade.Compiler.Place.Dominance

/-!
# `Compiler.Place.Ancestors` — ancestors in the provisional tree

Parents have lower ranks than their nodes, so that climbing from two nodes, always from the one of higher rank, ends at
their nearest common ancestor.
-/

namespace Relocade.Compiler.Place

variable {n : Nat} {parent : Fin n → Option (Fin n)} {rank : Fin n → Nat} {root : Fin n}

/-- `a` is `b` or an ancestor of `b`. -/
def Above (parent : Fin n → Option (Fin n)) : Fin n → Fin n → Prop :=
  Relation.ReflTransGen fun b a => parent b = some a

/-- A tree whose parents have lower ranks. -/
structure Descending (parent : Fin n → Option (Fin n)) (rank : Fin n → Nat) (root : Fin n) : Prop where
  rootParent : parent root = some root
  lower : ∀ b a, parent b = some a → b ≠ root → rank a < rank b ∧ (parent a).isSome
  injective : ∀ a b, (parent a).isSome → (parent b).isSome → rank a = rank b → a = b

theorem Above.refl (b : Fin n) : Above parent b b := Relation.ReflTransGen.refl

variable {a b c : Fin n}

theorem Above.trans (h : Above parent c b) (h' : Above parent b a) : Above parent c a :=
  Relation.ReflTransGen.trans h h'

theorem above_iff (hparent : parent b = some c) : Above parent b a ↔ b = a ∨ Above parent c a := by
  rw [Above, Relation.ReflTransGen.cases_head_iff]
  refine or_congr_right ⟨?_, fun h => ⟨c, hparent, h⟩⟩
  rintro ⟨d, hd, habove⟩
  rw [hparent] at hd
  cases hd
  exact habove

theorem above_parent {b c : Fin n} (hparent : parent b = some c) : Above parent b c :=
  Relation.ReflTransGen.single hparent

/-- Ancestors of one node are ancestors of each other. -/
theorem above_total (ha : Above parent c a) (hb : Above parent c b) : Above parent a b ∨ Above parent b a :=
  Relation.ReflTransGen.total_of_right_unique (fun _ _ _ h h' => Option.some.inj (h.symm.trans h')) ha hb

namespace Descending

variable (h : Descending parent rank root)

include h

theorem above_root {a : Fin n} (habove : Above parent root a) : a = root := by
  induction habove with
  | refl => rfl
  | tail _ hstep ih =>
    subst ih
    rw [h.rootParent] at hstep
    exact (Option.some.inj hstep).symm

variable {a b : Fin n}

theorem rank_lt (habove : Above parent b a) (hne : a ≠ b) : rank a < rank b := by
  induction habove using Relation.ReflTransGen.head_induction_on with
  | refl => exact absurd rfl hne
  | @head b c hstep habove ih =>
    by_cases hroot : b = root
    · subst hroot
      rw [h.rootParent] at hstep
      cases hstep
      exact ih hne
    · have hlt := (h.lower b c hstep hroot).1
      by_cases heq : a = c
      · rw [heq]
        exact hlt
      · exact (ih heq).trans hlt

theorem rank_le (habove : Above parent b a) : rank a ≤ rank b := by
  by_cases heq : a = b
  · rw [heq]
  · exact Nat.le_of_lt (h.rank_lt habove heq)

theorem isSome (habove : Above parent b a) (hb : (parent b).isSome) : (parent a).isSome := by
  induction habove with
  | refl => exact hb
  | @tail c d _ hstep ih =>
    by_cases hroot : c = root
    · subst hroot
      rw [h.rootParent] at hstep
      cases hstep
      rw [h.rootParent]
      rfl
    · exact (h.lower c d hstep hroot).2

theorem antisymm (hab : Above parent a b) (hba : Above parent b a) : a = b := by
  by_contra hne
  exact absurd (h.rank_lt hba hne) (Nat.not_lt.mpr (h.rank_le hab))

/-- The root is above every node with a parent. -/
theorem root_above {b : Fin n} (hb : (parent b).isSome) : Above parent b root := by
  generalize hr : rank b = r
  induction r using Nat.strongRecOn generalizing b with
  | ind r ih =>
    by_cases hroot : b = root
    · rw [hroot]
      exact .refl root
    · obtain ⟨c, hc⟩ := Option.isSome_iff_exists.mp hb
      obtain ⟨hlt, hsome⟩ := h.lower b c hc hroot
      exact (above_parent hc).trans (ih (rank c) (hr ▸ hlt) hsome rfl)

end Descending

/-! ## Nearest common ancestors -/

namespace Dominators

variable {tree : Dominators n}

/-- Climbing ends at the nearest common ancestor. -/
theorem climb_spec (h : Descending tree.parent tree.rank root) {a b : Fin n} (ha : (tree.parent a).isSome)
    (hb : (tree.parent b).isSome) :
    ∃ c, (∀ fuel, tree.rank a + tree.rank b < fuel → tree.climb fuel a b = some c) ∧ (tree.parent c).isSome ∧
      ∀ s, Above tree.parent c s ↔ Above tree.parent a s ∧ Above tree.parent b s := by
  generalize hr : tree.rank a + tree.rank b = r
  induction r using Nat.strongRecOn generalizing a b with
  | ind r ih =>
    by_cases heq : a = b
    · subst heq
      refine ⟨a, fun fuel hfuel => ?_, ha, fun s => and_self_iff.symm⟩
      obtain ⟨fuel, rfl⟩ := Nat.exists_eq_succ_of_ne_zero (Nat.ne_of_gt (Nat.lt_of_le_of_lt (Nat.zero_le _) hfuel))
      rw [climb, if_pos rfl]
    · have hranks : tree.rank a ≠ tree.rank b := fun hrank => heq (h.injective a b ha hb hrank)
      by_cases hlt : tree.rank b < tree.rank a
      · -- the node of higher rank is not above the other
        obtain ⟨d, hd⟩ := Option.isSome_iff_exists.mp ha
        have hroot : a ≠ root := fun hroot => by
          have := h.rank_le (h.root_above hb)
          rw [hroot] at hlt
          omega
        obtain ⟨hrank, hsome⟩ := h.lower a d hd hroot
        obtain ⟨c, hclimb, hc, habove⟩ := ih (tree.rank d + tree.rank b) (by omega) hsome hb rfl
        refine ⟨c, fun fuel hfuel => ?_, hc, fun s => ?_⟩
        · obtain ⟨fuel, rfl⟩ := Nat.exists_eq_succ_of_ne_zero
            (Nat.ne_of_gt (Nat.lt_of_le_of_lt (Nat.zero_le _) hfuel))
          rw [climb, if_neg heq, if_pos hlt, hd]
          exact hclimb fuel (by omega)
        · rw [habove, above_iff hd]
          refine ⟨fun hs => ⟨Or.inr hs.1, hs.2⟩, fun hs => ⟨hs.1.resolve_left fun hself => ?_, hs.2⟩⟩
          subst hself
          exact absurd (h.rank_le hs.2) (Nat.not_le.mpr hlt)
      · obtain ⟨d, hd⟩ := Option.isSome_iff_exists.mp hb
        have hroot : b ≠ root := fun hroot => by
          have := h.rank_le (h.root_above ha)
          rw [hroot] at hlt hranks
          omega
        obtain ⟨hrank, hsome⟩ := h.lower b d hd hroot
        obtain ⟨c, hclimb, hc, habove⟩ := ih (tree.rank a + tree.rank d) (by omega) ha hsome rfl
        refine ⟨c, fun fuel hfuel => ?_, hc, fun s => ?_⟩
        · obtain ⟨fuel, rfl⟩ := Nat.exists_eq_succ_of_ne_zero
            (Nat.ne_of_gt (Nat.lt_of_le_of_lt (Nat.zero_le _) hfuel))
          rw [climb, if_neg heq, if_neg hlt, hd]
          exact hclimb fuel (by omega)
        · rw [habove, above_iff hd]
          refine ⟨fun hs => ⟨hs.1, Or.inr hs.2⟩, fun hs => ⟨hs.1, hs.2.resolve_left fun hself => ?_⟩⟩
          subst hself
          have := h.rank_le hs.1
          omega

/-- The nodes above every predecessor that has a parent are those above their nearest common ancestor. -/
def Meets (parent : Fin n → Option (Fin n)) (nodes : List (Fin n)) (c : Fin n) : Prop :=
  (parent c).isSome ∧ ∀ s, Above parent c s ↔ ∀ p ∈ nodes, (parent p).isSome → Above parent p s

theorem meet_from (h : Descending tree.parent tree.rank root) (hancestors : tree.ancestors = []) {bound : Nat}
    (hbound : ∀ a b, (tree.parent a).isSome → (tree.parent b).isSome → tree.rank a + tree.rank b < bound)
    (nodes before : List (Fin n)) {c : Fin n} (hc : Meets tree.parent before c) :
    ∃ d, (∀ fuel, bound ≤ fuel → nodes.foldlM (tree.meetStep fuel) (some c) = some (some d)) ∧
      Meets tree.parent (before ++ nodes) d := by
  induction nodes generalizing before c with
  | nil =>
    rw [List.append_nil]
    exact ⟨c, fun _ _ => rfl, hc⟩
  | cons p nodes ih =>
    have happend : before ++ p :: nodes = before ++ [p] ++ nodes := by rw [List.append_assoc, List.singleton_append]
    rw [happend]
    by_cases hp : (tree.parent p).isSome
    · obtain ⟨d, hclimb, hd, habove⟩ := climb_spec h hc.1 hp
      have hmeets : Meets tree.parent (before ++ [p]) d := by
        refine ⟨hd, fun s => ?_⟩
        rw [habove, hc.2]
        constructor
        · rintro ⟨hbef, hs⟩ q hq hsome
          rcases List.mem_append.mp hq with hq | hq
          · exact hbef q hq hsome
          · rw [List.mem_singleton.mp hq]
            exact hs
        · intro hs
          exact ⟨fun q hq => hs q (List.mem_append_left _ hq),
            hs p (List.mem_append_right _ (List.mem_singleton_self p)) hp⟩
      obtain ⟨e, hfold, he⟩ := ih (before ++ [p]) hmeets
      refine ⟨e, fun fuel hfuel => ?_, he⟩
      have hcommon : tree.common fuel c p = some d := by
        rw [common, if_neg, hancestors]
        · exact hclimb fuel (Nat.lt_of_lt_of_le (hbound c p hc.1 hp) hfuel)
        · rintro (hnone | hnone)
          · have hsome := hc.1
            rw [Option.isNone_iff_eq_none.mp hnone] at hsome
            cases hsome
          · rw [Option.isNone_iff_eq_none.mp hnone] at hp
            cases hp
      rw [List.foldlM_cons, meetStep, if_pos hp, hcommon]
      exact hfold fuel hfuel
    · have hmeets : Meets tree.parent (before ++ [p]) c := by
        refine ⟨hc.1, fun s => ?_⟩
        rw [hc.2]
        constructor
        · intro hs q hq hsome
          rcases List.mem_append.mp hq with hq | hq
          · exact hs q hq hsome
          · rw [List.mem_singleton.mp hq] at hsome
            exact absurd hsome hp
        · exact fun hs q hq => hs q (List.mem_append_left _ hq)
      obtain ⟨e, hfold, he⟩ := ih (before ++ [p]) hmeets
      refine ⟨e, fun fuel hfuel => ?_, he⟩
      rw [List.foldlM_cons, meetStep, if_neg hp]
      exact hfold fuel hfuel

/-- With a predecessor that has a parent, there is a nearest common ancestor. -/
theorem meet_spec (h : Descending tree.parent tree.rank root) (hancestors : tree.ancestors = []) {bound : Nat}
    (hbound : ∀ a b, (tree.parent a).isSome → (tree.parent b).isSome → tree.rank a + tree.rank b < bound)
    {nodes : List (Fin n)} {q : Fin n} (hq : q ∈ nodes) (hsome : (tree.parent q).isSome) :
    ∃ c, (∀ fuel, bound ≤ fuel → tree.meet fuel nodes = some (some c)) ∧ Meets tree.parent nodes c := by
  induction nodes with
  | nil => cases hq
  | cons p nodes ih =>
    by_cases hp : (tree.parent p).isSome
    · have hmeets : Meets tree.parent [p] p := by
        refine ⟨hp, fun s => ⟨fun hs r hr _ => ?_, fun hs => hs p (List.mem_singleton_self p) hp⟩⟩
        rw [List.mem_singleton.mp hr]
        exact hs
      obtain ⟨c, hfold, hc⟩ := meet_from h hancestors hbound nodes [p] hmeets
      refine ⟨c, fun fuel hfuel => ?_, hc⟩
      rw [meet, List.foldlM_cons, meetStep, if_pos hp]
      exact hfold fuel hfuel
    · have hrest : q ∈ nodes := (List.mem_cons.mp hq).resolve_left fun heq => hp (heq ▸ hsome)
      obtain ⟨c, hfold, hc, habove⟩ := ih hrest
      refine ⟨c, fun fuel hfuel => ?_, hc, fun s => ?_⟩
      · rw [meet, List.foldlM_cons, meetStep, if_neg hp]
        exact hfold fuel hfuel
      · rw [habove]
        constructor
        · intro hs r hr hrsome
          exact hs r ((List.mem_cons.mp hr).resolve_left fun heq => hp (heq ▸ hrsome)) hrsome
        · exact fun hs r hr => hs r (List.mem_cons_of_mem _ hr)

end Dominators

end Relocade.Compiler.Place
