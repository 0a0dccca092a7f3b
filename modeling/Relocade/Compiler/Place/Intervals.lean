import Mathlib.Logic.Function.Iterate
import Relocade.Compiler.Place.Ancestors
import Relocade.Compiler.Place.DepthFirst

/-!
# `Compiler.Place.Intervals` — intervals and ancestor tables of the finished tree

A walk over the tree numbers every subtree with an interval, so that one node is above another when its interval
encloses the other's. Halving steps through the tables of ancestors find the nearest common ancestor.
-/

namespace Relocade.Compiler.Place

open Function (update update_self update_of_ne)
open Dominators (Numbering)

variable {n : Nat} {parent : Fin n → Option (Fin n)} {rank : Fin n → Nat} {root : Fin n}

/-! ## Subtrees -/

/-- A node's subtree is the node and the subtrees of its children. -/
theorem above_iff_child {x v : Fin n} :
    Above parent x v ↔ x = v ∨ ∃ c, parent c = some v ∧ c ≠ v ∧ Above parent x c := by
  constructor
  · intro h
    induction h using Relation.ReflTransGen.head_induction_on with
    | refl => exact Or.inl rfl
    | @head x y hstep _ ih =>
      by_cases hx : x = v
      · exact Or.inl hx
      · rcases ih with rfl | ⟨c, hc, hne, hy⟩
        · exact Or.inr ⟨x, hstep, hx, .refl x⟩
        · exact Or.inr ⟨c, hc, hne, (above_parent hstep).trans hy⟩
  · rintro (rfl | ⟨c, hc, -, hx⟩)
    · exact .refl x
    · exact hx.trans (above_parent hc)

/-- The subtrees of two children do not meet. -/
theorem Descending.children_apart (h : Descending parent rank root) {v c d x : Fin n} (hc : parent c = some v)
    (hcv : c ≠ v) (hd : parent d = some v) (hdv : d ≠ v) (hxc : Above parent x c) (hxd : Above parent x d) : c = d := by
  have hlow : ∀ {c d : Fin n}, parent c = some v → parent d = some v → d ≠ v → Above parent c d → c = d := by
    intro c d hc hd hdv hcd
    rcases (above_iff hc).mp hcd with heq | hvd
    · exact heq
    · have hroot : d ≠ root := by
        rintro rfl
        rw [h.rootParent] at hd
        exact hdv (Option.some.inj hd)
      exact absurd (h.rank_le hvd) (Nat.not_le.mpr (h.lower d v hd hroot).1)
  rcases above_total hxc hxd with hcd | hdc
  · exact hlow hc hd hdv hcd
  · exact (hlow hd hc hcv hdc).symm

/-! ## Intervals -/

/-- The nodes of a set were numbered from one clock to another. -/
structure Numbered (parent : Fin n → Option (Fin n)) (nodes : Fin n → Prop) (old new : Fin n → Nat × Nat)
    (start finish : Nat) : Prop where
  le : start ≤ finish
  same : ∀ x, ¬ nodes x → new x = old x
  within : ∀ x, nodes x → start ≤ (new x).1 ∧ (new x).1 < (new x).2 ∧ (new x).2 ≤ finish
  encloses : ∀ a b, nodes a → nodes b → ((new a).1 ≤ (new b).1 ∧ (new b).1 < (new a).2 ↔ Above parent b a)

/-- Numbering one set after another. -/
theorem Numbered.append {nodes nodes' : Fin n → Prop} {old middle new : Fin n → Nat × Nat} {start between finish : Nat}
    (h : Numbered parent nodes old middle start between) (h' : Numbered parent nodes' middle new between finish)
    (hapart : ∀ x, nodes x → ¬ nodes' x)
    (hacross : ∀ a b, nodes a → nodes' b → ¬ Above parent b a ∧ ¬ Above parent a b) :
    Numbered parent (fun x => nodes x ∨ nodes' x) old new start finish := by
  have hold : ∀ x, nodes x → new x = middle x := fun x hx => h'.same x (hapart x hx)
  refine ⟨h.le.trans h'.le, fun x hx => ?_, fun x hx => ?_, fun a b ha hb => ?_⟩
  · rw [not_or] at hx
    rw [h'.same x hx.2, h.same x hx.1]
  · rcases hx with hx | hx
    · obtain ⟨hst, hlt, hend⟩ := h.within x hx
      rw [hold x hx]
      exact ⟨hst, hlt, hend.trans h'.le⟩
    · obtain ⟨hst, hlt, hend⟩ := h'.within x hx
      exact ⟨h.le.trans hst, hlt, hend⟩
  · rcases ha with ha | ha <;> rcases hb with hb | hb
    · rw [hold a ha, hold b hb]
      exact h.encloses a b ha hb
    · have hwithin := h.within a ha
      have hwithin' := h'.within b hb
      rw [hold a ha]
      exact ⟨fun henc => by omega, fun habove => absurd habove (hacross a b ha hb).1⟩
    · have hwithin := h'.within a ha
      have hwithin' := h.within b hb
      rw [hold b hb]
      exact ⟨fun henc => by omega, fun habove => absurd habove (hacross b a hb ha).2⟩
    · exact h'.encloses a b ha hb

/-- Numbering nothing. -/
theorem Numbered.empty (ivls : Fin n → Nat × Nat) (clock : Nat) :
    Numbered parent (fun _ => False) ivls ivls clock clock :=
  ⟨Nat.le_refl _, fun _ _ => rfl, fun _ h => h.elim, fun _ _ h => h.elim⟩

/-- A node is entered before its children and left after them. -/
theorem Numbered.node {v : Fin n} {old new : Fin n → Nat × Nat} {clock finish : Nat} (second : Nat)
    (h : Numbered parent (fun x => ∃ c, parent c = some v ∧ c ≠ v ∧ Above parent x c)
      (update old v (clock, second)) new (clock + 1) finish)
    (hself : ∀ c, parent c = some v → c ≠ v → ¬ Above parent v c) :
    Numbered parent (fun x => Above parent x v) old (update new v ((new v).1, finish)) clock finish := by
  have hvnot : ¬ ∃ c, parent c = some v ∧ c ≠ v ∧ Above parent v c := fun ⟨c, hc, hne, habove⟩ =>
    hself c hc hne habove
  have hv : new v = (clock, second) := by
    rw [h.same v hvnot, update_self]
  have hfinish := h.le
  refine ⟨by omega, fun x hx => ?_, fun x hx => ?_, fun a b ha hb => ?_⟩
  · have hne : x ≠ v := by
      rintro rfl
      exact hx (.refl x)
    rw [update_of_ne hne, h.same x (fun hin => hx (above_iff_child.mpr (Or.inr hin))),
      update_of_ne hne]
  · by_cases hne : x = v
    · rw [hne, update_self, hv]
      exact ⟨Nat.le_refl _, hfinish, Nat.le_refl _⟩
    · obtain ⟨hst, hlt, hend⟩ := h.within x ((above_iff_child.mp hx).resolve_left hne)
      rw [update_of_ne hne]
      exact ⟨by omega, hlt, hend⟩
  · by_cases hav : a = v
    · subst hav
      rw [update_self, hv]
      refine ⟨fun _ => hb, fun _ => ?_⟩
      by_cases hba : b = a
      · rw [hba, update_self]
        exact ⟨Nat.le_refl _, hfinish⟩
      · obtain ⟨hst, hlt, hend⟩ := h.within b ((above_iff_child.mp hb).resolve_left hba)
        rw [update_of_ne hba]
        constructor
        · dsimp only
          omega
        · dsimp only
          omega
    · have hain := (above_iff_child.mp ha).resolve_left hav
      rw [update_of_ne hav]
      by_cases hbv : b = v
      · have hwithin := h.within a hain
        rw [hbv, update_self, hv]
        refine ⟨fun henc => ?_, fun habove => ?_⟩
        · dsimp only at henc
          omega
        · obtain ⟨c, hc, hne, hac⟩ := hain
          exact absurd (habove.trans hac) (hself c hc hne)
      · rw [update_of_ne hbv]
        exact h.encloses a b hain ((above_iff_child.mp hb).resolve_left hbv)

/-- A walk over a part of the tree. -/
def Runs (tree : Dominators n) : Numbering n → Numbering n → Prop :=
  Relation.ReflTransGen fun s s' => s.step tree = some s'

section Walk

variable {tree : Dominators n}

theorem mem_children {v c : Fin n} : c ∈ tree.children v ↔ tree.parent c = some v ∧ c ≠ v := by
  rw [Dominators.children, List.mem_filter]
  exact ⟨fun h => of_decide_eq_true h.2, fun h => ⟨List.mem_finRange c, decide_eq_true h⟩⟩

/-- Nodes are walked one after another. -/
theorem forest_spec (h : Descending tree.parent rank root) {v : Fin n} {nodes : List (Fin n)}
    (hnodes : ∀ c ∈ nodes, tree.parent c = some v ∧ c ≠ v) (hnodup : nodes.Nodup)
    (hvisit : ∀ c ∈ nodes, ∀ ivls rest clock, ∃ intervals' clock',
      Runs tree ⟨ivls, (c, false) :: rest, clock⟩ ⟨intervals', rest, clock'⟩ ∧
        Numbered tree.parent (fun x => Above tree.parent x c) ivls intervals' clock clock')
    (ivls : Fin n → Nat × Nat) (rest : List (Fin n × Bool)) (clock : Nat) :
    ∃ intervals' clock',
      Runs tree ⟨ivls, nodes.map (fun c => (c, false)) ++ rest, clock⟩ ⟨intervals', rest, clock'⟩ ∧
        Numbered tree.parent (fun x => ∃ c ∈ nodes, Above tree.parent x c) ivls intervals' clock clock' := by
  induction nodes generalizing ivls clock with
  | nil =>
    refine ⟨ivls, clock, .refl, ?_⟩
    have hemp : (fun x => ∃ c ∈ ([] : List (Fin n)), Above tree.parent x c) = fun _ => False := by
      funext x
      exact propext ⟨fun ⟨_, hc, _⟩ => (nomatch hc), fun h => h.elim⟩
    rw [hemp]
    exact .empty ivls clock
  | cons c nodes ih =>
    obtain ⟨hc, hnodup⟩ := List.nodup_cons.mp hnodup
    obtain ⟨hcv, hne⟩ := hnodes c List.mem_cons_self
    obtain ⟨middle, between, hfst, hnumbered⟩ := hvisit c List.mem_cons_self ivls
      (nodes.map (fun c => (c, false)) ++ rest) clock
    obtain ⟨intervals', clock', hrest, hnumbered'⟩ := ih (fun d hd => hnodes d (List.mem_cons_of_mem _ hd)) hnodup
      (fun d hd => hvisit d (List.mem_cons_of_mem _ hd)) middle between
    have hunion : (fun x => ∃ d ∈ c :: nodes, Above tree.parent x d) =
        fun x => Above tree.parent x c ∨ ∃ d ∈ nodes, Above tree.parent x d := by
      funext x
      exact propext (List.exists_mem_cons_iff _ _ _)
    -- no node is in the subtrees of two children
    have hmeet : ∀ x, Above tree.parent x c → ¬ ∃ d ∈ nodes, Above tree.parent x d := by
      rintro x hx ⟨d, hd, hxd⟩
      obtain ⟨hdv, hdne⟩ := hnodes d (List.mem_cons_of_mem _ hd)
      exact hc (h.children_apart hcv hne hdv hdne hx hxd ▸ hd)
    refine ⟨intervals', clock', hfst.trans hrest, ?_⟩
    rw [hunion]
    refine hnumbered.append hnumbered' hmeet fun a b ha hb => ⟨fun habove => ?_, fun habove => ?_⟩
    · exact hmeet b (habove.trans ha) hb
    · obtain ⟨d, hd, hbd⟩ := hb
      exact hmeet a ha ⟨d, hd, habove.trans hbd⟩

/-- Entering a node numbers its subtree. -/
theorem enter_spec (h : Descending tree.parent rank root) (hrank : ∀ x, (tree.parent x).isSome → rank x < n)
    {v : Fin n} (hv : (tree.parent v).isSome) (ivls : Fin n → Nat × Nat) (rest : List (Fin n × Bool))
    (clock : Nat) :
    ∃ intervals' clock', Runs tree ⟨ivls, (v, false) :: rest, clock⟩ ⟨intervals', rest, clock'⟩ ∧
      Numbered tree.parent (fun x => Above tree.parent x v) ivls intervals' clock clock' := by
  generalize hm : n - rank v = m
  induction m using Nat.strongRecOn generalizing v ivls rest clock with
  | ind m ih =>
    have hlower : ∀ c, tree.parent c = some v → c ≠ v → rank v < rank c := by
      intro c hc hne
      refine (h.lower c v hc ?_).1
      rintro rfl
      rw [h.rootParent] at hc
      exact hne (Option.some.inj hc)
    obtain ⟨middle, finish, hforest, hnumbered⟩ := forest_spec h (v := v) (fun c hc => mem_children.mp hc)
      ((List.nodup_finRange n).filter _) (fun c hc ivls rest clock => by
        obtain ⟨hcv, hne⟩ := mem_children.mp hc
        have hlt := hlower c hcv hne
        have hsome : (tree.parent c).isSome := by rw [hcv]; rfl
        have hlarge := hrank v hv
        exact ih (n - rank c) (by omega) hsome ivls rest clock rfl)
      (update ivls v (clock, (ivls v).2)) ((v, true) :: rest) (clock + 1)
    have hsets : (fun x => ∃ c ∈ tree.children v, Above tree.parent x c) =
        fun x => ∃ c, tree.parent c = some v ∧ c ≠ v ∧ Above tree.parent x c := by
      funext x
      refine propext (exists_congr fun c => ?_)
      rw [mem_children, and_assoc]
    rw [hsets] at hnumbered
    have hself : ∀ c, tree.parent c = some v → c ≠ v → ¬ Above tree.parent v c := fun c hc hne habove =>
      absurd (h.rank_le habove) (Nat.not_le.mpr (hlower c hc hne))
    refine ⟨_, finish, ?_, hnumbered.node _ hself⟩
    have henter : Runs tree ⟨ivls, (v, false) :: rest, clock⟩
        ⟨update ivls v (clock, (ivls v).2),
          (tree.children v).map (fun c => (c, false)) ++ (v, true) :: rest, clock + 1⟩ :=
      Relation.ReflTransGen.single rfl
    have hleave : Runs tree ⟨middle, (v, true) :: rest, finish⟩
        ⟨update middle v ((middle v).1, finish), rest, finish⟩ := Relation.ReflTransGen.single rfl
    exact (henter.trans hforest).trans hleave

end Walk

/-! ## Tables of ancestors -/

/-- The parent, or the node itself when it has none. -/
def up (parent : Fin n → Option (Fin n)) (x : Fin n) : Fin n := (parent x).getD x

/-- The tables lead up by powers of two. -/
def Tables (parent : Fin n → Option (Fin n)) (ancestors : List (Fin n → Fin n)) : Prop :=
  ∀ (k : Nat) (table : Fin n → Fin n), ancestors[k]? = some table → table = (up parent)^[2 ^ k]

theorem tables_double {ancestors : List (Fin n → Fin n)} {prev : Fin n → Fin n}
    (h : Tables parent (ancestors ++ [prev])) :
    Tables parent (ancestors ++ [prev] ++ [fun x => prev (prev x)]) := by
  intro k table hk
  rcases Nat.lt_or_ge k (ancestors ++ [prev]).length with hlt | hge
  · rw [List.getElem?_append_left hlt] at hk
    exact h k table hk
  · rw [List.getElem?_append_right hge] at hk
    have hlast : k = ancestors.length + 1 := by
      have := (List.getElem?_eq_some_iff.mp hk).1
      rw [List.length_append, List.length_singleton] at hge this
      rw [List.length_singleton] at this
      omega
    subst hlast
    rw [List.length_append, List.length_singleton, Nat.sub_self] at hk
    cases hk
    rw [h ancestors.length prev (List.getElem?_concat_length ..), Nat.pow_succ, Nat.mul_two, Function.iterate_add]
    rfl

theorem double_cases {ancestors ancestors' : List (Fin n → Fin n)}
    (h : Dominators.double ancestors = some ancestors') :
    2 ^ ancestors.length < n ∧ ∃ before previous, ancestors = before ++ [previous] ∧
      ancestors' = ancestors ++ [fun x => previous (previous x)] := by
  rw [Dominators.double] at h
  split at h
  · next hlt =>
      obtain ⟨previous, hlast, rfl⟩ := Option.map_eq_some_iff.mp h
      obtain ⟨before, hbef⟩ := List.getLast?_eq_some_iff.mp hlast
      exact ⟨hlt, before, previous, hbef, rfl⟩
  · cases h

theorem tables_up : Tables parent [fun x => (parent x).getD x] := by
  intro k table hk
  cases k with
  | zero =>
    cases hk
    rfl
  | succ k => cases hk

/-- Doubling ends when the tables reach across every tree. -/
theorem double_spec (parent : Fin n → Option (Fin n)) :
    ∃ ancestors, (∃ enough, ∀ fuel, enough ≤ fuel →
        repeatWhile Dominators.double fuel [fun x => (parent x).getD x] = some ancestors) ∧
      Tables parent ancestors ∧ ancestors ≠ [] ∧ n ≤ 2 ^ ancestors.length := by
  have hstep : ∀ ancestors ancestors' : List (Fin n → Fin n), Tables parent ancestors ∧ ancestors ≠ [] →
      Dominators.double ancestors = some ancestors' →
      (Tables parent ancestors' ∧ ancestors' ≠ []) ∧ n - ancestors'.length < n - ancestors.length := by
    intro ancestors ancestors' hinv hdouble
    obtain ⟨hlt, before, previous, rfl, rfl⟩ := double_cases hdouble
    have hlen : (before ++ [previous]).length < 2 ^ (before ++ [previous]).length := Nat.lt_two_pow_self
    refine ⟨⟨tables_double hinv.1, List.concat_ne_nil _ _⟩, ?_⟩
    have hlonger : (before ++ [previous] ++ [fun x => previous (previous x)]).length =
        (before ++ [previous]).length + 1 := List.length_append
    omega
  obtain ⟨ancestors, hsteps, hlast, htables, hne⟩ := exists_last
    (fun ancestors : List (Fin n → Fin n) => n - ancestors.length) hstep
    ⟨tables_up, List.cons_ne_nil (fun x => (parent x).getD x) []⟩
  obtain ⟨enough, henough⟩ := steps_enough hsteps hlast
  refine ⟨ancestors, ⟨enough, henough⟩, htables, hne, Nat.not_lt.mp fun hlt => ?_⟩
  rw [Dominators.double, if_pos hlt, Option.map_eq_none_iff, List.getLast?_eq_none_iff] at hlast
  exact hne hlast

/-! ## Nearest common ancestors -/

theorem up_eq {x y : Fin n} (h : parent x = some y) : up parent x = y := by
  rw [up, h]
  rfl

theorem above_up (x : Fin n) : Above parent x (up parent x) := by
  cases h : parent x with
  | none =>
    rw [up, h]
    exact .refl x
  | some y =>
    rw [up_eq h]
    exact above_parent h

theorem above_iterate (x : Fin n) (m : Nat) : Above parent x ((up parent)^[m] x) := by
  induction m generalizing x with
  | zero => exact .refl x
  | succ m ih => exact (above_up x).trans (ih (up parent x))

/-- As many steps as its rank lead from a node to the root. -/
theorem Descending.iterate_eq_root (h : Descending parent rank root) {x : Fin n} (hx : (parent x).isSome) {m : Nat}
    (hm : rank x ≤ m) : (up parent)^[m] x = root := by
  have hup : up parent root = root := up_eq h.rootParent
  induction m generalizing x with
  | zero =>
    by_contra hne
    obtain ⟨y, hy⟩ := Option.isSome_iff_exists.mp hx
    exact absurd (h.lower x y hy hne).1 (Nat.not_lt.mpr (hm.trans (Nat.zero_le _)))
  | succ m ih =>
    rw [Function.iterate_succ_apply]
    by_cases hroot : x = root
    · rw [hroot, hup]
      exact Function.iterate_fixed hup m
    · obtain ⟨y, hy⟩ := Option.isSome_iff_exists.mp hx
      obtain ⟨hlt, hsome⟩ := h.lower x y hy hroot
      rw [up_eq hy]
      exact ih hsome (by omega)

/-- What the finished tree's intervals and tables are for. -/
structure Indexed (tree : Dominators n) (rank : Fin n → Nat) (root : Fin n) : Prop where
  descending : Descending tree.parent rank root
  bounded : ∀ x, (tree.parent x).isSome → rank x < n
  encloses : ∀ a b, (tree.parent a).isSome → (tree.parent b).isSome → (tree.encloses a b = true ↔ Above tree.parent b a)
  nonempty : ∀ x, (tree.parent x).isSome → (tree.interval x).1 < (tree.interval x).2
  tables : Tables tree.parent tree.ancestors
  tables_ne : tree.ancestors ≠ []
  tables_large : n ≤ 2 ^ tree.ancestors.length

namespace Indexed

variable {tree : Dominators n} (h : Indexed tree rank root)

include h

theorem dominates_iff (a b : Fin n) :
    tree.dominates a b = true ↔ (tree.parent a).isSome ∧ (tree.parent b).isSome ∧ Above tree.parent b a := by
  rw [Dominators.dominates, decide_eq_true_iff]
  exact ⟨fun ⟨ha, hb, henc⟩ => ⟨ha, hb, (h.encloses a b ha hb).mp henc⟩,
    fun ⟨ha, hb, habove⟩ => ⟨ha, hb, (h.encloses a b ha hb).mpr habove⟩⟩

/-- Halving steps stop below the first ancestor that encloses the other node. -/
theorem lift_spec {b : Fin n} (hb : (tree.parent b).isSome) (tables : List (Fin n → Fin n))
    (htables : Tables tree.parent tables) {a : Fin n} (ha : (tree.parent a).isSome) (hbelow : ¬ Above tree.parent b a)
    (hreach : Above tree.parent b ((up tree.parent)^[2 ^ tables.length] a)) :
    ∃ x, tables.reverse.foldl (fun a ancestors =>
        let ancestor := ancestors a
        if tree.encloses ancestor b then a else ancestor) a = x ∧
      Above tree.parent a x ∧ ¬ Above tree.parent b x ∧ Above tree.parent b (up tree.parent x) := by
  induction tables using List.reverseRecOn generalizing a with
  | nil => exact ⟨a, rfl, .refl a, hbelow, hreach⟩
  | append_singleton tables table ih =>
    have htable : table = (up tree.parent)^[2 ^ tables.length] :=
      htables tables.length table (List.getElem?_concat_length ..)
    have hrest : Tables tree.parent tables := fun k table hk => htables k table (by
      rw [List.getElem?_append_left (List.getElem?_eq_some_iff.mp hk).1]
      exact hk)
    have habove : Above tree.parent a (table a) := by
      rw [htable]
      exact above_iterate a _
    have hsome := h.descending.isSome habove ha
    rw [List.reverse_append, List.reverse_singleton, List.singleton_append, List.foldl_cons]
    dsimp only
    by_cases henc : tree.encloses (table a) b = true
    · rw [if_pos henc]
      refine ih hrest ha hbelow ?_
      rw [← htable]
      exact (h.encloses (table a) b hsome hb).mp henc
    · rw [if_neg henc]
      obtain ⟨x, hfold, hax, hbx, hup⟩ := ih hrest hsome
        (fun habove => henc ((h.encloses (table a) b hsome hb).mpr habove)) (by
          rw [htable, ← Function.iterate_add_apply, ← Nat.mul_two, ← Nat.pow_succ]
          rw [List.length_append, List.length_singleton] at hreach
          exact hreach)
      exact ⟨x, hfold, habove.trans hax, hbx, hup⟩

/-- The finished tree finds nearest common ancestors. -/
theorem common_spec {a b : Fin n} (ha : (tree.parent a).isSome) (hb : (tree.parent b).isSome) (fuel : Nat) :
    ∃ c, tree.common fuel a b = some c ∧
      ∀ s, Above tree.parent c s ↔ Above tree.parent a s ∧ Above tree.parent b s := by
  have hsome : ¬ ((tree.parent a).isNone ∨ (tree.parent b).isNone) := by
    rintro (hnone | hnone)
    · rw [Option.isNone_iff_eq_none.mp hnone] at ha
      cases ha
    · rw [Option.isNone_iff_eq_none.mp hnone] at hb
      cases hb
  have hemp : ¬ tree.ancestors.isEmpty = true := fun hemp => h.tables_ne (List.isEmpty_iff.mp hemp)
  rw [Dominators.common, if_neg hsome, if_neg hemp]
  by_cases hab : tree.encloses a b = true
  · have habove := (h.encloses a b ha hb).mp hab
    exact ⟨a, if_pos hab, fun s => ⟨fun hs => ⟨hs, habove.trans hs⟩, And.left⟩⟩
  · rw [if_neg hab]
    by_cases hba : tree.encloses b a = true
    · have habove := (h.encloses b a hb ha).mp hba
      exact ⟨b, if_pos hba, fun s => ⟨fun hs => ⟨habove.trans hs, hs⟩, And.right⟩⟩
    · rw [if_neg hba]
      have hbelow : ¬ Above tree.parent b a := fun habove => hab ((h.encloses a b ha hb).mpr habove)
      have hreach : Above tree.parent b ((up tree.parent)^[2 ^ tree.ancestors.length] a) := by
        rw [h.descending.iterate_eq_root ha ((Nat.le_of_lt (h.bounded a ha)).trans h.tables_large)]
        exact h.descending.root_above hb
      obtain ⟨x, hlift, hax, hbx, hup⟩ := h.lift_spec hb tree.ancestors h.tables ha hbelow hreach
      obtain ⟨c, hc⟩ := Option.isSome_iff_exists.mp (h.descending.isSome hax ha)
      rw [up_eq hc] at hup
      refine ⟨c, (congrArg tree.parent hlift).trans hc, fun s => ⟨fun hs => ?_, fun hs => ?_⟩⟩
      · exact ⟨hax.trans ((above_parent hc).trans hs), hup.trans hs⟩
      · obtain ⟨has, hbs⟩ := hs
        -- an ancestor of both is above the highest ancestor that is not
        rcases above_total hax has with hxs | hsx
        · refine ((above_iff hc).mp hxs).resolve_left ?_
          rintro rfl
          exact hbx hbs
        · exact absurd (hbs.trans hsx) hbx

end Indexed

/-! ## The finished tree -/

/-- Numbering the finished tree and doubling its tables. -/
theorem index_spec {tree : Dominators n} (h : Descending tree.parent rank root)
    (hbounded : ∀ x, (tree.parent x).isSome → rank x < n) :
    ∃ finished, (∃ enough, ∀ fuel, enough ≤ fuel → tree.index fuel = some finished) ∧
      finished.parent = tree.parent ∧ Indexed finished rank root := by
  obtain ⟨ancestors, ⟨enough, hdouble⟩, htables, hne, hlarge⟩ := double_spec tree.parent
  have hroot : ((List.finRange n).filter fun node => tree.parent node = some node).getLast? = some root := by
    have hmem : root ∈ (List.finRange n).filter fun node => tree.parent node = some node :=
      List.mem_filter.mpr ⟨List.mem_finRange root, decide_eq_true h.rootParent⟩
    obtain ⟨last, hlast⟩ := Option.isSome_iff_exists.mp (List.getLast?_isSome.mpr (List.ne_nil_of_mem hmem))
    have hself := of_decide_eq_true (List.mem_filter.mp (List.mem_of_getLast? hlast)).2
    rw [hlast]
    by_contra hne
    exact absurd (h.lower last last hself fun heq => hne (congrArg some heq)).1 (Nat.lt_irrefl _)
  have hsome : (tree.parent root).isSome := by
    rw [h.rootParent]
    rfl
  obtain ⟨intervals, clock, hruns, hnumbered⟩ := enter_spec h hbounded hsome (fun _ => (UNREACHED, UNREACHED)) [] 0
  obtain ⟨enough', hnumbering⟩ := steps_enough hruns rfl
  refine ⟨{ tree with interval := intervals, ancestors := ancestors }, ⟨max enough enough', fun fuel hfuel => ?_⟩, rfl,
    h, hbounded, fun a b ha hb => ?_, fun x hx => (hnumbered.within x (h.root_above hx)).2.1, htables, hne, hlarge⟩
  · rw [Dominators.index, hroot]
    dsimp only
    rw [hnumbering fuel ((Nat.le_max_right ..).trans hfuel), hdouble fuel ((Nat.le_max_left ..).trans hfuel)]
  · have henc := hnumbered.encloses a b (h.root_above ha) (h.root_above hb)
    rw [Dominators.encloses]
    exact decide_eq_true_iff.trans henc

end Relocade.Compiler.Place
