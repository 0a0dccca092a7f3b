import Mathlib.Data.Fin.VecNotation
import Relocade.Compiler.Place.Immediate
import Relocade.Compiler.Place.Intervals

/-!
# `Compiler.Place.Dominators` — the dominators of a graph

The construction ends on every graph. Its intervals tell which nodes are on every path to a node, its parents are
immediate dominators, and the preorder of its nodes keeps what a node dominates together.
-/

namespace Relocade.Compiler.Place

open Graphs (Path Reachable Dominates)

variable {n : Nat} {successors predecessors : Fin n → List (Fin n)}

/-- The construction ends in a tree whose ancestors are dominators. -/
theorem new_spec (hcons : ∀ a b, b ∈ successors a ↔ a ∈ predecessors b) (root : Fin n) :
    ∃ tree rank, (∃ enough, ∀ fuel, enough ≤ fuel → Dominators.new fuel root successors predecessors = some tree) ∧
      Indexed tree rank root ∧ (∀ x, (tree.parent x).isSome ↔ Reachable successors root x) ∧
      ∀ v s, Reachable successors root v → (Above tree.parent v s ↔ Dominates successors root s v) := by
  obtain ⟨order, hordered, enough₁, hpostorder⟩ := postorder_spec successors root
  obtain ⟨solved, enough₂, hsolve, hsolved⟩ := solve_spec hcons hordered
  have hmem : ∀ x, (solved.parent x).isSome ↔ Reachable successors root x := fun x =>
    (hsolved.stage.isSome_iff x).trans (hordered.mem_iff x)
  obtain ⟨tree, ⟨enough₃, hidx⟩, hparent, hixd⟩ := index_spec hsolved.stage.descending fun x hx =>
    ranks_lt hordered.nodup ((hsolved.stage.isSome_iff x).mp hx)
  refine ⟨tree, _, ⟨max (max enough₁ enough₃) (max enough₂ (2 * n)), fun fuel hfuel => ?_⟩, hixd, ?_, ?_⟩
  · have hpost : postorder fuel root successors = some order := hpostorder fuel (by omega)
    have hsolution : Dominators.solve fuel predecessors order fuel (provisional order root) = some solved :=
      hsolve fuel fuel (by omega) (by omega)
    rw [provisional] at hsolution
    rw [Dominators.new, hpost]
    dsimp only
    rw [hsolution]
    exact hidx fuel (by omega)
  · rw [hparent]
    exact hmem
  · rw [hparent]
    exact fun v s hv => above_iff_dominates hcons hordered hsolved hv

/-! ## More fuel -/

section Fuel

variable {fuel fuel' : Nat} (hfuel : fuel ≤ fuel')

include hfuel

theorem repeatWhile_mono {σ : Type} {step : σ → Option σ} {s t : σ} (h : repeatWhile step fuel s = some t) :
    repeatWhile step fuel' s = some t := by
  induction fuel generalizing fuel' s with
  | zero => cases h
  | succ fuel ih =>
    obtain ⟨fuel', rfl⟩ := Nat.exists_eq_succ_of_ne_zero (Nat.ne_of_gt (Nat.lt_of_lt_of_le (Nat.succ_pos _) hfuel))
    rw [repeatWhile] at h ⊢
    cases hstep : step s with
    | none =>
      rw [hstep] at h
      exact h
    | some s' =>
      rw [hstep] at h
      exact ih (Nat.le_of_succ_le_succ hfuel) h

namespace Dominators

variable {tree : Dominators n}

theorem climb_mono {a b c : Fin n} (h : tree.climb fuel a b = some c) : tree.climb fuel' a b = some c := by
  induction fuel generalizing fuel' a b with
  | zero => cases h
  | succ fuel ih =>
    obtain ⟨fuel', rfl⟩ := Nat.exists_eq_succ_of_ne_zero (Nat.ne_of_gt (Nat.lt_of_lt_of_le (Nat.succ_pos _) hfuel))
    have hle := Nat.le_of_succ_le_succ hfuel
    rw [climb] at h ⊢
    split
    · next heq => rwa [if_pos heq] at h
    · next heq =>
        rw [if_neg heq] at h
        split
        · next hlt =>
            rw [if_pos hlt] at h
            cases hparent : tree.parent a with
            | none => rw [hparent] at h; cases h
            | some d =>
              rw [hparent] at h
              exact ih hle h
        · next hlt =>
            rw [if_neg hlt] at h
            cases hparent : tree.parent b with
            | none => rw [hparent] at h; cases h
            | some d =>
              rw [hparent] at h
              exact ih hle h

theorem common_mono {a b c : Fin n} (h : tree.common fuel a b = some c) : tree.common fuel' a b = some c := by
  rw [common] at h ⊢
  split
  · next hnone => rwa [if_pos hnone] at h
  · next hnone =>
      rw [if_neg hnone] at h
      split
      · next hemp =>
          rw [if_pos hemp] at h
          exact climb_mono hfuel h
      · next hemp => rwa [if_neg hemp] at h

omit hfuel in
theorem foldlM_mono {α β : Type} {f g : β → α → Option β} (hfg : ∀ b a c, f b a = some c → g b a = some c) {l : List α}
    {b c : β} (h : l.foldlM f b = some c) : l.foldlM g b = some c := by
  induction l generalizing b with
  | nil => exact h
  | cons a l ih =>
    rw [List.foldlM_cons] at h ⊢
    obtain ⟨d, hd, hrest⟩ := Option.bind_eq_some_iff.mp h
    exact Option.bind_eq_some_iff.mpr ⟨d, hfg b a d hd, ih hrest⟩

theorem meet_mono {nodes : List (Fin n)} {c : Option (Fin n)}
    (h : tree.meet fuel nodes = some c) : tree.meet fuel' nodes = some c := by
  refine foldlM_mono (fun common p d hstep => ?_) h
  cases common with
  | none => exact hstep
  | some previous =>
    rw [meetStep] at hstep ⊢
    split
    · next hsome =>
        rw [if_pos hsome] at hstep
        obtain ⟨e, he, hd⟩ := Option.map_eq_some_iff.mp hstep
        exact Option.map_eq_some_iff.mpr ⟨e, common_mono hfuel he, hd⟩
    · next hsome => rwa [if_neg hsome] at hstep

theorem pass_mono {order : List (Fin n)} {res : Dominators n × Bool}
    (h : pass fuel predecessors order tree = some res) : pass fuel' predecessors order tree = some res := by
  refine foldlM_mono (fun state v res hstep => ?_) h
  rw [process] at hstep ⊢
  cases hmeet : state.1.meet fuel (predecessors v) with
  | none => rw [hmeet] at hstep; cases hstep
  | some c =>
    rw [hmeet] at hstep
    rw [meet_mono hfuel hmeet]
    exact hstep

theorem solve_mono {order : List (Fin n)} {rounds rounds' : Nat} (hrounds : rounds ≤ rounds')
    {tree solved : Dominators n} (h : solve fuel predecessors order rounds tree = some solved) :
    solve fuel' predecessors order rounds' tree = some solved := by
  induction rounds generalizing rounds' tree with
  | zero => cases h
  | succ rounds ih =>
    obtain ⟨rounds', rfl⟩ :=
      Nat.exists_eq_succ_of_ne_zero (Nat.ne_of_gt (Nat.lt_of_lt_of_le (Nat.succ_pos _) hrounds))
    rw [solve] at h ⊢
    cases hpass : pass fuel predecessors order tree with
    | none => rw [hpass] at h; cases h
    | some result =>
      obtain ⟨next, changed⟩ := result
      rw [hpass] at h
      rw [pass_mono hfuel hpass]
      cases changed with
      | false => exact h
      | true => exact ih (Nat.le_of_succ_le_succ hrounds) h

theorem index_mono {tree finished : Dominators n} (h : tree.index fuel = some finished) :
    tree.index fuel' = some finished := by
  rw [index] at h ⊢
  split at h
  · cases h
  · next root hroot =>
      split at h
      · next numbering ancestors hnumbering hancestors =>
          rw [repeatWhile_mono hfuel hnumbering, repeatWhile_mono hfuel hancestors]
          exact h
      · cases h

theorem new_mono {root : Fin n} (h : new fuel root successors predecessors = some tree) :
    new fuel' root successors predecessors = some tree := by
  rw [new] at h ⊢
  split at h
  · cases h
  · next order horder =>
      obtain ⟨walk, hwalk, hpostorder⟩ := Option.map_eq_some_iff.mp horder
      rw [postorder, repeatWhile_mono hfuel hwalk, Option.map_some, hpostorder]
      dsimp only
      split at h
      · cases h
      · next solved hsolved =>
          rw [solve_mono hfuel hfuel hsolved]
          exact index_mono hfuel h

end Dominators

end Fuel

/-- What the construction returns is a tree whose ancestors are dominators. -/
theorem new_sound (hcons : ∀ a b, b ∈ successors a ↔ a ∈ predecessors b) {root : Fin n} {fuel : Nat}
    {tree : Dominators n} (h : Dominators.new fuel root successors predecessors = some tree) (a b : Fin n) :
    tree.dominates a b = true ↔
      Reachable successors root a ∧ Reachable successors root b ∧ Dominates successors root a b := by
  obtain ⟨found, rank, ⟨enough, hnew⟩, hixd, hsome, habove⟩ := new_spec hcons root
  have hsame := (Dominators.new_mono (Nat.le_max_left fuel enough) h).symm.trans (hnew _ (Nat.le_max_right fuel enough))
  obtain rfl := Option.some.inj hsame
  rw [hixd.dominates_iff, hsome, hsome]
  exact ⟨fun ⟨ha, hb, h⟩ => ⟨ha, hb, (habove b a hb).mp h⟩, fun ⟨ha, hb, h⟩ => ⟨ha, hb, (habove b a hb).mpr h⟩⟩

/-- The dominator of a node that all its other dominators dominate. -/
structure Immediate (successors : Fin n → List (Fin n)) (root d v : Fin n) : Prop where
  dominates : Dominates successors root d v
  ne : d ≠ v
  nearest : ∀ s, Dominates successors root s v → s ≠ v → Dominates successors root s d

/-- The common dominator of two nodes that all their common dominators dominate. -/
structure Nearest (successors : Fin n → List (Fin n)) (root c a b : Fin n) : Prop where
  first : Dominates successors root c a
  second : Dominates successors root c b
  nearest : ∀ s, Dominates successors root s a → Dominates successors root s b → Dominates successors root s c

/-- On every graph, the construction ends in the dominators. -/
theorem new_dominators (hconsistent : ∀ a b, b ∈ successors a ↔ a ∈ predecessors b) (root : Fin n) :
    ∃ tree enough, (∀ fuel, enough ≤ fuel → Dominators.new fuel root successors predecessors = some tree) ∧
      (∀ a b, Reachable successors root a → Reachable successors root b →
        (tree.dominates a b = true ↔ Dominates successors root a b)) ∧
      tree.parent root = some root ∧
      (∀ v, Reachable successors root v → v ≠ root →
        ∃ d, tree.parent v = some d ∧ Immediate successors root d v) ∧
      (∀ a b, Reachable successors root a → Reachable successors root b →
        ∀ fuel, ∃ c, tree.common fuel a b = some c ∧ Nearest successors root c a b) ∧
      (∀ v, ¬ Reachable successors root v → tree.parent v = none ∧ ∀ b, tree.dominates v b = false) ∧
      (∀ a b c x, Reachable successors root x → tree.dominates a b = true → tree.dominates a c = true →
        tree.preorder b ≤ tree.preorder x → tree.preorder x ≤ tree.preorder c → tree.dominates a x = true) ∧
      ∀ a b, Reachable successors root a → Reachable successors root b → tree.preorder a = tree.preorder b →
        a = b := by
  obtain ⟨tree, rank, ⟨enough, hnew⟩, hindexed, hsome, habove⟩ := new_spec hconsistent root
  have hdescending := hindexed.descending
  have hdominates := hindexed.dominates_iff
  refine ⟨tree, enough, hnew, fun a b ha hb => ?_, hdescending.rootParent, fun v hv hne => ?_, fun a b ha hb fuel => ?_,
    fun v hv => ?_, fun a b c x hx hab hac hbx hxc => ?_, fun a b ha hb heq => ?_⟩
  · rw [hdominates, ← habove b a hb]
    exact ⟨fun h => h.2.2, fun h => ⟨(hsome a).mpr ha, (hsome b).mpr hb, h⟩⟩
  · obtain ⟨d, hd⟩ := Option.isSome_iff_exists.mp ((hsome v).mpr hv)
    obtain ⟨hlt, hdsome⟩ := hdescending.lower v d hd hne
    refine ⟨d, hd, (habove v d hv).mp (above_parent hd), ?_, fun s hs hsv => ?_⟩
    · rintro rfl
      exact Nat.lt_irrefl _ hlt
    · refine (habove d s ((hsome d).mp hdsome)).mp (((above_iff hd).mp ((habove v s hv).mpr hs)).resolve_left ?_)
      exact fun h => hsv h.symm
  · obtain ⟨c, hc, hcommon⟩ := hindexed.common_spec ((hsome a).mpr ha) ((hsome b).mpr hb) fuel
    obtain ⟨hac, hbc⟩ := (hcommon c).mp (.refl c)
    have hcsome := (hsome c).mp (hdescending.isSome hac ((hsome a).mpr ha))
    refine ⟨c, hc, (habove a c ha).mp hac, (habove b c hb).mp hbc, fun s hsa hsb => ?_⟩
    exact (habove c s hcsome).mp ((hcommon s).mpr ⟨(habove a s ha).mpr hsa, (habove b s hb).mpr hsb⟩)
  · have hnone : tree.parent v = none := Option.not_isSome_iff_eq_none.mp fun h => hv ((hsome v).mp h)
    refine ⟨hnone, fun b => Bool.eq_false_iff.mpr fun h => ?_⟩
    have hvsome := ((hdominates v b).mp h).1
    rw [hnone] at hvsome
    cases hvsome
  · obtain ⟨ha, hb, hba⟩ := (hdominates a b).mp hab
    obtain ⟨-, hc, hca⟩ := (hdominates a c).mp hac
    have hx := (hsome x).mpr hx
    refine (hdominates a x).mpr ⟨ha, hx, (hindexed.encloses a x ha hx).mp ?_⟩
    have hencb := decide_eq_true_iff.mp ((hindexed.encloses a b ha hb).mpr hba)
    have hencc := decide_eq_true_iff.mp ((hindexed.encloses a c ha hc).mpr hca)
    exact decide_eq_true_iff.mpr ⟨hencb.1.trans hbx, Nat.lt_of_le_of_lt hxc hencc.2⟩
  · have ha := (hsome a).mpr ha
    have hb := (hsome b).mpr hb
    have hapos := hindexed.nonempty a ha
    have hbpos := hindexed.nonempty b hb
    rw [Dominators.preorder, Dominators.preorder] at heq
    have hba := (hindexed.encloses a b ha hb).mp (decide_eq_true_iff.mpr ⟨Nat.le_of_eq heq, heq ▸ hapos⟩)
    have hab := (hindexed.encloses b a hb ha).mp (decide_eq_true_iff.mpr ⟨Nat.le_of_eq heq.symm, heq ▸ hbpos⟩)
    exact hdescending.antisymm hab hba

/-- A loop with two ways into it, and a node that is not reached. -/
def twoWays : Fin 4 → List (Fin 4) := ![[1, 2], [2], [1], []]

def twoWaysBack : Fin 4 → List (Fin 4) := ![[], [0, 2], [0, 1], []]

theorem new_dominators_twoWays :
    ∃ tree enough, (∀ fuel, enough ≤ fuel → Dominators.new fuel 0 twoWays twoWaysBack = some tree) ∧
      (∀ a b, Reachable twoWays 0 a → Reachable twoWays 0 b →
        (tree.dominates a b = true ↔ Dominates twoWays 0 a b)) ∧
      tree.parent 0 = some 0 ∧
      (∀ v, Reachable twoWays 0 v → v ≠ 0 → ∃ d, tree.parent v = some d ∧ Immediate twoWays 0 d v) ∧
      (∀ a b, Reachable twoWays 0 a → Reachable twoWays 0 b →
        ∀ fuel, ∃ c, tree.common fuel a b = some c ∧ Nearest twoWays 0 c a b) ∧
      (∀ v, ¬ Reachable twoWays 0 v → tree.parent v = none ∧ ∀ b, tree.dominates v b = false) ∧
      (∀ a b c x, Reachable twoWays 0 x → tree.dominates a b = true → tree.dominates a c = true →
        tree.preorder b ≤ tree.preorder x → tree.preorder x ≤ tree.preorder c → tree.dominates a x = true) ∧
      ∀ a b, Reachable twoWays 0 a → Reachable twoWays 0 b → tree.preorder a = tree.preorder b → a = b :=
  new_dominators (by decide) 0

/-- Neither way into the loop dominates the other. -/
example : (Dominators.new 40 0 twoWays twoWaysBack).map (fun tree => (List.finRange 4).map tree.parent) =
    some [some 0, some 0, some 0, none] := by
  decide +kernel

end Relocade.Compiler.Place
