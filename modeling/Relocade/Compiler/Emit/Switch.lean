import Mathlib.Data.List.GetD
import Mathlib.Data.List.Nodup
import Relocade.Wasm.Machine

/-!
# `Compiler.Emit.Switch` — dense and sparse switch dispatch

A dispatch takes the selector from the stack and branches to the label of its case, or to the label after them. Keys
that lie close together index a table by their distance from the first; others are found by halving.
-/

namespace Relocade.Compiler

open Wasm
open BitVec (ofNat toNat_ofNat setWidth_eq ofNat_toNat)

namespace Switch

/-! ## Instructions -/

/-- Leave the index of the local's case among the keys, counted from the first. There is a key. -/
def sparseIndex (switchLocal : Nat) (default : BitVec 32) (keys : List (BitVec 32)) (first : BitVec 32) :
    List Instruction :=
  let midpoint := keys.length / 2
  if keys.length ≤ 1 then
    [.localGet switchLocal, .i32Const (keys.getD midpoint 0), .i32Eq, .ifElse [.i32Const first] [.i32Const default]]
  else
    [.localGet switchLocal, .i32Const (keys.getD midpoint 0), .i32LtU,
      .ifElse (sparseIndex switchLocal default (keys.take midpoint) first)
        (sparseIndex switchLocal default (keys.drop midpoint) (first + ofNat 32 midpoint))]
termination_by keys.length
decreasing_by
  · rw [List.length_take]
    omega
  · rw [List.length_drop]
    omega

/-- The case at every distance from the first key. -/
def denseTargets (first default : BitVec 32) (span : Nat) (keys : List (BitVec 32)) : List (BitVec 32) :=
  keys.zipIdx.foldl (fun targets case => targets.set (case.1 - first).toNat (ofNat 32 case.2))
    (List.replicate span default)

/-- Branches to the case of the key, by a dense table or by search. -/
def dispatch (switchLocal : Nat) (keys : List (BitVec 32)) : List Instruction :=
  match keys with
  | [] => [.br 0]
  | first :: rest =>
      let default := ofNat 32 keys.length
      let span := (rest.getLastD first).toNat - first.toNat + 1
      if span ≤ 4096 ∧ span ≤ 8 * keys.length then
        (if first ≠ 0 then [.i32Const first, .i32Sub] else []) ++
          [.brTable ((denseTargets first default span keys).map BitVec.toNat) default.toNat]
      else
        .localSet switchLocal :: (sparseIndex switchLocal default keys 0 ++
          [.brTable (List.range default.toNat) default.toNat])

variable {checked : Bool} {switchLocal : Nat} {default first selector : BitVec 32} {keys : List (BitVec 32)}
  {stack : List Operand} {locals : Nat → Operand}

/-! ## Halving -/

/-- A key below the selected half decides in which half the selector is. -/
theorem mem_halves {key : BitVec 32} {left right : List (BitVec 32)}
    (hsorted : (left ++ key :: right).Pairwise fun a b => a.toNat < b.toNat) :
    (selector.toNat < key.toNat → selector ∉ key :: right) ∧ (¬ selector.toNat < key.toNat → selector ∉ left) := by
  obtain ⟨-, hright, hcross⟩ := List.pairwise_append.mp hsorted
  obtain ⟨hkey, -⟩ := List.pairwise_cons.mp hright
  constructor
  · intro hlt hmem
    rcases List.mem_cons.mp hmem with rfl | hmem
    · exact Nat.lt_irrefl _ hlt
    · exact Nat.lt_asymm hlt (hkey selector hmem)
  · intro hle hmem
    exact hle (hcross selector hmem key List.mem_cons_self)

/-- The index that halving leaves. -/
def found (selector default : BitVec 32) (keys : List (BitVec 32)) (first : BitVec 32) : BitVec 32 :=
  if selector ∈ keys then first + ofNat 32 (keys.idxOf selector) else default

theorem exec_brTable {targets : List Nat} {past : Nat} {index : BitVec 32} :
    exec checked [.brTable targets past] ⟨.i32 index :: stack, locals⟩ =
      some (.branch (targets.getD index.toNat past) ⟨stack, locals⟩) := rfl

theorem exec_ifElse {cond : BitVec 32} {taken otherwise : List Instruction} {s : State}
    (h : exec checked (if cond = 0 then otherwise else taken) ⟨stack, locals⟩ = some (.next s)) :
    exec checked [.ifElse taken otherwise] ⟨.i32 cond :: stack, locals⟩ = some (.next s) := by
  rw [exec, Instruction.exec]
  dsimp only
  split at h
  · next hz => rw [if_pos hz, h]; rfl
  · next hz => rw [if_neg hz, h]; rfl

theorem exec_sparseIndex (hne : keys ≠ []) (hsorted : keys.Pairwise fun a b => a.toNat < b.toNat)
    (hlocal : locals switchLocal = .i32 selector) :
    exec checked (sparseIndex switchLocal default keys first) ⟨stack, locals⟩ =
      some (.next ⟨.i32 (found selector default keys first) :: stack, locals⟩) := by
  induction keys, first using sparseIndex.induct with
  | case1 keys first hone =>
    match keys, hne, hone with
    | [key], _, _ =>
      have htest : exec checked [.localGet switchLocal, .i32Const key, .i32Eq] ⟨stack, locals⟩ =
          some (.next ⟨.i32 (if selector = key then 1 else 0) :: stack, locals⟩) := by
        simp [exec, Instruction.exec, State.push, State.binary32, hlocal]
      rw [sparseIndex, if_pos (show [key].length ≤ 1 from Nat.le_refl 1)]
      have hkey : [key].getD ([key].length / 2) 0 = key := by simp
      rw [hkey]
      refine (exec_append htest).trans (exec_ifElse ?_)
      by_cases heq : selector = key
      · subst heq
        simp [found, exec, Instruction.exec, State.push]
      · simp [found, exec, Instruction.exec, State.push, heq]
  | case2 keys first midpoint hmany ihtake ihdrop =>
    have hmid : midpoint < keys.length := Nat.div_lt_self (by omega) (by decide)
    have hsplit : keys.take midpoint ++ keys[midpoint] :: keys.drop (midpoint + 1) = keys := by
      rw [← List.drop_eq_getElem_cons hmid, List.take_append_drop]
    have hdrop : keys.drop midpoint = keys[midpoint] :: keys.drop (midpoint + 1) := List.drop_eq_getElem_cons hmid
    have hmem : selector ∈ keys ↔ selector ∈ keys.take midpoint ∨ selector ∈ keys.drop midpoint := by
      rw [← List.mem_append, List.take_append_drop]
    have hidx : keys.idxOf selector = if selector ∈ keys.take midpoint then (keys.take midpoint).idxOf selector
        else (keys.drop midpoint).idxOf selector + midpoint := by
      conv_lhs => rw [← List.take_append_drop midpoint keys, List.idxOf_append]
      rw [List.length_take, Nat.min_eq_left (Nat.le_of_lt hmid)]
    have htest : exec checked [.localGet switchLocal, .i32Const keys[midpoint], .i32LtU] ⟨stack, locals⟩ =
        some (.next ⟨.i32 (if selector.toNat < keys[midpoint].toNat then 1 else 0) :: stack, locals⟩) := by
      simp [exec, Instruction.exec, State.push, State.binary32, hlocal]
    obtain ⟨hbelow, habove⟩ := @mem_halves selector keys[midpoint] _ _ (by rw [hsplit]; exact hsorted)
    rw [sparseIndex, if_neg hmany, List.getD_eq_getElem _ _ hmid]
    refine (exec_append htest).trans (exec_ifElse ?_)
    by_cases hlt : selector.toNat < keys[midpoint].toNat
    · rw [if_pos hlt, if_neg (by decide)]
      have hnot : selector ∉ keys.drop midpoint := hdrop ▸ hbelow hlt
      have htake : keys.take midpoint ≠ [] := by
        rw [ne_eq, ← List.length_eq_zero_iff, List.length_take]
        omega
      rw [ihtake htake (hsorted.sublist (List.take_sublist ..))]
      by_cases hin : selector ∈ keys.take midpoint
      · rw [found, found, if_pos hin, if_pos (hmem.mpr (Or.inl hin)), hidx, if_pos hin]
      · rw [found, found, if_neg hin, if_neg fun h => (hmem.mp h).elim hin hnot]
    · rw [if_neg hlt, if_pos rfl]
      have hnot := habove hlt
      rw [ihdrop (by rw [hdrop]; exact List.cons_ne_nil _ _) (hsorted.sublist (List.drop_sublist ..))]
      by_cases hin : selector ∈ keys.drop midpoint
      · rw [found, found, if_pos hin, if_pos (hmem.mpr (Or.inr hin)), hidx, if_neg hnot, BitVec.add_assoc,
          Nat.add_comm, BitVec.ofNat_add]
      · rw [found, found, if_neg hin, if_neg fun h => (hmem.mp h).elim hnot hin]

/-! ## Tables -/

/-- Filling positions of distinct keys from an index on. -/
theorem getD_fill (hnodup : keys.Nodup) (index : Nat) (targets : List (BitVec 32)) {dist : Nat}
    (hlt : dist < targets.length) (hword : dist < 2 ^ 32) :
    ((keys.zipIdx index).foldl (fun targets case => targets.set (case.1 - first).toNat (ofNat 32 case.2))
      targets).getD dist default =
      if first + ofNat 32 dist ∈ keys then
        ofNat 32 (index + keys.idxOf (first + ofNat 32 dist))
      else targets.getD dist default := by
  induction keys generalizing index targets with
  | nil => rfl
  | cons key keys ih =>
    obtain ⟨hkey, hkeys⟩ := List.nodup_cons.mp hnodup
    have hpos : key = first + ofNat 32 dist ↔ (key - first).toNat = dist := by
      constructor
      · rintro rfl
        rw [BitVec.add_comm, BitVec.add_sub_cancel, toNat_ofNat, Nat.mod_eq_of_lt hword]
      · rintro rfl
        rw [ofNat_toNat, setWidth_eq, BitVec.add_comm, BitVec.sub_add_cancel]
    rw [List.zipIdx_cons, List.foldl_cons, ih hkeys (index + 1) _ (by rw [List.length_set]; exact hlt)]
    dsimp only
    by_cases heq : key = first + ofNat 32 dist
    · rw [← heq, if_neg hkey, if_pos List.mem_cons_self, List.idxOf_cons_self, Nat.add_zero, hpos.mp heq,
        List.getD_eq_getElem _ _ (by rw [List.length_set]; exact hlt), List.getElem_set_self]
    · have hset : (targets.set (key - first).toNat (ofNat 32 index)).getD dist default =
          targets.getD dist default := by
        rw [List.getD_eq_getElem?_getD, List.getElem?_set_ne fun h => heq (hpos.mpr h), List.getD_eq_getElem?_getD]
      rw [hset, List.idxOf_cons_ne _ heq]
      by_cases hin : first + ofNat 32 dist ∈ keys
      · rw [if_pos hin, if_pos (List.mem_cons_of_mem _ hin), Nat.add_assoc, Nat.add_comm 1]
      · rw [if_neg hin, if_neg fun h => (List.mem_cons.mp h).elim (fun h => heq h.symm) hin]

/-! ## Dispatch -/

theorem nodup_of_sorted (hsorted : keys.Pairwise fun a b => a.toNat < b.toNat) : keys.Nodup := by
  refine hsorted.imp fun {a b} hlt heq => ?_
  subst heq
  exact Nat.lt_irrefl _ hlt

/-- Every key lies between the first and the last. -/
theorem mem_span {rest : List (BitVec 32)} (hsorted : (first :: rest).Pairwise fun a b => a.toNat < b.toNat)
    (hmem : selector ∈ first :: rest) :
    first.toNat ≤ selector.toNat ∧ selector.toNat ≤ (rest.getLastD first).toNat := by
  obtain ⟨hfst, -⟩ := List.pairwise_cons.mp hsorted
  constructor
  · rcases List.mem_cons.mp hmem with rfl | hmem
    · exact Nat.le_refl _
    · exact Nat.le_of_lt (hfst selector hmem)
  · have hlast : (first :: rest).getLast (List.cons_ne_nil _ _) = rest.getLastD first := List.getLast_eq_getLastD _
    have hsplit := List.dropLast_append_getLast (List.cons_ne_nil first rest)
    rw [hlast] at hsplit
    rw [← hsplit] at hsorted hmem
    rcases List.mem_append.mp hmem with hmem | hmem
    · exact Nat.le_of_lt ((List.pairwise_append.mp hsorted).2.2 selector hmem _ (List.mem_singleton_self _))
    · exact Nat.le_of_eq (congrArg _ (List.mem_singleton.mp hmem))

theorem length_fill (index : Nat) (targets : List (BitVec 32)) :
    ((keys.zipIdx index).foldl (fun targets case => targets.set (case.1 - first).toNat (ofNat 32 case.2))
      targets).length = targets.length := by
  induction keys generalizing index targets with
  | nil => rfl
  | cons key keys ih => rw [List.zipIdx_cons, List.foldl_cons, ih, List.length_set]

/-- The table holds the case of a selector at its distance from the first key. -/
theorem getD_denseTargets {rest : List (BitVec 32)} (hkeys : keys = first :: rest)
    (hsorted : keys.Pairwise fun a b => a.toNat < b.toNat) (hlen : keys.length < 2 ^ 32) :
    ((denseTargets first (ofNat 32 keys.length) ((rest.getLastD first).toNat - first.toNat + 1) keys).map
      BitVec.toNat).getD (selector - first).toNat (ofNat 32 keys.length).toNat = keys.idxOf selector := by
  have hle : keys.idxOf selector ≤ keys.length := List.idxOf_le_length
  have hdefault : (ofNat 32 keys.length).toNat = keys.length := by
    rw [toNat_ofNat, Nat.mod_eq_of_lt hlen]
  rw [List.getD_map]
  have hselector : first + ofNat 32 (selector - first).toNat = selector := by
    rw [ofNat_toNat, setWidth_eq, BitVec.add_comm, BitVec.sub_add_cancel]
  by_cases hspan : (selector - first).toNat < (rest.getLastD first).toNat - first.toNat + 1
  · rw [denseTargets, getD_fill (nodup_of_sorted hsorted) 0 _ (by rw [List.length_replicate]; exact hspan)
      (selector - first).isLt, hselector]
    by_cases hin : selector ∈ keys
    · rw [if_pos hin, Nat.zero_add, toNat_ofNat, Nat.mod_eq_of_lt (Nat.lt_of_le_of_lt hle hlen)]
    · rw [if_neg hin, List.getD_eq_getElem _ _ (by rw [List.length_replicate]; exact hspan), List.getElem_replicate,
        hdefault, List.idxOf_eq_length hin]
  · have hnot : selector ∉ keys := by
      intro hin
      obtain ⟨hlow, hhi⟩ := mem_span (hkeys ▸ hsorted) (hkeys ▸ hin)
      rw [BitVec.toNat_sub_of_le hlow] at hspan
      omega
    rw [List.getD_eq_default _ _ (by rw [denseTargets, length_fill, List.length_replicate]; omega), hdefault,
      List.idxOf_eq_length hnot]

/-- A dispatch over sorted keys branches to the case of the selector, or past the cases, when the cases can be
counted. -/
theorem dispatch_selects (checked : Bool) (switchLocal : Nat) {keys : List (BitVec 32)}
    (hsorted : keys.Pairwise fun a b => a.toNat < b.toNat) (hlength : keys.length < 2 ^ 32) (selector : BitVec 32)
    (stack : List Operand) (locals : Nat → Operand) :
    ∃ s, exec checked (dispatch switchLocal keys) ⟨.i32 selector :: stack, locals⟩ =
        some (.branch (keys.idxOf selector) s) ∧ ∀ slot, slot ≠ switchLocal → s.locals slot = locals slot := by
  cases hkeys : keys with
  | nil => exact ⟨_, rfl, fun _ _ => rfl⟩
  | cons first rest =>
      have hdefault : (ofNat 32 keys.length).toNat = keys.length := by
        rw [toNat_ofNat, Nat.mod_eq_of_lt hlength]
      rw [dispatch, ← hkeys]
      split
      · refine ⟨⟨stack, locals⟩, ?_, fun _ _ => rfl⟩
        have hdistance : exec checked (if first ≠ 0 then [.i32Const first, .i32Sub] else [])
            ⟨.i32 selector :: stack, locals⟩ = some (.next ⟨.i32 (selector - first) :: stack, locals⟩) := by
          by_cases hfirst : first = 0
          · rw [if_neg (not_not.mpr hfirst), hfirst, exec]
            simp
          · rw [if_pos hfirst]
            simp [exec, Instruction.exec, State.push, State.binary32]
        rw [exec_append hdistance, exec_brTable, getD_denseTargets hkeys hsorted hlength]
      · refine ⟨⟨stack, Function.update locals switchLocal (.i32 selector)⟩, ?_, fun slot hne => ?_⟩
        · have hzero : ∀ x : BitVec 32, 0 + x = x := BitVec.zero_add
          have hset : Instruction.exec checked (.localSet switchLocal) ⟨.i32 selector :: stack, locals⟩ =
              some (.next ⟨stack, Function.update locals switchLocal (.i32 selector)⟩) := rfl
          rw [exec_cons hset, exec_append (exec_sparseIndex (by rw [hkeys]; exact List.cons_ne_nil _ _) hsorted
            (Function.update_self ..)), hdefault, found, hzero]
          have hle : keys.idxOf selector ≤ keys.length := List.idxOf_le_length
          have hindex : (List.range keys.length).getD (if selector ∈ keys then
              ofNat 32 (keys.idxOf selector) else ofNat 32 keys.length).toNat keys.length =
              keys.idxOf selector := by
            by_cases hin : selector ∈ keys
            · have hlt := List.idxOf_lt_length_of_mem hin
              rw [if_pos hin, toNat_ofNat, Nat.mod_eq_of_lt (by omega), List.getD_eq_getElem _ _
                (by rw [List.length_range]; exact hlt), List.getElem_range]
            · rw [if_neg hin, hdefault, List.getD_eq_default _ _ (Nat.le_of_eq List.length_range),
                List.idxOf_eq_length hin]
          rw [exec_brTable, hindex]
        · exact Function.update_of_ne hne ..

/-- The second of three keys far apart. -/
theorem dispatch_selects_second : ∃ s, exec false (dispatch 0 [0, 70000, 0xffffffff]) ⟨[.i32 70000], fun _ => .i32 0⟩ =
    some (.branch 1 s) ∧ ∀ slot, slot ≠ 0 → s.locals slot = .i32 0 :=
  dispatch_selects false 0 (by decide) (by decide) 70000 [] fun _ => .i32 0

/-! ## A case for every selector -/

def everyKey : List (BitVec 32) := (List.range (2 ^ 32)).map (ofNat 32)

theorem length_everyKey : everyKey.length = 2 ^ 32 := by
  rw [everyKey, List.length_map, List.length_range]

theorem getElem?_everyKey {index : Nat} (h : index < 2 ^ 32) : everyKey[index]? = some (ofNat 32 index) := by
  rw [everyKey, List.getElem?_map, List.getElem?_range h, Option.map_some]

theorem everyKey_sorted : everyKey.Pairwise fun a b => a.toNat < b.toNat := by
  rw [List.pairwise_iff_getElem]
  intro i j hi hj hlt
  rw [length_everyKey] at hi hj
  have hget : ∀ {index : Nat} (h : index < everyKey.length), everyKey[index].toNat = index := by
    intro index h
    have hindex : index < 2 ^ 32 := length_everyKey ▸ h
    rw [(List.getElem_eq_iff h).mpr (getElem?_everyKey hindex), toNat_ofNat, Nat.mod_eq_of_lt hindex]
  rw [hget, hget]
  exact hlt

/-- When the number of the cases does not fit a word, the table is empty and its default is the first label. -/
theorem dispatch_uncounted (checked : Bool) (switchLocal : Nat) {keys : List (BitVec 32)}
    (hsorted : keys.Pairwise fun a b => a.toNat < b.toNat) (hlen : keys.length = 2 ^ 32) (hlow : 0 ∈ keys)
    (hhi : 0xffffffff ∈ keys) (selector : BitVec 32) (stack : List Operand) (locals : Nat → Operand) :
    ∃ s, exec checked (dispatch switchLocal keys) ⟨.i32 selector :: stack, locals⟩ = some (.branch 0 s) := by
  cases hkeys : keys with
  | nil =>
    rw [hkeys] at hlen
    exact absurd hlen (by decide)
  | cons first rest =>
    have hdefault : (ofNat 32 keys.length).toNat = 0 := by
      rw [toNat_ofNat, hlen, Nat.mod_self]
    have hne : keys ≠ [] := by rw [hkeys]; exact List.cons_ne_nil _ _
    rw [dispatch, ← hkeys]
    split
    · next hdense =>
        obtain ⟨hfst, -⟩ := mem_span (hkeys ▸ hsorted) (hkeys ▸ hlow)
        obtain ⟨-, hlast⟩ := mem_span (hkeys ▸ hsorted) (hkeys ▸ hhi)
        have hz : (0 : BitVec 32).toNat = 0 := rfl
        have hmax : (0xffffffff : BitVec 32).toNat = 2 ^ 32 - 1 := rfl
        omega
    · have hset : Instruction.exec checked (.localSet switchLocal) ⟨.i32 selector :: stack, locals⟩ =
          some (.next ⟨stack, Function.update locals switchLocal (.i32 selector)⟩) := rfl
      rw [exec_cons hset, exec_append (exec_sparseIndex hne hsorted (Function.update_self ..)), hdefault,
        exec_brTable]
      exact ⟨_, rfl⟩

/-- With a case for every selector, the selector 1 is taken for the case of 0. -/
theorem dispatch_everyKey : (everyKey.Pairwise fun a b => a.toNat < b.toNat) ∧ everyKey[1]? = some 1 ∧
    ∃ s, exec false (dispatch 0 everyKey) ⟨[.i32 1], fun _ => .i32 0⟩ = some (.branch 0 s) := by
  have hlow : 0 ∈ everyKey := List.mem_of_getElem? (@getElem?_everyKey 0 (by decide))
  have hhigh : 0xffffffff ∈ everyKey := List.mem_of_getElem? (@getElem?_everyKey 0xffffffff (by decide))
  exact ⟨everyKey_sorted, getElem?_everyKey (by decide),
    dispatch_uncounted false 0 everyKey_sorted length_everyKey hlow hhigh 1 [] _⟩

end Switch

end Relocade.Compiler
