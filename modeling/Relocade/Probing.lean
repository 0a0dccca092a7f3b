import Mathlib.Data.Finset.Card
import Mathlib.Data.Nat.Find
import Mathlib.Data.Nat.ModEq

/-!
# `Probing` — open addressing by linear probing

A ring of `n` buckets, each empty or holding a key with a value. A key is placed in the first empty bucket from its
home on, and looked for from its home up to the first empty bucket. The home is any function into the ring: no property
of the hash is used.
-/

namespace Relocade.Probing

open Function (update update_self update_of_ne)

/-! ## The walk -/

section Walk

variable {n b d : Nat} {stop : Nat → Prop} [DecidablePred stop]

/-- The first bucket from `b` on where the walk stops, within a number of steps. -/
def search (n : Nat) (stop : Nat → Prop) [DecidablePred stop] : Nat → Nat → Option Nat
  | 0, _ => none
  | fuel + 1, b => if stop b then some b else search n stop fuel ((b + 1) % n)

theorem ring_step (n b i : Nat) : ((b + 1) % n + i) % n = (b + (i + 1)) % n := by
  rw [Nat.mod_add_mod, Nat.add_assoc, Nat.add_comm 1 i]

/-- The walk ends at the first bucket where it stops. -/
theorem search_eq (hb : b < n) (hd : stop ((b + d) % n)) (hbef : ∀ i < d, ¬ stop ((b + i) % n)) {fuel : Nat}
    (hfuel : d < fuel) : search n stop fuel b = some ((b + d) % n) := by
  induction fuel generalizing b d with
  | zero => exact absurd hfuel (Nat.not_lt_zero d)
  | succ fuel ih =>
    have hz : (b + 0) % n = b := Nat.mod_eq_of_lt hb
    cases d with
    | zero =>
      rw [hz] at hd
      rw [search, if_pos hd, hz]
    | succ d =>
      have hfst := hbef 0 (Nat.succ_pos d)
      rw [hz] at hfst
      rw [search, if_neg hfst, ← ring_step n b d]
      refine ih (Nat.mod_lt _ (Nat.zero_lt_of_lt hb)) ?_ (fun i hi => ?_) (Nat.lt_of_succ_lt_succ hfuel)
      · rw [ring_step]
        exact hd
      · rw [ring_step]
        exact hbef (i + 1) (Nat.succ_lt_succ hi)

/-- The walk stays in the ring. -/
theorem search_lt (hb : b < n) {fuel c : Nat} (h : search n stop fuel b = some c) : c < n := by
  induction fuel generalizing b with
  | zero => cases h
  | succ fuel ih =>
    rw [search] at h
    split at h
    · exact Option.some.inj h ▸ hb
    · exact ih (Nat.mod_lt _ (Nat.zero_lt_of_lt hb)) h

/-- Where some bucket stops the walk, there is a first one. -/
theorem exists_first (stop : Nat → Prop) [DecidablePred stop] {c : Nat} (hb : b < n) (hc : c < n) (hstop : stop c) :
    ∃ d < n, stop ((b + d) % n) ∧ ∀ i < d, ¬ stop ((b + i) % n) := by
  have hreach : ∃ d, stop ((b + d) % n) := by
    refine ⟨n - b + c, ?_⟩
    have hring : (b + (n - b + c)) % n = c := by
      rw [← Nat.add_assoc, Nat.add_sub_cancel' (Nat.le_of_lt hb), Nat.add_mod_left, Nat.mod_eq_of_lt hc]
    rw [hring]
    exact hstop
  have hn : 0 < n := Nat.zero_lt_of_lt hb
  refine ⟨Nat.find hreach, ?_, Nat.find_spec hreach, fun i hi => Nat.find_min hreach hi⟩
  refine Nat.lt_of_not_le fun hle => Nat.find_min hreach (Nat.sub_lt (Nat.lt_of_lt_of_le hn hle) hn) ?_
  have hwrap : (b + (Nat.find hreach - n)) % n = (b + Nat.find hreach) % n := by
    rw [← Nat.add_mod_right, Nat.add_assoc, Nat.sub_add_cancel hle]
  rw [hwrap]
  exact Nat.find_spec hreach

/-- Buckets less than a turn apart are distinct. -/
theorem ring_ne {i : Nat} (hi : i < d) (hd : d < n) : (b + i) % n ≠ (b + d) % n := by
  intro h
  have hmod : i ≡ d [MOD n] := Nat.ModEq.add_left_cancel' b h
  exact absurd (Nat.ModEq.eq_of_lt_of_lt hmod (Nat.lt_trans hi hd) hd) (Nat.ne_of_lt hi)

end Walk

/-! ## Rows -/

section Rows

variable {K V : Type} {n : Nat} {home : K → Nat} {rows : Nat → Option (K × V)} {key : K} {value : V}

/-- A key is held with a value. -/
def Holds (n : Nat) (rows : Nat → Option (K × V)) (key : K) (value : V) : Prop := ∃ b < n, rows b = some (key, value)

/-- No empty bucket lies between a key's home and its bucket. -/
def Chained (n : Nat) (home : K → Nat) (rows : Nat → Option (K × V)) : Prop :=
  ∀ b < n, ∀ key value, rows b = some (key, value) →
    ∃ d < n, (home key + d) % n = b ∧ ∀ i < d, rows ((home key + i) % n) ≠ none

/-- A key has one bucket. -/
def Single (n : Nat) (rows : Nat → Option (K × V)) : Prop :=
  ∀ b < n, ∀ c < n, ∀ key value other, rows b = some (key, value) → rows c = some (key, other) → b = c

/-- The buckets in use. -/
def occupied (n : Nat) (rows : Nat → Option (K × V)) : Finset Nat := {b ∈ Finset.range n | (rows b).isSome}

theorem mem_occupied {b : Nat} : b ∈ occupied n rows ↔ b < n ∧ rows b ≠ none := by
  rw [occupied, Finset.mem_filter, Finset.mem_range, Option.isSome_iff_ne_none]

/-- Fewer keys than buckets leave an empty one. -/
theorem exists_empty (h : (occupied n rows).card < n) : ∃ b < n, rows b = none := by
  by_contra hnone
  have hall : occupied n rows = Finset.range n := by
    ext b
    rw [mem_occupied, Finset.mem_range]
    exact ⟨fun hb => hb.1, fun hb => ⟨hb, fun hrow => hnone ⟨b, hb, hrow⟩⟩⟩
  rw [hall, Finset.card_range] at h
  exact Nat.lt_irrefl n h

/-! ## Placing -/

/-- Places a key in the first empty bucket from its home on. -/
def place (n : Nat) (home : K → Nat) (rows : Nat → Option (K × V)) (row : K × V) : Option (Nat → Option (K × V)) :=
  (search n (fun b => (rows b).isNone) n (home row.1)).map fun b => update rows b (some row)

/-- What one placement does: it takes an empty bucket with none empty before it. -/
theorem place_eq (value : V) (hhome : home key < n) (hroom : (occupied n rows).card < n) :
    ∃ d < n, rows ((home key + d) % n) = none ∧ (∀ i < d, rows ((home key + i) % n) ≠ none) ∧
      place n home rows (key, value) = some (update rows ((home key + d) % n) (some (key, value))) := by
  obtain ⟨c, hc, hemp⟩ := exists_empty hroom
  obtain ⟨d, hd, hstop, hbef⟩ := exists_first (fun b => (rows b).isNone) hhome hc (by rw [hemp]; rfl)
  refine ⟨d, hd, Option.isNone_iff_eq_none.mp hstop, fun i hi h => hbef i hi (by rw [h]; rfl), ?_⟩
  rw [place, search_eq hhome hstop hbef hd]
  rfl

section Update

variable {b : Nat} (hemp : rows b = none)
include hemp

/-- An occupied bucket stays occupied. -/
theorem update_ne_none {c : Nat} (row : K × V) (h : rows c ≠ none) : update rows b (some row) c ≠ none := by
  have hcb : c ≠ b := fun hcb => h (by rw [hcb, hemp])
  rw [update_of_ne hcb]
  exact h

theorem chained_update (hchain : Chained n home rows) {d : Nat} (hd : d < n) (hb : (home key + d) % n = b)
    (hbef : ∀ i < d, rows ((home key + i) % n) ≠ none) :
    Chained n home (update rows b (some (key, value))) := by
  intro c hc key' value' hrow
  by_cases hcb : c = b
  · subst hcb
    rw [update_self] at hrow
    cases hrow
    exact ⟨d, hd, hb, fun i hi => update_ne_none hemp _ (hbef i hi)⟩
  · rw [update_of_ne hcb] at hrow
    obtain ⟨e, he, hec, hchained⟩ := hchain c hc key' value' hrow
    exact ⟨e, he, hec, fun i hi => update_ne_none hemp _ (hchained i hi)⟩

theorem holds_update (hb : b < n) {key' : K} {value' : V} :
    Holds n (update rows b (some (key, value))) key' value' ↔
      Holds n rows key' value' ∨ (key', value') = (key, value) := by
  constructor
  · rintro ⟨c, hc, hrow⟩
    by_cases hcb : c = b
    · subst hcb
      rw [update_self] at hrow
      exact Or.inr (Option.some.inj hrow).symm
    · rw [update_of_ne hcb] at hrow
      exact Or.inl ⟨c, hc, hrow⟩
  · rintro (⟨c, hc, hrow⟩ | heq)
    · refine ⟨c, hc, ?_⟩
      rw [update_of_ne (fun hcb => ?_)]
      · exact hrow
      · rw [hcb, hemp] at hrow
        cases hrow
    · refine ⟨b, hb, ?_⟩
      rw [update_self, heq]

end Update

theorem single_update (hsingle : Single n rows) {b : Nat} (hfresh : ∀ value, ¬ Holds n rows key value) :
    Single n (update rows b (some (key, value))) := by
  intro c hc d hd key' v w hv hw
  by_cases hcb : c = b
  · by_cases hdb : d = b
    · rw [hcb, hdb]
    · rw [hcb, update_self] at hv
      rw [update_of_ne hdb] at hw
      cases hv
      exact absurd ⟨d, hd, hw⟩ (hfresh w)
  · rw [update_of_ne hcb] at hv
    by_cases hdb : d = b
    · rw [hdb, update_self] at hw
      cases hw
      exact absurd ⟨c, hc, hv⟩ (hfresh v)
    · rw [update_of_ne hdb] at hw
      exact hsingle c hc d hd key' v w hv hw

theorem card_occupied_update (rows : Nat → Option (K × V)) (b : Nat) (row : K × V) :
    (occupied n (update rows b (some row))).card ≤ (occupied n rows).card + 1 := by
  refine le_trans (Finset.card_le_card fun c hc => ?_) (Finset.card_insert_le b _)
  obtain ⟨hc, hrow⟩ := mem_occupied.mp hc
  by_cases hcb : c = b
  · rw [hcb]
    exact Finset.mem_insert_self b _
  · rw [update_of_ne hcb] at hrow
    exact Finset.mem_insert_of_mem (mem_occupied.mpr ⟨hc, hrow⟩)

/-- A list of rows with distinct keys is placed when it is shorter than the ring, and the ring then holds just it. -/
theorem foldlM_place (hhome : ∀ key, home key < n) {pairs : List (K × V)} (hkeys : (pairs.map Prod.fst).Nodup)
    (hfresh : ∀ row ∈ pairs, ∀ value, ¬ Holds n rows row.1 value) (hchain : Chained n home rows)
    (hsingle : Single n rows) (hroom : (occupied n rows).card + pairs.length < n) :
    ∃ after, pairs.foldlM (place n home) rows = some after ∧ Chained n home after ∧ Single n after ∧
      (occupied n after).card ≤ (occupied n rows).card + pairs.length ∧
      ∀ key value, Holds n after key value ↔ Holds n rows key value ∨ (key, value) ∈ pairs := by
  induction pairs generalizing rows with
  | nil => exact ⟨rows, rfl, hchain, hsingle, Nat.le_refl _, fun key value => by simp⟩
  | cons row pairs ih =>
    obtain ⟨key, value⟩ := row
    rw [List.map_cons, List.nodup_cons] at hkeys
    rw [List.length_cons] at hroom
    obtain ⟨d, hd, hemp, hbef, hpl⟩ := place_eq value (hhome key)
      (show (occupied n rows).card < n by omega)
    have hb : (home key + d) % n < n := Nat.mod_lt _ (Nat.zero_lt_of_lt hd)
    have hcnt := card_occupied_update (n := n) rows ((home key + d) % n) (key, value)
    have hself := hfresh (key, value) List.mem_cons_self
    have hrest : ∀ row ∈ pairs, ∀ other,
        ¬ Holds n (update rows ((home key + d) % n) (some (key, value))) row.1 other := by
      intro row hrow other
      rw [holds_update hemp hb]
      rintro (hold | hnew)
      · exact hfresh row (List.mem_cons_of_mem _ hrow) other hold
      · exact hkeys.1 (List.mem_map.mpr ⟨row, hrow, (Prod.mk.inj hnew).1⟩)
    obtain ⟨after, hrun, hchain', hsingle', hcard, hholds⟩ := ih hkeys.2 hrest
      (chained_update hemp hchain hd rfl hbef) (single_update hsingle hself) (by omega)
    refine ⟨after, ?_, hchain', hsingle', ?_, fun key' value' => ?_⟩
    · rw [List.foldlM_cons, hpl]
      exact hrun
    · rw [List.length_cons]
      omega
    · rw [hholds, holds_update hemp hb, List.mem_cons, or_assoc]

/-! ## Finding -/

variable [DecidableEq K]

/-- Whether the walk for a key ends at a bucket. -/
def stops (rows : Nat → Option (K × V)) (key : K) (b : Nat) : Bool := (rows b).all fun row => row.1 = key

theorem stops_iff {b : Nat} : stops rows key b ↔ rows b = none ∨ ∃ value, rows b = some (key, value) := by
  rw [stops]
  cases rows b with
  | none => simp
  | some row =>
    obtain ⟨key', value'⟩ := row
    simp

/-- The walk for a held key ends at its bucket. -/
theorem search_held (hchain : Chained n home rows) (hsingle : Single n rows) (hhome : home key < n) {b : Nat}
    (hb : b < n) (hrow : rows b = some (key, value)) :
    search n (fun b => stops rows key b) n (home key) = some b := by
  obtain ⟨d, hd, hdb, hbef⟩ := hchain b hb key value hrow
  have hstop : stops rows key ((home key + d) % n) := stops_iff.mpr (Or.inr ⟨value, by rw [hdb, hrow]⟩)
  rw [search_eq hhome hstop (fun i hi h => ?_) hd, hdb]
  rcases stops_iff.mp h with h | ⟨other, h⟩
  · exact hbef i hi h
  · have := hsingle _ (Nat.mod_lt _ (Nat.zero_lt_of_lt hb)) b hb key other value h hrow
    exact ring_ne hi hd (this.trans hdb.symm)

/-- The walk for a key that is not held ends at an empty bucket. -/
theorem search_absent (hhome : home key < n) (hroom : (occupied n rows).card < n)
    (h : ∀ value, ¬ Holds n rows key value) :
    ∃ b < n, search n (fun b => stops rows key b) n (home key) = some b ∧ rows b = none := by
  obtain ⟨c, hc, hemp⟩ := exists_empty hroom
  obtain ⟨d, hd, hstop, hbef⟩ := exists_first (fun b => stops rows key b) hhome hc
    (stops_iff.mpr (Or.inl hemp))
  have hb : (home key + d) % n < n := Nat.mod_lt _ (Nat.zero_lt_of_lt hd)
  refine ⟨_, hb, search_eq hhome hstop hbef hd, ?_⟩
  rcases stops_iff.mp hstop with hnone | ⟨value, hrow⟩
  · exact hnone
  · exact absurd ⟨_, hb, hrow⟩ (h value)

end Rows

end Relocade.Probing
