import Mathlib.Data.List.Pairwise
import Relocade.Ssa.StateFields

/-!
# `Ssa.WriteBack` — the retained fields are a write-back cache

The abstract model writes every definition to memory at once. The fields retained in SSA refine it: along every path,
reads give the bytes of the written-through memory, and publication brings the backing memory to it.
-/

namespace Relocade.Ssa

open Memory

/-! ## The abstract model -/

section

variable {V : Type} (ρ : V → BitVec 128)

/-- The address a location names at run time. -/
def Location.runAddress (base : V) (location : Location V) : Nat :=
  match location.address with
  | .fixed offset => (Pointer.base base).address ρ + offset
  | .indexed span displacement => (Pointer.displaced base displacement).address ρ + span.start

/-- Whether an indexed location stays inside its declared span. -/
def Location.Within (base : V) (location : Location V) : Prop :=
  match location.address with
  | .fixed _ => True
  | .indexed span _ => (Pointer.base base).address ρ + span.start ≤ location.runAddress ρ base ∧
      location.runAddress ρ base + location.type.bytes ≤ (Pointer.base base).address ρ + span.stop

def Access.location : Access V → Location V
  | .read location _ => location
  | .define location _ => location

/-- The accesses of a path. -/
def accesses (events : List (Event V)) : List (Access V) :=
  events.filterMap fun
    | .access access => some access
    | .publishClone => none

/-- The bytes the reads of a path give and the memory at its end, when every definition is written at once. -/
def writeThrough (base : V) (m : Memory) : List (Access V) → List (List (BitVec 8)) × Memory
  | [] => ([], m)
  | .read location _ :: rest =>
      let (reads, m') := writeThrough base m rest
      (m.read (location.runAddress ρ base) location.type.bytes :: reads, m')
  | .define location value :: rest =>
      writeThrough base (m.write (location.runAddress ρ base) (lowBytes location.type.bytes (ρ value))) rest

end

/-! ## Invariants -/

section

variable {V : Type} {ρ : V → BitVec 128} {s : StateFields V} {m w : Memory} {span : Span}

/-- Live definitions never overlap, and a location's width determines its retained type. -/
structure Wellformed (s : StateFields V) : Prop where
  disjoint : s.definitions.Pairwise fun a b => a.span.overlaps b.span = false
  typed : ∀ entry ∈ s.definitions, entry.location.bytes = entry.type.bytes

/-- Where an entry lies in memory. -/
def Definition.address (ρ : V → BitVec 128) (base : V) (entry : Definition V) : Nat :=
  (Pointer.base base).address ρ + entry.location.offset

/-- Whether an entry holds the byte at an address. -/
def Definition.Holds (ρ : V → BitVec 128) (base : V) (entry : Definition V) (x : Nat) : Prop :=
  entry.address ρ base ≤ x ∧ x < entry.address ρ base + entry.type.bytes

/-- The retained values are those of the written-through memory `w`, and the backing memory `m` differs from it only
    where a dirty entry lies. -/
structure Coherent (ρ : V → BitVec 128) (s : StateFields V) (m w : Memory) : Prop where
  current : ∀ entry ∈ s.definitions,
    w.read (entry.address ρ s.base) entry.type.bytes = lowBytes entry.type.bytes (ρ entry.value.value)
  backed : ∀ x, (∀ entry ∈ s.definitions, entry.value.dirty = true → ¬ entry.Holds ρ s.base x) → m x = w x

theorem Span.overlaps_comm (a b : Span) : a.overlaps b = b.overlaps a := by
  simp only [Span.overlaps, decide_eq_decide]
  exact And.comm

theorem Span.overlaps_self {a b : Span} (h : a = b) (hpos : a.start < a.stop) : a.overlaps b = true := by
  subst h
  simpa [Span.overlaps] using hpos

variable {entry : Definition V}

variable {base : V}

/-- An entry that holds a byte of a span overlaps it. -/
theorem overlaps_of_holds {x : Nat} (ht : entry.location.bytes = entry.type.bytes)
    (hlo : (Pointer.base base).address ρ + span.start ≤ x) (hhi : x < (Pointer.base base).address ρ + span.stop)
    (h : entry.Holds ρ base x) : span.overlaps entry.span = true := by
  simp only [Definition.Holds, Definition.address] at h
  simp only [Span.overlaps, Definition.span, LocationKey.span, Span.new, decide_eq_true_eq, ht]
  omega

/-- An entry whose span another covers holds only bytes of it. -/
theorem holds_of_covers {x : Nat} (ht : entry.location.bytes = entry.type.bytes)
    (hc : span.covers entry.span = true) (h : entry.Holds ρ base x) :
    (Pointer.base base).address ρ + span.start ≤ x ∧ x < (Pointer.base base).address ρ + span.stop := by
  simp only [Definition.Holds, Definition.address] at h
  simp only [Span.covers, Definition.span, LocationKey.span, Span.new, decide_eq_true_eq, ht] at hc
  omega

theorem Wellformed.withBase (base : V) : Wellformed (StateFields.withBase base) :=
  ⟨List.Pairwise.nil, fun _ h => absurd h List.not_mem_nil⟩

theorem Coherent.withBase (base : V) : Coherent ρ (StateFields.withBase base) m m :=
  ⟨fun _ h => absurd h List.not_mem_nil, fun _ _ => rfl⟩

/-! ## Stores -/

theorem execute_append (xs ys : List (Instr V)) : execute ρ m (xs ++ ys) = execute ρ (execute ρ m xs) ys :=
  Run.after_append xs ys

theorem execute_stores (entries : List (Definition V)) (base : V) :
    execute ρ m (entries.map (·.store base)) =
      m.writeAll (entries.map fun entry => (entry.address ρ base, lowBytes entry.type.bytes (ρ entry.value.value))) := by
  induction entries generalizing m with
  | nil => rfl
  | cons entry entries ih => exact ih

theorem loads_append {xs ys : List (Instr V)} : Loads ρ m (xs ++ ys) ↔ Loads ρ m xs ∧ Loads ρ (execute ρ m xs) ys := by
  induction xs generalizing m with
  | nil => exact ⟨fun h => ⟨trivial, h⟩, fun h => h.2⟩
  | cons instr xs ih =>
    cases instr with
    | load type pointer offset result =>
      rw [List.cons_append, Loads, Loads, ih, and_assoc]
      rfl
    | store type pointer offset value => exact ih

/-- Storing current entries brings the memory to the written-through one on every byte they hold. -/
theorem execute_stores_agree {entries : List (Definition V)}
    (h : ∀ entry ∈ entries,
      w.read (entry.address ρ base) entry.type.bytes = lowBytes entry.type.bytes (ρ entry.value.value))
    {x : Nat} (hx : m x = w x ∨ ∃ entry ∈ entries, entry.Holds ρ base x) :
    execute ρ m (entries.map (·.store base)) x = w x := by
  rw [execute_stores]
  refine Memory.writeAll_agree (w := w) ?_ x ?_
  · intro write hw
    obtain ⟨entry, he, rfl⟩ := List.mem_map.mp hw
    rw [length_lowBytes]
    exact h entry he
  · rcases hx with hx | ⟨entry, he, hin⟩
    · exact Or.inl hx
    · refine Or.inr ⟨_, List.mem_map_of_mem he, ?_⟩
      rw [length_lowBytes]
      exact hin

theorem mem_dirty : entry ∈ s.dirty ↔ entry ∈ s.definitions ∧ entry.value.dirty = true := by
  rw [StateFields.dirty, List.mem_insertionSort, List.mem_filter]

/-- Publishing brings the backing memory to the written-through one. -/
theorem publish_spec (hc : Coherent ρ s m w) : execute ρ m s.publish = w := by
  funext x
  refine execute_stores_agree (fun entry he => hc.current entry (mem_dirty.mp he).1) ?_
  by_cases h : ∃ entry ∈ s.dirty, entry.Holds ρ s.base x
  · exact Or.inr h
  · refine Or.inl (hc.backed x fun entry he hd hin => h ⟨entry, mem_dirty.mpr ⟨he, hd⟩, hin⟩)

/-! ## Flushing -/

/-- What a flush does to one entry. -/
def flushed (span : Span) (replacing : Bool) (entry : Definition V) : Definition V :=
  if entry.value.dirty && StateFields.mustStore span replacing entry then entry.markClean else entry

theorem flushed_keeps (span : Span) (replacing : Bool) (entry : Definition V) :
    (flushed span replacing entry).location = entry.location ∧ (flushed span replacing entry).type = entry.type ∧
      (flushed span replacing entry).value.value = entry.value.value := by
  unfold flushed
  split <;> exact ⟨rfl, rfl, rfl⟩

theorem flushed_dirty {replacing : Bool} : (flushed span replacing entry).value.dirty = true ↔
    entry.value.dirty = true ∧ StateFields.mustStore span replacing entry = false := by
  unfold flushed
  cases hd : entry.value.dirty <;> cases hm : StateFields.mustStore span replacing entry <;>
    simp [hd, Definition.markClean, TrackedValue.markClean]

theorem flush_definitions (s : StateFields V) (span : Span) (replacing : Bool) :
    (s.flush span replacing).2.definitions = s.definitions.map (flushed span replacing) := rfl

theorem flush_wellformed (hs : Wellformed s) (span : Span) (replacing : Bool) : Wellformed (s.flush span replacing).2 := by
  have hspan : ∀ entry : Definition V, (flushed span replacing entry).span = entry.span := by
    intro entry
    rw [Definition.span, (flushed_keeps span replacing entry).1]
    rfl
  constructor
  · rw [flush_definitions, List.pairwise_map]
    simpa only [hspan] using hs.disjoint
  · rw [flush_definitions]
    intro entry he
    obtain ⟨e, he', rfl⟩ := List.mem_map.mp he
    obtain ⟨hl, ht, -⟩ := flushed_keeps span replacing e
    rw [hl, ht]
    exact hs.typed e he'

theorem flush_coherent (hc : Coherent ρ s m w) (span : Span) (replacing : Bool) :
    Coherent ρ (s.flush span replacing).2 (execute ρ m (s.flush span replacing).1) w := by
  have hkeep : ∀ entry : Definition V, (flushed span replacing entry).address ρ s.base = entry.address ρ s.base := by
    intro entry
    rw [Definition.address, (flushed_keeps span replacing entry).1]
    rfl
  constructor
  · intro entry he
    rw [flush_definitions] at he
    obtain ⟨e, he', rfl⟩ := List.mem_map.mp he
    obtain ⟨-, ht, hv⟩ := flushed_keeps span replacing e
    show w.read ((flushed span replacing e).address ρ s.base) _ = _
    rw [hkeep, ht, hv]
    exact hc.current e he'
  · intro x hx
    refine execute_stores_agree (w := w) ?_ ?_
    · intro entry he
      exact hc.current entry (mem_dirty.mp (List.mem_filter.mp he).1).1
    · by_cases h : ∃ entry ∈ s.dirty.filter (StateFields.mustStore span replacing), entry.Holds ρ s.base x
      · exact Or.inr h
      · refine Or.inl (hc.backed x fun entry he hd hin => ?_)
        by_cases hm : StateFields.mustStore span replacing entry = true
        · exact h ⟨entry, List.mem_filter.mpr ⟨mem_dirty.mpr ⟨he, hd⟩, hm⟩, hin⟩
        · refine hx (flushed span replacing entry) (List.mem_map_of_mem he)
            (flushed_dirty.mpr ⟨hd, by simpa using hm⟩) ?_
          show _ ∧ _
          rw [show (s.flush span replacing).2.base = s.base from rfl, hkeep, (flushed_keeps span replacing entry).2.1]
          exact hin

/-- After a flush no dirty entry overlaps the span, unless the span replaces it. -/
theorem flush_clean {replacing : Bool} (he : entry ∈ (s.flush span replacing).2.definitions)
    (hd : entry.value.dirty = true) : span.overlaps entry.span = false ∨
      (replacing = true ∧ span.covers entry.span = true) := by
  rw [flush_definitions] at he
  obtain ⟨e, -, rfl⟩ := List.mem_map.mp he
  obtain ⟨-, hm⟩ := flushed_dirty.mp hd
  have hspan : (flushed span replacing e).span = e.span := by
    rw [Definition.span, (flushed_keeps span replacing e).1]
    rfl
  rw [hspan]
  cases ho : span.overlaps e.span with
  | false => exact Or.inl rfl
  | true => exact Or.inr (by simpa [StateFields.mustStore, ho] using hm)

/-! ## Retaining and adding entries -/

theorem mem_retain :
    entry ∈ (s.retain span).definitions ↔ entry ∈ s.definitions ∧ span.overlaps entry.span = false := by
  rw [StateFields.retain, List.mem_filter, Bool.not_eq_true']

theorem retain_wellformed (hs : Wellformed s) : Wellformed (s.retain span) :=
  ⟨hs.disjoint.filter _, fun entry he => hs.typed entry (mem_retain.mp he).1⟩

/-- Where no entry overlaps a span, an access of it flushes nothing. -/
theorem flush_apart (h : ∀ entry ∈ s.definitions, span.overlaps entry.span = false) (replacing : Bool) :
    s.flush span replacing = ([], s) := by
  have hkeep : ∀ entry ∈ s.definitions, StateFields.mustStore span replacing entry = false := by
    intro entry he
    rw [StateFields.mustStore, h entry he, Bool.false_and]
  have hfilter : s.dirty.filter (StateFields.mustStore span replacing) = [] := by
    refine List.filter_eq_nil_iff.mpr fun entry he => ?_
    rw [hkeep entry (mem_dirty.mp he).1]
    exact Bool.false_ne_true
  have hmap : s.definitions.map (flushed span replacing) = s.definitions := by
    refine (List.map_congr_left fun entry he => ?_).trans (List.map_id _)
    rw [flushed, hkeep entry he, Bool.and_false]
    rfl
  refine Prod.ext ?_ ?_
  · exact congrArg (List.map (·.store s.base)) hfilter
  · exact congrArg (fun definitions => { s with definitions := definitions }) hmap

theorem retain_apart (h : ∀ entry ∈ s.definitions, span.overlaps entry.span = false) : s.retain span = s := by
  have hfilter : s.definitions.filter (fun entry => !span.overlaps entry.span) = s.definitions :=
    List.filter_eq_self.mpr fun entry he => by rw [h entry he]; rfl
  unfold StateFields.retain
  rw [hfilter]

/-- An entry apart from the others may be added. -/
theorem push_wellformed (hs : Wellformed s) (ht : entry.location.bytes = entry.type.bytes)
    (hdis : ∀ e ∈ s.definitions, entry.span.overlaps e.span = false) : Wellformed (s.push entry) := by
  constructor
  · refine List.pairwise_append.mpr ⟨hs.disjoint, List.pairwise_singleton _ _, fun e he e' he' => ?_⟩
    obtain rfl := List.mem_singleton.mp he'
    rw [Span.overlaps_comm]
    exact hdis e he
  · intro e he
    rcases List.mem_append.mp he with he | he
    · exact hs.typed e he
    · obtain rfl := List.mem_singleton.mp he
      exact ht

/-- A new entry may replace those it overlaps. -/
theorem replace_wellformed (hs : Wellformed s) (replacing : Bool) {offset : Nat} {type : MemoryType}
    (value : TrackedValue V) (first : Option Nat) :
    Wellformed (((s.flush (LocationKey.of offset type).span replacing).2.retain (LocationKey.of offset type).span).push
      ⟨.of offset type, type, value, first⟩) :=
  push_wellformed (retain_wellformed (flush_wellformed hs _ replacing)) rfl fun _ he => (mem_retain.mp he).2

/-- A byte of a span that a flush did not replace is backed. -/
theorem flush_backed (hs : Wellformed s) (hc : Coherent ρ s m w) {x : Nat}
    (hlo : (Pointer.base s.base).address ρ + span.start ≤ x) (hhi : x < (Pointer.base s.base).address ρ + span.stop) :
    execute ρ m (s.flush span false).1 x = w x := by
  refine (flush_coherent hc span false).backed x fun entry he hd hin => ?_
  have ht := (flush_wellformed hs span false).typed entry he
  have hov : span.overlaps entry.span = true := overlaps_of_holds ht hlo hhi hin
  rcases flush_clean he hd with h | ⟨h, -⟩
  · rw [hov] at h
    exact absurd h (by decide)
  · exact absurd h (by decide)

/-- A write inside a span leaves the entries apart from the span as they are. -/
theorem read_write_apart {addr : Nat} {bytes : List (BitVec 8)}
    (ht : entry.location.bytes = entry.type.bytes) (hov : span.overlaps entry.span = false)
    (hlo : (Pointer.base base).address ρ + span.start ≤ addr)
    (hhi : addr + bytes.length ≤ (Pointer.base base).address ρ + span.stop) :
    (w.write addr bytes).read (entry.address ρ base) entry.type.bytes =
      w.read (entry.address ρ base) entry.type.bytes := by
  refine Memory.read_congr.mpr fun x hx hx' => Memory.write_outside fun h => ?_
  have : span.overlaps entry.span = true :=
    overlaps_of_holds ht (Nat.le_trans hlo h.1) (Nat.lt_of_lt_of_le h.2 hhi) ⟨hx, hx'⟩
  rw [hov] at this
  exact absurd this (by decide)

/-! ## Reading -/

theorem find_spec {key : LocationKey}
    (h : s.definitions.find? (fun e => decide (e.location = key)) = some entry) :
    entry ∈ s.definitions ∧ entry.location = key :=
  ⟨List.mem_of_find?_eq_some h, by simpa using List.find?_some h⟩

/-- The entry at the key of a field has the field's type. -/
theorem type_of_find (hs : Wellformed s) {offset : Nat} {type : MemoryType}
    (he : entry ∈ s.definitions) (hloc : entry.location = .of offset type) : entry.type = type := by
  have := hs.typed entry he
  rw [hloc] at this
  exact (MemoryType.bytes_inj this).symm

theorem stop_key (offset : Nat) (type : MemoryType) :
    (LocationKey.of offset type).span.stop = offset + type.bytes := rfl

/-- A read gives the bytes of the written-through memory. -/
theorem read_spec (hs : Wellformed s) (loc : Location V) (loaded : V) :
    ∃ value code s', s.read loc loaded = some (value, code, s') ∧ s'.base = s.base ∧ Wellformed s' ∧
      ∀ {ρ m w}, Coherent ρ s m w → loc.Within ρ s.base → Loads ρ m code →
        Coherent ρ s' (execute ρ m code) w ∧
          lowBytes loc.type.bytes (ρ value) = w.read (loc.runAddress ρ s.base) loc.type.bytes := by
  obtain ⟨type, address⟩ := loc
  cases address with
  | indexed span displacement =>
    refine ⟨_, _, _, rfl, rfl, flush_wellformed hs span false, fun {ρ m w} hc hin hl => ?_⟩
    obtain ⟨-, hload, -⟩ := loads_append.mp hl
    rw [execute_append]
    refine ⟨flush_coherent hc span false, hload.trans (Memory.read_congr.mpr fun x hlo hhi => ?_)⟩
    exact flush_backed hs hc (Nat.le_trans hin.1 hlo) (Nat.lt_of_lt_of_le hhi hin.2)
  | fixed offset =>
    cases hf : s.definitions.find? (fun e => decide (e.location = .of offset type)) with
    | some entry =>
      obtain ⟨he, hloc⟩ := find_spec hf
      have ht := type_of_find hs he hloc
      refine ⟨entry.value.value, [], s, ?_, rfl, hs, fun {ρ m w} hc _ _ => ⟨hc, ?_⟩⟩
      · simp [StateFields.read, hf, ht]
      · have := hc.current entry he
        rw [Definition.address, hloc, ht] at this
        exact this.symm
    | none =>
      have hread : s.read ⟨type, .fixed offset⟩ loaded = some (loaded,
          (s.flush (LocationKey.of offset type).span false).1 ++ [.load type (.base s.base) offset loaded],
          ((s.flush (LocationKey.of offset type).span false).2.retain (LocationKey.of offset type).span).push
            ⟨.of offset type, type, .new loaded, none⟩) := by
        simp only [StateFields.read, hf]
      refine ⟨_, _, _, hread, rfl, replace_wellformed hs false _ _, fun {ρ m w} hc _ hl => ?_⟩
      have hc' := flush_coherent hc (LocationKey.of offset type).span false
      obtain ⟨-, hload, -⟩ := loads_append.mp hl
      have hbytes : lowBytes type.bytes (ρ loaded) =
          w.read ((Pointer.base s.base).address ρ + offset) type.bytes := by
        refine hload.trans (Memory.read_congr.mpr fun x hlo hhi => ?_)
        exact flush_backed hs hc hlo (by rwa [stop_key, ← Nat.add_assoc])
      rw [execute_append]
      refine ⟨⟨fun entry he => ?_, fun x hx => ?_⟩, hbytes⟩
      · rcases List.mem_append.mp he with he | he
        · exact hc'.current entry (mem_retain.mp he).1
        · obtain rfl := List.mem_singleton.mp he
          exact hbytes.symm
      · refine hc'.backed x fun entry he hd => ?_
        rcases flush_clean he hd with h | ⟨h, -⟩
        · exact hx entry (List.mem_append_left _ (mem_retain.mpr ⟨he, h⟩)) hd
        · exact absurd h (by decide)

/-! ## Defining -/

variable [DecidableEq V]

/-- The fields after an entry's value is replaced. -/
theorem redefine_definitions (entry : Definition V) (value : V) : ∃ entry' : Definition V,
    (s.redefine entry.location entry value).definitions =
      s.definitions.map (fun e => if e.location = entry.location then entry' else e) ∧
    entry'.location = entry.location ∧ entry'.type = entry.type ∧ entry'.value.value = value ∧
    (entry'.value.dirty = false → entry.value.value = value ∧ entry.value.dirty = false) := by
  by_cases h : entry.value.value = value
  · have hdefn : entry.value.define value = (entry.value, false) := if_pos h
    refine ⟨entry, ?_, rfl, rfl, h, fun hd => ⟨h, hd⟩⟩
    rw [StateFields.redefine, hdefn]
    simp
  · have hdefn : entry.value.define value = (⟨value, true⟩, true) := if_neg h
    rw [StateFields.redefine, hdefn]
    exact ⟨_, rfl, rfl, rfl, rfl, fun hd => absurd hd (by simp)⟩

/-- Only the entry itself overlaps an entry. -/
theorem eq_of_overlaps (hs : Wellformed s) {e entry : Definition V} (h : e ∈ s.definitions)
    (h' : entry ∈ s.definitions) (hov : e.span.overlaps entry.span = true) : e = entry := by
  by_contra hne
  have : Std.Symm fun a b : Definition V => a.span.overlaps b.span = false :=
    ⟨fun a b h => (Span.overlaps_comm _ _).trans h⟩
  have := hs.disjoint.forall h h' hne
  rw [hov] at this
  exact absurd this (by decide)

/-- Only the entry itself has its location. -/
theorem eq_of_location (hs : Wellformed s) {e entry : Definition V} (h : e ∈ s.definitions)
    (h' : entry ∈ s.definitions) (hl : e.location = entry.location) : e = entry := by
  refine eq_of_overlaps hs h h' (Span.overlaps_self (congrArg LocationKey.span hl) ?_)
  have ht := hs.typed e h
  have hpos := e.type.bytes_pos
  simp only [Definition.span, LocationKey.span, Span.new]
  omega

/-- Redefining the entry of a location writes it through. -/
theorem redefine_spec (hs : Wellformed s) (he : entry ∈ s.definitions) (value : V) :
    Wellformed (s.redefine entry.location entry value) ∧
      ∀ {ρ m w}, Coherent ρ s m w → Coherent ρ (s.redefine entry.location entry value) m
        (w.write (entry.address ρ s.base) (lowBytes entry.type.bytes (ρ value))) := by
  obtain ⟨entry', hdefs, hloc, htype, hval, hclean⟩ := redefine_definitions (s := s) entry value
  have hspan : ∀ e : Definition V, (if e.location = entry.location then entry' else e).span = e.span := by
    intro e
    split
    · next h => rw [Definition.span, hloc, ← h]; rfl
    · rfl
  refine ⟨⟨?_, ?_⟩, fun {ρ m w} hc => ⟨?_, ?_⟩⟩
  · rw [hdefs, List.pairwise_map]
    simpa only [hspan] using hs.disjoint
  · rw [hdefs]
    intro e hmem
    obtain ⟨e₀, hmem₀, rfl⟩ := List.mem_map.mp hmem
    split
    · rw [hloc, htype]
      exact hs.typed entry he
    · exact hs.typed e₀ hmem₀
  · rw [hdefs]
    intro e hmem
    obtain ⟨e₀, hmem₀, rfl⟩ := List.mem_map.mp hmem
    show Memory.read _ (Definition.address ρ s.base _) _ = _
    split
    · have := Memory.read_write w (entry.address ρ s.base) (lowBytes entry.type.bytes (ρ value))
      rw [length_lowBytes] at this
      rw [htype, hval]
      simpa only [Definition.address, hloc] using this
    · next hne =>
        rw [← hc.current e₀ hmem₀]
        have hapart : entry.span.overlaps e₀.span = false :=
          Bool.eq_false_iff.mpr fun hov => hne (congrArg _ (eq_of_overlaps hs he hmem₀ hov)).symm
        refine read_write_apart (hs.typed e₀ hmem₀) hapart (Nat.le_refl _) ?_
        rw [length_lowBytes, ← hs.typed entry he, Definition.address, Nat.add_assoc]
        exact Nat.le_refl _
  · intro x hx
    have hkept : ∀ e ∈ s.definitions, e.location ≠ entry.location → e.value.dirty = true → ¬ e.Holds ρ s.base x := by
      intro e hmem hne hd
      refine hx e ?_ hd
      rw [hdefs]
      exact List.mem_map.mpr ⟨e, hmem, if_neg hne⟩
    by_cases hin : entry.Holds ρ s.base x
    · -- the entry holds the byte, so it was not dirtied
      have hnew : entry' ∈ (s.redefine entry.location entry value).definitions := by
        rw [hdefs]
        exact List.mem_map.mpr ⟨entry, he, if_pos rfl⟩
      have hnot : entry'.value.dirty = false := by
        rw [Bool.eq_false_iff]
        refine fun hd => hx entry' hnew hd ?_
        show Definition.address ρ s.base entry' ≤ x ∧ x < Definition.address ρ s.base entry' + entry'.type.bytes
        simpa only [Definition.Holds, Definition.address, hloc, htype] using hin
      obtain ⟨hsame, hd₀⟩ := hclean hnot
      rw [Memory.write_eq_self (by rw [length_lowBytes, hc.current entry he, hsame])]
      refine hc.backed x fun e hmem hd => ?_
      by_cases hl : e.location = entry.location
      · rw [eq_of_location hs hmem he hl, hd₀] at hd
        exact absurd hd (by decide)
      · exact hkept e hmem hl hd
    · rw [Memory.write_outside (by rw [length_lowBytes]; exact hin)]
      refine hc.backed x fun e hmem hd => ?_
      by_cases hl : e.location = entry.location
      · rw [eq_of_location hs hmem he hl]
        exact hin
      · exact hkept e hmem hl hd

/-- A definition is written through. -/
theorem define_spec (hs : Wellformed s) (loc : Location V) (value : V) :
    ∃ code s', s.define loc value = some (code, s') ∧ s'.base = s.base ∧ Wellformed s' ∧
      ∀ {ρ m w}, Coherent ρ s m w → loc.Within ρ s.base →
        Coherent ρ s' (execute ρ m code)
          (w.write (loc.runAddress ρ s.base) (lowBytes loc.type.bytes (ρ value))) := by
  obtain ⟨type, address⟩ := loc
  cases address with
  | indexed span displacement =>
    refine ⟨_, _, rfl, rfl, retain_wellformed (flush_wellformed hs span false), fun {ρ m w} hc hin => ?_⟩
    have hc' := flush_coherent hc span false
    rw [execute_append]
    refine ⟨fun entry he => ?_, fun x hx => ?_⟩
    · obtain ⟨hmem, hov⟩ := mem_retain.mp he
      refine Eq.trans ?_ (hc'.current entry hmem)
      refine read_write_apart ((flush_wellformed hs span false).typed entry hmem) hov hin.1 ?_
      rw [length_lowBytes]
      exact hin.2
    · refine Memory.write_congr fun _ => hc'.backed x fun entry he hd => ?_
      rcases flush_clean he hd with h | ⟨h, -⟩
      · exact hx entry (mem_retain.mpr ⟨he, h⟩) hd
      · exact absurd h (by decide)
  | fixed offset =>
    cases hf : s.definitions.find? (fun e => decide (e.location = .of offset type)) with
    | some entry =>
      obtain ⟨he, hloc⟩ := find_spec hf
      have ht := type_of_find hs he hloc
      obtain ⟨hs', hc'⟩ := redefine_spec hs he value
      rw [hloc] at hs'
      refine ⟨[], s.redefine (.of offset type) entry value, ?_, rfl, hs', fun {ρ m w} hc _ => ?_⟩
      · simp [StateFields.define, hf, ht]
      · have := hc' hc
        rw [Definition.address, hloc, ht] at this
        exact this
    | none =>
      have hdefn : s.define ⟨type, .fixed offset⟩ value = some (
          (s.flush (LocationKey.of offset type).span true).1,
          { ((s.flush (LocationKey.of offset type).span true).2.retain (LocationKey.of offset type).span).push
            ⟨.of offset type, type, .defined value, some s.writes⟩ with writes := s.writes + 1 }) := by
        simp only [StateFields.define, hf]
        rfl
      have hs' := @replace_wellformed _ _ hs true offset type (.defined value) (some s.writes)
      refine ⟨_, _, hdefn, rfl, ⟨hs'.disjoint, hs'.typed⟩, fun {ρ m w} hc _ => ?_⟩
      have hc' := flush_coherent hc (LocationKey.of offset type).span true
      have htyped := (flush_wellformed hs (LocationKey.of offset type).span true).typed
      refine ⟨fun entry he => ?_, fun x hx => ?_⟩
      · rcases List.mem_append.mp he with he | he
        · obtain ⟨hmem, hov⟩ := mem_retain.mp he
          refine Eq.trans ?_ (hc'.current entry hmem)
          refine read_write_apart (htyped entry hmem) hov (Nat.le_refl _) ?_
          rw [length_lowBytes, stop_key, ← Nat.add_assoc]
          exact Nat.le_refl _
        · obtain rfl := List.mem_singleton.mp he
          have := Memory.read_write w ((Pointer.base s.base).address ρ + offset) (lowBytes type.bytes (ρ value))
          rwa [length_lowBytes] at this
      · have hout := hx _ (List.mem_append_right _ (List.mem_singleton.mpr rfl)) rfl
        rw [Memory.write_outside (by rw [length_lowBytes]; exact hout)]
        refine hc'.backed x fun entry he hd hin => ?_
        rcases flush_clean he hd with h | ⟨-, h⟩
        · exact hx entry (List.mem_append_left _ (mem_retain.mpr ⟨he, h⟩)) hd hin
        · obtain ⟨hlo, hhi⟩ := holds_of_covers (htyped entry he) h hin
          rw [stop_key, ← Nat.add_assoc] at hhi
          exact hout ⟨hlo, hhi⟩

/-! ## Paths -/

/-- A path keeps the fields coherent with the memory that every definition writes at once. -/
theorem build_spec (hs : Wellformed s) (events : List (Event V)) :
    ∃ built, build s events = some built ∧ built.fields.base = s.base ∧ Wellformed built.fields ∧
      ∀ {ρ m w}, Coherent ρ s m w → (∀ access ∈ accesses events, access.location.Within ρ s.base) →
        Loads ρ m built.code →
        built.reads.map (fun read => lowBytes read.1.bytes (ρ read.2)) =
            (writeThrough ρ s.base w (accesses events)).1 ∧
          Coherent ρ built.fields (execute ρ m built.code) (writeThrough ρ s.base w (accesses events)).2 := by
  induction events generalizing s with
  | nil => exact ⟨_, rfl, rfl, hs, fun hc _ _ => ⟨rfl, hc⟩⟩
  | cons event events ih =>
    rcases event with (⟨location, loaded⟩ | ⟨location, value⟩) | _
    · obtain ⟨value, code, s', hread, hbase, hs', hspec⟩ := read_spec hs location loaded
      obtain ⟨rest, hrest, hbase', hs'', ih⟩ := ih hs'
      have hbuild : build s (.access (.read location loaded) :: events) =
          some ⟨(location.type, value) :: rest.reads, code ++ rest.code, rest.fields⟩ := by
        simp [build, hread, hrest]
      refine ⟨_, hbuild, hbase'.trans hbase, hs'', fun {ρ m w} hc hin hl => ?_⟩
      obtain ⟨hl₁, hl₂⟩ := loads_append.mp hl
      obtain ⟨hc', hbytes⟩ := hspec hc (hin _ List.mem_cons_self) hl₁
      rw [hbase] at ih
      obtain ⟨hrd, hfinal⟩ := ih hc' (fun access h => hin access (List.mem_cons_of_mem _ h)) hl₂
      rw [execute_append]
      exact ⟨congrArg₂ List.cons hbytes hrd, hfinal⟩
    · obtain ⟨code, s', hdefn, hbase, hs', hspec⟩ := define_spec hs location value
      obtain ⟨rest, hrest, hbase', hs'', ih⟩ := ih hs'
      have hbuild : build s (.access (.define location value) :: events) =
          some { rest with code := code ++ rest.code } := by
        simp [build, hdefn, hrest]
      refine ⟨_, hbuild, hbase'.trans hbase, hs'', fun {ρ m w} hc hin hl => ?_⟩
      obtain ⟨hl₁, hl₂⟩ := loads_append.mp hl
      have hc' := hspec hc (hin _ List.mem_cons_self)
      rw [hbase] at ih
      rw [execute_append]
      exact ih hc' (fun access h => hin access (List.mem_cons_of_mem _ h)) hl₂
    · obtain ⟨rest, hrest, hbase', hs'', ih⟩ := ih hs
      have hbuild : build s (.publishClone :: events) = some { rest with code := s.publish ++ rest.code } := by
        simp [build, hrest]
      refine ⟨_, hbuild, hbase', hs'', fun {ρ m w} hc hin hl => ?_⟩
      obtain ⟨hl₁, hl₂⟩ := loads_append.mp hl
      have hc' : Coherent ρ s (execute ρ m s.publish) w := by
        rw [publish_spec hc]
        exact ⟨hc.current, fun _ _ => rfl⟩
      rw [execute_append]
      exact ih hc' hin hl₂

/-- The fields retained along a path are a write-back cache: the build never fails, live definitions stay apart, reads
    give the bytes of the memory that every definition writes at once, publication brings the backing memory to it,
    and publishing clones on the way changes none of this. -/
theorem stateFields_writeBack (base : V) (events : List (Event V)) :
    ∃ built, build (StateFields.withBase base) events = some built ∧
      built.fields.definitions.Pairwise (fun a b => a.span.overlaps b.span = false) ∧
      ∀ (ρ : V → BitVec 128) (m : Memory), (∀ access ∈ accesses events, access.location.Within ρ base) →
        Loads ρ m built.code →
        built.reads.map (fun read => lowBytes read.1.bytes (ρ read.2)) = (writeThrough ρ base m (accesses events)).1 ∧
          execute ρ m (built.code ++ built.fields.publish) = (writeThrough ρ base m (accesses events)).2 := by
  obtain ⟨built, hbuild, -, hs, hspec⟩ := build_spec (Wellformed.withBase base) events
  refine ⟨built, hbuild, hs.disjoint, fun ρ m hin hl => ?_⟩
  obtain ⟨hreads, hc⟩ := hspec (Coherent.withBase base) hin hl
  rw [execute_append, publish_spec hc]
  exact ⟨hreads, rfl⟩

/-- A byte is read inside a dirty word. -/
def byteInWord : List (Event Nat) :=
  [.access (.define ⟨.word, .fixed 4⟩ 1), .access (.read ⟨.byte, .fixed 5⟩ 2)]

/-- The word is stored first; it is then clean, and nothing is left to publish. -/
theorem stateFields_writeBack_byteInWord :
    let ρ : Nat → BitVec 128 := fun v => if v = 1 then 0x1234 else if v = 2 then 0x12 else 0
    ∃ built, build (StateFields.withBase 0) byteInWord = some built ∧
      built.code = [.store .word (.base 0) 4 1, .load .byte (.base 0) 5 2] ∧ built.fields.publish = [] ∧
      built.reads.map (fun read => lowBytes read.1.bytes (ρ read.2)) = [[0x12]] ∧
      execute ρ (fun _ => 0) (built.code ++ built.fields.publish) =
        (writeThrough ρ 0 (fun _ => 0) (accesses byteInWord)).2 := by
  intro ρ
  obtain ⟨built, hbuild, -, hspec⟩ := stateFields_writeBack 0 byteInWord
  have hbuilt : (build (StateFields.withBase 0) byteInWord).map (fun built => (built.code, built.fields.publish)) =
    some ([.store .word (.base 0) 4 1, .load .byte (.base 0) 5 2], []) := by decide
  rw [hbuild] at hbuilt
  obtain ⟨hcode, hpublish⟩ := Prod.mk.inj (Option.some.inj hbuilt)
  obtain ⟨hreads, hmemory⟩ := hspec ρ (fun _ => 0)
    (List.forall_mem_cons.mpr ⟨trivial, List.forall_mem_singleton.mpr trivial⟩) (by rw [hcode]; exact ⟨by decide, trivial⟩)
  exact ⟨built, hbuild, hcode, hpublish, hreads.trans (by decide), hmemory⟩

end

end Relocade.Ssa
