import Mathlib.Algebra.Group.Nat.Defs
import Relocade.Segment.Access

/-!
# `Segment.Spans` — segment checks cover every byte

The probe against the bytes of the span, one by one: an offset is inside a segment or not, with no wrap of offsets. Its
modular comparisons say the same (`denial_iff`), and reads that hold facts about the loaded caches, assumed by a
profile or read before, answer as reads that hold none (`segment_checks`).
-/

namespace Relocade.Segmentation

variable {r : SegmentRegister} {intent : Intent} {offset bytes : BitVec 32}

/-! ## Bytes -/

/-- A segment has the permission of an intent. -/
def Permits (r : SegmentRegister) : Intent → Prop
  | .read => r.readable ≠ 0
  | .readOrExecute => r.readable ≠ 0 ∨ r.executable ≠ 0
  | .write => r.writable ≠ 0
  | .fetch => r.executable ≠ 0

/-- An offset is inside a segment. Offsets wrap in a full expand-up segment only. -/
def Inside (r : SegmentRegister) (x : Nat) : Prop :=
  if r.expandDown = 0 then
    r.limit = 0xffffffff ∨ x ≤ r.limit.toNat
  else
    r.limit.toNat < x ∧ x ≤ if r.big ≠ 0 then 0xffffffff else 0xffff

/-- A span is denied in protected mode: the segment is unusable or lacks the permission, or a byte is outside. -/
def Denied (r : SegmentRegister) (intent : Intent) (offset bytes : Nat) : Prop :=
  r.usable = 0 ∨ ¬ Permits r intent ∨ ∃ i < bytes, ¬ Inside r (offset + i)

/-! ## The test of a cache -/

/-- The permission bit of an intent. -/
def permission (r : SegmentRegister) : Intent → BitVec 1
  | .read => flag r.readable
  | .readOrExecute => flag r.readable ||| flag r.executable
  | .write => flag r.writable
  | .fetch => flag r.executable

/-- The test of a cache's fields. -/
def denial (r : SegmentRegister) (intent : Intent) (offset bytes : BitVec 32) : BitVec 1 :=
  let last := offset + (bytes - 1)
  let noWrap := test (offset ≤ last)
  let expandUp := test (r.limit = 0xffffffff) ||| (noWrap &&& test (last ≤ r.limit))
  let downRange := test (r.limit < offset) &&& noWrap &&& test (last ≤ select (flag r.big) 0xffffffff 0xffff)
  test (flag r.usable &&& permission r intent &&& select (flag r.expandDown) downRange expandUp = 0)

theorem test_eq_one {b : Bool} : test b = 1 ↔ b = true := by
  cases b <;> decide

theorem and_eq_one {a b : BitVec 1} : a &&& b = 1 ↔ a = 1 ∧ b = 1 := by
  revert a b
  decide

theorem or_eq_one {a b : BitVec 1} : a ||| b = 1 ↔ a = 1 ∨ b = 1 := by
  revert a b
  decide

theorem eq_zero_iff {a : BitVec 1} : a = 0 ↔ ¬ a = 1 := by
  revert a
  decide

theorem flag_eq_one {byte : BitVec 8} : flag byte = 1 ↔ byte ≠ 0 := by
  show test (byte != 0) = 1 ↔ byte ≠ 0
  rw [test_eq_one, bne_iff_ne]

theorem permission_eq_one : permission r intent = 1 ↔ Permits r intent := by
  cases intent with
  | fetch => exact flag_eq_one
  | read => exact flag_eq_one
  | readOrExecute => exact or_eq_one.trans (or_congr flag_eq_one flag_eq_one)
  | write => exact flag_eq_one

/-- The last byte of a span, when offsets do not wrap. -/
theorem last_spec (hbytes : bytes ≠ 0) :
    (offset ≤ offset + (bytes - 1) ↔ offset.toNat + bytes.toNat ≤ 2 ^ 32) ∧
      (offset ≤ offset + (bytes - 1) → (offset + (bytes - 1)).toNat + 1 = offset.toNat + bytes.toNat) := by
  have hpos : bytes.toNat ≠ 0 := fun h => hbytes (BitVec.eq_of_toNat_eq h)
  have hoff := offset.isLt
  have hbytes' := bytes.isLt
  rw [BitVec.le_def, BitVec.toNat_add, BitVec.toNat_sub, show (1 : BitVec 32).toNat = 1 from rfl]
  constructor
  · omega
  · omega

/-- A span's bytes are below a bound exactly when its last byte is and offsets do not wrap. -/
theorem forall_le_iff {bound : Nat} (hbytes : bytes ≠ 0) (hbound : bound < 2 ^ 32) :
    (∀ i < bytes.toNat, offset.toNat + i ≤ bound) ↔
      offset ≤ offset + (bytes - 1) ∧ (offset + (bytes - 1)).toNat ≤ bound := by
  have hpos : bytes.toNat ≠ 0 := fun h => hbytes (BitVec.eq_of_toNat_eq h)
  obtain ⟨hwrap, hlast⟩ := @last_spec offset bytes hbytes
  constructor
  · intro hall
    have hend := hall (bytes.toNat - 1) (by omega)
    have hle := hwrap.mpr (by omega)
    have hlast' := hlast hle
    exact ⟨hle, by omega⟩
  · rintro ⟨hle, hend⟩ i hi
    have hlast' := hlast hle
    omega

/-- The range test covers every byte. -/
theorem range_iff (hbytes : bytes ≠ 0) :
    select (flag r.expandDown)
        (test (r.limit < offset) &&& test (offset ≤ offset + (bytes - 1)) &&&
          test (offset + (bytes - 1) ≤ select (flag r.big) 0xffffffff 0xffff))
        (test (r.limit = 0xffffffff) |||
          (test (offset ≤ offset + (bytes - 1)) &&& test (offset + (bytes - 1) ≤ r.limit))) = 1 ↔
      ∀ i < bytes.toNat, Inside r (offset.toNat + i) := by
  have hpos : 0 < bytes.toNat := Nat.pos_of_ne_zero fun h => hbytes (BitVec.eq_of_toNat_eq h)
  unfold Inside
  by_cases hdown : r.expandDown = 0
  · have hflag : ¬ flag r.expandDown = 1 := fun h => flag_eq_one.mp h hdown
    simp only [if_pos hdown]
    rw [select, if_neg hflag, or_eq_one, and_eq_one, test_eq_one, test_eq_one, test_eq_one, decide_eq_true_eq,
      decide_eq_true_eq, decide_eq_true_eq]
    by_cases hfull : r.limit = 0xffffffff
    · exact iff_of_true (Or.inl hfull) fun _ _ => Or.inl hfull
    · simp only [hfull, false_or]
      exact (forall_le_iff hbytes r.limit.isLt).symm
  · have hupper : (select (flag r.big) (0xffffffff : BitVec 32) 0xffff).toNat = if r.big ≠ 0 then 0xffffffff else 0xffff := by
      unfold select
      simp only [flag_eq_one]
      split <;> rfl
    simp only [if_neg hdown]
    rw [select, if_pos (flag_eq_one.mpr hdown), and_eq_one, and_eq_one, test_eq_one, test_eq_one, test_eq_one,
      decide_eq_true_eq, decide_eq_true_eq, decide_eq_true_eq, ← hupper, and_assoc]
    have hbound := @forall_le_iff offset bytes _ hbytes (select (flag r.big) (0xffffffff : BitVec 32) 0xffff).isLt
    constructor
    · rintro ⟨hlow, hhi⟩ i hi
      exact ⟨Nat.lt_of_lt_of_le hlow (Nat.le_add_right _ _), hbound.mpr hhi i hi⟩
    · intro hall
      exact ⟨(hall 0 hpos).1, hbound.mp fun i hi => (hall i hi).2⟩

/-- The test of a cache covers every byte. -/
theorem denial_iff (hbytes : bytes ≠ 0) : denial r intent offset bytes = 1 ↔ Denied r intent offset.toNat bytes.toNat := by
  unfold denial Denied
  rw [test_eq_one, decide_eq_true_eq, eq_zero_iff, and_eq_one, and_eq_one, flag_eq_one, permission_eq_one,
    range_iff hbytes]
  simp only [not_and_or, not_not, not_forall, exists_prop, or_assoc, ne_eq]

/-! ## Reads whose facts hold -/

section

variable {reads : SegmentReads} {segments : Segments} {selection : SegmentSelection} {w : Nat} {field : Field w}

/-- What the reads know of a field is what is loaded. -/
def Knows (reads : SegmentReads) (segments : Segments) (field : Field w) : Prop :=
  ∀ segment, ∀ v ∈ reads.known field segment, v.value = field.load (segments segment)

structure Sound (reads : SegmentReads) (segments : Segments) : Prop where
  knows : ∀ {w : Nat} (field : Field w), Knows reads segments field

theorem readField_value (h : Knows reads segments field) :
    (reads.readField segments selection field).1.value = field.load (segments selection.segment) := by
  unfold SegmentReads.readField
  dsimp only
  split
  next =>
    split
    next value hval => exact h _ value hval
    next => rfl
  next =>
    split
    next value hval =>
      split at hval
      next hds =>
        unfold SegmentReads.common at hval
        split at hval
        next ds ss hds' hss =>
          split at hval
          next hsame =>
            obtain rfl := Option.some.inj hval
            unfold Val.sameExpression at hsame
            rw [Bool.and_eq_true, beq_iff_eq] at hsame
            rcases selection.default hds with hseg | hseg
            · rw [hseg]
              exact h _ ds hds'
            · rw [hseg, hsame.2]
              exact h _ ss hss
          next => cases hval
        next => cases hval
      next => cases hval
    next => rfl

theorem knows_store {w' : Nat} {other : Field w'} {seg : Segment} {value : Val w} (h : Knows reads segments other)
    (hval : value.value = field.load (segments seg)) : Knows (reads.store field seg value) segments other := by
  intro segment' v hv
  unfold SegmentReads.known SegmentReads.store at hv
  dsimp only at hv
  by_cases hseg : segment' = seg
  · subst hseg
    rw [Function.update_self] at hv
    by_cases hfld : (⟨w', other⟩ : (w : Nat) × Field w) = ⟨w, field⟩
    · cases hfld
      rw [Function.update_self] at hv
      obtain rfl := Option.some.inj hv
      exact hval
    · rw [Function.update_of_ne hfld] at hv
      exact h segment' v hv
  · rw [Function.update_of_ne hseg] at hv
    exact h segment' v hv

theorem knows_readField {w' : Nat} {other : Field w'} (h : Knows reads segments other) :
    Knows (reads.readField segments selection field).2 segments other := by
  unfold SegmentReads.readField
  dsimp only
  split
  next =>
    split
    next => exact h
    next => exact knows_store h rfl
  next => split <;> exact h

theorem Sound.readField (h : Sound reads segments) : Sound (reads.readField segments selection field).2 segments :=
  ⟨fun other => knows_readField (h.knows other)⟩

@[simp] theorem profile_readField : (reads.readField segments selection field).2.profile = reads.profile := by
  unfold SegmentReads.readField
  dsimp only
  split
  next => split <;> rfl
  next => split <;> rfl

theorem permitted_spec (h : Sound reads segments) (intent : Intent) :
    (reads.permitted segments selection intent).1 = permission (segments selection.segment) intent ∧
      Sound (reads.permitted segments selection intent).2 segments ∧
        (reads.permitted segments selection intent).2.profile = reads.profile := by
  cases intent with
  | fetch => exact ⟨readField_value (h.knows .executable), h.readField, profile_readField⟩
  | read => exact ⟨readField_value (h.knows .readable), h.readField, profile_readField⟩
  | readOrExecute =>
    refine ⟨?_, h.readField.readField, profile_readField.trans profile_readField⟩
    exact congrArg₂ (· ||| ·) (readField_value (h.knows .readable)) (readField_value (h.readField.knows .executable))
  | write => exact ⟨readField_value (h.knows .writable), h.readField, profile_readField⟩

theorem constantBits_value {v : Val w} {bits : BitVec w} (h : v.constantBits = some bits) : v.value = bits := by
  unfold Val.constantBits at h
  split at h
  next => exact Option.some.inj h
  next => cases h

/-- A full expand-up segment denies by its permissions only. -/
theorem denial_full {r : SegmentRegister} {intent : Intent} (hdown : flag r.expandDown = 0) (hfull : r.limit = 0xffffffff)
    (offset bytes : BitVec 32) : denial r intent offset bytes = test (flag r.usable &&& permission r intent = 0) := by
  have hor : ∀ a : BitVec 1, 1 ||| a = 1 := by decide
  have hand : ∀ a : BitVec 1, a &&& 1 = a := by decide
  unfold denial
  dsimp only
  rw [select, if_neg (eq_zero_iff.mp hdown), hfull, show test (decide ((0xffffffff : BitVec 32) = 0xffffffff)) = 1 from rfl,
    hor, hand]

theorem accessDenied_spec (h : Sound reads segments) (offset bytes : BitVec 32) (intent : Intent) :
    (reads.accessDenied segments selection offset bytes intent).1 =
        denial (segments selection.segment) intent offset bytes ∧
      Sound (reads.accessDenied segments selection offset bytes intent).2 segments ∧
        (reads.accessDenied segments selection offset bytes intent).2.profile = reads.profile := by
  -- the reads one after the other
  have husable := @readField_value reads segments selection _ _ (h.knows .usable)
  have h₁ := @Sound.readField reads segments selection _ .usable h
  obtain ⟨hperm, h₂, hprof⟩ := @permitted_spec _ segments selection h₁ intent
  have hlimit := @readField_value _ segments selection _ _ (h₂.knows .limit)
  have h₃ := @Sound.readField _ segments selection _ .limit h₂
  have hdown := @readField_value _ segments selection _ _ (h₃.knows .expandDown)
  have h₄ := @Sound.readField _ segments selection _ .expandDown h₃
  have hbig := @readField_value _ segments selection _ _ (h₄.knows .big)
  unfold SegmentReads.accessDenied
  dsimp only
  split
  next hconst =>
    refine ⟨?_, h₄, profile_readField.trans (profile_readField.trans (hprof.trans profile_readField))⟩
    rw [denial_full (hdown.symm.trans (constantBits_value hconst.1)) (hlimit.symm.trans (constantBits_value hconst.2)),
      husable, hperm]
    rfl
  next =>
    refine ⟨?_, h₄.readField, profile_readField.trans
      (profile_readField.trans (profile_readField.trans (hprof.trans profile_readField)))⟩
    rw [husable, hperm, hlimit, hdown, hbig]
    rfl

/-- A probe of a span that is not empty. -/
structure Probe where
  selection : SegmentSelection
  offset : Val 32
  bytes : Val 32
  intent : Intent
  folded : Bool
  nonempty : bytes.value ≠ 0

def Probe.check (reads : SegmentReads) (segments : Segments) (probe : Probe) : Option (SegmentCheck × SegmentReads) :=
  reads.check segments probe.selection probe.offset probe.bytes probe.intent probe.folded

/-- The reads after a list of probes. -/
def SegmentReads.after (reads : SegmentReads) (segments : Segments) : List Probe → Option SegmentReads
  | [] => some reads
  | probe :: probes => do
      let (_, reads) ← probe.check reads segments
      reads.after segments probes

/-- What a probe answers: the linear address, and whether the span is denied. -/
def Answers (check : SegmentCheck) (linear : BitVec 32) (denied : BitVec 1) : Prop :=
  check.linear = linear ∧ (check.isDenied ↔ denied = 1)

theorem check_eq (probe : Probe) : probe.check reads segments =
    some (⟨(reads.readField segments probe.selection .base).1.value + probe.offset.value,
      if (⟨((reads.readField segments probe.selection .base).2.denied segments probe.selection probe.offset.value
          probe.bytes.value probe.intent).1, probe.folded⟩ : Val 1).constantBits = some 0 then none
      else some ((reads.readField segments probe.selection .base).2.denied segments probe.selection probe.offset.value
          probe.bytes.value probe.intent).1⟩,
      ((reads.readField segments probe.selection .base).2.denied segments probe.selection probe.offset.value
        probe.bytes.value probe.intent).2) := by
  have hbytes : ¬ probe.bytes.constantBits = some 0 := fun h => probe.nonempty (constantBits_value h)
  unfold Probe.check SegmentReads.check
  rw [if_neg hbytes]

/-- A denial folded to a constant is the denial. -/
theorem isDenied_iff {linear : BitVec 32} {denied : BitVec 1} {folded : Bool} :
    (SegmentCheck.mk linear (if (⟨denied, folded⟩ : Val 1).constantBits = some 0 then none else some denied)).isDenied ↔
      denied = 1 := by
  unfold SegmentCheck.isDenied
  split
  next hconst =>
    have hz : denied = 0 := constantBits_value hconst
    rw [hz]
    exact iff_of_false (fun h => by cases of_decide_eq_true h) (by decide)
  next => rw [decide_eq_true_eq, Option.some.injEq]

theorem check_spec (h : Sound reads segments) {profile : SegmentProfile} (hprof : reads.profile = .protectedMode profile)
    (probe : Probe) : ∃ check reads', probe.check reads segments = some (check, reads') ∧
      Answers check ((segments probe.selection.segment).base + probe.offset.value)
        (denial (segments probe.selection.segment) probe.intent probe.offset.value probe.bytes.value) ∧
      Sound reads' segments ∧ reads'.profile = .protectedMode profile := by
  have hbase := @readField_value _ segments probe.selection _ _ (h.knows .base)
  have h₁ := @Sound.readField _ segments probe.selection _ .base h
  have hprofile₁ : (reads.readField segments probe.selection .base).2.profile = .protectedMode profile :=
    profile_readField.trans hprof
  obtain ⟨hden, h₂, hprofile₂⟩ :=
    @accessDenied_spec _ segments probe.selection h₁ probe.offset.value probe.bytes.value probe.intent
  refine ⟨_, _, check_eq probe, ⟨?_, ?_⟩, ?_⟩
  · rw [hbase]
    rfl
  · rw [isDenied_iff, SegmentReads.denied, hprofile₁]
    dsimp only
    rw [hden]
  · rw [SegmentReads.denied, hprofile₁]
    exact ⟨h₂, hprofile₂.trans hprofile₁⟩

theorem after_spec (h : Sound reads segments) {profile : SegmentProfile} (hprof : reads.profile = .protectedMode profile)
    (probes : List Probe) : ∃ reads', reads.after segments probes = some reads' ∧ Sound reads' segments ∧
      reads'.profile = .protectedMode profile := by
  induction probes generalizing reads with
  | nil => exact ⟨reads, rfl, h, hprof⟩
  | cons probe probes ih =>
    obtain ⟨check, reads', hcheck, -, hsound, hprof'⟩ := check_spec h hprof probe
    rw [SegmentReads.after, hcheck]
    exact ih hsound hprof'

end

/-! ## Profiles -/

section

variable {segments : Segments} {profile : SegmentProfile}

theorem agrees_iff {w : Nat} {assumed : Option (BitVec w)} {loaded : BitVec w} :
    agrees assumed loaded = true ↔ ∀ value ∈ assumed, loaded = value := by
  cases assumed with
  | none => exact iff_of_true rfl fun value hval => by cases hval
  | some value =>
    unfold agrees
    rw [decide_eq_true_eq]
    exact ⟨fun h v hv => Option.some.inj hv ▸ h, fun h => h value rfl⟩

theorem known_literal {w : Nat} {assumed : Option (BitVec w)} {loaded : BitVec w} (h : agrees assumed loaded = true)
    {v : Val w} (hv : v ∈ assumed.map Val.literal) : v.value = loaded := by
  obtain ⟨value, hval, rfl⟩ := Option.map_eq_some_iff.mp hv
  exact (agrees_iff.mp h value hval).symm

theorem known_flag {assumed : Option (BitVec 8)} {loaded : BitVec 8} (h : agrees assumed loaded = true) {v : Val 1}
    (hv : v ∈ assumed.map fun value => Val.literal (flag value)) : v.value = flag loaded := by
  obtain ⟨value, hval, rfl⟩ := Option.map_eq_some_iff.mp hv
  rw [agrees_iff.mp h value hval]
  rfl

/-- A profile's facts hold of the caches that it is compatible with. -/
theorem new_sound (h : profile.isCompatibleWith segments) : Sound (SegmentReads.new (.protectedMode profile)) segments := by
  refine ⟨fun field seg v hv => ?_⟩
  have hall : (profile.assumptions seg).isMatch (segments seg) = true :=
    List.all_eq_true.mp h seg (by cases seg <;> decide)
  unfold SegmentAssumptions.isMatch at hall
  simp only [Bool.and_eq_true] at hall
  obtain ⟨⟨⟨⟨⟨⟨⟨hbase, hlimit⟩, husable⟩, hreadable⟩, hwritable⟩, hexecutable⟩, hdown⟩, hbig⟩ := hall
  cases field with
  | base => exact known_literal hbase hv
  | limit => exact known_literal hlimit hv
  | usable => exact known_flag husable hv
  | readable => exact known_flag hreadable hv
  | writable => exact known_flag hwritable hv
  | executable => exact known_flag hexecutable hv
  | expandDown => exact known_flag hdown hv
  | big => exact known_flag hbig hv

/-- Protected-mode reads that know nothing: every field is loaded. -/
def SegmentReads.dynamic : SegmentReads := ⟨.protectedMode .segmented32, fun _ _ => none⟩

theorem dynamic_sound : Sound SegmentReads.dynamic segments := ⟨fun _ _ v hv => by cases hv⟩

end

/-! ## Real mode -/

section

variable {reads : SegmentReads} {segments : Segments}

theorem real16_denial_iff (hbytes : bytes ≠ 0) :
    test ((0x10001 : BitVec 32) ≤ bytes) ||| test ((0x10001 : BitVec 32) - bytes ≤ offset) = 1 ↔
      ∃ i < bytes.toNat, 0xffff < offset.toNat + i := by
  have hpos : bytes.toNat ≠ 0 := fun h => hbytes (BitVec.eq_of_toNat_eq h)
  have hoff := offset.isLt
  have hbytes' := bytes.isLt
  have hlimit : (0x10001 : BitVec 32).toNat = 0x10001 := rfl
  rw [or_eq_one, test_eq_one, test_eq_one, decide_eq_true_eq, decide_eq_true_eq, BitVec.le_def, BitVec.le_def,
    BitVec.toNat_sub, hlimit]
  constructor
  · intro h
    exact ⟨bytes.toNat - 1, by omega, by omega⟩
  · rintro ⟨i, hi, hlt⟩
    omega

theorem real16_check_spec (h : Knows reads segments .base) (hprof : reads.profile = .real16) (probe : Probe) :
    ∃ check reads', probe.check reads segments = some (check, reads') ∧
      Answers check ((segments probe.selection.segment).base + probe.offset.value)
        (test ((0x10001 : BitVec 32) ≤ probe.bytes.value) |||
          test ((0x10001 : BitVec 32) - probe.bytes.value ≤ probe.offset.value)) ∧
      Knows reads' segments .base ∧ reads'.profile = .real16 := by
  have hbase := @readField_value _ segments probe.selection _ _ h
  have hprofile₁ : (reads.readField segments probe.selection .base).2.profile = .real16 :=
    profile_readField.trans hprof
  refine ⟨_, _, check_eq probe, ⟨?_, ?_⟩, ?_⟩
  · rw [hbase]
    rfl
  · rw [isDenied_iff, SegmentReads.denied, hprofile₁]
  · rw [SegmentReads.denied, hprofile₁]
    exact ⟨knows_readField h, hprofile₁⟩

theorem real16_after_spec (h : Knows reads segments .base) (hprof : reads.profile = .real16) (probes : List Probe) :
    ∃ reads', reads.after segments probes = some reads' ∧ Knows reads' segments .base ∧ reads'.profile = .real16 := by
  induction probes generalizing reads with
  | nil => exact ⟨reads, rfl, h, hprof⟩
  | cons probe probes ih =>
    obtain ⟨check, reads', hcheck, -, hknows, hprof'⟩ := real16_check_spec h hprof probe
    rw [SegmentReads.after, hcheck]
    exact ih hknows hprof'

end

/-! ## Checks -/

/-- Segment checks cover every byte. After any probes, on any caches, a probe that assumes nothing and a real-mode probe
    find the linear address and deny exactly the spans with a byte that is not accessible; a probe of a profile that is
    compatible with the caches answers as the one that assumes nothing. -/
theorem segment_checks (segments : Segments) (probes : List Probe) (probe : Probe) :
    (∃ reads check reads', SegmentReads.dynamic.after segments probes = some reads ∧
      probe.check reads segments = some (check, reads') ∧
      check.linear = (segments probe.selection.segment).base + probe.offset.value ∧
      (check.isDenied ↔
        Denied (segments probe.selection.segment) probe.intent probe.offset.value.toNat probe.bytes.value.toNat)) ∧
    (∃ reads check reads', (SegmentReads.new .real16).after segments probes = some reads ∧
      probe.check reads segments = some (check, reads') ∧
      check.linear = (segments probe.selection.segment).base + probe.offset.value ∧
      (check.isDenied ↔ ∃ i < probe.bytes.value.toNat, 0xffff < probe.offset.value.toNat + i)) ∧
    ∀ profile : SegmentProfile, profile.isCompatibleWith segments →
      ∃ dynamic check₀ reads₀ reads check reads', SegmentReads.dynamic.after segments probes = some dynamic ∧
        probe.check dynamic segments = some (check₀, reads₀) ∧
        (SegmentReads.new (.protectedMode profile)).after segments probes = some reads ∧
        probe.check reads segments = some (check, reads') ∧
        check.linear = check₀.linear ∧ check.isDenied = check₀.isDenied := by
  obtain ⟨dynamic, hafter₀, hsound₀, hprofile₀⟩ := after_spec (@dynamic_sound segments) rfl probes
  obtain ⟨check₀, reads₀, hcheck₀, ⟨hlinear₀, hdenied₀⟩, -⟩ := check_spec hsound₀ hprofile₀ probe
  refine ⟨⟨dynamic, check₀, reads₀, hafter₀, hcheck₀, hlinear₀, hdenied₀.trans (denial_iff probe.nonempty)⟩, ?_, ?_⟩
  · have hknows : Knows (SegmentReads.new .real16) segments .base := fun _ v hv => by cases hv
    obtain ⟨reads, hafter, hbase, hprofile⟩ := real16_after_spec hknows rfl probes
    obtain ⟨check, reads', hcheck, ⟨hlinear, hdenied⟩, -⟩ := real16_check_spec hbase hprofile probe
    exact ⟨reads, check, reads', hafter, hcheck, hlinear, hdenied.trans (real16_denial_iff probe.nonempty)⟩
  · intro profile hcompatible
    obtain ⟨reads, hafter, hsound, hprofile⟩ := after_spec (new_sound hcompatible) rfl probes
    obtain ⟨check, reads', hcheck, ⟨hlinear, hdenied⟩, -⟩ := check_spec hsound hprofile probe
    exact ⟨dynamic, check₀, reads₀, reads, check, reads', hafter₀, hcheck₀, hafter, hcheck, hlinear.trans hlinear₀.symm,
      Bool.eq_iff_iff.mpr (hdenied.trans hdenied₀.symm)⟩

/-- A real-mode probe does not deny a write through CS, which is not writable. -/
theorem real16_writes_code : ¬ Permits (SegmentRegister.realMode .cs 0) .write ∧
    ∃ check reads', (SegmentReads.new .real16).check (fun segment => SegmentRegister.realMode segment 0) (.of .cs)
      (Val.literal 0) (Val.literal 1) .write true = some (check, reads') ∧ check.isDenied = false :=
  ⟨fun h => h rfl, _, _, rfl, rfl⟩

end Relocade.Segmentation
