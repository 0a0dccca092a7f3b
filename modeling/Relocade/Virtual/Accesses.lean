import Relocade.Virtual.Transfer

/-!
# `Virtual.Accesses` — successful access proofs retained along one execution path

A tracker retains the first granted read and the first granted write of a path, and answers later accesses from them:
an identical span at once, a span on an anchor's page by a test in the code. Linear addresses are expressions, compared
by identity; on a path each has one value.
-/

namespace Relocade.Virtual

open Physical (Intent)

variable {E : Type}

/-- A granted access, and the expression of its linear address. -/
structure Retained (E : Type) where
  linear : E
  access : Access

/-- The retained proofs of one execution path. -/
structure Accesses (E : Type) where
  readAnchor : Option (Retained E)
  writeAnchor : Option (Retained E)

namespace Accesses

def new : Accesses E := ⟨none, none⟩

/-- The anchor on whose page an access may lie. A write proof also permits reads. -/
def anchor (accesses : Accesses E) : Intent → Option (Retained E)
  | .read | .readOrExecute | .fetch => accesses.readAnchor.or accesses.writeAnchor
  | .write => accesses.writeAnchor

/-- The first access of each kind stays the anchor. -/
def retain (accesses : Accesses E) (retained : Retained E) : Intent → Accesses E
  | .read | .readOrExecute | .fetch => { accesses with readAnchor := accesses.readAnchor.or (some retained) }
  | .write => { accesses with writeAnchor := accesses.writeAnchor.or (some retained) }

variable [DecidableEq E]

/-- An identical checked span also covers narrower accesses. -/
def identical (accesses : Accesses E) (start : E) (bytes : BitVec 32) (intent : Intent) : Option (Retained E) :=
  let required := requiredPermissions intent
  (accesses.writeAnchor.toList ++ accesses.readAnchor.toList).find? fun retained =>
    requiredPermissions retained.access.intent &&& required = required ∧ retained.linear = start ∧
      retained.access.constantBytes.any fun checked => checked ≥ bytes

/-- An access near an anchor: one unsigned test covers the entire span, including linear wrap. -/
def nearAnchor (table : Memory) (anchor : Access) (start bytes : BitVec 32) (intent : Intent) :
    Except PageFault Access :=
  let page := anchor.linear &&& frameMask
  let selected :=
    if start - page < pageBytes - bytes + 1 then .ok (false, physicalAddress anchor.physical start)
    else (resolveAccess table start (.constant bytes) intent true none).1.map fun access =>
      (access.scattered, access.physical)
  selected.map fun (scattered, physical) => ⟨start, physical, false, scattered, intent, some bytes⟩

/-- `Accesses::resolve` over stable mappings, with the proofs it leaves; nothing where the code asserts. -/
def resolve (table : Memory) (value : E → BitVec 32) (accesses : Accesses E) (start : E) (bytes : BitVec 32)
    (intent : Intent) : Option (Except PageFault Access × Accesses E) :=
  if 1 ≤ bytes ∧ bytes ≤ pageBytes then
    match accesses.identical start bytes intent with
    | some retained => some (.ok { retained.access with constantBytes := some bytes, intent := intent }, accesses)
    | none =>
        let result :=
          match accesses.anchor intent with
          | some anchor => nearAnchor table anchor.access (value start) bytes intent
          | none => (resolveAccess table (value start) (.constant bytes) intent true none).1
        match result with
        | .error fault => some (.error fault, accesses)
        | .ok access => some (.ok access, accesses.retain ⟨start, access⟩ intent)
  else none

end Accesses

/-! ## Paths -/

/-- One access through a tracker. -/
structure Request (E : Type) where
  start : E
  bytes : BitVec 32
  intent : Intent

/-- What a path does with its trackers. -/
inductive Op (E : Type) where
  | clone (tracker : Nat)
  | resolve (tracker : Nat) (request : Request E)

/-- The accesses of a path and their answers. A fault leaves the generated code. -/
def path [DecidableEq E] (table : Memory) (value : E → BitVec 32) :
    List (Accesses E) → List (Op E) → List (Request E × Except PageFault Access)
  | _, [] => []
  | trackers, .clone tracker :: rest => path table value (trackers ++ trackers[tracker]?.toList) rest
  | trackers, .resolve tracker request :: rest =>
      match trackers[tracker]? with
      | none => []
      | some accesses =>
          match accesses.resolve table value request.start request.bytes request.intent with
          | none => []
          | some (.error fault, _) => [(request, .error fault)]
          | some (.ok access, accesses) => (request, .ok access) :: path table value (trackers.set tracker accesses) rest

/-! ## What a retained access proves -/

/-- A granted access to a span whose bytes all permit its intent. -/
structure Access.Covers (access : Access) (table : Memory) (start bytes : BitVec 32) : Prop
    extends Access.Grants access table start bytes where
  denied : access.denied = false
  permitted : Permitted table access.intent start bytes.toNat

def Retained.Valid (table : Memory) (value : E → BitVec 32) (retained : Retained E) : Prop :=
  ∃ bytes : BitVec 32, 0 < bytes.toNat ∧ retained.access.Covers table (value retained.linear) bytes

/-- Every retained access proves its span, and the write anchor is a write. -/
structure Accesses.Valid (table : Memory) (value : E → BitVec 32) (accesses : Accesses E) : Prop where
  readAnchor : ∀ retained, accesses.readAnchor = some retained → retained.Valid table value
  writeAnchor : ∀ retained, accesses.writeAnchor = some retained →
    retained.Valid table value ∧ retained.access.intent = .write

theorem Accesses.Valid.new {table : Memory} {value : E → BitVec 32} : (new : Accesses E).Valid table value :=
  ⟨nofun, nofun⟩

variable {table : Memory} {value : E → BitVec 32} {accesses : Accesses E} {intent : Intent} {start bytes : BitVec 32}
  {access : Access}

/-- A permission is kept by any intent that requires less. -/
theorem Permitted.mono {stronger weaker : Intent} {n m : Nat}
    (hreq : requiredPermissions stronger &&& requiredPermissions weaker = requiredPermissions weaker) (hm : m ≤ n)
    (h : Permitted table stronger start n) : Permitted table weaker start m := by
  intro i hi
  have hallows := h i (by omega)
  unfold Allows at hallows ⊢
  calc
    entry table (byteAt start i) &&& requiredPermissions weaker
      = entry table (byteAt start i) &&& (requiredPermissions stronger &&& requiredPermissions weaker) := by
        rw [hreq]
    _ = requiredPermissions stronger &&& requiredPermissions weaker := by rw [← BitVec.and_assoc, hallows]
    _ = requiredPermissions weaker := hreq

/-- Every intent requires presence, and a write requires all that any does. -/
theorem required_of_write (weaker : Intent) :
    requiredPermissions .write &&& requiredPermissions weaker = requiredPermissions weaker := by
  cases weaker <;> decide

theorem required_of_read {stronger : Intent} (weaker : Intent) (hweaker : weaker ≠ .write) :
    requiredPermissions stronger &&& requiredPermissions weaker = requiredPermissions weaker := by
  cases weaker with
  | write => exact absurd rfl hweaker
  | read => cases stronger <;> decide
  | readOrExecute => cases stronger <;> decide
  | fetch => cases stronger <;> decide

/-- An anchor serves the intents it is chosen for. -/
theorem Accesses.Valid.anchor_spec (h : accesses.Valid table value) {anchor : Retained E}
    (hanchor : accesses.anchor intent = some anchor) : anchor.Valid table value ∧
      requiredPermissions anchor.access.intent &&& requiredPermissions intent = requiredPermissions intent := by
  have hread : ∀ {weaker : Intent}, weaker ≠ .write → accesses.readAnchor.or accesses.writeAnchor = some anchor →
      anchor.Valid table value ∧
        requiredPermissions anchor.access.intent &&& requiredPermissions weaker = requiredPermissions weaker := by
    intro weaker hweaker hor
    refine ⟨?_, required_of_read weaker hweaker⟩
    rcases Option.or_eq_some_iff.mp hor with hsome | ⟨-, hsome⟩
    · exact h.readAnchor anchor hsome
    · exact (h.writeAnchor anchor hsome).1
  cases intent with
  | read => exact hread (by decide) hanchor
  | readOrExecute => exact hread (by decide) hanchor
  | fetch => exact hread (by decide) hanchor
  | write =>
    obtain ⟨hvalid, hwr⟩ := h.writeAnchor anchor hanchor
    rw [hwr]
    exact ⟨hvalid, required_of_write .write⟩

/-- Retaining a granted access keeps the proofs valid. -/
theorem Accesses.Valid.retain (h : accesses.Valid table value) {retained : Retained E}
    (hvalid : retained.Valid table value) (hintent : retained.access.intent = intent) :
    (accesses.retain retained intent).Valid table value := by
  have hread : Accesses.Valid table value
      { accesses with readAnchor := accesses.readAnchor.or (some retained) } := by
    refine ⟨fun anchor hanchor => ?_, h.writeAnchor⟩
    rcases Option.or_eq_some_iff.mp hanchor with hsome | ⟨-, hsome⟩
    · exact h.readAnchor anchor hsome
    · exact Option.some.inj hsome ▸ hvalid
  cases intent with
  | read => exact hread
  | readOrExecute => exact hread
  | fetch => exact hread
  | write =>
    refine ⟨h.readAnchor, fun anchor hanchor => ?_⟩
    rcases Option.or_eq_some_iff.mp hanchor with hsome | ⟨-, hsome⟩
    · exact h.writeAnchor anchor hsome
    · exact Option.some.inj hsome ▸ ⟨hvalid, hintent⟩

/-! ## One access -/

/-- A fresh resolution, which covers its span or faults. -/
theorem fresh_spec (table : Memory) (start : BitVec 32) (intent : Intent) (hpos : 0 < bytes.toNat) :
    (∃ access, (resolveAccess table start (.constant bytes) intent true none).1 = .ok access ∧
      access.Covers table start bytes ∧ access.intent = intent) ∨
    (∃ fault, (resolveAccess table start (.constant bytes) intent true none).1 = .error fault) ∧
      ¬ Permitted table intent start bytes.toNat := by
  have h := resolveAccess_resolved table start intent (.constant bytes) true none nofun hpos
  by_cases hperm : Permitted table intent start bytes.toNat
  · obtain ⟨unavailable, hres, -⟩ := h.granted hperm
    rw [hres] at h
    exact .inl ⟨_, hres, ⟨h.grants rfl, rfl, hperm⟩, rfl⟩
  · obtain ⟨i, -, hres⟩ := h.faulted hperm rfl
    exact .inr ⟨⟨_, hres⟩, hperm⟩

/-- An identical span covers a narrower one. -/
theorem Access.Covers.narrow {wide : BitVec 32} (h : access.Covers table start wide) (hle : bytes.toNat ≤ wide.toNat)
    (hreq : requiredPermissions access.intent &&& requiredPermissions intent = requiredPermissions intent) :
    Access.Covers { access with constantBytes := some bytes, intent := intent } table start bytes where
  linear := h.linear
  physical := h.physical
  constant := rfl
  direct hdir i hi := h.direct hdir i (by omega)
  denied := h.denied
  permitted := h.permitted.mono hreq hle

/-- The test for an anchor's page covers the entire span. -/
theorem fits_iff {linear : BitVec 32} (hpos : 0 < bytes.toNat) (hle : bytes.toNat ≤ 4096) :
    start - (linear &&& frameMask) < pageBytes - bytes + 1 ↔
      start.toNat / 4096 = linear.toNat / 4096 ∧ start.toNat % 4096 + bytes.toNat ≤ 4096 := by
  have hone : (1 : BitVec 32).toNat = 1 := rfl
  have := start.isLt
  have := linear.isLt
  rw [BitVec.lt_def, BitVec.toNat_sub, toNat_and_frameMask, BitVec.toNat_add, BitVec.toNat_sub, toNat_pageBytes]
  omega

/-- A span on an anchor's page is covered by its frame. -/
theorem Access.Covers.near {linear wide : BitVec 32} {anchor : Access} (h : anchor.Covers table linear wide)
    (hwide : 0 < wide.toNat) (hpage : start.toNat / 4096 = linear.toNat / 4096)
    (hroom : start.toNat % 4096 + bytes.toNat ≤ 4096)
    (hreq : requiredPermissions anchor.intent &&& requiredPermissions intent = requiredPermissions intent) :
    Access.Covers ⟨start, physicalAddress anchor.physical start, false, false, intent, some bytes⟩ table start bytes := by
  have hent : ∀ i < bytes.toNat, entry table (byteAt start i) = entry table linear := by
    intro i hi
    refine entry_congr table ?_
    have := start.isLt
    rw [toNat_byteAt]
    omega
  have hst : entry table start = entry table linear := entry_congr table hpage
  have hphys : physicalAddress anchor.physical start = translate table start := by
    rw [translate, hst, h.physical]
    refine physicalAddress_congr ?_ start
    rw [translate, toNat_physicalAddress]
    omega
  have hfst : Permitted table intent linear 1 := h.permitted.mono hreq hwide
  refine ⟨⟨rfl, hphys, rfl, fun _ i hi => ?_⟩, rfl, fun i hi => ?_⟩
  · have := start.isLt
    rw [byteAddress, translate, translate, hent i hi, hst, toNat_physicalAddress, toNat_physicalAddress,
      toNat_byteAt]
    omega
  · have hallows := hfst 0 (by decide)
    unfold Allows at hallows ⊢
    rwa [hent i hi, ← byteAt_zero linear]

/-- An answer, and the span it is for: an access that covers it, or the fault of a fresh resolution. -/
structure Answers (table : Memory) (start bytes : BitVec 32) (intent : Intent) (answer : Except PageFault Access) :
    Prop where
  granted : ∀ access, answer = .ok access → access.Covers table start bytes ∧ access.intent = intent
  faulted : ∀ fault, answer = .error fault →
    (resolveAccess table start (.constant bytes) intent true none).1 = .error fault

theorem Answers.of_covers (h : access.Covers table start bytes) (hintent : access.intent = intent) :
    Answers table start bytes intent (.ok access) :=
  ⟨fun _ heq => Except.ok.inj heq ▸ ⟨h, hintent⟩, nofun⟩

theorem Answers.of_fault {fault : PageFault}
    (h : (resolveAccess table start (.constant bytes) intent true none).1 = .error fault) :
    Answers table start bytes intent (.error fault) :=
  ⟨nofun, fun _ heq => Except.error.inj heq ▸ h⟩

theorem fresh_answers (table : Memory) (start : BitVec 32) (intent : Intent) (hpos : 0 < bytes.toNat) :
    Answers table start bytes intent (resolveAccess table start (.constant bytes) intent true none).1 := by
  rcases fresh_spec table start intent hpos with ⟨access, hres, hcov, hintent⟩ | ⟨⟨fault, hres⟩, -⟩
  · rw [hres]
    exact .of_covers hcov hintent
  · rw [hres]
    exact .of_fault hres

theorem nearAnchor_answers {linear wide : BitVec 32} {anchor : Access} (h : anchor.Covers table linear wide)
    (hwide : 0 < wide.toNat) (hpos : 0 < bytes.toNat) (hle : bytes.toNat ≤ 4096)
    (hreq : requiredPermissions anchor.intent &&& requiredPermissions intent = requiredPermissions intent) :
    Answers table start bytes intent (Accesses.nearAnchor table anchor start bytes intent) := by
  unfold Accesses.nearAnchor
  rw [h.linear]
  dsimp only
  by_cases hit : start - (linear &&& frameMask) < pageBytes - bytes + 1
  · obtain ⟨hpage, hroom⟩ := (fits_iff hpos hle).mp hit
    rw [if_pos hit]
    exact .of_covers (h.near hwide hpage hroom hreq) rfl
  · rw [if_neg hit]
    -- a miss is resolved afresh, and the selected access keeps its scattered flag
    rcases fresh_spec table start intent hpos with ⟨access, hres, hcov, hintent⟩ | ⟨⟨fault, hres⟩, -⟩
    · rw [hres]
      refine .of_covers ⟨⟨rfl, hcov.physical, rfl, fun hdir => hcov.direct ?_⟩, rfl, hintent ▸ hcov.permitted⟩ rfl
      rwa [Access.scattered, Bool.not_false, Bool.and_true] at hdir
    · rw [hres]
      exact .of_fault hres

variable [DecidableEq E]

theorem identical_spec (h : accesses.Valid table value) {first : E} {retained : Retained E}
    (hfound : accesses.identical first bytes intent = some retained) :
    Access.Covers { retained.access with constantBytes := some bytes, intent := intent } table (value first) bytes := by
  have htest := List.find?_some hfound
  have hmem := List.mem_of_find?_eq_some hfound
  obtain ⟨hreq, rfl, hchecked⟩ := of_decide_eq_true htest
  have hvalid : retained.Valid table value := by
    rcases List.mem_append.mp hmem with hwr | hread
    · exact (h.writeAnchor retained (Option.mem_toList.mp hwr)).1
    · exact h.readAnchor retained (Option.mem_toList.mp hread)
  obtain ⟨wide, -, hcov⟩ := hvalid
  rw [hcov.constant] at hchecked
  exact hcov.narrow (of_decide_eq_true hchecked) hreq

/-- One access answers as a fresh resolution does, and leaves valid proofs. -/
theorem resolve_spec (h : accesses.Valid table value) {first : E} {res : Except PageFault Access}
    {after : Accesses E} (hrsv : accesses.resolve table value first bytes intent = some (res, after)) :
    0 < bytes.toNat ∧ Answers table (value first) bytes intent res ∧ after.Valid table value := by
  unfold Accesses.resolve at hrsv
  split at hrsv
  next hbytes =>
    have hpos : 0 < bytes.toNat := hbytes.1
    have hle : bytes.toNat ≤ 4096 := hbytes.2
    refine ⟨hpos, ?_⟩
    split at hrsv
    next retained hfound =>
      obtain ⟨rfl, rfl⟩ := Prod.mk.inj (Option.some.inj hrsv)
      exact ⟨.of_covers (identical_spec h hfound) rfl, h⟩
    next =>
      have hanswers : Answers table (value first) bytes intent
          (match accesses.anchor intent with
          | some anchor => Accesses.nearAnchor table anchor.access (value first) bytes intent
          | none => (resolveAccess table (value first) (.constant bytes) intent true none).1) := by
        split
        next anchor hanchor =>
          have hspec := h.anchor_spec hanchor
          obtain ⟨wide, hwide, hcov⟩ := hspec.1
          exact nearAnchor_answers hcov hwide hpos hle hspec.2
        next => exact fresh_answers table (value first) intent hpos
      dsimp only at hrsv
      split at hrsv
      next fault hres =>
        obtain ⟨rfl, rfl⟩ := Prod.mk.inj (Option.some.inj hrsv)
        rw [hres] at hanswers
        exact ⟨hanswers, h⟩
      next access hres =>
        obtain ⟨rfl, rfl⟩ := Prod.mk.inj (Option.some.inj hrsv)
        rw [hres] at hanswers
        obtain ⟨hcov, hintent⟩ := hanswers.granted access rfl
        exact ⟨hanswers, h.retain ⟨bytes, hpos, hcov⟩ hintent⟩
  next => exact nomatch hrsv

/-! ## Every access of a path -/

/-- A path from valid trackers answers as fresh resolutions do. -/
theorem path_answers (ops : List (Op E)) (trackers : List (Accesses E))
    (h : ∀ accesses ∈ trackers, accesses.Valid table value) :
    ∀ entry ∈ path table value trackers ops, 0 < entry.1.bytes.toNat ∧
      Answers table (value entry.1.start) entry.1.bytes entry.1.intent entry.2 := by
  induction ops generalizing trackers with
  | nil => exact nofun
  | cons op rest ih =>
    cases op with
    | clone tracker =>
      refine ih _ fun accesses haccesses => ?_
      rcases List.mem_append.mp haccesses with hold | hnew
      · exact h accesses hold
      · exact h accesses (List.mem_of_getElem? (Option.mem_toList.mp hnew))
    | resolve tracker request =>
      intro entry hent
      rw [path] at hent
      split at hent
      next => exact nomatch hent
      next accesses htracker =>
        have hvalid := h accesses (List.mem_of_getElem? htracker)
        split at hent
        next => exact nomatch hent
        next fault _ hrsv =>
          obtain ⟨hpos, hanswers, -⟩ := resolve_spec hvalid hrsv
          obtain rfl := List.mem_singleton.mp hent
          exact ⟨hpos, hanswers⟩
        next access after hrsv =>
          obtain ⟨hpos, hanswers, hafter⟩ := resolve_spec hvalid hrsv
          rcases List.mem_cons.mp hent with rfl | hrest
          · exact ⟨hpos, hanswers⟩
          · refine ih _ (fun accesses haccesses => ?_) entry hrest
            rcases List.mem_or_eq_of_mem_set haccesses with hold | rfl
            · exact h accesses hold
            · exact hafter

/-- The physical address that a granted access transfers a byte from or to. -/
def Access.target (table : Memory) (access : Access) (i : Nat) : Nat :=
  if access.constantBytes = some 1 then access.physical.toNat
  else if access.scattered then byteAddress table access.linear i
  else access.physical.toNat + i

theorem Access.Grants.target_eq (h : access.Grants table start bytes) {i : Nat} (hi : i < bytes.toNat) :
    access.target table i = byteAddress table start i := by
  unfold Access.target
  split
  next hone =>
    obtain rfl : bytes = 1 := Option.some.inj (h.constant.symm.trans hone)
    obtain rfl : i = 0 := Nat.lt_one_iff.mp hi
    rw [h.physical, byteAddress, byteAt_zero]
  next =>
    split
    next => rw [h.linear]
    next hscat => rw [h.direct (by simpa using hscat) i hi, h.physical]

/-- Two accesses that transfer the same bytes. -/
structure SameTransfers (table : Memory) (bytes : BitVec 32) (access fresh : Access) : Prop where
  target : ∀ i < bytes.toNat, access.target table i = fresh.target table i
  read : ∀ guest offset type, read table guest access offset type = read table guest fresh offset type
  write : ∀ guest offset type value, write table guest access offset type value = write table guest fresh offset type value

/-- Accesses that cover one span for one intent transfer the same bytes. -/
theorem Access.Covers.sameTransfers {fresh : Access} (h : access.Covers table start bytes)
    (hfresh : fresh.Covers table start bytes) (hintent : access.intent = fresh.intent) :
    SameTransfers table bytes access fresh := by
  have hfld : ∀ offset type, access.checkField offset type = fresh.checkField offset type := by
    intro offset type
    unfold Access.checkField
    rw [h.constant, hfresh.constant]
  refine ⟨fun i hi => ?_, fun guest offset type => ?_, fun guest offset type value => ?_⟩
  · rw [h.target_eq hi, hfresh.target_eq hi]
  · by_cases hfits : fresh.checkField offset type = true
    · rw [read_spec guest h.toGrants (hfld offset type ▸ hfits), read_spec guest hfresh.toGrants hfits]
    · rw [Virtual.read, Virtual.read, if_neg (hfld offset type ▸ hfits), if_neg hfits]
  · by_cases hfits : fresh.checkField offset type = true ∧ fresh.intent = .write
    · rw [write_spec guest value h.toGrants (hfld offset type ▸ hfits.1) (hintent.trans hfits.2),
        write_spec guest value hfresh.toGrants hfits.1 hfits.2]
    · rw [Virtual.write, Virtual.write, hfld, hintent, if_neg hfits, if_neg hfits]

/-- Every access of a path is granted exactly when a fresh resolution grants it, with the fault of that one otherwise,
    and transfers the same bytes. -/
theorem retained_accesses (table : Memory) (value : E → BitVec 32) (ops : List (Op E)) {request : Request E}
    {answer : Except PageFault Access} (hmem : (request, answer) ∈ path table value [.new] ops) :
    let fresh := (resolveAccess table (value request.start) (.constant request.bytes) request.intent true none).1
    (∀ fault, answer = .error fault ↔ fresh = .error fault) ∧
      ∀ access, answer = .ok access → access.denied = false ∧ ∃ granted, fresh = .ok granted ∧
        granted.denied = false ∧ SameTransfers table request.bytes access granted := by
  have htrackers : ∀ accesses ∈ [(Accesses.new : Accesses E)], accesses.Valid table value := by
    intro accesses haccesses
    obtain rfl := List.mem_singleton.mp haccesses
    exact .new
  obtain ⟨hpos, hanswers⟩ := path_answers ops [.new] htrackers (request, answer) hmem
  have hfresh := fresh_spec table (value request.start) request.intent hpos
  refine ⟨fun fault => ⟨hanswers.faulted fault, fun hfault => ?_⟩, fun access haccess => ?_⟩
  · rcases hfresh with ⟨granted, hgranted, -⟩ | ⟨-, hdenied⟩
    · exact nomatch hgranted.symm.trans hfault
    · cases answer with
      | error other => exact (hanswers.faulted other rfl).symm.trans hfault
      | ok access =>
          obtain ⟨hcovers, hintent⟩ := hanswers.granted access rfl
          exact absurd (hintent ▸ hcovers.permitted) hdenied
  · obtain ⟨hcovers, hintent⟩ := hanswers.granted access haccess
    rcases hfresh with ⟨granted, hgranted, hgrantedCovers, hgrantedIntent⟩ | ⟨-, hdenied⟩
    · exact ⟨hcovers.denied, granted, hgranted, hgrantedCovers.denied,
        hcovers.sameTransfers hgrantedCovers (hintent.trans hgrantedIntent.symm)⟩
    · exact absurd (hintent ▸ hcovers.permitted) hdenied

/-- The trackers that a path asks are there, and a request covers from one byte to a page. -/
def Servable : Nat → List (Op E) → Prop
  | _, [] => True
  | trackers, .clone tracker :: rest => tracker < trackers ∧ Servable (trackers + 1) rest
  | trackers, .resolve tracker request :: rest =>
      tracker < trackers ∧ (1 ≤ request.bytes ∧ request.bytes ≤ pageBytes) ∧ Servable trackers rest

def requests : List (Op E) → List (Request E)
  | [] => []
  | .clone _ :: rest => requests rest
  | .resolve _ request :: rest => request :: requests rest

theorem resolve_isSome (table : Memory) (value : E → BitVec 32) (accesses : Accesses E) (request : Request E)
    (h : 1 ≤ request.bytes ∧ request.bytes ≤ pageBytes) :
    ∃ result, accesses.resolve table value request.start request.bytes request.intent = some result := by
  rw [Accesses.resolve, if_pos h]
  split
  · exact ⟨_, rfl⟩
  · dsimp only
    split <;> exact ⟨_, rfl⟩

/-- Every request is answered, in order, up to the first that faults. -/
theorem path_answered (table : Memory) (value : E → BitVec 32) (ops : List (Op E)) (trackers : List (Accesses E))
    (h : Servable trackers.length ops) :
    (path table value trackers ops).map Prod.fst = requests ops ∨
      ∃ answered request fault, path table value trackers ops = answered ++ [(request, .error fault)] ∧
        answered.map Prod.fst ++ [request] <+: requests ops := by
  induction ops generalizing trackers with
  | nil => exact Or.inl rfl
  | cons op rest ih =>
    cases op with
    | clone tracker =>
      refine ih _ ?_
      rw [List.getElem?_eq_getElem h.1, List.length_append]
      exact h.2
    | resolve tracker request =>
      have htracker : tracker < trackers.length := h.1
      obtain ⟨result, hresult⟩ := resolve_isSome table value trackers[tracker] request h.2.1
      rw [path, requests, List.getElem?_eq_getElem htracker]
      dsimp only
      rw [hresult]
      obtain ⟨fault | access, after⟩ := result
      · exact Or.inr ⟨[], request, fault, rfl, ⟨requests rest, rfl⟩⟩
      · rcases ih (trackers.set tracker after) (by rw [List.length_set]; exact h.2.2) with hall | hfault
        · exact Or.inl (congrArg (request :: ·) hall)
        · obtain ⟨answered, other, fault, heq, hprefix⟩ := hfault
          exact Or.inr ⟨(request, .ok access) :: answered, other, fault, congrArg _ heq,
            (List.prefix_cons_inj _).mpr hprefix⟩

/-- A write proof serves a later fetch of the page by a descendant. -/
theorem retained_accesses_onePage : ∃ granted,
    (resolveAccess onePage 0x20 (.constant 2) .fetch true none).1 = .ok granted ∧
      SameTransfers onePage 2 ⟨0x20, 0x1020, false, false, .fetch, some 2⟩ granted := by
  have hmem : (⟨0x20, 2, .fetch⟩, .ok ⟨0x20, 0x1020, false, false, .fetch, some 2⟩) ∈
      path onePage (BitVec.ofNat 32) [.new]
        [.resolve 0 ⟨0x10, 4, .write⟩, .clone 0, .resolve 1 ⟨0x20, 2, .fetch⟩] :=
    List.mem_cons_of_mem _ (List.mem_singleton_self _)
  have hspec := retained_accesses onePage _ _ hmem
  obtain ⟨-, granted, hgranted, -, hsame⟩ := hspec.2 _ rfl
  exact ⟨granted, hgranted, hsame⟩

end Relocade.Virtual
