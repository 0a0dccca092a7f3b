import Mathlib.Logic.Function.Basic
import Relocade.Ssa.StateFields
import Relocade.X87.Payload

/-!
# `X87.Bank` — retained values and tags for eight disjoint slots relative to one origin
-/

namespace Relocade.X87

open Function (update)
open Flags (Val)
open Ssa (TrackedValue)

/-! ## The code -/

structure Tag (N : Type) where
  current : TrackedValue (Val N (BitVec 16))
  /-- The exception check proves that the latest write was enabled. -/
  latestWrite : Option (Val N (BitVec 16))

structure Register (N : Type) where
  payload : Option (Payload N)
  tag : Option (Tag N)

structure Bank (N : Type) where
  origin : Val N (BitVec 32)
  stackTop : Option (Fin 8)
  tagWord : Option (TrackedValue (Val N (BitVec 16)))
  registers : Fin 8 → Register N

namespace Bank

variable {N : Type} [DecidableEq N] (naming : Naming N) (m : Memory) (bank : Bank N)

def new (origin : Val N (BitVec 32)) : Bank N := ⟨origin, none, none, fun _ => ⟨none, none⟩⟩

def physical (relative : Fin 8) : Val N (BitVec 32) :=
  naming.mask (naming.sum bank.origin (naming.int 32 relative)) 7

def setPayload (relative : Fin 8) (payload : Payload N) : Bank N :=
  { bank with
    registers := update bank.registers relative { bank.registers relative with payload := some payload } }

def setRegisterTag (relative : Fin 8) (tag : Tag N) : Bank N :=
  { bank with registers := update bank.registers relative { bank.registers relative with tag := some tag } }

/-- The payload of a slot, new when it was not retained. -/
def payload (relative : Fin 8) : Payload N :=
  (bank.registers relative).payload.getD
    (.new ((bank.physical naming relative).value * BitVec.ofNat 32 registerBytes))

def read (relative : Fin 8) : ExtendedValue N × Bank N :=
  let (value, payload) := (bank.payload naming relative).read naming m
  (value, bank.setPayload relative payload)

def write (relative : Fin 8) (value : ExtendedValue N) (enabled : Val N Bool) : Bank N :=
  bank.setPayload relative ((bank.payload naming relative).write naming m value enabled)

def readTagWord : TrackedValue (Val N (BitVec 16)) :=
  bank.tagWord.getD (.new ⟨naming.loaded tagWordOffset, loadTagWord m⟩)

/-- A tag, taken from the tag word when it is not retained. -/
def tag (relative : Fin 8) : Val N (BitVec 16) × Bank N :=
  match (bank.registers relative).tag with
  | some tag => (tag.current.value, bank)
  | none =>
      let word := bank.readTagWord naming m
      let shift := bank.physical naming relative
      let initial : Val N (BitVec 16) :=
        naming.mask ⟨naming.shr word.value.name shift.name, word.value.value >>> (2 * shift.value.toNat)⟩ 3
      let bank := { bank with tagWord := some word }
      (initial, bank.setRegisterTag relative ⟨.new initial, none⟩)

def setTag (relative : Fin 8) (tag : Val N (BitVec 16)) (enabled : Val N Bool) : Bank N :=
  let (previous, bank) := bank.tag naming m relative
  match (bank.registers relative).tag with
  | some cached =>
      let (current, _) := cached.current.define (enabled.select naming.toNaming tag previous)
      bank.setRegisterTag relative ⟨current, some tag⟩
  | none => bank

def resetTags (tags : BitVec 16) : Bank N :=
  { bank with
    tagWord := some (.defined (naming.int 16 tags.toNat))
    registers := fun relative => { bank.registers relative with tag := none } }

def discardWriteGuards : Bank N :=
  { bank with
    registers := fun relative =>
      let register := bank.registers relative
      { payload := register.payload.map (·.discardWriteGuard)
        tag := register.tag.map fun tag =>
          match tag.latestWrite with
          | some value => ⟨(tag.current.define value).1, none⟩
          | none => tag } }

/-- One register's tag, packed if it changed. -/
def packRegister (packed : BitVec 16 × Bool) (relative : Fin 8) : BitVec 16 × Bool :=
  match (bank.registers relative).tag with
  | some tag =>
      if tag.current.dirty then
        (packTag packed.1 (slotAt (bank.physical naming relative).value) tag.current.value.value, true)
      else packed
  | none => packed

/-- The tags; the flag says whether any changed. -/
def packedTags : Option (BitVec 16 × Bool) :=
  bank.tagWord.map fun word => (List.finRange 8).foldl (bank.packRegister naming) (word.value.value, word.dirty)

/-- `Bank::tag_word`. -/
def readPackedTags : BitVec 16 × Bank N :=
  let bank := { bank with tagWord := some (bank.readTagWord naming m) }
  (((bank.packedTags naming).map (·.1)).getD 0, bank)

/-- One register's saved tag, which classifies an occupied payload. -/
def saveTag (saved : BitVec 16 × Bank N) (relative : Fin 8) : BitVec 16 × Bank N :=
  let (word, bank) := saved
  let (current, bank) := bank.tag naming m relative
  let (value, bank) := bank.read naming m relative
  let tag := if current.value = emptyTag then emptyTag else value.value.tag
  (word ||| tag <<< (2 * (bank.physical naming relative).value.toNat), bank)

/-- Preserves the live tags and any unresolved write guards. -/
def savedTagWord : BitVec 16 × Bank N := (List.finRange 8).foldl (saveTag naming m) (0, bank)

def publishRegister (m : Memory) (relative : Fin 8) : Memory :=
  match (bank.registers relative).payload with
  | some payload => payload.publish m
  | none => m

def publish : Memory :=
  let m := (List.finRange 8).foldl bank.publishRegister m
  match bank.packedTags naming with
  | some (tags, true) => storeTagWord m tags
  | _ => m

end Bank

/-! ## What a bank stands for -/

namespace Bank

variable {N : Type} {naming : Naming N} {m w : Memory} {bank : Bank N} {file : File} {pd : Bool} {i relative : Fin 8}

/-- The register of a slot. -/
def place (bank : Bank N) (relative : Fin 8) : Fin 8 := slotAt bank.origin.value + relative

/-- The tag word before the retained tags. -/
def word (bank : Bank N) (m : Memory) : BitVec 16 := (bank.tagWord.map (·.value.value)).getD (loadTagWord m)

end Bank

/-- A register that was not retained is still in memory. -/
def PayloadValid {N : Type} (m : Memory) (pending : Bool) (i : Fin 8) (bits : ExtendedBits) :
    Option (Payload N) → Prop
  | some payload => payload.Valid m i bits ∧ (pending = false → payload.Settled m)
  | none => loadRegister m (registerAddress i) = bits

/-- A tag that was not retained or did not change is that of the word. -/
def TagValid {N : Type} (word : BitVec 16) (pending : Bool) (i : Fin 8) (value : BitVec 16) : Option (Tag N) → Prop
  | some tag =>
      tag.current.value.value = value ∧ (tag.current.dirty = false → tagOf word i = value) ∧
        (pending = false → ∀ latest, tag.latestWrite = some latest → latest.value = value)
  | none => tagOf word i = value

/-- The bank stands for a file's registers and tags; guards that failed are possible only while an exception pends. -/
structure Bank.Valid {N : Type} (bank : Bank N) (m : Memory) (pending : Bool) (file : File) : Prop where
  payloads : ∀ relative,
    PayloadValid m pending (bank.place relative) (file.registers (bank.place relative)) (bank.registers relative).payload
  tags : ∀ relative,
    TagValid (bank.word m) pending (bank.place relative) (file.tag (bank.place relative)) (bank.registers relative).tag
  word : ∀ word, bank.tagWord = some word → word.dirty = false → word.value.value = loadTagWord m
  /-- Tags are read from the word. -/
  tagWord : bank.tagWord = none → ∀ relative, (bank.registers relative).tag = none

namespace Bank

variable {N : Type} {nm : Naming N} {m w : Memory} {bank : Bank N} {file : File} {pd : Bool} {i j : Fin 8}

theorem place_injective (bank : Bank N) : Function.Injective bank.place := fun a b h => by
  unfold place at h
  omega

theorem exists_place (bank : Bank N) (i : Fin 8) : ∃ j, bank.place j = i :=
  ⟨i - slotAt bank.origin.value, by unfold place; omega⟩

theorem slotAt_physical (bank : Bank N) (nm : Naming N) (j : Fin 8) :
    slotAt (bank.physical nm j).value = bank.place j := by
  show slotAt ((bank.origin.value + BitVec.ofNat 32 j) &&& 7) = _
  rw [slotAt_and_seven _ (by decide), slotAt_add, slotAt_ofNat]
  rfl

theorem toNat_physical (bank : Bank N) (nm : Naming N) (j : Fin 8) :
    (bank.physical nm j).value.toNat = (bank.place j).val := by
  rw [← bank.slotAt_physical nm j]
  have hlt : (bank.physical nm j).value.toNat < 8 := by
    show ((bank.origin.value + BitVec.ofNat 32 j) &&& 7).toNat < 8
    rw [toNat_and_seven _ (by decide)]
    exact Nat.mod_lt _ (by decide)
  exact (Nat.mod_eq_of_lt hlt).symm

theorem place_congr {other : Bank N} (h : other.origin = bank.origin) : other.place = bank.place := by
  unfold place
  rw [h]

/-- A file whose registers and tags are in memory. -/
structure Stored (m : Memory) (file : File) : Prop where
  registers : ∀ i, loadRegister m (registerAddress i) = file.registers i
  tagWord : loadTagWord m = file.tagWord

theorem Valid.new (h : Stored m file) (origin : Val N (BitVec 32)) : (new origin).Valid m pd file := by
  refine ⟨fun j => h.registers _, fun j => ?_, nofun, fun _ _ => rfl⟩
  show tagOf (loadTagWord m) _ = _
  rw [h.tagWord]
  rfl

/-! ## Payloads -/

theorem payload_valid (h : bank.Valid m pd file) (nm : Naming N) (j : Fin 8) :
    (bank.payload nm j).Valid m (bank.place j) (file.registers (bank.place j)) ∧
      (pd = false → (bank.payload nm j).Settled m) := by
  have hpay := h.payloads j
  unfold payload
  cases hcached : (bank.registers j).payload with
  | some cached =>
    rw [hcached] at hpay
    exact hpay
  | none =>
    rw [hcached] at hpay
    have haddr : ((bank.physical nm j).value * BitVec.ofNat 32 registerBytes).toNat =
        registerAddress (bank.place j) := by
      rw [BitVec.toNat_mul, bank.toNat_physical]
      have := (bank.place j).isLt
      unfold registerAddress registerBytes
      simp only [BitVec.toNat_ofNat]
      omega
    rw [← show loadRegister m _ = _ from hpay]
    exact ⟨.new haddr, fun _ => .new⟩

/-! ## Replacing one register's payload or tag -/

theorem payload_setPayload (bank : Bank N) (j r : Fin 8) (payload : Payload N) :
    ((bank.setPayload j payload).registers r).payload =
      if r = j then some payload else (bank.registers r).payload := by
  show (update bank.registers j _ r).payload = _
  rw [Function.update_apply]
  split <;> rfl

theorem tag_setPayload (bank : Bank N) (j r : Fin 8) (payload : Payload N) :
    ((bank.setPayload j payload).registers r).tag = (bank.registers r).tag := by
  show (update bank.registers j _ r).tag = _
  rw [Function.update_apply]
  split
  next h => rw [h]
  next => rfl

theorem payload_setRegisterTag (bank : Bank N) (j r : Fin 8) (tag : Tag N) :
    ((bank.setRegisterTag j tag).registers r).payload = (bank.registers r).payload := by
  show (update bank.registers j _ r).payload = _
  rw [Function.update_apply]
  split
  next h => rw [h]
  next => rfl

theorem tag_setRegisterTag (bank : Bank N) (j r : Fin 8) (tag : Tag N) :
    ((bank.setRegisterTag j tag).registers r).tag = if r = j then some tag else (bank.registers r).tag := by
  show (update bank.registers j _ r).tag = _
  rw [Function.update_apply]
  split <;> rfl

variable {pending' : Bool}

theorem PayloadValid.mono {bits : ExtendedBits} {payload : Option (Payload N)} (h : PayloadValid m pd i bits payload)
    (hpend : pending' = false → pd = false) : PayloadValid m pending' i bits payload := by
  cases payload with
  | none => exact h
  | some payload => exact ⟨h.1, fun hclear => h.2 (hpend hclear)⟩

theorem TagValid.mono {word value : BitVec 16} {tag : Option (Tag N)} (h : TagValid word pd i value tag)
    (hpend : pending' = false → pd = false) : TagValid word pending' i value tag := by
  cases tag with
  | none => exact h
  | some tag => exact ⟨h.1, h.2.1, fun hclear => h.2.2 (hpend hclear)⟩

theorem Valid.mono (h : bank.Valid m pd file) (hpend : pending' = false → pd = false) :
    bank.Valid m pending' file :=
  ⟨fun r => PayloadValid.mono (h.payloads r) hpend, fun r => TagValid.mono (h.tags r) hpend, h.word, h.tagWord⟩

/-- A bank depends on its registers' and the tag word's bytes. -/
theorem Valid.congr (h : bank.Valid m pd file)
    (hload : ∀ i, loadRegister w (registerAddress i) = loadRegister m (registerAddress i))
    (htagWord : loadTagWord w = loadTagWord m) : bank.Valid w pd file := by
  have hword : bank.word w = bank.word m := by
    unfold Bank.word
    rw [htagWord]
  refine ⟨fun r => ?_, fun r => ?_, fun word hsome hclean => ?_, h.tagWord⟩
  · have hpay := h.payloads r
    cases hcached : (bank.registers r).payload with
    | none =>
      rw [hcached] at hpay
      exact (hload _).trans hpay
    | some payload =>
      rw [hcached] at hpay
      have hvalid := hpay.1.congr (hload _)
      refine ⟨hvalid, fun hclear write hwr => ?_⟩
      rw [hvalid.current, ← hpay.1.current]
      exact hpay.2 hclear write hwr
  · rw [hword]
    exact h.tags r
  · rw [htagWord]
    exact h.word word hsome hclean

theorem Valid.setPayload (h : bank.Valid m pd file) {payload : Payload N} {bits : ExtendedBits}
    (hpay : payload.Valid m (bank.place j) bits) (hsettled : pd = false → payload.Settled m) :
    (bank.setPayload j payload).Valid m pd (file.setRegister (bank.place j) bits) := by
  refine ⟨fun r => ?_, fun r => ?_, h.word, fun hword r => ?_⟩
  · rw [payload_setPayload]
    show PayloadValid m pd (bank.place r) (if bank.place r = bank.place j then bits else _) _
    by_cases heq : r = j
    · rw [heq, if_pos rfl, if_pos rfl]
      exact ⟨hpay, hsettled⟩
    · rw [if_neg heq, if_neg (bank.place_injective.ne heq)]
      exact h.payloads r
  · rw [tag_setPayload]
    exact h.tags r
  · rw [tag_setPayload]
    exact h.tagWord hword r

theorem Valid.setRegisterTag (h : bank.Valid m pd file) {tag : Tag N} {value : BitVec 16} (hval : value.toNat < 4)
    (hword : bank.tagWord ≠ none) (htag : TagValid (bank.word m) pd (bank.place j) value (some tag)) :
    (bank.setRegisterTag j tag).Valid m pd (file.setTag (bank.place j) value) := by
  refine ⟨fun r => ?_, fun r => ?_, h.word, fun hnone => absurd hnone hword⟩
  · rw [payload_setRegisterTag]
    exact h.payloads r
  · rw [tag_setRegisterTag]
    show TagValid (bank.word m) pd (bank.place r) (tagOf (packTag _ _ _) (bank.place r)) _
    rw [tagOf_packTag _ _ _ hval]
    by_cases heq : r = j
    · rw [heq, if_pos rfl, if_pos rfl]
      exact htag
    · rw [if_neg heq, if_neg (bank.place_injective.ne (Ne.symm heq))]
      exact h.tags r

/-! ## Reading and writing -/

/-- A file with a register's own value put back. -/
theorem setRegister_self (file : File) (i : Fin 8) : file.setRegister i (file.registers i) = file := by
  unfold File.setRegister
  congr
  funext j
  split
  next h => rw [h]
  next => rfl

theorem setTag_self (file : File) (i : Fin 8) : file.setTag i (file.tag i) = file := by
  unfold File.setTag
  congr
  refine tagWord_ext fun j => ?_
  show tagOf (packTag _ i (tagOf file.tagWord i)) j = _
  rw [tagOf_packTag _ _ _ (tagOf_lt _ _)]
  split
  next h => rw [h]
  next => rfl

theorem read_fst (h : bank.Valid m pd file) (nm : Naming N) (j : Fin 8) :
    (bank.read nm m j).1.value = file.registers (bank.place j) :=
  (Payload.read_value _ nm m).trans (payload_valid h nm j).1.current

theorem read_snd (h : bank.Valid m pd file) (nm : Naming N) (j : Fin 8) :
    (bank.read nm m j).2.Valid m pd file := by
  obtain ⟨hvalid, hsettled⟩ := payload_valid h nm j
  have hread := h.setPayload (hvalid.read nm) fun hclear => (hsettled hclear).read nm
  rwa [setRegister_self] at hread

section

variable [DecidableEq N] {enabled : Val N Bool} {tag : Val N (BitVec 16)}

/-- A write acts when enabled; a disabled one that would change the register leaves its guard to an exception. -/
theorem write_spec (h : bank.Valid m pd file) (nm : Naming N) (j : Fin 8) (value : ExtendedValue N)
    (hpend : pd = false → enabled.value = false → value.value = file.registers (bank.place j)) :
    (bank.write nm m j value enabled).Valid m pd
      (if enabled.value then file.setRegister (bank.place j) value.value else file) := by
  obtain ⟨hvalid, hsettled⟩ := payload_valid h nm j
  have hwr : (bank.write nm m j value enabled).Valid m pd (file.setRegister (bank.place j)
      (if enabled.value then value.value else file.registers (bank.place j))) :=
    h.setPayload (hvalid.write value enabled) fun hclear => .write hvalid value (hpend hclear)
  cases hen : enabled.value with
  | true =>
    rw [hen] at hwr
    exact hwr
  | false =>
    rw [hen, if_neg Bool.false_ne_true, setRegister_self] at hwr
    exact hwr

end

/-! ## Tags -/

/-- Reading the tag word changes nothing. -/
theorem Valid.withTagWord (h : bank.Valid m pd file) (nm : Naming N) :
    Valid { bank with tagWord := some (bank.readTagWord nm m) } m pd file := by
  have hword : Bank.word { bank with tagWord := some (bank.readTagWord nm m) } m = bank.word m := by
    unfold Bank.word readTagWord
    cases bank.tagWord <;> rfl
  refine ⟨h.payloads, fun r => ?_, fun word hsome hclean => ?_, nofun⟩
  · rw [hword]
    exact h.tags r
  · cases hsome
    unfold readTagWord at hclean ⊢
    cases hcached : bank.tagWord with
    | none => rfl
    | some cached =>
      rw [hcached] at hclean
      exact h.word cached hcached hclean

theorem readTagWord_value (bank : Bank N) (nm : Naming N) (m : Memory) :
    (bank.readTagWord nm m).value.value = bank.word m := by
  unfold Bank.word readTagWord
  cases bank.tagWord <;> rfl

/-- A tag just read from the word. -/
theorem Valid.retainTag (h : bank.Valid m pd file) (hword : bank.tagWord ≠ none) {value : Val N (BitVec 16)}
    (hval : value.value = file.tag (bank.place j))
    (hinit : tagOf (bank.word m) (bank.place j) = file.tag (bank.place j)) :
    (bank.setRegisterTag j ⟨.new value, none⟩).Valid m pd file := by
  have hset := h.setRegisterTag (tagOf_lt file.tagWord (bank.place j)) hword
    (show TagValid _ _ _ _ (some ⟨.new value, none⟩) from ⟨hval, fun _ => hinit, nofun⟩)
  rwa [show tagOf file.tagWord (bank.place j) = file.tag (bank.place j) from rfl, setTag_self] at hset

/-- A tag that was read is retained. -/
theorem tag_retained (bank : Bank N) (nm : Naming N) (m : Memory) (j : Fin 8) :
    ∃ tag, ((bank.tag nm m j).2.registers j).tag = some tag ∧
      tag.current.value = (bank.tag nm m j).1 := by
  unfold tag
  cases hcached : (bank.registers j).tag with
  | some cached => exact ⟨cached, hcached, rfl⟩
  | none =>
    dsimp only
    rw [tag_setRegisterTag, if_pos rfl]
    exact ⟨_, rfl, rfl⟩

/-- A tag is read without changing the file. -/
theorem tag_spec (h : bank.Valid m pd file) (nm : Naming N) (j : Fin 8) :
    (bank.tag nm m j).1.value = file.tag (bank.place j) ∧
      (bank.tag nm m j).2.Valid m pd file ∧ (bank.tag nm m j).2.origin = bank.origin ∧
      (bank.tag nm m j).2.stackTop = bank.stackTop ∧ (bank.tag nm m j).2.tagWord ≠ none := by
  have htag := h.tags j
  unfold tag
  cases hcached : (bank.registers j).tag with
  | some cached =>
    rw [hcached] at htag
    refine ⟨htag.1, h, rfl, rfl, fun hnone => ?_⟩
    rw [h.tagWord hnone] at hcached
    exact nomatch hcached
  | none =>
    rw [hcached] at htag
    have hinit : (nm.mask ⟨nm.shr (bank.readTagWord nm m).value.name (bank.physical nm j).name,
        (bank.readTagWord nm m).value.value >>> (2 * (bank.physical nm j).value.toNat)⟩ 3 :
        Val N (BitVec 16)).value = file.tag (bank.place j) := by
      refine Eq.trans ?_ htag
      unfold Naming.mask tagOf
      rw [bank.toNat_physical, readTagWord_value]
      rfl
    have hword := h.withTagWord nm
    have hrelative := hword.tags j
    rw [hcached] at hrelative
    exact ⟨hinit, hword.retainTag nofun hinit hrelative, rfl, rfl, nofun⟩

section

variable [DecidableEq N] {enabled : Val N Bool} {tag : Val N (BitVec 16)}

theorem define_value (tracked : TrackedValue (Val N (BitVec 16))) (value : Val N (BitVec 16)) :
    (tracked.define value).1.value = value := by
  unfold TrackedValue.define
  split
  next h => exact h
  next => rfl

/-- A value that is clean after a definition was so before, and is the same. -/
theorem define_clean {tracked : TrackedValue (Val N (BitVec 16))} {value : Val N (BitVec 16)}
    (h : (tracked.define value).1.dirty = false) : tracked.dirty = false ∧ tracked.value = value := by
  unfold TrackedValue.define at h
  split at h
  next heq => exact ⟨h, heq⟩
  next => exact nomatch h

/-- A tag is replaced when enabled; a disabled replacement that would change it leaves its guard to an exception. -/
theorem setTag_spec (h : bank.Valid m pd file) (nm : Naming N) (j : Fin 8) (htag : tag.value.toNat < 4)
    (hpend : pd = false → enabled.value = false → tag.value = file.tag (bank.place j)) :
    (bank.setTag nm m j tag enabled).Valid m pd
      (if enabled.value then file.setTag (bank.place j) tag.value else file) := by
  obtain ⟨hprev, hvalid, horigin, -, hword⟩ := tag_spec h nm j
  obtain ⟨cached, hcached, hcur⟩ := tag_retained bank nm m j
  have hpl : (bank.tag nm m j).2.place = bank.place := place_congr horigin
  have hold := hvalid.tags j
  rw [hcached, hpl] at hold
  unfold setTag
  dsimp only
  rw [hcached]
  dsimp only
  have hlt : (if enabled.value then tag.value else file.tag (bank.place j)).toNat < 4 := by
    split
    next => exact htag
    next => exact tagOf_lt _ _
  have hnew : TagValid ((bank.tag nm m j).2.word m) pd ((bank.tag nm m j).2.place j)
      (if enabled.value then tag.value else file.tag (bank.place j))
      (some ⟨(cached.current.define (enabled.select nm.toNaming tag (bank.tag nm m j).1)).1, some tag⟩) := by
    refine ⟨?_, fun hclean => ?_, fun hclear latest hlatest => ?_⟩
    · rw [define_value]
      unfold Val.select
      cases enabled.value <;> simp [hprev]
    · obtain ⟨hclean, hsame⟩ := define_clean hclean
      rw [hpl, hold.2.1 hclean, ← hold.1, hsame]
      unfold Val.select
      cases enabled.value <;> simp [hprev]
    · cases hlatest
      split
      next => rfl
      next hdis => exact hpend hclear (Bool.not_eq_true _ ▸ hdis)
  have hset := hvalid.setRegisterTag hlt hword hnew
  rw [hpl] at hset
  split
  next hen =>
    rw [hen, if_pos rfl] at hset
    exact hset
  next hen =>
    rw [if_neg hen, setTag_self] at hset
    exact hset

theorem setTag_keeps (h : bank.Valid m pd file) (nm : Naming N) (j : Fin 8) (tag : Val N (BitVec 16))
    (enabled : Val N Bool) :
    (bank.setTag nm m j tag enabled).origin = bank.origin ∧
      (bank.setTag nm m j tag enabled).stackTop = bank.stackTop := by
  obtain ⟨-, -, horigin, hstackTop, -⟩ := tag_spec h nm j
  obtain ⟨cached, hcached, -⟩ := tag_retained bank nm m j
  unfold setTag
  dsimp only
  rw [hcached]
  exact ⟨horigin, hstackTop⟩

end

/-- A bank stands for registers and tags; TOP is not its own. -/
theorem Valid.ofFile (h : bank.Valid m pd file) {file' : File} (hregs : file'.registers = file.registers)
    (htagWord : file'.tagWord = file.tagWord) : bank.Valid m pd file' := by
  obtain ⟨top, tagWord, registers⟩ := file'
  cases hregs
  cases htagWord
  exact ⟨h.payloads, h.tags, h.word, h.tagWord⟩

theorem resetTags_spec (h : bank.Valid m pd file) (nm : Naming N) (tags : BitVec 16) :
    (bank.resetTags nm tags).Valid m pd (file.reset tags) := by
  refine ⟨h.payloads, fun r => ?_, fun word hsome hclean => ?_, fun _ _ => rfl⟩
  · show tagOf (BitVec.ofNat 16 tags.toNat) _ = tagOf tags _
    rw [BitVec.ofNat_toNat, BitVec.setWidth_eq]
  · cases hsome
    exact nomatch hclean

section

variable [DecidableEq N]

/-- With no exception pending, every guard held. -/
theorem discardWriteGuards_spec (h : bank.Valid m false file) : bank.discardWriteGuards.Valid m false file := by
  refine ⟨fun r => ?_, fun r => ?_, h.word, fun hnone r => ?_⟩
  · have hpay := h.payloads r
    show PayloadValid _ _ _ _ ((bank.registers r).payload.map (·.discardWriteGuard))
    cases hcached : (bank.registers r).payload with
    | none =>
      rw [hcached] at hpay
      exact hpay
    | some payload =>
      rw [hcached] at hpay
      obtain ⟨hvalid, hsettled⟩ := hpay.1.discardWriteGuard (hpay.2 rfl)
      exact ⟨hvalid, fun _ => hsettled⟩
  · have htag := h.tags r
    show TagValid (bank.word m) _ _ _ ((bank.registers r).tag.map _)
    cases hcached : (bank.registers r).tag with
    | none =>
      rw [hcached] at htag
      exact htag
    | some tag =>
      rw [hcached] at htag
      obtain ⟨hval, hclean, hlatest⟩ := htag
      rw [Option.map_some]
      split
      next latest hsome =>
        refine ⟨?_, fun hdirty => hclean (define_clean hdirty).1, nofun⟩
        rw [define_value]
        exact hlatest rfl latest hsome
      next => exact ⟨hval, hclean, hlatest⟩
  · show ((bank.registers r).tag.map _) = none
    rw [h.tagWord hnone r]
    rfl

end

/-! ## The packed tag word -/

/-- The tags packed so far; those of the remaining slots may still be replaced. -/
structure Packing (bank : Bank N) (m : Memory) (file : File) (remaining : List (Fin 8)) (packed : BitVec 16 × Bool) :
    Prop where
  tags : ∀ r, tagOf packed.1 (bank.place r) = file.tag (bank.place r) ∨
    r ∈ remaining ∧ ∃ tag, (bank.registers r).tag = some tag ∧ tag.current.dirty = true
  unchanged : packed.2 = false → packed.1 = loadTagWord m

section

variable (h : bank.Valid m pd file)

include h

theorem Packing.step {first : Fin 8} {rest : List (Fin 8)} {packed : BitVec 16 × Bool}
    (hpacking : Packing bank m file (first :: rest) packed) (nm : Naming N) :
    Packing bank m file rest (bank.packRegister nm packed first) := by
  have hfst := h.tags first
  unfold packRegister
  cases hcached : (bank.registers first).tag with
  | none =>
    refine ⟨fun r => (hpacking.tags r).imp_right fun ⟨hmem, tag, hr, hdirty⟩ => ⟨?_, tag, hr, hdirty⟩, hpacking.unchanged⟩
    refine (List.mem_cons.mp hmem).resolve_left ?_
    rintro rfl
    exact nomatch hcached.symm.trans hr
  | some tag =>
    rw [hcached] at hfst
    dsimp only
    split
    next hdirty =>
      refine ⟨fun r => ?_, nofun⟩
      rw [bank.slotAt_physical, tagOf_packTag _ _ _ (by rw [hfst.1]; exact tagOf_lt _ _)]
      by_cases heq : first = r
      · rw [heq, if_pos rfl, hfst.1, heq]
        exact .inl rfl
      · rw [if_neg (bank.place_injective.ne heq)]
        exact (hpacking.tags r).imp_right fun ⟨hmem, hr⟩ => ⟨(List.mem_cons.mp hmem).resolve_left (Ne.symm heq), hr⟩
    next hclean =>
      refine ⟨fun r => (hpacking.tags r).imp_right fun ⟨hmem, tag', hr, hdirty⟩ => ⟨?_, tag', hr, hdirty⟩, hpacking.unchanged⟩
      refine (List.mem_cons.mp hmem).resolve_left ?_
      rintro rfl
      rw [hcached] at hr
      cases hr
      exact hclean hdirty

theorem Packing.fold {rem : List (Fin 8)} {packed : BitVec 16 × Bool}
    (hpacking : Packing bank m file rem packed) (nm : Naming N) :
    Packing bank m file [] (rem.foldl (bank.packRegister nm) packed) := by
  induction rem generalizing packed with
  | nil => exact hpacking
  | cons first rest ih => exact ih (hpacking.step h nm)

/-- Packing gives the file's tag word, and says when it changed. -/
theorem packedTags_spec (nm : Naming N) {tags : BitVec 16} {changed : Bool}
    (hpacked : bank.packedTags nm = some (tags, changed)) :
    tags = file.tagWord ∧ (changed = false → loadTagWord m = file.tagWord) := by
  obtain ⟨word, hword, hfold⟩ := Option.map_eq_some_iff.mp hpacked
  have hval : bank.word m = word.value.value := by
    unfold Bank.word
    rw [hword]
    rfl
  have hpacking : Packing bank m file (List.finRange 8) (word.value.value, word.dirty) := by
    refine ⟨fun r => ?_, h.word word hword⟩
    have htag := h.tags r
    rw [hval] at htag
    cases hcached : (bank.registers r).tag with
    | none =>
      rw [hcached] at htag
      exact .inl htag
    | some tag =>
      rw [hcached] at htag
      cases hdirty : tag.current.dirty with
      | true => exact .inr ⟨List.mem_finRange r, tag, rfl, hdirty⟩
      | false => exact .inl (htag.2.1 hdirty)
  have hres := hpacking.fold h nm
  rw [hfold] at hres
  have htags : tags = file.tagWord := tagWord_ext fun i => by
    obtain ⟨r, rfl⟩ := bank.exists_place i
    exact (hres.tags r).resolve_right fun hmem => List.not_mem_nil hmem.1
  exact ⟨htags, fun hsame => (hres.unchanged hsame).symm.trans htags⟩

/-! ## Publication -/

theorem publishRegister_eq {j : Fin 8}
    (hload : loadRegister w (registerAddress (bank.place j)) = loadRegister m (registerAddress (bank.place j))) :
    bank.publishRegister w j =
      storeRegister w (registerAddress (bank.place j)) (file.registers (bank.place j)) := by
  have hpay := h.payloads j
  unfold publishRegister
  cases hcached : (bank.registers j).payload with
  | none =>
    rw [hcached] at hpay
    rw [← show loadRegister m _ = _ from hpay, ← hload, storeRegister_self]
  | some payload =>
    rw [hcached] at hpay
    exact (hpay.1.congr hload).publish

theorem publishRegisters_spec {relatives : List (Fin 8)} (hnodup : relatives.Nodup)
    (hload : ∀ r ∈ relatives,
      loadRegister w (registerAddress (bank.place r)) = loadRegister m (registerAddress (bank.place r))) :
    (∀ r ∈ relatives, loadRegister (relatives.foldl bank.publishRegister w) (registerAddress (bank.place r)) =
      file.registers (bank.place r)) ∧
    ∀ x, (∀ r ∈ relatives, ¬ InRegister (bank.place r) x) → relatives.foldl bank.publishRegister w x = w x := by
  induction relatives generalizing w with
  | nil => exact ⟨fun r hr => absurd hr List.not_mem_nil, fun _ _ => rfl⟩
  | cons first rest ih =>
    obtain ⟨hfst, hrest⟩ := List.nodup_cons.mp hnodup
    rw [List.foldl_cons, publishRegister_eq h (hload first List.mem_cons_self)]
    have hapart : ∀ r ∈ rest, bank.place first ≠ bank.place r := fun r hr heq =>
      hfst (bank.place_injective heq ▸ hr)
    have hstored : ∀ r ∈ rest, loadRegister
        (storeRegister w (registerAddress (bank.place first)) (file.registers (bank.place first)))
        (registerAddress (bank.place r)) = loadRegister m (registerAddress (bank.place r)) := fun r hr =>
      (loadRegister_congr fun x hx => storeRegister_other (hx.apart (hapart r hr).symm)).trans
        (hload r (List.mem_cons_of_mem _ hr))
    obtain ⟨hloads, hframe⟩ := ih hrest hstored
    refine ⟨fun r hr => ?_, fun x hx => ?_⟩
    · rcases List.mem_cons.mp hr with rfl | hr
      · rw [loadRegister_congr fun x hx => hframe x fun r' hr' => hx.apart (hapart r' hr'), loadRegister_storeRegister]
      · exact hloads r hr
    · rw [hframe x fun r hr => hx r (List.mem_cons_of_mem _ hr), storeRegister_other (hx first List.mem_cons_self)]

/-- Before any tag was read, the memory holds them all. -/
theorem loadTagWord_of_unread (hunread : bank.tagWord = none) : loadTagWord m = file.tagWord := by
  refine tagWord_ext fun i => ?_
  obtain ⟨r, rfl⟩ := bank.exists_place i
  have htag := h.tags r
  rw [h.tagWord hunread r, Bank.word, hunread] at htag
  exact htag

/-- Publication stores the file's registers and tags, and nothing else. -/
theorem publish_spec (nm : Naming N) :
    Stored (bank.publish nm m) file ∧
      ∀ x, ¬ InTagWord x → (∀ i, ¬ InRegister i x) → bank.publish nm m x = m x := by
  obtain ⟨hloads, hframe⟩ := publishRegisters_spec h (List.nodup_finRange 8) fun r _ => rfl
  have hregs : ∀ i, loadRegister ((List.finRange 8).foldl bank.publishRegister m) (registerAddress i) =
      file.registers i := by
    intro i
    obtain ⟨r, rfl⟩ := bank.exists_place i
    exact hloads r (List.mem_finRange r)
  have hword : loadTagWord ((List.finRange 8).foldl bank.publishRegister m) = loadTagWord m :=
    loadTagWord_congr fun x hx => hframe x fun r _ hr => hr.not_inTagWord hx
  have hpublish : bank.publish nm m = storeTagWord ((List.finRange 8).foldl bank.publishRegister m) file.tagWord := by
    have hunchanged : loadTagWord m = file.tagWord →
        (List.finRange 8).foldl bank.publishRegister m =
          storeTagWord ((List.finRange 8).foldl bank.publishRegister m) file.tagWord := by
      intro htagWord
      rw [← htagWord, ← hword, storeTagWord_self]
    unfold publish
    dsimp only
    split
    next tags hpacked => rw [(packedTags_spec h nm hpacked).1]
    next hnot =>
      cases hpacked : bank.packedTags nm with
      | none => exact hunchanged (loadTagWord_of_unread h (Option.map_eq_none_iff.mp hpacked))
      | some packed =>
        obtain ⟨tags, changed⟩ := packed
        cases changed with
        | true => exact absurd hpacked (hnot tags)
        | false => exact hunchanged ((packedTags_spec h nm hpacked).2 rfl)
  rw [hpublish]
  refine ⟨⟨fun i => ?_, loadTagWord_storeTagWord _ _⟩, fun x hx hr => ?_⟩
  · rw [← hregs i]
    exact loadRegister_congr fun x hx => storeTagWord_other hx.not_inTagWord
  · rw [storeTagWord_other hx, hframe x fun r _ => hr _]

end

/-! ## Saved tags -/

theorem getLsbD_foldl_or {α : Type} {w : Nat} (f : α → BitVec w) (l : List α) (word : BitVec w) (k : Nat) :
    (l.foldl (fun word a => word ||| f a) word).getLsbD k = (word.getLsbD k || l.any fun a => (f a).getLsbD k) := by
  induction l generalizing word with
  | nil => simp
  | cons a rest ih => rw [List.foldl_cons, ih, List.any_cons, BitVec.getLsbD_or, Bool.or_assoc]

/-- The order of the slots does not matter. -/
theorem foldl_or_place (bank : Bank N) (f : Fin 8 → BitVec 16) :
    (List.finRange 8).foldl (fun word r => word ||| f (bank.place r)) 0 =
      (List.finRange 8).foldl (fun word i => word ||| f i) 0 := by
  refine BitVec.eq_of_getLsbD_eq fun k _ => ?_
  rw [getLsbD_foldl_or (fun r => f (bank.place r)), getLsbD_foldl_or]
  congr 1
  rw [Bool.eq_iff_iff, List.any_eq_true, List.any_eq_true]
  constructor
  · rintro ⟨r, -, hr⟩
    exact ⟨_, List.mem_finRange _, hr⟩
  · rintro ⟨i, -, hi⟩
    obtain ⟨r, rfl⟩ := bank.exists_place i
    exact ⟨r, List.mem_finRange _, hi⟩

theorem saveTags_spec (h : bank.Valid m pd file) (nm : Naming N) (relatives : List (Fin 8)) (word : BitVec 16) :
    (relatives.foldl (saveTag nm m) (word, bank)).1 =
        relatives.foldl (fun word r => word ||| file.savedTag (bank.place r) <<< (2 * (bank.place r).val)) word ∧
      (relatives.foldl (saveTag nm m) (word, bank)).2.Valid m pd file ∧
      (relatives.foldl (saveTag nm m) (word, bank)).2.origin = bank.origin ∧
      (relatives.foldl (saveTag nm m) (word, bank)).2.stackTop = bank.stackTop := by
  induction relatives generalizing bank word with
  | nil => exact ⟨rfl, h, rfl, rfl⟩
  | cons first rest ih =>
    obtain ⟨htag, hvalid, horigin, hstackTop, -⟩ := tag_spec h nm first
    have hread := read_fst hvalid nm first
    have hpl : (bank.tag nm m first).2.place = bank.place := place_congr horigin
    have hpl' : ((bank.tag nm m first).2.read nm m first).2.place = bank.place := place_congr horigin
    have hstep : saveTag nm m (word, bank) first =
        (word ||| file.savedTag (bank.place first) <<< (2 * (bank.place first).val),
          ((bank.tag nm m first).2.read nm m first).2) := by
      unfold saveTag
      dsimp only
      rw [htag, hread, hpl, toNat_physical, hpl']
      rfl
    obtain ⟨hword, hvalid', horigin', hstackTop'⟩ := ih (read_snd hvalid nm first)
      (word ||| file.savedTag (bank.place first) <<< (2 * (bank.place first).val))
    rw [List.foldl_cons, List.foldl_cons, hstep]
    rw [hpl'] at hword
    exact ⟨hword, hvalid', horigin'.trans horigin, hstackTop'.trans hstackTop⟩

/-- Saving classifies the occupied registers and keeps the bank. -/
theorem savedTagWord_spec (h : bank.Valid m pd file) (nm : Naming N) :
    (bank.savedTagWord nm m).1 = file.savedTagWord ∧ (bank.savedTagWord nm m).2.Valid m pd file ∧
      (bank.savedTagWord nm m).2.origin = bank.origin ∧
      (bank.savedTagWord nm m).2.stackTop = bank.stackTop := by
  obtain ⟨hword, hrest⟩ := saveTags_spec h nm (List.finRange 8) 0
  refine ⟨hword.trans ?_, hrest⟩
  exact bank.foldl_or_place fun i => file.savedTag i <<< (2 * i.val)

/-- The live tag word. -/
theorem readPackedTags_spec (h : bank.Valid m pd file) (nm : Naming N) :
    (bank.readPackedTags nm m).1 = file.tagWord ∧ (bank.readPackedTags nm m).2.Valid m pd file := by
  have hvalid := h.withTagWord nm
  refine ⟨?_, hvalid⟩
  unfold readPackedTags
  dsimp only
  cases hpacked : packedTags nm { bank with tagWord := some (bank.readTagWord nm m) } with
  | none => exact nomatch Option.map_eq_none_iff.mp hpacked
  | some packed => exact (packedTags_spec hvalid nm hpacked).1

end Bank

end Relocade.X87
