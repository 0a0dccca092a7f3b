import Relocade.Dos.Path

/-!
# `Dos.ShortName` — space-padded 8.3 names

Searches compare names of eleven bytes, a base and an extension padded with spaces. The wildcard `?` of a pattern
matches padding too, and `*` stands for as many of it as fit.
-/

namespace Relocade.Dos.ShortName

open Path (dot toUpper)

def space : BitVec 8 := 0x20
def star : BitVec 8 := 0x2A
def question : BitVec 8 := 0x3F

/-- A character of a name: graphic ASCII, and none of `. " / \ : ; , + = [ ] < > |`. -/
def plain (byte : BitVec 8) : Bool :=
  0x21 ≤ byte && byte ≤ 0x7E &&
    !(byte = dot || byte = 0x22 || byte = 0x2F || byte = 0x5C || byte = 0x3A || byte = 0x3B || byte = 0x2C ||
      byte = 0x2B || byte = 0x3D || byte = 0x5B || byte = 0x5D || byte = 0x3C || byte = 0x3E || byte = 0x7C)

/-- A field of a width. -/
def field : Nat → Bytes → Option Bytes
  | width, [] => some (List.replicate width space)
  | width, byte :: rest =>
      if byte = star then some (List.replicate width question)
      else if width = 0 then none
      else if plain byte then (field (width - 1) rest).map (toUpper byte :: ·)
      else none

/-- A name in eleven bytes, with its stars expanded. -/
def pattern (name : Bytes) : Option Bytes :=
  if name = [dot] ∨ name = [dot, dot] then some (name ++ List.replicate (11 - name.length) space)
  else
    let base := name.takeWhile (· ≠ dot)
    let extension := name.dropWhile (· ≠ dot)
    if base = [] then none
    else do
      let first ← field 8 base
      let second ← field 3 (if extension.head? = some dot then extension.drop 1 else extension)
      pure (first ++ second)

def name (name : Bytes) : Option Bytes := if star ∈ name ∨ question ∈ name then none else pattern name

def isMatch (pattern name : Bytes) : Bool :=
  (pattern.zip name).all fun pair => pair.1 = question || pair.1 = pair.2

variable {input out : Bytes}

theorem length_field {width : Nat} (h : field width input = some out) : out.length = width := by
  induction input generalizing width out with
  | nil =>
    rw [field] at h
    cases h
    exact List.length_replicate
  | cons byte rest ih =>
    rw [field] at h
    split at h
    · cases h
      exact List.length_replicate
    split at h
    · exact nomatch h
    split at h
    · obtain ⟨tail, htail, rfl⟩ := Option.map_eq_some_iff.mp h
      rw [List.length_cons, ih htail]
      omega
    · exact nomatch h

/-- Without a star, a field is no longer than its width. -/
theorem length_le_width {width : Nat} (h : field width input = some out) (hstar : star ∉ input) :
    input.length ≤ width := by
  induction input generalizing width out with
  | nil => exact Nat.zero_le _
  | cons byte rest ih =>
    rw [List.mem_cons, not_or] at hstar
    rw [field, if_neg (Ne.symm hstar.1)] at h
    split at h
    · exact nomatch h
    split at h
    · obtain ⟨tail, htail, -⟩ := Option.map_eq_some_iff.mp h
      have := ih htail hstar.2
      rw [List.length_cons]
      omega
    · exact nomatch h

theorem length_pattern {name out : Bytes} (h : pattern name = some out) : out.length = 11 := by
  rw [pattern] at h
  split at h
  · next hdots =>
      cases h
      rw [List.length_append, List.length_replicate]
      rcases hdots with rfl | rfl <;> rfl
  · dsimp only at h
    split at h
    · exact nomatch h
    · obtain ⟨first, hfst, h⟩ := Option.bind_eq_some_iff.mp h
      obtain ⟨second, hsnd, h⟩ := Option.bind_eq_some_iff.mp h
      cases h
      rw [List.length_append, length_field hfst, length_field hsnd]

/-- A file name with a short name is a dot entry, or has no star and two fields. -/
theorem name_fields (h : name input = some out) : (input = [dot] ∨ input = [dot, dot]) ∨ star ∉ input ∧
    ∃ first second, field 8 (input.takeWhile (· ≠ dot)) = some first ∧
      field 3 (if (input.dropWhile (· ≠ dot)).head? = some dot then (input.dropWhile (· ≠ dot)).drop 1
        else input.dropWhile (· ≠ dot)) = some second := by
  rw [name] at h
  split at h
  · exact nomatch h
  next hwild =>
    have hstar : star ∉ input := fun hmem => hwild (Or.inl hmem)
    rw [pattern] at h
    split at h
    · next hdots => exact Or.inl hdots
    dsimp only at h
    split at h
    · exact nomatch h
    obtain ⟨first, hfst, h⟩ := Option.bind_eq_some_iff.mp h
    obtain ⟨second, hsnd, -⟩ := Option.bind_eq_some_iff.mp h
    exact Or.inr ⟨hstar, first, second, hfst, hsnd⟩

/-- A file name with a short name has at most twelve bytes. -/
theorem length_of_name (h : name input = some out) : input.length ≤ 12 := by
  obtain hdots | ⟨hstar, first, second, hfst, hsnd⟩ := name_fields h
  · rcases hdots with rfl | rfl <;> decide
  have hbase := length_le_width hfst fun hmem => hstar (List.takeWhile_subset _ hmem)
  have hsplit : (input.takeWhile (· ≠ dot)).length + (input.dropWhile (· ≠ dot)).length = input.length := by
    rw [← List.length_append, List.takeWhile_append_dropWhile]
  split at hsnd
  · have hextension := length_le_width hsnd fun hmem => hstar (List.dropWhile_subset _ (List.mem_of_mem_drop hmem))
    rw [List.length_drop] at hextension
    omega
  · have hextension := length_le_width hsnd fun hmem => hstar (List.dropWhile_subset _ hmem)
    omega

/-- Without a star, a field holds plain characters only. -/
theorem plain_of_field {width : Nat} (h : field width input = some out) (hstar : star ∉ input) :
    ∀ byte ∈ input, plain byte = true := by
  induction input generalizing width out with
  | nil => exact fun byte hbyte => absurd hbyte List.not_mem_nil
  | cons first rest ih =>
    rw [List.mem_cons, not_or] at hstar
    rw [field, if_neg (Ne.symm hstar.1)] at h
    split at h
    · exact nomatch h
    split at h
    · next hplain =>
        obtain ⟨tail, htail, -⟩ := Option.map_eq_some_iff.mp h
        exact List.forall_mem_cons.mpr ⟨hplain, ih htail hstar.2⟩
    · exact nomatch h

/-- A file name with a short name ends where it is terminated. -/
theorem ne_zero_of_name (h : name input = some out) : ∀ byte ∈ input, byte ≠ 0 := by
  have hplain : ∀ byte : BitVec 8, plain byte = true → byte ≠ 0 := by
    rintro byte hbyte rfl
    exact absurd hbyte (by decide)
  obtain hdots | ⟨hstar, first, second, hfst, hsnd⟩ := name_fields h
  · rcases hdots with rfl | rfl <;> decide
  intro byte hbyte
  rw [← @List.takeWhile_append_dropWhile _ (· ≠ dot) input, List.mem_append] at hbyte
  rcases hbyte with hbyte | hbyte
  · exact hplain byte (plain_of_field hfst (fun hmem => hstar (List.takeWhile_subset _ hmem)) byte hbyte)
  · split at hsnd
    · next hdot =>
        cases hextension : input.dropWhile (· ≠ dot) with
        | nil =>
          rw [hextension] at hbyte
          exact absurd hbyte List.not_mem_nil
        | cons head rest =>
          rw [hextension] at hbyte hdot hsnd
          rcases List.mem_cons.mp hbyte with rfl | hbyte
          · rw [Option.some.inj hdot]
            decide
          · refine hplain byte (plain_of_field hsnd (fun hmem => hstar ?_) byte hbyte)
            exact List.dropWhile_subset _ (hextension ▸ List.mem_cons_of_mem _ hmem)
    · exact hplain byte (plain_of_field hsnd (fun hmem => hstar (List.dropWhile_subset _ hmem)) byte hbyte)

end Relocade.Dos.ShortName
