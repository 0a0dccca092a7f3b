import Mathlib.Data.List.Basic

/-!
# `Dos.Path` — path normalization and mounted drives

A DOS path is a byte string with an optional drive prefix and either kind of separator. `resolve` walks its components
from the root or from a current directory and gives a root-relative path with single slashes, in upper case.
-/

namespace Relocade.Dos

open List (not_mem_nil mem_cons_of_mem mem_cons_self any_eq_false foldlM_cons)

abbrev Bytes := List (BitVec 8)

namespace Path

def backslash : BitVec 8 := 0x5C
def slash : BitVec 8 := 0x2F
def colon : BitVec 8 := 0x3A
def dot : BitVec 8 := 0x2E

/-- Includes the terminating NUL. -/
def maxPathBytes : Nat := 128

def isSeparator (byte : BitVec 8) : Bool := byte = backslash || byte = slash

def isLower (byte : BitVec 8) : Bool := 0x61 ≤ byte && byte ≤ 0x7A

def isUpper (byte : BitVec 8) : Bool := 0x41 ≤ byte && byte ≤ 0x5A

def toUpper (byte : BitVec 8) : BitVec 8 := if isLower byte then byte - 0x20 else byte

/-- The drive a path names, or the default; a prefix that is not a letter is refused. -/
def drive (path : Bytes) (default : BitVec 8) : Option (BitVec 8) :=
  match path with
  | letter :: second :: _ =>
      if second = colon then if isLower letter || isUpper letter then some (toUpper letter) else none
      else some default
  | _ => some default

/-- Control characters, and the characters `: " < > | * ?`. -/
def forbidden (byte : BitVec 8) : Bool :=
  byte < 0x20 || byte = colon || byte = 0x22 || byte = 0x3C || byte = 0x3E || byte = 0x7C || byte = 0x2A || byte = 0x3F

/-- One component of a path. -/
def walk (components : List Bytes) (component : Bytes) : Option (List Bytes) :=
  if component = [] ∨ component = [dot] then some components
  else if component = [dot, dot] then some components.dropLast
  else if component.any forbidden then none
  else some (components ++ [component])

def stripDrive (path : Bytes) : Bytes := if path[1]? = some colon then path.drop 2 else path

/-- Where the walk starts. -/
def origin (path currentDirectory : Bytes) : List Bytes :=
  if path.head?.any isSeparator then [] else (currentDirectory.splitOn slash).filter fun part => part ≠ []

def resolve (path currentDirectory : Bytes) : Option Bytes :=
  if path = [] ∨ path.length ≥ maxPathBytes ∨ path.any fun byte => 0x80 ≤ byte then none
  else
    let path := stripDrive path
    ((path.splitOnP isSeparator).foldlM walk (origin path currentDirectory)).bind fun components =>
      let path := ([slash].intercalate components).map toUpper
      if path.length < maxPathBytes then some path else none

/-- A name that is no file's: none at all, the directory itself or its parent. -/
def IsDots (name : Bytes) : Prop := name = [] ∨ name = [dot] ∨ name = [dot, dot]

instance (name : Bytes) : Decidable (IsDots name) := inferInstanceAs (Decidable (_ ∨ _ ∨ _))

def filePath (path currentDirectory : Bytes) : Option Bytes :=
  (path.splitOnP isSeparator).getLast?.bind fun last =>
    if IsDots last then none
    else (resolve path currentDirectory).bind fun path => if path ≠ [] then some path else none

/-- Whether a mounted filesystem accepts a path. -/
def validatePath (path : Bytes) : Bool :=
  path = [] || !(path.splitOn slash).any fun part =>
    part = [] || part = [dot] || part = [dot, dot] || part.any fun byte => byte = 0

/-! ## Splitting and joining -/

section Split

variable {α : Type} {p : α → Bool} {s : α}

/-- The pieces hold no separator, and nothing that the list does not. -/
theorem of_mem_splitOnP {xs piece : List α} (h : piece ∈ xs.splitOnP p) : ∀ x ∈ piece, p x = false ∧ x ∈ xs := by
  induction xs generalizing piece with
  | nil =>
    rw [List.splitOnP_nil, List.mem_singleton] at h
    rw [h]
    exact fun _ hx => absurd hx not_mem_nil
  | cons x xs ih =>
    rw [List.splitOnP_cons_eq_if_modifyHead] at h
    split at h
    · rcases List.mem_cons.mp h with rfl | h
      · exact fun _ hx => absurd hx not_mem_nil
      · exact fun y hy => ⟨(ih h y hy).1, mem_cons_of_mem _ (ih h y hy).2⟩
    · next hx =>
        obtain ⟨first, rest, hsplit⟩ := List.exists_cons_of_ne_nil (List.splitOnP_ne_nil p xs)
        rw [hsplit, List.modifyHead_cons] at h
        rcases List.mem_cons.mp h with rfl | h
        · intro y hy
          rcases List.mem_cons.mp hy with rfl | hy
          · exact ⟨Bool.not_eq_true _ ▸ hx, mem_cons_self⟩
          · have := ih (hsplit ▸ mem_cons_self) y hy
            exact ⟨this.1, mem_cons_of_mem _ this.2⟩
        · intro y hy
          have := ih (hsplit ▸ mem_cons_of_mem _ h) y hy
          exact ⟨this.1, mem_cons_of_mem _ this.2⟩

/-- Pieces joined are split again. -/
theorem splitOnP_intercalate (hs : p s = true) {pieces : List (List α)} (hne : pieces ≠ [])
    (h : ∀ piece ∈ pieces, ∀ x ∈ piece, p x = false) : ([s].intercalate pieces).splitOnP p = pieces := by
  induction pieces with
  | nil => exact absurd rfl hne
  | cons first rest ih =>
    cases rest with
    | nil =>
      rw [List.intercalate_singleton]
      exact List.splitOnP_eq_singleton (h first mem_cons_self)
    | cons second rest =>
      rw [List.intercalate_cons_cons, List.append_assoc, List.singleton_append,
        List.splitOnP_append_cons_of_forall_mem (h first mem_cons_self) s hs,
        ih (List.cons_ne_nil _ _) (fun piece hpiece => h piece (mem_cons_of_mem _ hpiece))]

theorem map_intercalate {β : Type} (f : α → β) (s : α) (pieces : List (List α)) :
    ([s].intercalate pieces).map f = [f s].intercalate (pieces.map (List.map f)) := by
  induction pieces with
  | nil => rfl
  | cons first rest ih =>
    cases rest with
    | nil => simp
    | cons second rest =>
      simp only [List.map_cons, List.intercalate_cons_cons, List.map_append, List.map_nil] at ih ⊢
      rw [ih]

theorem mem_intercalate {pieces : List (List α)} {x : α} (h : x ∈ [s].intercalate pieces) :
    x = s ∨ ∃ piece ∈ pieces, x ∈ piece := by
  induction pieces with
  | nil => exact absurd h not_mem_nil
  | cons first rest ih =>
    cases rest with
    | nil =>
      rw [List.intercalate_singleton] at h
      exact Or.inr ⟨first, mem_cons_self, h⟩
    | cons second rest =>
      rw [List.intercalate_cons_cons, List.mem_append, List.mem_append, List.mem_singleton] at h
      rcases h with (h | h) | h
      · exact Or.inr ⟨first, mem_cons_self, h⟩
      · exact Or.inl h
      · rcases ih h with h | ⟨piece, hpiece, hx⟩
        · exact Or.inl h
        · exact Or.inr ⟨piece, mem_cons_of_mem _ hpiece, hx⟩

end Split

/-! ## Components -/

/-- A component that a walk adds. -/
structure Plain (component : Bytes) : Prop where
  ne_nil : component ≠ []
  ne_dot : component ≠ [dot]
  ne_dots : component ≠ [dot, dot]
  plain : ∀ byte ∈ component, isSeparator byte = false ∧ forbidden byte = false ∧ byte < 0x80

/-- A component of a resolved path. -/
structure Ordinary (component : Bytes) : Prop extends Plain component where
  upper : ∀ byte ∈ component, isLower byte = false

/-- What resolution gives: ordinary components with single slashes between them. -/
def Canonical (path : Bytes) : Prop :=
  ∃ components : List Bytes, (∀ component ∈ components, Ordinary component) ∧
    path = [slash].intercalate components ∧ path.length < maxPathBytes

section Upper

/-- Upper case of a byte: what it is and what it is not stay, and it is no lower case letter. -/
theorem toUpper_facts (byte : BitVec 8) :
    isLower (toUpper byte) = false ∧ isSeparator (toUpper byte) = isSeparator byte ∧
      forbidden (toUpper byte) = forbidden byte ∧ (toUpper byte = dot ↔ byte = dot) ∧
      (byte < 0x80 → toUpper byte < 0x80) := by
  revert byte
  decide

theorem toUpper_of_upper {byte : BitVec 8} (h : isLower byte = false) : toUpper byte = byte := by
  rw [toUpper, h]
  rfl

theorem map_toUpper_eq_self {c : Bytes} (h : ∀ byte ∈ c, isLower byte = false) : c.map toUpper = c := by
  rw [List.map_congr_left fun byte hbyte => toUpper_of_upper (h byte hbyte), List.map_id']

theorem map_toUpper_idem (c : Bytes) : (c.map toUpper).map toUpper = c.map toUpper := by
  refine map_toUpper_eq_self fun byte hbyte => ?_
  obtain ⟨lower, -, rfl⟩ := List.mem_map.mp hbyte
  exact (toUpper_facts lower).1

theorem map_toUpper_eq_dots {c dots : Bytes} (hdots : ∀ byte ∈ dots, byte = dot) :
    c.map toUpper = dots ↔ c = dots := by
  induction c generalizing dots with
  | nil => rfl
  | cons byte c ih =>
    cases dots with
    | nil => simp
    | cons first dots =>
      have hfst : first = dot := hdots first mem_cons_self
      rw [List.map_cons, List.cons.injEq, List.cons.injEq,
        ih fun byte hbyte => hdots byte (mem_cons_of_mem _ hbyte), hfst, (toUpper_facts byte).2.2.2.1]

theorem Plain.toUpper {c : Bytes} (h : Plain c) : Ordinary (c.map toUpper) where
  ne_nil := by rw [Ne, List.map_eq_nil_iff]; exact h.ne_nil
  ne_dot := by rw [Ne, map_toUpper_eq_dots (by simp)]; exact h.ne_dot
  ne_dots := by rw [Ne, map_toUpper_eq_dots (by simp)]; exact h.ne_dots
  plain byte hbyte := by
    obtain ⟨lower, hlower, rfl⟩ := List.mem_map.mp hbyte
    obtain ⟨-, hsep, hforbidden, -, hascii⟩ := toUpper_facts lower
    rw [hsep, hforbidden]
    exact ⟨(h.plain lower hlower).1, (h.plain lower hlower).2.1, hascii (h.plain lower hlower).2.2⟩
  upper byte hbyte := by
    obtain ⟨lower, -, rfl⟩ := List.mem_map.mp hbyte
    exact (toUpper_facts lower).1

end Upper

/-! ## Walks -/

section Walk

variable {components cs parts after : List Bytes} {part : Bytes}

/-- A component that is not a dot and has no separator is added, when it is added at all, as a plain one. -/
theorem walk_plain (hcomps : ∀ c ∈ cs, Plain c)
    (hpart : ∀ byte ∈ part, isSeparator byte = false ∧ byte < 0x80) (h : walk cs part = some after) :
    ∀ c ∈ after, Plain c := by
  unfold walk at h
  split at h
  · exact Option.some.inj h ▸ hcomps
  next hdot =>
  split at h
  · obtain rfl := Option.some.inj h
    exact fun c hmem => hcomps c (List.dropLast_subset _ hmem)
  next hdots =>
  split at h
  · cases h
  next hforbidden =>
  obtain rfl := Option.some.inj h
  intro c hmem
  rcases List.mem_append.mp hmem with hmem | hmem
  · exact hcomps c hmem
  · rw [List.mem_singleton] at hmem
    rw [hmem]
    refine ⟨fun hnil => hdot (Or.inl hnil), fun heq => hdot (Or.inr heq), hdots, fun byte hbyte => ?_⟩
    refine ⟨(hpart byte hbyte).1, ?_, (hpart byte hbyte).2⟩
    rw [Bool.not_eq_true, any_eq_false] at hforbidden
    simpa using hforbidden byte hbyte

theorem foldlM_walk_plain (hcomps : ∀ c ∈ cs, Plain c)
    (hparts : ∀ part ∈ parts, ∀ byte ∈ part, isSeparator byte = false ∧ byte < 0x80)
    (h : parts.foldlM walk cs = some after) : ∀ c ∈ after, Plain c := by
  induction parts generalizing cs with
  | nil => exact Option.some.inj h ▸ hcomps
  | cons part parts ih =>
    rw [foldlM_cons, Option.bind_eq_bind, Option.bind_eq_some_iff] at h
    obtain ⟨next, hnext, hrest⟩ := h
    exact ih (walk_plain hcomps (hparts part mem_cons_self) hnext)
      (fun part hpart => hparts part (mem_cons_of_mem _ hpart)) hrest

/-- A walk that succeeds has met dots and plain components only. -/
theorem parts_of_walk (hparts : ∀ part ∈ parts, ∀ byte ∈ part, isSeparator byte = false ∧ byte < 0x80)
    (h : parts.foldlM walk cs = some after) :
    ∀ part ∈ parts, part = [] ∨ part = [dot] ∨ part = [dot, dot] ∨ Plain part := by
  induction parts generalizing cs with
  | nil => exact fun _ hmem => absurd hmem not_mem_nil
  | cons part parts ih =>
    rw [foldlM_cons, Option.bind_eq_bind, Option.bind_eq_some_iff] at h
    obtain ⟨next, hnext, hrest⟩ := h
    intro other hother
    rcases List.mem_cons.mp hother with rfl | hother
    · by_contra hspec
      rw [not_or, not_or, not_or] at hspec
      obtain ⟨hnil, hdot, hdots, hplain⟩ := hspec
      rw [walk, if_neg (not_or.mpr ⟨hnil, hdot⟩), if_neg hdots] at hnext
      split at hnext
      · cases hnext
      next hforbidden =>
      rw [Bool.not_eq_true, any_eq_false] at hforbidden
      refine hplain ⟨hnil, hdot, hdots, fun byte hbyte => ?_⟩
      have := hparts other mem_cons_self byte hbyte
      exact ⟨this.1, by simpa using hforbidden byte hbyte, this.2⟩
    · exact ih (fun part hpart => hparts part (mem_cons_of_mem _ hpart)) hrest other hother

/-- A plain component is added. -/
theorem walk_of_plain (h : Plain part) : walk cs part = some (cs ++ [part]) := by
  have hforbidden : part.any forbidden = false :=
    any_eq_false.mpr fun byte hbyte => by rw [(h.plain byte hbyte).2.1]; decide
  rw [walk, if_neg (not_or.mpr ⟨h.ne_nil, h.ne_dot⟩), if_neg h.ne_dots, hforbidden, if_neg Bool.false_ne_true]

theorem foldlM_walk_of_plain (h : ∀ part ∈ parts, Plain part) : parts.foldlM walk cs = some (cs ++ parts) := by
  induction parts generalizing cs with
  | nil => rw [List.append_nil]; rfl
  | cons part parts ih =>
    rw [foldlM_cons, walk_of_plain (h part mem_cons_self), Option.bind_eq_bind, Option.bind_some,
      ih fun part hpart => h part (mem_cons_of_mem _ hpart), List.append_assoc, List.singleton_append]

/-- Components up to upper case. -/
def upperAll (components : List Bytes) : List Bytes := components.map (List.map toUpper)

theorem upperAll_idem (cs : List Bytes) : upperAll (upperAll cs) = upperAll cs := by
  rw [upperAll, upperAll, List.map_map]
  exact List.map_congr_left fun c _ => map_toUpper_idem c

/-- A walk does not see the case of what is behind it. -/
theorem walk_upperAll {others : List Bytes} (h : upperAll cs = upperAll others) (part : Bytes) :
    (walk cs part).map upperAll = (walk others part).map upperAll := by
  unfold walk
  split
  · rw [Option.map_some, Option.map_some, h]
  split
  · have hlast := congrArg List.dropLast h
    rw [upperAll, upperAll, ← List.map_dropLast, ← List.map_dropLast] at hlast
    exact congrArg some hlast
  split
  · rfl
  · rw [Option.map_some, Option.map_some, upperAll, upperAll, List.map_append, List.map_append]
    exact congrArg (fun front => some (front ++ _)) h

theorem foldlM_walk_upperAll (parts : List Bytes) {others : List Bytes} (h : upperAll cs = upperAll others) :
    (parts.foldlM walk cs).map upperAll = (parts.foldlM walk others).map upperAll := by
  induction parts generalizing cs others with
  | nil => exact congrArg some h
  | cons part parts ih =>
    have hstep := walk_upperAll h part
    rw [foldlM_cons, foldlM_cons, Option.bind_eq_bind]
    cases hleft : walk cs part with
    | none =>
      rw [hleft, Option.map_none] at hstep
      rw [Option.map_eq_none_iff.mp hstep.symm]
    | some left =>
      rw [hleft] at hstep
      obtain ⟨right, hright, heq⟩ := Option.map_eq_some_iff.mp hstep.symm
      rw [hright]
      exact ih heq.symm

end Walk

/-! ## Resolution -/

section Resolve

variable {path cwd result : Bytes}

/-- What resolution does. -/
theorem resolve_eq_some_iff : resolve path cwd = some result ↔
    (path ≠ [] ∧ path.length < maxPathBytes ∧ ∀ byte ∈ path, byte < 0x80) ∧
      ∃ cs, ((stripDrive path).splitOnP isSeparator).foldlM walk (origin (stripDrive path) cwd) =
        some cs ∧ [slash].intercalate (upperAll cs) = result ∧ result.length < maxPathBytes := by
  have hslash : toUpper slash = slash := by decide
  unfold resolve
  split
  · next h =>
      constructor
      · exact fun hnone => by cases hnone
      · rintro ⟨⟨hne, hlen, hascii⟩, -⟩
        rcases h with h | h | h
        · exact absurd h hne
        · omega
        · obtain ⟨byte, hbyte, hge⟩ := List.any_eq_true.mp h
          have := hascii byte hbyte
          rw [decide_eq_true_eq] at hge
          exact absurd this (BitVec.not_lt.mpr hge)
  · next h =>
      rw [not_or, not_or] at h
      have hascii : ∀ byte ∈ path, byte < 0x80 := by
        intro byte hbyte
        by_contra hge
        refine h.2.2 (List.any_eq_true.mpr ⟨byte, hbyte, ?_⟩)
        rw [decide_eq_true_eq]
        exact BitVec.not_lt.mp hge
      rw [Option.bind_eq_some_iff]
      constructor
      · rintro ⟨cs, hwalk, hres⟩
        dsimp only at hres
        split at hres
        · next hlen =>
            obtain rfl := Option.some.inj hres
            refine ⟨⟨h.1, Nat.lt_of_not_le h.2.1, hascii⟩, cs, hwalk, ?_, hlen⟩
            rw [map_intercalate, hslash]
            rfl
        · cases hres
      · rintro ⟨-, cs, hwalk, hres, hlen⟩
        have heq : ([slash].intercalate cs).map toUpper = result := by
          rw [map_intercalate, hslash]
          exact hres
        exact ⟨cs, hwalk, by rw [heq, if_pos hlen]⟩

theorem mem_stripDrive {byte : BitVec 8} (h : byte ∈ stripDrive path) : byte ∈ path := by
  unfold stripDrive at h
  split at h
  · exact List.mem_of_mem_drop h
  · exact h

variable {components cs : List Bytes}

/-- The components of a canonical path. -/
theorem parts_of_ordinary (h : ∀ c ∈ cs, Ordinary c) :
    (([slash].intercalate cs).splitOn slash).filter (fun part => part ≠ []) = cs := by
  cases cs with
  | nil => rfl
  | cons first rest =>
    rw [List.splitOn_eq_splitOnP, splitOnP_intercalate (by decide) (List.cons_ne_nil first rest)]
    · exact List.filter_eq_self.mpr fun part hpart => decide_eq_true (h part hpart).ne_nil
    · intro part hpart byte hbyte
      have := ((h part hpart).plain byte hbyte).1
      rw [isSeparator, Bool.or_eq_false_iff] at this
      simpa using this.2

theorem origin_of_canonical (h : ∀ c ∈ cs, Ordinary c)
    (path : Bytes) :
    origin path ([slash].intercalate cs) = if path.head?.any isSeparator then [] else cs := by
  rw [origin, parts_of_ordinary h]

/-- The components that a resolution walks to. -/
theorem resolve_components (hcwd : Canonical cwd) (h : resolve path cwd = some result) :
    ∃ cs, (∀ c ∈ cs, Plain c) ∧
      ((stripDrive path).splitOnP isSeparator).foldlM walk (origin (stripDrive path) cwd) =
        some cs ∧ result = [slash].intercalate (upperAll cs) := by
  obtain ⟨⟨-, -, hascii⟩, cs, hwalk, hres, -⟩ := resolve_eq_some_iff.mp h
  obtain ⟨directory, hdir, rfl, -⟩ := hcwd
  refine ⟨cs, foldlM_walk_plain ?_ ?_ hwalk, hwalk, hres.symm⟩
  · rw [origin_of_canonical hdir]
    split
    · exact fun _ hmem => absurd hmem not_mem_nil
    · exact fun c hmem => (hdir c hmem).toPlain
  · intro part hpart byte hbyte
    have := of_mem_splitOnP hpart byte hbyte
    exact ⟨this.1, hascii byte (mem_stripDrive this.2)⟩

theorem upperAll_ordinary (h : ∀ c ∈ cs, Plain c) : ∀ c ∈ upperAll cs, Ordinary c := by
  intro c hmem
  obtain ⟨lower, hlower, rfl⟩ := List.mem_map.mp hmem
  exact (h lower hlower).toUpper

theorem upperAll_of_ordinary (h : ∀ c ∈ cs, Ordinary c) : upperAll cs = cs := by
  rw [upperAll, List.map_congr_left fun c hmem => map_toUpper_eq_self (h c hmem).upper, List.map_id']

/-- A resolved path is canonical. -/
theorem resolve_canonical (hcwd : Canonical cwd) (h : resolve path cwd = some result) : Canonical result := by
  obtain ⟨cs, hplain, -, hres⟩ := resolve_components hcwd h
  obtain ⟨-, -, -, -, hlen⟩ := resolve_eq_some_iff.mp h
  exact ⟨upperAll cs, upperAll_ordinary hplain, hres, hlen⟩

/-- What the bytes of a canonical path are. -/
theorem canonical_byte (h : Canonical path) {byte : BitVec 8} (hbyte : byte ∈ path) :
    forbidden byte = false ∧ byte < 0x80 ∧ isLower byte = false ∧ byte ≠ backslash := by
  obtain ⟨cs, hord, rfl, -⟩ := h
  rcases mem_intercalate hbyte with rfl | ⟨part, hpart, hmem⟩
  · decide
  · have hplain := (hord part hpart).plain byte hmem
    have hsep := hplain.1
    rw [isSeparator, Bool.or_eq_false_iff, decide_eq_false_iff_not] at hsep
    exact ⟨hplain.2.1, hplain.2.2, (hord part hpart).upper byte hmem, hsep.1⟩

theorem stripDrive_canonical (h : Canonical path) : stripDrive path = path := by
  refine if_neg fun hcolon => ?_
  have := (canonical_byte h (List.mem_of_getElem? hcolon)).1
  exact absurd this (by decide)

/-- A resolved path other than the root resolves to itself. -/
theorem resolve_self (h : Canonical path) (hne : path ≠ []) : resolve path [] = some path := by
  have hstrip := stripDrive_canonical h
  have hbytes : ∀ byte ∈ path, byte < 0x80 := fun byte hbyte => (canonical_byte h hbyte).2.1
  obtain ⟨cs, hord, rfl, hlen⟩ := h
  have hcomps : cs ≠ [] := fun hnil => hne (by rw [hnil]; rfl)
  have horigin : origin ([slash].intercalate cs) [] = [] := by
    unfold origin
    split <;> rfl
  have hsplit : ([slash].intercalate cs).splitOnP isSeparator = cs :=
    splitOnP_intercalate (by decide) hcomps fun part hpart byte hbyte => ((hord part hpart).plain byte hbyte).1
  refine resolve_eq_some_iff.mpr ⟨⟨hne, hlen, hbytes⟩, cs, ?_, by rw [upperAll_of_ordinary hord], hlen⟩
  rw [hstrip, horigin, hsplit, foldlM_walk_of_plain fun part hpart => (hord part hpart).toPlain, List.nil_append]

theorem stripDrive_drive (letter : BitVec 8) (path : Bytes) : stripDrive (letter :: colon :: path) = path := rfl

theorem origin_append (hne : path ≠ []) (rest : Bytes) : origin (path ++ rest) cwd = origin path cwd := by
  obtain ⟨first, tail, rfl⟩ := List.exists_cons_of_ne_nil hne
  rfl

variable {separator : BitVec 8}

/-- A drive prefix is told in the same way before and after a separator and more follow. -/
theorem stripDrive_append (hne : path ≠ []) (hsep : isSeparator separator) (rest : Bytes) :
    stripDrive (path ++ separator :: rest) = stripDrive path ++ separator :: rest := by
  have hcolon : separator ≠ colon := by
    rintro rfl
    exact absurd hsep (by decide)
  obtain ⟨first, tail, rfl⟩ := List.exists_cons_of_ne_nil hne
  cases tail with
  | nil =>
    rw [stripDrive, stripDrive, if_neg, if_neg]
    · simp
    · simpa using hcolon
  | cons second tail =>
    by_cases h : second = colon
    · rw [h]
      rfl
    · rw [stripDrive, stripDrive, if_neg, if_neg]
      · simpa using h
      · simpa using h

/-- Two resolutions in a row are one of the joined path. -/
theorem resolve_join {rest joined : Bytes} (hcwd : Canonical cwd)
    (hpath : stripDrive path ≠ []) (hsep : isSeparator separator) (hrelative : ¬ rest.head?.any isSeparator)
    (hdrive : rest[1]? ≠ some colon) (hlen : (path ++ separator :: rest).length < maxPathBytes)
    (hfst : resolve path cwd = some result) (hsnd : resolve rest result = some joined) :
    resolve (path ++ separator :: rest) cwd = some joined := by
  obtain ⟨cs, hplain, hwalk, hres⟩ := resolve_components hcwd hfst
  obtain ⟨⟨hne, -, hascii⟩, -⟩ := resolve_eq_some_iff.mp hfst
  obtain ⟨⟨-, -, hrest⟩, further, hfurther, hjoined, hjoinedlength⟩ := resolve_eq_some_iff.mp hsnd
  have hstrip : stripDrive rest = rest := if_neg hdrive
  rw [hstrip, hres, origin_of_canonical (upperAll_ordinary hplain), if_neg hrelative] at hfurther
  -- the second walk goes on from the upper case of where the first one ended
  have hupper := foldlM_walk_upperAll (rest.splitOnP isSeparator) (upperAll_idem cs)
  rw [hfurther] at hupper
  obtain ⟨final, hfinal, heq⟩ := Option.map_eq_some_iff.mp hupper.symm
  refine resolve_eq_some_iff.mpr ⟨⟨by simp, hlen, ?_⟩, final, ?_, by rw [heq, hjoined], hjoinedlength⟩
  · intro byte hbyte
    rcases List.mem_append.mp hbyte with hbyte | hbyte
    · exact hascii byte hbyte
    · rcases List.mem_cons.mp hbyte with rfl | hbyte
      · rw [isSeparator, Bool.or_eq_true, decide_eq_true_eq, decide_eq_true_eq] at hsep
        rcases hsep with rfl | rfl <;> decide
      · exact hrest byte hbyte
  · rw [stripDrive_append hne hsep, origin_append hpath, List.splitOnP_append_cons _ _ hsep,
      List.foldlM_append, hwalk]
    exact hfinal

/-- A drive prefix does not change what a path resolves to, while the path stays in range. -/
theorem resolve_drive {letter : BitVec 8} (hletter : letter < 0x80) (hne : path ≠ []) (hdrive : path[1]? ≠ some colon)
    (hlen : path.length + 2 < maxPathBytes) (cwd : Bytes) :
    resolve (letter :: colon :: path) cwd = resolve path cwd := by
  have hstrip : stripDrive path = path := if_neg hdrive
  refine Option.ext fun result => ?_
  rw [resolve_eq_some_iff, resolve_eq_some_iff, stripDrive_drive, hstrip]
  refine and_congr_left fun _ => ⟨fun ⟨_, _, hascii⟩ => ⟨hne, by omega, fun byte hbyte => ?_⟩,
    fun ⟨_, _, hascii⟩ => ⟨List.cons_ne_nil _ _, by simpa using hlen, fun byte hbyte => ?_⟩⟩
  · exact hascii byte (mem_cons_of_mem _ (mem_cons_of_mem _ hbyte))
  · rcases List.mem_cons.mp hbyte with rfl | hbyte
    · exact hletter
    · rcases List.mem_cons.mp hbyte with rfl | hbyte
      · decide
      · exact hascii byte hbyte

/-! ## Last components -/

/-- The last component of a path. -/
def lastComponent (path : Bytes) : Bytes := ((path.splitOnP isSeparator).getLast?).getD []

theorem getLast?_splitOnP (path : Bytes) : (path.splitOnP isSeparator).getLast? = some (lastComponent path) := by
  rw [lastComponent, List.getLast?_eq_some_getLast (List.splitOnP_ne_nil _ _)]
  rfl

theorem lastComponent_append (front : Bytes) (h : isSeparator separator) (rest : Bytes) :
    lastComponent (front ++ separator :: rest) = lastComponent rest := by
  have hlast := getLast?_splitOnP rest
  rw [lastComponent, List.splitOnP_append_cons _ _ h, List.getLast?_append, hlast]
  rfl

theorem lastComponent_of_none (h : ∀ byte ∈ path, isSeparator byte = false) : lastComponent path = path := by
  rw [lastComponent, List.splitOnP_eq_singleton h]
  rfl

/-- What a file path is. -/
theorem filePath_eq_some_iff : filePath path cwd = some result ↔
    ¬ IsDots (lastComponent path) ∧ resolve path cwd = some result ∧ result ≠ [] := by
  rw [filePath, getLast?_splitOnP, Option.bind_some]
  by_cases h : IsDots (lastComponent path)
  · rw [if_pos h]
    exact ⟨fun hnone => (by cases hnone), fun hsome => absurd h hsome.1⟩
  · rw [if_neg h, Option.bind_eq_some_iff]
    constructor
    · rintro ⟨resolved, hrsv, hsome⟩
      split at hsome
      · next hne =>
          obtain rfl := Option.some.inj hsome
          exact ⟨h, hrsv, hne⟩
      · cases hsome
    · rintro ⟨-, hrsv, hne⟩
      exact ⟨result, hrsv, if_pos hne⟩

/-- A drive prefix shows in the last component only when it is the only one. -/
theorem lastComponent_drive (letter : BitVec 8) (path : Bytes) :
    lastComponent (letter :: colon :: path) = lastComponent path ∨
      (lastComponent path = path ∧ ¬ IsDots (lastComponent (letter :: colon :: path))) := by
  by_cases h : ∃ byte ∈ path, isSeparator byte = true
  · obtain ⟨separator, hmem, hsep⟩ := h
    obtain ⟨front, rest, rfl⟩ := List.append_of_mem hmem
    left
    rw [← List.cons_append, ← List.cons_append, lastComponent_append _ hsep, lastComponent_append _ hsep]
  · have hnone : ∀ byte ∈ path, isSeparator byte = false := fun byte hbyte =>
      Bool.not_eq_true _ ▸ fun hsep => h ⟨byte, hbyte, hsep⟩
    right
    refine ⟨lastComponent_of_none hnone, ?_⟩
    have hcolon : ∀ byte ∈ colon :: path, isSeparator byte = false := by
      intro byte hbyte
      rcases List.mem_cons.mp hbyte with rfl | hbyte
      · decide
      · exact hnone byte hbyte
    by_cases hletter : isSeparator letter = true
    · rw [← List.nil_append (letter :: colon :: path), lastComponent_append _ hletter, lastComponent_of_none hcolon]
      rintro (h | h | h)
      · cases h
      · exact absurd (List.cons.inj h).1 (by decide)
      · exact absurd (List.cons.inj h).1 (by decide)
    · rw [lastComponent_of_none fun byte hbyte => ?_]
      · rintro (h | h | h)
        · cases h
        · cases h
        · exact absurd (List.cons.inj (List.cons.inj h).2).1 (by decide)
      · rcases List.mem_cons.mp hbyte with rfl | hbyte
        · exact Bool.not_eq_true _ ▸ hletter
        · exact hcolon byte hbyte

/-- A drive prefix does not change a file path, unless the rest is no name at all. -/
theorem filePath_drive {letter : BitVec 8} (hletter : letter < 0x80) (hname : ¬ IsDots path)
    (hdrive : path[1]? ≠ some colon) (hlen : path.length + 2 < maxPathBytes) (cwd : Bytes) :
    filePath (letter :: colon :: path) cwd = filePath path cwd := by
  refine Option.ext fun result => ?_
  rw [filePath_eq_some_iff, filePath_eq_some_iff,
    resolve_drive hletter (fun hnil => hname (Or.inl hnil)) hdrive hlen]
  refine and_congr_left fun _ => ?_
  rcases lastComponent_drive letter path with h | ⟨hself, hprefixed⟩
  · rw [h]
  · rw [hself]
    exact iff_of_true hprefixed hname

/-- A file path ends in a name. -/
theorem filePath_name (hname : path[1]? = some colon → ¬ IsDots (path.drop 2))
    (h : filePath path cwd = some result) : Plain (lastComponent (stripDrive path)) := by
  obtain ⟨hlast, hrsv, -⟩ := filePath_eq_some_iff.mp h
  obtain ⟨⟨-, -, hascii⟩, cs, hwalk, -⟩ := resolve_eq_some_iff.mp hrsv
  have hdots : ¬ IsDots (lastComponent (stripDrive path)) := by
    rw [stripDrive]
    split
    · next hcolon =>
        obtain ⟨letter, rest, rfl⟩ : ∃ letter rest, path = letter :: colon :: rest := by
          match path, hcolon with
          | letter :: second :: rest, hcolon => exact ⟨letter, rest, by simpa using hcolon⟩
        rcases lastComponent_drive letter rest with h | ⟨hself, -⟩
        · rw [h] at hlast
          exact hlast
        · show ¬ IsDots (lastComponent rest)
          rw [hself]
          exact hname hcolon
    · exact hlast
  have hmem : lastComponent (stripDrive path) ∈ (stripDrive path).splitOnP isSeparator :=
    List.mem_of_getLast? (getLast?_splitOnP _)
  have hparts := parts_of_walk (fun part hpart byte hbyte => ?_) hwalk _ hmem
  · rcases hparts with h | h | h | h
    · exact absurd (Or.inl h) hdots
    · exact absurd (Or.inr (Or.inl h)) hdots
    · exact absurd (Or.inr (Or.inr h)) hdots
    · exact h
  · have := of_mem_splitOnP hpart byte hbyte
    exact ⟨this.1, hascii byte (mem_stripDrive this.2)⟩

/-- The parts of a canonical path between slashes. -/
theorem splitOn_canonical (h : Canonical path) (hne : path ≠ []) : ∀ part ∈ path.splitOn slash, Ordinary part := by
  obtain ⟨cs, hord, rfl, -⟩ := h
  have hcomps : cs ≠ [] := fun hnil => hne (by rw [hnil]; rfl)
  rw [List.splitOn_eq_splitOnP, splitOnP_intercalate (by decide) hcomps]
  · exact hord
  · intro part hpart byte hbyte
    have := ((hord part hpart).plain byte hbyte).1
    rw [isSeparator, Bool.or_eq_false_iff] at this
    simpa using this.2

/-- Mounted filesystems accept canonical paths. -/
theorem validatePath_canonical (h : Canonical path) : validatePath path = true := by
  rw [validatePath, Bool.or_eq_true, decide_eq_true_eq]
  by_cases hne : path = []
  · exact Or.inl hne
  · right
    rw [Bool.not_eq_true', any_eq_false]
    intro part hpart
    have hord := splitOn_canonical h hne part hpart
    have hz : ¬ part.any fun byte => byte = 0 := by
      rw [Bool.not_eq_true, any_eq_false]
      intro byte hbyte hz
      have := (hord.plain byte hbyte).2.1
      rw [of_decide_eq_true hz] at this
      exact absurd this (by decide)
    simp only [hord.ne_nil, hord.ne_dot, hord.ne_dots, decide_false, Bool.false_or]
    exact hz

end Resolve

/-! ## Current directories -/

/-- What a current directory can be: the root, or a path resolved from one. -/
inductive Directory : Bytes → Prop
  | root : Directory []
  | resolved {path directory result : Bytes} :
      Directory directory → resolve path directory = some result → Directory result

theorem Directory.canonical {dir : Bytes} (h : Directory dir) : Canonical dir := by
  induction h with
  | root => exact ⟨[], fun _ hmem => absurd hmem not_mem_nil, rfl, by decide⟩
  | resolved _ hrsv ih => exact resolve_canonical ih hrsv

end Path

/-! ## Mounted drives -/

open Path

/-- The drives and the current directory of each. Every refusal of a path is the same error. -/
structure FileSystem where
  mounted : BitVec 8 → Bool
  currentDrive : BitVec 8
  currentDirectories : BitVec 8 → Option Bytes
  reached : ∀ letter directory, currentDirectories letter = some directory → Directory directory

namespace FileSystem

variable (fs : FileSystem)

def pathContext (path : Bytes) : Option (BitVec 8 × Bytes) :=
  (drive path fs.currentDrive).bind fun letter =>
    if fs.mounted letter then some (letter, (fs.currentDirectories letter).getD []) else none

def resolve (path : Bytes) : Option (BitVec 8 × Bytes) :=
  (fs.pathContext path).bind fun context => (Path.resolve path context.2).map fun relative => (context.1, relative)

def filePath (path : Bytes) : Option (BitVec 8 × Bytes) :=
  (fs.pathContext path).bind fun context => (Path.filePath path context.2).map fun relative => (context.1, relative)

/-- Naming the current drive selects what is selected without. -/
theorem pathContext_drive {letter : BitVec 8} {path : Bytes} (hletter : isLower letter || isUpper letter)
    (hcur : toUpper letter = fs.currentDrive) (hdrive : path[1]? ≠ some colon) :
    fs.pathContext (letter :: colon :: path) = fs.pathContext path := by
  have hnone : drive path fs.currentDrive = some fs.currentDrive := by
    unfold drive
    split
    · next second rest => 
        rw [if_neg]
        simpa using hdrive
    · rfl
  have hsome : drive (letter :: colon :: path) fs.currentDrive = some fs.currentDrive := by
    rw [drive, if_pos rfl, if_pos hletter, hcur]
  rw [pathContext, pathContext, hnone, hsome]

end FileSystem

namespace Path

theorem letter_ascii {letter : BitVec 8} (h : isLower letter || isUpper letter) : letter < 0x80 := by
  revert h letter
  decide

/-- Resolution from any current directory: what it gives is normal and stays what it is when it is resolved again, two
steps are one, and a drive prefix in front of a path changes nothing while the path is not empty and stays in range.
File paths end in a name and do not depend on the prefix either, where the path behind the prefix is some name. -/
theorem resolution_closed {directory : Bytes} (hdirectory : Directory directory) :
    (∀ path result, resolve path directory = some result →
      (∀ byte ∈ result, isLower byte = false ∧ forbidden byte = false ∧ byte ≠ backslash) ∧
      (result ≠ [] → ∀ part ∈ result.splitOn slash, ¬ IsDots part) ∧
      result.length < maxPathBytes ∧ validatePath result = true ∧
      (result ≠ [] → resolve result [] = some result)) ∧
    (∀ path rest separator result joined, stripDrive path ≠ [] → isSeparator separator →
      ¬ rest.head?.any isSeparator → rest[1]? ≠ some colon → (path ++ separator :: rest).length < maxPathBytes →
      resolve path directory = some result → resolve rest result = some joined →
      resolve (path ++ separator :: rest) directory = some joined) ∧
    (∀ letter path, isLower letter || isUpper letter → path ≠ [] → path[1]? ≠ some colon →
      path.length + 2 < maxPathBytes →
      resolve (letter :: colon :: path) directory = resolve path directory ∧
      (¬ IsDots path → filePath (letter :: colon :: path) directory = filePath path directory) ∧
      ∀ fs : FileSystem, toUpper letter = fs.currentDrive → fs.resolve (letter :: colon :: path) = fs.resolve path ∧
        (¬ IsDots path → fs.filePath (letter :: colon :: path) = fs.filePath path)) ∧
    (∀ path result, filePath path directory = some result → (path[1]? = some colon → ¬ IsDots (path.drop 2)) →
      Plain (lastComponent (stripDrive path))) := by
  have hcwd := hdirectory.canonical
  refine ⟨fun path result h => ?_, fun path rest separator result joined hpath hseparator hrelative hdrive hlength
    hfirst hsecond => resolve_join hcwd hpath hseparator hrelative hdrive hlength hfirst hsecond,
    fun letter path hletter hne hdrive hlength => ?_, fun path result h hname => filePath_name hname h⟩
  · have hresult := resolve_canonical hcwd h
    refine ⟨fun byte hbyte => ?_, fun hne part hpart => ?_, (resolve_eq_some_iff.mp h).2.choose_spec.2.2,
      validatePath_canonical hresult, resolve_self hresult⟩
    · obtain ⟨hforbidden, -, hlower, hbackslash⟩ := canonical_byte hresult hbyte
      exact ⟨hlower, hforbidden, hbackslash⟩
    · have hordinary := splitOn_canonical hresult hne part hpart
      rintro (h | h | h)
      · exact hordinary.ne_nil h
      · exact hordinary.ne_dot h
      · exact hordinary.ne_dots h
  · have hascii := letter_ascii hletter
    refine ⟨resolve_drive hascii hne hdrive hlength directory,
      fun hname => filePath_drive hascii hname hdrive hlength directory, fun fs hcurrent => ?_⟩
    have hcontext := fs.pathContext_drive hletter hcurrent hdrive
    constructor
    · rw [FileSystem.resolve, FileSystem.resolve, hcontext]
      exact congrArg _ (funext fun context => by rw [resolve_drive hascii hne hdrive hlength])
    · intro hname
      rw [FileSystem.filePath, FileSystem.filePath, hcontext]
      exact congrArg _ (funext fun context => by rw [filePath_drive hascii hname hdrive hlength])

/-- Going up across two steps: `AB`, then `../c` from it. -/
theorem parent_resolved : resolve [0x61, 0x62, backslash, dot, dot, slash, 0x63] [] = some [0x43] ∧
    resolve [0x43] [] = some [0x43] := by
  obtain ⟨hresult, hjoin, -, -⟩ := resolution_closed Directory.root
  constructor
  · exact hjoin [0x61, 0x62] [dot, dot, slash, 0x63] backslash [0x41, 0x42] [0x43] (by decide) (by decide) (by decide)
      (by decide) (by decide) (by decide) (by decide)
  · exact (hresult [0x63] [0x43] (by decide)).2.2.2.2 (by decide)

/-- A prefix is not neutral in front of nothing, nor where it takes a path out of range; a file path may end in a dot
behind a prefix; the delete character is kept. -/
theorem prefix_not_neutral :
    (resolve [] [] = none ∧ resolve [0x43, colon] [] = some []) ∧
    (resolve (List.replicate 126 0x41) [] = some (List.replicate 126 0x41) ∧
      resolve (0x43 :: colon :: List.replicate 126 0x41) [] = none) ∧
    (filePath [dot] [0x44] = none ∧ filePath [0x43, colon, dot] [0x44] = some [0x44]) ∧
    resolve [0x7F] [] = some [0x7F] := by
  refine ⟨⟨by decide, by decide⟩, ⟨?_, ?_⟩, ⟨by decide, by decide⟩, by decide⟩
  · decide +kernel
  · decide +kernel

end Path

end Relocade.Dos
