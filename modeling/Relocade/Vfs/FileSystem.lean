import Mathlib.Data.List.Lex
import Mathlib.Order.Lattice
import Relocade.Dos.Path

/-!
# `Vfs.FileSystem` — a filesystem with explicit directories

Entries are kept in the order of their paths. Every entry's parents are directories, so a listing of a directory, which
walks the paths from the directory's on, finds its children.
-/

namespace Relocade.Vfs

open Dos (Bytes)
open Dos.Path (slash dot validatePath IsDots)

/-! ## Prefixes in the order of lists -/

section Prefixes

variable {α : Type} [LinearOrder α] {p k k' : List α}

theorem prefix_not_lt (h : p <+: k) : ¬ k < p := by
  obtain ⟨rest, rfl⟩ := h
  induction p with
  | nil => exact List.not_lt_nil _
  | cons a p ih =>
    intro hlt
    rcases List.cons_lt_cons_iff.mp hlt with haa | ⟨-, hlt⟩
    · exact lt_irrefl _ haa
    · exact ih hlt

/-- After a list past a prefix there is no list with that prefix. -/
theorem prefix_contiguous (hle : ¬ k < p) (hk : ¬ p <+: k) (hlt : k < k') : ¬ p <+: k' := by
  induction p generalizing k k' with
  | nil => exact absurd List.nil_prefix hk
  | cons a p ih =>
    cases k with
    | nil => exact absurd (List.nil_lt_cons a p) hle
    | cons b k =>
      cases k' with
      | nil => exact absurd hlt (List.not_lt_nil _)
      | cons c k' =>
        intro h
        obtain ⟨rfl, hrest⟩ := List.cons_prefix_cons.mp h
        rcases List.cons_lt_cons_iff.mp hlt with hba | ⟨rfl, hkk⟩
        · exact hle (List.cons_lt_cons_iff.mpr (Or.inl hba))
        · refine ih (fun hkp => hle (List.cons_lt_cons_iff.mpr (Or.inr ⟨rfl, hkp⟩))) ?_ hkk hrest
          exact fun hpk => hk (List.cons_prefix_cons.mpr ⟨rfl, hpk⟩)

/-- In order, the lists from a prefix on start with those that have it. -/
theorem takeWhile_eq_filter {β : Type} {f : β → List α} {xs : List β} (hsorted : xs.Pairwise fun a b => f a < f b)
    (hle : ∀ x ∈ xs, ¬ f x < p) :
    xs.takeWhile (fun x => p.isPrefixOf (f x)) = xs.filter fun x => p.isPrefixOf (f x) := by
  induction xs with
  | nil => rfl
  | cons x xs ih =>
    obtain ⟨hx, hsorted⟩ := List.pairwise_cons.mp hsorted
    rw [List.takeWhile_cons, List.filter_cons]
    by_cases hpx : p.isPrefixOf (f x)
    · rw [if_pos hpx, if_pos hpx, ih hsorted fun y hy => hle y (List.mem_cons_of_mem _ hy)]
    · have hnil : xs.filter (fun x => p.isPrefixOf (f x)) = [] := by
        rw [List.filter_eq_nil_iff]
        intro y hy hpy
        exact prefix_contiguous (hle x List.mem_cons_self) (fun h => hpx (List.isPrefixOf_iff_prefix.mpr h))
          (hx y hy) (List.isPrefixOf_iff_prefix.mp hpy)
      rw [if_neg hpx, if_neg hpx, hnil]

end Prefixes

/-! ## Entries -/

structure FileData where
  contents : Bytes
  readOnly : Bool
  deriving DecidableEq

/-- An open file. Handles of one identity share their data; each retains its access rights. -/
structure File where
  identity : Nat
  data : FileData
  writable : Bool
  deriving DecidableEq

/-- A new file starts writable. Its identity is that of the data allocated for it. -/
def File.new (identity : Nat) (contents : Bytes) : File := ⟨identity, ⟨contents, false⟩, true⟩

inductive Node where
  | directory
  | file (file : File)
  deriving DecidableEq

structure Metadata where
  directory : Bool
  len : Nat
  readOnly : Bool

def Node.metadata : Node → Metadata
  | .directory => ⟨true, 0, false⟩
  | .file held => ⟨false, held.data.contents.length, held.data.readOnly⟩

/-- The order of paths is that of their bytes. -/
def order (path : Bytes) : List Nat := path.map BitVec.toNat

theorem order_injective {a b : Bytes} (h : order a = order b) : a = b :=
  List.map_injective_iff.mpr (fun _ _ h => BitVec.eq_of_toNat_eq h) h

theorem prefix_order {a b : Bytes} : order a <+: order b ↔ a <+: b := by
  constructor
  · rintro ⟨rest, hrest⟩
    obtain ⟨front, back, rfl, hfront, -⟩ := List.map_eq_append_iff.mp hrest.symm
    rw [← order_injective hfront]
    exact List.prefix_append _ _
  · rintro ⟨rest, rfl⟩
    exact ⟨order rest, (List.map_append ..).symm⟩

/-- What stands before each slash of a path. -/
def parents (path : Bytes) : List Bytes :=
  (List.range path.length).filterMap fun i => if path[i]? = some slash then some (path.take i) else none

theorem mem_parents {path parent : Bytes} : parent ∈ parents path ↔ ∃ rest, path = parent ++ slash :: rest := by
  rw [parents, List.mem_filterMap]
  constructor
  · rintro ⟨i, hi, heq⟩
    split at heq
    · next hslash =>
        cases heq
        refine ⟨path.drop (i + 1), ?_⟩
        have hi := List.mem_range.mp hi
        rw [List.getElem?_eq_getElem hi] at hslash
        rw [← Option.some.inj hslash, ← List.drop_eq_getElem_cons hi, List.take_append_drop]
    · exact nomatch heq
  · rintro ⟨rest, rfl⟩
    refine ⟨parent.length, List.mem_range.mpr (by rw [List.length_append, List.length_cons]; omega), ?_⟩
    rw [List.getElem?_append_right (Nat.le_refl _), Nat.sub_self, List.take_left]
    rfl

theorem splitOn_name {name : Bytes} (hname : slash ∉ name) : name.splitOn slash = [name] := by
  rw [List.splitOn_eq_splitOnP]
  refine List.splitOnP_eq_singleton fun byte hbyte => ?_
  rw [beq_eq_false_iff_ne]
  rintro rfl
  exact hname hbyte

/-- No part of a path that is accepted is empty or dots. -/
theorem validatePath_part {path name : Bytes} (hvalid : validatePath path = true) (hne : path ≠ [])
    (hname : name ∈ path.splitOn slash) : ¬ IsDots name := by
  rw [validatePath, decide_eq_false hne, Bool.false_or, Bool.not_eq_true', List.any_eq_false] at hvalid
  have hparts := hvalid name hname
  rintro (rfl | rfl | rfl)
  · exact hparts rfl
  · exact hparts rfl
  · exact hparts rfl

theorem validatePath_last {front name : Bytes} (hvalid : validatePath (front ++ slash :: name) = true)
    (hname : slash ∉ name) : ¬ IsDots name := by
  refine validatePath_part hvalid (by simp) ?_
  rw [List.splitOn_eq_splitOnP, List.splitOnP_append_cons _ _ (by simp), ← List.splitOn_eq_splitOnP,
    ← List.splitOn_eq_splitOnP, splitOn_name hname]
  exact List.mem_append_right _ (List.mem_singleton_self name)

theorem validatePath_name {name : Bytes} (hvalid : validatePath name = true) (hne : name ≠ []) (hname : slash ∉ name) :
    ¬ IsDots name := by
  refine validatePath_part hvalid hne ?_
  rw [splitOn_name hname]
  exact List.mem_singleton_self name

/-- A filesystem with explicit directories. -/
structure MemoryFileSystem where
  entries : List (Bytes × Node)
  sorted : entries.Pairwise fun a b => order a.1 < order b.1
  root : ([], .directory) ∈ entries
  valid : ∀ entry ∈ entries, validatePath entry.1 = true
  parents_mem : ∀ entry ∈ entries, ∀ parent ∈ parents entry.1, (parent, .directory) ∈ entries

inductive ErrorKind where
  | invalidInput
  | notADirectory
  | notFound
  | alreadyExists
  | isADirectory
  | permissionDenied
  | directoryNotEmpty
  deriving DecidableEq

namespace MemoryFileSystem

variable (fs : MemoryFileSystem)

def get (path : Bytes) : Option Node := (fs.entries.find? fun entry => entry.1 = path).map Prod.snd

variable {fs : MemoryFileSystem}

variable {path : Bytes}

/-- A path has one entry at most. -/
theorem entry_unique {node other : Node} (h : (path, node) ∈ fs.entries)
    (h' : (path, other) ∈ fs.entries) : node = other := by
  obtain ⟨i, hi, heq⟩ := List.getElem_of_mem h
  obtain ⟨j, hj, heq'⟩ := List.getElem_of_mem h'
  have hsorted := List.pairwise_iff_getElem.mp fs.sorted
  rcases Nat.lt_trichotomy i j with hlt | rfl | hlt
  · have := hsorted i j hi hj hlt
    rw [heq, heq'] at this
    exact absurd this (lt_irrefl _)
  · rw [heq] at heq'
    exact congrArg Prod.snd heq'
  · have := hsorted j i hj hi hlt
    rw [heq, heq'] at this
    exact absurd this (lt_irrefl _)

theorem get_eq_some_iff {node : Node} : fs.get path = some node ↔ (path, node) ∈ fs.entries := by
  rw [get, Option.map_eq_some_iff]
  constructor
  · rintro ⟨⟨other, found⟩, hfind, rfl⟩
    have hpath := List.find?_some hfind
    obtain rfl : other = path := of_decide_eq_true hpath
    exact List.mem_of_find?_eq_some hfind
  · intro hmem
    cases hfind : fs.entries.find? fun entry => entry.1 = path with
    | none => exact absurd (decide_eq_true rfl) (List.find?_eq_none.mp hfind _ hmem)
    | some entry =>
      obtain ⟨other, found⟩ := entry
      have hpath := List.find?_some hfind
      obtain rfl : other = path := of_decide_eq_true hpath
      exact ⟨_, rfl, entry_unique (List.mem_of_find?_eq_some hfind) hmem⟩

/-! ## Queries -/

def requireDirectories : List Bytes → Except ErrorKind Unit
  | [] => .ok ()
  | parent :: rest =>
      match fs.get parent with
      | some .directory => requireDirectories rest
      | some (.file _) => .error .notADirectory
      | none => .error .notFound

def requireParents (path : Bytes) : Except ErrorKind Unit := fs.requireDirectories (parents path)

def isDir (path : Bytes) : Bool := fs.get path = some .directory

def metadata (path : Bytes) : Except ErrorKind Metadata := do
  if validatePath path then
    fs.requireParents path
    match fs.get path with
    | some node => .ok node.metadata
    | none => .error .notFound
  else .error .invalidInput

/-- What the children of a directory start with. -/
def childPrefix (path : Bytes) : Bytes := if path = [] then [] else path ++ [slash]

/-- Lists immediate children in filename order. -/
def readDir (path : Bytes) : Except ErrorKind (List (Bytes × Metadata)) := do
  let metadata ← fs.metadata path
  if metadata.directory then
    let start := childPrefix path
    .ok ((((fs.entries.filter fun entry => ¬ order entry.1 < order start).takeWhile
      fun entry => (order start).isPrefixOf (order entry.1))).filterMap fun entry =>
        let name := entry.1.drop start.length
        if name = [] ∨ name.contains slash then none else some (name, entry.2.metadata))
  else .error .notADirectory

theorem requireParents_ok :
    fs.requireParents path = .ok () ↔ ∀ parent ∈ parents path, fs.get parent = some .directory := by
  rw [requireParents]
  induction parents path with
  | nil => exact ⟨fun _ parent h => absurd h List.not_mem_nil, fun _ => rfl⟩
  | cons first rest ih =>
    rw [requireDirectories, List.forall_mem_cons, ← ih]
    cases hget : fs.get first with
    | none => exact ⟨nofun, (fun h => nomatch h.1)⟩
    | some node =>
      cases node with
      | directory => exact (and_iff_right rfl).symm
      | file file => exact ⟨nofun, (fun h => nomatch h.1)⟩

/-- The metadata of a path is its entry's. -/
theorem metadata_get {node : Node} (h : fs.get path = some node) : fs.metadata path = .ok node.metadata := by
  have hmem := get_eq_some_iff.mp h
  have hparents : fs.requireParents path = .ok () :=
    requireParents_ok.mpr fun parent hparent => get_eq_some_iff.mpr (fs.parents_mem _ hmem parent hparent)
  rw [metadata, if_pos (fs.valid _ hmem), hparents, h]
  rfl

theorem metadata_none (h : fs.get path = none) :
    ∃ error, fs.metadata path = .error error := by
  rw [metadata]
  split
  · cases fs.requireParents path with
    | error error => exact ⟨error, rfl⟩
    | ok => exact ⟨.notFound, by rw [h]; rfl⟩
  · exact ⟨_, rfl⟩

/-- The path of a child. -/
def child (path name : Bytes) : Bytes := childPrefix path ++ name

theorem prefix_iff {path key : Bytes} : (order (childPrefix path)).isPrefixOf (order key) = true ↔
    ∃ name, key = child path name := by
  rw [List.isPrefixOf_iff_prefix, prefix_order]
  exact ⟨fun ⟨name, h⟩ => ⟨name, h.symm⟩, fun ⟨name, h⟩ => ⟨name, h.symm⟩⟩

/-- The child of a directory that an entry is. -/
def listed (path : Bytes) (entry : Bytes × Node) : Option (Bytes × Metadata) :=
  let name := entry.1.drop (childPrefix path).length
  if name = [] ∨ name.contains slash then none else some (name, entry.2.metadata)

theorem listed_child {path name : Bytes} {node : Node} (hne : name ≠ []) (hname : slash ∉ name) :
    listed path (child path name, node) = some (name, node.metadata) := by
  have hdrop : (child path name).drop (childPrefix path).length = name := List.drop_left ..
  rw [listed]
  dsimp only
  rw [hdrop, if_neg (not_or.mpr ⟨hne, fun h => hname (List.contains_iff_mem.mp h)⟩)]

variable {metadata : Metadata}

theorem of_listed {entry : Bytes × Node} {name : Bytes}
    (h : listed path entry = some (name, metadata)) :
    name = entry.1.drop (childPrefix path).length ∧ name ≠ [] ∧ slash ∉ name := by
  rw [listed] at h
  split at h
  · exact nomatch h
  · next hname =>
      cases h
      exact ⟨rfl, (not_or.mp hname).1, fun h => (not_or.mp hname).2 (List.contains_iff_mem.mpr h)⟩

/-- A listing of a directory is the names of its children, each once. -/
theorem readDir_spec (h : fs.isDir path = true) :
    ∃ listing, fs.readDir path = .ok listing ∧ (listing.map Prod.fst).Nodup ∧
      ∀ name, name ∈ listing.map Prod.fst ↔ name ≠ [] ∧ slash ∉ name ∧ fs.get (child path name) ≠ none := by
  have hget : fs.get path = some .directory := of_decide_eq_true h
  have hkept : (fs.entries.filter fun entry => ¬ order entry.1 < order (childPrefix path)).takeWhile
        (fun entry => (order (childPrefix path)).isPrefixOf (order entry.1)) =
      fs.entries.filter fun entry => (order (childPrefix path)).isPrefixOf (order entry.1) := by
    rw [takeWhile_eq_filter (fs.sorted.filter _), List.filter_filter]
    · refine List.filter_congr fun entry _ => ?_
      by_cases hinit : (order (childPrefix path)).isPrefixOf (order entry.1) = true
      · rw [hinit, decide_eq_true (prefix_not_lt (List.isPrefixOf_iff_prefix.mp hinit))]
        rfl
      · rw [(Bool.not_eq_true _).mp hinit, Bool.false_and]
    · intro entry hent
      exact of_decide_eq_true (List.mem_filter.mp hent).2
  refine ⟨(fs.entries.filter fun entry => (order (childPrefix path)).isPrefixOf (order entry.1)).filterMap
    (listed path), ?_, ?_, fun name => ?_⟩
  · rw [readDir, metadata_get hget]
    show Except.ok (((fs.entries.filter _).takeWhile _).filterMap (listed path)) = _
    rw [hkept]
  · rw [List.Nodup, List.pairwise_map, List.pairwise_filterMap]
    refine (fs.sorted.filter _).imp_of_mem fun {a b} ha hb hlt x hx y hy heq => ?_
    obtain ⟨left, hleft⟩ := prefix_iff.mp (List.mem_filter.mp ha).2
    obtain ⟨right, hright⟩ := prefix_iff.mp (List.mem_filter.mp hb).2
    have hxname := (of_listed hx).1
    have hyname := (of_listed hy).1
    rw [hleft, child, List.drop_left] at hxname
    rw [hright, child, List.drop_left] at hyname
    rw [hleft, hright, ← hxname, ← hyname, heq] at hlt
    exact lt_irrefl _ hlt
  · rw [List.mem_map]
    constructor
    · rintro ⟨⟨other, metadata⟩, hmem, rfl⟩
      obtain ⟨entry, hent, hlisted⟩ := List.mem_filterMap.mp hmem
      obtain ⟨hmem, hinit⟩ := List.mem_filter.mp hent
      obtain ⟨hdrop, hne, hname⟩ := of_listed hlisted
      refine ⟨hne, hname, ?_⟩
      obtain ⟨name, hkey⟩ := prefix_iff.mp hinit
      rw [hkey, child, List.drop_left] at hdrop
      subst hdrop
      rw [← hkey, get_eq_some_iff.mpr hmem]
      exact Option.some_ne_none _
    · rintro ⟨hne, hname, hget⟩
      obtain ⟨node, hnode⟩ := Option.ne_none_iff_exists'.mp hget
      refine ⟨(name, node.metadata), List.mem_filterMap.mpr ⟨(child path name, node), ?_, listed_child hne hname⟩, rfl⟩
      exact List.mem_filter.mpr ⟨get_eq_some_iff.mp hnode, prefix_iff.mpr ⟨name, rfl⟩⟩

/-- A child's name is not dots. -/
theorem child_not_dots {path name : Bytes} (h : fs.get (child path name) ≠ none)
    (hne : name ≠ []) (hname : slash ∉ name) : ¬ IsDots name := by
  obtain ⟨node, hnode⟩ := Option.ne_none_iff_exists'.mp h
  have hvalid : validatePath (child path name) = true := fs.valid _ (get_eq_some_iff.mp hnode)
  rw [child, childPrefix] at hvalid
  split at hvalid
  · exact validatePath_name hvalid hne hname
  · rw [List.append_assoc] at hvalid
    exact validatePath_last hvalid hname

/-! ## Changes -/

/-- Entries with one in its place. -/
def insertEntry (entries : List (Bytes × Node)) (path : Bytes) (node : Node) : List (Bytes × Node) :=
  entries.filter (fun entry => order entry.1 < order path) ++
    (path, node) :: entries.filter fun entry => order path < order entry.1

theorem mem_insertEntry {entries : List (Bytes × Node)} {path key : Bytes} {node other : Node} :
    (key, other) ∈ insertEntry entries path node ↔
      (key = path ∧ other = node) ∨ (key ≠ path ∧ (key, other) ∈ entries) := by
  rw [insertEntry, List.mem_append, List.mem_cons, List.mem_filter, List.mem_filter, decide_eq_true_eq,
    decide_eq_true_eq, Prod.mk.injEq]
  constructor
  · rintro (⟨hmem, hlt⟩ | heq | ⟨hmem, hlt⟩)
    · exact Or.inr ⟨fun h => absurd (h ▸ hlt) (lt_irrefl _), hmem⟩
    · exact Or.inl heq
    · exact Or.inr ⟨fun h => absurd (h ▸ hlt) (lt_irrefl _), hmem⟩
  · rintro (heq | ⟨hne, hmem⟩)
    · exact Or.inr (Or.inl heq)
    · rcases lt_trichotomy (order key) (order path) with hlt | heq | hlt
      · exact Or.inl ⟨hmem, hlt⟩
      · exact absurd (order_injective heq) hne
      · exact Or.inr (Or.inr ⟨hmem, hlt⟩)

theorem sorted_insertEntry {entries : List (Bytes × Node)} (h : entries.Pairwise fun a b => order a.1 < order b.1)
    (path : Bytes) (node : Node) : (insertEntry entries path node).Pairwise fun a b => order a.1 < order b.1 := by
  refine List.pairwise_append.mpr ⟨h.filter _, List.pairwise_cons.mpr ⟨fun b hb => ?_, h.filter _⟩, fun a ha b hb => ?_⟩
  · exact of_decide_eq_true (List.mem_filter.mp hb).2
  · have hlt : order a.1 < order path := of_decide_eq_true (List.mem_filter.mp ha).2
    rcases List.mem_cons.mp hb with rfl | hb
    · exact hlt
    · exact lt_trans hlt (of_decide_eq_true (List.mem_filter.mp hb).2)

/-- Supplies an entry: below directories, and never a file in place of a directory. -/
def insert (path : Bytes) (node : Node) (hvalid : validatePath path = true) (hparents : fs.requireParents path = .ok ())
    (hkind : node = .directory ∨ fs.get path ≠ some .directory) : MemoryFileSystem where
  entries := insertEntry fs.entries path node
  sorted := sorted_insertEntry fs.sorted path node
  root := by
    by_cases hpath : path = []
    · refine mem_insertEntry.mpr (Or.inl ⟨hpath.symm, ?_⟩)
      exact (hkind.resolve_right fun h => h (hpath ▸ get_eq_some_iff.mpr fs.root)).symm
    · exact mem_insertEntry.mpr (Or.inr ⟨Ne.symm hpath, fs.root⟩)
  valid := by
    rintro ⟨key, other⟩ hentry
    rcases mem_insertEntry.mp hentry with ⟨rfl, -⟩ | ⟨-, hmem⟩
    · exact hvalid
    · exact fs.valid _ hmem
  parents_mem := by
    rintro ⟨key, other⟩ hentry parent hparent
    have hdirectory : (parent, .directory) ∈ fs.entries := by
      rcases mem_insertEntry.mp hentry with ⟨rfl, -⟩ | ⟨-, hmem⟩
      · exact get_eq_some_iff.mp (requireParents_ok.mp hparents parent hparent)
      · exact fs.parents_mem _ hmem parent hparent
    by_cases hpath : parent = path
    · refine mem_insertEntry.mpr (Or.inl ⟨hpath, ?_⟩)
      exact (hkind.resolve_right fun h => h (hpath ▸ get_eq_some_iff.mpr hdirectory)).symm
    · exact mem_insertEntry.mpr (Or.inr ⟨hpath, hdirectory⟩)

/-- Removes an entry that is not the root and no parent. -/
def remove (path : Bytes) (hroot : path ≠ []) (hchildren : ∀ entry ∈ fs.entries, path ∉ parents entry.1) :
    MemoryFileSystem where
  entries := fs.entries.filter fun entry => entry.1 ≠ path
  sorted := fs.sorted.filter _
  root := List.mem_filter.mpr ⟨fs.root, decide_eq_true (Ne.symm hroot)⟩
  valid := fun entry hentry => fs.valid entry (List.mem_filter.mp hentry).1
  parents_mem := fun entry hentry parent hparent => List.mem_filter.mpr
    ⟨fs.parents_mem entry (List.mem_filter.mp hentry).1 parent hparent,
      decide_eq_true fun h => hchildren entry (List.mem_filter.mp hentry).1 (h ▸ hparent)⟩

/-- A file is not a parent. -/
theorem file_not_parent {file : File} (h : fs.get path = some (.file file)) :
    path ≠ [] ∧ ∀ entry ∈ fs.entries, path ∉ parents entry.1 := by
  have hmem := get_eq_some_iff.mp h
  constructor
  · rintro rfl
    exact nomatch entry_unique hmem fs.root
  · intro entry hent hparent
    exact nomatch entry_unique hmem (fs.parents_mem entry hent path hparent)

/-- A directory with an empty listing is not a parent. -/
theorem empty_not_parent (hroot : path ≠ []) (h : fs.readDir path = .ok []) :
    ∀ entry ∈ fs.entries, path ∉ parents entry.1 := by
  intro entry hent hparent
  have hdir : fs.isDir path = true :=
    decide_eq_true (get_eq_some_iff.mpr (fs.parents_mem entry hent path hparent))
  obtain ⟨listing, hlisting, -, hspec⟩ := readDir_spec hdir
  obtain rfl : listing = [] := by
    rw [h] at hlisting
    exact (Except.ok.inj hlisting).symm
  obtain ⟨rest, hrest⟩ := mem_parents.mp hparent
  -- The first part after the directory is a child, which is the entry or one of its parents.
  obtain ⟨name, hname, hget⟩ : ∃ name, slash ∉ name ∧ fs.get (path ++ slash :: name) ≠ none := by
    by_cases hslash : slash ∈ rest
    · obtain ⟨name, after, hsplit, hname⟩ := List.eq_append_cons_of_mem hslash
      have hbetween : path ++ slash :: name ∈ parents entry.1 :=
        mem_parents.mpr ⟨after, by rw [hrest, hsplit, List.append_assoc, List.cons_append]⟩
      refine ⟨name, hname, ?_⟩
      rw [get_eq_some_iff.mpr (fs.parents_mem entry hent _ hbetween)]
      exact Option.some_ne_none _
    · refine ⟨rest, hslash, ?_⟩
      rw [← hrest, get_eq_some_iff.mpr (show (entry.1, entry.2) ∈ fs.entries from hent)]
      exact Option.some_ne_none _
  obtain ⟨node, hnode⟩ := Option.ne_none_iff_exists'.mp hget
  have hvalid := fs.valid _ (get_eq_some_iff.mp hnode)
  have hchild : child path name = path ++ slash :: name := by
    rw [child, childPrefix, if_neg hroot, List.append_assoc]
    rfl
  have hne : name ≠ [] := fun hnil => validatePath_last hvalid hname (Or.inl hnil)
  exact absurd ((hspec name).mpr ⟨hne, hname, hchild ▸ hget⟩) List.not_mem_nil

/-- Creates an entry whose path must not exist. -/
def create (node : Node) (path : Bytes) : Except ErrorKind MemoryFileSystem :=
  if hvalid : validatePath path = true then
    match hparents : fs.requireParents path with
    | .error error => .error error
    | .ok () =>
        match hget : fs.get path with
        | some _ => .error .alreadyExists
        | none => .ok (fs.insert path node hvalid hparents (Or.inr fun h => nomatch hget.symm.trans h))
  else .error .invalidInput

/-- Creates an empty file, with its handle. -/
def createNew (identity : Nat) (path : Bytes) : Except ErrorKind (File × MemoryFileSystem) :=
  let file := File.new identity []
  (fs.create (.file file) path).map fun fs => (file, fs)

def createDir (path : Bytes) : Except ErrorKind MemoryFileSystem := fs.create .directory path

/-- Removes a file and no directory. -/
def removeFile (path : Bytes) : Except ErrorKind MemoryFileSystem :=
  if validatePath path then
    match fs.requireParents path with
    | .error error => .error error
    | .ok () =>
        match hget : fs.get path with
        | some (.file _) => .ok (fs.remove path (file_not_parent hget).1 (file_not_parent hget).2)
        | some .directory => .error .isADirectory
        | none => .error .notFound
  else .error .invalidInput

/-- Removes an empty directory. -/
def removeDir (path : Bytes) : Except ErrorKind MemoryFileSystem :=
  if hroot : path = [] then .error .permissionDenied
  else
    match hlisting : fs.readDir path with
    | .error error => .error error
    | .ok (_ :: _) => .error .directoryNotEmpty
    | .ok [] => .ok (fs.remove path hroot (empty_not_parent hroot hlisting))

/-- Supplies contents as a new file, replacing any file at the path, with its handle. -/
def replaceFile (identity : Nat) (path contents : Bytes) : Except ErrorKind (File × MemoryFileSystem) :=
  if hvalid : validatePath path = true then
    match hparents : fs.requireParents path with
    | .error error => .error error
    | .ok () =>
        if hdirectory : fs.isDir path = true then .error .isADirectory
        else
          let file := File.new identity contents
          .ok (file, fs.insert path (.file file) hvalid hparents
            (Or.inr fun hget => hdirectory (decide_eq_true hget)))
  else .error .invalidInput

/-- What is not a directory, and has metadata, is a file. -/
theorem file_of_metadata
    (h : fs.metadata path = .ok metadata) (hkind : ¬ metadata.directory = true) :
    ∀ node, fs.get path = some node → node ≠ .directory := by
  rintro node hget rfl
  rw [metadata_get hget] at h
  exact hkind ((Except.ok.inj h) ▸ rfl)

theorem get_of_metadata
    (h : fs.metadata path = .ok metadata) : fs.get path ≠ none := by
  intro hget
  obtain ⟨error, herror⟩ := metadata_none hget
  rw [h] at herror
  exact nomatch herror

/-- The parents of a path stay when a file is removed. -/
theorem requireParents_remove {source target : Bytes} {file : File}
    (hget : fs.get source = some (.file file)) (hparents : fs.requireParents target = .ok ()) :
    (fs.remove source (file_not_parent hget).1 (file_not_parent hget).2).requireParents target = .ok () := by
  refine requireParents_ok.mpr fun parent hparent => get_eq_some_iff.mpr (List.mem_filter.mpr ?_)
  have hdir := requireParents_ok.mp hparents parent hparent
  refine ⟨get_eq_some_iff.mp hdir, decide_eq_true fun h => ?_⟩
  dsimp only at h
  rw [h, hget] at hdir
  exact nomatch hdir

theorem get_remove {source target : Bytes} (hroot : source ≠ [])
    (hchildren : ∀ entry ∈ fs.entries, source ∉ parents entry.1) (h : fs.get target ≠ some .directory) :
    (fs.remove source hroot hchildren).get target ≠ some .directory := fun hget =>
  h (get_eq_some_iff.mpr (List.mem_filter.mp (get_eq_some_iff.mp hget)).1)

/-- Moves a file's entry, replacing any file at the destination. -/
def renameFile (source target : Bytes) : Except ErrorKind MemoryFileSystem :=
  match hmetadata : fs.metadata source with
  | .error error => .error error
  | .ok metadata =>
      if hkind : metadata.directory = true then .error .isADirectory
      else if hvalid : validatePath target = true then
        match hparents : fs.requireParents target with
        | .error error => .error error
        | .ok () =>
            if hdirectory : fs.isDir target = true then .error .isADirectory
            else
              match hget : fs.get source with
              | none => absurd hget (get_of_metadata hmetadata)
              | some .directory => absurd rfl (file_of_metadata hmetadata hkind _ hget)
              | some (.file file) =>
                  .ok ((fs.remove source (file_not_parent hget).1 (file_not_parent hget).2).insert target
                    (.file file) hvalid (requireParents_remove hget hparents)
                    (Or.inr (get_remove _ _ fun h => hdirectory (decide_eq_true h))))
      else .error .invalidInput

end MemoryFileSystem

end Relocade.Vfs
