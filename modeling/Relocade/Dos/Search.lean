import Mathlib.Algebra.Group.Nat.Defs
import Mathlib.Data.List.Infix
import Mathlib.Data.List.Nodup
import Mathlib.Logic.Relation
import Relocade.Memory
import Relocade.Dos.ShortName
import Relocade.Vfs.FileSystem

/-!
# `Dos.Search` — directory searches

A search continues from 43 bytes in guest memory: they hold the number of a directory, a position in the list of names
known of it, the pattern and the attributes. The list only grows and is shared by the searches of a directory, while its
files come and go.
-/

namespace Relocade.Dos.Searching

open Path (slash dot colon backslash isLower isUpper toUpper IsDots Directory)
open List (length_append take_left' drop_succ_cons drop_left' append_assoc mem_of_getElem?)
open Memory (lowBytes length_lowBytes)
open Vfs (MemoryFileSystem Metadata Node)

/-! ## State -/

def READ_ONLY_ATTRIBUTE : BitVec 8 := 0x01
def HIDDEN_ATTRIBUTE : BitVec 8 := 0x02
def SYSTEM_ATTRIBUTE : BitVec 8 := 0x04
def VOLUME_ATTRIBUTE : BitVec 8 := 0x08
def DIRECTORY_ATTRIBUTE : BitVec 8 := 0x10
def ARCHIVE_ATTRIBUTE : BitVec 8 := 0x20
def SEARCH_MARKER : BitVec 8 := 0xd5

inductive SearchError where
  | pathNotFound
  | noMoreFiles
  deriving DecidableEq

/-- A mounted filesystem. Every mount has a number of its own. -/
structure Mount where
  id : Nat
  files : MemoryFileSystem

structure ResolvedPath where
  drive : BitVec 8
  relative : Bytes
  deriving DecidableEq

/-- The filesystems of a session, with the DOS attributes of their entries. -/
structure Volumes extends FileSystem where
  drives : BitVec 8 → Option Mount
  attributes : ResolvedPath → Option (BitVec 8)
  /-- Mounts so far. -/
  mounts : Nat
  mounted_iff : ∀ letter, mounted letter = (drives letter).isSome
  mounts_lt : ∀ letter mount, drives letter = some mount → mount.id < mounts

/-- The names known of a directory. -/
structure SearchDirectory where
  path : ResolvedPath
  names : List Bytes

/-- Directory IDs refer to stable filename lists; the rest lives in the guest. -/
structure Search where
  directory : BitVec 32
  nextEntry : BitVec 32
  pattern : Bytes
  attributes : BitVec 8

/-- The filesystems, and the directories that the current process has searched. -/
structure World where
  volumes : Volumes
  directories : List (Option SearchDirectory)

/-! ## Records -/

/-- The find-data record: continuation, attributes, time, date, size, ASCIZ name. A name past its field is a panic. -/
def Search.result (search : Search) (name : Bytes) (attributes : BitVec 8) (len : BitVec 32) : Option Bytes :=
  if name.length ≤ 13 then
    some (SEARCH_MARKER :: (lowBytes 4 search.directory ++ (lowBytes 4 search.nextEntry ++
      (search.pattern ++ (search.attributes :: attributes :: 0 :: 0 :: (lowBytes 2 (0x0021 : BitVec 16) ++
        (lowBytes 4 len ++ (name ++ List.replicate (13 - name.length) 0))))))))
  else none

/-- The search that a record continues. -/
def Search.decode (data : Bytes) : Search where
  directory := Memory.ofBytes 32 ((data.drop 1).take 4)
  nextEntry := Memory.ofBytes 32 ((data.drop 5).take 4)
  pattern := (data.drop 9).take 11
  attributes := data.getD 20 0

/-! ## Calls -/

/-- Special attributes. -/
def special (attributes : BitVec 8) : BitVec 8 :=
  attributes &&& (HIDDEN_ATTRIBUTE ||| SYSTEM_ATTRIBUTE ||| DIRECTORY_ATTRIBUTE)

def Volumes.entryAttributes (volumes : Volumes) (path : ResolvedPath) (metadata : Metadata) : BitVec 8 :=
  let attributes := (volumes.attributes path).getD (if metadata.directory then 0 else ARCHIVE_ATTRIBUTE)
  if metadata.directory then attributes ||| DIRECTORY_ATTRIBUTE
  else (attributes &&& ~~~READ_ONLY_ATTRIBUTE) ||| if metadata.readOnly then 1 else 0

/-- The directory of a specification ends behind its last separator. -/
def splitPoint (specification : Bytes) : Nat :=
  specification.length -
    (specification.reverse.takeWhile fun byte => !(byte = slash || byte = backslash || byte = colon)).length

/-- New searches see additions, without shifting slots held by older ones. -/
def addNames (known names : List Bytes) : List Bytes :=
  names.foldl (fun known name => if name ∈ known then known else known ++ [name]) known

/-- The number of a directory with the names found in it. -/
def remember (directories : List (Option SearchDirectory)) (path : ResolvedPath) (names : List Bytes) :
    Nat × List (Option SearchDirectory) :=
  match directories.findIdx? fun entry => entry.any fun directory => directory.path = path with
  | some index =>
      (index, directories.modify index (Option.map fun directory =>
        { directory with names := addNames directory.names names }))
  | none => (directories.length, directories ++ [some ⟨path, names⟩])

/-- `find_first` up to the search that it begins. -/
def World.beginSearch (world : World) (specification : Bytes) (attributes : BitVec 8) :
    Option (Except SearchError Search × World) :=
  let split := splitPoint specification
  match world.volumes.resolve (if split = 0 then [dot] else specification.take split) with
  | none => some (.error .pathNotFound, world)
  | some (drive, relative) =>
      (world.volumes.drives drive).bind fun mount =>
        if mount.files.isDir relative then
          match ShortName.pattern (specification.drop split) with
          | none => some (.error .noMoreFiles, world)
          | some pattern =>
              match mount.files.readDir relative with
              | .error _ => none
              | .ok listing =>
                  let known := remember world.directories ⟨drive, relative⟩ (listing.map Prod.fst)
                  -- Read-only and archive do not restrict DOS searches.
                  some (.ok ⟨BitVec.ofNat 32 known.1, 0, pattern, attributes &&&
                      (HIDDEN_ATTRIBUTE ||| SYSTEM_ATTRIBUTE ||| DIRECTORY_ATTRIBUTE ||| VOLUME_ATTRIBUTE)⟩,
                    { world with directories := known.2 })
        else some (.error .pathNotFound, world)

/-- The slots of a directory: dots, but in a root, and names. -/
def SearchDirectory.slots (directory : SearchDirectory) : List Bytes :=
  (if directory.path.relative = [] then [] else [[dot], [dot, dot]]) ++ directory.names

/-- The attributes and the size of the entry in a slot. A deleted entry keeps its slot, but is not returned. -/
def entryAt (volumes : Volumes) (files : MemoryFileSystem) (path : ResolvedPath) (name : Bytes) :
    Option (BitVec 8 × BitVec 32) :=
  if name = [dot] ∨ name = [dot, dot] then some (DIRECTORY_ATTRIBUTE, 0)
  else
    let relative := if path.relative = [] then name else path.relative ++ [slash] ++ name
    match files.metadata relative with
    | .error _ => none
    | .ok metadata =>
        -- DOS cannot expose a file larger than its 32-bit size.
        if metadata.len < 2 ^ 32 then
          some (volumes.entryAttributes ⟨path.drive, relative⟩ metadata, BitVec.ofNat 32 metadata.len)
        else none

/-- The entry in a slot, unless the search passes over it. -/
def reported (volumes : Volumes) (files : MemoryFileSystem) (path : ResolvedPath) (search : Search) (name : Bytes) :
    Option (BitVec 8 × BitVec 32) :=
  (ShortName.name name).bind fun shortName =>
    (entryAt volumes files path name).bind fun entry =>
      if special entry.1 &&& ~~~search.attributes ≠ 0 ∨ ¬ ShortName.isMatch search.pattern shortName then none
      else some entry

/-- The first slot that is reported, with its index. -/
def scanFrom (report : Bytes → Option (BitVec 8 × BitVec 32)) :
    Nat → List Bytes → Option (Nat × Bytes × BitVec 8 × BitVec 32)
  | _, [] => none
  | index, name :: rest =>
      match report name with
      | some (attributes, len) => some (index, name, attributes, len)
      | none => scanFrom report (index + 1) rest

/-- The first match from the position of a search on. -/
def World.nextMatch (world : World) (search : Search) : Option (Except SearchError Bytes) :=
  match world.directories[search.directory.toNat]? with
  | some (some directory) =>
      -- No volume label is configured.
      if search.attributes = VOLUME_ATTRIBUTE then some (.error .noMoreFiles)
      else
        (world.volumes.drives directory.path.drive).bind fun mount =>
          if mount.files.isDir directory.path.relative then
            match scanFrom (reported world.volumes mount.files directory.path search) search.nextEntry.toNat
              (directory.slots.drop search.nextEntry.toNat) with
            | some (index, name, attributes, len) =>
                ({ search with nextEntry := BitVec.ofNat 32 (index + 1) }.result name attributes len).map .ok
            | none => some (.error .noMoreFiles)
          else some (.error .noMoreFiles)
  | _ => some (.error .noMoreFiles)

def World.findFirst (world : World) (specification : Bytes) (attributes : BitVec 8) :
    Option (Except SearchError Bytes × World) :=
  (world.beginSearch specification attributes).bind fun begun =>
    match begun.1 with
    | .error error => some (.error error, begun.2)
    | .ok search => (begun.2.nextMatch search).map fun outcome => (outcome, begun.2)

def World.findNext (world : World) (data : Bytes) : Option (Except SearchError Bytes) :=
  if data.head? ≠ some SEARCH_MARKER then some (.error .noMoreFiles) else world.nextMatch (Search.decode data)

/-! ## Between calls -/

/-- A filesystem mounted at a letter: its current directory, attributes and searches are new. -/
def Volumes.mount (volumes : Volumes) (letter : BitVec 8) (files : MemoryFileSystem) : Volumes where
  mounted := fun other => if other = letter then true else volumes.mounted other
  currentDrive := volumes.currentDrive
  currentDirectories := fun other => if other = letter then none else volumes.currentDirectories other
  reached := fun other directory h => by
    split at h
    · exact nomatch h
    · exact volumes.reached other directory h
  drives := fun other => if other = letter then some ⟨volumes.mounts, files⟩ else volumes.drives other
  attributes := fun path => if path.drive = letter then none else volumes.attributes path
  mounts := volumes.mounts + 1
  mounted_iff := fun other => by
    split
    · rfl
    · exact volumes.mounted_iff other
  mounts_lt := fun other mount h => by
    split at h
    · cases h
      exact Nat.lt_succ_self _
    · exact Nat.lt_succ_of_lt (volumes.mounts_lt other mount h)

/-- Keep DTA directory IDs stable; old searches must not enter the new mount. -/
def invalidateSearches (directories : List (Option SearchDirectory)) (drive : BitVec 8) :
    List (Option SearchDirectory) :=
  directories.map fun entry => if entry.any fun directory => directory.path.drive = drive then none else entry

def World.mount (world : World) (letter : BitVec 8) (files : MemoryFileSystem) : World :=
  if isLower letter || isUpper letter then
    ⟨world.volumes.mount (toUpper letter) files, invalidateSearches world.directories (toUpper letter)⟩
  else world

/-- What happens between two calls of a chain: files and directories are created, deleted and changed in any way,
attributes and current directories too; a filesystem is mounted; another search begins. -/
inductive Event : World → World → Prop
  | change {world : World} (volumes : Volumes) : volumes.mounts = world.volumes.mounts →
      (∀ letter, (volumes.drives letter).map Mount.id = (world.volumes.drives letter).map Mount.id) →
      Event world { world with volumes }
  | mount {world : World} (letter : BitVec 8) (files : MemoryFileSystem) : Event world (world.mount letter files)
  | search {world world' : World} {specification : Bytes} {attributes : BitVec 8} {outcome : Except SearchError Bytes} :
      world.findFirst specification attributes = some (outcome, world') → Event world world'

def Run : World → World → Prop := Relation.ReflTransGen Event

/-- A world of a process that started without searches. -/
def Reachable (world : World) : Prop := ∃ volumes, Run ⟨volumes, []⟩ world

/-! ## Entries -/

/-- An entry of a directory with its attributes and size: a file or a directory in it, or dots, but in a root. -/
def IsEntry (volumes : Volumes) (files : MemoryFileSystem) (path : ResolvedPath) (name : Bytes) (attributes : BitVec 8)
    (len : Nat) : Prop :=
  ((name = [dot] ∨ name = [dot, dot]) ∧ path.relative ≠ [] ∧ attributes = DIRECTORY_ATTRIBUTE ∧ len = 0) ∨
    (¬ IsDots name ∧ slash ∉ name ∧ ∃ node, files.get (MemoryFileSystem.child path.relative name) = some node ∧
      attributes = volumes.entryAttributes ⟨path.drive, MemoryFileSystem.child path.relative name⟩ node.metadata ∧
      len = node.metadata.len)

/-- A search is about a name and attributes. A search for the volume label alone is about none. -/
def Search.Matches (search : Search) (name : Bytes) (attributes : BitVec 8) : Prop :=
  search.attributes ≠ VOLUME_ATTRIBUTE ∧ special attributes &&& ~~~search.attributes = 0 ∧
    ∃ shortName, ShortName.name name = some shortName ∧ ShortName.isMatch search.pattern shortName = true

/-- An entry of a mounted directory that a search is about and whose size DOS can tell. -/
structure Listed (world : World) (path : ResolvedPath) (search : Search) (mount : Mount) (name : Bytes)
    (attributes : BitVec 8) (len : Nat) : Prop where
  mounted : world.volumes.drives path.drive = some mount
  isDir : mount.files.isDir path.relative = true
  entry : IsEntry world.volumes mount.files path name attributes len
  isMatch : search.Matches name attributes
  size : len < 2 ^ 32

/-- What a slot can hold: dots, but in a root, or a name. -/
def IsSlot (path : ResolvedPath) (name : Bytes) : Prop :=
  ((name = [dot] ∨ name = [dot, dot]) ∧ path.relative ≠ []) ∨ (¬ IsDots name ∧ slash ∉ name)

theorem child_eq (path name : Bytes) :
    (if path = [] then name else path ++ [slash] ++ name) = MemoryFileSystem.child path name := by
  rw [MemoryFileSystem.child, MemoryFileSystem.childPrefix]
  split <;> rfl

variable {attributes : BitVec 8}

variable {name : Bytes}

variable {len : BitVec 32}

variable {path : ResolvedPath}

variable {volumes : Volumes}

theorem entryAt_iff {files : MemoryFileSystem}
    (hslot : IsSlot path name) :
    entryAt volumes files path name = some (attributes, len) ↔
      IsEntry volumes files path name attributes len.toNat := by
  rw [entryAt, child_eq]
  rcases hslot with ⟨hdots, hroot⟩ | ⟨hdots, hslash⟩
  · rw [if_pos hdots]
    constructor
    · intro h
      cases h
      exact Or.inl ⟨hdots, hroot, rfl, rfl⟩
    · rintro (⟨-, -, rfl, hlen⟩ | ⟨hnot, -⟩)
      · rw [BitVec.eq_of_toNat_eq (hlen.trans rfl : len.toNat = (0 : BitVec 32).toNat)]
      · exact absurd (Or.inr hdots) hnot
  · rw [if_neg fun h => hdots (Or.inr h)]
    cases hget : files.get (MemoryFileSystem.child path.relative name) with
    | none =>
      obtain ⟨error, herror⟩ := MemoryFileSystem.metadata_none hget
      dsimp only
      rw [herror]
      refine iff_of_false nofun ?_
      rintro (⟨h, -⟩ | ⟨-, -, node, hnode, -⟩)
      · exact hdots (Or.inr h)
      · rw [hget] at hnode
        exact nomatch hnode
    | some node =>
      dsimp only
      rw [MemoryFileSystem.metadata_get hget]
      dsimp only
      constructor
      · intro h
        split at h
        · next hlen =>
            cases h
            refine Or.inr ⟨hdots, hslash, node, hget, rfl, ?_⟩
            rw [BitVec.toNat_ofNat, Nat.mod_eq_of_lt hlen]
        · exact nomatch h
      · rintro (⟨h, -⟩ | ⟨-, -, other, hother, rfl, hlen⟩)
        · exact absurd (Or.inr h) hdots
        · obtain rfl := Option.some.inj (hget.symm.trans hother)
          rw [if_pos (hlen ▸ len.isLt), ← hlen, BitVec.ofNat_toNat, BitVec.setWidth_eq]

variable {search : Search}

/-- A slot is reported when it holds an entry that the search is about. -/
theorem reported_iff {files : MemoryFileSystem}
    (hslot : IsSlot path name) (hvolume : search.attributes ≠ VOLUME_ATTRIBUTE)
    : reported volumes files path search name = some (attributes, len) ↔
      IsEntry volumes files path name attributes len.toNat ∧ search.Matches name attributes := by
  rw [reported, Option.bind_eq_some_iff]
  constructor
  · rintro ⟨shortName, hname, h⟩
    obtain ⟨entry, hent, h⟩ := Option.bind_eq_some_iff.mp h
    split at h
    · exact nomatch h
    · next hmatch =>
        cases h
        obtain ⟨hspec, hpat⟩ := not_or.mp hmatch
        exact ⟨(entryAt_iff hslot).mp hent, hvolume, not_not.mp hspec, shortName, hname, not_not.mp hpat⟩
  · rintro ⟨hent, -, hspec, shortName, hname, hpat⟩
    refine ⟨shortName, hname, Option.bind_eq_some_iff.mpr ⟨(attributes, len), (entryAt_iff hslot).mpr hent, ?_⟩⟩
    exact if_neg (not_or.mpr ⟨not_not.mpr hspec, not_not.mpr hpat⟩)

/-- The first slot that is reported, or none is. -/
theorem scanFrom_spec (report : Bytes → Option (BitVec 8 × BitVec 32)) (start : Nat) (names : List Bytes) :
    (scanFrom report start names = none ∧ ∀ name ∈ names, report name = none) ∨
      ∃ k name attributes len, scanFrom report start names = some (start + k, name, attributes, len) ∧
        names[k]? = some name ∧ report name = some (attributes, len) ∧
        ∀ j < k, ∀ other, names[j]? = some other → report other = none := by
  induction names generalizing start with
  | nil => exact Or.inl ⟨rfl, fun name hname => absurd hname List.not_mem_nil⟩
  | cons first rest ih =>
    rw [scanFrom]
    cases hreport : report first with
    | some entry =>
      exact Or.inr ⟨0, first, entry.1, entry.2, rfl, rfl, hreport, fun j hj => absurd hj (Nat.not_lt_zero j)⟩
    | none =>
      rcases ih (start + 1) with ⟨hscan, hnone⟩ | ⟨k, name, attributes, len, hscan, hname, hsome, hbef⟩
      · refine Or.inl ⟨hscan, fun name hname => ?_⟩
        rcases List.mem_cons.mp hname with rfl | hname
        · exact hreport
        · exact hnone name hname
      · refine Or.inr ⟨k + 1, name, attributes, len, ?_, hname, hsome, fun j hj other hother => ?_⟩
        · dsimp only
          rw [hscan, Nat.add_assoc, Nat.add_comm 1 k]
        · cases j with
          | zero =>
            rw [← Option.some.inj hother]
            exact hreport
          | succ j => exact hbef j (Nat.lt_of_succ_lt_succ hj) other hother

/-! ## Records hold their searches -/

theorem length_result (search : Search) {data : Bytes}
    (hpat : search.pattern.length = 11) (h : search.result name attributes len = some data) :
    data.length = 43 := by
  rw [Search.result] at h
  split at h
  · next hname =>
      cases h
      simp only [List.length_cons, length_append, length_lowBytes, hpat, List.length_replicate]
      omega
  · exact nomatch h

/-- A record continues the search that it was made by. -/
theorem decode_result {data : Bytes}
    (hpat : search.pattern.length = 11) (h : search.result name attributes len = some data) :
    data.head? = some SEARCH_MARKER ∧ Search.decode data = search := by
  rw [Search.result] at h
  split at h
  · cases h
    refine ⟨rfl, ?_⟩
    have hdirectory : (lowBytes 4 search.directory).length = 4 := length_lowBytes 4 _
    have hnext : (lowBytes 4 search.nextEntry).length = 4 := length_lowBytes 4 _
    obtain ⟨directory, nextEntry, pattern, searched⟩ := search
    dsimp only at hpat hdirectory hnext ⊢
    rw [Search.decode, Search.mk.injEq]
    refine ⟨?_, ?_, ?_, ?_⟩
    · rw [List.drop_one, List.tail_cons, take_left' hdirectory]
      exact Memory.ofBytes_lowBytes directory rfl
    · rw [drop_succ_cons, drop_left' hdirectory, take_left' hnext]
      exact Memory.ofBytes_lowBytes nextEntry rfl
    · rw [drop_succ_cons, ← append_assoc,
        drop_left' (by rw [length_append, hdirectory, hnext]), take_left' hpat]
    · have hlength : (lowBytes 4 directory ++ lowBytes 4 nextEntry ++ pattern).length = 19 := by
        rw [length_append, length_append, hdirectory, hnext, hpat]
      rw [List.getD_cons_succ, ← append_assoc, ← append_assoc, List.getD_eq_getElem?_getD,
        List.getElem?_append_right (Nat.le_of_eq hlength), hlength]
      rfl
  · exact nomatch h

/-- The name in a record ends before its first zero. -/
def recordName (data : Bytes) : Bytes := (data.drop 30).takeWhile (· ≠ 0)

/-- A record tells the name, the attributes and the size of an entry. -/
structure Shows (data name : Bytes) (attributes : BitVec 8) (len : Nat) : Prop where
  length : data.length = 43
  attributes : data.getD 21 0 = attributes
  size : (Memory.ofBytes 32 ((data.drop 26).take 4)).toNat = len
  name : recordName data = name

theorem result_shows {name shortName : Bytes} {data : Bytes}
    (hpat : search.pattern.length = 11) (hname : ShortName.name name = some shortName)
    (h : search.result name attributes len = some data) : Shows data name attributes len.toNat := by
  have hlength := length_result search hpat h
  rw [Search.result] at h
  split at h
  · obtain ⟨head, hhead, htail⟩ : ∃ head : Bytes, head.length = 21 ∧
        data = head ++ attributes :: 0 :: 0 :: (lowBytes 2 (0x0021 : BitVec 16) ++
          (lowBytes 4 len ++ (name ++ List.replicate (13 - name.length) 0))) := by
      cases h
      refine ⟨SEARCH_MARKER :: (lowBytes 4 search.directory ++ (lowBytes 4 search.nextEntry ++
        (search.pattern ++ [search.attributes]))), ?_, ?_⟩
      · simp only [List.length_cons, length_append, length_lowBytes, hpat, List.length_nil]
      · simp only [List.cons_append, append_assoc, List.nil_append]
    have hdate : (lowBytes 2 (0x0021 : BitVec 16)).length = 2 := length_lowBytes 2 _
    have hsize : (lowBytes 4 len).length = 4 := length_lowBytes 4 _
    refine ⟨hlength, ?_, ?_, ?_⟩
    · rw [htail, List.getD_eq_getElem?_getD, List.getElem?_append_right (Nat.le_of_eq hhead), hhead]
      rfl
    · rw [htail, show 26 = head.length + 5 by rw [hhead], List.drop_length_add_append, drop_succ_cons,
        drop_succ_cons, drop_succ_cons, drop_left' hdate, take_left' hsize,
        Memory.ofBytes_lowBytes len rfl]
    · rw [recordName, htail, show 30 = head.length + 9 by rw [hhead], List.drop_length_add_append,
        drop_succ_cons, drop_succ_cons, drop_succ_cons, ← append_assoc,
        drop_left' (by rw [length_append, hdate, hsize]),
        List.takeWhile_append_of_pos fun byte hbyte => decide_eq_true (ShortName.ne_zero_of_name hname byte hbyte)]
      cases 13 - name.length with
      | zero => exact List.append_nil name
      | succ count => exact List.append_nil name
  · exact nomatch h

/-! ## Known directories -/

/-- The directories that are known are mounted, and their slots are apart. -/
structure SearchDirectory.Known (volumes : Volumes) (directory : SearchDirectory) : Prop where
  mounted : (volumes.drives directory.path.drive).isSome
  nodup : directory.names.Nodup
  isName : ∀ name ∈ directory.names, ¬ IsDots name ∧ slash ∉ name

def World.Known (world : World) : Prop :=
  ∀ directory, some directory ∈ world.directories → directory.Known world.volumes

theorem isSlot_of_mem {dir : SearchDirectory} (h : dir.Known volumes)
    (hname : name ∈ dir.slots) : IsSlot dir.path name := by
  rcases List.mem_append.mp hname with hdots | hmem
  · split at hdots
    · exact absurd hdots List.not_mem_nil
    · next hroot =>
        rcases List.mem_cons.mp hdots with rfl | hdots
        · exact Or.inl ⟨Or.inl rfl, hroot⟩
        · rw [List.mem_singleton.mp hdots]
          exact Or.inl ⟨Or.inr rfl, hroot⟩
  · exact Or.inr (h.isName name hmem)

theorem nodup_slots {dir : SearchDirectory} (h : dir.Known volumes) : dir.slots.Nodup := by
  refine List.nodup_append.mpr ⟨?_, h.nodup, ?_⟩
  · split
    · exact List.nodup_nil
    · decide
  · rintro name hdots other hname rfl
    split at hdots
    · exact absurd hdots List.not_mem_nil
    · have hnot := (h.isName name hname).1
      rcases List.mem_cons.mp hdots with rfl | hdots
      · exact hnot (Or.inr (Or.inl rfl))
      · rw [List.mem_singleton.mp hdots] at hnot
        exact hnot (Or.inr (Or.inr rfl))

/-- Slots before an index from a position on hold nothing that a search is about. -/
def Passed (world : World) (directory : SearchDirectory) (search : Search) (start stop : Nat) : Prop :=
  ∀ index name, start ≤ index → index < stop → directory.slots[index]? = some name →
    ∀ mount attributes len, ¬ Listed world directory.path search mount name attributes len

variable {world : World}

theorem listed_iff {mount : Mount}
    (hmount : world.volumes.drives path.drive = some mount) (hisDir : mount.files.isDir path.relative = true)
    (hslot : IsSlot path name) (hvolume : search.attributes ≠ VOLUME_ATTRIBUTE) {len : Nat} :
    Listed world path search mount name attributes len ↔
      reported world.volumes mount.files path search name = some (attributes, BitVec.ofNat 32 len) ∧ len < 2 ^ 32 := by
  rw [reported_iff hslot hvolume]
  constructor
  · intro h
    rw [BitVec.toNat_ofNat, Nat.mod_eq_of_lt h.size]
    exact ⟨⟨h.entry, h.isMatch⟩, h.size⟩
  · rintro ⟨⟨hent, hmatch⟩, hsize⟩
    rw [BitVec.toNat_ofNat, Nat.mod_eq_of_lt hsize] at hent
    exact ⟨hmount, hisDir, hent, hmatch, hsize⟩

/-- A slot that is not reported holds nothing that the search is about. -/
theorem not_listed {mount : Mount}
    (hmount : world.volumes.drives path.drive = some mount) (hisDir : mount.files.isDir path.relative = true)
    (hslot : IsSlot path name) (hvolume : search.attributes ≠ VOLUME_ATTRIBUTE)
    (hnone : reported world.volumes mount.files path search name = none) (found : Mount) (attributes : BitVec 8)
    (len : Nat) : ¬ Listed world path search found name attributes len := by
  intro h
  obtain rfl := Option.some.inj (hmount.symm.trans h.mounted)
  have hsome := ((listed_iff hmount hisDir hslot hvolume).mp h).1
  rw [hnone] at hsome
  exact nomatch hsome

/-- A call gives the first slot from its position on that holds an entry that the search is about, or none does. -/
theorem nextMatch_spec (hknown : world.Known) (search : Search) :
    (world.nextMatch search = some (.error .noMoreFiles) ∧
      ∀ directory, world.directories[search.directory.toNat]? = some (some directory) →
        Passed world directory search search.nextEntry.toNat directory.slots.length) ∨
      ∃ directory index mount name attributes len data,
        world.directories[search.directory.toNat]? = some (some directory) ∧ search.nextEntry.toNat ≤ index ∧
        directory.slots[index]? = some name ∧ Listed world directory.path search mount name attributes len ∧
        Passed world directory search search.nextEntry.toNat index ∧
        { search with nextEntry := BitVec.ofNat 32 (index + 1) }.result name attributes (BitVec.ofNat 32 len) =
          some data ∧
        world.nextMatch search = some (.ok data) := by
  rw [World.nextMatch]
  cases hdirectory : world.directories[search.directory.toNat]? with
  | none => exact Or.inl ⟨rfl, nofun⟩
  | some entry =>
    cases entry with
    | none => exact Or.inl ⟨rfl, nofun⟩
    | some directory =>
      have hdir := hknown directory (mem_of_getElem? hdirectory)
      dsimp only
      by_cases hvolume : search.attributes = VOLUME_ATTRIBUTE
      · rw [if_pos hvolume]
        refine Or.inl ⟨rfl, ?_⟩
        rintro other hother index name - - - mount attributes len hlisted
        exact hlisted.isMatch.1 hvolume
      rw [if_neg hvolume]
      obtain ⟨mount, hmount⟩ := Option.isSome_iff_exists.mp hdir.mounted
      rw [hmount, Option.bind_some]
      by_cases hisDir : mount.files.isDir directory.path.relative = true
      · rw [if_pos hisDir]
        rcases scanFrom_spec (reported world.volumes mount.files directory.path search) search.nextEntry.toNat
          (directory.slots.drop search.nextEntry.toNat) with
          ⟨hscan, hnone⟩ | ⟨k, name, attributes, len, hscan, hname, hsome, hbef⟩
        · rw [hscan]
          refine Or.inl ⟨rfl, ?_⟩
          intro other hother index name hst _ hname
          cases hother
          have hmem : name ∈ directory.slots.drop search.nextEntry.toNat := by
            refine mem_of_getElem? (i := index - search.nextEntry.toNat) ?_
            rw [List.getElem?_drop, Nat.add_sub_cancel' hst]
            exact hname
          exact not_listed hmount hisDir (isSlot_of_mem hdir (mem_of_getElem? hname)) hvolume
            (hnone name hmem)
        · rw [List.getElem?_drop] at hname
          have hslot := isSlot_of_mem hdir (mem_of_getElem? hname)
          have hlisted : Listed world directory.path search mount name attributes len.toNat := by
            rw [listed_iff hmount hisDir hslot hvolume, BitVec.ofNat_toNat, BitVec.setWidth_eq]
            exact ⟨hsome, len.isLt⟩
          obtain ⟨shortName, hshort, -⟩ := hlisted.isMatch.2.2
          have hlength := ShortName.length_of_name hshort
          refine Or.inr ⟨directory, search.nextEntry.toNat + k, mount, name, attributes, len.toNat, _, rfl,
            Nat.le_add_right _ _, hname, hlisted, ?_, if_pos (by omega), ?_⟩
          · intro index other hst hstop hother
            refine not_listed hmount hisDir (isSlot_of_mem hdir (mem_of_getElem? hother)) hvolume ?_
            refine hbef (index - search.nextEntry.toNat) (by omega) other ?_
            rw [List.getElem?_drop, Nat.add_sub_cancel' hst]
            exact hother
          · rw [hscan, BitVec.ofNat_toNat, BitVec.setWidth_eq]
            dsimp only
            rw [Search.result, if_pos (by omega)]
            rfl
      · rw [if_neg hisDir]
        refine Or.inl ⟨rfl, ?_⟩
        rintro other hother index name - - - found attributes len hlisted
        cases hother
        obtain rfl := Option.some.inj (hmount.symm.trans hlisted.mounted)
        exact hisDir hlisted.isDir

end Relocade.Dos.Searching
