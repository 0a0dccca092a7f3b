import Mathlib.Data.List.TakeWhile
import Relocade.Dos.Search

/-!
# `Dos.SearchChain` — searches over many calls

Each call of a search is given the record that the one before it returned, or a copy that the guest kept of it. Between
the calls everything else happens: other searches, and files that come and go.
-/

namespace Relocade.Dos.Searching

open Path (slash dot IsDots toUpper isLower isUpper)
open List (prefix_rfl mem_of_getElem? not_mem_nil mem_cons_of_mem mem_cons_self)
open ShortName (star question space)
open Vfs (MemoryFileSystem Metadata Node File)

/-! ## Additions -/

/-- Additions go behind what is known, once each. -/
theorem addNames_spec (known names : List Bytes) : known <+: addNames known names ∧
    (known.Nodup → (addNames known names).Nodup) ∧
    ∀ name, name ∈ addNames known names ↔ name ∈ known ∨ name ∈ names := by
  induction names generalizing known with
  | nil => exact ⟨prefix_rfl, id, fun name => by simp [addNames]⟩
  | cons first names ih =>
    have hcons : addNames known (first :: names) =
        addNames (if first ∈ known then known else known ++ [first]) names := rfl
    obtain ⟨hinit, hnodup, hmem⟩ := ih (if first ∈ known then known else known ++ [first])
    rw [hcons]
    by_cases hfst : first ∈ known
    · rw [if_pos hfst] at hinit hnodup hmem ⊢
      refine ⟨hinit, hnodup, fun name => ?_⟩
      rw [hmem, List.mem_cons]
      constructor
      · exact fun h => h.imp_right Or.inr
      · rintro (h | rfl | h)
        · exact Or.inl h
        · exact Or.inl hfst
        · exact Or.inr h
    · rw [if_neg hfst] at hinit hnodup hmem ⊢
      refine ⟨(List.prefix_append known [first]).trans hinit, fun h => hnodup ?_, fun name => ?_⟩
      · refine List.nodup_append.mpr ⟨h, List.pairwise_singleton _ first, ?_⟩
        rintro name hname other hother rfl
        exact hfst (List.mem_singleton.mp hother ▸ hname)
      · rw [hmem, List.mem_append, List.mem_singleton, List.mem_cons, or_assoc]

/-- What becomes of the directories when one is searched. -/
structure Remembered (directories : List (Option SearchDirectory)) (path : ResolvedPath) (names : List Bytes)
    (index : Nat) (directories' : List (Option SearchDirectory)) : Prop where
  found : ∃ directory : SearchDirectory, directories'[index]? = some (some directory) ∧ directory.path = path ∧
    ∀ name ∈ names, name ∈ directory.names
  kept : ∀ (i : Nat) (directory : SearchDirectory), directories[i]? = some (some directory) →
    ∃ directory' : SearchDirectory, directories'[i]? = some (some directory') ∧ directory'.path = directory.path ∧
      directory.names <+: directory'.names
  lost : ∀ i : Nat, directories[i]? = some none → directories'[i]? = some none
  known : ∀ directory' : SearchDirectory, some directory' ∈ directories' →
    (∃ directory : SearchDirectory, some directory ∈ directories ∧ directory'.path = directory.path ∧
      (directory' = directory ∨ directory'.path = path ∧ directory'.names = addNames directory.names names)) ∨
      directory' = ⟨path, names⟩

theorem remember_spec (directories : List (Option SearchDirectory)) (path : ResolvedPath) (names : List Bytes) :
    Remembered directories path names (remember directories path names).1 (remember directories path names).2 := by
  rw [remember]
  cases hfind : directories.findIdx? fun entry => entry.any fun dir => dir.path = path with
  | none =>
    dsimp only
    refine ⟨⟨⟨path, names⟩, ?_, rfl, fun name hname => hname⟩, fun i dir h => ?_, fun i h => ?_,
      fun directory' h => ?_⟩
    · rw [List.getElem?_append_right (Nat.le_refl _), Nat.sub_self]
      rfl
    · refine ⟨dir, ?_, rfl, prefix_rfl⟩
      rw [List.getElem?_append_left (List.getElem?_eq_some_iff.mp h).1]
      exact h
    · rw [List.getElem?_append_left (List.getElem?_eq_some_iff.mp h).1]
      exact h
    · rcases List.mem_append.mp h with hmem | hmem
      · exact Or.inl ⟨directory', hmem, rfl, Or.inl rfl⟩
      · exact Or.inr (Option.some.inj (List.mem_singleton.mp hmem))
  | some index =>
    dsimp only
    obtain ⟨hlt, hpath, -⟩ := List.findIdx?_eq_some_iff_getElem.mp hfind
    obtain ⟨searched, hsearched⟩ : ∃ searched, directories[index] = some searched := by
      cases hent : directories[index] with
      | none =>
        rw [hent] at hpath
        exact nomatch hpath
      | some searched => exact ⟨searched, rfl⟩
    have hsame : searched.path = path := by
      rw [hsearched] at hpath
      exact of_decide_eq_true hpath
    have hat : directories[index]? = some (some searched) := by rw [List.getElem?_eq_getElem hlt, hsearched]
    obtain ⟨hinit, -, hmem⟩ := addNames_spec searched.names names
    have hmodified : ∀ i, (directories.modify index (Option.map fun dir =>
        { dir with names := addNames dir.names names }))[i]? =
        if index = i then some (some { searched with names := addNames searched.names names })
        else directories[i]? := by
      intro i
      rw [List.getElem?_modify]
      split
      · next hi =>
          rw [← hi, hat]
          rfl
      · cases directories[i]? <;> rfl
    refine ⟨⟨{ searched with names := addNames searched.names names }, by rw [hmodified, if_pos rfl], hsame,
      fun name hname => (hmem name).mpr (Or.inr hname)⟩, fun i dir h => ?_, fun i h => ?_,
      fun directory' h => ?_⟩
    · rw [hmodified]
      split
      · next hi =>
          rw [← hi, hat] at h
          cases h
          exact ⟨_, rfl, rfl, hinit⟩
      · exact ⟨dir, h, rfl, prefix_rfl⟩
    · rw [hmodified]
      split
      · next hi =>
          rw [← hi, hat] at h
          exact nomatch h
      · exact h
    · obtain ⟨i, hi⟩ := List.mem_iff_getElem?.mp h
      rw [hmodified] at hi
      split at hi
      · cases hi
        exact Or.inl ⟨searched, mem_of_getElem? hat, rfl, Or.inr ⟨hsame, rfl⟩⟩
      · exact Or.inl ⟨directory', mem_of_getElem? hi, rfl, Or.inl rfl⟩

/-! ## What runs keep -/

/-- What is kept of a directory that is known: its slots, unless another filesystem is mounted. -/
def Kept (world world' : World) (directory : SearchDirectory) (entry : Option SearchDirectory) : Prop :=
  match entry with
  | none => ∃ mount, world'.volumes.drives directory.path.drive = some mount ∧ world.volumes.mounts ≤ mount.id
  | some directory' => directory'.path = directory.path ∧ directory.names <+: directory'.names ∧
      (world'.volumes.drives directory.path.drive).map Mount.id =
        (world.volumes.drives directory.path.drive).map Mount.id

structure Extends (world world' : World) : Prop where
  mounts_le : world.volumes.mounts ≤ world'.volumes.mounts
  drives : ∀ letter mount, world.volumes.drives letter = some mount → ∃ mount',
    world'.volumes.drives letter = some mount' ∧ (mount'.id = mount.id ∨ world.volumes.mounts ≤ mount'.id)
  lost : ∀ i : Nat, world.directories[i]? = some none → world'.directories[i]? = some none
  kept : ∀ (i : Nat) (directory : SearchDirectory), world.directories[i]? = some (some directory) →
    ∃ entry, world'.directories[i]? = some entry ∧ Kept world world' directory entry

theorem Extends.refl (world : World) : Extends world world :=
  ⟨Nat.le_refl _, fun _ mount h => ⟨mount, h, Or.inl rfl⟩, fun _ h => h,
    fun _ dir h => ⟨some dir, h, rfl, prefix_rfl, rfl⟩⟩

theorem Extends.trans {a b c : World} (hab : Extends a b) (hbc : Extends b c) : Extends a c := by
  refine ⟨hab.mounts_le.trans hbc.mounts_le, fun letter mount h => ?_, fun i h => hbc.lost i (hab.lost i h),
    fun i dir h => ?_⟩
  · obtain ⟨middle, hmiddle, hid⟩ := hab.drives letter mount h
    obtain ⟨last, hlast, hid'⟩ := hbc.drives letter middle hmiddle
    refine ⟨last, hlast, ?_⟩
    rcases hid' with hid' | hid'
    · rw [hid']
      exact hid
    · exact Or.inr (hab.mounts_le.trans hid')
  · obtain ⟨entry, hent, hkept⟩ := hab.kept i dir h
    cases entry with
    | none =>
      obtain ⟨mount, hmount, hid⟩ := hkept
      obtain ⟨last, hlast, hid'⟩ := hbc.drives _ mount hmount
      refine ⟨none, hbc.lost i hent, last, hlast, ?_⟩
      rcases hid' with hid' | hid'
      · rw [hid']
        exact hid
      · exact hab.mounts_le.trans hid'
    | some middle =>
      obtain ⟨hpath, hinit, hid⟩ := hkept
      obtain ⟨last, hlast, hkept'⟩ := hbc.kept i middle hent
      refine ⟨last, hlast, ?_⟩
      cases last with
      | none =>
        obtain ⟨mount, hmount, hid'⟩ := hkept'
        exact ⟨mount, hpath ▸ hmount, hab.mounts_le.trans hid'⟩
      | some last =>
        obtain ⟨hpath', hinit', hid'⟩ := hkept'
        exact ⟨hpath'.trans hpath, hinit.trans hinit', (hpath ▸ hid').trans hid⟩

variable {world : World}

/-- A search changes the directories only, and knows the one it is in. -/
theorem beginSearch_spec (hknown : world.Known) (specification : Bytes) (attributes : BitVec 8) :
    ∃ result world', world.beginSearch specification attributes = some (result, world') ∧ Extends world world' ∧
      world'.Known ∧ world'.volumes = world.volumes ∧
      ∀ search, result = .ok search → ∃ index dir mount,
        world.volumes.resolve (if splitPoint specification = 0 then [dot] else
          specification.take (splitPoint specification)) = some (dir.path.drive, dir.path.relative) ∧
        search.directory = BitVec.ofNat 32 index ∧ search.nextEntry = 0 ∧ search.pattern.length = 11 ∧
        world'.directories[index]? = some (some dir) ∧
        world'.volumes.drives dir.path.drive = some mount ∧
        mount.files.isDir dir.path.relative = true ∧
        ∀ name, name ≠ [] → slash ∉ name →
          mount.files.get (MemoryFileSystem.child dir.path.relative name) ≠ none → name ∈ dir.names := by
  rw [World.beginSearch]
  dsimp only
  cases hrsv : world.volumes.resolve (if splitPoint specification = 0 then [dot] else
    specification.take (splitPoint specification)) with
  | none => exact ⟨_, _, rfl, Extends.refl world, hknown, rfl, nofun⟩
  | some resolved =>
    obtain ⟨drive, relative⟩ := resolved
    have hmounted : (world.volumes.drives drive).isSome := by
      obtain ⟨context, hcontext, hmap⟩ := Option.bind_eq_some_iff.mp hrsv
      obtain ⟨path, -, heq⟩ := Option.map_eq_some_iff.mp hmap
      obtain ⟨letter, -, hletter⟩ := Option.bind_eq_some_iff.mp hcontext
      split at hletter
      · next hmounted =>
          cases hletter
          cases heq
          rw [← world.volumes.mounted_iff]
          exact hmounted
      · exact nomatch hletter
    obtain ⟨mount, hmount⟩ := Option.isSome_iff_exists.mp hmounted
    dsimp only
    rw [hmount, Option.bind_some]
    by_cases hisDir : mount.files.isDir relative = true
    · rw [if_pos hisDir]
      cases hpat : ShortName.pattern (specification.drop (splitPoint specification)) with
      | none => exact ⟨_, _, rfl, Extends.refl world, hknown, rfl, nofun⟩
      | some pattern =>
        obtain ⟨listing, hlisting, hnodup, hnames⟩ := MemoryFileSystem.readDir_spec hisDir
        dsimp only
        rw [hlisting]
        dsimp only
        have hremembered := remember_spec world.directories ⟨drive, relative⟩ (listing.map Prod.fst)
        have hnew : SearchDirectory.Known world.volumes ⟨⟨drive, relative⟩, listing.map Prod.fst⟩ := by
          refine ⟨hmounted, hnodup, fun name hname => ?_⟩
          obtain ⟨hne, hslash, hget⟩ := (hnames name).mp hname
          exact ⟨MemoryFileSystem.child_not_dots hget hne hslash, hslash⟩
        obtain ⟨dir, hdirectory, hpath, hfound⟩ := hremembered.found
        refine ⟨_, _, rfl, ⟨Nat.le_refl _, fun _ mount h => ⟨mount, h, Or.inl rfl⟩, hremembered.lost,
          fun i dir h => ?_⟩, fun directory' h => ?_, rfl, fun search h => ?_⟩
        · obtain ⟨directory', hdirectory', hpath', hinit⟩ := hremembered.kept i dir h
          exact ⟨some directory', hdirectory', hpath', hinit, rfl⟩
        · rcases hremembered.known directory' h with ⟨dir, hmem, hsame, rfl | ⟨-, hadded⟩⟩ | rfl
          · exact hknown directory' hmem
          · have hdir := hknown dir hmem
            obtain ⟨-, hkeeps, hmem⟩ := addNames_spec dir.names (listing.map Prod.fst)
            refine ⟨hsame ▸ hdir.mounted, hadded ▸ hkeeps hdir.nodup, fun name hname => ?_⟩
            rw [hadded, hmem] at hname
            rcases hname with hname | hname
            · exact hdir.isName name hname
            · exact hnew.isName name hname
          · exact hnew
        · cases h
          refine ⟨_, dir, mount, ?_, rfl, rfl, ShortName.length_pattern hpat, hdirectory, ?_, ?_, ?_⟩
          · rw [hpath]
          · rw [hpath]
            exact hmount
          · rw [hpath]
            exact hisDir
          · intro name hne hslash hget
            rw [hpath] at hget
            exact hfound name ((hnames name).mpr ⟨hne, hslash, hget⟩)
    · rw [if_neg hisDir]
      exact ⟨_, _, rfl, Extends.refl world, hknown, rfl, nofun⟩

/-- A call is made without a panic. -/
theorem findFirst_total (hknown : world.Known) (specification : Bytes) (attributes : BitVec 8) :
    ∃ outcome world', world.findFirst specification attributes = some (outcome, world') ∧ Extends world world' ∧
      world'.Known := by
  obtain ⟨result, world', hbegin, hextends, hknown', -, -⟩ := beginSearch_spec hknown specification attributes
  rw [World.findFirst, hbegin, Option.bind_some]
  cases result with
  | error error => exact ⟨_, _, rfl, hextends, hknown'⟩
  | ok search =>
    dsimp only
    rcases nextMatch_spec hknown' search with ⟨hnext, -⟩ | ⟨-, -, -, -, -, -, data, -, -, -, -, -, -, hnext⟩
    · exact ⟨_, _, by rw [hnext]; rfl, hextends, hknown'⟩
    · exact ⟨_, _, by rw [hnext]; rfl, hextends, hknown'⟩

theorem mount_extends (hknown : world.Known) (letter : BitVec 8) (files : MemoryFileSystem) :
    Extends world ⟨world.volumes.mount letter files, invalidateSearches world.directories letter⟩ ∧
      World.Known ⟨world.volumes.mount letter files, invalidateSearches world.directories letter⟩ := by
  have hdrives : ∀ other, (world.volumes.mount letter files).drives other =
      if other = letter then some ⟨world.volumes.mounts, files⟩ else world.volumes.drives other := fun _ => rfl
  have hentries : ∀ i : Nat, (invalidateSearches world.directories letter)[i]? =
      world.directories[i]?.map fun entry : Option SearchDirectory =>
        if entry.any fun dir => dir.path.drive = letter then none else entry := fun i =>
    List.getElem?_map ..
  refine ⟨⟨Nat.le_succ _, fun other mount h => ?_, fun i h => ?_, fun i dir h => ?_⟩, fun dir h => ?_⟩
  · show ∃ mount', (world.volumes.mount letter files).drives other = some mount' ∧ _
    rw [hdrives]
    split
    · exact ⟨_, rfl, Or.inr (Nat.le_refl _)⟩
    · exact ⟨mount, h, Or.inl rfl⟩
  · show (invalidateSearches world.directories letter)[i]? = some none
    rw [hentries, h]
    rfl
  · show ∃ entry, (invalidateSearches world.directories letter)[i]? = some entry ∧ _
    rw [hentries, h]
    by_cases hdrive : dir.path.drive = letter
    · refine ⟨none, ?_, ⟨world.volumes.mounts, files⟩, ?_, Nat.le_refl _⟩
      · rw [Option.map_some, Option.any_some, decide_eq_true hdrive]
        rfl
      · show (world.volumes.mount letter files).drives _ = _
        rw [hdrives, if_pos hdrive]
    · refine ⟨some dir, ?_, rfl, prefix_rfl, ?_⟩
      · rw [Option.map_some, Option.any_some, decide_eq_false hdrive]
        rfl
      · show ((world.volumes.mount letter files).drives _).map _ = _
        rw [hdrives, if_neg hdrive]
  · obtain ⟨entry, hmem, heq⟩ := List.mem_map.mp h
    split at heq
    · exact nomatch heq
    · next hdrive =>
        rw [heq] at hmem hdrive
        have hdir := hknown dir hmem
        refine ⟨?_, hdir.nodup, hdir.isName⟩
        show ((world.volumes.mount letter files).drives _).isSome
        rw [hdrives, if_neg fun h => hdrive (decide_eq_true h)]
        exact hdir.mounted

variable {world world' : World}

theorem event_extends (h : Event world world') (hknown : world.Known) : Extends world world' ∧ world'.Known := by
  cases h with
  | change volumes hmounts hids =>
    refine ⟨⟨Nat.le_of_eq hmounts.symm, fun letter mount h => ?_, fun i h => h, fun i dir h => ?_⟩,
      fun dir h => ?_⟩
    · have hid := hids letter
      rw [h] at hid
      obtain ⟨mount', hmount', hid⟩ := Option.map_eq_some_iff.mp hid
      exact ⟨mount', hmount', Or.inl hid⟩
    · exact ⟨some dir, h, rfl, prefix_rfl, hids _⟩
    · have hdir := hknown dir h
      refine ⟨?_, hdir.nodup, hdir.isName⟩
      have hid := congrArg Option.isSome (hids dir.path.drive)
      rw [Option.isSome_map, Option.isSome_map] at hid
      rw [hid]
      exact hdir.mounted
  | mount letter files =>
    rw [World.mount]
    split
    · exact mount_extends hknown (toUpper letter) files
    · exact ⟨Extends.refl world, hknown⟩
  | search h =>
    obtain ⟨outcome, after, hfind, hextends, hknown'⟩ := findFirst_total hknown _ _
    obtain ⟨rfl, rfl⟩ := Prod.mk.inj (Option.some.inj (h.symm.trans hfind))
    exact ⟨hextends, hknown'⟩

theorem run_extends (h : Run world world') (hknown : world.Known) : Extends world world' ∧ world'.Known := by
  induction h with
  | refl => exact ⟨Extends.refl world, hknown⟩
  | tail _ hevent ih =>
    obtain ⟨hextends, hknown'⟩ := event_extends hevent ih.2
    exact ⟨ih.1.trans hextends, hknown'⟩

theorem Reachable.known (h : Reachable world) : world.Known := by
  obtain ⟨volumes, hrun⟩ := h
  exact (run_extends hrun fun dir hmem => absurd hmem not_mem_nil).2

/-! ## Chains -/

/-- A call of a chain: where it is made, the position that it starts from and what it gives. -/
structure Call where
  world : World
  start : Nat
  outcome : Except SearchError Bytes

/-- The calls of a search, the last one first. Each is given the record of the one before it, at any later time. -/
inductive Chain (first : World) (search : Search) : Call → List Call → Prop
  | first {outcome : Except SearchError Bytes} :
      first.nextMatch search = some outcome → Chain first search ⟨first, 0, outcome⟩ []
  | next {call : Call} {before : List Call} {world : World} {data : Bytes} {outcome : Except SearchError Bytes} :
      Chain first search call before → call.outcome = .ok data → Run call.world world →
      world.findNext data = some outcome →
      Chain first search ⟨world, (Search.decode data).nextEntry.toNat, outcome⟩ (call :: before)

/-- Records can tell every directory and every position that is known. -/
structure World.Small (world : World) : Prop where
  directories : world.directories.length ≤ 2 ^ 32
  slots : ∀ directory, some directory ∈ world.directories → directory.slots.length < 2 ^ 32

/-- A call that continues a search. -/
structure Call.Continues (first : World) (search : Search) (call : Call) : Prop where
  extends' : Extends first call.world
  known : call.world.Known
  small : call.world.Small
  start_lt : call.start < 2 ^ 32
  outcome : call.world.nextMatch { search with nextEntry := BitVec.ofNat 32 call.start } = some call.outcome

/-- A call that gives the entry in a slot. -/
structure Call.Gives (search : Search) (call : Call) (directory : SearchDirectory) (slot : Nat) (data : Bytes) :
    Prop where
  outcome : call.outcome = .ok data
  known : call.world.directories[search.directory.toNat]? = some (some directory)
  start_le : call.start ≤ slot
  passed : Passed call.world directory search call.start slot
  name : directory.slots[slot]? = some (recordName data)
  listed : ∃ mount attributes len, Listed call.world directory.path search mount (recordName data) attributes len ∧
    Shows data (recordName data) attributes len
  marker : data.head? = some SEARCH_MARKER
  next : Search.decode data = { search with nextEntry := BitVec.ofNat 32 (slot + 1) }
  next_toNat : (Search.decode data).nextEntry.toNat = slot + 1
  next_lt : slot + 1 < 2 ^ 32

variable {search : Search}

variable {first : World}

variable {call : Call}

theorem Call.Continues.spec (hpat : search.pattern.length = 11)
    (h : call.Continues first search) :
    (call.outcome = .error .noMoreFiles ∧
      ∀ dir, call.world.directories[search.directory.toNat]? = some (some dir) →
        Passed call.world dir search call.start dir.slots.length) ∨
      ∃ dir slot data, call.Gives search dir slot data := by
  have hst : (BitVec.ofNat 32 call.start).toNat = call.start := by
    rw [BitVec.toNat_ofNat, Nat.mod_eq_of_lt h.start_lt]
  rcases nextMatch_spec h.known { search with nextEntry := BitVec.ofNat 32 call.start } with
    ⟨hnone, hpassed⟩ | ⟨dir, slot, mount, name, attributes, len, data, hdirectory, hle, hname, hlisted, hpassed,
      hres, hsome⟩
  · refine Or.inl ⟨Option.some.inj (h.outcome.symm.trans hnone), fun dir hdirectory => ?_⟩
    intro slot name hle hlt hname mount attributes len hlisted
    exact hpassed dir hdirectory slot name (hst.symm ▸ hle) hlt hname mount attributes len
      ⟨hlisted.mounted, hlisted.isDir, hlisted.entry, hlisted.isMatch, hlisted.size⟩
  · dsimp only at hdirectory hle hpassed hres
    rw [hst] at hle
    obtain ⟨shortName, hshort, -⟩ := hlisted.isMatch.2.2
    have hlt := (List.getElem?_eq_some_iff.mp hname).1
    have hslots := h.small.slots dir (mem_of_getElem? hdirectory)
    have hshows := result_shows (by exact hpat) hshort hres
    rw [BitVec.toNat_ofNat, Nat.mod_eq_of_lt hlisted.size] at hshows
    obtain ⟨hmarker, hdecode⟩ := decode_result (by exact hpat) hres
    refine Or.inr ⟨dir, slot, data, Option.some.inj (h.outcome.symm.trans hsome), hdirectory, hle, ?_, ?_, ?_,
      hmarker, hdecode, ?_, by omega⟩
    · intro index other hle hlt hother found attributes len hfound
      exact hpassed index other (hst.symm ▸ hle) hlt hother found attributes len
        ⟨hfound.mounted, hfound.isDir, hfound.entry, hfound.isMatch, hfound.size⟩
    · rw [hshows.name]
      exact hname
    · rw [hshows.name]
      exact ⟨mount, attributes, len,
        ⟨hlisted.mounted, hlisted.isDir, hlisted.entry, hlisted.isMatch, hlisted.size⟩, hshows⟩
    · rw [hdecode, BitVec.toNat_ofNat, Nat.mod_eq_of_lt (by omega)]

variable {directory dir directory' : SearchDirectory}

/-- Slots stay where they are. -/
theorem slots_kept (hpath : directory'.path = dir.path)
    (hnames : dir.names <+: directory'.names) : dir.slots <+: directory'.slots := by
  rw [SearchDirectory.slots, SearchDirectory.slots, hpath]
  exact List.prefix_append_right_inj _ |>.mpr hnames

theorem Extends.slots (h : Extends world world') {index : Nat}
    (hdirectory : world.directories[index]? = some (some dir))
    (hdirectory' : world'.directories[index]? = some (some directory')) :
    directory'.path = dir.path ∧ dir.slots <+: directory'.slots ∧
      (world'.volumes.drives dir.path.drive).map Mount.id =
        (world.volumes.drives dir.path.drive).map Mount.id := by
  obtain ⟨entry, hent, hkept⟩ := h.kept index dir hdirectory
  obtain rfl := Option.some.inj (hent.symm.trans hdirectory')
  exact ⟨hkept.1, slots_kept hkept.1 hkept.2.1, hkept.2.2⟩

theorem getElem?_kept {xs ys : List Bytes} (h : xs <+: ys) {i : Nat} {x : Bytes} (hx : xs[i]? = some x) :
    ys[i]? = some x := by
  obtain ⟨rest, rfl⟩ := h
  rw [List.getElem?_append_left (List.getElem?_eq_some_iff.mp hx).1]
  exact hx

/-- A later call gives another name. -/
theorem Call.Gives.name_ne {older newer : Call}
    {slot slot' : Nat} {data data' : Bytes} (h : older.Gives search dir slot data)
    (h' : newer.Gives search directory' slot' data') (hextends : Extends older.world newer.world)
    (hknown : newer.world.Known) (hlt : slot < slot') : recordName data' ≠ recordName data := by
  intro heq
  obtain ⟨-, hinit, -⟩ := hextends.slots h.known h'.known
  have hslot := getElem?_kept hinit h.name
  have hnodup := nodup_slots (hknown directory' (mem_of_getElem? h'.known))
  have hidx := (List.nodup_iff_getElem?_ne_getElem?.mp hnodup) slot slot' hlt
    (List.getElem?_eq_some_iff.mp h'.name).1
  rw [hslot, h'.name, heq] at hidx
  exact hidx rfl

/-- What holds of every chain of calls. -/
structure ChainSpec (first : World) (search : Search) (call : Call) (before : List Call) : Prop where
  continues : ∀ c ∈ call :: before, c.Continues first search
  extends' : ∀ c ∈ call :: before, Extends c.world call.world
  older : ∀ c ∈ before, ∃ directory slot data, c.Gives search directory slot data ∧ slot < call.start
  length_le : before.length ≤ call.start
  apart : (call :: before).Pairwise fun newer older => ∀ data data', newer.outcome = .ok data →
    older.outcome = .ok data' → recordName data ≠ recordName data'
  covered : ∀ slot < call.start, ∃ c ∈ before, ∃ directory last data, c.Gives search directory last data ∧
    c.start ≤ slot ∧ slot ≤ last

theorem Call.Continues.gives (hpat : search.pattern.length = 11)
    (h : call.Continues first search) {data : Bytes} (hok : call.outcome = .ok data) :
    ∃ dir slot, call.Gives search dir slot data := by
  rcases h.spec hpat with ⟨herror, -⟩ | ⟨dir, slot, data', hgives⟩
  · rw [hok] at herror
    exact nomatch herror
  · cases hok.symm.trans hgives.outcome
    exact ⟨dir, slot, hgives⟩

theorem chain_spec (hknown : first.Known) (hpat : search.pattern.length = 11)
    (hst : search.nextEntry = 0) {before : List Call} (h : Chain first search call before)
    (hsmall : ∀ c ∈ call :: before, c.world.Small) : ChainSpec first search call before := by
  induction h with
  | first hnext =>
    have hsame : { search with nextEntry := BitVec.ofNat 32 0 } = search := by
      rw [← show search.nextEntry = BitVec.ofNat 32 0 from hst]
    refine ⟨fun c hc => ?_, fun c hc => ?_, fun c hc => absurd hc not_mem_nil, Nat.le_refl _,
      List.pairwise_singleton _ _, fun slot hslot => absurd hslot (Nat.not_lt_zero slot)⟩
    · have hsmallCall := hsmall c hc
      obtain rfl := List.mem_singleton.mp hc
      refine ⟨Extends.refl first, hknown, hsmallCall, Nat.two_pow_pos 32, ?_⟩
      dsimp only
      rw [hsame]
      exact hnext
    · obtain rfl := List.mem_singleton.mp hc
      exact Extends.refl first
  | @next call before world data outcome hchain hok hrun hfind ih =>
    have spec := ih fun c hc => hsmall c (mem_cons_of_mem _ hc)
    have hcall := spec.continues call mem_cons_self
    obtain ⟨dir, slot, hgives⟩ := hcall.gives hpat hok
    obtain ⟨hextends, hknown'⟩ := run_extends hrun hcall.known
    rw [World.findNext, if_neg (fun h => h hgives.marker), hgives.next] at hfind
    have hnew : Call.Continues first search ⟨world, (Search.decode data).nextEntry.toNat, outcome⟩ := by
      refine ⟨hcall.extends'.trans hextends, hknown', hsmall _ mem_cons_self, BitVec.isLt _, ?_⟩
      dsimp only
      rw [hgives.next_toNat]
      exact hfind
    have holder : ∀ c ∈ call :: before, ∃ dir slot' data, c.Gives search dir slot' data ∧ slot' ≤ slot := by
      intro c hc
      rcases List.mem_cons.mp hc with rfl | hc
      · exact ⟨dir, slot, data, hgives, Nat.le_refl slot⟩
      · obtain ⟨directory', slot', data', hgives', hlt⟩ := spec.older c hc
        exact ⟨directory', slot', data', hgives', hlt.le.trans hgives.start_le⟩
    have hextendsAll : ∀ c ∈ call :: before, Extends c.world world := fun c hc => (spec.extends' c hc).trans hextends
    refine ⟨List.forall_mem_cons.mpr ⟨hnew, spec.continues⟩,
      List.forall_mem_cons.mpr ⟨Extends.refl world, hextendsAll⟩, fun c hc => ?_, ?_,
      List.pairwise_cons.mpr ⟨fun c hc => ?_, spec.apart⟩, fun slot' hslot' => ?_⟩
    · obtain ⟨directory', slot', data', hgives', hle⟩ := holder c hc
      refine ⟨directory', slot', data', hgives', ?_⟩
      rw [hgives.next_toNat]
      exact Nat.lt_succ_of_le hle
    · rw [hgives.next_toNat, List.length_cons]
      exact Nat.succ_le_succ (spec.length_le.trans hgives.start_le)
    · intro newest data' hnewest hdata'
      obtain ⟨directory', slot', older, hgives', hle⟩ := holder c hc
      obtain ⟨directory'', slot'', hgives''⟩ := hnew.gives hpat hnewest
      cases hdata'.symm.trans hgives'.outcome
      refine hgives'.name_ne hgives'' (hextendsAll c hc) hknown' ?_
      have hst' := hgives''.start_le
      dsimp only at hst'
      rw [hgives.next_toNat] at hst'
      omega
    · rw [hgives.next_toNat] at hslot'
      rcases Nat.lt_or_ge slot' call.start with hlt | hge
      · obtain ⟨c, hc, hcov⟩ := spec.covered slot' hlt
        exact ⟨c, mem_cons_of_mem _ hc, hcov⟩
      · exact ⟨call, mem_cons_self, dir, slot, data, hgives, hge, Nat.le_of_lt_succ hslot'⟩

/-- The call comes past the slot of a name. -/
def Call.Passes (first : World) (search : Search) (name : Bytes) (call : Call) : Prop :=
  ∃ directory slot, first.directories[search.directory.toNat]? = some (some directory) ∧
    directory.slots[slot]? = some name ∧ call.start ≤ slot ∧
    ∀ data, call.outcome = .ok data → slot < (Search.decode data).nextEntry.toNat

variable {name : Bytes}

/-- A call that comes past a slot reports it just when the search is about the entry in it. -/
theorem Call.Continues.reports_iff
    (hpat : search.pattern.length = 11) (h : call.Continues first search) {dir : SearchDirectory}
    (hdirectory : first.directories[search.directory.toNat]? = some (some dir)) {mount : Mount}
    (hmount : first.volumes.drives dir.path.drive = some mount) {slot : Nat}
    (hname : dir.slots[slot]? = some name) (hst : call.start ≤ slot)
    (hstop : ∀ data, call.outcome = .ok data → slot < (Search.decode data).nextEntry.toNat) :
    (∃ data, call.outcome = .ok data ∧ recordName data = name) ↔
      ∃ found attributes len, found.id = mount.id ∧
        Listed call.world dir.path search found name attributes len := by
  rcases h.spec hpat with ⟨herror, hpassed⟩ | ⟨directory', last, data, hgives⟩
  · refine iff_of_false ?_ ?_
    · rintro ⟨data, hok, -⟩
      rw [hok] at herror
      exact nomatch herror
    · rintro ⟨found, attributes, len, hid, hlisted⟩
      obtain ⟨entry, hent, hkept⟩ := h.extends'.kept _ dir hdirectory
      cases entry with
      | none =>
        obtain ⟨later, hlater, hle⟩ := hkept
        obtain rfl := Option.some.inj (hlater.symm.trans hlisted.mounted)
        exact absurd (first.volumes.mounts_lt _ mount hmount) (by omega)
      | some directory' =>
        obtain ⟨hpath, hinit, -⟩ := h.extends'.slots hdirectory hent
        have hslot := getElem?_kept hinit hname
        rw [← hpath] at hlisted
        exact hpassed directory' hent slot name hst (List.getElem?_eq_some_iff.mp hslot).1 hslot found
          attributes len hlisted
  · obtain ⟨hpath, hinit, hid⟩ := h.extends'.slots hdirectory hgives.known
    have hslot := getElem?_kept hinit hname
    have hle : slot ≤ last := by
      have := hstop data hgives.outcome
      rw [hgives.next_toNat] at this
      exact Nat.le_of_lt_succ this
    rcases hle.eq_or_lt with rfl | hlt
    · have hrecord : recordName data = name := Option.some.inj (hgives.name.symm.trans hslot)
      obtain ⟨found, attributes, len, hlisted, -⟩ := hgives.listed
      rw [hrecord, hpath] at hlisted
      rw [hlisted.mounted, hmount] at hid
      exact iff_of_true ⟨data, hgives.outcome, hrecord⟩ ⟨found, attributes, len, Option.some.inj hid, hlisted⟩
    · refine iff_of_false ?_ ?_
      · rintro ⟨other, hok, hother⟩
        cases hok.symm.trans hgives.outcome
        have hnodup := nodup_slots (h.known directory' (mem_of_getElem? hgives.known))
        refine List.nodup_iff_getElem?_ne_getElem?.mp hnodup slot last hlt
          (List.getElem?_eq_some_iff.mp hgives.name).1 ?_
        rw [hslot, hgives.name, hother]
      · rintro ⟨found, attributes, len, -, hlisted⟩
        rw [← hpath] at hlisted
        exact hgives.passed slot name hst hlt hslot found attributes len hlisted

theorem Chain.first_mem {before : List Call}
    (h : Chain first search call before) : ∃ c ∈ call :: before, c.world = first := by
  induction h with
  | first _ => exact ⟨_, mem_cons_self, rfl⟩
  | next _ _ _ _ ih =>
    obtain ⟨c, hc, hfst⟩ := ih
    exact ⟨c, mem_cons_of_mem _ hc, hfst⟩

/-- An entry of a directory has a slot once the directory is read. -/
theorem IsEntry.mem_slots {volumes : Volumes} {files : MemoryFileSystem} {dir : SearchDirectory}
    {attributes : BitVec 8} {len : Nat} (h : IsEntry volumes files dir.path name attributes len)
    (hnames : ∀ name, name ≠ [] → slash ∉ name →
      files.get (MemoryFileSystem.child dir.path.relative name) ≠ none → name ∈ dir.names) :
    name ∈ dir.slots := by
  rcases h with ⟨hdots, hroot, -⟩ | ⟨hdots, hslash, node, hnode, -⟩
  · refine List.mem_append_left _ ?_
    rw [if_neg hroot]
    rcases hdots with rfl | rfl
    · exact mem_cons_self
    · exact mem_cons_of_mem _ (List.mem_singleton_self _)
  · refine List.mem_append_right _ (hnames name (fun hemp => hdots (Or.inl hemp)) hslash fun hnone => ?_)
    rw [hnode] at hnone
    exact nomatch hnone

/-- Chains of calls end, and give every entry of the directory that they come past, once. -/
theorem search_complete {world : World} (hreachable : Reachable world) :
    (∀ specification attributes, (world.findFirst specification attributes).isSome) ∧
    (∀ data : Bytes, data.length = 43 → world.findNext data = some (.error .noMoreFiles) ∨
      ∃ record directory mount name attributes len, world.findNext data = some (.ok record) ∧
        some directory ∈ world.directories ∧
        Listed world directory.path (Search.decode data) mount name attributes len ∧
        Shows record name attributes len) ∧
    ∀ specification attributes search first, world.beginSearch specification attributes = some (.ok search, first) →
      ∃ path mount, world.volumes.resolve (if splitPoint specification = 0 then [dot] else
          specification.take (splitPoint specification)) = some (path.drive, path.relative) ∧
        world.volumes.drives path.drive = some mount ∧
        ∀ call before, Chain first search call before → (∀ c ∈ call :: before, c.world.Small) →
          (call :: before).length ≤ 2 ^ 32 ∧
          (∀ c ∈ call :: before, ∀ data, c.outcome = .ok data → ∃ found attributes len, found.id = mount.id ∧
            Listed c.world path search found (recordName data) attributes len ∧
            Shows data (recordName data) attributes len) ∧
          ((call :: before).Pairwise fun newer older => ∀ data data', newer.outcome = .ok data →
            older.outcome = .ok data' → recordName data ≠ recordName data') ∧
          ∀ error, call.outcome = .error error → ∀ name attributes len,
            IsEntry world.volumes mount.files path name attributes len →
            ∃ c ∈ call :: before, c.Passes first search name ∧
              ((∃ data, c.outcome = .ok data ∧ recordName data = name) ↔
                ∃ found attributes len, found.id = mount.id ∧
                  Listed c.world path search found name attributes len) := by
  have hknown := hreachable.known
  refine ⟨fun specification attributes => ?_, fun data hlength => ?_,
    fun specification attributes search first hbegin => ?_⟩
  · obtain ⟨outcome, world', hfind, -⟩ := findFirst_total hknown specification attributes
    rw [hfind]
    rfl
  · rw [World.findNext]
    split
    · exact Or.inl rfl
    · have hpattern : (Search.decode data).pattern.length = 11 := by
        rw [Search.decode, List.length_take, List.length_drop, hlength]
        rfl
      rcases nextMatch_spec hknown (Search.decode data) with
        ⟨hnone, -⟩ | ⟨directory, index, mount, name, attributes, len, record, hdirectory, -, -, hlisted, -, hresult,
          hsome⟩
      · exact Or.inl hnone
      · obtain ⟨shortName, hshort, -⟩ := hlisted.isMatch.2.2
        have hshows := result_shows (by exact hpattern) hshort hresult
        rw [BitVec.toNat_ofNat, Nat.mod_eq_of_lt hlisted.size] at hshows
        exact Or.inr ⟨record, directory, mount, name, attributes, len, hsome, mem_of_getElem? hdirectory, hlisted,
          hshows⟩
  · obtain ⟨result, first', hbegin', -, hknown', hvolumes, hsearch⟩ := beginSearch_spec hknown specification attributes
    obtain ⟨rfl, rfl⟩ := Prod.mk.inj (Option.some.inj (hbegin'.symm.trans hbegin))
    obtain ⟨index, directory, mount, hresolve, hindex, hstart, hpattern, hdirectory, hmount, hisDir, hnames⟩ :=
      hsearch search rfl
    refine ⟨directory.path, mount, hresolve, hvolumes ▸ hmount, fun call before hchain hsmall => ?_⟩
    have spec := chain_spec hknown' hpattern hstart hchain hsmall
    have hdirectory' : first'.directories[search.directory.toNat]? = some (some directory) := by
      obtain ⟨c, hc, hfirst⟩ := hchain.first_mem
      have hlength := (hsmall c hc).directories
      rw [hfirst] at hlength
      have hlt := (List.getElem?_eq_some_iff.mp hdirectory).1
      rw [hindex, BitVec.toNat_ofNat, Nat.mod_eq_of_lt (by omega)]
      exact hdirectory
    refine ⟨?_, ?_, spec.apart, ?_⟩
    · have hlast := (spec.continues call mem_cons_self).start_lt
      exact Nat.succ_le_of_lt (Nat.lt_of_le_of_lt spec.length_le hlast)
    · intro c hc data hok
      obtain ⟨directory', slot, hgives⟩ := (spec.continues c hc).gives hpattern hok
      obtain ⟨found, attributes, len, hlisted, hshows⟩ := hgives.listed
      obtain ⟨hpath, -, hid⟩ := (spec.continues c hc).extends'.slots hdirectory' hgives.known
      rw [hpath] at hlisted
      rw [hlisted.mounted, hmount] at hid
      exact ⟨found, attributes, len, Option.some.inj hid, hlisted, hshows⟩
    · intro error herror name attributes len hentry
      obtain ⟨slot, hslot⟩ := List.mem_iff_getElem?.mp (hentry.mem_slots hnames)
      obtain ⟨c, hc, hstart, hstop⟩ : ∃ c ∈ call :: before, c.start ≤ slot ∧
          ∀ data, c.outcome = .ok data → slot < (Search.decode data).nextEntry.toNat := by
        rcases Nat.lt_or_ge slot call.start with hlt | hge
        · obtain ⟨c, hc, directory', last, data, hgives, hle, hlast⟩ := spec.covered slot hlt
          refine ⟨c, mem_cons_of_mem _ hc, hle, fun data' hok => ?_⟩
          cases hok.symm.trans hgives.outcome
          rw [hgives.next_toNat]
          exact Nat.lt_succ_of_le hlast
        · refine ⟨call, mem_cons_self, hge, fun data hok => ?_⟩
          cases herror.symm.trans hok
      exact ⟨c, hc, ⟨directory, slot, hdirectory', hslot, hstart, hstop⟩,
        (spec.continues c hc).reports_iff hpattern hdirectory' hmount hslot hstart hstop⟩

/-! ## Sessions -/

/-- A root directory with files that names are given of. -/
def rootFiles (files : List (Bytes × Node)) (hsorted : files.Pairwise fun a b => Vfs.order a.1 < Vfs.order b.1)
    (hfiles : ∀ entry ∈ files, Path.validatePath entry.1 = true ∧ entry.1 ≠ [] ∧ slash ∉ entry.1) :
    MemoryFileSystem where
  entries := ([], .directory) :: files
  sorted := by
    refine List.pairwise_cons.mpr ⟨fun entry hentry => ?_, hsorted⟩
    obtain ⟨first, rest, hname⟩ := List.exists_cons_of_ne_nil (hfiles entry hentry).2.1
    rw [hname]
    exact List.nil_lt_cons ..
  root := mem_cons_self
  valid := List.forall_mem_cons.mpr ⟨rfl, fun entry hentry => (hfiles entry hentry).1⟩
  parents_mem := by
    intro entry hentry parent hparent
    obtain ⟨rest, hrest⟩ := Vfs.mem_parents.mp hparent
    rcases List.mem_cons.mp hentry with rfl | hentry
    · exact absurd hrest.symm (by simp)
    · exact absurd (hrest ▸ List.mem_append_right _ mem_cons_self) (hfiles entry hentry).2.2

/-- A session with a filesystem at C. -/
def session (files : MemoryFileSystem) : World where
  volumes :=
    { mounted := fun letter => letter = 0x43
      currentDrive := 0x43
      currentDirectories := fun _ => none
      reached := nofun
      drives := fun letter => if letter = 0x43 then some ⟨0, files⟩ else none
      attributes := fun _ => none
      mounts := 1
      mounted_iff := fun letter => by
        split
        · next h => exact decide_eq_true h
        · next h => exact decide_eq_false h
      mounts_lt := fun letter mount h => by
        split at h
        · cases h
          exact Nat.one_pos
        · exact nomatch h }
  directories := []

/-- The root with the file `A`. -/
def oneFile (contents : Bytes) : MemoryFileSystem :=
  rootFiles [([0x41], .file (.new 0 contents))] (List.pairwise_singleton _ _) fun entry hentry => by
    rw [List.mem_singleton.mp hentry]
    exact (by decide : Path.validatePath [0x41] = true ∧ ([0x41] : Bytes) ≠ [] ∧ slash ∉ ([0x41] : Bytes))

/-- The search for `*` in the root. -/
def everything : Search := ⟨0, 0, List.replicate 8 question ++ List.replicate 3 space, 0⟩

/-- The root directory once it has been searched. -/
def World.searched (world : World) (names : List Bytes) : World :=
  { world with directories := [some ⟨⟨0x43, []⟩, names⟩] }

theorem session_reachable (files : MemoryFileSystem) : Reachable (session files) := ⟨_, Relation.ReflTransGen.refl⟩

theorem begin_oneFile (contents : Bytes) : (session (oneFile contents)).beginSearch [star] 0 =
    some (.ok everything, (session (oneFile contents)).searched [[0x41]]) := rfl

theorem small_searched {names : List Bytes} (h : names.length < 2 ^ 32) : (world.searched names).Small := by
  refine ⟨Nat.one_le_two_pow, fun dir hdirectory => ?_⟩
  obtain rfl := Option.some.inj (List.mem_singleton.mp hdirectory)
  exact h

theorem search_complete_oneFile :
    let first := (session (oneFile [1, 2, 3, 4, 5])).searched [[0x41]]
    ∃ data call, Chain first everything call [⟨first, 0, .ok data⟩] ∧ recordName data = [0x41] ∧
      (call.outcome = .error .noMoreFiles) ∧
      ∃ c ∈ [call, ⟨first, 0, .ok data⟩], c.Passes first everything [0x41] ∧
        ((∃ data, c.outcome = .ok data ∧ recordName data = [0x41]) ↔
          ∃ found attributes len, found.id = 0 ∧ Listed c.world ⟨0x43, []⟩ everything found [0x41] attributes len) := by
  intro first
  obtain ⟨-, -, hchains⟩ := search_complete (session_reachable (oneFile [1, 2, 3, 4, 5]))
  obtain ⟨⟨drive, relative⟩, mount, hresolve, hmount, hchain⟩ := hchains _ _ _ _ (begin_oneFile [1, 2, 3, 4, 5])
  obtain ⟨rfl, rfl⟩ := Prod.mk.inj
    (Option.some.inj (hresolve.symm.trans rfl : some (drive, relative) = some (0x43, [])))
  obtain rfl := Option.some.inj (hmount.symm.trans rfl : some mount = some ⟨0, oneFile [1, 2, 3, 4, 5]⟩)
  have hfirst : ∃ data, first.nextMatch everything = some (.ok data) ∧ recordName data = [0x41] ∧
      first.findNext data = some (.error .noMoreFiles) :=
    ⟨[0xd5, 0, 0, 0, 0, 1, 0, 0, 0] ++ everything.pattern ++ [0, 0x20, 0, 0, 0x21, 0, 5, 0, 0, 0, 0x41] ++
      List.replicate 12 0, by decide +kernel, by decide +kernel, by decide +kernel⟩
  obtain ⟨data, hdata, hname, hnext⟩ := hfirst
  have hcalls := Chain.next (Chain.first hdata) rfl Relation.ReflTransGen.refl hnext
  have hsmall : first.Small := small_searched (by decide)
  obtain ⟨-, -, -, hend⟩ := hchain _ _ hcalls (List.forall_mem_cons.mpr ⟨hsmall, List.forall_mem_cons.mpr
    ⟨hsmall, fun c hc => absurd hc not_mem_nil⟩⟩)
  exact ⟨data, _, hcalls, hname, rfl, hend _ rfl [0x41] ARCHIVE_ATTRIBUTE 5
    (Or.inr ⟨by decide, by decide, .file (.new 0 [1, 2, 3, 4, 5]), rfl, rfl, rfl⟩)⟩

/-! ## Limits -/

/-- The words of a length over the letters A to P, in order. -/
def words : Nat → List Bytes
  | 0 => [[]]
  | length + 1 => (List.range 16).flatMap fun digit => (words length).map (BitVec.ofNat 8 (0x41 + digit) :: ·)

theorem length_words (length : Nat) : (words length).length = 16 ^ length := by
  induction length with
  | zero => rfl
  | succ length ih =>
    rw [words, List.length_flatMap]
    simp only [List.length_map, ih, List.map_const', List.sum_replicate_nat, List.length_range]
    rw [Nat.pow_succ, Nat.mul_comm]

theorem sorted_words (length : Nat) : (words length).Pairwise fun a b => Vfs.order a < Vfs.order b := by
  induction length with
  | zero => exact List.pairwise_singleton _ _
  | succ length ih =>
    rw [words, List.pairwise_flatMap]
    refine ⟨fun digit _ => ?_, ?_⟩
    · rw [List.pairwise_map]
      exact ih.imp fun h => List.cons_lt_cons_iff.mpr (Or.inr ⟨rfl, h⟩)
    · refine List.pairwise_lt_range.imp_of_mem ?_
      intro digit digit' hdigit hdigit' hlt a ha b hb
      obtain ⟨a, -, rfl⟩ := List.mem_map.mp ha
      obtain ⟨b, -, rfl⟩ := List.mem_map.mp hb
      refine List.cons_lt_cons_iff.mpr (Or.inl ?_)
      rw [List.mem_range] at hdigit hdigit'
      rw [BitVec.toNat_ofNat, BitVec.toNat_ofNat]
      omega

theorem of_mem_words {length : Nat} (h : name ∈ words length) :
    name.length = length ∧ ∀ byte ∈ name, ∃ digit < 16, byte = BitVec.ofNat 8 (0x41 + digit) := by
  induction length generalizing name with
  | zero =>
    rw [List.mem_singleton.mp h]
    exact ⟨rfl, fun byte hbyte => absurd hbyte not_mem_nil⟩
  | succ length ih =>
    obtain ⟨digit, hdigit, hname⟩ := List.mem_flatMap.mp h
    obtain ⟨rest, hrest, rfl⟩ := List.mem_map.mp hname
    obtain ⟨hlen, hbytes⟩ := ih hrest
    exact ⟨congrArg Nat.succ hlen, List.forall_mem_cons.mpr ⟨⟨digit, List.mem_range.mp hdigit, rfl⟩, hbytes⟩⟩

theorem letter_spec : ∀ digit < 16, ShortName.plain (BitVec.ofNat 8 (0x41 + digit)) = true ∧
    BitVec.ofNat 8 (0x41 + digit) ∉ [dot, slash, star, question, 0] ∧
    toUpper (BitVec.ofNat 8 (0x41 + digit)) = BitVec.ofNat 8 (0x41 + digit) := by decide

theorem letter_of_words {length : Nat} (h : name ∈ words length) {byte : BitVec 8}
    (hbyte : byte ∈ name) :
    ShortName.plain byte = true ∧ byte ∉ [dot, slash, star, question, 0] ∧ toUpper byte = byte := by
  obtain ⟨digit, hdigit, rfl⟩ := (of_mem_words h).2 byte hbyte
  exact letter_spec digit hdigit

theorem field_word (h : ∀ byte ∈ name, ShortName.plain byte = true ∧ byte ≠ star ∧
    toUpper byte = byte) : ShortName.field name.length name = some name := by
  induction name with
  | nil => rfl
  | cons byte rest ih =>
    obtain ⟨⟨hplain, hstar, hupper⟩, hrest⟩ := List.forall_mem_cons.mp h
    rw [ShortName.field, if_neg hstar, List.length_cons, if_neg (Nat.succ_ne_zero _), if_pos hplain, hupper,
      Nat.add_sub_cancel, ih hrest]
    rfl

theorem name_word (h : name ∈ words 8) :
    ShortName.name name = some (name ++ List.replicate 3 space) := by
  obtain ⟨hlen, -⟩ := of_mem_words h
  have hnot : ∀ byte ∈ [dot, slash, star, question, 0], byte ∉ name := fun byte hmem hbyte =>
    (letter_of_words h hbyte).2.1 hmem
  have hdots : ¬ (name = [dot] ∨ name = [dot, dot]) := by
    rintro (rfl | rfl)
    · exact absurd hlen (by decide)
    · exact absurd hlen (by decide)
  have hwhole : ∀ byte ∈ name, (decide (byte ≠ dot)) = true := fun byte hbyte =>
    decide_eq_true fun heq => hnot dot (by decide) (heq ▸ hbyte)
  have hfld : ShortName.field 8 name = some name := hlen ▸ field_word fun byte hbyte => by
    obtain ⟨hplain, -, hupper⟩ := letter_of_words h hbyte
    exact ⟨hplain, fun heq => hnot star (by decide) (heq ▸ hbyte), hupper⟩
  rw [ShortName.name, if_neg (not_or.mpr ⟨hnot _ (by decide), hnot _ (by decide)⟩), ShortName.pattern, if_neg hdots]
  dsimp only
  rw [List.takeWhile_eq_self_iff.mpr hwhole, List.dropWhile_eq_nil_iff.mpr hwhole, if_neg (by
    rintro rfl
    exact absurd hlen (by decide)), hfld]
  rfl

theorem match_word (h : name ∈ words 8) :
    ShortName.isMatch everything.pattern (name ++ List.replicate 3 space) = true := by
  rw [ShortName.isMatch, everything, List.zip_append (by rw [List.length_replicate, (of_mem_words h).1]),
    List.all_append, Bool.and_eq_true]
  refine ⟨List.all_eq_true.mpr fun pair hpair => ?_, by decide⟩
  rw [List.eq_of_mem_replicate (List.of_mem_zip hpair).1]
  rfl

/-- A file for every word of eight letters. -/
def manyFiles : MemoryFileSystem :=
  rootFiles ((words 8).map fun name => (name, .file (.new 0 [])))
    (List.pairwise_map.mpr (sorted_words 8)) fun entry hentry => by
      obtain ⟨name, hname, rfl⟩ := List.mem_map.mp hentry
      obtain ⟨hlength, -⟩ := of_mem_words hname
      have hnot : ∀ byte ∈ [dot, slash, star, question, 0], byte ∉ name := fun byte hmem hbyte =>
        (letter_of_words hname hbyte).2.1 hmem
      have hshort : ∀ other : Bytes, other.length < 8 → name ≠ other := by
        rintro other hother rfl
        exact absurd hlength (Nat.ne_of_lt hother)
      refine ⟨?_, hshort [] (by decide), hnot slash (by decide)⟩
      rw [Path.validatePath, Vfs.splitOn_name (hnot slash (by decide)), List.any_cons, List.any_nil, Bool.or_false,
        decide_eq_false (hshort [] (by decide)), decide_eq_false (hshort [dot] (by decide)),
        decide_eq_false (hshort [dot, dot] (by decide)), Bool.false_or, Bool.false_or, Bool.false_or, Bool.false_or,
        Bool.not_eq_true', List.any_eq_false]
      intro byte hbyte hzero
      exact hnot 0 (by decide) (of_decide_eq_true hzero ▸ hbyte)

theorem file_manyFiles (h : name ∈ words 8) : manyFiles.get name = some (.file (.new 0 [])) :=
  MemoryFileSystem.get_eq_some_iff.mpr (mem_cons_of_mem _ (List.mem_map.mpr ⟨name, h, rfl⟩))

theorem get_manyFiles (hne : name ≠ []) : manyFiles.get name ≠ none ↔ name ∈ words 8 := by
  rw [Option.ne_none_iff_exists']
  constructor
  · rintro ⟨node, hnode⟩
    rcases List.mem_cons.mp (MemoryFileSystem.get_eq_some_iff.mp hnode) with heq | hmem
    · exact absurd (Prod.mk.inj heq).1 hne
    · obtain ⟨other, hother, heq⟩ := List.mem_map.mp hmem
      rw [← (Prod.mk.inj heq).1]
      exact hother
  · exact fun h => ⟨_, file_manyFiles h⟩

theorem begin_manyFiles : ∃ names : List Bytes, names.length = 2 ^ 32 ∧ (∀ name ∈ names, name ∈ words 8) ∧
    (session manyFiles).beginSearch [star] 0 =
      some (.ok everything, (session manyFiles).searched names) := by
  have hisDir : manyFiles.isDir [] = true := rfl
  obtain ⟨listing, hlisting, hnodup, hnames⟩ := MemoryFileSystem.readDir_spec hisDir
  have hiff : ∀ name, name ∈ listing.map Prod.fst ↔ name ∈ words 8 := by
    intro name
    rw [hnames]
    constructor
    · exact fun h => (get_manyFiles h.1).mp h.2.2
    · intro h
      have hne : name ≠ [] := by
        rintro rfl
        exact absurd (of_mem_words h).1 (by decide)
      exact ⟨hne, fun hslash => (letter_of_words h hslash).2.1 (by decide), (get_manyFiles hne).mpr h⟩
  have hwords : (words 8).Nodup := (sorted_words 8).imp fun h => by
    rintro rfl
    exact lt_irrefl _ h
  refine ⟨listing.map Prod.fst, ?_, fun name h => (hiff name).mp h, ?_⟩
  · have hpow : 16 ^ 8 = 2 ^ 32 := by decide
    rw [((List.perm_ext_iff_of_nodup hnodup hwords).mpr hiff).length_eq, length_words, hpow]
  · rw [World.beginSearch]
    have hrsv : (session manyFiles).volumes.resolve [dot] = some (0x43, []) := rfl
    have hdrive : (session manyFiles).volumes.drives 0x43 = some ⟨0, manyFiles⟩ := rfl
    have hsplit : splitPoint [star] = 0 := rfl
    rw [hsplit, if_pos rfl, hrsv]
    dsimp only
    rw [hdrive, Option.bind_some, if_pos hisDir]
    dsimp only
    rw [hlisting]
    rfl

/-- Every position of such a directory holds an entry. -/
theorem nextMatch_manyFiles {names : List Bytes} (hlen : names.length = 2 ^ 32)
    (hwords : ∀ name ∈ names, name ∈ words 8) (hknown : ((session manyFiles).searched names).Known)
    (pos : BitVec 32) : ∃ data position',
    ((session manyFiles).searched names).nextMatch { everything with nextEntry := pos } = some (.ok data) ∧
      data.head? = some SEARCH_MARKER ∧ Search.decode data = { everything with nextEntry := position' } := by
  rcases nextMatch_spec hknown { everything with nextEntry := pos } with
    ⟨-, hpassed⟩ | ⟨dir, index, mount, name, attributes, len, data, -, -, -, -, -, hres, hsome⟩
  · have hlt : pos.toNat < names.length := hlen ▸ pos.isLt
    have hmem := hwords _ (List.getElem_mem hlt)
    have hdots : ¬ IsDots names[pos.toNat] := by
      have hlen := (of_mem_words hmem).1
      rintro (h | h | h)
      · rw [h] at hlen
        exact absurd hlen (by decide)
      · rw [h] at hlen
        exact absurd hlen (by decide)
      · rw [h] at hlen
        exact absurd hlen (by decide)
    refine absurd ?_ (hpassed ⟨⟨0x43, []⟩, names⟩ rfl pos.toNat names[pos.toNat] (Nat.le_refl _) hlt
      (List.getElem?_eq_getElem hlt) ⟨0, manyFiles⟩ ARCHIVE_ATTRIBUTE 0)
    have hattributes : (ARCHIVE_ATTRIBUTE &&& ~~~READ_ONLY_ATTRIBUTE) ||| 0 = ARCHIVE_ATTRIBUTE := by decide
    have hsearched : everything.attributes ≠ VOLUME_ATTRIBUTE ∧
        special ARCHIVE_ATTRIBUTE &&& ~~~everything.attributes = 0 := by decide
    refine ⟨rfl, rfl, Or.inr ⟨hdots, ?_, .file (.new 0 []), file_manyFiles hmem, hattributes.symm, rfl⟩,
      ⟨hsearched.1, hsearched.2, _, name_word hmem, match_word hmem⟩, Nat.two_pow_pos 32⟩
    exact fun hslash => (letter_of_words hmem hslash).2.1 (by decide)
  · obtain ⟨hmarker, hdecode⟩ := decode_result (by rfl) hres
    exact ⟨data, _, hsome, hmarker, hdecode⟩

/-- A file of 4 GiB or more is not reported. -/
theorem nextMatch_large {contents : Bytes} (h : 2 ^ 32 ≤ contents.length) :
    ((session (oneFile contents)).searched [[0x41]]).nextMatch everything = some (.error .noMoreFiles) := by
  have hnone : reported (session (oneFile contents)).volumes (oneFile contents) ⟨0x43, []⟩ everything [0x41] =
      none := by
    refine Option.eq_none_iff_forall_ne_some.mpr fun ⟨attributes, len⟩ hreported => ?_
    rcases ((reported_iff (Or.inr ⟨by decide, by decide⟩) (by decide)).mp hreported).1 with
      ⟨hdots, -⟩ | ⟨-, -, node, hnode, -, hlen⟩
    · exact absurd hdots (by decide)
    · obtain rfl := Option.some.inj (hnode.symm.trans rfl : some node = some (.file (.new 0 contents)))
      have hcontents : len.toNat = contents.length := hlen
      have hlt := len.isLt
      omega
  have hscan : scanFrom (reported ((session (oneFile contents)).searched [[0x41]]).volumes (oneFile contents)
      ⟨0x43, []⟩ everything) everything.nextEntry.toNat
      ((SearchDirectory.mk ⟨0x43, []⟩ [[0x41]]).slots.drop everything.nextEntry.toNat) = none := by
    have hslots : (SearchDirectory.mk ⟨0x43, []⟩ [[0x41]]).slots.drop everything.nextEntry.toNat = [[0x41]] := rfl
    have hvolumes : ((session (oneFile contents)).searched [[0x41]]).volumes = (session (oneFile contents)).volumes := rfl
    rw [hslots, hvolumes, scanFrom, hnone]
    rfl
  have hvolume : everything.attributes ≠ VOLUME_ATTRIBUTE := by decide
  have hdirectory : (oneFile contents).isDir [] = true := rfl
  have hdirectories : ((session (oneFile contents)).searched [[0x41]]).directories[everything.directory.toNat]? =
    some (some ⟨⟨0x43, []⟩, [[0x41]]⟩) := rfl
  have hdrives : ((session (oneFile contents)).searched [[0x41]]).volumes.drives 0x43 = some ⟨0, oneFile contents⟩ := rfl
  rw [World.nextMatch, hdirectories]
  dsimp only
  rw [if_neg hvolume, hdrives, Option.bind_some]
  dsimp only
  rw [if_pos hdirectory, hscan]

/-- A file of 4 GiB is not found, and positions of more bits than a record holds start over. -/
theorem search_limits :
    (∃ contents : Bytes, contents.length = 2 ^ 32 ∧ ∃ attributes, Reachable (session (oneFile contents)) ∧
      (session (oneFile contents)).beginSearch [star] 0 =
        some (.ok everything, (session (oneFile contents)).searched [[0x41]]) ∧
      Chain ((session (oneFile contents)).searched [[0x41]]) everything
        ⟨(session (oneFile contents)).searched [[0x41]], 0, .error .noMoreFiles⟩ [] ∧
      IsEntry (session (oneFile contents)).volumes (oneFile contents) ⟨0x43, []⟩ [0x41] attributes contents.length ∧
      everything.Matches [0x41] attributes) ∧
    ∃ first, Reachable (session manyFiles) ∧
      (session manyFiles).beginSearch [star] 0 = some (.ok everything, first) ∧
      ∀ length, ∃ call before, Chain first everything call before ∧ before.length = length := by
  obtain ⟨contents, hcontents⟩ : ∃ contents : Bytes, contents.length = 2 ^ 32 := ⟨_, List.length_replicate (a := 0)⟩
  have hattributes : (ARCHIVE_ATTRIBUTE &&& ~~~READ_ONLY_ATTRIBUTE) ||| 0 = ARCHIVE_ATTRIBUTE := by decide
  refine ⟨⟨contents, hcontents, ARCHIVE_ATTRIBUTE, session_reachable _, begin_oneFile _,
    Chain.first (nextMatch_large hcontents.ge),
    Or.inr ⟨by decide, by decide, .file (.new 0 contents), rfl, hattributes.symm, rfl⟩,
    by decide, by decide, _, rfl, by decide⟩, ?_⟩
  obtain ⟨names, hlength, hwords, hbegin⟩ := begin_manyFiles
  obtain ⟨_, _, hbegin', -, hknown, -⟩ := beginSearch_spec (session_reachable manyFiles).known [star] 0
  obtain ⟨-, rfl⟩ := Prod.mk.inj (Option.some.inj (hbegin.symm.trans hbegin'))
  refine ⟨_, session_reachable manyFiles, hbegin, fun length => ?_⟩
  have hchain : ∃ call before, Chain ((session manyFiles).searched names) everything call before ∧
      before.length = length ∧ ∃ data position, call.world = (session manyFiles).searched names ∧
        call.outcome = .ok data ∧ data.head? = some SEARCH_MARKER ∧
        Search.decode data = { everything with nextEntry := position } := by
    induction length with
    | zero =>
        obtain ⟨data, position, hnext, hmarker, hdecode⟩ := nextMatch_manyFiles hlength hwords hknown 0
        exact ⟨_, [], Chain.first hnext, rfl, data, position, rfl, rfl, hmarker, hdecode⟩
    | succ length ih =>
        obtain ⟨call, before, hchain, hbefore, data, position, hworld, hok, hmarker, hdecode⟩ := ih
        obtain ⟨data', position', hnext, hmarker', hdecode'⟩ := nextMatch_manyFiles hlength hwords hknown position
        rw [← hdecode] at hnext
        refine ⟨_, _, Chain.next hchain hok (hworld ▸ Relation.ReflTransGen.refl) ?_, congrArg Nat.succ hbefore, data',
          position', rfl, rfl, hmarker', hdecode'⟩
        rw [World.findNext, if_neg (fun h => h hmarker)]
        exact hnext
  obtain ⟨call, before, hchain, hbefore, -⟩ := hchain
  exact ⟨call, before, hchain, hbefore⟩

end Relocade.Dos.Searching
