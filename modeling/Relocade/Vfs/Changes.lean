import Mathlib.Logic.Function.Basic
import Relocade.Vfs.FileSystem

/-!
# `Vfs.Changes` — requests on a filesystem

A filesystem is a map from paths to files and directories. A request succeeds exactly when the map allows it, and has
its effect on the map only, so a run of requests reads as the effects of those that succeeded.
-/

namespace Relocade.Vfs

open Function (update update_self update_of_ne)
open Dos (Bytes)
open Dos.Path (slash validatePath)

/-- A request. Those that supply a file are given the identity of its data. -/
inductive Change where
  | createNew (identity : Nat) (path : Bytes)
  | createDir (path : Bytes)
  | removeFile (path : Bytes)
  | removeDir (path : Bytes)
  | replaceFile (identity : Nat) (path contents : Bytes)
  | renameFile (source target : Bytes)

open MemoryFileSystem

namespace Change

/-- What a request returns: the handle of a file that it supplies, and the filesystem after it. -/
def perform (fs : MemoryFileSystem) : Change → Except ErrorKind (Option File × MemoryFileSystem)
  | .createNew identity path => (fs.createNew identity path).map (Prod.map some id)
  | .createDir path => (fs.createDir path).map (none, ·)
  | .removeFile path => (fs.removeFile path).map (none, ·)
  | .removeDir path => (fs.removeDir path).map (none, ·)
  | .replaceFile identity path contents => (fs.replaceFile identity path contents).map (Prod.map some id)
  | .renameFile source target => (fs.renameFile source target).map (none, ·)

/-! ## Requests on a map of paths -/

/-- A path that can hold an entry. -/
def Supplied (tree : Bytes → Option Node) (path : Bytes) : Prop :=
  validatePath path = true ∧ ∀ parent ∈ parents path, tree parent = some .directory

def IsFile (tree : Bytes → Option Node) (path : Bytes) : Prop := ∃ file, tree path = some (.file file)

/-- When a request succeeds. -/
def Allowed (tree : Bytes → Option Node) : Change → Prop
  | .createNew _ path | .createDir path => Supplied tree path ∧ tree path = none
  | .removeFile path => IsFile tree path
  | .removeDir path => path ≠ [] ∧ tree path = some .directory ∧
      ∀ name, name ≠ [] → slash ∉ name → tree (child path name) = none
  | .replaceFile _ path _ => Supplied tree path ∧ tree path ≠ some .directory
  | .renameFile source target => IsFile tree source ∧ Supplied tree target ∧ tree target ≠ some .directory

/-- What a request that succeeds changes. A file that is moved stays the file it was. -/
def effect (tree : Bytes → Option Node) : Change → Bytes → Option Node
  | .createNew identity path => update tree path (some (.file (.new identity [])))
  | .createDir path => update tree path (some .directory)
  | .removeFile path | .removeDir path => update tree path none
  | .replaceFile identity path contents => update tree path (some (.file (.new identity contents)))
  | .renameFile source target => update (update tree source none) target (tree source)

end Change

/-! ## Maps of filesystems -/

variable {fs fs' : MemoryFileSystem} {path : Bytes}

/-- The filesystem after requests, and those that succeeded. A request that fails changes nothing. -/
def run (fs : MemoryFileSystem) : List Change → MemoryFileSystem × List Change
  | [] => (fs, [])
  | change :: rest =>
      match change.perform fs with
      | .ok (_, fs') => ((run fs' rest).1, change :: (run fs' rest).2)
      | .error _ => run fs rest

end Relocade.Vfs
