import OnyxShell.Lib.LexicalPath
import OnyxShell.Features.Service.Glob
import OnyxShell.Path

/-!
# `OnyxShell.FileSystem`: directories and the paths that lead to them

What the paths of the shell are about. A directory is the list of names that lead to it
from the root. `locate` reads an absolute path, `FileSystem` says which names each
directory holds, and `FileSystem.listing` is what `readdir` delivers for a path.

The shell passes some relative paths to `readdir`. What the kernel takes them for is a
field of the file system.
-/

set_option autoImplicit false

namespace OnyxShell

open LexicalPath (IsName walk Renders)

/-- Where an absolute path leads: the names on the way, from the root. -/
def locate (path : Bytes) : List Bytes := walk '/'.toUInt8 '.'.toUInt8 [] path

/-- A name that an entry of a directory can have. -/
structure EntryName (name : Bytes) : Prop where
  isName : IsName '/'.toUInt8 '.'.toUInt8 name
  no_nul : 0 ∉ name
  length_le : name.length ≤ 63

/-- The directories of a file system, and what a relative path given to `readdir` leads
to. -/
structure FileSystem where
  entries : List Bytes → List Bytes
  relative : Bytes → Option (List Bytes)
  entryName : ∀ dir, ∀ name ∈ entries dir, EntryName name

/-- The directory that `readdir` reads for a path. -/
def FileSystem.scanned (fs : FileSystem) (path : Bytes) : Option (List Bytes) :=
  if path.head? = some '/'.toUInt8 then some (locate path) else fs.relative path

/-- The names that `readdir` delivers for a path. -/
def FileSystem.listing (fs : FileSystem) : Listing := fun path =>
  match fs.scanned path with
  | none => []
  | some dir => fs.entries dir

/-- A working directory and the path that `getcwd` gives for it. -/
structure WorkingDir where
  dir : List Bytes
  path : Bytes
  names : ∀ name ∈ dir, EntryName name
  renders : Renders '/'.toUInt8 path dir

/-- The directory that a directory part of a word stands for: the one that `resolve` gives,
or the working directory for an empty part. -/
def WorkingDir.directoryOf (wd : WorkingDir) (dirPart : Bytes) : Option (List Bytes) :=
  if dirPart.length = 0 then some wd.dir else (resolve (some wd.path) dirPart).map locate

end OnyxShell
