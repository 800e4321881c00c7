import OnyxShell.FileSystem

/-!
# `OnyxShell.Features.Service.GlobFiles`: the files that an expansion names

`glob_expand` splits a word, scans a directory and writes each match behind the directory
part. `ExpandsToFiles` says that these agree with `resolve`, which the commands apply to
the words later: the directory scanned is the one the directory part stands for, and each
word names an entry of it.

`ScansItsDirectory` is when they do.
-/

set_option autoImplicit false

namespace OnyxShell

open LexicalPath (walk spell)

/-- The names that match a word in the directory that is scanned for it. -/
def matchedNames (fs : FileSystem) (tok : Bytes) : List Bytes :=
  (scanDirEntries fs.listing (splitDirAndPrefix tok).1).items.filter
    (globMatch (splitDirAndPrefix tok).2)

/-- A word that `glob_expand` returns names an entry of the directory its directory part
stands for, behind that part. -/
def NamesEntry (wd : WorkingDir) (fs : FileSystem) (dirPart word : Bytes) : Prop :=
  ∃ dir name path, wd.directoryOf dirPart = some dir ∧ name ∈ fs.entries dir ∧
    cString word = dirPart ++ name ∧ resolve (some wd.path) (cString word) = some path ∧
    locate path = dir ++ [name]

/-- Where `glob_expand` finds a match, it scans the directory that the directory part
stands for, and every word it returns names an entry of it. -/
def ExpandsToFiles (wd : WorkingDir) (fs : FileSystem) (tok : Bytes) : Prop :=
  matchedNames fs tok ≠ [] →
    fs.scanned (scanPath (splitDirAndPrefix tok).1) = wd.directoryOf (splitDirAndPrefix tok).1 ∧
    ∀ word ∈ (globExpand fs.listing tok).items,
      NamesEntry wd fs (splitDirAndPrefix tok).1 word

/-- A relative word, without one `./`, fits behind the working directory. -/
def FitsBehind (wd : WorkingDir) (word : Bytes) : Prop :=
  wd.path.length ≤ PATH_MAX - 2 ∧
    (spell '/'.toUInt8 wd.dir).length + 1
      + (if word.take 2 = bytes "./" then word.drop 2 else word).length < PATH_MAX

/-- The directory part fits its buffer, and it is absolute, or it is empty in the root. For
a relative one, what counts is what the kernel takes it for. -/
def ScansItsDirectory (wd : WorkingDir) (fs : FileSystem) (dirPart name : Bytes) : Prop :=
  dirPart.length ≤ 64 ∧ 0 ∉ dirPart ∧
    (dirPart.head? = some '/'.toUInt8 ∨
      dirPart = [] ∧ wd.dir = [] ∨
      dirPart ≠ [] ∧ dirPart.head? ≠ some '/'.toUInt8 ∧
        fs.relative dirPart = some (walk '/'.toUInt8 '.'.toUInt8 wd.dir dirPart) ∧
        FitsBehind wd (dirPart ++ name))

end OnyxShell
