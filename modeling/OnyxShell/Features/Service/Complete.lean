import OnyxShell.Features.Service.Glob

/-!
# `OnyxShell.Features.Service.Complete`: tab completion

`tab_complete` of `src/features/service/mod.rs`. A match and its length, which the source
keeps in two vectors, are one byte string.

The directory is read through a `Listing`, which is what `readdir` delivers of each path. What the
matches are for is stated apart, in `OnyxShell.Proofs.Features.Completion`.
-/

set_option autoImplicit false

namespace OnyxShell

/-- `service::BUILTINS`. -/
def BUILTINS : List Bytes :=
  [bytes "ls", bytes "cat", bytes "cp", bytes "mv", bytes "rm", bytes "mkdir", bytes "touch",
    bytes "stat", bytes "cd", bytes "pwd", bytes "echo", bytes "whoami", bytes "uname",
    bytes "date", bytes "clear", bytes "help", bytes "exit", bytes "exec", bytes "run",
    bytes "ver", bytes "export", bytes "set", bytes "unset", bytes "jobs", bytes "fg",
    bytes "bg", bytes "source"]

/-- `service::TabResult`, and what has been written to the terminal. -/
structure TabResult where
  line : Vec UInt8
  cursor : Nat
  printed : Bool
  output : Bytes

/-- `glob::entry_startswith`. -/
def entryStartswith (entry fragment : Bytes) : Bool :=
  if entry.length < fragment.length then false else entry.take fragment.length == fragment

/-- `matches`: the builtins, for the first word, and the names of the directory. -/
def tabMatches (listing : Listing) (tok : Bytes) (isFirstWord : Bool) : Vec Bytes :=
  let builtins := if isFirstWord then BUILTINS.filter (tok.isPrefixOf ·) else []
  let (dirPath, filePrefix) := splitDirAndPrefix tok
  let entries := (scanDirEntries listing dirPath).items.filter (entryStartswith · filePrefix)
  Vec.new.extendFromSlice ((builtins ++ entries).map (·.take 63))

/-- The length of the common start of two byte strings. -/
def commonLength (a b : Bytes) : Nat := ((a.zip b).takeWhile fun p => p.1 == p.2).length

/-- `common`: how many bytes all matches have in common. -/
def commonPrefix (first : Bytes) (others : List Bytes) : Nat :=
  others.foldl (fun common m => commonLength (first.take common) m) first.length

/-- The list of matches on the terminal, on a line of its own. -/
def showMatches (found : List Bytes) : Bytes :=
  bytes "\n" ++ found.flatMap (· ++ bytes "  ") ++ bytes "\n"

/-- `service::tab_complete`. -/
def tabComplete (listing : Listing) (line : Bytes) (cursor : Nat) : TabResult :=
  let tok := (line.take cursor).reverse.takeWhile (fun b => !isWhitespace b) |>.reverse
  let tokStart := cursor - tok.length
  let isFirstWord := (line.take tokStart).all isWhitespace
  match (tabMatches listing tok isFirstWord).items with
  | [] => ⟨lineToVec line, cursor, false, []⟩
  | [m] =>
    let newLine := (((Vec.new.extendFromSlice (line.take tokStart)).extendFromSlice m).push
      ' '.toUInt8).extendFromSlice (line.drop cursor)
    ⟨newLine, tokStart + m.length + 1, false, []⟩
  | first :: others =>
    let common := commonPrefix first others
    if common > tok.length then
      let newLine := ((Vec.new.extendFromSlice (line.take tokStart)).extendFromSlice
        (first.take common)).extendFromSlice (line.drop cursor)
      ⟨newLine, tokStart + common, true, showMatches (first :: others)⟩
    else ⟨lineToVec line, cursor, true, showMatches (first :: others)⟩

end OnyxShell
