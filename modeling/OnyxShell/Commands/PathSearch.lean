import OnyxShell.Commands.Run

/-!
# `OnyxShell.Commands.PathSearch`: what the search of `PATH` is for

A command without a `/` should be the first file of that name in the directories of `PATH`:
`firstHit`. `search_path` works with a buffer of 256 bytes. A directory that fills it ends the
search, and a path that does not fit is cut and looked up all the same. `SearchFits` is when
neither comes in the way.
-/

set_option autoImplicit false

namespace OnyxShell

/-- A command in a directory, behind a single `/`. -/
def joinPath (absDir cmd : Bytes) : Bytes :=
  (if needsSlash absDir then absDir ++ bytes "/" else absDir) ++ cmd

/-- The directories of `PATH` that have a name and a path, in order. -/
def pathDirs (around : Surroundings) : List Bytes :=
  ((((around.env.get (bytes "PATH")).getD []).splitOn ':'.toUInt8).filter (· ≠ [])).filterMap
    (resolve around.getcwd)

/-- There is such a path, and it fits. -/
def IsHit (around : Surroundings) (cmd absDir : Bytes) : Prop :=
  (joinPath absDir cmd).length ≤ PATH_MAX - 1 ∧ around.stat (cString (joinPath absDir cmd)) = true

instance (around : Surroundings) (cmd absDir : Bytes) : Decidable (IsHit around cmd absDir) :=
  inferInstanceAs (Decidable (_ ∧ _))

/-- The first path that is there and fits. -/
def firstHit (around : Surroundings) (cmd : Bytes) : Option Bytes :=
  ((pathDirs around).find? fun absDir => IsHit around cmd absDir).map (joinPath · cmd)

/-- A directory that leaves no room for a `/`. At such a directory the source leaves the whole
search, and not only this directory. -/
def fillsBuffer (absDir : Bytes) : Prop := needsSlash absDir ∧ absDir.length ≥ PATH_MAX - 1

instance (absDir : Bytes) : Decidable (fillsBuffer absDir) := inferInstanceAs (Decidable (_ ∧ _))

/-- A path that is too long, and is there when it is cut. The source stops to copy at the end of
its buffer and passes on what is there. -/
def IsCutHit (around : Surroundings) (cmd absDir : Bytes) : Prop :=
  PATH_MAX - 1 < (joinPath absDir cmd).length ∧ around.stat (cString (cmdInDir absDir cmd)) = true

instance (around : Surroundings) (cmd absDir : Bytes) : Decidable (IsCutHit around cmd absDir) :=
  inferInstanceAs (Decidable (_ ∧ _))

/-- Up to the first hit, no cut path is there. A directory that fills the buffer has no hit
behind it. -/
def SearchFits (around : Surroundings) (cmd : Bytes) : List Bytes → Prop
  | [] => True
  | absDir :: rest =>
    if fillsBuffer absDir then ∀ later ∈ rest, ¬ IsHit around cmd later
    else IsHit around cmd absDir ∨ ¬ IsCutHit around cmd absDir ∧ SearchFits around cmd rest

end OnyxShell
