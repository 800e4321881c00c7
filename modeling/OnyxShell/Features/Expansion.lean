import OnyxShell.Features.Env
import OnyxShell.Features.History

/-!
# `OnyxShell.Features.Expansion`: what the expansions mean

A reference is read at the front of the rest of a line, and the pass goes on behind it.
`readVariable` and `readReference` say what a reference is, without an index and without a
buffer. `expandedVars` and `expandedRefs` are the lines with the meaning of every
reference in its place. A tilde is expanded at the front of a word (`tildeWord`), so
`expandedTildes` reads the words of the line.

The history is the list of its stored entries here, the oldest first.
-/

set_option autoImplicit false

namespace OnyxShell

/-- A variable reference: `${name}`, up to the first closing brace, or `$name` with the
longest name. -/
def readVariable : Bytes → Option (Bytes × Bytes)
  | b :: c :: rest =>
    if b ≠ '$'.toUInt8 then none
    else if c = '\x7b'.toUInt8 then
      if '\x7d'.toUInt8 ∈ rest then
        some (rest.takeWhile (· != '\x7d'.toUInt8), (rest.dropWhile (· != '\x7d'.toUInt8)).tail)
      else none
    else if isNameStart c then some (c :: rest.takeWhile isNameByte, rest.dropWhile isNameByte)
    else none
  | _ => none

/-- A variable reference is not empty. -/
theorem length_readVariable {line name rest : Bytes} (h : readVariable line = some (name, rest)) :
    rest.length < line.length := by
  rcases line with _ | ⟨b, _ | ⟨c, line⟩⟩
  · cases h
  · cases h
  · rw [readVariable] at h
    split at h
    · cases h
    · split at h
      · split at h
        · cases h
          have hdrop := List.length_dropWhile_le (· != '\x7d'.toUInt8) line
          rw [List.length_tail, List.length_cons, List.length_cons]
          omega
        · cases h
      · split at h
        · cases h
          have hdrop := List.length_dropWhile_le isNameByte line
          rw [List.length_cons, List.length_cons]
          omega
        · cases h

/-- Reads the variable references. -/
def variableReader : Reader UInt8 Bytes := ⟨readVariable, length_readVariable⟩

/-- The line with the values of its variables. A variable that is not set has none. -/
def expandedVars (env : Env) (line : Bytes) : Bytes :=
  variableReader.replace (fun name => (env.get name).getD []) line

/-- The number that digits spell. -/
def number (digits : Bytes) : Nat := digits.foldl (fun n d => n * 10 + (d - '0'.toUInt8).toNat) 0

/-- A history reference: `!!`, `!-k` with `k ≥ 1`, or `!k`, with the longest run of digits. -/
def readReference : Bytes → Option (Reference × Bytes)
  | b :: c :: rest =>
    if b ≠ '!'.toUInt8 then none
    else if c = '!'.toUInt8 then some (.last, rest)
    else if c = '-'.toUInt8 then
      let k := number (rest.takeWhile isDigit)
      if k ≥ 1 then some (.back k, rest.dropWhile isDigit) else none
    else if isDigit c then
      some (.index (number (c :: rest.takeWhile isDigit)), rest.dropWhile isDigit)
    else none
  | _ => none

/-- A history reference is not empty. -/
theorem length_readReference {line rest : Bytes} {r : Reference}
    (h : readReference line = some (r, rest)) : rest.length < line.length := by
  rcases line with _ | ⟨b, _ | ⟨c, line⟩⟩
  · cases h
  · cases h
  · have hdrop := List.length_dropWhile_le isDigit line
    rw [List.length_cons, List.length_cons]
    rw [readReference] at h
    split at h
    · cases h
    · split at h
      · cases h
        omega
      · split at h
        · simp only at h
          split at h
          · cases h
            omega
          · cases h
        · split at h
          · cases h
            omega
          · cases h

/-- Reads the history references. -/
def referenceReader : Reader UInt8 Reference := ⟨readReference, length_readReference⟩

/-- What a reference means. `!!` with no entry stays as it is, and a number out of range
means nothing. -/
def recalled (entries : List Bytes) : Reference → Bytes
  | .last => entries.getLast?.getD (bytes "!!")
  | .back k => if 1 ≤ k then (entries.reverse[k - 1]?).getD [] else []
  | .index k => if 1 ≤ k then (entries[k - 1]?).getD [] else []

/-- The line with the entries that its references mean. -/
def expandedRefs (entries : List Bytes) (line : Bytes) : Bytes :=
  referenceReader.replace (recalled entries) line

/-- At most 19 digits stand in a row behind each `!` and each `!-` of the line. -/
def ShortNumbers (line : Bytes) : Prop :=
  ∀ i, (line)[i]? = some '!'.toUInt8 →
    ((line.drop (i + 1)).takeWhile isDigit).length ≤ 19 ∧
    ((line)[i + 1]? = some '-'.toUInt8 → ((line.drop (i + 2)).takeWhile isDigit).length ≤ 19)

/-- A word, up to the next whitespace. -/
def readWord : Bytes → Option (Bytes × Bytes)
  | [] => none
  | b :: rest =>
    if isWhitespace b then none
    else some (b :: rest.takeWhile fun c => !isWhitespace c, rest.dropWhile fun c => !isWhitespace c)

/-- A word is not empty. -/
theorem length_readWord {line w rest : Bytes} (h : readWord line = some (w, rest)) :
    rest.length < line.length := by
  rcases line with _ | ⟨b, line⟩
  · cases h
  · rw [readWord] at h
    split at h
    · cases h
    · cases h
      exact Nat.lt_succ_of_le (List.length_dropWhile_le _ line)

/-- Reads the words. -/
def wordReader : Reader UInt8 Bytes := ⟨readWord, length_readWord⟩

/-- A word with its tilde expanded: `~` and `~/rest` begin with the home directory, and
`~name` with the directory of all users. -/
def tildeWord (home : Option Bytes) : Bytes → Bytes
  | [] => []
  | b :: rest =>
    if b ≠ '~'.toUInt8 then b :: rest
    else if rest = [] ∨ rest.head? = some '/'.toUInt8 then
      home.getD (bytes "/users/root") ++ rest
    else bytes "/users/" ++ rest

/-- The line with the tildes of its words expanded, and the same whitespace. -/
def expandedTildes (env : Env) (line : Bytes) : Bytes :=
  wordReader.replace (tildeWord (env.get (bytes "HOME"))) line

/-- All whitespace of the line is spaces and tabs. -/
def OnlyBlanks (line : Bytes) : Prop :=
  ∀ b ∈ line, isWhitespace b = true → b = ' '.toUInt8 ∨ b = '\t'.toUInt8

instance (line : Bytes) : Decidable (OnlyBlanks line) :=
  inferInstanceAs (Decidable (∀ b ∈ line, isWhitespace b = true → b = ' '.toUInt8 ∨ b = '\t'.toUInt8))

end OnyxShell
