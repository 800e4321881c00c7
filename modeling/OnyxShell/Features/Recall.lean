import Mathlib.Data.Nat.Digits.Defs
import OnyxShell.Features.History

/-!
# `OnyxShell.Features.Recall`: what the history should remember

The log of all accepted lines, and the ways to get an entry back. `Recalls` says that they
all lead to the same entry, and `Exhausted` that none leads further back.

Nothing here looks at the ring. `accept` says in terms of the line and of the last entry what is
stored, with the stripping written out instead of taken from the code.
-/

set_option autoImplicit false

namespace OnyxShell

/-- A line without the LF, CR and NUL bytes at its end. -/
def stripped (line : Bytes) : Bytes :=
  (line.reverse.dropWhile fun b => b = '\n'.toUInt8 ∨ b = '\r'.toUInt8 ∨ b = 0).reverse

/-- The log behind one more line. A line of which nothing is left without its end, or only what the
last entry is, is not accepted. An entry is cut to the 127 bytes that fit a row. -/
def accept (log : List Bytes) (line : Bytes) : List Bytes :=
  if stripped line = [] ∨ log.getLast? = some (stripped line) then log
  else log ++ [(stripped line).take (HISTORY_LINE_MAX - 1)]

/-- The log of the lines that are accepted. -/
def accepted (lines : List Bytes) : List Bytes := lines.foldl accept []

namespace History

/-- The history behind `k` calls of `nav_up`. -/
def ups (h : History) : Nat → History
  | 0 => h
  | k + 1 => (h.ups k).navUp.2

/-- The line is one reference `!-k` and nothing else. -/
def IsBack (line : Bytes) (k : Nat) : Prop := referenceAt line 0 = some (.back k, line.length)

/-- The byte of a digit. -/
def digitByte (d : Nat) : UInt8 := '0'.toUInt8 + UInt8.ofNat d

/-- A number as the user writes it. -/
def decimal (k : Nat) : Bytes := (Nat.digits 10 k).reverse.map digitByte

/-- Every way to the `k`-th line from the end leads to `e`. These are the presses of the up arrow,
the reference `!-k` by itself and as a line, `history_get`, and for the last entry
`history_last`. -/
structure Recalls (h : History) (k : Nat) (e : Bytes) : Prop where
  /-- The last of `k` calls of `nav_up`. -/
  up : (h.navReset.ups (k - 1)).navUp.1 = some e
  slot : h.replace (.back k) = (e, none)
  expand : ∀ line, IsBack line k → (historyExpand h line).1.items = e
  get : h.get (min h.count HISTORY_SIZE + 1 - k) = some e
  last : k = 1 → h.last = some e

/-- No way leads to a `k`-th line from the end. The ways are the same as in `Recalls`, and each of
them ends without an entry. -/
structure Exhausted (h : History) (k : Nat) : Prop where
  up : (h.navReset.ups (k - 1)).navUp.1 = none
  slot : h.replace (.back k) = ([], some (bytes "history index out of range"))
  expand : ∀ line, IsBack line k → (historyExpand h line).1.items = []

end History

end OnyxShell
