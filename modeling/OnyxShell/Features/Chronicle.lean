import OnyxShell.Features.History

/-!
# `OnyxShell.Features.Chronicle`: the history entries in the order in which they came

A `Chronicle` is a history beside the rows that it has written, in the order in which they
were last written. `entries` are the stored entries, the oldest first. The counter of the
ring stops at `USIZE_MAX`, and from then on all entries go to one row, so the order cannot
be read off the ring alone.

`GetsExactly`, `Settles` and `Navigates` are what the rest of the shell relies on: that a
number leads to its entry, that a repeated line is no new entry, and that the arrows move
along the entries.
-/

set_option autoImplicit false

namespace OnyxShell

/-- A history, its rows in the order in which they were last written (each with its number),
and the number of entries that have been stored. -/
structure Chronicle where
  history : History
  rows : List (Nat × Bytes)
  stored : Nat

namespace Chronicle

/-- The start of the program. -/
def start : Chronicle := ⟨History.init, [], 0⟩

/-- The stored entries, the oldest first. -/
def entries (c : Chronicle) : List Bytes := c.rows.map Prod.snd

/-- `history_push`, with the row that it writes. -/
def push (c : Chronicle) (line : Bytes) : Chronicle :=
  if stripEnd line = [] ∨ c.history.last = some (stripEnd line) then
    { c with history := c.history.push line }
  else
    ⟨c.history.push line,
      RingBuffer.rewritten c.rows (c.history.count % HISTORY_SIZE)
        ((stripEnd line).take (HISTORY_LINE_MAX - 1)),
      c.stored + 1⟩

/-! ### Numbers -/

/-- `history_get` finds an entry exactly for a number of a stored entry, counted from the
oldest, and then this entry. -/
def GetsExactly (c : Chronicle) (n : UInt64) : Prop :=
  ((c.history.get n.toNat).isSome ↔ 1 ≤ n.toNat ∧ n.toNat ≤ c.entries.length) ∧
  (1 ≤ n.toNat → n.toNat ≤ c.entries.length →
    c.history.get n.toNat = c.entries[n.toNat - 1]?)

/-- The sum of the number and of the entries that are gone is a word. Once the counter has
stopped, the numbers are one off, so the entry has to be the same as the one before it (the
newest stands before the oldest). -/
def IndexFits (c : Chronicle) (n : UInt64) : Prop :=
  (n.toNat = 0 ∨ c.history.count - min c.history.count HISTORY_SIZE + (n.toNat - 1) ≤ USIZE_MAX) ∧
  (c.stored > USIZE_MAX → 1 ≤ n.toNat → n.toNat ≤ c.entries.length →
    c.entries[(n.toNat + 14) % HISTORY_SIZE]? = c.entries[n.toNat - 1]?)

/-! ### Repeated lines -/

/-- The line pushed twice is the line pushed once, and leaves no two equal entries one
behind the other. -/
def Settles (c : Chronicle) (line : Bytes) : Prop :=
  (c.history.push line).push line = c.history.push line ∧
  (c.push line).entries.IsChain (· ≠ ·)

/-- The line fits a row. A longer one is compared whole and stored cut, so it only settles
at the end of the counter: the cut line differs from the last entry, and its second push
writes to the same row, or to the next one, which holds it already. -/
def FitsRow (c : Chronicle) (line : Bytes) : Prop :=
  (stripEnd line).length < HISTORY_LINE_MAX ∨
  c.history.last ≠ some ((stripEnd line).take (HISTORY_LINE_MAX - 1)) ∧
    (c.history.count = USIZE_MAX ∨
      c.history.count + 1 = USIZE_MAX ∧
        c.history.ring.item USIZE_MAX = (stripEnd line).take (HISTORY_LINE_MAX - 1))

/-- Every push of a run has the property, in the state that it meets. -/
def EachPush (P : Chronicle → Bytes → Prop) (c : Chronicle) : List Bytes → Prop
  | [] => True
  | line :: lines => P c line ∧ EachPush P (c.push line) lines

end Chronicle

/-! ### Navigation -/

/-- A call of `history.rs` that changes the history or its cursor. -/
inductive HistoryCall
  /-- `history_push(line)`. -/
  | push (line : Bytes)
  | navReset
  | navUp
  | navDown
deriving DecidableEq, Repr

/-- The call stores lines. -/
def HistoryCall.isPush : HistoryCall → Bool
  | .push _ => true
  | _ => false

namespace Chronicle

/-- What a call returns, and the chronicle behind it. -/
def call (c : Chronicle) : HistoryCall → Option Bytes × Chronicle
  | .push line => (none, c.push line)
  | .navReset => (none, { c with history := c.history.navReset })
  | .navUp => (c.history.navUp.1, { c with history := c.history.navUp.2 })
  | .navDown => (c.history.navDown.1, { c with history := c.history.navDown.2 })

/-- The chronicle behind a run of calls. -/
def ofCalls (calls : List HistoryCall) : Chronicle := calls.foldl (fun c k => (c.call k).2) start

/-- `G_NAV_CURSOR`. -/
abbrev cursor (c : Chronicle) : Int := c.history.navCursor

/-- The cursor is the place of the entry shown, counted from the newest, or -1. -/
structure Navigates (c : Chronicle) : Prop where
  stored : c.entries.length = min c.history.count HISTORY_SIZE
  bounds : -1 ≤ c.cursor ∧ c.cursor ≤ (c.entries.length : Int) - 1
  empty : c.entries.length = 0 → c.cursor = -1
  /-- `G_HISTORY_COUNT - 1 - cursor` does not underflow. -/
  inRange : 0 ≤ c.cursor → c.cursor.toNat + 1 ≤ c.history.count
  /-- What a call returns is the entry at the cursor. -/
  returned : ∀ k e c', c.call k = (some e, c') →
    0 ≤ c'.cursor ∧ c'.cursor.toNat < c'.entries.length ∧ c'.cursor.toNat + 1 ≤ c'.history.count ∧
    c'.entries.reverse[c'.cursor.toNat]? = some e
  /-- Up and down again from an entry leads back to it. -/
  upDown : ∀ e c', 0 ≤ c.cursor → c.call .navUp = (some e, c') →
    c'.call .navDown = (c.entries.reverse[c.cursor.toNat]?, c)
  /-- The entry that a call has shown comes back. -/
  shown : ∀ k e c' e' c'', c.call k = (some e, c') → c'.call .navUp = (some e', c'') →
    c''.call .navDown = (some e, c')
  oldest : c.cursor = (c.entries.length : Int) - 1 → c.call .navUp = (none, c)

end Chronicle

end OnyxShell
