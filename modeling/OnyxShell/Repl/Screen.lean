import OnyxShell.Lib.TerminalRow
import OnyxShell.Repl.Text

/-!
# `OnyxShell.Repl.Screen`: what the terminal shows

`raw_mode_repl` draws the line itself: each key writes the bytes that should change the row on
the screen as the key changes the buffer. `InStep` is what the row should show.

`EditKey` are the keys that edit the line in its place, and `RecallKey` the two that put an entry
of the history there. Both are whole keys, as a terminal sends them.
-/

set_option autoImplicit false

namespace OnyxShell

/-- A key that edits the line. -/
inductive EditKey
  | print (b : UInt8) (h : TerminalRow.Printable b)
  | erase (b : UInt8) (h : b = 0x7F ∨ b = 0x08)
  | left
  | right

namespace EditKey

/-- The bytes of a key. -/
def bytes : EditKey → Bytes
  | print b _ => [b]
  | erase b _ => [b]
  | left => [ESC, '['.toUInt8, 'D'.toUInt8]
  | right => [ESC, '['.toUInt8, 'C'.toUInt8]

/-- What the prompt does for a key. -/
def press : EditKey → Typing → Typing
  | print b _, t => t.insert b
  | erase _ _, t => t.backspace
  | left, t => t.left
  | right, t => t.right

end EditKey

/-- The bytes of some keys. -/
def typed (keys : List EditKey) : Bytes := keys.flatMap EditKey.bytes

/-- A key that recalls an entry. -/
inductive RecallKey
  | up
  | down
deriving DecidableEq, Repr

namespace RecallKey

/-- The bytes of a key. -/
def bytes : RecallKey → Bytes
  | up => [ESC, '['.toUInt8, 'A'.toUInt8]
  | down => [ESC, '['.toUInt8, 'B'.toUInt8]

/-- What the prompt does for a key. -/
def press : RecallKey → Typing → Typing
  | up, t => t.up
  | down, t => t.down

/-- The line behind the key: the entry, nothing behind the newest one, and the same line before
the oldest one. -/
def recalled : RecallKey → Typing → Bytes
  | up, t => t.history.navUp.1.getD t.editor.text
  | down, t => t.history.navDown.1.getD []

end RecallKey

/-- The row shows the prompt and the line, with the cursor where it is in the line. The columns
are counted from the prompt on, and behind the line the row is blank. -/
structure InStep (row : TerminalRow) (e : Editor) : Prop where
  shows : row.Shows (PROMPT ++ e.text)
  col : row.col = PROMPT.length + e.cursor
  mode : row.mode = .ground

/-- The row that is begun behind the output `start`. -/
def rowSince (start out : Bytes) : TerminalRow := TerminalRow.empty.feed (out.drop start.length)

end OnyxShell
