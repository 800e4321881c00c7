import OnyxShell.Eval
import OnyxShell.Features.Service.Complete

/-!
# `OnyxShell.Repl.Editor`: the line editor of the raw prompt

The variables `line`, `line_len` and `cursor` of `raw_mode_repl` in `src/repl/raw.rs`, and
what each key does to them. The bounds are fields of `Editor`, so every access of the line
buffer below is inside it. A key also writes to the terminal, and the arrow keys move the
history cursor. The state of all this is `Typing`.
-/

set_option autoImplicit false

namespace OnyxShell

/-- The line buffer, the length of the line in it, and the cursor. -/
structure Editor where
  line : Vector UInt8 LINE_MAX
  lineLen : Nat
  cursor : Nat
  lineLen_lt : lineLen < LINE_MAX
  cursor_le : cursor ≤ lineLen

/-- `repl::PROMPT`. -/
def PROMPT : Bytes := bytes "osh$ "

/-- `\x1B`. -/
def ESC : UInt8 := 0x1B

/-- `\x1B[C`. -/
def cursorRight : Bytes := [ESC, '['.toUInt8, 'C'.toUInt8]

/-- `\x1B[D`. -/
def cursorLeft : Bytes := [ESC, '['.toUInt8, 'D'.toUInt8]

/-- `n` times `\x1B[D`. -/
def cursorsLeft (n : Nat) : Bytes := (List.replicate n cursorLeft).flatten

/-- `raw::clear_line`. -/
def clearLine (line : Bytes) : Bytes :=
  bytes "\r" ++ List.replicate line.length ' '.toUInt8 ++ bytes "\r"

namespace Editor

/-- `&line[..line_len]`. -/
def text (e : Editor) : Bytes := e.line.toList.take e.lineLen

/-- `&line[from..line_len]`. -/
def textFrom (e : Editor) (start : Nat) : Bytes := e.text.drop start

/-- There is room in the line buffer. -/
theorem start_lt : 0 < LINE_MAX := by decide

/-- The cursor of an empty line is in it. -/
theorem start_le : (0 : Nat) ≤ 0 := Nat.le_refl 0

/-- The empty line. The buffer keeps its bytes. -/
def empty (e : Editor) : Editor := ⟨e.line, 0, 0, start_lt, start_le⟩

/-- Copies `src`, up to the length of a line, to the start of the buffer. -/
def load (e : Editor) (src : Bytes) (cursor : Nat) : Editor where
  line := e.line.mapIdx fun i b => ((src.take (LINE_MAX - 1))[i]?).getD b
  lineLen := min src.length (LINE_MAX - 1)
  cursor := min cursor (min src.length (LINE_MAX - 1))
  lineLen_lt := Nat.lt_of_le_of_lt (Nat.min_le_right _ _) (by decide)
  cursor_le := Nat.min_le_right _ _

/-- `for j in (cursor..k).rev() { line[j + 1] = line[j]; }`. -/
def openGap (line : Vector UInt8 LINE_MAX) (cursor : Nat) :
    (k : Nat) → k < LINE_MAX → Vector UInt8 LINE_MAX
  | 0, _ => line
  | j + 1, h =>
    if cursor ≤ j then
      openGap (line.set (j + 1) (line.get ⟨j, Nat.lt_of_succ_lt h⟩) h) cursor j (Nat.lt_of_succ_lt h)
    else line

/-- `for j in j..stop { line[j] = line[j + 1]; }`. -/
def closeGap (line : Vector UInt8 LINE_MAX) (j stop : Nat) (h : stop < LINE_MAX) :
    Vector UInt8 LINE_MAX :=
  if hj : j < stop then
    closeGap (line.set j (line.get ⟨j + 1, Nat.lt_of_le_of_lt hj h⟩) (Nat.lt_trans hj h)) (j + 1)
      stop h
  else line
termination_by stop - j

/-- A printable byte: the line with it, if there is room. -/
def insert (e : Editor) (c : UInt8) : Editor :=
  if h : e.lineLen < LINE_MAX - 1 then
    { line := (openGap e.line e.cursor e.lineLen e.lineLen_lt).set e.cursor c
        (Nat.lt_of_le_of_lt e.cursor_le e.lineLen_lt)
      lineLen := e.lineLen + 1
      cursor := e.cursor + 1
      lineLen_lt := Nat.add_lt_of_lt_sub h
      cursor_le := Nat.succ_le_succ e.cursor_le }
  else e

/-- Backspace. -/
def backspace (e : Editor) : Editor where
  line := closeGap e.line (e.cursor - 1) e.lineLen e.lineLen_lt
  lineLen := e.lineLen - 1
  cursor := e.cursor - 1
  lineLen_lt := Nat.lt_of_le_of_lt (Nat.sub_le _ _) e.lineLen_lt
  cursor_le := Nat.sub_le_sub_right e.cursor_le 1

end Editor

/-- What the keys of one line work on: the editor, the history, and the terminal. -/
structure Typing where
  editor : Editor
  history : History
  out : Bytes

namespace Typing

/-- Writes to the terminal. -/
def write (t : Typing) (b : Bytes) : Typing := { t with out := t.out ++ b }

/-- Puts a history entry in place of the line. -/
def recallEntry (t : Typing) (entry : Bytes) : Typing :=
  let editor := t.editor.load entry entry.length
  { t with editor := editor, out := t.out ++ clearLine t.editor.text ++ editor.text }

/-- The Up key. -/
def up (t : Typing) : Typing :=
  match t.history.navUp with
  | (none, history) => { t with history := history }
  | (some entry, history) => { t with history := history }.recallEntry entry

/-- The Down key. Out of the history, the line is empty. -/
def down (t : Typing) : Typing :=
  match t.history.navDown with
  | (some entry, history) => { t with history := history }.recallEntry entry
  | (none, history) =>
    { t with history := history, editor := t.editor.empty
             out := t.out ++ clearLine t.editor.text }

/-- The Right key. -/
def right (t : Typing) : Typing :=
  if h : t.editor.cursor < t.editor.lineLen then
    { t with editor := { t.editor with cursor := t.editor.cursor + 1, cursor_le := h } }.write
      cursorRight
  else t

/-- The Left key. -/
def left (t : Typing) : Typing :=
  if t.editor.cursor > 0 then
    { t with editor := { t.editor with cursor := t.editor.cursor - 1
                                       cursor_le := Nat.le_trans (Nat.sub_le _ _)
                                         t.editor.cursor_le } }.write cursorLeft
  else t

/-- Backspace, and the rest of the line drawn again. -/
def backspace (t : Typing) : Typing :=
  if t.editor.cursor > 0 then
    let editor := t.editor.backspace
    { t with editor := editor }.write (cursorLeft ++ editor.textFrom editor.cursor ++ bytes " " ++
      cursorsLeft (editor.lineLen - editor.cursor + 1))
  else t

/-- A printable byte, and the rest of the line drawn again. -/
def insert (t : Typing) (c : UInt8) : Typing :=
  if t.editor.lineLen < LINE_MAX - 1 then
    let editor := t.editor.insert c
    { t with editor := editor }.write (editor.textFrom t.editor.cursor ++
      cursorsLeft (editor.lineLen - editor.cursor))
  else t

/-- The Tab key. -/
def complete (t : Typing) (listing : Listing) : Typing :=
  let result := tabComplete listing t.editor.text t.editor.cursor
  let editor := t.editor.load result.line.items result.cursor
  { t with editor := editor }.write (result.output ++ clearLine t.editor.text ++
    (if result.printed then PROMPT else []) ++ editor.text ++
    cursorsLeft (editor.lineLen - editor.cursor))

end Typing

end OnyxShell
