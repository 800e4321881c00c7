import Mathlib.Data.List.Induction

/-!
# `OnyxShell.Lib.TerminalRow`: one row of a terminal

A row without an end that bytes are written to: printable bytes overwrite and advance, CR goes
back to the start, and `ESC [ C` and `ESC [ D` move by one column. `feed` is a row behind some
bytes.

`Displays left right` says what a row shows, cut at its column. Each kind of output has one rule
for it: text takes the place of as much of `right`, and the moves shift the cut.
-/

set_option autoImplicit false

/-- How far an escape sequence has come. -/
inductive EscapeMode
  | ground
  | escape
  | bracket
deriving DecidableEq, Repr

/-- A row, the column in it, and the escape sequence that is being read. -/
structure TerminalRow where
  cells : Nat → UInt8
  col : Nat
  mode : EscapeMode

namespace TerminalRow

/-- A cell that nothing is written to. -/
def blank : UInt8 := 0x20

/-- A byte that is shown. -/
def Printable (b : UInt8) : Prop := 0x20 ≤ b ∧ b < 0x7F

instance (b : UInt8) : Decidable (Printable b) := inferInstanceAs (Decidable (_ ∧ _))

/-- A row with nothing in it. -/
def empty : TerminalRow := ⟨fun _ => blank, 0, .ground⟩

/-- A byte in the cell of the column. -/
def put (row : TerminalRow) (b : UInt8) : TerminalRow :=
  { row with cells := fun i => if i = row.col then b else row.cells i, col := row.col + 1 }

/-- One byte of output. A sequence that is none of the two moves does nothing. -/
def step (row : TerminalRow) (b : UInt8) : TerminalRow :=
  match row.mode with
  | .ground =>
    if b = 0x1B then { row with mode := .escape }
    else if b = 0x0D then { row with col := 0 }
    else if Printable b then row.put b
    else row
  | .escape => { row with mode := if b = 0x5B then .bracket else .ground }
  | .bracket =>
    if b = 0x43 then { row with col := row.col + 1, mode := .ground }
    else if b = 0x44 then { row with col := row.col - 1, mode := .ground }
    else { row with mode := .ground }

/-- The row behind some output. -/
def feed (row : TerminalRow) (output : List UInt8) : TerminalRow := output.foldl step row

/-- `ESC [ C`. -/
def rightMove : List UInt8 := [0x1B, 0x5B, 0x43]

/-- `ESC [ D`. -/
def leftMove : List UInt8 := [0x1B, 0x5B, 0x44]

/-- `n` times `ESC [ D`. -/
def leftMoves (n : Nat) : List UInt8 := (List.replicate n leftMove).flatten

/-- The row shows this text, and only blanks behind it. -/
def Shows (row : TerminalRow) (text : List UInt8) : Prop :=
  ∀ i, row.cells i = ((text)[i]?).getD blank

/-- The row shows `left` before its column and `right` from there on. -/
structure Displays (row : TerminalRow) (left right : List UInt8) : Prop where
  shows : row.Shows (left ++ right)
  col : row.col = left.length
  mode : row.mode = .ground

/-- Output in two pieces. -/
theorem feed_append (row : TerminalRow) (xs ys : List UInt8) :
    row.feed (xs ++ ys) = (row.feed xs).feed ys := List.foldl_append

/-- Output byte by byte. -/
theorem feed_cons (row : TerminalRow) (b : UInt8) (output : List UInt8) :
    row.feed (b :: output) = (row.step b).feed output := rfl

/-- The empty row displays nothing, with the cursor at its start. -/
theorem displays_empty : empty.Displays [] [] := ⟨fun _ => rfl, rfl, rfl⟩

/-- No output leads further than it is long. -/
theorem col_feed_le (row : TerminalRow) (output : List UInt8) :
    (row.feed output).col ≤ row.col + output.length := by
  induction output generalizing row with
  | nil => exact Nat.le_refl _
  | cons b output ih =>
    have hstep : (row.step b).col ≤ row.col + 1 := by
      rw [step]
      split
      · split_ifs
        · exact Nat.le_succ _
        · exact Nat.zero_le _
        · exact Nat.le_refl _
        · exact Nat.le_succ _
      · exact Nat.le_succ _
      · split_ifs
        · exact Nat.le_refl _
        · exact Nat.le_succ_of_le (Nat.sub_le _ _)
        · exact Nat.le_succ _
    rw [feed_cons, List.length_cons]
    exact Nat.le_trans (ih _) (by omega)

section Rules

variable {row : TerminalRow} {left right : List UInt8}

/-- A printable byte is put at the cursor, unless it stands in an escape sequence. -/
theorem step_of_printable (hmode : row.mode = .ground) {b : UInt8} (hb : Printable b) :
    row.step b = row.put b := by
  have hesc : b ≠ 0x1B := fun h => absurd hb (by rw [h]; decide)
  have hcr : b ≠ 0x0D := fun h => absurd hb (by rw [h]; decide)
  rw [step, hmode]
  dsimp only
  rw [if_neg hesc, if_neg hcr, if_pos hb]

/-- A byte that is put replaces what was at the cursor and moves it on. -/
theorem displays_put (h : row.Displays left right) (b : UInt8) :
    (row.put b).Displays (left ++ [b]) (right.drop 1) where
  shows := by
    intro i
    show (if i = row.col then b else row.cells i) = _
    rw [h.shows i, h.col, List.append_assoc]
    -- Before the column nothing changes, and behind it `right` has lost its first byte.
    rcases Nat.lt_trichotomy i left.length with hi | hi | hi
    · rw [if_neg (by omega), List.getElem?_append_left hi, List.getElem?_append_left hi]
    · rw [if_pos hi, List.getElem?_append_right (by omega), hi, Nat.sub_self]
      rfl
    · have hindex : i - left.length = i - left.length - 1 + 1 := by omega
      rw [if_neg (by omega), List.getElem?_append_right (by omega),
        List.getElem?_append_right (by omega), List.singleton_append, hindex,
        List.getElem?_cons_succ, List.getElem?_drop, Nat.add_comm 1]
  col := by
    show row.col + 1 = _
    rw [h.col, List.length_append, List.length_singleton]
  mode := h.mode

/-- **Text** takes the place of as much text. -/
theorem displays_text (h : row.Displays left right) {text : List UInt8}
    (htext : ∀ b ∈ text, Printable b) :
    (row.feed text).Displays (left ++ text) (right.drop text.length) := by
  induction text generalizing row left right with
  | nil => rwa [List.append_nil, List.length_nil, List.drop_zero]
  | cons b text ih =>
    have hput := displays_put h b
    have hrest := ih hput fun c hc => htext c (List.mem_cons_of_mem b hc)
    rw [feed_cons, step_of_printable h.mode (htext b List.mem_cons_self)]
    rw [List.append_assoc, List.singleton_append, List.drop_drop] at hrest
    rw [List.length_cons, Nat.add_comm]
    exact hrest

/-- **CR** goes to the start. -/
theorem displays_return (h : row.Displays left right) :
    (row.feed [0x0D]).Displays [] (left ++ right) := by
  have hstep : row.feed [0x0D] = { row with col := 0 } := by
    rw [feed_cons, step, h.mode]
    rfl
  rw [hstep]
  exact ⟨h.shows, rfl, h.mode⟩

/-- The sequence for a move to the right moves the cursor over one byte. -/
theorem displays_rightMove {b : UInt8} (h : row.Displays left (b :: right)) :
    (row.feed rightMove).Displays (left ++ [b]) right := by
  have hstep : row.feed rightMove = { row with col := row.col + 1, mode := .ground } := by
    rw [rightMove, feed_cons, step, h.mode]
    rfl
  rw [hstep]
  refine ⟨?_, ?_, rfl⟩
  · intro i
    rw [List.append_assoc]
    exact h.shows i
  · show row.col + 1 = _
    rw [h.col, List.length_append, List.length_singleton]

/-- The sequence for a move to the left moves it back. -/
theorem displays_leftMove {b : UInt8} (h : row.Displays (left ++ [b]) right) :
    (row.feed leftMove).Displays left (b :: right) := by
  have hstep : row.feed leftMove = { row with col := row.col - 1, mode := .ground } := by
    rw [leftMove, feed_cons, step, h.mode]
    rfl
  rw [hstep]
  refine ⟨?_, ?_, rfl⟩
  · intro i
    have hi := h.shows i
    rw [List.append_assoc] at hi
    exact hi
  · show row.col - 1 = _
    rw [h.col, List.length_append, List.length_singleton, Nat.add_sub_cancel]

/-- **Moves to the left** put the cut in front of as many bytes. -/
theorem displays_leftMoves {mid : List UInt8} (h : row.Displays (left ++ mid) right) :
    (row.feed (leftMoves mid.length)).Displays left (mid ++ right) := by
  induction mid using List.reverseRecOn generalizing row right with
  | nil => rwa [List.append_nil] at h
  | append_singleton mid b ih =>
    -- The first move passes the last byte.
    rw [← List.append_assoc] at h
    rw [List.length_append, List.length_singleton, leftMoves, List.replicate_succ,
      List.flatten_cons, feed_append, List.append_assoc]
    exact ih (displays_leftMove h)

/-- **Drawing the rest of a row again**: text over all of `right`, and back in front of the last
part of it. -/
theorem displays_redraw (h : row.Displays left right) {front back : List UInt8}
    (htext : ∀ b ∈ front ++ back, Printable b) (hlen : right.length ≤ (front ++ back).length) :
    (row.feed (front ++ back ++ leftMoves back.length)).Displays (left ++ front) back := by
  have hwritten := displays_text h htext
  rw [List.drop_eq_nil_of_le hlen, ← List.append_assoc] at hwritten
  have hback := displays_leftMoves hwritten
  rw [List.append_nil, ← feed_append] at hback
  exact hback

/-- A blank at the end is as good as none. -/
theorem displays_concat_blank (h : row.Displays left (right ++ [blank])) :
    row.Displays left right := by
  refine ⟨?_, h.col, h.mode⟩
  intro i
  rw [h.shows i, ← List.append_assoc, List.getElem?_append]
  split
  · rfl
  · -- The blank itself, or a cell behind it.
    rename_i hi
    rw [List.getElem?_eq_none (Nat.le_of_not_lt hi)]
    cases i - (left ++ right).length with
    | zero => rfl
    | succ k => rfl

end Rules

end TerminalRow
