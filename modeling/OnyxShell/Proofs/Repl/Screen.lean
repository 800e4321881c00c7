import OnyxShell.Proofs.Repl.Sequence
import OnyxShell.Proofs.Repl.Text
import OnyxShell.Repl.Screen

/-!
# `OnyxShell.Proofs.Repl.Screen`: the screen and the buffer

`editing_inStep`: behind every key that edits the line the row shows it, with the cursor at its
place. The rules of `TerminalRow.Displays` follow the output of a key, and `view_insert` and its
like follow the buffer.
-/

set_option autoImplicit false

namespace OnyxShell

open TerminalRow (Printable)

/-! ### The row and the line -/

/-- Being in step, with the line cut at the cursor. -/
theorem inStep_iff {row : TerminalRow} {e : Editor} :
    InStep row e ↔ row.Displays (PROMPT ++ e.view.left) e.view.right := by
  have htext : PROMPT ++ e.view.left ++ e.view.right = PROMPT ++ e.text := by
    rw [List.append_assoc]
    exact congrArg (PROMPT ++ ·) e.whole_view
  have hcol : (PROMPT ++ e.view.left).length = PROMPT.length + e.cursor := by
    rw [List.length_append, e.length_left_view]
  constructor
  · intro h
    exact ⟨htext ▸ h.shows, h.col.trans hcol.symm, h.mode⟩
  · intro h
    exact ⟨htext ▸ h.shows, h.col.trans hcol, h.mode⟩

/-- The text behind the cursor is what the line has beyond it. -/
theorem Editor.length_right_view (e : Editor) : e.view.right.length = e.lineLen - e.cursor := by
  rw [Editor.view, Zipper.cut, List.length_drop, Editor.length_text]

/-- A cursor that is not at the start is behind a byte. -/
theorem Editor.exists_view_concat {e : Editor} (h : e.cursor > 0) :
    ∃ left b right, e.view = ⟨left ++ [b], right⟩ := by
  have hne : e.view.left ≠ [] := by
    rw [← List.length_pos_iff, e.length_left_view]
    exact h
  exact ⟨e.view.left.dropLast, e.view.left.getLast hne, e.view.right, by
    rw [List.dropLast_append_getLast]⟩

/-! ### One key -/

/-- The output of a key takes a row that is in step before it to one that is in step behind it. -/
def Redraws (t t' : Typing) : Prop :=
  ∀ row, InStep row t.editor → ∃ output, t'.out = t.out ++ output ∧ InStep (row.feed output) t'.editor

/-- A key that does nothing redraws nothing. -/
theorem redraws_self (t : Typing) : Redraws t t :=
  fun _ h => ⟨[], (List.append_nil _).symm, h⟩

/-- The left arrow moves the terminal's cursor by one, unless it is at the start. -/
theorem redraws_left (t : Typing) : Redraws t t.left := by
  intro row hrow
  have hview : t.left.editor.view = t.editor.view.moveLeft := congrArg Prod.fst t.view_left
  by_cases hcursor : t.editor.cursor > 0
  · have hout : t.left.out = t.out ++ cursorLeft := by
      rw [Typing.left, if_pos hcursor]
      rfl
    rcases Editor.exists_view_concat hcursor with ⟨left, b, right, hcut⟩
    rw [inStep_iff, hcut, ← List.append_assoc] at hrow
    refine ⟨cursorLeft, hout, inStep_iff.mpr ?_⟩
    rw [hview, hcut, Zipper.moveLeft_concat]
    exact TerminalRow.displays_leftMove hrow
  · have hsame : t.left = t := by rw [Typing.left, if_neg hcursor]
    rw [hsame]
    exact redraws_self t row hrow

/-- The right arrow moves the terminal's cursor by one, unless it is at the end. -/
theorem redraws_right (t : Typing) : Redraws t t.right := by
  intro row hrow
  have hview : t.right.editor.view = t.editor.view.moveRight := congrArg Prod.fst t.view_right
  by_cases hcursor : t.editor.cursor < t.editor.lineLen
  · have hout : t.right.out = t.out ++ cursorRight := by
      rw [Typing.right, dif_pos hcursor]
      rfl
    have hlen := t.editor.length_right_view
    rw [inStep_iff] at hrow
    refine ⟨cursorRight, hout, inStep_iff.mpr ?_⟩
    rw [hview]
    cases hcut : t.editor.view with
    | mk left right =>
      rw [hcut] at hrow hlen
      cases right with
      | nil =>
        rw [List.length_nil] at hlen
        omega
      | cons b right =>
        show (row.feed cursorRight).Displays (PROMPT ++ (left ++ [b])) right
        rw [← List.append_assoc]
        exact TerminalRow.displays_rightMove hrow
  · have hsame : t.right = t := by rw [Typing.right, dif_neg hcursor]
    rw [hsame]
    exact redraws_self t row hrow

/-- **A printable byte**: it and the text behind it are written, and the column goes back in front
of that text. -/
theorem redraws_insert (t : Typing) {c : UInt8} (hc : Printable c)
    (hprint : ∀ b ∈ t.editor.view.right, Printable b) : Redraws t (t.insert c) := by
  intro row hrow
  by_cases hroom : t.editor.lineLen < LINE_MAX - 1
  · have hview := Editor.view_insert hroom c
    have htail : (t.editor.insert c).textFrom t.editor.cursor = c :: t.editor.view.right := by
      rw [Editor.textFrom, ← Editor.whole_view, hview, Zipper.whole, Zipper.insert,
        List.append_assoc, ← t.editor.length_left_view, List.drop_left]
      rfl
    have hback : (t.editor.insert c).lineLen - (t.editor.insert c).cursor
        = t.editor.view.right.length := by
      rw [← Editor.length_right_view, hview]
      rfl
    have hinsert : t.insert c = { t with editor := t.editor.insert c }.write
        ([c] ++ t.editor.view.right ++ cursorsLeft t.editor.view.right.length) := by
      rw [Typing.insert, if_pos hroom, List.singleton_append, ← htail, ← hback]
    rw [hinsert]
    -- What is written is all the terminal is told of the new text.
    refine ⟨_, rfl, inStep_iff.mpr ?_⟩
    show (row.feed _).Displays (PROMPT ++ (t.editor.insert c).view.left)
      (t.editor.insert c).view.right
    rw [hview, Zipper.insert, ← List.append_assoc]
    apply TerminalRow.displays_redraw (inStep_iff.mp hrow)
    · intro b hb
      rw [List.singleton_append, List.mem_cons] at hb
      rcases hb with rfl | hb
      · exact hc
      · exact hprint b hb
    · rw [List.length_append]
      exact Nat.le_add_left _ _
  · -- A full line takes nothing, and nothing is written.
    have hsame : t.insert c = t := by rw [Typing.insert, if_neg hroom]
    rw [hsame]
    exact redraws_self t row hrow

/-- **Backspace**: the column goes back, the text behind the cursor is written with a blank behind
it, and the column goes back in front of it. -/
theorem redraws_backspace (t : Typing) (hprint : ∀ b ∈ t.editor.view.right, Printable b) :
    Redraws t t.backspace := by
  intro row hrow
  by_cases hcursor : t.editor.cursor > 0
  · rcases Editor.exists_view_concat hcursor with ⟨left, b, right, hcut⟩
    rw [hcut] at hprint
    have hview : t.editor.backspace.view = ⟨left, right⟩ := by
      rw [Editor.view_backspace hcursor, hcut, Zipper.erase_concat]
    have htail : t.editor.backspace.textFrom t.editor.backspace.cursor = right :=
      congrArg Zipper.right hview
    have hback : t.editor.backspace.lineLen - t.editor.backspace.cursor = right.length := by
      rw [← Editor.length_right_view, hview]
    have herase : t.backspace = { t with editor := t.editor.backspace }.write
        (cursorLeft ++ right ++ bytes " " ++ cursorsLeft (right.length + 1)) := by
      rw [Typing.backspace, if_pos hcursor]
      dsimp only
      rw [htail, hback]
    rw [inStep_iff, hcut, ← List.append_assoc] at hrow
    rw [herase]
    refine ⟨_, rfl, inStep_iff.mpr ?_⟩
    show (row.feed _).Displays (PROMPT ++ t.editor.backspace.view.left)
      t.editor.backspace.view.right
    rw [hview]
    have hblank : bytes " " = [TerminalRow.blank] := by decide
    -- The line is a byte shorter than what the row shows, and the blank makes up for it.
    have hdrawn : ((row.feed cursorLeft).feed ([] ++ (right ++ [TerminalRow.blank])
        ++ TerminalRow.leftMoves (right ++ [TerminalRow.blank]).length)).Displays
          (PROMPT ++ left ++ []) (right ++ [TerminalRow.blank]) := by
      apply TerminalRow.displays_redraw (TerminalRow.displays_leftMove hrow)
      · intro x hx
        rw [List.nil_append, List.mem_append, List.mem_singleton] at hx
        rcases hx with hx | rfl
        · exact hprint x hx
        · decide
      · rw [List.nil_append, List.length_append, List.length_cons, List.length_singleton]
    rw [List.append_nil, List.nil_append, ← TerminalRow.feed_append, List.length_append] at hdrawn
    rw [List.append_assoc, List.append_assoc, hblank, ← List.append_assoc right]
    exact TerminalRow.displays_concat_blank hdrawn
  · have hsame : t.backspace = t := by rw [Typing.backspace, if_neg hcursor]
    rw [hsame]
    exact redraws_self t row hrow

/-! ### One line -/

/-- The invariant of a line that is being typed on a row of its own: what is shown from `start` on
is the line, and the line is printable. -/
structure Drawn (start : Bytes) (t : Typing) : Prop where
  length_le : start.length ≤ t.out.length
  inStep : InStep (rowSince start t.out) t.editor
  printable : ∀ b ∈ t.editor.text, Printable b

/-- More output is fed to the row that there was. -/
theorem rowSince_append {start out : Bytes} (h : start.length ≤ out.length) (output : Bytes) :
    rowSince start (out ++ output) = (rowSince start out).feed output := by
  rw [rowSince, rowSince, List.drop_append_of_le_length h, TerminalRow.feed_append]

namespace EditKey

/-- Every editing key brings row and buffer to the same state, one lemma for each key. -/
theorem redraws_press (k : EditKey) {t : Typing} (h : ∀ b ∈ t.editor.text, Printable b) :
    Redraws t (k.press t) := by
  have hright : ∀ b ∈ t.editor.view.right, Printable b :=
    fun b hb => h b (List.mem_of_mem_drop hb)
  cases k with
  | print c hc => exact redraws_insert t hc hright
  | erase b hb => exact redraws_backspace t hright
  | left => exact redraws_left t
  | right => exact redraws_right t

/-- Nothing but printable bytes comes into a line. -/
theorem printable_press (k : EditKey) {t : Typing} (h : ∀ b ∈ t.editor.text, Printable b) :
    ∀ b ∈ (k.press t).editor.text, Printable b := by
  have hwhole : ∀ b ∈ t.editor.view.whole, Printable b := by
    rw [t.editor.whole_view]
    exact h
  rw [← Editor.whole_view]
  cases k with
  | print c hc =>
    -- The byte itself is the only one that is new.
    have hview : (t.insert c).editor.view = _ := congrArg Prod.fst (t.view_insert c)
    rw [press, hview]
    dsimp only
    split
    · intro b hb
      rw [Zipper.whole, Zipper.insert, List.append_assoc, List.mem_append, List.mem_append,
        List.mem_singleton] at hb
      rcases hb with hb | rfl | hb
      · exact hwhole b (List.mem_append_left _ hb)
      · exact hc
      · exact hwhole b (List.mem_append_right _ hb)
    · exact hwhole
  | erase c hc =>
    have hview : t.backspace.editor.view = _ := congrArg Prod.fst t.view_backspace
    rw [press, hview]
    intro b hb
    rw [Zipper.whole, Zipper.erase, List.mem_append] at hb
    rcases hb with hb | hb
    · exact hwhole b (List.mem_append_left _ (List.dropLast_subset _ hb))
    · exact hwhole b (List.mem_append_right _ hb)
  | left =>
    have hview : t.left.editor.view = _ := congrArg Prod.fst t.view_left
    rw [press, hview, Zipper.whole_moveLeft]
    exact hwhole
  | right =>
    have hview : t.right.editor.view = _ := congrArg Prod.fst t.view_right
    rw [press, hview, Zipper.whole_moveRight]
    exact hwhole

/-- **One key.** -/
theorem drawn_press (k : EditKey) {start : Bytes} {t : Typing} (h : Drawn start t) :
    Drawn start (k.press t) := by
  rcases k.redraws_press h.printable _ h.inStep with ⟨output, hout, hrow⟩
  refine ⟨?_, ?_, k.printable_press h.printable⟩
  · rw [hout, List.length_append]
    exact Nat.le_trans h.length_le (Nat.le_add_right _ _)
  · rw [hout, rowSince_append h.length_le]
    exact hrow

/-- The key loop takes a whole key in one turn. -/
theorem exists_keyStep (listing : Listing) (k : EditKey) (more : Bytes) (t : Typing) :
    ∃ b rest skip, k.bytes ++ more = b :: rest ∧ keyStep listing b rest t = .next skip (k.press t) ∧
      rest.drop skip = more := by
  cases k with
  | print b hb =>
    refine ⟨b, more, 0, rfl, ?_, rfl⟩
    have hesc : b ≠ ESC := fun h => absurd hb (by rw [h]; decide)
    rw [keyStep_plain (startsWithArrow_of_ne hesc more),
      plainKey_of_printable listing t hb.1 hb.2]
    rfl
  | erase b hb =>
    refine ⟨b, more, 0, rfl, ?_, rfl⟩
    rcases hb with rfl | rfl
    · exact keyStep_plain (startsWithArrow_of_ne (by decide) more)
    · exact keyStep_plain (startsWithArrow_of_ne (by decide) more)
  | left => exact ⟨ESC, '['.toUInt8 :: 'D'.toUInt8 :: more, 2, rfl, rfl, rfl⟩
  | right => exact ⟨ESC, '['.toUInt8 :: 'C'.toUInt8 :: more, 2, rfl, rfl, rfl⟩

/-- The bytes of a key, and what is read behind them. -/
theorem readKeys_append (listing : Listing) (k : EditKey) (more : Bytes) (t : Typing) :
    readKeys listing (k.bytes ++ more) t = readKeys listing more (k.press t) := by
  rcases k.exists_keyStep listing more t with ⟨b, rest, skip, hbytes, hstep, hrest⟩
  rw [hbytes, readKeys, hstep, ← hrest]

/-- The states behind each key, the key's own first. -/
theorem keyStates_append (listing : Listing) (k : EditKey) (more : Bytes) (t : Typing) :
    keyStates listing (k.bytes ++ more) t = k.press t :: keyStates listing more (k.press t) := by
  rcases k.exists_keyStep listing more t with ⟨b, rest, skip, hbytes, hstep, hrest⟩
  rw [hbytes, keyStates, hstep, ← hrest]

end EditKey

/-- A read of whole keys. -/
theorem readKeys_typed (listing : Listing) (keys : List EditKey) {start : Bytes} {t : Typing}
    (h : Drawn start t) : ∃ t', readKeys listing (typed keys) t = .next 0 t' ∧ Drawn start t' := by
  induction keys generalizing t with
  | nil => exact ⟨t, by rw [typed, List.flatMap_nil, readKeys], h⟩
  | cons k keys ih =>
    rcases ih (k.drawn_press h) with ⟨t', hread, hdrawn⟩
    refine ⟨t', ?_, hdrawn⟩
    rw [typed, List.flatMap_cons, k.readKeys_append]
    exact hread

/-- There is one state for each key. -/
theorem keyStates_typed (listing : Listing) (keys : List EditKey) {start : Bytes} {t : Typing}
    (h : Drawn start t) :
    (keyStates listing (typed keys) t).length = keys.length ∧
      ∀ t' ∈ keyStates listing (typed keys) t, Drawn start t' := by
  induction keys generalizing t with
  | nil =>
    rw [typed, List.flatMap_nil, keyStates]
    exact ⟨rfl, fun t' ht' => absurd ht' List.not_mem_nil⟩
  | cons k keys ih =>
    rcases ih (k.drawn_press h) with ⟨hlen, hall⟩
    rw [typed, List.flatMap_cons, k.keyStates_append]
    refine ⟨congrArg (· + 1) hlen, ?_⟩
    intro t' ht'
    rcases List.mem_cons.mp ht' with rfl | ht'
    · exact k.drawn_press h
    · exact hall t' ht'

section Prompt

variable {σ : Type}

/-- The prompt is written on an empty row. -/
theorem drawn_prompt (r : Repl σ) : Drawn r.out r.prompt.typing where
  length_le := by
    show r.out.length ≤ (r.out ++ PROMPT).length
    rw [List.length_append]
    exact Nat.le_add_right _ _
  inStep := by
    have hrow : rowSince r.out r.prompt.out = TerminalRow.empty.feed PROMPT :=
      congrArg TerminalRow.empty.feed List.drop_left
    show InStep (rowSince r.out r.prompt.out) r.editor.empty
    rw [hrow, inStep_iff]
    exact TerminalRow.displays_text TerminalRow.displays_empty (by decide +kernel)
  printable := by
    have htext : r.editor.empty.text = [] := List.take_zero
    show ∀ b ∈ r.editor.empty.text, Printable b
    rw [htext]
    exact fun b hb => absurd hb List.not_mem_nil

/-- A run over several reads keeps row and buffer in step, by induction on the reads. -/
theorem drawn_run (sys : System σ) {start : Bytes} {r : Repl σ} (h : Drawn start r.typing)
    (reads : List (List EditKey)) :
    Drawn start (r.run sys (reads.map fun keys => some (typed keys))).typing := by
  induction reads generalizing r with
  | nil => exact h
  | cons keys reads ih =>
    refine ih (r := r.read sys (some (typed keys))) ?_
    rw [Repl.read]
    split
    · rcases readKeys_typed (r.listing sys) keys h with ⟨t', hread, hdrawn⟩
      rw [hread]
      exact hdrawn
    · exact h

/-- **The screen and the buffer stay in step while a line is edited**: behind every sequence of
whole keys typed at a prompt, however it is cut into reads, and behind every key of the next read,
the row that the prompt is on shows the line and the cursor. The terminal is a row of cells with a
cursor, which reads the output byte by byte. `Redraws` is what one key does to it, and `drawn_run`
carries it through a run. -/
theorem editing_inStep (sys : System σ) (r : Repl σ) (reads : List (List EditKey))
    (keys : List EditKey) :
    let r' := r.prompt.run sys (reads.map fun keys => some (typed keys))
    InStep (rowSince r.out r'.out) r'.editor ∧
      (keyStates (r'.listing sys) (typed keys) r'.typing).length = keys.length ∧
      ∀ t ∈ keyStates (r'.listing sys) (typed keys) r'.typing,
        InStep (rowSince r.out t.out) t.editor := by
  have hdrawn := drawn_run sys (drawn_prompt r) reads
  have hstates := keyStates_typed
    ((r.prompt.run sys (reads.map fun keys => some (typed keys))).listing sys) keys hdrawn
  exact ⟨hdrawn.inStep, hstates.1, fun t ht => (hstates.2 t ht).inStep⟩

end Prompt

/-! ### Recall -/

/-- What `clear_line` leaves: the row from its start, with as many blanks over it as the line has
bytes. -/
theorem displays_clearLine {row : TerminalRow} {left right : Bytes} (h : row.Displays left right)
    (line : Bytes) :
    (row.feed (clearLine line)).Displays []
      (List.replicate line.length TerminalRow.blank ++ (left ++ right).drop line.length) := by
  have hblank : ∀ b ∈ List.replicate line.length TerminalRow.blank, Printable b := by
    intro b hb
    rw [List.eq_of_mem_replicate hb]
    decide
  have hwritten := TerminalRow.displays_return
    (TerminalRow.displays_text (TerminalRow.displays_return h) hblank)
  rw [List.nil_append, List.length_replicate, ← TerminalRow.feed_append,
    ← TerminalRow.feed_append] at hwritten
  exact hwritten

/-- No text that is no longer than its cursor is in step where the prompt was cleared away. -/
theorem not_inStep_clearLine {row : TerminalRow} {e e' : Editor} (h : InStep row e)
    (line : Bytes) {text : Bytes} (htext : text.length ≤ e'.cursor) :
    ¬ InStep (row.feed (clearLine line ++ text)) e' := by
  intro hrow
  have hcleared := displays_clearLine (inStep_iff.mp h) line
  have hcol := TerminalRow.col_feed_le (row.feed (clearLine line)) text
  rw [← TerminalRow.feed_append, hrow.col, hcleared.col, List.length_nil] at hcol
  have hprompt : PROMPT.length = 5 := by decide
  omega

namespace RecallKey

/-- The bytes of an arrow that recalls, and what is read behind them. -/
theorem readKeys_append (listing : Listing) (k : RecallKey) (more : Bytes) (t : Typing) :
    readKeys listing (k.bytes ++ more) t = readKeys listing more (k.press t) := by
  cases k with
  | up =>
    show readKeys listing (ESC :: '['.toUInt8 :: 'A'.toUInt8 :: more) t = _
    rw [readKeys]
    rfl
  | down =>
    show readKeys listing (ESC :: '['.toUInt8 :: 'B'.toUInt8 :: more) t = _
    rw [readKeys]
    rfl

end RecallKey

/-- An entry is written where the prompt was. -/
theorem recallEntry_spec {t : Typing} {entry : Bytes} (hentry : entry.length < LINE_MAX) :
    (t.recallEntry entry).editor.text = entry ∧
      (t.recallEntry entry).out = t.out ++ (clearLine t.editor.text ++ entry) ∧
      entry.length ≤ (t.recallEntry entry).editor.cursor := by
  have htext : (t.recallEntry entry).editor.text = entry := by
    rw [← Editor.whole_view, show (t.recallEntry entry).editor.view = ⟨entry, []⟩ from
      congrArg Prod.fst (t.view_recallEntry hentry), Zipper.whole, List.append_nil]
  refine ⟨htext, ?_, ?_⟩
  · show t.out ++ clearLine t.editor.text ++ (t.recallEntry entry).editor.text = _
    rw [htext, List.append_assoc]
  · show _ ≤ min entry.length (min entry.length (LINE_MAX - 1))
    omega

/-- Recalling an entry leaves row and buffer apart: clearing the line begins at the first column,
so that the prompt goes too and is not drawn again. -/
theorem not_inStep_recallEntry {t : Typing} {row : TerminalRow} (hrow : InStep row t.editor)
    {entry : Bytes} (hentry : entry.length < LINE_MAX) :
    ¬ InStep (row.feed ((t.recallEntry entry).out.drop t.out.length))
      (t.recallEntry entry).editor := by
  have hspec := recallEntry_spec (t := t) hentry
  rw [hspec.2.1, List.drop_left]
  exact not_inStep_clearLine hrow t.editor.text hspec.2.2

/-- Up finds nothing just when every entry that is stored is passed. -/
theorem History.navUp_eq_none_iff (h : History) :
    h.navUp.1 = none ↔ h.ring.size ≤ h.olderCursor := by
  have hge := h.navCursor_ge
  have hzero : 0 ≤ h.olderCursor := by
    rw [olderCursor]
    split
    · exact Int.le_refl 0
    · omega
  rw [navUp]
  split
  · rename_i hcount
    have hsize : h.ring.size = 0 := by
      rw [RingBuffer.size, show h.ring.count = 0 from hcount, Nat.zero_min]
    rw [hsize]
    exact iff_of_true rfl hzero
  · split
    · rename_i hle
      exact iff_of_true rfl hle
    · rename_i hle
      exact iff_of_false (by simp) hle

/-- **Recall is out of step** unless it recalls nothing: `clear_line` goes back to the start of the
row, so it leaves the end of the text in place, and the entry is written over the prompt, which
nothing writes again. Up with no entry left to recall changes nothing. -/
theorem recall_inStep_iff (listing : Listing) (k : RecallKey) {t : Typing} {row : TerminalRow}
    (hrow : InStep row t.editor) :
    ∃ t', (∀ more, readKeys listing (k.bytes ++ more) t = readKeys listing more t') ∧
      t'.editor.text = k.recalled t ∧
      (InStep (row.feed (t'.out.drop t.out.length)) t'.editor ↔
        k = .up ∧ t.history.ring.size ≤ t.history.olderCursor) := by
  refine ⟨k.press t, fun more => k.readKeys_append listing more t, ?_⟩
  cases k with
  | up =>
    have hnone := t.history.navUp_eq_none_iff
    show t.up.editor.text = t.history.navUp.1.getD t.editor.text ∧
      (InStep (row.feed (t.up.out.drop t.out.length)) t.up.editor ↔ _)
    rw [Typing.up]
    cases hup : t.history.navUp with
    | mk recalled history =>
      rw [hup] at hnone
      cases recalled with
      | none =>
        -- Nothing is written, and the row is as it was.
        refine ⟨rfl, iff_of_true ?_ ⟨rfl, hnone.mp rfl⟩⟩
        show InStep (row.feed (t.out.drop t.out.length)) t.editor
        rw [List.drop_length]
        exact hrow
      | some entry =>
        have hentry := History.length_of_navUp hup
        refine ⟨(recallEntry_spec hentry).1, iff_of_false ?_ ?_⟩
        · exact not_inStep_recallEntry (t := { t with history := history }) hrow hentry
        · exact fun h => Option.some_ne_none entry (hnone.mpr h.2)
  | down =>
    show t.down.editor.text = t.history.navDown.1.getD [] ∧
      (InStep (row.feed (t.down.out.drop t.out.length)) t.down.editor ↔ _)
    rw [Typing.down]
    cases hdown : t.history.navDown with
    | mk recalled history =>
      cases recalled with
      | none =>
        -- The column should be behind the prompt, and it is at the start.
        refine ⟨List.take_zero, iff_of_false ?_ fun h => absurd h.1 (by decide)⟩
        have hcleared : ¬ InStep (row.feed (clearLine t.editor.text ++ [])) t.editor.empty :=
          not_inStep_clearLine hrow t.editor.text (Nat.le_refl 0)
        rw [List.append_nil] at hcleared
        show ¬ InStep (row.feed ((t.out ++ clearLine t.editor.text).drop t.out.length)) t.editor.empty
        rw [List.drop_left]
        exact hcleared
      | some entry =>
        have hentry := History.length_of_navDown hdown
        refine ⟨(recallEntry_spec hentry).1, iff_of_false ?_ fun h => absurd h.1 (by decide)⟩
        exact not_inStep_recallEntry (t := { t with history := history }) hrow hentry

/-- A shell that has run `ls`, on an empty row. -/
def ranLs : Repl Unit := { Repl.init () with history := History.init.push (bytes "ls"), out := [] }

/-- The up arrow behind one `ls`, where the condition can be decided. -/
theorem recall_inStep_iff_ls :
    ∃ t', (∀ more, readKeys (fun _ => []) (RecallKey.up.bytes ++ more) ranLs.prompt.typing
        = readKeys (fun _ => []) more t') ∧
      t'.editor.text = RecallKey.up.recalled ranLs.prompt.typing ∧
      (InStep ((rowSince ranLs.out ranLs.prompt.out).feed (t'.out.drop ranLs.prompt.out.length))
        t'.editor ↔
          RecallKey.up = .up ∧
            ranLs.prompt.history.ring.size ≤ ranLs.prompt.history.olderCursor) :=
  recall_inStep_iff (fun _ => []) .up (drawn_prompt ranLs).inStep

/-- Up on the empty line writes `ls` over the prompt. -/
theorem recall_not_inStep_ls :
    InStep (rowSince ranLs.out ranLs.prompt.out) ranLs.prompt.editor ∧
    ∃ t', readKeys (fun _ => []) RecallKey.up.bytes ranLs.prompt.typing = .next 0 t' ∧
      t'.editor.text = bytes "ls" ∧
      (List.range 7).map (rowSince ranLs.out t'.out).cells = bytes "lsh$   " ∧
      ¬ InStep ((rowSince ranLs.out ranLs.prompt.out).feed (t'.out.drop ranLs.prompt.out.length))
        t'.editor := by
  refine ⟨(drawn_prompt ranLs).inStep, RecallKey.up.press ranLs.prompt.typing, ?_, by decide +kernel,
    by decide +kernel, ?_⟩
  · have hread := RecallKey.readKeys_append (fun _ => []) .up [] ranLs.prompt.typing
    rw [List.append_nil, readKeys] at hread
    exact hread
  · intro h
    exact absurd h.col (by decide +kernel)

end OnyxShell
