import OnyxShell.Repl.Text
import OnyxShell.Proofs.Repl.Interrupt
import OnyxShell.Proofs.Repl.Stream

/-!
# `OnyxShell.Proofs.Repl.Text`: the line editor edits a text

`editor_refines_text`: behind every key the buffer and its cursor are a text with a cursor,
and the text is the one that the keys say. Below it one lemma for each operation on the
buffer, and `view_keyStep` for one key.
-/

set_option autoImplicit false

namespace OnyxShell

namespace Editor

/-! ### The buffer -/

/-- The text is as long as the editor says. -/
theorem length_text (e : Editor) : e.text.length = e.lineLen := by
  rw [text, List.length_take, Vector.length_toList]
  exact Nat.min_eq_left (Nat.le_of_lt e.lineLen_lt)

/-- A byte of the buffer, as a vector and as a list. -/
theorem getElem?_toList (line : Vector UInt8 LINE_MAX) {i : Nat} (h : i < LINE_MAX) :
    line.toList[i]? = some (line.get ⟨i, h⟩) := by
  rw [List.getElem?_eq_getElem (by rw [Vector.length_toList]; exact h), Vector.getElem_toList]
  rfl

/-- Writing a byte of the buffer changes that byte. -/
theorem getElem?_toList_set (line : Vector UInt8 LINE_MAX) {i : Nat} (h : i < LINE_MAX) (b : UInt8)
    (j : Nat) : (line.set i b h).toList[j]? = if i = j then some b else line.toList[j]? := by
  rw [Vector.toList_set, List.getElem?_set, Vector.length_toList, if_pos h]

/-- The loop that opens a gap moves the bytes from the cursor on up by one. -/
theorem getElem?_openGap (line : Vector UInt8 LINE_MAX) (cursor k i : Nat) (hk : k < LINE_MAX) :
    (openGap line cursor k hk).toList[i]? =
      if cursor < i ∧ i ≤ k then line.toList[i - 1]? else line.toList[i]? := by
  induction k generalizing line with
  | zero => rw [openGap, if_neg (by omega)]
  | succ j ih =>
    rw [openGap]
    by_cases hcursor : cursor ≤ j
    · rw [if_pos hcursor, ih, getElem?_toList_set, getElem?_toList_set]
      -- The byte at `j + 1` has been moved, and the loop goes on below it.
      by_cases htop : i = j + 1
      · subst htop
        rw [if_neg (by omega), if_pos rfl, if_pos (by omega), Nat.add_sub_cancel,
          getElem?_toList line (Nat.lt_of_succ_lt hk)]
      · by_cases hmoved : cursor < i ∧ i ≤ j
        · rw [if_pos hmoved, if_neg (by omega), if_pos (by omega)]
        · rw [if_neg hmoved, if_neg (by omega), if_neg (by omega)]
    · rw [if_neg hcursor, if_neg (by omega)]

/-- The loop that closes a gap moves the bytes behind `j` down by one. -/
theorem getElem?_closeGap (line : Vector UInt8 LINE_MAX) (j stop i : Nat) (h : stop < LINE_MAX) :
    (closeGap line j stop h).toList[i]? =
      if j ≤ i ∧ i < stop then line.toList[i + 1]? else line.toList[i]? := by
  fun_induction closeGap line j stop h with
  | case1 line j hj ih =>
    rw [ih, getElem?_toList_set, getElem?_toList_set]
    by_cases hbottom : i = j
    · subst hbottom
      rw [if_neg (by omega), if_pos rfl, if_pos (by omega),
        getElem?_toList line (Nat.lt_of_le_of_lt hj h)]
    · by_cases hmoved : j + 1 ≤ i ∧ i < stop
      · rw [if_pos hmoved, if_neg (by omega), if_pos (by omega)]
      · rw [if_neg hmoved, if_neg (by omega), if_neg (by omega)]
  | case2 line j hj => rw [if_neg (by omega)]

/-- A byte of the text is a byte of the buffer below the length. -/
theorem getElem?_text (e : Editor) (i : Nat) :
    e.text[i]? = if i < e.lineLen then e.line.toList[i]? else none := by
  rw [text, List.getElem?_take]

/-- Loading a line cuts it to the buffer. -/
theorem text_load (e : Editor) (src : Bytes) (cursor : Nat) :
    (e.load src cursor).text = src.take (LINE_MAX - 1) := by
  apply List.ext_getElem?
  intro i
  have hlen : (e.load src cursor).lineLen = min src.length (LINE_MAX - 1) := rfl
  rw [getElem?_text, hlen]
  by_cases hi : i < min src.length (LINE_MAX - 1)
  · have hget : (src.take (LINE_MAX - 1))[i]? = some ((src)[i]) := by
      rw [List.getElem?_take, if_pos (by omega), List.getElem?_eq_getElem (by omega)]
    rw [if_pos hi, hget, load, Vector.toList_mapIdx, List.getElem?_mapIdx, hget,
      getElem?_toList e.line (by omega)]
    rfl
  · rw [if_neg hi, List.getElem?_eq_none]
    rw [List.length_take]
    omega

/-- The two parts of the view are the text. -/
theorem whole_view (e : Editor) : e.view.whole = e.text := Zipper.whole_cut _ _

/-- The cursor is as far into the text as the first part is long. -/
theorem length_left_view (e : Editor) : e.view.left.length = e.cursor :=
  Zipper.length_left_cut (by rw [length_text]; exact e.cursor_le)

/-- **A printable byte** goes in front of the cursor. -/
theorem view_insert {e : Editor} (h : e.lineLen < LINE_MAX - 1) (c : UInt8) :
    (e.insert c).view = e.view.insert c := by
  have hlen : (e.insert c).lineLen = e.lineLen + 1 := by rw [insert, dif_pos h]
  have hcursor : (e.insert c).cursor = e.cursor + 1 := by rw [insert, dif_pos h]
  have hle := e.cursor_le
  symm
  apply Zipper.eq_cut
  · apply List.ext_getElem?
    intro i
    have hline : (e.insert c).line.toList[i]? = if e.cursor = i then some c else
        if e.cursor < i ∧ i ≤ e.lineLen then e.line.toList[i - 1]? else e.line.toList[i]? := by
      rw [insert, dif_pos h, getElem?_toList_set, getElem?_openGap]
    rw [Zipper.getElem?_whole_insert, whole_view, length_left_view, getElem?_text, getElem?_text,
      getElem?_text, hlen, hline]
    rcases Nat.lt_trichotomy i e.cursor with hi | hi | hi
    · rw [if_pos hi, if_pos (by omega), if_pos (by omega), if_neg (by omega), if_neg (by omega)]
    · rw [if_neg (by omega), if_pos hi, if_pos (by omega), if_pos hi.symm]
    · rw [if_neg (by omega), if_neg (by omega)]
      by_cases hend : i < e.lineLen + 1
      · rw [if_pos (by omega), if_pos hend, if_neg (by omega), if_pos (by omega)]
      · rw [if_neg (by omega), if_neg hend]
  · rw [Zipper.length_left_insert, length_left_view, hcursor]

/-- **Backspace** takes the byte in front of the cursor. -/
theorem view_backspace {e : Editor} (h : e.cursor > 0) : e.backspace.view = e.view.erase := by
  have hlen : e.backspace.lineLen = e.lineLen - 1 := rfl
  have hle := e.cursor_le
  symm
  apply Zipper.eq_cut
  · apply List.ext_getElem?
    intro i
    have hline : e.backspace.line.toList[i]? =
        if e.cursor - 1 ≤ i ∧ i < e.lineLen then e.line.toList[i + 1]? else e.line.toList[i]? :=
      getElem?_closeGap e.line (e.cursor - 1) e.lineLen i e.lineLen_lt
    rw [Zipper.getElem?_whole_erase (by rw [length_left_view]; exact h), whole_view,
      length_left_view, getElem?_text, getElem?_text, getElem?_text, hlen, hline]
    by_cases hi : i < e.cursor - 1
    · rw [if_pos hi, if_pos (by omega), if_pos (by omega), if_neg (by omega)]
    · rw [if_neg hi]
      by_cases hend : i + 1 < e.lineLen
      · rw [if_pos hend, if_pos (by omega), if_pos (by omega)]
      · rw [if_neg hend, if_neg (by omega)]
  · rw [Zipper.length_left_erase, length_left_view]
    rfl

/-- A line that is put in the place of the text. -/
theorem view_load (e : Editor) (src : Bytes) (cursor : Nat) :
    (e.load src cursor).view = Zipper.cut (src.take (LINE_MAX - 1)) cursor := by
  have hcursor : (e.load src cursor).cursor
      = min cursor (src.take (LINE_MAX - 1)).length := by
    rw [List.length_take, Nat.min_comm (LINE_MAX - 1)]
    rfl
  rw [view, text_load, hcursor, Zipper.cut_min]

end Editor

/-! ### The keys -/

namespace History

variable {h h' : History} {entry : Bytes}

/-- An entry of the history fits the buffer. -/
theorem length_of_navUp (hup : h.navUp = (some entry, h')) : entry.length < LINE_MAX := by
  rw [navUp] at hup
  split at hup
  · cases hup
  · split at hup
    · cases hup
    · cases hup
      exact Nat.lt_trans (h.length_item_lt _) (by decide)

/-- So does one on the way down. -/
theorem length_of_navDown (hdown : h.navDown = (some entry, h')) : entry.length < LINE_MAX := by
  rw [navDown] at hdown
  split at hdown
  · cases hdown
  · cases hdown
    exact Nat.lt_trans (h.length_item_lt _) (by decide)

end History

namespace Typing

/-- The text and the history. -/
def view (t : Typing) : Text × History := (t.editor.view, t.history)

/-- Echo does not change what is edited. -/
@[simp] theorem view_write (t : Typing) (b : Bytes) : (t.write b).view = t.view := rfl

/-- Right moves the cursor by one byte. -/
theorem view_right (t : Typing) : t.right.view = (t.editor.view.moveRight, t.history) := by
  have hle := t.editor.cursor_le
  rw [right]
  split
  · rename_i h
    refine congrArg (·, t.history) (Zipper.eq_cut ?_ ?_).symm
    · rw [Zipper.whole_moveRight, Editor.whole_view]
      rfl
    · rw [Zipper.length_left_moveRight, Editor.length_left_view, Editor.whole_view,
        Editor.length_text]
      exact Nat.min_eq_left h
  · rename_i h
    refine congrArg (·, t.history) (Zipper.eq_cut ?_ ?_).symm
    · rw [Zipper.whole_moveRight, Editor.whole_view]
    · rw [Zipper.length_left_moveRight, Editor.length_left_view, Editor.whole_view,
        Editor.length_text]
      omega

/-- The left arrow moves one byte from the first part to the second. The lemmas below say what the
other keys are on the two parts. -/
theorem view_left (t : Typing) : t.left.view = (t.editor.view.moveLeft, t.history) := by
  rw [left]
  split
  · refine congrArg (·, t.history) (Zipper.eq_cut ?_ ?_).symm
    · rw [Zipper.whole_moveLeft, Editor.whole_view]
      rfl
    · rw [Zipper.length_left_moveLeft, Editor.length_left_view]
      rfl
  · refine congrArg (·, t.history) (Zipper.eq_cut ?_ ?_).symm
    · rw [Zipper.whole_moveLeft, Editor.whole_view]
    · rw [Zipper.length_left_moveLeft, Editor.length_left_view]
      omega

/-- Backspace takes the last byte of the first part. -/
theorem view_backspace (t : Typing) : t.backspace.view = (t.editor.view.erase, t.history) := by
  rw [backspace]
  split
  · rename_i h
    exact congrArg (·, t.history) (Editor.view_backspace h)
  · -- With the cursor at the start nothing is in front of it.
    rename_i h
    refine congrArg (·, t.history) ?_
    rw [Editor.view, Nat.eq_zero_of_not_pos h]
    rfl

/-- A byte goes to the end of the first part, if the buffer has room. -/
theorem view_insert (t : Typing) (c : UInt8) :
    (t.insert c).view = (if t.editor.view.whole.length < LINE_MAX - 1 then t.editor.view.insert c
      else t.editor.view, t.history) := by
  rw [insert, Editor.whole_view, Editor.length_text]
  split
  · rename_i h
    exact congrArg (·, t.history) (Editor.view_insert h c)
  · rfl

/-- Tab. -/
theorem view_complete (t : Typing) (listing : Listing) :
    (t.complete listing).view = t.editor.view.press listing t.history .tab := by
  rw [complete, Text.press, Editor.whole_view, Editor.length_left_view]
  exact congrArg (·, t.history) (Editor.view_load _ _ _)

/-- An entry of the history fits the line, so it is recalled whole. -/
theorem view_recallEntry (t : Typing) {entry : Bytes} (h : entry.length < LINE_MAX) :
    (t.recallEntry entry).view = (⟨entry, []⟩, t.history) := by
  refine congrArg (·, t.history) ?_
  show (t.editor.load entry entry.length).view = _
  rw [Editor.view_load, List.take_of_length_le (by omega), Zipper.cut, List.take_length,
    List.drop_length]

/-- The up arrow. -/
theorem view_up (t : Typing) (listing : Listing) :
    t.up.view = t.editor.view.press listing t.history .up := by
  rw [up, Text.press]
  cases hup : t.history.navUp with
  | mk entry h =>
    cases entry with
    | none => rfl
    | some entry => exact view_recallEntry { t with history := h } (History.length_of_navUp hup)

/-- The down arrow. -/
theorem view_down (t : Typing) (listing : Listing) :
    t.down.view = t.editor.view.press listing t.history .down := by
  rw [down, Text.press]
  cases hdown : t.history.navDown with
  | mk entry h =>
    cases entry with
    | none => rfl
    | some entry => exact view_recallEntry { t with history := h } (History.length_of_navDown hdown)

end Typing

/-- What is seen of the result of a key. -/
def KeyResult.view : KeyResult → TextResult
  | .next skip t => .next skip t.view.1 t.view.2
  | .lineEnd _ t => .lineEnd t.view.1 t.view.2
  | .exit t => .exit t.view.1 t.view.2

/-- A byte that is a key by itself. -/
theorem view_plainKey (listing : Listing) (b : UInt8) (t : Typing) :
    (plainKey listing b t).view =
      if Key.ofByte b = .ending then .lineEnd t.view.1 t.view.2
      else if Key.ofByte b = .eof ∧ t.view.1.whole = [] then .exit t.view.1 t.view.2
      else .next 0 (t.view.1.press listing t.view.2 (Key.ofByte b)).1
        (t.view.1.press listing t.view.2 (Key.ofByte b)).2 := by
  rw [plainKey]
  -- The tests of the source in their order. Each names the key that the byte is.
  by_cases hline : b = '\r'.toUInt8 ∨ b = '\n'.toUInt8
  · have hkey : Key.ofByte b = .ending := by rcases hline with rfl | rfl <;> decide
    rw [if_pos hline, hkey, if_pos rfl]
    rfl
  rw [if_neg hline]
  by_cases herase : b = 0x7F ∨ b = 0x08
  · have hkey : Key.ofByte b = .erase := by rcases herase with rfl | rfl <;> decide
    rw [if_pos herase, hkey, if_neg (by decide), if_neg (by simp)]
    exact congrArg (fun v => TextResult.next 0 v.1 v.2) (Typing.view_backspace t)
  rw [if_neg herase]
  by_cases htab : b = 0x09
  · have hkey : Key.ofByte b = .tab := by rw [htab]; decide
    rw [if_pos htab, hkey, if_neg (by decide), if_neg (by simp)]
    exact congrArg (fun v => TextResult.next 0 v.1 v.2) (Typing.view_complete t listing)
  rw [if_neg htab]
  by_cases hctrlC : b = 0x03
  · have hkey : Key.ofByte b = .ending := by rw [hctrlC]; decide
    rw [if_pos hctrlC, hkey, if_pos rfl]
    rfl
  rw [if_neg hctrlC]
  have hends : ¬ endsLine b = true := by
    rw [endsLine, Bool.or_eq_true, Bool.or_eq_true, beq_iff_eq, beq_iff_eq, beq_iff_eq]
    tauto
  by_cases hctrlD : b = 0x04
  · have hkey : Key.ofByte b = .eof := by rw [hctrlD]; decide
    have hempty : t.view.1.whole = [] ↔ t.editor.lineLen = 0 := by
      rw [← t.editor.length_text, List.length_eq_zero_iff]
      exact Iff.of_eq (congrArg (· = []) t.editor.whole_view)
    have hending : ¬ Key.eof = Key.ending := by decide
    -- It leaves the shell from an empty line only.
    rw [if_pos hctrlD, hkey, if_neg hending]
    by_cases hlen : t.editor.lineLen = 0
    · rw [if_pos hlen, if_pos ⟨rfl, hempty.mpr hlen⟩]
      rfl
    · rw [if_neg hlen, if_neg fun h => hlen (hempty.mp h.2)]
      rfl
  rw [if_neg hctrlD]
  by_cases hprint : 0x20 ≤ b ∧ b < 0x7F
  · have hkey : Key.ofByte b = .print b := by
      rw [Key.ofByte, if_neg hends, if_neg herase, if_neg htab, if_neg hctrlD, if_pos hprint]
    rw [if_pos hprint, hkey, if_neg (by simp), if_neg (by simp)]
    exact congrArg (fun v => TextResult.next 0 v.1 v.2) (Typing.view_insert t b)
  · have hkey : Key.ofByte b = .other := by
      rw [Key.ofByte, if_neg hends, if_neg herase, if_neg htab, if_neg hctrlD, if_neg hprint]
    rw [if_neg hprint, hkey, if_neg (by decide), if_neg (by simp)]
    rfl

/-- An arrow key. -/
theorem view_arrowKey (listing : Listing) (b : UInt8) (t : Typing) :
    (arrowKey b t).view = t.editor.view.press listing t.history (Key.ofArrow b) := by
  rw [arrowKey, Key.ofArrow]
  split
  · exact t.view_up listing
  · split
    · exact t.view_down listing
    · split
      · exact t.view_right
      · exact t.view_left

/-- **One key** does to the buffer what it does to the text. -/
theorem view_keyStep (listing : Listing) (b : UInt8) (rest : Bytes) (t : Typing) :
    (keyStep listing b rest t).view = textStep listing b rest t.view.1 t.view.2 := by
  rw [textStep, Key.at]
  cases harrow : startsWithArrow (b :: rest) with
  | false =>
    rw [keyStep_plain harrow, view_plainKey]
    rfl
  | true =>
    rcases keyStep_arrow harrow with ⟨b1, b2, tail, rfl, hkeyStep⟩
    have hkey : ∀ key, Key.ofArrow b2 = key → key ≠ .ending ∧ key ≠ .eof := by
      intro key h
      rw [← h, Key.ofArrow]
      split
      · decide
      · split
        · decide
        · split <;> decide
    have hnot := hkey _ rfl
    rw [hkeyStep]
    simp only [if_true, List.getElem?_cons_succ, List.getElem?_cons_zero, Option.getD_some,
      if_neg hnot.1, hnot.2, false_and, if_false]
    exact congrArg (fun v => TextResult.next 2 v.1 v.2) (view_arrowKey listing b2 t)

/-- The step on the text, from the step on the buffer. -/
theorem textStep_of_keyStep {listing : Listing} {b : UInt8} {rest : Bytes} {t : Typing}
    {result : KeyResult} (h : keyStep listing b rest t = result) :
    textStep listing b rest t.view.1 t.view.2 = result.view := by
  rw [← view_keyStep, h]

/-- **One read.** -/
theorem view_readKeys (listing : Listing) (keys : Bytes) (t : Typing) :
    (readKeys listing keys t).view = readText listing keys t.view.1 t.view.2 := by
  fun_induction readKeys listing keys t with
  | case1 t => rw [readText]; rfl
  | case2 b rest t skip t' hstep ih =>
    rw [ih, readText, textStep_of_keyStep hstep]
    rfl
  | case3 b rest t key t' hstep =>
    rw [readText, textStep_of_keyStep hstep]
    rfl
  | case4 b rest t t' hstep =>
    rw [readText, textStep_of_keyStep hstep]
    rfl

/-- The states behind each key. -/
theorem view_keyStates (listing : Listing) (keys : Bytes) (t : Typing) :
    (keyStates listing keys t).map Typing.view = textStates listing keys t.view.1 t.view.2 := by
  fun_induction keyStates listing keys t with
  | case1 t => rw [textStates]; rfl
  | case2 b rest t skip t' hstep ih =>
    rw [List.map_cons, ih, textStates, textStep_of_keyStep hstep]
    rfl
  | case3 b rest t key t' hstep =>
    rw [textStates, textStep_of_keyStep hstep]
    rfl
  | case4 b rest t t' hstep =>
    rw [textStates, textStep_of_keyStep hstep]
    rfl

/-- The state behind a read is the one behind its last key. -/
theorem readKeys_getLast (listing : Listing) (keys : Bytes) (t : Typing) :
    (readKeys listing keys t).typing = ((keyStates listing keys t).getLast?).getD t := by
  fun_induction readKeys listing keys t with
  | case1 t => rw [keyStates]; rfl
  | case2 b rest t skip t' hstep ih =>
    rw [ih, keyStates, hstep]
    show _ = ((t' :: keyStates listing (rest.drop skip) t').getLast?).getD t
    rw [List.getLast?_cons]
    rfl
  | case3 b rest t key t' hstep =>
    rw [keyStates, hstep]
    rfl
  | case4 b rest t t' hstep =>
    rw [keyStates, hstep]
    rfl

/-! ### The prompt -/

namespace Repl

variable {σ : Type}

/-- Entering a line, for the two-part text and for the buffer. -/
theorem session_submit (sys : System σ) (r : Repl σ) :
    (r.submit sys).session = r.session.submit sys := by
  have hline : r.session.text.whole = r.editor.text := r.editor.whole_view
  simp only [submit, Session.submit, hline]
  split
  · rfl
  · simp only [session]
    generalize hline : submitLine (sys.env r.shell.world) (sys.listing r.shell.world) r.history
      r.editor.text = e
    cases hreturn : e.action.perform sys.commands sys.answers
        (e.messages.foldl (fun s msg => s.report (.error msg)) r.shell) with
    | none => simp only
    | some shell => simp only

/-- The prompt for the next line. -/
theorem session_nextLine (sys : System σ) (r : Repl σ) :
    (r.nextLine sys).session = r.session.nextLine sys := by
  have hrunning : (r.session.submit sys).running = (r.submit sys).running := by
    rw [← session_submit]
    rfl
  rw [nextLine, Session.nextLine, hrunning, ← session_submit]
  split
  · rfl
  · rfl

/-- The bytes of one read, by the lemmas for the keys. -/
theorem session_read (sys : System σ) (r : Repl σ) (received : Option Bytes) :
    (r.read sys received).session = r.session.read sys received := by
  have hsession : r.session.running = r.running := rfl
  by_cases hrunning : r.running = true
  · cases received with
    | none => rw [read, Session.read, hsession, if_pos hrunning, if_pos hrunning]; rfl
    | some keys =>
      have hview := view_readKeys (r.listing sys) keys r.typing
      have hread : readText (sys.listing r.session.shell.world) keys r.session.text
          r.session.history = (readKeys (r.listing sys) keys r.typing).view := hview.symm
      rw [read, Session.read, hsession, if_pos hrunning, if_pos hrunning]
      simp only [hread]
      cases readKeys (r.listing sys) keys r.typing with
      | next skip t => rfl
      | lineEnd key t => exact session_nextLine sys (r.withTyping t)
      | exit t => rfl
  · unfold read Session.read
    rw [hsession, if_neg hrunning, if_neg hrunning]

/-- **A sequence of reads.** -/
theorem session_run (sys : System σ) (r : Repl σ) (reads : List (Option Bytes)) :
    (r.run sys reads).session = r.session.run sys reads := by
  induction reads generalizing r with
  | nil => rfl
  | cons received reads ih =>
    rw [run, Session.run, List.foldl_cons, List.foldl_cons, ← session_read]
    exact ih (r.read sys received)

end Repl

/-- **The line editor edits a text**: behind every read the prompt is the session on the text, and
behind every key of a read the buffer and its cursor are the text. The text is a list cut at the
cursor, with the history beside it. Each key on the buffer is the same key on the text (the
`view_` lemmas), so that a read is a read and a run is a run. The bounds are carried by the
editor's own fields. -/
theorem editor_refines_text {σ : Type} (sys : System σ) (r : Repl σ) (reads : List (Option Bytes))
    (listing : Listing) (keys : Bytes) :
    let r' := r.run sys reads
    r'.session = r.session.run sys reads ∧
      (keyStates listing keys r'.typing).map Typing.view
        = textStates listing keys r'.session.text r'.session.history ∧
      ∀ t ∈ keyStates listing keys r'.typing,
        t.editor.cursor ≤ t.editor.lineLen ∧ t.editor.lineLen ≤ 255 := by
  refine ⟨Repl.session_run sys r reads, view_keyStates listing keys _, ?_⟩
  intro t _
  exact ⟨t.editor.cursor_le, Nat.le_of_lt_succ t.editor.lineLen_lt⟩

end OnyxShell
