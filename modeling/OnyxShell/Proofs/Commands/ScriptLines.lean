import OnyxShell.Commands.ScriptLines
import OnyxShell.Proofs.Commands.Source
import OnyxShell.Proofs.Startup

/-!
# `OnyxShell.Proofs.Commands.ScriptLines`: a script runs its lines

`scriptLoop_eq_linesOf`: whatever `line_buf` holds and whatever a line does, the loop executes
the lines of the text, in order. `doScript_runs_lines` is the same for the whole call.

`interpreterOf_withCrLf_iff` is when other line ends leave a script its interpreter. They always
leave it its lines (`linesOf_withCrLf`).
-/

set_option autoImplicit false

namespace OnyxShell

/-! ### The lines of a text -/

/-- A line that has been collected is run, unless it is empty or a comment. -/
theorem collected_eq_filter (line : Bytes) : collected line = [line].filter isCommand := by
  rw [collected, List.filter_cons, List.filter_nil, isCommand]
  simp only [decide_eq_true_eq, gt_iff_lt, List.length_pos_iff]

/-- A short line without a CR is run as it stands in the file. -/
theorem cleanLine_of_short {line : Bytes} (hcr : '\r'.toUInt8 ∉ line)
    (hlen : line.length ≤ LINE_MAX - 1) : cleanLine line = line := by
  rw [cleanLine, List.filter_eq_self.mpr, List.take_of_length_le hlen]
  intro b hb
  exact decide_eq_true fun h => hcr (h ▸ hb)

/-- The first piece counts as the line that it makes. -/
theorem map_cleanLine_modifyHead {f g : Bytes → Bytes}
    (h : ∀ piece, cleanLine (f piece) = cleanLine (g piece)) (pieces : List Bytes) :
    (pieces.modifyHead f).map cleanLine = (pieces.modifyHead g).map cleanLine := by
  cases pieces with
  | nil => rfl
  | cons piece pieces =>
    rw [List.modifyHead_cons, List.modifyHead_cons, List.map_cons, List.map_cons, h]

/-- The loop, with the bytes of a line already read. -/
theorem scriptLines_eq {content line : Bytes} (hcr : '\r'.toUInt8 ∉ line)
    (hlen : line.length ≤ LINE_MAX - 1) :
    scriptLines content line
      = (((content.splitOn '\n'.toUInt8).modifyHead (line ++ ·)).map cleanLine).filter isCommand := by
  induction content generalizing line with
  | nil =>
    rw [scriptLines, List.splitOn_nil, List.modifyHead_cons, List.append_nil, List.map_cons,
      List.map_nil, cleanLine_of_short hcr hlen, collected_eq_filter]
  | cons b rest ih =>
    rw [scriptLines, List.splitOn_cons_eq_if_modifyHead]
    by_cases hlf : b = '\n'.toUInt8
    · -- The line is finished, and the rest is read with an empty one.
      have hnil : '\r'.toUInt8 ∉ ([] : Bytes) := List.not_mem_nil
      have hrest := ih hnil (Nat.zero_le _)
      have hid : ((rest.splitOn '\n'.toUInt8).modifyHead fun piece => [] ++ piece)
          = rest.splitOn '\n'.toUInt8 := by
        cases rest.splitOn '\n'.toUInt8 with
        | nil => rfl
        | cons piece pieces => rfl
      rw [hid] at hrest
      rw [if_pos hlf, if_pos (beq_iff_eq.mpr hlf), hrest, List.modifyHead_cons, List.append_nil,
        List.map_cons, cleanLine_of_short hcr hlen, collected_eq_filter, ← List.filter_append,
        List.singleton_append]
    · have hbeq : ¬ (b == '\n'.toUInt8) = true := fun h => hlf (beq_iff_eq.mp h)
      rw [if_neg hlf, if_neg hbeq, List.modifyHead_modifyHead]
      split
      · -- The byte goes behind the line.
        rename_i hkeep
        have hcr' : '\r'.toUInt8 ∉ line ++ [b] := by
          simpa using ⟨hcr, fun h => hkeep.1 h.symm⟩
        rw [ih hcr' (by rw [List.length_append, List.length_singleton]; exact hkeep.2)]
        congr 1
        apply map_cleanLine_modifyHead
        intro piece
        simp
      · -- The byte is dropped: a CR, or one that has no room.
        rename_i hskip
        rw [ih hcr hlen]
        congr 1
        apply map_cleanLine_modifyHead
        intro piece
        show cleanLine (line ++ piece) = cleanLine (line ++ b :: piece)
        rw [cleanLine, cleanLine, List.filter_append, List.filter_append]
        by_cases hbcr : b = '\r'.toUInt8
        · rw [List.filter_cons_of_neg (by simp [hbcr])]
        · -- The line is full.
          have hself : line.filter (· ≠ '\r'.toUInt8) = line := by
            rw [List.filter_eq_self]
            exact fun x hx => decide_eq_true fun h => hcr (h ▸ hx)
          have hfull : line.length = LINE_MAX - 1 :=
            Nat.le_antisymm hlen (Nat.le_of_not_lt fun hlt => hskip ⟨hbcr, hlt⟩)
          rw [hself, ← hfull, List.take_left, List.take_left]

/-- The loop over the bytes runs the lines that splitting the text gives. -/
theorem scriptLines_eq_linesOf (content : Bytes) : scriptLines content [] = linesOf content := by
  rw [scriptLines_eq (by simp) (Nat.zero_le _), linesOf]
  congr 2
  cases content.splitOn '\n'.toUInt8 with
  | nil => rfl
  | cons piece pieces => rfl

/-! ### The loop on its buffer -/

namespace LineBuffer

/-- A buffer that starts again is empty. -/
theorem line_restart (b : LineBuffer) : b.restart.line = [] := List.take_zero

/-- The line is as long as the position says. -/
theorem length_line (b : LineBuffer) : b.line.length = b.pos := by
  rw [line, List.length_take, Vector.length_toList]
  exact Nat.min_eq_left (Nat.le_of_lt b.pos_lt)

/-- A byte joins the line, unless it is a CR or the buffer is full. -/
theorem line_add (b : LineBuffer) (c : UInt8) :
    (b.add c).line = if c ≠ '\r'.toUInt8 ∧ b.line.length < LINE_MAX - 1 then b.line ++ [c]
      else b.line := by
  rw [length_line, add]
  split
  · show (b.buf.set b.pos c b.pos_lt).toList.take (b.pos + 1) = _
    rw [Vector.toList_set, line, List.take_add_one, List.take_set_of_le (Nat.le_refl _),
      List.getElem?_set_self (by rw [Vector.length_toList]; exact b.pos_lt)]
    rfl
  · rfl

/-- What is run of a buffer is its line, if it is one to run. -/
theorem executeBuffered_eq {σ : Type} (execute : Bytes → σ → Option σ) (b : LineBuffer) (s : σ) :
    executeBuffered execute b s = (collected b.line).foldlM (fun s line => execute line s) s := by
  have hhead : b.pos > 0 → b.line.head? = some (b.buf.get ⟨0, by decide⟩) := by
    intro hpos
    rw [List.head?_eq_getElem?, line, List.getElem?_take, if_pos hpos, Vector.getElem?_toList,
      Vector.getElem?_eq_getElem (by decide)]
    rfl
  rw [executeBuffered, collected, length_line]
  by_cases hpos : b.pos > 0
  · rw [hhead hpos]
    simp only [hpos, true_and, ne_eq, Option.some.injEq]
    split
    · rw [List.foldlM_cons]
      exact (Option.bind_fun_some _).symm
    · rfl
  · rw [if_neg (fun h => hpos h.1), if_neg (fun h => hpos h.1)]
    rfl

end LineBuffer

/-- The loop executes the lines of the text behind the bytes in its buffer. -/
theorem scriptLoop_eq {σ : Type} (execute : Bytes → σ → Option σ) (content : Bytes) (b : LineBuffer)
    (s : σ) :
    scriptLoop execute content b s
      = (scriptLines content b.line).foldlM (fun s line => execute line s) s := by
  induction content generalizing b s with
  | nil => exact b.executeBuffered_eq execute s
  | cons c rest ih =>
    rw [scriptLoop, scriptLines]
    split
    · rw [List.foldlM_append, b.executeBuffered_eq]
      congr 1
      funext s
      rw [ih, b.line_restart]
    · rw [ih, b.line_add]
      split
      · rfl
      · rfl

/-- **The loop executes the lines of the text**, whatever its buffer holds before. -/
theorem scriptLoop_eq_linesOf {σ : Type} (execute : Bytes → σ → Option σ) (content : Bytes)
    (b : LineBuffer) (s : σ) :
    scriptLoop execute content b.restart s
      = (linesOf content).foldlM (fun s line => execute line s) s := by
  rw [scriptLoop_eq, b.line_restart, scriptLines_eq_linesOf]

/-! ### The call -/

/-- The buffer makes no difference to `do_script`. -/
theorem doScriptBuffers_eq (c : ScriptSetting) (budget : Nat) :
    doScriptBuffers c budget = doScript c budget := by
  induction budget with
  | zero => rfl
  | succ budget ih =>
    funext input s
    -- The nested calls are the same one, so the two differ in the loop over the file only.
    have hinner : ∀ s, doScriptInnerBuffers c (doScript c budget) input s
        = doScriptInner c (doScript c budget) input s := by
      intro s
      rw [doScriptInnerBuffers, doScriptInner]
      cases resolve s.world.terrain.around.getcwd input with
      | none => rfl
      | some abs =>
        dsimp only
        rcases s.sysOpen c.answers (cString abs) O_RDONLY with ⟨e | fd, s'⟩
        · rfl
        · have hloop := scriptLoop_eq (runScriptLine c (doScript c budget))
            ((s'.world.terrain.around.contents (cString abs)).getD []) LineBuffer.zeros
            (s'.scriptOpened fd)
          have hzeros : LineBuffer.zeros.line = [] := List.take_zero
          rw [hzeros, ← readScript_eq] at hloop
          dsimp only
          rw [hloop]
          cases readScript c (doScript c budget) _ [] (s'.scriptOpened fd) with
          | none => rfl
          | some s'' => rfl
    rw [doScriptBuffers, doScript, ih, hinner]
    split
    · rfl
    · cases doScriptInner c (doScript c budget) input _ with
      | none => rfl
      | some s' => rfl

/-- **A script runs its lines**: `do_script` on a file that opens calls `execute_line` for the
lines of the file, in order, and comes back with the file closed. The model with the read buffer
is first shown to be the model over the whole file (`doScriptBuffers_eq`), and that one comes back
by `doScript_unwinds`. What is left is that the loop over the bytes runs the lines of
`linesOf`. -/
theorem doScript_runs_lines (c : ScriptSetting) (input : Bytes) (s : Shell ScriptWorld)
    {abs : Bytes} {fd : Nat} {opened : Shell ScriptWorld} {budget : Nat}
    (hdepth : s.world.depth < SCRIPT_DEPTH_MAX)
    (habs : resolve s.world.terrain.around.getcwd input = some abs)
    (hopen : ({ s with world := s.world.enter } : Shell ScriptWorld).sysOpen c.answers (cString abs)
      O_RDONLY = (.ok fd, opened))
    (hbudget : SCRIPT_DEPTH_MAX - s.world.depth ≤ budget) :
    ∃ s', (linesOf ((s.world.terrain.around.contents (cString abs)).getD [])).foldlM
        (fun s line => runScriptLine c (doScriptBuffers c budget) line s) (opened.scriptOpened fd)
          = some s' ∧
      doScriptBuffers c (budget + 1) input s
        = some { s'.closeScript fd with world := (s'.closeScript fd).world.leave } ∧
      (s'.closeScript fd).world.scripts = s.world.scripts := by
  have hworld : opened.world = s.world.enter := by
    rcases sysOpen_cases c.answers (cString abs) O_RDONLY { s with world := s.world.enter }
      with ⟨e, s₁, hfail, -, -⟩ | ⟨s₁, hok, hsame, -⟩
    · rw [hfail] at hopen
      cases hopen
    · rw [hok] at hopen
      cases hopen
      exact hsame
  -- `doScript` comes back, so the loop did, and it did what `linesOf` says.
  rcases doScript_unwinds c input s (Nat.le_of_lt hdepth) with ⟨final, hall, hunwinds⟩
  have hfinal := hall (budget + 1) (by omega)
  have hcontents : opened.world.terrain = s.world.terrain := by
    rw [hworld]
    rfl
  rw [← doScriptBuffers_eq, doScriptBuffers, if_neg (Nat.not_le.mpr hdepth)] at hfinal
  rcases Option.bind_eq_some_iff.mp hfinal with ⟨s₁, hinner, hleave⟩
  have habs' : resolve ({ s with world := s.world.enter } : Shell ScriptWorld).world.terrain.around.getcwd
      input = some abs := habs
  rw [doScriptInnerBuffers, habs'] at hinner
  dsimp only at hinner
  rw [hopen] at hinner
  dsimp only at hinner
  rcases Option.bind_eq_some_iff.mp hinner with ⟨s', hloop, hclose⟩
  rw [hcontents] at hloop
  have hfold := scriptLoop_eq_linesOf (runScriptLine c (doScriptBuffers c budget))
    ((s.world.terrain.around.contents (cString abs)).getD []) LineBuffer.zeros
    (opened.scriptOpened fd)
  rw [show LineBuffer.zeros = LineBuffer.zeros.restart from rfl, hfold] at hloop
  cases hclose
  cases hleave
  refine ⟨s', hloop, ?_, hunwinds.scripts⟩
  rw [doScriptBuffers_eq]
  exact hall (budget + 1) (by omega)

/-- A shell in the root, with one script in every file. -/
def scriptShell (content : Bytes) : Shell ScriptWorld :=
  Shell.init ⟨⟨⟨Env.init, some (bytes "/"), fun _ => true, fun _ => some content⟩, fun _ => []⟩, 0, [],
    []⟩

/-- The same shell in the script, behind its `open`. -/
def scriptShellOpened (content : Bytes) : Shell ScriptWorld :=
  (({ scriptShell content with world := (scriptShell content).world.enter } :
    Shell ScriptWorld).sysOpen quietScripts.answers (bytes "/a") O_RDONLY).2

/-- A file with a CR, a comment and an empty line: two lines are run. -/
theorem doScript_runs_lines_comment :
    ∃ s', (linesOf (bytes "ls\r\n# no\n\npwd")).foldlM
        (fun s line => runScriptLine quietScripts (doScriptBuffers quietScripts 8) line s)
        ((scriptShellOpened (bytes "ls\r\n# no\n\npwd")).scriptOpened 3) = some s' ∧
      doScriptBuffers quietScripts 9 (bytes "a") (scriptShell (bytes "ls\r\n# no\n\npwd"))
        = some { s'.closeScript 3 with world := (s'.closeScript 3).world.leave } ∧
      (s'.closeScript 3).world.scripts = (scriptShell (bytes "ls\r\n# no\n\npwd")).world.scripts :=
  doScript_runs_lines quietScripts (bytes "a") (scriptShell (bytes "ls\r\n# no\n\npwd"))
    (by decide) (show resolve (some (bytes "/")) (bytes "a") = some (bytes "/a") by decide +kernel)
    rfl (by decide)

/-! ### Line ends -/

/-- Line ends make no difference to the lines. -/
theorem linesOf_withCrLf (content : Bytes) : linesOf (withCrLf content) = linesOf content := by
  have hloop : ∀ line, scriptLines (withCrLf content) line = scriptLines content line := by
    induction content with
    | nil => exact fun line => rfl
    | cons b rest ih =>
      intro line
      rw [withCrLf, List.flatMap_cons]
      split
      · rename_i hlf
        -- The CR is dropped, and the LF ends the line.
        show scriptLines ('\r'.toUInt8 :: '\n'.toUInt8 :: withCrLf rest) line = _
        rw [scriptLines, if_neg (by decide), if_neg (by simp), scriptLines, if_pos rfl, scriptLines,
          if_pos hlf, ih]
      · rename_i hlf
        show scriptLines (b :: withCrLf rest) line = _
        rw [scriptLines, scriptLines, if_neg hlf, if_neg hlf, ih, ih]
  rw [← scriptLines_eq_linesOf, ← scriptLines_eq_linesOf, hloop]

/-- The first line gets a CR, if an LF ends it. -/
theorem openingLine_withCrLf (content : Bytes) :
    openingLine (withCrLf content)
      = if '\n'.toUInt8 ∈ content then openingLine content ++ ['\r'.toUInt8]
        else openingLine content := by
  induction content with
  | nil => rfl
  | cons b rest ih =>
    rw [withCrLf, List.flatMap_cons]
    by_cases hlf : b = '\n'.toUInt8
    · rw [if_pos hlf, if_pos (hlf ▸ List.mem_cons_self), hlf]
      rfl
    · have hmem : '\n'.toUInt8 ∈ b :: rest ↔ '\n'.toUInt8 ∈ rest := by
        rw [List.mem_cons]
        exact or_iff_right fun h => hlf h.symm
      have hcons : ∀ text : Bytes, openingLine (b :: text) = b :: openingLine text :=
        fun text => List.takeWhile_cons_of_pos (by simpa using hlf)
      rw [if_neg hlf]
      show openingLine (b :: withCrLf rest) = _
      rw [hcons, hcons, ih]
      by_cases hin : '\n'.toUInt8 ∈ rest
      · rw [if_pos hin, if_pos (hmem.mpr hin), List.cons_append]
      · rw [if_neg hin, if_neg (mt hmem.mp hin)]

/-- The first word behind the blanks, as a C string. -/
def firstWord (rest : Bytes) : Option Bytes :=
  let word := rest.takeWhile fun b => !isBlank b
  if word = [] then none else some (cString word)

/-- The interpreter, from the first line. -/
def interpreterIn (line : Bytes) : Option Bytes :=
  if line.take 2 ≠ bytes "#!" then none else firstWord (behindShebang line)

/-- The interpreter is read off the first line, if that fits the buffer. -/
theorem interpreterOf_eq {around : Surroundings} {path content : Bytes}
    (hlen : (openingLine content).length ≤ 255) :
    interpreterOf around path content = interpreterIn (openingLine content) := by
  have hfirst : firstLine content = openingLine content := List.take_of_length_le hlen
  have hcheck : checkShebang (around.withContent content) path
      = if (openingLine content).length < 2 ∨ (openingLine content).take 2 ≠ bytes "#!" then none
        else if ((behindShebang (openingLine content)).takeWhile fun b => !isBlank b) = [] then none
        else some ((behindShebang (openingLine content)).takeWhile fun b => !isBlank b) := by
    rw [checkShebang, Surroundings.withContent, Option.bind_some, hfirst]
    rfl
  rw [interpreterOf, hcheck, interpreterIn]
  by_cases hmark : (openingLine content).take 2 = bytes "#!"
  · have htwo : ¬ (openingLine content).length < 2 := by
      intro hlt
      have hlens := congrArg List.length hmark
      rw [List.length_take, show (bytes "#!").length = 2 from by decide] at hlens
      omega
    have hno : ¬ ((openingLine content).length < 2 ∨ (openingLine content).take 2 ≠ bytes "#!") :=
      fun h => h.elim htwo fun hne => hne hmark
    have hyes : ¬ (openingLine content).take 2 ≠ bytes "#!" := fun hne => hne hmark
    rw [if_neg hno, if_neg hyes, firstWord]
    split
    · rfl
    · rfl
  · rw [if_pos (Or.inr hmark), if_pos hmark]
    rfl

/-- What is behind a byte that ends a word makes no difference to it. -/
theorem takeWhile_append_of_stop {p : UInt8 → Bool} {xs ys : Bytes} {b : UInt8} (hb : b ∈ xs)
    (hstop : p b = false) : (xs ++ ys).takeWhile p = xs.takeWhile p := by
  rw [List.takeWhile_append, if_neg]
  intro hall
  have hself := List.takeWhile_eq_self_iff.mp ((List.takeWhile_prefix p).eq_of_length hall) b hb
  rw [hstop] at hself
  cases hself

/-- A CR behind a line makes no `#!` of its first two bytes. -/
theorem take_two_concat_cr (line : Bytes) :
    (line ++ ['\r'.toUInt8]).take 2 = bytes "#!" ↔ line.take 2 = bytes "#!" := by
  rcases line with _ | ⟨a, _ | ⟨b, rest⟩⟩
  · exact iff_of_false (by decide) (by decide)
  · apply iff_of_false
    · intro h
      exact absurd (List.cons.inj (List.cons.inj h).2).1 (by decide)
    · intro h
      have hlen : 1 = 2 := congrArg List.length h
      cases hlen
  · exact Iff.rfl

/-- It is not a blank. -/
theorem behindShebang_concat_cr {line : Bytes} (h : line.take 2 = bytes "#!") :
    behindShebang (line ++ ['\r'.toUInt8]) = behindShebang line ++ ['\r'.toUInt8] := by
  have hlen : 2 ≤ line.length := by
    have hlens := congrArg List.length h
    rw [List.length_take, show (bytes "#!").length = 2 from by decide] at hlens
    omega
  rw [behindShebang, behindShebang, List.drop_append_of_le_length hlen, List.dropWhile_append]
  split
  · rename_i hempty
    rw [List.isEmpty_iff.mp hempty]
    rfl
  · rfl

/-- Without a blank the interpreter is the rest of the line, up to a NUL. -/
theorem firstWord_of_no_blank {rest : Bytes} (h : ∀ b ∈ rest, isBlank b = false) :
    firstWord rest = if rest = [] then none else some (cString rest) := by
  have hword : rest.takeWhile (fun b => !isBlank b) = rest := by
    rw [List.takeWhile_eq_self_iff]
    intro b hb
    rw [h b hb]
    rfl
  rw [firstWord, hword]

/-- A CR behind a word is a part of it, unless a blank or a NUL ends it before. -/
theorem firstWord_concat_cr_iff (rest : Bytes) :
    firstWord (rest ++ ['\r'.toUInt8]) = firstWord rest ↔ ∃ b ∈ rest, isBlank b = true ∨ b = 0 := by
  by_cases hblank : ∃ b ∈ rest, isBlank b = true
  · -- The word ends before the CR.
    rcases hblank with ⟨b, hb, hstop⟩
    rw [firstWord, firstWord, takeWhile_append_of_stop hb (by rw [hstop, Bool.not_true])]
    exact iff_of_true rfl ⟨b, hb, Or.inl hstop⟩
  · have hrest : ∀ b ∈ rest, isBlank b = false := by
      intro b hb
      by_contra hne
      exact hblank ⟨b, hb, by simpa using hne⟩
    have hcr : ∀ b ∈ rest ++ ['\r'.toUInt8], isBlank b = false := by
      intro b hb
      rcases List.mem_append.mp hb with hb | hb
      · exact hrest b hb
      · rw [List.mem_singleton.mp hb]
        decide
    rw [firstWord_of_no_blank hrest, firstWord_of_no_blank hcr, if_neg (by simp)]
    by_cases hnul : 0 ∈ rest
    · -- The CR is in the word, but `cString` cuts it off.
      have hne : rest ≠ [] := List.ne_nil_of_mem hnul
      have hcut : cString (rest ++ ['\r'.toUInt8]) = cString rest := by
        rw [cString, cString, takeWhile_append_of_stop hnul (by decide)]
      rw [if_neg hne, hcut]
      exact iff_of_true rfl ⟨0, hnul, Or.inr rfl⟩
    · -- The word is all that is left of the line, and the CR is its last byte.
      apply iff_of_false
      · have hnul' : 0 ∉ rest ++ ['\r'.toUInt8] := by
          intro h
          rcases List.mem_append.mp h with h | h
          · exact hnul h
          · cases List.mem_singleton.mp h
        rw [cString_eq_self hnul', cString_eq_self hnul]
        split
        · simp
        · simp
      · intro h
        rcases h with ⟨b, hb, h | h⟩
        · exact hblank ⟨b, hb, h⟩
        · exact hnul (h ▸ hb)

/-- A CR at the end of the line changes nothing if and only if there is no `#!`, or the
interpreter's name ends before it. -/
theorem interpreterIn_concat_iff {line : Bytes} :
    interpreterIn (line ++ ['\r'.toUInt8]) = interpreterIn line ↔
      line.take 2 ≠ bytes "#!" ∨ ∃ b ∈ behindShebang line, isBlank b = true ∨ b = 0 := by
  by_cases hmark : line.take 2 = bytes "#!"
  · have hyes : ¬ line.take 2 ≠ bytes "#!" := fun hne => hne hmark
    have hyes' : ¬ (line ++ ['\r'.toUInt8]).take 2 ≠ bytes "#!" :=
      fun hne => hne ((take_two_concat_cr line).mpr hmark)
    rw [interpreterIn, interpreterIn, if_neg hyes, if_neg hyes', behindShebang_concat_cr hmark,
      or_iff_right hyes, firstWord_concat_cr_iff]
  · rw [interpreterIn, interpreterIn, if_pos hmark, if_pos (mt (take_two_concat_cr line).mp hmark)]
    exact iff_of_true rfl (Or.inl hmark)

/-- **Line ends change the interpreter of a script** just when an LF ends its first line behind
the interpreter: `check_shebang` keeps the CR there. The lines stay the same in any case, as
`do_script` keeps no CR. The first line is cut at 255 bytes, and the bound leaves room for the CR
in both texts. -/
theorem interpreterOf_withCrLf_iff (around : Surroundings) (path content : Bytes)
    (hlen : (openingLine content).length ≤ 250) :
    (interpreterOf around path (withCrLf content) = interpreterOf around path content
      ↔ KeepsInterpreter content) ∧
    linesOf (withCrLf content) = linesOf content := by
  have hcrlf : (openingLine (withCrLf content)).length ≤ 255 := by
    rw [openingLine_withCrLf]
    split
    · rw [List.length_append, List.length_singleton]
      omega
    · omega
  rw [interpreterOf_eq hcrlf, interpreterOf_eq (Nat.le_trans hlen (by decide)),
    openingLine_withCrLf]
  refine ⟨?_, linesOf_withCrLf content⟩
  split
  · rename_i hlf
    rw [interpreterIn_concat_iff, KeepsInterpreter]
    exact (or_iff_right fun h => h hlf).symm
  · rename_i hlf
    exact iff_of_true rfl (Or.inl hlf)

/-- A script with an option behind the interpreter's name keeps it with CR LF as well. -/
theorem interpreterOf_withCrLf_iff_osh :
    (interpreterOf ⟨Env.init, none, fun _ => true, fun _ => none⟩ (bytes "/s")
        (withCrLf (bytes "#! /bin/osh -e\nls\n"))
      = interpreterOf ⟨Env.init, none, fun _ => true, fun _ => none⟩ (bytes "/s")
          (bytes "#! /bin/osh -e\nls\n")
      ↔ KeepsInterpreter (bytes "#! /bin/osh -e\nls\n")) ∧
    linesOf (withCrLf (bytes "#! /bin/osh -e\nls\n")) = linesOf (bytes "#! /bin/osh -e\nls\n") :=
  interpreterOf_withCrLf_iff ⟨Env.init, none, fun _ => true, fun _ => none⟩ (bytes "/s")
    (bytes "#! /bin/osh -e\nls\n") (by decide +kernel)

/-- With no argument behind it, the interpreter gets the CR. -/
theorem interpreterOf_withCrLf_ne_osh :
    '\r'.toUInt8 ∉ bytes "#!/bin/osh\nls\n" ∧ (openingLine (bytes "#!/bin/osh\nls\n")).length ≤ 250 ∧
    interpreterOf ⟨Env.init, none, fun _ => true, fun _ => none⟩ (bytes "/s")
      (bytes "#!/bin/osh\nls\n") = some (bytes "/bin/osh") ∧
    interpreterOf ⟨Env.init, none, fun _ => true, fun _ => none⟩ (bytes "/s")
      (withCrLf (bytes "#!/bin/osh\nls\n")) = some (bytes "/bin/osh\r") := by
  decide +kernel

end OnyxShell
