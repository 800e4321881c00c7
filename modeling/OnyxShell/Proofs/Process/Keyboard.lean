import OnyxShell.Eval
import OnyxShell.Process.Keyboard
import OnyxShell.Process.Main
import OnyxShell.Proofs.Process.Plan

/-!
# `OnyxShell.Proofs.Process.Keyboard`: a line at a prompt

A turn of a prompt reads a line, plans what the line comes to, and performs it. `rawTurn_plans` says
that the first two are those of `typeLine` and `OnyxShell.submitLine`, and `cookedTurn_plans` says
the same of the other prompt and `OnyxShell.cookedLine`. `Repl.run_typeLine` says that `Repl`, which
is cut at its reads, takes the same lines.
-/

set_option autoImplicit false

namespace OnyxShell

/-! ### Keys and the output so far -/

/-- The keys were pressed behind other output. -/
def Typing.onto (before : Bytes) (t : Typing) : Typing := { t with out := before ++ t.out }

/-- The same of what a key leads to. -/
def KeyResult.onto (before : Bytes) : KeyResult → KeyResult
  | .next skip t => .next skip (t.onto before)
  | .lineEnd key t => .lineEnd key (t.onto before)
  | .exit t => .exit (t.onto before)

namespace Typing

variable {before : Bytes} {t : Typing}

/-- What has been printed before is not part of the history. With the lemmas below, a key does the
same whatever stands on the screen from earlier turns. -/
theorem history_onto : (t.onto before).history = t.history := rfl

/-- Echo goes behind what was printed before. -/
theorem write_onto (b : Bytes) : (t.onto before).write b = (t.write b).onto before := by
  simp only [onto, write, List.append_assoc]

/-- Recalling an entry rewrites the line, and not what was printed before it. -/
theorem recallEntry_onto (entry : Bytes) :
    (t.onto before).recallEntry entry = (t.recallEntry entry).onto before := by
  simp only [onto, recallEntry, List.append_assoc]

/-- The up arrow. -/
theorem up_onto : (t.onto before).up = t.up.onto before := by
  rw [up, up]
  rw [history_onto]
  rcases t.history.navUp with ⟨_ | entry, history⟩
  · rfl
  · exact recallEntry_onto (t := { t with history := history }) entry

/-- The down arrow. -/
theorem down_onto : (t.onto before).down = t.down.onto before := by
  rw [down, down]
  rw [history_onto]
  rcases t.history.navDown with ⟨_ | entry, history⟩
  · simp only [onto, List.append_assoc]
  · exact recallEntry_onto (t := { t with history := history }) entry

/-- The right arrow. -/
theorem right_onto : (t.onto before).right = t.right.onto before := by
  rw [right, right]
  show (if h : t.editor.cursor < t.editor.lineLen then _ else _) = _
  split
  · simp only [onto, write, List.append_assoc]
  · rfl

/-- The left arrow. -/
theorem left_onto : (t.onto before).left = t.left.onto before := by
  rw [left, left]
  show (if t.editor.cursor > 0 then _ else _) = _
  split
  · simp only [onto, write, List.append_assoc]
  · rfl

/-- Backspace rewrites the end of the line only. -/
theorem backspace_onto : (t.onto before).backspace = t.backspace.onto before := by
  rw [backspace, backspace]
  show (if t.editor.cursor > 0 then _ else _) = _
  split
  · simp only [onto, write, List.append_assoc]
  · rfl

/-- A byte is inserted at the cursor, and the rest of the line is echoed behind it. -/
theorem insert_onto (c : UInt8) : (t.onto before).insert c = (t.insert c).onto before := by
  rw [insert, insert]
  show (if t.editor.lineLen < LINE_MAX - 1 then _ else _) = _
  split
  · simp only [onto, write, List.append_assoc]
  · rfl

/-- Completion inserts, or prints the candidates and the line again. -/
theorem complete_onto (listing : Listing) :
    (t.onto before).complete listing = (t.complete listing).onto before := by
  simp only [onto, complete, write, List.append_assoc]
  rfl

end Typing

/-- The byte that ends an escape sequence, whichever arrow it is. -/
theorem arrowKey_onto (before : Bytes) (b : UInt8) (t : Typing) :
    arrowKey b (t.onto before) = (arrowKey b t).onto before := by
  simp only [arrowKey]
  split_ifs
  · exact Typing.up_onto
  · exact Typing.down_onto
  · exact Typing.right_onto
  · exact Typing.left_onto

/-- A byte outside of an escape sequence. It puts the lemmas above together. -/
theorem plainKey_onto (before : Bytes) (listing : Listing) (b : UInt8) (t : Typing) :
    plainKey listing b (t.onto before) = (plainKey listing b t).onto before := by
  rw [plainKey, plainKey]
  show (if _ then _ else if _ then _ else if _ then _ else if _ then _ else if _ then
    if t.editor.lineLen = 0 then _ else _ else _) = _
  split_ifs
  · rw [Typing.write_onto]
    rfl
  · rw [Typing.backspace_onto]
    rfl
  · rw [Typing.complete_onto]
    rfl
  · rw [Typing.write_onto]
    rfl
  · rw [Typing.write_onto]
    rfl
  · rfl
  · rw [Typing.insert_onto]
    rfl
  · rfl

/-- A key does the same behind any output. -/
theorem keyStep_onto (before : Bytes) (listing : Listing) (b : UInt8) (rest : Bytes) (t : Typing) :
    keyStep listing b rest (t.onto before) = (keyStep listing b rest t).onto before := by
  rcases rest with _ | ⟨b₁, _ | ⟨b₂, rest⟩⟩
  · exact plainKey_onto before listing b t
  · exact plainKey_onto before listing b t
  · simp only [keyStep]
    split_ifs
    · rw [arrowKey_onto]
      rfl
    · rfl
    · exact plainKey_onto before listing b t

/-- Only a Tab looks at a directory, the one of the word in front of the cursor. -/
theorem keyStep_listing (listing : Listing) (b : UInt8) (rest : Bytes) (t : Typing)
    {names : List Bytes} (hnames : b = 0x09 → names = listing (scanPath (splitDirAndPrefix
      ((t.editor.text.take t.editor.cursor).reverse.takeWhile fun b => !isWhitespace b).reverse).1)) :
    keyStep (fun _ => names) b rest t = keyStep listing b rest t := by
  have hplain : plainKey (fun _ => names) b t = plainKey listing b t := by
    by_cases htab : b = 0x09
    · rw [hnames htab]
      rfl
    · simp only [plainKey, if_neg htab]
  rcases rest with _ | ⟨b₁, _ | ⟨b₂, rest⟩⟩
  · exact hplain
  · exact hplain
  · simp only [keyStep, hplain]

/-! ### The prompt line by line -/

namespace Repl

variable {σ : Type} (sys : System σ)

/-- A process that has exited reads nothing. -/
theorem run_stopped {r : Repl σ} (h : r.running = false) (reads : List (Option Bytes)) :
    r.run sys reads = r := by
  induction reads with
  | nil => rfl
  | cons received reads ih =>
    have hread : r.read sys received = r := if_neg (by simp [h])
    rw [run, List.foldl_cons, hread]
    exact ih

/-- **The prompt takes its input line by line.** A line ends at its first Enter or Ctrl-C, and what
the read has behind it is lost. The next line starts with the read that follows. -/
theorem run_typeLine {r : Repl σ} (hrunning : r.running = true) (reads : List (Option Bytes)) :
    r.run sys reads = r.behindLine sys (typeLine (r.listing sys) reads r.typing) := by
  induction reads generalizing r with
  | nil => rfl
  | cons received reads ih =>
    rw [run, List.foldl_cons, read.eq_def, if_pos hrunning]
    cases received with
    | none => exact run_stopped sys rfl reads
    | some keys =>
      rw [typeLine]
      dsimp only
      cases readKeys (r.listing sys) keys r.typing with
      | next skip t =>
        have hrunning' : (r.withTyping t).running = true := hrunning
        exact ih hrunning'
      | lineEnd key t => rfl
      | exit t => exact run_stopped sys rfl reads

/-- `ls`, and `l` in a line that is not finished. -/
theorem run_typeLine_ls :
    ((init ()).run System.idle [some (bytes "ls\r"), some (bytes "l")]).editor.text = bytes "l" ∧
      (init ()).run System.idle [some (bytes "ls\r"), some (bytes "l")]
        = (init ()).behindLine System.idle (typeLine (fun _ => [])
          [some (bytes "ls\r"), some (bytes "l")] (init ()).typing) :=
  ⟨by decide +kernel, run_typeLine System.idle (by decide) _⟩

end Repl

namespace Process

open Routine (twp twp_bind twp_pure twp_mono twp_get twp_set twp_modify)

variable {fs : Fs} {leaves : Bytes → Prop} {g : Globals} {d : Desk}

/-! ### The monitor -/

namespace Desk

/-- More output. -/
def print (d : Desk) (b : Bytes) : Desk := { d with world := d.world.print b }

/-- Another place in a directory. -/
def setSeen (d : Desk) (path : Bytes) (n : Nat) : Desk := { d with world := d.world.setSeen path n }

/-- The terminal behind some keys. -/
def typed (d : Desk) (t : Typing) : Desk := { d with world := { d.world with out := t.out } }

/-- Nothing printed is nothing changed. -/
theorem print_nil {d : Desk} : d.print [] = d := by
  simp only [print, World.print_nil]

end Desk

/-- The keyboard's desk takes output at any time. -/
theorem writes_keyboard : Writes (keyboard fs leaves) Desk.print where
  allows _ _ := trivial
  answered _ _ := ⟨⟨0, []⟩, trivial⟩
  next _ _ _ := rfl
  append d b b' := by simp only [Desk.print, World.print_print]

/-- At the keyboard directories are listed as at the console. -/
theorem lists_keyboard :
    Lists (keyboard fs leaves) fs.names (fun d => d.world.seen) Desk.setSeen where
  text := fs.names_text
  allows _ _ := trivial
  admits _ _ _ h := h
  next _ _ _ := rfl
  seen_setSeen _ _ _ := World.seen_setSeen _ _ _
  setSeen_setSeen d path n n' := by simp only [Desk.setSeen, World.setSeen_setSeen]
  setSeen_seen d path := by simp only [Desk.setSeen, World.setSeen_of_seen]

/-- Listings and output together, which is what the planning of a line needs. -/
theorem scans_keyboard :
    Scans (keyboard fs leaves) Desk.print fs.names fun d => Rested fs d.world where
  toWrites := writes_keyboard
  still_print _ _ h := h
  print_nil _ := Desk.print_nil
  scan := lists_keyboard.scan

/-! ### The raw prompt -/

/-- A read of the terminal is answered by the next of the reads to come, and by nothing when there
is none. -/
theorem twp_terminal (len : Nat) {Q : Answer → Globals → Desk → Prop}
    (hQ : ∀ a, Delivers len a d.reads → Q a g { d with reads := d.reads.tail }) :
    twp (keyboard fs leaves) (sys (.read 0 len)) Q g d :=
  ⟨trivial, hQ⟩

/-- What has been delivered, in the buffer. -/
theorem take_into_delivered {a : Answer} {keys buf : Bytes} (hout : a.out = keys)
    (hle : keys.length ≤ buf.length) : (a.into buf).take keys.length = keys := by
  rw [Answer.into, hout, List.take_of_length_le hle, List.take_left]

/-- Giving up the processor changes nothing. -/
theorem twp_yield {Q : Answer → Globals → Desk → Prop} (hQ : ∀ a, Q a g d) :
    twp (keyboard fs leaves) (sys .yieldCpu) Q g d :=
  ⟨trivial, fun a _ => hQ a⟩

/-- The names for a Tab. -/
theorem twp_completionNames (hrested : Rested fs d.world) (b : UInt8) (e : Editor)
    {Q : List Bytes → Globals → Desk → Prop}
    (hQ : ∀ names, (b = 0x09 → names = fs.names (scanPath (splitDirAndPrefix
      ((e.text.take e.cursor).reverse.takeWhile fun b => !isWhitespace b).reverse).1)) →
        Q names g d) : twp (keyboard fs leaves) (completionNames b e) Q g d := by
  rw [completionNames]
  by_cases htab : b = 0x09
  · rw [if_pos htab]
    exact scans_keyboard.scan _ Q g d hrested (hQ _ fun _ => rfl)
  · rw [if_neg htab]
    exact hQ [] fun h => absurd h htab

/-- A key at the prompt. -/
theorem twp_pressKey (hrested : Rested fs d.world) (b : UInt8) (rest : Bytes) (e : Editor)
    {Q : KeyResult → Globals → Desk → Prop}
    (hQ : ∀ r, r.onto d.world.out = keyStep fs.names b rest ⟨e, g.history, d.world.out⟩ →
      Q r { g with history := (typingOf r).history } (d.print (typingOf r).out)) :
    twp (keyboard fs leaves) (pressKey b rest e) Q g d := by
  rw [pressKey, twp_bind]
  refine twp_completionNames hrested b e ?_
  intro names hnames
  have hkey : (keyStep (fun _ => names) b rest ⟨e, g.history, []⟩).onto d.world.out
      = keyStep fs.names b rest ⟨e, g.history, d.world.out⟩ := by
    rw [keyStep_listing fs.names b rest ⟨e, g.history, []⟩ hnames, ← keyStep_onto]
    simp only [Typing.onto, List.append_nil]
  -- `pressKey` starts from an empty output, and writes it behind what the terminal shows.
  have hr := hQ _ hkey
  rw [twp_bind, twp_get]
  generalize keyStep (fun _ => names) b rest ⟨e, g.history, []⟩ = r at hr ⊢
  show twp _ (set { g with history := (typingOf r).history } >>= fun _ =>
    writeKey (typingOf r).out >>= fun _ => pure r) Q g d
  rw [twp_bind, twp_set, twp_bind, writeKey]
  by_cases hsilent : (typingOf r).out = []
  · rw [if_pos hsilent, twp_pure]
    rw [hsilent, Desk.print_nil] at hr
    exact hr
  · rw [if_neg hsilent, writes_keyboard.twp_writeRaw]
    exact hr

/-- An exit, where the process may leave. -/
theorem twp_exit {α : Type} (hleaves : leaves d.world.out) {Q : α → Globals → Desk → Prop} :
    twp (keyboard fs leaves) (exit 0) Q g d :=
  ⟨hleaves, fun _ _ => hleaves⟩

/-- What is to hold behind the keys of a read. -/
def KeysLead (leaves : Bytes → Prop) (Q : Loop.Turn Editor Editor → Globals → Desk → Prop)
    (g : Globals) (d : Desk) : KeyResult → Prop
  | .next _ t => Q (.next t.editor) { g with history := t.history } (d.typed t)
  | .lineEnd _ t => Q (.ret t.editor) { g with history := t.history } (d.typed t)
  | .exit t => leaves t.out

/-- The history and the output of before are gone. -/
theorem KeysLead.behind {Q : Loop.Turn Editor Editor → Globals → Desk → Prop} {r : KeyResult}
    (h : KeysLead leaves Q g d r) (history : History) (b : Bytes) :
    KeysLead leaves Q { g with history := history } (d.print b) r := by
  cases r with
  | next skip t => exact h
  | lineEnd key t => exact h
  | exit t => exact h

/-- The keys of one read. -/
theorem twp_pressKeys (hrested : Rested fs d.world) (keys : Bytes) (e : Editor)
    {Q : Loop.Turn Editor Editor → Globals → Desk → Prop}
    (hQ : KeysLead leaves Q g d (readKeys fs.names keys ⟨e, g.history, d.world.out⟩)) :
    twp (keyboard fs leaves) (pressKeys keys e) Q g d := by
  -- On the number of keys, since an arrow takes three bytes at once.
  induction hlen : keys.length using Nat.strongRecOn generalizing keys e g d with
  | ind n ih =>
  cases keys with
  | nil =>
    rw [readKeys] at hQ
    rw [pressKeys]
    exact hQ
  | cons b rest =>
    rw [readKeys] at hQ
    rw [pressKeys, twp_bind]
    refine twp_pressKey hrested b rest e ?_
    intro r hr
    rw [← hr] at hQ
    cases r with
    | next skip t =>
      have hrested' : Rested fs (d.print t.out).world := hrested
      refine ih (rest.drop skip).length ?_ hrested' _ _ (hQ.behind t.history t.out) rfl
      rw [← hlen, List.length_drop, List.length_cons]
      omega
    | lineEnd key t => exact hQ
    | exit t =>
      refine twp_exit ?_
      exact hQ

/-- What is to hold behind a line. -/
def LineLeads (leaves : Bytes → Prop) (Q : RawState → Globals → Desk → Prop) (g : Globals) (d : Desk) :
    LineResult → Prop
  | .waiting _ => True
  | .line t rest => ∀ rxBuf : Bytes, rxBuf.length = RX_LEN →
      Q ⟨t.editor, rxBuf⟩ { g with history := t.history } { d.typed t with reads := rest }
  | .gone t => leaves t.out

/-- The keys of a line. -/
theorem twp_editLine {turns : Nat} (hturns : d.reads.length < turns) (hrested : Rested fs d.world)
    (rs : RawState) (hrx : rs.rxBuf.length = RX_LEN) {Q : RawState → Globals → Desk → Prop}
    (hQ : LineLeads leaves Q g d
      (typeLine fs.names d.reads ⟨rs.editor, g.history, d.world.out⟩)) :
    twp (keyboard fs leaves) (editLine turns rs) Q g d := by
  let Inv : RawState → Globals → Desk → Prop := fun rs' g' d' =>
    rs'.rxBuf.length = RX_LEN ∧ Rested fs d'.world ∧
      LineLeads leaves Q g' d' (typeLine fs.names d'.reads ⟨rs'.editor, g'.history, d'.world.out⟩)
  -- The reads that are left, from the keys so far, come to the same line. Each turn takes one read.
  have hstart : Inv rs g d := ⟨hrx, hrested, hQ⟩
  refine Routine.twp_loop Inv (fun _ _ d' => d'.reads.length) ?_ hstart hturns
  rintro ⟨e, rxBuf⟩ g' ⟨w, reads⟩ ⟨hrx', hrested', hleads⟩
  have hstill : ∀ reads, Rested fs (⟨w, reads⟩ : Desk).world := fun _ => hrested'
  rw [twp_bind]
  refine twp_terminal RX_LEN ?_
  intro a ha
  cases reads with
  | nil => exact ha.elim
  | cons received reads =>
    cases received with
    | none =>
      -- `syscalls::exit(0)`, with what the terminal shows by now.
      have hneg : a.ret < 0 := ha
      rw [if_neg (by omega), if_pos hneg]
      refine twp_exit ?_
      exact hleads
    | some keys =>
      have ha' : a.ret = (keys.length : Int) ∧ a.out = keys ∧ keys.length ≤ RX_LEN := ha
      rcases ha' with ⟨hret, hout, hle⟩
      by_cases hnone : keys = []
      · -- Nothing has been typed yet.
        have hzero : a.ret = 0 := by
          rw [hret, hnone]
          rfl
        rw [if_pos hzero, twp_bind]
        refine twp_yield ?_
        intro _
        rw [hnone] at hleads
        simp only [typeLine, readKeys] at hleads
        exact ⟨⟨hrx', hrested', hleads⟩, Nat.lt_succ_self _⟩
      · have hpos : 0 < keys.length := List.length_pos_of_ne_nil hnone
        have hinto : (a.into rxBuf).length = RX_LEN := (a.length_into rxBuf).trans hrx'
        have htake : (a.into rxBuf).take keys.length = keys :=
          take_into_delivered hout (by rw [hrx']; exact hle)
        rw [if_neg (by omega), if_neg (by omega), hret, Int.toNat_natCast, twp_bind]
        refine twp_slice (by rw [hinto]; exact hle) ?_
        rw [htake, twp_bind]
        refine twp_pressKeys (hstill reads) keys e ?_
        rw [typeLine] at hleads
        -- The keys of one read lead on, to the end of the line, or out of the process.
        cases hkeys : readKeys fs.names keys ⟨e, g'.history, w.out⟩ with
        | next skip t =>
          rw [hkeys] at hleads
          exact ⟨⟨hinto, hrested', hleads⟩, Nat.lt_succ_self _⟩
        | lineEnd key t =>
          rw [hkeys] at hleads
          exact hleads _ hinto
        | exit t =>
          rw [hkeys] at hleads
          exact hleads

/-! ### Turns and their plans -/

/-- The action of a line of the raw prompt. -/
def planSubmit (line : Bytes) : Sh Action :=
  if line = [] then pure .nothing
  else do
    modify fun g => { g with history := g.history.push line }
    if hasOp line then pure (OnyxShell.runPipeline line) else planLine line

/-- A turn of the raw prompt up to the action of its line. -/
def planRawTurn (turns : Nat) (s : RawState) : Sh (RawState × Action) := do
  writeRaw PROMPT
  modify fun g => { g with history := g.history.navReset }
  let s ← editLine turns { s with editor := s.editor.empty }
  let action ← planSubmit s.editor.text
  pure (s, action)

/-- A turn of the cooked prompt up to the action of its line. -/
def planCookedTurn (gLine : Bytes) : Sh (Bytes × Action) := do
  writeRaw PROMPT
  let (n, gLine) ← readLine gLine
  if n = 0 then pure (gLine, .nothing)
  else do
    let line := stripEnd (← slice gLine n)
    if line = [] then pure (gLine, .nothing)
    else do
      let action ← planLine line
      pure (gLine, action)

/-- What is done with a plan. -/
def performPlan {α : Type} (turns : Nat) (plan : α × Action) : Sh α := do
  perform turns (source turns) plan.2
  pure plan.1

/-- Submitting a line is planning it and then doing what is planned. The two sides are the same
program. -/
theorem submitLine_eq (turns : Nat) (line : Bytes) :
    submitLine turns line = planSubmit line >>= perform turns (source turns) := by
  rw [submitLine, planSubmit]
  split
  · rfl
  · rw [bind_assoc]
    congr 1
    funext _
    split
    · rfl
    · exact evalLine_eq turns line

/-- A turn of the raw prompt is a plan and its execution. -/
theorem rawTurn_eq (turns : Nat) (s : RawState) :
    rawTurn turns s = planRawTurn turns s >>= performPlan turns := by
  simp only [rawTurn, planRawTurn, submitLine_eq, bind_assoc, pure_bind]
  rfl

/-- A turn of the cooked prompt is a plan and its execution. -/
theorem cookedTurn_eq (turns : Nat) (gLine : Bytes) :
    cookedTurn turns gLine = planCookedTurn gLine >>= performPlan turns := by
  rw [cookedTurn, planCookedTurn, bind_assoc]
  congr 1
  funext _
  rw [bind_assoc]
  congr 1
  funext r
  rcases r with ⟨n, gLine⟩
  dsimp only
  split
  · rfl
  · rw [bind_assoc]
    congr 1
    funext line
    split
    · rfl
    · rw [bind_assoc, evalLine_eq, bind_assoc]
      rfl

/-! ### The plans under the monitor -/

/-- The plan of a line of the raw prompt is what `OnyxShell.submitLine` says. -/
theorem twp_planSubmit (hrested : Rested fs d.world) (line : Bytes)
    {Q : Action → Globals → Desk → Prop}
    (hQ : Q (OnyxShell.submitLine g.env fs.names g.history line).action
      { g with history := (OnyxShell.submitLine g.env fs.names g.history line).history }
      (d.print ((OnyxShell.submitLine g.env fs.names g.history line).messages.flatMap errorText))) :
    twp (keyboard fs leaves) (planSubmit line) Q g d := by
  rw [OnyxShell.submitLine] at hQ
  rw [planSubmit]
  by_cases hempty : line = []
  · simp only [if_pos hempty, List.flatMap_nil, Desk.print_nil] at hQ ⊢
    exact hQ
  simp only [if_neg hempty] at hQ ⊢
  rw [twp_bind, twp_modify]
  by_cases hop : hasOp line = true
  · simp only [if_pos hop, List.flatMap_nil, Desk.print_nil] at hQ ⊢
    exact hQ
  simp only [if_neg hop] at hQ ⊢
  exact scans_keyboard.twp_planLine hrested line hQ

/-- The keys of the line of a turn. -/
def turnKeys (fs : Fs) (rs : RawState) (g : Globals) (d : Desk) : LineResult :=
  typeLine fs.names d.reads ⟨rs.editor.empty, g.history.navReset, d.world.out ++ PROMPT⟩

/-- What a line comes to that has been typed. -/
def typedLine (fs : Fs) (g : Globals) (t : Typing) : Evaluation :=
  OnyxShell.submitLine g.env fs.names t.history t.editor.text

/-- What is left of a desk behind a line, with this output and these reads to come. -/
def Desk.behind (d : Desk) (out : Bytes) (messages : List Bytes) (rest : List (Option Bytes)) :
    Desk :=
  ⟨{ d.world with out := out ++ messages.flatMap errorText }, rest⟩

/-- What is to hold behind a turn of the raw prompt. -/
def TurnLeads (fs : Fs) (leaves : Bytes → Prop) (Q : RawState × Action → Globals → Desk → Prop)
    (g : Globals) (d : Desk) : LineResult → Prop
  | .waiting _ => True
  | .line t rest => ∀ rxBuf : Bytes, rxBuf.length = RX_LEN →
      Q (⟨t.editor, rxBuf⟩, (typedLine fs g t).action)
        { g with history := (typedLine fs g t).history }
        (d.behind t.out (typedLine fs g t).messages rest)
  | .gone t => leaves t.out

/-- A turn of the raw prompt comes to what the pure model makes of its keys, for any way in which
they arrive. The loop's measure is the number of reads to come. -/
theorem twp_planRawTurn {turns : Nat} (hturns : d.reads.length < turns)
    (hrested : Rested fs d.world) (rs : RawState) (hrx : rs.rxBuf.length = RX_LEN)
    {Q : RawState × Action → Globals → Desk → Prop}
    (hQ : TurnLeads fs leaves Q g d (turnKeys fs rs g d)) :
    twp (keyboard fs leaves) (planRawTurn turns rs) Q g d := by
  rw [planRawTurn, twp_bind, writes_keyboard.twp_writeRaw, twp_bind, twp_modify, twp_bind]
  have hrested' : Rested fs (d.print PROMPT).world := hrested
  have hturns' : (d.print PROMPT).reads.length < turns := hturns
  refine twp_editLine hturns' hrested' ⟨rs.editor.empty, rs.rxBuf⟩ hrx ?_
  show LineLeads leaves _ _ _ (turnKeys fs rs g d)
  cases hkeys : turnKeys fs rs g d with
  | waiting t => trivial
  | gone t =>
    rw [hkeys] at hQ
    exact hQ
  | line t rest =>
    rw [hkeys] at hQ
    intro rxBuf hlen
    rw [twp_bind]
    refine twp_planSubmit ?_ t.editor.text ?_
    · exact hrested
    · exact hQ rxBuf hlen

/-- What a read of the cooked prompt comes to. `none` is a negative result. -/
def cookedRead (fs : Fs) (g : Globals) : Option Bytes → Evaluation
  | none => ⟨.nothing, g.history, []⟩
  | some keys => OnyxShell.cookedLine g.env fs.names g.history keys

/-- A turn of the cooked prompt comes to what the pure model makes of the line it has read. -/
theorem twp_planCookedTurn {w : World} {received : Option Bytes} {reads : List (Option Bytes)}
    (hrested : Rested fs w) (gLine : Bytes) (hline : gLine.length = LINE_MAX)
    {Q : Bytes × Action → Globals → Desk → Prop}
    (hQ : ∀ gLine' : Bytes, gLine'.length = LINE_MAX →
      Q (gLine', (cookedRead fs g received).action)
        { g with history := (cookedRead fs g received).history }
        (Desk.behind ⟨w, reads⟩ (w.out ++ PROMPT) (cookedRead fs g received).messages reads)) :
    twp (keyboard fs leaves) (planCookedTurn gLine) Q g ⟨w, received :: reads⟩ := by
  rw [planCookedTurn, twp_bind, writes_keyboard.twp_writeRaw, twp_bind, readLine, twp_bind]
  refine twp_terminal _ ?_
  intro a ha
  have hinto : (a.into gLine).length = LINE_MAX := (a.length_into gLine).trans hline
  have hrested' : Rested fs ((⟨w, reads⟩ : Desk).print PROMPT).world := hrested
  cases received with
  | none =>
    have hneg : a.ret < 0 := ha
    rw [twp_pure, if_pos (Int.le_of_lt hneg)]
    have hq := hQ _ hinto
    simp only [Desk.behind, cookedRead, List.flatMap_nil, List.append_nil] at hq
    exact hq
  | some keys =>
    have ha' : a.ret = (keys.length : Int) ∧ a.out = keys ∧ keys.length ≤ gLine.length := ha
    rcases ha' with ⟨hret, hout, hle⟩
    have hcount : (if a.ret ≤ 0 then 0 else a.ret.toNat) = keys.length := by
      rw [hret]
      split
      · omega
      · rfl
    have htake : (a.into gLine).take keys.length = keys := take_into_delivered hout hle
    have hq := hQ _ hinto
    simp only [Desk.behind, cookedRead, OnyxShell.cookedLine] at hq
    rw [twp_pure, hcount]
    show twp (keyboard fs leaves) (if keys.length = 0 then _ else _) Q g _
    by_cases hnone : keys.length = 0
    · -- An empty read is an empty line.
      rw [if_pos hnone]
      have hnil : keys = [] := List.length_eq_zero_iff.mp hnone
      have hstrip : stripEnd keys = [] := by
        rw [hnil]
        rfl
      simp only [if_pos hstrip, List.flatMap_nil, List.append_nil] at hq
      exact hq
    · rw [if_neg hnone, twp_bind]
      refine twp_slice (by rw [hinto, ← hline]; exact hle) ?_
      rw [htake]
      show twp (keyboard fs leaves) (if stripEnd keys = [] then _ else _) Q g _
      by_cases hstrip : stripEnd keys = []
      · rw [if_pos hstrip]
        simp only [if_pos hstrip, List.flatMap_nil, List.append_nil] at hq
        exact hq
      · rw [if_neg hstrip, twp_bind]
        simp only [if_neg hstrip] at hq
        exact scans_keyboard.twp_planLine hrested' (stripEnd keys) hq

/-! ### Runs -/

/-- The keys of a turn end in an exit that leaves this on the terminal. -/
def LeavesWith (fs : Fs) (rs : RawState) (g : Globals) (d : Desk) (out : Bytes) : Prop :=
  ∃ t, turnKeys fs rs g d = .gone t ∧ t.out = out

/-- What a turn of the raw prompt has come to, behind its line. -/
def TurnDone (fs : Fs) (rs : RawState) (g : Globals) (d : Desk) (r : (RawState × Action) × Globals)
    (d' : Desk) : Prop :=
  ∃ t rest, ∃ rxBuf : Bytes, turnKeys fs rs g d = .line t rest ∧ rxBuf.length = RX_LEN ∧
    r = ((⟨t.editor, rxBuf⟩, (typedLine fs g t).action),
      { g with history := (typedLine fs g t).history }) ∧
    d' = d.behind t.out (typedLine fs g t).messages rest

section
variable {turns : Nat} {events : List (Prog.Event SysCall Answer)}

/-- **A turn of the raw prompt.** It is a plan that is performed. A run of the planning waits for
the terminal or makes another call, or its line has been typed, and then the line, the output, the
history and the plan are those of `typeLine` and `OnyxShell.submitLine`. It exits just where
`typeLine` does, and with the same output. -/
theorem rawTurn_plans (hturns : d.reads.length < turns) (hrested : Rested fs d.world)
    {rs : RawState} (hrx : rs.rxBuf.length = RX_LEN)
    {q : Prog SysCall Answer ((RawState × Action) × Globals)}
    (htrace : Prog.Trace (planRawTurn turns rs g) events q)
    (hanswered : (keyboard fs (LeavesWith fs rs g d)).Answered d events) :
    rawTurn turns rs = planRawTurn turns rs >>= performPlan turns ∧
      ((∃ c, q.nextCall = some c) ∨
        (∃ r, q = .ret r ∧
          TurnDone fs rs g d r ((keyboard fs (LeavesWith fs rs g d)).after d events)) ∨
        q = .halt ∧ LeavesWith fs rs g d
          ((keyboard fs (LeavesWith fs rs g d)).after d events).world.out) := by
  have hleads : TurnLeads fs (LeavesWith fs rs g d)
      (fun r g' d' => TurnDone fs rs g d (r, g') d') g d (turnKeys fs rs g d) := by
    cases hkeys : turnKeys fs rs g d with
    | waiting t => trivial
    | gone t => exact ⟨t, hkeys, rfl⟩
    | line t rest => exact fun rxBuf hlen => ⟨t, rest, rxBuf, hkeys, hlen, rfl, rfl⟩
  exact ⟨rawTurn_eq turns rs,
    Prog.twp_run_cases htrace (twp_planRawTurn hturns hrested rs hrx hleads) hanswered⟩

/-- `ls` is typed, with a pause. -/
def typedReads : List (Option Bytes) := [some (bytes "l"), some [], some (bytes "s\r")]

/-- The calls of its turn. -/
def typedEvents : List (Prog.Event SysCall Answer) :=
  [(.write 1 PROMPT, ⟨0, []⟩), (.read 0 RX_LEN, ⟨1, bytes "l"⟩), (.write 1 (bytes "l"), ⟨1, []⟩),
    (.read 0 RX_LEN, ⟨0, []⟩), (.yieldCpu, ⟨0, []⟩), (.read 0 RX_LEN, ⟨2, bytes "s\r"⟩),
    (.write 1 (bytes "s"), ⟨1, []⟩), (.write 1 (bytes "\r\n"), ⟨2, []⟩)]

/-- The keys `ls` and Enter, over several reads, plan `ls`. -/
theorem rawTurn_plans_ls : ∃ r, Prog.Trace (planRawTurn 4 RawState.init Globals.init) typedEvents
    (.ret r) ∧ r.1.2 = .dispatch [bytes "ls"] := by
  have hret : ((planRawTurn 4 RawState.init Globals.init).follow typedEvents).any
      Prog.returned = true := by
    decide +kernel
  rcases Prog.exists_trace_ret hret with ⟨r, htrace⟩
  have hplans := (rawTurn_plans (d := ⟨World.fresh, typedReads⟩) (by decide) rested_twoNames
    (by decide) htrace (by decide +kernel)).2
  rcases hplans with ⟨c, hcall⟩ | ⟨r', hr, t, rest, rxBuf, hkeys, -, rfl, -⟩ | ⟨hhalt, -⟩
  · cases hcall
  · cases hr
    refine ⟨_, htrace, ?_⟩
    have haction : (match turnKeys twoNames RawState.init Globals.init ⟨World.fresh, typedReads⟩ with
        | .line t _ => decide ((typedLine twoNames Globals.init t).action = .dispatch [bytes "ls"])
        | _ => false) = true := by
      decide +kernel
    rw [hkeys] at haction
    exact of_decide_eq_true haction
  · cases hhalt

/-- **A turn of the cooked prompt.** It is a plan that is performed, and the plan, the history and
the messages are those of `OnyxShell.cookedLine` for what the read has delivered. -/
theorem cookedTurn_plans (turns : Nat) {w : World} {received : Option Bytes}
    {reads : List (Option Bytes)} (hrested : Rested fs w) {gLine : Bytes} (hline : gLine.length = LINE_MAX)
    {q : Prog SysCall Answer ((Bytes × Action) × Globals)}
    (htrace : Prog.Trace (planCookedTurn gLine g) events q)
    (hanswered : (keyboard fs fun _ => False).Answered ⟨w, received :: reads⟩ events) :
    cookedTurn turns gLine = planCookedTurn gLine >>= performPlan turns ∧
      ((∃ c, q.nextCall = some c) ∨
        ∃ gLine' : Bytes, gLine'.length = LINE_MAX ∧
          q = .ret ((gLine', (cookedRead fs g received).action),
            { g with history := (cookedRead fs g received).history }) ∧
          (keyboard fs fun _ => False).after ⟨w, received :: reads⟩ events =
            Desk.behind ⟨w, reads⟩ (w.out ++ PROMPT) (cookedRead fs g received).messages reads) := by
  refine ⟨cookedTurn_eq turns gLine, ?_⟩
  have htwp : twp (keyboard fs fun _ => False) (planCookedTurn gLine)
      (fun r g' d' => ∃ gLine' : Bytes, gLine'.length = LINE_MAX ∧
        (r, g') = ((gLine', (cookedRead fs g received).action),
          { g with history := (cookedRead fs g received).history }) ∧
        d' = Desk.behind ⟨w, reads⟩ (w.out ++ PROMPT) (cookedRead fs g received).messages reads)
      g ⟨w, received :: reads⟩ :=
    twp_planCookedTurn hrested gLine hline fun gLine' hlen => ⟨gLine', hlen, rfl, rfl⟩
  rcases Prog.twp_run htrace htwp hanswered not_false with hcall | ⟨r, hret, gLine', hlen, hr, hd⟩
  · exact Or.inl hcall
  · exact Or.inr ⟨gLine', hlen, hret.trans (congrArg Prog.ret hr), hd⟩

/-- `echo *` at the cooked prompt. -/
def cookedEvents : List (Prog.Event SysCall Answer) :=
  [(.write 1 PROMPT, ⟨0, []⟩), (.read 0 LINE_MAX, ⟨7, bytes "echo *\n"⟩)] ++ scanEvents

/-- The line `echo *` plans an `echo` of the two names of the directory. -/
theorem cookedTurn_plans_echo : ∃ r, Prog.Trace (planCookedTurn (zeros LINE_MAX) Globals.init)
    cookedEvents (.ret r) ∧ r.1.2 = .dispatch [bytes "echo", bytes "a", bytes "b"] := by
  have hret : ((planCookedTurn (zeros LINE_MAX) Globals.init).follow cookedEvents).any
      Prog.returned = true := by
    decide +kernel
  rcases Prog.exists_trace_ret hret with ⟨r, htrace⟩
  have hanswered : (keyboard twoNames fun _ => False).Answered
      ⟨World.fresh, [some (bytes "echo *\n")]⟩ cookedEvents := by
    decide +kernel
  have haction : (cookedRead twoNames Globals.init (some (bytes "echo *\n"))).action
      = .dispatch [bytes "echo", bytes "a", bytes "b"] := by
    decide +kernel
  rcases (cookedTurn_plans 1 rested_twoNames (length_zeros _) htrace hanswered).2 with
    ⟨c, hcall⟩ | ⟨gLine', -, hr, -⟩
  · cases hcall
  · cases hr
    exact ⟨_, htrace, haction⟩

end

end Process

end OnyxShell
