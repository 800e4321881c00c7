import OnyxShell.Repl.Editor

/-!
# `OnyxShell.Repl.Raw`: the raw-mode prompt

`raw_mode_repl` of `src/repl/raw.rs`, cut at its `read` calls: `Repl` is the state when the
shell waits for input, and `Repl.read` is what happens until it waits again. `keyStep` is
one turn of the loop over the receive buffer, on the bytes `rx_buf[i..n]` that are left.
`submitLine` is the code behind the key loop.

What the prompt depends on besides its input is a `System`. The calls that take a line to
be stored or run are logged in `Repl.calls`.
-/

set_option autoImplicit false

namespace OnyxShell

/-- What a key leads to. -/
inductive KeyResult
  /-- The loop goes on, behind `skip` more bytes. -/
  | next (skip : Nat) (t : Typing)
  /-- `break 'line_loop`, at the key `key`. -/
  | lineEnd (key : UInt8) (t : Typing)
  /-- `syscalls::exit(0)`. -/
  | exit (t : Typing)

/-- The letter of an arrow key. -/
def isArrowLetter (b : UInt8) : Bool := 'A'.toUInt8 ≤ b && b ≤ 'D'.toUInt8

/-- The arrow key with the letter `b`. -/
def arrowKey (b : UInt8) (t : Typing) : Typing :=
  if b = 'A'.toUInt8 then t.up
  else if b = 'B'.toUInt8 then t.down
  else if b = 'C'.toUInt8 then t.right
  else t.left

/-- A byte that is not the start of an escape sequence in the buffer. -/
def plainKey (listing : Listing) (b : UInt8) (t : Typing) : KeyResult :=
  if b = '\r'.toUInt8 ∨ b = '\n'.toUInt8 then .lineEnd b (t.write (bytes "\r\n"))
  else if b = 0x7F ∨ b = 0x08 then .next 0 t.backspace
  else if b = 0x09 then .next 0 (t.complete listing)
  else if b = 0x03 then .lineEnd b (t.write (bytes "^C\r\n"))
  else if b = 0x04 then
    if t.editor.lineLen = 0 then .exit (t.write (bytes "exit\r\n")) else .next 0 t
  else if 0x20 ≤ b ∧ b < 0x7F then .next 0 (t.insert b)
  else .next 0 t

/-- One turn of the key loop: the byte `b`, with `rest` behind it in the buffer. -/
def keyStep (listing : Listing) (b : UInt8) (rest : Bytes) (t : Typing) : KeyResult :=
  match rest with
  | b1 :: b2 :: _ =>
    if b = ESC then
      if b1 = '['.toUInt8 ∧ isArrowLetter b2 then .next 2 (arrowKey b2 t) else .next 0 t
    else plainKey listing b t
  | _ => plainKey listing b t

/-- The key loop over the bytes of one read. -/
def readKeys (listing : Listing) : Bytes → Typing → KeyResult
  | [], t => .next 0 t
  | b :: rest, t =>
    match keyStep listing b rest t with
    | .next skip t => readKeys listing (rest.drop skip) t
    | .lineEnd key t => .lineEnd key t
    | .exit t => .exit t
termination_by keys => keys.length
decreasing_by
  rw [List.length_drop, List.length_cons]
  omega

/-- The code behind the key loop: the line is stored, and run as it stands if it has an
operator. -/
def submitLine (env : Env) (listing : Listing) (h : History) (line : Bytes) : Evaluation :=
  if line = [] then ⟨.nothing, h, []⟩
  else
    let h := h.push line
    if hasOp line then ⟨runPipeline line, h, []⟩ else evalLine env listing h line

/-- What the prompt reads and runs: the commands, the kernel's answers, and where the
world keeps the environment and the directories. -/
structure System (σ : Type) where
  commands : Commands σ
  answers : Answers
  env : σ → Env
  listing : σ → Listing

/-- A world with nothing in it, and commands that do nothing. -/
def System.idle : System Unit := ⟨Commands.idle, fun _ => none, fun _ => Env.init, fun _ _ => []⟩

/-- A call that takes a line to be stored or run. -/
inductive Call
  | historyPush (line : Bytes)
  | execute (line : Bytes)
  | evalLine (line : Bytes)
deriving DecidableEq, Repr

/-- The line that a call submits for evaluation. -/
def Call.submitted : Call → Option Bytes
  | .historyPush _ => none
  | .execute line => some line
  | .evalLine line => some line

/-- The prompt when it waits for input. -/
structure Repl (σ : Type) where
  editor : Editor
  history : History
  out : Bytes
  shell : Shell σ
  /-- The calls made so far. -/
  calls : List Call
  /-- The process has not exited. -/
  running : Bool

namespace Repl

variable {σ : Type}

/-- What the keys of the line work on. -/
def typing (r : Repl σ) : Typing := ⟨r.editor, r.history, r.out⟩

/-- The prompt behind some keys. -/
def withTyping (r : Repl σ) (t : Typing) : Repl σ :=
  { r with editor := t.editor, history := t.history, out := t.out }

/-- The directories the prompt sees. -/
def listing (sys : System σ) (r : Repl σ) : Listing := sys.listing r.shell.world

/-- The start of a line. -/
def prompt (r : Repl σ) : Repl σ :=
  { r with editor := r.editor.empty, history := r.history.navReset, out := r.out ++ PROMPT }

/-- The end of a line. A command that does not return ends the process. -/
def submit (sys : System σ) (r : Repl σ) : Repl σ :=
  let line := r.editor.text
  if line = [] then r
  else
    let e := submitLine (sys.env r.shell.world) (sys.listing r.shell.world) r.history line
    let calls := r.calls ++
      [.historyPush line, if hasOp line then .execute line else .evalLine line]
    let shell := e.messages.foldl (fun s msg => s.report (.error msg)) r.shell
    match e.action.perform sys.commands sys.answers shell with
    | some shell => { r with history := e.history, shell := shell, calls := calls }
    | none => { r with history := e.history, shell := shell, calls := calls, running := false }

/-- The end of a line, and the start of the next one. -/
def nextLine (sys : System σ) (r : Repl σ) : Repl σ :=
  if (r.submit sys).running then (r.submit sys).prompt else r.submit sys

/-- `syscalls::exit(0)`. -/
def stop (r : Repl σ) : Repl σ := { r with running := false }

/-- One `read` and the keys it delivers. The bytes behind the end of a line are lost.
`none` is a negative result of `read`. -/
def read (sys : System σ) (r : Repl σ) (received : Option Bytes) : Repl σ :=
  if r.running then
    match received with
    | none => r.stop
    | some keys =>
      match readKeys (r.listing sys) keys r.typing with
      | .next _ t => r.withTyping t
      | .lineEnd _ t => (r.withTyping t).nextLine sys
      | .exit t => (r.withTyping t).stop
  else r

/-- The prompt behind a sequence of reads. -/
def run (sys : System σ) (r : Repl σ) (reads : List (Option Bytes)) : Repl σ :=
  reads.foldl (read sys) r

/-- The lines submitted for evaluation. -/
def submitted (r : Repl σ) : List Bytes := r.calls.filterMap Call.submitted

/-- The first prompt of a shell process. -/
def init (world : σ) : Repl σ :=
  prompt ⟨⟨Vector.replicate LINE_MAX 0, 0, 0, Editor.start_lt, Editor.start_le⟩, History.init, [],
    Shell.init world, [], true⟩

end Repl

end OnyxShell
