import OnyxShell.Process.Eval
import OnyxShell.Repl.Raw

/-!
# `OnyxShell.Process.Main`: the prompts and the start

`raw_mode_repl` of `src/repl/raw.rs`, `cooked_mode_repl` of `src/repl/cooked.rs` and `_start` of
`src/main.rs`. Both prompts loop for ever; `turns` is how far they are followed.

A key does what `OnyxShell.keyStep` says, and its output is one `write` here. A `read` that claims
more bytes than its buffer has is a `panic` at once.
-/

set_option autoImplicit false

namespace OnyxShell.Process

/-! ### The raw prompt -/

/-- The names that a Tab completes with: those of the directory in front of the cursor. -/
def completionNames (b : UInt8) (e : Editor) : Sh (List Bytes) :=
  let tok := ((e.text.take e.cursor).reverse.takeWhile fun b => !isWhitespace b).reverse
  if b = 0x09 then scanDirNames (splitDirAndPrefix tok).1 else pure []

/-- A key without output makes no call. -/
def writeKey (out : Bytes) : Sh Unit :=
  if out = [] then pure () else writeRaw out

/-- What a key leaves. -/
def typingOf : KeyResult → Typing
  | .next _ t => t
  | .lineEnd _ t => t
  | .exit t => t

/-- One turn of the key loop. A Tab reads a directory first. -/
def pressKey (b : UInt8) (rest : Bytes) (e : Editor) : Sh KeyResult := do
  let names ← completionNames b e
  let g ← get
  let result := keyStep (fun _ => names) b rest ⟨e, g.history, []⟩
  set { g with history := (typingOf result).history }
  writeKey (typingOf result).out
  pure result

/-- The key loop over the bytes of one read: `ret` behind the end of the line. -/
def pressKeys : Bytes → Editor → Sh (Loop.Turn Editor Editor)
  | [], e => pure (.next e)
  | b :: rest, e => do
    match ← pressKey b rest e with
    | .next skip t => pressKeys (rest.drop skip) t.editor
    | .lineEnd _ t => pure (.ret t.editor)
    | .exit _ => exit 0
termination_by keys => keys.length
decreasing_by
  rw [List.length_drop, List.length_cons]
  omega

/-- The length of `rx_buf`. -/
def RX_LEN : Nat := 16

/-- The variables of the prompt. -/
structure RawState where
  editor : Editor
  rxBuf : Bytes

/-- The `'line_loop`. -/
def editLine (turns : Nat) : RawState → Sh RawState :=
  Routine.loop (fun s : RawState => do
    let a ← sys (.read 0 RX_LEN)
    if a.ret = 0 then do
      let _ ← sys .yieldCpu
      pure (.next s)
    else if a.ret < 0 then exit 0
    else do
      let rxBuf := a.into s.rxBuf
      let keys ← slice rxBuf a.ret.toNat
      match ← pressKeys keys s.editor with
      | .ret e => pure (.ret ⟨e, rxBuf⟩)
      | .next e => pure (.next ⟨e, rxBuf⟩)) turns

/-- The code behind the key loop. -/
def submitLine (turns : Nat) (line : Bytes) : Sh Unit :=
  if line = [] then pure ()
  else do
    modify fun g => { g with history := g.history.push line }
    if hasOp line then runPipeline turns (source turns) line else evalLine turns line

/-- The body of the loop of `raw_mode_repl`. -/
def rawTurn (turns : Nat) (s : RawState) : Sh RawState := do
  writeRaw PROMPT
  modify fun g => { g with history := g.history.navReset }
  let s ← editLine turns { s with editor := s.editor.empty }
  submitLine turns s.editor.text
  pure s

/-- The variables of the prompt at its start. -/
def RawState.init : RawState :=
  ⟨⟨Vector.replicate LINE_MAX 0, 0, 0, Editor.start_lt, Editor.start_le⟩, zeros RX_LEN⟩

/-- `raw::raw_mode_repl`. -/
def rawModeRepl (turns : Nat) : Sh Unit :=
  Routine.loop (fun s => do
    let s ← rawTurn turns s
    pure (.next s)) turns RawState.init

/-! ### The cooked prompt -/

/-- The body of the loop of `cooked_mode_repl`, with `G_LINE`. -/
def cookedTurn (turns : Nat) (gLine : Bytes) : Sh Bytes := do
  writeRaw PROMPT
  let (n, gLine) ← readLine gLine
  if n = 0 then pure gLine
  else do
    let line := stripEnd (← slice gLine n)
    if line = [] then pure gLine
    else do
      evalLine turns line
      pure gLine

/-- `cooked::cooked_mode_repl`. -/
def cookedModeRepl (turns : Nat) : Sh Unit :=
  Routine.loop (fun gLine => do
    let gLine ← cookedTurn turns gLine
    pure (.next gLine)) turns (zeros LINE_MAX)

/-! ### The start -/

/-- `repl::VERSION_BANNER`. -/
def VERSION_BANNER : String := "OnyxShell v0.4.0 (raw mode: tab completion + arrow history)\n"

/-- `features::env_init`. -/
def envInit : Sh Unit :=
  modify fun g =>
    let env := g.env.set (bytes "HOME") (bytes "/users/root")
    { g with env := env.set (bytes "PATH") (bytes "/bin") }

/-- What `_start` finds behind the program's name: no argument, or one, which may be a null
pointer. -/
abbrev ScriptArg : Type := Option (Option Bytes)

/-- `_start`. With an argument a script is run and no prompt entered. Where raw mode is refused,
the prompt is the cooked one. -/
def start (turns : Nat) : ScriptArg → Sh Unit
  | some script => do
    match script with
    | some path => source turns ((cString path).take 255)
    | none => pure ()
    exit 0
  | none => do
    writeStr VERSION_BANNER
    envInit
    let ret ← enableRawMode
    if ret = 0 then rawModeRepl turns else cookedModeRepl turns

/-- The shell from its first instruction on. -/
def shell (turns : Nat) (arg : ScriptArg) : Prog SysCall Answer (Unit × Globals) :=
  start turns arg Globals.init

end OnyxShell.Process
