import OnyxShell.Commands.Source
import OnyxShell.Process.Exec
import OnyxShell.Process.Nav
import OnyxShell.Process.Pipeline
import OnyxShell.Process.Sys

/-!
# `OnyxShell.Process.Eval`: from a line to its command

`commands::dispatch` of `src/commands/mod.rs`, `eval_line` of `src/eval.rs`, and `execute_line` and
`do_script` of `src/commands/exec/script.rs`, which call each other. The recursion is on a budget of
nested scripts.

Names of files are read by `readdir` calls here. What is made of them is `OnyxShell.globExpand`.
-/

set_option autoImplicit false

namespace OnyxShell.Process

/-! ### Names of files -/

/-- The loop of `glob::scan_dir_entries`: at most so many names, with the name buffer. -/
def scanNames (path : Bytes) : Nat → Bytes → Sh (List Bytes)
  | 0, _ => pure []
  | n + 1, buf => do
    let a ← sys (.readdir path 255)
    if a.ret ≤ 0 then pure []
    else do
      let rest ← scanNames path n (a.into buf)
      pure (cString ((a.into buf).take 255) :: rest)

/-- The names that `glob::scan_dir_entries` finds in a directory. -/
def scanDirNames (dirPath : Bytes) : Sh (List Bytes) :=
  scanNames (scanPath dirPath) 64 (zeros NAME_LEN)

/-- `glob::glob_expand`. -/
def globExpand (tok : Bytes) : Sh (List Bytes) :=
  if hasGlob tok then do
    let names ← scanDirNames (splitDirAndPrefix tok).1
    pure (OnyxShell.globExpand (fun _ => names) tok).items
  else pure [tok.take 127]

/-- The loop that fills `G_ARGS`, with the arguments so far. It stops at 32 of them. -/
def expandTokens (s : Bytes) : List Span → List Bytes → Sh (List Bytes)
  | [], args => pure args
  | tok :: rest, args => do
    let expansions ← globExpand (Span.of s tok)
    let args := (args ++ expansions.map fun exp => (cString exp).take 127).take 32
    if args.length ≥ 32 then pure args else expandTokens s rest args

/-! ### Commands -/

/-- The body of `commands::dispatch` behind `job_reap`, with `doScript` for the call in `source` and
`exec`. -/
def runCommand (turns : Nat) (doScript : Bytes → Sh Unit) (cmd : Bytes) (rest : List Bytes) :
    Sh Unit :=
  if cmd = bytes "help" ∨ cmd = bytes "?" then cmdHelp
  else if cmd = bytes "echo" then cmdEcho rest
  else if cmd = bytes "export" then cmdExport rest
  else if cmd = bytes "set" then cmdSet
  else if cmd = bytes "unset" then cmdUnset rest
  else if cmd = bytes "pwd" then cmdPwd
  else if cmd = bytes "cd" then cmdCd rest
  else if cmd = bytes "ls" then cmdLs turns rest
  else if cmd = bytes "cat" then cmdCat turns rest
  else if cmd = bytes "rm" then cmdRm rest
  else if cmd = bytes "mkdir" then cmdMkdir rest
  else if cmd = bytes "cp" then do
    let _ ← cmdCp turns rest
  else if cmd = bytes "mv" then cmdMv turns rest
  else if cmd = bytes "touch" then cmdTouch rest
  else if cmd = bytes "stat" then cmdStat rest
  else if cmd = bytes "whoami" then cmdWhoami
  else if cmd = bytes "uname" then cmdUname
  else if cmd = bytes "clear" then cmdClear
  else if cmd = bytes "exit" ∨ cmd = bytes "logout" then cmdExit
  else if cmd = bytes "jobs" then cmdJobs
  else if cmd = bytes "fg" then cmdFg rest
  else if cmd = bytes "bg" then cmdBg rest
  else if cmd = bytes "exec" then cmdExec turns doScript rest
  else if cmd = bytes "run" then cmdRun turns rest
  else if cmd = bytes "source" ∨ cmd = bytes "." then
    -- `script::cmd_source`
    match rest with
    | [] => writeError (bytes "source: missing file operand (try 'help')")
    | arg :: _ => doScript arg
  else if cmd = bytes "date" then cmdDate
  else if cmd = bytes "ver" ∨ cmd = bytes "version" then cmdVer
  else do
    writeRaw (bytes "osh: ")
    writeRaw cmd
    writeRaw (bytes ": command not found (try 'help')\n")

/-- `commands::dispatch`. The children that have ended are reaped before the command is looked
at. -/
def dispatch (turns : Nat) (doScript : Bytes → Sh Unit) (args : List Bytes) : Sh Unit := do
  jobReap turns
  match args with
  | [] => pure ()
  | cmd :: rest => runCommand turns doScript cmd rest

/-- A line with an operator, cut to the line buffer. -/
def runPipeline (turns : Nat) (doScript : Bytes → Sh Unit) (s : Bytes) : Sh Unit :=
  let line := s.take (LINE_MAX - 1)
  execute turns (dispatch turns doScript) line (parse line)

/-- A simple command: nothing without a word. -/
def runWords (turns : Nat) (doScript : Bytes → Sh Unit) (s : Bytes) : Sh Unit :=
  if (tokenize s).length = 0 then pure ()
  else do
    let args ← expandTokens s (tokenize s) []
    dispatch turns doScript args

/-- `script::execute_line`, with `doScript` for the scripts in it. -/
def executeLine (turns : Nat) (doScript : Bytes → Sh Unit) (line : Bytes) : Sh Unit := do
  let g ← get
  let expanded := expand g.env line
  if hasOp expanded then runPipeline turns doScript expanded else runWords turns doScript expanded

/-! ### Scripts -/

/-- A collected line: nothing for an empty one or a comment. -/
def runCollected (runLine : Bytes → Sh Unit) (line : Bytes) : Sh Unit := do
  if line.length > 0 ∧ line.head? ≠ some '#'.toUInt8 then runLine line

/-- The loop of `do_script_inner`: it ends with what is in `line_buf`. -/
def readScript (turns fd : Nat) (runLine : Bytes → Sh Unit) : Sh Bytes :=
  Routine.loop (fun line => do
    let a ← sys (.read fd 1)
    let c := (a.into (zeros 1)).headD 0
    if a.ret ≤ 0 then pure (.ret line)
    else if c = '\n'.toUInt8 then do
      runCollected runLine line
      pure (.next [])
    else if c ≠ '\r'.toUInt8 ∧ line.length < LINE_MAX - 1 then pure (.next (line ++ [c]))
    else pure (.next line)) turns []

/-- `script::do_script_inner`. The file is open while its lines run. A last line without an LF is
run behind the loop. -/
def doScriptInner (turns : Nat) (runLine : Bytes → Sh Unit) (input : Bytes) : Sh Unit := do
  match ← resolve input with
  | none => writeError (bytes "source: path too long")
  | some abs => do
    let a ← sys (.sysOpen (cString abs) O_RDONLY)
    if a.ret < 0 then writeErrorErrno (bytes "source") a.ret
    else do
      let line ← readScript turns a.ret.toNat runLine
      runCollected runLine line
      let _ ← sys (.close a.ret.toNat)

/-- `script::do_script`, for so many nested ones. -/
def doScript (turns : Nat) : Nat → Bytes → Sh Unit
  | 0, _ => Routine.cut
  | budget + 1, input => do
    let g ← get
    if g.scriptDepth ≥ SCRIPT_DEPTH_MAX then
      writeError (bytes "source: max recursion depth exceeded")
    else do
      set { g with scriptDepth := g.scriptDepth + 1 }
      doScriptInner turns (executeLine turns (doScript turns budget)) input
      modify fun g => { g with scriptDepth := g.scriptDepth - 1 }

/-- `do_script` outside of any script: behind `SCRIPT_DEPTH_MAX` nested ones comes the error. -/
def source (turns : Nat) : Bytes → Sh Unit := doScript turns (SCRIPT_DEPTH_MAX + 1)

/-! ### Lines of the prompt -/

/-- `eval_line` from the line behind the history expansion on. -/
def evalText (turns : Nat) (s : Bytes) : Sh Unit :=
  if s = [] then pure ()
  else if hasOp s then do
    modify fun g => { g with history := g.history.push (s.take (LINE_MAX - 1)) }
    runPipeline turns (source turns) s
  else do
    let g ← get
    let s := expand g.env s
    if s = [] then pure ()
    else do
      set { g with history := g.history.push s }
      runWords turns (source turns) s

/-- `eval::eval_line`. -/
def evalLine (turns : Nat) (raw : Bytes) : Sh Unit :=
  if raw = [] then pure ()
  else do
    let g ← get
    let hist := historyExpand g.history raw
    hist.2.forM writeError
    evalText turns hist.1.items

end OnyxShell.Process
