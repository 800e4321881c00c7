import OnyxShell.Commands.JobControl
import OnyxShell.Features.Env
import OnyxShell.Features.Service.Glob
import OnyxShell.Path

/-!
# `OnyxShell.Commands.Run`: the command `run`

`cmd_run` of `src/commands/exec/run.rs`, with the helpers of `src/commands/exec/mod.rs`. It
finds a program (`runProgram`), spawns it, and calls `wait`, which collects any ended child.
`cmdRun` is the part up to the `wait`: the child that it has spawned stands in
`World.waiting` until the `wait` comes back, and `exitReport` is what is printed then.

An empty path is `none`, as is a program that is not a script. A buffer that goes to the
kernel is read up to its first NUL. What `cmd_run` learns about files is in `Surroundings`:
`contents` is `none` where `open` fails.
-/

set_option autoImplicit false

namespace OnyxShell

/-- `commands::MAX_ARGS`. -/
def MAX_ARGS : Nat := 16

/-- What the shell finds around it: the environment, the working directory and the files. -/
structure Surroundings where
  env : Env
  getcwd : Option Bytes
  /-- `stat` succeeds. -/
  stat : Bytes → Bool
  contents : Bytes → Option Bytes

/-- A `/` is needed behind a directory. -/
def needsSlash (absDir : Bytes) : Bool :=
  decide (absDir.length > 0 ∧ absDir.getLast? ≠ some '/'.toUInt8)

/-- `full`: the directory and the command, cut to 255 bytes. -/
def cmdInDir (absDir cmd : Bytes) : Bytes :=
  ((if needsSlash absDir then absDir ++ bytes "/" else absDir) ++ cmd).take (PATH_MAX - 1)

/-- The loop of `search_path` over the parts of `PATH`. -/
def searchDirs (around : Surroundings) (cmd : Bytes) : List Bytes → Option Bytes
  | [] => none
  | dir :: rest =>
    if dir = [] then searchDirs around cmd rest
    else
      match resolve around.getcwd dir with
      | none => searchDirs around cmd rest
      | some absDir =>
        -- The `break` for a directory that fills the buffer leaves the loop over `PATH`.
        if needsSlash absDir ∧ absDir.length ≥ PATH_MAX - 1 then none
        else if around.stat (cString (cmdInDir absDir cmd)) then some (cmdInDir absDir cmd)
        else searchDirs around cmd rest

/-- `search_path`. -/
def searchPath (around : Surroundings) (cmd : Bytes) : Option Bytes :=
  if '/'.toUInt8 ∈ cmd then none
  else
    (around.env.get (bytes "PATH")).bind fun pathVar =>
      searchDirs around cmd (pathVar.splitOn ':'.toUInt8)

/-- `resolve_cmd_path`. -/
def resolveCmdPath (around : Surroundings) (cmd : Bytes) : Option Bytes :=
  if '/'.toUInt8 ∈ cmd then resolve around.getcwd cmd
  else
    match searchPath around cmd with
    | some found => if cString found = [] then none else some (cString found)
    | none => resolve around.getcwd cmd

/-- A space or a tab. -/
def isBlank (b : UInt8) : Bool := b == ' '.toUInt8 || b == '\t'.toUInt8

/-- The bytes that `check_shebang` keeps: the first line, and at most 255 of it. -/
def firstLine (content : Bytes) : Bytes := (content.takeWhile (· ≠ '\n'.toUInt8)).take 255

/-- `check_shebang`: the interpreter, up to the next blank. -/
def checkShebang (around : Surroundings) (path : Bytes) : Option Bytes :=
  (around.contents (cString path)).bind fun content =>
    let buf := firstLine content
    if buf.length < 2 ∨ buf.take 2 ≠ bytes "#!" then none
    else
      let word := ((buf.drop 2).dropWhile isBlank).takeWhile fun b => !isBlank b
      if word = [] then none else some word

/-- `build_argv`: `none` for an argument that does not fit its row. -/
def buildArgv (args : List Bytes) : Option (List Bytes) :=
  let argv := args.take MAX_ARGS
  if argv.any fun arg => arg.length ≥ PATH_MAX then none else some argv

/-- `build_shebang_argv`. The arguments end before one that does not fit its row. -/
def buildShebangArgv (target scriptPath : Bytes) (args : List Bytes) : List Bytes :=
  target :: scriptPath ::
    ((args.take (MAX_ARGS - 2)).drop 1).takeWhile fun arg => arg.length < PATH_MAX

/-- The arguments of a `spawn`, as the kernel reads them. -/
structure Program where
  path : Bytes
  argv : List Bytes
deriving DecidableEq, Repr

/-- `cmd_run` up to the `spawn`: what to spawn, or the message instead. -/
def runProgram (around : Surroundings) : List Bytes → Except Bytes Program
  | [] => .error (bytes "run: missing path (usage: run <path> [args...])")
  | arg :: rest =>
    match resolveCmdPath around arg with
    | none => .error (bytes "run: path too long")
    | some path =>
      match checkShebang around path with
      | some word =>
        let interp := cString word
        let target :=
          if interp.length > 0 ∧ interp = bytes "/bin/osh" then bytes "/bin/osh" else interp
        -- `argc` is at least 2 here.
        .ok ⟨cString target, (buildShebangArgv target path (arg :: rest)).map cString⟩
      | none =>
        match buildArgv (arg :: rest) with
        | none => .error (bytes "run: argument too long")
        | some argv => .ok ⟨cString path, argv.map cString⟩

/-- The world of a shell that can run programs. -/
structure World where
  around : Surroundings
  /-- The children that `spawn` has made, in order. -/
  spawned : List (Nat × Program)
  /-- The child of a `cmd_run` that has not come back. -/
  waiting : Option Nat

/-- `syscalls::spawn`: a new child, as with `fork`. -/
def Shell.spawn {σ : Type} (answers : Answers) (s : Shell σ) : Except Int Nat × Shell σ :=
  s.fork answers

/-- `run::cmd_run` up to the `wait`. -/
def cmdRun (answers : Answers) (args : List Bytes) (s : Shell World) : Shell World :=
  match runProgram s.world.around args with
  | .error msg => s.report (.error msg)
  | .ok program =>
    match s.spawn answers with
    | (.error e, s) => s.report (.errno (bytes "run") e)
    | (.ok pid, s) =>
      { s with world := ⟨s.world.around, s.world.spawned ++ [(pid, program)], some pid⟩ }

/-- The code in the line `osh: process exited with code`, if `cmd_run` prints it. -/
def exitReport (status : Int) : Option Int := if status ≠ 0 then some status else none

end OnyxShell
