import OnyxShell.Commands.Run
import OnyxShell.Process.File

/-!
# `OnyxShell.Process.Exec`: programs

`cmd_exec` and `cmd_run` of `src/commands/exec/run.rs`, with the helpers of
`src/commands/exec/mod.rs`. The arrays that they fill for the kernel are the lists of strings in
them; `OnyxShell.Commands.Argv` and `OnyxShell.Features.Envp` have the arrays.

`search_path` asks `stat` for each directory of `PATH` in turn. The child that `run` waits for is
whichever ends first, as in the source.
-/

set_option autoImplicit false

namespace OnyxShell.Process

/-- The loop of `search_path` over the parts of `PATH`. -/
def searchDirs (cmd : Bytes) : List Bytes → Sh (Option Bytes)
  | [] => pure none
  | dir :: rest =>
    if dir = [] then searchDirs cmd rest
    else do
      match ← resolve dir with
      | none => searchDirs cmd rest
      | some absDir =>
        -- The `break` for a directory that fills the buffer leaves the loop over `PATH`.
        if needsSlash absDir ∧ absDir.length ≥ PATH_MAX - 1 then pure none
        else do
          let a ← sys (.stat (cString (cmdInDir absDir cmd)))
          if a.ret ≥ 0 then pure (some (cmdInDir absDir cmd)) else searchDirs cmd rest

/-- `search_path`. -/
def searchPath (cmd : Bytes) : Sh (Option Bytes) :=
  if '/'.toUInt8 ∈ cmd then pure none
  else do
    let g ← get
    match g.env.get (bytes "PATH") with
    | none => pure none
    | some pathVar => searchDirs cmd (pathVar.splitOn ':'.toUInt8)

/-- `resolve_cmd_path`. -/
def resolveCmdPath (cmd : Bytes) : Sh (Option Bytes) :=
  if '/'.toUInt8 ∈ cmd then resolve cmd
  else do
    match ← searchPath cmd with
    | some found => pure (if cString found = [] then none else some (cString found))
    | none => resolve cmd

/-- The word behind the `#!` of a line. -/
def shebangWord (buf : Bytes) : Option Bytes :=
  if buf.length < 2 ∨ buf.take 2 ≠ bytes "#!" then none
  else
    let word := ((buf.drop 2).dropWhile isBlank).takeWhile fun b => !isBlank b
    if word = [] then none else some word

/-- The read loop of `check_shebang`: the bytes of the first line, and at most 255 of them. -/
def firstLineLoop (turns fd : Nat) : Sh Bytes :=
  Routine.loop (fun buf => do
    let a ← sys (.read fd 1)
    let c := (a.into (zeros 1)).headD 0
    if a.ret ≤ 0 ∨ c = '\n'.toUInt8 ∨ buf.length ≥ 255 then pure (.ret buf)
    else pure (.next (buf ++ [c]))) turns []

/-- `check_shebang`. -/
def checkShebang (turns : Nat) (path : Bytes) : Sh (Option Bytes) := do
  let a ← sys (.sysOpen (cString path) O_RDONLY)
  if a.ret < 0 then pure none
  else do
    let buf ← firstLineLoop turns a.ret.toNat
    let _ ← sys (.close a.ret.toNat)
    pure (shebangWord buf)

/-- The strings that `build_envp` makes, as the kernel reads them. -/
def envStrings (env : Env) : List Bytes :=
  env.entries.map fun (key, val) => cString (key ++ bytes "=" ++ val)

/-- The `execve` of `cmd_exec`. It comes back only with an error. -/
def execProgram (path : Bytes) (argv : List Bytes) : Sh Unit := do
  let g ← get
  let a ← sys (.execve (cString path) (argv.map cString) (envStrings g.env))
  writeErrorErrno (bytes "exec") a.ret

/-- `run::cmd_exec`, with `doScript` for the call in it. -/
def cmdExec (turns : Nat) (doScript : Bytes → Sh Unit) : List Bytes → Sh Unit
  | [] => writeError (bytes "exec: missing path (usage: exec <path> [args...])")
  | arg :: rest => do
    match ← resolveCmdPath arg with
    | none => writeError (bytes "exec: path too long")
    | some path => do
      match ← checkShebang turns path with
      | some word =>
        let interp := cString word
        if interp.length > 0 ∧ interp = bytes "/bin/osh" then do
          doScript path
          exit 0
        -- `argc` is at least 2 here.
        else execProgram interp (buildShebangArgv interp path (arg :: rest))
      | none => do
        match buildArgv (arg :: rest) with
        | none => writeError (bytes "exec: argument too long")
        | some argv => execProgram path argv

/-- The line about an exit code other than 0. -/
def writeExitCode (status : Int) : Sh Unit := do
  if status ≠ 0 then
    writeRaw (bytes "osh: process exited with code ")
    writeI64 (Int64.ofInt status)
    newline

/-- The `i32` that is stored behind a pointer, 0 if none is. -/
def storedI32 (a : Answer) : Int := toI32 (field (a.into (zeros 4)) 0 4)

/-- `cmd_run` from the `spawn` on. -/
def runProgram (path : Bytes) (argv : List Bytes) : Sh Unit := do
  let pid ← sys (.spawn (cString path) (argv.map cString))
  if pid.ret < 0 then writeErrorErrno (bytes "run") pid.ret
  else do
    let waited ← sys .wait
    if waited.ret < 0 then writeErrorErrno (bytes "run: wait") waited.ret
    else writeExitCode (storedI32 waited)

/-- `run::cmd_run`. A program with a `#!` is started by its interpreter, which gets the path of
the program as an argument. -/
def cmdRun (turns : Nat) : List Bytes → Sh Unit
  | [] => writeError (bytes "run: missing path (usage: run <path> [args...])")
  | arg :: rest => do
    match ← resolveCmdPath arg with
    | none => writeError (bytes "run: path too long")
    | some path => do
      match ← checkShebang turns path with
      | some word =>
        let interp := cString word
        let target :=
          if interp.length > 0 ∧ interp = bytes "/bin/osh" then bytes "/bin/osh" else interp
        runProgram target (buildShebangArgv target path (arg :: rest))
      | none => do
        match buildArgv (arg :: rest) with
        | none => writeError (bytes "run: argument too long")
        | some argv => runProgram path argv

end OnyxShell.Process
