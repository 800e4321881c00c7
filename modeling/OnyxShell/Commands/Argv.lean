import OnyxShell.Commands.Run
import OnyxShell.Lib.StringTable

/-!
# `OnyxShell.Commands.Argv`: the arguments that a program gets

`cmd_exec` and `cmd_run` of `src/commands/exec/run.rs` up to the call that starts the program,
with `argv_strs` and `argv_ptrs` as the builders of `src/commands/exec/mod.rs` fill them. An
index outside of an array is `none`.

`AllDelivered` is what the two commands are for, and `ExecFits` and `RunFits` are when they do it.
The environment is left out.
-/

set_option autoImplicit false

namespace OnyxShell

/-- `argv_strs` and `argv_ptrs`. -/
abbrev ArgvTable := StringTable MAX_ARGS PATH_MAX

/-- The loop of `build_argv`, from row `i` on. -/
def buildArgvFrom : List Bytes → Nat → ArgvTable → Option (ArgvTable × Nat)
  | [], argc, table => do
    let table ← table.setPtr argc 0
    some (table, argc)
  | arg :: rest, i, table =>
    if arg.length ≥ PATH_MAX then some (table, 0)
    else do
      let table ← table.putText i arg
      buildArgvFrom rest (i + 1) table

/-- `build_argv`: the arrays, and `argc`. -/
def buildArgvInto (args : List Bytes) (table : ArgvTable) : Option (ArgvTable × Nat) :=
  buildArgvFrom (args.take MAX_ARGS) 0 table

/-- The loop of `build_shebang_argv`. -/
def shebangArgsFrom : List Bytes → Nat → ArgvTable → Option (ArgvTable × Nat)
  | [], argc, table => some (table, argc)
  | arg :: rest, argc, table =>
    if arg.length ≥ PATH_MAX then some (table, argc)
    else do
      let table ← table.putText argc arg
      shebangArgsFrom rest (argc + 1) table

/-- `build_shebang_argv`: the arrays, and `argc`. -/
def buildShebangArgvInto (target scriptPath : Bytes) (args : List Bytes) (table : ArgvTable) :
    Option (ArgvTable × Nat) := do
  let table ← table.putText 0 target
  let table ← table.putText 1 scriptPath
  let (table, argc) ← shebangArgsFrom ((args.take (MAX_ARGS - 2)).drop 1) 2 table
  let table ← table.setPtr argc 0
  some (table, argc)

/-- What a command comes to before a program runs. -/
inductive Handover
  /-- An error message. -/
  | refused (msg : Bytes)
  /-- `return` without a message. -/
  | returned
  /-- `do_script` in the shell process, and `exit`. -/
  | script (path : Bytes)
  /-- `execve` or `spawn` for a path, as the kernel reads it, with these arrays. -/
  | handed (path : Bytes) (table : ArgvTable)

/-- The path and the arrays of a script with an interpreter. -/
def handShebang (target path : Bytes) (args : List Bytes) (table : ArgvTable) : Option Handover := do
  let (table, argc) ← buildShebangArgvInto target path args table
  some (if argc = 0 then .returned else .handed (cString target) table)

/-- The path and the arrays of any other program. -/
def handPlain (msg path : Bytes) (args : List Bytes) (table : ArgvTable) : Option Handover := do
  let (table, argc) ← buildArgvInto args table
  some (if argc = 0 then .refused msg else .handed (cString path) table)

/-- `run::cmd_exec` up to the `execve`. -/
def execHandover (around : Surroundings) (args : List Bytes) (table : ArgvTable) : Option Handover :=
  match args with
  | [] => some (.refused (bytes "exec: missing path (usage: exec <path> [args...])"))
  | arg :: _ =>
    match resolveCmdPath around arg with
    | none => some (.refused (bytes "exec: path too long"))
    | some path =>
      match checkShebang around path with
      | some word =>
        let interp := cString word
        if interp.length > 0 ∧ interp = bytes "/bin/osh" then some (.script path)
        else handShebang interp path args table
      | none => handPlain (bytes "exec: argument too long") path args table

/-- `run::cmd_run` up to the `spawn`. -/
def runHandover (around : Surroundings) (args : List Bytes) (table : ArgvTable) : Option Handover :=
  match args with
  | [] => some (.refused (bytes "run: missing path (usage: run <path> [args...])"))
  | arg :: _ =>
    match resolveCmdPath around arg with
    | none => some (.refused (bytes "run: path too long"))
    | some path =>
      match checkShebang around path with
      | some word =>
        let interp := cString word
        let target :=
          if interp.length > 0 ∧ interp = bytes "/bin/osh" then bytes "/bin/osh" else interp
        handShebang target path args table
      | none => handPlain (bytes "run: argument too long") path args table

/-! ### What they are for -/

/-- The arguments that the program should get: with the interpreter and the script in front, if
it is a script. -/
def wantedArgv (around : Surroundings) (args : List Bytes) : Option (List Bytes) :=
  match args with
  | [] => none
  | arg :: rest =>
    (resolveCmdPath around arg).map fun path =>
      match checkShebang around path with
      | some word => cString word :: path :: rest
      | none => args

/-- The arrays hold these arguments, in order and with a zero behind the last pointer. -/
def HoldsArgv (table : ArgvTable) (argv : List Bytes) : Prop :=
  table.Holds argv ∧ table.ptrs[argv.length]? = some 0

/-- A program gets all of its arguments. Too many are refused with an error. -/
structure DeliversArgv (wanted : List Bytes) (h : Handover) : Prop where
  all : ∀ path table, h = .handed path table → HoldsArgv table wanted
  refuses : MAX_ARGS < wanted.length → ∃ msg, h = .refused msg

/-- A command stays inside of its arrays, and delivers what the program should get. A command that
is refused with an error starts nothing, and so has nothing to deliver. -/
def AllDelivered (around : Surroundings) (args : List Bytes) (outcome : Option Handover) : Prop :=
  ∃ h, outcome = some h ∧ ∀ wanted ∈ wantedArgv around args, DeliversArgv wanted h

/-- The number of arguments is one that `cmd_run` delivers. -/
def RunFits (around : Surroundings) (args : List Bytes) : Prop :=
  ∀ arg ∈ args.head?, ∀ path ∈ resolveCmdPath around arg,
    args.length ≤ if (checkShebang around path).isSome then MAX_ARGS - 2 else MAX_ARGS

instance (around : Surroundings) (args : List Bytes) : Decidable (RunFits around args) :=
  inferInstanceAs (Decidable (∀ arg ∈ args.head?, ∀ path ∈ resolveCmdPath around arg, _))

/-- The number of arguments is one that `cmd_exec` delivers. A script that the shell runs itself
gets none, but too many for the slots are not refused for it either. -/
def ExecFits (around : Surroundings) (args : List Bytes) : Prop :=
  ∀ arg ∈ args.head?, ∀ path ∈ resolveCmdPath around arg,
    args.length ≤
      match checkShebang around path with
      | some word => if cString word = bytes "/bin/osh" then MAX_ARGS - 1 else MAX_ARGS - 2
      | none => MAX_ARGS

end OnyxShell
