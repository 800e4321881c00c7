import OnyxShell.Features.EnvMap
import OnyxShell.Lib.StringTable

/-!
# `OnyxShell.Features.Envp`: the environment of a program

`env::build_envp` with the two buffers that it fills. An index outside of a buffer is `none`.
`readEntry` is what a program makes of a string of its environment.

The commands `export` and `unset` are the ways to change the environment behind `env_init`.
-/

set_option autoImplicit false

namespace OnyxShell

/-- `ENV_KEY_MAX + ENV_VAL_MAX + 2`. -/
def ENVP_ROW : Nat := ENV_KEY_MAX + ENV_VAL_MAX + 2

/-- `strings` and `ptrs`. -/
abbrev EnvpTable := StringTable ENV_MAX ENVP_ROW

namespace EnvTable

/-- The body of the loop in `build_envp`, for row `i` of the environment. -/
def writeEntry (t : EnvTable) (i : Fin ENV_MAX) (count : Nat) (table : EnvpTable) :
    Option EnvpTable := do
  let (table, pos) ← table.writeBytes count 0 (t.key i)
  let table ← table.setByte count pos '='.toUInt8
  let (table, pos) ← table.writeBytes count (pos + 1) (t.val i)
  let table ← table.setByte count pos 0
  table.setPtr count (table.address count)

/-- The loop, from row `i` on. -/
def buildEnvpFrom (t : EnvTable) (i count : Nat) (table : EnvpTable) : Option (EnvpTable × Nat) :=
  if h : i < t.count then do
    let table ← t.writeEntry ⟨i, Nat.lt_of_lt_of_le h t.count_le⟩ count table
    t.buildEnvpFrom (i + 1) (count + 1) table
  else some (table, count)
termination_by t.count - i

/-- `env::build_envp`: the buffers, and the count. -/
def buildEnvpInto (t : EnvTable) (table : EnvpTable) : Option (EnvpTable × Nat) := do
  let (table, count) ← t.buildEnvpFrom 0 0 table
  let table ← table.setPtr count 0
  some (table, count)

end EnvTable

/-- The key and the value in a string of the environment: what is before and behind its first
`=`. -/
def readEntry (text : Bytes) : Bytes × Bytes :=
  (envName text, (text.dropWhile (· ≠ '='.toUInt8)).drop 1)

/-- A command that may change the environment. -/
inductive EnvCommand
  /-- `export`. -/
  | exporting (args : List Bytes)
  /-- `unset`. -/
  | unsetting (args : List Bytes)
deriving DecidableEq, Repr

/-- The arguments of a command. -/
def EnvCommand.args : EnvCommand → List Bytes
  | .exporting args => args
  | .unsetting args => args

namespace EnvTable

/-- The environment behind a command. -/
def perform (t : EnvTable) : EnvCommand → EnvTable
  | .exporting args => (cmdExport args t).1
  | .unsetting args => cmdUnset args t

/-- The environment behind a run of commands. -/
def session (cmds : List EnvCommand) : EnvTable := cmds.foldl perform EnvTable.init

/-- Every entry can be told from its string: its key has no `=`, and there is no NUL in it. The
kernel reads a string up to its NUL, and a program splits it at the first `=`. -/
def Decodable (t : EnvTable) : Prop :=
  ∀ e ∈ t.live, '='.toUInt8 ∉ e.1 ∧ 0 ∉ e.1 ∧ 0 ∉ e.2

end EnvTable

/-- A call that makes no other entries. -/
def EnvCall.Decodable : EnvCall → Prop
  | .set key val => '='.toUInt8 ∉ key ∧ 0 ∉ key ∧ 0 ∉ val
  | .unset _ => True

end OnyxShell
