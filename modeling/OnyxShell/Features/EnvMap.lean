import OnyxShell.Lib.AssocList
import OnyxShell.Features.EnvTable

/-!
# `OnyxShell.Features.EnvMap`: what the environment is for

The environment should be a map from keys to values that remembers the order of its keys.
`mapStep` is that map under the calls. `IsMap` is what a user of the table relies on: one
live row for a key, nothing behind `unset`, and no name exported twice.

The two sides meet in `OnyxShell.Proofs.Features.EnvMap`: with keys that fit, the arrays are the
map in every run, and `RunKeepsKeys` says when they are a map at all.
-/

set_option autoImplicit false

namespace OnyxShell

/-- One call on the ordered map. A value is cut to the 127 bytes that fit a row, and there
is room for 32 keys. -/
def mapStep (entries : List (Bytes × Bytes)) : EnvCall → List (Bytes × Bytes)
  | .set key val =>
    if key = [] then entries
    else AssocList.put ENV_MAX key (val.take (ENV_VAL_MAX - 1)) entries
  | .unset key => AssocList.remove key entries

/-- A run of calls on the ordered map, from the empty one. -/
def mapRun (calls : List EnvCall) : List (Bytes × Bytes) := calls.foldl mapStep []

/-- An entry as `env_list` prints it, without its newline. -/
def envLine (entry : Bytes × Bytes) : Bytes := entry.1 ++ bytes "=" ++ entry.2

/-- What `env_list` prints. -/
def Env.text (e : Env) : Bytes := e.entries.flatMap fun entry => envLine entry ++ bytes "\n"

/-- The lines of the environment can be read back. An entry is printed on a line of its own with a
`=` behind the key, so that neither may be cut short by a byte of the key or of the value. -/
structure Env.Printable (e : Env) : Prop where
  distinct : (AssocList.keys e.entries).Nodup
  rereads : ∀ entry ∈ e.entries, entry.1 ≠ [] ∧ '='.toUInt8 ∉ entry.1 ∧ '\n'.toUInt8 ∉ entry.1 ∧
    '\n'.toUInt8 ∉ entry.2

/-- The key fits its row and can be read back, and so can the value. -/
def EnvCall.Printable : EnvCall → Prop
  | .set key val => key.length < ENV_KEY_MAX ∧ '='.toUInt8 ∉ key ∧ '\n'.toUInt8 ∉ key ∧
      '\n'.toUInt8 ∉ val
  | .unset _ => True

instance : DecidablePred EnvCall.Printable
  | .set key val =>
    inferInstanceAs (Decidable (key.length < ENV_KEY_MAX ∧ '='.toUInt8 ∉ key ∧
      '\n'.toUInt8 ∉ key ∧ '\n'.toUInt8 ∉ val))
  | .unset _ => isTrue trivial

/-- The name in an exported string, as the program that gets it reads it. -/
def envName (row : Bytes) : Bytes := row.takeWhile (· ≠ '='.toUInt8)

namespace EnvTable

/-- The keys of the live rows. -/
def liveKeys (t : EnvTable) : List Bytes := AssocList.keys t.live

/-- The table is a map. A user of the table relies on this and on no more: one live row for each
key, so that a lookup behind `unset` finds nothing and no name is exported twice. -/
structure IsMap (t : EnvTable) : Prop where
  distinct : t.liveKeys.Nodup
  unset_get : ∀ key, (t.unset key).get key = none
  /-- `export` makes no key with an `=`, where the name would end early. -/
  exported : (∀ key ∈ t.liveKeys, '='.toUInt8 ∉ key) → (t.buildEnvp.map envName).Nodup

/-- The key of a call fits its row, or what is left of it is not there yet, or there is no
room. -/
def KeepsKeys (t : EnvTable) : EnvCall → Prop
  | .set key _ => key.length < ENV_KEY_MAX ∨ key.take (ENV_KEY_MAX - 1) ∉ t.liveKeys ∨
      t.count = ENV_MAX
  | .unset _ => True

/-- Every call of a run keeps the keys apart. The calls are looked at one after the other, each in
the table that the calls before it have left. -/
def RunKeepsKeys (t : EnvTable) : List EnvCall → Prop
  | [] => True
  | call :: calls => t.KeepsKeys call ∧ (t.apply call).RunKeepsKeys calls

end EnvTable

end OnyxShell
