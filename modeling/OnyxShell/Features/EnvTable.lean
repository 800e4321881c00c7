import OnyxShell.Features.Env

/-!
# `OnyxShell.Features.EnvTable`: the environment as it lies in memory

The globals of `src/features/env.rs` as they are: four arrays of 32 rows, of which the
first `G_ENV_COUNT` are live, and the length of each key and value in a byte of its own.
Whatever is behind a length or behind the live rows stays in the arrays. `live` is what
can be seen of them.

The commands `export` and `unset` of `src/commands/sys.rs` are runs of calls.
-/

set_option autoImplicit false

namespace OnyxShell

/-- A row `[u8; n]`. -/
abbrev Row (n : Nat) := Vector UInt8 n

/-- `row[..len].copy_from_slice(src); row[len] = 0`. The rest of the row stays. -/
def Row.store {n : Nat} (row : Row n) (src : Bytes) : Row n :=
  Vector.ofFn fun i =>
    if h : i < src.length then (src)[i.val] else if i = src.length then 0 else row[i]

/-- `row[..len]`. -/
def Row.slice {n : Nat} (row : Row n) (len : UInt8) : Bytes := row.toList.take len.toNat

/-- The globals of `env.rs`. -/
structure EnvTable where
  keys : Vector (Row ENV_KEY_MAX) ENV_MAX
  keyLen : Vector UInt8 ENV_MAX
  vals : Vector (Row ENV_VAL_MAX) ENV_MAX
  valLen : Vector UInt8 ENV_MAX
  count : Nat
  count_le : count ≤ ENV_MAX
  keyLen_lt : ∀ len ∈ keyLen, len.toNat < ENV_KEY_MAX
  valLen_lt : ∀ len ∈ valLen, len.toNat < ENV_VAL_MAX

namespace EnvTable

/-- The arrays at the start of the program. -/
def empty : EnvTable where
  keys := Vector.replicate ENV_MAX (Vector.replicate ENV_KEY_MAX 0)
  keyLen := Vector.replicate ENV_MAX 0
  vals := Vector.replicate ENV_MAX (Vector.replicate ENV_VAL_MAX 0)
  valLen := Vector.replicate ENV_MAX 0
  count := 0
  count_le := Nat.zero_le _
  keyLen_lt := by
    intro len hlen
    rw [(Vector.mem_replicate.mp hlen).2]
    decide
  valLen_lt := by
    intro len hlen
    rw [(Vector.mem_replicate.mp hlen).2]
    decide

/-- `&G_ENV_KEYS[i][..G_ENV_KEY_LEN[i]]`. -/
def key (t : EnvTable) (i : Fin ENV_MAX) : Bytes := t.keys[i].slice t.keyLen[i]

/-- `&G_ENV_VALS[i][..G_ENV_VAL_LEN[i]]`. -/
def val (t : EnvTable) (i : Fin ENV_MAX) : Bytes := t.vals[i].slice t.valLen[i]

/-- The loop that looks for a key, from row `i` on. -/
def findFrom (t : EnvTable) (key : Bytes) (i : Nat) : Option (Fin ENV_MAX) :=
  if h : i < t.count then
    let row : Fin ENV_MAX := ⟨i, Nat.lt_of_lt_of_le h t.count_le⟩
    if t.key row = key then some row else t.findFrom key (i + 1)
  else none
termination_by t.count - i

/-- `env::env_get`. -/
def get (t : EnvTable) (key : Bytes) : Option Bytes := (t.findFrom key 0).map t.val

/-- A name that is stored leaves room for a NUL. -/
theorem length_cutKey_lt (key : Bytes) : (key.take (ENV_KEY_MAX - 1)).length < ENV_KEY_MAX :=
  Nat.lt_of_le_of_lt (List.length_take_le _ _) (by decide)

/-- A bound on all lengths is kept when one within it is stored. -/
theorem length_set_lt {lens : Vector UInt8 ENV_MAX} {n : Nat} (h : ∀ len ∈ lens, len.toNat < n)
    {len : UInt8} (hlen : len.toNat < n) (i : Fin ENV_MAX) : ∀ l ∈ lens.set i len, l.toNat < n := by
  intro l hl
  rcases Vector.mem_or_eq_of_mem_set hl with hl | rfl
  · exact h l hl
  · exact hlen

/-- The cast `n as u8` of a length does not make it longer. -/
theorem toNat_length_lt {text : Bytes} {n : Nat} (h : text.length < n) :
    (UInt8.ofNat text.length).toNat < n := by
  rw [UInt8.toNat_ofNat']
  exact Nat.lt_of_le_of_lt (Nat.mod_le _ _) h

/-- Stores a value in row `i`. -/
def setVal (t : EnvTable) (i : Fin ENV_MAX) (val : Bytes) : EnvTable :=
  { t with
    vals := t.vals.set i (t.vals[i].store (Env.cutValue val))
    valLen := t.valLen.set i (UInt8.ofNat (Env.cutValue val).length)
    valLen_lt := length_set_lt t.valLen_lt (toNat_length_lt (Env.length_cutValue_lt val)) i }

/-- Stores a key in row `i`. -/
def setKey (t : EnvTable) (i : Fin ENV_MAX) (key : Bytes) : EnvTable :=
  { t with
    keys := t.keys.set i (t.keys[i].store (key.take (ENV_KEY_MAX - 1)))
    keyLen := t.keyLen.set i (UInt8.ofNat (key.take (ENV_KEY_MAX - 1)).length)
    keyLen_lt := length_set_lt t.keyLen_lt (toNat_length_lt (length_cutKey_lt key)) i }

/-- Stores an entry behind the live rows. -/
def append (t : EnvTable) (h : t.count < ENV_MAX) (key val : Bytes) : EnvTable :=
  { (t.setKey ⟨t.count, h⟩ key).setVal ⟨t.count, h⟩ val with
    count := t.count + 1
    count_le := h }

/-- `env::env_set`. A key that is there keeps its row, and a new one is dropped where the table is
full. -/
def set (t : EnvTable) (key val : Bytes) : EnvTable :=
  if key = [] then t
  else
    match t.findFrom key 0 with
    | some i => t.setVal i val
    | none =>
      -- A full table drops the new entry without a message.
      if h : t.count ≥ ENV_MAX then t else t.append (Nat.lt_of_not_le h) key val

/-- Copies row `j + 1` into row `j`, in all four arrays. -/
def moveDown (t : EnvTable) (j : Nat) (h : j + 1 < ENV_MAX) : EnvTable :=
  let row : Fin ENV_MAX := ⟨j, Nat.lt_of_succ_lt h⟩
  let next : Fin ENV_MAX := ⟨j + 1, h⟩
  { t with
    keys := t.keys.set row t.keys[next]
    keyLen := t.keyLen.set row t.keyLen[next]
    vals := t.vals.set row t.vals[next]
    valLen := t.valLen.set row t.valLen[next]
    keyLen_lt := length_set_lt t.keyLen_lt (t.keyLen_lt _ (Vector.getElem_mem h)) row
    valLen_lt := length_set_lt t.valLen_lt (t.valLen_lt _ (Vector.getElem_mem h)) row }

/-- The loop `for j in i..G_ENV_COUNT - 1`. -/
def shiftFrom (t : EnvTable) (j : Nat) : EnvTable :=
  if h : j + 1 < t.count then
    (t.moveDown j (Nat.lt_of_lt_of_le h t.count_le)).shiftFrom (j + 1)
  else t
termination_by t.count - j
decreasing_by
  show t.count - (j + 1) < t.count - j
  omega

/-- Takes out row `i`: the loop, and one live row less. -/
def removeRow (t : EnvTable) (i : Nat) : EnvTable :=
  { t.shiftFrom i with
    count := (t.shiftFrom i).count - 1
    count_le := Nat.le_trans (Nat.sub_le _ _) (t.shiftFrom i).count_le }

/-- `env::env_unset`. The rows behind the one of the key move down by one. -/
def unset (t : EnvTable) (key : Bytes) : EnvTable :=
  match t.findFrom key 0 with
  | some i => t.removeRow i
  | none => t

/-- The live rows. -/
def live (t : EnvTable) : List (Bytes × Bytes) :=
  List.ofFn fun i : Fin t.count =>
    (t.key (i.castLE t.count_le), t.val (i.castLE t.count_le))

/-- `env::env_list`: what is printed. -/
def envList (t : EnvTable) : Bytes :=
  t.live.flatMap fun e => e.1 ++ '='.toUInt8 :: (e.2 ++ ['\n'.toUInt8])

/-- `env::build_envp`: the strings `key=value`, each with its NUL. -/
def buildEnvp (t : EnvTable) : List Bytes :=
  List.ofFn fun i : Fin t.count =>
    t.key (i.castLE t.count_le) ++ '='.toUInt8 :: (t.val (i.castLE t.count_le) ++ [0])

end EnvTable

/-- A call that may change the environment. -/
inductive EnvCall
  /-- `env_set(key, val)`. -/
  | set (key val : Bytes)
  /-- `env_unset(key)`. -/
  | unset (key : Bytes)
deriving DecidableEq, Repr

/-- The key of a call. -/
def EnvCall.key : EnvCall → Bytes
  | .set key _ => key
  | .unset key => key

namespace EnvTable

/-- One call on the table. -/
def apply (t : EnvTable) : EnvCall → EnvTable
  | .set key val => t.set key val
  | .unset key => t.unset key

/-- A run of calls. -/
def run (t : EnvTable) (calls : List EnvCall) : EnvTable := calls.foldl apply t

end EnvTable

/-- The calls of `cmd_export`: an argument without `=`, or with nothing before it, makes
none. -/
def exportCalls (args : List Bytes) : List EnvCall :=
  args.filterMap fun a =>
    match a.findIdx? (· == '='.toUInt8) with
    | some eq => if a.take eq = [] then none else some (.set (a.take eq) (a.drop (eq + 1)))
    | none => none

/-- `sys::cmd_export`: the table, and what is printed. -/
def cmdExport (args : List Bytes) (t : EnvTable) : EnvTable × Bytes :=
  if args = [] then (t, t.envList) else (t.run (exportCalls args), [])

/-- `sys::cmd_unset`. -/
def cmdUnset (args : List Bytes) (t : EnvTable) : EnvTable := t.run (args.map EnvCall.unset)

/-- `env::env_init`. -/
def EnvTable.init : EnvTable :=
  EnvTable.empty.run
    [.set (bytes "HOME") (bytes "/users/root"), .set (bytes "PATH") (bytes "/bin")]

end OnyxShell
