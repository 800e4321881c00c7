import OnyxShell.Lib.Rewrite
import OnyxShell.Features.Buffer

/-!
# `OnyxShell.Features.Env`: the environment, variables and tildes

`src/features/env.rs`. The four arrays and `G_ENV_COUNT` are one list of key-value pairs,
whose bounds are fields of `Env`. The two expansions copy a line into a `Vec` and so cut
what they write at 256 bytes.

The list is the abstract side of the arrays in `OnyxShell.Features.EnvTable`. A key and a value
are stored without what does not fit their rows, and the cut is made where the source makes it.
-/

set_option autoImplicit false

namespace OnyxShell

open Scan (scanWhile le_scanWhile lt_scanWhile)

/-- `env::ENV_MAX`. -/
def ENV_MAX : Nat := 32

/-- `env::ENV_KEY_MAX`. -/
def ENV_KEY_MAX : Nat := 64

/-- `env::ENV_VAL_MAX`. -/
def ENV_VAL_MAX : Nat := 128

/-- The environment table: the live entries, in order. -/
structure Env where
  entries : List (Bytes × Bytes)
  length_le : entries.length ≤ ENV_MAX
  fits : ∀ e ∈ entries, e.1.length < ENV_KEY_MAX ∧ e.2.length < ENV_VAL_MAX

namespace Env

/-- The table at the start of the program. -/
def empty : Env := ⟨[], Nat.zero_le _, fun _ h => absurd h List.not_mem_nil⟩

/-- `env::env_get`: the value of the first entry with the key. -/
def get (e : Env) (key : Bytes) : Option Bytes :=
  (e.entries.find? fun entry => entry.1 = key).map Prod.snd

/-- Replaces the value of the first entry with the key. -/
def replaceValue (key value : Bytes) : List (Bytes × Bytes) → List (Bytes × Bytes)
  | [] => []
  | entry :: rest =>
    if entry.1 = key then (entry.1, value) :: rest else entry :: replaceValue key value rest

/-- Replacing a value leaves as many entries as there were, so that the table stays within its
bound. -/
theorem length_replaceValue (key value : Bytes) (entries : List (Bytes × Bytes)) :
    (replaceValue key value entries).length = entries.length := by
  fun_induction replaceValue key value entries with
  | case1 => rfl
  | case2 => rfl
  | case3 entry rest h ih => rw [List.length_cons, List.length_cons, ih]

/-- A bound on the pairs is kept when the new value meets it beside every key. -/
theorem fits_replaceValue {p : Bytes × Bytes → Prop} {key value : Bytes}
    {entries : List (Bytes × Bytes)} (h : ∀ e ∈ entries, p e)
    (hvalue : ∀ e ∈ entries, p (e.1, value)) : ∀ e ∈ replaceValue key value entries, p e := by
  fun_induction replaceValue key value entries with
  | case1 => exact h
  | case2 entry rest hkey =>
    intro e he
    rcases List.mem_cons.mp he with rfl | he
    · exact hvalue entry List.mem_cons_self
    · exact h e (List.mem_cons_of_mem _ he)
  | case3 entry rest hkey ih =>
    intro e he
    rcases List.mem_cons.mp he with rfl | he
    · exact h _ List.mem_cons_self
    · exact ih (fun e he => h e (List.mem_cons_of_mem _ he))
        (fun e he => hvalue e (List.mem_cons_of_mem _ he)) e he

/-- A value is stored up to the 127 bytes that fit its row. -/
def cutValue (value : Bytes) : Bytes := value.take (ENV_VAL_MAX - 1)

/-- A value that is stored leaves room for a NUL. -/
theorem length_cutValue_lt (value : Bytes) : (cutValue value).length < ENV_VAL_MAX :=
  Nat.lt_of_le_of_lt (List.length_take_le _ _) (by decide)

/-- `env::env_set`. The key is looked up whole and stored cut to 63 bytes. -/
def set (e : Env) (key value : Bytes) : Env :=
  if key = [] then e
  else if (e.get key).isSome then
    ⟨replaceValue key (cutValue value) e.entries, by rw [length_replaceValue]; exact e.length_le,
      fits_replaceValue e.fits fun entry h => ⟨(e.fits entry h).1, length_cutValue_lt value⟩⟩
  -- A full table drops the new entry without a message.
  else if hfull : e.entries.length ≥ ENV_MAX then e
  else
    ⟨e.entries ++ [(key.take (ENV_KEY_MAX - 1), cutValue value)],
      by rw [List.length_append]; exact Nat.lt_of_not_le hfull,
      by
        intro entry h
        rcases List.mem_append.mp h with h | h
        · exact e.fits entry h
        · rw [List.mem_singleton.mp h]
          exact ⟨Nat.lt_of_le_of_lt (List.length_take_le _ _) (by decide), length_cutValue_lt value⟩⟩

/-- `env::env_unset`: takes out the first entry with the key. -/
def unset (e : Env) (key : Bytes) : Env :=
  ⟨e.entries.eraseP fun entry => entry.1 = key,
    Nat.le_trans (List.length_eraseP_le) e.length_le,
    fun entry h => e.fits entry (List.mem_of_mem_eraseP h)⟩

/-- `env::env_init`. -/
def init : Env := (empty.set (bytes "HOME") (bytes "/users/root")).set (bytes "PATH") (bytes "/bin")

end Env

/-- A byte that begins a variable name. -/
def isNameStart (b : UInt8) : Bool :=
  ('A'.toUInt8 ≤ b && b ≤ 'Z'.toUInt8) || ('a'.toUInt8 ≤ b && b ≤ 'z'.toUInt8) || b == '_'.toUInt8

/-- A byte of a variable name. -/
def isNameByte (b : UInt8) : Bool := isNameStart b || ('0'.toUInt8 ≤ b && b ≤ '9'.toUInt8)

/-- The name of the variable reference that begins at index `i`, and the index behind it. -/
def variableAt (line : Bytes) (i : Nat) : Option (Bytes × Nat) :=
  if (line)[i]? = some '$'.toUInt8 then
    match (line)[i + 1]? with
    | none => none
    | some next =>
      if next = '\x7b'.toUInt8 then
        let j := scanWhile (· != '\x7d'.toUInt8) line (i + 2)
        -- `${` that is never closed is copied as it stands.
        if j < line.length then some (Span.of line (i + 2, j - (i + 2)), j + 1) else none
      -- A name without braces ends at the first byte that cannot be in one.
      else if isNameStart next then
        let j := scanWhile isNameByte line (i + 1)
        some (Span.of line (i + 1, j - (i + 1)), j)
      else none
  else none

/-- A variable reference is not empty. -/
theorem lt_of_variableAt {line name : Bytes} {i j : Nat}
    (h : variableAt line i = some (name, j)) : i < j := by
  rw [variableAt] at h
  split at h
  · split at h
    · cases h
    · rename_i next hnext
      split at h
      · have hle := le_scanWhile (· != '\x7d'.toUInt8) line (i + 2)
        simp only at h
        split at h
        · cases h
          omega
        · cases h
      · split at h
        · rename_i hstart
          have hlt := lt_scanWhile isNameByte line (i + 1) next hnext (by simp [isNameByte, hstart])
          cases h
          omega
        · cases h
  · cases h

/-- The variable references of a line. -/
def variableFinder (line : Bytes) : Finder Bytes := ⟨variableAt line, lt_of_variableAt⟩

/-- `env::expand_vars`. A name that is not set is replaced by nothing, and what does not fit the
`Vec` is dropped. -/
def expandVars (env : Env) (line : Bytes) : Vec UInt8 :=
  (variableFinder line).run line (fun out name => out.extendFromSlice ((env.get name).getD []))
    Vec.push 0 Vec.new

/-- A byte of the name behind a tilde. -/
def isUserByte (b : UInt8) : Bool := b != '/'.toUInt8 && !isWhitespace b

/-- What stands for the tilde at index `i`, if it begins a word, and the index behind it. -/
def tildeAt (env : Env) (line : Bytes) (i : Nat) : Option (Bytes × Nat) :=
  if (line)[i]? = some '~'.toUInt8 ∧
      (i = 0 ∨ (line)[i - 1]? = some ' '.toUInt8 ∨ (line)[i - 1]? = some '\t'.toUInt8) then
    let j := scanWhile isUserByte line (i + 1)
    if j = i + 1 then some ((env.get (bytes "HOME")).getD (bytes "/users/root"), j)
    else some (bytes "/users/" ++ Span.of line (i + 1, j - (i + 1)), j)
  else none

/-- A tilde is not empty. -/
theorem lt_of_tildeAt {env : Env} {line text : Bytes} {i j : Nat}
    (h : tildeAt env line i = some (text, j)) : i < j := by
  have hle := le_scanWhile isUserByte line (i + 1)
  rw [tildeAt] at h
  split at h
  · simp only at h
    split at h
    · cases h
      exact hle
    · cases h
      exact hle
  · cases h

/-- The tildes of a line, with what stands for them. -/
def tildeFinder (env : Env) (line : Bytes) : Finder Bytes := ⟨tildeAt env line, lt_of_tildeAt⟩

/-- `env::expand_tilde`. -/
def expandTilde (env : Env) (line : Bytes) : Vec UInt8 :=
  (tildeFinder env line).run line Vec.extendFromSlice Vec.push 0 Vec.new

end OnyxShell
