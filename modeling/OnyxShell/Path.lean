import OnyxShell.Io

/-!
# `OnyxShell.Path`: paths for the kernel

`src/path.rs`. `resolve` turns a word into an absolute path and `normalize` takes `.` and
`..` out of it. The buffer `out[..olen]` is the list of its bytes, and a result of `0` is
`none`.

What `getcwd` answers is a parameter: `none` for a result of at most 0, and otherwise the
bytes `cwd[..cwd_ret]`.
-/

set_option autoImplicit false

namespace OnyxShell

open Scan (scanWhile le_scanWhile scanWhile_stop scanWhile_le_length)

/-- `path::PATH_MAX`. -/
def PATH_MAX : Nat := 256

/-- `path::copy_abs`. -/
def copyAbs (path : Bytes) : Option Bytes := if path.length ≥ PATH_MAX then none else some path

/-- The inner loop of a `..`: `olen -= 1` until a `/` stands at the end. -/
def backToSlash (out : Bytes) : Bytes :=
  if out.length > 1 ∧ out.getLast? ≠ some '/'.toUInt8 then backToSlash out.dropLast else out
termination_by out.length
decreasing_by rw [List.length_dropLast]; omega

/-- The branch of `normalize` for a component `..`. -/
def popComponent (out : Bytes) : Bytes :=
  if out.length > 1 then backToSlash out.dropLast else out

/-- A `/`, unless one stands at the end, and more bytes: the branch of `normalize` for a
component that is kept, and how `resolve` joins its input to the working directory. -/
def appendWithSlash (out more : Bytes) : Option Bytes := do
  let out ←
    if out.length > 0 ∧ out.getLast? ≠ some '/'.toUInt8 then
      if out.length ≥ PATH_MAX - 1 then none else some (out ++ bytes "/")
    else some out
  if out.length + more.length ≥ PATH_MAX then none else some (out ++ more)

/-- The body of the loop of `normalize` on a component. -/
def onComponent (out comp : Bytes) : Option Bytes :=
  if comp.length = 0 ∨ comp = bytes "." then some out
  else if comp = bytes ".." then some (popComponent out)
  else appendWithSlash out comp

/-- The index behind a component that ends at `stop`, and behind the `/` there. -/
def afterComponent (path : Bytes) (stop : Nat) : Nat :=
  if (path)[stop]? = some '/'.toUInt8 then stop + 1 else stop

/-- Each turn of the loop of `normalize` moves on. -/
theorem lt_afterComponent (path : Bytes) (i : Nat) (h : i < path.length) :
    i < afterComponent path (scanWhile (· != '/'.toUInt8) path i) := by
  have hle := le_scanWhile (· != '/'.toUInt8) path i
  rw [afterComponent]
  split
  · omega
  · rename_i hne
    rcases Nat.lt_or_ge (scanWhile (· != '/'.toUInt8) path i) path.length with hlt | hge
    · have hget := List.getElem?_eq_getElem hlt
      have hstop := scanWhile_stop _ path i _ hget
      rw [bne_eq_false_iff_eq] at hstop
      exact absurd (hget.trans (congrArg some hstop)) hne
    · omega

/-- The loop of `normalize` from index `i`. -/
def normalizeLoop (path : Bytes) (i : Nat) (out : Bytes) : Option Bytes :=
  if _h : i < path.length then
    let stop := scanWhile (· != '/'.toUInt8) path i
    match onComponent out (Span.of path (i, stop - i)) with
    | none => none
    | some out => normalizeLoop path (afterComponent path stop) out
  else some out
termination_by path.length - i
decreasing_by
  have := lt_afterComponent path i _h
  omega

/-- `path::normalize`. The components are read from left to right onto the path that there is so
far, and `..` pops the last one. A result that does not fit is refused. -/
def normalize (path : Bytes) : Option Bytes :=
  if path.length = 0 ∨ path.head? ≠ some '/'.toUInt8 then none
  else do
    let out ← normalizeLoop path 1 (bytes "/")
    return if out.length = 0 then bytes "/" else out

/-- `path::resolve`. A `getcwd` that fails, or answers with something else than a path from the
root, gives `/`, and the input is dropped. -/
def resolve (getcwd : Option Bytes) (input : Bytes) : Option Bytes :=
  if input.length = 0 then none
  else if input.head? = some '/'.toUInt8 then normalize input
  else
    match getcwd with
    | none => copyAbs (bytes "/")
    | some cwd =>
      if cwd.head? ≠ some '/'.toUInt8 then copyAbs (bytes "/")
      else
        let input := if input.take 2 = bytes "./" then input.drop 2 else input
        if cwd.length > PATH_MAX - 2 then none else (appendWithSlash cwd input).bind normalize

end OnyxShell
