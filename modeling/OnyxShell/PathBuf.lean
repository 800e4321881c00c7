import OnyxShell.Path

/-!
# `OnyxShell.PathBuf`: `normalize` on its buffer

`normalize` of `src/path.rs` once more, with the buffer it writes: 256 bytes that keep what
an earlier component has left in them, and the length `olen` of the path in front. The text
is `out[..olen]`, and `Path` gives the same function on that text alone.

A return of `0` in the middle is an error that carries the buffer as it is then. A length
below `PATH_MAX` is a field of `PathBuf`, so every byte that is written has its place.
-/

set_option autoImplicit false

namespace OnyxShell

open Scan (scanWhile)

/-- The buffer of a path, `&mut [u8; PATH_MAX]`. -/
abbrev PathBytes := Vector UInt8 PATH_MAX

/-- The buffer has room for the first `/`. -/
theorem zero_lt_PATH_MAX : 0 < PATH_MAX := by decide

/-- The buffer has room for a NUL behind it. -/
theorem one_lt_PATH_MAX : 1 < PATH_MAX := by decide

/-- `out[dst..dst + src.len()].copy_from_slice(src)`. -/
def copyAt (out : PathBytes) (dst : Nat) (src : Bytes) : PathBytes :=
  out.mapIdx fun i b => if dst ≤ i then ((src)[i - dst]?).getD b else b

/-- `out` and `olen` in `normalize`. -/
structure PathBuf where
  out : PathBytes
  olen : Nat
  olen_lt : olen < PATH_MAX

namespace PathBuf

/-- The path in the buffer, `out[..olen]`. -/
def text (b : PathBuf) : Bytes := b.out.toList.take b.olen

/-- Whether `out[olen - 1] == b'/'`. -/
def slashAtEnd (b : PathBuf) : Bool := b.out.toList[b.olen - 1]? == some '/'.toUInt8

/-- `olen -= 1`. -/
def shrink (b : PathBuf) : PathBuf where
  out := b.out
  olen := b.olen - 1
  olen_lt := Nat.lt_of_le_of_lt (Nat.sub_le _ _) b.olen_lt

/-- The inner loop of a `..`. -/
def backToSlash (b : PathBuf) : PathBuf :=
  if b.olen > 1 ∧ b.slashAtEnd = false then backToSlash b.shrink else b
termination_by b.olen
decreasing_by simp only [shrink]; omega

/-- The branch of `normalize` for a component `..`. -/
def popComponent (b : PathBuf) : PathBuf := if b.olen > 1 then b.shrink.backToSlash else b

/-- The `/` in front of a component, unless one stands there. -/
def separate (b : PathBuf) : Except PathBytes PathBuf :=
  if b.olen > 0 ∧ b.slashAtEnd = false then
    if h : b.olen ≥ PATH_MAX - 1 then .error b.out
    else .ok ⟨b.out.set b.olen '/'.toUInt8 b.olen_lt, b.olen + 1,
      Nat.add_lt_of_lt_sub (Nat.lt_of_not_le h)⟩
  else .ok b

/-- The bytes of a component behind the path. -/
def append (b : PathBuf) (comp : Bytes) : Except PathBytes PathBuf :=
  if h : b.olen + comp.length ≥ PATH_MAX then .error b.out
  else .ok ⟨copyAt b.out b.olen comp, b.olen + comp.length, Nat.lt_of_not_le h⟩

/-- The body of the loop of `normalize` on a component. -/
def onComponent (b : PathBuf) (comp : Bytes) : Except PathBytes PathBuf :=
  if comp.length = 0 ∨ comp = bytes "." then .ok b
  else if comp = bytes ".." then .ok b.popComponent
  else b.separate.bind fun b => b.append comp

/-- The loop of `normalize` from index `i`. -/
def normalizeLoop (path : Bytes) (i : Nat) (b : PathBuf) : Except PathBytes PathBuf :=
  if _h : i < path.length then
    let stop := scanWhile (· != '/'.toUInt8) path i
    match b.onComponent (Span.of path (i, stop - i)) with
    | .error out => .error out
    | .ok b => normalizeLoop path (afterComponent path stop) b
  else .ok b
termination_by path.length - i
decreasing_by
  have := lt_afterComponent path i _h
  omega

/-- What `normalize` does behind its loop. -/
def finish (b : PathBuf) : Nat × PathBytes :=
  if b.olen = 0 then (1, (b.out.set 0 '/'.toUInt8 zero_lt_PATH_MAX).set 1 0 one_lt_PATH_MAX)
  else (b.olen, b.out.set b.olen 0 b.olen_lt)

/-- `path::normalize`: the length it returns, and the buffer behind the call. -/
def normalize (path : Bytes) (out : PathBytes) : Nat × PathBytes :=
  if path.length = 0 ∨ path.head? ≠ some '/'.toUInt8 then (0, out)
  else
    match normalizeLoop path 1
        ⟨out.set 0 '/'.toUInt8 zero_lt_PATH_MAX, 1, one_lt_PATH_MAX⟩ with
    | .error out => (0, out)
    | .ok b => b.finish

end PathBuf

end OnyxShell
