import OnyxShell.Features.Service.Glob
import OnyxShell.Lib.Loop

/-!
# `OnyxShell.Features.Service.GlobIndex`: the wildcard matcher on plain indices

`glob_match` of `src/features/service/glob.rs` with its four variables as numbers that carry no
bounds. Every index and every slice is checked where the source uses it, in the order of the
source, and `none` is an index that is not in its slice. The bracket and class scans are loops
of their own. A slice has at most `isize::MAX` bytes, so no index wraps.
-/

set_option autoImplicit false

namespace OnyxShell

open Loop (Turn)
open Scan (checkedScan slice)

/-- The variables of the main loop of `glob_match`. -/
structure GlobVars where
  pi : Nat
  ni : Nat
  starPi : Option Nat
  starNi : Nat
deriving DecidableEq, Repr

namespace GlobVars

/-- The variables before the loop. -/
def start : GlobVars := ⟨0, 0, none, 0⟩

/-- Back to the last star, one byte further on, or `return false` without one. -/
def fallBack (v : GlobVars) : Turn Bool GlobVars :=
  match v.starPi with
  | some spi => .next ⟨spi + 1, v.starNi + 1, some spi, v.starNi + 1⟩
  | none => .ret false

/-- `pi < pattern.len() && (pattern[pi] == b'?' || pattern[pi] == name[ni] || pattern[pi] == b'[')`. -/
def takesByte (pattern name : Bytes) (v : GlobVars) : Option Bool :=
  if v.pi < pattern.length then do
    let p ← (pattern)[v.pi]?
    if p = '?'.toUInt8 then some true
    else
      let c ← (name)[v.ni]?
      some (p = c ∨ p = '['.toUInt8)
  else some false

/-- `pi < pattern.len() && pattern[pi] == b'*'`. -/
def atStar (pattern : Bytes) (v : GlobVars) : Option Bool :=
  if v.pi < pattern.length then do
    let p ← (pattern)[v.pi]?
    some (p = '*'.toUInt8)
  else some false

end GlobVars

/-- `i + 2 < class.len() && class[i + 1] == b'-'`. -/
def rangeAt (cls : Bytes) (i : Nat) : Option Bool :=
  if i + 2 < cls.length then do
    let dash ← (cls)[i + 1]?
    some (dash = '-'.toUInt8)
  else some false

/-- The loop over a bracket class, from index `i`. -/
def classScan (cls : Bytes) (c : UInt8) (i : Nat) : Option Bool :=
  if h : i < cls.length then do
    let range ← rangeAt cls i
    let first ← (cls)[i]?
    if range then
      if first ≤ c then
        let last ← (cls)[i + 2]?
        if c ≤ last then some true else classScan cls c (i + 3)
      else classScan cls c (i + 3)
    else if c = first then some true
    else classScan cls c (i + 1)
  else some false
termination_by cls.length - i

/-- The branch of the main loop for a `[`. -/
def bracketTurn (pattern name : Bytes) (v : GlobVars) : Option (Turn Bool GlobVars) := do
  let stop ← checkedScan (· != ']'.toUInt8) pattern (v.pi + 1)
  if stop ≥ pattern.length then
    let c ← (name)[v.ni]?
    if c ≠ '['.toUInt8 then some v.fallBack
    else some (.next { v with ni := v.ni + 1, pi := v.pi + 1 })
  else
    let cls ← slice pattern (v.pi + 1) stop
    let c ← (name)[v.ni]?
    let found ← classScan cls c 0
    if !found then some v.fallBack
    else some (.next { v with ni := v.ni + 1, pi := stop + 1 })

/-- The body of the main loop of `glob_match`. -/
def globTurn (pattern name : Bytes) (v : GlobVars) : Option (Turn Bool GlobVars) := do
  let one ← v.takesByte pattern name
  if one then
    let p ← (pattern)[v.pi]?
    if p = '['.toUInt8 then bracketTurn pattern name v
    else some (.next { v with ni := v.ni + 1, pi := v.pi + 1 })
  else
    let star ← v.atStar pattern
    if star then some (.next ⟨v.pi + 1, v.ni, some v.pi, v.ni⟩) else some v.fallBack

/-- The condition of the main loop. -/
def globCond (name : Bytes) (v : GlobVars) : Bool := v.ni < name.length

/-- The main loop of `glob_match` for at most `k` turns. -/
def globTurns (pattern name : Bytes) (k : Nat) : Option (Turn Bool GlobVars) :=
  Loop.iterate (globCond name) (globTurn pattern name) GlobVars.start k

/-- What `glob_match` returns when its main loop has come to `turn`: the stars at the end of
the pattern are passed. -/
def globResult (pattern : Bytes) : Turn Bool GlobVars → Option Bool
  | .ret r => some r
  | .next v => (checkedScan (· == '*'.toUInt8) pattern v.pi).map (· == pattern.length)

end OnyxShell
