import OnyxShell.Lib.Wildcard
import OnyxShell.Features.Service.Glob

/-!
# `OnyxShell.Features.Service.GlobLanguage`: what a glob pattern means

The language of a pattern, independent of any matcher: `globTokens` reads the bytes of the
pattern from left to right, and a name is in the language when the tokens match it.

`InLanguage` is what a user expects of a pattern. `InLiteralLanguage` is the part of it that the
matcher of the source reaches, where a `*` in the name is met by a star as that byte.
-/

set_option autoImplicit false

namespace OnyxShell

/-- The members of a bracket class, grouped from the left into ranges `a-b` and single
bytes. -/
def classGroups : Bytes → List (UInt8 × UInt8)
  | a :: d :: b :: rest =>
    if d = '-'.toUInt8 then (a, b) :: classGroups rest else (a, a) :: classGroups (d :: b :: rest)
  | [a, b] => [(a, a), (b, b)]
  | [a] => [(a, a)]
  | [] => []

/-- A byte lies in one of the groups of a class. -/
def inClass (cls : Bytes) (c : UInt8) : Bool :=
  (classGroups cls).any fun g => decide (g.1 ≤ c) && decide (c ≤ g.2)

/-- The tokens of a pattern. A `[` with a later `]` opens a class that the first `]` closes,
and without one it stands for itself. -/
def globTokens : Bytes → List (Wildcard.Token UInt8)
  | [] => []
  | b :: rest =>
    if b = '*'.toUInt8 then .star :: globTokens rest
    else if b = '?'.toUInt8 then .one (fun _ => true) :: globTokens rest
    else if b = '['.toUInt8 ∧ ']'.toUInt8 ∈ rest then
      .one (inClass (rest.takeWhile (· != ']'.toUInt8))) ::
        globTokens (rest.dropWhile (· != ']'.toUInt8)).tail
    else .one (· == b) :: globTokens rest
termination_by pattern => pattern.length
decreasing_by
  · exact Nat.lt_succ_self _
  · exact Nat.lt_succ_self _
  · have h := (List.dropWhile_sublist (fun b => b != ']'.toUInt8) (l := rest)).length_le
    rw [List.length_tail, List.length_cons]
    omega
  · exact Nat.lt_succ_self _

/-- The name is in the language of the pattern. `*` stands for any bytes, `?` for one byte, and a
class for one of its bytes. -/
def InLanguage (pattern name : Bytes) : Prop := Wildcard.Matches (globTokens pattern) name

/-- The name matches the pattern with each star that meets a `*` of the name taking that
byte alone. -/
def InLiteralLanguage (pattern name : Bytes) : Prop :=
  Wildcard.MatchesLiteral '*'.toUInt8 (globTokens pattern) name

end OnyxShell
