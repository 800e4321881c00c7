import OnyxShell.Lib.Scan

/-!
# `OnyxShell.Io`: bytes, slices and the whitespace tokenizer

The parts of `src/io.rs` that the evaluation paths read: `is_whitespace` and
`tokenize`. A byte slice is a `List UInt8`, and a pair `(offset, length)` into a line
is a `Span`. `Span.of line` is the slice `&line[off..off + len]`.

The fixed array `[(usize, usize); 16]` and the count that `tokenize` returns are one
list here, of at most `MAX_TOKENS` spans.

An index into a line is written `(line)[i]?`: without the parentheses, `line` and the
bracket are one token of Mathlib.
-/

set_option autoImplicit false

namespace OnyxShell

open Scan (scanWhile le_scanWhile lt_scanWhile)

/-- A byte slice. -/
abbrev Bytes := List UInt8

/-- A byte-string literal `b"..."` (ASCII only, as all literals of the source are). -/
def bytes (s : String) : Bytes := s.toList.map Char.toUInt8

/-- An `(offset, length)` pair into a line. -/
abbrev Span := Nat × Nat

/-- The slice `&line[off..off + len]`. -/
def Span.of (line : Bytes) (s : Span) : Bytes := (line.drop s.1).take s.2

/-- `io::is_whitespace`: space, tab, CR or LF. -/
def isWhitespace (b : UInt8) : Bool :=
  b == ' '.toUInt8 || b == '\t'.toUInt8 || b == '\r'.toUInt8 || b == '\n'.toUInt8

/-- An ASCII digit. -/
def isDigit (b : UInt8) : Bool := '0'.toUInt8 ≤ b && b ≤ '9'.toUInt8

/-- The length of the token array `tokenize` fills. -/
def MAX_TOKENS : Nat := 16

/-- The loop of `io::tokenize` from index `i`, with the spans found so far. -/
def tokenizeLoop (line : Bytes) (i : Nat) (tokens : List Span) : List Span :=
  if i < line.length ∧ tokens.length < MAX_TOKENS then
    let start := scanWhile isWhitespace line i
    if start ≥ line.length then tokens
    else
      let stop := scanWhile (fun b => !isWhitespace b) line start
      tokenizeLoop line stop (tokens ++ [(start, stop - start)])
  else tokens
termination_by MAX_TOKENS - tokens.length

/-- `io::tokenize`: the whitespace-separated words of the line, at most 16 of them. -/
def tokenize (line : Bytes) : List Span := tokenizeLoop line 0 []

end OnyxShell
