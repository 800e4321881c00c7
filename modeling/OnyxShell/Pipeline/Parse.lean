import OnyxShell.Io

/-!
# `OnyxShell.Pipeline.Parse`: the pipeline parser

`src/pipeline/parse.rs`. `parse` reads a line with one index `i` shared by three
nested loops. `parseLoop` is the outer one, over segments. `parseSegment` is the one
over the words and redirections of a segment, which stops at a pipe, at the end of
the line, or when the segment's argument array is full. The innermost ones are
`scanWhile` scans.

The arrays with their counts (`args` with `n_args`, `segments` with `n_segments`) are
lists, so a count is a length. What the source leaves behind the count is never read.
-/

set_option autoImplicit false

namespace OnyxShell

open Scan (scanWhile le_scanWhile lt_scanWhile)

/-- `pipeline::MAX_SEGMENTS`. -/
def MAX_SEGMENTS : Nat := 8

/-- `pipeline::MAX_ARGS_PER`. -/
def MAX_ARGS_PER : Nat := 16

/-- `pipeline::Segment`: the argument spans of one command, `args[..n_args]`. -/
abbrev Segment := List Span

/-- `pipeline::Pipeline`. A redirection span of length 0 stands for "no redirection". -/
structure Pipeline where
  segments : List Segment
  stdoutFile : Span
  stdinFile : Span
  background : Bool
deriving DecidableEq, Repr

/-- A byte of a word: neither whitespace nor a pipe. -/
def isWordByte (b : UInt8) : Bool := !isWhitespace b && b != '|'.toUInt8

/-- What separates segments: whitespace and pipes. -/
def isSeparator (b : UInt8) : Bool := isWhitespace b || b == '|'.toUInt8

/-- The state the segment loop leaves behind: the index, the spans collected, and the
two redirection spans. -/
structure SegmentScan where
  i : Nat
  args : List Span
  stdoutFile : Span
  stdinFile : Span
deriving DecidableEq, Repr

/-- The second loop of `parse`, from index `i` with the arguments and redirections
found so far. `line[i]? = none` is `i >= len`. -/
def parseSegment (line : Bytes) (i : Nat) (args : List Span) (stdoutFile stdinFile : Span) :
    SegmentScan :=
  if i < line.length ∧ (line)[i]? ≠ some '|'.toUInt8 ∧ args.length < MAX_ARGS_PER then
    let j := scanWhile isWhitespace line i
    match _hj : (line)[j]? with
    | none => ⟨j, args, stdoutFile, stdinFile⟩
    | some b =>
      if b = '|'.toUInt8 then ⟨j, args, stdoutFile, stdinFile⟩
      else if b = '>'.toUInt8 ∨ b = '<'.toUInt8 then
        let start := scanWhile isWhitespace line (j + 1)
        let stop := scanWhile isWordByte line start
        if b = '>'.toUInt8 then parseSegment line stop args (start, stop - start) stdinFile
        else parseSegment line stop args stdoutFile (start, stop - start)
      else
        let stop := scanWhile isWordByte line j
        parseSegment line stop (args ++ [(j, stop - j)]) stdoutFile stdinFile
  else ⟨i, args, stdoutFile, stdinFile⟩
termination_by line.length - i
decreasing_by
  -- A redirection passes its operator byte.
  iterate 2
    have h0 := le_scanWhile isWhitespace line i
    have h1 := le_scanWhile isWhitespace line (scanWhile isWhitespace line i + 1)
    have h2 := le_scanWhile isWordByte line
      (scanWhile isWhitespace line (scanWhile isWhitespace line i + 1))
    omega
  -- A word passes its first byte, which is neither a pipe nor whitespace.
  have h0 := le_scanWhile isWhitespace line i
  have hb : isWordByte b = true := by
    have := Scan.scanWhile_stop isWhitespace line i b _hj
    simp_all [isWordByte]
  have h1 := lt_scanWhile isWordByte line (scanWhile isWhitespace line i) b _hj hb
  omega

/-- The outer loop of `parse`: each round opens one segment. -/
def parseLoop (line : Bytes) (i : Nat) (p : Pipeline) : Pipeline :=
  if i < line.length ∧ p.segments.length < MAX_SEGMENTS then
    let j := scanWhile isSeparator line i
    if j ≥ line.length then p
    else
      let s := parseSegment line j [] p.stdoutFile p.stdinFile
      parseLoop line s.i
        { p with segments := p.segments ++ [s.args]
                 stdoutFile := s.stdoutFile
                 stdinFile := s.stdinFile }
  else p
termination_by MAX_SEGMENTS - p.segments.length

/-- The byte string of the background mark. -/
def ampersand : Bytes := bytes "&"

/-- The end of `parse`: a last argument that is exactly `&` is taken out and marks the
pipeline as a background one. -/
def markBackground (line : Bytes) (p : Pipeline) : Pipeline :=
  match p.segments.getLast? with
  | none => p
  | some last =>
    match last.getLast? with
    | none => p
    | some a =>
      if Span.of line a = ampersand then
        { p with segments := p.segments.dropLast ++ [last.dropLast], background := true }
      else p

/-- `pipeline::parse`. The line is cut into tokens, these are read into segments one by one, and
the mark of a background pipeline is taken out at the end. -/
def parse (line : Bytes) : Pipeline :=
  markBackground line (parseLoop line 0 ⟨[], (0, 0), (0, 0), false⟩)

/-- `pipeline::seg_to_args`: the bytes of each argument span, cut to the 63 that fit its
row of the argument buffer. -/
def segToArgs (line : Bytes) (seg : Segment) : List Bytes :=
  seg.map fun s => (line.drop s.1).take (min s.2 63)

end OnyxShell
