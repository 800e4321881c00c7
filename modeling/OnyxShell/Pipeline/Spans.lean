import OnyxShell.Lib.Scan
import OnyxShell.Pipeline.Parse

/-!
# `OnyxShell.Pipeline.Spans`: the spans of a parsed line

The executor takes its slices by the spans that `parse` returns, and checks none of them.
`WellFormed` is what it relies on. The words of a pipeline are runs of word bytes that no
word byte precedes or follows, in the order of the line, so two of them have no byte in
common.

`io::tokenize` is a second tokenizer, for lines without operators. `SameTokens` is what the
shell expects of the two on such a line.
-/

set_option autoImplicit false

namespace OnyxShell

/-- The span ends before the other one begins. -/
def Span.Before (s t : Span) : Prop := s.1 + s.2 ≤ t.1

/-- No index lies in both spans. -/
def Span.Apart (s t : Span) : Prop :=
  ∀ k, s.1 ≤ k → k < s.1 + s.2 → t.1 ≤ k → ¬k < t.1 + t.2

/-- The bounds of the slices that `seg_to_args` and `execute` take of the line: each argument
up to 63 bytes, the first one also as a whole (`is_inprocess_builtin`), and each redirection
up to 255 bytes. -/
def Pipeline.slices (p : Pipeline) : List (Nat × Nat) :=
  (p.segments.flatten.map fun s => (s.1, s.1 + min s.2 63)) ++
  ((p.segments.filterMap List.head?).map fun s => (s.1, s.1 + s.2)) ++
  [p.stdoutFile, p.stdinFile].map fun s => (s.1, s.1 + min s.2 255)

/-- The spans of a pipeline are good for a line. The counts are within the arrays of the parser,
the words are maximal runs in the order of the line, and a slice of the line by any span is within
it. -/
structure Pipeline.WellFormed (line : Bytes) (p : Pipeline) : Prop where
  segments : p.segments.length ≤ MAX_SEGMENTS
  args : ∀ seg ∈ p.segments, seg.length ≤ MAX_ARGS_PER
  /-- Each argument is a longest run of bytes that are neither whitespace nor a pipe. -/
  maximal : ∀ s ∈ p.segments.flatten, Scan.IsRun isWordByte line s.1 s.2
  ordered : p.segments.flatten.Pairwise Span.Before
  files : ∀ f ∈ [p.stdoutFile, p.stdinFile], f.1 + f.2 ≤ line.length
  apart : ∀ f ∈ [p.stdoutFile, p.stdinFile], ∀ s ∈ p.segments.flatten, Span.Apart f s
  slices : ∀ b ∈ p.slices, b.1 ≤ b.2 ∧ b.2 ≤ line.length

/-- `io::tokenize` finds the longest runs without whitespace, in their order, and `parse`
makes one segment of the same spans, but for a last word `&`. -/
structure SameTokens (line : Bytes) : Prop where
  runs : ∀ s, s ∈ tokenize line ↔ Scan.IsRun (fun b => !isWhitespace b) line s.1 s.2
  ordered : (tokenize line).Pairwise Span.Before
  parse_nil : tokenize line = [] → parse line = ⟨[], (0, 0), (0, 0), false⟩
  parse_concat : ∀ init last, tokenize line = init ++ [last] →
    parse line = if Span.of line last = ampersand then ⟨[init], (0, 0), (0, 0), true⟩
      else ⟨[init ++ [last]], (0, 0), (0, 0), false⟩

end OnyxShell
