import OnyxShell.Pipeline.Exec
import OnyxShell.Pipeline.Tokens

/-!
# `OnyxShell.Pipeline.Spelling`: the pipeline a text spells

A `Spelling` is a pipeline without its line: the bytes that the commands and the kernel
get from it. `Pipeline.spelling` reads it off a parsed line. `textSpelling` reads it off
the tokens of a text, with no parser and no position: the words of each command, the last
target of each direction, and whether the last word is the background mark.
`OnyxShell.Proofs.Pipeline.Spelling` proves that the two agree.
-/

set_option autoImplicit false

namespace OnyxShell

/-- The arguments of each segment, the paths of the redirections, and the background
flag. -/
structure Spelling where
  segments : List (List Bytes)
  stdoutFile : Option Bytes
  stdinFile : Option Bytes
  background : Bool
deriving DecidableEq, Repr

/-- The path of a redirection span, if it is one. -/
def redirectTarget (line : Bytes) (s : Span) : Option Bytes :=
  if s.2 > 0 then some (redirectPath line s) else none

/-- What the executor takes out of a parsed line. -/
def Pipeline.spelling (line : Bytes) (p : Pipeline) : Spelling :=
  ⟨p.segments.map (segToArgs line), redirectTarget line p.stdoutFile,
    redirectTarget line p.stdinFile, p.background⟩

/-- The tokens of a text, with their bytes. -/
def tokensOf (text : Bytes) : List (Token Bytes) := (lex text).map (Token.map (Span.of text))

/-- The segments without a final background mark, and whether there was one. -/
def takeMark (segments : List (List Bytes)) : List (List Bytes) × Bool :=
  match segments.getLast? with
  | none => (segments, false)
  | some last =>
    if last.getLast? = some ampersand then (segments.dropLast ++ [last.dropLast], true)
    else (segments, false)

/-- A target as the kernel gets it: 255 bytes, up to the first NUL. -/
def targetOf (w : Bytes) : Option Bytes :=
  if w = [] then none else some ((w.take 255).takeWhile (· ≠ 0))

/-- The spelling of a finished reading. -/
def Reading.spelling (r : Reading Bytes) : Spelling :=
  ⟨(takeMark r.close.done).1.map (·.map (·.take 63)), targetOf r.close.stdoutFile,
    targetOf r.close.stdinFile, (takeMark r.close.done).2⟩

/-- What a text spells. -/
def textSpelling (text : Bytes) : Spelling :=
  ((tokensOf text).foldl Reading.step (Reading.start [])).spelling

end OnyxShell
