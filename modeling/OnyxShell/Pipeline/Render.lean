import OnyxShell.Pipeline.Tokens

/-!
# `OnyxShell.Pipeline.Render`: command lines as structures, and how they are written

A `CommandLine` is what a user means by a line: one to eight commands of one to sixteen
words each, perhaps an output file, an input file and the background mark. Its bounds
are fields, so a value of the type is a line the parser has room for. `render` writes it
down with any number of spaces, at least one, between two tokens.
-/

set_option autoImplicit false

namespace OnyxShell

/-- A word of a command line: not empty, no whitespace, no pipe, and not read as a
redirection. -/
structure Word where
  bytes : Bytes
  ne_nil : bytes ≠ []
  word_bytes : ∀ b ∈ bytes, isWordByte b = true
  not_operator : ∀ b, bytes.head? = some b → ¬ (b = '>'.toUInt8 ∨ b = '<'.toUInt8)

/-- A word from its bytes. -/
def Word.ofBytes (w : Bytes) (h : w ≠ [] ∧ w.all isWordByte = true ∧
    w.head? ≠ some '>'.toUInt8 ∧ w.head? ≠ some '<'.toUInt8) : Word where
  bytes := w
  ne_nil := h.1
  word_bytes := List.all_eq_true.mp h.2.1
  not_operator := by
    rintro b hb (rfl | rfl)
    · exact h.2.2.1 hb
    · exact h.2.2.2 hb

/-- The bytes of a redirection target, empty when there is none. -/
def targetBytes : Option Word → Bytes
  | none => []
  | some w => w.bytes

/-- A command line within the bounds of the parser. The last segment needs one free
argument slot when anything follows its words, and its last word is not the mark. -/
structure CommandLine where
  segments : List (List Word)
  out : Option Word
  inp : Option Word
  background : Bool
  segments_ne_nil : segments ≠ []
  segments_le : segments.length ≤ MAX_SEGMENTS
  words_ne_nil : ∀ ws ∈ segments, ws ≠ []
  words_le : ∀ ws ∈ segments, ws.length ≤ MAX_ARGS_PER
  room : out.isSome ∨ inp.isSome ∨ background = true →
    ∀ ws, segments.getLast? = some ws → ws.length < MAX_ARGS_PER
  last_ne_mark : ∀ ws w, segments.getLast? = some ws → ws.getLast? = some w →
    w.bytes ≠ ampersand

/-- The tokens of a list of segments, with a pipe between two of them. -/
def segmentTokens {α : Type} : List (List α) → List (Token α)
  | [] => []
  | [ws] => ws.map .word
  | ws :: rest => ws.map .word ++ .pipe :: segmentTokens rest

/-- The tokens of what follows the words: the output file, the input file, the mark. -/
def suffixTokens (out inp : Option Word) (background : Bool) : List (Token Bytes) :=
  (match out with
    | none => []
    | some w => [.redirect true w.bytes]) ++
  (match inp with
    | none => []
    | some w => [.redirect false w.bytes]) ++
  if background then [.word ampersand] else []

/-- The tokens of a command line, in the order they are written. -/
def CommandLine.tokens (c : CommandLine) : List (Token Bytes) :=
  segmentTokens (c.segments.map (·.map Word.bytes)) ++ suffixTokens c.out c.inp c.background

/-- `n + 1` spaces. -/
def spaces (n : Nat) : Bytes := List.replicate (n + 1) ' '.toUInt8

/-- One token, with `gap + 1` spaces between an operator and its target. -/
def Token.render (gap : Nat) : Token Bytes → Bytes
  | .pipe => ['|'.toUInt8]
  | .word w => w
  | .redirect out w => (if out then '>'.toUInt8 else '<'.toUInt8) :: (spaces gap ++ w)

/-- The tokens behind the first one, each behind its spaces. `gaps n` gives the spaces
before the `n`-th token and inside it. -/
def renderTail : (Nat → Nat × Nat) → List (Token Bytes) → Bytes
  | _, [] => []
  | gaps, t :: ts =>
    spaces (gaps 0).1 ++ (t.render (gaps 0).2 ++ renderTail (fun n => gaps (n + 1)) ts)

/-- The line of a list of tokens. -/
def renderTokens (gaps : Nat → Nat × Nat) : List (Token Bytes) → Bytes
  | [] => []
  | t :: ts => t.render (gaps 0).2 ++ renderTail (fun n => gaps (n + 1)) ts

/-- A command line, written with the spaces `gaps`. -/
def CommandLine.render (c : CommandLine) (gaps : Nat → Nat × Nat) : Bytes :=
  renderTokens gaps c.tokens

end OnyxShell
