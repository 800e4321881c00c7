import OnyxShell.Pipeline.Parse

/-!
# `OnyxShell.Pipeline.Tokens`: what the parser's loops compute

The index loops of `parse` read a line as a sequence of tokens. `lex` is that
sequence: pipes, words and redirections, each with its position, with no bound on
their number. `Reading` is the parser's state between two tokens: the segments that
are complete, the one that is open, and the redirections seen last. One token moves
the reading by `Reading.step`.

The bounds of the parser live in `step` alone. A segment holds at most
`MAX_ARGS_PER` words, so a token that meets a full segment opens the next one. With
`MAX_SEGMENTS` segments complete, every later token is ignored.
`OnyxShell.Proofs.Pipeline.Parse` proves that `parse` is this automaton.
-/

set_option autoImplicit false

namespace OnyxShell

open Scan (scanWhile le_scanWhile lt_scanWhile)

/-- A token of a command line, with words of type `α`: spans of a line, or their bytes. A
redirection carries its direction (`true` for `>`) and its target, which is empty when no
word follows the operator. -/
inductive Token (α : Type)
  | pipe
  | word (a : α)
  | redirect (out : Bool) (a : α)
deriving DecidableEq, Repr

/-- A token with its words mapped. -/
def Token.map {α β : Type} (f : α → β) : Token α → Token β
  | .pipe => .pipe
  | .word a => .word (f a)
  | .redirect out a => .redirect out (f a)

/-- The token that begins at index `j`, and the index behind it. -/
def tokenAt (line : Bytes) (j : Nat) : Option (Token Span × Nat) :=
  match (line)[j]? with
  | none => none
  | some b =>
    if b = '|'.toUInt8 then some (.pipe, j + 1)
    else if b = '>'.toUInt8 ∨ b = '<'.toUInt8 then
      let start := scanWhile isWhitespace line (j + 1)
      let stop := scanWhile isWordByte line start
      some (.redirect (b = '>'.toUInt8) (start, stop - start), stop)
    else
      let stop := scanWhile isWordByte line j
      some (.word (j, stop - j), stop)

/-- A token behind skipped whitespace is not empty, so reading it moves on. -/
theorem lt_of_tokenAt {line : Bytes} {i k : Nat} {t : Token Span}
    (h : tokenAt line (scanWhile isWhitespace line i) = some (t, k)) :
    i < k ∧ i < line.length := by
  have h0 := le_scanWhile isWhitespace line i
  generalize hj : scanWhile isWhitespace line i = j at h h0
  rw [tokenAt] at h
  split at h
  · cases h
  · rename_i b hb
    have hlt : j < line.length := (List.getElem?_eq_some_iff.mp hb).1
    split at h
    · cases h
      omega
    · split at h
      · cases h
        have h1 := le_scanWhile isWhitespace line (j + 1)
        have h2 := le_scanWhile isWordByte line (scanWhile isWhitespace line (j + 1))
        omega
      · -- The scan stopped at `b`, so `b` is not whitespace and starts a word.
        rename_i hpipe _
        cases h
        have hws : isWhitespace b = false :=
          Scan.scanWhile_stop isWhitespace line i b (by rw [hj]; exact hb)
        have h1 := lt_scanWhile isWordByte line j b hb (by simp [isWordByte, hws, hpipe])
        omega

/-- The tokens of the line from index `i` on. -/
def lexFrom (line : Bytes) (i : Nat) : List (Token Span) :=
  match _h : tokenAt line (scanWhile isWhitespace line i) with
  | none => []
  | some (t, k) => t :: lexFrom line k
termination_by line.length - i
decreasing_by
  have := lt_of_tokenAt _h
  omega

/-- The tokens of the line. -/
def lex (line : Bytes) : List (Token Span) := lexFrom line 0

/-- The parser between two tokens. `current` is the open segment, if any. -/
structure Reading (α : Type) where
  done : List (List α)
  current : Option (List α)
  stdoutFile : α
  stdinFile : α
deriving DecidableEq, Repr

namespace Reading

variable {α : Type}

/-- Nothing read yet. `a` stands for the redirections that are not there. -/
def start (a : α) : Reading α := ⟨[], none, a, a⟩

/-- Completes the open segment. -/
def close (r : Reading α) : Reading α :=
  match r.current with
  | none => r
  | some args => { r with done := r.done ++ [args], current := none }

/-- Opens a segment if none is open and there is room for one more. -/
def openSegment (r : Reading α) : Reading α :=
  match r.current with
  | some _ => r
  | none => if r.done.length < MAX_SEGMENTS then { r with current := some [] } else r

/-- Completes the open segment if its argument array is full. -/
def closeFull (r : Reading α) : Reading α :=
  match r.current with
  | none => r
  | some args => if args.length < MAX_ARGS_PER then r else r.close

/-- A word goes to the open segment. With none open, the line is over the segment bound
and the word is dropped. -/
def addWord (r : Reading α) (a : α) : Reading α :=
  match r.current with
  | none => r
  | some args => { r with current := some (args ++ [a]) }

/-- A redirection of the open segment replaces the one before it. -/
def addRedirect (r : Reading α) (out : Bool) (a : α) : Reading α :=
  match r.current with
  | none => r
  | some _ => if out then { r with stdoutFile := a } else { r with stdinFile := a }

/-- The effect of one token. -/
def step (r : Reading α) : Token α → Reading α
  | .pipe => r.close
  | .word a => r.closeFull.openSegment.addWord a
  | .redirect out a => r.closeFull.openSegment.addRedirect out a

/-- A reading with its words mapped. -/
def map {β : Type} (f : α → β) (r : Reading α) : Reading β :=
  ⟨r.done.map (·.map f), r.current.map (·.map f), f r.stdoutFile, f r.stdinFile⟩

/-- The pipeline of a finished reading. -/
def finish (r : Reading Span) : Pipeline :=
  ⟨r.close.done, r.close.stdoutFile, r.close.stdinFile, false⟩

end Reading

/-- The reading of a whole line. -/
def readLine (line : Bytes) : Reading Span := (lex line).foldl Reading.step (Reading.start (0, 0))

end OnyxShell
