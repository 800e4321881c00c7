import OnyxShell.Pipeline.Exec

/-!
# `OnyxShell.Pipeline.Tidy`: the books of the executor

`Balanced` is what a caller expects of `execute`: the shell has the same descriptors open
as before, and a foreground pipeline leaves no child unwaited. `Tidy` says on which inputs
that holds, from the pipeline, the outcomes of the calls and the descriptors the shell has
open. It follows the exits of `execute` one by one.
-/

set_option autoImplicit false

namespace OnyxShell

variable {σ : Type}

/-- The children forked between `s` and `s'` have been waited for. Each of them by its own pid,
which is how the executor waits. -/
def WaitedFor (s s' : Shell σ) : Prop :=
  ∃ forked waited, s'.forked = s.forked ++ forked ∧ s'.waited = s.waited ++ waited ∧
    ∀ c ∈ forked, c.pid ∈ waited

/-- The same descriptors are open, and the children of a foreground pipeline have been
waited for. -/
def Balanced (p : Pipeline) (s s' : Shell σ) : Prop :=
  s.fds.SameOpen s'.fds ∧ (p.background = false → WaitedFor s s')

/-- The standard descriptors are open. -/
def StandardOpen (s : Shell σ) : Prop := ∀ n, n < 3 → s.fds.IsOpen n

/-- The exits of one command without redirections: nothing is opened, and what the command
itself does in the shell process is its own. -/
def TidyPlain (commands : Commands σ) (line : Bytes) (p : Pipeline) (seg : Segment)
    (s : Shell σ) : Prop :=
  seg = [] ∨ p.background = true ∨
    ∀ s', dispatch commands (segToArgs line seg) s = some s' → Balanced p s s'

/-- The exits of the segment loop, which starts with call number `n`. `redirected` says
that a file was opened, `out` and `inp` which. -/
def TidyLoop (answers : Answers) (n : Nat) (out inp standard : Prop) : List Segment → Prop
  | [] => ¬ out ∧ ¬ inp
  | [seg] =>
    -- Only a failing `fork` closes the output file, and nothing closes the input file.
    if seg = [] then ¬ out ∧ ¬ inp
    else if answers n = none then ¬ out ∧ ¬ inp
    else ¬ inp ∧ (out → standard)
  | seg :: rest =>
    if seg = [] then TidyLoop answers n out inp standard rest
    else
      -- The pipe fails, or there is just one more command, the last one, and all goes well.
      ¬ out ∧ ¬ inp ∧
        (answers n ≠ none ∨
          standard ∧ answers (n + 1) = none ∧ answers (n + 2) = none ∧
            (∀ seg ∈ rest.dropLast, seg = []) ∧ ∀ seg ∈ rest.getLast?, seg ≠ [])

/-- The exits behind the two redirections. -/
def TidyOpened (answers : Answers) (n : Nat) (line : Bytes) (out inp standard : Prop)
    (segments : List Segment) : Prop :=
  match segments with
  | [[]] => ¬ out ∧ ¬ inp
  | [a :: args] =>
    if isInprocessBuiltin (Span.of line a) then
      Span.of line a = bytes "exit" ∨ (out ∨ inp → standard)
    else TidyLoop answers n out inp standard [a :: args]
  | segments => TidyLoop answers n out inp standard segments

/-- The number of the call that opens the input file, if there is one. -/
def callIn (p : Pipeline) (s : Shell σ) : Nat := s.calls + if p.stdoutFile.2 > 0 then 1 else 0

/-- The number of the first call behind the redirections. -/
def callLoop (p : Pipeline) (s : Shell σ) : Nat := callIn p s + if p.stdinFile.2 > 0 then 1 else 0

/-- The exits from the redirections on. -/
def TidyRedirected (answers : Answers) (line : Bytes) (p : Pipeline) (s : Shell σ) : Prop :=
  if p.stdoutFile.2 > 0 ∧ answers s.calls ≠ none then
    -- The input file, if there is one, was opened before the output file was found missing.
    ¬ (p.stdinFile.2 > 0 ∧ answers (callIn p s) = none)
  else if p.stdinFile.2 > 0 ∧ answers (callIn p s) ≠ none then
    p.stdoutFile.2 > 0 → StandardOpen s
  else
    TidyOpened answers (callLoop p s) line (p.stdoutFile.2 > 0) (p.stdinFile.2 > 0)
      (StandardOpen s) p.segments

/-- When `execute` keeps its books. It looks at the pipeline, at the outcomes of the calls that
are made, and at the descriptors that are open before. -/
def Tidy (commands : Commands σ) (answers : Answers) (line : Bytes) (p : Pipeline)
    (s : Shell σ) : Prop :=
  match p.segments with
  | [seg] =>
    if p.stdoutFile.2 = 0 ∧ p.stdinFile.2 = 0 then TidyPlain commands line p seg s.jobReap
    else TidyRedirected answers line p s
  | _ => TidyRedirected answers line p s

end OnyxShell
