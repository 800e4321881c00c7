import OnyxShell.Pipeline.Tidy

/-!
# `OnyxShell.Pipeline.Redirect`: what a redirection should do

`OnlyRedirects` compares a single command with redirections to the same command without
them: its input and output are the files, and what it does to the shell is the same.
`RedirectsCleanly` is when that is so.

A command runs in the shell or in a child. `dispatchFds` are the descriptors it finds
there.
-/

set_option autoImplicit false

namespace OnyxShell

variable {σ : Type}

/-- The pipeline without its redirections. -/
def Pipeline.bare (p : Pipeline) : Pipeline := { p with stdoutFile := (0, 0), stdinFile := (0, 0) }

/-- What belongs to the shell itself: its environment, working directory and jobs. -/
def Shell.own (s : Shell σ) : σ × Jobs := (s.world, s.jobs)

/-- The output file as a description. -/
def Pipeline.outFile (line : Bytes) (p : Pipeline) : Description :=
  .file (redirectPath line p.stdoutFile) OUT_FLAGS

/-- The input file as a description. -/
def Pipeline.inFile (line : Bytes) (p : Pipeline) : Description :=
  .file (redirectPath line p.stdinFile) O_RDONLY

/-- The descriptors with which the command `a` is dispatched behind the redirections. In
the shell the files have the numbers that `open` gave them. -/
def dispatchFds (answers : Answers) (line : Bytes) (p : Pipeline) (a : Span) (s : Shell σ) :
    Option (FdTable Description) :=
  let (stdoutFd, s) := openStdout answers line p s.jobReap
  let (stdinFd, s) := openStdin answers line p s
  match stdoutFd, stdinFd with
  | .ok stdoutFd, .ok stdinFd =>
    if isInprocessBuiltin (Span.of line a) then some s.fds
    else
      match s.fork answers with
      | (.ok _, s) => some (childFds s.fds stdinFd stdoutFd)
      | (.error _, _) => none
  | _, _ => none

/-- The redirections of a single command bind its descriptors, and change nothing of what
it does to the shell. The run without them is one whose calls succeed. -/
structure OnlyRedirects (commands : Commands σ) (answers : Answers) (line : Bytes) (p : Pipeline)
    (a : Span) (s : Shell σ) : Prop where
  bound : ∃ fds, dispatchFds answers line p a s = some fds ∧
    (p.stdoutFile.2 > 0 → fds.get 1 = some (p.outFile line)) ∧
    (p.stdinFile.2 > 0 → fds.get 0 = some (p.inFile line))
  same : (execute commands answers line p s).map Shell.own
    = (execute commands (fun _ => none) line p.bare s).map Shell.own

/-- The open calls of the redirections succeed. -/
def OpensSucceed (answers : Answers) (p : Pipeline) (s : Shell σ) : Prop :=
  (p.stdoutFile.2 > 0 → answers s.calls = none) ∧ (p.stdinFile.2 > 0 → answers (callIn p s) = none)

/-- The files are opened at the descriptors they are for, or stand there already. `open` takes the
lowest free descriptor, so that where a file lands depends on which of the standard descriptors
are closed. -/
def Landed (line : Bytes) (p : Pipeline) (s : Shell σ) : Prop :=
  (p.stdoutFile.2 > 0 →
    s.fds.lowestFree = 1 ∨ s.fds.get 1 = some (p.outFile line)) ∧
  (p.stdinFile.2 > 0 →
    p.stdoutFile.2 = 0 ∧ s.fds.lowestFree = 0 ∨ s.fds.get 0 = some (p.inFile line))

/-- The command, run in the shell, returns and leaves what belongs to the shell alone. A builtin
may change the jobs or the world of the shell, and in a child, behind a `&`, it does not. -/
def LeavesShell (commands : Commands σ) (args : List Bytes) (s : Shell σ) : Prop :=
  ∃ s', dispatch commands args s = some s' ∧ s'.own = s.jobReap.own

/-- An in-process builtin runs in the shell, so the files must be at its descriptors, and a
background mark is lost. Any other command runs in a child, so its effect on the shell is
lost. -/
def RedirectsCleanly (commands : Commands σ) (answers : Answers) (line : Bytes) (p : Pipeline)
    (a : Span) (args : List Bytes) (s : Shell σ) : Prop :=
  if isInprocessBuiltin (Span.of line a) then
    Landed line p s ∧
      (p.background = true → LeavesShell commands args s ∧ s.jobReap.jobs.table.length = JOB_MAX)
  else
    answers (callLoop p s) = none ∧
      (p.stdoutFile.2 > 0 → p.stdinFile.2 > 0 → s.fds.IsOpen 0) ∧
      (p.background = false → LeavesShell commands args s)

end OnyxShell
