import OnyxShell.Lib.FdTable
import OnyxShell.Features.Jobs

/-!
# `OnyxShell.Syscalls`: the shell process and the kernel calls of the pipeline executor

`Shell` is the state of the shell process that `pipeline::execute` works on: its
descriptor table, its job table, and what it has done so far that can be seen from
outside. The calls below are the ones of `src/syscalls`. Whether an `open`, a `pipe` or a
`fork` succeeds is not the shell's choice, so it is read from `Answers`. `close` and `dup`
of an open descriptor succeed.

What else belongs to the shell (environment, working directory) is the field `world`,
of an arbitrary type: the executor hands it to the commands and never looks at it.
-/

set_option autoImplicit false

namespace OnyxShell

/-- What a descriptor is open on. -/
inductive Description
  /-- An object from before, told apart by a number: a terminal, a script. -/
  | object (n : Nat)
  /-- A file, with the flags it was opened with. -/
  | file (path : Bytes) (flags : Nat)
  /-- The read end of a pipe. -/
  | pipeRead (pipe : Nat)
  /-- The write end of a pipe. -/
  | pipeWrite (pipe : Nat)
deriving DecidableEq, Repr

/-- A child process when it calls `dispatch`: its descriptors and its arguments. -/
structure Child where
  pid : Nat
  fds : FdTable Description
  args : List Bytes
deriving DecidableEq, Repr

/-- What the shell prints. -/
inductive Report
  /-- `io::write_error`. -/
  | error (msg : Bytes)
  /-- `io::write_error_errno`, with the negative result of the call. -/
  | errno (msg : Bytes) (ret : Int)
  /-- `[job] pid`. -/
  | launched (job : Nat) (pid : Nat)
  /-- `[job] pid Done`. -/
  | done (job : Nat) (pid : Nat)
deriving DecidableEq, Repr

/-- The outcome of the `n`-th `open`, `pipe` or `fork`: `none` is success, `some e` the
error `-(e + 1)`. -/
abbrev Answers := Nat → Option Nat

/-- The shell process. -/
structure Shell (σ : Type) where
  fds : FdTable Description
  jobs : Jobs
  world : σ
  /-- The number of `open`, `pipe` and `fork` calls made. -/
  calls : Nat
  /-- The number of pipes made. -/
  pipes : Nat
  /-- The pid of the last child. -/
  lastPid : Nat
  /-- The children that have ended and have not been waited for. -/
  ended : List Nat
  /-- The children that `fork` has made, in order. -/
  forked : List Child
  /-- The children that `waitpid` has been called for by their pid. -/
  waited : List Nat
  /-- The argument lists run by the shell process itself. -/
  dispatched : List (List Bytes)
  /-- What has been printed. -/
  reports : List Report

namespace Shell

variable {σ : Type}

/-- A shell at its start: three descriptors on the terminal, and nothing done yet. -/
def init (world : σ) : Shell σ :=
  ⟨⟨[some (.object 0), some (.object 1), some (.object 2)]⟩, Jobs.init, world, 0, 0, 1, [], [], [],
    [], []⟩

/-- Prints. -/
def report (s : Shell σ) (r : Report) : Shell σ := { s with reports := s.reports ++ [r] }

/-- `syscalls::open`. -/
def sysOpen (answers : Answers) (path : Bytes) (flags : Nat) (s : Shell σ) :
    Except Int Nat × Shell σ :=
  match answers s.calls with
  | some e => (.error (Int.negSucc e), { s with calls := s.calls + 1 })
  | none =>
    (.ok s.fds.lowestFree,
      { s with calls := s.calls + 1, fds := s.fds.alloc (.file path flags) })

/-- `syscalls::pipe`: the read end, then the write end, each at the lowest free number. -/
def pipe (answers : Answers) (s : Shell σ) : Except Int (Nat × Nat) × Shell σ :=
  match answers s.calls with
  | some e => (.error (Int.negSucc e), { s with calls := s.calls + 1 })
  | none =>
    let fds := s.fds.alloc (.pipeRead s.pipes)
    (.ok (s.fds.lowestFree, fds.lowestFree),
      { s with calls := s.calls + 1, pipes := s.pipes + 1
               fds := fds.alloc (.pipeWrite s.pipes) })

/-- `syscalls::fork` in the parent: the pid of the child. -/
def fork (answers : Answers) (s : Shell σ) : Except Int Nat × Shell σ :=
  match answers s.calls with
  | some e => (.error (Int.negSucc e), { s with calls := s.calls + 1 })
  | none => (.ok (s.lastPid + 1), { s with calls := s.calls + 1, lastPid := s.lastPid + 1 })

/-- What the child of a `fork` does up to its `dispatch`, seen from outside. -/
def start (s : Shell σ) (c : Child) : Shell σ := { s with forked := s.forked ++ [c] }

/-- `syscalls::close`. -/
def close (s : Shell σ) (fd : Nat) : Shell σ := { s with fds := s.fds.close fd }

/-- `syscalls::waitpid` for one child. -/
def waitpid (s : Shell σ) (pid : Nat) : Shell σ :=
  { s with waited := s.waited ++ [pid], ended := s.ended.erase pid }

/-- The body of the loop in `job_reap` for one ended child. -/
def reapOne (s : Shell σ) (pid : Nat) : Shell σ :=
  match s.jobs.remove pid with
  | (none, _) => s
  | (some job, jobs) => { s.report (.done job.id pid) with jobs := jobs }

/-- `features::job_reap`: `waitpid` for any child, without waiting, as long as one has
ended. -/
def jobReap (s : Shell σ) : Shell σ := { s.ended.foldl reapOne s with ended := [] }

/-- `features::job_add`, and the line that tells the user. -/
def jobAdd (s : Shell σ) (pid : Nat) : Shell σ :=
  { s with jobs := (s.jobs.jobAdd (toI32 pid)).2
           reports := s.reports ++ [.launched (s.jobs.jobAdd (toI32 pid)).1 pid] }

end Shell

end OnyxShell
