import OnyxShell.Syscalls
import OnyxShell.Pipeline.Parse

/-!
# `OnyxShell.Pipeline.Exec`: the pipeline executor

`src/pipeline/exec.rs`. `execute` leaves in seven places, and each of its stages below is
one function that ends in one or more of them: `executePlain` for one command without
redirections, `executeOpened` behind the two redirections, `spawnSegment` for one turn of
the segment loop, and `finishLaunch` behind the loop. `none` is "does not return": the
shell process is gone.

A negative descriptor is the error of an `Except`. The entry `-1` of `parent_close` is
`none`, and its second component, which nothing reads, is left out.
-/

set_option autoImplicit false

namespace OnyxShell

variable {σ : Type}

/-- `exec::is_inprocess_builtin`. -/
def isInprocessBuiltin (cmd : Bytes) : Bool :=
  [bytes "cd", bytes "exit", bytes "pwd", bytes "help", bytes "whoami", bytes "uname",
    bytes "ver", bytes "clear", bytes "date"].contains cmd

/-- The commands as effects on the shell process. The in-process builtins other than
`exit` print, and `cd` changes the working directory, which is part of the world. The
other commands may do anything, and need not return. -/
structure Commands (σ : Type) where
  builtin : List Bytes → σ → σ
  other : List Bytes → Shell σ → Option (Shell σ)

/-- Commands without an effect on the shell process. -/
def Commands.idle : Commands Unit := ⟨fun _ world => world, fun _ s => some s⟩

/-- `commands::dispatch` in the shell process. -/
def dispatch (commands : Commands σ) (args : List Bytes) (s : Shell σ) : Option (Shell σ) :=
  let s := s.jobReap
  match args with
  | [] => some s
  | cmd :: _ =>
    let s := { s with dispatched := s.dispatched ++ [args] }
    if cmd = bytes "exit" ∨ cmd = bytes "logout" then none
    else if isInprocessBuiltin cmd then some { s with world := commands.builtin args s.world }
    else commands.other args s

/-- One command without redirections. -/
def executePlain (commands : Commands σ) (answers : Answers) (line : Bytes) (seg : Segment)
    (background : Bool) (s : Shell σ) : Option (Shell σ) :=
  if seg.length = 0 then some s
  else if background then
    match s.fork answers with
    | (.error e, s) => some (s.report (.errno (bytes "fork") e))
    | (.ok pid, s) => some ((s.start ⟨pid, s.fds, segToArgs line seg⟩).jobAdd pid)
  else dispatch commands (segToArgs line seg) s

/-- The path the kernel reads from `G_OUT_PATH` or `G_IN_PATH`: at most 255 bytes of the
span, up to the first NUL. -/
def redirectPath (line : Bytes) (s : Span) : Bytes :=
  ((line.drop s.1).take (min s.2 255)).takeWhile (· ≠ 0)

/-- `O_WRONLY | O_CREAT | O_TRUNC`. -/
def OUT_FLAGS : Nat := 1 ||| 1 <<< 6 ||| 1 <<< 9

/-- `O_RDONLY`. -/
def O_RDONLY : Nat := 0

/-- `stdout_fd`. -/
def openStdout (answers : Answers) (line : Bytes) (p : Pipeline) (s : Shell σ) :
    Except Int Nat × Shell σ :=
  if p.stdoutFile.2 > 0 then s.sysOpen answers (redirectPath line p.stdoutFile) OUT_FLAGS
  else (.ok 1, s)

/-- `stdin_fd`. -/
def openStdin (answers : Answers) (line : Bytes) (p : Pipeline) (s : Shell σ) :
    Except Int Nat × Shell σ :=
  if p.stdinFile.2 > 0 then s.sysOpen answers (redirectPath line p.stdinFile) O_RDONLY
  else (.ok 0, s)

/-- `if fd > 2 { syscalls::close(fd as u64); }`. -/
def Shell.closeAboveTwo (s : Shell σ) (fd : Nat) : Shell σ := if fd > 2 then s.close fd else s

/-- The variables of the segment loop. -/
structure Launch (σ : Type) where
  shell : Shell σ
  prevReadFd : Nat
  lastPid : Nat
  spawnedPids : List Nat
  parentClose : List (Option Nat)

/-- The descriptors of a child when it calls `dispatch`. -/
def childFds (fds : FdTable Description) (curReadFd curWriteFd : Nat) : FdTable Description :=
  let fds := if curReadFd ≠ 0 then (fds.close 0).dup curReadFd else fds
  if curWriteFd ≠ 1 then (fds.close 1).dup curWriteFd else fds

/-- `cur_write_fd` and the next `prev_read_fd`: the end of the chain, or a new pipe. -/
def segmentPipe (answers : Answers) (isLast : Bool) (stdoutFd : Nat) (l : Launch σ) :
    Except Int (Nat × Nat) × Shell σ :=
  if isLast then (.ok (stdoutFd, l.prevReadFd), l.shell)
  else
    match l.shell.pipe answers with
    | (.error e, s) => (.error e, s)
    | (.ok (readFd, writeFd), s) => (.ok (writeFd, readFd), s)

/-- The `parent_close` entry of a spawned segment. -/
def parentCloseEntry (curReadFd curWriteFd stdoutFd stdinFd : Nat) : Option Nat :=
  if curReadFd > 2 ∧ curReadFd ≠ stdinFd then some curReadFd
  else if curWriteFd > 2 ∧ curWriteFd ≠ stdoutFd then some curWriteFd
  else none

/-- The loop variables behind a successful `fork`, with the child started. -/
def Launch.spawned (l : Launch σ) (s : Shell σ) (line : Bytes) (seg : Segment)
    (pid curWriteFd prevReadFd stdoutFd stdinFd : Nat) : Launch σ :=
  { shell := s.start ⟨pid, childFds s.fds l.prevReadFd curWriteFd, segToArgs line seg⟩
    prevReadFd := prevReadFd
    lastPid := pid
    spawnedPids := l.spawnedPids ++ [pid]
    parentClose :=
      l.parentClose ++ [parentCloseEntry l.prevReadFd curWriteFd stdoutFd stdinFd] }

/-- The exit of the loop when `fork` fails with `ret`. -/
def Shell.forkFailed (s : Shell σ) (ret : Int) (curReadFd curWriteFd stdinFd : Nat) : Shell σ :=
  let s := (s.report (.errno (bytes "fork") ret)).closeAboveTwo curWriteFd
  if curReadFd > 2 ∧ curReadFd ≠ stdinFd then s.close curReadFd else s

/-- One turn of the segment loop. An error is a `return` out of it. -/
def spawnSegment (answers : Answers) (line : Bytes) (stdoutFd stdinFd : Nat) (seg : Segment)
    (isLast : Bool) (l : Launch σ) : Except (Shell σ) (Launch σ) :=
  if seg.length = 0 then .ok l
  else
    match segmentPipe answers isLast stdoutFd l with
    -- The ends of the chain stay open.
    | (.error _, s) => .error (s.report (.error (bytes "pipe failed")))
    | (.ok (curWriteFd, prevReadFd), s) =>
      match s.fork answers with
      | (.error e, s) => .error (s.forkFailed e l.prevReadFd curWriteFd stdinFd)
      | (.ok pid, s) =>
        .ok (l.spawned s line seg pid curWriteFd prevReadFd stdoutFd stdinFd)

/-- The segment loop. `is_last` is the last turn. -/
def launchAll (answers : Answers) (line : Bytes) (stdoutFd stdinFd : Nat) :
    List Segment → Launch σ → Except (Shell σ) (Launch σ)
  | [], l => .ok l
  | seg :: rest, l =>
    match spawnSegment answers line stdoutFd stdinFd seg rest.isEmpty l with
    | .error s => .error s
    | .ok l => launchAll answers line stdoutFd stdinFd rest l

/-- The body of the `parent_close` loop. -/
def Shell.closeEntry (s : Shell σ) : Option Nat → Shell σ
  | none => s
  | some fd => s.closeAboveTwo fd

/-- The `parent_close` loop. -/
def closeParent (parentClose : List (Option Nat)) (s : Shell σ) : Shell σ :=
  parentClose.foldl Shell.closeEntry s

/-- What follows the segment loop: the closes, and the waits or the job entry. -/
def finishLaunch (background : Bool) (l : Launch σ) : Shell σ :=
  let s := closeParent l.parentClose l.shell
  -- The waits go by pid, in the order of the segments.
  let s := if background then s else l.spawnedPids.foldl Shell.waitpid s
  if background ∧ l.lastPid > 0 then s.jobAdd l.lastPid else s

/-- The shell when `execute` returns from the segment loop or from behind it. -/
def launchResult (background : Bool) : Except (Shell σ) (Launch σ) → Shell σ
  | .error s => s
  | .ok l => finishLaunch background l

/-- The segment loop and what follows it. -/
def executeLoop (answers : Answers) (line : Bytes) (p : Pipeline) (stdoutFd stdinFd : Nat)
    (s : Shell σ) : Shell σ :=
  launchResult p.background
    (launchAll answers line stdoutFd stdinFd p.segments ⟨s, stdinFd, 0, [], []⟩)

/-- `execute` behind the two redirections. -/
def executeOpened (commands : Commands σ) (answers : Answers) (line : Bytes) (p : Pipeline)
    (stdoutFd stdinFd : Nat) (s : Shell σ) : Option (Shell σ) :=
  match p.segments with
  -- No closes on this exit.
  | [[]] => some s
  | [a :: args] =>
    if isInprocessBuiltin (Span.of line a) then
      (dispatch commands (segToArgs line (a :: args)) s).map fun s =>
        (s.closeAboveTwo stdoutFd).closeAboveTwo stdinFd
    else some (executeLoop answers line p stdoutFd stdinFd s)
  | _ => some (executeLoop answers line p stdoutFd stdinFd s)

/-- `execute` from the redirections on. Both files are opened before either is checked. -/
def executeRedirected (commands : Commands σ) (answers : Answers) (line : Bytes) (p : Pipeline)
    (s : Shell σ) : Option (Shell σ) :=
  let (stdoutFd, s) := openStdout answers line p s
  let (stdinFd, s) := openStdin answers line p s
  match stdoutFd with
  | .error e => some (s.report (.errno (bytes "open (redirect)") e))
  | .ok stdoutFd =>
    match stdinFd with
    | .error e => some ((s.report (.errno (bytes "open (redirect)") e)).closeAboveTwo stdoutFd)
    | .ok stdinFd => executeOpened commands answers line p stdoutFd stdinFd s

/-- `pipeline::execute`. The children that have ended are reaped first. One command without
redirections takes a way of its own. -/
def execute (commands : Commands σ) (answers : Answers) (line : Bytes) (p : Pipeline)
    (s : Shell σ) : Option (Shell σ) :=
  let s := s.jobReap
  match p.segments with
  | [seg] =>
    if p.stdoutFile.2 = 0 ∧ p.stdinFile.2 = 0 then
      executePlain commands answers line seg p.background s
    else executeRedirected commands answers line p s
  | _ => executeRedirected commands answers line p s

end OnyxShell
