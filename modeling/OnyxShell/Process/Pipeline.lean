import OnyxShell.Pipeline.Exec
import OnyxShell.Process.Jobs

/-!
# `OnyxShell.Process.Pipeline`: the pipeline executor

`src/pipeline/exec.rs` with both sides of each `fork`: where it is answered 0, the program goes on
as the child, which ends in `exit`. The stages are those of `OnyxShell.Pipeline.Exec`. A descriptor
is an `i64`, and a negative one is the error of an `open`.

`dispatch` is a parameter here: a child runs a command, and a command may be a script whose lines
run pipelines. `OnyxShell.Process.Eval` ties the knot.
-/

set_option autoImplicit false

namespace OnyxShell.Process

/-- The code of a child behind its redirections. -/
def childMain {α : Type} (dispatch : List Bytes → Sh Unit) (args : List Bytes) : Sh α := do
  dispatch args
  exit 0

/-- One command without redirections. -/
def executePlain (dispatch : List Bytes → Sh Unit) (line : Bytes) (seg : Segment)
    (background : Bool) : Sh Unit :=
  if seg.length = 0 then pure ()
  else if background then do
    let pid ← sys .fork
    if pid.ret < 0 then writeErrorErrno (bytes "fork") pid.ret
    else if pid.ret = 0 then childMain dispatch (segToArgs line seg)
    else jobLaunched pid.ret
  else dispatch (segToArgs line seg)

/-- `stdout_fd` or `stdin_fd`. -/
def openRedirect (line : Bytes) (file : Span) (flags : Nat) (standard : Int) : Sh Int :=
  if file.2 > 0 then do
    let a ← sys (.sysOpen (redirectPath line file) flags)
    pure a.ret
  else pure standard

/-- `if fd > 2 { syscalls::close(fd as u64); }`. -/
def closeAboveTwo (fd : Int) : Sh Unit := do
  if fd > 2 then
    let _ ← sys (.close fd.toNat)

/-- The variables of the segment loop. -/
structure Launch where
  prevReadFd : Int
  lastPid : Int
  spawnedPids : List Int
  parentClose : List Int

/-- The cast of a `u64` to an `i64`. -/
def asI64 (n : Nat) : Int := Int.bmod n USIZE

/-- `cur_write_fd` and the next `prev_read_fd`: the end of the chain, or a new pipe. -/
def segmentPipe (isLast : Bool) (stdoutFd prevReadFd : Int) : Sh (Option (Int × Int)) :=
  if isLast then pure (some (stdoutFd, prevReadFd))
  else do
    let a ← sys .pipe
    let fds := a.into (zeros 16)
    pure (if a.ret < 0 then none else some (asI64 (field fds 8 8), asI64 (field fds 0 8)))

/-- `if fd != n { close(n); dup(fd) }`, for the standard descriptor `n` of a child. -/
def replaceStandard (n : Nat) (fd : Int) : Sh Unit := do
  if fd ≠ n then
    let _ ← sys (.close n)
    let _ ← sys (.dup fd.toNat)

/-- The descriptors of a child. -/
def redirectChild (curReadFd curWriteFd : Int) : Sh Unit := do
  replaceStandard 0 curReadFd
  replaceStandard 1 curWriteFd

/-- The `parent_close` entry of a spawned segment. -/
def parentCloseEntry (curReadFd curWriteFd stdoutFd stdinFd : Int) : Int :=
  if curReadFd > 2 ∧ curReadFd ≠ stdinFd then curReadFd
  else if curWriteFd > 2 ∧ curWriteFd ≠ stdoutFd then curWriteFd
  else -1

/-- The exit of the loop when `fork` fails with `ret`. -/
def forkFailed (ret curReadFd curWriteFd stdinFd : Int) : Sh Unit := do
  writeErrorErrno (bytes "fork") ret
  closeAboveTwo curWriteFd
  if curReadFd ≠ stdinFd then closeAboveTwo curReadFd

/-- One turn of the segment loop. `none` is a `return` out of it. -/
def spawnSegment (dispatch : List Bytes → Sh Unit) (line : Bytes) (stdoutFd stdinFd : Int)
    (seg : Segment) (isLast : Bool) (l : Launch) : Sh (Option Launch) :=
  if seg.length = 0 then pure (some l)
  else do
    match ← segmentPipe isLast stdoutFd l.prevReadFd with
    | none => do
      writeError (bytes "pipe failed")
      pure none
    | some (curWriteFd, prevReadFd) => do
      let pid ← sys .fork
      if pid.ret < 0 then do
        forkFailed pid.ret l.prevReadFd curWriteFd stdinFd
        pure none
      else if pid.ret = 0 then do
        redirectChild l.prevReadFd curWriteFd
        childMain dispatch (segToArgs line seg)
      else
        pure (some
          { prevReadFd := prevReadFd
            lastPid := pid.ret
            spawnedPids := l.spawnedPids ++ [pid.ret]
            parentClose :=
              l.parentClose ++ [parentCloseEntry l.prevReadFd curWriteFd stdoutFd stdinFd] })

/-- The segment loop. `is_last` is the last turn. -/
def launchAll (dispatch : List Bytes → Sh Unit) (line : Bytes) (stdoutFd stdinFd : Int) :
    List Segment → Launch → Sh (Option Launch)
  | [], l => pure (some l)
  | seg :: rest, l => do
    match ← spawnSegment dispatch line stdoutFd stdinFd seg rest.isEmpty l with
    | none => pure none
    | some l => launchAll dispatch line stdoutFd stdinFd rest l

/-- The wait for a child of the pipeline. -/
def waitFor (pid : Int) : Sh Unit := do
  if pid > 0 then
    let _ ← sys (.waitpid pid.toNat 0)

/-- What follows the segment loop: the closes, and the waits or the job entry. -/
def finishLaunch (background : Bool) (l : Launch) : Sh Unit := do
  l.parentClose.forM closeAboveTwo
  if background = false then l.spawnedPids.forM waitFor
  if background ∧ l.lastPid > 0 then jobLaunched l.lastPid

/-- The segment loop and what follows it. -/
def executeLoop (dispatch : List Bytes → Sh Unit) (line : Bytes) (p : Pipeline)
    (stdoutFd stdinFd : Int) : Sh Unit := do
  match ← launchAll dispatch line stdoutFd stdinFd p.segments ⟨stdinFd, 0, [], []⟩ with
  | none => pure ()
  | some l => finishLaunch p.background l

/-- `execute` behind the two redirections. -/
def executeOpened (dispatch : List Bytes → Sh Unit) (line : Bytes) (p : Pipeline)
    (stdoutFd stdinFd : Int) : Sh Unit :=
  match p.segments with
  -- No closes on this exit.
  | [[]] => pure ()
  | [a :: args] =>
    if isInprocessBuiltin (Span.of line a) then do
      dispatch (segToArgs line (a :: args))
      closeAboveTwo stdoutFd
      closeAboveTwo stdinFd
    else executeLoop dispatch line p stdoutFd stdinFd
  | _ => executeLoop dispatch line p stdoutFd stdinFd

/-- `execute` from the redirections on. Both files are opened before either is checked. -/
def executeRedirected (dispatch : List Bytes → Sh Unit) (line : Bytes) (p : Pipeline) :
    Sh Unit := do
  let stdoutFd ← openRedirect line p.stdoutFile OUT_FLAGS 1
  let stdinFd ← openRedirect line p.stdinFile O_RDONLY 0
  if stdoutFd < 0 then writeErrorErrno (bytes "open (redirect)") stdoutFd
  else if stdinFd < 0 then do
    writeErrorErrno (bytes "open (redirect)") stdinFd
    closeAboveTwo stdoutFd
  else executeOpened dispatch line p stdoutFd stdinFd

/-- `pipeline::execute`. The children that have ended are reaped first. One command without
redirections takes a way of its own. -/
def execute (turns : Nat) (dispatch : List Bytes → Sh Unit) (line : Bytes) (p : Pipeline) :
    Sh Unit := do
  jobReap turns
  match p.segments with
  | [seg] =>
    if p.stdoutFile.2 = 0 ∧ p.stdinFile.2 = 0 then executePlain dispatch line seg p.background
    else executeRedirected dispatch line p
  | _ => executeRedirected dispatch line p

end OnyxShell.Process
