import OnyxShell.Process.Conduct

/-!
# `OnyxShell.Process.Kernel`: the calls of the pipeline executor

`OnyxShell.Syscalls` has the calls of the executor as functions on a `Shell`. `kernel` is the monitor
that answers in this way and remembers a run of the process as such a `Shell`. Behind a `fork` that
has answered 0 the run is one of the child, and what is remembered are the child's descriptors.

`follows` chooses whose run is looked at. With `false` a `fork` answers with the process id of the
child only, so that the run stays in the shell. With `true` it may answer 0 as well, and the run
goes on in the child.
-/

set_option autoImplicit false

namespace OnyxShell

/-- A shell as the kernel knows it: without its memory and its output. -/
def Shell.outside {σ : Type} (s : Shell σ) : Shell Unit :=
  ⟨s.fds, Jobs.init, (), s.calls, s.pipes, s.lastPid, s.ended, [], s.waited, [], []⟩

namespace Process

/-- The answer of a call with this result. -/
def Results {β : Type} (P : β → Prop) (a : Answer) : Except Int β → Prop
  | .error e => a.ret = e
  | .ok b => P b

instance {β : Type} (P : β → Prop) [DecidablePred P] (a : Answer) : DecidablePred (Results P a)
  | .error e => inferInstanceAs (Decidable (a.ret = e))
  | .ok b => inferInstanceAs (Decidable (P b))

/-- The answer to a `waitpid` for any child, without waiting. -/
def Reaps (a : Answer) : List Nat → Prop
  | [] => a.ret ≤ 0
  | pid :: _ => a.ret = pid ∧ 0 < a.ret

instance (a : Answer) : DecidablePred (Reaps a)
  | [] => inferInstanceAs (Decidable (a.ret ≤ 0))
  | pid :: _ => inferInstanceAs (Decidable (a.ret = pid ∧ 0 < a.ret))

/-- What is remembered of a run. -/
structure View where
  shell : Shell Unit
  /-- The pid and the descriptors of the child that the run goes on in. -/
  child : Option (Nat × FdTable Description)

namespace View

/-- The answers in the shell process. `follows` is whether a run may go on in a child. -/
def Admits (answers : Answers) (follows : Bool) (s : Shell Unit) : SysCall → Answer → Prop
  | .sysOpen path flags, a =>
    Results (fun fd : Nat => a.ret = (fd : Int)) a (s.sysOpen answers path flags).1
  | .pipe, a =>
    Results (fun ends => 0 ≤ a.ret ∧ pipeEnds a = ends ∧ ends.1 < FD_LIMIT ∧ ends.2 < FD_LIMIT) a
      (s.pipe answers).1
  | .fork, a =>
    Results (fun pid : Nat => a.ret = (pid : Int) ∨ follows = true ∧ a.ret = 0) a
      (s.fork answers).1
  | .waitpid pid options, a => pid = ANY_CHILD ∧ options = WNOHANG → Reaps a s.ended
  | .getcwd len, a => a.ret ≤ (len : Int)
  | _, _ => True

instance (answers : Answers) (follows : Bool) (s : Shell Unit) (a : Answer) :
    ∀ c, Decidable (Admits answers follows s c a)
  | .sysOpen path flags =>
    inferInstanceAs (Decidable (Results (fun fd : Nat => a.ret = (fd : Int)) a
      (s.sysOpen answers path flags).1))
  | .pipe =>
    inferInstanceAs (Decidable (Results (fun ends => 0 ≤ a.ret ∧ pipeEnds a = ends ∧
      ends.1 < FD_LIMIT ∧ ends.2 < FD_LIMIT) a (s.pipe answers).1))
  | .fork =>
    inferInstanceAs (Decidable (Results
      (fun pid : Nat => a.ret = (pid : Int) ∨ follows = true ∧ a.ret = 0) a (s.fork answers).1))
  | .waitpid pid options =>
    inferInstanceAs (Decidable (pid = ANY_CHILD ∧ options = WNOHANG → Reaps a s.ended))
  | .getcwd len => inferInstanceAs (Decidable (a.ret ≤ (len : Int)))
  | .write _ _ | .read _ _ | .exit _ | .yieldCpu | .close _ | .writeFd _ _ | .stat _ | .readdir _ _
  | .create _ | .mkdir _ | .unlink _ | .rename _ _ | .chdir _ | .dup _ | .kill _ _ | .execve _ _ _
  | .spawn _ _ | .wait | .getuid | .getring | .uname | .clockGettime _ | .ioctl _ _ _ => isTrue trivial

/-- A call of the shell process. -/
def next (answers : Answers) (s : Shell Unit) : SysCall → Answer → View
  | .sysOpen path flags, _ => ⟨(s.sysOpen answers path flags).2, none⟩
  | .pipe, _ => ⟨(s.pipe answers).2, none⟩
  | .fork, a =>
    -- The child has the descriptors of the shell.
    ⟨(s.fork answers).2, if a.ret = 0 then some (s.lastPid + 1, s.fds) else none⟩
  | .close fd, _ => ⟨s.close fd, none⟩
  | .dup fd, _ => ⟨{ s with fds := s.fds.dup fd }, none⟩
  | .waitpid pid options, _ =>
    if pid = ANY_CHILD ∧ options = WNOHANG then ⟨{ s with ended := s.ended.tail }, none⟩
    else ⟨s.waitpid pid, none⟩
  | _, _ => ⟨s, none⟩

/-- A call of a child. -/
def childNext (fds : FdTable Description) : SysCall → FdTable Description
  | .close fd => fds.close fd
  | .dup fd => fds.dup fd
  | _ => fds

end View

/-- The monitor. A child that calls `spawn` has to be one of `started`, with its descriptors and its
arguments; this is for `announce`. Only a child that is followed may be gone. -/
def kernel (answers : Answers) (follows : Bool) (started : Child → Prop) :
    Prog.Monitor SysCall Answer View where
  allows v c :=
    match v.child, c with
    | some (pid, fds), .spawn _ args => started ⟨pid, fds, args⟩
    | _, _ => True
  admits v c a :=
    match v.child with
    | none => View.Admits answers follows v.shell c a
    | some _ => True
  next v c a :=
    match v.child with
    | none => View.next answers v.shell c a
    | some (pid, fds) => ⟨v.shell, some (pid, View.childNext fds c)⟩
  gone v := follows = true ∧ v.child.isSome = true

/-- A `dispatch` that tells its arguments, and does nothing. -/
def announce (args : List Bytes) : Sh Unit := do
  let _ ← sys (.spawn [] args)

instance (answers : Answers) (follows : Bool) (started : Child → Prop) :
    ∀ v c a, Decidable ((kernel answers follows started).admits v c a)
  | ⟨s, none⟩, c, a => inferInstanceAs (Decidable (View.Admits answers follows s c a))
  | ⟨_, some _⟩, _, _ => isTrue trivial

end Process

end OnyxShell
