import Mathlib.Data.Finset.Insert
import OnyxShell.Family
import OnyxShell.FileSystem
import OnyxShell.Process.Main

/-!
# `OnyxShell.Process.Conduct`: what the kernel promises, and how a process behaves

A process is watched from outside: `Proc` is what can be known of it from its calls and their
answers. `Proc.Admits` is what the shell relies on. `open`, `create`, `dup` and `pipe` give out the
lowest free descriptors, and `dup` of an open one succeeds. A `read` and a `getcwd` do not claim
more bytes than there is room for. A pid fits an `i32`.

`Proc.Proper` is what the process does in return, and `conduct` the monitor with both. A policy
restricts the calls further.
-/

set_option autoImplicit false

namespace OnyxShell.Process

/-- What is known of a process. -/
structure Proc where
  /-- The open descriptors. -/
  fds : Finset Nat
  /-- How often a `fork` has been answered 0: 0 is the process that the kernel has started. -/
  generation : Nat
  /-- The pids that a `fork` or a `spawn` of this process has been answered. -/
  children : Finset Nat

/-- The lowest number that is not in use. -/
def LowestFree (fds : Finset Nat) (n : Nat) : Prop := n ∉ fds ∧ ∀ m < n, m ∈ fds

instance (fds : Finset Nat) (n : Nat) : Decidable (LowestFree fds n) :=
  inferInstanceAs (Decidable (n ∉ fds ∧ ∀ m < n, m ∈ fds))

/-- The read end and the write end that a `pipe` stores. -/
def pipeEnds (a : Answer) : Nat × Nat :=
  let fds := a.into (zeros 16)
  (field fds 0 8, field fds 8 8)

/-- Descriptors are small numbers. -/
def FD_LIMIT : Nat := 2 ^ 31

/-- A path that may be passed where a file is made, changed or entered, as the kernel reads it: the
text of a directory with names on the way, which fits its buffer. -/
def CleanPath (path : Bytes) : Prop :=
  ∃ abs dir, (∀ c ∈ dir, LexicalPath.IsName '/'.toUInt8 '.'.toUInt8 c) ∧
    LexicalPath.Renders '/'.toUInt8 abs dir ∧ abs.length < PATH_MAX ∧ path = cString abs

/-- A path from the root. -/
def AbsolutePath (path : Bytes) : Prop := path.head? = some '/'.toUInt8 ∧ path.length < PATH_MAX

/-- The descriptor that a call uses. -/
def SysCall.descriptor : SysCall → Option Nat
  | .close fd => some fd
  | .read fd _ => some fd
  | .writeFd fd _ => some fd
  | .dup fd => some fd
  | _ => none

/-- The paths at which a call makes, removes or moves something, or that it enters. -/
def SysCall.changed : SysCall → List Bytes
  | .create path => [path]
  | .mkdir path => [path]
  | .unlink path => [path]
  | .rename oldPath newPath => [oldPath, newPath]
  | .chdir path => [path]
  | _ => []

namespace Proc

/-- A process at its start: three descriptors. -/
def init : Proc := ⟨{0, 1, 2}, 0, ∅⟩

/-- One more descriptor, if the call has succeeded. -/
def opened (s : Proc) (ret : Int) : Proc :=
  if 0 ≤ ret then { s with fds := insert ret.toNat s.fds } else s

/-- One more child, if there is one. -/
def parentOf (s : Proc) (pid : Int) : Proc :=
  if 0 < pid then { s with children := insert pid.toNat s.children } else s

/-- What a call and its answer change. -/
def next (s : Proc) : SysCall → Answer → Proc
  | .sysOpen _ _, a => s.opened a.ret
  | .create _, a => s.opened a.ret
  | .dup _, a => s.opened a.ret
  | .pipe, a =>
    if 0 ≤ a.ret then { s with fds := insert (pipeEnds a).2 (insert (pipeEnds a).1 s.fds) } else s
  | .close fd, _ => { s with fds := s.fds.erase fd }
  | .fork, a => if a.ret = 0 then ⟨s.fds, s.generation + 1, ∅⟩ else s.parentOf a.ret
  | .spawn _ _, a => s.parentOf a.ret
  | _, _ => s

/-- The answers that the kernel may give. -/
def Admits (s : Proc) : SysCall → Answer → Prop
  | .sysOpen _ _, a => 0 ≤ a.ret → LowestFree s.fds a.ret.toNat
  | .create _, a => 0 ≤ a.ret → LowestFree s.fds a.ret.toNat
  | .dup fd, a => fd ∈ s.fds → 0 ≤ a.ret ∧ LowestFree s.fds a.ret.toNat
  | .pipe, a => 0 ≤ a.ret →
    LowestFree s.fds (pipeEnds a).1 ∧ LowestFree (insert (pipeEnds a).1 s.fds) (pipeEnds a).2 ∧
      (pipeEnds a).1 < FD_LIMIT ∧ (pipeEnds a).2 < FD_LIMIT
  | .read _ len, a => a.ret ≤ len
  | .getcwd len, a => a.ret ≤ len
  | .fork, a => a.ret < (Family.PID_BOUND : Int)
  | _, _ => True

instance (s : Proc) (a : Answer) : ∀ c, Decidable (s.Admits c a)
  | .sysOpen _ _ => inferInstanceAs (Decidable (0 ≤ a.ret → LowestFree s.fds a.ret.toNat))
  | .create _ => inferInstanceAs (Decidable (0 ≤ a.ret → LowestFree s.fds a.ret.toNat))
  | .dup fd => inferInstanceAs (Decidable (fd ∈ s.fds → 0 ≤ a.ret ∧ LowestFree s.fds a.ret.toNat))
  | .pipe => inferInstanceAs (Decidable (0 ≤ a.ret →
      LowestFree s.fds (pipeEnds a).1 ∧ LowestFree (insert (pipeEnds a).1 s.fds) (pipeEnds a).2 ∧
        (pipeEnds a).1 < FD_LIMIT ∧ (pipeEnds a).2 < FD_LIMIT))
  | .read _ len => inferInstanceAs (Decidable (a.ret ≤ (len : Int)))
  | .getcwd len => inferInstanceAs (Decidable (a.ret ≤ (len : Int)))
  | .fork => inferInstanceAs (Decidable (a.ret < (Family.PID_BOUND : Int)))
  | .write _ _ | .exit _ | .yieldCpu | .close _ | .writeFd _ _ | .stat _ | .readdir _ _ | .mkdir _
  | .unlink _ | .rename _ _ | .chdir _ | .kill _ _ | .execve _ _ _ | .spawn _ _ | .wait
  | .waitpid _ _ | .getuid | .getring | .uname | .clockGettime _ | .ioctl _ _ _ => isTrue trivial

/-- What a process does only if it may. The shell uses descriptors that are open, keeps those of
the terminal, passes on paths in their normal form, waits for children of its own and exits with
0. -/
def Proper (s : Proc) : SysCall → Prop
  -- A descriptor is used while it is open, and the standard ones of the shell stay open.
  | .close fd => fd ∈ s.fds ∧ (s.generation = 0 → 2 < fd)
  | .read fd _ => fd ∈ s.fds ∧ (fd = 0 → s.generation = 0)
  | .writeFd fd _ => fd ∈ s.fds
  | .dup fd => fd ∈ s.fds
  | .create path => CleanPath path
  | .mkdir path => CleanPath path
  | .unlink path => CleanPath path
  | .rename oldPath newPath => CleanPath oldPath ∧ CleanPath newPath
  | .chdir path => CleanPath path
  | .stat path => AbsolutePath path
  -- The panic handler exits with 101.
  | .exit code => code = 0
  | .kill _ _ => False
  | .waitpid pid options => options = WNOHANG ∨ (s.generation = 0 → pid ∈ s.children)
  | _ => True

end Proc

/-- A further restriction of the calls. A command that only looks is held to a stricter one than
the shell as a whole. -/
abbrev Policy : Type := SysCall → Prop

/-- No restriction. -/
def Policy.all : Policy := fun _ => True

/-- The monitor for the calls that are proper and that the policy has nothing against. -/
def conduct (policy : Policy) : Prog.Monitor SysCall Answer Proc where
  allows s c := s.Proper c ∧ policy c
  admits := Proc.Admits
  next := Proc.next

instance (policy : Policy) (s : Proc) (c : SysCall) (a : Answer) :
    Decidable ((conduct policy).admits s c a) :=
  inferInstanceAs (Decidable (s.Admits c a))

/-- The shell process and its children: every run of them, with answers that the kernel may give,
and the call that is made behind it. -/
structure Makes (turns : Nat) (arg : ScriptArg) (events : List (Prog.Event SysCall Answer))
    (c : SysCall) : Prop where
  made : ∃ k, Prog.Trace (shell turns arg) events (.call c k)
  answered : (conduct Policy.all).Answered Proc.init events

/-- What is known of the process behind the events. -/
def Proc.behind (events : List (Prog.Event SysCall Answer)) : Proc :=
  (conduct Policy.all).after Proc.init events

end OnyxShell.Process
