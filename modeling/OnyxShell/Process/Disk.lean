import OnyxShell.Commands.Copy
import OnyxShell.Process.Kernel

/-!
# `OnyxShell.Process.Disk`: the calls of `cp` and `mv`

`OnyxShell.Commands.Copy` has the calls that copy a file as functions on `OpenFiles`. `disk` is the
monitor that answers in this way, with short transfers and failures where its `Kernel` has them. It
remembers the files and the descriptors, and what has been printed.

`getcwd` answers with one directory throughout. All that is forbidden is an `open` that is not for
reading: a target is opened by `create`, and what is shown of `cp` and `mv` says as well that
their sources are not opened in another way.
-/

set_option autoImplicit false

namespace OnyxShell

/-- The kernel reads a path up to its NUL. -/
def Kernel.reading {π : Type} (k : Kernel π) : Kernel π where
  place path := k.place (cString path)
  outcome := k.outcome

namespace Process

/-- What is remembered of a run. -/
structure Storage (π : Type) where
  store : OpenFiles π
  out : Bytes

namespace Storage

variable {π : Type} [DecidableEq π]

/-- More output. -/
def print (v : Storage π) (b : Bytes) : Storage π := { v with out := v.out ++ b }

/-- The answers that the kernel gives. A read stores what it has read at the front. -/
def Admits (k : Kernel π) (cwd : Bytes) (v : Storage π) : SysCall → Answer → Prop
  | .sysOpen path _, a => Results (fun fd : Nat => a.ret = (fd : Int)) a (v.store.sysOpen k path).1
  | .create path, a => Results (fun fd : Nat => a.ret = (fd : Int)) a (v.store.create k path).1
  | .read fd len, a =>
    Results (fun r : Nat × Bytes => a.ret = (r.1 : Int) ∧ a.out = r.2.take r.1) a
      (v.store.readFd k fd (zeros len)).1
  | .writeFd fd buf, a => a.ret = (v.store.writeFd k fd buf).1
  | .rename oldPath newPath, a => a.ret = (k.rename oldPath newPath v.store.disk).1
  | .unlink path, a => a.ret = (k.unlink path v.store.disk).1
  | .getcwd _, a => a.ret = (cwd.length : Int) ∧ a.out = cwd
  | _, _ => True

instance (k : Kernel π) (cwd : Bytes) (v : Storage π) (a : Answer) :
    ∀ c, Decidable (v.Admits k cwd c a)
  | .sysOpen path _ =>
    inferInstanceAs (Decidable (Results (fun fd : Nat => a.ret = (fd : Int)) a
      (v.store.sysOpen k path).1))
  | .create path =>
    inferInstanceAs (Decidable (Results (fun fd : Nat => a.ret = (fd : Int)) a
      (v.store.create k path).1))
  | .read fd len =>
    inferInstanceAs (Decidable (Results
      (fun r : Nat × Bytes => a.ret = (r.1 : Int) ∧ a.out = r.2.take r.1) a
      (v.store.readFd k fd (zeros len)).1))
  | .writeFd fd buf => inferInstanceAs (Decidable (a.ret = (v.store.writeFd k fd buf).1))
  | .rename oldPath newPath =>
    inferInstanceAs (Decidable (a.ret = (k.rename oldPath newPath v.store.disk).1))
  | .unlink path => inferInstanceAs (Decidable (a.ret = (k.unlink path v.store.disk).1))
  | .getcwd _ => inferInstanceAs (Decidable (a.ret = (cwd.length : Int) ∧ a.out = cwd))
  | .write _ _ | .exit _ | .yieldCpu | .close _ | .stat _ | .readdir _ _ | .mkdir _ | .chdir _ | .pipe
  | .dup _ | .fork | .kill _ _ | .execve _ _ _ | .spawn _ _ | .wait | .waitpid _ _ | .getuid
  | .getring | .uname | .clockGettime _ | .ioctl _ _ _ => isTrue trivial

/-- What is remembered behind a call. -/
def next (k : Kernel π) (v : Storage π) : SysCall → Answer → Storage π
  | .write 1 b, _ => v.print b
  | .sysOpen path _, _ => { v with store := (v.store.sysOpen k path).2 }
  | .create path, _ => { v with store := (v.store.create k path).2 }
  | .read fd len, _ => { v with store := (v.store.readFd k fd (zeros len)).2 }
  | .writeFd fd buf, _ => { v with store := (v.store.writeFd k fd buf).2 }
  | .rename oldPath newPath, _ =>
    { v with store := { v.store with disk := (k.rename oldPath newPath v.store.disk).2 } }
  | .unlink path, _ =>
    { v with store := { v.store with disk := (k.unlink path v.store.disk).2 } }
  | .close fd, _ => { v with store := v.store.close fd }
  | _, _ => v

end Storage

/-- The monitor. A file is opened for reading only. -/
def disk {π : Type} [DecidableEq π] (k : Kernel π) (cwd : Bytes) :
    Prog.Monitor SysCall Answer (Storage π) where
  allows _ c :=
    match c with
    | .sysOpen _ flags => flags = O_RDONLY
    | _ => True
  admits := Storage.Admits k cwd
  next v c a := v.next k c a

instance {π : Type} [DecidableEq π] (k : Kernel π) (cwd : Bytes) (v : Storage π) (c : SysCall)
    (a : Answer) : Decidable ((disk k cwd).admits v c a) :=
  inferInstanceAs (Decidable (v.Admits k cwd c a))

end Process

end OnyxShell
