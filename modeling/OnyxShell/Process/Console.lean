import Mathlib.Logic.Function.Basic
import OnyxShell.Process.Conduct

/-!
# `OnyxShell.Process.Console`: what a user sees

`Fs` is what the kernel has for commands that only look: the files with their contents, the
directories, the `stat` buffers and the working directory. `console` watches a process over it. It
remembers what has been printed, what is left to be read behind each descriptor, and how far each
directory has been read. The kernel is free to cut a file into chunks as it likes, and to number the
descriptors.

`readdir` goes through the names of a path one by one, and starts again behind the last.
-/

set_option autoImplicit false

namespace OnyxShell.Process

/-! ### `stat` records -/

/-- The low `len` bytes of a number, the lowest first. -/
def toLeBytes (n : Nat) : Nat → Bytes
  | 0 => []
  | len + 1 => UInt8.ofNat n :: toLeBytes (n / 256) len

/-- The fields of a `struct stat` that are looked at. -/
structure Stat where
  dev : UInt64
  ino : UInt64
  mode : UInt32
  nlink : UInt32
  uid : UInt32
  gid : UInt32
  rdev : UInt64
  size : Int64
  blksize : Int64
  blocks : Int64
  mtime : Int64

/-- Numbers of so many bytes each, one behind the other. -/
def layout (fields : List (Nat × Nat)) : Bytes := fields.flatMap fun (n, len) => toLeBytes n len

/-- The numbers of a `struct stat`, with zeros where nothing is looked at. -/
def Stat.fields (st : Stat) : List (Nat × Nat) :=
  [(st.dev.toNat, 8), (st.ino.toNat, 8), (st.mode.toNat, 4), (st.nlink.toNat, 4),
    (st.uid.toNat, 4), (st.gid.toNat, 4), (0, 8), (st.rdev.toNat, 8), (st.size.toUInt64.toNat, 8),
    (st.blksize.toUInt64.toNat, 8), (st.blocks.toUInt64.toNat, 8), (0, 16),
    (st.mtime.toUInt64.toNat, 8), (0, 32)]

/-- The `struct stat` with these fields. -/
def Stat.encode (st : Stat) : Bytes := layout st.fields

/-! ### The files -/

/-- What the kernel has. The error `e` of an `Except` is the result `-(e + 1)`. -/
structure Fs where
  file : Bytes → Except Nat Bytes
  names : Bytes → List Bytes
  stat : Bytes → Except Nat Stat
  cwd : Bytes
  cwd_abs : AbsolutePath cwd
  names_text : ∀ path, ∀ name ∈ names path, 0 ∉ name ∧ name.length < NAME_LEN - 1

/-- What is remembered of a process. -/
structure World where
  /-- What has been written to the terminal. -/
  out : Bytes
  /-- What is left to be read behind a descriptor. -/
  left : Nat → Option Bytes
  /-- How many names of a directory have been read. -/
  seen : Bytes → Nat

namespace World

/-- More output. -/
def print (w : World) (b : Bytes) : World := { w with out := w.out ++ b }

/-- Another rest behind a descriptor. -/
def setLeft (w : World) (fd : Nat) (rest : Option Bytes) : World :=
  { w with left := Function.update w.left fd rest }

/-- Another place in a directory. -/
def setSeen (w : World) (path : Bytes) (n : Nat) : World :=
  { w with seen := Function.update w.seen path n }

end World

/-! ### Answers -/

/-- The error that there is, or an answer for the value. -/
def Gives {β : Type} (P : β → Prop) (a : Answer) : Except Nat β → Prop
  | .error e => a.ret = Int.negSucc e
  | .ok b => 0 ≤ a.ret ∧ P b

instance {β : Type} (P : β → Prop) [DecidablePred P] (a : Answer) : DecidablePred (Gives P a)
  | .error e => inferInstanceAs (Decidable (a.ret = Int.negSucc e))
  | .ok b => inferInstanceAs (Decidable (0 ≤ a.ret ∧ P b))

/-- The answer to a `read` of `len` bytes: a piece of what is left, and nothing only at the end.
How large the piece is is the kernel's choice each time. -/
def Chunk (len : Nat) (a : Answer) : Option Bytes → Prop
  | none => True
  | some rest => 0 ≤ a.ret ∧ a.ret.toNat ≤ len ∧ a.ret.toNat ≤ rest.length ∧
      a.out = rest.take a.ret.toNat ∧ (a.ret = 0 → rest = [])

instance (len : Nat) (a : Answer) : DecidablePred (Chunk len a)
  | none => isTrue trivial
  | some rest => inferInstanceAs (Decidable (0 ≤ a.ret ∧ a.ret.toNat ≤ len ∧
      a.ret.toNat ≤ rest.length ∧ a.out = rest.take a.ret.toNat ∧ (a.ret = 0 → rest = [])))

/-- The answer to a `readdir`: the next name with its NUL, and 0 behind the last. The listing goes
on from where the last call on the same path has left it. -/
def Entry (a : Answer) : Option Bytes → Prop
  | none => a.ret = 0
  | some name => 0 < a.ret ∧ a.out = name ++ [0]

instance (a : Answer) : DecidablePred (Entry a)
  | none => inferInstanceAs (Decidable (a.ret = 0))
  | some name => inferInstanceAs (Decidable (0 < a.ret ∧ a.out = name ++ [0]))

namespace World

/-- The answers that the kernel may give. -/
def Admits (fs : Fs) (w : World) : SysCall → Answer → Prop
  | .sysOpen path _, a => Gives (fun _ => w.left a.ret.toNat = none) a (fs.file path)
  | .read fd len, a => Chunk len a (w.left fd)
  | .readdir path _, a => Entry a (fs.names path)[w.seen path]?
  | .stat path, a => Gives (fun st => a.out = st.encode) a (fs.stat path)
  | .getcwd _, a => a.ret = (fs.cwd.length : Int) ∧ a.out = fs.cwd
  | _, _ => True

instance (fs : Fs) (w : World) (a : Answer) : ∀ c, Decidable (w.Admits fs c a)
  | .sysOpen path _ =>
    inferInstanceAs (Decidable (Gives (fun _ => w.left a.ret.toNat = none) a (fs.file path)))
  | .read fd len => inferInstanceAs (Decidable (Chunk len a (w.left fd)))
  | .readdir path _ => inferInstanceAs (Decidable (Entry a (fs.names path)[w.seen path]?))
  | .stat path => inferInstanceAs (Decidable (Gives (fun st => a.out = st.encode) a (fs.stat path)))
  | .getcwd _ => inferInstanceAs (Decidable (a.ret = (fs.cwd.length : Int) ∧ a.out = fs.cwd))
  | .write _ _ | .exit _ | .yieldCpu | .close _ | .writeFd _ _ | .create _ | .mkdir _ | .unlink _
  | .rename _ _ | .chdir _ | .pipe | .dup _ | .fork | .kill _ _ | .execve _ _ _ | .spawn _ _ | .wait
  | .waitpid _ _ | .getuid | .getring | .uname | .clockGettime _ | .ioctl _ _ _ => isTrue trivial

/-- What is remembered behind a call. -/
def next (fs : Fs) (w : World) : SysCall → Answer → World
  | .write 1 b, _ => w.print b
  | .sysOpen path _, a =>
    match fs.file path with
    | .error _ => w
    | .ok content => w.setLeft a.ret.toNat (some content)
  | .read fd _, a => w.setLeft fd ((w.left fd).map fun rest => rest.drop a.ret.toNat)
  | .close fd, _ => w.setLeft fd none
  | .readdir path _, a => w.setSeen path (if 0 < a.ret then w.seen path + 1 else 0)
  | _, _ => w

end World

/-- The monitor over the files. -/
def console (fs : Fs) : Prog.Monitor SysCall Answer World where
  allows _ _ := True
  admits := World.Admits fs
  next := World.next fs

instance (fs : Fs) (w : World) (c : SysCall) (a : Answer) : Decidable ((console fs).admits w c a) :=
  inferInstanceAs (Decidable (w.Admits fs c a))

end OnyxShell.Process
