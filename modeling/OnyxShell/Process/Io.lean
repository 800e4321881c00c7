import OnyxShell.Eval
import OnyxShell.Features.JobTable
import OnyxShell.Lib.Prog
import OnyxShell.Numbers

/-!
# `OnyxShell.Process.Io`: the shell as a program over system calls

A process of the shell reads and writes its globals and makes the calls of `src/syscalls`. The
modules under `Process` write each function of the source as such a program (`Sh`): the calls in
their order, with the arguments as the kernel reads them, and what is done with each answer.

An answer is what stands in `a0`, and what the kernel has stored behind the pointer that the call
passes. It is the kernel's, and a program goes on with any. `fork` is answered twice, once in each
process, so a run of a child is a run in which a `fork` has answered 0.

A slice that is out of its buffer is a `panic`.
-/

set_option autoImplicit false

namespace OnyxShell.Process

/-- The system calls. -/
inductive SysCall
  | write (fd : Nat) (buf : Bytes)
  | read (fd len : Nat)
  | exit (code : Nat)
  | yieldCpu
  | sysOpen (path : Bytes) (flags : Nat)
  | close (fd : Nat)
  | writeFd (fd : Nat) (buf : Bytes)
  | stat (path : Bytes)
  | readdir (path : Bytes) (len : Nat)
  | create (path : Bytes)
  | mkdir (path : Bytes)
  | unlink (path : Bytes)
  | rename (oldPath newPath : Bytes)
  | chdir (path : Bytes)
  | getcwd (len : Nat)
  | pipe
  | dup (fd : Nat)
  | fork
  | kill (pid : Int) (sig : Nat)
  | execve (path : Bytes) (argv envp : List Bytes)
  | spawn (path : Bytes) (argv : List Bytes)
  | wait
  /-- `pid` is the `u64` that is passed. -/
  | waitpid (pid options : Nat)
  | getuid
  | getring
  | uname
  | clockGettime (clk : Nat)
  | ioctl (fd request arg : Nat)
deriving DecidableEq, Repr

/-- What a call comes back with. -/
structure Answer where
  ret : Int
  /-- What is stored behind the pointer. -/
  out : Bytes
deriving DecidableEq, Repr

namespace Answer

/-- The buffer behind the call. -/
def into (a : Answer) (buf : Bytes) : Bytes := a.out.take buf.length ++ buf.drop a.out.length

/-- What the kernel stores in a buffer does not change its length. -/
@[simp] theorem length_into (a : Answer) (buf : Bytes) : (a.into buf).length = buf.length := by
  rw [into, List.length_append, List.length_take, List.length_drop]
  omega

end Answer

/-- A buffer of zeros. -/
def zeros (n : Nat) : Bytes := List.replicate n 0

/-- `from_le_bytes`. -/
def fromLeBytes (b : Bytes) : Nat := b.foldr (fun b n => b.toNat + 256 * n) 0

/-- The number in the `len` bytes at `off`. -/
def field (buf : Bytes) (off len : Nat) : Nat := fromLeBytes ((buf.drop off).take len)

/-- The `static mut`s that outlive a command: the environment, the history, the jobs, and
`SCRIPT_DEPTH`. -/
structure Globals where
  env : Env
  history : History
  jobs : Jobs
  scriptDepth : Nat

/-- The globals at the start of the program. -/
def Globals.init : Globals := ⟨Env.empty, History.init, Jobs.init, 0⟩

/-- A function of the shell. -/
abbrev Sh (α : Type) : Type := Routine Globals SysCall Answer α

/-- A system call. -/
def sys (c : SysCall) : Sh Answer := Routine.call c

/-- `syscalls::exit`. Behind the call is `loop { wfi }`. -/
def exit {α : Type} (code : Nat) : Sh α := do
  let _ ← sys (.exit code)
  Routine.halt

/-! ### `src/io.rs` -/

/-- `io::write_raw`. -/
def writeRaw (b : Bytes) : Sh Unit := do
  let _ ← sys (.write 1 b)

/-- `io::write_str`, for any text. `bytes` is for ASCII. -/
def writeStr (s : String) : Sh Unit := writeRaw s.toUTF8.toList

/-- `io::write_byte`. -/
def writeByte (b : UInt8) : Sh Unit := writeRaw [b]

/-- `io::newline`. -/
def newline : Sh Unit := writeRaw (bytes "\n")

/-- `io::write_line`. -/
def writeLine (s : String) : Sh Unit := do
  writeStr s
  newline

/-- `io::write_error`. -/
def writeError (msg : Bytes) : Sh Unit := do
  writeRaw (bytes "osh: ")
  writeRaw msg
  newline

/-- `syscalls::errno_str`. -/
def errnoStr (ret : Int) : Bytes :=
  match ret with
  | -1 => bytes "Out of memory"
  | -2 => bytes "Invalid argument"
  | -3 => bytes "No such file or directory"
  | -4 => bytes "I/O error"
  | -5 => bytes "Permission denied"
  | -6 => bytes "Out of range"
  | -7 => bytes "Function not implemented"
  | -8 => bytes "Device or resource busy"
  | -9 => bytes "No space left on device"
  | -10 => bytes "Not a directory"
  | -11 => bytes "Is a directory"
  | -12 => bytes "Bad file descriptor"
  | -13 => bytes "File exists"
  | -14 => bytes "Broken pipe"
  | -15 => bytes "Value too large"
  | _ => bytes "Unknown error"

/-- `io::write_error_errno`. -/
def writeErrorErrno (msg : Bytes) (ret : Int) : Sh Unit := do
  writeRaw (bytes "osh: ")
  writeRaw msg
  writeRaw (bytes ": ")
  writeRaw (errnoStr ret)
  newline

/-- `syscalls::TIOCSRAW`. -/
def TIOCSRAW : Nat := 0x5421

/-- `syscalls::TIOCRRAW`. -/
def TIOCRRAW : Nat := 0x5422

/-- `syscalls::enable_raw_mode`. -/
def enableRawMode : Sh Int := do
  let a ← sys (.ioctl 0 TIOCSRAW 0)
  pure a.ret

/-- `syscalls::disable_raw_mode`. -/
def disableRawMode : Sh Int := do
  let a ← sys (.ioctl 0 TIOCRRAW 0)
  pure a.ret

/-- The panic handler of `src/main.rs`. -/
def panic {α : Type} : Sh α := do
  let _ ← disableRawMode
  writeStr "osh: internal panic — halting\n"
  exit 101

/-- `&buf[..n]`. -/
def slice (buf : Bytes) (n : Nat) : Sh Bytes := if n ≤ buf.length then pure (buf.take n) else panic

/-- Digits, as the loops of `src/io.rs` find them. -/
def writeFound : Option Bytes → Sh Unit
  | some digits => writeRaw digits
  | none => panic

/-- `io::write_u64`. -/
def writeU64 (n : UInt64) : Sh Unit := writeFound (OnyxShell.writeU64 n)

/-- `io::write_i64`. -/
def writeI64 (n : Int64) : Sh Unit :=
  if n < 0 then do
    writeByte '-'.toUInt8
    writeU64 (unsignedAbs n)
  else writeU64 n.toUInt64

/-- `io::write_hex`. -/
def writeHex (n : UInt64) : Sh Unit := do
  writeRaw (bytes "0x")
  writeFound (writeDigits hexLoop 16 n)

/-- `io::write_u64_field`: one `write_byte` for each space. -/
def writeU64Field (n : UInt64) (width : Nat) : Sh Unit :=
  match writeDigits decimalLoop 20 n with
  | some digits => do
    (List.replicate (width - digits.length) ' '.toUInt8).forM writeByte
    writeRaw digits
  | none => panic

/-- `io::read_line`, with what it leaves in the buffer. -/
def readLine (buf : Bytes) : Sh (Nat × Bytes) := do
  let a ← sys (.read 0 buf.length)
  pure (if a.ret ≤ 0 then 0 else a.ret.toNat, a.into buf)

end OnyxShell.Process
