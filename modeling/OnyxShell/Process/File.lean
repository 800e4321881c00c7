import OnyxShell.Commands.File
import OnyxShell.Process.Io

/-!
# `OnyxShell.Process.File`: the commands for files

`src/commands/file/edit.rs` and `src/commands/file/copy.rs`, with `path::resolve` as they call it.
A loop that the kernel can keep going is given a number of turns.

`rm`, `mkdir`, `touch` and `cat` go through their operands in one way (`forOperands`) and differ in
what they do with each.
-/

set_option autoImplicit false

namespace OnyxShell.Process

/-- `path::resolve`. `cwd[0]` is looked at before the slice is taken. -/
def resolve (input : Bytes) : Sh (Option Bytes) :=
  if input.length = 0 then pure none
  else if input.head? = some '/'.toUInt8 then pure (normalize input)
  else do
    let a ← sys (.getcwd PATH_MAX)
    let cwd := a.into (zeros PATH_MAX)
    if a.ret ≤ 0 ∨ cwd.head? ≠ some '/'.toUInt8 then pure (copyAbs (bytes "/"))
    else do
      let cwd ← slice cwd a.ret.toNat
      pure (OnyxShell.resolve (some cwd) input)

/-- The frame of the commands that do something to each of their operands. -/
def forOperands (name missing : Bytes) (act : Bytes → Bytes → Sh Unit) (args : List Bytes) :
    Sh Unit :=
  if args = [] then writeError missing
  else
    args.forM fun a => do
      match ← resolve a with
      | none => writeError (name ++ bytes ": path too long")
      | some abs => act a abs

/-- The size of a read buffer. -/
def BUF_LEN : Nat := 512

/-- The read loop of `cmd_cat`. -/
def catLoop (turns fd : Nat) : Sh Unit :=
  Routine.loop (fun buf => do
    let a ← sys (.read fd BUF_LEN)
    if a.ret ≤ 0 then pure (.ret ())
    else do
      writeRaw (← slice (a.into buf) a.ret.toNat)
      pure (.next (a.into buf))) turns (zeros BUF_LEN)

/-- `edit::cmd_cat`. -/
def cmdCat (turns : Nat) : List Bytes → Sh Unit :=
  forOperands (bytes "cat") (bytes "cat: missing file operand (try 'help')") fun _ abs => do
    let a ← sys (.sysOpen (cString abs) O_RDONLY)
    if a.ret < 0 then writeErrorErrno (bytes "cat") a.ret
    else do
      catLoop turns a.ret.toNat
      let _ ← sys (.close a.ret.toNat)

/-- `edit::cmd_rm`. -/
def cmdRm : List Bytes → Sh Unit :=
  forOperands (bytes "rm") (bytes "rm: missing operand (try 'help')") fun _ abs => do
    let a ← sys (.unlink (cString abs))
    if a.ret < 0 then writeErrorErrno (bytes "rm") a.ret

/-- `edit::cmd_mkdir`. -/
def cmdMkdir : List Bytes → Sh Unit :=
  forOperands (bytes "mkdir") (bytes "mkdir: missing operand (try 'help')") fun arg abs => do
    let a ← sys (.mkdir (cString abs))
    if a.ret < 0 then
      if a.ret = EEXIST then do
        writeRaw (bytes "osh: mkdir: ")
        writeRaw arg
        writeRaw (bytes ": directory exists\n")
      else writeErrorErrno (bytes "mkdir") a.ret

/-- `edit::cmd_touch`. -/
def cmdTouch : List Bytes → Sh Unit :=
  forOperands (bytes "touch") (bytes "touch: missing operand (try 'help')") fun _ abs => do
    let a ← sys (.create (cString abs))
    if a.ret ≥ 0 then do
      let _ ← sys (.close a.ret.toNat)
    else if a.ret ≠ EEXIST then writeErrorErrno (bytes "touch") a.ret

/-! ### `stat` -/

/-- The length of a `stat` buffer. -/
def STAT_LEN : Nat := 256

/-- `u64::from_le_bytes` of the eight bytes at `off`. -/
def u64At (st : Bytes) (off : Nat) : UInt64 := UInt64.ofNat (field st off 8)

/-- `i64::from_le_bytes` of the eight bytes at `off`. -/
def i64At (st : Bytes) (off : Nat) : Int64 := (u64At st off).toInt64

/-- `u32::from_le_bytes` of the four bytes at `off`, as a `u64`. -/
def u32At (st : Bytes) (off : Nat) : UInt64 := UInt64.ofNat (field st off 4)

/-- `type_str` for `st_mode & 0o170_000`. -/
def typeStr (ifmt : UInt64) : Bytes :=
  if ifmt = 0o040000 then bytes "directory"
  else if ifmt = 0o100000 then bytes "regular file"
  else if ifmt = 0o120000 then bytes "character device"
  else bytes "unknown"

/-- What `cmd_stat` prints for the `stat` buffer of a path. -/
def writeStat (abs st : Bytes) : Sh Unit := do
  writeRaw (bytes "  File: ")
  writeRaw abs
  newline
  writeRaw (bytes "  Size: ")
  writeI64 (i64At st 48)
  writeRaw (bytes "       Type: ")
  writeRaw (typeStr (u32At st 16 &&& 0o170000))
  newline
  writeRaw (bytes "  Inode: ")
  writeU64 (u64At st 8)
  writeRaw (bytes "       Links: ")
  writeU64 (u32At st 20)
  newline
  writeRaw (bytes "  Device: ")
  writeHex (u64At st 0)
  writeRaw (bytes "   Rdev: ")
  writeHex (u64At st 40)
  newline
  writeRaw (bytes "  Mode: ")
  writeHex (u32At st 16)
  writeRaw (bytes "   Uid: ")
  writeU64 (u32At st 24)
  writeRaw (bytes "   Gid: ")
  writeU64 (u32At st 28)
  newline
  writeRaw (bytes "  Blksize: ")
  writeI64 (i64At st 56)
  writeRaw (bytes "   Blocks: ")
  writeI64 (i64At st 64)
  newline
  writeRaw (bytes "  Mtime: ")
  writeU64 (u64At st 88)
  writeRaw (bytes " (epoch seconds)")
  newline

/-- `edit::cmd_stat`: the first operand only. -/
def cmdStat : List Bytes → Sh Unit
  | [] => writeError (bytes "stat: missing operand (try 'help')")
  | arg :: _ => do
    match ← resolve arg with
    | none => writeError (bytes "stat: path too long")
    | some abs => do
      let a ← sys (.stat (cString abs))
      if a.ret < 0 then writeErrorErrno (bytes "stat") a.ret
      else writeStat abs (a.into (zeros STAT_LEN))

/-! ### `cp` and `mv` -/

/-- The inner loop of `copy_loop`: writes `buf[written..n]`. -/
def writeLoop (turns dst : Nat) (buf : Bytes) (n : Nat) : Sh Bool :=
  Routine.loop (fun written =>
    if written < n then
      if written > buf.length then panic
      else do
        let w ← sys (.writeFd dst ((buf.drop written).take (n - written)))
        if w.ret ≤ 0 then do
          writeError (bytes "cp: write error")
          pure (.ret false)
        else pure (.next (written + w.ret.toNat))
    else pure (.ret true)) turns 0

/-- `copy::copy_loop`. -/
def copyLoop (turns src dst : Nat) : Sh Bool :=
  Routine.loop (fun buf => do
    let a ← sys (.read src BUF_LEN)
    if a.ret < 0 then do
      writeError (bytes "cp: read error")
      pure (.ret false)
    else if a.ret = 0 then pure (.ret true)
    else do
      let ok ← writeLoop turns dst (a.into buf) a.ret.toNat
      pure (if ok then .next (a.into buf) else .ret false)) turns (zeros BUF_LEN)

/-- `cmd_cp` for resolved paths. -/
def copyFile (turns : Nat) (srcAbs dstAbs : Bytes) : Sh Bool := do
  let src ← sys (.sysOpen (cString srcAbs) O_RDONLY)
  if src.ret < 0 then do
    writeErrorErrno (bytes "cp") src.ret
    pure false
  else do
    let dst ← sys (.create (cString dstAbs))
    if dst.ret < 0 then do
      writeErrorErrno (bytes "cp: cannot create destination") dst.ret
      let _ ← sys (.close src.ret.toNat)
      pure false
    else do
      let copyOk ← copyLoop turns src.ret.toNat dst.ret.toNat
      let _ ← sys (.close dst.ret.toNat)
      let _ ← sys (.close src.ret.toNat)
      pure copyOk

/-- `copy::cmd_cp`. -/
def cmdCp (turns : Nat) : List Bytes → Sh Bool
  | srcIn :: dstIn :: _ => do
    -- Both are resolved before either is checked.
    match ← resolve srcIn, ← resolve dstIn with
    | some srcAbs, some dstAbs => copyFile turns srcAbs dstAbs
    | _, _ => do
      writeError (bytes "cp: path too long")
      pure false
  | _ => do
    writeError (bytes "cp: missing operand (usage: cp <src> <dst>)")
    pure false

/-- `cmd_mv` behind a `rename` that has failed. -/
def moveByCopy (turns : Nat) (args : List Bytes) (srcAbs : Bytes) : Sh Unit := do
  writeRaw (bytes "osh: mv: rename failed, falling back to copy+remove\n")
  if ← cmdCp turns args then do
    let a ← sys (.unlink (cString srcAbs))
    if a.ret < 0 then writeErrorErrno (bytes "mv: cannot remove source") a.ret
  else writeError (bytes "mv: copy failed, source preserved")

/-- `copy::cmd_mv`. -/
def cmdMv (turns : Nat) : List Bytes → Sh Unit
  | args@(srcIn :: dstIn :: _) => do
    match ← resolve srcIn, ← resolve dstIn with
    | some srcAbs, some dstAbs => do
      let a ← sys (.rename (cString srcAbs) (cString dstAbs))
      if a.ret = 0 then pure () else moveByCopy turns args srcAbs
    | _, _ => writeError (bytes "mv: path too long")
  | _ => writeError (bytes "mv: missing operand (usage: mv <src> <dst>)")

end OnyxShell.Process
