import OnyxShell.Process.File
import OnyxShell.Startup

/-!
# `OnyxShell.Process.Sys`: the commands about the system and the environment

`src/commands/sys.rs`, and `env::env_list`. The commands only print, and `export` and `unset` change
the environment. What `getuid`, `uname` and `clock_gettime` answer is printed as it comes.

The buffers that the kernel fills are those of the source, and so are the offsets at which the
answers are read out of them.
-/

set_option autoImplicit false

namespace OnyxShell.Process

/-- The lines of `cmd_help`. -/
def helpLines : List String :=
  ["OnyxShell — built-in commands",
    "",
    "File operations:",
    "  ls [path] [-l]   list directory contents",
    "  cat <file>       print file contents",
    "  cp <src> <dst>   copy file",
    "  mv <src> <dst>   move or rename file",
    "  rm <file>        remove file",
    "  mkdir <dir>      create directory",
    "  touch <file>     create empty file",
    "  stat <file>      show file information",
    "",
    "Navigation:",
    "  cd [path]        change directory (default: /)",
    "  pwd              print working directory",
    "",
    "System:",
    "  echo [text]      print text",
    "  export [VAR=val] set environment variable",
    "  set              list environment variables",
    "  unset VAR        remove environment variable",
    "  whoami           show current user and ring",
    "  uname            show system information",
    "  date             show current time",
    "  ver              show shell version",
    "  clear            clear the screen",
    "",
    "Process:",
    "  exec <path> [args]  replace shell with binary",
    "  run <path> [args]   run binary as child (root only)",
    "  jobs                list background jobs",
    "  fg %<jobid>         bring job to foreground",
    "  bg %<jobid>         continue job in background",
    "  exit                exit the shell",
    "",
    "Note: rm, mkdir, cp, mv, touch require root (ring 1)."]

/-- `sys::cmd_help`. -/
def cmdHelp : Sh Unit := helpLines.forM writeLine

/-- `sys::cmd_echo`. -/
def cmdEcho (args : List Bytes) : Sh Unit := do
  args.zipIdx.forM fun (a, i) => do
    if i > 0 then writeByte ' '.toUInt8
    writeRaw a
  newline

/-- `env::env_list`. -/
def envList : Sh Unit := do
  let g ← get
  g.env.entries.forM fun (key, val) => do
    writeRaw key
    writeRaw (bytes "=")
    writeRaw val
    newline

/-- `sys::cmd_export`. -/
def cmdExport (args : List Bytes) : Sh Unit :=
  if args = [] then envList else modify fun g => { g with env := g.env.run (exportCalls args) }

/-- `sys::cmd_set`. -/
def cmdSet : Sh Unit := envList

/-- `sys::cmd_unset`. -/
def cmdUnset (args : List Bytes) : Sh Unit :=
  modify fun g => { g with env := g.env.run (args.map EnvCall.unset) }

/-- `ring_str`. -/
def ringStr (ring : Int) : Bytes :=
  match ring with
  | 0 => bytes "kernel"
  | 1 => bytes "root"
  | 2 => bytes "user"
  | _ => bytes "unknown"

/-- `sys::cmd_whoami`. -/
def cmdWhoami : Sh Unit := do
  let uid ← sys .getuid
  let ring ← sys .getring
  writeRaw (if uid.ret = 0 then bytes "root" else bytes "user")
  writeRaw (bytes " (uid=")
  writeI64 (Int64.ofInt uid.ret)
  writeRaw (bytes ", ring=")
  writeRaw (ringStr ring.ret)
  writeRaw (bytes ")\n")

/-- `labels` of `cmd_uname`, with their offsets. -/
def unameLabels : List (Bytes × Nat) :=
  [(bytes "sysname", 0), (bytes "nodename", 65), (bytes "release", 130), (bytes "version", 195),
    (bytes "machine", 260)]

/-- `sys::cmd_uname`. -/
def cmdUname : Sh Unit := do
  let a ← sys .uname
  if a.ret < 0 then writeErrorErrno (bytes "uname") a.ret
  else
    unameLabels.forM fun (label, off) => do
      writeRaw (bytes "  ")
      writeRaw label
      writeRaw (bytes ": ")
      writeRaw (cString (((a.into (zeros 390)).drop off).take 65))
      newline

/-- `sys::cmd_date`. -/
def cmdDate : Sh Unit := do
  let a ← sys (.clockGettime 0)
  if a.ret < 0 then writeErrorErrno (bytes "date") a.ret
  else do
    let ts := a.into (zeros 16)
    writeRaw (bytes "epoch: ")
    writeU64 (u64At ts 0)
    writeRaw (bytes " sec, ")
    writeU64 (u64At ts 8)
    writeRaw (bytes " nsec\n")

/-- `sys::cmd_clear`. -/
def cmdClear : Sh Unit := writeRaw (0x1B :: bytes "[2J" ++ 0x1B :: bytes "[H")

/-- `sys::cmd_exit`. -/
def cmdExit : Sh Unit := do
  writeLine "logout"
  exit 0

/-- `sys::cmd_ver`. -/
def cmdVer : Sh Unit := do
  writeLine "OnyxShell v0.2.0 — built-in command shell for OnyxOS"
  writeLine "Copyright (c) 2024-2025 loki5512344"
  writeLine "License: GPL-3.0-or-later"

end OnyxShell.Process
