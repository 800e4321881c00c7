import OnyxShell.Process.File

/-!
# `OnyxShell.Process.Nav`: the working directory and its listing

`src/commands/nav.rs`. `ls_short` and `ls_long` read a directory in one way (`lsLoop`) and differ
in the line that they print for a name.

The kernel keeps the working directory: `cd` is a `chdir`, and what `pwd` prints is the answer of
`getcwd`. An entry of `ls -l` is asked for by its path, which `ls_long` joins itself.
-/

set_option autoImplicit false

namespace OnyxShell.Process

/-- `nav::cmd_pwd`. -/
def cmdPwd : Sh Unit := do
  let a ← sys (.getcwd PATH_MAX)
  if a.ret > 0 then do
    writeRaw (← slice (a.into (zeros PATH_MAX)) a.ret.toNat)
  else writeRaw (bytes "/")
  newline

/-- `nav::cmd_cd`. The kernel keeps the working directory. The shell has none of its own. -/
def cmdCd (args : List Bytes) : Sh Unit := do
  match ← resolve (args.headD (bytes "/")) with
  | none => writeError (bytes "cd: path too long")
  | some abs => do
    let a ← sys (.chdir (cString abs))
    if a.ret < 0 then writeErrorErrno (bytes "cd") a.ret

/-- `path_arg` and `long_format`. The last `-l` counts, and the first word that is no option. -/
structure LsArgs where
  path : Bytes
  long : Bool
deriving DecidableEq, Repr

/-- The body of the loop over the arguments of `ls`. -/
def lsArg (o : LsArgs) (a : Bytes) : LsArgs :=
  if a = bytes "-l" then { o with long := true }
  else if a = bytes "-a" ∨ (a.head? = some '-'.toUInt8 ∧ a.length > 1) then o
  else if o.path = [] then { o with path := a }
  else o

/-- The loop over the arguments of `ls`. -/
def lsArgs (args : List Bytes) : LsArgs := args.foldl lsArg ⟨[], false⟩

/-- The length of a name buffer. -/
def NAME_LEN : Nat := 256

/-- The variables of the loop of `ls_short` and `ls_long`. -/
structure LsState where
  name : Bytes
  any : Bool

/-- The loop of `ls_short` and `ls_long`, with the line for a name. -/
def lsLoop (turns : Nat) (dirPath : Bytes) (entry : Bytes → Sh Unit) : Sh Unit :=
  Routine.loop (fun s : LsState => do
    let a ← sys (.readdir (cString dirPath) NAME_LEN)
    if a.ret ≤ 0 then do
      -- An error behind the first name ends the listing without a message.
      if a.ret < 0 ∧ s.any = false then writeErrorErrno (bytes "ls") a.ret
      pure (.ret ())
    else do
      entry (cString (a.into s.name))
      pure (.next ⟨a.into s.name, true⟩)) turns ⟨zeros NAME_LEN, false⟩

/-- The line of `ls_short`. -/
def shortEntry (name : Bytes) : Sh Unit := do
  writeRaw name
  newline

/-- `nav::ls_short`. -/
def lsShort (turns : Nat) (dirPath : Bytes) : Sh Unit := lsLoop turns dirPath shortEntry

/-- `nav::join_path`. A length of 0 is `none`. -/
def joinPath (dir name : Bytes) : Option Bytes :=
  if dir.length ≥ PATH_MAX then none
  else
    match appendWithSlash dir name with
    | some [] => none
    | r => r

/-- The line of `ls_long` for a name without a `stat`. -/
def unknownEntry (name : Bytes) : Sh Unit := do
  writeRaw (bytes "????????  ??????  ")
  writeRaw name
  newline

/-- `type_ch` for `st_mode & 0o170_000`. -/
def typeCh (ifmt : UInt64) : UInt8 :=
  if ifmt = 0o040000 then 'd'.toUInt8
  else if ifmt = 0o100000 then '-'.toUInt8
  else if ifmt = 0o120000 then 'c'.toUInt8
  else '?'.toUInt8

/-- The line of `ls_long`. -/
def longEntry (dirPath name : Bytes) : Sh Unit :=
  match joinPath dirPath name with
  | none => unknownEntry name
  | some full => do
    let a ← sys (.stat (cString full))
    if a.ret < 0 then unknownEntry name
    else do
      let st := a.into (zeros STAT_LEN)
      writeByte (typeCh (u32At st 16 &&& 0o170000))
      writeRaw (bytes "rwxr-xr-x  ")
      writeU64Field (i64At st 48).toUInt64 8
      writeRaw (bytes "  ")
      writeRaw name
      newline

/-- `nav::ls_long`. -/
def lsLong (turns : Nat) (dirPath : Bytes) : Sh Unit := lsLoop turns dirPath (longEntry dirPath)

/-- `nav::cmd_ls`. -/
def cmdLs (turns : Nat) (args : List Bytes) : Sh Unit := do
  let o := lsArgs args
  match ← resolve (if o.path = [] then bytes "." else o.path) with
  | none => writeError (bytes "ls: path too long")
  | some abs => if o.long then lsLong turns abs else lsShort turns abs

end OnyxShell.Process
