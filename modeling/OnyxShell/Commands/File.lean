import OnyxShell.Path

/-!
# `OnyxShell.Commands.File`: copying and moving files

`cmd_cp`, `copy_loop` and `cmd_mv` of `src/commands/file/copy.rs`, over a kernel that may
let any call fail and any transfer be short. A `Disk` says what the file at each place
holds. Which place a path leads to is the kernel's choice, so two paths may lead to one.

A descriptor is the place it was opened on. `close` changes nothing here.
-/

set_option autoImplicit false

namespace OnyxShell

/-- What is printed. -/
inductive Notice
  /-- `io::write_raw`. -/
  | raw (text : Bytes)
  /-- `io::write_error`. -/
  | error (msg : Bytes)
  /-- `io::write_error_errno`, with the negative result of the call. -/
  | errno (msg : Bytes) (ret : Int)
deriving DecidableEq, Repr

/-- The files, the number of calls made, and what has been printed. -/
structure Disk (π : Type) where
  files : π → Option Bytes
  calls : Nat
  notices : List Notice

/-- What the kernel decides: the place of a path, and the value that the `n`-th call returns
where the files allow it. -/
structure Kernel (π : Type) where
  place : Bytes → π
  outcome : Nat → Int

/-- `syscalls::ENOENT`. -/
def ENOENT : Int := -3

/-- `syscalls::EEXIST`. -/
def EEXIST : Int := -13

/-- What has come through of `content`: a front of it, and all of it if there was no error. -/
def Received (ok : Bool) (content received : Bytes) : Prop :=
  received <+: content ∧ (ok = true → received = content)

variable {π : Type}

namespace Disk

/-- Prints. -/
def notice (d : Disk π) (n : Notice) : Disk π := { d with notices := d.notices ++ [n] }

/-- One more call. -/
def called (d : Disk π) : Disk π := { d with calls := d.calls + 1 }

variable [DecidableEq π]

/-- The file at a place is replaced, made or taken away. -/
def put (d : Disk π) (p : π) (file : Option Bytes) : Disk π :=
  { d with files := fun q => if q = p then file else d.files q }

/-- The file at `s` goes to `t`. -/
def move (d : Disk π) (s t : π) : Disk π :=
  { d with files := fun q => if q = t then d.files s else if q = s then none else d.files q }

end Disk

namespace Kernel

variable (k : Kernel π)

/-- `syscalls::open` for reading. -/
def openRead (path : Bytes) (d : Disk π) : Except Int π × Disk π :=
  if k.outcome d.calls < 0 then (.error (k.outcome d.calls), d.called)
  else
    match d.files (k.place path) with
    | none => (.error ENOENT, d.called)
    | some _ => (.ok (k.place path), d.called)

/-- `syscalls::read_fd`: the next bytes, at most `len`, and none at the end of the file. -/
def readFd (fd : π) (offset len : Nat) (d : Disk π) : Except Int Bytes × Disk π :=
  if k.outcome d.calls < 0 then (.error (k.outcome d.calls), d.called)
  else
    (.ok ((((d.files fd).getD []).drop offset).take (min (max (k.outcome d.calls).toNat 1) len)),
      d.called)

/-- Opening changes no file. -/
theorem files_openRead {path : Bytes} {d d' : Disk π} {r : Except Int π}
    (h : k.openRead path d = (r, d')) : d'.files = d.files := by
  rw [openRead] at h
  split at h
  · cases h
    rfl
  · split at h
    · cases h
      rfl
    · cases h
      rfl

/-- A file that is opened is there. -/
theorem openRead_ok {path : Bytes} {d d' : Disk π} {p : π}
    (h : k.openRead path d = (.ok p, d')) : p = k.place path ∧ ∃ file, d.files p = some file := by
  rw [openRead] at h
  split at h
  · cases h
  · split at h
    · cases h
    · rename_i file hfile
      cases h
      exact ⟨rfl, file, hfile⟩

/-- Reading changes no file. -/
theorem files_readFd {fd : π} {offset len : Nat} {d d' : Disk π} {r : Except Int Bytes}
    (h : k.readFd fd offset len d = (r, d')) : d'.files = d.files := by
  rw [readFd] at h
  split at h
  · cases h
    rfl
  · cases h
    rfl

/-- A chunk that is read is part of what is left. -/
theorem length_readFd_le {fd : π} {offset len : Nat} {d d' : Disk π} {chunk : Bytes}
    (h : k.readFd fd offset len d = (.ok chunk, d')) :
    chunk.length ≤ ((d.files fd).getD []).length - offset := by
  rw [readFd] at h
  split at h
  · cases h
  · cases h
    rw [List.length_take, List.length_drop]
    exact Nat.min_le_right _ _

variable [DecidableEq π]

/-- `syscalls::rename`. -/
def rename (src dst : Bytes) (d : Disk π) : Int × Disk π :=
  if k.outcome d.calls = 0 then (0, d.called.move (k.place src) (k.place dst))
  else (k.outcome d.calls, d.called)

/-- `syscalls::create`: a new empty file. -/
def create (path : Bytes) (d : Disk π) : Except Int π × Disk π :=
  match d.files (k.place path) with
  | some _ => (.error EEXIST, d.called)
  | none =>
    if k.outcome d.calls < 0 then (.error (k.outcome d.calls), d.called)
    else (.ok (k.place path), d.called.put (k.place path) (some []))

/-- `syscalls::write_fd`: appends the first bytes, at most all of them. -/
def writeFd (fd : π) (buf : Bytes) (d : Disk π) : Int × Disk π :=
  if k.outcome d.calls < 0 then (k.outcome d.calls, d.called)
  else
    let n := min (k.outcome d.calls).toNat buf.length
    (n, d.called.put fd (some ((d.files fd).getD [] ++ buf.take n)))

/-- `syscalls::unlink`. -/
def unlink (path : Bytes) (d : Disk π) : Int × Disk π :=
  if k.outcome d.calls < 0 then (k.outcome d.calls, d.called)
  else (k.outcome d.calls, d.called.put (k.place path) none)

/-- The inner loop of `copy_loop`: writes `chunk[written..]`. -/
def writeLoop (fd : π) (chunk : Bytes) (written : Nat) (d : Disk π) : Bool × Disk π :=
  if written < chunk.length then
    match k.writeFd fd (chunk.drop written) d with
    | (w, d) =>
      if w ≤ 0 then (false, d.notice (.error (bytes "cp: write error")))
      else writeLoop fd chunk (written + w.toNat) d
  else (true, d)
termination_by chunk.length - written
decreasing_by omega

/-- A write leaves the other files alone. -/
theorem files_writeFd {fd p : π} (hne : p ≠ fd) {buf : Bytes} {d d' : Disk π} {w : Int}
    (h : k.writeFd fd buf d = (w, d')) : d'.files p = d.files p := by
  rw [writeFd] at h
  split at h
  · cases h
    rfl
  · cases h
    exact if_neg hne

/-- Writing a chunk leaves the other files alone. -/
theorem files_writeLoop {fd p : π} (hne : p ≠ fd) {chunk : Bytes} {written : Nat}
    {d d' : Disk π} {ok : Bool} (h : k.writeLoop fd chunk written d = (ok, d')) :
    d'.files p = d.files p := by
  fun_induction writeLoop k fd chunk written d with
  | case1 written d hlt w d₁ hw hle =>
    cases h
    show d₁.files p = d.files p
    exact k.files_writeFd hne hw
  | case2 written d hlt w d₁ hw hle ih => rw [ih h, k.files_writeFd hne hw]
  | case3 written d hlt =>
    cases h
    rfl

/-- `copy_loop`, between two places. -/
def copyLoop (src dst : π) (hne : src ≠ dst) (offset : Nat) (d : Disk π) : Bool × Disk π :=
  match _hread : k.readFd src offset 512 d with
  | (.error _, d') => (false, d'.notice (.error (bytes "cp: read error")))
  | (.ok chunk, d') =>
    if _hend : chunk = [] then (true, d')
    else
      match _hwrite : k.writeLoop dst chunk 0 d' with
      | (false, d'') => (false, d'')
      | (true, d'') => copyLoop src dst hne (offset + chunk.length) d''
termination_by ((d.files src).getD []).length - offset
decreasing_by
  have hlen := k.length_readFd_le _hread
  have hpos := List.length_pos_of_ne_nil _hend
  rw [k.files_writeLoop hne _hwrite, k.files_readFd _hread]
  omega

/-- A file that is created was not there, and is empty. -/
theorem create_ok {path : Bytes} {d d' : Disk π} {p : π} (h : k.create path d = (.ok p, d')) :
    p = k.place path ∧ d.files p = none ∧
      d'.files = fun q => if q = p then some [] else d.files q := by
  rw [create] at h
  split at h
  · cases h
  · rename_i hnone
    split at h
    · cases h
    · cases h
      exact ⟨rfl, hnone, rfl⟩

/-- A file that is not created changes nothing. -/
theorem create_error {path : Bytes} {d d' : Disk π} {ret : Int}
    (h : k.create path d = (.error ret, d')) : d'.files = d.files := by
  rw [create] at h
  split at h
  · cases h
    rfl
  · split at h
    · cases h
      rfl
    · cases h

/-- A file that can be opened cannot be created, so the two ends of a copy differ. -/
theorem ne_of_openRead_create {src dst : Bytes} {d d₁ d₂ : Disk π} {s t : π}
    (hopen : k.openRead src d = (.ok s, d₁)) (hcreate : k.create dst d₁ = (.ok t, d₂)) : s ≠ t := by
  rcases k.openRead_ok hopen with ⟨-, file, hfile⟩
  rcases k.create_ok hcreate with ⟨-, hnone, -⟩
  rintro rfl
  rw [k.files_openRead hopen, hfile] at hnone
  cases hnone

/-- `copy::cmd_cp`. -/
def cmdCp (getcwd : Option Bytes) (args : List Bytes) (d : Disk π) : Bool × Disk π :=
  match args with
  | srcIn :: dstIn :: _ =>
    match resolve getcwd srcIn, resolve getcwd dstIn with
    | some srcAbs, some dstAbs =>
      match hopen : k.openRead srcAbs d with
      | (.error ret, d₁) => (false, d₁.notice (.errno (bytes "cp") ret))
      | (.ok srcFd, d₁) =>
        match hcreate : k.create dstAbs d₁ with
        | (.error ret, d₂) =>
          (false, d₂.notice (.errno (bytes "cp: cannot create destination") ret))
        | (.ok dstFd, d₂) => k.copyLoop srcFd dstFd (k.ne_of_openRead_create hopen hcreate) 0 d₂
    | _, _ => (false, d.notice (.error (bytes "cp: path too long")))
  | _ => (false, d.notice (.error (bytes "cp: missing operand (usage: cp <src> <dst>)")))

/-- `copy::cmd_mv`. A `rename` that is refused is reported and followed by a copy, and the source
is removed only where the copy has succeeded. -/
def cmdMv (getcwd : Option Bytes) (args : List Bytes) (d : Disk π) : Disk π :=
  match args with
  | srcIn :: dstIn :: _ =>
    match resolve getcwd srcIn, resolve getcwd dstIn with
    | some srcAbs, some dstAbs =>
      let ret := k.rename srcAbs dstAbs d
      if ret.1 = 0 then ret.2
      else
        let cp := k.cmdCp getcwd args
          (ret.2.notice (.raw (bytes "osh: mv: rename failed, falling back to copy+remove\n")))
        if cp.1 then
          let rm := k.unlink srcAbs cp.2
          if rm.1 < 0 then rm.2.notice (.errno (bytes "mv: cannot remove source") rm.1) else rm.2
        else cp.2.notice (.error (bytes "mv: copy failed, source preserved"))
    | _, _ => d.notice (.error (bytes "mv: path too long"))
  | _ => d.notice (.error (bytes "mv: missing operand (usage: mv <src> <dst>)"))

end Kernel

end OnyxShell
