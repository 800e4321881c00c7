import OnyxShell.Commands.File
import OnyxShell.Lib.FdTable

/-!
# `OnyxShell.Commands.Copy`: `cp` with its descriptors and its buffer

`copy_loop` and `cmd_cp` of `src/commands/file/copy.rs` over descriptor numbers. One buffer of
512 bytes serves all reads: each of them overwrites its front, and what stands behind that is
left from the reads before.

A descriptor carries the place of its file and how far it has been read. What is written to it
is appended to its file. `OnyxShell.Commands.File` has the same commands over places, and
`OnyxShell.Proofs.Commands.Copy` proves that the two agree.
-/

set_option autoImplicit false

namespace OnyxShell

/-- `syscalls::EBADF`. -/
def EBADF : Int := -12

/-- What a descriptor is open on: the place of a file, and how far it has been read. -/
structure OpenFile (π : Type) where
  place : π
  offset : Nat

/-- The files and the descriptors of the process. -/
structure OpenFiles (π : Type) where
  disk : Disk π
  fds : FdTable (OpenFile π)

namespace OpenFiles

variable {π : Type}

/-- Prints. -/
def notice (s : OpenFiles π) (n : Notice) : OpenFiles π := { s with disk := s.disk.notice n }

/-- `syscalls::close`. -/
def close (s : OpenFiles π) (fd : Nat) : OpenFiles π := { s with fds := s.fds.close fd }

/-- The place that a descriptor is open on. -/
def placeOf (s : OpenFiles π) (fd : Nat) : Option π := (s.fds.get fd).map OpenFile.place

/-- The number of bytes that are left to read from a descriptor. -/
def left (s : OpenFiles π) (fd : Nat) : Nat :=
  match s.fds.get fd with
  | none => 0
  | some f => ((s.disk.files f.place).getD []).length - f.offset

variable (k : Kernel π)

/-- `syscalls::open` for reading. -/
def sysOpen (path : Bytes) (s : OpenFiles π) : Except Int Nat × OpenFiles π :=
  match k.openRead path s.disk with
  | (.error ret, d) => (.error ret, { s with disk := d })
  | (.ok p, d) => (.ok s.fds.lowestFree, ⟨d, s.fds.alloc ⟨p, 0⟩⟩)

/-- `syscalls::read_fd`: how many bytes are read, and the buffer with them at its front. -/
def readFd (fd : Nat) (buf : Bytes) (s : OpenFiles π) : Except Int (Nat × Bytes) × OpenFiles π :=
  match s.fds.get fd with
  | none => (.error EBADF, { s with disk := s.disk.called })
  | some f =>
    match k.readFd f.place f.offset buf.length s.disk with
    | (.error ret, d) => (.error ret, { s with disk := d })
    | (.ok chunk, d) =>
      (.ok (chunk.length, chunk ++ buf.drop chunk.length),
        ⟨d, s.fds.put fd ⟨f.place, f.offset + chunk.length⟩⟩)

/-- What a read that is not refused does. -/
theorem readFd_ok {fd n : Nat} {buf buf' : Bytes} {s s' : OpenFiles π}
    (h : s.readFd k fd buf = (.ok (n, buf'), s')) :
    ∃ f chunk, s.fds.get fd = some f ∧
      k.readFd f.place f.offset buf.length s.disk = (.ok chunk, s'.disk) ∧
      n = chunk.length ∧ buf' = chunk ++ buf.drop chunk.length ∧
      s'.fds = s.fds.put fd ⟨f.place, f.offset + chunk.length⟩ := by
  rw [readFd] at h
  split at h
  · cases h
  · rename_i f hf
    split at h
    · cases h
    · rename_i chunk d hread
      cases h
      exact ⟨f, chunk, hf, hread, rfl, rfl, rfl⟩

/-- A read leaves every descriptor on its file. -/
theorem placeOf_readFd {fd n : Nat} {buf buf' : Bytes} {s s' : OpenFiles π}
    (h : s.readFd k fd buf = (.ok (n, buf'), s')) (m : Nat) : s'.placeOf m = s.placeOf m := by
  rcases readFd_ok k h with ⟨f, chunk, hf, -, -, -, hfds⟩
  rw [placeOf, placeOf, hfds, FdTable.get_put (by rw [FdTable.IsOpen, hf]; rfl)]
  split
  · rename_i hm
    rw [hm, hf]
    rfl
  · rfl

/-- What is read is no longer left. -/
theorem left_readFd {fd n : Nat} {buf buf' : Bytes} {s s' : OpenFiles π}
    (h : s.readFd k fd buf = (.ok (n, buf'), s')) : s'.left fd + n = s.left fd := by
  rcases readFd_ok k h with ⟨f, chunk, hf, hread, rfl, -, hfds⟩
  have hle := k.length_readFd_le hread
  rw [left, left, hfds, FdTable.get_put (by rw [FdTable.IsOpen, hf]; rfl), if_pos rfl, hf]
  show ((s'.disk.files f.place).getD []).length - (f.offset + chunk.length) + chunk.length = _
  rw [k.files_readFd hread]
  show _ = ((s.disk.files f.place).getD []).length - f.offset
  omega

variable [DecidableEq π]

/-- `syscalls::create`. -/
def create (path : Bytes) (s : OpenFiles π) : Except Int Nat × OpenFiles π :=
  match k.create path s.disk with
  | (.error ret, d) => (.error ret, { s with disk := d })
  | (.ok p, d) => (.ok s.fds.lowestFree, ⟨d, s.fds.alloc ⟨p, 0⟩⟩)

/-- `syscalls::write_fd`. -/
def writeFd (fd : Nat) (buf : Bytes) (s : OpenFiles π) : Int × OpenFiles π :=
  match s.fds.get fd with
  | none => (EBADF, { s with disk := s.disk.called })
  | some f =>
    match k.writeFd f.place buf s.disk with
    | (w, d) => (w, { s with disk := d })

/-- A write leaves the descriptors, and the other files. -/
theorem writeFd_keeps {fd : Nat} {buf : Bytes} {s s' : OpenFiles π} {w : Int}
    (h : s.writeFd k fd buf = (w, s')) :
    s'.fds = s.fds ∧ ∀ p, s.placeOf fd ≠ some p → s'.disk.files p = s.disk.files p := by
  rw [writeFd] at h
  split at h
  · cases h
    exact ⟨rfl, fun _ _ => rfl⟩
  · rename_i f hf
    generalize hw : k.writeFd f.place buf s.disk = r at h
    cases h
    refine ⟨rfl, ?_⟩
    intro p hp
    rw [placeOf, hf] at hp
    exact k.files_writeFd (fun heq => hp (congrArg some heq.symm)) hw

/-- The inner loop of `copy_loop`: writes `buf[written..n]`. -/
def writeLoop (fd : Nat) (buf : Bytes) (n written : Nat) (s : OpenFiles π) : Bool × OpenFiles π :=
  if written < n then
    match s.writeFd k fd ((buf.drop written).take (n - written)) with
    | (w, s) =>
      if w ≤ 0 then (false, s.notice (.error (bytes "cp: write error")))
      else writeLoop fd buf n (written + w.toNat) s
  else (true, s)
termination_by n - written
decreasing_by omega

/-- Writing a chunk leaves the descriptors, and the other files. -/
theorem writeLoop_keeps {fd n written : Nat} {buf : Bytes} {s s' : OpenFiles π} {ok : Bool}
    (h : s.writeLoop k fd buf n written = (ok, s')) :
    s'.fds = s.fds ∧ ∀ p, s.placeOf fd ≠ some p → s'.disk.files p = s.disk.files p := by
  fun_induction writeLoop k fd buf n written s with
  | case1 written s hlt w s₁ hw hle =>
    cases h
    have hkeeps := writeFd_keeps k hw
    exact ⟨hkeeps.1, hkeeps.2⟩
  | case2 written s hlt w s₁ hw hle ih =>
    rcases writeFd_keeps k hw with ⟨hfds, hfiles⟩
    rcases ih h with ⟨hfds', hfiles'⟩
    refine ⟨hfds'.trans hfds, ?_⟩
    intro p hp
    rw [hfiles' p (by rw [placeOf, hfds]; exact hp), hfiles p hp]
  | case3 written s hlt =>
    cases h
    exact ⟨rfl, fun _ _ => rfl⟩

/-- The descriptors of a copy stay on different files. -/
theorem placeOf_ne_step {src dst n : Nat} {buf buf' : Bytes} {s s' s'' : OpenFiles π} {ok : Bool}
    (hread : s.readFd k src buf = (.ok (n, buf'), s'))
    (hwrite : s'.writeLoop k dst buf' n 0 = (ok, s''))
    (hne : s.placeOf src ≠ s.placeOf dst) : s''.placeOf src ≠ s''.placeOf dst := by
  have hplace : ∀ m, s''.placeOf m = s.placeOf m := by
    intro m
    rw [← placeOf_readFd k hread, placeOf, placeOf, (writeLoop_keeps k hwrite).1]
  rw [hplace, hplace]
  exact hne

/-- A round of a copy leaves less to read. -/
theorem left_step {src dst n : Nat} {buf buf' : Bytes} {s s' s'' : OpenFiles π} {ok : Bool}
    (hread : s.readFd k src buf = (.ok (n, buf'), s'))
    (hwrite : s'.writeLoop k dst buf' n 0 = (ok, s''))
    (hne : s.placeOf src ≠ s.placeOf dst) : s''.left src + n = s.left src := by
  rw [← left_readFd k hread]
  rcases writeLoop_keeps k hwrite with ⟨hfds, hfiles⟩
  rw [left, left, hfds]
  split
  · rfl
  · rename_i f hf
    rw [hfiles f.place]
    rw [← placeOf_readFd k hread, ← placeOf_readFd k hread, placeOf, hf] at hne
    exact Ne.symm hne

/-- The outer loop of `copy_loop`, between descriptors on different files. -/
def copyRounds (src dst : Nat) (buf : Bytes) (s : OpenFiles π)
    (hne : s.placeOf src ≠ s.placeOf dst) : Bool × OpenFiles π :=
  match hread : s.readFd k src buf with
  | (.error _, s') => (false, s'.notice (.error (bytes "cp: read error")))
  | (.ok (n, buf'), s') =>
    if _hend : n = 0 then (true, s')
    else
      match hwrite : s'.writeLoop k dst buf' n 0 with
      | (false, s'') => (false, s'')
      | (true, s'') => copyRounds src dst buf' s'' (placeOf_ne_step k hread hwrite hne)
termination_by s.left src
decreasing_by
  have := left_step k hread hwrite hne
  omega

/-- `copy_loop`. -/
def copyLoop (src dst : Nat) (s : OpenFiles π) (hne : s.placeOf src ≠ s.placeOf dst) :
    Bool × OpenFiles π :=
  copyRounds k src dst (List.replicate 512 0) s hne

/-- The descriptors that `cmd_cp` opens are on different files: the one was there, and the
other was not. -/
theorem placeOf_ne_of_open_create {src dst : Bytes} {s s₁ s₂ : OpenFiles π} {srcFd dstFd : Nat}
    (hopen : s.sysOpen k src = (.ok srcFd, s₁)) (hcreate : s₁.create k dst = (.ok dstFd, s₂)) :
    s₂.placeOf srcFd ≠ s₂.placeOf dstFd := by
  rw [sysOpen] at hopen
  split at hopen
  · cases hopen
  · rename_i p d hread
    cases hopen
    rw [create] at hcreate
    split at hcreate
    · cases hcreate
    · rename_i q d' hmade
      cases hcreate
      have hne := k.ne_of_openRead_create hread hmade
      rw [placeOf, placeOf, FdTable.get_alloc, FdTable.get_alloc, if_pos rfl,
        if_neg (FdTable.lowestFree_alloc_ne s.fds _).symm, FdTable.get_alloc, if_pos rfl]
      exact fun heq => hne (Option.some.inj heq)

/-- `copy::cmd_cp`. -/
def cmdCp (getcwd : Option Bytes) (args : List Bytes) (s : OpenFiles π) : Bool × OpenFiles π :=
  match args with
  | srcIn :: dstIn :: _ =>
    match resolve getcwd srcIn, resolve getcwd dstIn with
    | some srcAbs, some dstAbs =>
      match hopen : s.sysOpen k srcAbs with
      | (.error ret, s₁) => (false, s₁.notice (.errno (bytes "cp") ret))
      | (.ok srcFd, s₁) =>
        match hcreate : s₁.create k dstAbs with
        | (.error ret, s₂) =>
          -- The source is closed on this exit too.
          (false, (s₂.notice (.errno (bytes "cp: cannot create destination") ret)).close srcFd)
        | (.ok dstFd, s₂) =>
          match s₂.copyLoop k srcFd dstFd (placeOf_ne_of_open_create k hopen hcreate) with
          | (copyOk, s₃) => (copyOk, (s₃.close dstFd).close srcFd)
    | _, _ => (false, s.notice (.error (bytes "cp: path too long")))
  | _ => (false, s.notice (.error (bytes "cp: missing operand (usage: cp <src> <dst>)")))

end OpenFiles

end OnyxShell
