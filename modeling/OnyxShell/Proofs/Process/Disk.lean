import OnyxShell.Process.Disk
import OnyxShell.Proofs.Commands.Copy
import OnyxShell.Proofs.Process.Output

/-!
# `OnyxShell.Proofs.Process.Disk`: `cp` and `mv` and their calls

`Process.cmdCp` and `Process.cmdMv` make system calls, and `OpenFiles.cmdCp` and `Kernel.cmdMv` are
functions on the files. `cp_refines` and `mv_refines` say that they do the same, however the kernel
cuts the transfers and whatever it refuses.

The pure model and the program differ in their output: a notice is an entry of a list there and a
`write` here. `seen` takes the notices for the text that they print.
-/

set_option autoImplicit false

namespace OnyxShell

/-- What a notice looks like. -/
def Notice.text : Notice → Bytes
  | .raw text => text
  | .error msg => Process.errorText msg
  | .errno msg ret => Process.errnoText msg ret

/-! ### Failures -/

namespace Kernel

variable {π : Type} {k : Kernel π} {d d' : Disk π}

/-- An open that fails reports a negative number: either the kernel's own, or the one for a file
that is not there. -/
theorem neg_of_openRead {path : Bytes} {e : Int} (h : k.openRead path d = (.error e, d')) :
    e < 0 := by
  rw [openRead] at h
  split at h
  · cases h
    assumption
  · split at h
    · cases h
      decide
    · cases h

/-- A read that fails reports a negative number, so that the `n < 0` of `copy_loop` sees it. -/
theorem neg_of_readFd {fd : π} {offset len : Nat} {e : Int}
    (h : k.readFd fd offset len d = (.error e, d')) : e < 0 := by
  rw [readFd] at h
  split at h
  · cases h
    assumption
  · cases h

/-- A create that fails reports a negative number, also where the file is there already. -/
theorem neg_of_create [DecidableEq π] {path : Bytes} {e : Int}
    (h : k.create path d = (.error e, d')) : e < 0 := by
  rw [create] at h
  split at h
  · cases h
    decide
  · split at h
    · cases h
      assumption
    · cases h

/-- A `rename` that has failed changes no file. -/
theorem files_rename_failed [DecidableEq π] {src dst : Bytes} (h : ¬ (k.rename src dst d).1 = 0) :
    (k.rename src dst d).2.files = d.files := by
  rw [rename] at h ⊢
  split
  · rename_i hzero
    exact absurd (by rw [if_pos hzero]) h
  · rfl

/-- `cmd_mv` behind a `rename` that has failed. -/
def moveByCopy [DecidableEq π] (k : Kernel π) (getcwd : Option Bytes) (args : List Bytes)
    (srcAbs : Bytes) (d : Disk π) : Disk π :=
  let cp := k.cmdCp getcwd args
    (d.notice (.raw (bytes "osh: mv: rename failed, falling back to copy+remove\n")))
  if cp.1 then
    let rm := k.unlink srcAbs cp.2
    if rm.1 < 0 then rm.2.notice (.errno (bytes "mv: cannot remove source") rm.1) else rm.2
  else cp.2.notice (.error (bytes "mv: copy failed, source preserved"))

end Kernel

namespace OpenFiles

variable {π : Type}

/-- The files as they are remembered: the notices are output. -/
def seen (s : OpenFiles π) : Process.Storage π :=
  ⟨{ s with disk := { s.disk with notices := [] } }, s.disk.notices.flatMap Notice.text⟩

/-- A notice leaves the files alone and adds its text to the output. It is what lets a notice of
the pure model be a `write` of the program. -/
theorem seen_notice (s : OpenFiles π) (n : Notice) : (s.notice n).seen = s.seen.print n.text := by
  simp only [seen, notice, Disk.notice, Process.Storage.print, List.flatMap_append,
    List.flatMap_singleton]

/-- A call that prints nothing, and does not look at what has been printed. So the call may be
looked at in a state without notices, where the output is kept apart. -/
def Silent {ρ : Type} (f : OpenFiles π → ρ × OpenFiles π) : Prop :=
  ∀ s, (f s.seen.store).1 = (f s).1 ∧ { s.seen with store := (f s.seen.store).2 } = (f s).2.seen

section
variable {k : Kernel π} {s : OpenFiles π}

/-- `open` prints nothing. The four lemmas of this kind are what `twp_call` asks of a call before
it may be read off the pure model. -/
theorem silent_sysOpen (path : Bytes) : Silent fun s : OpenFiles π => s.sysOpen k path := by
  rintro ⟨⟨files, calls, notices⟩, fds⟩
  by_cases hfails : k.outcome calls < 0
  · simp only [sysOpen, Kernel.openRead, seen, hfails, ↓reduceIte]
    exact ⟨trivial, rfl⟩
  · simp only [sysOpen, Kernel.openRead, seen, hfails, ↓reduceIte]
    cases files (k.place path) with
    | none => exact ⟨rfl, rfl⟩
    | some file => exact ⟨rfl, rfl⟩

/-- `read` prints nothing, also at a descriptor that is not open. -/
theorem silent_readFd (fd : Nat) (buf : Bytes) :
    Silent fun s : OpenFiles π => s.readFd k fd buf := by
  rintro ⟨⟨files, calls, notices⟩, fds⟩
  simp only [readFd, Kernel.readFd, seen]
  cases fds.get fd with
  | none => exact ⟨rfl, rfl⟩
  | some f =>
    by_cases hfails : k.outcome calls < 0
    · simp only [hfails, ↓reduceIte]
      exact ⟨trivial, rfl⟩
    · simp only [hfails, ↓reduceIte]
      exact ⟨trivial, rfl⟩

/-- The same failure through a descriptor: one that is not open is refused with a negative number
too. -/
theorem neg_of_readFd {fd : Nat} {buf : Bytes} {e : Int} {s' : OpenFiles π}
    (h : s.readFd k fd buf = (.error e, s')) : e < 0 := by
  rw [readFd] at h
  split at h
  · cases h
    decide
  · split at h
    · rename_i hread
      cases h
      exact Kernel.neg_of_readFd hread
    · cases h

/-- What a read gives does not depend on what was in the buffer. -/
theorem readFd_zeros (s : OpenFiles π) (fd : Nat) (buf : Bytes) :
    s.readFd k fd (Process.zeros buf.length) =
      match s.readFd k fd buf with
      | (.error e, s') => (.error e, s')
      | (.ok (n, buf'), s') =>
        (.ok (n, buf'.take n ++ (Process.zeros buf.length).drop n), s') := by
  simp only [readFd, Process.length_zeros]
  cases s.fds.get fd with
  | none => rfl
  | some f =>
    dsimp only
    cases k.readFd f.place f.offset buf.length s.disk with
    | mk r d =>
      cases r with
      | error e => rfl
      | ok chunk => simp only [List.take_left']

variable [DecidableEq π]

/-- `create` prints nothing, whether the file is new or there already. -/
theorem silent_create (path : Bytes) : Silent fun s : OpenFiles π => s.create k path := by
  rintro ⟨⟨files, calls, notices⟩, fds⟩
  simp only [create, Kernel.create, seen]
  cases files (k.place path) with
  | some file => exact ⟨rfl, rfl⟩
  | none =>
    by_cases hfails : k.outcome calls < 0
    · simp only [hfails, ↓reduceIte]
      exact ⟨trivial, rfl⟩
    · simp only [hfails, ↓reduceIte]
      exact ⟨trivial, rfl⟩

/-- `write` to a file prints nothing. Only `write` to the terminal does, and that is a notice. -/
theorem silent_writeFd (fd : Nat) (buf : Bytes) :
    Silent fun s : OpenFiles π => s.writeFd k fd buf := by
  rintro ⟨⟨files, calls, notices⟩, fds⟩
  simp only [writeFd, Kernel.writeFd, seen]
  cases fds.get fd with
  | none => exact ⟨rfl, rfl⟩
  | some f =>
    by_cases hfails : k.outcome calls < 0
    · simp only [hfails, ↓reduceIte]
      exact ⟨trivial, rfl⟩
    · simp only [hfails, ↓reduceIte]
      exact ⟨trivial, rfl⟩

/-- A call that the files answer, and not the descriptors. -/
def ofDisk {ρ : Type} (f : Disk π → ρ × Disk π) (s : OpenFiles π) : ρ × OpenFiles π :=
  ((f s.disk).1, { s with disk := (f s.disk).2 })

/-- `rename` prints nothing: a refusal is reported by `cmd_mv`, not by the call. -/
theorem silent_rename (oldPath newPath : Bytes) : Silent (ofDisk (k.rename oldPath newPath)) := by
  rintro ⟨⟨files, calls, notices⟩, fds⟩
  by_cases hdone : k.outcome calls = 0
  · simp only [ofDisk, Kernel.rename, seen, hdone, ↓reduceIte]
    exact ⟨trivial, rfl⟩
  · simp only [ofDisk, Kernel.rename, seen, hdone, ↓reduceIte]
    exact ⟨trivial, rfl⟩

/-- `unlink` prints nothing: a refusal is reported by `cmd_mv`, not by the call. -/
theorem silent_unlink (path : Bytes) : Silent (ofDisk (k.unlink path)) := by
  rintro ⟨⟨files, calls, notices⟩, fds⟩
  by_cases hfails : k.outcome calls < 0
  · simp only [ofDisk, Kernel.unlink, seen, hfails, ↓reduceIte]
    exact ⟨trivial, rfl⟩
  · simp only [ofDisk, Kernel.unlink, seen, hfails, ↓reduceIte]
    exact ⟨trivial, rfl⟩

/-! ### The rounds of a copy -/

section
variable {src dst n : Nat} {buf buf' : Bytes} {s' s'' : OpenFiles π}
  {hne : s.placeOf src ≠ s.placeOf dst}

/-- A round whose read fails ends the copy, with the message of `copy_loop`. -/
theorem copyRounds_error {e : Int} (hread : s.readFd k src buf = (.error e, s')) :
    s.copyRounds k src dst buf hne = (false, s'.notice (.error (bytes "cp: read error"))) := by
  rw [copyRounds]
  split
  · rename_i h
    cases hread.symm.trans h
    rfl
  · rename_i h
    cases hread.symm.trans h

/-- A round that reads nothing is the last one, and the copy has succeeded. -/
theorem copyRounds_done (hread : s.readFd k src buf = (.ok (0, buf'), s')) :
    s.copyRounds k src dst buf hne = (true, s') := by
  rw [copyRounds]
  split
  · rename_i h
    cases hread.symm.trans h
  · rename_i h
    cases hread.symm.trans h
    exact dif_pos rfl

/-- A round whose chunk is not written in full ends the copy: `write_loop` has printed why. -/
theorem copyRounds_failed (hread : s.readFd k src buf = (.ok (n, buf'), s')) (hn : n ≠ 0)
    (hwrite : s'.writeLoop k dst buf' n 0 = (false, s'')) :
    s.copyRounds k src dst buf hne = (false, s'') := by
  rw [copyRounds]
  split
  · rename_i h
    cases hread.symm.trans h
  · rename_i h
    cases hread.symm.trans h
    rw [dif_neg hn]
    split
    · rename_i h'
      cases hwrite.symm.trans h'
      rfl
    · rename_i h'
      cases hwrite.symm.trans h'

/-- A round that has read and written a chunk goes on, with what is then in the buffer. With the
three lemmas above, every round of a copy is one of these. -/
theorem copyRounds_next (hread : s.readFd k src buf = (.ok (n, buf'), s')) (hn : n ≠ 0)
    (hwrite : s'.writeLoop k dst buf' n 0 = (true, s'')) :
    s.copyRounds k src dst buf hne
      = s''.copyRounds k src dst buf' (placeOf_ne_step k hread hwrite hne) := by
  rw [copyRounds]
  split
  · rename_i h
    cases hread.symm.trans h
  · rename_i h
    cases hread.symm.trans h
    rw [dif_neg hn]
    split
    · rename_i h'
      cases hwrite.symm.trans h'
    · rename_i h'
      cases hwrite.symm.trans h'
      rfl

end

end

end OpenFiles

namespace Process

open OpenFiles (Silent silent_sysOpen silent_readFd silent_create silent_writeFd)
open Routine (twp twp_bind twp_pure twp_mono)

variable {π ρ : Type} [DecidableEq π] {k : Kernel π} {cwd : Bytes} {g : Globals} {s : OpenFiles π}

/-- The terminal of the disk: a `write` to it is always allowed, and its text joins the output. -/
theorem writes_disk : Writes (disk k cwd) Storage.print where
  allows _ _ := trivial
  answered _ _ := ⟨⟨0, []⟩, trivial⟩
  next _ _ _ := rfl
  append v b b' := by simp only [Storage.print, List.append_assoc]

/-- The disk answers `getcwd` with one directory throughout, which is all that resolving a path
needs. -/
theorem locates_disk (h : AbsolutePath cwd) : Locates (disk k cwd) cwd where
  cwd_abs := h
  allows _ := trivial
  admits _ _ ha := ha
  next _ _ := rfl

/-! ### Notices -/

section
variable {Q : Unit → Globals → Storage π → Prop}

/-- A text written as it is, as the notice the pure model gives. -/
theorem twp_raw (text : Bytes) :
    twp (disk k cwd) (writeRaw text) Q g s.seen ↔ Q () g (s.notice (.raw text)).seen := by
  rw [writes_disk.twp_writeRaw, OpenFiles.seen_notice]
  rfl

/-- An error message, as the notice the pure model gives. -/
theorem twp_error (msg : Bytes) :
    twp (disk k cwd) (writeError msg) Q g s.seen ↔ Q () g (s.notice (.error msg)).seen := by
  rw [writes_disk.twp_writeError, OpenFiles.seen_notice]
  rfl

/-- An error message with the number of a failed call, as the notice the pure model gives. -/
theorem twp_errno (msg : Bytes) (ret : Int) :
    twp (disk k cwd) (writeErrorErrno msg ret) Q g s.seen ↔
      Q () g (s.notice (.errno msg ret)).seen := by
  rw [writes_disk.twp_writeErrorErrno, OpenFiles.seen_notice]
  rfl

end

/-! ### The calls -/

/-- A call with a function on the files. -/
theorem twp_call (c : SysCall) {f : OpenFiles π → ρ × OpenFiles π} (P : Answer → ρ → Prop)
    (hf : Silent f) (hallows : (disk k cwd).allows s.seen c)
    (hadmits : ∀ (v : Storage π) a, v.Admits k cwd c a → P a (f v.store).1)
    (hnext : ∀ (v : Storage π) a, v.next k c a = { v with store := (f v.store).2 })
    {Q : Answer → Globals → Storage π → Prop} (hQ : ∀ a, P a (f s).1 → Q a g (f s).2.seen) :
    twp (disk k cwd) (sys c) Q g s.seen := by
  refine ⟨hallows, ?_⟩
  intro a ha
  have hanswer := hadmits _ a ha
  rw [(hf s).1] at hanswer
  show Q a g (s.seen.next k c a)
  rw [hnext, (hf s).2]
  exact hQ a hanswer

/-- An open for reading. The command sees the descriptor, or the negative number, that the pure
model gives. -/
theorem twp_open (path : Bytes) {Q : Answer → Globals → Storage π → Prop}
    (hQ : ∀ a, Results (fun fd : Nat => a.ret = (fd : Int)) a (s.sysOpen k.reading path).1 →
      Q a g (s.sysOpen k.reading path).2.seen) :
    twp (disk k cwd) (sys (.sysOpen (cString path) O_RDONLY)) Q g s.seen :=
  twp_call (.sysOpen (cString path) O_RDONLY)
    (fun a r => Results (fun fd : Nat => a.ret = (fd : Int)) a r) (silent_sysOpen (cString path)) rfl
    (fun _ _ ha => ha) (fun _ _ => rfl) hQ

/-- A create. As with `twp_open`, the result is the pure model's. -/
theorem twp_create (path : Bytes) {Q : Answer → Globals → Storage π → Prop}
    (hQ : ∀ a, Results (fun fd : Nat => a.ret = (fd : Int)) a (s.create k.reading path).1 →
      Q a g (s.create k.reading path).2.seen) :
    twp (disk k cwd) (sys (.create (cString path))) Q g s.seen :=
  twp_call (.create (cString path)) (fun a r => Results (fun fd : Nat => a.ret = (fd : Int)) a r)
    (silent_create (cString path)) trivial (fun _ _ ha => ha) (fun _ _ => rfl) hQ

/-- A write to a file: how much of the buffer is taken is the kernel's choice, and both sides see
the same. -/
theorem twp_writeFd (fd : Nat) (buf : Bytes) {Q : Answer → Globals → Storage π → Prop}
    (hQ : ∀ a, a.ret = (s.writeFd k.reading fd buf).1 → Q a g (s.writeFd k.reading fd buf).2.seen) :
    twp (disk k cwd) (sys (.writeFd fd buf)) Q g s.seen :=
  twp_call (.writeFd fd buf) (fun a r => a.ret = r) (silent_writeFd fd buf) trivial (fun _ _ ha => ha)
    (fun _ _ => rfl) hQ

/-- A close, whose result the commands ignore. -/
theorem twp_close (fd : Nat) {Q : Answer → Globals → Storage π → Prop}
    (hQ : ∀ a, Q a g (s.close fd).seen) : twp (disk k cwd) (sys (.close fd)) Q g s.seen :=
  ⟨trivial, fun a _ => hQ a⟩

/-- A read into a buffer. -/
theorem twp_read {fd : Nat} {buf : Bytes} (hbuf : buf.length = BUF_LEN)
    {Q : Answer → Globals → Storage π → Prop}
    (herror : ∀ e s' a, s.readFd k.reading fd buf = (.error e, s') → a.ret = e → Q a g s'.seen)
    (hok : ∀ n s' a, s.readFd k.reading fd buf = (.ok (n, a.into buf), s') → a.ret = (n : Int) →
      n ≤ BUF_LEN → Q a g s'.seen) :
    twp (disk k cwd) (sys (.read fd BUF_LEN)) Q g s.seen := by
  refine twp_call (.read fd BUF_LEN) (fun a r => Results (fun r : Nat × Bytes =>
    a.ret = (r.1 : Int) ∧ a.out = r.2.take r.1) a r) (silent_readFd fd (zeros BUF_LEN)) trivial
    (fun _ _ ha => ha) (fun _ _ => rfl) ?_
  intro a hanswer
  -- What the kernel delivers does not depend on what the buffer had before.
  have hzeros : s.readFd k fd (zeros BUF_LEN) = _ := hbuf ▸ s.readFd_zeros fd buf
  rw [hzeros] at hanswer ⊢
  cases hread : s.readFd k fd buf with
  | mk r s' =>
    rw [hread] at hanswer
    cases r with
    | error e => exact herror e s' a hread hanswer
    | ok r =>
      rcases r with ⟨n, buf'⟩
      rcases OpenFiles.readFd_ok k hread with ⟨f, chunk, -, hchunk, rfl, rfl, -⟩
      have hle : chunk.length ≤ BUF_LEN := by
        rw [← hbuf]
        exact Kernel.length_readFd_le_len hchunk
      rcases hanswer with ⟨hret, hout⟩
      have hout' : a.out = chunk := by
        rw [hout, List.take_left, List.take_left]
      have hinto : a.into buf = chunk ++ buf.drop chunk.length := by
        rw [Answer.into, hout', hbuf, List.take_of_length_le hle]
      refine hok chunk.length s' a ?_ hret hle
      rw [hinto]
      exact hread

/-! ### `copy_loop` -/

/-- `write_loop` puts a chunk into the file in as many writes as the kernel makes of it. The
measure is what is left of the chunk, and each write that succeeds takes at least one byte. -/
theorem twp_writeLoop {turns fd n : Nat} {buf : Bytes} (hn : n ≤ buf.length) (hturns : n < turns)
    {Q : Bool → Globals → Storage π → Prop}
    (hQ : Q (s.writeLoop k.reading fd buf n 0).1 g (s.writeLoop k.reading fd buf n 0).2.seen) :
    twp (disk k cwd) (writeLoop turns fd buf n) Q g s.seen := by
  refine Routine.twp_loop (fun written g' v => g' = g ∧ ∃ s₁ : OpenFiles π, v = s₁.seen ∧
    s₁.writeLoop k.reading fd buf n written = s.writeLoop k.reading fd buf n 0)
    (fun written _ _ => n - written) ?_ ⟨rfl, s, rfl, rfl⟩ hturns
  -- A short write is followed by another, from where it has stopped.
  rintro written _ _ ⟨rfl, s₁, rfl, hloop⟩
  rw [← hloop] at hQ
  rw [OpenFiles.writeLoop.eq_def k.reading fd buf n written s₁] at hloop hQ
  by_cases hlt : written < n
  · rw [if_pos hlt] at hloop hQ
    have hin : ¬ written > buf.length := by omega
    rw [if_pos hlt, if_neg hin, twp_bind]
    refine twp_writeFd fd _ ?_
    intro a hret
    cases hwrite : s₁.writeFd k.reading fd ((buf.drop written).take (n - written)) with
    | mk w s₂ =>
    rw [hwrite] at hret hloop hQ
    obtain rfl : a.ret = w := hret
    dsimp only at hloop hQ
    by_cases hle : a.ret ≤ 0
    · rw [if_pos hle] at hQ
      rw [if_pos hle, twp_bind, twp_error, twp_pure]
      exact hQ
    · rw [if_neg hle] at hloop
      rw [if_neg hle, twp_pure]
      refine ⟨⟨rfl, _, rfl, hloop⟩, ?_⟩
      omega
  · rw [if_neg hlt] at hQ ⊢
    exact hQ

/-- `copy_loop` does the rounds of the pure model. The measure is what the source still has, which
falls with each round because the two descriptors are at different files. -/
theorem twp_copyLoop {turns src dst : Nat} (hne : s.placeOf src ≠ s.placeOf dst)
    (hleft : s.left src < turns) (hturns : BUF_LEN < turns) {Q : Bool → Globals → Storage π → Prop}
    (hQ : Q (s.copyLoop k.reading src dst hne).1 g (s.copyLoop k.reading src dst hne).2.seen) :
    twp (disk k cwd) (copyLoop turns src dst) Q g s.seen := by
  refine Routine.twp_loop (fun buf g' v => g' = g ∧ buf.length = BUF_LEN ∧
    ∃ (s₁ : OpenFiles π) (hne₁ : s₁.placeOf src ≠ s₁.placeOf dst), v = s₁.seen ∧
      s₁.copyRounds k.reading src dst buf hne₁ = s.copyLoop k.reading src dst hne)
    (fun _ _ v => v.store.left src) ?_ ⟨rfl, length_zeros _, s, hne, rfl, rfl⟩ hleft
  -- The invariant: the rounds that are left come to what the whole loop comes to.
  rintro buf _ _ ⟨rfl, hbuf, s₁, hne₁, rfl, hround⟩
  rw [twp_bind]
  refine twp_read hbuf ?_ ?_
  · intro e s' a hread hret
    have hneg := OpenFiles.neg_of_readFd hread
    rw [if_pos (by omega), twp_bind, twp_error, twp_pure]
    rw [← hround, OpenFiles.copyRounds_error hread] at hQ
    exact hQ
  · intro n s' a hread hret hle
    rw [if_neg (by omega)]
    by_cases hn : n = 0
    · -- The end of the source.
      subst hn
      have hzero : a.ret = 0 := hret
      rw [if_pos hzero, twp_pure]
      rw [← hround, OpenFiles.copyRounds_done hread] at hQ
      exact hQ
    · have hzero : ¬ a.ret = 0 := by omega
      rw [if_neg hzero, twp_bind, hret, Int.toNat_natCast]
      have hinto : (a.into buf).length = BUF_LEN := (a.length_into buf).trans hbuf
      refine twp_writeLoop (hinto.symm ▸ hle) (by omega) ?_
      cases hwrite : s'.writeLoop k.reading dst (a.into buf) n 0 with
      | mk ok s'' =>
        cases ok with
        | false =>
          rw [← hround, OpenFiles.copyRounds_failed hread hn hwrite] at hQ
          exact hQ
        | true =>
          -- The chunk is written, and the source has less to read.
          rw [OpenFiles.copyRounds_next hread hn hwrite] at hround
          refine ⟨⟨rfl, hinto, s'', _, rfl, hround⟩, ?_⟩
          have hstep := OpenFiles.left_step k.reading hread hwrite hne₁
          show s''.left src < s₁.left src
          omega

/-! ### The commands -/

/-- The loops of a copy have turns for each of the files. A round of a copy moves one byte at
least, so that the length of the longest file bounds the rounds. -/
def Fits (turns : Nat) (d : Disk π) : Prop :=
  BUF_LEN < turns ∧ ∀ p, ((d.files p).getD []).length < turns

/-- The source of a copy is as long as its file. -/
theorem left_of_open_create {turns : Nat} {src dst : Bytes} {s₁ s₂ : OpenFiles π} {srcFd dstFd : Nat}
    (hfits : Fits turns s.disk) (hopen : s.sysOpen k src = (.ok srcFd, s₁))
    (hcreate : s₁.create k dst = (.ok dstFd, s₂)) : s₂.left srcFd < turns := by
  rcases OpenFiles.sysOpen_ok hopen with ⟨p, hread, rfl, hfds₁⟩
  rcases OpenFiles.create_ok hcreate with ⟨q, hmade, rfl, hfds₂⟩
  rcases k.create_ok hmade with ⟨-, -, hfiles⟩
  have hget : s₂.fds.get s.fds.lowestFree = some ⟨p, 0⟩ :=
    (congrArg (·.get s.fds.lowestFree) (hfds₁ ▸ hfds₂)).trans (FdTable.get_alloc_alloc _ _ _)
  rw [OpenFiles.left, hget]
  show ((s₂.disk.files p).getD []).length - 0 < turns
  rw [hfiles, k.files_openRead hread]
  dsimp only
  split
  · exact Nat.zero_lt_of_lt hfits.1
  · exact hfits.2 p

/-- The copy behind the two paths. -/
theorem twp_copyFile {turns : Nat} {srcIn dstIn srcAbs dstAbs : Bytes} {args : List Bytes}
    (hfits : Fits turns s.disk) (hsrc : OnyxShell.resolve (some cwd) srcIn = some srcAbs)
    (hdst : OnyxShell.resolve (some cwd) dstIn = some dstAbs)
    {Q : Bool → Globals → Storage π → Prop}
    (hQ : Q (s.cmdCp k.reading (some cwd) (srcIn :: dstIn :: args)).1 g
      (s.cmdCp k.reading (some cwd) (srcIn :: dstIn :: args)).2.seen) :
    twp (disk k cwd) (copyFile turns srcAbs dstAbs) Q g s.seen := by
  simp only [OpenFiles.cmdCp, hsrc, hdst] at hQ
  rw [copyFile, twp_bind]
  refine twp_open srcAbs ?_
  intro a ha
  split at hQ
  · -- The source cannot be opened.
    rename_i ret s₁ hopen
    rw [hopen] at ha ⊢
    obtain rfl : a.ret = ret := ha
    have hneg := Kernel.neg_of_openRead (OpenFiles.sysOpen_error hopen).1
    rw [if_pos hneg, twp_bind, twp_errno, twp_pure]
    exact hQ
  · rename_i srcFd s₁ hopen
    rw [hopen] at ha ⊢
    have hret : a.ret = (srcFd : Int) := ha
    rw [if_neg (by omega), twp_bind]
    refine twp_create dstAbs ?_
    intro b hb
    split at hQ
    · -- The destination cannot be made, and the source is closed again.
      rename_i ret s₂ hcreate
      rw [hcreate] at hb ⊢
      obtain rfl : b.ret = ret := hb
      have hneg := Kernel.neg_of_create (OpenFiles.create_error hcreate).1
      rw [if_pos hneg, twp_bind, twp_errno, twp_bind, hret]
      refine twp_close _ ?_
      intro _
      exact hQ
    · rename_i dstFd s₂ hcreate
      rw [hcreate] at hb ⊢
      have hret' : b.ret = (dstFd : Int) := hb
      rw [if_neg (by omega), twp_bind, hret, hret', Int.toNat_natCast, Int.toNat_natCast]
      refine twp_copyLoop (OpenFiles.placeOf_ne_of_open_create k.reading hopen hcreate)
        (left_of_open_create hfits hopen hcreate) hfits.1 ?_
      -- Whether the copy has failed or not, both descriptors are closed.
      rw [twp_bind]
      refine twp_close _ ?_
      intro _
      rw [twp_bind]
      refine twp_close _ ?_
      intro _
      exact hQ

/-- `cmd_cp` and the pure `cmdCp` open the same files, copy the same bytes and print the same, for
a budget that is enough for the longest file. -/
theorem twp_cmdCp {turns : Nat} (hcwd : AbsolutePath cwd) (args : List Bytes)
    (hfits : Fits turns s.disk) {Q : Bool → Globals → Storage π → Prop}
    (hQ : Q (s.cmdCp k.reading (some cwd) args).1 g (s.cmdCp k.reading (some cwd) args).2.seen) :
    twp (disk k cwd) (cmdCp turns args) Q g s.seen := by
  rcases args with _ | ⟨srcIn, _ | ⟨dstIn, args⟩⟩
  · show twp _ (writeError _ >>= fun _ => pure false) Q g s.seen
    rw [twp_bind, twp_error]
    exact hQ
  · show twp _ (writeError _ >>= fun _ => pure false) Q g s.seen
    rw [twp_bind, twp_error]
    exact hQ
  rw [cmdCp, twp_bind]
  refine (locates_disk hcwd).twp_resolve srcIn ?_
  rw [twp_bind]
  refine (locates_disk hcwd).twp_resolve dstIn ?_
  cases hsrc : OnyxShell.resolve (some cwd) srcIn with
  | none =>
    simp only [OpenFiles.cmdCp, hsrc] at hQ
    simp only [twp_bind, twp_error, twp_pure]
    exact hQ
  | some srcAbs =>
    cases hdst : OnyxShell.resolve (some cwd) dstIn with
    | none =>
      simp only [OpenFiles.cmdCp, hsrc, hdst] at hQ
      simp only [twp_bind, twp_error, twp_pure]
      exact hQ
    | some dstAbs => exact twp_copyFile hfits hsrc hdst hQ

/-- The second half of `cmd_mv`: copy, then remove the source only if the copy has succeeded. -/
theorem twp_moveByCopy {turns : Nat} {args : List Bytes} {srcAbs : Bytes} (s : OpenFiles π)
    (hcwd : AbsolutePath cwd) (hfits : Fits turns s.disk) {Q : Unit → Globals → Storage π → Prop}
    (hQ : ∀ s' : OpenFiles π, s'.disk = k.reading.moveByCopy (some cwd) args srcAbs s.disk →
      (∀ fd, s'.fds.get fd = s.fds.get fd) → Q () g s'.seen) :
    twp (disk k cwd) (moveByCopy turns args srcAbs) Q g s.seen := by
  rw [moveByCopy, twp_bind, twp_raw, twp_bind]
  generalize hraw :
    s.notice (.raw (bytes "osh: mv: rename failed, falling back to copy+remove\n")) = s₁
  have hdisk₁ : s₁.disk = s.disk.notice
      (.raw (bytes "osh: mv: rename failed, falling back to copy+remove\n")) := by
    rw [← hraw]
    rfl
  have hfds₁ : s₁.fds = s.fds := by
    rw [← hraw]
    rfl
  have hfits₁ : Fits turns s₁.disk := by
    rw [hdisk₁]
    exact hfits
  refine twp_cmdCp hcwd args hfits₁ ?_
  -- The copy over descriptors is the copy over places, and gives every descriptor back.
  rcases @OpenFiles.cmdCp_refines π k.reading _ (some cwd) args s₁ with ⟨hcp, hfds⟩
  generalize s₁.cmdCp k.reading (some cwd) args = r at hcp hfds ⊢
  rcases r with ⟨ok, s₂⟩
  rw [hfds₁] at hfds
  rw [hdisk₁] at hcp
  rw [Kernel.moveByCopy, hcp] at hQ
  cases ok with
  | false => exact (twp_error _).mpr (hQ _ rfl hfds)
  | true =>
    show twp _ (sys (.unlink (cString srcAbs)) >>= _) Q g s₂.seen
    rw [twp_bind]
    refine twp_call (.unlink (cString srcAbs)) (fun a r => a.ret = r)
      (OpenFiles.silent_unlink (cString srcAbs)) trivial (fun _ _ ha => ha) (fun _ _ => rfl) ?_
    intro a hret
    have hunlink : (k.reading.unlink srcAbs s₂.disk).1 = a.ret := hret.symm
    simp only [if_true, hunlink] at hQ
    by_cases hneg : a.ret < 0
    · rw [if_pos hneg] at hQ ⊢
      exact (twp_errno _ _).mpr (hQ _ rfl hfds)
    · rw [if_neg hneg] at hQ ⊢
      exact hQ _ rfl hfds

/-- What `mv` leaves behind: the files that the model says, and the descriptors of before. -/
def Moved (k : Kernel π) (cwd : Bytes) (args : List Bytes) (s s' : OpenFiles π) : Prop :=
  s'.disk = k.reading.cmdMv (some cwd) args s.disk ∧ ∀ fd, s'.fds.get fd = s.fds.get fd

/-- Nothing but the disk is another one. -/
theorem moved_of_disk {args : List Bytes} {d : Disk π}
    (h : k.reading.cmdMv (some cwd) args s.disk = d) : Moved k cwd args s { s with disk := d } :=
  ⟨h.symm, fun _ => rfl⟩

/-- `cmd_mv` by the result of its `rename`: a success is the whole command, a failure goes on to
the copy. -/
theorem twp_cmdMv {turns : Nat} (hcwd : AbsolutePath cwd) (args : List Bytes)
    (hfits : Fits turns s.disk) {Q : Unit → Globals → Storage π → Prop}
    (hQ : ∀ s', Moved k cwd args s s' → Q () g s'.seen) :
    twp (disk k cwd) (cmdMv turns args) Q g s.seen := by
  rcases args with _ | ⟨srcIn, _ | ⟨dstIn, args⟩⟩
  · exact (twp_error _).mpr (hQ _ (moved_of_disk rfl))
  · exact (twp_error _).mpr (hQ _ (moved_of_disk rfl))
  rw [cmdMv, twp_bind]
  refine (locates_disk hcwd).twp_resolve srcIn ?_
  rw [twp_bind]
  refine (locates_disk hcwd).twp_resolve dstIn ?_
  cases hsrc : OnyxShell.resolve (some cwd) srcIn with
  | none =>
    refine (twp_error _).mpr (hQ _ (moved_of_disk ?_))
    simp only [Kernel.cmdMv, hsrc]
  | some srcAbs =>
    cases hdst : OnyxShell.resolve (some cwd) dstIn with
    | none =>
      refine (twp_error _).mpr (hQ _ (moved_of_disk ?_))
      simp only [Kernel.cmdMv, hsrc, hdst]
    | some dstAbs =>
      rw [twp_bind]
      refine twp_call (.rename (cString srcAbs) (cString dstAbs)) (fun a r => a.ret = r)
        (OpenFiles.silent_rename (cString srcAbs) (cString dstAbs)) trivial (fun _ _ ha => ha)
        (fun _ _ => rfl) ?_
      intro a hret
      have hrename : (k.reading.rename srcAbs dstAbs s.disk).1 = a.ret := hret.symm
      have hmv : ∀ d, (if a.ret = 0 then (k.reading.rename srcAbs dstAbs s.disk).2
          else k.reading.moveByCopy (some cwd) (srcIn :: dstIn :: args) srcAbs
            (k.reading.rename srcAbs dstAbs s.disk).2) = d →
          k.reading.cmdMv (some cwd) (srcIn :: dstIn :: args) s.disk = d := by
        rintro _ rfl
        simp only [Kernel.cmdMv, hsrc, hdst, hrename]
        rfl
      by_cases hzero : a.ret = 0
      · rw [if_pos hzero, twp_pure]
        exact hQ _ (moved_of_disk (hmv _ (if_pos hzero)))
      · -- A rename that is refused has changed no file, so the loops still have their turns.
        rw [if_neg hzero]
        have hfiles : (k.reading.rename srcAbs dstAbs s.disk).2.files = s.disk.files :=
          Kernel.files_rename_failed (hrename ▸ hzero)
        have hfits' : Fits turns (k.reading.rename srcAbs dstAbs s.disk).2 :=
          ⟨hfits.1, fun p => hfiles ▸ hfits.2 p⟩
        refine twp_moveByCopy (OpenFiles.ofDisk (k.rename (cString srcAbs) (cString dstAbs)) s).2
          hcwd hfits' ?_
        intro s' hdisk hfds
        exact hQ s' ⟨hdisk.trans (hmv _ (if_neg hzero)).symm, hfds⟩

/-! ### Runs -/

section
variable {turns : Nat} {args : List Bytes} {events : List (Prog.Event SysCall Answer)}

/-- What the monitor allows: each `open` of a run is for reading. -/
theorem readOnly_of_allowed {v : Storage π} (h : (disk k cwd).Allowed v events)
    {path : Bytes} {flags : Nat} {a : Answer}
    (hmem : ((.sysOpen path flags, a) : Prog.Event SysCall Answer) ∈ events) : flags = O_RDONLY := by
  induction events generalizing v with
  | nil => cases hmem
  | cons e events ih =>
    rcases List.mem_cons.mp hmem with rfl | hrest
    · exact h.1
    · exact ih h.2 hrest

/-- **`cp` refines its model.** Each run has a next call or has returned, and then the files, the
descriptors, the result and the messages are those of `OpenFiles.cmdCp`. On the way no file is
opened but for reading. -/
theorem cp_refines {q : Prog SysCall Answer (Bool × Globals)} (hcwd : AbsolutePath cwd)
    (hfits : Fits turns s.disk) (htrace : Prog.Trace (cmdCp turns args g) events q)
    (hanswered : (disk k cwd).Answered s.seen events) :
    (∀ path flags a, (.sysOpen path flags, a) ∈ events → flags = O_RDONLY) ∧
      ((∃ c, q.nextCall = some c) ∨
        q = .ret ((s.cmdCp k.reading (some cwd) args).1, g) ∧
          (disk k cwd).after s.seen events = (s.cmdCp k.reading (some cwd) args).2.seen) := by
  have htwp : twp (disk k cwd) (cmdCp turns args) (fun ok g' v =>
      (ok, g') = ((s.cmdCp k.reading (some cwd) args).1, g) ∧
        v = (s.cmdCp k.reading (some cwd) args).2.seen) g s.seen :=
    twp_cmdCp hcwd args hfits ⟨rfl, rfl⟩
  have hallowed := (Prog.twp_of_trace htrace htwp hanswered).1
  refine ⟨fun _ _ _ hmem => readOnly_of_allowed hallowed hmem, ?_⟩
  rcases Prog.twp_run htrace htwp hanswered not_false with hcall | ⟨r, hret, hr, hafter⟩
  · exact Or.inl hcall
  · exact Or.inr ⟨hret.trans (congrArg Prog.ret hr), hafter⟩

/-- **`mv` refines its model**, with the copy that it falls back to. A `rename` that is refused is
followed by a message, by `cp` on the same operands and, if that succeeds, by an `unlink`. The
fuel has to cover the longest file, as for `cp`. -/
theorem mv_refines {q : Prog SysCall Answer (Unit × Globals)} (hcwd : AbsolutePath cwd)
    (hfits : Fits turns s.disk) (htrace : Prog.Trace (cmdMv turns args g) events q)
    (hanswered : (disk k cwd).Answered s.seen events) :
    (∃ c, q.nextCall = some c) ∨
      q = .ret ((), g) ∧ ∃ s' : OpenFiles π, (disk k cwd).after s.seen events = s'.seen ∧
        s'.disk = k.reading.cmdMv (some cwd) args s.disk ∧ ∀ fd, s'.fds.get fd = s.fds.get fd := by
  have htwp : twp (disk k cwd) (cmdMv turns args) (fun _ g' v =>
      g' = g ∧ ∃ s', v = s'.seen ∧ Moved k cwd args s s') g s.seen :=
    twp_cmdMv hcwd args hfits fun s' hmoved => ⟨rfl, s', rfl, hmoved⟩
  rcases Prog.twp_run htrace htwp hanswered not_false with hcall | ⟨_, hret, rfl, hmoved⟩
  · exact Or.inl hcall
  · exact Or.inr ⟨hret, hmoved⟩

end

/-- A file `/a`. -/
def oneFile : OpenFiles Bytes where
  disk := ⟨fun p => if p = bytes "/a" then some (bytes "hi!") else none, 0, []⟩
  fds := ⟨[some ⟨bytes "tty", 0⟩, some ⟨bytes "tty", 0⟩, some ⟨bytes "tty", 0⟩]⟩

/-- A budget that is enough for the one short file of the two runs below. -/
theorem fits_oneFile : Fits 600 oneFile.disk := by
  refine ⟨by decide, fun p => ?_⟩
  show ((if p = bytes "/a" then some (bytes "hi!") else none).getD []).length < 600
  split
  · decide
  · decide

/-- The read comes in one piece, and the write in two. -/
def shortWrites : Kernel Bytes := ⟨id, fun n => if n = 2 then 3 else 2⟩

/-- `cp a /b` in `/`. -/
def copyEvents : List (Prog.Event SysCall Answer) :=
  [(.getcwd PATH_MAX, ⟨1, bytes "/"⟩), (.sysOpen (bytes "/a") O_RDONLY, ⟨3, []⟩),
    (.create (bytes "/b"), ⟨4, []⟩), (.read 3 BUF_LEN, ⟨3, bytes "hi!"⟩),
    (.writeFd 4 (bytes "hi!"), ⟨2, []⟩), (.writeFd 4 (bytes "!"), ⟨1, []⟩),
    (.read 3 BUF_LEN, ⟨0, []⟩), (.close 4, ⟨0, []⟩), (.close 3, ⟨0, []⟩)]

/-- With a kernel that cuts each write short, the copy of `a` to `/b` has all of its bytes. -/
theorem cp_refines_short :
    (oneFile.cmdCp shortWrites.reading (some (bytes "/")) [bytes "a", bytes "/b"]).2.disk.files
      (bytes "/b") = some (bytes "hi!") := by
  have htrace : ∃ r, Prog.Trace (cmdCp 600 [bytes "a", bytes "/b"] Globals.init) copyEvents (.ret r) :=
    Prog.exists_trace_ret (by decide +kernel)
  rcases htrace with ⟨r, htrace⟩
  have hcwd : AbsolutePath (bytes "/") := ⟨rfl, by decide⟩
  have hanswered : (disk shortWrites (bytes "/")).Answered oneFile.seen copyEvents := by
    decide +kernel
  rcases (cp_refines hcwd fits_oneFile htrace hanswered).2 with ⟨c, hcall⟩ | ⟨-, hafter⟩
  · cases hcall
  · have hfiles := congrArg (fun v : Storage Bytes => v.store.disk.files (bytes "/b")) hafter
    refine hfiles.symm.trans ?_
    decide +kernel

/-- The `rename` fails. -/
def noRename : Kernel Bytes := ⟨id, fun n => if n = 0 then -5 else 2⟩

/-- `mv /a /b` in two pieces. -/
def moveEvents : List (Prog.Event SysCall Answer) :=
  [(.rename (bytes "/a") (bytes "/b"), ⟨-5, []⟩),
    (.write 1 (bytes "osh: mv: rename failed, falling back to copy+remove\n"), ⟨0, []⟩),
    (.sysOpen (bytes "/a") O_RDONLY, ⟨3, []⟩), (.create (bytes "/b"), ⟨4, []⟩),
    (.read 3 BUF_LEN, ⟨2, bytes "hi"⟩), (.writeFd 4 (bytes "hi"), ⟨2, []⟩),
    (.read 3 BUF_LEN, ⟨1, bytes "!"⟩), (.writeFd 4 (bytes "!"), ⟨1, []⟩),
    (.read 3 BUF_LEN, ⟨0, []⟩), (.close 4, ⟨0, []⟩), (.close 3, ⟨0, []⟩),
    (.unlink (bytes "/a"), ⟨2, []⟩)]

/-- Where `rename` is refused, the file is moved all the same: its bytes are at the target, and
the source is gone. -/
theorem mv_refines_copied :
    (noRename.reading.cmdMv (some (bytes "/")) [bytes "/a", bytes "/b"] oneFile.disk).files
        (bytes "/a") = none ∧
      (noRename.reading.cmdMv (some (bytes "/")) [bytes "/a", bytes "/b"] oneFile.disk).files
        (bytes "/b") = some (bytes "hi!") := by
  have htrace : ∃ r, Prog.Trace (cmdMv 600 [bytes "/a", bytes "/b"] Globals.init) moveEvents
      (.ret r) := Prog.exists_trace_ret (by decide +kernel)
  rcases htrace with ⟨r, htrace⟩
  have hanswered : (disk noRename (bytes "/")).Answered oneFile.seen moveEvents := by
    decide +kernel
  rcases mv_refines ⟨rfl, by decide⟩ fits_oneFile htrace hanswered with
    ⟨c, hcall⟩ | ⟨-, s', hafter, hdisk, -⟩
  · cases hcall
  · have hfiles : s'.disk.files = ((disk noRename (bytes "/")).after oneFile.seen
        moveEvents).store.disk.files := by
      rw [hafter]
      rfl
    rw [← hdisk, hfiles]
    decide +kernel

end Process

end OnyxShell
