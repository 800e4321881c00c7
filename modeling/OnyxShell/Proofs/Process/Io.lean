import OnyxShell.Process.Conduct
import OnyxShell.Proofs.Numbers
import OnyxShell.Proofs.PathNormal

/-!
# `OnyxShell.Proofs.Process.Io`: printing and resolving under the conduct

What a function needs so that its calls are proper and `Q` holds where it returns. Printing needs
nothing but `Q`, with everything as it was (`wp_writeRaw` and the like), and `resolve` gives a path
in its normal form.

The policy is any that has nothing against harmless calls.
-/

set_option autoImplicit false

namespace OnyxShell.Process

open Routine (wp wp_bind wp_mono wp_pure)

/-- A call that changes no file and starts no process. -/
def SysCall.Harmless : SysCall → Prop
  | .sysOpen _ flags => flags = O_RDONLY
  | .writeFd _ _ => False
  | .create _ => False
  | .mkdir _ => False
  | .unlink _ => False
  | .rename _ _ => False
  | .pipe => False
  | .dup _ => False
  | .fork => False
  | .kill _ _ => False
  | .execve _ _ _ => False
  | .spawn _ _ => False
  | _ => True

/-- A policy that has nothing against harmless calls. -/
def Policy.Lenient (policy : Policy) : Prop := ∀ c, c.Harmless → policy c

/-- The policy that allows every call. -/
theorem Policy.all_all : ∀ c, Policy.all c := fun _ => trivial

/-- The policy that allows every call allows the harmless ones. -/
theorem Policy.lenient_all : Policy.all.Lenient := fun _ _ => trivial

/-- The policy that allows the harmless calls, and nothing else. -/
theorem Policy.lenient_harmless : Policy.Lenient SysCall.Harmless := fun _ h => h

/-- A call that a process may always make, and that changes nothing that is known of it. The three
fields are what `twp` and `wp` ask of a call, so that a call is dealt with by naming its lemma. -/
structure SysCall.Quiet (c : SysCall) : Prop where
  harmless : c.Harmless
  proper : ∀ s : Proc, s.Proper c
  next : ∀ (s : Proc) (a : Answer), s.next c a = s

/-- Output changes no descriptor and no child. The lemmas below say so of the other calls that
only ask. -/
theorem quiet_write (b : Bytes) : (SysCall.write 1 b).Quiet :=
  ⟨trivial, fun _ => trivial, fun _ _ => rfl⟩

/-- Asking for the working directory. -/
theorem quiet_getcwd (len : Nat) : (SysCall.getcwd len).Quiet :=
  ⟨trivial, fun _ => trivial, fun _ _ => rfl⟩

/-- Asking for an entry of a directory. -/
theorem quiet_readdir (path : Bytes) (len : Nat) : (SysCall.readdir path len).Quiet :=
  ⟨trivial, fun _ => trivial, fun _ _ => rfl⟩

/-- Setting the terminal's mode. -/
theorem quiet_ioctl (fd request arg : Nat) : (SysCall.ioctl fd request arg).Quiet :=
  ⟨trivial, fun _ => trivial, fun _ _ => rfl⟩

/-- Asking for the user. -/
theorem quiet_getuid : SysCall.getuid.Quiet := ⟨trivial, fun _ => trivial, fun _ _ => rfl⟩

/-- Asking for the privilege ring. -/
theorem quiet_getring : SysCall.getring.Quiet := ⟨trivial, fun _ => trivial, fun _ _ => rfl⟩

/-- Asking for the system's name. -/
theorem quiet_uname : SysCall.uname.Quiet := ⟨trivial, fun _ => trivial, fun _ _ => rfl⟩

/-- Asking for the time. -/
theorem quiet_clockGettime (clk : Nat) : (SysCall.clockGettime clk).Quiet :=
  ⟨trivial, fun _ => trivial, fun _ _ => rfl⟩

/-- Giving up the processor for a turn. -/
theorem quiet_yieldCpu : SysCall.yieldCpu.Quiet := ⟨trivial, fun _ => trivial, fun _ _ => rfl⟩

/-- `wait` for any child: which one has ended is the kernel's choice, and the set of children that
the invariant speaks of stays. -/
theorem quiet_wait : SysCall.wait.Quiet := ⟨trivial, fun _ => trivial, fun _ _ => rfl⟩

/-- A `waitpid` that does not wait. -/
theorem quiet_waitpid (pid : Nat) : (SysCall.waitpid pid WNOHANG).Quiet :=
  ⟨trivial, fun _ => Or.inl rfl, fun _ _ => rfl⟩

variable {α : Type} {policy : Policy} {g : Globals} {s : Proc}

/-! ### Paths -/

/-- A path in its normal form. From the root, with names only, and short enough for its buffer. -/
def Clean (abs : Bytes) : Prop := ∃ dir, Rendered abs dir ∧ abs.length < PATH_MAX

/-- The root has no components, and so none that is `.` or `..`. -/
theorem clean_root : Clean (bytes "/") := ⟨[], rendered_root, by decide⟩

/-- A clean path is also clean as the C string that a call is given. -/
theorem Clean.cleanPath {abs : Bytes} (h : Clean abs) : CleanPath (cString abs) := by
  rcases h with ⟨dir, hdir, hlen⟩
  exact ⟨abs, dir, hdir.names, hdir.renders, hlen, rfl⟩

/-- A clean path is absolute. -/
theorem Clean.head? {abs : Bytes} (h : Clean abs) : abs.head? = some '/'.toUInt8 := by
  rcases h with ⟨dir, hdir, -⟩
  exact hdir.head?

/-- What `normalize` gives is clean. It is the reason why no call sees a `..`. -/
theorem clean_normalize {path out : Bytes} (h : normalize path = some out) : Clean out :=
  ⟨_, rendered_normalize h, length_lt_normalize h⟩

/-- What the kernel reads of a path from the root is one. -/
theorem absolutePath_cString {path : Bytes} (hhead : path.head? = some '/'.toUInt8)
    (hlen : path.length < PATH_MAX) : AbsolutePath (cString path) := by
  constructor
  · rw [← List.cons_head?_tail hhead]
    rfl
  · exact Nat.lt_of_le_of_lt ((List.takeWhile_prefix _).length_le) hlen

/-- What `resolve` gives is clean, for a relative input as well: it is joined to the working
directory and then normalized. -/
theorem clean_resolve {getcwd : Option Bytes} {input abs : Bytes}
    (h : OnyxShell.resolve getcwd input = some abs) : Clean abs := by
  have hroot : copyAbs (bytes "/") = some abs → Clean abs := by
    intro heq
    cases heq
    exact clean_root
  rw [OnyxShell.resolve.eq_def] at h
  split at h
  · cases h
  · split at h
    · exact clean_normalize h
    · split at h
      · exact hroot h
      · split at h
        · exact hroot h
        · simp only at h
          split at h
          · cases h
          · rcases Option.bind_eq_some_iff.mp h with ⟨joined, -, hout⟩
            exact clean_normalize hout

/-- A slice that is in its buffer. -/
theorem wp_slice {buf : Bytes} {n : Nat} (h : n ≤ buf.length) {Q : Bytes → Globals → Proc → Prop} :
    wp (conduct policy) (slice buf n) Q g s ↔ Q (buf.take n) g s := by
  rw [slice, if_pos h]
  rfl

/-- A buffer of `n` zeros has `n` bytes. -/
theorem length_zeros (n : Nat) : (zeros n).length = n := List.length_replicate

/-- A proper call that changes nothing that is known of the process. -/
theorem wp_plain {c : SysCall} (hc : s.Proper c) (hpol : policy c) (hnext : ∀ a, s.next c a = s)
    {Q : Answer → Globals → Proc → Prop} (hQ : ∀ a, s.Admits c a → Q a g s) :
    wp (conduct policy) (sys c) Q g s := by
  refine ⟨⟨hc, hpol⟩, ?_⟩
  intro a ha
  show Q a g (s.next c a)
  rw [hnext]
  exact hQ a ha

section
variable (hp : policy.Lenient)
include hp

/-- A quiet call: `Q` has to hold for any answer. -/
theorem wp_quiet {c : SysCall} (hc : c.Quiet) {Q : Answer → Globals → Proc → Prop}
    (hQ : ∀ a, s.Admits c a → Q a g s) : wp (conduct policy) (sys c) Q g s :=
  wp_plain (hc.proper s) (hp c hc.harmless) (hc.next s) hQ

/-! ### Printing -/

variable {Q : Unit → Globals → Proc → Prop}

/-- Output leaves the globals and the process as they are, and no policy forbids it. The lemmas
below are the same for each way of printing. -/
theorem wp_writeRaw (b : Bytes) : wp (conduct policy) (writeRaw b) Q g s ↔ Q () g s := by
  constructor
  · intro h
    exact h.2 ⟨0, []⟩ trivial
  · intro h
    exact wp_quiet hp (quiet_write b) fun _ _ => h

/-- A text. -/
theorem wp_writeStr (t : String) : wp (conduct policy) (writeStr t) Q g s ↔ Q () g s :=
  wp_writeRaw hp _

/-- A single byte. -/
theorem wp_writeByte (b : UInt8) : wp (conduct policy) (writeByte b) Q g s ↔ Q () g s :=
  wp_writeRaw hp _

/-- A line end. -/
theorem wp_newline : wp (conduct policy) newline Q g s ↔ Q () g s := wp_writeRaw hp _

/-- A text and a line end. -/
theorem wp_writeLine (t : String) : wp (conduct policy) (writeLine t) Q g s ↔ Q () g s := by
  rw [writeLine, wp_bind, wp_writeStr hp, wp_newline hp]

/-- An error message. -/
theorem wp_writeError (msg : Bytes) : wp (conduct policy) (writeError msg) Q g s ↔ Q () g s := by
  simp only [writeError, wp_bind, wp_writeRaw hp, wp_newline hp]

/-- An error message with a number. -/
theorem wp_writeErrorErrno (msg : Bytes) (ret : Int) :
    wp (conduct policy) (writeErrorErrno msg ret) Q g s ↔ Q () g s := by
  simp only [writeErrorErrno, wp_bind, wp_writeRaw hp, wp_newline hp]

/-- The digits are always found, so the panic behind them is not reached. -/
theorem wp_writeU64 (n : UInt64) : wp (conduct policy) (writeU64 n) Q g s ↔ Q () g s := by
  rw [writeU64, writeU64_eq]
  exact wp_writeRaw hp _

/-- A signed number. -/
theorem wp_writeI64 (n : Int64) : wp (conduct policy) (writeI64 n) Q g s ↔ Q () g s := by
  rw [writeI64]
  split
  · simp only [wp_bind, wp_writeByte hp, wp_writeU64 hp]
  · exact wp_writeU64 hp _

/-- A number in hexadecimal. -/
theorem wp_writeHex (n : UInt64) : wp (conduct policy) (writeHex n) Q g s ↔ Q () g s := by
  rw [writeHex, writeDigits_eq hexLoop_reads rfl (by decide), wp_bind, wp_writeRaw hp]
  exact wp_writeRaw hp _

/-- A number set to the right in its field. -/
theorem wp_writeU64Field (n : UInt64) (width : Nat) :
    wp (conduct policy) (writeU64Field n width) Q g s ↔ Q () g s := by
  rw [writeU64Field, writeDigits_eq decimalLoop_reads rfl (by decide)]
  simp only [wp_bind]
  rw [Routine.wp_forM_pass (fun b _ Q g s => wp_writeByte hp b)]
  exact wp_writeRaw hp _

/-! ### Resolving -/

/-- `resolve` asks for the working directory and gives a path in its normal form. -/
theorem wp_resolve (input : Bytes) {Q : Option Bytes → Globals → Proc → Prop}
    (hQ : ∀ r, (∀ abs ∈ r, Clean abs) → Q r g s) : wp (conduct policy) (resolve input) Q g s := by
  rw [resolve]
  split
  · exact hQ none fun abs h => nomatch h
  · split
    · exact hQ _ fun abs h => clean_normalize h
    · rw [wp_bind]
      refine wp_quiet hp (quiet_getcwd _) ?_
      intro a ha
      simp only
      split
      · refine hQ _ ?_
        intro abs h
        cases h
        exact clean_root
      · -- The kernel does not claim more than the buffer holds.
        have hfits : a.ret.toNat ≤ (a.into (zeros PATH_MAX)).length := by
          rw [Answer.length_into, length_zeros]
          exact Int.toNat_le.mpr ha
        rw [wp_bind, wp_slice hfits, wp_pure]
        exact hQ _ fun abs h => clean_resolve h

end

end OnyxShell.Process
