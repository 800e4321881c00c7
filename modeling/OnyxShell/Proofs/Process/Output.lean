import OnyxShell.Lib.Total
import OnyxShell.Process.File
import OnyxShell.Proofs.Numbers
import OnyxShell.Proofs.Process.Io

/-!
# `OnyxShell.Proofs.Process.Output`: `src/io.rs` and `resolve` under a monitor

A monitor `Writes` if a write to the terminal is allowed, changes what is remembered by `print`, and
two writes are as good as one. Under such a monitor each function of `src/io.rs` prints one text.

It `Locates` if `getcwd` gives a working directory. Then `resolve` is the function of paths of the
same name.
-/

set_option autoImplicit false

namespace OnyxShell.Process

open Routine (twp twp_bind twp_pure)

/-- What `io::write_error` prints. -/
def errorText (msg : Bytes) : Bytes := bytes "osh: " ++ msg ++ bytes "\n"

/-- What `io::write_error_errno` prints. -/
def errnoText (msg : Bytes) (ret : Int) : Bytes :=
  bytes "osh: " ++ msg ++ bytes ": " ++ errnoStr ret ++ bytes "\n"

variable {σ : Type} {M : Prog.Monitor SysCall Answer σ} {print : σ → Bytes → σ}

/-- Output is remembered by `print`. It is what a monitor has to have for the lemmas about
printing, each of which is thus there once. -/
structure Writes (M : Prog.Monitor SysCall Answer σ) (print : σ → Bytes → σ) : Prop where
  allows : ∀ s b, M.allows s (.write 1 b)
  answered : ∀ s b, ∃ a, M.admits s (.write 1 b) a
  next : ∀ s b a, M.next s (.write 1 b) a = print s b
  append : ∀ s b b', print (print s b) b' = print s (b ++ b')

namespace Writes

variable {g : Globals} {s : σ} {Q : Unit → Globals → σ → Prop}

/-- Bytes written as they are: one `write`, and the text joins the output. -/
theorem twp_writeRaw (h : Writes M print) (b : Bytes) :
    twp M (writeRaw b) Q g s ↔ Q () g (print s b) := by
  rw [writeRaw, twp_bind]
  show M.allows s _ ∧ (∀ a, M.admits s _ a → Q () g (M.next s (.write 1 b) a)) ↔ _
  simp only [h.next]
  constructor
  · rintro ⟨-, hQ⟩
    rcases h.answered s b with ⟨a, ha⟩
    exact hQ a ha
  · exact fun hQ => ⟨h.allows s b, fun _ _ => hQ⟩

/-- A line end. -/
theorem twp_newline (h : Writes M print) :
    twp M newline Q g s ↔ Q () g (print s (bytes "\n")) :=
  h.twp_writeRaw _

/-- A text and a line end, which are two writes in the code and one text here. -/
theorem twp_writeLine (h : Writes M print) (text : String) :
    twp M (writeLine text) Q g s ↔ Q () g (print s (text.toUTF8.toList ++ bytes "\n")) := by
  rw [writeLine, twp_bind, writeStr, h.twp_writeRaw, h.twp_newline, h.append]

/-- `osh: `, the message and a line end. -/
theorem twp_writeError (h : Writes M print) (msg : Bytes) :
    twp M (writeError msg) Q g s ↔ Q () g (print s (errorText msg)) := by
  simp only [writeError, errorText, twp_bind, h.twp_writeRaw, h.twp_newline, h.append,
    List.append_assoc]

/-- The message of a call that has failed, with the number it has returned. -/
theorem twp_writeErrorErrno (h : Writes M print) (msg : Bytes) (ret : Int) :
    twp M (writeErrorErrno msg ret) Q g s ↔ Q () g (print s (errnoText msg ret)) := by
  simp only [writeErrorErrno, errnoText, twp_bind, h.twp_writeRaw, h.twp_newline, h.append,
    List.append_assoc]

/-- A number in decimal. The digits of the code's buffer are those of `decimalText`, for all of
the 64-bit range. -/
theorem twp_writeU64 (h : Writes M print) (n : UInt64) :
    twp M (writeU64 n) Q g s ↔ Q () g (print s (decimalText n.toNat)) := by
  rw [writeU64, writeU64_eq]
  exact h.twp_writeRaw _

/-- A number in hexadecimal, with `0x` before it. -/
theorem twp_writeHex (h : Writes M print) (n : UInt64) :
    twp M (writeHex n) Q g s ↔ Q () g (print s (bytes "0x" ++ hexText n.toNat)) := by
  rw [writeHex, writeDigits_eq hexLoop_reads rfl (by decide), twp_bind, h.twp_writeRaw, ← h.append]
  exact h.twp_writeRaw _

/-- A signed number: a minus sign and the magnitude, also for the least number, whose magnitude
has one bit more. -/
theorem twp_writeI64 (h : Writes M print) (n : Int64) :
    twp M (writeI64 n) Q g s ↔ Q () g (print s (signedText n.toInt)) := by
  have hneg : n < 0 ↔ n.toInt < 0 := by
    rw [Int64.lt_iff_toInt_lt, Int64.toInt_zero]
  rw [writeI64, signedText]
  by_cases hn : n < 0
  · rw [if_pos hn, if_pos (hneg.mp hn), twp_bind, writeByte, h.twp_writeRaw, h.twp_writeU64,
      h.append, toNat_unsignedAbs]
    rfl
  · have hle : 0 ≤ n := Int64.not_lt.mp hn
    have habs : n.toUInt64.toNat = n.toInt.natAbs := by
      rw [Int64.toNat_toUInt64_of_le hle, Int64.toNatClampNeg]
      have hint : 0 ≤ n.toInt := Int64.le_iff_toInt_le.mp hle
      omega
    rw [if_neg hn, if_neg fun hlt => hn (hneg.mpr hlt), ← habs, h.twp_writeU64]

end Writes

/-! ### Paths -/

/-- A slice that ends within its buffer is its first bytes. Beyond the end the process would
panic. -/
theorem twp_slice {g : Globals} {s : σ} {buf : Bytes} {n : Nat} (h : n ≤ buf.length)
    {Q : Bytes → Globals → σ → Prop} (hQ : Q (buf.take n) g s) : twp M (slice buf n) Q g s := by
  rw [slice, if_pos h]
  exact hQ

/-- `getcwd` gives this working directory, and changes nothing. It is what `resolve` needs of a
monitor, whose result is then that of the pure function. -/
structure Locates (M : Prog.Monitor SysCall Answer σ) (cwd : Bytes) : Prop where
  cwd_abs : AbsolutePath cwd
  allows : ∀ s, M.allows s (.getcwd PATH_MAX)
  admits : ∀ s a, M.admits s (.getcwd PATH_MAX) a → a.ret = (cwd.length : Int) ∧ a.out = cwd
  next : ∀ s a, M.next s (.getcwd PATH_MAX) a = s

namespace Locates

variable {cwd : Bytes} {g : Globals} {s : σ}

/-- What the code cuts from the buffer that `getcwd` has filled is the directory. -/
theorem take_into (h : Locates M cwd) {a : Answer} (hret : a.ret = (cwd.length : Int))
    (hout : a.out = cwd) : (a.into (zeros PATH_MAX)).take a.ret.toNat = cwd := by
  have hfits : cwd.length < PATH_MAX := h.cwd_abs.2
  rw [Answer.into, hout, hret, length_zeros, Int.toNat_natCast,
    List.take_of_length_le (Nat.le_of_lt hfits), List.take_left]

/-- `resolve` is the function of the same name for the working directory. -/
theorem twp_resolve (h : Locates M cwd) (input : Bytes) {Q : Option Bytes → Globals → σ → Prop}
    (hQ : Q (OnyxShell.resolve (some cwd) input) g s) : twp M (resolve input) Q g s := by
  by_cases hempty : input.length = 0
  · rw [OnyxShell.resolve, if_pos hempty] at hQ
    rwa [resolve, if_pos hempty]
  · by_cases hroot : input.head? = some '/'.toUInt8
    · rw [OnyxShell.resolve, if_neg hempty, if_pos hroot] at hQ
      rwa [resolve, if_neg hempty, if_pos hroot]
    · rw [resolve, if_neg hempty, if_neg hroot, twp_bind]
      refine ⟨h.allows s, ?_⟩
      intro a ha
      rw [h.next]
      rcases h.admits s a ha with ⟨hret, hout⟩
      have htake := h.take_into hret hout
      have hne : cwd ≠ [] := by
        intro hnil
        have habs := h.cwd_abs.1
        rw [hnil] at habs
        cases habs
      -- A working directory is not empty, so it is not replaced by `/`.
      have hpos : 0 < a.ret := by
        rw [hret]
        exact Int.natCast_pos.mpr (List.length_pos_of_ne_nil hne)
      have hhead : (a.into (zeros PATH_MAX)).head? = some '/'.toUInt8 := by
        rw [← h.cwd_abs.1, ← htake, List.head?_take, if_neg]
        omega
      have hfits : a.ret.toNat ≤ (a.into (zeros PATH_MAX)).length := by
        have hlt := h.cwd_abs.2
        rw [Answer.length_into, length_zeros, hret, Int.toNat_natCast]
        exact Nat.le_of_lt hlt
      show twp M (if _ then _ else _) Q g s
      rw [if_neg (by simp [hhead]; omega), twp_bind]
      refine twp_slice hfits ?_
      rw [htake]
      exact hQ

end Locates

end OnyxShell.Process
