import OnyxShell.Commands.JobControl
import OnyxShell.Numbers
import OnyxShell.Proofs.Features.Recall

/-!
# `OnyxShell.Proofs.Numbers`: numbers printed and read back

`writeU64_eq`, `writeI64_eq` and `writeHex_eq` say what is printed: the canonical digits, out
of a buffer that is long enough for every number of the type. `parseJobId_digits` and
`parseJobId_else` say what `parse_job_id` makes of every argument. The two meet in
`parseJobId_decimalText`.
-/

set_option autoImplicit false

namespace OnyxShell

open Numeral (Source IsNumeral numeral isNumeral_numeral isNumeral_iff)
open History (digitByte isDigit_digitByte)

/-! ### Printing -/

/-- The byte of a hexadecimal digit. -/
def hexByte (d : Nat) : UInt8 := if d < 10 then digitByte d else 'a'.toUInt8 + UInt8.ofNat (d - 10)

/-- `w` is the canonical decimal form of `n`: digits, no leading zero. It says nothing of a loop
or of a buffer, so that it is the specification of printing and of reading alike. -/
def IsDecimal (n : Nat) (w : Bytes) : Prop := ∃ ds, IsNumeral 10 n ds ∧ w = ds.map digitByte

/-- `w` is the canonical hexadecimal form of `n`. -/
def IsHex (n : Nat) (w : Bytes) : Prop := ∃ ds, IsNumeral 16 n ds ∧ w = ds.map hexByte

/-- The decimal digits of `n`. -/
def decimalText (n : Nat) : Bytes := (numeral 10 n).map digitByte

/-- The hexadecimal digits of `n`. -/
def hexText (n : Nat) : Bytes := (numeral 16 n).map hexByte

/-- A number has one decimal form. -/
theorem isDecimal_iff {n : Nat} {w : Bytes} : IsDecimal n w ↔ w = decimalText n := by
  constructor
  · rintro ⟨ds, hds, rfl⟩
    rw [(isNumeral_iff (by decide)).mp hds, decimalText]
  · intro h
    exact ⟨numeral 10 n, isNumeral_numeral (by decide) n, h⟩

/-- A number has one hexadecimal form. -/
theorem isHex_iff {n : Nat} {w : Bytes} : IsHex n w ↔ w = hexText n := by
  constructor
  · rintro ⟨ds, hds, rfl⟩
    rw [(isNumeral_iff (by decide)).mp hds, hexText]
  · intro h
    exact ⟨numeral 16 n, isNumeral_numeral (by decide) n, h⟩

/-- The decimal form of `z`. -/
def signedText (z : Int) : Bytes :=
  if z < 0 then '-'.toUInt8 :: decimalText z.natAbs else decimalText z.natAbs

/-- The loop over the digits ends where the number is zero. -/
theorem done_iff (n : UInt64) : (!(decide (0 < n))) = true ↔ n.toNat = 0 := by
  rw [Bool.not_eq_true', decide_eq_false_iff_not, UInt64.lt_iff_toNat_lt, Nat.not_lt]
  exact Nat.le_zero

/-- The decimal loop divides by ten and takes the remainder as a digit. -/
theorem decimalLoop_reads : decimalLoop.Reads 10 digitByte UInt64.toNat where
  base := by decide
  done_iff := done_iff
  digit_eq n := by
    show '0'.toUInt8 + (n % 10).toUInt8 = '0'.toUInt8 + UInt8.ofNat (n.toNat % 10)
    congr 1
  rest_eq n := UInt64.toNat_div n 10

/-- The hexadecimal loop does so by shifts and masks. -/
theorem hexLoop_reads : hexLoop.Reads 16 hexByte UInt64.toNat where
  base := by decide
  done_iff := done_iff
  digit_eq n := by
    have hget : ∀ d : Fin 16, HEX.get d = hexByte d.val := by decide
    have hand : (n &&& 0xf).toNat = n.toNat % 16 := by
      rw [UInt64.toNat_and]
      exact Nat.and_two_pow_sub_one_eq_mod n.toNat 4
    rw [← hand]
    exact hget ⟨(n &&& 0xf).toNat, and_0xf_lt n⟩
  rest_eq n := by
    show (n >>> 4).toNat = n.toNat / 16
    rw [UInt64.toNat_shiftRight]
    exact Nat.shiftRight_eq_div_pow n.toNat 4

/-- A buffer that is long enough for the type holds the digits of every number. -/
theorem writeDigits_eq {S : Source UInt64 UInt8} {b k : Nat} {byte : Nat → UInt8}
    (hS : S.Reads b byte UInt64.toNat) (hzero : byte 0 = '0'.toUInt8) (hk : 2 ^ 64 ≤ b ^ k)
    (n : UInt64) : writeDigits S k n = some ((numeral b n.toNat).map byte) := by
  rw [writeDigits, numeral]
  by_cases h0 : n = 0
  · rw [if_pos h0, h0, if_pos UInt64.toNat_zero, List.map_singleton, hzero]
  · have hne : n.toNat ≠ 0 := fun h => h0 (UInt64.toNat_inj.mp h)
    rcases Numeral.fill_full hS (Vector.replicate k 0) (Nat.lt_of_lt_of_le n.toNat_lt hk) with
      ⟨buf, i, hfill, htext, -⟩
    rw [if_neg h0, if_neg hne, hfill, Option.map_some, htext]

/-- `write_u64` prints the decimal digits of every 64-bit number. -/
theorem writeU64_eq (n : UInt64) : writeU64 n = some (decimalText n.toNat) :=
  writeDigits_eq decimalLoop_reads rfl (by decide) n

/-- `write_hex` prints `0x` and the hexadecimal digits. -/
theorem writeHex_eq (n : UInt64) : writeHex n = some (bytes "0x" ++ hexText n.toNat) := by
  rw [writeHex, writeDigits_eq hexLoop_reads rfl (by decide) n]
  rfl

/-- The magnitude of a signed number, also of the least one. -/
theorem toNat_unsignedAbs (n : Int64) : (unsignedAbs n).toNat = n.toInt.natAbs := by
  have hlow := n.le_toInt
  have hhigh := n.toInt_lt
  rw [unsignedAbs, UInt64.toNat_ofNat']
  apply Nat.mod_eq_of_lt
  omega

/-- `write_i64` prints the sign and the magnitude. -/
theorem writeI64_eq (n : Int64) : writeI64 n = some (signedText n.toInt) := by
  have hneg : n < 0 ↔ n.toInt < 0 := by
    rw [Int64.lt_iff_toInt_lt, Int64.toInt_zero]
  rw [writeI64, signedText]
  by_cases h : n < 0
  · -- `unsigned_abs` has no overflow, not even at the minimum.
    rw [if_pos h, if_pos (hneg.mp h), writeU64_eq, toNat_unsignedAbs]
    rfl
  · have hle : 0 ≤ n := Int64.not_lt.mp h
    rw [if_neg h, if_neg (mt hneg.mpr h), writeU64_eq, Int64.toNat_toUInt64_of_le hle,
      Int64.toNatClampNeg]
    congr 2
    have hnonneg : ¬ n.toInt < 0 := mt hneg.mpr h
    omega

/-- **A number in its field** stands at the right end, behind blanks. One that is wider than
the field is not cut. -/
theorem writeU64Field_eq (n : UInt64) {width : UInt64} (hwidth : 0 < width) :
    writeU64Field n width
      = some (List.replicate (width.toNat - (decimalText n.toNat).length) ' '.toUInt8
          ++ decimalText n.toNat) := by
  rw [writeU64Field]
  by_cases h0 : n = 0
  · have hone : (width - 1).toNat = width.toNat - 1 :=
      UInt64.toNat_sub_of_le width 1 (UInt64.le_iff_toNat_le.mpr (UInt64.lt_iff_toNat_lt.mp hwidth))
    rw [if_pos h0, h0, hone]
    rfl
  · have hne : n.toNat ≠ 0 := fun h => h0 (UInt64.toNat_inj.mp h)
    have hfits : n.toNat < 10 ^ 20 := Nat.lt_of_lt_of_le n.toNat_lt (by decide)
    rcases Numeral.fill_full decimalLoop_reads (Vector.replicate 20 0) hfits with
      ⟨buf, i, hfill, htext, hi⟩
    have hdecimal : decimalText n.toNat = (Nat.digits 10 n.toNat).reverse.map digitByte := by
      rw [decimalText, numeral, if_neg hne]
    have hlen : (decimalText n.toNat).length = 20 - i := by
      rw [hdecimal, List.length_map, List.length_reverse]
      omega
    have hdigits : (UInt64.ofNat (20 - i)).toNat = 20 - i := by
      rw [UInt64.toNat_ofNat']
      exact Nat.mod_eq_of_lt (by omega)
    -- What is left of the buffer in front of the digits is not written.
    rw [if_neg h0, hfill, Option.map_some, hlen]
    simp only
    rw [htext, ← hdecimal]
    by_cases hlt : UInt64.ofNat (20 - i) < width
    · rw [if_pos hlt, UInt64.toNat_sub_of_le _ _ (UInt64.le_of_lt hlt), hdigits]
    · have hge : width.toNat ≤ 20 - i := by
        rw [UInt64.lt_iff_toNat_lt, hdigits] at hlt
        exact Nat.le_of_not_lt hlt
      rw [if_neg hlt, Nat.sub_eq_zero_of_le hge]
      rfl

/-! ### Reading -/

/-- The digit that a byte stands for. -/
def digitOf (b : UInt8) : Nat := (b - '0'.toUInt8).toNat

/-- The number that a text of digits spells. -/
def decimalValue (w : Bytes) : Nat := Numeral.value 10 (w.map digitOf)

/-- Reading digits one after the other gives their value. -/
theorem foldl_addDigit (w : Bytes) : w.foldl addDigit 0 = decimalValue w := by
  rw [decimalValue, ← Numeral.foldl_eq_value, List.foldl_map]
  rfl

/-- What is printed in decimal are digits. -/
theorem isDigit_decimalText {n : Nat} : ∀ b ∈ decimalText n, isDigit b = true := by
  intro b hb
  rcases List.mem_map.mp hb with ⟨d, hd, rfl⟩
  exact (isDigit_digitByte ((isNumeral_numeral (by decide) n).lt_base d hd)).1

/-- The printed digits of a number spell it. -/
theorem decimalValue_decimalText (n : Nat) : decimalValue (decimalText n) = n := by
  have hcanonical := isNumeral_numeral (b := 10) (by decide) n
  have hdigits : ((numeral 10 n).map digitByte).map digitOf = numeral 10 n := by
    rw [List.map_map]
    refine Eq.trans (List.map_congr_left ?_) (List.map_id _)
    intro d hd
    exact (isDigit_digitByte (hcanonical.lt_base d hd)).2
  rw [decimalValue, decimalText, hdigits]
  exact hcanonical.value_eq

/-- The loop on digits. A number that has left the type does not come back into it. -/
theorem parseJobDigits_digits {w : Bytes} (hw : ∀ b ∈ w, isDigit b = true) {id : Nat}
    (hid : id < USIZE) :
    parseJobDigits id w = if w.foldl addDigit id < USIZE then w.foldl addDigit id else 0 := by
  induction w generalizing id with
  | nil =>
    rw [parseJobDigits, List.foldl_nil, if_pos hid]
  | cons b w ih =>
    rw [parseJobDigits_cons, if_pos (hw b List.mem_cons_self), List.foldl_cons]
    show (if addDigit id b < USIZE then parseJobDigits (addDigit id b) w else 0) = _
    by_cases hfits : addDigit id b < USIZE
    · rw [if_pos hfits, ih (fun b hb => hw b (List.mem_cons_of_mem _ hb)) hfits]
    · have hbig : ¬ w.foldl addDigit (addDigit id b) < USIZE :=
        fun h => hfits (Nat.lt_of_le_of_lt (le_foldl_addDigit w (addDigit id b)) h)
      rw [if_neg hfits, if_neg hbig]

/-- A byte that is no digit makes the loop return 0, wherever it stands. -/
theorem parseJobDigits_of_not_digit {w : Bytes} (hw : ∃ b ∈ w, isDigit b = false) (id : Nat) :
    parseJobDigits id w = 0 := by
  rcases hw with ⟨bad, hbad, hdigit⟩
  -- The loop comes to the byte, or it has overflowed before.
  induction w generalizing id with
  | nil => exact absurd hbad List.not_mem_nil
  | cons b w ih =>
    rw [parseJobDigits_cons]
    split
    next hb =>
      have hne : bad ≠ b := by
        intro heq
        rw [heq, hb] at hdigit
        exact Bool.noConfusion hdigit
      simp only
      split
      · exact ih _ ((List.mem_cons.mp hbad).resolve_left hne)
      · rfl
    next => rfl

/-- `arg` is a `%` and the digits `w`, at least one. The digits are not bounded, and leading zeros
are digits. -/
structure IsJobSpec (arg w : Bytes) : Prop where
  eq_cons : arg = '%'.toUInt8 :: w
  ne_nil : w ≠ []
  digits : ∀ b ∈ w, isDigit b = true

/-- Behind the percent sign the digits are read. -/
theorem parseJobId_cons {w : Bytes} (hw : w ≠ []) :
    parseJobId ('%'.toUInt8 :: w) = parseJobDigits 0 w := by
  have hlen : ('%'.toUInt8 :: w).length > 1 := Nat.succ_lt_succ (List.length_pos_iff.mpr hw)
  rw [parseJobId, if_pos ⟨hlen, rfl⟩]
  rfl

/-- A job number that fits 64 bits is read as its value, and every other one as 0. -/
theorem parseJobId_digits {arg w : Bytes} (hspec : IsJobSpec arg w) :
    parseJobId arg = if decimalValue w < 2 ^ 64 then decimalValue w else 0 := by
  rw [hspec.eq_cons, parseJobId_cons hspec.ne_nil,
    parseJobDigits_digits hspec.digits (by decide), foldl_addDigit]
  rfl

/-- What is no job number is read as 0. -/
theorem parseJobId_else {arg : Bytes} (hspec : ¬ ∃ w, IsJobSpec arg w) : parseJobId arg = 0 := by
  by_cases hhead : arg.length > 1 ∧ arg.head? = some '%'.toUInt8
  · rcases List.head?_eq_some_iff.mp hhead.2 with ⟨w, rfl⟩
    have hw : w ≠ [] := List.length_pos_iff.mp (Nat.lt_of_succ_lt_succ hhead.1)
    rw [parseJobId_cons hw]
    apply parseJobDigits_of_not_digit
    by_contra hall
    refine hspec ⟨w, rfl, hw, ?_⟩
    intro b hb
    by_contra hdigit
    exact hall ⟨b, hb, Bool.eq_false_iff.mpr hdigit⟩
  · rw [parseJobId, if_neg hhead]

/-- The number that the shell prints for a job is one that it reads. -/
theorem isJobSpec_decimalText (n : Nat) :
    IsJobSpec ('%'.toUInt8 :: decimalText n) (decimalText n) where
  eq_cons := rfl
  ne_nil := by
    rw [decimalText, ne_eq, List.map_eq_nil_iff]
    exact (isNumeral_numeral (by decide) n).ne_nil
  digits := isDigit_decimalText

/-- A number that has been printed is read back. -/
theorem parseJobId_decimalText {n : Nat} (hn : n < 2 ^ 64) :
    parseJobId ('%'.toUInt8 :: decimalText n) = n := by
  rw [parseJobId_digits (isJobSpec_decimalText n), decimalValue_decimalText, if_pos hn]

/-- **Numbers survive printing and parsing.** The digits are written from the end of a buffer, by
division or by shifts, and read by multiplication with a check for overflow. `IsDecimal` and
`IsHex` say what a numeral is without either loop; a job number that does not fit 64 bits is read
as 0. -/
theorem numbers_printed_and_read :
    (∀ n : UInt64, ∃ w, writeU64 n = some w ∧ IsDecimal n.toNat w) ∧
    (∀ n : Int64, ∃ w, IsDecimal n.toInt.natAbs w ∧
      writeI64 n = some (if n.toInt < 0 then '-'.toUInt8 :: w else w)) ∧
    (∀ n : UInt64, ∃ w, writeHex n = some (bytes "0x" ++ w) ∧ IsHex n.toNat w) ∧
    (∀ n : UInt64, ∃ w, writeU64 n = some w ∧ parseJobId ('%'.toUInt8 :: w) = n.toNat) ∧
    (∀ arg w, IsJobSpec arg w → decimalValue w < 2 ^ 64 → parseJobId arg = decimalValue w) ∧
    (∀ arg, (∀ w, IsJobSpec arg w → 2 ^ 64 ≤ decimalValue w) → parseJobId arg = 0) := by
  refine ⟨?_, ?_, ?_, ?_, ?_, ?_⟩
  · intro n
    exact ⟨decimalText n.toNat, writeU64_eq n, isDecimal_iff.mpr rfl⟩
  · intro n
    refine ⟨decimalText n.toInt.natAbs, isDecimal_iff.mpr rfl, ?_⟩
    rw [writeI64_eq, signedText]
  · intro n
    exact ⟨hexText n.toNat, writeHex_eq n, isHex_iff.mpr rfl⟩
  · intro n
    exact ⟨decimalText n.toNat, writeU64_eq n, parseJobId_decimalText n.toNat_lt⟩
  · intro arg w hspec hvalue
    rw [parseJobId_digits hspec, if_pos hvalue]
  · intro arg hbig
    by_cases hspec : ∃ w, IsJobSpec arg w
    · rcases hspec with ⟨w, hspec⟩
      rw [parseJobId_digits hspec, if_neg (Nat.not_lt.mpr (hbig w hspec))]
    · exact parseJobId_else hspec

end OnyxShell
