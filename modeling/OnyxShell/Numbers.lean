import OnyxShell.Io
import OnyxShell.Lib.Numeral

/-!
# `OnyxShell.Numbers`: numbers on the terminal

`write_u64`, `write_i64`, `write_hex` and `write_u64_field` of `src/io.rs`, as the bytes that
they write. The loops store the digits in a buffer on the stack, from its last byte down
(`Numeral.fill`). `none` is an index that is not in the buffer.

`parse_job_id` reads numbers and stands in `OnyxShell.Commands.JobControl`. What a numeral is
without a loop is in `OnyxShell.Lib.Numeral`.
-/

set_option autoImplicit false

namespace OnyxShell

open Numeral (Source fill)

/-- The loop of `write_u64`: `b'0' + (n % 10) as u8`, then `n /= 10`. -/
def decimalLoop : Source UInt64 UInt8 where
  done n := !(decide (0 < n))
  digit n := '0'.toUInt8 + (n % 10).toUInt8
  rest n := n / 10

/-- `HEX`. -/
def HEX : Vector UInt8 16 := ⟨(bytes "0123456789abcdef").toArray, rfl⟩

/-- The last four bits are a hexadecimal digit. -/
theorem and_0xf_lt (n : UInt64) : (n &&& 0xf).toNat < 16 := by
  rw [UInt64.toNat_and]
  exact Nat.lt_of_le_of_lt Nat.and_le_right (by decide)

/-- The loop of `write_hex`: `HEX[(n & 0xf) as usize]`, then `n >>= 4`. -/
def hexLoop : Source UInt64 UInt8 where
  done n := !(decide (0 < n))
  digit n := HEX.get ⟨(n &&& 0xf).toNat, and_0xf_lt n⟩
  rest n := n >>> 4

/-- The digits of a number: `0`, or what the loop leaves in a buffer of `k` bytes. -/
def writeDigits (S : Source UInt64 UInt8) (k : Nat) (n : UInt64) : Option Bytes :=
  if n = 0 then some ['0'.toUInt8]
  else (fill S (Vector.replicate k 0) n k).map fun r => r.1.toList.drop r.2

/-- `io::write_u64`. -/
def writeU64 (n : UInt64) : Option Bytes := writeDigits decimalLoop 20 n

/-- `i64::unsigned_abs`: the absolute value, that of `i64::MIN` too. -/
def unsignedAbs (n : Int64) : UInt64 := UInt64.ofNat n.toInt.natAbs

/-- `io::write_i64`. The magnitude is that of `unsigned_abs`, which the least number has as
well. -/
def writeI64 (n : Int64) : Option Bytes :=
  if n < 0 then (writeU64 (unsignedAbs n)).map ('-'.toUInt8 :: ·) else writeU64 n.toUInt64

/-- `io::write_hex`. -/
def writeHex (n : UInt64) : Option Bytes := (writeDigits hexLoop 16 n).map (bytes "0x" ++ ·)

/-- `io::write_u64_field`. The release build wraps `width - 1`, so a zero has no field of
width 0. -/
def writeU64Field (n width : UInt64) : Option Bytes :=
  if n = 0 then some (List.replicate (width - 1).toNat ' '.toUInt8 ++ ['0'.toUInt8])
  else
    (fill decimalLoop (Vector.replicate 20 0) n 20).map fun r =>
      let digits := UInt64.ofNat (20 - r.2)
      (if digits < width then List.replicate (width - digits).toNat ' '.toUInt8 else [])
        ++ r.1.toList.drop r.2

end OnyxShell
