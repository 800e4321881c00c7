import Mathlib.Data.Nat.Digits.Lemmas

/-!
# `OnyxShell.Lib.Numeral`: numbers written digit by digit

A numeral is a list of digits, the most significant one first. `IsNumeral` says which one is
canonical: not empty, no leading zero, and the right value. There is exactly one
(`isNumeral_iff`).

`fill` is the loop that a program without an allocator prints a number with. It takes the
digits off the number from the low end and stores them in a buffer from its last byte down.
`fill_eq` says that a buffer that is long enough holds the numeral at its end.
-/

set_option autoImplicit false

namespace Numeral

variable {ν α : Type} {b n : Nat} {ds : List Nat}

/-- The digits of `n`, the most significant one first. Zero has one digit. -/
def numeral (b n : Nat) : List Nat := if n = 0 then [0] else (Nat.digits b n).reverse

/-- The value of a list of digits, the most significant one first. -/
def value (b : Nat) (ds : List Nat) : Nat := Nat.ofDigits b ds.reverse

/-- The canonical digits of `n`. -/
structure IsNumeral (b n : Nat) (ds : List Nat) : Prop where
  ne_nil : ds ≠ []
  lt_base : ∀ d ∈ ds, d < b
  value_eq : value b ds = n
  /-- Only the numeral of zero starts with a zero. -/
  no_leading_zero : ds.head? = some 0 → ds = [0]

/-- One more digit behind a numeral. -/
theorem value_append_singleton (b : Nat) (ds : List Nat) (d : Nat) :
    value b (ds ++ [d]) = value b ds * b + d := by
  rw [value, List.reverse_append, List.reverse_singleton, List.singleton_append, Nat.ofDigits_cons,
    Nat.add_comm, Nat.mul_comm]
  rfl

/-- The value as the loop of a reader computes it. -/
theorem foldl_eq_value (b : Nat) (ds : List Nat) : ds.foldl (fun n d => n * b + d) 0 = value b ds := by
  induction ds using List.reverseRecOn with
  | nil => rfl
  | append_singleton ds d ih =>
    rw [List.foldl_append, ih, value_append_singleton]
    rfl

/-- Every number has a numeral. -/
theorem isNumeral_numeral (hb : 1 < b) (n : Nat) : IsNumeral b n (numeral b n) := by
  rw [numeral]
  split
  next h0 =>
    subst h0
    exact ⟨by simp, by simp; omega, rfl, fun _ => rfl⟩
  next h0 =>
    have hne : Nat.digits b n ≠ [] := Nat.digits_ne_nil_iff_ne_zero.mpr h0
    refine ⟨?_, ?_, ?_, ?_⟩
    · simpa using hne
    · intro d hd
      exact Nat.digits_lt_base hb (List.mem_reverse.mp hd)
    · rw [value, List.reverse_reverse, Nat.ofDigits_digits]
    · intro hhead
      rw [List.head?_reverse, List.getLast?_eq_some_getLast hne, Option.some.injEq] at hhead
      exact absurd hhead (Nat.getLast_digit_ne_zero b h0)

/-- There is one canonical numeral. -/
theorem IsNumeral.eq_numeral (hb : 1 < b) (h : IsNumeral b n ds) : ds = numeral b n := by
  have hvalue := h.value_eq
  rw [value] at hvalue
  rw [numeral]
  split
  next h0 =>
    -- A numeral of zero has only zeros, so it starts with one.
    subst h0
    cases hds : ds with
    | nil => exact absurd hds h.ne_nil
    | cons d rest =>
      have hd : d = 0 := by
        rw [hds, Nat.ofDigits_reverse_cons] at hvalue
        have hmul : b ^ rest.length * d = 0 := by omega
        rcases Nat.mul_eq_zero.mp hmul with hpow | hd
        · exact absurd hpow (Nat.pow_pos (by omega)).ne'
        · exact hd
      subst hd
      rw [← hds]
      exact h.no_leading_zero (by rw [hds]; rfl)
  next h0 =>
    have hdigits : Nat.digits b (Nat.ofDigits b ds.reverse) = ds.reverse := by
      apply Nat.digits_ofDigits b hb
      · intro d hd
        exact h.lt_base d (List.mem_reverse.mp hd)
      · intro hne hlast
        have hhead : ds.head? = some 0 := by
          rw [List.getLast_reverse] at hlast
          rw [List.head?_eq_some_head h.ne_nil, hlast]
        rw [h.no_leading_zero hhead] at hvalue
        exact h0 hvalue.symm
    rw [← hvalue, hdigits, List.reverse_reverse]

/-- A number has no other numeral than this. -/
theorem isNumeral_iff (hb : 1 < b) : IsNumeral b n ds ↔ ds = numeral b n := by
  constructor
  · exact IsNumeral.eq_numeral hb
  · intro h
    rw [h]
    exact isNumeral_numeral hb n

/-- A number below `b ^ k` has at most `k` digits. -/
theorem length_digits_le {k : Nat} (hb : 1 < b) (h : n < b ^ k) : (Nat.digits b n).length ≤ k :=
  (Nat.digits_length_le_iff hb n).mpr h

/-! ### The loop -/

/-- The operations of the loop on its number. -/
structure Source (ν α : Type) where
  /-- The loop ends. -/
  done : ν → Bool
  /-- The byte of the lowest digit. -/
  digit : ν → α
  /-- The digits above it. -/
  rest : ν → ν

/-- They take off the digits in base `b` of the number that `val` reads. -/
structure Source.Reads (S : Source ν α) (b : Nat) (byte : Nat → α) (val : ν → Nat) : Prop where
  base : 1 < b
  done_iff : ∀ n, S.done n = true ↔ val n = 0
  digit_eq : ∀ n, S.digit n = byte (val n % b)
  rest_eq : ∀ n, val (S.rest n) = val n / b

/-- `while !done(n) { i -= 1; buf[i] = digit(n); n = rest(n) }`. `none` is an index below 0
or behind the buffer. -/
def fill {k : Nat} (S : Source ν α) (buf : Vector α k) (n : ν) : Nat → Option (Vector α k × Nat)
  | 0 => if S.done n then some (buf, 0) else none
  | i + 1 =>
    if S.done n then some (buf, i + 1)
    else if h : i < k then fill S (buf.set i (S.digit n)) (S.rest n) i
    else none

variable {S : Source ν α} {byte : Nat → α} {val : ν → Nat} {k : Nat}

/-- The digits of `n` end up in front of what is behind index `i`. -/
theorem fill_eq (hS : S.Reads b byte val) {i : Nat} {n : ν} (buf : Vector α k)
    (hlen : (Nat.digits b (val n)).length ≤ i) (hi : i ≤ k) :
    ∃ buf', fill S buf n i = some (buf', i - (Nat.digits b (val n)).length) ∧
      buf'.toList.drop (i - (Nat.digits b (val n)).length)
        = (Nat.digits b (val n)).reverse.map byte ++ buf.toList.drop i := by
  -- The index bounds the turns: every digit takes one place.
  induction i generalizing n buf with
  | zero =>
    have hnil : Nat.digits b (val n) = [] := List.length_eq_zero_iff.mp (Nat.le_zero.mp hlen)
    rw [hnil, fill, if_pos ((hS.done_iff n).mpr (Nat.digits_eq_nil_iff_eq_zero.mp hnil))]
    exact ⟨buf, rfl, rfl⟩
  | succ i ih =>
    by_cases h0 : val n = 0
    · rw [h0, Nat.digits_zero, fill, if_pos ((hS.done_iff n).mpr h0)]
      exact ⟨buf, rfl, rfl⟩
    · have hdigits : Nat.digits b (val n) = val n % b :: Nat.digits b (val (S.rest n)) := by
        rw [hS.rest_eq]
        exact Nat.digits_eq_cons_digits_div hS.base h0
      rw [hdigits, List.length_cons] at hlen ⊢
      have hik : i < k := hi
      -- The lowest digit goes to index `i`, and the digits above it go in front of it.
      rcases ih (buf.set i (S.digit n)) (Nat.le_of_succ_le_succ hlen) (Nat.le_of_lt hik) with
        ⟨buf', hfill, hdrop⟩
      have hset : (buf.set i (S.digit n)).toList.drop i
          = byte (val n % b) :: buf.toList.drop (i + 1) := by
        have hbuf : i < (buf.toList.set i (S.digit n)).length := by
          rw [List.length_set, Vector.length_toList]
          exact hik
        rw [Vector.toList_set, List.drop_eq_getElem_cons hbuf, List.getElem_set_self,
          List.drop_set_of_lt (Nat.lt_succ_self i), hS.digit_eq]
      refine ⟨buf', ?_, ?_⟩
      · rw [fill, if_neg (mt (hS.done_iff n).mp h0), dif_pos hik, hfill, Nat.add_sub_add_right]
      · rw [Nat.add_sub_add_right, hdrop, hset, List.reverse_cons, List.map_append, List.append_assoc]
        rfl

/-- A buffer as long as the number needs: from the index the loop ends with, it holds the
digits and nothing else. -/
theorem fill_full (hS : S.Reads b byte val) {n : ν} (buf : Vector α k) (hn : val n < b ^ k) :
    ∃ buf' i, fill S buf n k = some (buf', i) ∧
      buf'.toList.drop i = (Nat.digits b (val n)).reverse.map byte ∧
      i + (Nat.digits b (val n)).length = k := by
  have hlen := length_digits_le hS.base hn
  rcases fill_eq hS buf hlen (Nat.le_refl k) with ⟨buf', hfill, hdrop⟩
  refine ⟨buf', _, hfill, ?_, Nat.sub_add_cancel hlen⟩
  rw [hdrop, List.drop_of_length_le (Nat.le_of_eq Vector.length_toList), List.append_nil]

end Numeral
