import Mathlib.Data.List.TakeWhile

/-!
# `OnyxShell.Lib.TextBuffer`: texts in buffers of zeros

A buffer of fixed size that begins as zeros, to which slices are copied one behind the other,
and whose text is read back up to its first NUL. A copy that leaves the buffer is `none`.

`Padded` says what such a buffer holds, all of it. The two rules are `exists_copySlice`, for one
more slice, and `text_of_padded`, for what is read back.
-/

set_option autoImplicit false

namespace TextBuffer

variable {n : Nat}

/-- A buffer of zeros. -/
def zeros (n : Nat) : Vector UInt8 n := Vector.replicate n 0

/-- `buf[pos..pos + src.len()].copy_from_slice(src)`. -/
def copySlice (buf : Vector UInt8 n) (pos : Nat) (src : List UInt8) : Option (Vector UInt8 n) :=
  if pos + src.length ≤ n then
    some (Vector.ofFn fun i => if pos ≤ i then ((src)[i - pos]?).getD buf[i] else buf[i])
  else none

/-- What is before the first NUL: the whole buffer when there is none. -/
def text (buf : Vector UInt8 n) : List UInt8 := buf.toList.takeWhile (· ≠ 0)

/-- A text, and zeros behind it up to `n` bytes. -/
def zeroPad (n : Nat) (t : List UInt8) : List UInt8 := t ++ List.replicate (n - t.length) 0

/-- The buffer holds a text, and zeros behind it. -/
def Padded (buf : Vector UInt8 n) (t : List UInt8) : Prop := buf.toList = zeroPad n t

variable {buf : Vector UInt8 n} {t : List UInt8}

instance : Decidable (Padded buf t) := inferInstanceAs (Decidable (_ = _))

/-- A buffer of zeros holds the empty text. -/
theorem padded_zeros : Padded (zeros n) [] := Vector.toList_replicate

/-- Byte by byte. -/
theorem padded_iff :
    Padded buf t ↔ t.length ≤ n ∧ ∀ i (h : i < n), buf[i] = ((t)[i]?).getD 0 := by
  have hbytes : ∀ i, t.length ≤ n →
      (zeroPad n t)[i]? = if i < n then some (((t)[i]?).getD 0) else none := by
    intro i hlen
    rw [zeroPad, List.getElem?_append, List.getElem?_replicate]
    rcases Nat.lt_or_ge i t.length with hi | hi
    · rw [if_pos hi, if_pos (Nat.lt_of_lt_of_le hi hlen), List.getElem?_eq_getElem hi]
      rfl
    · rw [if_neg (Nat.not_lt.mpr hi), List.getElem?_eq_none hi]
      congr 1
      exact propext ⟨fun h => by omega, fun h => by omega⟩
  constructor
  · intro h
    -- The zeros only make a text longer.
    have hlen : t.length ≤ n := by
      have hall := congrArg List.length h
      rw [Vector.length_toList, zeroPad, List.length_append, List.length_replicate] at hall
      omega
    refine ⟨hlen, ?_⟩
    intro i hi
    have hget : buf.toList[i]? = some buf[i] := by
      rw [Vector.getElem?_toList, Vector.getElem?_eq_getElem hi]
    rw [h, hbytes i hlen, if_pos hi] at hget
    exact (Option.some.inj hget).symm
  · rintro ⟨hlen, h⟩
    apply List.ext_getElem?
    intro i
    rw [hbytes i hlen, Vector.getElem?_toList]
    split
    · rename_i hi
      rw [Vector.getElem?_eq_getElem hi, h i hi]
    · rename_i hi
      exact Vector.getElem?_eq_none (Nat.le_of_not_lt hi)

/-- The next slice goes behind the text. -/
theorem exists_copySlice (h : Padded buf t) (src : List UInt8) (hfit : t.length + src.length ≤ n) :
    ∃ buf', copySlice buf t.length src = some buf' ∧ Padded buf' (t ++ src) := by
  refine ⟨_, if_pos hfit, padded_iff.mpr ⟨by rw [List.length_append]; exact hfit, ?_⟩⟩
  intro i hi
  have hbyte : buf[i] = ((t)[i]?).getD 0 := (padded_iff.mp h).2 i hi
  rw [Vector.getElem_ofFn, List.getElem?_append]
  split
  · rename_i hle
    have hle : t.length ≤ i := hle
    rw [if_neg (Nat.not_lt.mpr hle), Fin.getElem_fin, hbyte, List.getElem?_eq_none hle]
    rfl
  · rename_i hlt
    rw [if_pos (Nat.lt_of_not_le hlt), Fin.getElem_fin, hbyte]

/-- A slice at the start of a buffer with anything in it. -/
theorem exists_copySlice_start {src : List UInt8} (buf : Vector UInt8 n) (hfit : src.length ≤ n) :
    ∃ buf', copySlice buf 0 src = some buf' ∧ src <+: buf'.toList := by
  refine ⟨_, if_pos (by omega), ?_⟩
  rw [List.prefix_iff_eq_take, Vector.toList_ofFn]
  apply List.ext_getElem?
  intro i
  rw [List.getElem?_take, List.getElem?_ofFn]
  split
  · rename_i hi
    rw [dif_pos (Nat.lt_of_lt_of_le hi hfit), if_pos (Nat.zero_le _), Nat.sub_zero,
      List.getElem?_eq_getElem hi]
    rfl
  · rename_i hi
    exact List.getElem?_eq_none (Nat.le_of_not_lt hi)

/-- A NUL behind the text is there already. -/
theorem Padded.of_concat_zero (h : Padded buf (t ++ [0])) : Padded buf t := by
  rcases padded_iff.mp h with ⟨hlen, hbytes⟩
  rw [List.length_append, List.length_singleton] at hlen
  refine padded_iff.mpr ⟨by omega, ?_⟩
  intro i hi
  rw [hbytes i hi, List.getElem?_append]
  split
  · rfl
  · rename_i hge
    rw [List.getElem?_eq_none (Nat.le_of_not_lt hge)]
    rcases Nat.eq_zero_or_pos (i - t.length) with h0 | hpos
    · rw [h0]
      rfl
    · rw [List.getElem?_eq_none (by rw [List.length_singleton]; exact hpos)]

/-- What stands behind the first stop is not taken. -/
theorem takeWhile_append_cons {α : Type} {p : α → Bool} {a : α} (h : ¬ p a) (xs ys : List α) :
    (xs ++ a :: ys).takeWhile p = xs.takeWhile p := by
  induction xs with
  | nil => exact List.takeWhile_cons_of_neg h
  | cons x xs ih => rw [List.cons_append, List.takeWhile_cons, List.takeWhile_cons, ih]

/-- The zeros end the text at the latest. -/
theorem takeWhile_zeroPad (n : Nat) (t : List UInt8) :
    (zeroPad n t).takeWhile (· ≠ 0) = t.takeWhile (· ≠ 0) := by
  rw [zeroPad]
  cases n - t.length with
  | zero => rw [List.replicate_zero, List.append_nil]
  | succ k =>
    rw [List.replicate_succ]
    exact takeWhile_append_cons (by simp) t _

/-- The text is read back up to its first NUL. -/
theorem text_of_padded (h : Padded buf t) : text buf = t.takeWhile (· ≠ 0) := by
  rw [text, h, takeWhile_zeroPad]

/-- The texts of some buffers. -/
theorem map_text_of_padded {bufs : List (Vector UInt8 n)} {texts : List (List UInt8)}
    (h : bufs.map Vector.toList = texts.map (zeroPad n)) :
    bufs.map text = texts.map (List.takeWhile (· ≠ 0)) := by
  calc bufs.map text = (bufs.map Vector.toList).map (List.takeWhile (· ≠ 0)) := by
        rw [List.map_map]
        rfl
    _ = texts.map (List.takeWhile (· ≠ 0)) := by
        rw [h, List.map_map]
        exact List.map_congr_left fun t _ => takeWhile_zeroPad n t

end TextBuffer
