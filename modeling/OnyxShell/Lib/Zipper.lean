import Mathlib.Data.List.Basic

/-!
# `OnyxShell.Lib.Zipper`: a list with a cursor

A list with a cursor is two lists, what is before the cursor and what is behind it. `cut`
makes one of a list and an index, and `eq_cut` says that the list and the index determine
it. So an operation at the cursor is known by what it does to the two.

The lemmas say of each operation how long the first list is and what the two together are, which
is what a buffer with a cursor index can be compared with.
-/

set_option autoImplicit false

/-- A list with a cursor. -/
structure Zipper (α : Type) where
  left : List α
  right : List α
deriving DecidableEq, Repr

namespace Zipper

variable {α : Type}

/-- The list without the cursor. -/
def whole (z : Zipper α) : List α := z.left ++ z.right

/-- The cursor in front of index `n`, or at the end. -/
def cut (xs : List α) (n : Nat) : Zipper α := ⟨xs.take n, xs.drop n⟩

/-- An element more in front of the cursor. -/
def insert (z : Zipper α) (a : α) : Zipper α := ⟨z.left ++ [a], z.right⟩

/-- An element less in front of the cursor. -/
def erase (z : Zipper α) : Zipper α := ⟨z.left.dropLast, z.right⟩

/-- The cursor goes behind the next element. -/
def moveRight (z : Zipper α) : Zipper α :=
  match z.right with
  | [] => z
  | a :: rest => ⟨z.left ++ [a], rest⟩

/-- The cursor goes in front of the last element. -/
def moveLeft (z : Zipper α) : Zipper α :=
  match z.left.getLast? with
  | none => z
  | some a => ⟨z.left.dropLast, a :: z.right⟩

/-- Cutting a list loses nothing. -/
@[simp] theorem whole_cut (xs : List α) (n : Nat) : (cut xs n).whole = xs :=
  List.take_append_drop n xs

/-- The first part is as long as the place of the cut. -/
theorem length_left_cut {xs : List α} {n : Nat} (h : n ≤ xs.length) : (cut xs n).left.length = n :=
  List.length_take_of_le h

/-- A list and an index determine the two parts. -/
theorem eq_cut {z : Zipper α} {xs : List α} {n : Nat} (hwhole : z.whole = xs)
    (hleft : z.left.length = n) : z = cut xs n := by
  rw [← hwhole, ← hleft, cut, whole, List.take_left, List.drop_left]

/-- A cursor behind the end is at the end. -/
theorem cut_min (xs : List α) (n : Nat) : cut xs (min n xs.length) = cut xs n := by
  rcases Nat.le_total n xs.length with h | h
  · rw [Nat.min_eq_left h]
  · rw [Nat.min_eq_right h, cut, cut, List.take_length, List.take_of_length_le h,
      List.drop_length, List.drop_eq_nil_of_le h]

/-- An insertion moves what is behind the cursor up by one. -/
theorem getElem?_whole_insert (z : Zipper α) (a : α) (i : Nat) :
    (z.insert a).whole[i]? = if i < z.left.length then z.whole[i]?
      else if i = z.left.length then some a else z.whole[i - 1]? := by
  rw [whole, insert, whole, List.append_assoc]
  rcases Nat.lt_trichotomy i z.left.length with h | h | h
  · rw [if_pos h, List.getElem?_append_left h, List.getElem?_append_left h]
  · rw [if_neg (by omega), if_pos h, List.getElem?_append_right (by omega), h, Nat.sub_self]
    rfl
  · have hindex : i - z.left.length = i - 1 - z.left.length + 1 := by omega
    rw [if_neg (by omega), if_neg (by omega), List.getElem?_append_right (by omega), hindex,
      List.singleton_append, List.getElem?_cons_succ, List.getElem?_append_right (by omega)]

/-- An erasure moves what is behind the cursor down by one. -/
theorem getElem?_whole_erase {z : Zipper α} (hleft : 0 < z.left.length) (i : Nat) :
    z.erase.whole[i]? = if i < z.left.length - 1 then z.whole[i]? else z.whole[i + 1]? := by
  rw [whole, erase, whole]
  by_cases h : i < z.left.length - 1
  · rw [if_pos h, List.getElem?_append_left (by rw [List.length_dropLast]; exact h),
      List.getElem?_append_left (by omega), List.getElem?_dropLast, if_pos h]
  · rw [if_neg h, List.getElem?_append_right (by rw [List.length_dropLast]; omega),
      List.getElem?_append_right (by omega), List.length_dropLast]
    have hindex : i - (z.left.length - 1) = i + 1 - z.left.length := by omega
    rw [hindex]

/-- Inserting moves the cursor on. -/
@[simp] theorem length_left_insert (z : Zipper α) (a : α) :
    (z.insert a).left.length = z.left.length + 1 := by
  rw [insert, List.length_append, List.length_singleton]

/-- Erasing moves it back, unless it is at the start. -/
@[simp] theorem length_left_erase (z : Zipper α) : z.erase.left.length = z.left.length - 1 :=
  List.length_dropLast

/-- A move to the right leaves the text. -/
@[simp] theorem whole_moveRight (z : Zipper α) : z.moveRight.whole = z.whole := by
  rcases z with ⟨left, right⟩
  cases right with
  | nil => rfl
  | cons a rest => exact List.append_assoc left [a] rest

/-- The cursor moves as long as something is behind it. -/
theorem length_left_moveRight (z : Zipper α) :
    z.moveRight.left.length = min (z.left.length + 1) z.whole.length := by
  rcases z with ⟨left, right⟩
  cases right with
  | nil =>
    show left.length = min (left.length + 1) (left ++ []).length
    rw [List.append_nil]
    omega
  | cons a rest =>
    show (left ++ [a]).length = min (left.length + 1) (left ++ a :: rest).length
    rw [List.length_append, List.length_append, List.length_singleton, List.length_cons]
    omega

/-- A move to the left leaves the text. -/
@[simp] theorem whole_moveLeft (z : Zipper α) : z.moveLeft.whole = z.whole := by
  rw [moveLeft]
  split
  · rfl
  · rename_i a h
    have hsplit : z.left.dropLast ++ [a] = z.left := List.dropLast_append_getLast? a h
    rw [whole, whole]
    show z.left.dropLast ++ ([a] ++ z.right) = _
    rw [← List.append_assoc, hsplit]

/-- A move to the left moves the cursor back, unless it is at the start. -/
@[simp] theorem length_left_moveLeft (z : Zipper α) :
    z.moveLeft.left.length = z.left.length - 1 := by
  rw [moveLeft]
  split
  · rename_i h
    rw [List.getLast?_eq_none_iff.mp h]
    rfl
  · exact List.length_dropLast

/-! ### Behind an element -/

/-- Erasing takes the last letter before the cursor. -/
theorem erase_concat (left : List α) (a : α) (right : List α) :
    erase ⟨left ++ [a], right⟩ = ⟨left, right⟩ := by
  rw [erase, List.dropLast_concat]

/-- A move to the left hands the last letter before the cursor to the part behind it. -/
theorem moveLeft_concat (left : List α) (a : α) (right : List α) :
    moveLeft ⟨left ++ [a], right⟩ = ⟨left, a :: right⟩ := by
  rw [moveLeft, List.getLast?_concat, List.dropLast_concat]

end Zipper
