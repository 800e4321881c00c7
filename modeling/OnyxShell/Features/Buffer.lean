import OnyxShell.Io
import OnyxShell.Lib.Rewrite

/-!
# `OnyxShell.Features.Buffer`: the fixed-capacity `Vec`

`src/features/buffer/mod.rs`: a vector of at most 256 items. `push` on a full vector
drops the item without a word, so everything built with it is cut at the capacity.
The bound is a field, and `items_push` and `items_extendFromSlice` say what the two
operations hold: the first 256 of the items pushed.
-/

set_option autoImplicit false

namespace OnyxShell

/-- The capacity of a `Vec`. -/
def VEC_CAP : Nat := 256

/-- `buffer::Vec<T>`: the live items of the array, at most `VEC_CAP` of them. -/
structure Vec (α : Type) where
  items : List α
  length_le : items.length ≤ VEC_CAP
deriving DecidableEq

namespace Vec

variable {α : Type}

/-- `Vec::new`. -/
def new : Vec α := ⟨[], Nat.zero_le _⟩

/-- `Vec::push`: ignored when the vector is full. -/
def push (v : Vec α) (item : α) : Vec α :=
  if h : v.items.length < VEC_CAP then ⟨v.items ++ [item], by rw [List.length_append]; exact h⟩ else v

/-- `Vec::extend_from_slice`: a `push` for each item. -/
def extendFromSlice (v : Vec α) (other : List α) : Vec α := other.foldl push v

/-- `push` keeps the first 256 items. -/
theorem items_push (v : Vec α) (item : α) :
    (v.push item).items = (v.items ++ [item]).take VEC_CAP := by
  have := v.length_le
  rw [push]
  split
  · rw [List.take_of_length_le (by simpa)]
  · rw [List.take_append_of_le_length (by omega), List.take_of_length_le (by omega)]

/-- With room for it, the item is behind the others. -/
theorem items_push_of_lt {v : Vec α} (h : v.items.length < VEC_CAP) (item : α) :
    (v.push item).items = v.items ++ [item] := by
  rw [push, dif_pos h]

/-- Cutting the front of an appended list first changes nothing below the cut. -/
theorem take_take_append (xs ys : List α) :
    (xs.take VEC_CAP ++ ys).take VEC_CAP = (xs ++ ys).take VEC_CAP := by
  rw [List.take_append, List.take_append, List.take_take, Nat.min_self]
  congr 2
  rw [List.length_take]
  omega

/-- `extend_from_slice` keeps the first 256 items. -/
theorem items_extendFromSlice (v : Vec α) (other : List α) :
    (v.extendFromSlice other).items = (v.items ++ other).take VEC_CAP := by
  rw [extendFromSlice]
  induction other generalizing v with
  | nil => simpa using (List.take_of_length_le v.length_le).symm
  | cons x xs ih =>
    rw [List.foldl_cons, ih, items_push]
    -- Cutting before the rest is appended changes nothing below the capacity.
    have happend : v.items ++ x :: xs = (v.items ++ [x]) ++ xs := by simp
    rw [happend]
    exact take_take_append _ _

/-- A replacing loop that writes to a vector leaves the first 256 items of the new text.
The vector may be a part `v` of the state of the loop. -/
theorem items_foldl_pieces {β σ : Type} (v : σ → Vec α) (g : β → List α) {onFound : σ → β → σ}
    {onItem : σ → α → σ} (hfound : ∀ s b, v (onFound s b) = (v s).extendFromSlice (g b))
    (hitem : ∀ s a, v (onItem s a) = (v s).push a) (ps : List (Piece α β)) (s : σ) :
    (v (ps.foldl (Finder.onPiece onFound onItem) s)).items
      = ((v s).items ++ ps.flatMap (Piece.text g)).take VEC_CAP := by
  induction ps generalizing s with
  | nil => simpa using (List.take_of_length_le (v s).length_le).symm
  | cons p ps ih =>
    have hstep : (v (Finder.onPiece onFound onItem s p)).items
        = ((v s).items ++ p.text g).take VEC_CAP := by
      cases p with
      | item a =>
        show (v (onItem s a)).items = _
        rw [hitem, items_push]
        rfl
      | found b spelled =>
        show (v (onFound s b)).items = _
        rw [hfound, items_extendFromSlice]
        rfl
    rw [List.foldl_cons, ih, hstep, take_take_append, List.append_assoc, List.flatMap_cons]

/-- With nothing to replace, the loop copies the text. -/
theorem items_run_of_find_none {β σ : Type} (v : σ → Vec α) {f : Finder β}
    (h : ∀ i, f.find i = none) {onFound : σ → β → σ} {onItem : σ → α → σ}
    (hitem : ∀ s a, v (onItem s a) = (v s).push a) (xs : List α) (s : σ) :
    (v (f.run xs onFound onItem 0 s)).items = ((v s).items ++ xs).take VEC_CAP := by
  rw [Finder.run_eq_foldl, Finder.pieces_of_find_none h]
  have hfold : v ((xs.map Piece.item).foldl (Finder.onPiece onFound onItem) s)
      = (v s).extendFromSlice xs := by
    rw [List.foldl_map, extendFromSlice]
    show v (xs.foldl onItem s) = xs.foldl push (v s)
    induction xs generalizing s with
    | nil => rfl
    | cons x xs ih => rw [List.foldl_cons, List.foldl_cons, ih, hitem]
  rw [List.drop_zero, hfold, items_extendFromSlice]

end Vec

/-- `buffer::line_to_vec`. -/
def lineToVec (line : Bytes) : Vec UInt8 := Vec.new.extendFromSlice line

end OnyxShell
