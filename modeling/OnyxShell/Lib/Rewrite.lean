import Mathlib.Data.List.Basic

/-!
# `OnyxShell.Lib.Rewrite`: one-pass replacement in a list

A loop with one index walks over a list. Where a `Finder` finds something, the loop
handles what was found and goes on behind it. Elsewhere it handles one item. `run` is
that loop, over an arbitrary state. `pieces` is the list it walks over, cut into single
items and finds, and `run_eq_foldl` says that the loop is a fold over the pieces.
-/

set_option autoImplicit false

variable {α β σ : Type}

/-- What is found at an index of a list, and the index behind it, which is further on. -/
structure Finder (β : Type) where
  find : Nat → Option (β × Nat)
  lt : ∀ {i j : Nat} {b : β}, find i = some (b, j) → i < j

/-- A piece of a list: an item, or a find with the items it was found in. -/
inductive Piece (α β : Type)
  | item (a : α)
  | found (b : β) (spelled : List α)
deriving DecidableEq, Repr

/-- A piece as it stands in the list. -/
def Piece.spelled : Piece α β → List α
  | .item a => [a]
  | .found _ spelled => spelled

/-- A piece with the text `g` in place of a find. -/
def Piece.text (g : β → List α) : Piece α β → List α
  | .item a => [a]
  | .found b _ => g b

namespace Finder

/-- The loop from index `i` with state `s`. -/
def run (f : Finder β) (xs : List α) (onFound : σ → β → σ) (onItem : σ → α → σ) (i : Nat) (s : σ) :
    σ :=
  if hi : i < xs.length then
    match _hf : f.find i with
    | some (b, j) => run f xs onFound onItem j (onFound s b)
    | none => run f xs onFound onItem (i + 1) (onItem s xs[i])
  else s
termination_by xs.length - i
decreasing_by
  · have := f.lt _hf
    omega
  · omega

/-- The pieces of the list from index `i` on. -/
def pieces (f : Finder β) (xs : List α) (i : Nat) : List (Piece α β) :=
  if hi : i < xs.length then
    match _hf : f.find i with
    | some (b, j) => .found b ((xs.drop i).take (j - i)) :: pieces f xs j
    | none => .item xs[i] :: pieces f xs (i + 1)
  else []
termination_by xs.length - i
decreasing_by
  · have := f.lt _hf
    omega
  · omega

/-- A find is the first piece. -/
theorem pieces_found {f : Finder β} {xs : List α} {i j : Nat} {b : β} (hi : i < xs.length)
    (hf : f.find i = some (b, j)) :
    f.pieces xs i = .found b ((xs.drop i).take (j - i)) :: f.pieces xs j := by
  rw [pieces, dif_pos hi]
  split
  · rename_i b' j' hf'
    rw [hf] at hf'
    cases hf'
    rfl
  · rename_i hf'
    rw [hf] at hf'
    cases hf'

/-- Where nothing is found, an item is the first piece. -/
theorem pieces_item {f : Finder β} {xs : List α} {i : Nat} (hi : i < xs.length)
    (hf : f.find i = none) : f.pieces xs i = .item xs[i] :: f.pieces xs (i + 1) := by
  rw [pieces, dif_pos hi]
  split
  · rename_i b' j' hf'
    rw [hf] at hf'
    cases hf'
  · rfl

/-- Behind the end there are no pieces. -/
theorem pieces_end {f : Finder β} {xs : List α} {i : Nat} (hi : ¬ i < xs.length) :
    f.pieces xs i = [] := by
  rw [pieces, dif_neg hi]

/-- What the loop does with one piece. -/
def onPiece (onFound : σ → β → σ) (onItem : σ → α → σ) (s : σ) : Piece α β → σ
  | .item a => onItem s a
  | .found b _ => onFound s b

/-- **The loop is a fold over the pieces.** -/
theorem run_eq_foldl (f : Finder β) (xs : List α) (onFound : σ → β → σ) (onItem : σ → α → σ)
    (i : Nat) (s : σ) :
    f.run xs onFound onItem i s = (f.pieces xs i).foldl (onPiece onFound onItem) s := by
  fun_induction run f xs onFound onItem i s with
  | case1 i s hi b j hf ih =>
    rw [ih, pieces_found hi hf]
    rfl
  | case2 i s hi hf ih =>
    rw [ih, pieces_item hi hf]
    rfl
  | case3 i s hi =>
    rw [pieces_end hi]
    rfl

/-- Loops that handle alike what they find do the same. -/
theorem run_congr {f : Finder β} {xs : List α} {onFound onFound' : σ → β → σ} {onItem : σ → α → σ}
    {i : Nat} (h : ∀ s b spelled, .found b spelled ∈ f.pieces xs i → onFound s b = onFound' s b)
    (s : σ) : f.run xs onFound onItem i s = f.run xs onFound' onItem i s := by
  rw [run_eq_foldl, run_eq_foldl]
  apply List.foldl_ext
  intro s piece hpiece
  cases piece with
  | item a => rfl
  | found b spelled => exact h s b spelled hpiece

/-- Put together, the pieces are the list. -/
theorem flatMap_spelled (f : Finder β) (xs : List α) (i : Nat) :
    (f.pieces xs i).flatMap Piece.spelled = xs.drop i := by
  fun_induction pieces f xs i with
  | case1 i hi b j hf ih =>
    have hlt := f.lt hf
    have hsplit := List.take_append_drop (j - i) (xs.drop i)
    rw [List.drop_drop, Nat.add_sub_cancel' (Nat.le_of_lt hlt)] at hsplit
    rw [List.flatMap_cons, ih]
    exact hsplit
  | case2 i hi hf ih =>
    rw [List.flatMap_cons, ih]
    exact (List.drop_eq_getElem_cons hi).symm
  | case3 i hi => exact (List.drop_eq_nil_of_le (Nat.le_of_not_lt hi)).symm

/-- With nothing to find, every piece is an item. -/
theorem pieces_of_find_none {f : Finder β} (h : ∀ i, f.find i = none) (xs : List α) (i : Nat) :
    f.pieces xs i = (xs.drop i).map Piece.item := by
  fun_induction pieces f xs i with
  | case1 i hi b j hf ih =>
    rw [h i] at hf
    cases hf
  | case2 i hi hf ih => rw [ih, List.drop_eq_getElem_cons hi, List.map_cons]
  | case3 i hi => rw [List.drop_eq_nil_of_le (Nat.le_of_not_lt hi), List.map_nil]

end Finder

/-- Reads something at the front of a list and leaves the rest, which is shorter. -/
structure Reader (α β : Type) where
  read : List α → Option (β × List α)
  lt : ∀ {xs rest : List α} {b : β}, read xs = some (b, rest) → rest.length < xs.length

namespace Reader

/-- One pass over the list, without an index: `g` in place of what is read, and every other
item as it is. What `g` gives is not read again. -/
def replace (r : Reader α β) (g : β → List α) : List α → List α
  | [] => []
  | x :: xs =>
    match _h : r.read (x :: xs) with
    | some (b, rest) => g b ++ replace r g rest
    | none => x :: replace r g xs
termination_by xs => xs.length
decreasing_by
  · exact r.lt _h
  · exact Nat.lt_succ_self _

/-- What is read is replaced. -/
theorem replace_some {r : Reader α β} {g : β → List α} {xs rest : List α} {b : β}
    (h : r.read xs = some (b, rest)) : r.replace g xs = g b ++ r.replace g rest := by
  cases xs with
  | nil => exact absurd (r.lt h) (Nat.not_lt_zero _)
  | cons x xs =>
    rw [replace]
    split
    · rename_i b' rest' h'
      rw [h] at h'
      cases h'
      rfl
    · rename_i h'
      rw [h] at h'
      cases h'

/-- Where nothing is read, an item is copied. -/
theorem replace_none {r : Reader α β} {g : β → List α} {x : α} {xs : List α}
    (h : r.read (x :: xs) = none) : r.replace g (x :: xs) = x :: r.replace g xs := by
  rw [replace]
  split
  · rename_i b rest h'
    rw [h] at h'
    cases h'
  · rfl

/-- A list in which nothing is read stays as it is. -/
theorem replace_of_read_none {r : Reader α β} {g : β → List α} {xs : List α}
    (h : ∀ i, r.read (xs.drop i) = none) : r.replace g xs = xs := by
  induction xs with
  | nil => rw [replace]
  | cons x xs ih => rw [replace_none (h 0), ih fun i => h (i + 1)]

end Reader

/-- The finder finds at each index what the reader reads at the front of the list behind it. -/
def Finder.Reads (f : Finder β) (r : Reader α β) (xs : List α) : Prop :=
  ∀ i < xs.length, r.read (xs.drop i) = (f.find i).map fun p => (p.1, xs.drop p.2)

/-- **The loop over indices is the pass over the list.** -/
theorem Finder.text_pieces {f : Finder β} {r : Reader α β} {xs : List α} (h : f.Reads r xs)
    (g : β → List α) (i : Nat) : (f.pieces xs i).flatMap (Piece.text g) = r.replace g (xs.drop i) := by
  fun_induction Finder.pieces f xs i with
  | case1 i hi b j hf ih =>
    have hread : r.read (xs.drop i) = some (b, xs.drop j) := by rw [h i hi, hf, Option.map_some]
    rw [List.flatMap_cons, ih, Reader.replace_some hread]
    rfl
  | case2 i hi hf ih =>
    have hread : r.read (xs.drop i) = none := by rw [h i hi, hf, Option.map_none]
    rw [List.drop_eq_getElem_cons hi] at hread ⊢
    rw [List.flatMap_cons, ih, Reader.replace_none hread]
    rfl
  | case3 i hi => rw [List.drop_eq_nil_of_le (Nat.le_of_not_lt hi), List.flatMap_nil, Reader.replace]

/-- Finds that are replaced alike make the same text. -/
theorem Finder.text_congr {f : Finder β} {g g' : β → List α} {xs : List α}
    (h : ∀ i < xs.length, ∀ b j, f.find i = some (b, j) → g b = g' b) (i : Nat) :
    (f.pieces xs i).flatMap (Piece.text g) = (f.pieces xs i).flatMap (Piece.text g') := by
  fun_induction Finder.pieces f xs i with
  | case1 i hi b j hf ih =>
    rw [List.flatMap_cons, List.flatMap_cons, ih]
    exact congrArg (· ++ _) (h i hi b j hf)
  | case2 i hi hf ih =>
    rw [List.flatMap_cons, List.flatMap_cons, ih]
    rfl
  | case3 i hi => rfl

/-- A stretch of the list in which nothing is found stays as it is. -/
theorem Finder.text_pieces_skip {f : Finder β} {g : β → List α} {xs : List α} {i n : Nat}
    (hn : i + n ≤ xs.length) (hnone : ∀ k, i ≤ k → k < i + n → f.find k = none) :
    (f.pieces xs i).flatMap (Piece.text g)
      = (xs.drop i).take n ++ (f.pieces xs (i + n)).flatMap (Piece.text g) := by
  induction n generalizing i with
  | zero => rw [Nat.add_zero, List.take_zero, List.nil_append]
  | succ n ih =>
    have hi : i < xs.length := by omega
    have hrest := ih (i := i + 1) (by omega) fun k hk hkn => hnone k (by omega) (by omega)
    rw [Finder.pieces_item hi (hnone i (Nat.le_refl i) (by omega)), List.flatMap_cons, hrest,
      List.drop_eq_getElem_cons hi, List.take_succ_cons, Nat.add_right_comm]
    rfl
