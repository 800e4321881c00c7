import Mathlib.Data.List.OfFn

/-!
# `OnyxShell.Lib.LiveRows`: tables of parallel arrays

A table with room for `n` rows, of which the first `count` are live. It may lie in memory as
several arrays: `Rows` only asks for a view of a row, and for a step that copies a row over
the one before it.

`shift` is the loop that closes the gap of a row that is taken out, and `findFrom` the loop
that looks for a row. `live_shift` and `findFrom_eq` say what they do to the list of live
rows: they are `eraseIdx` and `findIdx?`.
-/

set_option autoImplicit false

namespace LiveRows

variable {τ β γ : Type} {n : Nat}

/-- A table with room for `n` rows. -/
structure Rows (τ β : Type) (n : Nat) where
  row : τ → Fin n → β
  /-- Copies row `j + 1` into row `j`. -/
  down : τ → (j : Nat) → j + 1 < n → τ
  row_down : ∀ (t : τ) (j : Nat) (h : j + 1 < n) (k : Fin n),
    row (down t j h) k = if k.val = j then row t ⟨j + 1, h⟩ else row t k

namespace Rows

variable (R : Rows τ β n) {t : τ} {count : Nat} (hle : count ≤ n)

/-- The live rows. -/
def live (t : τ) : List β := List.ofFn fun i : Fin count => R.row t (i.castLE hle)

/-- `for j in j..count - 1 { row[j] = row[j + 1] }`. -/
def shift (t : τ) (j : Nat) : τ :=
  if h : j + 1 < count then shift (R.down t j (Nat.lt_of_lt_of_le h hle)) (j + 1) else t
termination_by count - j

/-- `for i in i..count { if p(row[i]) { return i } }`. -/
def findFrom (p : β → Bool) (t : τ) (i : Nat) : Option (Fin n) :=
  if h : i < count then
    if p (R.row t ⟨i, Nat.lt_of_lt_of_le h hle⟩) then some ⟨i, Nat.lt_of_lt_of_le h hle⟩
    else findFrom p t (i + 1)
  else none
termination_by count - i

/-- There are as many live rows as the counter says. -/
theorem length_live : (R.live hle t).length = count := List.length_ofFn

/-- The live rows do not depend on how the counter is written down. -/
theorem live_count {count' : Nat} (heq : count = count') (hle' : count' ≤ n) :
    R.live hle t = R.live hle' t := by
  subst heq
  rfl

/-- A row below the counter is live. -/
theorem getElem?_live {i : Nat} (h : i < count) :
    (R.live hle t)[i]? = some (R.row t ⟨i, Nat.lt_of_lt_of_le h hle⟩) := by
  rw [live, List.getElem?_ofFn, dif_pos h]
  rfl

/-- There is no live row from the counter on. -/
theorem getElem?_live_none {i : Nat} (h : count ≤ i) : (R.live hle t)[i]? = none :=
  List.getElem?_eq_none (by rw [length_live]; exact h)

/-- What a copied row does not change, the loop does not change. -/
theorem shift_frame (f : τ → γ) (hf : ∀ (t : τ) (j : Nat) (h : j + 1 < n), f (R.down t j h) = f t)
    (t : τ) (j : Nat) : f (R.shift hle t j) = f t := by
  fun_induction R.shift hle t j with
  | case1 t j h ih => rw [ih, hf]
  | case2 t j h => rfl

/-- What the loop that closes a gap leaves in each row: the one behind it, from the gap up to the
counter. -/
theorem row_shift (t : τ) (j : Nat) (k : Fin n) :
    R.row (R.shift hle t j) k =
      if h : j ≤ k.val ∧ k.val + 1 < count then R.row t ⟨k.val + 1, Nat.lt_of_lt_of_le h.2 hle⟩
      else R.row t k := by
  -- The first copy is of row `j + 1`. The rest of the loop moves the rows behind it.
  fun_induction R.shift hle t j with
  | case1 t j hlt ih =>
    rw [ih, R.row_down]
    by_cases hkj : k.val = j
    · -- The row behind the gap: the rest of the loop is past it.
      rw [dif_neg (by omega), if_pos hkj, dif_pos ⟨Nat.le_of_eq hkj.symm, by omega⟩]
      congr 1
      exact Fin.ext (congrArg (· + 1) hkj.symm)
    · rw [if_neg hkj]
      by_cases hmoved : j + 1 ≤ k.val ∧ k.val + 1 < count
      · rw [dif_pos hmoved, dif_pos ⟨by omega, hmoved.2⟩, R.row_down, if_neg (by simp only; omega)]
      · rw [dif_neg hmoved, dif_neg (by omega)]
  | case2 t j hge => rw [dif_neg (by omega)]

/-- **The loop takes row `i` out of the live rows**, when there is one less of them. -/
theorem live_shift {i : Nat} (h : i < count) (hle' : count - 1 ≤ n) :
    R.live hle' (R.shift hle t i) = (R.live hle t).eraseIdx i := by
  apply List.ext_getElem?
  intro m
  rw [List.getElem?_eraseIdx]
  rcases Nat.lt_or_ge m (count - 1) with hm | hm
  · rw [R.getElem?_live hle' hm, R.row_shift]
    by_cases hmi : m < i
    · rw [dif_neg (by simp only; omega), if_pos hmi, R.getElem?_live hle (by omega)]
    · rw [dif_pos ⟨Nat.le_of_not_lt hmi, by simp only; omega⟩, if_neg hmi,
        R.getElem?_live hle (by omega)]
  · rw [R.getElem?_live_none hle' hm, if_neg (by omega), R.getElem?_live_none hle (by omega)]

/-- A row that is stored behind the live ones. -/
theorem live_append {t' : τ} (hlt : count < n)
    (hrow : ∀ k : Fin n, k.val < count → R.row t' k = R.row t k) :
    R.live hlt t' = R.live (Nat.le_of_lt hlt) t ++ [R.row t' ⟨count, hlt⟩] := by
  apply List.ext_getElem?
  intro m
  rcases Nat.lt_trichotomy m count with hm | rfl | hm
  · rw [List.getElem?_append_left (by rw [length_live]; exact hm),
      R.getElem?_live hlt (Nat.lt_succ_of_lt hm), R.getElem?_live (Nat.le_of_lt hlt) hm, hrow _ hm]
  · have hlast := List.getElem?_concat_length (l := R.live (Nat.le_of_lt hlt) t)
      (a := R.row t' ⟨m, hlt⟩)
    rw [length_live] at hlast
    rw [hlast, R.getElem?_live hlt (Nat.lt_succ_self m)]
  · rw [R.getElem?_live_none hlt hm, List.getElem?_eq_none]
    rw [List.length_append, length_live, List.length_singleton]
    exact hm

/-- A live row that is changed. -/
theorem live_modify {t' : τ} {i : Fin n} (f : β → β)
    (hrow : ∀ k : Fin n, R.row t' k = if k = i then f (R.row t k) else R.row t k) :
    R.live hle t' = (R.live hle t).modify i.val f := by
  apply List.ext_getElem?
  intro m
  rw [List.getElem?_modify]
  rcases Nat.lt_or_ge m count with hm | hm
  · rw [R.getElem?_live hle hm, R.getElem?_live hle hm, hrow]
    show _ = some (if i.val = m then f (R.row t ⟨m, _⟩) else R.row t ⟨m, _⟩)
    by_cases hmi : i.val = m
    · rw [if_pos hmi, if_pos (Fin.ext hmi.symm)]
    · rw [if_neg hmi, if_neg fun h => hmi (congrArg Fin.val h).symm]
  · rw [R.getElem?_live_none hle hm, R.getElem?_live_none hle hm]
    rfl

/-- The loop that looks for a row, from any row on. The induction is on what is left of the
table. -/
theorem findFrom_eq_drop (p : β → Bool) (t : τ) (i : Nat) :
    (R.findFrom hle p t i).map Fin.val = (((R.live hle t).drop i).findIdx? p).map (· + i) := by
  fun_induction R.findFrom hle p t i with
  | case1 i h hp =>
    have hget := R.getElem?_live hle (t := t) h
    have hlen : i < (R.live hle t).length := by
      rw [length_live]
      exact h
    rw [List.getElem?_eq_getElem hlen, Option.some.injEq] at hget
    rw [List.drop_eq_getElem_cons hlen, hget, List.findIdx?_cons, if_pos hp, Option.map_some,
      Option.map_some, Nat.zero_add]
  | case2 i h hp ih =>
    have hget := R.getElem?_live hle (t := t) h
    have hlen : i < (R.live hle t).length := by
      rw [length_live]
      exact h
    rw [List.getElem?_eq_getElem hlen, Option.some.injEq] at hget
    rw [ih, List.drop_eq_getElem_cons hlen, hget, List.findIdx?_cons, if_neg hp, Option.map_map]
    congr 1
    funext m
    show m + (i + 1) = m + 1 + i
    omega
  | case3 i h =>
    rw [List.drop_of_length_le (by rw [length_live]; omega)]
    rfl

/-- **The loop finds the first live row with the property.** -/
theorem findFrom_eq (p : β → Bool) (t : τ) :
    (R.findFrom hle p t 0).map Fin.val = (R.live hle t).findIdx? p := by
  rw [findFrom_eq_drop, List.drop_zero]
  show Option.map id _ = _
  rw [Option.map_id]
  rfl

variable {p : β → Bool} {i : Fin n}

/-- The row that the loop finds is the one that `findIdx?` finds. -/
theorem findIdx?_of_findFrom (h : R.findFrom hle p t 0 = some i) :
    (R.live hle t).findIdx? p = some i.val := by
  rw [← R.findFrom_eq hle p t, h, Option.map_some]

/-- What it finds is live. -/
theorem lt_of_findFrom (h : R.findFrom hle p t 0 = some i) : i.val < count := by
  have hlt := (List.findIdx?_eq_some_iff_getElem.mp (R.findIdx?_of_findFrom hle h)).1
  rw [length_live] at hlt
  exact hlt

/-- What is in the row that the loop finds is what `find?` finds. -/
theorem map_row_findFrom (p : β → Bool) (t : τ) :
    (R.findFrom hle p t 0).map (R.row t) = (R.live hle t).find? p := by
  rw [List.find?_eq_bind_findIdx?_getElem?, ← R.findFrom_eq hle p t]
  cases hfind : R.findFrom hle p t 0 with
  | none => rfl
  | some i => exact (R.getElem?_live hle (R.lt_of_findFrom hle hfind)).symm

/-- A row that is found and taken out. -/
theorem live_shift_of_findFrom (h : R.findFrom hle p t 0 = some i) (hle' : count - 1 ≤ n) :
    R.live hle' (R.shift hle t i) = (R.live hle t).eraseP p := by
  rw [R.live_shift hle (R.lt_of_findFrom hle h) hle', List.eraseP_eq_eraseIdx,
    R.findIdx?_of_findFrom hle h]

/-- Without such a row there is nothing to take out. -/
theorem eraseP_live_of_findFrom (h : R.findFrom hle p t 0 = none) :
    (R.live hle t).eraseP p = R.live hle t := by
  have hidx := R.findFrom_eq hle p t
  rw [h] at hidx
  rw [List.eraseP_eq_eraseIdx, ← hidx]
  rfl

/-- A row that is found and changed. -/
theorem live_modify_of_findFrom {t' : τ} (h : R.findFrom hle p t 0 = some i) (f : β → β)
    (hrow : ∀ k : Fin n, R.row t' k = if k = i then f (R.row t k) else R.row t k) :
    R.live hle t' = (R.live hle t).modify ((R.live hle t).findIdx p) f := by
  rw [(List.findIdx?_eq_some_iff_findIdx_eq.mp (R.findIdx?_of_findFrom hle h)).2]
  exact R.live_modify hle f hrow

/-- Without such a row there is nothing to change. -/
theorem modify_live_of_findFrom (h : R.findFrom hle p t 0 = none) (f : β → β) :
    (R.live hle t).modify ((R.live hle t).findIdx p) f = R.live hle t := by
  have hidx := R.findFrom_eq hle p t
  rw [h] at hidx
  apply List.modify_eq_self
  exact Nat.le_of_eq (List.findIdx?_eq_none_iff_findIdx_eq.mp hidx.symm).symm

end Rows

end LiveRows
