import OnyxShell.Lib.TextBuffer

/-!
# `OnyxShell.Lib.StringTable`: strings in rows of bytes, and pointers to them

What a kernel takes for the arguments and the environment of a program: an array of pointers
that ends with a zero, each to a string that ends with a NUL. The strings lie in `n` rows of
`w` bytes, one row behind the other from an address on. An access outside of a row or of an
array is `none`.

`Holds` is the invariant while a table is filled from its first row on. `strings_of_holds`
is what a reader gets who knows the memory and the pointers and nothing of the rows.
-/

set_option autoImplicit false

/-- `n` rows of `w` bytes, and `n + 1` pointers. The null pointer is not the address of a row. -/
structure StringTable (n w : Nat) where
  base : Nat
  base_pos : 0 < base
  rows : Vector (Vector UInt8 w) n
  ptrs : Vector Nat (n + 1)

namespace StringTable

variable {n w : Nat}

/-- A table of zeros. -/
def zeros : StringTable n w :=
  ⟨4096, by decide, Vector.replicate n (Vector.replicate w 0), Vector.replicate (n + 1) 0⟩

/-- The address of row `i`. -/
def address (t : StringTable n w) (i : Nat) : Nat := t.base + w * i

/-- `rows[i][pos] = b`. -/
def setByte (t : StringTable n w) (i pos : Nat) (b : UInt8) : Option (StringTable n w) :=
  if h : i < n ∧ pos < w then
    some { t with rows := t.rows.set i ((t.rows.get ⟨i, h.1⟩).set pos b h.2) h.1 }
  else none

/-- Writes bytes one after the other from `pos` on. The position behind them comes back too. -/
def writeBytes (t : StringTable n w) (i pos : Nat) : List UInt8 → Option (StringTable n w × Nat)
  | [] => some (t, pos)
  | b :: rest => (t.setByte i pos b).bind fun t => t.writeBytes i (pos + 1) rest

/-- `ptrs[i] = p`. -/
def setPtr (t : StringTable n w) (i p : Nat) : Option (StringTable n w) :=
  if h : i < n + 1 then some { t with ptrs := t.ptrs.set i p h } else none

/-- A string with its NUL at the start of row `i`, and the pointer to it. -/
def putText (t : StringTable n w) (i : Nat) (text : List UInt8) : Option (StringTable n w) := do
  let (t, pos) ← t.writeBytes i 0 text
  let t ← t.setByte i pos 0
  t.setPtr i (t.address i)

/-! ### The reader -/

/-- The rows as they lie in memory, from `base` on. -/
def memory (t : StringTable n w) : List UInt8 := t.rows.toList.flatMap Vector.toList

/-- The string at an address, up to its NUL. -/
def stringAt (t : StringTable n w) (p : Nat) : List UInt8 :=
  (t.memory.drop (p - t.base)).takeWhile (· ≠ 0)

/-- The pointers before the first zero. -/
def pointers (t : StringTable n w) : List Nat := t.ptrs.toList.takeWhile (· ≠ 0)

/-- The strings of the table, as they are read. -/
def strings (t : StringTable n w) : List (List UInt8) := t.pointers.map t.stringAt

/-! ### Filling a row -/

variable {t t' : StringTable n w} {i : Nat}

/-- Row `i` begins with these bytes. -/
def RowStarts (t : StringTable n w) (i : Nat) (bytes : List UInt8) : Prop :=
  ∃ row, t.rows[i]? = some row ∧ bytes <+: row.toList

/-- Two tables that differ in row `i` at most. -/
structure SameBut (i : Nat) (t t' : StringTable n w) : Prop where
  base : t'.base = t.base
  ptrs : t'.ptrs = t.ptrs
  rows : ∀ j, j ≠ i → t'.rows[j]? = t.rows[j]?

/-- A table differs from itself nowhere. -/
theorem SameBut.refl (i : Nat) (t : StringTable n w) : SameBut i t t :=
  ⟨rfl, rfl, fun _ _ => rfl⟩

/-- Two changes to the same row are a change to that row. -/
theorem SameBut.trans {t'' : StringTable n w} (h : SameBut i t t') (h' : SameBut i t' t'') :
    SameBut i t t'' :=
  ⟨h'.base.trans h.base, h'.ptrs.trans h.ptrs, fun j hj => (h'.rows j hj).trans (h.rows j hj)⟩

/-- Every row begins with no bytes at all. -/
theorem rowStarts_nil (t : StringTable n w) (hi : i < n) : t.RowStarts i [] :=
  ⟨t.rows[i], Vector.getElem?_eq_getElem hi, List.nil_prefix⟩

/-- One byte more. -/
theorem exists_setByte {front : List UInt8} (h : t.RowStarts i front) (hfit : front.length < w)
    (b : UInt8) :
    ∃ t', t.setByte i front.length b = some t' ∧ t'.RowStarts i (front ++ [b]) ∧
      SameBut i t t' := by
  rcases h with ⟨row, hrow, hfront⟩
  rcases Vector.getElem?_eq_some_iff.mp hrow with ⟨hi, hget⟩
  refine ⟨_, dif_pos ⟨hi, hfit⟩, ?_, rfl, rfl, ?_⟩
  · refine ⟨row.set front.length b hfit, ?_, ?_⟩
    · show (t.rows.set i (t.rows[i].set front.length b hfit) hi)[i]? = _
      rw [Vector.getElem?_set_self hi, hget]
    · rcases hfront with ⟨back, hback⟩
      have hlen : (front ++ back).length = w := by rw [hback, Vector.length_toList]
      cases back with
      | nil => simp at hlen; omega
      | cons c back =>
        refine ⟨back, ?_⟩
        rw [Vector.toList_set, ← hback, List.set_append_right _ _ (Nat.le_refl _), Nat.sub_self,
          List.set_cons_zero, List.append_assoc, List.singleton_append]
  · intro j hj
    exact Vector.getElem?_set_ne hi hj.symm

/-- More bytes. -/
theorem exists_writeBytes {front : List UInt8} (h : t.RowStarts i front) (src : List UInt8)
    (hfit : front.length + src.length ≤ w) :
    ∃ t', t.writeBytes i front.length src = some (t', (front ++ src).length) ∧
      t'.RowStarts i (front ++ src) ∧ SameBut i t t' := by
  induction src generalizing t front with
  | nil =>
    rw [List.append_nil]
    exact ⟨t, rfl, h, SameBut.refl i t⟩
  | cons b src ih =>
    rw [List.length_cons] at hfit
    rcases exists_setByte h (by omega) b with ⟨t₁, hset, hstarts, hsame⟩
    have hlen : (front ++ [b]).length = front.length + 1 := by simp
    rcases ih hstarts (by omega) with ⟨t', hwrite, hstarts', hsame'⟩
    rw [List.append_assoc, List.singleton_append] at hwrite hstarts'
    rw [hlen] at hwrite
    refine ⟨t', ?_, hstarts', hsame.trans hsame'⟩
    rw [writeBytes, hset, Option.bind_some, hwrite]

/-! ### Filling the table -/

/-- The first rows hold these strings, each with its NUL, and the first pointers point to them. -/
structure Holds (t : StringTable n w) (texts : List (List UInt8)) : Prop where
  row : ∀ i text, texts[i]? = some text → t.RowStarts i (text ++ [0])
  ptr : ∀ i < texts.length, t.ptrs[i]? = some (t.address i)

/-- Every table holds no strings at all. -/
theorem holds_nil (t : StringTable n w) : t.Holds [] :=
  ⟨fun _ _ h => (nomatch h), fun _ h => (nomatch h)⟩

/-- A string in the next row, and the pointer to it. -/
theorem Holds.concat {texts : List (List UInt8)} {text : List UInt8} (h : t.Holds texts)
    (hsame : SameBut texts.length t t') (hstarts : t'.RowStarts texts.length (text ++ [0])) :
    ∃ t'', t'.setPtr texts.length (t'.address texts.length) = some t'' ∧
      t''.Holds (texts ++ [text]) ∧ t''.base = t.base := by
  have hlen : texts.length < n + 1 := by
    rcases hstarts with ⟨row, hrow, -⟩
    exact Nat.lt_succ_of_lt (Vector.getElem?_eq_some_iff.mp hrow).1
  refine ⟨_, dif_pos hlen, ⟨?_, ?_⟩, hsame.base⟩
  · intro i s hs
    rw [List.getElem?_append] at hs
    split at hs
    · rename_i hi
      rcases h.row i s hs with ⟨row, hrow, hpre⟩
      exact ⟨row, (hsame.rows i (Nat.ne_of_lt hi)).trans hrow, hpre⟩
    · rename_i hi
      rcases List.getElem?_eq_some_iff.mp hs with ⟨hlt, rfl⟩
      have hi0 : i = texts.length := by
        rw [List.length_singleton] at hlt
        omega
      rw [List.getElem_singleton, hi0]
      exact hstarts
  · intro i hi
    rw [List.length_append, List.length_singleton] at hi
    show (t'.ptrs.set texts.length (t'.address texts.length) hlen)[i]? = some (t'.address i)
    rcases Nat.lt_or_eq_of_le (Nat.le_of_lt_succ hi) with hlt | rfl
    · rw [Vector.getElem?_set_ne hlen (Nat.ne_of_gt hlt), hsame.ptrs, h.ptr i hlt, address, address,
        hsame.base]
    · exact Vector.getElem?_set_self hlen

/-- `putText` with a string that fits. -/
theorem Holds.putText {texts : List (List UInt8)} {text : List UInt8} (h : t.Holds texts)
    (hroom : texts.length < n) (hfit : text.length < w) :
    ∃ t', t.putText texts.length text = some t' ∧ t'.Holds (texts ++ [text]) := by
  rcases exists_writeBytes (t.rowStarts_nil hroom) text (by simp; omega)
    with ⟨t₁, hwrite, hstarts₁, hsame₁⟩
  rw [List.nil_append] at hwrite hstarts₁
  rcases exists_setByte hstarts₁ hfit 0 with ⟨t₂, hset, hstarts₂, hsame₂⟩
  rcases h.concat (hsame₁.trans hsame₂) hstarts₂ with ⟨t₃, hptr, hholds, -⟩
  refine ⟨t₃, ?_, hholds⟩
  rw [List.length_nil] at hwrite
  rw [StringTable.putText, hwrite]
  show ((t₁.setByte texts.length text.length 0).bind fun t => _) = _
  rw [hset]
  exact hptr

/-- The zero behind the pointers. -/
theorem Holds.end {texts : List (List UInt8)} (h : t.Holds texts) (hroom : texts.length ≤ n) :
    ∃ t', t.setPtr texts.length 0 = some t' ∧ t'.Holds texts ∧ t'.ptrs[texts.length]? = some 0 := by
  have hlen : texts.length < n + 1 := Nat.lt_succ_of_le hroom
  refine ⟨_, dif_pos hlen, ⟨h.row, ?_⟩, Vector.getElem?_set_self hlen⟩
  intro i hi
  exact (Vector.getElem?_set_ne hlen (Nat.ne_of_gt hi)).trans (h.ptr i hi)

/-! ### Reading it back -/

/-- Row `i` lies at its address. -/
theorem drop_memory {row : Vector UInt8 w} (h : t.rows[i]? = some row) :
    row.toList <+: t.memory.drop (t.address i - t.base) := by
  have hrow : t.rows.toList[i]? = some row := by rwa [Vector.getElem?_toList]
  rw [address, Nat.add_sub_cancel_left, memory]
  clear h
  generalize t.rows.toList = rows at hrow
  induction rows generalizing i with
  | nil => cases hrow
  | cons first rows ih =>
    cases i with
    | zero =>
      rw [List.getElem?_cons_zero] at hrow
      cases hrow
      exact List.prefix_append _ _
    | succ i =>
      have hskip : w * (i + 1) = first.toList.length + w * i := by
        rw [Vector.length_toList, Nat.mul_succ, Nat.add_comm]
      rw [List.flatMap_cons, hskip, List.drop_append, List.drop_eq_nil_of_le (Nat.le_add_right _ _),
        List.nil_append, Nat.add_sub_cancel_left]
      exact ih hrow

/-- The string at a row. -/
theorem stringAt_address {text : List UInt8} (h : t.RowStarts i (text ++ [0])) :
    t.stringAt (t.address i) = text.takeWhile (· ≠ 0) := by
  rcases h with ⟨row, hrow, hpre⟩
  rcases hpre.trans (drop_memory hrow) with ⟨rest, hrest⟩
  rw [stringAt, ← hrest, List.append_assoc]
  exact TextBuffer.takeWhile_append_cons (by simp) text rest

/-- A row is not at address zero, so that no pointer to one is taken for the end. -/
theorem address_ne_zero (t : StringTable n w) (i : Nat) : t.address i ≠ 0 :=
  Nat.ne_of_gt (Nat.lt_of_lt_of_le t.base_pos (Nat.le_add_right _ _))

/-- The pointers of a table that ends behind its strings. -/
theorem pointers_of_holds {texts : List (List UInt8)} (h : t.Holds texts)
    (hend : t.ptrs[texts.length]? = some 0) :
    t.pointers = (List.range texts.length).map t.address := by
  have hlist : t.ptrs.toList
      = (List.range texts.length).map t.address ++ 0 :: t.ptrs.toList.drop (texts.length + 1) := by
    have htake : t.ptrs.toList.take texts.length = (List.range texts.length).map t.address := by
      apply List.ext_getElem?
      intro i
      rw [List.getElem?_take, List.getElem?_map]
      split
      · rename_i hi
        rw [List.getElem?_range hi, Vector.getElem?_toList, h.ptr i hi]
        rfl
      · rename_i hi
        rw [List.getElem?_eq_none (by rw [List.length_range]; omega)]
        rfl
    have hdrop : t.ptrs.toList.drop texts.length = 0 :: t.ptrs.toList.drop (texts.length + 1) := by
      rw [← Vector.getElem?_toList] at hend
      rcases List.getElem?_eq_some_iff.mp hend with ⟨hlt, hzero⟩
      rw [List.drop_eq_getElem_cons hlt, hzero]
    rw [← htake, ← hdrop, List.take_append_drop]
  rw [pointers, hlist, List.takeWhile_append_of_pos, List.takeWhile_cons_of_neg (by simp),
    List.append_nil]
  intro p hp
  rcases List.mem_map.mp hp with ⟨i, -, rfl⟩
  exact decide_eq_true (t.address_ne_zero i)

/-- **What is read is what the table holds**, each string up to its first NUL. -/
theorem strings_of_holds {texts : List (List UInt8)} (h : t.Holds texts)
    (hend : t.ptrs[texts.length]? = some 0) :
    t.strings = texts.map fun text => text.takeWhile (· ≠ 0) := by
  rw [strings, pointers_of_holds h hend, List.map_map]
  apply List.ext_getElem?
  intro i
  rw [List.getElem?_map, List.getElem?_map]
  rcases Nat.lt_or_ge i texts.length with hi | hi
  · rw [List.getElem?_range hi, List.getElem?_eq_getElem hi]
    exact congrArg some (stringAt_address (h.row i _ (List.getElem?_eq_getElem hi)))
  · rw [List.getElem?_eq_none hi, List.getElem?_eq_none (by rw [List.length_range]; exact hi)]
    rfl

end StringTable
