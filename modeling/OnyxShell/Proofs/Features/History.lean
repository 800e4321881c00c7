import OnyxShell.Features.History

/-!
# `OnyxShell.Proofs.Features.History`: pushes, navigation and references

`push_of_stores` and `push_of_not_stores` are the two outcomes of a push, and
`History.navUp_cases` and `History.navDown_cases` those of the arrows.

`items_historyExpand`: the expanded line is the line with every reference replaced by what
`History.replace` gives for it, cut at 256 bytes. A line without `!` is its own expansion.
`digitsLoop_eq`: the digits behind an index are read as their number, if it is a word.
-/

set_option autoImplicit false

namespace OnyxShell

/-! ### Pushes -/

/-- The line becomes a new entry: it is not empty and does not repeat the last one. The last one
is compared as it is stored, which is cut to its row, while the line is compared whole. -/
def History.Stores (h : History) (line : Bytes) : Prop :=
  stripEnd line ≠ [] ∧ h.last ≠ some (stripEnd line)

/-- A line that does not become an entry leaves the history as it is. -/
theorem push_of_not_stores {h : History} {line : Bytes} (hs : ¬ h.Stores line) :
    h.push line = h := by
  rw [History.push]
  split
  · rfl
  · rename_i hne
    split
    · rfl
    · rename_i hlast
      exact absurd ⟨hne, hlast⟩ hs

/-- A line that the history takes is stored without the whitespace at its end. -/
theorem push_of_stores {h : History} {line : Bytes} (hs : h.Stores line) :
    h.push line = h.store (stripEnd line) := by
  rw [History.push]
  rw [if_neg hs.1, if_neg hs.2]

/-- The last entry behind a store is the line, cut to its row. -/
theorem last_store (h : History) (line : Bytes) (hcount : h.count < USIZE_MAX) :
    (h.store line).last = some (line.take (HISTORY_LINE_MAX - 1)) := by
  have hpos : (h.store line).count ≠ 0 := by
    show min (h.count + 1) USIZE_MAX ≠ 0
    omega
  rw [History.last, if_neg hpos]
  exact congrArg some (RingBuffer.item_push_last h.ring _ hcount)

/-! ### Navigation -/

/-- What `nav_up` does: nothing at the oldest entry, and one entry further back otherwise. -/
theorem History.navUp_cases (h : History) :
    (h.navCursor = (h.ring.size : Int) - 1 ∧ h.navUp = (none, h)) ∨
    ∃ k : Nat, h.navCursor = (k : Int) - 1 ∧ k < h.ring.size ∧
      h.navUp.1 = some (h.ring.item (h.count - (k + 1))) ∧
      h.navUp.2.ring = h.ring ∧ h.navUp.2.navCursor = k := by
  have hge := h.navCursor_ge
  have hlt := h.navCursor_lt
  have holder : h.olderCursor = h.navCursor + 1 := by
    rw [History.olderCursor]
    split <;> omega
  rw [History.navUp]
  by_cases hzero : h.count = 0
  · -- Without entries the cursor is at the oldest one, which is -1.
    have hsize : h.ring.size = 0 := by
      have hring : h.ring.count = 0 := hzero
      rw [RingBuffer.size, hring, Nat.zero_min]
    rw [if_pos hzero]
    exact Or.inl ⟨by omega, rfl⟩
  · rw [if_neg hzero]
    by_cases hend : h.olderCursor ≥ h.ring.size
    · rw [dif_pos hend]
      exact Or.inl ⟨by omega, rfl⟩
    · rw [dif_neg hend]
      have hk : ((h.navCursor + 1).toNat : Int) = h.navCursor + 1 := Int.toNat_of_nonneg (by omega)
      refine Or.inr ⟨(h.navCursor + 1).toNat, by omega, by omega, ?_, rfl, ?_⟩
      · show some (h.ring.item (h.count - 1 - h.olderCursor.toNat)) = _
        rw [holder, Nat.sub_sub, Nat.add_comm 1]
      · exact holder.trans hk.symm

/-- What `nav_down` does: out of the history from the newest entry, and one entry further on
otherwise. -/
theorem History.navDown_cases (h : History) :
    (h.navCursor ≤ 0 ∧ h.navDown = (none, h.navReset)) ∨
    ∃ k : Nat, h.navCursor = (k : Int) + 1 ∧
      h.navDown.1 = some (h.ring.item (h.count - (k + 1))) ∧
      h.navDown.2.ring = h.ring ∧ h.navDown.2.navCursor = k := by
  rw [History.navDown]
  by_cases hle : h.navCursor ≤ 0
  · rw [dif_pos hle]
    exact Or.inl ⟨hle, rfl⟩
  · rw [dif_neg hle]
    have hk : ((h.navCursor - 1).toNat : Int) = h.navCursor - 1 := Int.toNat_of_nonneg (by omega)
    refine Or.inr ⟨(h.navCursor - 1).toNat, by omega, ?_, rfl, hk.symm⟩
    show some (h.ring.item (h.count - 1 - (h.navCursor - 1).toNat)) = _
    rw [Nat.sub_sub, Nat.add_comm 1]

/-! ### References -/

/-- The line as the expansion sees it: bytes and references. -/
def historyPieces (line : Bytes) : List (Piece UInt8 Reference) :=
  (referenceFinder line).pieces line 0

/-- The line with `g` in place of its references. -/
def substitute (g : Reference → Bytes) (line : Bytes) : Bytes :=
  (historyPieces line).flatMap (Piece.text g)

/-- The arrows leave the entries alone. -/
theorem History.ring_navUp (h : History) : h.navUp.2.ring = h.ring := by
  rw [navUp]
  split
  · rfl
  · split <;> rfl

/-- Going down the history moves the cursor and leaves the lines. -/
theorem History.ring_navDown (h : History) : h.navDown.2.ring = h.ring := by
  rw [navDown]
  split <;> rfl

/-- **History expansion is substitution**, up to the capacity of a `Vec`. -/
theorem items_historyExpand (h : History) (line : Bytes) :
    (historyExpand h line).1.items
      = (substitute (fun r => (h.replace r).1) line).take VEC_CAP := by
  rw [historyExpand, Finder.run_eq_foldl]
  exact Vec.items_foldl_pieces Prod.fst (fun r => (h.replace r).1) (fun _ _ => rfl)
    (fun _ _ => rfl) (historyPieces line) (Vec.new, [])

/-- A reference begins with `!`. -/
theorem referenceAt_of_not_mem {line : Bytes} (h : '!'.toUInt8 ∉ line) (i : Nat) :
    referenceAt line i = none := by
  refine if_neg fun hi => h ?_
  exact List.mem_of_getElem? hi

/-- Without `!` there is nothing to expand. -/
theorem items_historyExpand_of_not_mem {line : Bytes} (h : '!'.toUInt8 ∉ line) (hist : History) :
    (historyExpand hist line).1.items = line.take VEC_CAP := by
  apply Vec.items_run_of_find_none Prod.fst
  · exact referenceAt_of_not_mem h
  · intro out b
    rfl

/-! ### Numbers -/

/-- One digit more. -/
def addDigit (n : Nat) (d : UInt8) : Nat := n * 10 + (d - '0'.toUInt8).toNat

/-- Reading more digits makes the number no smaller. -/
theorem le_foldl_addDigit (ds : Bytes) (n : Nat) : n ≤ ds.foldl addDigit n := by
  induction ds generalizing n with
  | nil => exact Nat.le_refl n
  | cons d ds ih =>
    have hrest := ih (addDigit n d)
    rw [addDigit] at hrest
    rw [List.foldl_cons, addDigit]
    omega

/-- The digit loop reads all the digits, if their number is a word. -/
theorem digitsLoop_eq {line : Bytes} {j n : Nat}
    (hmax : ((line.drop j).takeWhile isDigit).foldl addDigit n ≤ USIZE_MAX) :
    digitsLoop line j n
      = (Scan.scanWhile isDigit line j, ((line.drop j).takeWhile isDigit).foldl addDigit n) := by
  fun_induction digitsLoop line j n with
  | case1 j n h hd v hv =>
    -- The digit that overflows would be part of the number.
    rw [List.drop_eq_getElem_cons h, List.takeWhile_cons_of_pos hd, List.foldl_cons] at hmax
    have hle := le_foldl_addDigit ((line.drop (j + 1)).takeWhile isDigit) (addDigit n (line)[j])
    exact absurd (Nat.le_trans hle hmax) (Nat.not_le.mpr hv)
  | case2 j n h hd v hv ih =>
    rw [List.drop_eq_getElem_cons h, List.takeWhile_cons_of_pos hd, List.foldl_cons] at hmax ⊢
    rw [ih hmax, Scan.scanWhile.eq_def isDigit line j, dif_pos h, if_pos hd]
    rfl
  | case3 j n h hd =>
    rw [Scan.scanWhile, dif_pos h, if_neg hd, List.drop_eq_getElem_cons h,
      List.takeWhile_cons_of_neg hd]
    rfl
  | case4 j n h =>
    rw [Scan.scanWhile, dif_neg h, List.drop_eq_nil_of_le (Nat.le_of_not_lt h)]
    rfl

end OnyxShell
