import OnyxShell.Lib.RingBuffer
import OnyxShell.Lib.Rewrite
import OnyxShell.Features.Buffer
import Mathlib.Data.List.DropRight

/-!
# `OnyxShell.Features.History`: the command history

`src/features/history.rs`: a ring of 16 lines with a navigation cursor, and the expansion
of the references `!!`, `!-n` and `!n` in a line.

`G_HISTORY` and `G_HISTORY_LEN` are one ring of byte strings, each at most 127 long. The
bounds of the strings and of the cursor are fields. `usize` arithmetic is that of a
release build: `checked_mul` and `checked_add` fail above `USIZE_MAX`, `saturating_add`
stops there, and a plain addition wraps.
-/

set_option autoImplicit false

namespace OnyxShell

/-- `history::HISTORY_SIZE`. -/
def HISTORY_SIZE : Nat := 16

/-- `history::HISTORY_LINE_MAX`. -/
def HISTORY_LINE_MAX : Nat := 128

/-- `usize::MAX`. -/
def USIZE_MAX : Nat := 2 ^ 64 - 1

instance : NeZero HISTORY_SIZE := ⟨by decide⟩

/-- The globals of `history.rs`: the ring with `G_HISTORY_COUNT`, and `G_NAV_CURSOR`. -/
structure History where
  ring : RingBuffer Bytes HISTORY_SIZE USIZE_MAX
  navCursor : Int
  length_lt : ∀ e ∈ ring.slots, e.length < HISTORY_LINE_MAX
  navCursor_ge : -1 ≤ navCursor
  navCursor_lt : navCursor < ring.size

/-- A byte that ends a line: LF, CR or NUL. -/
def isLineEnd (b : UInt8) : Bool := b == '\n'.toUInt8 || b == '\r'.toUInt8 || b == 0

/-- The line without its trailing LF, CR and NUL bytes, `line[..end]`. -/
def stripEnd (line : Bytes) : Bytes := line.rdropWhile isLineEnd

namespace History

/-- The history at the start of the program. -/
def init : History where
  ring := ⟨Vector.replicate HISTORY_SIZE [], 0, Nat.zero_le _⟩
  navCursor := -1
  length_lt := by
    intro e he
    rw [(Vector.mem_replicate.mp he).2]
    decide
  navCursor_ge := Int.le_refl _
  navCursor_lt := by decide

/-- `G_HISTORY_COUNT`. -/
abbrev count (h : History) : Nat := h.ring.count

/-- An entry is shorter than its row. -/
theorem length_item_lt (h : History) (k : Nat) : (h.ring.item k).length < HISTORY_LINE_MAX :=
  h.length_lt _ (Vector.getElem_mem (RingBuffer.slot_lt k))

/-- `history::history_last`. -/
def last (h : History) : Option Bytes :=
  if h.count = 0 then none else some (h.ring.item (h.count - 1))

/-- Stores a line, cut to the 127 bytes that fit a row. -/
def store (h : History) (line : Bytes) : History where
  ring := h.ring.push (line.take (HISTORY_LINE_MAX - 1))
  navCursor := h.navCursor
  length_lt := by
    intro e he
    rcases RingBuffer.mem_slots_push he with rfl | he
    · exact Nat.lt_of_le_of_lt (List.length_take_le _ _) (by decide)
    · exact h.length_lt e he
  navCursor_ge := h.navCursor_ge
  navCursor_lt :=
    Int.lt_of_lt_of_le h.navCursor_lt (Int.ofNat_le.mpr (RingBuffer.size_le_size_push _ _))

/-- `history::history_push`: a line that is empty or equal to the last entry is not
stored. -/
def push (h : History) (line : Bytes) : History :=
  if stripEnd line = [] then h
  else if h.last = some (stripEnd line) then h
  else h.store (stripEnd line)

/-- `history::history_get`. The sum wraps, so a huge `n` may come back into range. -/
def get (h : History) (n : Nat) : Option Bytes :=
  if h.count = 0 ∨ n = 0 then none
  else
    let stored := min h.count HISTORY_SIZE
    let oldest := h.count - stored
    let logical := (oldest + (n - 1)) % (USIZE_MAX + 1)
    if logical ≥ h.count then none else some (h.ring.item logical)

/-- `history::nav_reset`. -/
def navReset (h : History) : History :=
  { h with navCursor := -1, navCursor_ge := Int.le_refl _
           navCursor_lt := by have := Int.natCast_nonneg h.ring.size; omega }

/-- `new_cursor` in `nav_up`. -/
def olderCursor (h : History) : Int := if h.navCursor = -1 then 0 else h.navCursor + 1

/-- The cursor of the loop is at −1 or above. At −1 it has passed the newest entry. -/
theorem neg_one_le_olderCursor (h : History) : -1 ≤ h.olderCursor := by
  have hge := h.navCursor_ge
  rw [olderCursor]
  split
  · decide
  · omega

/-- `history::nav_up`: one entry further back, if there is one. -/
def navUp (h : History) : Option Bytes × History :=
  if h.count = 0 then (none, h)
  else if hlt : h.olderCursor ≥ h.ring.size then (none, h)
  else
    (some (h.ring.item (h.count - 1 - h.olderCursor.toNat)),
      { h with navCursor := h.olderCursor
               navCursor_ge := h.neg_one_le_olderCursor
               navCursor_lt := Int.not_le.mp hlt })

/-- `history::nav_down`: one entry further on, or out of the history. -/
def navDown (h : History) : Option Bytes × History :=
  if hle : h.navCursor ≤ 0 then (none, h.navReset)
  else
    let newCursor := h.navCursor - 1
    (some (h.ring.item (h.count - 1 - newCursor.toNat)),
      { h with navCursor := newCursor
               navCursor_ge := by omega
               navCursor_lt := by have := h.navCursor_lt; omega })

end History

/-- The digit loop of `history_expand` from index `j` with the number `n` read so far. It
stops before the digit that overflows. -/
def digitsLoop (line : Bytes) (j n : Nat) : Nat × Nat :=
  if h : j < line.length then
    if isDigit (line)[j] then
      let v := n * 10 + ((line)[j] - '0'.toUInt8).toNat
      -- `checked_mul` or `checked_add` fails.
      if v > USIZE_MAX then (j, n) else digitsLoop line (j + 1) v
    else (j, n)
  else (j, n)
termination_by line.length - j

/-- A reference to the history: `!!`, `!-n` with `n > 0`, or `!n`. -/
inductive Reference
  | last
  | back (n : Nat)
  | index (n : Nat)
deriving DecidableEq, Repr

/-- The reference that begins at index `i`, and the index behind it. -/
def referenceAt (line : Bytes) (i : Nat) : Option (Reference × Nat) :=
  if (line)[i]? = some '!'.toUInt8 then
    match (line)[i + 1]? with
    | none => none
    | some next =>
      if next = '!'.toUInt8 then some (.last, i + 2)
      else if next = '-'.toUInt8 then
        let number := digitsLoop line (i + 2) 0
        -- `!-0` and `!-` are no references.
        if number.2 > 0 ∧ number.1 > i + 2 then some (.back number.2, number.1) else none
      else if isDigit next then
        let number := digitsLoop line (i + 1) 0
        some (.index number.2, number.1)
      else none
  else none

/-- What `history_expand` writes for a reference, and the message it prints, if any. -/
def History.replace (h : History) : Reference → Bytes × Option Bytes
  | .last =>
    match h.last with
    | some prev => (prev, none)
    | none => (bytes "!!", some (bytes "no history yet"))
  | .back n =>
    if n ≤ min h.count HISTORY_SIZE then (h.ring.item (h.count - n), none)
    else ([], some (bytes "history index out of range"))
  | .index n =>
    match h.get n with
    | some entry => (entry, none)
    | none => ([], some (bytes "history index out of range"))

/-- The loop over the digits only goes forward. -/
theorem le_digitsLoop (line : Bytes) (j n : Nat) : j ≤ (digitsLoop line j n).1 := by
  fun_induction digitsLoop line j n with
  | case1 => exact Nat.le_refl _
  | case2 j n h hd v hv ih => exact Nat.le_of_succ_le ih
  | case3 => exact Nat.le_refl _
  | case4 => exact Nat.le_refl _

/-- A digit is read, so a number moves the index on. -/
theorem lt_digitsLoop {line : Bytes} {j : Nat} {b : UInt8} (h : (line)[j]? = some b)
    (hb : isDigit b = true) : j < (digitsLoop line j 0).1 := by
  rcases List.getElem?_eq_some_iff.mp h with ⟨hlt, rfl⟩
  have hfits : ¬ 0 * 10 + ((line)[j] - '0'.toUInt8).toNat > USIZE_MAX := by
    have := ((line)[j] - '0'.toUInt8).toNat_lt
    rw [USIZE_MAX]
    omega
  rw [digitsLoop, dif_pos hlt, if_pos hb, if_neg hfits]
  exact le_digitsLoop line (j + 1) _

/-- A reference is not empty. -/
theorem lt_of_referenceAt {line : Bytes} {i j : Nat} {r : Reference}
    (h : referenceAt line i = some (r, j)) : i < j := by
  rw [referenceAt] at h
  split at h
  · split at h
    · cases h
    · rename_i next hnext
      split at h
      · cases h
        exact Nat.lt_add_of_pos_right (by decide)
      · split at h
        · have hle := le_digitsLoop line (i + 2) 0
          simp only at h
          split at h
          · cases h
            omega
          · cases h
        · split at h
          · rename_i hdigit
            have hlt := lt_digitsLoop hnext hdigit
            cases h
            omega
          · cases h
  · cases h

/-- The references of a line. -/
def referenceFinder (line : Bytes) : Finder Reference := ⟨referenceAt line, lt_of_referenceAt⟩

/-- `history::history_expand`: the expanded line, and the messages printed. -/
def historyExpand (h : History) (line : Bytes) : Vec UInt8 × List Bytes :=
  (referenceFinder line).run line
    (fun out r => (out.1.extendFromSlice (h.replace r).1, out.2 ++ (h.replace r).2.toList))
    (fun out b => (out.1.push b, out.2)) 0 (Vec.new, [])

end OnyxShell
