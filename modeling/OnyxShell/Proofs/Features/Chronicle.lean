import OnyxShell.Features.Chronicle
import OnyxShell.Proofs.Features.History

/-!
# `OnyxShell.Proofs.Features.Chronicle`: numbers, repeated lines and the arrows

Every chronicle that calls can lead to is `Sound`: the rows beside the history are those of
the ring. From there the entries are items of the ring (`getElem?_entries`), and the three
main results are about its items. `getsExactly_iff` says which numbers `history_get` answers
right, `eachPush_settles_iff` in which runs no line is stored twice in a row, and
`navigates_ofCalls` that the arrows move along the entries.
-/

set_option autoImplicit false

namespace OnyxShell

open RingBuffer (rewritten lastRows)

namespace Chronicle

/-- The rows are those of the ring, in the order in which they were written. -/
structure Sound (c : Chronicle) : Prop where
  chronicled : c.history.ring.Chronicled c.rows (min c.stored (USIZE_MAX + 1))

/-- The record of no push at all is sound. -/
theorem sound_start : start.Sound := ⟨⟨rfl, Nat.zero_le _, rfl⟩⟩

/-- A line that is not stored changes nothing. -/
theorem push_of_not_stores {c : Chronicle} {line : Bytes} (hs : ¬ c.history.Stores line) :
    c.push line = c := by
  have hcond : stripEnd line = [] ∨ c.history.last = some (stripEnd line) := by
    by_contra hnot
    exact hs (not_or.mp hnot)
  rw [push, if_pos hcond, OnyxShell.push_of_not_stores hs]

/-- A line that is stored goes to the row that the counter names, and the record notes the push
that it came from. -/
theorem push_of_stores {c : Chronicle} {line : Bytes} (hs : c.history.Stores line) :
    c.push line =
      ⟨c.history.store (stripEnd line),
        rewritten c.rows (c.history.count % HISTORY_SIZE)
          ((stripEnd line).take (HISTORY_LINE_MAX - 1)),
        c.stored + 1⟩ := by
  rw [push, if_neg (not_or.mpr hs), OnyxShell.push_of_stores hs]

/-- A push keeps the rows in order. -/
theorem Sound.push {c : Chronicle} (hc : c.Sound) (line : Bytes) : (c.push line).Sound := by
  by_cases hs : c.history.Stores line
  · rw [push_of_stores hs]
    have hcount := hc.chronicled.count
    have hpush := RingBuffer.chronicled_push hc.chronicled (by decide)
      ((stripEnd line).take (HISTORY_LINE_MAX - 1))
    have hwritten : c.history.ring.count + 1 = min (c.stored + 1) (USIZE_MAX + 1) := by omega
    rw [hwritten] at hpush
    exact ⟨hpush⟩
  · rw [push_of_not_stores hs]
    exact hc

/-! ### The entries -/

/-- The counter is the number of entries stored, until it stops. -/
theorem Sound.count_eq {c : Chronicle} (hc : c.Sound) :
    c.history.count = min c.stored USIZE_MAX := by
  have hcount : c.history.count = min (min c.stored (USIZE_MAX + 1)) USIZE_MAX := hc.chronicled.count
  omega

/-- The entries are the last rows of the ring, without the numbers of their pushes. -/
theorem Sound.entries_eq {c : Chronicle} (hc : c.Sound) :
    c.entries = (c.history.ring.lastRows (min c.stored (USIZE_MAX + 1))).map Prod.snd := by
  rw [entries, hc.chronicled.rows]

/-- There are as many entries as have been stored, up to the size of the ring. -/
theorem Sound.length_entries {c : Chronicle} (hc : c.Sound) :
    c.entries.length = min c.history.count HISTORY_SIZE := by
  have hcount := hc.count_eq
  have hsize : HISTORY_SIZE = 16 := rfl
  have hmax : USIZE_MAX = 18446744073709551615 := rfl
  rw [hc.entries_eq, List.length_map, RingBuffer.length_lastRows]
  omega

/-- The entries are items of the ring. -/
theorem Sound.getElem?_entries {c : Chronicle} (hc : c.Sound) {i : Nat} (hi : i < c.entries.length) :
    c.entries[i]? =
      some (c.history.ring.item (min c.stored (USIZE_MAX + 1) - HISTORY_SIZE + i)) := by
  rw [hc.entries_eq, List.length_map, RingBuffer.length_lastRows] at hi
  rw [hc.entries_eq]
  exact RingBuffer.getElem?_lastRows _ hi

/-! ### Numbers -/

/-- What `history_get` does where the sum does not wrap. -/
theorem get_of_fits {h : History} {n : Nat} (hn : 1 ≤ n)
    (hfits : h.count - min h.count HISTORY_SIZE + (n - 1) ≤ USIZE_MAX) :
    h.get n =
      if n ≤ min h.count HISTORY_SIZE then
        some (h.ring.item (h.count - min h.count HISTORY_SIZE + (n - 1)))
      else none := by
  rw [History.get]
  by_cases hzero : h.count = 0
  · rw [if_pos (Or.inl hzero), if_neg (by omega)]
  · rw [if_neg (by omega)]
    simp only [Nat.mod_eq_of_lt (Nat.lt_succ_of_le hfits)]
    by_cases hle : n ≤ min h.count HISTORY_SIZE
    · rw [if_neg (by omega), if_pos hle]
    · rw [if_pos (by omega), if_neg hle]

/-- A sum that wraps comes back into the range of the entries. -/
theorem get_of_wraps {h : History} {n : Nat} (hn : n ≤ USIZE_MAX)
    (hwraps : USIZE_MAX < h.count - min h.count HISTORY_SIZE + (n - 1)) : (h.get n).isSome := by
  have hle : h.count ≤ USIZE_MAX := h.ring.count_le
  have hpos : ¬ (h.count = 0 ∨ n = 0) := by omega
  have hmod : (h.count - min h.count HISTORY_SIZE + (n - 1)) % (USIZE_MAX + 1) < h.count := by
    rw [Nat.mod_eq_sub_mod hwraps, Nat.mod_eq_of_lt (by omega)]
    omega
  rw [History.get, if_neg hpos]
  simp only [if_neg (Nat.not_le.mpr hmod)]
  rfl

/-- Which numbers `history_get` answers right. -/
theorem Sound.getsExactly_iff_indexFits {c : Chronicle} (hc : c.Sound) (n : UInt64) :
    c.GetsExactly n ↔ c.IndexFits n := by
  have hword : n.toNat ≤ USIZE_MAX := Nat.le_of_lt_succ n.toNat_lt
  have hlen := hc.length_entries
  have hcount := hc.count_eq
  have hsize : HISTORY_SIZE = 16 := rfl
  have hmax : USIZE_MAX = 18446744073709551615 := rfl
  rw [GetsExactly, IndexFits]
  generalize n.toNat = k at hword ⊢
  rcases Nat.eq_zero_or_pos k with rfl | hk
  · -- No entry has the number 0.
    have hnone : c.history.get 0 = none := if_pos (Or.inr rfl)
    rw [hnone]
    simp
  · rcases Nat.lt_or_ge USIZE_MAX (c.history.count - min c.history.count HISTORY_SIZE + (k - 1))
      with hwraps | hfits
    · -- The sum wraps: an entry comes back, and the number is out of range.
      constructor
      · rintro ⟨hsome, -⟩
        have hrange := hsome.mp (get_of_wraps hword hwraps)
        omega
      · rintro ⟨hfits, -⟩
        omega
    · -- The sum is an item of the ring, and it is compared with the entry of the number.
      have hone : 1 ≤ k := hk
      have hget := get_of_fits hk hfits
      rw [← hlen] at hget hfits
      rw [hget, ← hlen]
      by_cases hle : k ≤ c.entries.length
      · have hentry := hc.getElem?_entries (i := k - 1) (by omega)
        rw [if_pos hle, hentry]
        by_cases hover : c.stored > USIZE_MAX
        · -- The counter has stopped, and the item taken is the one before.
          have hmod : (k + 14) % HISTORY_SIZE < HISTORY_SIZE := Nat.mod_lt _ (by decide)
          have hbefore := hc.getElem?_entries (i := (k + 14) % HISTORY_SIZE) (by omega)
          have hsame : c.history.ring.item
              (min c.stored (USIZE_MAX + 1) - HISTORY_SIZE + (k + 14) % HISTORY_SIZE)
                = c.history.ring.item (c.history.count - c.entries.length + (k - 1)) := by
            apply RingBuffer.item_congr
            rw [hsize]
            omega
          rw [hbefore, hsame]
          simp [hone, hle, hover, hfits]
        · -- The counter goes on, so both count from the same item.
          have hsame : c.history.count - c.entries.length
              = min c.stored (USIZE_MAX + 1) - HISTORY_SIZE := by omega
          rw [hsame] at hfits ⊢
          simp [hone, hle, hover, hfits]
      · -- Nothing comes back, and there is no such entry.
        rw [if_neg hle]
        simp [hle, hfits]

/-! ### Repeated lines -/

/-- In the ring, no two neighbouring items of the last ones are equal. -/
theorem Sound.isChain_iff {c : Chronicle} (hc : c.Sound) :
    c.entries.IsChain (· ≠ ·) ↔
      ∀ k, min c.stored (USIZE_MAX + 1) ≤ k + HISTORY_SIZE →
        k + 1 < min c.stored (USIZE_MAX + 1) →
        c.history.ring.item k ≠ c.history.ring.item (k + 1) := by
  have hlen := hc.length_entries
  have hcount := hc.count_eq
  have hsize : HISTORY_SIZE = 16 := rfl
  have hmax : USIZE_MAX = 18446744073709551615 := rfl
  have hentry : ∀ i (hi : i < c.entries.length), c.entries[i] =
      c.history.ring.item (min c.stored (USIZE_MAX + 1) - HISTORY_SIZE + i) := fun i hi =>
    Option.some.inj ((List.getElem?_eq_getElem hi).symm.trans (hc.getElem?_entries hi))
  rw [List.isChain_iff_getElem]
  constructor
  · intro h k hlow hhigh
    have hne := h (k - (min c.stored (USIZE_MAX + 1) - HISTORY_SIZE)) (by omega)
    rw [hentry _ (by omega), hentry _ (by omega)] at hne
    have hk : min c.stored (USIZE_MAX + 1) - HISTORY_SIZE
        + (k - (min c.stored (USIZE_MAX + 1) - HISTORY_SIZE)) = k := by omega
    rw [← Nat.add_assoc, hk] at hne
    exact hne
  · intro h i hi
    rw [hentry _ (by omega), hentry _ (by omega)]
    exact h _ (by omega) (by omega)

/-- The last entry is the item below the counter. -/
theorem last_eq_item {h : History} {e : Bytes} :
    h.last = some e ↔ h.count ≠ 0 ∧ h.ring.item (h.count - 1) = e := by
  rw [History.last]
  split
  · rename_i hzero
    simp [hzero]
  · rename_i hpos
    simp [hpos]

/-- A stored line makes two equal neighbours just when it is cut to the last entry. -/
theorem Sound.isChain_push {c : Chronicle} (hc : c.Sound) {line : Bytes}
    (hs : c.history.Stores line) (hchain : c.entries.IsChain (· ≠ ·)) :
    (c.push line).entries.IsChain (· ≠ ·) ↔
      c.history.last ≠ some ((stripEnd line).take (HISTORY_LINE_MAX - 1)) := by
  have hcount := hc.count_eq
  have hsize : HISTORY_SIZE = 16 := rfl
  have hmax : USIZE_MAX = 18446744073709551615 := rfl
  have hring : (c.push line).history.ring
      = c.history.ring.push ((stripEnd line).take (HISTORY_LINE_MAX - 1)) := by
    rw [push_of_stores hs]
    rfl
  have hstored : (c.push line).stored = c.stored + 1 := by rw [push_of_stores hs]
  -- The item that is written is the one with the number of the counter.
  have hnew : min (c.push line).stored (USIZE_MAX + 1) = c.history.count + 1 := by omega
  have hold : ∀ k, k < c.history.count → c.history.count < k + HISTORY_SIZE →
      (c.push line).history.ring.item k = c.history.ring.item k := by
    intro k hk hnear
    rw [hring, RingBuffer.item_push, if_neg fun hslot => ?_]
    have := RingBuffer.eq_of_slot_eq (Nat.le_of_lt hk) hnear hslot
    omega
  have hitem : (c.push line).history.ring.item c.history.count
      = (stripEnd line).take (HISTORY_LINE_MAX - 1) := by
    rw [hring, RingBuffer.item_push, if_pos rfl]
  rw [(hc.push line).isChain_iff, hnew, Ne, last_eq_item]
  constructor
  · -- The last two items are the last entry and the line.
    rintro h ⟨hpos, hlast⟩
    have hne := h (c.history.count - 1) (by omega) (by omega)
    rw [Nat.sub_add_cancel (Nat.pos_of_ne_zero hpos), hitem, hold _ (by omega) (by omega)] at hne
    exact hne hlast
  · intro h k hlow hhigh
    rw [hold k (by omega) (by omega)]
    -- A pair of old items, or the last entry and the line.
    rcases Nat.lt_or_ge (k + 1) c.history.count with hlt | hge
    · rw [hold (k + 1) hlt (by omega)]
      exact hc.isChain_iff.mp hchain k (by omega) (by omega)
    · have hk : k + 1 = c.history.count := by omega
      rw [hk, hitem]
      intro heq
      refine h ⟨by omega, ?_⟩
      rw [← hk, Nat.add_sub_cancel]
      exact heq

/-- Storing a line twice is storing it once at the end of the counter only. -/
theorem store_store_iff (h : History) (line : Bytes) :
    (h.store line).store line = h.store line ↔
      h.count = USIZE_MAX ∨
      h.count + 1 = USIZE_MAX ∧ h.ring.item USIZE_MAX = line.take (HISTORY_LINE_MAX - 1) := by
  have hle : h.count ≤ USIZE_MAX := h.ring.count_le
  have hring : (h.store line).store line = h.store line ↔
      (h.ring.push (line.take (HISTORY_LINE_MAX - 1))).push (line.take (HISTORY_LINE_MAX - 1))
        = h.ring.push (line.take (HISTORY_LINE_MAX - 1)) := by
    rw [History.store, History.store, History.mk.injEq]
    exact and_iff_left rfl
  rw [hring]
  rcases Nat.lt_trichotomy (h.count + 1) USIZE_MAX with hlt | hlast | hgt
  · -- The counter goes on with both stores.
    have hne := (RingBuffer.push_push_ne (line.take (HISTORY_LINE_MAX - 1))
      (line.take (HISTORY_LINE_MAX - 1)) hlt).2
    constructor
    · exact fun heq => absurd heq (hne _)
    · rintro (hfull | ⟨hlast, -⟩)
      · omega
      · omega
  · -- The first store stops the counter, and the second one writes to the next row.
    constructor
    · intro heq
      exact Or.inr ⟨hlast,
        (RingBuffer.push_push_of_last _ _ (by decide) hlast).mp ⟨_, heq⟩⟩
    · rintro (hfull | ⟨-, hitem⟩)
      · omega
      · exact RingBuffer.push_push_of_item (by decide) hlast hitem
  · -- The counter has stopped, and both stores write to one row.
    have hfull : h.count = USIZE_MAX := by omega
    exact iff_of_true (RingBuffer.push_push_of_full _ _ hfull) (Or.inl hfull)

/-- An entry is shorter than its row. -/
theorem length_last_lt {h : History} {e : Bytes} (he : h.last = some e) :
    e.length < HISTORY_LINE_MAX := by
  rw [← (last_eq_item.mp he).2]
  exact h.length_item_lt _

/-- A line that fits its row is found again. -/
theorem push_store_of_short {h : History} {line : Bytes}
    (hshort : (stripEnd line).length < HISTORY_LINE_MAX) :
    (h.store (stripEnd line)).push line = h.store (stripEnd line) := by
  have hcut : (stripEnd line).take (HISTORY_LINE_MAX - 1) = stripEnd line :=
    List.take_of_length_le (Nat.le_pred_of_lt hshort)
  by_cases hs : (h.store (stripEnd line)).Stores line
  · -- It would only be stored again where the counter has stopped.
    rcases Nat.lt_or_ge h.count USIZE_MAX with hlt | hge
    · have hlast := last_store h (stripEnd line) hlt
      rw [hcut] at hlast
      exact absurd hlast hs.2
    · have hfull : h.count = USIZE_MAX := Nat.le_antisymm h.ring.count_le hge
      rw [OnyxShell.push_of_stores hs]
      exact (store_store_iff h _).mpr (Or.inl hfull)
  · exact OnyxShell.push_of_not_stores hs

/-- A line that does not fit its row is not found again. -/
theorem push_store_of_long {h : History} {line : Bytes} (hs : h.Stores line)
    (hlong : ¬ (stripEnd line).length < HISTORY_LINE_MAX) :
    (h.store (stripEnd line)).push line = (h.store (stripEnd line)).store (stripEnd line) :=
  OnyxShell.push_of_stores ⟨hs.1, fun hlast => hlong (length_last_lt hlast)⟩

/-- One push settles just when its line fits a row. -/
theorem Sound.settles_iff {c : Chronicle} (hc : c.Sound) (hchain : c.entries.IsChain (· ≠ ·))
    (line : Bytes) : c.Settles line ↔ c.FitsRow line := by
  by_cases hs : c.history.Stores line
  · have hpush := OnyxShell.push_of_stores hs
    rw [Settles, hpush, hc.isChain_push hs hchain, FitsRow]
    by_cases hshort : (stripEnd line).length < HISTORY_LINE_MAX
    · have hcut : (stripEnd line).take (HISTORY_LINE_MAX - 1) = stripEnd line :=
        List.take_of_length_le (Nat.le_pred_of_lt hshort)
      rw [hcut]
      exact iff_of_true ⟨push_store_of_short hshort, hs.2⟩ (Or.inl hshort)
    · rw [push_store_of_long hs hshort, store_store_iff]
      constructor
      · rintro ⟨hend, hlast⟩
        exact Or.inr ⟨hlast, hend⟩
      · rintro (hshort' | ⟨hlast, hend⟩)
        · exact absurd hshort' hshort
        · exact ⟨hend, hlast⟩
  · have hsame := OnyxShell.push_of_not_stores hs
    refine iff_of_true ⟨by rw [hsame, hsame], by rw [push_of_not_stores hs]; exact hchain⟩ ?_
    -- The line is empty or the last entry.
    by_cases hnil : stripEnd line = []
    · exact Or.inl (by rw [hnil]; decide)
    · have hlast : c.history.last = some (stripEnd line) := by
        by_contra hne
        exact hs ⟨hnil, hne⟩
      exact Or.inl (length_last_lt hlast)

/-- A run whose lines all fit their rows settles all along, and no other run does. -/
theorem Sound.eachPush_settles_iff_fitsRow {c : Chronicle} (hc : c.Sound)
    (hchain : c.entries.IsChain (· ≠ ·)) (lines : List Bytes) :
    EachPush Settles c lines ↔ EachPush FitsRow c lines := by
  induction lines generalizing c with
  | nil => exact Iff.rfl
  | cons line lines ih =>
    constructor
    · rintro ⟨hline, hrest⟩
      exact ⟨(hc.settles_iff hchain line).mp hline, (ih (hc.push line) hline.2).mp hrest⟩
    · rintro ⟨hline, hrest⟩
      have hsettles := (hc.settles_iff hchain line).mpr hline
      exact ⟨hsettles, (ih (hc.push line) hsettles.2).mpr hrest⟩

/-! ### Navigation -/

/-- A history is its ring and its cursor. -/
theorem eq_of_ring_cursor {h h' : History} (hring : h.ring = h'.ring)
    (hcursor : h.navCursor = h'.navCursor) : h = h' := by
  cases h
  cases h'
  cases hring
  cases hcursor
  rfl

/-- A history with the same ring has the same rows. -/
theorem Sound.of_ring {c : Chronicle} (hc : c.Sound) {h : History}
    (hring : h.ring = c.history.ring) : Sound { c with history := h } :=
  ⟨by rw [hring]; exact hc.chronicled⟩

/-- Every call keeps the rows in order, and stores at most one entry if it is a push. -/
theorem Sound.call {c : Chronicle} (hc : c.Sound) (k : HistoryCall) :
    (c.call k).2.Sound ∧ (c.call k).2.stored ≤ c.stored + if k.isPush then 1 else 0 := by
  cases k with
  | push line =>
    refine ⟨hc.push line, ?_⟩
    show (c.push line).stored ≤ c.stored + 1
    rw [Chronicle.push]
    split
    · exact Nat.le_succ _
    · exact Nat.le_refl _
  | navReset => exact ⟨hc.of_ring rfl, Nat.le_refl _⟩
  | navUp => exact ⟨hc.of_ring (History.ring_navUp _), Nat.le_refl _⟩
  | navDown => exact ⟨hc.of_ring (History.ring_navDown _), Nat.le_refl _⟩

/-- What a run of calls leads to is sound, and has stored at most one entry for each push. -/
theorem sound_ofCalls (calls : List HistoryCall) :
    (ofCalls calls).Sound ∧ (ofCalls calls).stored ≤ calls.countP HistoryCall.isPush := by
  suffices h : ∀ c : Chronicle, c.Sound →
      (calls.foldl (fun c k => (c.call k).2) c).Sound ∧
      (calls.foldl (fun c k => (c.call k).2) c).stored
        ≤ c.stored + calls.countP HistoryCall.isPush by
    have hrun := h start sound_start
    have hzero : start.stored = 0 := rfl
    rw [hzero, Nat.zero_add] at hrun
    exact hrun
  induction calls with
  | nil => exact fun c hc => ⟨hc, Nat.le_refl _⟩
  | cons k calls ih =>
    intro c hc
    rcases hc.call k with ⟨hsound, hstored⟩
    rcases ih _ hsound with ⟨hrest, hle⟩
    refine ⟨hrest, ?_⟩
    rw [List.foldl_cons, List.countP_cons]
    omega

/-- The `k`-th entry from the newest, with `k` counted from 0. -/
theorem Sound.getElem?_reverse {c : Chronicle} (hc : c.Sound) (hfew : c.stored ≤ USIZE_MAX)
    {k : Nat} (hk : k < c.entries.length) :
    c.entries.reverse[k]? = some (c.history.ring.item (c.history.count - (k + 1))) := by
  have hcount := hc.count_eq
  have hlen := hc.length_entries
  rw [List.getElem?_reverse hk, hc.getElem?_entries (by omega)]
  have hindex : min c.stored (USIZE_MAX + 1) - HISTORY_SIZE + (c.entries.length - 1 - k)
      = c.history.count - (k + 1) := by omega
  rw [hindex]

/-- A call that returns an entry moves the cursor to it. -/
theorem call_some {c c' : Chronicle} {k : HistoryCall} {e : Bytes} (h : c.call k = (some e, c')) :
    ∃ m : Nat, m < c.history.ring.size ∧ c'.cursor = m ∧
      e = c.history.ring.item (c.history.count - (m + 1)) ∧
      c' = { c with history := c'.history } ∧ c'.history.ring = c.history.ring := by
  cases k with
  | push line => cases h
  | navReset => cases h
  | navUp =>
    rcases Prod.mk.injEq .. ▸ h with ⟨hret, rfl⟩
    rcases History.navUp_cases c.history with ⟨-, hup⟩ | ⟨m, -, hm, hsome, hring, hcursor⟩
    · rw [hup] at hret
      cases hret
    · rw [hsome] at hret
      exact ⟨m, hm, hcursor, (Option.some.inj hret).symm, rfl, hring⟩
  | navDown =>
    rcases Prod.mk.injEq .. ▸ h with ⟨hret, rfl⟩
    rcases History.navDown_cases c.history with ⟨-, hdown⟩ | ⟨m, hbefore, hsome, hring, hcursor⟩
    · rw [hdown] at hret
      cases hret
    · rw [hsome] at hret
      have hlt := c.history.navCursor_lt
      exact ⟨m, by omega, hcursor, (Option.some.inj hret).symm, rfl, hring⟩

/-- Up and down again leads back, to the entry and to the cursor. -/
theorem Sound.up_down {c c' : Chronicle} (hc : c.Sound) (hfew : c.stored ≤ USIZE_MAX) {e : Bytes}
    (hcursor : 0 ≤ c.cursor) (hup : c.call .navUp = (some e, c')) :
    c'.call .navDown = (c.entries.reverse[c.cursor.toNat]?, c) := by
  have hlt : c.cursor < c.history.ring.size := c.history.navCursor_lt
  have hsize : c.history.ring.size = c.entries.length := hc.length_entries.symm
  have hshown := hc.getElem?_reverse hfew (k := c.cursor.toNat) (by omega)
  rcases Prod.mk.injEq .. ▸ hup with ⟨hret, rfl⟩
  rcases History.navUp_cases c.history with ⟨-, hnone⟩ | ⟨m, hbefore, hm, -, hring, hafter⟩
  · rw [hnone] at hret
    cases hret
  · have hbefore' : c.cursor = (m : Int) - 1 := hbefore
    -- The cursor goes from `m - 1` to `m` and back.
    rcases History.navDown_cases c.history.navUp.2 with ⟨hle, -⟩ | ⟨m', hback, hsome, hring', hcursor'⟩
    · omega
    · have hsame : c.history.navUp.2.navDown.2 = c.history :=
        eq_of_ring_cursor (hring'.trans hring) (by omega)
      have hindex : m' = c.cursor.toNat := by omega
      show (c.history.navUp.2.navDown.1, { c with history := c.history.navUp.2.navDown.2 }) = _
      rw [hsome, hsame, hring, hshown, History.count, hring, hindex]

/-- The cursor of every sound chronicle is in place. -/
theorem Sound.navigates {c : Chronicle} (hc : c.Sound) (hfew : c.stored ≤ USIZE_MAX) :
    c.Navigates := by
  have hlen := hc.length_entries
  have hsize : c.history.ring.size = c.entries.length := hlen.symm
  have hge : -1 ≤ c.cursor := c.history.navCursor_ge
  have hlt : c.cursor < c.history.ring.size := c.history.navCursor_lt
  have hcount : c.history.ring.size ≤ c.history.count := Nat.min_le_left _ _
  have hcall : ∀ {k e c'}, c.call k = (some e, c') → c'.Sound ∧ c'.stored ≤ USIZE_MAX ∧
      0 ≤ c'.cursor ∧ c'.cursor.toNat < c'.entries.length ∧
      c'.cursor.toNat + 1 ≤ c'.history.count ∧ c'.entries.reverse[c'.cursor.toNat]? = some e := by
    intro k e c' hk
    rcases call_some hk with ⟨m, hm, hcursor, he, hsame, hring⟩
    have hentries : c'.entries = c.entries := by rw [hsame]; rfl
    have hstored : c'.stored = c.stored := by rw [hsame]
    have hcount' : c'.history.count = c.history.count := by rw [History.count, hring]
    have hsound : c'.Sound := by rw [hsame]; exact hc.of_ring hring
    have htoNat : c'.cursor.toNat = m := by rw [hcursor, Int.toNat_natCast]
    refine ⟨hsound, by omega, by omega, by rw [hentries]; omega, by omega, ?_⟩
    rw [hentries, htoNat, he]
    exact hc.getElem?_reverse hfew (by omega)
  constructor
  -- The bounds of the cursor are a part of its history.
  case stored => exact hlen
  case bounds => omega
  case empty => omega
  case inRange => omega
  case returned => exact fun k e c' hk => (hcall hk).2.2
  case upDown => exact fun e c' hcursor hup => hc.up_down hfew hcursor hup
  case shown =>
    intro k e c' e' c'' hk hup
    rcases hcall hk with ⟨hsound, hstored, hcursor, -, -, he⟩
    rw [hsound.up_down hstored hcursor hup, he]
  case oldest =>
    intro hend
    show (c.history.navUp.1, { c with history := c.history.navUp.2 }) = _
    rcases History.navUp_cases c.history with ⟨-, hnone⟩ | ⟨m, hbefore, hm, -, -, -⟩
    · rw [hnone]
    · have hbefore' : c.cursor = (m : Int) - 1 := hbefore
      omega

end Chronicle

/-- **Which numbers `history_get` answers right**: all those where the sum is a word, until the
counter stops. The absolute index is a sum of words that is taken before the range is checked, and
`IndexFits` says where the sum is right. It is about each number by itself, in every state that a
run reaches. -/
theorem getsExactly_iff (calls : List HistoryCall) (n : UInt64) :
    (Chronicle.ofCalls calls).GetsExactly n ↔ (Chronicle.ofCalls calls).IndexFits n :=
  (Chronicle.sound_ofCalls calls).1.getsExactly_iff_indexFits n

/-- With 18 entries stored, the largest number leads to the first row. -/
theorem not_getsExactly_last :
    let c := Chronicle.ofCalls ((bytes "abcdefghijklmnopqr").map fun b => .push [b])
    ¬ c.GetsExactly 18446744073709551615 ∧
    c.history.get 18446744073709551615 = some (bytes "q") ∧
    (historyExpand c.history (bytes "!18446744073709551615")).1.items = bytes "q" := by
  refine ⟨?_, by decide +kernel, by decide +kernel⟩
  unfold Chronicle.GetsExactly
  decide +kernel

/-- **In which runs no line is stored twice in a row**: those whose lines fit their rows. The line
is compared whole with an entry that has been cut. `FitsRow` is a condition on the line that is
pushed and on the state before it, and the equivalence goes over the run, push by push. -/
theorem eachPush_settles_iff (lines : List Bytes) :
    Chronicle.EachPush Chronicle.Settles Chronicle.start lines ↔
      Chronicle.EachPush Chronicle.FitsRow Chronicle.start lines :=
  Chronicle.sound_start.eachPush_settles_iff_fitsRow List.IsChain.nil lines

/-- A line of 128 bytes is stored cut, and stored again. -/
theorem not_settles_long :
    let line := List.replicate 128 'a'.toUInt8
    ¬ Chronicle.start.Settles line ∧
    ((Chronicle.start.push line).push line).entries
      = [List.replicate 127 'a'.toUInt8, List.replicate 127 'a'.toUInt8] := by
  refine ⟨?_, by decide +kernel⟩
  rintro ⟨hsame, -⟩
  have hcount := congrArg History.count hsame
  revert hcount
  decide +kernel

/-- **The arrows move along the entries**, whatever is pushed between them. `Navigates` says where
the cursor stands among the entries, what each call returns from there, and that the way up and
down again leads back. The bound on the pushes keeps the counter from its end. -/
theorem navigates_ofCalls (calls : List HistoryCall)
    (hfew : calls.countP HistoryCall.isPush < 2 ^ 62) : (Chronicle.ofCalls calls).Navigates :=
  (Chronicle.sound_ofCalls calls).1.navigates
    (Nat.le_trans (Chronicle.sound_ofCalls calls).2 (by rw [USIZE_MAX]; omega))

/-- Two lines and the arrows. -/
theorem navigates_ls_pwd :
    (Chronicle.ofCalls [.push (bytes "ls"), .navUp, .push (bytes "pwd"), .navUp, .navDown]).Navigates :=
  navigates_ofCalls _ (by decide)

end OnyxShell
