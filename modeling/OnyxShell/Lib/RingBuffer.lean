import Mathlib.Algebra.GroupWithZero.Nat
import Mathlib.Data.List.Basic

/-!
# `OnyxShell.Lib.RingBuffer`: ring buffers

A ring of `n` slots numbers the items written to it from 0 on. Item `k` goes to slot
`k % n`, so an item is overwritten by the one `n` places behind it. The counter stops at
`max` instead of overflowing. `item_push` says what every slot holds after a write, and
`Holds` that the ring still has the last `n` entries of the log of all writes. `Chronicled`
also covers the writes that come after the counter has stopped: it says in which order the
slots were last written.
-/

set_option autoImplicit false

/-- A ring of `n` slots, and the number of items written to it. -/
structure RingBuffer (α : Type) (n max : Nat) where
  slots : Vector α n
  count : Nat
  count_le : count ≤ max

namespace RingBuffer

variable {α : Type} {n max : Nat}

/-- The number of items still held. -/
def size (r : RingBuffer α n max) : Nat := min r.count n

/-- Two items in one slot are the same item or `n` places apart. -/
theorem eq_of_slot_eq {k m : Nat} (hkm : k ≤ m) (hm : m < k + n) (h : k % n = m % n) : k = m := by
  have hdvd : (m - k) % n = 0 := Nat.sub_mod_eq_zero_of_mod_eq h.symm
  rw [Nat.mod_eq_of_lt (by omega)] at hdvd
  omega

variable [NeZero n]

/-- The slot number of an item is one. -/
theorem slot_lt (k : Nat) : k % n < n := Nat.mod_lt k (Nat.pos_of_neZero n)

/-- The slot of item `k`. -/
def item (r : RingBuffer α n max) (k : Nat) : α := r.slots.get ⟨k % n, slot_lt k⟩

/-- Writes an item. -/
def push (r : RingBuffer α n max) (a : α) : RingBuffer α n max :=
  ⟨r.slots.set (r.count % n) a (slot_lt r.count), min (r.count + 1) max, Nat.min_le_right _ _⟩

/-- A write changes the slot of the item counted next, and no other. -/
theorem item_push (r : RingBuffer α n max) (a : α) (k : Nat) :
    (r.push a).item k = if k % n = r.count % n then a else r.item k := by
  have hk : k % n < n := slot_lt k
  have hcount : r.count % n < n := slot_lt r.count
  show (r.slots.set (r.count % n) a hcount)[k % n] = if k % n = r.count % n then a else r.slots[k % n]
  rw [Vector.getElem_set]
  rcases Nat.decEq (k % n) (r.count % n) with h | h
  · rw [if_neg h, if_neg fun heq => h heq.symm]
  · rw [if_pos h, if_pos h.symm]

/-- What is in the slots after a write was there before, or has been written. -/
theorem mem_slots_push {r : RingBuffer α n max} {a b : α} (h : b ∈ (r.push a).slots) :
    b = a ∨ b ∈ r.slots := by
  have hset : b ∈ r.slots.set (r.count % n) a (slot_lt r.count) := h
  rcases Vector.mem_or_eq_of_mem_set hset with h | h
  · exact Or.inr h
  · exact Or.inl h

/-- A write does not make the ring hold less. -/
theorem size_le_size_push (r : RingBuffer α n max) (a : α) : r.size ≤ (r.push a).size := by
  have hle := r.count_le
  show min r.count n ≤ min (min (r.count + 1) max) n
  omega

/-- The item written last is the one below the counter, unless the counter has stopped. -/
theorem item_push_last (r : RingBuffer α n max) (a : α) (h : r.count < max) :
    (r.push a).item ((r.push a).count - 1) = a := by
  have hcount : (r.push a).count - 1 = r.count := by
    show min (r.count + 1) max - 1 = r.count
    omega
  rw [hcount, item_push, if_pos rfl]

/-- Two writes are more than one, as long as the counter goes on. -/
theorem push_push_ne {r : RingBuffer α n max} (a b : α) (h : r.count + 1 < max) :
    (r.push a).push b ≠ r ∧ ∀ c, (r.push a).push b ≠ r.push c := by
  have hcount : ((r.push a).push b).count = r.count + 2 := by
    show min (min (r.count + 1) max + 1) max = r.count + 2
    omega
  constructor
  · intro heq
    rw [heq] at hcount
    omega
  · intro c heq
    rw [heq] at hcount
    have hone : min (r.count + 1) max = r.count + 2 := hcount
    omega

omit [NeZero n] in
/-- A ring is its slots and its counter. -/
theorem eq_of_slots_eq {r s : RingBuffer α n max} (hslots : r.slots = s.slots)
    (hcount : r.count = s.count) : r = s := by
  cases r
  cases s
  cases hslots
  cases hcount
  rfl

/-- Items of one slot are the same. -/
theorem item_congr (r : RingBuffer α n max) {k m : Nat} (h : k % n = m % n) : r.item k = r.item m := by
  rw [item, item]
  simp only [h]

/-- When the counter has stopped, a write replaces the one before it. -/
theorem push_push_of_full {r : RingBuffer α n max} (a b : α) (h : r.count = max) :
    (r.push a).push b = r.push b := by
  have hcount : (r.push a).count = r.count := by
    show min (r.count + 1) max = r.count
    omega
  apply eq_of_slots_eq
  · show Vector.set (r.slots.set (r.count % n) a (slot_lt r.count)) ((r.push a).count % n) b
      (slot_lt _) = r.slots.set (r.count % n) b (slot_lt r.count)
    simp only [hcount, Vector.set_set]
  · show min ((r.push a).count + 1) max = min (r.count + 1) max
    rw [hcount]

/-- One write before its end, the counter comes to its end. -/
theorem count_push_of_last {r : RingBuffer α n max} (a : α) (h : r.count + 1 = max) :
    (r.push a).count = max := by
  show min (r.count + 1) max = max
  omega

omit [NeZero n] in
/-- That write and the one behind it are for different slots. -/
theorem slot_ne_of_last {r : RingBuffer α n max} (hn : 1 < n) (h : r.count + 1 = max) :
    max % n ≠ r.count % n := by
  intro heq
  have := eq_of_slot_eq (by omega) (by omega) heq.symm
  omega

/-- A write that stores what is there only moves the counter, which is at its end then. -/
theorem push_push_of_item {r : RingBuffer α n max} {a b : α} (hn : 1 < n) (h : r.count + 1 = max)
    (hitem : r.item max = b) : (r.push a).push b = r.push a := by
  have hcount := count_push_of_last a h
  have hslot := slot_ne_of_last hn h
  apply eq_of_slots_eq
  · have hsame : (r.push a).item max = b := by rw [item_push, if_neg hslot, hitem]
    have hset : (r.push a).slots.set (max % n) b (slot_lt max) = (r.push a).slots := by
      rw [← hsame]
      exact Vector.set_getElem_self (slot_lt max)
    show (r.push a).slots.set ((r.push a).count % n) b (slot_lt _) = (r.push a).slots
    simp only [hcount]
    exact hset
  · show min ((r.push a).count + 1) max = (r.push a).count
    omega

/-- One write before that, two writes are one exactly when the second one writes what is
there. -/
theorem push_push_of_last {r : RingBuffer α n max} (a b : α) (hn : 1 < n)
    (h : r.count + 1 = max) : (∃ c, (r.push a).push b = r.push c) ↔ r.item max = b := by
  have hcount := count_push_of_last a h
  have hslot := slot_ne_of_last hn h
  constructor
  · rintro ⟨c, heq⟩
    have hitem := congrArg (item · max) heq
    rw [item_push, hcount, if_pos rfl, item_push, if_neg hslot] at hitem
    exact hitem.symm
  · exact fun hitem => ⟨a, push_push_of_item hn h hitem⟩

/-- The ring holds the last `n` entries of a log. -/
structure Holds (r : RingBuffer α n max) (log : List α) : Prop where
  count : r.count = log.length
  item : ∀ k, k < log.length → log.length < k + n + 1 → log[k]? = some (r.item k)

/-- A write adds to the log. -/
theorem holds_push {r : RingBuffer α n max} {log : List α} (h : r.Holds log)
    (hmax : log.length < max) (a : α) : (r.push a).Holds (log ++ [a]) := by
  constructor
  case count =>
    show min (r.count + 1) max = _
    rw [h.count, List.length_append, List.length_singleton]
    omega
  case item =>
    intro k hk hlast
    rw [List.length_append, List.length_singleton] at hk hlast
    rw [item_push, h.count]
    by_cases hslot : k % n = log.length % n
    · rw [if_pos hslot, eq_of_slot_eq (by omega) (by omega) hslot, List.getElem?_concat_length]
    · have hold : k < log.length := by
        rcases Nat.lt_or_eq_of_le (Nat.le_of_lt_succ hk) with h | h
        · exact h
        · exact absurd (congrArg (· % n) h) hslot
      rw [if_neg hslot, List.getElem?_append_left hold]
      exact h.item k hold (by omega)

/-- The `k`-th entry from the end is the item `k` places below the counter. -/
theorem Holds.reverse_get {r : RingBuffer α n max} {log : List α} (h : r.Holds log) {k : Nat}
    (hk : 1 ≤ k) (hsize : k ≤ min log.length n) :
    log.reverse[k - 1]? = some (r.item (r.count - k)) := by
  rw [List.getElem?_reverse (by omega), h.count]
  have hindex : log.length - 1 - (k - 1) = log.length - k := by omega
  rw [hindex]
  exact h.item (log.length - k) (by omega) (by omega)

/-! ### The order of writing -/

/-- A write to a slot, on the slots in the order in which they were last written, each with
what it holds: the slot goes to the end. -/
def rewritten (rows : List (Nat × α)) (slot : Nat) (a : α) : List (Nat × α) :=
  (rows.filter fun row => row.1 ≠ slot) ++ [(slot, a)]

/-- The slots of the last `n` of the items below `written`, the oldest first. -/
def lastRows (r : RingBuffer α n max) (written : Nat) : List (Nat × α) :=
  (List.range' (written - n) (min written n)).map fun k => (k % n, r.item k)

/-- `rows` are the slots in the order in which they were last written. As long as the counter
goes on, `written` is the counter. A write beyond it goes to the slot of item `max`, and so
does every later one. -/
structure Chronicled (r : RingBuffer α n max) (rows : List (Nat × α)) (written : Nat) : Prop where
  count : r.count = min written max
  le : written ≤ max + 1
  rows : rows = r.lastRows written

omit [NeZero n] in
/-- Of the last items, a write takes away the one whose slot it needs. -/
theorem filter_range' {written v : Nat} (hn : 0 < n) (hv : v = written ∨ v + 1 = written ∧ n ≤ v) :
    (List.range' (written - n) (min written n)).filter (fun k => k % n ≠ v % n)
      = List.range' (v + 1 - n) (min (v + 1) n - 1) := by
  -- The items that stay are all less than `n` places below `v`.
  have hkeep : (List.range' (v + 1 - n) (min (v + 1) n - 1)).filter (fun k => k % n ≠ v % n)
      = List.range' (v + 1 - n) (min (v + 1) n - 1) := by
    rw [List.filter_eq_self]
    intro k hk
    rw [List.mem_range'_1] at hk
    refine decide_eq_true fun hslot => ?_
    have := eq_of_slot_eq (by omega) (by omega) hslot
    omega
  rcases hv with rfl | ⟨rfl, hle⟩
  · rcases Nat.lt_or_ge v n with hlt | hge
    · have hmin : min (v + 1) n - 1 = min v n := by omega
      rw [hmin] at hkeep
      have hstart : v + 1 - n = v - n := by omega
      rw [hstart] at hkeep
      rw [hmin, hstart]
      exact hkeep
    · -- The oldest item is in the slot.
      have hlen : min v n = min (v + 1) n - 1 + 1 := by omega
      have hhead : (v - n) % n = v % n := by
        conv_rhs => rw [← Nat.sub_add_cancel hge, Nat.add_mod_right]
      have hstart : v - n + 1 = v + 1 - n := by omega
      rw [hlen, List.range'_succ, List.filter_cons, if_neg (by simp [hhead]), hstart]
      exact hkeep
  · -- The newest item is in the slot.
    have hlen : min (v + 1) n = min (v + 1) n - 1 + 1 := by omega
    have hlast : v + 1 - n + (min (v + 1) n - 1) = v := by omega
    conv_lhs => rw [hlen]
    rw [List.range'_concat, List.filter_append, Nat.one_mul, hlast, hkeep, List.filter_singleton]
    simp

/-- A write to the ring is one step of the chronicle. -/
theorem chronicled_push {r : RingBuffer α n max} {rows : List (Nat × α)} {written : Nat}
    (h : r.Chronicled rows written) (hmax : n ≤ max) (a : α) :
    (r.push a).Chronicled (rewritten rows (r.count % n) a) (r.count + 1) := by
  have hn : 0 < n := Nat.pos_of_neZero n
  have hcount := h.count
  have hle := h.le
  constructor
  case count => rfl
  case le => exact Nat.succ_le_succ r.count_le
  case rows =>
    have hlen : min (r.count + 1) n = min (r.count + 1) n - 1 + 1 := by omega
    have hlast : r.count + 1 - n + (min (r.count + 1) n - 1) = r.count := by omega
    rw [h.rows, rewritten, lastRows, lastRows, List.filter_map]
    have hfilter : (List.range' (written - n) (min written n)).filter
        ((fun row : Nat × α => decide (row.1 ≠ r.count % n)) ∘ fun k => (k % n, r.item k))
          = List.range' (r.count + 1 - n) (min (r.count + 1) n - 1) :=
      filter_range' hn (by omega)
    rw [hfilter]
    conv_rhs => rw [hlen]
    rw [List.range'_concat, Nat.one_mul, hlast, List.map_append]
    congr 1
    · -- The other items stay.
      apply List.map_congr_left
      intro k hk
      rw [List.mem_range'_1] at hk
      rw [item_push, if_neg fun hslot => ?_]
      have := eq_of_slot_eq (by omega) (by omega) hslot
      omega
    · rw [List.map_singleton, item_push, if_pos rfl]

/-- The `i`-th of the last rows. -/
theorem getElem?_lastRows (r : RingBuffer α n max) {written i : Nat} (hi : i < min written n) :
    ((r.lastRows written).map Prod.snd)[i]? = some (r.item (written - n + i)) := by
  rw [lastRows, List.map_map, List.getElem?_map, List.getElem?_range' hi, Option.map_some, Nat.one_mul]
  rfl

/-- There are as many last rows as have been written, up to the size of the ring. -/
@[simp] theorem length_lastRows (r : RingBuffer α n max) (written : Nat) :
    (r.lastRows written).length = min written n := by
  rw [lastRows, List.length_map, List.length_range']

end RingBuffer
