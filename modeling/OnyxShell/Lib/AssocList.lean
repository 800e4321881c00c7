import Mathlib.Data.List.Nodup

/-!
# `OnyxShell.Lib.AssocList`: ordered association lists

A list of key-value pairs as a map that keeps the order in which its keys came in. `put`
and `remove` leave the keys distinct, and where they are distinct, each of the two changes
the one entry with the key (`replace_split`, `remove_split`).

`put` has a capacity, so that a table with a bound is an instance. The keys need decidable
equality and nothing else.
-/

set_option autoImplicit false

namespace AssocList

variable {α β : Type}

/-- The keys, in order. -/
def keys (entries : List (α × β)) : List α := entries.map Prod.fst

variable {k : α} {v w : β} {entries front back : List (α × β)} {cap : Nat}

/-- Distinct keys around an entry. -/
theorem notMem_of_nodup (h : (keys (front ++ (k, w) :: back)).Nodup) :
    k ∉ keys front ∧ k ∉ keys back := by
  rw [keys, List.map_append, List.map_cons, List.nodup_middle, List.nodup_cons,
    List.mem_append, not_or] at h
  exact h.1

variable [DecidableEq α]

/-- Gives the entries with key `k` the value `v`. -/
def replace (k : α) (v : β) (entries : List (α × β)) : List (α × β) :=
  entries.map fun e => if e.1 = k then (k, v) else e

/-- Gives the key `k` the value `v`, behind the others if it is new. There is room for `cap`
entries. -/
def put (cap : Nat) (k : α) (v : β) (entries : List (α × β)) : List (α × β) :=
  if k ∈ keys entries then replace k v entries
  else if entries.length < cap then entries ++ [(k, v)]
  else entries

/-- Takes out the entries with key `k`. -/
def remove (k : α) (entries : List (α × β)) : List (α × β) := entries.filter fun e => e.1 ≠ k

/-- Replacing a value leaves the keys. -/
theorem keys_replace : keys (replace k v entries) = keys entries := by
  rw [keys, replace, List.map_map]
  apply List.map_congr_left
  intro e _
  by_cases h : e.1 = k
  · rw [Function.comp, if_pos h, h]
  · rw [Function.comp, if_neg h]

/-- A key that is not there is not replaced. -/
theorem replace_of_notMem (h : k ∉ keys entries) : replace k v entries = entries := by
  have hid : replace k v entries = entries.map id := by
    apply List.map_congr_left
    intro e he
    have hne : e.1 ≠ k := fun heq => h (heq ▸ List.mem_map_of_mem he)
    exact if_neg hne
  rw [hid, List.map_id]

/-- A key that is not there is not removed. -/
theorem remove_of_notMem (h : k ∉ keys entries) : remove k entries = entries := by
  rw [remove, List.filter_eq_self]
  intro e he
  have hne : e.1 ≠ k := fun heq => h (heq ▸ List.mem_map_of_mem he)
  exact decide_eq_true hne

/-- Replacing, around the one entry of the key. -/
theorem replace_split (h : (keys (front ++ (k, w) :: back)).Nodup) :
    replace k v (front ++ (k, w) :: back) = front ++ (k, v) :: back := by
  rcases notMem_of_nodup h with ⟨hfront, hback⟩
  rw [replace, List.map_append, List.map_cons, if_pos rfl]
  exact congrArg₂ (fun front back => front ++ (k, v) :: back) (replace_of_notMem hfront)
    (replace_of_notMem hback)

/-- Removing, around the one entry of the key. -/
theorem remove_split (h : (keys (front ++ (k, w) :: back)).Nodup) :
    remove k (front ++ (k, w) :: back) = front ++ back := by
  rcases notMem_of_nodup h with ⟨hfront, hback⟩
  rw [remove, List.filter_append, List.filter_cons_of_neg (by simp)]
  exact congrArg₂ (· ++ ·) (remove_of_notMem hfront) (remove_of_notMem hback)

/-- Putting keeps the keys distinct: a key that is there is replaced in its place. -/
theorem nodup_put (h : (keys entries).Nodup) : (keys (put cap k v entries)).Nodup := by
  rw [put]
  split
  · rw [keys_replace]
    exact h
  · rename_i hnew
    split
    · rw [keys, List.map_append, List.nodup_append]
      refine ⟨h, List.nodup_singleton k, ?_⟩
      intro a ha b hb heq
      rw [List.mem_singleton.mp hb] at heq
      have hk : a = k := heq
      exact hnew (hk ▸ ha)
    · exact h

/-- Removing keeps the keys distinct. -/
theorem nodup_remove (h : (keys entries).Nodup) : (keys (remove k entries)).Nodup :=
  h.sublist (List.filter_sublist.map Prod.fst)

/-- A key that is taken out is not found again. -/
theorem lookup_remove [BEq α] [LawfulBEq α] : (remove k entries).lookup k = none := by
  rw [List.lookup_eq_none_iff]
  intro e he
  have hne := of_decide_eq_true (List.mem_filter.mp he).2
  exact bne_iff_ne.mpr (Ne.symm hne)

end AssocList
