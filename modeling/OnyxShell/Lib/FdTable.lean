import Mathlib.Data.List.Basic

/-!
# `OnyxShell.Lib.FdTable`: descriptor tables with lowest-free allocation

A process sees the kernel's objects through a table of small numbers. `alloc` enters an
object at the lowest free number, `dup` enters the object of an open number again, and
`close` frees a number. Three lemmas say what the table holds afterwards (`get_alloc`,
`get_close`, `dup_eq_alloc`), and two say where `alloc` puts its object
(`get_lowestFree`, `isSome_of_lt_lowestFree`).

The objects are of an arbitrary type. Two tables with the same `get` differ at most in
free slots at the end.
-/

set_option autoImplicit false

variable {α : Type}

/-- A descriptor table. Slot `n` holds the object that the number `n` is open on. -/
structure FdTable (α : Type) where
  slots : List (Option α)
deriving DecidableEq, Repr

namespace FdTable

/-- The object at a number, if it is open. -/
def get (t : FdTable α) (n : Nat) : Option α := (t.slots[n]?).join

/-- The number `n` is open. -/
abbrev IsOpen (t : FdTable α) (n : Nat) : Prop := (t.get n).isSome

/-- The lowest free number. -/
def lowestFree (t : FdTable α) : Nat := t.slots.findIdx (·.isNone)

/-- Enters an object at the lowest free number. -/
def alloc (t : FdTable α) (a : α) : FdTable α :=
  if t.lowestFree < t.slots.length then ⟨t.slots.set t.lowestFree (some a)⟩
  else ⟨t.slots ++ [some a]⟩

/-- Frees a number. -/
def close (t : FdTable α) (n : Nat) : FdTable α := ⟨t.slots.set n none⟩

/-- Replaces the object at a number. -/
def put (t : FdTable α) (n : Nat) (a : α) : FdTable α := ⟨t.slots.set n (some a)⟩

/-- Enters the object of `n` once more, at the lowest free number. -/
def dup (t : FdTable α) (n : Nat) : FdTable α :=
  match t.get n with
  | none => t
  | some a => t.alloc a

/-- The lowest free number is free. -/
@[simp] theorem get_lowestFree (t : FdTable α) : t.get t.lowestFree = none := by
  unfold get lowestFree
  rcases Nat.lt_or_ge (t.slots.findIdx (·.isNone)) t.slots.length with h | h
  · have hnone := List.findIdx_getElem (w := h)
    rw [List.getElem?_eq_getElem h, Option.isNone_iff_eq_none.mp hnone]
    rfl
  · rw [List.getElem?_eq_none h]
    rfl

/-- Every number below the lowest free one is open. -/
theorem isOpen_of_lt_lowestFree {t : FdTable α} {n : Nat} (h : n < t.lowestFree) : t.IsOpen n := by
  have hlt : n < t.slots.length := Nat.lt_of_lt_of_le h List.findIdx_le_length
  have hsome := List.not_of_lt_findIdx h
  unfold IsOpen get
  rw [List.getElem?_eq_getElem hlt]
  cases hn : t.slots[n] with
  | none => simp [hn] at hsome
  | some a => rfl

/-- A number at which all below are open and which is free is the lowest free one. -/
theorem lowestFree_eq {t : FdTable α} {n : Nat} (hfree : t.get n = none)
    (hopen : ∀ m, m < n → t.IsOpen m) : t.lowestFree = n := by
  rcases Nat.lt_trichotomy t.lowestFree n with h | h | h
  · have := hopen _ h
    simp [IsOpen] at this
  · exact h
  · have := isOpen_of_lt_lowestFree h
    simp [IsOpen, hfree] at this

/-- The lowest free number lies above exactly the open stretches from 0. -/
theorem le_lowestFree {t : FdTable α} {n : Nat} :
    n ≤ t.lowestFree ↔ ∀ m, m < n → t.IsOpen m := by
  constructor
  · intro h m hm
    exact isOpen_of_lt_lowestFree (by omega)
  · intro hopen
    by_contra h
    have := hopen _ (Nat.lt_of_not_le h)
    simp [IsOpen] at this

/-- Allocating fills the lowest free place, and no other changes. -/
theorem get_alloc (t : FdTable α) (a : α) (n : Nat) :
    (t.alloc a).get n = if n = t.lowestFree then some a else t.get n := by
  unfold alloc get
  rcases Nat.lt_or_ge t.lowestFree t.slots.length with h | h
  · rw [if_pos h]
    by_cases hn : n = t.lowestFree
    · simp [hn, h]
    · rw [List.getElem?_set_ne (Ne.symm hn), if_neg hn]
  · have hlen : t.lowestFree = t.slots.length := Nat.le_antisymm List.findIdx_le_length h
    rw [if_neg (by omega), hlen]
    rcases Nat.lt_trichotomy n t.slots.length with hn | rfl | hn
    · rw [List.getElem?_append_left hn, if_neg (by omega)]
    · simp
    · rw [List.getElem?_eq_none (by simp; omega), if_neg (by omega),
        List.getElem?_eq_none (by omega)]

/-- Closing empties one place, and no other changes. -/
theorem get_close (t : FdTable α) (m n : Nat) :
    (t.close m).get n = if n = m then none else t.get n := by
  unfold close get
  by_cases h : n = m
  · subst h
    rw [if_pos rfl, List.getElem?_set_self']
    cases t.slots[n]? <;> rfl
  · rw [List.getElem?_set_ne (Ne.symm h), if_neg h]

/-- An open number gets the new object. -/
theorem get_put {t : FdTable α} {m : Nat} (h : t.IsOpen m) (a : α) (n : Nat) :
    (t.put m a).get n = if n = m then some a else t.get n := by
  unfold put get
  by_cases hn : n = m
  · subst hn
    have hlt : n < t.slots.length := by
      by_contra hge
      rw [IsOpen, get, List.getElem?_eq_none (Nat.le_of_not_lt hge)] at h
      cases h
    rw [if_pos rfl, List.getElem?_set_self hlt]
    rfl
  · rw [List.getElem?_set_ne (Ne.symm hn), if_neg hn]

/-- `dup` of an open descriptor allocates what it is open on. -/
theorem dup_eq_alloc {t : FdTable α} {n : Nat} {a : α} (h : t.get n = some a) :
    t.dup n = t.alloc a := by
  simp only [dup, h]

/-- What `alloc` does to the open numbers. -/
theorem isOpen_alloc {t : FdTable α} {a : α} {n : Nat} :
    (t.alloc a).IsOpen n ↔ n = t.lowestFree ∨ t.IsOpen n := by
  rw [IsOpen]
  rw [get_alloc]
  split <;> simp_all

/-- What `close` does to the open numbers. -/
theorem isOpen_close {t : FdTable α} {m n : Nat} :
    (t.close m).IsOpen n ↔ n ≠ m ∧ t.IsOpen n := by
  rw [IsOpen]
  rw [get_close]
  split <;> simp_all

/-- The number `alloc` uses was not open. -/
theorem not_isOpen_lowestFree (t : FdTable α) : ¬ t.IsOpen t.lowestFree := by
  simp [IsOpen]

/-- Closing one of the standard numbers and entering an object there: the step by which
a child's input or output is replaced. -/
theorem get_alloc_close {t : FdTable α} {m : Nat} (a : α) (hopen : ∀ k, k < m → t.IsOpen k) (n : Nat) :
    ((t.close m).alloc a).get n = if n = m then some a else t.get n := by
  have hm : (t.close m).lowestFree = m :=
    lowestFree_eq (by simp [get_close]) fun k hk =>
      isOpen_close.mpr ⟨by omega, hopen k hk⟩
  rw [get_alloc, hm, get_close]
  split <;> rfl

/-- Two entries one after the other get different numbers. -/
theorem lowestFree_alloc_ne (t : FdTable α) (a : α) : (t.alloc a).lowestFree ≠ t.lowestFree := by
  intro h
  have := not_isOpen_lowestFree (t.alloc a)
  rw [h] at this
  exact this (isOpen_alloc.mpr (Or.inl rfl))

/-- An object that is entered is found at its number. -/
theorem get_alloc_self (t : FdTable α) (a : α) : (t.alloc a).get t.lowestFree = some a := by
  rw [get_alloc, if_pos rfl]

/-- And still behind a second entry. -/
theorem get_alloc_alloc (t : FdTable α) (a b : α) :
    ((t.alloc a).alloc b).get t.lowestFree = some a := by
  rw [get_alloc, if_neg (lowestFree_alloc_ne t a).symm, get_alloc_self]

/-- The second entry goes above the first. -/
theorem lowestFree_lt_alloc (t : FdTable α) (a : α) : t.lowestFree < (t.alloc a).lowestFree := by
  rcases Nat.lt_trichotomy t.lowestFree (t.alloc a).lowestFree with h | h | h
  · exact h
  · exact absurd h.symm (lowestFree_alloc_ne t a)
  · have hopen : (t.alloc a).IsOpen (t.alloc a).lowestFree :=
      isOpen_alloc.mpr (Or.inr (isOpen_of_lt_lowestFree h))
    exact absurd hopen (not_isOpen_lowestFree _)

/-- 0 is open behind any entry. -/
theorem isOpen_zero_alloc (t : FdTable α) (a : α) : (t.alloc a).IsOpen 0 := by
  rw [isOpen_alloc]
  rcases Nat.eq_zero_or_pos t.lowestFree with h | h
  · exact Or.inl h.symm
  · exact Or.inr (isOpen_of_lt_lowestFree h)

/-- An open number keeps its object under `alloc`. -/
theorem get_alloc_of_isOpen {t : FdTable α} {a : α} {n : Nat} (h : t.IsOpen n) :
    (t.alloc a).get n = t.get n := by
  rw [get_alloc, if_neg]
  rintro rfl
  exact not_isOpen_lowestFree t h

/-- An open number keeps its object under `dup`. -/
theorem get_dup_of_isOpen {t : FdTable α} {m n : Nat} (h : t.IsOpen n) :
    (t.dup m).get n = t.get n := by
  rw [dup]
  split
  · rfl
  · exact get_alloc_of_isOpen h

/-- What has been entered and is freed again leaves no trace at a number, if nothing else
happened to the number in between. -/
theorem get_close_lowestFree {t t' : FdTable α} {a : α} {n : Nat}
    (h : n ≠ t.lowestFree → t'.get n = (t.alloc a).get n) :
    (t'.close t.lowestFree).get n = t.get n := by
  rw [get_close]
  split
  · rename_i hn
    rw [hn, get_lowestFree]
  · rename_i hn
    rw [h hn, get_alloc, if_neg hn]

/-- Two tables have the same open numbers. -/
def SameOpen (t t' : FdTable α) : Prop := ∀ n, t.IsOpen n ↔ t'.IsOpen n

/-- A table is open where it is open. -/
theorem SameOpen.refl (t : FdTable α) : SameOpen t t := fun _ => Iff.rfl

end FdTable
