import Mathlib.Data.List.Basic

/-!
# `OnyxShell.Lib.CommonPrefix`: the longest common prefix of some lists

The longest common prefix is the greatest lower bound in the order of prefixes. So a fold with the
longest common prefix of two lists finds it for any number of them (`isLongestCommonPrefix_foldl`).

Nothing here is about completion. The lists are arbitrary, with decidable equality of their
elements where a prefix has to be computed.
-/

set_option autoImplicit false

variable {α : Type}

/-- The list is a prefix of all of them. -/
def IsCommonPrefix (w : List α) (found : List (List α)) : Prop := ∀ m ∈ found, w <+: m

/-- It is a common prefix, and all others are prefixes of it. -/
structure IsLongestCommonPrefix (w : List α) (found : List (List α)) : Prop where
  common : IsCommonPrefix w found
  longest : ∀ v, IsCommonPrefix v found → v <+: w

namespace IsLongestCommonPrefix

variable {v w : List α} {found : List (List α)}

/-- A word alone is its own longest common prefix. -/
theorem singleton (w : List α) : IsLongestCommonPrefix w [w] where
  common := by
    intro m hm
    cases List.mem_singleton.mp hm
    exact List.prefix_refl w
  longest := fun _ h => h w (List.mem_singleton_self w)

/-- One list more. -/
theorem concat {m : List α} (hw : IsLongestCommonPrefix w found)
    (hv : IsLongestCommonPrefix v [w, m]) : IsLongestCommonPrefix v (found ++ [m]) where
  common := by
    intro x hx
    rcases List.mem_append.mp hx with hx | hx
    · exact (hv.common w List.mem_cons_self).trans (hw.common x hx)
    · rw [List.mem_singleton.mp hx]
      exact hv.common m (List.mem_cons_of_mem w (List.mem_singleton_self m))
  longest := by
    intro u hu
    apply hv.longest
    intro x hx
    rcases List.mem_cons.mp hx with rfl | hx
    · exact hw.longest u fun y hy => hu y (List.mem_append_left _ hy)
    · exact hu x (List.mem_append_right _ hx)

/-! ### Two lists -/

/-- With an empty list there is nothing in common. -/
theorem nil_of_mem (h : [] ∈ found) : IsLongestCommonPrefix [] found :=
  ⟨fun _ _ => List.nil_prefix, fun _ hv => hv [] h⟩

/-- Words that begin differently have only the empty prefix in common. -/
theorem nil_of_ne {x y : α} (h : x ≠ y) (a b : List α) :
    IsLongestCommonPrefix [] [x :: a, y :: b] where
  common := fun _ _ => List.nil_prefix
  longest := by
    intro v hv
    have hx := hv (x :: a) List.mem_cons_self
    have hy := hv (y :: b) (List.mem_cons_of_mem _ (List.mem_singleton_self _))
    cases v with
    | nil => exact List.nil_prefix
    | cons z v => exact absurd ((List.cons_prefix_cons.mp hx).1.symm.trans
        (List.cons_prefix_cons.mp hy).1) h

/-- Words that begin with the same letter have it in common, and what their rests have. -/
theorem cons {a b : List α} (h : IsLongestCommonPrefix w [a, b]) (x : α) :
    IsLongestCommonPrefix (x :: w) [x :: a, x :: b] where
  common := by
    intro m hm
    rcases List.mem_pair.mp hm with rfl | rfl
    · exact List.cons_prefix_cons.mpr ⟨rfl, h.common a List.mem_cons_self⟩
    · exact List.cons_prefix_cons.mpr
        ⟨rfl, h.common b (List.mem_cons_of_mem a (List.mem_singleton_self b))⟩
  longest := by
    intro v hv
    have ha := hv (x :: a) List.mem_cons_self
    have hb := hv (x :: b) (List.mem_cons_of_mem _ (List.mem_singleton_self _))
    cases v with
    | nil => exact List.nil_prefix
    | cons z v =>
      rw [List.cons_prefix_cons] at ha hb
      refine List.cons_prefix_cons.mpr ⟨ha.1, h.longest v fun m hm => ?_⟩
      rcases List.mem_pair.mp hm with rfl | rfl
      · exact ha.2
      · exact hb.2

end IsLongestCommonPrefix

/-- **The longest common prefix of any number of lists**, from an operation that finds the one of
two lists. -/
theorem isLongestCommonPrefix_foldl {meet : List α → List α → List α}
    (hmeet : ∀ a b, IsLongestCommonPrefix (meet a b) [a, b]) (first : List α)
    (others : List (List α)) :
    IsLongestCommonPrefix (others.foldl meet first) (first :: others) := by
  have hfold : ∀ w found, IsLongestCommonPrefix w found →
      IsLongestCommonPrefix (others.foldl meet w) (found ++ others) := by
    induction others with
    | nil =>
      intro w found h
      rw [List.append_nil]
      exact h
    | cons m others ih =>
      intro w found h
      rw [List.foldl_cons, ← List.singleton_append, ← List.append_assoc]
      exact ih (meet w m) (found ++ [m]) (h.concat (hmeet w m))
  exact hfold first [first] (IsLongestCommonPrefix.singleton first)
