import Mathlib.Data.List.Basic

/-!
# `OnyxShell.Lib.Scan`: index scans over a list

`scanWhile p xs i` is the loop `while i < len && p(xs[i]) { i += 1 }`: the first
index from `i` on whose element fails `p`, or the length. A tokenizer written with
indices is a chain of such scans, so its proofs need four facts about one scan:
where it may stop (`le_scanWhile`, `scanWhile_le_length`), what holds before the
stop (`scanWhile_sat`), what holds at the stop (`scanWhile_stop`), and that these
determine it (`scanWhile_eq`).

A tokenizer looks for longest runs (`IsRun`). A scan finds one where a run begins
(`isRun_scanWhile`), and every run is found so (`IsRun.stop`).

`checkedScan` is the same loop with every access checked. `checkedScan_eq`: no check fails.

Nothing here mentions a program. The element type and the predicate are arbitrary.
-/

set_option autoImplicit false

namespace Scan

variable {α : Type}

/-- The first index from `i` on whose element fails `p`, or the length of `xs`. -/
def scanWhile (p : α → Bool) (xs : List α) (i : Nat) : Nat :=
  if h : i < xs.length then
    if p xs[i] then scanWhile p xs (i + 1) else i
  else i
termination_by xs.length - i

/-- A scan never moves back. -/
theorem le_scanWhile (p : α → Bool) (xs : List α) (i : Nat) : i ≤ scanWhile p xs i := by
  fun_induction scanWhile p xs i with
  | case1 i h hp ih => omega
  | case2 i h hp => exact Nat.le_refl _
  | case3 i h => exact Nat.le_refl _

/-- A scan that starts inside the list stops inside it or at its end. -/
theorem scanWhile_le_length (p : α → Bool) (xs : List α) (i : Nat) (hi : i ≤ xs.length) :
    scanWhile p xs i ≤ xs.length := by
  fun_induction scanWhile p xs i with
  | case1 i h hp ih => exact ih h
  | case2 i h hp => exact hi
  | case3 i h => exact hi

/-- Past the end, a scan does not move. -/
theorem scanWhile_of_length_le (p : α → Bool) (xs : List α) (i : Nat) (hi : xs.length ≤ i) :
    scanWhile p xs i = i := by
  rw [scanWhile, dif_neg (by omega)]

/-- Every element the scan passes satisfies `p`. -/
theorem scanWhile_sat (p : α → Bool) (xs : List α) (i k : Nat) (x : α)
    (hik : i ≤ k) (hk : k < scanWhile p xs i) (hx : xs[k]? = some x) : p x = true := by
  fun_induction scanWhile p xs i with
  | case1 i h hp ih =>
    by_cases hki : k = i
    · subst hki
      rw [List.getElem?_eq_getElem h] at hx
      cases hx
      exact hp
    · exact ih (by omega) hk
  | case2 i h hp => omega
  | case3 i h => omega

/-- The element the scan stops at fails `p`. -/
theorem scanWhile_stop (p : α → Bool) (xs : List α) (i : Nat) (x : α)
    (hx : xs[scanWhile p xs i]? = some x) : p x = false := by
  fun_induction scanWhile p xs i with
  | case1 i h hp ih => exact ih hx
  | case2 i h hp =>
    rw [List.getElem?_eq_getElem h] at hx
    cases hx
    simpa using hp
  | case3 i h =>
    have := (List.getElem?_eq_some_iff.mp hx).1
    omega

/-- A scan started at an element that fails `p` does not move. -/
theorem scanWhile_of_not (p : α → Bool) (xs : List α) (i : Nat)
    (h : ∀ x, xs[i]? = some x → p x = false) : scanWhile p xs i = i := by
  rw [scanWhile]
  split
  · rename_i hi
    rw [if_neg (by simp [h _ (List.getElem?_eq_getElem hi)])]
  · rfl

/-- A scan that starts at an element satisfying `p` moves. -/
theorem lt_scanWhile (p : α → Bool) (xs : List α) (i : Nat) (x : α)
    (hx : xs[i]? = some x) (hp : p x = true) : i < scanWhile p xs i := by
  obtain ⟨hi, rfl⟩ := List.getElem?_eq_some_iff.mp hx
  rw [scanWhile, dif_pos hi, if_pos hp]
  exact le_scanWhile p xs (i + 1)

/-- Scanning again from the stop changes nothing. -/
@[simp] theorem scanWhile_scanWhile (p : α → Bool) (xs : List α) (i : Nat) :
    scanWhile p xs (scanWhile p xs i) = scanWhile p xs i :=
  scanWhile_of_not p xs _ fun _ hx => scanWhile_stop p xs i _ hx

/-- Scans with predicates that agree on the list stop at the same place. -/
theorem scanWhile_congr {p q : α → Bool} {xs : List α} (h : ∀ x ∈ xs, p x = q x) (i : Nat) :
    scanWhile p xs i = scanWhile q xs i := by
  fun_induction scanWhile p xs i with
  | case1 i hi hp ih =>
    rw [ih, scanWhile.eq_def q xs i, dif_pos hi, if_pos (by rw [← h _ (List.getElem_mem hi), hp])]
  | case2 i hi hp =>
    rw [scanWhile, dif_pos hi, if_neg (by rw [← h _ (List.getElem_mem hi)]; exact hp)]
  | case3 i hi => rw [scanWhile, dif_neg hi]

/-- The facts above determine the stop: all elements of `[i, j)` satisfy `p`, and the
one at `j`, if any, does not. -/
theorem scanWhile_eq (p : α → Bool) (xs : List α) (i j : Nat) (hij : i ≤ j)
    (hj : j ≤ xs.length) (hsat : ∀ k x, i ≤ k → k < j → xs[k]? = some x → p x = true)
    (hstop : ∀ x, xs[j]? = some x → p x = false) : scanWhile p xs i = j := by
  have hle : scanWhile p xs i ≤ j := by
    by_contra hlt
    have hjs : j < xs.length := by
      have := scanWhile_le_length p xs i (by omega)
      omega
    have h1 := scanWhile_sat p xs i j _ hij (by omega) (List.getElem?_eq_getElem hjs)
    have h2 := hstop _ (List.getElem?_eq_getElem hjs)
    simp [h1] at h2
  rcases Nat.lt_or_ge (scanWhile p xs i) j with hlt | hge
  · have hs : scanWhile p xs i < xs.length := by omega
    have h1 := hsat _ _ (le_scanWhile p xs i) hlt (List.getElem?_eq_getElem hs)
    have h2 := scanWhile_stop p xs i _ (List.getElem?_eq_getElem hs)
    simp [h1] at h2
  · omega

/-- The append form of `scanWhile_eq`: behind the prefix `pre`, a scan passes the block
`mid` of elements satisfying `p` and stops where `post` begins. -/
theorem scanWhile_append (p : α → Bool) (pre mid post : List α)
    (hmid : ∀ x ∈ mid, p x = true) (hpost : ∀ x, post.head? = some x → p x = false) :
    scanWhile p (pre ++ mid ++ post) pre.length = pre.length + mid.length := by
  apply scanWhile_eq
  · omega
  · simp
  · intro k x hk hlt hx
    rw [List.append_assoc, List.getElem?_append_right hk,
      List.getElem?_append_left (by omega)] at hx
    exact hmid x (List.mem_of_getElem? hx)
  · intro x hx
    rw [List.getElem?_append_right (by simp)] at hx
    apply hpost
    simpa [List.head?_eq_getElem?] using hx

/-- A scan in terms of the list behind its start: it passes a `takeWhile`. -/
theorem scanWhile_eq_takeWhile (p : α → Bool) (xs : List α) (i : Nat) :
    scanWhile p xs i = i + ((xs.drop i).takeWhile p).length := by
  fun_induction scanWhile p xs i with
  | case1 i h hp ih =>
    rw [ih, List.drop_eq_getElem_cons h, List.takeWhile_cons, if_pos hp, List.length_cons]
    omega
  | case2 i h hp =>
    rw [List.drop_eq_getElem_cons h, List.takeWhile_cons, if_neg hp]
    rfl
  | case3 i h =>
    rw [List.drop_eq_nil_of_le (Nat.le_of_not_lt h)]
    rfl

/-- What a scan passes. -/
theorem take_scanWhile (p : α → Bool) (xs : List α) (i : Nat) :
    (xs.drop i).take (scanWhile p xs i - i) = (xs.drop i).takeWhile p := by
  rw [scanWhile_eq_takeWhile, Nat.add_sub_cancel_left]
  exact (List.prefix_iff_eq_take.mp (List.takeWhile_prefix p)).symm

/-- What a scan leaves. -/
theorem drop_scanWhile (p : α → Bool) (xs : List α) (i : Nat) :
    xs.drop (scanWhile p xs i) = (xs.drop i).dropWhile p := by
  rw [scanWhile_eq_takeWhile, ← List.drop_drop]
  have hsplit := List.takeWhile_append_dropWhile (p := p) (l := xs.drop i)
  generalize xs.drop i = ys at hsplit ⊢
  exact (congrArg (List.drop (ys.takeWhile p).length) hsplit).symm.trans List.drop_left

/-- A scan stops inside the list just when an element behind its start fails `p`. -/
theorem scanWhile_lt_length (p : α → Bool) (xs : List α) (i : Nat) :
    scanWhile p xs i < xs.length ↔ ∃ x ∈ xs.drop i, p x = false := by
  constructor
  · intro h
    have hx := List.getElem?_eq_getElem h
    refine ⟨_, ?_, scanWhile_stop p xs i _ hx⟩
    rw [List.mem_iff_getElem?]
    refine ⟨scanWhile p xs i - i, ?_⟩
    rw [List.getElem?_drop, Nat.add_sub_cancel' (le_scanWhile p xs i), hx]
  · rintro ⟨x, hmem, hx⟩
    rcases List.mem_iff_getElem?.mp hmem with ⟨k, hk⟩
    rw [List.getElem?_drop] at hk
    by_contra hge
    have hlt := (List.getElem?_eq_some_iff.mp hk).1
    have := scanWhile_sat p xs i (i + k) x (Nat.le_add_right i k) (by omega) hk
    rw [hx] at this
    cases this

/-! ### Checked accesses -/

/-- The same loop when every access is checked: `none` is an index that is not in the list. -/
def checkedScan (p : α → Bool) (xs : List α) (i : Nat) : Option Nat :=
  if i < xs.length then
    match (xs)[i]? with
    | none => none
    | some x => if p x then checkedScan p xs (i + 1) else some i
  else some i
termination_by xs.length - i

/-- The scan looks at the length first, so it accesses no other index. -/
theorem checkedScan_eq (p : α → Bool) (xs : List α) (i : Nat) :
    checkedScan p xs i = some (scanWhile p xs i) := by
  fun_induction scanWhile p xs i with
  | case1 i h hp ih =>
    rw [checkedScan, if_pos h, List.getElem?_eq_getElem h]
    simp only [hp, if_true]
    exact ih
  | case2 i h hp =>
    rw [checkedScan, if_pos h, List.getElem?_eq_getElem h]
    simp only [hp, if_false, Bool.false_eq_true]
  | case3 i h => rw [checkedScan, if_neg h]

/-- `&xs[a..b]`, with its bounds checked. -/
def slice (xs : List α) (a b : Nat) : Option (List α) :=
  if a ≤ b ∧ b ≤ xs.length then some ((xs.drop a).take (b - a)) else none

/-- A slice within its bounds does not panic. -/
theorem slice_eq {xs : List α} {a b : Nat} (hab : a ≤ b) (hb : b ≤ xs.length) :
    slice xs a b = some ((xs.drop a).take (b - a)) := if_pos ⟨hab, hb⟩

/-! ### Longest runs -/

/-- The `n` elements from index `i` on are a longest run of elements satisfying `p`. -/
structure IsRun (p : α → Bool) (xs : List α) (i n : Nat) : Prop where
  pos : 0 < n
  inside : i + n ≤ xs.length
  sat : ∀ k x, i ≤ k → k < i + n → xs[k]? = some x → p x = true
  before : ∀ k x, k + 1 = i → xs[k]? = some x → p x = false
  behind : ∀ x, xs[i + n]? = some x → p x = false

/-- No run goes on across index `i`. -/
def Break (p : α → Bool) (xs : List α) (i : Nat) : Prop :=
  ∀ k x y, k + 1 = i → xs[k]? = some x → xs[i]? = some y → p y = true → p x = false

/-- No run goes on across the start. -/
theorem break_zero (p : α → Bool) (xs : List α) : Break p xs 0 :=
  fun k _ _ hk => absurd hk (Nat.succ_ne_zero k)

/-- Nor across the stop of a scan. -/
theorem break_scanWhile (p : α → Bool) (xs : List α) (i : Nat) : Break p xs (scanWhile p xs i) := by
  intro k x y _ _ hy hp
  rw [scanWhile_stop p xs i y hy] at hp
  cases hp

/-- Nor behind an element that fails `p`. -/
theorem break_succ {p : α → Bool} {xs : List α} {i : Nat} {x : α} (hx : xs[i]? = some x)
    (hp : p x = false) : Break p xs (i + 1) := by
  intro k y _ hk hy _ _
  obtain rfl : k = i := Nat.succ.inj hk
  rw [hx] at hy
  cases hy
  exact hp

/-- Skipping elements that fail `p` leaves a break. -/
theorem Break.scanWhile {p q : α → Bool} {xs : List α} {i : Nat} (h : Break p xs i)
    (hq : ∀ x, q x = true → p x = false) : Break p xs (scanWhile q xs i) := by
  intro k x y hk hx hy hp
  have hle := le_scanWhile q xs i
  rcases Nat.eq_or_lt_of_le hle with heq | hlt
  · rw [← heq] at hk hy
    exact h k x y hk hx hy hp
  · exact hq x (scanWhile_sat q xs i k x (by omega) (by omega) hx)

/-- A scan that starts at a break passes a longest run. -/
theorem isRun_scanWhile {p : α → Bool} {xs : List α} {i : Nat} {x : α} (hx : xs[i]? = some x)
    (hp : p x = true) (hbreak : Break p xs i) : IsRun p xs i (Scan.scanWhile p xs i - i) := by
  have hlt := lt_scanWhile p xs i x hx hp
  have hstop : i + (Scan.scanWhile p xs i - i) = Scan.scanWhile p xs i := by omega
  refine ⟨by omega, ?_, ?_, ?_, ?_⟩
  · rw [hstop]
    exact scanWhile_le_length p xs i (Nat.le_of_lt (List.getElem?_eq_some_iff.mp hx).1)
  · rw [hstop]
    exact fun k y hle hk hy => scanWhile_sat p xs i k y hle hk hy
  · exact fun k y hk hy => hbreak k y x hk hy hx hp
  · rw [hstop]
    exact fun y hy => scanWhile_stop p xs i y hy

namespace IsRun

variable {p : α → Bool} {xs : List α} {i n : Nat}

/-- The first element of a run. -/
theorem head (h : IsRun p xs i n) : ∃ x, xs[i]? = some x ∧ p x = true := by
  have hi : i < xs.length := by have := h.pos; have := h.inside; omega
  have hx := List.getElem?_eq_getElem hi
  exact ⟨_, hx, h.sat i _ (Nat.le_refl i) (Nat.lt_add_of_pos_right h.pos) hx⟩

/-- A run ends where the scan from its start stops. -/
theorem stop (h : IsRun p xs i n) : Scan.scanWhile p xs i = i + n :=
  scanWhile_eq p xs i (i + n) (Nat.le_add_right i n) h.inside h.sat h.behind

/-- Skipping elements that fail `p` does not pass the start of a run. -/
theorem scan_le (h : IsRun p xs i n) {q : α → Bool} (hq : ∀ x, q x = true → p x = false) {j : Nat}
    (hj : j ≤ i) : Scan.scanWhile q xs j ≤ i := by
  by_contra hlt
  rcases h.head with ⟨x, hx, hp⟩
  rw [hq x (scanWhile_sat q xs j i x hj (by omega) hx)] at hp
  cases hp

/-- No run begins inside what a scan passes. -/
theorem stop_le (h : IsRun p xs i n) {j : Nat} (hj : j < i) : Scan.scanWhile p xs j ≤ i := by
  by_contra hlt
  have hk : i - 1 < xs.length := by have := h.inside; omega
  have hx := List.getElem?_eq_getElem hk
  have hsat := scanWhile_sat p xs j (i - 1) _ (by omega) (by omega) hx
  rw [h.before (i - 1) _ (by omega) hx] at hsat
  cases hsat

end IsRun

end Scan
