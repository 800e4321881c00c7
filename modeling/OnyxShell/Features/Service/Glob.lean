import Mathlib.Data.List.TakeWhile
import OnyxShell.Features.Buffer

/-!
# `OnyxShell.Features.Service.Glob`: wildcard expansion of a word

`src/features/service/glob.rs`. `globMatch` is the iterative matcher: `globStep` is the
body of its loop on a `GlobState`, and `globLoop` runs it. The bounds of the four indices
are fields of the state, so every turn keeps them, and the loop ends because a turn either
moves the place the last star is tried at or moves on in the pattern.

A directory is listed by `Listing`: the names that successive `readdir` calls on a path
deliver. The fixed buffers of 64 and 128 bytes are the bytes written to them.
-/

set_option autoImplicit false

namespace OnyxShell

open Scan (scanWhile le_scanWhile)

/-- The C string at the start of a buffer. -/
def cString (b : Bytes) : Bytes := b.takeWhile (· ≠ 0)

/-- Without a NUL the kernel reads all of the bytes. -/
theorem cString_eq_self {b : Bytes} (h : 0 ∉ b) : cString b = b := by
  rw [cString, List.takeWhile_eq_self_iff]
  intro x hx
  simpa using fun h0 : x = 0 => h (h0 ▸ hx)

/-- What the kernel reads of a string has no NUL in it. -/
theorem nul_notMem_cString (b : Bytes) : 0 ∉ cString b := by
  intro hmem
  have h := List.mem_takeWhile_imp hmem
  simp at h

/-- `glob::has_glob`. -/
def hasGlob (tok : Bytes) : Bool :=
  tok.any fun b => b == '*'.toUInt8 || b == '?'.toUInt8 || b == '['.toUInt8

/-- The loop over a bracket class, from index `i`: `a-b` ranges and single bytes. -/
def classLoop (cls : Bytes) (c : UInt8) (i : Nat) : Bool :=
  if h : i + 2 < cls.length then
    if cls[i + 1] = '-'.toUInt8 then
      if cls[i] ≤ c ∧ c ≤ cls[i + 2] then true else classLoop cls c (i + 3)
    else if c = cls[i] then true
    else classLoop cls c (i + 1)
  else if h' : i < cls.length then
    if c = cls[i] then true else classLoop cls c (i + 1)
  else false
termination_by cls.length - i

/-- The variables of the main loop of `glob_match`, with their bounds. `star_ni` is only
read when there is a star. -/
structure GlobState (pattern name : Bytes) where
  pi : Nat
  ni : Nat
  starPi : Option Nat
  starNi : Nat
  pi_le : pi ≤ pattern.length
  ni_le : ni ≤ name.length
  starNi_le : starNi ≤ ni
  starPi_lt : ∀ sp ∈ starPi, sp < pi

namespace GlobState

variable {pattern name : Bytes}

/-- The state before the loop. -/
def start (pattern name : Bytes) : GlobState pattern name :=
  ⟨0, 0, none, 0, Nat.zero_le _, Nat.zero_le _, Nat.le_refl _, by simp⟩

/-- `ni += 1` and `pi = next`. -/
def advance (s : GlobState pattern name) (h : s.ni < name.length) (next : Nat) (hlt : s.pi < next)
    (hle : next ≤ pattern.length) : GlobState pattern name :=
  ⟨next, s.ni + 1, s.starPi, s.starNi, hle, h, Nat.le_succ_of_le s.starNi_le,
    fun sp hsp => Nat.lt_trans (s.starPi_lt sp hsp) hlt⟩

/-- A star of the pattern becomes the one to return to. -/
def atStar (s : GlobState pattern name) (h : s.pi < pattern.length) : GlobState pattern name :=
  ⟨s.pi + 1, s.ni, some s.pi, s.ni, h, s.ni_le, Nat.le_refl _, by simp⟩

/-- Return to the last star, one byte further on, or give up without one. -/
def backtrack (s : GlobState pattern name) (h : s.ni < name.length) :
    Option (GlobState pattern name) :=
  match hsp : s.starPi with
  | none => none
  | some sp =>
    some ⟨sp + 1, s.starNi + 1, some sp, s.starNi + 1,
      Nat.le_trans (s.starPi_lt sp hsp) s.pi_le, Nat.lt_of_le_of_lt s.starNi_le h, Nat.le_refl _,
      by simp⟩

end GlobState

/-- The body of the main loop of `glob_match`. `none` is `return false`. -/
def globStep {pattern name : Bytes} (s : GlobState pattern name) (h : s.ni < name.length) :
    Option (GlobState pattern name) :=
  if hp : s.pi < pattern.length then
    if pattern[s.pi] = '?'.toUInt8 ∨ pattern[s.pi] = name[s.ni] ∨ pattern[s.pi] = '['.toUInt8 then
      if pattern[s.pi] = '['.toUInt8 then
        let stop := scanWhile (· != ']'.toUInt8) pattern (s.pi + 1)
        if hstop : stop < pattern.length then
          -- The class is closed at `stop`.
          if classLoop ((pattern.drop (s.pi + 1)).take (stop - (s.pi + 1))) name[s.ni] 0 then
            some (s.advance h (stop + 1)
              (Nat.lt_succ_of_le (Nat.le_of_succ_le (le_scanWhile _ pattern (s.pi + 1)))) hstop)
          else s.backtrack h
        -- It is not closed, and the `[` stands for itself.
        else if name[s.ni] ≠ '['.toUInt8 then s.backtrack h
        else some (s.advance h (s.pi + 1) (Nat.lt_succ_self _) hp)
      else some (s.advance h (s.pi + 1) (Nat.lt_succ_self _) hp)
    else if pattern[s.pi] = '*'.toUInt8 then some (s.atStar hp)
    else s.backtrack h
  else s.backtrack h

/-- What a turn of the loop makes smaller: the places left for the last star, then the rest
of the pattern. -/
def GlobState.measure {pattern name : Bytes} (s : GlobState pattern name) : Nat :=
  (name.length - s.starNi) * (pattern.length + 1) + (pattern.length - s.pi)

/-- Going on in the pattern and in the name lowers the measure. -/
theorem GlobState.measure_advance {pattern name : Bytes} (s : GlobState pattern name)
    (h : s.ni < name.length) (next : Nat) (hlt : s.pi < next) (hle : next ≤ pattern.length) :
    (s.advance h next hlt hle).measure < s.measure := by
  show (name.length - s.starNi) * (pattern.length + 1) + (pattern.length - next)
    < (name.length - s.starNi) * (pattern.length + 1) + (pattern.length - s.pi)
  omega

/-- Noting a star lowers the measure, since the pattern index goes beyond it. -/
theorem GlobState.measure_atStar {pattern name : Bytes} (s : GlobState pattern name)
    (h : s.pi < pattern.length) : (s.atStar h).measure < s.measure := by
  have hle : (name.length - s.ni) * (pattern.length + 1)
      ≤ (name.length - s.starNi) * (pattern.length + 1) :=
    Nat.mul_le_mul_right _ (Nat.sub_le_sub_left s.starNi_le _)
  show (name.length - s.ni) * (pattern.length + 1) + (pattern.length - (s.pi + 1))
    < (name.length - s.starNi) * (pattern.length + 1) + (pattern.length - s.pi)
  omega

/-- Going back to the last star lowers the measure: the pattern index falls back, and the place in
the name that the star has reached goes up. -/
theorem GlobState.measure_backtrack {pattern name : Bytes} {s s' : GlobState pattern name}
    {h : s.ni < name.length} (hs : s.backtrack h = some s') : s'.measure < s.measure := by
  rw [backtrack] at hs
  split at hs
  · cases hs
  · rename_i sp hsp
    cases hs
    have hni := s.starNi_le
    have hsucc : name.length - s.starNi = (name.length - (s.starNi + 1)) + 1 := by omega
    show (name.length - (s.starNi + 1)) * (pattern.length + 1) + (pattern.length - (sp + 1))
      < (name.length - s.starNi) * (pattern.length + 1) + (pattern.length - s.pi)
    -- One place less for the star outweighs any step back in the pattern.
    rw [hsucc, Nat.add_mul, Nat.one_mul]
    omega

/-- A turn that goes on moves ahead in both texts, or stops at a star, or goes back. -/
theorem globStep_some {pattern name : Bytes} {s s' : GlobState pattern name}
    {h : s.ni < name.length} (hs : globStep s h = some s') :
    (∃ next hlt hle, s' = s.advance h next hlt hle) ∨
    (∃ hp, (pattern)[s.pi]? = some '*'.toUInt8 ∧ s' = s.atStar hp) ∨
    s.backtrack h = some s' := by
  -- The branches of `globStep` in their order.
  rw [globStep] at hs
  split at hs
  next hp =>
    split at hs
    next hone =>
      split at hs
      next hcls =>
        simp only at hs
        split at hs
        next hstop =>
          split at hs
          next hin => exact Or.inl ⟨_, _, _, (Option.some.inj hs).symm⟩
          next hout => exact Or.inr (Or.inr hs)
        next hopen =>
          split at hs
          next hne => exact Or.inr (Or.inr hs)
          next heq => exact Or.inl ⟨_, _, _, (Option.some.inj hs).symm⟩
      next hbyte => exact Or.inl ⟨_, _, _, (Option.some.inj hs).symm⟩
    next hother =>
      split at hs
      next hstar =>
        refine Or.inr (Or.inl ⟨hp, ?_, (Option.some.inj hs).symm⟩)
        rw [List.getElem?_eq_getElem hp, hstar]
      next hne => exact Or.inr (Or.inr hs)
  next hend => exact Or.inr (Or.inr hs)

/-- A turn of the loop makes the measure smaller. -/
theorem GlobState.measure_globStep {pattern name : Bytes} {s s' : GlobState pattern name}
    {h : s.ni < name.length} (hs : globStep s h = some s') : s'.measure < s.measure := by
  rcases globStep_some hs with ⟨next, hlt, hle, rfl⟩ | ⟨hp, -, rfl⟩ | hback
  · exact measure_advance s h next hlt hle
  · exact measure_atStar s hp
  · exact measure_backtrack hback

/-- The main loop of `glob_match`: the state it ends in, or `none` for `return false`. -/
def globLoop {pattern name : Bytes} (s : GlobState pattern name) :
    Option (GlobState pattern name) :=
  if h : s.ni < name.length then
    match _hs : globStep s h with
    | none => none
    | some s' => globLoop s'
  else some s
termination_by s.measure
decreasing_by exact GlobState.measure_globStep _hs

/-- `glob::glob_match`. Behind the loop the name is used up, and what is left of the pattern has
to be stars. -/
def globMatch (pattern name : Bytes) : Bool :=
  match globLoop (GlobState.start pattern name) with
  | none => false
  | some s => scanWhile (· == '*'.toUInt8) pattern s.pi == pattern.length

/-- `glob::split_dir_and_prefix`: the part up to the last `/`, and the rest. -/
def splitDirAndPrefix (tok : Bytes) : Bytes × Bytes :=
  let n := tok.length - (tok.reverse.takeWhile (· ≠ '/'.toUInt8)).length
  (tok.take n, tok.drop n)

/-- A word is cut behind its last `/`. Take a directory part that is empty or ends with a `/`, and a
rest without one. Then `split_dir_and_prefix` gives these two back. -/
theorem splitDirAndPrefix_append {dirPath pattern : Bytes}
    (hdir : dirPath = [] ∨ ∃ path, dirPath = path ++ ['/'.toUInt8])
    (hpattern : '/'.toUInt8 ∉ pattern) :
    splitDirAndPrefix (dirPath ++ pattern) = (dirPath, pattern) := by
  have hrest : ∀ b ∈ pattern.reverse, decide (b ≠ '/'.toUInt8) = true := by
    intro b hb
    exact decide_eq_true fun heq => hpattern (heq ▸ List.mem_reverse.mp hb)
  have hstop : dirPath.reverse.takeWhile (· ≠ '/'.toUInt8) = [] := by
    rcases hdir with rfl | ⟨path, rfl⟩
    · rfl
    · rw [List.reverse_append, List.reverse_singleton, List.singleton_append,
        List.takeWhile_cons_of_neg (by simp)]
  -- From behind, the scan passes the rest and stops at the end of the directory part.
  have hscan : (dirPath ++ pattern).reverse.takeWhile (· ≠ '/'.toUInt8) = pattern.reverse := by
    rw [List.reverse_append, List.takeWhile_append_of_pos hrest, hstop, List.append_nil]
  have hcut : (dirPath ++ pattern).length - pattern.reverse.length = dirPath.length := by
    rw [List.length_append, List.length_reverse, Nat.add_sub_cancel]
  rw [splitDirAndPrefix, hscan, hcut, List.take_left, List.drop_left]

/-- A word without a `/` has no directory part. -/
theorem splitDirAndPrefix_of_notMem {tok : Bytes} (h : '/'.toUInt8 ∉ tok) :
    splitDirAndPrefix tok = ([], tok) :=
  splitDirAndPrefix_append (Or.inl rfl) h

/-- The names that successive `readdir` calls on a path deliver. -/
abbrev Listing := Bytes → List Bytes

/-- The path `glob::scan_dir_entries` passes to `readdir`. -/
def scanPath (dirPath : Bytes) : Bytes :=
  if dirPath.length = 0 then bytes "/" else cString (dirPath.take 255)

/-- `glob::scan_dir_entries`: at most 64 names, each cut to 63 bytes. -/
def scanDirEntries (listing : Listing) (dirPath : Bytes) : Vec Bytes :=
  Vec.new.extendFromSlice
    (((listing (scanPath dirPath)).take 64).map fun name => ((cString name).take 255).take 63)

/-- Names that are written without a NUL are read as they are, as far as they fit. -/
theorem items_scanDirEntries_listing {listing : Listing} {dirPath : Bytes}
    (hnul : ∀ name ∈ listing (scanPath dirPath), 0 ∉ name) :
    (scanDirEntries listing dirPath).items
      = ((listing (scanPath dirPath)).take 64).map fun name => name.take 63 := by
  have hcut : ∀ name ∈ (listing (scanPath dirPath)).take 64,
      ((cString name).take 255).take 63 = name.take 63 := by
    intro name hname
    rw [cString_eq_self (hnul name (List.mem_of_mem_take hname)), List.take_take]
    rfl
  rw [scanDirEntries, Vec.items_extendFromSlice, List.map_congr_left hcut]
  apply List.take_of_length_le
  show (([] : List Bytes) ++ _).length ≤ 256
  rw [List.nil_append, List.length_map, List.length_take]
  omega

/-- A match written to its buffer of 128 bytes. -/
def globEntry (dirPath name : Bytes) : Bytes :=
  let dir := dirPath.take 64
  dir ++ name.take (127 - dir.length)

/-- `glob::glob_expand`: the matching names behind the directory part, or the word. -/
def globExpand (listing : Listing) (tok : Bytes) : Vec Bytes :=
  if hasGlob tok then
    let (dirPath, pattern) := splitDirAndPrefix tok
    let names := (scanDirEntries listing dirPath).items.filter (globMatch pattern)
    let result := Vec.new.extendFromSlice (names.map (globEntry dirPath))
    -- Without a match the word is passed on as it is.
    if result.items.length = 0 then Vec.new.push (tok.take 127) else result
  else Vec.new.push (tok.take 127)

end OnyxShell
