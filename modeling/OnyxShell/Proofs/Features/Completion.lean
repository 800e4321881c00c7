import OnyxShell.Lib.CommonPrefix
import OnyxShell.Proofs.Features.Complete

/-!
# `OnyxShell.Proofs.Features.Completion`: completion inserts what is common

`tabComplete_spec`: what Tab makes of a line whose token has no directory part. The matches are
`completions`, and the loop over them ends with the length of their longest common prefix
(`isLongest_commonPrefix`).

The general part is `OnyxShell.Lib.CommonPrefix`. What is left is that the code compares byte by
byte, and that the length which it keeps only shrinks.
-/

set_option autoImplicit false

namespace OnyxShell

/-- The builtins, for the first word, and the names of the listing that start with the token. -/
def completions (listing : Listing) (line : Bytes) (cursor : Nat) : List Bytes :=
  let tok := tokenBefore line cursor
  (if (line.take (tokenStart line cursor)).all isWhitespace then BUILTINS.filter (tok.isPrefixOf ·)
    else []) ++ (listing (bytes "/")).filter (tok.isPrefixOf ·)

/-! ### The common start -/

/-- The loop that compares two names, one turn at a time. -/
theorem commonLength_cons (x y : UInt8) (a b : Bytes) :
    commonLength (x :: a) (y :: b) = if x = y then commonLength a b + 1 else 0 := by
  rw [commonLength, List.zip_cons_cons, List.takeWhile_cons, commonLength]
  by_cases h : x = y
  · rw [if_pos h, if_pos (beq_iff_eq.mpr h), List.length_cons]
  · rw [if_neg h, if_neg (mt beq_iff_eq.mp h), List.length_nil]

/-- **Two matches.** -/
theorem isLongest_commonLength (a b : Bytes) :
    IsLongestCommonPrefix (a.take (commonLength a b)) [a, b] := by
  induction a generalizing b with
  | nil => exact IsLongestCommonPrefix.nil_of_mem List.mem_cons_self
  | cons x a ih =>
    cases b with
    | nil => exact IsLongestCommonPrefix.nil_of_mem (List.mem_cons_of_mem _ List.mem_cons_self)
    | cons y b =>
      rw [commonLength_cons]
      by_cases hxy : x = y
      · rw [if_pos hxy, hxy]
        exact (ih b).cons y
      · rw [if_neg hxy]
        exact IsLongestCommonPrefix.nil_of_ne hxy a b

/-- The loop on the length of the common start is a fold on the common start. -/
theorem take_commonPrefix (first : Bytes) (others : List Bytes) :
    first.take (commonPrefix first others)
      = others.foldl (fun w m => w.take (commonLength w m)) first := by
  have hfold : ∀ common,
      first.take (others.foldl (fun common m => commonLength (first.take common) m) common)
        = others.foldl (fun w m => w.take (commonLength w m)) (first.take common) := by
    induction others with
    | nil => exact fun _ => rfl
    | cons m others ih =>
      intro common
      have hle : commonLength (first.take common) m ≤ common :=
        Nat.le_trans (commonLength_le _ m) (List.length_take_le common first)
      rw [List.foldl_cons, List.foldl_cons, ih, List.take_take, Nat.min_eq_left hle]
  rw [commonPrefix, hfold, List.take_length]

/-- **All matches.** -/
theorem isLongest_commonPrefix (first : Bytes) (others : List Bytes) :
    IsLongestCommonPrefix (first.take (commonPrefix first others)) (first :: others) := by
  rw [take_commonPrefix]
  exact isLongestCommonPrefix_foldl isLongest_commonLength first others

/-! ### The matches -/

/-- `entry_startswith` is the test for a prefix. -/
theorem entryStartswith_eq (entry fragment : Bytes) :
    entryStartswith entry fragment = fragment.isPrefixOf entry := by
  rw [Bool.eq_iff_iff, List.isPrefixOf_iff_prefix, List.prefix_iff_eq_take, entryStartswith]
  split
  · rename_i hshort
    refine iff_of_false (by simp) fun h => ?_
    have hlen := congrArg List.length h
    rw [List.length_take] at hlen
    omega
  · rw [beq_iff_eq]
    exact eq_comm

/-- The matches are the completions. -/
theorem matchesAt_eq_completions {listing : Listing} {line : Bytes} {cursor : Nat}
    (hslash : '/'.toUInt8 ∉ tokenBefore line cursor)
    (hcount : (listing (bytes "/")).length ≤ 64)
    (hnames : ∀ name ∈ listing (bytes "/"), name.length ≤ 63 ∧ 0 ∉ name) :
    matchesAt listing line cursor = completions listing line cursor := by
  have hscan : (scanDirEntries listing []).items = listing (bytes "/") := by
    have hread : (scanDirEntries listing []).items
        = ((listing (bytes "/")).take 64).map fun name => name.take 63 :=
      items_scanDirEntries_listing fun name hname => (hnames name hname).2
    rw [hread, List.take_of_length_le hcount,
      List.map_congr_left fun name hname => List.take_of_length_le (hnames name hname).1,
      List.map_id']
  have hfit : ∀ m ∈ completions listing line cursor, m.take 63 = m := by
    intro m hm
    rcases List.mem_append.mp hm with hm | hm
    · have hall : ∀ b ∈ BUILTINS, b.length ≤ 63 := by decide
      split at hm
      · exact List.take_of_length_le (hall m (List.mem_filter.mp hm).1)
      · cases hm
    · exact List.take_of_length_le (hnames m (List.mem_filter.mp hm).1).1
  -- The vector of the matches has room for all builtins and 64 names.
  have hlen : (completions listing line cursor).length ≤ VEC_CAP := by
    have hbuiltins : BUILTINS.length = 27 := rfl
    have hnamed := List.length_filter_le ((tokenBefore line cursor).isPrefixOf ·)
      (listing (bytes "/"))
    rw [completions, List.length_append]
    split
    · have hfirst := List.length_filter_le ((tokenBefore line cursor).isPrefixOf ·) BUILTINS
      rw [VEC_CAP]
      omega
    · rw [VEC_CAP, List.length_nil]
      omega
  have hentries : (scanDirEntries listing []).items.filter
      (entryStartswith · (tokenBefore line cursor))
        = (listing (bytes "/")).filter ((tokenBefore line cursor).isPrefixOf ·) := by
    rw [hscan]
    exact List.filter_congr fun name _ => entryStartswith_eq name _
  rw [matchesAt, tabMatches, splitDirAndPrefix_of_notMem hslash]
  dsimp only
  rw [hentries, Vec.items_extendFromSlice]
  show ((completions listing line cursor).map (·.take 63)).take VEC_CAP = _
  rw [List.map_congr_left hfit, List.map_id', List.take_of_length_le hlen]

/-- Every completion starts with the token. -/
theorem prefix_of_mem_completions {listing : Listing} {line m : Bytes} {cursor : Nat}
    (h : m ∈ completions listing line cursor) : tokenBefore line cursor <+: m := by
  rcases List.mem_append.mp h with h | h
  · split at h
    · exact List.isPrefixOf_iff_prefix.mp (List.mem_filter.mp h).2
    · cases h
  · exact List.isPrefixOf_iff_prefix.mp (List.mem_filter.mp h).2

/-- Several matches are replaced by their longest common prefix. -/
theorem exists_replacement {found : List Bytes} (h : 2 ≤ found.length) (tok : Bytes) :
    ∃ common, IsLongestCommonPrefix common found ∧
      replacement found tok = if tok.length < common.length then some common else none := by
  rcases found with _ | ⟨first, _ | ⟨second, others⟩⟩
  · rw [List.length_nil] at h
    omega
  · rw [List.length_singleton] at h
    omega
  · refine ⟨_, isLongest_commonPrefix first (second :: others), ?_⟩
    rw [List.length_take, Nat.min_eq_left (commonPrefix_le first _)]
    rfl

/-! ### The line -/

/-- **Completion inserts what is common.** With no match nothing changes. A single match takes the
place of the token, with a blank behind it. Several matches have their longest common prefix put
there, if it is longer than the token, and they all start with what stands there then. The text
before the token and behind the cursor stays, and the whole is cut to 256 bytes. -/
theorem tabComplete_spec (listing : Listing) (line : Bytes) (cursor : Nat)
    (hlen : line.length ≤ 255) (hcursor : cursor ≤ line.length)
    (hslash : '/'.toUInt8 ∉ tokenBefore line cursor)
    (hcount : (listing (bytes "/")).length ≤ 64)
    (hnames : ∀ name ∈ listing (bytes "/"), name.length ≤ 63 ∧ 0 ∉ name) :
    let front := line.take (tokenStart line cursor)
    let tok := tokenBefore line cursor
    let back := line.drop cursor
    let found := completions listing line cursor
    let result := tabComplete listing line cursor
    front ++ tok ++ back = line ∧
    (found = [] → result.line.items = line ∧ result.cursor = cursor) ∧
    (∀ m, found = [m] →
      result.line.items = (front ++ (m ++ bytes " ") ++ back).take VEC_CAP ∧
        result.cursor = front.length + (m.length + 1)) ∧
    (2 ≤ found.length → ∃ common w, IsLongestCommonPrefix common found ∧
      w = (if tok.length < common.length then common else tok) ∧ (∀ m ∈ found, w <+: m) ∧
      result.line.items = (front ++ w ++ back).take VEC_CAP ∧
        result.cursor = front.length + w.length) := by
  intro front tok back found result
  have hmatches := matchesAt_eq_completions hslash hcount hnames
  have heq := tabComplete_eq listing line cursor
  have hwhole : front ++ tok ++ back = line := by
    show line.take (tokenStart line cursor) ++ tokenBefore line cursor ++ line.drop cursor = line
    rw [take_tokenStart line hcursor, List.take_append_drop]
  have hline : line.take VEC_CAP = line :=
    List.take_of_length_le (Nat.le_trans hlen (by decide))
  have hstart : tokenStart line cursor + tok.length = cursor :=
    Nat.sub_add_cancel (tokenBefore_length_le line cursor)
  have hfront : front.length = tokenStart line cursor := by
    rw [List.length_take]
    omega
  -- From here on it is the number of matches that decides.
  rw [hmatches] at heq
  refine ⟨hwhole, ?_, ?_, ?_⟩
  · intro hnone
    rw [show completions listing line cursor = [] from hnone, replacement] at heq
    rw [hline] at heq
    exact heq
  · intro m hone
    rw [show completions listing line cursor = [m] from hone, replacement] at heq
    rw [hfront]
    refine ⟨heq.1, heq.2.trans ?_⟩
    rw [List.length_append]
    rfl
  · intro htwo
    rcases exists_replacement htwo tok with ⟨common, hcommon, hnew⟩
    refine ⟨common, _, hcommon, rfl, ?_⟩
    rw [show replacement (completions listing line cursor) (tokenBefore line cursor) = _ from hnew]
      at heq
    rw [hfront]
    by_cases hlong : tok.length < common.length
    · rw [if_pos hlong] at heq ⊢
      exact ⟨hcommon.common, heq⟩
    · -- The line stays, and with it the token.
      rw [if_neg hlong] at heq ⊢
      refine ⟨fun m hm => prefix_of_mem_completions hm, ?_, heq.2.trans hstart.symm⟩
      rw [hwhole]
      exact heq.1

/-- The directory of a listing with two names. -/
def twoNames (name name' : Bytes) : Listing := fun _ => [name, name']

/-- The theorem at `cat f`, with two files to choose from. -/
theorem tabComplete_spec_cat :
    ∃ common w, IsLongestCommonPrefix common
        (completions (twoNames (bytes "file1") (bytes "file2")) (bytes "cat f") 5) ∧
      w = (if (tokenBefore (bytes "cat f") 5).length < common.length then common
        else tokenBefore (bytes "cat f") 5) ∧
      (∀ m ∈ completions (twoNames (bytes "file1") (bytes "file2")) (bytes "cat f") 5, w <+: m) ∧
      (tabComplete (twoNames (bytes "file1") (bytes "file2")) (bytes "cat f") 5).line.items
        = (bytes "cat " ++ w ++ []).take VEC_CAP ∧
      (tabComplete (twoNames (bytes "file1") (bytes "file2")) (bytes "cat f") 5).cursor
        = 4 + w.length :=
  (tabComplete_spec (twoNames (bytes "file1") (bytes "file2")) (bytes "cat f") 5 (by decide)
    (by decide) (by decide) (by decide) (by decide +kernel)).2.2.2 (by decide +kernel)

end OnyxShell
