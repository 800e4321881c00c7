import OnyxShell.Features.Service.Complete

/-!
# `OnyxShell.Proofs.Features.Complete`: what completion does to the line

`tab_complete` puts a text in the place of the whole token before the cursor
(`items_tabComplete`), while it looks for names that go on from the part behind the last `/`
only. So a directory part of the token is lost. `tabComplete_addsOnly_iff` says when the
typed bytes stay.
-/

set_option autoImplicit false

namespace OnyxShell

/-- The token before the cursor. -/
def tokenBefore (line : Bytes) (cursor : Nat) : Bytes :=
  ((line.take cursor).reverse.takeWhile fun b => !isWhitespace b).reverse

/-- Where that token starts. -/
def tokenStart (line : Bytes) (cursor : Nat) : Nat := cursor - (tokenBefore line cursor).length

/-- The matches for that token. -/
def matchesAt (listing : Listing) (line : Bytes) (cursor : Nat) : List Bytes :=
  (tabMatches listing (tokenBefore line cursor)
    ((line.take (tokenStart line cursor)).all isWhitespace)).items

/-- What the token is replaced by: a single match and a blank, or the common start of
several matches if it is longer than the token. -/
def replacement (found : List Bytes) (tok : Bytes) : Option Bytes :=
  match found with
  | [] => none
  | [m] => some (m ++ bytes " ")
  | first :: others =>
    if commonPrefix first others > tok.length then
      some (first.take (commonPrefix first others))
    else none

/-- Completion keeps every byte of the line: it puts some text in at the cursor, and the
cursor behind it. -/
def AddsOnly (listing : Listing) (line : Bytes) (cursor : Nat) : Prop :=
  ∃ s, (tabComplete listing line cursor).line.items =
      (line.take cursor ++ s ++ line.drop cursor).take VEC_CAP ∧
    (tabComplete listing line cursor).cursor = cursor + s.length

/-- The token before the cursor is no longer than the text before it. -/
theorem tokenBefore_length_le (line : Bytes) (cursor : Nat) :
    (tokenBefore line cursor).length ≤ cursor := by
  rw [tokenBefore, List.length_reverse]
  have hle := (List.takeWhile_prefix (fun b => !isWhitespace b)
    (l := (line.take cursor).reverse)).length_le
  rw [List.length_reverse] at hle
  exact Nat.le_trans hle (List.length_take_le cursor line)

/-- The line before the cursor ends with the token. -/
theorem take_tokenStart (line : Bytes) {cursor : Nat} (h : cursor ≤ line.length) :
    line.take (tokenStart line cursor) ++ tokenBefore line cursor = line.take cursor := by
  have hle := tokenBefore_length_le line cursor
  have hsuffix : tokenBefore line cursor <:+ line.take cursor := by
    rw [tokenBefore, ← List.reverse_prefix, List.reverse_reverse]
    exact List.takeWhile_prefix _
  rcases hsuffix with ⟨front, hfront⟩
  have hlen := congrArg List.length hfront
  rw [List.length_append, List.length_take, Nat.min_eq_left h] at hlen
  have htake := congrArg (List.take front.length) hfront
  rw [List.take_left', List.take_take, Nat.min_eq_left (by omega)] at htake
  · rw [← hfront, tokenStart, show cursor - (tokenBefore line cursor).length = front.length by omega,
      ← htake]
  · rfl

/-- What two names have in common is no longer than the first. -/
theorem commonLength_le (a b : Bytes) : commonLength a b ≤ a.length := by
  rw [commonLength]
  have hle := (List.takeWhile_prefix (fun p : UInt8 × UInt8 => p.1 == p.2) (l := a.zip b)).length_le
  rw [List.length_zip] at hle
  exact Nat.le_trans hle (Nat.min_le_left _ _)

/-- The common start is a part of the first match. -/
theorem commonPrefix_le (first : Bytes) (others : List Bytes) :
    commonPrefix first others ≤ first.length := by
  have hfold : ∀ common, common ≤ first.length →
      others.foldl (fun common m => commonLength (first.take common) m) common ≤ first.length := by
    induction others with
    | nil => exact fun _ h => h
    | cons m rest ih =>
      intro common _
      exact ih _ (Nat.le_trans (commonLength_le _ m) (List.length_take_le' common first))
  exact hfold _ (Nat.le_refl _)

/-- What completion makes of the line. -/
theorem tabComplete_eq (listing : Listing) (line : Bytes) (cursor : Nat) :
    match replacement (matchesAt listing line cursor) (tokenBefore line cursor) with
    | none => (tabComplete listing line cursor).line.items = line.take VEC_CAP ∧
        (tabComplete listing line cursor).cursor = cursor
    | some w => (tabComplete listing line cursor).line.items =
          (line.take (tokenStart line cursor) ++ w ++ line.drop cursor).take VEC_CAP ∧
        (tabComplete listing line cursor).cursor = tokenStart line cursor + w.length := by
  have hkeep : (lineToVec line).items = line.take VEC_CAP := by
    rw [lineToVec, Vec.items_extendFromSlice]
    rfl
  have hstart : ∀ text : Bytes, (Vec.new.extendFromSlice text).items = text.take VEC_CAP :=
    fun text => Vec.items_extendFromSlice Vec.new text
  have hcut : ∀ (v : Vec UInt8) (text more : Bytes), v.items = text.take VEC_CAP →
      (v.extendFromSlice more).items = (text ++ more).take VEC_CAP := by
    intro v text more h
    rw [Vec.items_extendFromSlice, h, Vec.take_take_append]
  have htab : tabComplete listing line cursor =
      match matchesAt listing line cursor with
      | [] => ⟨lineToVec line, cursor, false, []⟩
      | [m] => ⟨(((Vec.new.extendFromSlice (line.take (tokenStart line cursor))).extendFromSlice
          m).push ' '.toUInt8).extendFromSlice (line.drop cursor),
          tokenStart line cursor + m.length + 1, false, []⟩
      | first :: others =>
        if commonPrefix first others > (tokenBefore line cursor).length then
          ⟨((Vec.new.extendFromSlice (line.take (tokenStart line cursor))).extendFromSlice
            (first.take (commonPrefix first others))).extendFromSlice (line.drop cursor),
            tokenStart line cursor + commonPrefix first others, true,
            showMatches (first :: others)⟩
        else ⟨lineToVec line, cursor, true, showMatches (first :: others)⟩ := rfl
  rw [htab]
  -- No match, a single one, and several.
  rcases matchesAt listing line cursor with _ | ⟨first, _ | ⟨second, others⟩⟩
  · exact ⟨hkeep, rfl⟩
  · constructor
    · have hblank : ((Vec.new.extendFromSlice (line.take (tokenStart line cursor))).extendFromSlice
          first).push ' '.toUInt8 =
          ((Vec.new.extendFromSlice (line.take (tokenStart line cursor))).extendFromSlice
            first).extendFromSlice (bytes " ") := rfl
      show (Vec.extendFromSlice _ (line.drop cursor)).items = _
      rw [hblank, hcut _ _ _ (hcut _ _ _ (hcut _ _ _ (hstart _))), List.append_assoc _ first]
    · show tokenStart line cursor + first.length + 1 = _
      rw [List.length_append]
      rfl
  · rw [replacement]
    · by_cases hlong : commonPrefix first (second :: others) > (tokenBefore line cursor).length
      · rw [if_pos hlong]
        dsimp only
        rw [if_pos hlong]
        refine ⟨hcut _ _ _ (hcut _ _ _ (hstart _)), ?_⟩
        rw [List.length_take, Nat.min_eq_left (commonPrefix_le first _)]
      · rw [if_neg hlong]
        dsimp only
        rw [if_neg hlong]
        exact ⟨hkeep, rfl⟩
    · exact fun h => List.cons_ne_nil _ _ h

/-- A token that is replaced stays, in the first 256 bytes of the line, when the new text
starts with what these bytes show of it. -/
theorem exists_inserted_iff (front tok w rest : Bytes) :
    (∃ s, (front ++ w ++ rest).take VEC_CAP = (front ++ tok ++ s ++ rest).take VEC_CAP ∧
        w.length = tok.length + s.length) ↔
      tok.length ≤ w.length ∧ tok.take (VEC_CAP - front.length) <+: w := by
  have hbehind : ∀ text : Bytes, (front ++ text).take VEC_CAP =
      front.take VEC_CAP ++ text.take (VEC_CAP - front.length) := fun text => List.take_append
  constructor
  · -- What shows of the token stands at one place in both texts.
    rintro ⟨s, htake, hlen⟩
    refine ⟨by omega, ?_⟩
    rw [List.append_assoc, hbehind, List.append_assoc front, List.append_assoc front, hbehind]
      at htake
    have htake := congrArg (List.take tok.length) (List.append_cancel_left htake)
    rw [List.take_take, List.take_take, List.take_append_of_le_length (by omega),
      List.append_assoc, List.take_append_of_le_length (by omega)] at htake
    have hshown : tok.take (VEC_CAP - front.length) =
        tok.take (min tok.length (VEC_CAP - front.length)) := by
      rw [List.take_eq_take_iff]
      omega
    rw [hshown, ← htake]
    exact List.take_prefix _ _
  · rintro ⟨hlen, hpre⟩
    refine ⟨w.drop tok.length, ?_, by rw [List.length_drop]; omega⟩
    rw [List.append_assoc, hbehind, List.append_assoc front, List.append_assoc front, hbehind]
    apply congrArg
    rcases Nat.lt_or_ge (VEC_CAP - front.length) tok.length with hlt | hge
    · -- The cut is in the token, and nothing behind it shows.
      rw [List.prefix_iff_eq_take, List.length_take, Nat.min_eq_left (Nat.le_of_lt hlt)] at hpre
      rw [List.append_assoc, List.take_append_of_le_length (by omega),
        List.take_append_of_le_length (by omega), hpre]
    · rw [List.take_of_length_le hge] at hpre
      rcases hpre with ⟨more, rfl⟩
      rw [List.drop_left]

/-- Every match is a builtin that starts with the token, or a name of the directory, cut to
63 bytes, that starts with the part behind the last `/`. -/
theorem mem_matchesAt {listing : Listing} {line m : Bytes} {cursor : Nat}
    (h : m ∈ matchesAt listing line cursor) :
    (m ∈ BUILTINS ∧ tokenBefore line cursor <+: m) ∨
    ∃ name ∈ listing (scanPath (splitDirAndPrefix (tokenBefore line cursor)).1),
      m = ((cString name).take 255).take 63 ∧
      (splitDirAndPrefix (tokenBefore line cursor)).2 <+: m := by
  rw [matchesAt, tabMatches, Vec.items_extendFromSlice] at h
  have h := List.mem_of_mem_take h
  rw [show (Vec.new : Vec Bytes).items = [] from rfl, List.nil_append] at h
  rcases List.mem_map.mp h with ⟨full, hfull, rfl⟩
  rcases List.mem_append.mp hfull with hbuiltin | hentry
  · left
    split at hbuiltin
    · -- The names of the builtins fit a match of 63 bytes.
      rcases List.mem_filter.mp hbuiltin with ⟨hmem, hpre⟩
      have hshort : full.take 63 = full := by
        have hall : ∀ b ∈ BUILTINS, b.length ≤ 63 := by decide
        exact List.take_of_length_le (hall full hmem)
      rw [hshort]
      exact ⟨hmem, List.isPrefixOf_iff_prefix.mp hpre⟩
    · cases hbuiltin
  · right
    rcases List.mem_filter.mp hentry with ⟨hmem, hpre⟩
    rw [scanDirEntries, Vec.items_extendFromSlice] at hmem
    have hmem := List.mem_of_mem_take hmem
    rw [show (Vec.new : Vec Bytes).items = [] from rfl, List.nil_append] at hmem
    rcases List.mem_map.mp hmem with ⟨name, hname, rfl⟩
    have hcut : (((cString name).take 255).take 63).take 63 = ((cString name).take 255).take 63 := by
      rw [List.take_take, Nat.min_self]
    rw [hcut]
    refine ⟨name, List.mem_of_mem_take hname, rfl, ?_⟩
    rw [entryStartswith] at hpre
    split at hpre
    · cases hpre
    · rw [← beq_iff_eq.mp hpre]
      exact List.take_prefix _ _

/-- The new text is a part of a match, or a match and a blank. -/
theorem replacement_eq {found : List Bytes} {tok w : Bytes} (h : replacement found tok = some w) :
    ∃ m ∈ found, w = m ++ bytes " " ∨ tok.length < w.length ∧ w <+: m := by
  rcases found with _ | ⟨first, _ | ⟨second, others⟩⟩
  · cases h
  · cases h
    exact ⟨first, List.mem_singleton_self first, Or.inl rfl⟩
  · refine ⟨first, List.mem_cons_self, Or.inr ?_⟩
    rw [replacement] at h
    · split at h
      · rename_i hlong
        cases h
        rw [List.length_take, Nat.min_eq_left (commonPrefix_le first _)]
        exact ⟨hlong, List.take_prefix _ _⟩
      · cases h
    · exact fun h => List.cons_ne_nil _ _ h

/-- Without a directory part, the new text goes on from the token. -/
theorem prefix_of_replacement {listing : Listing} {line w : Bytes} {cursor : Nat}
    (hslash : '/'.toUInt8 ∉ tokenBefore line cursor)
    (h : replacement (matchesAt listing line cursor) (tokenBefore line cursor) = some w) :
    tokenBefore line cursor <+: w := by
  have hsplit : (splitDirAndPrefix (tokenBefore line cursor)).2 = tokenBefore line cursor := by
    rw [splitDirAndPrefix_of_notMem hslash]
  rcases replacement_eq h with ⟨m, hm, hw⟩
  have hpre : tokenBefore line cursor <+: m := by
    rcases mem_matchesAt hm with ⟨-, hbuiltin⟩ | ⟨name, -, -, hentry⟩
    · exact hbuiltin
    · rwa [hsplit] at hentry
  rcases hw with rfl | ⟨hlong, hw⟩
  · exact hpre.trans (List.prefix_append m _)
  · exact List.prefix_of_prefix_length_le hpre hw (Nat.le_of_lt hlong)

/-- Names without a `/` make a new text without one. -/
theorem slash_notMem_replacement {listing : Listing} {line w : Bytes} {cursor : Nat}
    (hnames : ∀ path, ∀ name ∈ listing path, '/'.toUInt8 ∉ name)
    (h : replacement (matchesAt listing line cursor) (tokenBefore line cursor) = some w) :
    '/'.toUInt8 ∉ w := by
  rcases replacement_eq h with ⟨m, hm, hw⟩
  have hmatch : '/'.toUInt8 ∉ m := by
    rcases mem_matchesAt hm with ⟨hbuiltin, -⟩ | ⟨name, hname, rfl, -⟩
    · have hall : ∀ b ∈ BUILTINS, '/'.toUInt8 ∉ b := by decide
      exact hall m hbuiltin
    · intro hmem
      exact hnames _ name hname
        (List.takeWhile_subset _ (List.mem_of_mem_take (List.mem_of_mem_take hmem)))
  rcases hw with rfl | ⟨-, hw⟩
  · intro hmem
    rcases List.mem_append.mp hmem with hmem | hmem
    · exact hmatch hmem
    · exact absurd hmem (by decide)
  · exact fun hmem => hmatch (hw.subset hmem)

/-- Without a replacement nothing is added. -/
theorem addsOnly_of_replacement_none {listing : Listing} {line : Bytes} {cursor : Nat}
    (hnone : replacement (matchesAt listing line cursor) (tokenBefore line cursor) = none) :
    AddsOnly listing line cursor := by
  have heq := tabComplete_eq listing line cursor
  rw [hnone] at heq
  refine ⟨[], ?_, heq.2⟩
  rw [heq.1, List.append_nil, List.take_append_drop]

/-- A replacement only adds, when it begins with what fits of the token. -/
theorem addsOnly_iff_of_replacement {listing : Listing} {line w : Bytes} {cursor : Nat}
    (hcursor : cursor ≤ line.length)
    (hnew : replacement (matchesAt listing line cursor) (tokenBefore line cursor) = some w) :
    AddsOnly listing line cursor ↔
      (tokenBefore line cursor).length ≤ w.length ∧
        (tokenBefore line cursor).take (VEC_CAP - tokenStart line cursor) <+: w := by
  have hfront := take_tokenStart line hcursor
  have hle := tokenBefore_length_le line cursor
  have hfrontLen : (line.take (tokenStart line cursor)).length = tokenStart line cursor := by
    rw [List.length_take, tokenStart]
    omega
  have hstart : tokenStart line cursor + (tokenBefore line cursor).length = cursor := by
    rw [tokenStart, Nat.sub_add_cancel hle]
  have heq := tabComplete_eq listing line cursor
  rw [hnew] at heq
  rw [← hfrontLen, ← exists_inserted_iff _ _ w (line.drop cursor), AddsOnly, heq.1, heq.2]
  apply exists_congr
  intro s
  rw [← hfront]
  exact and_congr_right fun _ => ⟨fun h => by omega, fun h => by omega⟩

/-- The replacement of a token without a `/` begins with it. -/
theorem begins_of_no_slash {listing : Listing} {line w : Bytes} {cursor : Nat}
    (hslash : '/'.toUInt8 ∉ tokenBefore line cursor)
    (hnew : replacement (matchesAt listing line cursor) (tokenBefore line cursor) = some w) :
    (tokenBefore line cursor).length ≤ w.length ∧
      (tokenBefore line cursor).take (VEC_CAP - tokenStart line cursor) <+: w := by
  have hpre := prefix_of_replacement hslash hnew
  exact ⟨hpre.length_le, (List.take_prefix _ _).trans hpre⟩

/-- **When completion only adds text**: if the token before the cursor has no `/`, or
nothing is put in its place, or the new text happens to start with what the first 256 bytes
of the line show of the token. The last is out of the question for names without a `/` and a
cursor in the first 256 bytes. -/
theorem tabComplete_addsOnly_iff (listing : Listing) (line : Bytes) (cursor : Nat)
    (hcursor : cursor ≤ line.length) :
    (AddsOnly listing line cursor ↔
      '/'.toUInt8 ∉ tokenBefore line cursor ∨
      ∀ w, replacement (matchesAt listing line cursor) (tokenBefore line cursor) = some w →
        (tokenBefore line cursor).length ≤ w.length ∧
        (tokenBefore line cursor).take (VEC_CAP - tokenStart line cursor) <+: w) ∧
    ((∀ path, ∀ name ∈ listing path, '/'.toUInt8 ∉ name) → cursor ≤ VEC_CAP →
      (AddsOnly listing line cursor ↔
        '/'.toUInt8 ∉ tokenBefore line cursor ∨
        replacement (matchesAt listing line cursor) (tokenBefore line cursor) = none)) := by
  rcases hnew : replacement (matchesAt listing line cursor) (tokenBefore line cursor) with _ | w
  · have hadds := addsOnly_of_replacement_none hnew
    exact ⟨⟨fun _ => Or.inr fun w hw => (nomatch hw), fun _ => hadds⟩,
      fun _ _ => ⟨fun _ => Or.inr rfl, fun _ => hadds⟩⟩
  · rw [addsOnly_iff_of_replacement hcursor hnew]
    constructor
    · constructor
      · intro h
        right
        intro w' hw'
        cases hw'
        exact h
      · rintro (hslash | h)
        · exact begins_of_no_slash hslash hnew
        · exact h w rfl
    · intro hnames hshort
      constructor
      · rintro ⟨-, hpre⟩
        left
        -- The whole token is shown, so its `/` would be one of the new text.
        have hall : (tokenBefore line cursor).take (VEC_CAP - tokenStart line cursor) =
            tokenBefore line cursor := by
          apply List.take_of_length_le
          have hle := tokenBefore_length_le line cursor
          rw [tokenStart]
          omega
        rw [hall] at hpre
        exact fun hmem => slash_notMem_replacement hnames hnew (hpre.subset hmem)
      · rintro (hslash | h)
        · exact begins_of_no_slash hslash hnew
        · cases h

/-- The directory of a listing with one name. -/
def oneName (name : Bytes) : Listing := fun _ => [name]

/-- Tab behind `ls fi` in a directory with one name adds to the line only. -/
theorem tabComplete_addsOnly_iff_ls : AddsOnly (oneName (bytes "file.txt")) (bytes "ls fi") 5 :=
  (tabComplete_addsOnly_iff (oneName (bytes "file.txt")) (bytes "ls fi") 5 (by decide)).1.mpr
    (Or.inl (by decide))

/-- `ls dir/fi` becomes `ls file.txt`. -/
theorem not_addsOnly_directory :
    (tabComplete (oneName (bytes "file.txt")) (bytes "ls dir/fi") 9).line.items =
      bytes "ls file.txt " ∧
    ¬AddsOnly (oneName (bytes "file.txt")) (bytes "ls dir/fi") 9 := by
  have hline : (tabComplete (oneName (bytes "file.txt")) (bytes "ls dir/fi") 9).line.items =
      bytes "ls file.txt " := by decide +kernel
  refine ⟨hline, ?_⟩
  rintro ⟨s, hitems, -⟩
  rw [hline] at hitems
  -- The fourth byte, the `d`, is lost.
  have hfourth := congrArg (fun text : Bytes => (text)[3]?) hitems
  rw [List.append_assoc, List.getElem?_take, if_pos (by decide),
    List.getElem?_append_left (by decide)] at hfourth
  exact absurd hfourth (by decide)

end OnyxShell
