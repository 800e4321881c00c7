import OnyxShell.Features.Expansion
import OnyxShell.Proofs.Features.Chronicle

/-!
# `OnyxShell.Proofs.Features.Expansion`: the expansions mean what they should

`items_expandVars` and `items_historyExpand_accepted`: the two loops write the first 256
bytes of the line with the meaning of every reference in its place.

At each index the finder of a loop finds what the reader reads there (`reads_variables`,
`reads_references`). The rest is `Finder.text_pieces`, which holds for every such pair.
-/

set_option autoImplicit false

namespace OnyxShell

open Scan (scanWhile drop_scanWhile take_scanWhile scanWhile_lt_length le_scanWhile)

/-- The rest of a line has one byte, or two and another rest. -/
theorem drop_cases {line : Bytes} {i : Nat} (hi : i < line.length) :
    (line)[i + 1]? = none ∧ line.drop i = [(line)[i]] ∨
    ∃ c, (line)[i + 1]? = some c ∧ line.drop i = (line)[i] :: c :: line.drop (i + 2) := by
  rw [List.drop_eq_getElem_cons hi]
  by_cases hnext : i + 1 < line.length
  · right
    exact ⟨_, List.getElem?_eq_getElem hnext, by rw [List.drop_eq_getElem_cons hnext]⟩
  · left
    exact ⟨List.getElem?_eq_none (by omega), by rw [List.drop_eq_nil_of_le (by omega)]⟩

/-! ### Variables -/

/-- Where a brace closes, the scan stops at it. -/
theorem scanWhile_brace (line : Bytes) (i : Nat) :
    scanWhile (· != '\x7d'.toUInt8) line i < line.length ↔ '\x7d'.toUInt8 ∈ line.drop i := by
  rw [scanWhile_lt_length]
  constructor
  · rintro ⟨b, hmem, hb⟩
    have hbrace : b = '\x7d'.toUInt8 := by simpa using hb
    exact hbrace ▸ hmem
  · exact fun h => ⟨_, h, by decide⟩

/-- `expand_vars` finds the variable references. -/
theorem reads_variables (line : Bytes) : (variableFinder line).Reads variableReader line := by
  intro i hi
  show readVariable (line.drop i) = (variableAt line i).map fun p => (p.1, line.drop p.2)
  have hget : (line)[i]? = some (line)[i] := List.getElem?_eq_getElem hi
  rcases drop_cases hi with ⟨hnext, hdrop⟩ | ⟨c, hnext, hdrop⟩
  · rw [hdrop, variableAt, hget, hnext]
    simp only [readVariable, ite_self, Option.map_none]
  · rw [hdrop, readVariable, variableAt, hget, hnext]
    by_cases hmark : (line)[i] = '$'.toUInt8
    · simp only [hmark, ne_eq, not_true, if_false, if_true]
      by_cases hbrace : c = '\x7b'.toUInt8
      · -- `${`, closed or not.
        simp only [if_pos hbrace]
        by_cases hclosed : '\x7d'.toUInt8 ∈ line.drop (i + 2)
        · rw [if_pos hclosed, if_pos ((scanWhile_brace line (i + 2)).mpr hclosed), Option.map_some,
            Span.of, take_scanWhile, ← drop_scanWhile, List.tail_drop]
        · rw [if_neg hclosed, if_neg fun h => hclosed ((scanWhile_brace line (i + 2)).mp h),
            Option.map_none]
      · simp only [if_neg hbrace]
        by_cases hstart : isNameStart c
        · -- The name begins with the byte behind the `$`.
          have hname : line.drop (i + 1) = c :: line.drop (i + 2) := by
            have htail := congrArg List.tail hdrop
            rw [List.tail_drop] at htail
            exact htail
          have hbyte : isNameByte c = true := by rw [isNameByte, hstart, Bool.true_or]
          rw [if_pos hstart, if_pos hstart, Option.map_some, Span.of, take_scanWhile, drop_scanWhile,
            hname, List.takeWhile_cons_of_pos hbyte, List.dropWhile_cons_of_pos hbyte]
        · rw [if_neg hstart, if_neg hstart, Option.map_none]
    · have hsome : some (line)[i] ≠ some '$'.toUInt8 := fun h => hmark (Option.some.inj h)
      rw [if_pos hmark, if_neg hsome, Option.map_none]

/-- **`expand_vars` means substitution**: the result is the first 256 bytes of the line with every
variable reference replaced by its value. The substitution is `Reader.replace`, which reads a
variable or takes a byte. The scan of the code and the reader stop at the same places
(`reads_variables`), and the vector keeps the first 256 bytes. -/
theorem items_expandVars (env : Env) (line : Bytes) :
    (expandVars env line).items = (expandedVars env line).take VEC_CAP := by
  rw [expandVars, Finder.run_eq_foldl]
  refine (Vec.items_foldl_pieces id (fun name => (env.get name).getD []) (fun _ _ => rfl)
    (fun _ _ => rfl) _ Vec.new).trans ?_
  rw [Finder.text_pieces (reads_variables line)]
  rfl

/-! ### History references -/

/-- A number is less than the power of ten with its length. -/
theorem number_lt {ds : Bytes} (hds : ∀ d ∈ ds, isDigit d = true) : number ds < 10 ^ ds.length := by
  suffices h : ∀ n, ds.foldl addDigit n < (n + 1) * 10 ^ ds.length by
    have hzero := h 0
    rw [Nat.zero_add, Nat.one_mul] at hzero
    exact hzero
  induction ds with
  | nil => exact fun n => by rw [List.length_nil, Nat.pow_zero, Nat.mul_one]; exact Nat.lt_succ_self n
  | cons d ds ih =>
    intro n
    have hdigit : (d - '0'.toUInt8).toNat ≤ 9 := by
      have hd := hds d List.mem_cons_self
      rw [isDigit, Bool.and_eq_true, decide_eq_true_eq, decide_eq_true_eq] at hd
      have hlow := UInt8.le_iff_toNat_le.mp hd.1
      have hhigh := UInt8.le_iff_toNat_le.mp hd.2
      rw [UInt8.toNat_sub_of_le _ _ hd.1]
      have h0 : '0'.toUInt8.toNat = 48 := rfl
      have h9 : '9'.toUInt8.toNat = 57 := rfl
      omega
    -- The digit takes `n + 1` times ten at most.
    have hrest := ih (fun d' hd' => hds d' (List.mem_cons_of_mem _ hd')) (addDigit n d)
    rw [List.foldl_cons, List.length_cons, Nat.pow_succ']
    refine Nat.lt_of_lt_of_le hrest ?_
    rw [← Nat.mul_assoc]
    apply Nat.mul_le_mul_right
    rw [addDigit]
    omega

/-- A run of at most 19 digits spells a number that a word holds with room to spare. -/
theorem number_takeWhile_lt {line : Bytes} (hlen : (line.takeWhile isDigit).length ≤ 19) :
    number (line.takeWhile isDigit) < 10 ^ 19 := by
  have hdigits : ∀ d ∈ line.takeWhile isDigit, isDigit d = true :=
    fun d hd => List.mem_takeWhile_imp hd
  have hlt := number_lt hdigits
  exact Nat.lt_of_lt_of_le hlt (Nat.pow_le_pow_right (by decide) hlen)

/-- The digits behind an index are read as their number. -/
theorem digitsLoop_of_short {line : Bytes} {j : Nat}
    (hlen : ((line.drop j).takeWhile isDigit).length ≤ 19) :
    digitsLoop line j 0 = (scanWhile isDigit line j, number ((line.drop j).takeWhile isDigit)) := by
  apply digitsLoop_eq
  have hlt := number_takeWhile_lt hlen
  exact Nat.le_of_lt (Nat.lt_trans hlt (by decide))

/-- `history_expand` finds the history references. -/
theorem reads_references {line : Bytes} (hshort : ShortNumbers line) :
    (referenceFinder line).Reads referenceReader line := by
  intro i hi
  show readReference (line.drop i) = (referenceAt line i).map fun p => (p.1, line.drop p.2)
  have hget : (line)[i]? = some (line)[i] := List.getElem?_eq_getElem hi
  rcases drop_cases hi with ⟨hnext, hdrop⟩ | ⟨c, hnext, hdrop⟩
  · -- The last byte of the line is no reference.
    rw [hdrop, referenceAt, hget, hnext]
    simp only [readReference, ite_self, Option.map_none]
  · rw [hdrop, readReference, referenceAt, hget, hnext]
    by_cases hmark : (line)[i] = '!'.toUInt8
    · rcases hshort i (by rw [hget, hmark]) with ⟨hindex, hback⟩
      simp only [hmark, ne_eq, not_true, if_false, if_true]
      by_cases hbang : c = '!'.toUInt8
      · rw [if_pos hbang, if_pos hbang, Option.map_some]
      · rw [if_neg hbang, if_neg hbang]
        by_cases hdash : c = '-'.toUInt8
        · rw [if_pos hdash, if_pos hdash, digitsLoop_of_short (hback (by rw [hnext, hdash]))]
          by_cases hk : number ((line.drop (i + 2)).takeWhile isDigit) ≥ 1
          · -- A number above 0 has a digit.
            have hmove : scanWhile isDigit line (i + 2) > i + 2 := by
              rw [Scan.scanWhile_eq_takeWhile]
              have hne : (line.drop (i + 2)).takeWhile isDigit ≠ [] := fun hnil => by
                rw [hnil] at hk
                exact absurd hk (by decide)
              have := List.length_pos_of_ne_nil hne
              omega
            rw [if_pos hk, if_pos ⟨hk, hmove⟩, Option.map_some, drop_scanWhile]
          · rw [if_neg hk, if_neg fun h => hk h.1, Option.map_none]
        · rw [if_neg hdash, if_neg hdash]
          by_cases hdigit : isDigit c
          · -- The digits begin at `i + 1`, and `c` is the first of them.
            have hname : line.drop (i + 1) = c :: line.drop (i + 2) := by
              have htail := congrArg List.tail hdrop
              rw [List.tail_drop] at htail
              exact htail
            rw [if_pos hdigit, if_pos hdigit, digitsLoop_of_short hindex, Option.map_some,
              drop_scanWhile, hname, List.takeWhile_cons_of_pos hdigit,
              List.dropWhile_cons_of_pos hdigit]
          · rw [if_neg hdigit, if_neg hdigit, Option.map_none]
    · have hsome : some (line)[i] ≠ some '!'.toUInt8 := fun h => hmark (Option.some.inj h)
      rw [if_pos hmark, if_neg hsome, Option.map_none]

/-- The number of a reference is one that `history_get` does not wrap with. -/
def Reference.Small : Reference → Prop
  | .last => True
  | .back k => 1 ≤ k
  | .index k => k < 10 ^ 19

/-- The references of a line with short numbers are small. -/
theorem small_of_referenceAt {line : Bytes} (hshort : ShortNumbers line) {i j : Nat}
    {r : Reference} (h : referenceAt line i = some (r, j)) : r.Small := by
  rw [referenceAt] at h
  split at h
  · rename_i hmark
    rcases hshort i hmark with ⟨hindex, -⟩
    split at h
    · cases h
    · split at h
      · cases h
        trivial
      · split at h
        · simp only at h
          split at h
          · rename_i hk
            cases h
            exact hk.1
          · cases h
        · split at h
          · cases h
            show (digitsLoop line (i + 1) 0).2 < 10 ^ 19
            rw [digitsLoop_of_short hindex]
            exact number_takeWhile_lt hindex
          · cases h
  · cases h

/-- What `history_expand` writes for a reference is what the reference means. -/
theorem replace_eq_recalled {c : Chronicle} (hc : c.Sound) (hfew : c.stored ≤ 2 ^ 62)
    {r : Reference} (hr : r.Small) : (c.history.replace r).1 = recalled c.entries r := by
  have hlen := hc.length_entries
  have hcount := hc.count_eq
  have hmax : USIZE_MAX = 18446744073709551615 := rfl
  have hsize : HISTORY_SIZE = 16 := rfl
  -- The entries from the newest, where the counter has not stopped.
  have hreverse := fun k => hc.getElem?_reverse (by omega) (k := k)
  cases r with
  | last =>
    have hlast : c.history.last = c.entries.getLast? := by
      rw [History.last, ← List.head?_reverse, List.head?_eq_getElem?]
      by_cases hzero : c.history.count = 0
      · rw [if_pos hzero, List.getElem?_eq_none (by rw [List.length_reverse]; omega)]
      · rw [if_neg hzero, hreverse 0 (by omega)]
    rw [History.replace, recalled, hlast]
    cases c.entries.getLast? <;> rfl
  | back k =>
    have hpos : 1 ≤ k := hr
    rw [History.replace, recalled, if_pos hpos, ← hlen]
    by_cases hle : k ≤ c.entries.length
    · rw [if_pos hle, hreverse (k - 1) (by omega), Nat.sub_add_cancel hpos]
      rfl
    · rw [if_neg hle, List.getElem?_eq_none (by rw [List.length_reverse]; omega)]
      rfl
  | index k =>
    have hsmall : k < 10 ^ 19 := hr
    rw [History.replace, recalled]
    by_cases hpos : 1 ≤ k
    · -- Fewer than 2^62 entries and a number of 19 digits: the sum does not wrap.
      rw [Chronicle.get_of_fits hpos (by omega), if_pos hpos, ← hlen]
      by_cases hle : k ≤ c.entries.length
      · have hindex : c.history.count - c.entries.length
            = min c.stored (USIZE_MAX + 1) - HISTORY_SIZE := by omega
        rw [if_pos hle, hc.getElem?_entries (by omega), hindex]
        rfl
      · rw [if_neg hle, List.getElem?_eq_none (by omega)]
        rfl
    · have hzero : k = 0 := by omega
      have hnone : c.history.get k = none := if_pos (Or.inr hzero)
      rw [if_neg hpos, hnone]

/-- **`history_expand` means substitution**: the result is the first 256 bytes of the line with
every reference replaced by the entry that it means. A line without a reference is its own
expansion. The code scans with an index and appends byte by byte to a vector that drops what does
not fit. `Finder` is that scan and `Reader` the substitution, and `reads_references` connects the
two; what a reference means is read off the entries of the run. -/
theorem items_historyExpand_ofCalls (calls : List HistoryCall)
    (hfew : calls.countP HistoryCall.isPush < 2 ^ 62) (line : Bytes) (hshort : ShortNumbers line) :
    let c := Chronicle.ofCalls calls
    (historyExpand c.history line).1.items = (expandedRefs c.entries line).take VEC_CAP ∧
    ((∀ i, readReference (line.drop i) = none) →
      (historyExpand c.history line).1.items = line.take VEC_CAP) := by
  intro c
  have hc : c.Sound := (Chronicle.sound_ofCalls calls).1
  have hstored : c.stored ≤ 2 ^ 62 :=
    Nat.le_trans (Chronicle.sound_ofCalls calls).2 (Nat.le_of_lt hfew)
  have hitems : (historyExpand c.history line).1.items
      = (expandedRefs c.entries line).take VEC_CAP := by
    have htext : substitute (fun r => (c.history.replace r).1) line = expandedRefs c.entries line := by
      have hagree : substitute (fun r => (c.history.replace r).1) line
          = substitute (recalled c.entries) line :=
        Finder.text_congr (fun i _ r j hf =>
          replace_eq_recalled hc hstored (small_of_referenceAt hshort hf)) 0
      exact hagree.trans (Finder.text_pieces (reads_references hshort) _ 0)
    rw [items_historyExpand, htext]
  refine ⟨hitems, fun hnone => ?_⟩
  rw [hitems, expandedRefs, Reader.replace_of_read_none hnone]

/-- The last entry, and the first one by its number. -/
theorem items_historyExpand_ls_pwd :
    let c := Chronicle.ofCalls [.push (bytes "ls"), .push (bytes "pwd")]
    (historyExpand c.history (bytes "!! !1")).1.items
      = (expandedRefs c.entries (bytes "!! !1")).take VEC_CAP ∧
    ((∀ i, readReference ((bytes "!! !1").drop i) = none) →
      (historyExpand c.history (bytes "!! !1")).1.items = (bytes "!! !1").take VEC_CAP) :=
  items_historyExpand_ofCalls _ (by decide) _ fun i hi => by
    have hlt : i < (bytes "!! !1").length := (List.getElem?_eq_some_iff.mp hi).1
    clear hi
    revert i
    decide

end OnyxShell
