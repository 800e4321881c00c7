import OnyxShell.Features.Recall
import OnyxShell.Proofs.Features.History

/-!
# `OnyxShell.Proofs.Features.Recall`: the history ring is a log

`recalls_accepted`: whatever has been pushed, the arrows, the references `!-k`,
`history_get` and `history_last` find the last 16 entries of the log, each in its place.
`isBack_decimal`: every `k` has its reference, the one with its decimal digits.

`Holds` relates a ring to a log, and a push keeps it (`holds_foldl_push`). What each way of
looking finds is then read off the log.
-/

set_option autoImplicit false

namespace OnyxShell

namespace History

variable {h : History} {log : List Bytes}

/-! ### The log -/

/-- `history_push` cuts the end of a line at the same bytes. -/
theorem stripped_eq (line : Bytes) : stripped line = stripEnd line := by
  have hend : (fun b : UInt8 => decide (b = '\n'.toUInt8 ∨ b = '\r'.toUInt8 ∨ b = 0)) = isLineEnd := by
    funext b
    simp only [isLineEnd, Bool.decide_or, beq_eq_decide, Bool.or_assoc]
  rw [stripped, stripEnd, List.rdropWhile, hend]

/-- The last entry of the ring is the last one of the log. -/
theorem last_eq_getLast (hholds : h.ring.Holds log) : h.last = log.getLast? := by
  rw [last, count, hholds.count]
  split
  · rename_i hempty
    rw [List.eq_nil_of_length_eq_zero hempty]
    rfl
  · rw [List.getLast?_eq_getElem?]
    exact (hholds.item (log.length - 1) (by omega) (by
      have : HISTORY_SIZE = 16 := rfl
      omega)).symm

/-- A push is one step of the log. -/
theorem holds_push (hholds : h.ring.Holds log) (hmax : log.length < USIZE_MAX) (line : Bytes) :
    (h.push line).ring.Holds (accept log line) := by
  rw [push, accept, stripped_eq, last_eq_getLast hholds]
  by_cases hempty : stripEnd line = []
  · rw [if_pos hempty, if_pos (Or.inl hempty)]
    exact hholds
  · by_cases hsame : log.getLast? = some (stripEnd line)
    · rw [if_neg hempty, if_pos hsame, if_pos (Or.inr hsame)]
      exact hholds
    · rw [if_neg hempty, if_neg hsame, if_neg (not_or.mpr ⟨hempty, hsame⟩)]
      exact RingBuffer.holds_push hholds hmax _

/-- A push adds one line at most. -/
theorem length_accept_le (log : List Bytes) (line : Bytes) :
    (accept log line).length ≤ log.length + 1 := by
  rw [accept]
  split
  · exact Nat.le_succ _
  · rw [List.length_append, List.length_singleton]

/-- Pushes add as many lines as there are pushes at most. -/
theorem length_foldl_accept_le (log lines : List Bytes) :
    (lines.foldl accept log).length ≤ log.length + lines.length := by
  induction lines generalizing log with
  | nil => exact Nat.le_refl _
  | cons line lines ih =>
    have hone := length_accept_le log line
    have hrest := ih (accept log line)
    rw [List.foldl_cons, List.length_cons]
    omega

/-- A run of pushes is a run of the log. -/
theorem holds_foldl_push {lines : List Bytes} (hholds : h.ring.Holds log)
    (hmax : log.length + lines.length ≤ USIZE_MAX) :
    (lines.foldl push h).ring.Holds (lines.foldl accept log) := by
  induction lines generalizing h log with
  | nil => exact hholds
  | cons line lines ih =>
    rw [List.length_cons] at hmax
    have hlen := length_accept_le log line
    exact ih (holds_push hholds (by omega) line) (by omega)

/-- The ring starts with no line. -/
theorem holds_init : init.ring.Holds [] := by
  constructor
  case count => rfl
  case item => exact fun k hk => absurd hk (Nat.not_lt_zero k)

/-! ### The ways to an entry -/

/-- Going up once, with `k` the next cursor. -/
theorem navUp_of_lt {k : Nat} (hcursor : h.navCursor = (k : Int) - 1) (hk : k < h.ring.size) :
    h.navUp.1 = some (h.ring.item (h.count - (k + 1))) ∧ h.navUp.2.ring = h.ring ∧
      h.navUp.2.navCursor = k := by
  rcases h.navUp_cases with ⟨hend, -⟩ | ⟨k', hbefore, -, hup⟩
  · omega
  · have hsame : k' = k := by omega
    rw [hsame] at hup
    exact hup

/-- Past the oldest entry, going up finds nothing. -/
theorem navUp_of_eq (hcursor : h.navCursor = (h.ring.size : Int) - 1) : h.navUp.1 = none := by
  rcases h.navUp_cases with ⟨-, hup⟩ | ⟨k, hbefore, hk, -⟩
  · rw [hup]
  · omega

/-- Going up moves the cursor only, one entry at a time. -/
theorem ups_navReset {k : Nat} (hk : k ≤ h.ring.size) :
    (h.navReset.ups k).ring = h.ring ∧ (h.navReset.ups k).navCursor = (k : Int) - 1 := by
  induction k with
  | zero => exact ⟨rfl, rfl⟩
  | succ k ih =>
    rcases ih (Nat.le_of_succ_le hk) with ⟨hring, hcursor⟩
    rcases navUp_of_lt hcursor (by rw [hring]; exact hk) with ⟨-, hring', hcursor'⟩
    rw [ups, hring', hcursor']
    exact ⟨hring, by omega⟩

/-- The byte of a digit is a digit, and of this value. -/
theorem isDigit_digitByte {d : Nat} (hd : d < 10) :
    isDigit (digitByte d) = true ∧ (digitByte d - '0'.toUInt8).toNat = d := by
  have hdigit : ∀ d < 10, isDigit (digitByte d) = true ∧
      (digitByte d - '0'.toUInt8).toNat = d := by decide
  exact hdigit d hd

/-- The decimal form of a number has digits only. -/
theorem isDigit_decimal {k : Nat} : ∀ b ∈ decimal k, isDigit b = true := by
  intro b hb
  rcases List.mem_map.mp hb with ⟨d, hd, rfl⟩
  exact (isDigit_digitByte (Nat.digits_lt_base (by decide) (List.mem_reverse.mp hd))).1

/-- The digits of a number spell it. -/
theorem foldl_addDigit_decimal (k : Nat) : (decimal k).foldl addDigit 0 = k := by
  have hdigits := Nat.ofDigits_digits 10 k
  rw [Nat.ofDigits_eq_foldr] at hdigits
  rw [decimal, List.foldl_map, List.foldl_reverse]
  refine Eq.trans (List.foldr_ext _ _ _ ?_) hdigits
  intro d hd n
  show n * 10 + (digitByte d - '0'.toUInt8).toNat = d + 10 * n
  rw [(isDigit_digitByte (Nat.digits_lt_base (by decide) hd)).2]
  omega

/-- **What the user types** for the `k`-th line from the end is one reference to it. -/
theorem isBack_decimal {k : Nat} (hk : 0 < k) (hmax : k ≤ USIZE_MAX) :
    IsBack (bytes "!-" ++ decimal k) k := by
  have hdrop : (bytes "!-" ++ decimal k).drop 2 = decimal k := rfl
  have hall : (decimal k).takeWhile isDigit = decimal k :=
    List.takeWhile_eq_self_iff.mpr isDigit_decimal
  have hloop : digitsLoop (bytes "!-" ++ decimal k) 2 0 = (2 + (decimal k).length, k) := by
    rw [digitsLoop_eq (by rw [hdrop, hall, foldl_addDigit_decimal]; exact hmax),
      Scan.scanWhile_eq_takeWhile, hdrop, hall, foldl_addDigit_decimal]
  have hpos : 0 < (decimal k).length := by
    rw [decimal, List.length_map, List.length_reverse]
    exact List.length_pos_iff.mpr (Nat.digits_ne_nil_iff_ne_zero.mpr (Nat.pos_iff_ne_zero.mp hk))
  have hlen : (bytes "!-" ++ decimal k).length = 2 + (decimal k).length := List.length_append
  have hmark : (bytes "!-" ++ decimal k)[0]? = some '!'.toUInt8 := rfl
  have hdash : (bytes "!-" ++ decimal k)[0 + 1]? = some '-'.toUInt8 := rfl
  rw [IsBack, referenceAt, if_pos hmark, hdash, hlen]
  simp only [hloop, Nat.zero_add]
  rw [if_neg (by decide), if_pos trivial, if_pos ⟨hk, by omega⟩]

/-- A line with one reference is expanded to what the reference stands for. -/
theorem items_historyExpand_isBack {line : Bytes} {k : Nat} (hline : IsBack line k) :
    (historyExpand h line).1.items = (h.replace (.back k)).1.take VEC_CAP := by
  have hpieces : historyPieces line = [.found (.back k) line] := by
    have hfind : (referenceFinder line).find 0 = some (.back k, line.length) := hline
    have hpos : 0 < line.length := lt_of_referenceAt hline
    rw [historyPieces, Finder.pieces_found hpos hfind, Finder.pieces_end (Nat.lt_irrefl _),
      Nat.sub_zero, List.drop_zero, List.take_length]
  rw [items_historyExpand, substitute, hpieces]
  simp only [List.flatMap_cons, List.flatMap_nil, List.append_nil, Piece.text]

/-- Every way to one of the last 16 entries leads to it. -/
theorem recalls_of_holds (hholds : h.ring.Holds log) (hmax : log.length < USIZE_MAX) {k : Nat}
    (hk : 1 ≤ k) (hstored : k ≤ min log.length HISTORY_SIZE) :
    ∃ e, log.reverse[k - 1]? = some e ∧ h.Recalls k e := by
  have hsize : min h.count HISTORY_SIZE = min log.length HISTORY_SIZE := by rw [count, hholds.count]
  have hentry := hholds.reverse_get hk hstored
  have hslot : h.replace (.back k) = (h.ring.item (h.count - k), none) := by
    rw [replace, hsize, if_pos hstored]
  refine ⟨_, hentry, ?_, hslot, ?_, ?_, ?_⟩
  case refine_1 =>
    have hlt : k - 1 < h.ring.size := by
      rw [RingBuffer.size, hholds.count]
      omega
    rcases ups_navReset (Nat.le_of_lt hlt) with ⟨hring, hcursor⟩
    rw [(navUp_of_lt hcursor (by rw [hring]; exact hlt)).1, count, hring, Nat.sub_add_cancel hk]
  case refine_2 =>
    intro line hline
    rw [items_historyExpand_isBack hline, hslot]
    apply List.take_of_length_le
    exact Nat.le_trans (Nat.le_of_lt (h.length_item_lt _)) (by decide)
  case refine_3 =>
    -- The sum does not wrap.
    have hindex : (h.count - min h.count HISTORY_SIZE + (min h.count HISTORY_SIZE + 1 - k - 1))
        % (USIZE_MAX + 1) = h.count - k := by
      rw [count, hholds.count, Nat.mod_eq_of_lt (by omega)]
      omega
    rw [get, if_neg (by rw [hsize, count, hholds.count]; omega)]
    simp only [hindex]
    rw [if_neg (by rw [count, hholds.count]; omega)]
  case refine_4 =>
    intro hone
    rw [last, if_neg (by rw [count, hholds.count]; omega), hone]

/-- Behind the last 16 entries there is nothing. -/
theorem exhausted_of_holds (hholds : h.ring.Holds log) :
    h.Exhausted (min log.length HISTORY_SIZE + 1) := by
  have hslot : h.replace (.back (min log.length HISTORY_SIZE + 1))
      = ([], some (bytes "history index out of range")) := by
    rw [replace, count, hholds.count, if_neg (by omega)]
  refine ⟨?_, hslot, ?_⟩
  case refine_1 =>
    have hsize : min log.length HISTORY_SIZE = h.ring.size := by
      rw [RingBuffer.size, hholds.count]
    rcases ups_navReset (Nat.le_refl h.ring.size) with ⟨hring, hcursor⟩
    rw [Nat.add_sub_cancel, hsize]
    exact navUp_of_eq (by rw [hring, hcursor])
  case refine_2 =>
    intro line hline
    rw [items_historyExpand_isBack hline, hslot, List.take_nil]

end History

/-- **The history ring is a log** of which the last 16 entries are left. `accepted` is written
without the ring: a line joins the log unless it is blank or repeats the last entry. `Holds`
relates the ring to such a log, each push keeps it, and what `history_get`, the up arrow and a
reference `!-k` find is read off it. -/
theorem recalls_accepted (lines : List Bytes) (hlen : lines.length < 2 ^ 62) :
    let h := lines.foldl History.push History.init
    let log := accepted lines
    let s := min log.length HISTORY_SIZE
    h.count = log.length ∧
      (∀ k, 1 ≤ k → k ≤ s → ∃ e, log.reverse[k - 1]? = some e ∧ h.Recalls k e) ∧
      h.Exhausted (s + 1) := by
  have hfit : lines.length < USIZE_MAX := Nat.lt_trans hlen (by decide)
  have hholds : (lines.foldl History.push History.init).ring.Holds (accepted lines) :=
    History.holds_foldl_push History.holds_init (by rw [List.length_nil]; omega)
  have hlog : (accepted lines).length < USIZE_MAX := by
    have hlog := History.length_foldl_accept_le [] lines
    rw [List.length_nil] at hlog
    exact Nat.lt_of_le_of_lt hlog (by omega)
  refine ⟨hholds.count, ?_, History.exhausted_of_holds hholds⟩
  intro k hk hstored
  exact History.recalls_of_holds hholds hlog hk hstored

/-- Seventeen different lines push the first one out. -/
theorem recalls_seventeen :
    let lines := (bytes "abcdefghijklmnopq").map ([·])
    let h := lines.foldl History.push History.init
    let log := accepted lines
    let s := min log.length HISTORY_SIZE
    h.count = log.length ∧
      (∀ k, 1 ≤ k → k ≤ s → ∃ e, log.reverse[k - 1]? = some e ∧ h.Recalls k e) ∧
      h.Exhausted (s + 1) :=
  recalls_accepted ((bytes "abcdefghijklmnopq").map ([·])) (by decide)

end OnyxShell
