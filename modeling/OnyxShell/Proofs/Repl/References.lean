import OnyxShell.Eval
import OnyxShell.Proofs.Features.History
import OnyxShell.Repl.Raw

/-!
# `OnyxShell.Proofs.Repl.References`: history references at the raw prompt

`submitLine` stores a line before it expands its references, and does not expand a line
with an operator at all. `refersToPast_submitLine_iff` says for which lines this makes no
difference. Both prompts run a text that is the line with something in place of its
references (`action_submitLine`, `action_evalLine_substitute`), so the question comes down
to single references. `replace_store` says what storing a line does to one.
-/

set_option autoImplicit false

namespace OnyxShell

/-! ### What a reference names -/

/-- The number of the history item that a reference names when `count` lines have been
stored. -/
def Reference.item (count : Nat) : Reference → Option Nat
  | .last => if count = 0 then none else some (count - 1)
  | .back n => if n ≤ min count HISTORY_SIZE then some (count - n) else none
  | .index n =>
    if count = 0 ∨ n = 0 then none
    else
      let logical := (count - min count HISTORY_SIZE + (n - 1)) % (USIZE_MAX + 1)
      if logical ≥ count then none else some logical

/-- What stands for a reference that names no item. -/
def Reference.missing : Reference → Bytes
  | .last => bytes "!!"
  | .back _ => []
  | .index _ => []

/-- The text of a reference, from the entries in the history. -/
def History.past (h : History) (r : Reference) : Bytes :=
  match r.item h.count with
  | none => r.missing
  | some k => h.ring.item k

/-- The text of a reference when `entry` counts as the newest entry of the history. -/
def History.pastWith (h : History) (entry : Bytes) (r : Reference) : Bytes :=
  match r.item (min (h.count + 1) USIZE_MAX) with
  | none => r.missing
  | some k => if k % HISTORY_SIZE = h.count % HISTORY_SIZE then entry else h.ring.item k

/-- The expansion of a reference is the text it names. -/
theorem replace_eq_past (h : History) (r : Reference) : (h.replace r).1 = h.past r := by
  rw [History.past]
  cases r with
  | last =>
    simp only [History.replace, History.last, Reference.item]
    by_cases hc : h.count = 0
    · simp only [if_pos hc]
      rfl
    · simp only [if_neg hc]
  | back n =>
    simp only [History.replace, Reference.item]
    split <;> rfl
  | index n =>
    simp only [History.replace, History.get, Reference.item]
    by_cases hc : h.count = 0 ∨ n = 0
    · simp only [if_pos hc]
      rfl
    · simp only [if_neg hc]
      -- The index wraps at the word size, and may pass the newest entry.
      by_cases hl : (h.count - min h.count HISTORY_SIZE + (n - 1)) % (USIZE_MAX + 1) ≥ h.count
      · simp only [if_pos hl]
        rfl
      · simp only [if_neg hl]

/-- Storing a line makes it the newest entry. -/
theorem past_store (h : History) (line : Bytes) (r : Reference) :
    (h.store line).past r = h.pastWith (line.take (HISTORY_LINE_MAX - 1)) r := by
  show (match r.item (min (h.count + 1) USIZE_MAX) with
    | none => r.missing
    | some k => (h.ring.push (line.take (HISTORY_LINE_MAX - 1))).item k) = _
  rw [History.pastWith]
  -- The count is one more, and the slot of the new entry answers with the line.
  cases r.item (min (h.count + 1) USIZE_MAX) with
  | none => rfl
  | some k => exact RingBuffer.item_push _ _ _

/-! ### The text that is run -/

/-- What `eval_line` runs for a text whose references are expanded. -/
def textAction (env : Env) (listing : Listing) (s : Bytes) : Action :=
  if s = [] then .nothing
  else if hasOp s then runPipeline s
  else if expand env s = [] then .nothing
  else runWords listing (expand env s)

/-- What a line does depends on its text behind the history references. The history is no longer
asked. -/
theorem action_evalText (env : Env) (listing : Listing) (h : History) (s : Bytes)
    (messages : List Bytes) :
    (evalText env listing h s messages).action = textAction env listing s := by
  unfold evalText textAction
  simp only
  split
  · rfl
  · split
    · rfl
    · split <;> rfl

/-- `eval_line` runs the line with the past entries in place of its references. -/
theorem action_evalLine_substitute (env : Env) (listing : Listing) (h : History) (line : Bytes) :
    (evalLine env listing h line).action
      = textAction env listing ((substitute h.past line).take VEC_CAP) := by
  have hpast : (fun r => (h.replace r).1) = h.past := funext (replace_eq_past h)
  rw [evalLine]
  split
  · rename_i hnil
    rw [hnil, substitute, historyPieces, Finder.pieces_end (Nat.not_lt_zero 0)]
    rfl
  · show (evalText env listing h (historyExpand h line).1.items _).action = _
    rw [action_evalText, items_historyExpand, hpast]

/-- What the raw prompt puts in place of a piece of the line: the spelling itself in a line
with an operator, else what the references name when the line is in the history. -/
def rawText (h : History) (line : Bytes) (p : Piece UInt8 Reference) : Bytes :=
  if hasOp line then p.spelled else p.text (h.push line).past

/-- **What the raw prompt runs**: the line with `rawText` in place of its pieces. -/
theorem action_submitLine (env : Env) (listing : Listing) (h : History) {line : Bytes}
    (hlen : line.length ≤ VEC_CAP) :
    (submitLine env listing h line).action
      = textAction env listing (((historyPieces line).flatMap (rawText h line)).take VEC_CAP) := by
  rw [submitLine]
  split
  · rename_i hnil
    rw [hnil, historyPieces, Finder.pieces_end (Nat.not_lt_zero 0)]
    rfl
  · rename_i hne
    simp only
    split
    · rename_i hop
      -- The line goes to the parser as it stands.
      have hspelled : rawText h line = Piece.spelled := funext fun p => if_pos hop
      have hline : (historyPieces line).flatMap Piece.spelled = line :=
        Finder.flatMap_spelled (referenceFinder line) line 0
      rw [hspelled, hline, List.take_of_length_le hlen, textAction, if_neg hne, if_pos hop]
    · rename_i hop
      have htext : rawText h line = Piece.text (h.push line).past := funext fun p => if_neg hop
      rw [action_evalLine_substitute, htext]
      rfl

/-! ### The two prompts -/

/-- The raw prompt resolves every reference of the line from the entries that were there
before it, and runs what the cooked prompt runs when it gets the same line. -/
def RefersToPast (env : Env) (listing : Listing) (h : History) (line : Bytes) : Prop :=
  (∀ p ∈ historyPieces line, rawText h line p = p.text h.past) ∧
    ∀ read, stripEnd read = line →
      (submitLine env listing h line).action = (cookedLine env listing h read).action

/-- Where the early store and the missing expansion make no difference. In a line with an
operator, every reference has to name its own spelling. In another line that becomes an
entry, every reference has to name the same text with that entry and without it. -/
def Undisturbed (h : History) (line : Bytes) : Prop :=
  ∀ r spelled, Piece.found r spelled ∈ historyPieces line →
    (hasOp line = true → h.past r = spelled) ∧
    (hasOp line = false → h.Stores line →
      h.past r = h.pastWith ((stripEnd line).take (HISTORY_LINE_MAX - 1)) r)

/-- One reference keeps its text in the raw prompt. -/
theorem rawText_found_iff (h : History) (line : Bytes) (r : Reference) (spelled : Bytes) :
    rawText h line (.found r spelled) = h.past r ↔
      (hasOp line = true → h.past r = spelled) ∧
      (hasOp line = false → h.Stores line →
        h.past r = h.pastWith ((stripEnd line).take (HISTORY_LINE_MAX - 1)) r) := by
  rw [rawText]
  cases hop : hasOp line with
  | true => simpa [Piece.spelled] using eq_comm
  | false =>
    show (if false = true then spelled else (h.push line).past r) = h.past r ↔ _
    rw [if_neg (by simp)]
    -- Only a line that becomes an entry changes what there is to name.
    by_cases hs : h.Stores line
    · rw [push_of_stores hs, past_store]
      simpa [hs] using eq_comm
    · rw [push_of_not_stores hs]
      simp [hs]

/-- **Where the raw prompt refers to the past.** The prompt stores a line before it expands it, so
that `!!` may find the line itself, and does not expand a line with an operator at all.
`Undisturbed` looks at one reference at a time, and the proof puts the pieces of the line together
again. -/
theorem refersToPast_submitLine_iff (env : Env) (listing : Listing) (h : History) (e : Editor) :
    RefersToPast env listing h e.text ↔ Undisturbed h e.text := by
  have hlen : e.text.length ≤ VEC_CAP :=
    Nat.le_trans (List.length_take_le _ _) (Nat.le_of_lt e.lineLen_lt)
  constructor
  · rintro ⟨hpast, -⟩ r spelled hmem
    exact (rawText_found_iff h e.text r spelled).mp (hpast _ hmem)
  · intro hkeep
    have hpast : ∀ p ∈ historyPieces e.text, rawText h e.text p = p.text h.past := by
      intro p hp
      cases p with
      | item a =>
        show (if hasOp e.text then [a] else [a]) = [a]
        rw [ite_self]
      | found r spelled => exact (rawText_found_iff h e.text r spelled).mpr (hkeep r spelled hp)
    refine ⟨hpast, fun read hread => ?_⟩
    -- `cooked_mode_repl` expands before it stores.
    have hcooked : (cookedLine env listing h read).action = (evalLine env listing h e.text).action := by
      rw [cookedLine]
      rw [hread]
      split
      · rename_i hnil
        rw [hnil]
        rfl
      · rfl
    have hflat : (historyPieces e.text).flatMap (rawText h e.text) = substitute h.past e.text :=
      List.flatMap_congr hpast
    rw [action_submitLine env listing h hlen, hcooked, action_evalLine_substitute, hflat]

/-- `!!` behind `ls`: the raw prompt runs `!!`, because it has just stored it. -/
theorem not_refersToPast_bang_bang :
    ¬ RefersToPast Env.init (fun _ => []) (History.init.push (bytes "ls")) (bytes "!!") := by
  intro h
  have hsame := h.2 (bytes "!!\n") (by decide)
  exact absurd hsame (by decide +kernel)

end OnyxShell
