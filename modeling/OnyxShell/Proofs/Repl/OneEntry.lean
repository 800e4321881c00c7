import OnyxShell.Proofs.Commands.Script
import OnyxShell.Proofs.Repl.References

/-!
# `OnyxShell.Proofs.Repl.OneEntry`: how often a submitted line is stored

The raw prompt stores a line as it was typed, and `eval_line` stores it again behind its
expansions (`history_submitLine`). The check for a repeated entry has to take the two for
one. `appendsAtMostOne_submitLine_iff` says when it does: the text must still be the entry
that was stored, which is the typed line cut to its row.
-/

set_option autoImplicit false

namespace OnyxShell

/-- The entries are those from before with at most one more behind them, which takes the
place of the oldest one in a full ring. -/
def AppendsAtMostOne (h h' : History) : Prop :=
  h'.ring = h.ring ∨ ∃ entry, h'.ring = h.ring.push entry

/-- The text that `eval_line` stores for a line. -/
def evaluatedText (env : Env) (h : History) (line : Bytes) : Bytes :=
  let s := (historyExpand h line).1.items
  if hasOp s then s.take (LINE_MAX - 1) else expand env s

/-- The text that is left of a line behind its expansions is blank, or it is the entry that
the line has become. -/
def ReadsAsStored (env : Env) (h : History) (line : Bytes) : Prop :=
  stripEnd (evaluatedText env (h.push line) line) = [] ∨
  stripEnd (evaluatedText env (h.push line) line) = (stripEnd line).take (HISTORY_LINE_MAX - 1)

/-- The counter of the ring stands at its end, or one before it with the second entry
already in the slot that it would get. -/
def CounterAtEnd (env : Env) (h : History) (line : Bytes) : Prop :=
  h.count = USIZE_MAX ∨
  h.count + 1 = USIZE_MAX ∧ h.ring.item USIZE_MAX =
    (stripEnd (evaluatedText env (h.push line) line)).take (HISTORY_LINE_MAX - 1)

/-- An empty line is not stored. -/
theorem push_nil (h : History) : h.push [] = h := rfl

/-- `eval_line` stores one text. -/
theorem history_evalLine (env : Env) (listing : Listing) (h : History) (line : Bytes) :
    (evalLine env listing h line).history = h.push (evaluatedText env h line) := by
  rw [evalLine, evaluatedText]
  split
  · rename_i hnil
    rw [hnil, items_historyExpand_of_not_mem List.not_mem_nil, List.take_nil,
      if_neg (by decide), expand_nil, push_nil]
  · show (evalText env listing h (historyExpand h line).1.items _).history = _
    rw [evalText]
    split
    · rename_i hnil
      rw [hnil, if_neg (by decide), expand_nil, push_nil]
    · split
      · rfl
      · show (if expand env (historyExpand h line).1.items = [] then _ else _ : Evaluation).history
          = _
        split
        · rename_i hnil
          rw [hnil, push_nil]
        · rfl

/-- What the raw prompt stores: the line, and without an operator in it also the text that
it evaluates to. -/
theorem history_submitLine (env : Env) (listing : Listing) (h : History) (line : Bytes) :
    (submitLine env listing h line).history =
      if hasOp line then h.push line
      else (h.push line).push (evaluatedText env (h.push line) line) := by
  rw [submitLine]
  split
  · rename_i hnil
    rw [hnil, if_neg (by decide), push_nil, evaluatedText,
      items_historyExpand_of_not_mem List.not_mem_nil, List.take_nil, if_neg (by decide),
      expand_nil, push_nil]
  · show (if hasOp line then _ else _ : Evaluation).history = _
    by_cases hop : hasOp line = true
    · rw [if_pos hop, if_pos hop]
    · rw [if_neg hop, if_neg hop, history_evalLine]

/-- A push is at most one entry. -/
theorem appendsAtMostOne_push (h : History) (line : Bytes) : AppendsAtMostOne h (h.push line) := by
  by_cases hs : h.Stores line
  · rw [push_of_stores hs]
    exact Or.inr ⟨_, rfl⟩
  · rw [push_of_not_stores hs]
    exact Or.inl rfl

/-- Two texts that are both stored make more than one entry, unless the counter is at its
end. -/
theorem appendsAtMostOne_store_store (h : History) (line text : Bytes) :
    AppendsAtMostOne h ((h.store line).store text) ↔
      h.count = USIZE_MAX ∨
      h.count + 1 = USIZE_MAX ∧ h.ring.item USIZE_MAX = text.take (HISTORY_LINE_MAX - 1) := by
  have hle := h.ring.count_le
  have hring : ((h.store line).store text).ring =
      (h.ring.push (line.take (HISTORY_LINE_MAX - 1))).push (text.take (HISTORY_LINE_MAX - 1)) :=
    rfl
  rw [AppendsAtMostOne, hring]
  rcases Nat.lt_trichotomy (h.count + 1) USIZE_MAX with hlt | hlast | hgt
  · -- There is room for both in the counter, so there are two entries.
    have hne := RingBuffer.push_push_ne (line.take (HISTORY_LINE_MAX - 1))
      (text.take (HISTORY_LINE_MAX - 1)) hlt
    constructor
    · rintro (heq | ⟨entry, heq⟩)
      · exact absurd heq hne.1
      · exact absurd heq (hne.2 entry)
    · rintro (hfull | ⟨hlast, -⟩)
      · omega
      · omega
  · -- The first text takes the counter to its end, and the second changes a slot at most.
    have hone := RingBuffer.push_push_of_last (r := h.ring) (line.take (HISTORY_LINE_MAX - 1))
      (text.take (HISTORY_LINE_MAX - 1)) (by decide) hlast
    rw [hone]
    constructor
    · rintro (heq | hitem)
      · have hcount := congrArg RingBuffer.count heq
        have hmax : min (min (h.count + 1) USIZE_MAX + 1) USIZE_MAX = h.count := hcount
        omega
      · exact Or.inr ⟨hlast, hitem⟩
    · rintro (hfull | ⟨-, hitem⟩)
      · omega
      · exact Or.inr hitem
  · -- The counter is at its end, and both texts are stored in the same slot.
    have hfull : h.count = USIZE_MAX := by
      have hle : h.count ≤ USIZE_MAX := hle
      omega
    exact ⟨fun _ => Or.inl hfull, fun _ =>
      Or.inr ⟨_, RingBuffer.push_push_of_full (r := h.ring) _ _ hfull⟩⟩

/-- **When a submitted line becomes one entry**: it has an operator, or it is not stored as typed,
or what is left of it behind its expansions is blank or still that entry. A line without an
operator is pushed as typed, and then pushed once more as it reads behind its expansions. The
second push is held back only where the text is blank or compares equal to the last entry, which
has been cut to its row. -/
theorem appendsAtMostOne_submitLine_iff (env : Env) (listing : Listing) (h : History)
    (line : Bytes) :
    AppendsAtMostOne h (submitLine env listing h line).history ↔
      hasOp line = true ∨ ¬h.Stores line ∨ ReadsAsStored env h line ∨ CounterAtEnd env h line := by
  rw [history_submitLine]
  by_cases hop : hasOp line = true
  · rw [if_pos hop]
    exact ⟨fun _ => Or.inl hop, fun _ => appendsAtMostOne_push h line⟩
  · rw [if_neg hop]
    by_cases hs : h.Stores line
    · rw [ReadsAsStored, CounterAtEnd]
      generalize evaluatedText env (h.push line) line = text
      rw [push_of_stores hs]
      -- Behind the line the text that it is evaluated as is pushed, too.
      by_cases ht : (h.store (stripEnd line)).Stores text
      · rw [push_of_stores ht, appendsAtMostOne_store_store]
        constructor
        · exact fun hend => Or.inr (Or.inr (Or.inr hend))
        · rintro (hop' | hns | (hblank | hsame) | hend)
          · exact absurd hop' hop
          · exact absurd hs hns
          · exact absurd hblank ht.1
          · -- A counter that goes on has the entry last, and the check would have seen it.
            left
            by_contra hfull
            have hlt : h.count < USIZE_MAX := Nat.lt_of_le_of_ne h.ring.count_le hfull
            exact ht.2 (by rw [last_store h _ hlt, hsame])
          · exact hend
      · rw [push_of_not_stores ht]
        constructor
        · intro _
          by_cases hfull : h.count = USIZE_MAX
          · exact Or.inr (Or.inr (Or.inr (Or.inl hfull)))
          · have hlt : h.count < USIZE_MAX := Nat.lt_of_le_of_ne h.ring.count_le hfull
            right
            right
            left
            by_contra hreads
            apply ht
            constructor
            · exact fun hblank => hreads (Or.inl hblank)
            · rw [last_store h _ hlt]
              exact fun hsame => hreads (Or.inr (Option.some.inj hsame).symm)
        · exact fun _ => Or.inr ⟨_, rfl⟩
    · rw [push_of_not_stores hs]
      exact ⟨fun _ => Or.inr (Or.inl hs), fun _ => appendsAtMostOne_push h _⟩

/-- `echo $HOME` at the first prompt: two entries. -/
theorem not_appendsAtMostOne_echo_home :
    (submitLine Env.init (fun _ => []) History.init (bytes "echo $HOME")).history.count = 2 ∧
    (submitLine Env.init (fun _ => []) History.init (bytes "echo $HOME")).history.last =
      some (bytes "echo /users/root") ∧
    ¬AppendsAtMostOne History.init
      (submitLine Env.init (fun _ => []) History.init (bytes "echo $HOME")).history := by
  have hcount : (submitLine Env.init (fun _ => []) History.init
      (bytes "echo $HOME")).history.count = 2 := by decide +kernel
  refine ⟨hcount, by decide +kernel, ?_⟩
  rintro (heq | ⟨entry, heq⟩)
  · have hzero := hcount.symm.trans (congrArg RingBuffer.count heq)
    cases hzero
  · have hone := hcount.symm.trans (congrArg RingBuffer.count heq)
    cases hone

end OnyxShell
