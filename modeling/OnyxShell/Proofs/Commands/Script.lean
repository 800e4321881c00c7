import OnyxShell.Eval
import OnyxShell.Proofs.Features.History
import OnyxShell.Proofs.Pipeline.Spelling

/-!
# `OnyxShell.Proofs.Commands.Script`: interactive and script evaluation

`evalLine_same_executeLine_iff` says when the two evaluators do the same with a line.
The script evaluator expands every line before it looks for operators. The interactive
one looks first, and hands a line with an operator to the parser as it stands. So they
agree exactly when the expansion changes neither whether there is an operator, nor what a
line with one spells.
-/

set_option autoImplicit false

namespace OnyxShell

/-- The same argument list, the same pipeline, or nothing on both sides. -/
def Action.Same : Action → Action → Prop
  | .dispatch args, .dispatch args' => args = args'
  | .pipeline line p, .pipeline line' p' => p.spelling line = p'.spelling line'
  | .nothing, .nothing => True
  | _, _ => False

instance (a b : Action) : Decidable (a.Same b) :=
  match a, b with
  | .dispatch args, .dispatch args' => inferInstanceAs (Decidable (args = args'))
  | .pipeline line p, .pipeline line' p' =>
    inferInstanceAs (Decidable (p.spelling line = p'.spelling line'))
  | .nothing, .nothing => inferInstanceAs (Decidable True)
  | .dispatch _, .pipeline _ _ => inferInstanceAs (Decidable False)
  | .dispatch _, .nothing => inferInstanceAs (Decidable False)
  | .pipeline _ _, .dispatch _ => inferInstanceAs (Decidable False)
  | .pipeline _ _, .nothing => inferInstanceAs (Decidable False)
  | .nothing, .dispatch _ => inferInstanceAs (Decidable False)
  | .nothing, .pipeline _ _ => inferInstanceAs (Decidable False)

/-- Expanding the line neither brings in an operator nor takes the last one out, and a line
with an operator spells the same pipeline before and after. -/
def ExpansionKeeps (env : Env) (line : Bytes) : Prop :=
  hasOp line = hasOp (expand env line) ∧
    (hasOp line = true → textSpelling (line.take (LINE_MAX - 1))
      = textSpelling ((expand env line).take (LINE_MAX - 1)))

/-- An action is the same as itself. -/
theorem Action.same_refl (a : Action) : a.Same a := by
  cases a with
  | dispatch args => rfl
  | pipeline line p => rfl
  | nothing => exact trivial

/-- Two pipelines are the same when their texts spell the same. -/
theorem same_runPipeline_iff (s s' : Bytes) :
    (runPipeline s).Same (runPipeline s') ↔
      textSpelling (s.take (LINE_MAX - 1)) = textSpelling (s'.take (LINE_MAX - 1)) := by
  show (parse _).spelling _ = (parse _).spelling _ ↔ _
  rw [spelling_parse, spelling_parse]

/-- A pipeline is not a simple command. -/
theorem not_same_runPipeline_runWords (listing : Listing) (s s' : Bytes) :
    ¬ (runPipeline s).Same (runWords listing s') := by
  intro h
  rw [runWords] at h
  split at h <;> exact h

/-- A simple command is not a pipeline. -/
theorem not_same_runWords_runPipeline (listing : Listing) (s s' : Bytes) :
    ¬ (runWords listing s).Same (runPipeline s') := by
  intro h
  rw [runWords] at h
  split at h <;> exact h

/-- The empty text is no command. -/
theorem runWords_nil (listing : Listing) : runWords listing [] = .nothing := by
  have htokens : tokenize [] = [] := by
    rw [tokenize, tokenizeLoop, if_neg fun h => Nat.not_lt_zero 0 h.1]
  rw [runWords, htokens]
  rfl

/-- Nothing expands to nothing. -/
theorem expand_nil (env : Env) : expand env [] = [] := by
  have htilde : (expandTilde env []).items = [] := by
    rw [expandTilde, Finder.run_eq_foldl, Finder.pieces_end (Nat.not_lt_zero 0)]
    rfl
  rw [expand, htilde, expandVars, Finder.run_eq_foldl, Finder.pieces_end (Nat.not_lt_zero 0)]
  rfl

/-- The action of the interactive evaluator, for a line without references that fits the
line buffer. -/
theorem action_evalLine (env : Env) (listing : Listing) (h : History) {line : Bytes}
    (hbang : '!'.toUInt8 ∉ line) (hlen : line.length ≤ LINE_MAX) :
    (evalLine env listing h line).action
      = if hasOp line then runPipeline line else runWords listing (expand env line) := by
  have hexpand : (historyExpand h line).1.items = line := by
    rw [items_historyExpand_of_not_mem hbang]
    exact List.take_of_length_le hlen
  rw [evalLine]
  split
  · rename_i hnil
    rw [hnil, expand_nil, runWords_nil]
    rfl
  · rename_i hne
    show (evalText env listing h (historyExpand h line).1.items _).action = _
    -- No reference, so the history step copies the line.
    rw [hexpand, evalText, if_neg hne]
    split
    · rfl
    · simp only
      split
      · rename_i hnil
        rw [hnil, runWords_nil]
      · rfl

/-- **Where the two evaluators agree**: on the lines whose expansion keeps the operators and what
they make of the line. `eval_line` looks for operators before it expands the line and
`execute_line` behind that, which gives the four cases of the proof. The line has no `!`, as a
script has no history. -/
theorem evalLine_same_executeLine_iff (env : Env) (listing : Listing) (h : History) (line : Bytes)
    (hbang : '!'.toUInt8 ∉ line) (hlen : line.length ≤ LINE_MAX) :
    (evalLine env listing h line).action.Same (executeLine env listing line) ↔
      ExpansionKeeps env line := by
  rw [action_evalLine env listing h hbang hlen]
  unfold executeLine ExpansionKeeps
  simp only
  -- The left side branches on the line, the right side on its expansion.
  cases hop : hasOp line with
  | true =>
    cases hop' : hasOp (expand env line) with
    | true => simpa using same_runPipeline_iff line (expand env line)
    | false => simpa using not_same_runPipeline_runWords listing line (expand env line)
  | false =>
    cases hop' : hasOp (expand env line) with
    | true => simpa using not_same_runWords_runPipeline listing (expand env line) (expand env line)
    | false => simpa using (runWords listing (expand env line)).same_refl

/-- The theorem at `echo a | wc`: nothing to expand, and the same pipeline. -/
theorem evalLine_same_executeLine_echo_wc :
    (evalLine Env.init (fun _ => []) History.init (bytes "echo a | wc")).action.Same
        (executeLine Env.init (fun _ => []) (bytes "echo a | wc")) ↔
      ExpansionKeeps Env.init (bytes "echo a | wc") :=
  evalLine_same_executeLine_iff Env.init (fun _ => []) History.init (bytes "echo a | wc")
    (by decide) (by decide)

/-- `echo $HOME > f`: a script writes the home directory to the file, the prompt writes
`$HOME`. -/
theorem not_same_echo_home :
    ¬ (evalLine Env.init (fun _ => []) History.init (bytes "echo $HOME > f")).action.Same
        (executeLine Env.init (fun _ => []) (bytes "echo $HOME > f")) := by
  decide +kernel

end OnyxShell
