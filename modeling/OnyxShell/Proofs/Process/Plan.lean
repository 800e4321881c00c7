import OnyxShell.Process.Eval
import OnyxShell.Proofs.Process.Console

/-!
# `OnyxShell.Proofs.Process.Plan`: a line and its action

`eval_line` and `execute_line` first find out what a line comes to, with calls of `readdir` for its
wildcards and messages for its history. This is `planLine` and `planScriptLine`. Then they perform
the action (`perform`).

`evalLine_plans` says that the first half computes `OnyxShell.evalLine`, which is about the
environment, the history and the names of the directories, and makes no calls.
-/

set_option autoImplicit false

namespace OnyxShell.Process

open Routine (twp twp_bind twp_pure twp_mono twp_get twp_set twp_modify)

/-! ### The two halves of an evaluation -/

/-- What is left to be done with a line. -/
def perform (turns : Nat) (doScript : Bytes → Sh Unit) : Action → Sh Unit
  | .dispatch args => dispatch turns doScript args
  | .pipeline line p => execute turns (dispatch turns doScript) line p
  | .nothing => pure ()

/-- The action of a simple command. -/
def planWords (s : Bytes) : Sh Action :=
  if (tokenize s).length = 0 then pure .nothing
  else do
    let args ← expandTokens s (tokenize s) []
    pure (.dispatch args)

/-- The action of a line behind the history expansion. -/
def planText (s : Bytes) : Sh Action :=
  if s = [] then pure .nothing
  else if hasOp s then do
    modify fun g => { g with history := g.history.push (s.take (LINE_MAX - 1)) }
    pure (OnyxShell.runPipeline s)
  else do
    let g ← get
    let s := expand g.env s
    if s = [] then pure .nothing
    else do
      set { g with history := g.history.push s }
      planWords s

/-- The action of a line of the prompt. -/
def planLine (raw : Bytes) : Sh Action :=
  if raw = [] then pure .nothing
  else do
    let g ← get
    let hist := historyExpand g.history raw
    hist.2.forM writeError
    planText hist.1.items

/-- The action of a line of a script. -/
def planScriptLine (line : Bytes) : Sh Action := do
  let g ← get
  let expanded := expand g.env line
  if hasOp expanded then pure (OnyxShell.runPipeline expanded) else planWords expanded

section
variable (turns : Nat)

/-- Running a line of words is planning it and then doing what is planned. -/
theorem runWords_eq (doScript : Bytes → Sh Unit) (s : Bytes) :
    runWords turns doScript s = planWords s >>= perform turns doScript := by
  rw [runWords, planWords]
  split
  · rfl
  · simp only [bind_assoc, pure_bind]
    rfl

/-- Running a line of the prompt is planning it and then doing what is planned. -/
theorem evalText_eq (s : Bytes) :
    evalText turns s = planText s >>= perform turns (source turns) := by
  rw [evalText, planText]
  split
  · rfl
  · split
    · rfl
    · simp only [bind_assoc]
      congr 1
      funext g
      split
      · rfl
      · rw [bind_assoc, runWords_eq]

/-- A line of the prompt: its plan, and then what it plans. -/
theorem evalLine_eq (raw : Bytes) :
    evalLine turns raw = planLine raw >>= perform turns (source turns) := by
  rw [evalLine, planLine]
  split
  · rfl
  · simp only [bind_assoc, evalText_eq]

/-- The same for a line of a script. -/
theorem executeLine_eq (doScript : Bytes → Sh Unit) (line : Bytes) :
    executeLine turns doScript line = planScriptLine line >>= perform turns doScript := by
  rw [executeLine, planScriptLine, bind_assoc]
  congr 1
  funext g
  simp only
  split
  · rfl
  · exact runWords_eq turns doScript _

end

/-! ### Names of files -/

section
variable {σ : Type} {M : Prog.Monitor SysCall Answer σ} {names : Bytes → List Bytes}
  {seen : σ → Bytes → Nat} {setSeen : σ → Bytes → Nat → σ} {print : σ → Bytes → σ}
  {Still : σ → Prop} {g : Globals} {s : σ}

/-- `readdir` goes through these names one by one. `seen` is how many of them it has given, and
behind the last one it starts again. -/
structure Lists (M : Prog.Monitor SysCall Answer σ) (names : Bytes → List Bytes)
    (seen : σ → Bytes → Nat) (setSeen : σ → Bytes → Nat → σ) : Prop where
  text : ∀ path, ∀ name ∈ names path, 0 ∉ name ∧ name.length < NAME_LEN - 1
  allows : ∀ s path, M.allows s (.readdir path 255)
  admits : ∀ s path a, M.admits s (.readdir path 255) a → Entry a (names path)[seen s path]?
  next : ∀ s path a, M.next s (.readdir path 255) a
    = setSeen s path (if 0 < a.ret then seen s path + 1 else 0)
  seen_setSeen : ∀ s path n, seen (setSeen s path n) path = n
  setSeen_setSeen : ∀ s path n n', setSeen (setSeen s path n) path n' = setSeen s path n'
  setSeen_seen : ∀ s path, setSeen s path (seen s path) = s

/-- The names from the next one on. -/
theorem Lists.twp_scanNames (h : Lists M names seen setSeen) {path : Bytes} {turns n : Nat}
    {buf : Bytes} (hlen : buf.length = NAME_LEN) (hseen : seen s path = n)
    (hn : n ≤ (names path).length) (hturns : (names path).length < n + turns)
    {Q : List Bytes → Globals → σ → Prop} (hQ : Q ((names path).drop n) g (setSeen s path 0)) :
    twp M (scanNames path turns buf) Q g s := by
  induction turns generalizing n buf s Q with
  | zero => omega
  | succ turns ih =>
    rw [scanNames, twp_bind]
    refine ⟨h.allows s path, ?_⟩
    intro a ha
    rw [h.next, hseen]
    rcases Entry.cases (h.admits s path a ha) with ⟨name, hname, hret, hout⟩ | ⟨hname, hret⟩
    · rw [hseen] at hname
      rcases List.getElem?_eq_some_iff.mp hname with ⟨hlt, hget⟩
      rcases h.text path name (hget ▸ List.getElem_mem hlt) with ⟨hnul, hshort⟩
      show twp M (if a.ret ≤ 0 then pure [] else _) Q g _
      rw [if_pos hret, if_neg (Int.not_le.mpr hret), twp_bind]
      refine ih ((a.length_into _).trans hlen) (h.seen_setSeen _ _ _) hlt (by omega) ?_
      rw [twp_pure, h.setSeen_setSeen]
      rw [List.drop_eq_getElem_cons hlt, hget] at hQ
      -- The name and its NUL are in the 255 bytes that are looked at.
      have hshort' : name.length < 255 := hshort
      have hread : cString ((a.into buf).take 255) = name := by
        obtain ⟨k, hk⟩ : ∃ k, 255 - name.length = k + 1 := ⟨254 - name.length, by omega⟩
        rw [into_name hshort hlen hout, List.take_append, hk, List.take_of_length_le (by omega),
          List.take_succ_cons, cString_append_nul hnul]
      rw [hread]
      exact hQ
    · rw [hseen, List.getElem?_eq_none_iff] at hname
      rw [List.drop_of_length_le hname] at hQ
      show twp M (if a.ret ≤ 0 then pure [] else _) Q g _
      rw [if_pos (Int.le_of_eq hret), hret, if_neg (Int.lt_irrefl 0)]
      exact hQ

/-- The directories are short enough to be read to their end by a wildcard, and no one is in the
middle of reading them. -/
def AtRest (names : Bytes → List Bytes) (seen : σ → Bytes → Nat) (s : σ) : Prop :=
  ∀ path, (names path).length < 64 ∧ seen s path = 0

/-- What the planning of a line needs of the kernel: a place for its messages, and the names for its
wildcards where `Still` holds. -/
structure Scans (M : Prog.Monitor SysCall Answer σ) (print : σ → Bytes → σ)
    (names : Bytes → List Bytes) (Still : σ → Prop) : Prop extends Writes M print where
  still_print : ∀ s b, Still s → Still (print s b)
  print_nil : ∀ s, print s [] = s
  scan : ∀ (dir : Bytes) (Q : List Bytes → Globals → σ → Prop) g s, Still s →
    Q (names (scanPath dir)) g s → twp M (scanDirNames dir) Q g s

/-- Listing a directory gives its names in order, from a listing that is at rest to one that is at
rest again. The induction is on the names that are still to come. -/
theorem Lists.scan (h : Lists M names seen setSeen) (dir : Bytes)
    (Q : List Bytes → Globals → σ → Prop) (g : Globals) (s : σ) (hrest : AtRest names seen s)
    (hQ : Q (names (scanPath dir)) g s) : twp M (scanDirNames dir) Q g s := by
  rcases hrest (scanPath dir) with ⟨hshort, hseen⟩
  refine h.twp_scanNames (length_zeros _) hseen (Nat.zero_le _) (by omega) ?_
  rw [List.drop_zero, ← hseen, h.setSeen_seen]
  exact hQ

/-- A word of `G_ARGS`: up to its NUL. -/
def argOf (exp : Bytes) : Bytes := (cString exp).take 127

namespace Scans

/-- The program's expansion of a pattern is the pure one. -/
theorem twp_globExpand (h : Scans M print names Still) (hstill : Still s) (tok : Bytes)
    {Q : List Bytes → Globals → σ → Prop}
    (hQ : Q (OnyxShell.globExpand names tok).items g s) : twp M (globExpand tok) Q g s := by
  rw [globExpand]
  split
  · rw [twp_bind]
    exact h.scan _ _ g s hstill hQ
  · rename_i hplain
    rw [OnyxShell.globExpand, if_neg hplain] at hQ
    exact hQ

/-- The words that follow, up to the 32nd. -/
theorem twp_expandTokens (h : Scans M print names Still) (hstill : Still s) (line : Bytes)
    (toks : List Span) {args : List Bytes} (hargs : args.length ≤ 32)
    {Q : List Bytes → Globals → σ → Prop}
    (hQ : Q ((args ++ (toks.flatMap fun tok =>
      (OnyxShell.globExpand names (Span.of line tok)).items).map argOf).take 32) g s) :
    twp M (expandTokens line toks args) Q g s := by
  induction toks generalizing args with
  | nil =>
    rw [List.flatMap_nil, List.map_nil, List.append_nil, List.take_of_length_le hargs] at hQ
    exact hQ
  | cons tok toks ih =>
    rw [expandTokens, twp_bind]
    refine h.twp_globExpand hstill _ ?_
    rw [List.flatMap_cons, List.map_append, ← List.append_assoc] at hQ
    generalize (OnyxShell.globExpand names (Span.of line tok)).items = items at hQ ⊢
    show twp M (if ((args ++ items.map argOf).take 32).length ≥ 32 then _ else _) Q g s
    split
    · -- There are 32 words, and what would follow is cut off on both sides.
      rename_i hfull
      rw [List.length_take] at hfull
      rw [List.take_append_of_le_length (by omega)] at hQ
      exact hQ
    · rename_i hroom
      rw [List.length_take] at hroom
      have hall : (args ++ items.map argOf).take 32 = args ++ items.map argOf :=
        List.take_of_length_le (by omega)
      show twp M (expandTokens line toks ((args ++ items.map argOf).take 32)) Q g s
      rw [hall]
      exact ih (by omega) hQ

/-- `G_ARGS` is filled with the arguments of `OnyxShell.expandArgs`. -/
theorem twp_planWords (h : Scans M print names Still) (hstill : Still s) (line : Bytes)
    {Q : Action → Globals → σ → Prop} (hQ : Q (OnyxShell.runWords names line) g s) :
    twp M (planWords line) Q g s := by
  rw [OnyxShell.runWords] at hQ
  rw [planWords]
  split
  · rename_i hnone
    rw [if_pos hnone] at hQ
    exact hQ
  · rename_i hsome
    rw [if_neg hsome] at hQ
    rw [twp_bind]
    refine h.twp_expandTokens hstill line (tokenize line) (Nat.zero_le _) ?_
    rw [twp_pure, List.nil_append, ← List.map_take]
    exact hQ

/-- The plan of a line is what `OnyxShell.evalText` says. -/
theorem twp_planText (h : Scans M print names Still) (hstill : Still s) (line : Bytes)
    (messages : List Bytes) {Q : Action → Globals → σ → Prop}
    (hQ : Q (OnyxShell.evalText g.env names g.history line messages).action
      { g with history := (OnyxShell.evalText g.env names g.history line messages).history } s) :
    twp M (planText line) Q g s := by
  rw [OnyxShell.evalText] at hQ
  rw [planText]
  by_cases hempty : line = []
  · rw [if_pos hempty] at hQ ⊢
    exact hQ
  rw [if_neg hempty] at hQ ⊢
  by_cases hop : hasOp line = true
  · rw [if_pos hop] at hQ ⊢
    exact hQ
  rw [if_neg hop] at hQ ⊢
  rw [twp_bind, twp_get]
  simp only at hQ ⊢
  by_cases hnone : expand g.env line = []
  · rw [if_pos hnone] at hQ ⊢
    exact hQ
  rw [if_neg hnone] at hQ ⊢
  rw [twp_bind, twp_set]
  exact h.twp_planWords hstill _ hQ

/-- Messages about history references are printed one after the other. -/
theorem twp_messages (h : Scans M print names Still) (msgs : List Bytes)
    {Q : Unit → Globals → σ → Prop} (hQ : Q () g (print s (msgs.flatMap errorText))) :
    twp M (msgs.forM writeError) Q g s := by
  induction msgs generalizing s with
  | nil =>
    rw [List.flatMap_nil, h.print_nil] at hQ
    exact hQ
  | cons msg msgs ih =>
    rw [List.flatMap_cons, ← h.append] at hQ
    show twp M (writeError msg >>= fun _ => msgs.forM writeError) Q g s
    rw [twp_bind, h.twp_writeError]
    exact ih hQ

/-- The plan of a line of the prompt is what `OnyxShell.evalLine` says. -/
theorem twp_planLine (h : Scans M print names Still) (hstill : Still s) (raw : Bytes)
    {Q : Action → Globals → σ → Prop}
    (hQ : Q (OnyxShell.evalLine g.env names g.history raw).action
      { g with history := (OnyxShell.evalLine g.env names g.history raw).history }
      (print s ((OnyxShell.evalLine g.env names g.history raw).messages.flatMap errorText))) :
    twp M (planLine raw) Q g s := by
  rw [OnyxShell.evalLine] at hQ
  rw [planLine]
  by_cases hempty : raw = []
  · simp only [if_pos hempty, List.flatMap_nil, h.print_nil] at hQ ⊢
    exact hQ
  simp only [if_neg hempty] at hQ ⊢
  rw [twp_bind, twp_get, twp_bind]
  refine h.twp_messages _ ?_
  -- The messages are those of the history expansion, whatever becomes of the line.
  have hmsgs : ∀ line messages,
      (OnyxShell.evalText g.env names g.history line messages).messages = messages := by
    intro line messages
    simp only [OnyxShell.evalText]
    split_ifs <;> rfl
  rw [hmsgs] at hQ
  exact h.twp_planText (h.still_print _ _ hstill) _ _ hQ

/-- The plan of a line of a script is what `OnyxShell.executeLine` says. -/
theorem twp_planScriptLine (h : Scans M print names Still) (hstill : Still s) (line : Bytes)
    {Q : Action → Globals → σ → Prop} (hQ : Q (OnyxShell.executeLine g.env names line) g s) :
    twp M (planScriptLine line) Q g s := by
  simp only [OnyxShell.executeLine] at hQ
  rw [planScriptLine, twp_bind, twp_get]
  simp only
  split
  · rename_i hop
    rw [if_pos hop] at hQ
    exact hQ
  · rename_i hplain
    rw [if_neg hplain] at hQ
    exact h.twp_planWords hstill _ hQ

end Scans

end

/-! ### Over the console -/

variable {fs : Fs} {g : Globals} {w : World}

/-- `AtRest` for the files of the console. -/
def Rested (fs : Fs) (w : World) : Prop := AtRest fs.names World.seen w

/-- The console lists the names of the file system, one for each `readdir`. -/
theorem lists : Lists (console fs) fs.names World.seen World.setSeen where
  text := fs.names_text
  allows _ _ := trivial
  admits _ _ _ h := h
  next _ _ _ := rfl
  seen_setSeen := World.seen_setSeen
  setSeen_setSeen := World.setSeen_setSeen
  setSeen_seen _ _ := World.setSeen_of_seen rfl

/-- The console lists names and takes output. -/
theorem scans : Scans (console fs) World.print fs.names (Rested fs) where
  toWrites := writes
  still_print _ _ h := h
  print_nil := World.print_nil
  scan := lists.scan

/-! ### Runs -/

section
variable (turns : Nat)

/-- **A line of the prompt.** It is planned first, with the names that the kernel delivers for its
wildcards. The plan is the one of `OnyxShell.evalLine`, and so is the history, and what is printed
are its messages. The names come from the kernel one by one, and a run may end in a call that has
no answer yet. Until the planning is over, all calls are of that kind or print a message. -/
theorem evalLine_plans (hrested : Rested fs w) (raw : Bytes) (g : Globals) :
    evalLine turns raw = planLine raw >>= perform turns (source turns) ∧
      ComesTo fs w g (planLine raw)
        ((OnyxShell.evalLine g.env fs.names g.history raw).action,
          { g with history := (OnyxShell.evalLine g.env fs.names g.history raw).history })
        ((OnyxShell.evalLine g.env fs.names g.history raw).messages.flatMap errorText) :=
  ⟨evalLine_eq turns raw, comesTo_of_twp (scans.twp_planLine hrested raw ⟨rfl, rfl⟩)⟩

/-- The names of `/` are read, for a wildcard. -/
def scanEvents : List (Prog.Event SysCall Answer) :=
  [(.readdir (bytes "/") 255, ⟨1, bytes "a" ++ [0]⟩),
    (.readdir (bytes "/") 255, ⟨1, bytes "b" ++ [0]⟩), (.readdir (bytes "/") 255, ⟨0, []⟩)]

/-- At the start no directory has been listed in part. -/
theorem rested_twoNames : Rested twoNames World.fresh := by
  intro path
  refine ⟨?_, rfl⟩
  show (if path = bytes "/" then [bytes "a", bytes "b"] else []).length < 64
  split
  · decide
  · decide

/-- `echo *` at the prompt plans an `echo` of the two names. -/
theorem evalLine_plans_echo : ∃ r, Prog.Trace (planLine (bytes "echo *") Globals.init) scanEvents
    (.ret r) ∧ r.1 = .dispatch [bytes "echo", bytes "a", bytes "b"] := by
  have hplans := evalLine_plans 1 rested_twoNames (bytes "echo *") Globals.init
  have hreturns := hplans.2.returns scanEvents (by decide +kernel) (by decide +kernel)
  exact ⟨_, hreturns.1, by decide +kernel⟩

/-- **A line of a script.** Its plan is the one of `OnyxShell.executeLine`, without a history. The
messages are missing too, since it is history references that have them. -/
theorem executeLine_plans (hrested : Rested fs w) (doScript : Bytes → Sh Unit) (line : Bytes)
    (g : Globals) :
    executeLine turns doScript line = planScriptLine line >>= perform turns doScript ∧
      ComesTo fs w g (planScriptLine line) (OnyxShell.executeLine g.env fs.names line, g) [] :=
  ⟨executeLine_eq turns doScript line,
    comesTo_of_twp (scans.twp_planScriptLine hrested line ⟨rfl, (World.print_nil w).symm⟩)⟩

/-- `echo [b-z]` in a script plans an `echo` of the one name that matches. -/
theorem executeLine_plans_echo : ∃ r, Prog.Trace (planScriptLine (bytes "echo [b-z]") Globals.init)
    scanEvents (.ret r) ∧ r.1 = .dispatch [bytes "echo", bytes "b"] := by
  have hplans := executeLine_plans 1 rested_twoNames (fun _ => pure ()) (bytes "echo [b-z]")
    Globals.init
  have hreturns := hplans.2.returns scanEvents (by decide +kernel) (by decide +kernel)
  exact ⟨_, hreturns.1, by decide +kernel⟩

end

end OnyxShell.Process
