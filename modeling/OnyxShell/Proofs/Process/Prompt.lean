import OnyxShell.Proofs.Features.History
import OnyxShell.Process.Conduct
import OnyxShell.Proofs.Process.Apart

/-!
# `OnyxShell.Proofs.Process.Prompt`: scripts and prompts

A script looks neither at the history nor, but for the limit, at its own depth. So the recursion
behind it comes to an end wherever it is entered (`doScript_budget`), and a line without `!` does
the same at both prompts and with any history (`prompts_agree`).
-/

set_option autoImplicit false

namespace OnyxShell.Process

open Routine (Tracks)

variable {R : Globals → Globals → Prop} {turns turns' : Nat}

/-! ### Scripts -/

/-- The globals agree in the depth of the scripts as well. -/
structure Abreast (R : Globals → Globals → Prop) : Prop extends Apart R where
  depth : ∀ {g g'}, R g g' → g'.scriptDepth = g.scriptDepth
  setDepth : ∀ {g g'}, R g g' → ∀ d, R { g with scriptDepth := d } { g' with scriptDepth := d }

/-- Scripts do the same in such globals, by induction on their nesting. -/
theorem tracks_doScript (hR : Abreast R) (hturns : turns ≤ turns') (budget : Nat) (input : Bytes) :
    Tracks R (doScript turns budget input) (doScript turns' budget input) := by
  induction budget generalizing input with
  | zero => exact .cut _
  | succ budget ih =>
    refine .read fun g g' h => ?_
    have hinner := tracks_doScriptInner hturns
      (tracks_executeLine hR.toApart hturns ih) input
    have hleave : Tracks R (modify fun g => { g with scriptDepth := g.scriptDepth - 1 } : Sh PUnit)
        (modify fun g => { g with scriptDepth := g.scriptDepth - 1 }) := by
      refine .change fun g g' h => ?_
      rw [hR.depth h]
      exact hR.setDepth h _
    rw [hR.depth h]
    split
    · exact tracks_writeError _ g g' h
    · exact Tracks.bind hinner (fun _ => hleave) _ _ (hR.setDepth h _)

/-- The same globals, with the history `hist` and at the depth `d`. -/
def At (hist : History) (d : Nat) (g g' : Globals) : Prop :=
  g' = g ∧ g.history = hist ∧ g.scriptDepth = d

/-- Fixing the history and the depth on one side leaves the environment and the jobs as the
relation has them. -/
theorem apart_at (hist : History) (d : Nat) : Apart (At hist d) where
  env := fun ⟨h, _⟩ => by rw [h]
  jobs := fun ⟨h, _⟩ => by rw [h]
  setEnv := fun ⟨h, hat⟩ env => ⟨by rw [h], hat⟩
  setJobs := fun ⟨h, hat⟩ jobs => ⟨by rw [h], hat⟩

/-- A budget that reaches to the limit is as good as any. -/
theorem tracks_doScript_budget {hist : History} {d budget : Nat} (hpos : 0 < budget)
    (budget' : Nat) (hbudget : SCRIPT_DEPTH_MAX < d + budget) (input : Bytes) :
    Tracks (At hist d) (doScript turns budget' input) (doScript turns budget input) := by
  induction budget generalizing budget' d input with
  | zero => cases hpos
  | succ budget ih =>
    cases budget' with
    | zero => exact .cut _
    | succ budget' =>
      refine .read ?_
      rintro _ g ⟨rfl, hhist, hdepth⟩
      split
      · exact tracks_writeError _ g g ⟨rfl, hhist, hdepth⟩
      · rename_i hlt
        rw [hdepth] at hlt
        -- The scripts inside are one level further down, and come back up.
        have hinner := tracks_doScriptInner (Nat.le_refl turns)
          (tracks_executeLine (apart_at hist (d + 1)) (Nat.le_refl turns)
            (ih (by omega) budget' (by omega))) input
        have hdeeper : At hist (d + 1) { g with scriptDepth := g.scriptDepth + 1 }
            { g with scriptDepth := g.scriptDepth + 1 } :=
          ⟨rfl, hhist, congrArg (· + 1) hdepth⟩
        show Prog.Tracks _ ((doScriptInner turns _ input >>= fun _ => modify _) _)
          ((doScriptInner turns _ input >>= fun _ => modify _) _)
        refine Prog.Tracks.bind (hinner _ _ hdeeper) ?_
        rintro ⟨_, _⟩ ⟨_, g₁⟩ ⟨-, rfl, hhist₁, hdepth₁⟩
        have hup : g₁.scriptDepth = d + 1 := hdepth₁
        refine .ret ⟨rfl, rfl, hhist₁, ?_⟩
        show g₁.scriptDepth - 1 = d
        rw [hup, Nat.add_sub_cancel]

/-- **Scripts come to an end.** Behind the limit for the depth there is nothing left of the
recursion through `do_script`, `execute_line`, `dispatch`, `exec` and `source`: more budget than
that changes nothing, in no line, no pipeline and no child. The budget is what makes the recursion
structural. With any two budgets above the limit the calls are the same, in both directions, since
the shell's own counter refuses the nesting before either of them is used up. -/
theorem doScript_budget {budget : Nat} {g : Globals} (hpos : 0 < budget)
    (hbudget : SCRIPT_DEPTH_MAX < g.scriptDepth + budget) (extra : Nat) (input : Bytes) :
    doScript turns (budget + extra) input g = doScript turns budget input g := by
  have hat : At g.history g.scriptDepth g g := ⟨rfl, rfl, rfl⟩
  have hsame : ∀ {r r' : Unit × Globals},
      r.1 = r'.1 ∧ At g.history g.scriptDepth r.2 r'.2 → r = r' :=
    fun h => Prod.ext h.1 h.2.1.symm
  have hmore : SCRIPT_DEPTH_MAX < g.scriptDepth + (budget + extra) := by omega
  have hpos' : 0 < budget + extra := by omega
  refine Prog.Tracks.antisymm ?_ ?_
  · exact (tracks_doScript_budget hpos _ hbudget input g g hat).mono fun _ _ => hsame
  · exact (tracks_doScript_budget hpos' _ hmore input g g hat).mono fun _ _ => hsame

/-- At the outermost level, one level of budget beyond those that the depth counter allows changes
nothing. -/
theorem doScript_budget_init :
    doScript 1 (SCRIPT_DEPTH_MAX + 1 + 1) (bytes "/a") Globals.init
      = doScript 1 (SCRIPT_DEPTH_MAX + 1) (bytes "/a") Globals.init :=
  doScript_budget (by decide) (by decide) 1 (bytes "/a")

/-- **Scripts come back as they went.** A script returns with the history and at the depth that it
was entered with, whatever its lines have run. The lines of a script are run without the history.
The depth goes up by one on entry and down by one on each of the exits. -/
theorem kept_of_script {g : Globals} {input : Bytes} {events : List (Prog.Event SysCall Answer)}
    {r : Unit × Globals}
    (htrace : Prog.Trace (source turns input g) events (.ret r)) :
    r.2.history = g.history ∧ r.2.scriptDepth = g.scriptDepth := by
  have hbudget : SCRIPT_DEPTH_MAX < g.scriptDepth + (SCRIPT_DEPTH_MAX + 1) := by omega
  have htracks : Tracks (At g.history g.scriptDepth) (source turns input) (source turns input) :=
    tracks_doScript_budget (by decide) _ hbudget input
  rcases (htracks g g ⟨rfl, rfl, rfl⟩).trace htrace with ⟨q, -, hq⟩
  cases hq with
  | ret h => exact ⟨h.2.2.1, h.2.2.2⟩

/-- The globals of a prompt where `ls` has been entered. -/
def afterLs : Globals := { Globals.init with history := History.init.push (bytes "ls") }

/-- A script is read byte by byte. -/
def scriptReads (fd : Nat) (text : String) : List (Prog.Event SysCall Answer) :=
  (bytes text).map fun b => (.read fd 1, ⟨1, [b]⟩)

/-- `cd` in a script. -/
def cdEvents : List (Prog.Event SysCall Answer) :=
  [(.waitpid ANY_CHILD WNOHANG, ⟨0, []⟩), (.chdir (bytes "/"), ⟨0, []⟩)]

/-- A script `/a` that runs `cd` and another script `/b`, which runs `cd` as well. -/
def nestedEvents : List (Prog.Event SysCall Answer) :=
  (.sysOpen (bytes "/a") O_RDONLY, ⟨3, []⟩) :: scriptReads 3 "cd\n" ++ cdEvents ++
    scriptReads 3 ". /b\n" ++
      [(.waitpid ANY_CHILD WNOHANG, ⟨0, []⟩), (.sysOpen (bytes "/b") O_RDONLY, ⟨4, []⟩)] ++
    scriptReads 4 "cd" ++ [(.read 4 1, ⟨0, []⟩)] ++ cdEvents ++
      [(.close 4, ⟨0, []⟩), (.read 3 1, ⟨0, []⟩), (.close 3, ⟨0, []⟩)]

/-- A script that runs a line and sources another. It leaves the history, and the depth is back at
zero. -/
theorem kept_of_script_nested :
    ∃ r, Prog.Trace (source 9 (bytes "/a") afterLs) nestedEvents (.ret r) ∧
      r.2.history = afterLs.history ∧ r.2.scriptDepth = 0 := by
  have htrace : ∃ r, Prog.Trace (source 9 (bytes "/a") afterLs) nestedEvents (.ret r) :=
    Prog.exists_trace_ret (by decide +kernel)
  rcases htrace with ⟨r, htrace⟩
  exact ⟨r, htrace, kept_of_script htrace⟩

/-! ### The history -/

/-- The globals agree but for the history. -/
def ButHistory (g g' : Globals) : Prop := g' = { g with history := g'.history }

/-- The globals still agree where both push a line. A command does not look at the history, and so
does not notice how two of them differ. -/
structure Unaware (R : Globals → Globals → Prop) : Prop extends Abreast R where
  push : ∀ {g g'}, R g g' → ∀ line, R { g with history := g.history.push line }
    { g' with history := g'.history.push line }

/-- Agreeing in all but the history is a relation that no command notices. -/
theorem unaware_butHistory : Unaware ButHistory where
  env := fun h => by rw [h]
  jobs := fun h => by rw [h]
  setEnv := fun h env => by rw [ButHistory, h]
  setJobs := fun h jobs => by rw [ButHistory, h]
  depth := fun h => by rw [h]
  setDepth := fun h d => by rw [ButHistory, h]
  push := fun h line => by rw [ButHistory, h]

/-- Equal globals are agreeing globals. -/
theorem unaware_eq : Unaware Eq where
  env := fun h => by rw [h]
  jobs := fun h => by rw [h]
  setEnv := fun h env => by rw [h]
  setJobs := fun h jobs => by rw [h]
  depth := fun h => by rw [h]
  setDepth := fun h d => by rw [h]
  push := fun h line => by rw [h]

/-- A line without `!` has no history reference, and so no message about one. -/
theorem messages_historyExpand_of_not_mem {line : Bytes} (h : '!'.toUInt8 ∉ line)
    (hist : History) : (historyExpand hist line).2 = [] := by
  rw [historyExpand, Finder.run_eq_foldl, Finder.pieces_of_find_none (referenceAt_of_not_mem h)]
  generalize Vec.new = out
  induction line.drop 0 generalizing out with
  | nil => rfl
  | cons b line ih => exact ih _

/-- With a larger budget of turns a script does the same, provided that the smaller one is
enough. -/
theorem tracks_source (hR : Abreast R) (hturns : turns ≤ turns') (input : Bytes) :
    Tracks R (source turns input) (source turns' input) :=
  tracks_doScript hR hturns _ input

/-- What `eval_line` does with the line behind the expansion. -/
theorem tracks_evalText (hR : Unaware R) (hturns : turns ≤ turns') (line : Bytes) :
    Tracks R (evalText turns line) (evalText turns' line) := by
  have hscript := tracks_source hR.toAbreast hturns
  refine .ite (.pure ()) (.ite ?_ (.read fun g g' h => ?_))
  · refine .bind (.change fun g g' h => hR.push h _) fun _ => ?_
    exact tracks_runPipeline hR.toApart hturns hscript line
  · rw [hR.env h]
    split
    · exact .ret ⟨rfl, h⟩
    · have hwords := tracks_runWords hR.toApart hturns hscript (expand g.env line)
      have hpushed := hR.push h (expand g.env line)
      rw [hR.env h] at hpushed
      exact hwords _ _ hpushed

/-- A line without `!` is evaluated as it is. -/
theorem evalLine_of_not_mem {line : Bytes} (hbang : '!'.toUInt8 ∉ line)
    (hlen : line.length ≤ VEC_CAP) (g : Globals) : evalLine turns line g = evalText turns line g := by
  by_cases hline : line = []
  · rw [hline]
    rfl
  · rw [evalLine, if_neg hline]
    show ((historyExpand g.history line).2.forM writeError >>= fun _ =>
      evalText turns (historyExpand g.history line).1.items) g = _
    rw [messages_historyExpand_of_not_mem hbang, items_historyExpand_of_not_mem hbang,
      List.take_of_length_le hlen]
    rfl

/-- A push is not seen. -/
theorem ButHistory.push {g g' : Globals} (h : ButHistory g g') (f f' : History → History) :
    ButHistory { g with history := f g.history } { g' with history := f' g'.history } := by
  rw [ButHistory, h]

/-- The line of the raw prompt is pushed first, and evaluated from there. -/
theorem submitLine_of_not_mem {line : Bytes} (hbang : '!'.toUInt8 ∉ line)
    (hlen : line.length < LINE_MAX) (g : Globals) :
    submitLine turns line g =
      evalText turns line (if line = [] ∨ hasOp line then g
        else { g with history := g.history.push line }) := by
  by_cases hline : line = []
  · rw [hline]
    rfl
  · have hcut : line.take (LINE_MAX - 1) = line :=
      List.take_of_length_le (Nat.le_sub_one_of_lt hlen)
    cases hop : hasOp line with
    | true =>
      rw [submitLine, evalText, if_neg hline, if_neg hline, hop, if_pos rfl, if_pos rfl, hcut]
      simp only [or_true, if_true]
    | false =>
      rw [if_neg (by simp [hline]), ← evalLine_of_not_mem hbang (Nat.le_of_lt hlen), submitLine,
        if_neg hline, hop, if_neg (by decide)]
      rfl

/-- **The prompts agree.** A line without `!` makes the same calls at the raw and at the cooked
prompt, and leaves the same environment and the same jobs, whatever the history of either is. The
two prompts read their line in different ways, and only the raw one stores it before it is
expanded. The relation between the two processes leaves the history open (`Unaware`), and is
carried through every function that a line may reach. -/
theorem prompts_agree {line : Bytes} (hbang : '!'.toUInt8 ∉ line) (hlen : line.length < LINE_MAX)
    {g g' : Globals} (h : ButHistory g g') :
    Prog.Tracks (fun r r' => ButHistory r.2 r'.2) (submitLine turns line g)
        (evalLine turns line g') ∧
      Prog.Tracks (fun r r' => ButHistory r.2 r'.2) (evalLine turns line g')
        (submitLine turns line g) := by
  have hsymm : ∀ {g g' : Globals}, ButHistory g g' → ButHistory g' g := by
    intro g g' h
    rw [ButHistory, h]
  have hpushed : ButHistory (if line = [] ∨ hasOp line then g
      else { g with history := g.history.push line }) g' := by
    split
    · exact h
    · exact h.push (fun hist => hist.push line) id
  rw [submitLine_of_not_mem hbang hlen, evalLine_of_not_mem hbang (Nat.le_of_lt hlen)]
  have htracks : ∀ g g', ButHistory g g' → Prog.Tracks (fun r r' => ButHistory r.2 r'.2)
      (evalText turns line g) (evalText turns line g') :=
    fun g g' h =>
      (tracks_evalText unaware_butHistory (Nat.le_refl turns) line g g' h).mono fun _ _ h => h.2
  exact ⟨htracks _ _ hpushed, htracks _ _ (hsymm hpushed)⟩

/-- The calls of `ver` at a prompt: nothing to reap, and three lines. -/
def verEvents : List (Prog.Event SysCall Answer) :=
  [(.waitpid ANY_CHILD WNOHANG, ⟨0, []⟩),
    (.write 1 "OnyxShell v0.2.0 — built-in command shell for OnyxOS".toUTF8.toList, ⟨0, []⟩),
    (.write 1 (bytes "\n"), ⟨0, []⟩),
    (.write 1 (bytes "Copyright (c) 2024-2025 loki5512344"), ⟨0, []⟩),
    (.write 1 (bytes "\n"), ⟨0, []⟩),
    (.write 1 (bytes "License: GPL-3.0-or-later"), ⟨0, []⟩), (.write 1 (bytes "\n"), ⟨0, []⟩)]

/-- A raw prompt with a history of its own, and a cooked one that has just started. -/
theorem prompts_agree_ver : afterLs.history ≠ Globals.init.history ∧
    ∃ r r', Prog.Trace (submitLine 1 (bytes "ver") afterLs) verEvents (.ret r) ∧
      Prog.Trace (evalLine 1 (bytes "ver") Globals.init) verEvents (.ret r') ∧
      ButHistory r.2 r'.2 := by
  have hhistory : afterLs.history ≠ Globals.init.history := by
    intro h
    exact absurd (congrArg History.count h) (by decide +kernel)
  have htrace : ∃ r, Prog.Trace (submitLine 1 (bytes "ver") afterLs) verEvents (.ret r) :=
    Prog.exists_trace_ret (by decide +kernel)
  rcases htrace with ⟨r, htrace⟩
  have hbut : ButHistory afterLs Globals.init := rfl
  -- The cooked prompt does what the raw one does, so it has the same run.
  have hagree : Prog.Tracks (fun r r' => ButHistory r.2 r'.2) (submitLine 1 (bytes "ver") afterLs)
      (evalLine 1 (bytes "ver") Globals.init) := (prompts_agree (by decide) (by decide) hbut).1
  rcases hagree.trace htrace with ⟨q, htrace', hq⟩
  cases hq with
  | ret hbut => exact ⟨hhistory, r, _, htrace, htrace', hbut⟩

/-! ### More turns -/

section
variable (hturns : turns ≤ turns')
include hturns

/-- A line of the prompt, likewise. -/
theorem tracks_evalLine (line : Bytes) : Tracks Eq (evalLine turns line) (evalLine turns' line) := by
  refine .ite (.refl _) (.read ?_)
  rintro g _ rfl
  have hrest := tracks_evalText unaware_eq hturns (historyExpand g.history line).1.items
  exact Tracks.bind (.refl _) (fun _ => hrest) g g rfl

/-- A turn of the raw prompt, likewise. -/
theorem tracks_rawTurn (s : RawState) : Tracks Eq (rawTurn turns s) (rawTurn turns' s) := by
  have hscript := tracks_source unaware_eq.toAbreast hturns
  refine .bind (.refl _) fun _ => .bind (.refl _) fun _ => ?_
  refine .bind (.loop hturns (fun _ => .refl _) _) fun s => .bind ?_ fun _ => .refl _
  refine .ite (.refl _) (.bind (.refl _) fun _ => ?_)
  exact .ite (tracks_runPipeline unaware_eq.toApart hturns hscript _) (tracks_evalLine hturns _)

/-- A turn of the cooked prompt, likewise. -/
theorem tracks_cookedTurn (gLine : Bytes) :
    Tracks Eq (cookedTurn turns gLine) (cookedTurn turns' gLine) := by
  refine .bind (.refl _) fun _ => .bind (.refl _) fun r => .ite (.refl _) ?_
  refine .bind (.refl _) fun line => .ite (.refl _) ?_
  exact .bind (tracks_evalLine hturns _) fun _ => .refl _

/-- The whole shell, from its start. -/
theorem tracks_start (arg : ScriptArg) : Tracks Eq (start turns arg) (start turns' arg) := by
  cases arg with
  | some script =>
    cases script with
    | none => exact .refl _
    | some path =>
      exact .bind (tracks_source unaware_eq.toAbreast hturns _) fun _ => .refl _
  | none =>
    refine .bind (.refl _) fun _ => .bind (.refl _) fun _ => .bind (.refl _) fun ret => .ite ?_ ?_
    · exact .loop hturns (fun s => .bind (tracks_rawTurn hturns s) fun _ => .refl _) _
    · exact .loop hturns (fun b => .bind (tracks_cookedTurn hturns b) fun _ => .refl _) _

end

/-- A run of the shell is one as well where its loops are followed further. -/
theorem Makes.more {arg : ScriptArg} {events : List (Prog.Event SysCall Answer)} {c : SysCall}
    (h : Makes turns arg events c) (hturns : turns ≤ turns') : Makes turns' arg events c := by
  rcases h with ⟨⟨k, htrace⟩, hanswered⟩
  rcases (tracks_start hturns arg _ _ rfl).trace htrace with ⟨q, htrace', hq⟩
  cases hq with
  | call _ => exact ⟨⟨_, htrace'⟩, hanswered⟩

end OnyxShell.Process
