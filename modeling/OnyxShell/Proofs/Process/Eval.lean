import OnyxShell.Process.Eval
import OnyxShell.Proofs.Process.Pipeline

/-!
# `OnyxShell.Proofs.Process.Eval`: every line keeps the process

`keeps_runCommand` puts the commands together: which policy and which frame a command is good for
depends on its name only. Scripts run lines, and lines run commands, so `keeps_doScript` is by
induction on the nesting.

A line may change the environment, the jobs and the history. What it keeps is the invariant, and
the descriptors that were open before.
-/

set_option autoImplicit false

namespace OnyxShell.Process

open Routine (wp wp_bind wp_mono wp_pure)

variable {α : Type} {policy : Policy} {R : Proc → Proc → Prop} {g : Globals} {s : Proc}

/-- A choice, where each branch may use what the condition says. -/
theorem Keeps.iteOf {c : Prop} [Decidable c] {x y : Sh α} (hx : c → Keeps policy R x)
    (hy : ¬ c → Keeps policy R y) : Keeps policy R (if c then x else y) := by
  split
  · rename_i h
    exact hx h
  · rename_i h
    exact hy h

/-! ### Names of files -/

section
variable (hp : policy.Lenient)
include hp

/-- Listing a directory opens nothing, by induction on the turns. -/
theorem tidy_scanNames (path : Bytes) (n : Nat) (buf : Bytes) :
    Tidy policy (scanNames path n buf) := by
  induction n generalizing buf with
  | zero => exact Tidy.pure []
  | succ n ih =>
    refine tidy_quiet hp (quiet_readdir _ _) fun a => ?_
    exact .ite (Tidy.pure []) (.bind (ih _) fun rest => Tidy.pure _)

/-- The listing that globbing begins with. -/
theorem tidy_scanDirNames (dirPath : Bytes) : Tidy policy (scanDirNames dirPath) :=
  tidy_scanNames hp _ _ _

/-- A pattern is expanded by listing its directory. -/
theorem tidy_globExpand (tok : Bytes) : Tidy policy (globExpand tok) :=
  .ite (.bind (tidy_scanDirNames hp _) fun _ => Tidy.pure _) (Tidy.pure _)

/-- The tokens of a line, one after the other. -/
theorem tidy_expandTokens (line : Bytes) (toks : List Span) (args : List Bytes) :
    Tidy policy (expandTokens line toks args) := by
  induction toks generalizing args with
  | nil => exact Tidy.pure args
  | cons tok rest ih =>
    refine .bind (tidy_globExpand hp _) fun expansions => ?_
    exact .ite (Tidy.pure _) (ih _)

end

/-! ### Commands -/

/-- The commands that change files or start programs. -/
def CHANGING : List Bytes :=
  [bytes "rm", bytes "mkdir", bytes "cp", bytes "mv", bytes "touch", bytes "exec", bytes "run"]

/-- The commands that run scripts. -/
def SCRIPTING : List Bytes := [bytes "exec", bytes "source", bytes "."]

/-- What a command needs of the policy and of the scripts. -/
theorem keeps_runCommand (hp : policy.Lenient) (hR : Frame R) (turns : Nat)
    {doScript : Bytes → Sh Unit} {cmd : Bytes} (hchanging : cmd ∈ CHANGING → ∀ c, policy c)
    (hscripting : cmd ∈ SCRIPTING → ∀ input, Keeps policy R (doScript input)) (rest : List Bytes) :
    Keeps policy R (runCommand turns doScript cmd rest) := by
  have hchange : ∀ {name : String}, bytes name ∈ CHANGING → cmd = bytes name → ∀ c, policy c :=
    fun hmem hcmd => hchanging (hcmd ▸ hmem)
  rw [runCommand.eq_def]
  refine .iteOf (fun _ => (tidy_cmdHelp hp).keeps hR) fun _ => ?_
  refine .iteOf (fun _ => (tidy_cmdEcho hp rest).keeps hR) fun _ => ?_
  refine .iteOf (fun _ => ?_) fun _ => ?_
  · -- `export`
    exact .ite ((tidy_envList hp).keeps hR) (keeps_modify hR fun g => List.Subset.refl _)
  refine .iteOf (fun _ => (tidy_envList hp).keeps hR) fun _ => ?_
  refine .iteOf (fun _ => keeps_modify hR fun g => List.Subset.refl _) fun _ => ?_
  refine .iteOf (fun _ => (tidy_cmdPwd hp).keeps hR) fun _ => ?_
  refine .iteOf (fun _ => (tidy_cmdCd hp rest).keeps hR) fun _ => ?_
  refine .iteOf (fun _ => (tidy_cmdLs hp turns rest).keeps hR) fun _ => ?_
  refine .iteOf (fun _ => (tidy_cmdCat hp turns rest).keeps hR) fun _ => ?_
  refine .iteOf (fun h => (tidy_cmdRm (hchange (by decide) h) rest).keeps hR) fun _ => ?_
  refine .iteOf (fun h => (tidy_cmdMkdir (hchange (by decide) h) rest).keeps hR) fun _ => ?_
  refine .iteOf (fun h => ?_) fun _ => ?_
  · -- `cp`
    exact .bind hR ((tidy_cmdCp (hchange (by decide) h) turns rest).keeps hR) fun _ => .pure hR ()
  refine .iteOf (fun h => (tidy_cmdMv (hchange (by decide) h) turns rest).keeps hR) fun _ => ?_
  refine .iteOf (fun h => (tidy_cmdTouch (hchange (by decide) h) rest).keeps hR) fun _ => ?_
  refine .iteOf (fun _ => (tidy_cmdStat hp rest).keeps hR) fun _ => ?_
  refine .iteOf (fun _ => (tidy_cmdWhoami hp).keeps hR) fun _ => ?_
  refine .iteOf (fun _ => (tidy_cmdUname hp).keeps hR) fun _ => ?_
  refine .iteOf (fun _ => (tidy_writeRaw hp _).keeps hR) fun _ => ?_
  refine .iteOf (fun _ => (tidy_cmdExit hp).keeps hR) fun _ => ?_
  refine .iteOf (fun _ => (tidy_jobList hp).keeps hR) fun _ => ?_
  refine .iteOf (fun _ => keeps_cmdFg hp hR rest) fun _ => ?_
  refine .iteOf (fun _ => keeps_cmdBg hp hR rest) fun _ => ?_
  refine .iteOf (fun h => ?_) fun _ => ?_
  · -- `exec`
    have hmem : cmd ∈ SCRIPTING := by
      rw [h]
      decide
    exact keeps_cmdExec (hchange (by decide) h) hR turns (hscripting hmem) rest
  refine .iteOf (fun h => keeps_cmdRun (hchange (by decide) h) hR turns rest) fun _ => ?_
  refine .iteOf (fun h => ?_) fun _ => ?_
  · -- `source`
    have hmem : cmd ∈ SCRIPTING := by
      rcases h with rfl | rfl
      · decide
      · decide
    cases rest with
    | nil => exact (tidy_writeError hp _).keeps hR
    | cons arg args => exact hscripting hmem arg
  refine .iteOf (fun _ => (tidy_cmdDate hp).keeps hR) fun _ => ?_
  refine .iteOf (fun _ => (tidy_cmdVer hp).keeps hR) fun _ => ?_
  -- The name is not known.
  refine Tidy.keeps hR (.of_wp fun Q g s => ?_)
  simp only [wp_bind, wp_writeRaw hp]

section
variable (hpol : ∀ c, policy c) (turns : Nat)
include hpol

/-- The builtins extend the process, if scripts do. Scripts are a parameter here, since a script
calls back into the shell. -/
theorem keeps_dispatch {doScript : Bytes → Sh Unit}
    (hscript : ∀ input, Keeps policy Extends (doScript input)) (args : List Bytes) :
    Keeps policy Extends (dispatch turns doScript args) := by
  have hp : policy.Lenient := fun c _ => hpol c
  refine .bind frame_extends (keeps_jobReap hp frame_extends turns) fun _ => ?_
  cases args with
  | nil => exact .pure frame_extends ()
  | cons cmd rest =>
    exact keeps_runCommand hp frame_extends turns (fun _ => hpol) (fun _ => hscript) rest

/-- A line with an operator in it. -/
theorem keeps_runPipeline {doScript : Bytes → Sh Unit}
    (hscript : ∀ input, Keeps policy Extends (doScript input)) (line : Bytes) :
    Keeps policy Extends (runPipeline turns doScript line) :=
  keeps_execute hpol (keeps_dispatch hpol turns hscript) turns _ _

/-- A line of words. -/
theorem keeps_runWords {doScript : Bytes → Sh Unit}
    (hscript : ∀ input, Keeps policy Extends (doScript input)) (line : Bytes) :
    Keeps policy Extends (runWords turns doScript line) := by
  have hp : policy.Lenient := fun c _ => hpol c
  refine .ite (.pure frame_extends ()) ?_
  refine .bind frame_extends ((tidy_expandTokens hp line _ _).keeps frame_extends) fun args => ?_
  exact keeps_dispatch hpol turns hscript args

/-- A line of a script, with or without operators. -/
theorem keeps_executeLine {doScript : Bytes → Sh Unit}
    (hscript : ∀ input, Keeps policy Extends (doScript input)) (line : Bytes) :
    Keeps policy Extends (executeLine turns doScript line) := by
  intro Q g s hfine hQ
  show wp (conduct policy) (if hasOp (expand g.env line) then _ else _) Q g s
  exact Keeps.ite (keeps_runPipeline hpol turns hscript _) (keeps_runWords hpol turns hscript _) Q g
    s hfine hQ

/-! ### Scripts -/

/-- A script reads its file to the end, whatever its lines do in between. -/
theorem wp_readScript {runLine : Bytes → Sh Unit}
    (hline : ∀ line, Keeps policy Extends (runLine line)) {s₀ : Proc} {fd : Nat} (hfd : fd ∈ s₀.fds)
    (hlt : 2 < fd) (hfine : Fine g s) (hext : Extends s₀ s) {Q : Bytes → Globals → Proc → Prop}
    (hQ : ∀ line g' s', Fine g' s' → Extends s₀ s' → Q line g' s') :
    wp (conduct policy) (readScript turns fd runLine) Q g s := by
  have hp : policy.Lenient := fun c _ => hpol c
  refine Routine.wp_loop (fun _ g' s' => Fine g' s' ∧ Extends s₀ s') ?_ ⟨hfine, hext⟩ turns
  -- The lines may open descriptors and start children, but the one of the script stays open.
  rintro line g' s' ⟨hfine', hext'⟩
  rw [wp_bind]
  refine wp_read hp (hext'.fds hfd) hlt ?_
  intro a _
  simp only
  split
  · exact hQ line g' s' hfine' hext'
  · split
    · rw [wp_bind]
      refine Keeps.ite (hline line) (.pure frame_extends ()) _ g' s' hfine' ?_
      intro _ g'' s'' hfine'' hrel
      exact ⟨hfine'', frame_extends.trans hext' hrel⟩
    · split
      · exact ⟨hfine', hext'⟩
      · exact ⟨hfine', hext'⟩

/-- The lines of a script one after the other. The file stays open while they run, and is closed
behind the last of them. -/
theorem keeps_doScriptInner {runLine : Bytes → Sh Unit}
    (hline : ∀ line, Keeps policy Extends (runLine line)) (input : Bytes) :
    Keeps policy Extends (doScriptInner turns runLine input) := by
  have hp : policy.Lenient := fun c _ => hpol c
  refine .bind frame_extends ((tidy_resolve hp input).keeps frame_extends) fun r => ?_
  cases r with
  | none => exact (tidy_writeError hp _).keeps frame_extends
  | some abs =>
    intro Q g s hfine hQ
    show wp (conduct policy) (sys (.sysOpen _ _) >>= _) Q g s
    rw [wp_bind]
    refine wp_sysOpen (hp _ rfl) ?_ ?_
    · intro a ha
      rw [if_pos ha]
      exact (tidy_writeErrorErrno hp _ _).keeps frame_extends Q g s hfine hQ
    · intro a ha hfree
      have hlt := hfine.standard.lt_of_notMem hfree.1
      have hopen := extends_withFd s a.ret.toNat
      rw [if_neg (Int.not_lt.mpr ha), wp_bind]
      refine wp_readScript hpol turns hline (s.mem_withFd _) hlt (hfine.extends hopen)
        (frame_extends.refl _) ?_
      intro line g' s' hfine' hext'
      rw [wp_bind]
      refine Keeps.ite (hline line) (.pure frame_extends ()) _ g' s' hfine' ?_
      intro _ g'' s'' hfine'' hrel
      -- The lines have not closed the script.
      have hext'' := frame_extends.trans hext' hrel
      rw [wp_bind]
      refine wp_close hp (hext''.fds (s.mem_withFd _)) hlt ?_
      intro _
      refine hQ () g'' _ (hfine''.withoutFd hlt) ⟨?_, hext''.generation, hext''.children⟩
      intro n hn
      refine Finset.mem_erase.mpr ⟨?_, hext''.fds (hopen.fds hn)⟩
      rintro rfl
      exact hfree.1 hn

/-- **Scripts keep the process**, by induction on their nesting. -/
theorem keeps_doScript (budget : Nat) (input : Bytes) :
    Keeps policy Extends (doScript turns budget input) := by
  have hp : policy.Lenient := fun c _ => hpol c
  induction budget generalizing input with
  | zero => exact fun Q g s _ _ => trivial
  | succ budget ih =>
    intro Q g s hfine hQ
    show wp (conduct policy) (if g.scriptDepth ≥ SCRIPT_DEPTH_MAX then _ else _) Q g s
    split
    · exact (tidy_writeError hp _).keeps frame_extends Q g s hfine hQ
    · have hinner := keeps_doScriptInner hpol turns (keeps_executeLine hpol turns ih) input
      have hmodify : Keeps policy Extends
          (modify fun g => { g with scriptDepth := g.scriptDepth - 1 } : Sh PUnit) :=
        keeps_modify frame_extends fun g => List.Subset.refl _
      have hrest := Keeps.bind frame_extends hinner fun _ => hmodify
      exact hrest Q { g with scriptDepth := g.scriptDepth + 1 } s
        (hfine.of_jobs (List.Subset.refl _)) hQ

/-- A script at any depth, by induction on the depth that is left. -/
theorem keeps_source (input : Bytes) : Keeps policy Extends (source turns input) :=
  keeps_doScript hpol turns _ input

/-! ### Lines of the prompt -/

/-- A line of the prompt after its history references. -/
theorem keeps_evalText (line : Bytes) : Keeps policy Extends (evalText turns line) := by
  have hscript := keeps_source hpol turns
  refine .ite (.pure frame_extends ()) (.ite ?_ ?_)
  · refine .bind frame_extends (keeps_modify frame_extends fun g => List.Subset.refl _) fun _ => ?_
    exact keeps_runPipeline hpol turns hscript line
  · intro Q g s hfine hQ
    show wp (conduct policy) (if expand g.env line = [] then _ else _) Q g s
    split
    · exact hQ () g s hfine (frame_extends.refl s)
    · exact keeps_runWords hpol turns hscript (expand g.env line) Q _ s
        (hfine.of_jobs (List.Subset.refl _)) hQ

/-- A line of the prompt. -/
theorem keeps_evalLine (raw : Bytes) : Keeps policy Extends (evalLine turns raw) := by
  have hp : policy.Lenient := fun c _ => hpol c
  refine .ite (.pure frame_extends ()) ?_
  intro Q g s hfine hQ
  have hmessages : Keeps policy Extends ((historyExpand g.history raw).2.forM writeError) :=
    .forM frame_extends fun msg _ => (tidy_writeError hp msg).keeps frame_extends
  exact Keeps.bind frame_extends hmessages (fun _ => keeps_evalText hpol turns _) Q g s hfine hQ

end

end OnyxShell.Process
