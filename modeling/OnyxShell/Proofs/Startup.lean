import OnyxShell.Proofs.Eval
import OnyxShell.Proofs.Features.EnvTable
import OnyxShell.Startup

/-!
# `OnyxShell.Proofs.Startup`: where the two ways to start a script agree

A script that gets no `env_init` finds no `HOME` and no `PATH`. `startsAlike` says that this
makes no difference to a run that does not look at them while they differ.

One line that reads the same in two environments comes to the same, programs included
(`executeLine_alike`, `lineEvent_alike`, `nestedScript_alike`). `Alike` is the invariant of the
two runs: the same steps, and environments that the same calls have made. `readScript_eq` ties
the lines of a script to the loop that reads them.
-/

set_option autoImplicit false

namespace OnyxShell

variable {ω : Type} {m : Machine ω} {e e' : Env} {w : ω} {line : Bytes}

/-! ### One line -/

/-- Lines whose variables have the same values are expanded the same. -/
theorem expandVars_alike (h : ∀ name ∈ variableNames line, e.value name = e'.value name) :
    expandVars e line = expandVars e' line := by
  apply Finder.run_congr
  intro out name spelled hmem
  have hname : name ∈ variableNames line := List.mem_filterMap.mpr ⟨_, hmem, rfl⟩
  exact congrArg out.extendFromSlice (h name hname)

/-- Lines without a `~` for the home directory are expanded the same. -/
theorem expandTilde_alike (h : ReadsHome line → e.home = e'.home) :
    expandTilde e line = expandTilde e' line := by
  have hfind : tildeAt e line = tildeAt e' line := by
    funext i
    rw [tildeAt, tildeAt]
    split
    · rename_i htilde
      -- Only a tilde without a user name stands for the home directory.
      by_cases hlone : Scan.scanWhile isUserByte line (i + 1) = i + 1
      · have hi := (List.getElem?_eq_some_iff.mp htilde.1).1
        simp only [if_pos hlone]
        rw [show (e.get (bytes "HOME")).getD (bytes "/users/root") = e'.home from
          h ⟨i, hi, htilde.1, htilde.2, hlone⟩]
        rfl
      · simp only [if_neg hlone]
    · rfl
  have hfinder : tildeFinder e line = tildeFinder e' line := by
    rw [tildeFinder, tildeFinder, Finder.mk.injEq]
    exact hfind
  rw [expandTilde, expandTilde, hfinder]

/-- **A line that reads the same comes to the same.** -/
theorem executeLine_alike (h : ReadsAlike m e e' w line) :
    executeLine e (m.listing w) line = executeLine e' (m.listing w) line := by
  have hexpand : expand e line = expand e' line := by
    rw [expand, expand, expandVars_alike h.vars, expandTilde_alike h.home]
  rw [executeLine, executeLine, hexpand]

/-- The search looks at the parts of `PATH` and at nothing else of the environment. -/
theorem searchDirs_around (e e' : Env) (cmd : Bytes) (dirs : List Bytes) :
    searchDirs (m.around e w) cmd dirs = searchDirs (m.around e' w) cmd dirs := by
  induction dirs with
  | nil => rfl
  | cons dir rest ih =>
    rw [searchDirs, searchDirs, ih]
    rfl

/-- No program is selected where no directory has one. -/
theorem searchDirs_eq_none {around : Surroundings} {cmd : Bytes} {dirs : List Bytes}
    (h : ∀ dir ∈ dirs, ∀ abs ∈ resolve around.getcwd dir,
      around.stat (cString (cmdInDir abs cmd)) = false) : searchDirs around cmd dirs = none := by
  induction dirs with
  | nil => rfl
  | cons dir rest ih =>
    have hrest := ih fun d hd => h d (List.mem_cons_of_mem _ hd)
    rw [searchDirs]
    split
    · exact hrest
    · split
      · exact hrest
      · rename_i abs habs
        have hstat := h dir List.mem_cons_self abs habs
        split
        · rfl
        · rw [if_neg (by rw [hstat]; decide), hrest]

/-- A `PATH` that is not set is searched as an empty one. -/
theorem searchPath_eq (around : Surroundings) (cmd : Bytes) :
    searchPath around cmd = if '/'.toUInt8 ∈ cmd then none
      else searchDirs around cmd ((around.env.value (bytes "PATH")).splitOn ':'.toUInt8) := by
  rw [searchPath, Env.value]
  cases around.env.get (bytes "PATH") with
  | none =>
    have hempty : searchDirs around cmd (([] : Bytes).splitOn ':'.toUInt8) = none := by
      rw [List.splitOn_nil, searchDirs, if_pos rfl, searchDirs]
    rw [Option.bind_none, Option.getD_none, hempty, ite_self]
  | some pathVar => rfl

/-- A program that both environments find, or neither. -/
theorem searchPath_alike {name : Bytes}
    (h : '/'.toUInt8 ∈ name ∨ e.value (bytes "PATH") = e'.value (bytes "PATH") ∨
      NotInPath (m.around e w) name ∧ NotInPath (m.around e' w) name) :
    searchPath (m.around e w) name = searchPath (m.around e' w) name := by
  rw [searchPath_eq, searchPath_eq]
  rcases h with hslash | hvalue | ⟨hnone, hnone'⟩
  · rw [if_pos hslash, if_pos hslash]
  · rw [show (m.around e w).env.value (bytes "PATH") = (m.around e' w).env.value (bytes "PATH")
      from hvalue, searchDirs_around e e']
  · rw [searchDirs_eq_none hnone, searchDirs_eq_none hnone']

/-- The same programs are selected for a line. -/
theorem lineEvent_alike {a : Action}
    (h : ∀ name ∈ a.programNames,
      searchPath (m.around e w) name = searchPath (m.around e' w) name) :
    lineEvent (m.around e w) a = lineEvent (m.around e' w) a := by
  rw [lineEvent, lineEvent, List.map_congr_left h]

/-- A command of the shell process is one of the action. -/
theorem Action.mem_argLists_of_own {a : Action} {args : List Bytes} (h : a.own = some args) :
    args ∈ a.argLists := by
  cases a with
  | dispatch args' =>
    cases h
    exact List.mem_cons_self
  | nothing => cases h
  | pipeline line p =>
    rw [Action.own] at h
    split at h
    · rename_i seg hsegs
      split at h
      · rename_i hplain
        cases h
        have hseg : seg ≠ [] := fun hnil => hplain.2.2.1 (congrArg List.length hnil)
        rw [Action.argLists, Pipeline.commands, hsegs, List.filter_cons_of_pos (by simpa using hseg)]
        exact List.mem_cons_self
      · cases h
    · cases h

/-- The same script is run in the shell process. -/
theorem nestedScript_alike {a : Action}
    (h : ∀ name ∈ a.programNames,
      searchPath (m.around e w) name = searchPath (m.around e' w) name) :
    a.own.bind (nestedScript (m.around e w)) = a.own.bind (nestedScript (m.around e' w)) := by
  cases hown : a.own with
  | none => rfl
  | some args =>
    rw [Option.bind_some, Option.bind_some]
    rcases args with _ | ⟨cmd, _ | ⟨name, rest⟩⟩
    · rfl
    · rfl
    · rw [nestedScript, nestedScript]
      split
      · rfl
      · split
        · -- `exec` finds its script through `PATH`, so its name is one of the programs.
          rename_i hexec
          have hname : name ∈ a.programNames :=
            List.mem_filterMap.mpr ⟨_, Action.mem_argLists_of_own hown, by simp [hexec]⟩
          have hresolve : resolveCmdPath (m.around e w) name = resolveCmdPath (m.around e' w) name := by
            rw [resolveCmdPath, resolveCmdPath, h name hname]
            rfl
          rw [execScript, execScript, hresolve]
          rfl
        · rfl

/-- A command that runs a script in the shell process changes no variable itself. -/
theorem envCalls_of_nested {around : Surroundings} {a : Action} {path : Bytes} {back : Bool}
    (h : a.own.bind (nestedScript around) = some (path, back)) : a.envCalls = [] := by
  rw [Action.envCalls]
  cases hown : a.own with
  | none => rfl
  | some args =>
    rw [hown, Option.bind_some] at h
    rcases args with _ | ⟨cmd, _ | ⟨name, rest⟩⟩
    · rfl
    · cases h
    · have hcmd : cmd = bytes "source" ∨ cmd = bytes "." ∨ cmd = bytes "exec" := by
        rw [nestedScript] at h
        split at h
        · rename_i hsource
          exact hsource.imp_right Or.inl
        · split at h
          · rename_i hexec
            exact Or.inr (Or.inr hexec)
          · cases h
      simp only
      rw [if_neg (by rcases hcmd with rfl | rfl | rfl <;> decide),
        if_neg (by rcases hcmd with rfl | rfl | rfl <;> decide)]

/-! ### The script loop -/

/-- The loop of `do_script_inner` evaluates the lines of the script, in order. -/
theorem readScript_eq (c : ScriptSetting)
    (call : Bytes → Shell ScriptWorld → Option (Shell ScriptWorld)) (content line : Bytes)
    (s : Shell ScriptWorld) :
    readScript c call content line s
      = (scriptLines content line).foldlM (fun s line => runScriptLine c call line s) s := by
  have hcollected : ∀ line s, runCollected c call line s
      = (collected line).foldlM (fun s line => runScriptLine c call line s) s := by
    intro line s
    rw [runCollected, collected]
    split
    · rw [List.foldlM_cons]
      exact (Option.bind_fun_some _).symm
    · rfl
  -- The bytes in the buffer go from turn to turn.
  induction content generalizing line s with
  | nil => exact hcollected line s
  | cons b rest ih =>
    rw [readScript, scriptLines]
    split
    · rw [List.foldlM_append, ← hcollected]
      cases runCollected c call line s with
      | none => rfl
      | some s' => exact ih [] s'
    · split
      · exact ih (line ++ [b]) s
      · exact ih line s

/-- The scripts that the shell process sources are among its own commands. -/
theorem sourced_eq_own (a : Action) : a.sourced = a.own.bind sourceArgs := by
  cases a with
  | dispatch args => rfl
  | nothing => rfl
  | pipeline line p =>
    rw [Action.sourced, Action.own]
    rcases p.segments with _ | ⟨seg, _ | ⟨seg', segs⟩⟩
    · rfl
    · dsimp only
      split
      · rfl
      · rfl
    · rfl

/-! ### The runs -/

/-- The environment behind the steps of a run. -/
def envAfter (e : Env) (steps : List (Step ω)) : Env :=
  steps.foldl (fun e s => e.run s.event.action.envCalls) e

/-- The environment behind one more step. -/
theorem envAfter_concat (e : Env) (steps : List (Step ω)) (s : Step ω) :
    envAfter e (steps ++ [s]) = (envAfter e steps).run s.event.action.envCalls := by
  rw [envAfter, envAfter, List.foldl_append]
  rfl

/-- What holds of the lines of a run holds of those up to some line, and of the rest. -/
theorem allReadAlike_append {front back : List (Step ω)} {e e' : Env} :
    AllReadAlike m e e' (front ++ back) ↔
      AllReadAlike m e e' front ∧ AllReadAlike m (envAfter e front) (envAfter e' front) back := by
  induction front generalizing e e' with
  | nil => exact (iff_of_eq (true_and _)).symm
  | cons s front ih =>
    show ReadsAlike m e e' s.world s.line ∧ AllReadAlike m _ _ (front ++ back) ↔ _
    rw [ih, ← and_assoc]
    rfl

/-- Two runs of the same steps, but for the first ones of the second run, from environments
`e` and `e'`. -/
structure Alike (e e' : Env) (first : List (Step ω)) (r r' : ScriptRun ω) : Prop where
  world : r'.world = r.world
  live : r'.live = r.live
  steps : r'.steps = first ++ r.steps
  env : r.env = envAfter e r.steps
  env' : r'.env = envAfter e' r.steps

/-- A nested script adds steps. The steps of a run are a record of the lines that have been
evaluated, and nothing is taken from it. -/
def Grows (doScript : Bytes → ScriptRun ω → ScriptRun ω) : Prop :=
  ∀ path r, r.steps <+: (doScript path r).steps

/-- A nested script keeps the runs alike, if its lines read the same. -/
def KeepsAlike (m : Machine ω) (e e' : Env) (first : List (Step ω))
    (doScript : Bytes → ScriptRun ω → ScriptRun ω) : Prop :=
  ∀ path r r', Alike e e' first r r' → AllReadAlike m e e' (doScript path r).steps →
    Alike e e' first (doScript path r) (doScript path r')

section

variable {doScript : Bytes → ScriptRun ω → ScriptRun ω} {first : List (Step ω)}
  {r r' : ScriptRun ω}

/-- A line adds its step, and those of a script that it runs. -/
theorem steps_performLine (hgrow : Grows doScript) (a : Action) (r : ScriptRun ω) :
    r.steps ++ [⟨line, r.world, lineEvent (m.around r.env r.world) a⟩]
      <+: (performLine m doScript line a r).steps := by
  rw [performLine]
  split
  · exact List.prefix_refl _
  · split
    · rename_i path back _
      exact hgrow path { r with steps := r.steps ++ [⟨line, r.world, _⟩] }
    · exact List.prefix_refl _

/-- A line adds steps to the run and changes none of those before. -/
theorem steps_evaluateLine (hgrow : Grows doScript) (line : Bytes) (r : ScriptRun ω) :
    r.steps <+: (evaluateLine m doScript line r).steps := by
  rw [evaluateLine]
  split
  · exact (List.prefix_append _ _).trans (steps_performLine hgrow _ r)
  · exact List.prefix_refl _

/-- So do lines one after the other. -/
theorem steps_foldl (hgrow : Grows doScript) (lines : List Bytes) (r : ScriptRun ω) :
    r.steps <+: (lines.foldl (fun r line => evaluateLine m doScript line r) r).steps := by
  induction lines generalizing r with
  | nil => exact List.prefix_refl _
  | cons line lines ih => exact (steps_evaluateLine hgrow line r).trans (ih _)

/-- So does a script, by induction on the depth that is left. -/
theorem grows_evaluateScript (m : Machine ω) (room : Nat) : Grows (evaluateScript m room) := by
  induction room with
  | zero => exact fun _ _ => List.prefix_refl _
  | succ room ih =>
    intro input r
    rw [evaluateScript]
    split
    · exact List.prefix_refl _
    · split
      · exact List.prefix_refl _
      · rename_i content w _
        exact steps_foldl ih (scriptLines content []) { r with world := w }

/-- The step of a line reads the same, if all steps of the run do. -/
theorem readsAlike_of_step (h : Alike e e' first r r') {steps : List (Step ω)}
    {event : LineEvent} (hfront : r.steps ++ [⟨line, r.world, event⟩] <+: steps)
    (hall : AllReadAlike m e e' steps) : ReadsAlike m r.env r'.env r.world line := by
  rcases hfront with ⟨rest, rfl⟩
  rw [h.env, h.env']
  exact (allReadAlike_append.mp (allReadAlike_append.mp hall).1).2.1

/-- A step that makes no calls. -/
theorem Alike.step (h : Alike e e' first r r') {s : Step ω} (hcalls : s.event.action.envCalls = []) :
    Alike e e' first { r with steps := r.steps ++ [s] } { r' with steps := r'.steps ++ [s] } where
  world := h.world
  live := h.live
  steps := by rw [h.steps, List.append_assoc]
  env := by
    rw [envAfter_concat, hcalls]
    exact h.env
  env' := by
    rw [envAfter_concat, hcalls]
    exact h.env'

/-- A line that reads the same, and whose script does, keeps the runs alike. -/
theorem performLine_alike (hkeep : KeepsAlike m e e' first doScript) (h : Alike e e' first r r')
    (hread : ReadsAlike m r.env r'.env r.world line)
    (hall : AllReadAlike m e e'
      (performLine m doScript line (executeLine r.env (m.listing r.world) line) r).steps) :
    Alike e e' first
      (performLine m doScript line (executeLine r.env (m.listing r.world) line) r)
      (performLine m doScript line (executeLine r'.env (m.listing r'.world) line) r') := by
  rcases r with ⟨env, w, steps, live⟩
  rcases r' with ⟨env', w', steps', live'⟩
  obtain rfl : w' = w := h.world
  obtain rfl : live' = live := h.live
  have hpaths := fun name hname => searchPath_alike (hread.path name hname)
  have hevent := lineEvent_alike hpaths
  have hnested := nestedScript_alike hpaths
  have hhanded := fun hout => Env.eq_of_entries (hread.handed hout)
  rw [performLine] at hall ⊢
  rw [performLine, ← executeLine_alike hread]
  simp only at hall hevent hnested hhanded ⊢
  -- From here on both runs perform the same action `a`.
  generalize executeLine env (m.listing w') line = a at hall hevent hnested hhanded ⊢
  rw [← hevent, ← hnested]
  have hstep := fun hcalls => h.step (s := ⟨line, w', lineEvent (m.around env w') a⟩) hcalls
  by_cases hnothing : a = .nothing
  · simp only [if_pos hnothing]
    apply hstep
    show a.envCalls = []
    rw [hnothing]
    rfl
  · simp only [if_neg hnothing] at hall ⊢
    split
    · -- A script in the shell process.
      rename_i path back hpath
      simp only [hpath] at hall
      have hrun := hkeep path _ _ (hstep (envCalls_of_nested hpath)) hall
      exact ⟨hrun.world, congrArg (· && back) hrun.live, hrun.steps, hrun.env, hrun.env'⟩
    · -- Any other line: its effect sees the environment only if a child gets it.
      refine ⟨?_, rfl, ?_, ?_, ?_⟩
      · show m.effect _ (if a.handsOutEnv then some env' else none) w' = m.effect _ _ w'
        by_cases hout : a.handsOutEnv = true
        · rw [hhanded hout]
        · rw [if_neg hout, if_neg hout]
      · show steps' ++ _ = first ++ (steps ++ _)
        rw [show steps' = first ++ steps from h.steps, List.append_assoc]
      · show env.run a.envCalls = envAfter e (steps ++ [⟨line, w', lineEvent _ a⟩])
        rw [envAfter_concat, ← show env = envAfter e steps from h.env]
        rfl
      · show env'.run a.envCalls = envAfter e' (steps ++ [⟨line, w', lineEvent _ a⟩])
        rw [envAfter_concat, ← show env' = envAfter e' steps from h.env']
        rfl

/-- An evaluated line keeps the runs alike. -/
theorem evaluateLine_alike (hkeep : KeepsAlike m e e' first doScript) (hgrow : Grows doScript)
    (h : Alike e e' first r r')
    (hall : AllReadAlike m e e' (evaluateLine m doScript line r).steps) :
    Alike e e' first (evaluateLine m doScript line r) (evaluateLine m doScript line r') := by
  rw [evaluateLine] at hall ⊢
  rw [evaluateLine, h.live]
  split
  · rename_i hlive
    rw [if_pos hlive] at hall
    exact performLine_alike hkeep h (readsAlike_of_step h (steps_performLine hgrow _ r) hall) hall
  · exact h

/-- The lines of a script keep the runs alike. -/
theorem foldl_alike (hkeep : KeepsAlike m e e' first doScript) (hgrow : Grows doScript)
    (lines : List Bytes) (h : Alike e e' first r r')
    (hall : AllReadAlike m e e'
      (lines.foldl (fun r line => evaluateLine m doScript line r) r).steps) :
    Alike e e' first (lines.foldl (fun r line => evaluateLine m doScript line r) r)
      (lines.foldl (fun r line => evaluateLine m doScript line r) r') := by
  induction lines generalizing r r' with
  | nil => exact h
  | cons line lines ih =>
    -- The steps of the first line are the front of those of all lines.
    rcases steps_foldl hgrow lines (evaluateLine m doScript line r) with ⟨rest, hrest⟩
    have hfront : AllReadAlike m e e' (evaluateLine m doScript line r).steps := by
      rw [List.foldl_cons, ← hrest] at hall
      exact (allReadAlike_append.mp hall).1
    exact ih (evaluateLine_alike hkeep hgrow h hfront) hall

end

/-- **Scripts keep the runs alike**, by induction on the room for nested ones. -/
theorem evaluateScript_alike (first : List (Step ω)) (room : Nat) :
    KeepsAlike m e e' first (evaluateScript m room) := by
  induction room with
  | zero => exact fun _ _ _ h _ => h
  | succ room ih =>
    intro input r r' h hall
    rw [evaluateScript] at hall ⊢
    rw [evaluateScript, h.world]
    split
    · exact h
    · rename_i abs habs
      rw [habs] at hall
      simp only at hall
      split
      · exact h
      · rename_i content w hopen
        rw [hopen] at hall
        have hopened : Alike e e' first { r with world := w } { r' with world := w } :=
          ⟨rfl, h.live, h.steps, h.env, h.env'⟩
        have hrun := foldl_alike ih (grows_evaluateScript m room) (scriptLines content []) hopened
          hall
        exact ⟨congrArg m.closeScript hrun.world, hrun.live, hrun.steps, hrun.env, hrun.env'⟩

/-! ### The two starts -/

/-- The first line of the interactive shell is a `source` of the script. -/
theorem action_source {name : Bytes} (hword : IsPlainWord name) (hlen : name.length ≤ 127)
    (listing : Listing) :
    (evalLine Env.init listing History.init (wordLine [bytes "source", name] none)).action
      = .dispatch [bytes "source", name] := by
  have hwords : ∀ w ∈ [bytes "source", name], IsPlainWord w := by
    intro w hw
    rcases List.mem_cons.mp hw with rfl | hw
    · decide +kernel
    · rw [List.mem_singleton.mp hw]
      exact hword
  have hline : (wordLine [bytes "source", name] none).length ≤ VEC_CAP := by
    have heq : wordLine [bytes "source", name] none = bytes "source " ++ name := by
      simp [wordLine, bytes]
    rw [heq, List.length_append]
    show 7 + name.length ≤ 256
    omega
  rw [(plainLine_wordLine hwords).action, List.take_of_length_le hline, lineWords_wordLine hwords,
    if_neg (List.cons_ne_nil _ _)]
  refine congrArg Action.dispatch (take_words (Nat.le_add_left 2 14) ?_)
  intro w hw
  rcases List.mem_cons.mp hw with rfl | hw
  · decide
  · rw [List.mem_singleton.mp hw]
    exact hlen

/-- **A script that never looks at what `env_init` sets runs the same** on its own and from a
fresh shell. On its own the script starts with an empty environment, and in a fresh shell with
`HOME` and `PATH`. Line by line the two runs stay alike (`evaluateScript_alike`), in what they
have done and in the changes made to the two environments; `source` is one step more in the second
run, and is left out of the comparison. -/
theorem startsAlike (m : Machine ω) (name : Bytes) (w : ω) (hword : IsPlainWord name)
    (hlen : name.length ≤ 127)
    (hread : AllReadAlike m Env.empty Env.init (startScript m name w).steps) :
    StartsAlike m name w := by
  have hname : (cString name).take 255 = name := by
    rw [cString_eq_self fun h0 => (hword.2.1 0 h0).1 rfl]
    exact List.take_of_length_le (by omega)
  rw [startScript, hname] at hread
  -- The `source` itself is a step of the second run only.
  let first : Step ω := ⟨wordLine [bytes "source", name] none, w,
    lineEvent (m.around Env.init w) (.dispatch [bytes "source", name])⟩
  have hrun := evaluateScript_alike [first] SCRIPT_DEPTH_MAX name ⟨Env.empty, w, [], true⟩
    ⟨Env.init, w, [first], true⟩ ⟨rfl, rfl, rfl, rfl, rfl⟩ hread
  have hsteps : (startLine m (wordLine [bytes "source", name] none) w).steps
      = first :: (evaluateScript m SCRIPT_DEPTH_MAX name ⟨Env.empty, w, [], true⟩).steps := by
    rw [startLine, action_source hword hlen, performLine, if_neg (fun h => by cases h)]
    exact hrun.steps
  rw [StartsAlike, startScript, hname, ScriptRun.evaluated, hsteps, List.map_cons,
    List.filter_cons_of_pos (by simp [first, lineEvent])]
  rfl

/-- One script, `/bin/ls`, and lines that change nothing. -/
def oneScript (content : Bytes) : Machine Unit where
  getcwd _ := some (bytes "/")
  stat _ path := path = bytes "/bin/ls"
  contents _ _ := none
  listing _ _ := []
  openScript _ w := some (content, w)
  closeScript w := w
  effect _ _ w := w
  returns _ _ := true

/-- A script that sets both variables first. -/
theorem startsAlike_export :
    StartsAlike (oneScript (bytes "export HOME=/x PATH=/bin\necho ~ $HOME\nrun ls\nset > f\n"))
      (bytes "f") () :=
  startsAlike _ (bytes "f") () (by decide +kernel) (by decide +kernel) (by decide +kernel)

/-- A script without a `HOME` and without a `PATH`. -/
theorem not_startsAlike_echo_home :
    let m := oneScript (bytes "echo $HOME\nrun ls\n")
    (startScript m (bytes "f") ()).evaluated
      = [⟨.dispatch [bytes "echo"], []⟩, ⟨.dispatch [bytes "run", bytes "ls"], [none]⟩] ∧
    (startLine m (bytes "source f") ()).evaluated
      = [⟨.dispatch [bytes "source", bytes "f"], []⟩,
        ⟨.dispatch [bytes "echo", bytes "/users/root"], []⟩,
        ⟨.dispatch [bytes "run", bytes "ls"], [some (bytes "/bin/ls")]⟩] ∧
    ¬StartsAlike m (bytes "f") () := by
  refine ⟨by decide +kernel, by decide +kernel, ?_⟩
  unfold StartsAlike
  decide +kernel

end OnyxShell
