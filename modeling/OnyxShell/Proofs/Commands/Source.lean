import OnyxShell.Commands.Source
import OnyxShell.Proofs.Pipeline.Exec
import OnyxShell.Proofs.Pipeline.Spelling

/-!
# `OnyxShell.Proofs.Commands.Source`: scripts end, and leave nothing open

`perform_sourced` and `perform_same` say which actions come to `cmd_source`: those that
`Action.sourced` picks out, and no others.

`Unwinds` is what a stretch of a run does to the nesting of scripts. A line unwinds when the
call in it does (`returns_runScriptLine`), so does a script (`returns_readScript`, by
induction on its unread rest), and so does `do_script` (`returns_doScript`, by induction on
the budget of nested calls). `doScript_unwinds` puts these together: a budget above the
remaining depth is enough, and its size does not matter.
-/

set_option autoImplicit false

namespace OnyxShell

/-! ### The lines that come to `source` -/

section Sourced

variable {σ : Type} {commands commands' : Commands σ} {answers : Answers}

/-- A `source` command is one by its first word. -/
theorem sourceArgs_eq_some {args args' : List Bytes} (h : sourceArgs args = some args') :
    args' = args ∧ ∃ cmd rest, args = cmd :: rest ∧ (cmd = bytes "source" ∨ cmd = bytes ".") := by
  rw [sourceArgs] at h
  split at h
  · rename_i hhead
    cases h
    cases args with
    | nil => simp at hhead
    | cons cmd rest => exact ⟨rfl, cmd, rest, rfl, by simpa using hhead⟩
  · cases h

/-- The arguments of an action that sources are those of the command. -/
theorem sourceArgs_of_sourced {a : Action} {args : List Bytes} (h : a.sourced = some args) :
    sourceArgs args = some args := by
  have hself : ∀ {args'}, sourceArgs args' = some args → sourceArgs args = some args := by
    intro args' h
    have heq : args = args' := (sourceArgs_eq_some h).1
    rw [← heq] at h
    exact h
  cases a with
  | dispatch args' => exact hself h
  | pipeline line p =>
    rw [Action.sourced] at h
    split at h
    · split at h
      · exact hself h
      · cases h
    · cases h
  | nothing => cases h

/-- `dispatch` hands `source` on to its function. -/
theorem dispatch_sourced {args args' : List Bytes} (h : sourceArgs args = some args')
    (s : Shell σ) : dispatch commands args s = commands.other args (s.dispatching args) := by
  rcases sourceArgs_eq_some h with ⟨-, cmd, rest, rfl, hcmd⟩
  have hexit : ¬ (cmd = bytes "exit" ∨ cmd = bytes "logout") := by
    rcases hcmd with rfl | rfl <;> decide
  have hbuiltin : isInprocessBuiltin cmd = false := by
    rcases hcmd with rfl | rfl <;> decide
  unfold dispatch
  simp only [hexit, hbuiltin, if_false, Bool.false_eq_true]
  rfl

/-- A sourced action ends in the function of `source`. -/
theorem perform_sourced {a : Action} {args : List Bytes} (h : a.sourced = some args)
    (s : Shell σ) : a.perform commands answers s = commands.other args (s.dispatching args) := by
  cases a with
  | dispatch args' =>
    rw [(sourceArgs_eq_some h).1]
    exact dispatch_sourced h s
  | pipeline line p =>
    rw [Action.sourced] at h
    split at h
    · rename_i seg hsegs
      split at h
      · rename_i hplain
        show execute commands answers line p s = _
        rw [(sourceArgs_eq_some h).1, execute]
        simp only [hsegs, hplain.1, hplain.2.1, and_self, if_true]
        rw [executePlain, if_neg hplain.2.2.1, hplain.2.2.2]
        exact dispatch_sourced h s.jobReap
      · cases h
    · cases h
  | nothing => cases h

/-- The commands do the same, but for `source`. -/
def SameButSource (commands commands' : Commands σ) : Prop :=
  commands.builtin = commands'.builtin ∧
    ∀ args s, sourceArgs args = none → commands.other args s = commands'.other args s

/-- A command that is no `source` does the same, whatever `source` does. -/
theorem dispatch_same (hsame : SameButSource commands commands') {args : List Bytes}
    (h : sourceArgs args = none) (s : Shell σ) :
    dispatch commands args s = dispatch commands' args s := by
  rcases hsame with ⟨hbuiltin, hother⟩
  unfold dispatch
  cases args with
  | nil => rfl
  | cons cmd rest => simp only [hbuiltin, hother _ _ h]

/-- No in-process builtin is a `source`, also when its name is cut. -/
theorem sourceArgs_of_isInprocessBuiltin {line : Bytes} {a : Span} {rest : List Span}
    (h : isInprocessBuiltin (Span.of line a) = true) :
    sourceArgs (segToArgs line (a :: rest)) = none := by
  have hnames : ∀ cmd ∈ [bytes "cd", bytes "exit", bytes "pwd", bytes "help", bytes "whoami",
      bytes "uname", bytes "ver", bytes "clear", bytes "date"],
      ¬ (some (cmd.take 63) = some (bytes "source") ∨ some (cmd.take 63) = some (bytes ".")) := by
    decide
  have hcmd := hnames _ (List.contains_iff_mem.mp h)
  rw [segToArgs_eq]
  exact if_neg hcmd

/-- Any other action does not come to it. -/
theorem perform_same (hsame : SameButSource commands commands') {a : Action}
    (h : a.sourced = none) (s : Shell σ) :
    a.perform commands answers s = a.perform commands' answers s := by
  cases a with
  | nothing => rfl
  | dispatch args => exact dispatch_same hsame h s
  | pipeline line p =>
    -- With a redirection only a builtin that is no `source` runs in the shell process.
    have hopened : ∀ stdoutFd stdinFd (s : Shell σ),
        executeOpened commands answers line p stdoutFd stdinFd s
          = executeOpened commands' answers line p stdoutFd stdinFd s := by
      intro stdoutFd stdinFd s
      unfold executeOpened
      split
      · rfl
      · split
        · rename_i hbuiltin
          rw [dispatch_same hsame (sourceArgs_of_isInprocessBuiltin hbuiltin)]
        · rfl
      · rfl
    have hredirected : ∀ s : Shell σ, executeRedirected commands answers line p s
        = executeRedirected commands' answers line p s := by
      intro s
      unfold executeRedirected
      simp only [hopened]
    show execute commands answers line p s = execute commands' answers line p s
    unfold execute
    simp only [hredirected]
    split
    · rename_i seg hsegs
      split
      · rename_i hred
        unfold executePlain
        split
        · rfl
        · rename_i hlen
          split
          · rfl
          · rename_i hbg
            refine dispatch_same hsame ?_ _
            rw [Action.sourced] at h
            simp only [hsegs] at h
            rw [if_pos ⟨hred.1, hred.2, hlen, by simpa using hbg⟩] at h
            exact h
      · rfl
    · rfl

end Sourced

variable {c : ScriptSetting} {s s' s₁ : Shell ScriptWorld}

/-- A script line does what the executor does with its action, when `source` is `cmd_source`
there and the other actions do what the parameter says. -/
theorem runScriptLine_eq_perform {commands : Commands ScriptWorld}
    {call : Bytes → Shell ScriptWorld → Option (Shell ScriptWorld)}
    (hsource : ∀ args s, sourceArgs args = some args →
      commands.other args s = cmdSource call args.tail s)
    (hplain : ∀ (a : Action) s, a.sourced = none →
      a.perform commands c.answers s = some (c.perform a s)) (line : Bytes) :
    runScriptLine c call line s =
      (executeLine s.world.terrain.around.env s.world.terrain.listing line).perform commands
        c.answers s := by
  unfold runScriptLine
  simp only
  split
  · rename_i args hsourced
    rw [perform_sourced hsourced, hsource _ _ (sourceArgs_of_sourced hsourced)]
  · rename_i hsourced
    rw [hplain _ _ hsourced]

/-! ### Unwinding -/

section Seen

variable {P : Nesting → Prop} {a b b' : List Nesting}

/-- What is seen in two stretches, one after the other. -/
theorem exists_seen_trans (h : ∃ new, b = a ++ new ∧ ∀ n ∈ new, P n)
    (h' : ∃ new, b' = b ++ new ∧ ∀ n ∈ new, P n) : ∃ new, b' = a ++ new ∧ ∀ n ∈ new, P n := by
  rcases h with ⟨new, rfl, hnew⟩
  rcases h' with ⟨new', rfl, hnew'⟩
  exact ⟨new ++ new', List.append_assoc a new new', List.forall_mem_append.mpr ⟨hnew, hnew'⟩⟩

/-- One change of the nesting is seen. -/
theorem exists_seen_one {n : Nesting} (h : b = a ++ [n]) (hn : P n) :
    ∃ new, b = a ++ new ∧ ∀ n ∈ new, P n :=
  ⟨[n], h, List.forall_mem_singleton.mpr hn⟩

/-- Nothing new is seen. -/
theorem exists_seen_none (h : b = a) : ∃ new, b = a ++ new ∧ ∀ n ∈ new, P n :=
  ⟨[], h.trans (List.append_nil a).symm, fun _ hn => absurd hn List.not_mem_nil⟩

end Seen

/-- The lines that are no `source` leave the descriptors as they find them. -/
def ScriptSetting.LeavesFds (c : ScriptSetting) : Prop :=
  ∀ action s n, (c.plain action s).fds.get n = s.fds.get n

/-- The shell comes back as it went, in its depth and its open scripts, and on the way the
depth was within its bound and at most `limit` scripts were open at once. -/
structure Unwinds (c : ScriptSetting) (limit : Nat) (s s' : Shell ScriptWorld) : Prop where
  depth : s'.world.depth = s.world.depth
  scripts : s'.world.scripts = s.world.scripts
  seen : ∃ new, s'.world.seen = s.world.seen ++ new ∧
    ∀ n ∈ new, n.depth ≤ SCRIPT_DEPTH_MAX ∧ n.openScripts ≤ limit
  fds : c.LeavesFds → ∀ n, s'.fds.get n = s.fds.get n

variable {limit : Nat}

/-- A step that leaves the world of the scripts and the descriptors alone. -/
theorem Unwinds.of_same (hworld : s'.world = s.world) (hfds : s'.fds = s.fds) :
    Unwinds c limit s s' := by
  constructor
  case depth => rw [hworld]
  case scripts => rw [hworld]
  case seen => exact exists_seen_none (by rw [hworld])
  case fds =>
    intro _ n
    rw [hfds]

/-- Two stretches of a run that unwind, one after the other. -/
theorem Unwinds.trans (h : Unwinds c limit s s₁) (h' : Unwinds c limit s₁ s') :
    Unwinds c limit s s' := by
  constructor
  case depth => exact h'.depth.trans h.depth
  case scripts => exact h'.scripts.trans h.scripts
  case seen => exact exists_seen_trans h.seen h'.seen
  case fds =>
    intro hleaves n
    exact (h'.fds hleaves n).trans (h.fds hleaves n)

/-- A line that is no `source`. -/
theorem unwinds_perform (action : Action) (s : Shell ScriptWorld) :
    Unwinds c limit s (c.perform action s) := by
  constructor
  case depth => rfl
  case scripts => rfl
  case seen => exact exists_seen_none rfl
  case fds =>
    intro hleaves n
    exact hleaves action (s.withWorld s.world.terrain) n

/-- The scripts that are open, and as many as may be opened inside. -/
def room (s : Shell ScriptWorld) : Nat := s.world.scripts.length + (SCRIPT_DEPTH_MAX - s.world.depth)

/-- A stretch that unwinds leaves as much room for nesting as there was. -/
theorem Unwinds.room_eq (h : Unwinds c limit s s') : room s' = room s := by
  rw [room, room, h.scripts, h.depth]

/-! ### What a nested call does, its script does -/

/-- Calls at a depth come back, unwound. -/
def Returns (c : ScriptSetting) (depth : Nat)
    (call : Bytes → Shell ScriptWorld → Option (Shell ScriptWorld)) : Prop :=
  ∀ input s, s.world.depth = depth → ∃ s', call input s = some s' ∧ Unwinds c (room s) s s'

variable {call : Bytes → Shell ScriptWorld → Option (Shell ScriptWorld)}

/-- The reaping before a command has nothing to do with scripts. -/
theorem unwinds_dispatching (args : List Bytes) (s : Shell ScriptWorld) :
    Unwinds c limit s (s.dispatching args) := Unwinds.of_same s.world_jobReap s.fds_jobReap

/-- A line of a script comes back, if the calls one level down do. -/
theorem returns_runScriptLine (hcall : Returns c s.world.depth call) (line : Bytes) :
    ∃ s', runScriptLine c call line s = some s' ∧ Unwinds c (room s) s s' := by
  unfold runScriptLine
  simp only
  split
  · rename_i args hsourced
    have hstart : Unwinds c (room s) s (s.dispatching args) := unwinds_dispatching args s
    unfold cmdSource
    split
    · exact ⟨_, rfl, hstart.trans (Unwinds.of_same rfl rfl)⟩
    · rename_i arg rest heq
      rcases hcall arg (s.dispatching args) hstart.depth with ⟨s', hs', hunwinds⟩
      rw [hstart.room_eq] at hunwinds
      exact ⟨s', hs', hstart.trans hunwinds⟩
  · exact ⟨_, rfl, unwinds_perform _ s⟩

/-- So does a line that may be empty or a comment. -/
theorem returns_runCollected (hcall : Returns c s.world.depth call) (line : Bytes) :
    ∃ s', runCollected c call line s = some s' ∧ Unwinds c (room s) s s' := by
  unfold runCollected
  split
  · exact returns_runScriptLine hcall line
  · exact ⟨s, rfl, Unwinds.of_same rfl rfl⟩

/-- The loop ends with the script, and each line in it unwinds. -/
theorem returns_readScript (hcall : Returns c s.world.depth call) (rest line : Bytes) :
    ∃ s', readScript c call rest line s = some s' ∧ Unwinds c (room s) s s' := by
  induction rest generalizing line s with
  | nil => exact returns_runCollected hcall line
  | cons b rest ih =>
    unfold readScript
    split
    · rcases returns_runCollected hcall line with ⟨s₁, hline, hfirst⟩
      rw [hline]
      -- The rest is read at the same depth, with the same scripts open.
      rw [← hfirst.depth] at hcall
      rcases ih hcall [] with ⟨s', hrest, hlast⟩
      rw [hfirst.room_eq] at hlast
      exact ⟨s', hrest, hfirst.trans hlast⟩
    · split
      · exact ih hcall (line ++ [b])
      · exact ih hcall line

/-! ### Opening and closing -/

/-- An `open` either fails and leaves the descriptors, or gives the lowest free one. -/
theorem sysOpen_cases (answers : Answers) (path : Bytes) (flags : Nat) (s : Shell ScriptWorld) :
    (∃ e s', s.sysOpen answers path flags = (.error e, s') ∧ s'.world = s.world ∧
      s'.fds = s.fds) ∨
    ∃ s', s.sysOpen answers path flags = (.ok s.fds.lowestFree, s') ∧ s'.world = s.world ∧
      s'.fds = s.fds.alloc (.file path flags) := by
  rw [Shell.sysOpen]
  cases answers s.calls with
  | some e => exact Or.inl ⟨_, _, rfl, rfl, rfl⟩
  | none => exact Or.inr ⟨_, rfl, rfl, rfl⟩

/-- What is unwound between the `open` of a script and its `close` is unwound around them. -/
theorem unwinds_opened {path : Bytes} (hworld : s₁.world = s.world)
    (hfds : s₁.fds = s.fds.alloc (.file path O_RDONLY)) (hdepth : s.world.depth ≤ SCRIPT_DEPTH_MAX)
    (h : Unwinds c (room s + 1) (s₁.scriptOpened s.fds.lowestFree) s') :
    Unwinds c (room s + 1) s (s'.closeScript s.fds.lowestFree) := by
  have hdepth' : s'.world.depth = s.world.depth := by
    rw [h.depth, ← hworld]
    rfl
  have hscripts : s'.world.scripts = s.fds.lowestFree :: s.world.scripts := by
    rw [h.scripts, ← hworld]
    rfl
  have hlen : s.world.scripts.length ≤ room s := Nat.le_add_right _ _
  constructor
  case depth => exact hdepth'
  case scripts =>
    show s'.world.scripts.erase s.fds.lowestFree = s.world.scripts
    rw [hscripts, List.erase_cons_head]
  case seen =>
    have hopened : (s₁.scriptOpened s.fds.lowestFree).world.seen
        = s.world.seen ++ [⟨s.world.depth, s.world.scripts.length + 1⟩] := by
      rw [← hworld]
      rfl
    have hclosed : (s'.closeScript s.fds.lowestFree).world.seen
        = s'.world.seen ++ [⟨s.world.depth, s.world.scripts.length⟩] := by
      show s'.world.seen ++ [⟨s'.world.depth, (s'.world.scripts.erase _).length⟩] = _
      rw [hdepth', hscripts, List.erase_cons_head]
    have hbefore := exists_seen_trans
      (exists_seen_one hopened ⟨hdepth, Nat.succ_le_succ hlen⟩) h.seen
    exact exists_seen_trans hbefore (exists_seen_one hclosed ⟨hdepth, Nat.le_succ_of_le hlen⟩)
  case fds =>
    intro hleaves n
    have hlines : s'.fds.get n = s₁.fds.get n := h.fds hleaves n
    show (s'.fds.close s.fds.lowestFree).get n = s.fds.get n
    rw [FdTable.get_close, hlines, hfds, FdTable.get_alloc]
    -- The number was free before the `open`, and is free again.
    by_cases hn : n = s.fds.lowestFree
    · rw [if_pos hn, hn, FdTable.get_lowestFree]
    · rw [if_neg hn, if_neg hn]

/-- A script comes back with its descriptor closed, if the calls in its lines do. -/
theorem returns_doScriptInner (hcall : Returns c s.world.depth call)
    (hdepth : s.world.depth ≤ SCRIPT_DEPTH_MAX) (input : Bytes) :
    ∃ s', doScriptInner c call input s = some s' ∧ Unwinds c (room s + 1) s s' := by
  unfold doScriptInner
  split
  · exact ⟨_, rfl, Unwinds.of_same rfl rfl⟩
  · rename_i abs habs
    rcases sysOpen_cases c.answers (cString abs) O_RDONLY s with
      ⟨e, s₁, hopen, hworld, hfds⟩ | ⟨s₁, hopen, hworld, hfds⟩
    · rw [hopen]
      exact ⟨_, rfl, Unwinds.of_same hworld hfds⟩
    · rw [hopen]
      have hroom : room (s₁.scriptOpened s.fds.lowestFree) = room s + 1 := by
        show (s.fds.lowestFree :: s₁.world.scripts).length + (SCRIPT_DEPTH_MAX - s₁.world.depth) = _
        rw [hworld, List.length_cons, room]
        omega
      have hsame : (s₁.scriptOpened s.fds.lowestFree).world.depth = s.world.depth := by
        show s₁.world.depth = s.world.depth
        rw [hworld]
      rw [← hsame] at hcall
      rcases returns_readScript hcall ((s₁.world.terrain.around.contents (cString abs)).getD []) []
        with ⟨s', hread, hunwinds⟩
      rw [hroom] at hunwinds
      exact ⟨s'.closeScript s.fds.lowestFree, by simp only [hread],
        unwinds_opened hworld hfds hdepth hunwinds⟩

/-- Around `do_script_inner`, the depth goes up by one and down again. -/
theorem unwinds_entered (hlt : s.world.depth < SCRIPT_DEPTH_MAX)
    (h : Unwinds c (room s) { s with world := s.world.enter } s') :
    Unwinds c (room s) s { s' with world := s'.world.leave } := by
  have hdepth : s'.world.depth = s.world.depth + 1 := h.depth
  have hlen : s.world.scripts.length ≤ room s := Nat.le_add_right _ _
  have hscripts : s'.world.scripts = s.world.scripts := h.scripts
  constructor
  case depth =>
    show s'.world.depth - 1 = s.world.depth
    rw [hdepth, Nat.add_sub_cancel]
  case scripts => exact hscripts
  case seen =>
    have hentered : s.world.enter.seen
        = s.world.seen ++ [⟨s.world.depth + 1, s.world.scripts.length⟩] := rfl
    have hleft : s'.world.leave.seen
        = s'.world.seen ++ [⟨s.world.depth, s.world.scripts.length⟩] := by
      show s'.world.seen ++ [⟨s'.world.depth - 1, s'.world.scripts.length⟩] = _
      rw [hdepth, hscripts, Nat.add_sub_cancel]
    have hbefore := exists_seen_trans (exists_seen_one hentered ⟨hlt, hlen⟩) h.seen
    exact exists_seen_trans hbefore (exists_seen_one hleft ⟨Nat.le_of_lt hlt, hlen⟩)
  case fds => exact h.fds

/-- A budget of more calls than may still be nested is enough. -/
theorem returns_doScript (c : ScriptSetting) (budget : Nat) (input : Bytes)
    (s : Shell ScriptWorld) (hdepth : s.world.depth ≤ SCRIPT_DEPTH_MAX)
    (hbudget : SCRIPT_DEPTH_MAX - s.world.depth < budget) :
    ∃ s', doScript c budget input s = some s' ∧ Unwinds c (room s) s s' := by
  induction budget generalizing input s with
  | zero => exact absurd hbudget (Nat.not_lt_zero _)
  | succ budget ih =>
    unfold doScript
    split
    · exact ⟨_, rfl, Unwinds.of_same rfl rfl⟩
    · rename_i hlt
      have hlt : s.world.depth < SCRIPT_DEPTH_MAX := Nat.lt_of_not_le hlt
      -- The scripts of this one are one level deeper.
      have hcall : Returns c (s.world.depth + 1) (doScript c budget) := by
        intro input t ht
        exact ih input t (by omega) (by omega)
      have hroom : room { s with world := s.world.enter } + 1 = room s := by
        show s.world.scripts.length + (SCRIPT_DEPTH_MAX - (s.world.depth + 1)) + 1 = room s
        rw [room]
        omega
      rcases returns_doScriptInner (s := { s with world := s.world.enter }) hcall hlt input with
        ⟨s', hinner, hunwinds⟩
      rw [hroom] at hunwinds
      exact ⟨_, by simp only [hinner], unwinds_entered hlt hunwinds⟩

/-! ### The budget -/

/-- A call that comes back comes back the same in the other. -/
def ReturnsAlike (call call' : Bytes → Shell ScriptWorld → Option (Shell ScriptWorld)) : Prop :=
  ∀ input s s', call input s = some s' → call' input s = some s'

section Budget

variable {call' : Bytes → Shell ScriptWorld → Option (Shell ScriptWorld)}

/-- `source` does no more than its call. The lemmas below carry this through a line, a loop and a
script. -/
theorem cmdSource_alike (hcall : ReturnsAlike call call') {args : List Bytes}
    (h : cmdSource call args s = some s') : cmdSource call' args s = some s' := by
  cases args with
  | nil => exact h
  | cons arg rest => exact hcall _ _ _ h

/-- A line of a script. -/
theorem runScriptLine_alike (hcall : ReturnsAlike call call') {line : Bytes}
    (h : runScriptLine c call line s = some s') : runScriptLine c call' line s = some s' := by
  unfold runScriptLine at h ⊢
  simp only at h ⊢
  split
  · rename_i args hsourced
    simp only [hsourced] at h
    exact cmdSource_alike hcall h
  · rename_i hsourced
    simp only [hsourced] at h
    exact h

/-- A line that may be empty or a comment. -/
theorem runCollected_alike (hcall : ReturnsAlike call call') {line : Bytes}
    (h : runCollected c call line s = some s') : runCollected c call' line s = some s' := by
  unfold runCollected at h ⊢
  split
  · rename_i hline
    rw [if_pos hline] at h
    exact runScriptLine_alike hcall h
  · rename_i hline
    rw [if_neg hline] at h
    exact h

/-- The loop over the lines, by induction on the unread rest. -/
theorem readScript_alike (hcall : ReturnsAlike call call') {rest line : Bytes}
    (h : readScript c call rest line s = some s') : readScript c call' rest line s = some s' := by
  induction rest generalizing line s with
  | nil => exact runCollected_alike hcall h
  | cons b rest ih =>
    unfold readScript at h ⊢
    split
    · rename_i hb
      rw [if_pos hb] at h
      split at h
      · rename_i s₁ hline
        rw [runCollected_alike hcall hline]
        exact ih h
      · cases h
    · rename_i hb
      rw [if_neg hb] at h
      split
      · rename_i hkeep
        rw [if_pos hkeep] at h
        exact ih h
      · rename_i hkeep
        rw [if_neg hkeep] at h
        exact ih h

/-- A whole script. -/
theorem doScriptInner_alike (hcall : ReturnsAlike call call') :
    ReturnsAlike (doScriptInner c call) (doScriptInner c call') := by
  intro input s s' h
  unfold doScriptInner at h ⊢
  split
  · rename_i hresolve
    rw [hresolve] at h
    exact h
  · rename_i abs hresolve
    rw [hresolve] at h
    simp only at h
    split
    · rename_i e s₁ hopen
      rw [hopen] at h
      exact h
    · rename_i fd s₁ hopen
      rw [hopen] at h
      simp only at h ⊢
      split at h
      · rename_i s₂ hread
        rw [readScript_alike hcall hread]
        exact h
      · cases h

/-- A larger budget changes nothing in a call that comes back. -/
theorem doScript_alike (c : ScriptSetting) (budget : Nat) :
    ReturnsAlike (doScript c budget) (doScript c (budget + 1)) := by
  induction budget with
  | zero =>
    intro input s s' h
    cases h
  | succ budget ih =>
    intro input s s' h
    rw [doScript] at h ⊢
    split
    · rename_i hdeep
      rw [if_pos hdeep] at h
      exact h
    · rename_i hdeep
      rw [if_neg hdeep] at h
      split at h
      · rename_i s₁ hinner
        rw [doScriptInner_alike ih _ _ _ hinner]
        exact h
      · cases h

/-- A larger budget comes back with the same, by induction on the smaller one. -/
theorem doScript_of_le {budget budget' : Nat} (hle : budget ≤ budget') {input : Bytes}
    (h : doScript c budget input s = some s') : doScript c budget' input s = some s' := by
  induction hle with
  | refl => exact h
  | step _ ih => exact doScript_alike c _ _ _ _ ih

end Budget

/-- **Nested scripts end and unwind**, whatever the files hold: the call comes back with the depth
and the open scripts it found, and on the way the depth stays within its bound and no more scripts
are open at once than may be nested. The fuel counts nested calls, and any that is above the
remaining depth gives the same result: the depth counter of the shell stops the nesting before the
fuel does. -/
theorem doScript_unwinds (c : ScriptSetting) (input : Bytes) (s : Shell ScriptWorld)
    (hdepth : s.world.depth ≤ SCRIPT_DEPTH_MAX) :
    ∃ s', (∀ budget, SCRIPT_DEPTH_MAX - s.world.depth < budget →
        doScript c budget input s = some s') ∧
      Unwinds c (s.world.scripts.length + (SCRIPT_DEPTH_MAX - s.world.depth)) s s' := by
  rcases returns_doScript c _ input s hdepth (Nat.lt_succ_self _) with ⟨s', hs', hunwinds⟩
  refine ⟨s', ?_, hunwinds⟩
  intro budget hbudget
  exact doScript_of_le hbudget hs'

/-- Files that all source themselves, twice. -/
def selfSourcing : Terrain :=
  ⟨⟨Env.init, some (bytes "/"), fun _ => true, fun _ => some (bytes "source a\n. a")⟩, fun _ => []⟩

/-- Every call succeeds, and the other lines do nothing. -/
def quietScripts : ScriptSetting := ⟨fun _ => none, fun _ s => s⟩

/-- A script that sources itself comes back. -/
theorem doScript_unwinds_selfSourcing :
    ∃ s', (∀ budget, SCRIPT_DEPTH_MAX - 0 < budget →
        doScript quietScripts budget (bytes "a") (Shell.init ⟨selfSourcing, 0, [], []⟩) = some s') ∧
      Unwinds quietScripts (0 + (SCRIPT_DEPTH_MAX - 0)) (Shell.init ⟨selfSourcing, 0, [], []⟩) s' :=
  doScript_unwinds quietScripts (bytes "a") (Shell.init ⟨selfSourcing, 0, [], []⟩) (Nat.zero_le _)

end OnyxShell
