import OnyxShell.Proofs.Children

/-!
# `OnyxShell.Proofs.Family`: the job table in every run

`step_cases` says what an event can do to the children of the shell. With the lemmas on
`Orderly` and `Tracked` it gives the invariant of every run (`isOrderly_after`), and that only
the `wait` of `cmd_run` can leave a pid in the job table behind.

`truthful_iff_sparesJobs`: the table is right throughout a run exactly when no `wait`
collects a background job.
-/

set_option autoImplicit false

namespace OnyxShell

open Children (Moves)

/-! ### The commands -/

/-- `fg` waits for the process of one job. -/
theorem moves_cmdFg {σ : Type} (args : List Bytes) (s : Shell σ) :
    Moves s.children (cmdFg args s).children := by
  unfold cmdFg
  split
  · exact Moves.refl _
  · split
    · exact Moves.refl _
    · split
      · rename_i job hjob
        have hid : s.jobs.findById job.id = some job := by
          have := List.find?_some hjob
          simp only [decide_eq_true_eq] at this
          rw [this]
          exact hjob
        exact Moves.foreground job hid
      · exact Moves.refl _

/-- `cmd_run` makes one child, or none. -/
theorem cmdRun_cases (answers : Answers) (args : List Bytes) (s : Shell World) :
    ((cmdRun answers args s).children = s.children ∧
      (cmdRun answers args s).world = s.world) ∨
    ((cmdRun answers args s).children = s.children.upTo (s.lastPid + 1) ∧
      (cmdRun answers args s).world.waiting = some (s.lastPid + 1)) := by
  rw [cmdRun]
  split
  · exact Or.inl ⟨rfl, rfl⟩
  · rw [Shell.spawn, Shell.fork]
    cases hanswer : answers s.calls with
    | some e => exact Or.inl ⟨rfl, rfl⟩
    | none => exact Or.inr ⟨rfl, rfl⟩

/-- `run` starts a child. Its `wait` is an event of its own, since it collects any child. -/
theorem moves_cmdRun (answers : Answers) (args : List Bytes) (s : Shell World) :
    Moves s.children (cmdRun answers args s).children := by
  rcases cmdRun_cases answers args s with ⟨h, -⟩ | ⟨h, -⟩
  · rw [h]
    exact Moves.refl _
  · rw [h]
    exact Moves.upTo (Nat.le_succ _)

/-- Every command moves the children at most once. -/
theorem moveOnce_commands (c : Setting) : c.commands.MoveOnce := by
  intro args s s' h
  show Moves s.children s'.children
  unfold Setting.commands at h
  simp only at h
  split at h
  · cases h
    exact Moves.refl _
  · split at h
    · cases h
      exact moves_cmdFg _ s
    · split at h
      · cases h
        exact moves_cmdRun _ _ s
      · rcases Option.map_eq_some_iff.mp h with ⟨around, -, rfl⟩
        exact Moves.refl _

namespace Family

variable {c : Setting} {s s' : Family} {e : Event}

/-- The shell process has called one of its functions. -/
def Called (s s' : Family) : Prop :=
  ∃ before, (before = s.shell.children ∨ before = s.shell.children.reap) ∧
    Moves before s'.shell.children ∧ s'.shell.lastPid < PID_BOUND ∧
    s'.running = settle s.running before s'.shell.children

/-- A function of the shell process that makes one move. -/
theorem called_of_act {f : Shell World → Option (Shell World)} {before : Children}
    (hbefore : before = s.shell.children ∨ before = s.shell.children.reap)
    (hmoves : ∀ shell, f s.shell = some shell → Moves before shell.children)
    (h : s.act f = some s') : Called s s' := by
  rw [act] at h
  split at h
  · rcases Option.bind_eq_some_iff.mp h with ⟨shell, hf, hmove⟩
    have hlast : before.lastPid = s.shell.lastPid := by
      rcases hbefore with rfl | rfl <;> rfl
    rw [moveTo] at hmove
    split at hmove
    · rename_i hlt
      cases hmove
      refine ⟨before, hbefore, hmoves shell hf, hlt, ?_⟩
      rw [settle, hlast]
      rfl
    · cases hmove
  · cases h

/-- What an event does to the children: one of them ends, or nothing, or the shell calls one
of its functions, or the `wait` of `cmd_run` collects an ended child. -/
theorem step_cases (h : step c s e = some s') :
    (∃ pid, e = .exits pid ∧ pid ∈ s.running ∧ s'.running = s.running.erase pid ∧
      s'.shell.children = { s.shell.children with ended := s.shell.ended ++ [pid] }) ∨
    (∃ pid, e = .wait pid ∧ pid ∈ s.shell.ended ∧ s'.running = s.running ∧
      s'.shell.children = { s.shell.children with ended := s.shell.ended.erase pid }) ∨
    ((∀ pid, e ≠ .wait pid) ∧
      (s'.running = s.running ∧ s'.shell.children = s.shell.children ∨ Called s s')) := by
  -- A child ends, the shell collects one, or the shell makes its calls.
  cases e with
  | exits pid =>
    left
    change s.exits pid = some s' at h
    rw [exits] at h
    split at h
    · rename_i hpid
      cases h
      exact ⟨pid, rfl, hpid, rfl, rfl⟩
    · cases h
  | wait pid =>
    right; left
    change s.collect c pid = some s' at h
    rw [collect] at h
    split at h
    · rename_i hpid
      cases h
      exact ⟨pid, rfl, hpid.2, rfl, rfl⟩
    · cases h
  | outside around =>
    right; right
    cases h
    exact ⟨nofun, Or.inl ⟨rfl, rfl⟩⟩
  | waitFails e =>
    right; right
    change s.waitFails e = some s' at h
    rw [waitFails] at h
    split at h
    · cases h
      exact ⟨nofun, Or.inl ⟨rfl, rfl⟩⟩
    · cases h
  | reap =>
    right; right
    change s.act (fun shell => some shell.jobReap) = some s' at h
    refine ⟨nofun, Or.inr (called_of_act (Or.inr rfl) ?_ h)⟩
    intro shell hshell
    cases hshell
    rw [Shell.children_jobReap]
    exact Moves.refl _
  | dispatch args =>
    right; right
    refine ⟨nofun, Or.inr (called_of_act (Or.inr rfl) ?_ h)⟩
    intro shell hshell
    exact moves_dispatch (moveOnce_commands c) hshell
  | execute line p =>
    right; right
    refine ⟨nofun, Or.inr (called_of_act (Or.inr rfl) ?_ h)⟩
    intro shell hshell
    exact moves_execute (moveOnce_commands c) hshell
  | fg args =>
    right; right
    change s.act (fun shell => some (cmdFg args shell)) = some s' at h
    refine ⟨nofun, Or.inr (called_of_act (Or.inl rfl) ?_ h)⟩
    intro shell hshell
    cases hshell
    exact moves_cmdFg args s.shell
  | run args =>
    right; right
    change s.act (fun shell => some (cmdRun c.answers args shell)) = some s' at h
    refine ⟨nofun, Or.inr (called_of_act (Or.inl rfl) ?_ h)⟩
    intro shell hshell
    cases hshell
    exact moves_cmdRun c.answers args s.shell

/-- The order of the children of a family. -/
abbrev IsOrderly (s : Family) : Prop := Orderly s.running s.shell.children

/-- Every pid in the job table is that of a child that has not been collected. -/
def Truthful (s : Family) : Prop := Tracked s.running s.shell.children

/-- The event is no `wait` that collects a background job. The `wait` of `cmd_run` takes any
child. All other events meet the condition. -/
def SparesJobs (s : Family) : Event → Prop
  | .wait pid => ∀ job ∈ s.shell.jobs.table, job.pid ≠ pid
  | _ => True

/-- Every event keeps the children in order: one that ends or is collected, a change outside, and
every call of the shell. -/
theorem isOrderly_step (hs : s.IsOrderly) (h : step c s e = some s') : s'.IsOrderly := by
  unfold IsOrderly
  rcases step_cases h with ⟨pid, -, hpid, hrunning, hchildren⟩ |
    ⟨pid, -, hpid, hrunning, hchildren⟩ | ⟨-, ⟨hrunning, hchildren⟩ | hcalled⟩
  · rw [hrunning, hchildren]
    exact hs.exits hpid
  · rw [hrunning, hchildren]
    exact hs.collect pid
  · rw [hrunning, hchildren]
    exact hs
  · rcases hcalled with ⟨before, hbefore, hmove, hlt, hrunning⟩
    rw [hrunning]
    rcases hbefore with rfl | rfl
    · exact hs.moves hmove hlt
    · exact hs.reap.moves hmove hlt

/-- What no step but a `wait` can break. -/
theorem truthful_step (hs : s.IsOrderly) (ht : s.Truthful) (h : step c s e = some s')
    (hwait : ∀ pid, e ≠ .wait pid) : s'.Truthful := by
  unfold Truthful at ht ⊢
  rcases step_cases h with ⟨pid, -, hpid, hrunning, hchildren⟩ |
    ⟨pid, he, -⟩ | ⟨-, ⟨hrunning, hchildren⟩ | hcalled⟩
  · rw [hrunning, hchildren]
    exact ht.exits pid
  · exact absurd he (hwait pid)
  · rw [hrunning, hchildren]
    exact ht
  · rcases hcalled with ⟨before, hbefore, hmove, hlt, hrunning⟩
    rw [hrunning]
    rcases hbefore with rfl | rfl
    · exact hs.tracked_moves ht hmove hlt
    · exact hs.reap.tracked_moves (hs.tracked_reap ht) hmove hlt

/-- A `wait` keeps the table right exactly when it spares the jobs. -/
theorem truthful_wait_iff (hs : s.IsOrderly) (ht : s.Truthful) {pid : Nat}
    (h : step c s (.wait pid) = some s') : s'.Truthful ↔ s.SparesJobs (.wait pid) := by
  unfold Truthful at ht ⊢
  rcases step_cases h with ⟨_, he, -⟩ | ⟨pid', he, hpid, hrunning, hchildren⟩ | ⟨hwait, -⟩
  · cases he
  · cases he
    rw [hrunning, hchildren]
    exact hs.tracked_collect_iff ht hpid
  · exact absurd rfl (hwait pid)

/-- At the start there are no children. -/
theorem isOrderly_init (around : Surroundings) : (init around).IsOrderly := by
  have hnil : ∀ {α : Type} {P : α → Prop}, ∀ a ∈ ([] : List α), P a :=
    fun a h => absurd h List.not_mem_nil
  have hlt : 1 < PID_BOUND := by decide +kernel
  exact ⟨List.nodup_nil, List.nodup_nil, hnil, hnil, hnil, hnil, hnil, List.nodup_nil, hnil, hlt⟩

/-- At the start the job table is empty. -/
theorem truthful_init (around : Surroundings) : (init around).Truthful :=
  fun _ h => absurd h List.not_mem_nil

/-- **Every state of every run is orderly.** -/
theorem isOrderly_after {around : Surroundings} {events : List Event}
    (h : (init around).after c events = some s) : s.IsOrderly :=
  Runs.run_invariant (fun _ _ _ _ hs hstep => isOrderly_step hs hstep) (isOrderly_init around) h

/-- **The job table is right throughout a run exactly when no `wait` of a `cmd_run` collects a
background job.** The invariant beside `Truthful` is `IsOrderly`: process ids count up, and a
child is in one place. Every event keeps both, but for a `wait`, which keeps them just when it
spares the jobs (`truthful_wait_iff`). `Runs.always_iff_eachStep` makes a statement about runs of
this. -/
theorem truthful_iff_sparesJobs (c : Setting) (around : Surroundings) (events : List Event) :
    Runs.Always (step c) Truthful (init around) events ↔
      Runs.EachStep (step c) SparesJobs (init around) events := by
  have himp : ∀ s : Family, s.IsOrderly ∧ s.Truthful → s.Truthful := fun s h => h.2
  have hkeep : ∀ (s : Family) (e : Event) (s' : Family), s.IsOrderly ∧ s.Truthful →
      s.SparesJobs e → step c s e = some s' → s'.IsOrderly ∧ s'.Truthful := by
    rintro s e s' ⟨hs, ht⟩ hspares hstep
    refine ⟨isOrderly_step hs hstep, ?_⟩
    cases e with
    | wait pid => exact (truthful_wait_iff hs ht hstep).mpr hspares
    | _ => exact truthful_step hs ht hstep nofun
  have hbreaks : ∀ (s : Family) (e : Event) (s' : Family), s.IsOrderly ∧ s.Truthful →
      ¬ s.SparesJobs e → step c s e = some s' → ¬ s'.Truthful := by
    rintro s e s' ⟨hs, ht⟩ hspares hstep
    cases e with
    | wait pid => exact fun ht' => hspares ((truthful_wait_iff hs ht hstep).mp ht')
    | _ => exact absurd trivial hspares
  exact Runs.always_iff_eachStep himp hkeep hbreaks
    ⟨isOrderly_init around, truthful_init around⟩ events

/-- A directory in which every program is found and none is a script. -/
def binaries : Surroundings := ⟨Env.init, some (bytes "/"), fun _ => true, fun _ => none⟩

/-- Every call succeeds, and a child ends with its pid as its status. -/
def succeeding : Setting := ⟨fun _ => none, fun pid => pid, fun _ around => around, fun _ => some⟩

/-- A background job, and a `run` after it whose `wait` collects the job. -/
def jobThenRun : List Event :=
  [.execute (bytes "| job &") (parse (bytes "| job &")), .run [bytes "ls"], .exits 2, .wait 2]

/-- The table keeps the pid of a job that the `wait` of `cmd_run` has collected. -/
theorem not_truthful_jobThenRun : ¬ ∀ (c : Setting) (around : Surroundings) (events : List Event),
    Runs.Always (step c) Truthful (init around) events := by
  intro h
  have hrun : ((init binaries).after succeeding jobThenRun).map
      (fun s => (s.shell.jobs.table, s.running, s.shell.ended)) = some ([⟨1, 2, true⟩], [3], []) := by
    decide +kernel
  rcases Option.map_eq_some_iff.mp hrun with ⟨s, hs, hfields⟩
  rw [Prod.mk.injEq, Prod.mk.injEq] at hfields
  rcases hfields with ⟨htable, hrunning, hended⟩
  have hjob : (⟨1, 2, true⟩ : Job) ∈ s.shell.jobs.table := by
    rw [htable]
    exact List.mem_cons_self
  rcases (h succeeding binaries jobThenRun).last hs ⟨1, 2, true⟩ hjob with ⟨pid, hchild, hpid⟩
  have hpid : 2 = pid := Int.ofNat_inj.mp hpid
  change pid ∈ s.running ∨ pid ∈ s.shell.ended at hchild
  rw [hrunning, hended, ← hpid] at hchild
  exact absurd hchild (by decide)

end Family

end OnyxShell
