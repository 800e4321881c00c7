import OnyxShell.Proofs.Family
import OnyxShell.Proofs.PathNormal

/-!
# `OnyxShell.Proofs.Commands.Run`: the child that `run` waits for

What `cmd_run` spawns fits the arrays it is written to (`fits_runProgram`).

It then calls `wait`, which takes any child that has ended. `waitsForOwn_iff`: it comes back
with its own child in every order of exits exactly when the shell has no other child as it
spawns the program, running or ended.
-/

set_option autoImplicit false

namespace OnyxShell

/-! ### What is spawned -/

/-- What the kernel reads of a string is no longer than the string. -/
theorem length_cString_le (b : Bytes) : (cString b).length ≤ b.length :=
  (List.takeWhile_prefix _).length_le

/-- A path that the search gives fits its buffer. -/
theorem length_lt_searchDirs {around : Surroundings} {cmd full : Bytes} {dirs : List Bytes}
    (h : searchDirs around cmd dirs = some full) : full.length < PATH_MAX := by
  induction dirs with
  | nil => cases h
  | cons dir rest ih =>
    rw [searchDirs] at h
    split at h
    · exact ih h
    · split at h
      · exact ih h
      · split at h
        · cases h
        · split at h
          · cases h
            exact Nat.lt_of_le_of_lt (List.length_take_le _ _) (by decide)
          · exact ih h

/-- So does the path of a command, found by the search or not. -/
theorem length_lt_resolveCmdPath {around : Surroundings} {cmd path : Bytes}
    (h : resolveCmdPath around cmd = some path) : path.length < PATH_MAX := by
  rw [resolveCmdPath] at h
  split at h
  · exact length_lt_resolve h
  · split at h
    · rename_i found hfound
      rw [searchPath] at hfound
      split at hfound
      · cases hfound
      · rcases Option.bind_eq_some_iff.mp hfound with ⟨pathVar, -, hdirs⟩
        split at h
        · cases h
        · cases h
          exact Nat.lt_of_le_of_lt (length_cString_le found) (length_lt_searchDirs hdirs)
    · exact length_lt_resolve h

/-- The interpreter's name fits its buffer: at most 255 bytes of the first line are read. -/
theorem length_lt_checkShebang {around : Surroundings} {path word : Bytes}
    (h : checkShebang around path = some word) : word.length < PATH_MAX := by
  rcases Option.bind_eq_some_iff.mp h with ⟨content, -, hword⟩
  simp only at hword
  split at hword
  · cases hword
  · split at hword
    · cases hword
    · cases hword
      have hline : (firstLine content).length < PATH_MAX :=
        Nat.lt_of_le_of_lt (List.length_take_le _ _) (by decide)
      have hsub : ((((firstLine content).drop 2).dropWhile isBlank).takeWhile
          fun b => !isBlank b).Sublist (firstLine content) :=
        ((List.takeWhile_sublist _).trans (List.dropWhile_sublist _)).trans (List.drop_sublist _ _)
      exact Nat.lt_of_le_of_lt hsub.length_le hline

/-- The arguments of an interpreter fit the array. -/
theorem length_buildShebangArgv_le (target scriptPath : Bytes) (args : List Bytes) :
    (buildShebangArgv target scriptPath args).length ≤ MAX_ARGS := by
  have hsub : (((args.take (MAX_ARGS - 2)).drop 1).takeWhile fun arg =>
      arg.length < PATH_MAX).Sublist (args.take (MAX_ARGS - 2)) :=
    (List.takeWhile_sublist _).trans (List.drop_sublist _ _)
  have hlen := hsub.length_le.trans (List.length_take_le _ _)
  show (_ :: _ :: _).length ≤ MAX_ARGS
  rw [List.length_cons, List.length_cons]
  exact Nat.add_le_add_right hlen 2

/-- And each of them fits its row. -/
theorem fits_buildShebangArgv {target scriptPath : Bytes} (args : List Bytes)
    (htarget : target.length < PATH_MAX) (hscript : scriptPath.length < PATH_MAX) :
    ∀ arg ∈ buildShebangArgv target scriptPath args, arg.length < PATH_MAX := by
  intro arg harg
  rcases List.mem_cons.mp harg with rfl | harg
  · exact htarget
  · rcases List.mem_cons.mp harg with rfl | harg
    · exact hscript
    · have hfits := List.mem_takeWhile_imp harg
      exact of_decide_eq_true hfits

/-- The same for a program without `#!`, whose arguments are refused where they are too long. -/
theorem fits_buildArgv {args argv : List Bytes} (h : buildArgv args = some argv) :
    argv.length ≤ MAX_ARGS ∧ ∀ arg ∈ argv, arg.length < PATH_MAX := by
  rw [buildArgv] at h
  split at h
  · cases h
  · rename_i hany
    cases h
    refine ⟨List.length_take_le _ _, ?_⟩
    intro arg harg
    by_contra hlong
    exact hany (List.any_eq_true.mpr ⟨arg, harg, decide_eq_true (Nat.le_of_not_lt hlong)⟩)

/-- A program fits the argument arrays. -/
def Program.Fits (program : Program) : Prop :=
  program.path.length < PATH_MAX ∧ program.argv.length ≤ MAX_ARGS ∧
    ∀ arg ∈ program.argv, arg.length < PATH_MAX

/-- Rows that fit are C strings that fit. -/
theorem fits_of_rows {path : Bytes} {argv : List Bytes} (hpath : path.length < PATH_MAX)
    (hlen : argv.length ≤ MAX_ARGS) (hargv : ∀ arg ∈ argv, arg.length < PATH_MAX) :
    Program.Fits ⟨cString path, argv.map cString⟩ := by
  refine ⟨Nat.lt_of_le_of_lt (length_cString_le path) hpath, by rwa [List.length_map], ?_⟩
  intro arg harg
  rcases List.mem_map.mp harg with ⟨row, hrow, rfl⟩
  exact Nat.lt_of_le_of_lt (length_cString_le row) (hargv row hrow)

/-- **What `cmd_run` spawns fits its arrays**, on both paths. -/
theorem fits_runProgram {around : Surroundings} {args : List Bytes} {program : Program}
    (h : runProgram around args = .ok program) : program.Fits := by
  rw [runProgram.eq_def] at h
  split at h
  · cases h
  · split at h
    · cases h
    · rename_i path hpath
      have hpath := length_lt_resolveCmdPath hpath
      split at h
      · rename_i word hword
        have hinterp : (cString word).length < PATH_MAX :=
          Nat.lt_of_le_of_lt (length_cString_le word) (length_lt_checkShebang hword)
        have htarget : (if (cString word).length > 0 ∧ cString word = bytes "/bin/osh" then
            bytes "/bin/osh" else cString word).length < PATH_MAX := by
          split
          · decide
          · exact hinterp
        cases h
        exact fits_of_rows htarget (length_buildShebangArgv_le _ _ _)
          (fits_buildShebangArgv _ htarget hpath)
      · split at h
        · cases h
        · rename_i argv hargv
          cases h
          rcases fits_buildArgv hargv with ⟨hlen, hrows⟩
          exact fits_of_rows hpath hlen hrows

namespace Family

variable {c : Setting} {s s' : Family}

/-- With `cmd_run` in its `wait` for the child `own`: in whatever order children end, when the
`wait` has collected one, `own` has ended and the exit code reported is that of `own`. -/
def WaitsForOwn (c : Setting) (s : Family) (own : Nat) : Prop :=
  ∀ (order : List Nat) (s₁ : Family), s.after c (order.map Event.exits) = some s₁ →
    ∀ (pid : Nat) (s₂ : Family), step c s₁ (.wait pid) = some s₂ →
      own ∈ s₁.shell.ended ∧ s₂.exitCodes = s₁.exitCodes ++ [exitReport (c.status own)]

/-- What a `cmd_run` that has spawned a child leaves behind. -/
theorem run_spawned {args : List Bytes} {own : Nat} (h : step c s (.run args) = some s')
    (hown : s'.shell.world.waiting = some own) :
    own = s.shell.lastPid + 1 ∧ s'.shell.children = s.shell.children.upTo own ∧
      s'.running = settle s.running s.shell.children s'.shell.children := by
  change s.act (fun shell => some (cmdRun c.answers args shell)) = some s' at h
  rw [act] at h
  split at h
  · rename_i hwaiting
    change s.moveTo (cmdRun c.answers args s.shell) = some s' at h
    rw [moveTo] at h
    split at h
    · cases h
      change (cmdRun c.answers args s.shell).world.waiting = some own at hown
      rcases cmdRun_cases c.answers args s.shell with ⟨-, hworld⟩ | ⟨hchildren, hspawned⟩
      · -- Without a child there is nothing to wait for.
        rw [hworld, hwaiting] at hown
        cases hown
      · have heq : s.shell.lastPid + 1 = own := Option.some.inj (hspawned.symm.trans hown)
        rw [← heq]
        exact ⟨rfl, hchildren, rfl⟩
    · cases h
  · cases h

/-- The `wait` of `cmd_run` collects an ended child and reports its exit code. -/
theorem wait_collects {pid : Nat} (h : step c s (.wait pid) = some s') :
    pid ∈ s.shell.ended ∧ s'.exitCodes = s.exitCodes ++ [exitReport (c.status pid)] := by
  change s.collect c pid = some s' at h
  rw [collect] at h
  split at h
  · rename_i hpid
    cases h
    exact ⟨hpid.2, rfl⟩
  · cases h

/-- `cmd_run` in its `wait` can collect any ended child. -/
theorem exists_wait (c : Setting) {own pid : Nat} (hown : s.shell.world.waiting = some own)
    (hpid : pid ∈ s.shell.ended) : ∃ s', step c s (.wait pid) = some s' := by
  have hwaiting : s.shell.world.waiting.isSome := by rw [hown]; rfl
  show ∃ s', s.collect c pid = some s'
  rw [collect, if_pos ⟨hwaiting, hpid⟩]
  exact ⟨_, rfl⟩

/-- A running child can end. -/
theorem exists_exits (c : Setting) {pid : Nat} (hpid : pid ∈ s.running) :
    ∃ s', step c s (.exits pid) = some s' ∧ s'.shell.ended = s.shell.ended ++ [pid] ∧
      s'.shell.world = s.shell.world := by
  show ∃ s', s.exits pid = some s' ∧ _
  rw [exits, if_pos hpid]
  exact ⟨_, rfl, rfl, rfl⟩

/-- The pid is that of a child that has not been collected. -/
def IsChild (s : Family) (pid : Nat) : Prop := pid ∈ s.running ∨ pid ∈ s.shell.ended

/-- Exits make no children. -/
theorem isChild_exits {pid other : Nat} (h : step c s (.exits pid) = some s')
    (hchild : s'.IsChild other) : s.IsChild other := by
  change s.exits pid = some s' at h
  rw [exits] at h
  split at h
  · rename_i hpid
    cases h
    rcases hchild with hrun | hended
    · exact Or.inl (List.mem_of_mem_erase hrun)
    · rcases List.mem_append.mp hended with hended | hended
      · exact Or.inr hended
      · rw [List.mem_singleton.mp hended]
        exact Or.inl hpid
  · cases h

/-- A child that has ended before is there to be collected, so `own` has ended too. -/
theorem WaitsForOwn.of_ended {own pid : Nat} (h : WaitsForOwn c s own)
    (hown : s.shell.world.waiting = some own) (hmem : pid ∈ s.shell.ended) :
    own ∈ s.shell.ended := by
  rcases exists_wait c hown hmem with ⟨s₂, hwait⟩
  exact (h [] s rfl pid s₂ hwait).1

/-- A child that runs can end first, so it is `own`, or `own` has ended before. -/
theorem WaitsForOwn.of_running {own pid : Nat} (h : WaitsForOwn c s own)
    (hown : s.shell.world.waiting = some own) (hmem : pid ∈ s.running) :
    own ∈ s.shell.ended ∨ own = pid := by
  rcases exists_exits c hmem with ⟨s₁, hexit, hended, hworld⟩
  have horder : s.after c ([pid].map Event.exits) = some s₁ :=
    Runs.run_cons.mpr ⟨s₁, hexit, rfl⟩
  have hmem₁ : pid ∈ s₁.shell.ended := by
    rw [hended]
    exact List.mem_append_right _ List.mem_cons_self
  rw [← hworld] at hown
  rcases exists_wait c hown hmem₁ with ⟨s₂, hwait⟩
  have hfirst := (h [pid] s₁ horder pid s₂ hwait).1
  rw [hended] at hfirst
  exact (List.mem_append.mp hfirst).imp_right List.mem_singleton.mp

/-- **`run` waits for its own child whatever ends first, exactly when the shell has no other child
as it spawns the program.** `wait` comes back with the child that has ended first, and `cmd_run`
does not look which one that is. Where there is another child, the order in which that one ends
first is the one that the proof takes. -/
theorem waitsForOwn_iff {around : Surroundings} {before : List Event} {args : List Bytes} {own : Nat}
    (hs : (init around).after c before = some s) (hrun : step c s (.run args) = some s')
    (hown : s'.shell.world.waiting = some own) :
    WaitsForOwn c s' own ↔ s.running = [] ∧ s.shell.ended = [] := by
  have horderly := isOrderly_after hs
  rcases run_spawned hrun hown with ⟨hpid, hchildren, hrunning⟩
  have hended : s'.shell.ended = s.shell.ended := congrArg Children.ended hchildren
  have hlast : own = s.shell.children.lastPid + 1 := hpid
  have hnotEnded : own ∉ s.shell.ended := by
    intro hmem
    have := horderly.ended_le own hmem
    omega
  constructor
  · intro h
    constructor
    · rw [List.eq_nil_iff_forall_not_mem]
      intro pid hmem
      have hmem' : pid ∈ s'.running := by
        rw [hrunning]
        refine horderly.mem_settle_of_running hmem ?_
        rw [hchildren]
        exact id
      rcases h.of_running hown hmem' with hfirst | heq
      · rw [hended] at hfirst
        exact hnotEnded hfirst
      · have := horderly.running_le pid hmem
        omega
    · rw [List.eq_nil_iff_forall_not_mem]
      intro pid hmem
      rw [← hended] at hmem hnotEnded
      exact hnotEnded (h.of_ended hown hmem)
  · rintro ⟨hnone, hnoneEnded⟩ order s₁ hexits pid s₂ hwait
    -- `own` is the only child, before and after the exits.
    have hspawned : ∀ q, s'.IsChild q → q = own := by
      intro q hchild
      rw [IsChild, hended, hnoneEnded, hrunning, hnone, hchildren, mem_settle] at hchild
      rcases hchild with ⟨hmem | ⟨hgt, hle⟩, -⟩ | hmem
      · exact absurd hmem List.not_mem_nil
      · exact Nat.le_antisymm hle (hlast ▸ hgt)
      · exact absurd hmem List.not_mem_nil
    have hkeep : ∀ (t : Family) (e : Event) (t' : Family), e ∈ order.map Event.exits →
        (∀ q, t.IsChild q → q = own) → step c t e = some t' → ∀ q, t'.IsChild q → q = own := by
      intro t e t' he honly hstep q hchild
      rcases List.mem_map.mp he with ⟨pid, -, rfl⟩
      exact honly q (isChild_exits hstep hchild)
    have honly : ∀ q, s₁.IsChild q → q = own := Runs.run_invariant hkeep hspawned hexits
    rcases wait_collects hwait with ⟨hmem, hcodes⟩
    have heq : pid = own := honly pid (Or.inr hmem)
    rw [heq] at hmem hcodes
    exact ⟨hmem, hcodes⟩

/-- Without other children `run` waits for its program. -/
theorem waitsForOwn_iff_alone : ∃ s', step succeeding (init binaries) (.run [bytes "ls"]) = some s' ∧
    WaitsForOwn succeeding s' 2 := by
  have hrun : (step succeeding (init binaries) (.run [bytes "ls"])).map
      (fun s => s.shell.world.waiting) = some (some 2) := by decide +kernel
  rcases Option.map_eq_some_iff.mp hrun with ⟨s', hstep, hown⟩
  have hs : (init binaries).after succeeding [] = some (init binaries) := rfl
  exact ⟨s', hstep, (waitsForOwn_iff hs hstep hown).mpr ⟨rfl, rfl⟩⟩

/-- A background job that ends first is taken for the program. -/
theorem not_waitsForOwn_jobThenRun : ¬ ∀ (c : Setting) (around : Surroundings)
    (before : List Event) (args : List Bytes) (own : Nat) (s s' : Family),
    (init around).after c before = some s → step c s (.run args) = some s' →
      s'.shell.world.waiting = some own → WaitsForOwn c s' own := by
  intro h
  -- The job is started, the program is started, the job ends and is collected.
  have hall : ((init binaries).after succeeding jobThenRun).isSome := by decide +kernel
  rcases Option.isSome_iff_exists.mp hall with ⟨s₂, hall⟩
  rcases Runs.run_cons.mp hall with ⟨s, hjob, hall⟩
  rcases Runs.run_cons.mp hall with ⟨s', hrun, hall⟩
  rcases Runs.run_cons.mp hall with ⟨s₁, hexit, hall⟩
  rcases Runs.run_cons.mp hall with ⟨s₂', hwait, -⟩
  have hbefore : (init binaries).after succeeding (jobThenRun.take 1) = some s :=
    Runs.run_cons.mpr ⟨s, hjob, rfl⟩
  have hspawned : (init binaries).after succeeding (jobThenRun.take 2) = some s' :=
    Runs.run_cons.mpr ⟨s, hjob, Runs.run_cons.mpr ⟨s', hrun, rfl⟩⟩
  have hended : (init binaries).after succeeding (jobThenRun.take 3) = some s₁ :=
    Runs.run_cons.mpr ⟨s, hjob, Runs.run_cons.mpr ⟨s', hrun, Runs.run_cons.mpr ⟨s₁, hexit, rfl⟩⟩⟩
  have hown : ((init binaries).after succeeding (jobThenRun.take 2)).map
      (fun s => s.shell.world.waiting) = some (some 3) := by decide +kernel
  have hfirst : ((init binaries).after succeeding (jobThenRun.take 3)).map
      (fun s => s.shell.ended) = some [2] := by decide +kernel
  rw [hspawned] at hown
  rw [hended] at hfirst
  have hright := h succeeding binaries _ _ 3 s s' hbefore hrun (Option.some.inj hown) [2] s₁
    (Runs.run_cons.mpr ⟨s₁, hexit, rfl⟩) 2 s₂' hwait
  have hfirst : s₁.shell.ended = [2] := Option.some.inj hfirst
  have hmem := hright.1
  rw [hfirst] at hmem
  exact absurd hmem (by decide)

end Family

end OnyxShell
