import OnyxShell.Process.Exec
import OnyxShell.Proofs.Process.Jobs

/-!
# `OnyxShell.Proofs.Process.Exec`: starting programs

Looking for a program is `Tidy`: `search_path` passes paths from the root to `stat`, and
`check_shebang` closes what it opens. A `spawn` adds a child and nothing else. The one call in
`cmd_exec` that may do more is that of a script.

The strings that are passed to `execve` and `spawn` are not looked at here. They are the subject
of the two modules on the arrays.
-/

set_option autoImplicit false

namespace OnyxShell.Process

open Routine (wp wp_bind wp_mono wp_pure wp_get)

variable {α : Type} {policy : Policy} {R : Proc → Proc → Prop} {g : Globals} {s : Proc}

section
variable (hp : policy.Lenient)
include hp

omit hp in
/-- A command in a directory has a path from the root. -/
theorem absolutePath_cmdInDir {absDir : Bytes} (h : absDir.head? = some '/'.toUInt8) (cmd : Bytes) :
    AbsolutePath (cString (cmdInDir absDir cmd)) := by
  apply absolutePath_cString
  · rw [← List.cons_head?_tail h, cmdInDir]
    split <;> rfl
  · exact Nat.lt_of_le_of_lt (List.length_take_le _ _) (by decide)

/-- The search along `PATH` asks `stat` only, by induction on the directories. -/
theorem tidy_searchDirs (cmd : Bytes) (dirs : List Bytes) : Tidy policy (searchDirs cmd dirs) := by
  induction dirs with
  | nil => exact Tidy.pure none
  | cons dir rest ih =>
    rw [searchDirs]
    refine .ite ih ?_
    intro Q g s hstd hQ
    rw [wp_bind]
    refine wp_resolve hp dir ?_
    intro r hr
    cases r with
    | none => exact ih Q g s hstd hQ
    | some absDir =>
      refine Tidy.ite (Tidy.pure none) ?_ Q g s hstd hQ
      intro Q g s hstd hQ
      have hproper : s.Proper (.stat (cString (cmdInDir absDir cmd))) :=
        absolutePath_cmdInDir (hr absDir rfl).head? cmd
      rw [wp_bind]
      refine wp_plain hproper (hp _ trivial) (fun _ => rfl) ?_
      intro a _
      exact Tidy.ite (Tidy.pure _) ih Q g s hstd hQ

/-- The search with the directories of the environment. -/
theorem tidy_searchPath (cmd : Bytes) : Tidy policy (searchPath cmd) := by
  refine .ite (Tidy.pure none) ?_
  intro Q g s hstd hQ
  rw [wp_bind, wp_get]
  split
  · exact hQ none
  · exact tidy_searchDirs hp cmd _ Q g s hstd hQ

/-- Resolving a path asks for the working directory only. -/
theorem tidy_resolve (input : Bytes) : Tidy policy (resolve input) := fun _ _ _ _ hQ =>
  wp_resolve hp input fun r _ => hQ r

/-- A command's path: as it is given, or by the search. -/
theorem tidy_resolveCmdPath (cmd : Bytes) : Tidy policy (resolveCmdPath cmd) := by
  refine .ite (tidy_resolve hp cmd) (.bind (tidy_searchPath hp cmd) ?_)
  intro r
  cases r with
  | none => exact tidy_resolve hp cmd
  | some found => exact Tidy.pure _

/-- Printing an exit code is output only. -/
theorem tidy_writeExitCode (status : Int) : Tidy policy (writeExitCode status) := by
  refine .ite (.of_wp fun Q g s => ?_) (Tidy.pure ())
  simp only [wp_bind, wp_writeRaw hp, wp_writeI64 hp, wp_newline hp]

/-- The first line of a program is read from a descriptor that the caller closes. -/
theorem wp_firstLineLoop {fd : Nat} (hfd : fd ∈ s.fds) (hlt : 2 < fd) (turns : Nat)
    {Q : Bytes → Globals → Proc → Prop} (hQ : ∀ buf, Q buf g s) :
    wp (conduct policy) (firstLineLoop turns fd) Q g s := by
  refine Routine.wp_loop (fun _ g' s' => g' = g ∧ s' = s) ?_ ⟨rfl, rfl⟩ turns
  rintro buf _ _ ⟨rfl, rfl⟩
  rw [wp_bind]
  refine wp_read hp hfd hlt ?_
  intro a _
  simp only
  split
  · exact hQ buf
  · exact ⟨rfl, rfl⟩

/-- Looking for `#!` closes the program's file in every case. -/
theorem tidy_checkShebang (turns : Nat) (path : Bytes) : Tidy policy (checkShebang turns path) := by
  intro Q g s hstd hQ
  rw [checkShebang, wp_bind]
  refine wp_sysOpen (hp _ rfl) ?_ ?_
  · intro a ha
    rw [if_pos ha]
    exact hQ none
  · intro a ha hfree
    have hlt := hstd.lt_of_notMem hfree.1
    rw [if_neg (Int.not_lt.mpr ha), wp_bind]
    refine wp_firstLineLoop hp (s.mem_withFd _) hlt turns ?_
    intro buf
    rw [wp_bind]
    refine wp_close hp (s.mem_withFd _) hlt ?_
    intro _
    rw [Proc.withoutFd_withFd hfree.1]
    exact hQ _

end

section
variable (hpol : ∀ c, policy c)
include hpol

/-- `execve` either replaces the process or comes back with an error. The case that replaces it
does not return. -/
theorem tidy_execProgram (path : Bytes) (argv : List Bytes) :
    Tidy policy (execProgram path argv) := by
  have hp : policy.Lenient := fun c _ => hpol c
  intro Q g s hstd hQ
  show wp (conduct policy) (sys (.execve _ _ _) >>= _) Q g s
  rw [wp_bind]
  refine wp_plain (by exact trivial) (hpol _) (fun _ => rfl) ?_
  intro a _
  exact tidy_writeErrorErrno hp _ _ Q g s hstd hQ

/-- `exec` does what the script does that it runs, if it runs one. -/
theorem keeps_cmdExec (hR : Frame R) (turns : Nat) {doScript : Bytes → Sh Unit}
    (hscript : ∀ input, Keeps policy R (doScript input)) (args : List Bytes) :
    Keeps policy R (cmdExec turns doScript args) := by
  have hp : policy.Lenient := fun c _ => hpol c
  have herror : ∀ msg, Keeps policy R (writeError msg) := fun msg =>
    (tidy_writeError hp msg).keeps hR
  cases args with
  | nil => exact herror _
  | cons arg rest =>
    refine .bind hR ((tidy_resolveCmdPath hp arg).keeps hR) ?_
    intro r
    cases r with
    | none => exact herror _
    | some path =>
      refine .bind hR ((tidy_checkShebang hp turns path).keeps hR) ?_
      intro word
      cases word with
      | some word =>
        refine .ite (.bind hR (hscript path) ?_) ((tidy_execProgram hpol _ _).keeps hR)
        intro _ Q g s _ _
        exact wp_exit hp
      | none =>
        dsimp only
        split
        · exact herror _
        · exact (tidy_execProgram hpol _ _).keeps hR

/-- A program that is run is a child, whether it is waited for or not. -/
theorem keeps_runProgram (hR : Frame R) (path : Bytes) (argv : List Bytes) :
    Keeps policy R (runProgram path argv) := by
  have hp : policy.Lenient := fun c _ => hpol c
  intro Q g s hfine hQ
  rw [runProgram, wp_bind]
  refine ⟨⟨trivial, hpol _⟩, ?_⟩
  intro pid _
  show wp (conduct policy) (if pid.ret < 0 then _ else _) Q g (s.parentOf pid.ret)
  have hfine' : Fine g (s.parentOf pid.ret) := hfine.extends (frame_extends.parentOf s pid.ret)
  have hbehind : Tidy policy (if pid.ret < 0 then writeErrorErrno (bytes "run") pid.ret
    else do
      let waited ← sys .wait
      if waited.ret < 0 then writeErrorErrno (bytes "run: wait") waited.ret
      else writeExitCode (storedI32 waited)) := by
    refine .ite (tidy_writeErrorErrno hp _ _) (tidy_quiet hp quiet_wait fun waited => ?_)
    exact .ite (tidy_writeErrorErrno hp _ _) (tidy_writeExitCode hp _)
  exact hbehind Q g _ hfine'.standard fun _ => hQ () g _ hfine' (hR.parentOf s pid.ret)

/-- `run` starts a child and waits for one. -/
theorem keeps_cmdRun (hR : Frame R) (turns : Nat) (args : List Bytes) :
    Keeps policy R (cmdRun turns args) := by
  have hp : policy.Lenient := fun c _ => hpol c
  have herror : ∀ msg, Keeps policy R (writeError msg) := fun msg =>
    (tidy_writeError hp msg).keeps hR
  cases args with
  | nil => exact herror _
  | cons arg rest =>
    refine .bind hR ((tidy_resolveCmdPath hp arg).keeps hR) ?_
    intro r
    cases r with
    | none => exact herror _
    | some path =>
      refine .bind hR ((tidy_checkShebang hp turns path).keeps hR) ?_
      intro word
      cases word with
      | some word => exact keeps_runProgram hpol hR _ _
      | none =>
        dsimp only
        split
        · exact herror _
        · exact keeps_runProgram hpol hR _ _

end

end OnyxShell.Process
