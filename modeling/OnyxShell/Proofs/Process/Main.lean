import OnyxShell.Proofs.Process.Eval

/-!
# `OnyxShell.Proofs.Process.Main`: every run of the shell

The prompts keep the invariant, and only the shell itself has one: they read the terminal, which a
child never does. So the whole program is proper (`wp_start`), and along every run of it each call
is one that the process may make (`proper_of_makes`).
-/

set_option autoImplicit false

namespace OnyxShell.Process

open Routine (wp wp_bind wp_mono wp_pure)

variable {policy : Policy} {g : Globals} {s : Proc}

/-- The invariant holds at the start, with the three standard descriptors and no children. -/
theorem fine_init : Fine Globals.init Proc.init := by
  refine ⟨?_, ?_, ?_⟩
  · intro fd hfd
    show fd ∈ ({0, 1, 2} : Finset Nat)
    interval_cases fd <;> decide
  · intro job hjob
    cases hjob
  · intro _ job hjob
    cases hjob

/-- Completion lists a directory and opens nothing. -/
theorem tidy_completionNames (hp : policy.Lenient) (b : UInt8) (e : Editor) :
    Tidy policy (completionNames b e) :=
  .ite (tidy_scanDirNames hp _) (.pure [])

/-- Echo is output only. -/
theorem tidy_writeKey (hp : policy.Lenient) (out : Bytes) : Tidy policy (writeKey out) :=
  .ite (.pure ()) (tidy_writeRaw hp out)

section
variable (hpol : ∀ c, policy c)
include hpol

/-- A key changes the history at most. -/
theorem wp_pressKey (b : UInt8) (rest : Bytes) (e : Editor) (hfine : Fine g s)
    {Q : KeyResult → Globals → Proc → Prop} (hQ : ∀ r g', Fine g' s → Q r g' s) :
    wp (conduct policy) (pressKey b rest e) Q g s := by
  have hp : policy.Lenient := fun c _ => hpol c
  rw [pressKey, wp_bind]
  refine tidy_completionNames hp b e _ g s hfine.standard ?_
  intro names
  rw [wp_bind, Routine.wp_get, wp_bind, Routine.wp_set, wp_bind]
  have hfine' : ∀ h : History, Fine { g with history := h } s :=
    fun _ => hfine.of_jobs (List.Subset.refl _)
  refine tidy_writeKey hp _ _ _ s hfine.standard ?_
  intro _
  rw [wp_pure]
  exact hQ _ _ (hfine' _)

/-- The keys of one read, by induction on them. The process stays as it is, and the globals keep
the invariant. -/
theorem wp_pressKeys (keys : Bytes) (e : Editor) (hfine : Fine g s)
    {Q : Loop.Turn Editor Editor → Globals → Proc → Prop} (hQ : ∀ r g', Fine g' s → Q r g' s) :
    wp (conduct policy) (pressKeys keys e) Q g s := by
  have hp : policy.Lenient := fun c _ => hpol c
  -- On the number of keys that are left, as the recursion of the code.
  induction hlen : keys.length using Nat.strongRecOn generalizing keys e g with
  | ind n ih =>
    cases keys with
    | nil =>
      rw [pressKeys]
      exact hQ _ g hfine
    | cons b rest =>
      rw [pressKeys, wp_bind]
      refine wp_pressKey hpol b rest e hfine ?_
      intro result g' hfine'
      cases result with
      | next skip t =>
        have hshort : (rest.drop skip).length < n := by
          rw [List.length_drop, ← hlen, List.length_cons]
          omega
        exact ih _ hshort _ _ hfine' rfl
      | lineEnd key t => exact hQ _ g' hfine'
      | exit t => exact wp_exit hp

/-- The terminal is read by the shell itself. -/
theorem wp_readTerminal {len : Nat} (hfine : Fine g s) (hgen : s.generation = 0)
    {Q : Answer → Globals → Proc → Prop} (hQ : ∀ a : Answer, a.ret ≤ (len : Int) → Q a g s) :
    wp (conduct policy) (sys (.read 0 len)) Q g s := by
  have hproper : s.Proper (.read 0 len) := ⟨hfine.standard 0 (by decide), fun _ => hgen⟩
  exact wp_plain hproper (hpol _) (fun _ => rfl) hQ

/-- Editing a line, until Enter. The receive buffer keeps its length from read to read. -/
theorem wp_editLine (turns : Nat) {st : RawState} (hlen : st.rxBuf.length = RX_LEN)
    (hfine : Fine g s) (hgen : s.generation = 0) {Q : RawState → Globals → Proc → Prop}
    (hQ : ∀ st' g', st'.rxBuf.length = RX_LEN → Fine g' s → Q st' g' s) :
    wp (conduct policy) (editLine turns st) Q g s := by
  have hp : policy.Lenient := fun c _ => hpol c
  refine Routine.wp_loop (fun st' g' s' => st'.rxBuf.length = RX_LEN ∧ Fine g' s' ∧ s' = s) ?_
    ⟨hlen, hfine, rfl⟩ turns
  rintro st' g' _ ⟨hlen', hfine', rfl⟩
  rw [wp_bind]
  refine wp_readTerminal hpol hfine' hgen ?_
  intro a ha
  simp only
  split
  · rw [wp_bind]
    exact wp_quiet hp quiet_yieldCpu fun _ _ => ⟨hlen', hfine', rfl⟩
  · split
    · exact wp_exit hp
    · -- The keys that have come in are in the buffer.
      have hlen'' : (a.into st'.rxBuf).length = RX_LEN := (a.length_into _).trans hlen'
      rw [wp_bind, wp_slice (by rw [hlen'']; exact Int.toNat_le.mpr ha), wp_bind]
      refine wp_pressKeys hpol _ _ hfine' ?_
      intro r g'' hfine''
      cases r with
      | ret e => exact hQ _ g'' hlen'' hfine''
      | next e => exact ⟨hlen'', hfine'', rfl⟩

/-- A line that has been entered is recorded, expanded and run. -/
theorem keeps_submitLine (turns : Nat) (line : Bytes) :
    Keeps policy Extends (submitLine turns line) := by
  refine .ite (.pure frame_extends ()) ?_
  refine .bind frame_extends (keeps_modify frame_extends fun g => List.Subset.refl _) fun _ => ?_
  exact .ite (keeps_runPipeline hpol turns (keeps_source hpol turns) line)
    (keeps_evalLine hpol turns line)

/-- The raw prompt, line after line. -/
theorem wp_rawModeRepl (turns : Nat) (hfine : Fine g s) (hgen : s.generation = 0) :
    wp (conduct policy) (rawModeRepl turns) (fun _ _ _ => True) g s := by
  have hp : policy.Lenient := fun c _ => hpol c
  refine Routine.wp_loop
    (fun st g' s' => st.rxBuf.length = RX_LEN ∧ Fine g' s' ∧ s'.generation = 0) ?_
    ⟨length_zeros _, hfine, hgen⟩ turns
  rintro st g' s' ⟨hlen, hfine', hgen'⟩
  simp only [rawTurn, wp_bind, wp_writeRaw hp, Routine.wp_modify]
  -- A line that has been run leaves the process what it was, so the next one is read by it too.
  have hlen' : ({ st with editor := st.editor.empty } : RawState).rxBuf.length = RX_LEN := hlen
  have hreset : Fine { g' with history := g'.history.navReset } s' :=
    hfine'.of_jobs (List.Subset.refl _)
  refine wp_editLine hpol turns hlen' hreset hgen' ?_
  intro st' g'' hlen' hfine''
  refine keeps_submitLine hpol turns _ _ g'' s' hfine'' ?_
  intro _ g''' s'' hfine''' hext
  exact ⟨hlen', hfine''', hext.generation.trans hgen'⟩

/-- A turn of the cooked prompt ends where it began: the buffer has its length, the invariant
holds, and the process is the shell and not a child. -/
theorem wp_cookedTurn (turns : Nat) {gLine : Bytes} (hlen : gLine.length = LINE_MAX)
    (hfine : Fine g s) (hgen : s.generation = 0) :
    wp (conduct policy) (cookedTurn turns gLine)
      (fun gLine g' s' => gLine.length = LINE_MAX ∧ Fine g' s' ∧ s'.generation = 0) g s := by
  have hp : policy.Lenient := fun c _ => hpol c
  simp only [cookedTurn, readLine, wp_bind, wp_writeRaw hp, wp_pure]
  refine wp_readTerminal hpol hfine hgen ?_
  intro a ha
  have hlen' : (a.into gLine).length = LINE_MAX := (a.length_into _).trans hlen
  -- `read_line` gives no more bytes than its buffer has.
  generalize hn : (if a.ret ≤ 0 then 0 else a.ret.toNat) = n
  have hfits : n ≤ (a.into gLine).length := by
    rw [Answer.length_into]
    split at hn <;> omega
  split
  · exact ⟨hlen', hfine, hgen⟩
  · rw [wp_bind, wp_slice hfits]
    split
    · exact ⟨hlen', hfine, hgen⟩
    · rw [wp_bind]
      refine keeps_evalLine hpol turns _ _ g s hfine ?_
      intro _ g' s' hfine' hext
      exact ⟨hlen', hfine', hext.generation.trans hgen⟩

/-- The cooked prompt, line after line. -/
theorem wp_cookedModeRepl (turns : Nat) (hfine : Fine g s) (hgen : s.generation = 0) :
    wp (conduct policy) (cookedModeRepl turns) (fun _ _ _ => True) g s := by
  refine Routine.wp_loop
    (fun gLine g' s' => gLine.length = LINE_MAX ∧ Fine g' s' ∧ s'.generation = 0) ?_
    ⟨length_zeros _, hfine, hgen⟩ turns
  rintro gLine g' s' ⟨hlen, hfine', hgen'⟩
  rw [wp_bind]
  exact wp_cookedTurn hpol turns hlen hfine' hgen'

/-- **The shell is proper** from its first instruction on. -/
theorem wp_start (turns : Nat) (arg : ScriptArg) :
    wp (conduct policy) (start turns arg) (fun _ _ _ => True) Globals.init Proc.init := by
  have hp : policy.Lenient := fun c _ => hpol c
  cases arg with
  | some script =>
    cases script with
    | none => exact wp_exit hp
    | some path =>
      -- A script is run, and the process exits.
      show wp (conduct policy) (source turns _ >>= fun _ => exit 0) _ _ _
      rw [wp_bind]
      refine keeps_source hpol turns _ _ _ _ fine_init ?_
      intro _ g s _ _
      exact wp_exit hp
  | none =>
    have hfine : ∀ env, Fine { Globals.init with env := env } Proc.init :=
      fun env => fine_init.of_jobs (List.Subset.refl _)
    rw [start, wp_bind, wp_writeStr hp, wp_bind, envInit, Routine.wp_modify, wp_bind, enableRawMode,
      wp_bind]
    refine wp_quiet hp (quiet_ioctl _ _ _) ?_
    intro a _
    rw [wp_pure]
    split
    · exact wp_rawModeRepl hpol turns (hfine _) rfl
    · exact wp_cookedModeRepl hpol turns (hfine _) rfl

end

section
variable {turns : Nat} {arg : ScriptArg} {events : List (Prog.Event SysCall Answer)} {c : SysCall}

/-- Every call of every run of the shell is one that the invariant allows. -/
theorem allowed_of_makes (h : Makes turns arg events c) :
    (conduct Policy.all).Allowed Proc.init events := by
  rcases h with ⟨⟨k, htrace⟩, hanswered⟩
  have hstart := wp_start Policy.all_all turns arg
  exact (Prog.wp_of_trace htrace hstart hanswered).1

/-- Along every run of the shell, each call is one that the process may make. -/
theorem proper_of_makes (h : Makes turns arg events c) : (Proc.behind events).Proper c := by
  rcases h with ⟨⟨k, htrace⟩, hanswered⟩
  have hstart := wp_start Policy.all_all turns arg
  exact (Prog.wp_of_trace htrace hstart hanswered).2.1.1

end

end OnyxShell.Process
