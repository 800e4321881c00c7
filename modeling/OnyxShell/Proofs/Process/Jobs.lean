import OnyxShell.Process.Jobs
import OnyxShell.Proofs.Children
import OnyxShell.Proofs.Process.Nav

/-!
# `OnyxShell.Proofs.Process.Jobs`: what every function keeps

`Fine` is the invariant of a process. Every job in its table is marked as running, and in the shell
itself its pid is that of a child. `Keeps` is said of a function that keeps the invariant, and whose
process afterwards is related to the one before: `Extends` for any function, and `SameFds` for one
that gives all descriptors back.
-/

set_option autoImplicit false

namespace OnyxShell.Process

open Routine (wp wp_bind wp_mono wp_pure wp_get)

/-- The invariant of a process. The standard descriptors are open, the jobs are marked as running,
and in the shell itself the pid of each is that of a child. -/
structure Fine (g : Globals) (s : Proc) : Prop where
  standard : s.Standard
  running : ∀ job ∈ g.jobs.table, job.running = true
  own : s.generation = 0 → ∀ job ∈ g.jobs.table, asU64 job.pid ∈ s.children

/-- Nothing is closed that was open before. -/
structure Extends (s s' : Proc) : Prop where
  fds : s.fds ⊆ s'.fds
  generation : s'.generation = s.generation
  children : s.children ⊆ s'.children

/-- The same descriptors are open. -/
structure SameFds (s s' : Proc) : Prop where
  fds : s'.fds = s.fds
  generation : s'.generation = s.generation
  children : s.children ⊆ s'.children

/-- What may become of a process. A relation between the process before and behind a function that
holds of doing nothing and of one step after another. -/
structure Frame (R : Proc → Proc → Prop) : Prop where
  refl : ∀ s, R s s
  trans : ∀ {s s' s''}, R s s' → R s' s'' → R s s''
  /-- A new child changes nothing that counts. -/
  parentOf : ∀ s pid, R s (s.parentOf pid)

/-- A `fork` does not touch the parent's descriptors. -/
theorem Proc.fds_parentOf (s : Proc) (pid : Int) : (s.parentOf pid).fds = s.fds := by
  rw [Proc.parentOf]
  split <;> rfl

/-- The parent stays the process it was. -/
theorem Proc.generation_parentOf (s : Proc) (pid : Int) :
    (s.parentOf pid).generation = s.generation := by
  rw [Proc.parentOf]
  split <;> rfl

/-- A `fork` forgets no child. -/
theorem Proc.children_parentOf (s : Proc) (pid : Int) : s.children ⊆ (s.parentOf pid).children := by
  rw [Proc.parentOf]
  split
  · exact Finset.subset_insert _ _
  · exact Finset.Subset.refl _

/-- What keeps the descriptors and forgets no child may be repeated. -/
theorem frame_sameFds : Frame SameFds where
  refl _ := ⟨rfl, rfl, Finset.Subset.refl _⟩
  trans h h' := ⟨h'.fds.trans h.fds, h'.generation.trans h.generation, h.children.trans h'.children⟩
  parentOf s pid := ⟨s.fds_parentOf pid, s.generation_parentOf pid, s.children_parentOf pid⟩

/-- Keeping the descriptors is more than keeping those that were open. -/
theorem SameFds.extends {s s' : Proc} (h : SameFds s s') : Extends s s' :=
  ⟨Finset.subset_of_eq h.fds.symm, h.generation, h.children⟩

/-- Opening more may be repeated too. -/
theorem frame_extends : Frame Extends where
  refl s := (frame_sameFds.refl s).extends
  trans h h' := ⟨h.fds.trans h'.fds, h'.generation.trans h.generation, h.children.trans h'.children⟩
  parentOf s pid := (frame_sameFds.parentOf s pid).extends

variable {α β : Type} {policy : Policy} {R : Proc → Proc → Prop} {g : Globals} {s s' : Proc}

/-- The invariant with the same jobs, or fewer. -/
theorem Fine.of_jobs {g' : Globals} (h : Fine g s) (hjobs : g'.jobs.table ⊆ g.jobs.table) :
    Fine g' s :=
  ⟨h.standard, fun job hjob => h.running job (hjobs hjob), fun h0 job hjob =>
    h.own h0 job (hjobs hjob)⟩

/-- The invariant in a process with more descriptors and children. -/
theorem Fine.extends (h : Fine g s) (hext : Extends s s') : Fine g s' where
  standard fd hfd := hext.fds (h.standard fd hfd)
  running := h.running
  own h0 job hjob := hext.children (h.own (hext.generation ▸ h0) job hjob)

/-- The function keeps the invariant, and the process behind it is related to the one before.
`Tidy` is the case in which nothing has changed. Functions that wait, start children or change the
globals are not tidy and keep a frame. -/
def Keeps (policy : Policy) (R : Proc → Proc → Prop) (x : Sh α) : Prop :=
  ∀ (Q : α → Globals → Proc → Prop) g s, Fine g s →
    (∀ a g' s', Fine g' s' → R s s' → Q a g' s') → wp (conduct policy) x Q g s

/-- A frame may be weakened. -/
theorem Keeps.mono {R' : Proc → Proc → Prop} {x : Sh α} (hx : Keeps policy R x)
    (hR : ∀ s s', R s s' → R' s s') : Keeps policy R' x := by
  intro Q g s hfine hQ
  refine hx Q g s hfine ?_
  intro a g' s' hfine' hrel
  exact hQ a g' s' hfine' (hR s s' hrel)

section
variable (hR : Frame R)
include hR

/-- A tidy program keeps every frame, since its end state is where it began. -/
theorem Tidy.keeps {x : Sh α} (hx : Tidy policy x) : Keeps policy R x := by
  intro Q g s hfine hQ
  exact hx Q g s hfine.standard fun a => hQ a g s hfine (hR.refl s)

/-- A program that has returned keeps every frame. -/
theorem Keeps.pure (a : α) : Keeps policy R (Pure.pure a : Sh α) := (Tidy.pure a).keeps hR

/-- Programs that keep a frame, one after the other. A frame is transitive. -/
theorem Keeps.bind {x : Sh β} {f : β → Sh α} (hx : Keeps policy R x)
    (hf : ∀ b, Keeps policy R (f b)) : Keeps policy R (x >>= f) := by
  intro Q g s hfine hQ
  rw [wp_bind]
  refine hx _ g s hfine ?_
  intro b g' s' hfine' hrel
  refine hf b Q g' s' hfine' ?_
  intro a g'' s'' hfine'' hrel'
  exact hQ a g'' s'' hfine'' (hR.trans hrel hrel')

/-- A loop over a list whose turns keep the frame. -/
theorem Keeps.forM {l : List β} {f : β → Sh Unit} (hf : ∀ b ∈ l, Keeps policy R (f b)) :
    Keeps policy R (l.forM f) := by
  intro Q g s hfine hQ
  refine wp_mono (Routine.wp_forM (fun g' s' => Fine g' s' ∧ R s s') ?_ ⟨hfine, hR.refl s⟩) ?_
  · rintro b hb g' s' ⟨hfine', hrel⟩
    refine hf b hb _ g' s' hfine' ?_
    intro _ g'' s'' hfine'' hrel'
    exact ⟨hfine'', hR.trans hrel hrel'⟩
  · rintro ⟨⟩ g' s' ⟨hfine', hrel⟩
    exact hQ () g' s' hfine' hrel

/-- A loop with a budget whose turns keep the frame, by induction on the budget. -/
theorem Keeps.loop {body : β → Sh (Loop.Turn α β)} (hbody : ∀ b, Keeps policy R (body b))
    (turns : Nat) (b : β) : Keeps policy R (Routine.loop body turns b) := by
  intro Q g s hfine hQ
  refine Routine.wp_loop (fun _ g' s' => Fine g' s' ∧ R s s') ?_ ⟨hfine, hR.refl s⟩ turns
  rintro b g' s' ⟨hfine', hrel⟩
  refine hbody b _ g' s' hfine' ?_
  intro t g'' s'' hfine'' hrel'
  cases t with
  | ret a => exact hQ a g'' s'' hfine'' (hR.trans hrel hrel')
  | next b => exact ⟨hfine'', hR.trans hrel hrel'⟩

/-- A change of the globals that takes jobs out at most. -/
theorem keeps_modify {f : Globals → Globals} (hf : ∀ g, (f g).jobs.table ⊆ g.jobs.table) :
    Keeps policy R (modify f : Sh PUnit) := by
  intro Q g s hfine hQ
  exact hQ ⟨⟩ (f g) s (hfine.of_jobs (hf g)) (hR.refl s)

end

/-- A choice between programs that keep the frame. -/
theorem Keeps.ite {c : Prop} [Decidable c] {x y : Sh α} (hx : Keeps policy R x)
    (hy : Keeps policy R y) : Keeps policy R (if c then x else y) := by
  split
  · exact hx
  · exact hy

/-! ### The job table -/

section
variable (hp : policy.Lenient) (hR : Frame R)
include hp

/-- The line `[id] pid` is output only. -/
theorem wp_writeJob (id : Nat) (pid : Int) {Q : Unit → Globals → Proc → Prop} :
    wp (conduct policy) (writeJob id pid) Q g s ↔ Q () g s := by
  simp only [writeJob, wp_bind, wp_writeRaw hp, wp_writeU64 hp, wp_writeI64 hp]

/-- `jobs` is output only. -/
theorem tidy_jobList : Tidy policy jobList := by
  intro Q g s hstd hQ
  show wp (conduct policy) (g.jobs.table.forM _) Q g s
  refine Tidy.forM ?_ Q g s hstd hQ
  intro job _
  refine .of_wp fun Q g s => ?_
  simp only [wp_bind, wp_writeJob hp, wp_writeRaw hp, wp_newline hp]

/-- A new job is a child. -/
theorem keeps_jobLaunched {pid : Int} (hpos : 0 < pid) (hlt : pid < (Family.PID_BOUND : Int))
    {Q : Unit → Globals → Proc → Prop} (hfine : Fine g s) (hchild : pid.toNat ∈ s.children)
    (hQ : ∀ g', Fine g' s → Q () g' s) : wp (conduct policy) (jobLaunched pid) Q g s := by
  simp only [jobLaunched, wp_bind, Routine.wp_get, Routine.wp_set, wp_writeJob hp, wp_newline hp]
  refine hQ _ ?_
  -- A small pid survives the casts.
  have hcast : asU64 (toI32 pid.toNat) = pid.toNat := by
    have hsmall : pid.toNat < Family.PID_BOUND := (Int.toNat_lt hpos.le).mpr hlt
    rw [toI32_of_lt hsmall, asU64_of_lt hsmall]
  have hmem : ∀ job ∈ (g.jobs.jobAdd (toI32 pid.toNat)).2.table,
      job ∈ g.jobs.table ∨ job.running = true ∧ asU64 job.pid ∈ s.children := by
    intro job hjob
    rw [Jobs.jobAdd] at hjob
    split at hjob
    · rcases List.mem_append.mp hjob with hold | hnew
      · exact Or.inl hold
      · rw [List.mem_singleton.mp hnew]
        exact Or.inr ⟨rfl, by rw [hcast]; exact hchild⟩
    · exact Or.inl hjob
  refine ⟨hfine.standard, ?_, ?_⟩
  · intro job hjob
    rcases hmem job hjob with hold | hnew
    · exact hfine.running job hold
    · exact hnew.1
  · intro h0 job hjob
    rcases hmem job hjob with hold | hnew
    · exact hfine.own h0 job hold
    · exact hnew.2

include hR

/-- A job that is reaped is taken out. -/
theorem keeps_reapOne (pid : Int) : Keeps policy R (reapOne pid) := by
  intro Q g s hfine hQ
  rw [reapOne, wp_bind, wp_get]
  split
  · exact hQ () g s hfine (hR.refl s)
  · rename_i job jobs hremove
    simp only [wp_bind, wp_writeJob hp, wp_writeRaw hp]
    have hjobs : jobs = (g.jobs.remove pid).2 := by rw [hremove]
    refine hQ _ _ s (hfine.of_jobs ?_) (hR.refl s)
    rw [hjobs]
    exact List.eraseP_subset

/-- Reaping takes jobs from the table. The invariant holds of those that remain. -/
theorem keeps_jobReap (turns : Nat) : Keeps policy R (jobReap turns) := by
  refine Keeps.loop hR ?_ turns ()
  intro _ Q g s hfine hQ
  rw [wp_bind]
  refine wp_quiet hp (quiet_waitpid _) ?_
  intro a _
  refine Keeps.ite (.pure hR _) (.bind hR (keeps_reapOne hp hR _) fun _ => .pure hR _) Q g s hfine hQ

/-- `fg` and `bg` get a job of the table. -/
theorem keeps_withJob (name : Bytes) {act : Job → Sh Unit}
    (hact : ∀ (Q : Unit → Globals → Proc → Prop) g s, Fine g s → ∀ job ∈ g.jobs.table,
      (∀ g', Fine g' s → Q () g' s) → wp (conduct policy) (act job) Q g s) (args : List Bytes) :
    Keeps policy R (withJob name act args) := by
  have herror : ∀ msg, Keeps policy R (writeError msg) := fun msg =>
    (tidy_writeError hp msg).keeps hR
  cases args with
  | nil => exact herror _
  | cons arg args =>
    refine .ite (herror _) ?_
    intro Q g s hfine hQ
    rw [wp_bind, wp_get]
    split
    · rename_i job hfind
      refine hact Q g s hfine job (List.mem_of_find?_eq_some hfind) ?_
      intro g' hfine'
      exact hQ () g' s hfine' (hR.refl s)
    · exact herror _ Q g s hfine hQ

/-- `fg` waits for the process of a job, which is a child by the invariant. -/
theorem keeps_cmdFg (args : List Bytes) : Keeps policy R (cmdFg args) := by
  refine keeps_withJob hp hR _ ?_ args
  intro Q g s hfine job hjob hQ
  have hproper : s.Proper (.waitpid (asU64 job.pid) 0) := Or.inr fun h0 => hfine.own h0 job hjob
  rw [wp_bind]
  refine wp_plain hproper (hp _ trivial) (fun _ => rfl) ?_
  intro _ _
  simp only [wp_bind, wp_writeJob hp, wp_writeRaw hp]
  exact hQ _ (hfine.of_jobs List.eraseP_subset)

/-- Every job is running, so `bg` sends no signal. -/
theorem keeps_cmdBg (args : List Bytes) : Keeps policy R (cmdBg args) := by
  refine keeps_withJob hp hR _ ?_ args
  intro Q g s hfine job hjob hQ
  simp only [hfine.running job hjob, Bool.true_eq_false, if_false, wp_bind, wp_writeJob hp,
    wp_newline hp]
  exact hQ g hfine

end

end OnyxShell.Process
