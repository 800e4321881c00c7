import OnyxShell.Process.Pipeline
import OnyxShell.Proofs.Process.Exec

/-!
# `OnyxShell.Proofs.Process.Pipeline`: the executor and its descriptors

The executor holds descriptors that it has opened (`Held`), and closes no others. `Chain` is the
invariant of its segment loop: what the next segment reads from is held and is not on the list of
those to be closed, and that list has nothing twice. A child gets its input and its output in place
of the standard ones before it goes on (`wp_redirectChild`), so it starts like any process.

What is left open is still above what was open before, so the executor `Keeps` the process in the
frame `Extends`.
-/

set_option autoImplicit false

namespace OnyxShell.Process

open Routine (wp wp_bind wp_mono wp_pure)

variable {α : Type} {policy : Policy} {g : Globals} {s s' s₀ : Proc}

/-! ### Descriptors that are held -/

/-- A descriptor of the executor: it is open, and it was not before, unless it is a standard one.
It is what the executor may close without taking anything from the shell. -/
structure Held (s₀ s : Proc) (fd : Int) : Prop where
  nonneg : 0 ≤ fd
  mem : fd.toNat ∈ s.fds
  fresh : 2 < fd → fd.toNat ∉ s₀.fds

/-- A descriptor that the launch holds is still held when more have been opened. -/
theorem Held.extends {fd : Int} (h : Held s₀ s fd) (hext : Extends s s') : Held s₀ s' fd :=
  ⟨h.nonneg, hext.fds h.mem, h.fresh⟩

/-- It is still held when another one is closed. -/
theorem Held.withoutFd {fd other : Int} (h : Held s₀ s fd) (hother : 0 ≤ other) (hne : fd ≠ other) :
    Held s₀ (s.withoutFd other.toNat) fd := by
  refine ⟨h.nonneg, Finset.mem_erase.mpr ⟨?_, h.mem⟩, h.fresh⟩
  intro heq
  have hnonneg := h.nonneg
  omega

/-- A standard descriptor is held. -/
theorem held_standard {fd : Int} (hstd : s.Standard) (hnonneg : 0 ≤ fd) (hle : fd ≤ 2) :
    Held s₀ s fd :=
  ⟨hnonneg, hstd _ (by omega), fun hlt => absurd hlt (by omega)⟩

/-- Opening a descriptor extends the process. -/
theorem extends_withFd (s : Proc) (fd : Nat) : Extends s (s.withFd fd) :=
  ⟨Finset.subset_insert _ _, rfl, Finset.Subset.refl _⟩

/-- A descriptor that has been given out is held. -/
theorem held_withFd {n : Nat} (hext : Extends s₀ s) (hn : n ∉ s.fds) :
    Held s₀ (s.withFd n) (n : Int) :=
  ⟨Int.natCast_nonneg n, by rw [Int.toNat_natCast]; exact s.mem_withFd n, fun _ hold =>
    hn (by rw [Int.toNat_natCast] at hold; exact hext.fds hold)⟩

/-- What was open before stays open when a held one is closed. -/
theorem Held.extends_withoutFd {fd : Int} (h : Held s₀ s fd) (hext : Extends s₀ s) (hlt : 2 < fd) :
    Extends s₀ (s.withoutFd fd.toNat) := by
  refine ⟨?_, hext.generation, hext.children⟩
  intro n hn
  refine Finset.mem_erase.mpr ⟨?_, hext.fds hn⟩
  rintro rfl
  exact h.fresh hlt hn

/-- Closing a descriptor above the standard ones keeps the invariant. -/
theorem Fine.withoutFd (h : Fine g s) {fd : Nat} (hlt : 2 < fd) : Fine g (s.withoutFd fd) := by
  refine ⟨?_, h.running, h.own⟩
  intro n hn
  exact Finset.mem_erase.mpr ⟨by omega, h.standard n hn⟩

/-- The process behind a `closeAboveTwo`. -/
def Proc.closedAboveTwo (s : Proc) (fd : Int) : Proc := if fd > 2 then s.withoutFd fd.toNat else s

/-- Closing a held descriptor. -/
theorem wp_closeAboveTwo (hp : policy.Lenient) {fd : Int} (hheld : fd > 2 → Held s₀ s fd)
    (hfine : Fine g s) (hext : Extends s₀ s) {Q : Unit → Globals → Proc → Prop}
    (hQ : Fine g (s.closedAboveTwo fd) → Extends s₀ (s.closedAboveTwo fd) →
      Q () g (s.closedAboveTwo fd)) :
    wp (conduct policy) (closeAboveTwo fd) Q g s := by
  rw [Proc.closedAboveTwo] at hQ
  rw [closeAboveTwo]
  split
  · rename_i hlt
    rw [if_pos hlt] at hQ
    have hclose : 2 < fd.toNat := by omega
    rw [wp_bind]
    refine wp_close hp (hheld hlt).mem hclose ?_
    intro _
    exact hQ (hfine.withoutFd hclose) ((hheld hlt).extends_withoutFd hext hlt)
  · rename_i hle
    rw [if_neg hle] at hQ
    exact hQ hfine hext

/-- Closing another descriptor leaves the one that is held. The condition is empty where the other
one is a standard one, which is not closed. -/
theorem Held.closedAboveTwo {fd other : Int} (h : Held s₀ s fd) (hne : other > 2 → fd ≠ other) :
    Held s₀ (s.closedAboveTwo other) fd := by
  rw [Proc.closedAboveTwo]
  split
  · rename_i hlt
    exact h.withoutFd (by omega) (hne hlt)
  · exact h

/-! ### Children -/

/-- A process that has come out of a `fork`. -/
def Proc.child (s : Proc) : Proc := ⟨s.fds, s.generation + 1, ∅⟩

/-- A child starts with the invariant: it has the descriptors of its parent and no children. -/
theorem Fine.child (h : Fine g s) : Fine g s.child :=
  ⟨h.standard, h.running, fun h0 => absurd h0 (Nat.succ_ne_zero _)⟩

/-- A child holds what its parent held. -/
theorem Held.child {fd : Int} (h : Held s₀ s fd) : Held s₀ s.child fd := ⟨h.nonneg, h.mem, h.fresh⟩

/-- A `fork` fails, or it comes back in the child, or in the parent with a pid. -/
theorem wp_fork (hpol : ∀ c, policy c) {Q : Answer → Globals → Proc → Prop}
    (hfail : ∀ a, a.ret < 0 → Q a g s) (hchild : ∀ a, a.ret = 0 → Q a g s.child)
    (hparent : ∀ a, 0 < a.ret → a.ret < (Family.PID_BOUND : Int) →
      a.ret.toNat ∈ (s.parentOf a.ret).children → Q a g (s.parentOf a.ret)) :
    wp (conduct policy) (sys .fork) Q g s := by
  refine ⟨⟨trivial, hpol _⟩, ?_⟩
  intro a ha
  show Q a g (if a.ret = 0 then s.child else s.parentOf a.ret)
  split
  · rename_i h0
    exact hchild a h0
  · rename_i h0
    rcases Int.lt_or_gt_of_ne h0 with hneg | hpos
    · rw [Proc.parentOf, if_neg (by omega)]
      exact hfail a hneg
    · refine hparent a hpos ha ?_
      rw [Proc.parentOf, if_pos hpos]
      exact Finset.mem_insert_self _ _

section
variable (hpol : ∀ c, policy c) {dispatch : List Bytes → Sh Unit}
  (hd : ∀ args, Keeps policy Extends (dispatch args))
include hpol

include hd in
/-- A child runs its command and is gone. -/
theorem wp_childMain (hfine : Fine g s) (args : List Bytes) {Q : α → Globals → Proc → Prop} :
    wp (conduct policy) (childMain dispatch args) Q g s := by
  have hp : policy.Lenient := fun c _ => hpol c
  rw [childMain, wp_bind]
  refine hd args _ g s hfine ?_
  intro _ g' s' _ _
  exact wp_exit hp

/-- A standard descriptor of a child is closed and given out again. -/
theorem wp_replaceStandard {n : Nat} {fd : Int} {Q : Unit → Globals → Proc → Prop} (hn : n ≤ 2)
    (hstd : s.Standard) (hgen : s.generation ≠ 0) (hfd : Held s₀ s fd) (hQ : Q () g s) :
    wp (conduct policy) (replaceStandard n fd) Q g s := by
  have hnonneg := hfd.nonneg
  rw [replaceStandard]
  split
  · rename_i hne
    rw [wp_bind]
    refine ⟨⟨⟨hstd n hn, fun h0 => absurd h0 hgen⟩, hpol _⟩, ?_⟩
    intro _ _
    show wp (conduct policy) (sys (.dup fd.toNat) >>= _) Q g (s.withoutFd n)
    have hdup : fd.toNat ∈ (s.withoutFd n).fds := Finset.mem_erase.mpr ⟨by omega, hfd.mem⟩
    rw [wp_bind]
    refine ⟨⟨hdup, hpol _⟩, ?_⟩
    intro a ha
    -- The lowest free number is the one that has just been closed.
    rcases ha hdup with ⟨hret, hfree, hlow⟩
    have hlt : ¬ a.ret.toNat < n := fun hlt =>
      hfree (Finset.mem_erase.mpr ⟨by omega, hstd _ (by omega)⟩)
    have hge : ¬ n < a.ret.toNat := fun hgt => Finset.notMem_erase n s.fds (hlow n hgt)
    have heq : a.ret.toNat = n := by omega
    show Q () g ((s.withoutFd n).opened a.ret)
    rw [Proc.opened, if_pos hret, heq, Proc.withoutFd]
    show Q () g { s with fds := insert n (s.fds.erase n) }
    rw [Finset.insert_erase (hstd n hn)]
    exact hQ
  · exact hQ

/-- A child of the executor has the descriptors of its parent, with its input and its output at 0
and 1. -/
theorem wp_redirectChild {curReadFd curWriteFd : Int} (hstd : s.Standard)
    (hgen : s.generation ≠ 0) (hread : Held s₀ s curReadFd) (hwrite : Held s₀ s curWriteFd)
    {Q : Unit → Globals → Proc → Prop} (hQ : Q () g s) :
    wp (conduct policy) (redirectChild curReadFd curWriteFd) Q g s := by
  rw [redirectChild, wp_bind]
  refine wp_replaceStandard hpol (by decide) hstd hgen hread ?_
  exact wp_replaceStandard hpol (by decide) hstd hgen hwrite hQ

/-! ### The segment loop -/

omit hpol in
/-- A descriptor number is small enough to be the same as an `i64`. -/
theorem asI64_of_lt {n : Nat} (h : n < FD_LIMIT) : asI64 n = n := by
  have hroom : FD_LIMIT * 2 ≤ USIZE := by decide +kernel
  exact Int.bmod_eq_of_le_mul_two (by omega) (by omega)

/-- The invariant of the segment loop, since the state `s₀` before the redirections. It holds of
the loop variables and of the process together, and says which of the descriptors are the loop's
own. -/
structure Chain (s₀ s : Proc) (stdoutFd stdinFd : Int) (l : Launch) : Prop where
  ext : Extends s₀ s
  stdout : Held s₀ s stdoutFd
  stdin : Held s₀ s stdinFd
  prev : Held s₀ s l.prevReadFd
  prevNe : l.prevReadFd ≠ stdinFd → l.prevReadFd ≠ stdoutFd
  entries : ∀ e ∈ l.parentClose, e > 2 → Held s₀ s e
  once : l.parentClose.Pairwise fun e e' => e > 2 → e' ≠ e
  spawned : ∀ pid ∈ l.spawnedPids, pid.toNat ∈ s.children
  last : l.lastPid > 0 → l.lastPid < (Family.PID_BOUND : Int) ∧ l.lastPid.toNat ∈ s.children

/-- What the next segment reads from is not to be closed yet. -/
def Launch.Pending (l : Launch) (stdinFd : Int) : Prop :=
  l.prevReadFd ≠ stdinFd → l.prevReadFd ∉ l.parentClose

/-- What the two ends of a segment are, in the state `s'` behind its pipe. -/
structure Ends (s₀ s s' : Proc) (stdoutFd prevReadFd : Int) (isLast : Bool)
    (ends : Int × Int) : Prop where
  ext : Extends s s'
  write : Held s₀ s' ends.1
  read : Held s₀ s' ends.2
  last : isLast = true → ends = (stdoutFd, prevReadFd)
  new : isLast = false → ends.1.toNat ∉ s.fds ∧ ends.2.toNat ∉ s.fds ∧ ends.1 ≠ ends.2

/-- The pipe in front of a segment. Its two ends are new descriptors, unless the segment is the
last. -/
theorem wp_segmentPipe {stdoutFd stdinFd : Int} {l : Launch} (isLast : Bool) (hfine : Fine g s)
    (hchain : Chain s₀ s stdoutFd stdinFd l) {Q : Option (Int × Int) → Globals → Proc → Prop}
    (hfail : Q none g s)
    (hok : ∀ ends s', Ends s₀ s s' stdoutFd l.prevReadFd isLast ends → Fine g s' →
      Q (some ends) g s') :
    wp (conduct policy) (segmentPipe isLast stdoutFd l.prevReadFd) Q g s := by
  rw [segmentPipe]
  cases isLast with
  | true =>
    refine hok _ s ⟨frame_extends.refl s, hchain.stdout, hchain.prev, fun _ => rfl, ?_⟩ hfine
    intro h
    cases h
  | false =>
    rw [if_neg Bool.false_ne_true, wp_bind]
    refine ⟨⟨trivial, hpol _⟩, ?_⟩
    intro a ha
    show Q (if a.ret < 0 then none else some (asI64 (pipeEnds a).2, asI64 (pipeEnds a).1)) g
      (if 0 ≤ a.ret then (s.withFd (pipeEnds a).1).withFd (pipeEnds a).2 else s)
    by_cases hret : a.ret < 0
    · rw [if_pos hret, if_neg (Int.not_le.mpr hret)]
      exact hfail
    · have hnonneg := Int.not_lt.mp hret
      rcases ha hnonneg with ⟨hread, hwrite, hreadLt, hwriteLt⟩
      rw [if_neg hret, if_pos hnonneg, asI64_of_lt hreadLt, asI64_of_lt hwriteLt]
      have hext := extends_withFd s (pipeEnds a).1
      have hext' := extends_withFd (s.withFd (pipeEnds a).1) (pipeEnds a).2
      refine hok _ _ ⟨frame_extends.trans hext hext', ?_, ?_, ?_, ?_⟩
        (hfine.extends (frame_extends.trans hext hext'))
      · exact held_withFd (frame_extends.trans hchain.ext hext) hwrite.1
      · exact (held_withFd hchain.ext hread.1).extends hext'
      · intro h
        cases h
      · -- The write end is entered behind the read end, so the two are not one.
        intro _
        rw [Int.toNat_natCast, Int.toNat_natCast]
        refine ⟨fun hmem => hwrite.1 (Finset.mem_insert_of_mem hmem), hread.1, ?_⟩
        intro heq
        have hsame : (pipeEnds a).2 = (pipeEnds a).1 := Int.ofNat.inj heq
        exact hwrite.1 (hsame ▸ Finset.mem_insert_self _ _)

omit hpol in
/-- A `parent_close` entry that counts is held, and it is on the list for the first time. -/
theorem held_parentCloseEntry {stdoutFd stdinFd : Int} {l : Launch} {isLast : Bool}
    {ends : Int × Int} (hchain : Chain s₀ s stdoutFd stdinFd l) (hpending : l.Pending stdinFd)
    (hends : Ends s₀ s s' stdoutFd l.prevReadFd isLast ends)
    (hlt : parentCloseEntry l.prevReadFd ends.1 stdoutFd stdinFd > 2) :
    Held s₀ s' (parentCloseEntry l.prevReadFd ends.1 stdoutFd stdinFd) ∧
      (∀ e ∈ l.parentClose, parentCloseEntry l.prevReadFd ends.1 stdoutFd stdinFd ≠ e) ∧
      (isLast = false → parentCloseEntry l.prevReadFd ends.1 stdoutFd stdinFd ≠ ends.2) := by
  rw [parentCloseEntry] at hlt ⊢
  split
  · -- What the segment reads from has not been listed, because it was still to be read from.
    rename_i hread
    refine ⟨hchain.prev.extends hends.ext, ?_, ?_⟩
    · rintro e he rfl
      exact hpending hread.2 he
    · intro hnotLast heq
      exact (hends.new hnotLast).2.1 (heq ▸ hchain.prev.mem)
  · rename_i hread
    rw [if_neg hread] at hlt
    split
    · -- A write end of its own is one of a new pipe.
      rename_i hwrite
      have hnotLast : isLast = false := by
        cases isLast with
        | true => exact absurd (congrArg Prod.fst (hends.last rfl)) hwrite.2
        | false => rfl
      rcases hends.new hnotLast with ⟨hnew, -, hne⟩
      refine ⟨hends.write, ?_, fun _ => hne⟩
      rintro e he rfl
      exact hnew (hchain.entries _ he hwrite.1).mem
    · rename_i hwrite
      rw [if_neg hwrite] at hlt
      omega

omit hpol in
/-- A new read end is not on the list to be closed. -/
theorem pending_spawned {stdoutFd stdinFd : Int} {l : Launch} {isLast : Bool} {ends : Int × Int}
    (hfine : Fine g s) (hchain : Chain s₀ s stdoutFd stdinFd l) (hpending : l.Pending stdinFd)
    (hends : Ends s₀ s s' stdoutFd l.prevReadFd isLast ends) (hnotLast : isLast = false) :
    ends.2 ∉ l.parentClose ++ [parentCloseEntry l.prevReadFd ends.1 stdoutFd stdinFd] := by
  have hnew := (hends.new hnotLast).2.1
  have hlt : ends.2 > 2 := by
    have habove := hfine.standard.lt_of_notMem hnew
    omega
  intro hmem
  rcases List.mem_append.mp hmem with hold | hentry
  · exact hnew (hchain.entries _ hold hlt).mem
  · have heq := List.mem_singleton.mp hentry
    have hcounts := heq ▸ hlt
    exact (held_parentCloseEntry hchain hpending hends hcounts).2.2 hnotLast heq.symm

/-- The loop variables behind a `fork`. -/
def Launch.behind (l : Launch) (pid stdoutFd stdinFd : Int) (ends : Int × Int) : Launch where
  prevReadFd := ends.2
  lastPid := pid
  spawnedPids := l.spawnedPids ++ [pid]
  parentClose := l.parentClose ++ [parentCloseEntry l.prevReadFd ends.1 stdoutFd stdinFd]

omit hpol in
/-- A segment that has been started keeps the invariant. -/
theorem Chain.behind {stdoutFd stdinFd pid : Int} {l : Launch} {isLast : Bool} {ends : Int × Int}
    (hchain : Chain s₀ s stdoutFd stdinFd l) (hpending : l.Pending stdinFd)
    (hends : Ends s₀ s s' stdoutFd l.prevReadFd isLast ends)
    (hlt : pid < (Family.PID_BOUND : Int)) (hchild : pid.toNat ∈ (s'.parentOf pid).children) :
    Chain s₀ (s'.parentOf pid) stdoutFd stdinFd (l.behind pid stdoutFd stdinFd ends) := by
  have hparent : Extends s' (s'.parentOf pid) := frame_extends.parentOf s' pid
  have hext : Extends s (s'.parentOf pid) := frame_extends.trans hends.ext hparent
  refine ⟨frame_extends.trans hchain.ext hext, hchain.stdout.extends hext,
    hchain.stdin.extends hext, hends.read.extends hparent, ?_, ?_, ?_, ?_, fun _ => ⟨hlt, hchild⟩⟩
  · -- A new read end was not open when the file of the output was.
    show ends.2 ≠ stdinFd → ends.2 ≠ stdoutFd
    cases isLast with
    | true =>
      rw [hends.last rfl]
      exact hchain.prevNe
    | false =>
      rintro - heq
      exact (hends.new rfl).2.1 (heq ▸ hchain.stdout.mem)
  · intro e he hcounts
    rcases List.mem_append.mp he with hold | hentry
    · exact (hchain.entries e hold hcounts).extends hext
    · have heq := List.mem_singleton.mp hentry
      subst heq
      exact (held_parentCloseEntry hchain hpending hends hcounts).1.extends hparent
  · -- The new entry is on the list only once.
    refine List.pairwise_append.mpr ⟨hchain.once, List.pairwise_singleton _ _, ?_⟩
    intro e he e' he' hcounts
    rw [List.mem_singleton.mp he']
    by_cases hentry : parentCloseEntry l.prevReadFd ends.1 stdoutFd stdinFd > 2
    · exact (held_parentCloseEntry hchain hpending hends hentry).2.1 e he
    · intro heq
      omega
  · intro p hp
    rcases List.mem_append.mp hp with hold | hnew
    · exact hext.children (hchain.spawned p hold)
    · rw [List.mem_singleton.mp hnew]
      exact hchild

/-- The exit of the loop when `fork` fails: what the segment would have used is closed. -/
theorem wp_forkFailed {stdoutFd stdinFd ret : Int} {l : Launch} {isLast : Bool} {ends : Int × Int}
    (hfine : Fine g s') (hchain : Chain s₀ s stdoutFd stdinFd l)
    (hends : Ends s₀ s s' stdoutFd l.prevReadFd isLast ends) {Q : Unit → Globals → Proc → Prop}
    (hQ : ∀ s', Fine g s' → Extends s₀ s' → Q () g s') :
    wp (conduct policy) (forkFailed ret l.prevReadFd ends.1 stdinFd) Q g s' := by
  have hp : policy.Lenient := fun c _ => hpol c
  have hprev := hchain.prev.extends hends.ext
  rw [forkFailed, wp_bind, wp_writeErrorErrno hp, wp_bind]
  refine wp_closeAboveTwo hp (fun _ => hends.write) hfine
    (frame_extends.trans hchain.ext hends.ext) ?_
  intro hfine' hext'
  split
  · rename_i hne
    -- The write end is closed first, and it is another descriptor.
    have hread : Held s₀ (s'.closedAboveTwo ends.1) l.prevReadFd := by
      refine hprev.closedAboveTwo ?_
      intro _ heq
      cases isLast with
      | true =>
        have hwrite : ends.1 = stdoutFd := congrArg Prod.fst (hends.last rfl)
        exact hchain.prevNe hne (heq.trans hwrite)
      | false => exact (hends.new rfl).1 (heq ▸ hchain.prev.mem)
    exact wp_closeAboveTwo hp (fun _ => hread) hfine' hext' fun hfine'' hext'' =>
      hQ _ hfine'' hext''
  · exact hQ _ hfine' hext'

include hd

/-- **One turn of the launch.** What is open behind it is what was open before, the ends that the
next turn needs, and the targets of the redirections. -/
theorem wp_spawnSegment {stdoutFd stdinFd : Int} {l : Launch} (line : Bytes) (seg : Segment)
    (isLast : Bool) (hfine : Fine g s) (hchain : Chain s₀ s stdoutFd stdinFd l)
    (hpending : l.Pending stdinFd) {Q : Option Launch → Globals → Proc → Prop}
    (hnone : ∀ s', Fine g s' → Extends s₀ s' → Q none g s')
    (hsome : ∀ l' s', Fine g s' → Chain s₀ s' stdoutFd stdinFd l' →
      (isLast = false → l'.Pending stdinFd) → Q (some l') g s') :
    wp (conduct policy) (spawnSegment dispatch line stdoutFd stdinFd seg isLast l) Q g s := by
  have hp : policy.Lenient := fun c _ => hpol c
  rw [spawnSegment]
  split
  · exact hsome l s hfine hchain fun _ => hpending
  · rw [wp_bind]
    refine wp_segmentPipe hpol isLast hfine hchain ?_ ?_
    · -- The pipe has failed, and nothing is open for the segment.
      simp only
      rw [wp_bind, wp_writeError hp]
      exact hnone s hfine hchain.ext
    · intro ends s' hends hfine'
      simp only
      rw [wp_bind]
      refine wp_fork hpol ?_ ?_ ?_
      · -- The `fork` has failed.
        intro a ha
        rw [if_pos ha, wp_bind]
        refine wp_forkFailed hpol hfine' hchain hends ?_
        intro s'' hfine'' hext''
        exact hnone s'' hfine'' hext''
      · -- The child.
        intro a ha
        rw [if_neg (by omega), if_pos ha, wp_bind]
        refine wp_redirectChild hpol hfine'.child.standard (Nat.succ_ne_zero _)
          (hchain.prev.extends hends.ext).child hends.write.child ?_
        exact wp_childMain hpol hd hfine'.child _
      · -- The shell process, with one more child.
        intro a hpos hlt hchild
        rw [if_neg (by omega), if_neg (by omega)]
        refine hsome (l.behind a.ret stdoutFd stdinFd ends) _
          (hfine'.extends (frame_extends.parentOf s' a.ret))
          (hchain.behind hpending hends hlt hchild) ?_
        intro hnotLast _
        exact pending_spawned hfine hchain hpending hends hnotLast

/-- The segment loop, by induction over the segments. -/
theorem wp_launchAll {stdoutFd stdinFd : Int} (line : Bytes) (segs : List Segment) {l : Launch}
    (hfine : Fine g s) (hchain : Chain s₀ s stdoutFd stdinFd l)
    (hpending : segs ≠ [] → l.Pending stdinFd) {Q : Option Launch → Globals → Proc → Prop}
    (hnone : ∀ s', Fine g s' → Extends s₀ s' → Q none g s')
    (hsome : ∀ l' s', Fine g s' → Chain s₀ s' stdoutFd stdinFd l' → Q (some l') g s') :
    wp (conduct policy) (launchAll dispatch line stdoutFd stdinFd segs l) Q g s := by
  induction segs generalizing l s with
  | nil => exact hsome l s hfine hchain
  | cons seg rest ih =>
    rw [launchAll, wp_bind]
    refine wp_spawnSegment hpol hd line seg rest.isEmpty hfine hchain
      (hpending (List.cons_ne_nil _ _)) ?_ ?_
    · intro s' hfine' hext'
      exact hnone s' hfine' hext'
    · intro l' s' hfine' hchain' hpending'
      refine ih hfine' hchain' ?_
      intro hne
      exact hpending' (List.isEmpty_eq_false_iff.mpr hne)

omit hd in
/-- The entries of the list are closed one by one. -/
theorem wp_closeEntries {entries : List Int} (hfine : Fine g s) (hext : Extends s₀ s)
    (hheld : ∀ e ∈ entries, e > 2 → Held s₀ s e)
    (honce : entries.Pairwise fun e e' => e > 2 → e' ≠ e) {Q : Unit → Globals → Proc → Prop}
    (hQ : ∀ s', Fine g s' → Extends s₀ s' → s'.generation = s.generation →
      s'.children = s.children → Q () g s') :
    wp (conduct policy) (entries.forM closeAboveTwo) Q g s := by
  have hp : policy.Lenient := fun c _ => hpol c
  induction entries generalizing s with
  | nil => exact hQ s hfine hext rfl rfl
  | cons e rest ih =>
    rw [Routine.wp_forM_cons]
    refine wp_closeAboveTwo hp (hheld e List.mem_cons_self) hfine hext ?_
    intro hfine' hext'
    have hsame : (s.closedAboveTwo e).generation = s.generation ∧
        (s.closedAboveTwo e).children = s.children := by
      rw [Proc.closedAboveTwo]
      split <;> exact ⟨rfl, rfl⟩
    refine ih hfine' hext' ?_ (List.pairwise_cons.mp honce).2 ?_
    · intro e' he' hcounts
      exact (hheld e' (List.mem_cons_of_mem _ he') hcounts).closedAboveTwo fun hlt =>
        (List.pairwise_cons.mp honce).1 e' he' hlt
    · intro s' hfine' hext' hgen hchildren
      exact hQ s' hfine' hext' (hgen.trans hsame.1) (hchildren.trans hsame.2)

omit hd in
/-- The waits are for children. -/
theorem wp_waitAll {pids : List Int} (hpids : ∀ pid ∈ pids, pid.toNat ∈ s.children)
    {Q : Unit → Globals → Proc → Prop} (hQ : Q () g s) :
    wp (conduct policy) (pids.forM waitFor) Q g s := by
  refine wp_mono (Routine.wp_forM (fun g' s' => g' = g ∧ s' = s) ?_ ⟨rfl, rfl⟩) ?_
  · rintro pid hpid _ _ ⟨rfl, rfl⟩
    rw [waitFor]
    split
    · have hproper : Proc.Proper _ (.waitpid pid.toNat 0) := Or.inr fun _ => hpids pid hpid
      rw [wp_bind]
      exact wp_plain hproper (hpol _) (fun _ => rfl) fun _ _ => ⟨rfl, rfl⟩
    · exact ⟨rfl, rfl⟩
  · rintro ⟨⟩ _ _ ⟨rfl, rfl⟩
    exact hQ

omit hd in
/-- The end of a launch closes what the turns have left, and waits for children of the shell
only. -/
theorem wp_finishLaunch {stdoutFd stdinFd : Int} {l : Launch} (background : Bool)
    (hfine : Fine g s) (hchain : Chain s₀ s stdoutFd stdinFd l) {Q : Unit → Globals → Proc → Prop}
    (hQ : ∀ g' s', Fine g' s' → Extends s₀ s' → Q () g' s') :
    wp (conduct policy) (finishLaunch background l) Q g s := by
  have hp : policy.Lenient := fun c _ => hpol c
  rw [finishLaunch, wp_bind]
  refine wp_closeEntries hpol hfine hchain.ext hchain.entries hchain.once ?_
  intro s' hfine' hext' _ hchildren
  cases background with
  | false =>
    rw [if_pos rfl, wp_bind]
    refine wp_waitAll hpol (fun pid hpid => hchildren ▸ hchain.spawned pid hpid) ?_
    exact hQ g s' hfine' hext'
  | true =>
    rw [if_neg Bool.true_eq_false.mp]
    split
    · rename_i hlast
      refine keeps_jobLaunched hp hlast.2 (hchain.last hlast.2).1 hfine'
        (hchildren ▸ (hchain.last hlast.2).2) ?_
      intro g' hfine''
      exact hQ g' s' hfine'' hext'
    · exact hQ g s' hfine' hext'

/-- A pipeline whose redirections are open, from its first turn to the last wait. -/
theorem wp_executeLoop {stdoutFd stdinFd : Int} (line : Bytes) (p : Pipeline) (hfine : Fine g s)
    (hext : Extends s₀ s) (hout : Held s₀ s stdoutFd) (hin : Held s₀ s stdinFd)
    {Q : Unit → Globals → Proc → Prop} (hQ : ∀ g' s', Fine g' s' → Extends s₀ s' → Q () g' s') :
    wp (conduct policy) (executeLoop dispatch line p stdoutFd stdinFd) Q g s := by
  have hstart : Chain s₀ s stdoutFd stdinFd ⟨stdinFd, 0, [], []⟩ := by
    refine ⟨hext, hout, hin, hin, fun hne => absurd rfl hne, ?_, List.Pairwise.nil, ?_, ?_⟩
    · intro e he
      cases he
    · intro pid hpid
      cases hpid
    · intro hlast
      exact absurd hlast (Int.lt_irrefl 0)
  rw [executeLoop, wp_bind]
  refine wp_launchAll hpol hd line p.segments hfine hstart (fun _ hne => absurd rfl hne) ?_ ?_
  · intro s' hfine' hext'
    exact hQ g s' hfine' hext'
  · intro l s' hfine' hchain
    exact wp_finishLaunch hpol p.background hfine' hchain hQ

/-- Behind the redirections. Their descriptors are two, if they are not standard ones. -/
theorem wp_executeOpened {stdoutFd stdinFd : Int} (line : Bytes) (p : Pipeline) (hfine : Fine g s)
    (hext : Extends s₀ s) (hout : Held s₀ s stdoutFd) (hin : Held s₀ s stdinFd)
    (hne : stdoutFd > 2 → stdinFd ≠ stdoutFd) {Q : Unit → Globals → Proc → Prop}
    (hQ : ∀ g' s', Fine g' s' → Extends s₀ s' → Q () g' s') :
    wp (conduct policy) (executeOpened dispatch line p stdoutFd stdinFd) Q g s := by
  have hp : policy.Lenient := fun c _ => hpol c
  have hloop := wp_executeLoop hpol hd line p hfine hext hout hin hQ
  rw [executeOpened]
  split
  · exact hQ g s hfine hext
  · split
    · rw [wp_bind]
      refine hd _ _ g s hfine ?_
      intro _ g' s₁ hfine₁ hrel
      -- The command has closed none of the executor's descriptors.
      have hout₁ := hout.extends hrel
      rw [wp_bind]
      refine wp_closeAboveTwo hp (fun _ => hout₁) hfine₁ (frame_extends.trans hext hrel) ?_
      intro hfine₂ hext₂
      have hin₂ := (hin.extends hrel).closedAboveTwo hne
      refine wp_closeAboveTwo hp (fun _ => hin₂) hfine₂ hext₂ ?_
      intro hfine₃ hext₃
      exact hQ _ _ hfine₃ hext₃
    · exact hloop
  · exact hloop

omit hd in
/-- A redirection opens its file, or it is the standard descriptor. -/
theorem wp_openRedirect (line : Bytes) (file : Span) (flags : Nat) {standard : Int}
    (hstandard : 0 ≤ standard ∧ standard ≤ 2) (hfine : Fine g s) (hext : Extends s₀ s)
    {Q : Int → Globals → Proc → Prop} (hfail : ∀ ret, ret < 0 → Q ret g s)
    (hok : ∀ fd s', Fine g s' → Extends s s' → Held s₀ s' fd → (fd > 2 → fd.toNat ∉ s.fds) →
      Q fd g s') :
    wp (conduct policy) (openRedirect line file flags standard) Q g s := by
  rw [openRedirect]
  split
  · rw [wp_bind]
    refine wp_sysOpen (hpol _) ?_ ?_
    · intro a ha
      exact hfail a.ret ha
    · intro a ha hfree
      have hheld := held_withFd hext hfree.1
      rw [Int.toNat_of_nonneg ha] at hheld
      exact hok a.ret _ (hfine.extends (extends_withFd s _)) (extends_withFd s _) hheld
        fun _ => hfree.1
  · refine hok standard s hfine (frame_extends.refl s)
      (held_standard hfine.standard hstandard.1 hstandard.2) ?_
    intro hlt
    omega

/-- `execute` behind the parser: redirections, turns and waits. -/
theorem keeps_executeRedirected (line : Bytes) (p : Pipeline) :
    Keeps policy Extends (executeRedirected dispatch line p) := by
  have hp : policy.Lenient := fun c _ => hpol c
  intro Q g s hfine hQ
  have hback : ∀ g' s', Fine g' s' → Extends s s' → Q () g' s' := hQ ()
  rw [executeRedirected, wp_bind]
  refine wp_openRedirect hpol line p.stdoutFile OUT_FLAGS ⟨by decide, by decide⟩ hfine
    (frame_extends.refl s) ?_ ?_
  · intro out hout
    rw [wp_bind]
    refine wp_openRedirect hpol line p.stdinFile O_RDONLY ⟨by decide, by decide⟩ hfine
      (frame_extends.refl s) ?_ ?_
    · intro inp _
      rw [if_pos hout, wp_writeErrorErrno hp]
      exact hback g s hfine (frame_extends.refl s)
    · -- The file of the input stays open here.
      intro inp s' hfine' hext' _ _
      rw [if_pos hout, wp_writeErrorErrno hp]
      exact hback g s' hfine' hext'
  · intro out s₁ hfine₁ hext₁ hout _
    have houtOk : ¬ out < 0 := Int.not_lt.mpr hout.nonneg
    rw [wp_bind]
    refine wp_openRedirect hpol line p.stdinFile O_RDONLY ⟨by decide, by decide⟩ hfine₁ hext₁ ?_ ?_
    · -- Only the file of the output is open, and it is closed.
      intro inp hinp
      rw [if_neg houtOk, if_pos hinp, wp_bind, wp_writeErrorErrno hp]
      refine wp_closeAboveTwo hp (fun _ => hout) hfine₁ hext₁ ?_
      intro hfine' hext'
      exact hback g _ hfine' hext'
    · intro inp s₂ hfine₂ hext₂ hinp hnew
      rw [if_neg houtOk, if_neg (Int.not_lt.mpr hinp.nonneg)]
      refine wp_executeOpened hpol hd line p hfine₂ (frame_extends.trans hext₁ hext₂)
        (hout.extends hext₂) hinp ?_ hback
      intro hlt heq
      exact hnew (heq ▸ hlt) (heq ▸ hout.mem)

/-- A single command without redirections: run in the shell itself, or in a child that becomes a
job. -/
theorem keeps_executePlain (line : Bytes) (seg : Segment) (background : Bool) :
    Keeps policy Extends (executePlain dispatch line seg background) := by
  have hp : policy.Lenient := fun c _ => hpol c
  refine .ite (.pure frame_extends ()) (.ite ?_ (hd _))
  intro Q g s hfine hQ
  rw [wp_bind]
  refine wp_fork hpol ?_ ?_ ?_
  · intro a ha
    rw [if_pos ha, wp_writeErrorErrno hp]
    exact hQ () g s hfine (frame_extends.refl s)
  · intro a ha
    rw [if_neg (by omega), if_pos ha]
    exact wp_childMain hpol hd hfine.child _
  · intro a hpos hlt hchild
    rw [if_neg (by omega), if_neg (by omega)]
    refine keeps_jobLaunched hp hpos hlt (hfine.extends (frame_extends.parentOf s a.ret)) hchild ?_
    intro g' hfine'
    exact hQ () g' _ hfine' (frame_extends.parentOf s a.ret)

/-- **The executor keeps the process.** -/
theorem keeps_execute (turns : Nat) (line : Bytes) (p : Pipeline) :
    Keeps policy Extends (execute turns dispatch line p) := by
  have hp : policy.Lenient := fun c _ => hpol c
  have hredirected := keeps_executeRedirected hpol hd line p
  refine .bind frame_extends (keeps_jobReap hp frame_extends turns) ?_
  intro _
  split
  · exact .ite (keeps_executePlain hpol hd line _ p.background) hredirected
  · exact hredirected

end

end OnyxShell.Process
