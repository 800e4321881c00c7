import OnyxShell.Proofs.Process.Io

/-!
# `OnyxShell.Proofs.Process.File`: the file commands leave nothing behind

A `Tidy` function leaves the globals as they were, and the process with the descriptors it had:
what it opens it closes, on each of its exits. The commands for files are `Tidy`, with the calls
that they are for as the only ones that the policy has to permit.

`Tidy` is said for a policy: where a command opens for writing or removes something, the policy
has to permit that call, and `cat`, `ls` and `stat` do not need it to.
-/

set_option autoImplicit false

namespace OnyxShell.Process

open Routine (wp wp_bind wp_mono wp_pure)

/-- The standard descriptors are open. -/
def Proc.Standard (s : Proc) : Prop := ∀ fd ≤ 2, fd ∈ s.fds

/-- With the standard descriptors open, everything is as it was where the function returns. A
function that is tidy may be put anywhere: what holds of the globals and of the process before it
holds behind it. -/
def Tidy {α : Type} (policy : Policy) (x : Sh α) : Prop :=
  ∀ (Q : α → Globals → Proc → Prop) g s, s.Standard → (∀ a, Q a g s) → wp (conduct policy) x Q g s

/-- The process with one more descriptor. -/
def Proc.withFd (s : Proc) (fd : Nat) : Proc := { s with fds := insert fd s.fds }

/-- The process with one descriptor less. -/
def Proc.withoutFd (s : Proc) (fd : Nat) : Proc := { s with fds := s.fds.erase fd }

variable {α β : Type} {policy : Policy} {g : Globals} {s : Proc}

/-- Opening a descriptor closes none of the standard ones. -/
theorem Proc.Standard.withFd (h : s.Standard) (fd : Nat) : (s.withFd fd).Standard :=
  fun n hn => Finset.mem_insert_of_mem (h n hn)

/-- A descriptor that has just been opened is open. -/
theorem Proc.mem_withFd (s : Proc) (fd : Nat) : fd ∈ (s.withFd fd).fds := Finset.mem_insert_self fd _

/-- A descriptor that was not open is gone without a trace when it is closed. -/
theorem Proc.withoutFd_withFd {fd : Nat} (h : fd ∉ s.fds) : (s.withFd fd).withoutFd fd = s := by
  show { s with fds := (insert fd s.fds).erase fd } = s
  rw [Finset.erase_insert h]

/-- A new descriptor is above the standard ones. -/
theorem Proc.Standard.lt_of_notMem (h : s.Standard) {fd : Nat} (hfd : fd ∉ s.fds) : 2 < fd := by
  by_contra hle
  exact hfd (h fd (Nat.not_lt.mp hle))

/-! ### Rules -/

/-- A program that has returned leaves nothing open. -/
theorem Tidy.pure (a : α) : Tidy policy (Pure.pure a : Sh α) := fun _ _ _ _ hQ => hQ a

/-- Tidy programs one after the other. -/
theorem Tidy.bind {x : Sh β} {f : β → Sh α} (hx : Tidy policy x) (hf : ∀ b, Tidy policy (f b)) :
    Tidy policy (x >>= f) := by
  intro Q g s hstd hQ
  rw [wp_bind]
  exact hx _ g s hstd fun b => hf b Q g s hstd hQ

/-- A choice between tidy programs. -/
theorem Tidy.ite {c : Prop} [Decidable c] {x y : Sh α} (hx : Tidy policy x)
    (hy : Tidy policy y) : Tidy policy (if c then x else y) := by
  split
  · exact hx
  · exact hy

/-- A loop over a list whose turns are tidy, by induction on the list. -/
theorem Tidy.forM {l : List β} {f : β → Sh Unit} (hf : ∀ b ∈ l, Tidy policy (f b)) :
    Tidy policy (l.forM f) := by
  intro Q g s hstd hQ
  refine wp_mono (Routine.wp_forM (fun g' s' => g' = g ∧ s' = s) ?_ ⟨rfl, rfl⟩) ?_
  · rintro b hb _ _ ⟨rfl, rfl⟩
    exact hf b hb _ _ _ hstd fun _ => ⟨rfl, rfl⟩
  · rintro ⟨⟩ _ _ ⟨rfl, rfl⟩
    exact hQ ()

/-- A loop that keeps no account in the globals or the process. -/
theorem Tidy.loop {body : β → Sh (Loop.Turn α β)} (hbody : ∀ b, Tidy policy (body b)) (turns : Nat)
    (b : β) : Tidy policy (Routine.loop body turns b) := by
  intro Q g s hstd hQ
  refine Routine.wp_loop (fun _ g' s' => g' = g ∧ s' = s) ?_ ⟨rfl, rfl⟩ turns
  rintro b _ _ ⟨rfl, rfl⟩
  refine hbody b _ _ _ hstd ?_
  intro t
  cases t with
  | ret a => exact hQ a
  | next b => exact ⟨rfl, rfl⟩

/-- A function that prints. -/
theorem Tidy.of_wp {x : Sh Unit} (hx : ∀ Q g s, wp (conduct policy) x Q g s ↔ Q () g s) :
    Tidy policy x := fun _ _ _ _ hQ => (hx _ _ _).mpr (hQ ())

/-- A descriptor is given out, or the call fails and nothing is. -/
theorem opened_cases {ret : Int} {P : Proc → Prop} (hfail : ret < 0 → P s)
    (hok : 0 ≤ ret → P (s.withFd ret.toNat)) : P (s.opened ret) := by
  rw [Proc.opened]
  split
  · rename_i hret
    exact hok hret
  · rename_i hret
    exact hfail (Int.not_le.mp hret)

/-- An open either fails or gives the lowest free descriptor. -/
theorem wp_sysOpen {path : Bytes} {flags : Nat} (hpol : policy (.sysOpen path flags))
    {Q : Answer → Globals → Proc → Prop} (hfail : ∀ a, a.ret < 0 → Q a g s)
    (hok : ∀ a, 0 ≤ a.ret → LowestFree s.fds a.ret.toNat → Q a g (s.withFd a.ret.toNat)) :
    wp (conduct policy) (sys (.sysOpen path flags)) Q g s := by
  refine ⟨⟨trivial, hpol⟩, ?_⟩
  intro a ha
  show Q a g (s.opened a.ret)
  exact opened_cases (hfail a) fun hret => hok a hret (ha hret)

/-- A create, likewise. Its path is clean, which the invariant of the calls asks for. -/
theorem wp_create {path : Bytes} (hpath : CleanPath path) (hpol : policy (.create path))
    {Q : Answer → Globals → Proc → Prop} (hfail : ∀ a, a.ret < 0 → Q a g s)
    (hok : ∀ a, 0 ≤ a.ret → LowestFree s.fds a.ret.toNat → Q a g (s.withFd a.ret.toNat)) :
    wp (conduct policy) (sys (.create path)) Q g s := by
  refine ⟨⟨hpath, hpol⟩, ?_⟩
  intro a ha
  show Q a g (s.opened a.ret)
  exact opened_cases (hfail a) fun hret => hok a hret (ha hret)

/-- Closing a descriptor that is open and is not one of the standard ones. -/
theorem wp_close (hp : policy.Lenient) {fd : Nat} (hfd : fd ∈ s.fds) (hlt : 2 < fd)
    {Q : Answer → Globals → Proc → Prop} (hQ : ∀ a, Q a g (s.withoutFd fd)) :
    wp (conduct policy) (sys (.close fd)) Q g s :=
  ⟨⟨⟨hfd, fun _ => hlt⟩, hp _ trivial⟩, fun a _ => hQ a⟩

/-- A `read` of an open file: it does not claim more than there is room for. -/
theorem wp_read (hp : policy.Lenient) {fd len : Nat} (hfd : fd ∈ s.fds) (hlt : 2 < fd)
    {Q : Answer → Globals → Proc → Prop} (hQ : ∀ a : Answer, a.ret ≤ (len : Int) → Q a g s) :
    wp (conduct policy) (sys (.read fd len)) Q g s := by
  have hproper : s.Proper (.read fd len) := ⟨hfd, fun h0 => absurd hlt (by omega)⟩
  exact wp_plain hproper (hp _ trivial) (fun _ => rfl) hQ

/-! ### The commands -/

/-- Printing an error opens nothing. -/
theorem tidy_writeError (hp : policy.Lenient) (msg : Bytes) : Tidy policy (writeError msg) :=
  .of_wp fun _ _ _ => wp_writeError hp msg

/-- Printing an error with its number opens nothing. -/
theorem tidy_writeErrorErrno (hp : policy.Lenient) (msg : Bytes) (ret : Int) :
    Tidy policy (writeErrorErrno msg ret) :=
  .of_wp fun _ _ _ => wp_writeErrorErrno hp msg ret

/-- Output opens nothing. -/
theorem tidy_writeRaw (hp : policy.Lenient) (b : Bytes) : Tidy policy (writeRaw b) :=
  .of_wp fun _ _ _ => wp_writeRaw hp b

/-- A call that only asks, and a tidy program behind it. -/
theorem tidy_quiet (hp : policy.Lenient) {c : SysCall} (hc : c.Quiet) {f : Answer → Sh α}
    (hf : ∀ a, Tidy policy (f a)) : Tidy policy (sys c >>= f) :=
  .bind (fun _ _ _ _ hQ => wp_quiet hp hc fun a _ => hQ a) hf

/-- The loop over the operands is tidy when what is done with one of them is. The path that is
acted on is clean. -/
theorem tidy_forOperands (hp : policy.Lenient) (name missing : Bytes)
    {act : Bytes → Bytes → Sh Unit} (hact : ∀ arg abs, Clean abs → Tidy policy (act arg abs))
    (args : List Bytes) : Tidy policy (forOperands name missing act args) := by
  rw [forOperands]
  refine .ite (tidy_writeError hp missing) (.forM ?_)
  intro arg _ Q g s hstd hQ
  rw [wp_bind]
  refine wp_resolve hp arg ?_
  intro r hr
  cases r with
  | none => exact tidy_writeError hp _ Q g s hstd hQ
  | some abs => exact hact arg abs (hr abs rfl) Q g s hstd hQ

/-- `cat` reads from a descriptor that its caller has opened and will close. -/
theorem wp_catLoop (hp : policy.Lenient) {fd : Nat} (hfd : fd ∈ s.fds) (hlt : 2 < fd) (turns : Nat)
    {Q : Unit → Globals → Proc → Prop} (hQ : Q () g s) :
    wp (conduct policy) (catLoop turns fd) Q g s := by
  refine Routine.wp_loop (fun buf g' s' => buf.length = BUF_LEN ∧ g' = g ∧ s' = s) ?_
    ⟨length_zeros _, rfl, rfl⟩ turns
  rintro buf _ _ ⟨hlen, rfl, rfl⟩
  rw [wp_bind]
  refine wp_read hp hfd hlt ?_
  intro a ha
  split
  · exact hQ
  · have hfits : a.ret.toNat ≤ (a.into buf).length := by
      rw [Answer.length_into, hlen]
      exact Int.toNat_le.mpr ha
    rw [wp_bind, wp_slice hfits, wp_bind, wp_writeRaw hp]
    exact ⟨(a.length_into buf).trans hlen, rfl, rfl⟩

/-- `cat` closes each file that it has opened. -/
theorem tidy_cmdCat (hp : policy.Lenient) (turns : Nat) (args : List Bytes) :
    Tidy policy (cmdCat turns args) := by
  refine tidy_forOperands hp _ _ ?_ args
  intro arg abs _ Q g s hstd hQ
  rw [wp_bind]
  refine wp_sysOpen (hp _ rfl) ?_ ?_
  · intro a ha
    rw [if_pos ha]
    exact tidy_writeErrorErrno hp _ _ Q g s hstd hQ
  · intro a ha hfree
    have hlt := hstd.lt_of_notMem hfree.1
    rw [if_neg (Int.not_lt.mpr ha), wp_bind]
    refine wp_catLoop hp (s.mem_withFd _) hlt turns ?_
    rw [wp_bind]
    refine wp_close hp (s.mem_withFd _) hlt ?_
    intro _
    rw [Proc.withoutFd_withFd hfree.1]
    exact hQ ()

/-- `rm`. -/
theorem tidy_cmdRm (hpol : ∀ c, policy c) (args : List Bytes) : Tidy policy (cmdRm args) := by
  have hp : policy.Lenient := fun c _ => hpol c
  refine tidy_forOperands hp _ _ ?_ args
  intro arg abs habs Q g s hstd hQ
  rw [wp_bind]
  refine wp_plain (by exact habs.cleanPath) (hpol _) (fun _ => rfl) ?_
  intro a _
  exact Tidy.ite (tidy_writeErrorErrno hp _ _) (Tidy.pure ()) Q g s hstd hQ

/-- `mkdir`. -/
theorem tidy_cmdMkdir (hpol : ∀ c, policy c) (args : List Bytes) : Tidy policy (cmdMkdir args) := by
  have hp : policy.Lenient := fun c _ => hpol c
  refine tidy_forOperands hp _ _ ?_ args
  intro arg abs habs Q g s hstd hQ
  rw [wp_bind]
  refine wp_plain (by exact habs.cleanPath) (hpol _) (fun _ => rfl) ?_
  intro a _
  refine Tidy.ite (Tidy.ite ?_ (tidy_writeErrorErrno hp _ _)) (Tidy.pure ()) Q g s hstd hQ
  exact .bind (tidy_writeRaw hp _) fun _ => .bind (tidy_writeRaw hp _) fun _ => tidy_writeRaw hp _

/-- `touch` closes what it has created, if there is something to close. -/
theorem tidy_cmdTouch (hpol : ∀ c, policy c) (args : List Bytes) : Tidy policy (cmdTouch args) := by
  have hp : policy.Lenient := fun c _ => hpol c
  refine tidy_forOperands hp _ _ ?_ args
  intro arg abs habs Q g s hstd hQ
  rw [wp_bind]
  refine wp_create habs.cleanPath (hpol _) ?_ ?_
  · intro a ha
    rw [if_neg (Int.not_le.mpr ha)]
    exact Tidy.ite (tidy_writeErrorErrno hp _ _) (Tidy.pure ()) Q g s hstd hQ
  · intro a ha hfree
    rw [if_pos ha, wp_bind]
    refine wp_close hp (s.mem_withFd _) (hstd.lt_of_notMem hfree.1) ?_
    intro _
    rw [Proc.withoutFd_withFd hfree.1]
    exact hQ ()

/-- The lines of `stat` are output only. -/
theorem wp_writeStat (hp : policy.Lenient) (abs st : Bytes) {Q : Unit → Globals → Proc → Prop} :
    wp (conduct policy) (writeStat abs st) Q g s ↔ Q () g s := by
  simp only [writeStat, wp_bind, wp_writeRaw hp, wp_newline hp, wp_writeI64 hp, wp_writeU64 hp,
    wp_writeHex hp]

/-- `stat`. -/
theorem tidy_cmdStat (hp : policy.Lenient) (args : List Bytes) : Tidy policy (cmdStat args) := by
  intro Q g s hstd hQ
  cases args with
  | nil => exact tidy_writeError hp _ Q g s hstd hQ
  | cons arg args =>
    show wp (conduct policy) (resolve arg >>= _) Q g s
    rw [wp_bind]
    refine wp_resolve hp arg ?_
    intro r hr
    cases r with
    | none => exact tidy_writeError hp _ Q g s hstd hQ
    | some abs =>
      have habs : Clean abs := hr abs rfl
      rcases habs with ⟨dir, hdir, hlen⟩
      show wp (conduct policy) (sys (.stat (cString abs)) >>= _) Q g s
      rw [wp_bind]
      have hproper : s.Proper (.stat (cString abs)) := absolutePath_cString hdir.head? hlen
      refine wp_plain hproper (hp _ trivial) (fun _ => rfl) ?_
      intro a _
      exact Tidy.ite (tidy_writeErrorErrno hp _ _) (.of_wp fun _ _ _ => wp_writeStat hp _ _) Q g s
        hstd hQ

/-! ### `cp` and `mv` -/

section
variable (hpol : ∀ c, policy c)
include hpol

/-- `buf[written..n]` stays inside of the buffer. -/
theorem wp_writeLoop {dst : Nat} (hdst : dst ∈ s.fds) {buf : Bytes} {n : Nat} (hn : n ≤ buf.length)
    (turns : Nat) {Q : Bool → Globals → Proc → Prop} (hQ : ∀ ok, Q ok g s) :
    wp (conduct policy) (writeLoop turns dst buf n) Q g s := by
  have hp : policy.Lenient := fun c _ => hpol c
  refine Routine.wp_loop (fun _ g' s' => g' = g ∧ s' = s) ?_ ⟨rfl, rfl⟩ turns
  rintro written _ _ ⟨rfl, rfl⟩
  split
  · rename_i hlt
    rw [if_neg (by omega), wp_bind]
    refine wp_plain (by exact hdst) (hpol _) (fun _ => rfl) ?_
    intro w _
    split
    · rw [wp_bind, wp_writeError hp]
      exact hQ false
    · exact ⟨rfl, rfl⟩
  · exact hQ true

/-- The copy reads and writes at two descriptors that its caller has opened. Both results leave
them open, and the caller closes them. -/
theorem wp_copyLoop {src dst : Nat} (hsrc : src ∈ s.fds) (hlt : 2 < src) (hdst : dst ∈ s.fds)
    (turns : Nat) {Q : Bool → Globals → Proc → Prop} (hQ : ∀ ok, Q ok g s) :
    wp (conduct policy) (copyLoop turns src dst) Q g s := by
  have hp : policy.Lenient := fun c _ => hpol c
  refine Routine.wp_loop (fun buf g' s' => buf.length = BUF_LEN ∧ g' = g ∧ s' = s) ?_
    ⟨length_zeros _, rfl, rfl⟩ turns
  -- Reading and writing changes no descriptor, so only the length of the buffer is of interest.
  rintro buf _ _ ⟨hlen, rfl, rfl⟩
  rw [wp_bind]
  refine wp_read hp hsrc hlt ?_
  intro a ha
  split
  · rw [wp_bind, wp_writeError hp]
    exact hQ false
  · split
    · exact hQ true
    · have hbuf : (a.into buf).length = BUF_LEN := (a.length_into buf).trans hlen
      rw [wp_bind]
      refine wp_writeLoop hpol hdst (by rw [hbuf]; exact Int.toNat_le.mpr ha) turns ?_
      intro ok
      cases ok with
      | true => exact ⟨hbuf, rfl, rfl⟩
      | false => exact hQ false

/-- Both files are closed on every exit. -/
theorem tidy_copyFile (turns : Nat) {srcAbs dstAbs : Bytes} (hdst : Clean dstAbs) :
    Tidy policy (copyFile turns srcAbs dstAbs) := by
  have hp : policy.Lenient := fun c _ => hpol c
  intro Q g s hstd hQ
  rw [copyFile, wp_bind]
  refine wp_sysOpen (hpol _) ?_ ?_
  · intro a ha
    rw [if_pos ha, wp_bind, wp_writeErrorErrno hp]
    exact hQ false
  · intro src hsrc hfree
    have hsrcLt := hstd.lt_of_notMem hfree.1
    have hsrcMem := s.mem_withFd src.ret.toNat
    rw [if_neg (Int.not_lt.mpr hsrc), wp_bind]
    refine wp_create hdst.cleanPath (hpol _) ?_ ?_
    · -- Only the source is open.
      intro a ha
      rw [if_pos ha, wp_bind, wp_writeErrorErrno hp, wp_bind]
      refine wp_close hp hsrcMem hsrcLt ?_
      intro _
      rw [Proc.withoutFd_withFd hfree.1]
      exact hQ false
    · intro dst hdst hfree'
      have hdstLt := (hstd.withFd src.ret.toNat).lt_of_notMem hfree'.1
      rw [if_neg (Int.not_lt.mpr hdst), wp_bind]
      refine wp_copyLoop hpol (Finset.mem_insert_of_mem hsrcMem) hsrcLt (Proc.mem_withFd _ _) turns ?_
      intro ok
      -- The destination is closed first.
      rw [wp_bind]
      refine wp_close hp (Proc.mem_withFd _ _) hdstLt ?_
      intro _
      rw [Proc.withoutFd_withFd hfree'.1, wp_bind]
      refine wp_close hp hsrcMem hsrcLt ?_
      intro _
      rw [Proc.withoutFd_withFd hfree.1]
      exact hQ ok

/-- `cp` closes its source where the target cannot be created, and both at the end. -/
theorem tidy_cmdCp (turns : Nat) (args : List Bytes) : Tidy policy (cmdCp turns args) := by
  have hp : policy.Lenient := fun c _ => hpol c
  intro Q g s hstd hQ
  have herror : ∀ msg, Tidy policy (do writeError msg; Pure.pure false : Sh Bool) := fun msg =>
    .bind (tidy_writeError hp msg) fun _ => Tidy.pure false
  rcases args with _ | ⟨srcIn, _ | ⟨dstIn, args⟩⟩
  · exact herror _ Q g s hstd hQ
  · exact herror _ Q g s hstd hQ
  · show wp (conduct policy) (resolve srcIn >>= _) Q g s
    rw [wp_bind]
    refine wp_resolve hp srcIn ?_
    intro src _
    rw [wp_bind]
    refine wp_resolve hp dstIn ?_
    intro dst hdst
    cases src with
    | none => exact herror _ Q g s hstd hQ
    | some srcAbs =>
      cases dst with
      | none => exact herror _ Q g s hstd hQ
      | some dstAbs => exact tidy_copyFile hpol turns (hdst dstAbs rfl) Q g s hstd hQ

/-- The copy of `mv` with the removal behind it. -/
theorem tidy_moveByCopy (turns : Nat) (args : List Bytes) {srcAbs : Bytes} (hsrc : Clean srcAbs) :
    Tidy policy (moveByCopy turns args srcAbs) := by
  have hp : policy.Lenient := fun c _ => hpol c
  refine .bind (tidy_writeRaw hp _) fun _ => .bind (tidy_cmdCp hpol turns args) fun ok => ?_
  refine .ite ?_ (tidy_writeError hp _)
  intro Q g s hstd hQ
  rw [wp_bind]
  refine wp_plain (by exact hsrc.cleanPath) (hpol _) (fun _ => rfl) ?_
  intro a _
  exact Tidy.ite (tidy_writeErrorErrno hp _ _) (Tidy.pure ()) Q g s hstd hQ

/-- `mv`. -/
theorem tidy_cmdMv (turns : Nat) (args : List Bytes) : Tidy policy (cmdMv turns args) := by
  have hp : policy.Lenient := fun c _ => hpol c
  intro Q g s hstd hQ
  rcases args with _ | ⟨srcIn, _ | ⟨dstIn, args⟩⟩
  · exact tidy_writeError hp _ Q g s hstd hQ
  · exact tidy_writeError hp _ Q g s hstd hQ
  · show wp (conduct policy) (resolve srcIn >>= _) Q g s
    rw [wp_bind]
    refine wp_resolve hp srcIn ?_
    intro src hsrc
    rw [wp_bind]
    refine wp_resolve hp dstIn ?_
    intro dst hdst
    cases src with
    | none => exact tidy_writeError hp _ Q g s hstd hQ
    | some srcAbs =>
      cases dst with
      | none => exact tidy_writeError hp _ Q g s hstd hQ
      | some dstAbs =>
        show wp (conduct policy) (sys (.rename _ _) >>= _) Q g s
        rw [wp_bind]
        refine wp_plain (by exact ⟨(hsrc srcAbs rfl).cleanPath, (hdst dstAbs rfl).cleanPath⟩) (hpol _)
          (fun _ => rfl) ?_
        intro a _
        exact Tidy.ite (Tidy.pure ()) (tidy_moveByCopy hpol turns _ (hsrc srcAbs rfl)) Q g s hstd hQ

end

end OnyxShell.Process
