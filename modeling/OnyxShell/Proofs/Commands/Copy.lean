import OnyxShell.Commands.Copy
import OnyxShell.Proofs.Commands.File

/-!
# `OnyxShell.Proofs.Commands.Copy`: `cp` over descriptors

The loops over descriptors do what the loops over places do (`copyRounds_refines`). What makes
it work is that a chunk stands at the front of the buffer while it is written, so nothing that
older reads have left there is. `cmdCp_refines` says the same of the command, and
`fds_cmdCp` that it leaves the descriptors as they were.
-/

set_option autoImplicit false

namespace OnyxShell

namespace OpenFiles

variable {π : Type} {k : Kernel π}

/-! ### The loops -/

/-- A read that is refused leaves the descriptors. -/
theorem readFd_error {s s' : OpenFiles π} {fd : Nat} {f : OpenFile π} {buf : Bytes} {ret : Int}
    (hf : s.fds.get fd = some f) (h : s.readFd k fd buf = (.error ret, s')) :
    k.readFd f.place f.offset buf.length s.disk = (.error ret, s'.disk) ∧ s'.fds = s.fds := by
  rw [readFd, hf] at h
  dsimp only at h
  split at h
  · rename_i ret' d hread
    cases h
    exact ⟨hread, rfl⟩
  · cases h

/-- An open that is refused leaves the descriptors. -/
theorem sysOpen_error {s s' : OpenFiles π} {path : Bytes} {ret : Int}
    (h : s.sysOpen k path = (.error ret, s')) :
    k.openRead path s.disk = (.error ret, s'.disk) ∧ s'.fds = s.fds := by
  rw [sysOpen] at h
  split at h
  · rename_i hread
    cases h
    exact ⟨hread, rfl⟩
  · cases h

/-- An open enters its file at the lowest free number. -/
theorem sysOpen_ok {s s' : OpenFiles π} {path : Bytes} {fd : Nat}
    (h : s.sysOpen k path = (.ok fd, s')) :
    ∃ p, k.openRead path s.disk = (.ok p, s'.disk) ∧ fd = s.fds.lowestFree ∧
      s'.fds = s.fds.alloc ⟨p, 0⟩ := by
  rw [sysOpen] at h
  split at h
  · cases h
  · rename_i p d hread
    cases h
    exact ⟨p, hread, rfl, rfl⟩

variable [DecidableEq π]

/-- A write to an open descriptor is a write to its file. -/
theorem writeFd_eq {s s' : OpenFiles π} {fd : Nat} {f : OpenFile π} {buf : Bytes} {w : Int}
    (hf : s.fds.get fd = some f) (h : s.writeFd k fd buf = (w, s')) :
    k.writeFd f.place buf s.disk = (w, s'.disk) := by
  rw [writeFd, hf] at h
  cases h
  rfl

/-- Writing the front of the buffer is writing the chunk that stands there. -/
theorem writeLoop_refines {s : OpenFiles π} {fd : Nat} {f : OpenFile π} (chunk rest : Bytes)
    (written : Nat) (hf : s.fds.get fd = some f) :
    k.writeLoop f.place chunk written s.disk =
      ((s.writeLoop k fd (chunk ++ rest) chunk.length written).1,
        (s.writeLoop k fd (chunk ++ rest) chunk.length written).2.disk) := by
  -- The loop keeps its buffer, so the chunk is what it cuts out at every turn.
  generalize hn : chunk.length = n
  generalize hbuf : chunk ++ rest = buf
  have hchunk : ∀ written, (buf.drop written).take (n - written) = chunk.drop written := by
    intro written
    rw [← List.drop_take, ← hbuf, ← hn, List.take_left]
  fun_induction writeLoop k fd buf n written s with
  | case1 written s hlt w s₁ hw hle =>
    rw [hchunk] at hw
    rw [Kernel.writeLoop, if_pos (hn ▸ hlt), writeFd_eq hf hw]
    exact if_pos hle
  | case2 written s hlt w s₁ hw hle ih =>
    have hfds := (writeFd_keeps k hw).1
    rw [hchunk] at hw
    rw [Kernel.writeLoop, if_pos (hn ▸ hlt), writeFd_eq hf hw, ← ih (hfds ▸ hf)]
    exact if_neg hle
  | case3 written s hlt =>
    rw [Kernel.writeLoop, if_neg (hn ▸ hlt)]

/-- A round of a copy: the chunk that it reads, and where the descriptor is behind it. -/
theorem round_refines {s s' s'' : OpenFiles π} {src dst n : Nat} {buf buf' : Bytes} {ok : Bool}
    {f g : OpenFile π} (hlen : buf.length = 512) (hsrc : s.fds.get src = some f)
    (hdst : s.fds.get dst = some g) (hne : src ≠ dst)
    (hread : s.readFd k src buf = (.ok (n, buf'), s'))
    (hwrite : s'.writeLoop k dst buf' n 0 = (ok, s'')) :
    ∃ chunk, n = chunk.length ∧ buf'.length = 512 ∧
      k.readFd f.place f.offset 512 s.disk = (.ok chunk, s'.disk) ∧
      k.writeLoop g.place chunk 0 s'.disk = (ok, s''.disk) ∧
      s''.fds = s.fds.put src ⟨f.place, f.offset + chunk.length⟩ := by
  rcases readFd_ok k hread with ⟨f', chunk, hf', hread', rfl, rfl, hput⟩
  obtain rfl : f' = f := Option.some.inj (hf'.symm.trans hsrc)
  rw [hlen] at hread'
  have hle := Kernel.length_readFd_le_len hread'
  have hdst' : s'.fds.get dst = some g := by
    rw [hput, FdTable.get_put (by rw [FdTable.IsOpen, hsrc]; rfl), if_neg hne.symm, hdst]
  have hloop := writeLoop_refines (k := k) chunk (buf.drop chunk.length) 0 hdst'
  rw [hwrite] at hloop
  refine ⟨chunk, rfl, ?_, hread', hloop, (writeLoop_keeps k hwrite).1.trans hput⟩
  rw [List.length_append, List.length_drop]
  omega

/-- **The loop over descriptors does what the loop over places does**, and moves no descriptor
but the source. -/
theorem copyRounds_refines {s : OpenFiles π} {src dst : Nat} {buf : Bytes}
    {hne : s.placeOf src ≠ s.placeOf dst} {f g : OpenFile π} (hlen : buf.length = 512)
    (hsrc : s.fds.get src = some f) (hdst : s.fds.get dst = some g) (hfg : f.place ≠ g.place) :
    k.copyLoop f.place g.place hfg f.offset s.disk =
        ((s.copyRounds k src dst buf hne).1, (s.copyRounds k src dst buf hne).2.disk) ∧
      ∀ n, n ≠ src → (s.copyRounds k src dst buf hne).2.fds.get n = s.fds.get n := by
  have hput : ∀ {s : OpenFiles π} {f f' : OpenFile π} {n : Nat}, s.fds.get src = some f →
      n ≠ src → (s.fds.put src f').get n = s.fds.get n := by
    intro s f f' n hf hn
    rw [FdTable.get_put (by rw [FdTable.IsOpen, hf]; rfl), if_neg hn]
  fun_induction copyRounds k src dst buf s hne generalizing f with
  -- The buffer differs from turn to turn, but its length does not.
  | case1 buf s hne ret s' hread =>
    rcases readFd_error hsrc hread with ⟨hread', hfds⟩
    rw [hlen] at hread'
    rw [Kernel.copyLoop_eq, hread']
    exact ⟨rfl, fun n _ => congrFun (congrArg FdTable.get hfds) n⟩
  | case2 buf s hne buf' s' hread =>
    rcases readFd_ok k hread with ⟨f', chunk, hf', hread', hn, -, hfds⟩
    obtain rfl : f' = f := Option.some.inj (hf'.symm.trans hsrc)
    rw [hlen] at hread'
    rw [Kernel.copyLoop_eq, hread']
    refine ⟨if_pos (List.eq_nil_of_length_eq_zero hn.symm), fun n hn => ?_⟩
    rw [hfds, hput hsrc hn]
  | case3 buf s hne n buf' s' hread hend s'' hwrite =>
    have hsd : src ≠ dst := fun heq => hne (congrArg s.placeOf heq)
    rcases round_refines hlen hsrc hdst hsd hread hwrite with
      ⟨chunk, rfl, -, hread', hwrite', hfds⟩
    rw [Kernel.copyLoop_eq, hread']
    dsimp only
    rw [if_neg (fun hnil => hend (congrArg List.length hnil)), hwrite']
    refine ⟨rfl, fun n hn => ?_⟩
    rw [hfds, hput hsrc hn]
  | case4 buf s hne n buf' s' hread hend s'' hwrite ih =>
    have hsd : src ≠ dst := fun heq => hne (congrArg s.placeOf heq)
    rcases round_refines hlen hsrc hdst hsd hread hwrite with
      ⟨chunk, rfl, hlen', hread', hwrite', hfds⟩
    have hsrc' : s''.fds.get src = some ⟨f.place, f.offset + chunk.length⟩ := by
      rw [hfds, FdTable.get_put (by rw [FdTable.IsOpen, hsrc]; rfl), if_pos rfl]
    have hdst' : s''.fds.get dst = some g := by
      rw [hfds, hput hsrc hsd.symm, hdst]
    rcases ih hlen' hsrc' hdst' hfg with ⟨hcopy, hkeep⟩
    rw [Kernel.copyLoop_eq, hread']
    dsimp only
    rw [if_neg (fun hnil => hend (congrArg List.length hnil)), hwrite']
    refine ⟨hcopy, fun n hn => ?_⟩
    rw [hkeep n hn, hfds, hput hsrc hn]

/-- The same of `copy_loop`. -/
theorem copyLoop_refines {s : OpenFiles π} {src dst : Nat} (hne : s.placeOf src ≠ s.placeOf dst)
    {f g : OpenFile π} (hsrc : s.fds.get src = some f) (hdst : s.fds.get dst = some g)
    (hfg : f.place ≠ g.place) :
    k.copyLoop f.place g.place hfg f.offset s.disk =
        ((s.copyLoop k src dst hne).1, (s.copyLoop k src dst hne).2.disk) ∧
      ∀ n, n ≠ src → (s.copyLoop k src dst hne).2.fds.get n = s.fds.get n :=
  copyRounds_refines List.length_replicate hsrc hdst hfg

/-- **A copy appends what comes through** of the rest of its source. -/
theorem copyLoop_received {s : OpenFiles π} {src dst : Nat} {hne : s.placeOf src ≠ s.placeOf dst}
    {f g : OpenFile π} {file out : Bytes} (hsrc : s.fds.get src = some f)
    (hdst : s.fds.get dst = some g) (hfile : s.disk.files f.place = some file)
    (hout : s.disk.files g.place = some out) :
    ∃ received, (s.copyLoop k src dst hne).2.disk.files g.place = some (out ++ received) ∧
      Received (s.copyLoop k src dst hne).1 (file.drop f.offset) received := by
  have hfg : f.place ≠ g.place := by
    rw [placeOf, placeOf, hsrc, hdst] at hne
    exact fun heq => hne (congrArg some heq)
  exact Kernel.copyLoop_received (copyLoop_refines hne hsrc hdst hfg).1 hfile hout

/-! ### The command -/

/-- A create that is refused leaves the descriptors. -/
theorem create_error {s s' : OpenFiles π} {path : Bytes} {ret : Int}
    (h : s.create k path = (.error ret, s')) :
    k.create path s.disk = (.error ret, s'.disk) ∧ s'.fds = s.fds := by
  rw [create] at h
  split at h
  · rename_i hmade
    cases h
    exact ⟨hmade, rfl⟩
  · cases h

/-- A create enters its file at the lowest free number. -/
theorem create_ok {s s' : OpenFiles π} {path : Bytes} {fd : Nat}
    (h : s.create k path = (.ok fd, s')) :
    ∃ p, k.create path s.disk = (.ok p, s'.disk) ∧ fd = s.fds.lowestFree ∧
      s'.fds = s.fds.alloc ⟨p, 0⟩ := by
  rw [create] at h
  split at h
  · cases h
  · rename_i p d hmade
    cases h
    exact ⟨p, hmade, rfl, rfl⟩

/-- **`cp` over descriptors does what `cp` over places does**, and leaves every descriptor as
it was. -/
theorem cmdCp_refines (getcwd : Option Bytes) (args : List Bytes) (s : OpenFiles π) :
    k.cmdCp getcwd args s.disk =
        ((s.cmdCp k getcwd args).1, (s.cmdCp k getcwd args).2.disk) ∧
      ∀ n, (s.cmdCp k getcwd args).2.fds.get n = s.fds.get n := by
  rcases args with _ | ⟨srcIn, _ | ⟨dstIn, args⟩⟩
  · exact ⟨rfl, fun _ => rfl⟩
  · exact ⟨rfl, fun _ => rfl⟩
  cases hsrc : resolve getcwd srcIn with
  | none =>
    simp only [cmdCp, Kernel.cmdCp, hsrc]
    exact ⟨rfl, fun _ => rfl⟩
  | some srcAbs =>
    cases hdst : resolve getcwd dstIn with
    | none =>
      simp only [cmdCp, Kernel.cmdCp, hsrc, hdst]
      exact ⟨rfl, fun _ => rfl⟩
    | some dstAbs =>
      simp only [cmdCp, hsrc, hdst]
      split
      · rename_i ret s₁ hopen
        rcases sysOpen_error hopen with ⟨hread, hfds⟩
        rw [Kernel.cmdCp_of_open_error hsrc hdst args hread]
        exact ⟨rfl, fun n => congrFun (congrArg FdTable.get hfds) n⟩
      · rename_i srcFd s₁ hopen
        rcases sysOpen_ok hopen with ⟨p, hread, rfl, hfds₁⟩
        split
        · -- The source is closed.
          rename_i ret s₂ hcreate
          rcases create_error hcreate with ⟨hmade, hfds₂⟩
          rw [Kernel.cmdCp_of_create_error hsrc hdst args hread hmade]
          have hget := congrArg FdTable.get (hfds₂.trans hfds₁)
          exact ⟨rfl, fun n => FdTable.get_close_lowestFree fun _ => congrFun hget n⟩
        · rename_i dstFd s₂ hcreate
          rcases create_ok hcreate with ⟨q, hmade, rfl, hfds₂⟩
          rw [Kernel.cmdCp_of_open_create hsrc hdst args hread hmade]
          have hsrcFd := (congrArg (·.get s.fds.lowestFree) (hfds₁ ▸ hfds₂)).trans
            (FdTable.get_alloc_alloc _ _ _)
          have hdstFd := (congrArg (·.get s₁.fds.lowestFree) hfds₂).trans
            (FdTable.get_alloc_self _ _)
          rcases copyLoop_refines (k := k) (placeOf_ne_of_open_create k hopen hcreate) hsrcFd hdstFd
            (k.ne_of_openRead_create hread hmade) with ⟨hcopy, hkeep⟩
          refine ⟨hcopy, fun n => ?_⟩
          -- The destination is freed first, so the source was entered alone.
          have hinner := fun hn : n ≠ s.fds.lowestFree =>
            FdTable.get_close_lowestFree (t := s₁.fds) fun _ =>
              (hkeep n hn).trans (congrArg (·.get n) hfds₂)
          exact FdTable.get_close_lowestFree fun hn =>
            (hinner hn).trans (congrArg (·.get n) hfds₁)

end OpenFiles

/-- **A copy is faithful, and `cp` closes what it opens.** Whatever the reads and writes return,
`copy_loop` appends a front of the rest of its source, and all of it where it returns `true`. The
kernel may cut every read and write, and may refuse each of them. The induction is on what the
source has left; the second part says that every descriptor is as it was, on every way out of
`cp`. -/
theorem cp_faithful {π : Type} [DecidableEq π] (k : Kernel π) (s : OpenFiles π) :
    (∀ (src dst : Nat) (hne : s.placeOf src ≠ s.placeOf dst) (f g : OpenFile π) (file out : Bytes),
      s.fds.get src = some f → s.fds.get dst = some g →
      s.disk.files f.place = some file → s.disk.files g.place = some out →
      ∃ received, (s.copyLoop k src dst hne).2.disk.files g.place = some (out ++ received) ∧
        Received (s.copyLoop k src dst hne).1 (file.drop f.offset) received) ∧
    ∀ (getcwd : Option Bytes) (args : List Bytes) (fd : Nat),
      (s.cmdCp k getcwd args).2.fds.get fd = s.fds.get fd :=
  ⟨fun _ _ _ _ _ _ _ hsrc hdst hfile hout => OpenFiles.copyLoop_received hsrc hdst hfile hout,
    fun getcwd args => (OpenFiles.cmdCp_refines getcwd args s).2⟩

/-- Two rounds with short transfers, and then a write that is refused. -/
theorem cp_faithful_text :
    let k : Kernel Bytes := ⟨id, fun n => if n < 5 then n + 2 else -1⟩
    let s : OpenFiles Bytes := ⟨⟨fun p => if p = bytes "/a" then some (bytes "some text")
        else if p = bytes "/b" then some [] else none, 0, []⟩,
      ⟨[none, some ⟨bytes "/a", 0⟩, some ⟨bytes "/b", 0⟩]⟩⟩
    (∃ received, (s.copyLoop k 1 2 (by decide)).2.disk.files (bytes "/b") = some ([] ++ received) ∧
      Received (s.copyLoop k 1 2 (by decide)).1 (bytes "some text") received) ∧
    ∀ fd, (s.cmdCp k none [bytes "/a", bytes "/c"]).2.fds.get fd = s.fds.get fd := by
  intro k s
  have hall := cp_faithful k s
  exact ⟨hall.1 1 2 (by decide) ⟨bytes "/a", 0⟩ ⟨bytes "/b", 0⟩ (bytes "some text") [] rfl rfl rfl
    (by decide), hall.2 none [bytes "/a", bytes "/c"]⟩

end OnyxShell
