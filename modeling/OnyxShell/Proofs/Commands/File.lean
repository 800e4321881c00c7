import OnyxShell.Commands.File

/-!
# `OnyxShell.Proofs.Commands.File`: `mv` never loses the file

`copyLoop_received`: a copy appends a front of the source to its destination, and all of it
where it ends well. `cmdCp_keeps`: `cp` changes no file that is there. `cmdCp_copies`: where it
says that it succeeded, the destination holds what the source holds. So `mv` may remove the source
behind it (`cmdMv_keeps`).
-/

set_option autoImplicit false

namespace OnyxShell

namespace Kernel

variable {π : Type} {k : Kernel π} {d d' : Disk π}

/-! ### The loops -/

/-- A chunk is the next part of the file, and empty at its end only. -/
theorem readFd_ok {fd : π} {offset : Nat} {chunk file : Bytes}
    (h : k.readFd fd offset 512 d = (.ok chunk, d')) (hfile : d.files fd = some file) :
    file.drop offset = chunk ++ file.drop (offset + chunk.length) ∧
      (chunk = [] → file.drop offset = []) := by
  rw [readFd, hfile] at h
  split at h
  · cases h
  · cases h
    generalize hn : min (max (k.outcome d.calls).toNat 1) 512 = n
    rw [Option.getD_some, ← List.drop_drop]
    constructor
    · rcases List.take_prefix n (file.drop offset) with ⟨rest, hrest⟩
      have hdrop : ((file.drop offset).take n ++ rest).drop ((file.drop offset).take n).length
          = rest := List.drop_left
      rw [hrest] at hdrop
      rw [hdrop, hrest]
    · intro hend
      rcases List.take_eq_nil_iff.mp hend with hzero | hnil
      · omega
      · exact hnil

/-- A chunk is not longer than asked for. -/
theorem length_readFd_le_len {fd : π} {offset len : Nat} {chunk : Bytes}
    (h : k.readFd fd offset len d = (.ok chunk, d')) : chunk.length ≤ len := by
  rw [readFd] at h
  split at h
  · cases h
  · cases h
    rw [List.length_take]
    omega

variable [DecidableEq π]

/-- A write that is not refused appends what it counts. -/
theorem writeFd_pos {fd : π} {buf file : Bytes} {w : Int} (h : k.writeFd fd buf d = (w, d'))
    (hpos : ¬ w ≤ 0) (hfile : d.files fd = some file) :
    w.toNat ≤ buf.length ∧ d'.files fd = some (file ++ buf.take w.toNat) := by
  rw [writeFd] at h
  split at h
  · cases h
    omega
  · cases h
    refine ⟨by omega, ?_⟩
    show (if fd = fd then _ else _) = _
    rw [if_pos rfl, hfile, Int.toNat_natCast]
    rfl

/-- A write that is refused appends nothing. -/
theorem writeFd_le {fd : π} {buf file : Bytes} {w : Int} (h : k.writeFd fd buf d = (w, d'))
    (hle : w ≤ 0) (hfile : d.files fd = some file) : d'.files fd = some file := by
  rw [writeFd] at h
  split at h
  · cases h
    exact hfile
  · -- None of the bytes is taken.
    cases h
    have hzero : min (k.outcome d.calls).toNat buf.length = 0 := by omega
    show (if fd = fd then _ else _) = _
    rw [if_pos rfl, hfile, hzero, List.take_zero]
    exact congrArg some (List.append_nil file)

/-- The write loop appends what comes through of the rest of the chunk. -/
theorem writeLoop_received {fd : π} {chunk file : Bytes} {written : Nat} {ok : Bool}
    (h : k.writeLoop fd chunk written d = (ok, d')) (hfile : d.files fd = some file) :
    ∃ received, d'.files fd = some (file ++ received) ∧
      Received ok (chunk.drop written) received := by
  fun_induction writeLoop k fd chunk written d generalizing file with
  | case1 written d hlt w d₁ hw hle =>
    cases h
    refine ⟨[], ?_, List.nil_prefix, fun h => by cases h⟩
    rw [List.append_nil]
    show d₁.files fd = some file
    exact writeFd_le hw hle hfile
  | case2 written d hlt w d₁ hw hle ih =>
    rcases writeFd_pos hw hle hfile with ⟨-, hfile₁⟩
    rcases ih h hfile₁ with ⟨received, hfile', hprefix, hwhole⟩
    refine ⟨(chunk.drop written).take w.toNat ++ received, ?_, ?_, ?_⟩
    · rw [hfile', List.append_assoc]
    · have hfront := (List.prefix_append_right_inj ((chunk.drop written).take w.toNat)).mpr hprefix
      rwa [← List.drop_drop, List.take_append_drop] at hfront
    · intro hok
      rw [hwhole hok, ← List.drop_drop, List.take_append_drop]
  | case3 written d hlt =>
    cases h
    refine ⟨[], by rw [List.append_nil, hfile], List.nil_prefix, fun _ => ?_⟩
    exact (List.drop_eq_nil_of_le (Nat.le_of_not_lt hlt)).symm

/-- One round of the loop over places. -/
theorem copyLoop_eq {src dst : π} {hne : src ≠ dst} {offset : Nat} {d : Disk π} :
    k.copyLoop src dst hne offset d =
      match k.readFd src offset 512 d with
      | (.error _, d') => (false, d'.notice (.error (bytes "cp: read error")))
      | (.ok chunk, d') =>
        if chunk = [] then (true, d')
        else
          match k.writeLoop dst chunk 0 d' with
          | (false, d'') => (false, d'')
          | (true, d'') => k.copyLoop src dst hne (offset + chunk.length) d'' := by
  rw [copyLoop]
  split
  · rename_i hread
    rw [hread]
  · rename_i chunk d' hread
    rw [hread]
    dsimp only
    split
    · rfl
    · split
      · rename_i hwrite
        rw [hwrite]
      · rename_i hwrite
        rw [hwrite]

/-- A copy leaves the files other than its destination alone. -/
theorem files_copyLoop {src dst p : π} (hne : src ≠ dst) (hp : p ≠ dst) (offset : Nat)
    (d : Disk π) : (k.copyLoop src dst hne offset d).2.files p = d.files p := by
  fun_induction copyLoop k src dst hne offset d with
  | case1 offset d ret d' hread => exact congrFun (k.files_readFd hread) p
  | case2 offset d d' hread => exact congrFun (k.files_readFd hread) p
  | case3 offset d chunk d' hread hend d'' hwrite =>
    rw [k.files_writeLoop hp hwrite, k.files_readFd hread]
  | case4 offset d chunk d' hread hend d'' hwrite ih =>
    rw [ih, k.files_writeLoop hp hwrite, k.files_readFd hread]

/-- **A copy appends what comes through** of the rest of the source. -/
theorem copyLoop_received {src dst : π} {hne : src ≠ dst} {offset : Nat} {file out : Bytes}
    {ok : Bool} (h : k.copyLoop src dst hne offset d = (ok, d')) (hsrc : d.files src = some file)
    (hdst : d.files dst = some out) :
    ∃ received, d'.files dst = some (out ++ received) ∧
      Received ok (file.drop offset) received := by
  -- A failed read, the end of the file, a failed write, and one more round.
  fun_induction copyLoop k src dst hne offset d generalizing out with
  | case1 offset d ret d₁ hread =>
    cases h
    refine ⟨[], ?_, List.nil_prefix, fun h => by cases h⟩
    rw [List.append_nil, ← hdst]
    exact congrFun (k.files_readFd hread) dst
  | case2 offset d d₁ hread =>
    cases h
    refine ⟨[], ?_, List.nil_prefix, fun _ => ((readFd_ok hread hsrc).2 rfl).symm⟩
    rw [List.append_nil, k.files_readFd hread, hdst]
  | case3 offset d chunk d₁ hread hend d₂ hwrite =>
    cases h
    rcases writeLoop_received hwrite ((congrFun (k.files_readFd hread) dst).trans hdst) with
      ⟨received, hfile, hprefix, -⟩
    refine ⟨received, hfile, ?_, fun h => by cases h⟩
    rw [(readFd_ok hread hsrc).1]
    exact hprefix.trans (List.prefix_append _ _)
  | case4 offset d chunk d₁ hread hend d₂ hwrite ih =>
    have hfiles := k.files_readFd hread
    have hsrc₂ : d₂.files src = some file := by
      rw [k.files_writeLoop hne hwrite, hfiles, hsrc]
    rcases writeLoop_received hwrite (hfiles ▸ hdst) with ⟨first, hdst₂, -, hwhole⟩
    obtain rfl : first = chunk := hwhole rfl
    rcases ih h hsrc₂ hdst₂ with ⟨received, hfile, hprefix, hrest⟩
    rw [(readFd_ok hread hsrc).1]
    refine ⟨first ++ received, ?_, (List.prefix_append_right_inj first).mpr hprefix, ?_⟩
    · rw [hfile, List.append_assoc]
    · exact fun hok => congrArg (first ++ ·) (hrest hok)

/-! ### The commands -/

/-- A rename moves the file or changes nothing. -/
theorem rename_moves (src dst : Bytes) (d : Disk π) :
    ((k.rename src dst d).1 = 0 ∧
        (k.rename src dst d).2.files (k.place dst) = d.files (k.place src)) ∨
      ((k.rename src dst d).1 ≠ 0 ∧ (k.rename src dst d).2.files = d.files) := by
  rw [rename]
  split
  · exact Or.inl ⟨rfl, if_pos rfl⟩
  · rename_i hret
    exact Or.inr ⟨hret, rfl⟩

/-- An unlink leaves the files at other places alone. -/
theorem files_unlink (path : Bytes) {p : π} (hne : p ≠ k.place path) (d : Disk π) :
    (k.unlink path d).2.files p = d.files p := by
  rw [unlink]
  split
  · rfl
  · exact if_neg hne

section

variable {getcwd : Option Bytes} {src dst srcAbs dstAbs : Bytes} {d₁ d₂ : Disk π}
  (hsrc : resolve getcwd src = some srcAbs) (hdst : resolve getcwd dst = some dstAbs)
  (args : List Bytes)

include hsrc hdst

/-- `cp` of a source that cannot be opened. -/
theorem cmdCp_of_open_error {ret : Int} (hopen : k.openRead srcAbs d = (.error ret, d₁)) :
    k.cmdCp getcwd (src :: dst :: args) d = (false, d₁.notice (.errno (bytes "cp") ret)) := by
  simp only [cmdCp, hsrc, hdst]
  split
  · rename_i hopen'
    cases hopen.symm.trans hopen'
    rfl
  · rename_i hopen'
    cases hopen.symm.trans hopen'

/-- `cp` to a destination that cannot be created. -/
theorem cmdCp_of_create_error {p : π} {ret : Int} (hopen : k.openRead srcAbs d = (.ok p, d₁))
    (hcreate : k.create dstAbs d₁ = (.error ret, d₂)) :
    k.cmdCp getcwd (src :: dst :: args) d
      = (false, d₂.notice (.errno (bytes "cp: cannot create destination") ret)) := by
  simp only [cmdCp, hsrc, hdst]
  split
  · rename_i hopen'
    cases hopen.symm.trans hopen'
  · rename_i hopen'
    cases hopen.symm.trans hopen'
    split
    · rename_i hcreate'
      cases hcreate.symm.trans hcreate'
      rfl
    · rename_i hcreate'
      cases hcreate.symm.trans hcreate'

/-- `cp` with both files open. -/
theorem cmdCp_of_open_create {p q : π} (hopen : k.openRead srcAbs d = (.ok p, d₁))
    (hcreate : k.create dstAbs d₁ = (.ok q, d₂)) :
    k.cmdCp getcwd (src :: dst :: args) d
      = k.copyLoop p q (k.ne_of_openRead_create hopen hcreate) 0 d₂ := by
  simp only [cmdCp, hsrc, hdst]
  split
  · rename_i hopen'
    cases hopen.symm.trans hopen'
  · rename_i hopen'
    cases hopen.symm.trans hopen'
    split
    · rename_i hcreate'
      cases hcreate.symm.trans hcreate'
    · rename_i hcreate'
      cases hcreate.symm.trans hcreate'
      rfl

end

/-- `cp` changes no file that is there. -/
theorem cmdCp_keeps (getcwd : Option Bytes) (args : List Bytes) {p : π} {file : Bytes}
    (hfile : d.files p = some file) : (k.cmdCp getcwd args d).2.files p = some file := by
  unfold cmdCp
  split
  · split
    · split
      · rename_i ret d₁ hopen
        exact (congrFun (k.files_openRead hopen) p).trans hfile
      · rename_i srcFd d₁ hopen
        have hopened := k.files_openRead hopen
        split
        · rename_i ret d₂ hcreate
          have hcreated := k.create_error hcreate
          rw [hopened] at hcreated
          exact (congrFun hcreated p).trans hfile
        · -- The destination was not there, so it is not this file.
          rename_i dstFd d₂ hcreate
          rcases k.create_ok hcreate with ⟨-, hnone, hfiles⟩
          rw [hopened] at hnone hfiles
          have hp : p ≠ dstFd := by
            rintro rfl
            rw [hfile] at hnone
            cases hnone
          rw [files_copyLoop _ hp, hfiles]
          exact (if_neg hp).trans hfile
    · exact hfile
  · exact hfile

/-- **Where `cp` says that it succeeded**, the destination is another place than the source
and holds what the source holds. -/
theorem cmdCp_copies {getcwd : Option Bytes} {src dst : Bytes} {args : List Bytes}
    {srcAbs dstAbs : Bytes} {file : Bytes} (hsrc : resolve getcwd src = some srcAbs)
    (hdst : resolve getcwd dst = some dstAbs) (hfile : d.files (k.place srcAbs) = some file)
    (h : k.cmdCp getcwd (src :: dst :: args) d = (true, d')) :
    k.place srcAbs ≠ k.place dstAbs ∧ d'.files (k.place dstAbs) = some file := by
  simp only [cmdCp, hsrc, hdst] at h
  split at h
  · cases h
  · rename_i srcFd d₁ hopen
    have hopened := k.files_openRead hopen
    rcases k.openRead_ok hopen with ⟨rfl, -⟩
    split at h
    · cases h
    · rename_i dstFd d₂ hcreate
      rcases k.create_ok hcreate with ⟨rfl, -, hfiles⟩
      rw [hopened] at hfiles
      have hne := k.ne_of_openRead_create hopen hcreate
      have hsrc₂ : d₂.files (k.place srcAbs) = some file := by
        rw [hfiles]
        exact (if_neg hne).trans hfile
      have hdst₂ : d₂.files (k.place dstAbs) = some [] := by
        rw [hfiles]
        exact if_pos rfl
      rcases copyLoop_received h hsrc₂ hdst₂ with ⟨received, hcopied, -, hwhole⟩
      rw [hwhole rfl] at hcopied
      exact ⟨hne, hcopied⟩

end Kernel

/-- **`mv` never loses the file**: its source holds it still, or its destination holds it. Either
the `rename` has moved the file, or nothing has changed and the copy decides. The source is
removed only behind a copy that has succeeded, and such a copy has found the two paths at
different places. -/
theorem cmdMv_keeps {π : Type} [DecidableEq π] (k : Kernel π) (getcwd : Option Bytes)
    (src dst : Bytes) (args : List Bytes) (d : Disk π) (srcAbs file : Bytes)
    (hsrc : resolve getcwd src = some srcAbs) (hfile : d.files (k.place srcAbs) = some file) :
    (k.cmdMv getcwd (src :: dst :: args) d).files (k.place srcAbs) = some file ∨
      ∃ dstAbs, resolve getcwd dst = some dstAbs ∧
        (k.cmdMv getcwd (src :: dst :: args) d).files (k.place dstAbs) = some file := by
  cases hdst : resolve getcwd dst with
  | none =>
    left
    simp only [Kernel.cmdMv, hsrc, hdst]
    exact hfile
  | some dstAbs =>
    simp only [Kernel.cmdMv, hsrc, hdst]
    rcases Kernel.rename_moves (k := k) srcAbs dstAbs d with ⟨hret, hmoved⟩ | ⟨hret, hsame⟩
    · rw [if_pos hret]
      exact Or.inr ⟨dstAbs, rfl, hmoved.trans hfile⟩
    · rw [if_neg hret]
      generalize hd : (k.rename srcAbs dstAbs d).2.notice
        (.raw (bytes "osh: mv: rename failed, falling back to copy+remove\n")) = d₁
      have hfile₁ : d₁.files (k.place srcAbs) = some file := by
        rw [← hd]
        exact (congrFun hsame _).trans hfile
      generalize hcp : k.cmdCp getcwd (src :: dst :: args) d₁ = cp
      rcases cp with ⟨ok, d₂⟩
      cases ok with
      | true =>
        rcases Kernel.cmdCp_copies hsrc hdst hfile₁ hcp with ⟨hne, hcopied⟩
        -- The source is removed, and the destination is another place.
        have hkept := (Kernel.files_unlink srcAbs (Ne.symm hne) d₂).trans hcopied
        refine Or.inr ⟨dstAbs, rfl, ?_⟩
        rw [if_pos rfl]
        split
        · exact hkept
        · exact hkept
      | false =>
        have hkept := Kernel.cmdCp_keeps (k := k) getcwd (src :: dst :: args) hfile₁
        rw [hcp] at hkept
        exact Or.inl hkept

/-- The rename is refused, and every transfer moves one byte. -/
theorem cmdMv_keeps_a_b :
    (Kernel.cmdMv (⟨id, fun _ => 1⟩ : Kernel Bytes) none [bytes "/a", bytes "/b"]
        ⟨fun p => if p = bytes "/a" then some (bytes "text") else none, 0, []⟩).files (bytes "/a")
      = some (bytes "text") ∨
    ∃ dstAbs, resolve none (bytes "/b") = some dstAbs ∧
      (Kernel.cmdMv (⟨id, fun _ => 1⟩ : Kernel Bytes) none [bytes "/a", bytes "/b"]
        ⟨fun p => if p = bytes "/a" then some (bytes "text") else none, 0, []⟩).files dstAbs
      = some (bytes "text") :=
  cmdMv_keeps ⟨id, fun _ => 1⟩ none (bytes "/a") (bytes "/b") []
    ⟨fun p => if p = bytes "/a" then some (bytes "text") else none, 0, []⟩ (bytes "/a")
    (bytes "text") (by decide +kernel) (by decide)

end OnyxShell
