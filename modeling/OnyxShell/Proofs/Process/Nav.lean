import OnyxShell.Process.Nav
import OnyxShell.Process.Sys
import OnyxShell.Proofs.Process.File

/-!
# `OnyxShell.Proofs.Process.Nav`: the commands that only look

The commands of `src/commands/nav.rs` and those of `src/commands/sys.rs` that do not touch the
environment are `Tidy` under every policy that has nothing against harmless calls. The names that a
directory delivers are joined to its path, so `stat` gets a path from the root for each.
-/

set_option autoImplicit false

namespace OnyxShell.Process

open Routine (wp wp_bind wp_mono wp_pure)

variable {α : Type} {policy : Policy} {g : Globals} {s : Proc}

section
variable (hp : policy.Lenient)
include hp

/-- A line end opens nothing. -/
theorem tidy_newline : Tidy policy newline := .of_wp fun _ _ _ => wp_newline hp

/-- `pwd`. -/
theorem tidy_cmdPwd : Tidy policy cmdPwd := by
  intro Q g s hstd hQ
  rw [cmdPwd, wp_bind]
  refine wp_quiet hp (quiet_getcwd _) ?_
  intro a ha
  split
  · have hfits : a.ret.toNat ≤ (a.into (zeros PATH_MAX)).length := by
      rw [Answer.length_into, length_zeros]
      exact Int.toNat_le.mpr ha
    rw [wp_bind, wp_slice hfits, wp_bind, wp_writeRaw hp, wp_newline hp]
    exact hQ ()
  · rw [wp_bind, wp_writeRaw hp, wp_newline hp]
    exact hQ ()

/-- `cd` gives `chdir` a clean path. -/
theorem tidy_cmdCd (args : List Bytes) : Tidy policy (cmdCd args) := by
  intro Q g s hstd hQ
  rw [cmdCd, wp_bind]
  refine wp_resolve hp _ ?_
  intro r hr
  cases r with
  | none => exact tidy_writeError hp _ Q g s hstd hQ
  | some abs =>
    show wp (conduct policy) (sys (.chdir (cString abs)) >>= _) Q g s
    have hproper : s.Proper (.chdir (cString abs)) := (hr abs rfl).cleanPath
    rw [wp_bind]
    refine wp_plain hproper (hp _ trivial) (fun _ => rfl) ?_
    intro a _
    exact Tidy.ite (tidy_writeErrorErrno hp _ _) (Tidy.pure ()) Q g s hstd hQ

/-- The loop of `ls` is tidy when printing one entry is. `readdir` takes a path, so that there is
no descriptor to close. -/
theorem tidy_lsLoop (turns : Nat) (dirPath : Bytes) {entry : Bytes → Sh Unit}
    (hentry : ∀ name, Tidy policy (entry name)) : Tidy policy (lsLoop turns dirPath entry) := by
  refine Tidy.loop ?_ turns _
  intro st
  refine tidy_quiet hp (quiet_readdir _ _) ?_
  intro a
  refine .ite (.ite ?_ (Tidy.pure _)) (.bind (hentry _) fun _ => Tidy.pure _)
  exact .bind (tidy_writeErrorErrno hp _ _) fun _ => Tidy.pure _

/-- A line of a plain `ls`. -/
theorem tidy_shortEntry (name : Bytes) : Tidy policy (shortEntry name) :=
  .bind (tidy_writeRaw hp name) fun _ => tidy_newline hp

/-- The line of an entry that `stat` refuses. -/
theorem tidy_unknownEntry (name : Bytes) : Tidy policy (unknownEntry name) :=
  .bind (tidy_writeRaw hp _) fun _ => .bind (tidy_writeRaw hp name) fun _ => tidy_newline hp

omit hp in
/-- What is appended behind a `/` does not change the first byte. -/
theorem absolutePath_appendWithSlash {dir more full : Bytes} (hdir : dir.head? = some '/'.toUInt8)
    (h : appendWithSlash dir more = some full) : AbsolutePath (cString full) := by
  -- Both branches end with the same test of the length.
  have hcut : ∀ front : Bytes, front.head? = some '/'.toUInt8 →
      (if front.length + more.length ≥ PATH_MAX then none else some (front ++ more)) = some full →
      AbsolutePath (cString full) := by
    intro front hfront hfull
    split at hfull
    · cases hfull
    · rename_i hlen
      cases hfull
      refine absolutePath_cString ?_ ?_
      · rw [List.head?_append, hfront]
        rfl
      · rw [List.length_append]
        exact Nat.not_le.mp hlen
  rw [appendWithSlash] at h
  split at h
  · split at h
    · cases h
    · exact hcut _ (by rw [List.head?_append, hdir]; rfl) h
  · exact hcut dir hdir h

omit hp in
/-- The path of a name in a directory is a path from the root. -/
theorem absolutePath_joinPath {dir name full : Bytes} (hdir : dir.head? = some '/'.toUInt8)
    (h : joinPath dir name = some full) : AbsolutePath (cString full) := by
  have happend : appendWithSlash dir name = some full := by
    rw [joinPath] at h
    split at h
    · cases h
    · split at h
      · cases h
      · exact h
  exact absolutePath_appendWithSlash hdir happend

/-- A line of `ls -l`. The directory is absolute, and with it the path that `stat` is given. -/
theorem tidy_longEntry {dirPath : Bytes} (hdir : dirPath.head? = some '/'.toUInt8) (name : Bytes) :
    Tidy policy (longEntry dirPath name) := by
  intro Q g s hstd hQ
  rw [longEntry]
  split
  · exact tidy_unknownEntry hp name Q g s hstd hQ
  · rename_i full hfull
    have hproper : s.Proper (.stat (cString full)) := absolutePath_joinPath hdir hfull
    rw [wp_bind]
    refine wp_plain hproper (hp _ trivial) (fun _ => rfl) ?_
    intro a _
    split
    · exact tidy_unknownEntry hp name Q g s hstd hQ
    · simp only [wp_bind, wp_writeByte hp, wp_writeRaw hp, wp_writeU64Field hp, wp_newline hp]
      exact hQ ()

/-- `ls`, with and without `-l`. -/
theorem tidy_cmdLs (turns : Nat) (args : List Bytes) : Tidy policy (cmdLs turns args) := by
  intro Q g s hstd hQ
  rw [cmdLs, wp_bind]
  refine wp_resolve hp _ ?_
  intro r hr
  cases r with
  | none => exact tidy_writeError hp _ Q g s hstd hQ
  | some abs =>
    refine Tidy.ite ?_ ?_ Q g s hstd hQ
    · exact tidy_lsLoop hp turns abs (tidy_longEntry hp (hr abs rfl).head?)
    · exact tidy_lsLoop hp turns abs (tidy_shortEntry hp)

/-! ### The system -/

/-- `help` is output only. -/
theorem tidy_cmdHelp : Tidy policy cmdHelp :=
  .forM fun line _ => .of_wp fun _ _ _ => wp_writeLine hp line

/-- `echo` is output only. -/
theorem tidy_cmdEcho (args : List Bytes) : Tidy policy (cmdEcho args) := by
  refine .bind (.forM ?_) fun _ => tidy_newline hp
  rintro ⟨a, i⟩ _
  refine .of_wp fun Q g s => ?_
  simp only
  split
  · rw [wp_bind, wp_writeByte hp, wp_writeRaw hp]
  · exact wp_writeRaw hp a

/-- `env` reads the table and prints it. -/
theorem tidy_envList : Tidy policy envList := by
  intro Q g s hstd hQ
  show wp (conduct policy) (g.env.entries.forM _) Q g s
  refine Tidy.forM ?_ Q g s hstd hQ
  rintro ⟨key, val⟩ _
  exact .bind (tidy_writeRaw hp _) fun _ => .bind (tidy_writeRaw hp _) fun _ =>
    .bind (tidy_writeRaw hp _) fun _ => tidy_newline hp

/-- `whoami`. -/
theorem tidy_cmdWhoami : Tidy policy cmdWhoami := by
  refine tidy_quiet hp quiet_getuid fun uid => ?_
  refine tidy_quiet hp quiet_getring fun ring => ?_
  refine .of_wp fun Q g s => ?_
  simp only [wp_bind, wp_writeRaw hp, wp_writeI64 hp]

/-- `uname`. -/
theorem tidy_cmdUname : Tidy policy cmdUname := by
  refine tidy_quiet hp quiet_uname fun a => ?_
  refine .ite (tidy_writeErrorErrno hp _ _) (.forM ?_)
  rintro ⟨label, off⟩ _
  refine .of_wp fun Q g s => ?_
  simp only [wp_bind, wp_writeRaw hp, wp_newline hp]

/-- `date`. -/
theorem tidy_cmdDate : Tidy policy cmdDate := by
  refine tidy_quiet hp (quiet_clockGettime 0) fun a => ?_
  refine .ite (tidy_writeErrorErrno hp _ _) (.of_wp fun Q g s => ?_)
  simp only [wp_bind, wp_writeRaw hp, wp_writeU64 hp]

/-- `exit` does not return, so that every postcondition holds behind it. -/
theorem wp_exit {Q : α → Globals → Proc → Prop} : wp (conduct policy) (exit 0 : Sh α) Q g s := by
  rw [exit, wp_bind]
  refine wp_plain (by exact rfl) (hp _ (by trivial)) (fun _ => rfl) ?_
  intro _ _
  trivial

/-- `exit` prints and does not return. -/
theorem tidy_cmdExit : Tidy policy cmdExit :=
  .bind (.of_wp fun _ _ _ => wp_writeLine hp _) fun _ => fun _ _ _ _ _ => wp_exit hp

/-- `ver` is output only. -/
theorem tidy_cmdVer : Tidy policy cmdVer := by
  refine .of_wp fun Q g s => ?_
  simp only [cmdVer, wp_bind, wp_writeLine hp]

end

end OnyxShell.Process
