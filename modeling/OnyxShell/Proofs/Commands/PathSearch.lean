import OnyxShell.Commands.PathSearch
import OnyxShell.Lib.TextBuffer
import OnyxShell.Proofs.PathNormal
import OnyxShell.Proofs.Startup

/-!
# `OnyxShell.Proofs.Commands.PathSearch`: when the search of `PATH` finds the first hit

`searchPath_eq_firstHit_iff`. One directory after the other: a path that fits is looked up as it
is. A cut path ends in less than the command (`cmdInDir_ne_joinPath`), so it is never the hit of
a later directory.

`fillsBuffer` is the directory behind which the source leaves the search: it has no room for the
`/`.
-/

set_option autoImplicit false

namespace OnyxShell

variable {around : Surroundings} {cmd absDir : Bytes}

/-! ### Directories -/

/-- What `resolve` returns is not empty. -/
theorem length_pos_resolve {cwd : Option Bytes} {input out : Bytes}
    (h : resolve cwd input = some out) : 0 < out.length := by
  have hnormal : ∀ path, normalize path = some out → 0 < out.length := by
    intro path hpath
    have hhead := (rendered_normalize hpath).head?
    cases out with
    | nil => cases hhead
    | cons b rest => exact Nat.zero_lt_succ _
  have hroot : copyAbs (bytes "/") = some out → 0 < out.length := by
    intro hcopy
    cases hcopy
    decide
  rw [resolve.eq_def] at h
  split at h
  · cases h
  · split at h
    · exact hnormal input h
    · split at h
      · exact hroot h
      · split at h
        · exact hroot h
        · dsimp only at h
          split at h
          · cases h
          · rcases Option.bind_eq_some_iff.mp h with ⟨path, -, hpath⟩
            exact hnormal path hpath

/-- A directory of `PATH` is resolved, so that it is not empty and fits its buffer. -/
theorem length_of_mem_pathDirs (h : absDir ∈ pathDirs around) :
    0 < absDir.length ∧ absDir.length < PATH_MAX := by
  rcases List.mem_filterMap.mp h with ⟨dir, -, hdir⟩
  exact ⟨length_pos_resolve hdir, length_lt_resolve hdir⟩

/-! ### One directory -/

/-- The text in front of the command ends with its `/`. -/
theorem joinPath_eq (h : 0 < absDir.length) (cmd : Bytes) :
    ∃ front, joinPath absDir cmd = front ++ '/'.toUInt8 :: cmd ∧
      front.length + 1 = absDir.length + (if needsSlash absDir then 1 else 0) := by
  rw [joinPath]
  by_cases hslash : needsSlash absDir = true
  · refine ⟨absDir, ?_, ?_⟩
    · rw [if_pos hslash, List.append_assoc]
      rfl
    · rw [if_pos hslash]
  · have hlast : absDir.getLast? = some '/'.toUInt8 := by
      by_contra hne
      exact hslash (decide_eq_true ⟨h, hne⟩)
    rcases List.getLast?_eq_some_iff.mp hlast with ⟨front, rfl⟩
    refine ⟨front, ?_, ?_⟩
    · rw [if_neg hslash, List.append_assoc]
      rfl
    · rw [if_neg hslash, List.length_append, List.length_singleton]

/-- What is behind the last `/`. -/
theorem eq_of_append_slash {front front' tail tail' : Bytes} (h : '/'.toUInt8 ∉ tail)
    (h' : '/'.toUInt8 ∉ tail') (heq : front ++ '/'.toUInt8 :: tail = front' ++ '/'.toUInt8 :: tail') :
    tail = tail' := by
  have hread : ∀ front tail : Bytes, '/'.toUInt8 ∉ tail →
      (front ++ '/'.toUInt8 :: tail).reverse.takeWhile (· ≠ '/'.toUInt8) = tail.reverse := by
    intro front tail hnot
    have hrev : (front ++ '/'.toUInt8 :: tail).reverse
        = tail.reverse ++ '/'.toUInt8 :: front.reverse := by simp
    rw [hrev, TextBuffer.takeWhile_append_cons (by simp), List.takeWhile_eq_self_iff]
    intro b hb
    exact decide_eq_true fun hslash => hnot (List.mem_reverse.mp (hslash ▸ hb))
  have hrev := congrArg (fun path : Bytes => path.reverse.takeWhile (· ≠ '/'.toUInt8)) heq
  simp only [hread front tail h, hread front' tail' h'] at hrev
  exact List.reverse_injective hrev

/-- A cut path is no other directory's path. -/
theorem cmdInDir_ne_joinPath (hcmd : '/'.toUInt8 ∉ cmd) (hpos : 0 < absDir.length)
    (hroom : ¬ fillsBuffer absDir) (hlt : absDir.length < PATH_MAX)
    (hlong : PATH_MAX - 1 < (joinPath absDir cmd).length) {other : Bytes} (hother : 0 < other.length) :
    cmdInDir absDir cmd ≠ joinPath other cmd := by
  intro heq
  rcases joinPath_eq hpos cmd with ⟨front, hjoin, hlen⟩
  rcases joinPath_eq hother cmd with ⟨front', hjoin', -⟩
  have hmax : PATH_MAX - 1 = 255 := rfl
  have hfit : front.length + 1 ≤ PATH_MAX - 1 := by
    rw [hlen]
    split
    · rename_i hslash
      have hle : ¬ absDir.length ≥ PATH_MAX - 1 := fun hge => hroom ⟨hslash, hge⟩
      omega
    · omega
  rw [hjoin, List.length_append, List.length_cons] at hlong
  have hcut : cmdInDir absDir cmd
      = front ++ '/'.toUInt8 :: cmd.take (PATH_MAX - 1 - (front.length + 1)) := by
    show (joinPath absDir cmd).take (PATH_MAX - 1) = _
    have hroom' : PATH_MAX - 1 - front.length = (PATH_MAX - 1 - (front.length + 1)) + 1 := by omega
    rw [hjoin, List.take_append, List.take_of_length_le (by omega), hroom', List.take_succ_cons]
  rw [hcut, hjoin'] at heq
  have hsame := eq_of_append_slash (fun hin => hcmd (List.mem_of_mem_take hin)) hcmd heq
  have hlens := congrArg List.length hsame
  rw [List.length_take] at hlens
  omega

/-! ### The search -/

/-- The loop of `search_path` over the directories that have a path. -/
def searchAbs (around : Surroundings) (cmd : Bytes) : List Bytes → Option Bytes
  | [] => none
  | absDir :: rest =>
    if fillsBuffer absDir then none
    else if around.stat (cString (cmdInDir absDir cmd)) then some (cmdInDir absDir cmd)
    else searchAbs around cmd rest

/-- The loop skips empty entries and those that do not resolve, and searches the others. -/
theorem searchDirs_eq_searchAbs (around : Surroundings) (cmd : Bytes) (dirs : List Bytes) :
    searchDirs around cmd dirs
      = searchAbs around cmd ((dirs.filter (· ≠ [])).filterMap (resolve around.getcwd)) := by
  induction dirs with
  | nil => rfl
  | cons dir rest ih =>
    rw [searchDirs, ih]
    by_cases hempty : dir = []
    · rw [if_pos hempty, List.filter_cons_of_neg (by simp [hempty])]
    · rw [if_neg hempty, List.filter_cons_of_pos (by simp [hempty]), List.filterMap_cons]
      cases resolve around.getcwd dir with
      | none => rfl
      | some absDir =>
        rw [searchAbs]
        rfl

/-- A command without `/` is searched for in the directories of `PATH`. -/
theorem searchPath_eq_searchAbs (hcmd : '/'.toUInt8 ∉ cmd) :
    searchPath around cmd = searchAbs around cmd (pathDirs around) := by
  rw [searchPath_eq, if_neg hcmd, searchDirs_eq_searchAbs]
  rfl

/-- The hit of a later directory. -/
theorem exists_of_find?_map {dirs : List Bytes} {path : Bytes}
    (h : (dirs.find? fun absDir => IsHit around cmd absDir).map (joinPath · cmd) = some path) :
    ∃ absDir ∈ dirs, path = joinPath absDir cmd := by
  rcases Option.map_eq_some_iff.mp h with ⟨absDir, hfind, rfl⟩
  exact ⟨absDir, List.mem_of_find?_eq_some hfind, rfl⟩

/-- **The search as a loop.** It finds the first hit if and only if no cut path is taken for one
before it, by induction on the directories. -/
theorem searchAbs_eq_iff (hcmd : '/'.toUInt8 ∉ cmd) {dirs : List Bytes}
    (hdirs : ∀ absDir ∈ dirs, 0 < absDir.length ∧ absDir.length < PATH_MAX) :
    searchAbs around cmd dirs
        = (dirs.find? fun absDir => IsHit around cmd absDir).map (joinPath · cmd) ↔
      SearchFits around cmd dirs := by
  -- The search and its condition both go through the directories in order.
  induction dirs with
  | nil => exact iff_of_true rfl trivial
  | cons absDir rest ih =>
    rcases hdirs absDir List.mem_cons_self with ⟨hpos, hlt⟩
    have hrest := ih fun d hd => hdirs d (List.mem_cons_of_mem _ hd)
    have hcut : cmdInDir absDir cmd = (joinPath absDir cmd).take (PATH_MAX - 1) := rfl
    rw [searchAbs, SearchFits]
    by_cases hfull : fillsBuffer absDir
    · -- The search ends, and there must be nothing left to find.
      have hnot : ¬ IsHit around cmd absDir := by
        intro hhit
        rcases joinPath_eq hpos cmd with ⟨front, hjoin, hlen⟩
        have hle := hhit.1
        have hge := hfull.2
        rw [if_pos hfull.1] at hlen
        rw [hjoin, List.length_append, List.length_cons] at hle
        omega
      rw [if_pos hfull, if_pos hfull, List.find?_cons_of_neg (by simpa using hnot), eq_comm,
        Option.map_eq_none_iff, List.find?_eq_none]
      exact forall₂_congr fun later _ => not_congr decide_eq_true_iff
    · rw [if_neg hfull, if_neg hfull]
      by_cases hfits : (joinPath absDir cmd).length ≤ PATH_MAX - 1
      · -- The path is not cut, so it is a hit or nothing.
        rw [hcut, List.take_of_length_le hfits]
        have hnocut : ¬ IsCutHit around cmd absDir := fun h => Nat.not_lt.mpr hfits h.1
        by_cases hstat : around.stat (cString (joinPath absDir cmd)) = true
        · have hhit : IsHit around cmd absDir := ⟨hfits, hstat⟩
          rw [if_pos hstat, List.find?_cons_of_pos (by simpa using hhit)]
          exact iff_of_true rfl (Or.inl hhit)
        · have hnot : ¬ IsHit around cmd absDir := fun h => hstat h.2
          rw [if_neg hstat, List.find?_cons_of_neg (by simpa using hnot), hrest]
          exact ⟨fun h => Or.inr ⟨hnocut, h⟩, fun h => (h.resolve_left hnot).2⟩
      · have hlong : PATH_MAX - 1 < (joinPath absDir cmd).length := Nat.lt_of_not_le hfits
        have hnot : ¬ IsHit around cmd absDir := fun h => hfits h.1
        rw [List.find?_cons_of_neg (by simpa using hnot)]
        by_cases hstat : around.stat (cString (cmdInDir absDir cmd)) = true
        · -- The cut path is returned, and no hit is equal to it.
          rw [if_pos hstat]
          apply iff_of_false
          · intro heq
            rcases exists_of_find?_map heq.symm with ⟨other, hother, hpath⟩
            exact cmdInDir_ne_joinPath hcmd hpos hfull hlt hlong
              (hdirs other (List.mem_cons_of_mem _ hother)).1 hpath
          · intro h
            exact (h.resolve_left hnot).1 ⟨hlong, hstat⟩
        · -- It is not there either, and the next directory follows.
          rw [if_neg hstat, hrest]
          exact ⟨fun h => Or.inr ⟨fun hc => hstat hc.2, h⟩, fun h => (h.resolve_left hnot).2⟩

/-- **The search finds the first hit** exactly when up to there no directory fills the buffer and
no cut path is there. The loop cuts a path that does not fit and asks for the cut one, and leaves
the search at a directory that fills the buffer. `SearchFits` follows the directories of `PATH` in
their order, and is a condition on the files only. -/
theorem searchPath_eq_firstHit_iff (around : Surroundings) (cmd : Bytes)
    (hcmd : '/'.toUInt8 ∉ cmd) :
    searchPath around cmd = firstHit around cmd ↔ SearchFits around cmd (pathDirs around) := by
  rw [searchPath_eq_searchAbs hcmd]
  exact searchAbs_eq_iff hcmd fun absDir h => length_of_mem_pathDirs h

/-! ### A long working directory -/

/-- A directory whose path has 253 bytes. -/
def deepDir : Bytes :=
  '/'.toUInt8 :: List.replicate 63 'd'.toUInt8 ++
    (List.replicate 3 ('/'.toUInt8 :: List.replicate 62 'd'.toUInt8)).flatten

/-- A shell with a `PATH`, a working directory and these files. -/
def shellAt (path cwd : Bytes) (files : List Bytes) : Surroundings :=
  ⟨Env.init.set (bytes "PATH") path, some cwd, fun file => files.contains file, fun _ => none⟩

/-- `ls` with the `PATH` `x:/bin`, where the condition can be decided. -/
theorem searchPath_eq_firstHit_iff_bin :
    searchPath (shellAt (bytes "x:/bin") (bytes "/") [bytes "/bin/ls"]) (bytes "ls")
        = firstHit (shellAt (bytes "x:/bin") (bytes "/") [bytes "/bin/ls"]) (bytes "ls") ↔
      SearchFits (shellAt (bytes "x:/bin") (bytes "/") [bytes "/bin/ls"]) (bytes "ls")
        (pathDirs (shellAt (bytes "x:/bin") (bytes "/") [bytes "/bin/ls"])) :=
  searchPath_eq_firstHit_iff _ (bytes "ls") (by decide)

/-- Resolving against a deep directory, when the joined path fits. -/
theorem resolve_deepDir {more path : Bytes} (hne : more ≠ []) (hrel : more.head? ≠ some '/'.toUInt8)
    (hdot : more.take 2 ≠ bytes "./") (happend : appendWithSlash deepDir more = some path)
    (habs : path.head? = some '/'.toUInt8) :
    resolve (some deepDir) more = (pathSteps path).foldlM onComponent (bytes "/") := by
  rw [resolve_relative (by decide +kernel) hne hrel, if_neg (by decide +kernel), if_neg hdot, happend,
    Option.bind_some, normalize_eq_foldlM habs]

/-- The directories of `PATH` there. -/
theorem pathDirs_deepDir (files : List Bytes) :
    pathDirs (shellAt (bytes "x:/bin") deepDir files) = [deepDir ++ bytes "/x", bytes "/bin"] ∧
    pathDirs (shellAt (bytes ".:/bin") deepDir files) = [deepDir, bytes "/bin"] := by
  have hx : resolve (some deepDir) (bytes "x") = some (deepDir ++ bytes "/x") := by
    have happend : appendWithSlash deepDir (bytes "x") = some (deepDir ++ bytes "/x") := by
      decide +kernel
    rw [resolve_deepDir (by decide) (by decide) (by decide) happend (by decide +kernel)]
    decide +kernel
  have hdot : resolve (some deepDir) (bytes ".") = some deepDir := by
    have happend : appendWithSlash deepDir (bytes ".") = some (deepDir ++ bytes "/.") := by
      decide +kernel
    rw [resolve_deepDir (by decide) (by decide) (by decide) happend (by decide +kernel)]
    decide +kernel
  have hbin : resolve (some deepDir) (bytes "/bin") = some (bytes "/bin") := by decide +kernel
  constructor
  · show ([bytes "x", bytes "/bin"]).filterMap (resolve (some deepDir)) = _
    rw [List.filterMap_cons, hx, List.filterMap_cons, hbin]
    rfl
  · show ([bytes ".", bytes "/bin"]).filterMap (resolve (some deepDir)) = _
    rw [List.filterMap_cons, hdot, List.filterMap_cons, hbin]
    rfl

/-- A directory that fills the buffer hides the rest of `PATH`, and a path that is too long is
cut and returned. -/
theorem searchPath_ne_firstHit_deepDir :
    (searchPath (shellAt (bytes "x:/bin") deepDir [bytes "/bin/ls"]) (bytes "ls") = none ∧
      firstHit (shellAt (bytes "x:/bin") deepDir [bytes "/bin/ls"]) (bytes "ls")
        = some (bytes "/bin/ls")) ∧
    (searchPath (shellAt (bytes ".:/bin") deepDir [deepDir ++ bytes "/l", bytes "/bin/ls"])
        (bytes "ls") = some (deepDir ++ bytes "/l") ∧
      firstHit (shellAt (bytes ".:/bin") deepDir [deepDir ++ bytes "/l", bytes "/bin/ls"])
        (bytes "ls") = some (bytes "/bin/ls")) := by
  have hls : '/'.toUInt8 ∉ bytes "ls" := by decide
  rw [searchPath_eq_searchAbs hls, searchPath_eq_searchAbs hls, firstHit, firstHit,
    (pathDirs_deepDir _).1, (pathDirs_deepDir _).2]
  decide +kernel

end OnyxShell
