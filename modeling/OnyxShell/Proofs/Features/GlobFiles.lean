import OnyxShell.Features.Service.GlobFiles
import OnyxShell.Proofs.Path

/-!
# `OnyxShell.Proofs.Features.GlobFiles`: which expansions name files

`resolve` leads a relative word on from the working directory (`resolve_relative`), while
`scan_dir_entries` hands its directory part to the kernel as it is, and reads `/` for an
empty one. `expandsToFiles_iff` compares the two.

The names of a directory are those of entries, which have no `/` and no NUL and are not `.` or
`..`; the file system gives them in a list.
-/

set_option autoImplicit false

namespace OnyxShell

open LexicalPath

/-- The path of a working directory is a spelling of it. -/
theorem WorkingDir.rendered (wd : WorkingDir) : Rendered wd.path wd.dir :=
  ⟨fun c hc => (wd.names c hc).isName, wd.renders⟩

/-- The path of a working directory is absolute. -/
theorem WorkingDir.head?_path (wd : WorkingDir) : wd.path.head? = some '/'.toUInt8 :=
  wd.rendered.head?

/-- A relative input leads on from the working directory when it fits. -/
theorem locate_resolve (wd : WorkingDir) {input : Bytes} (hne : input ≠ [])
    (hrel : input.head? ≠ some '/'.toUInt8) (hfits : FitsBehind wd input) :
    ∃ path, resolve (some wd.path) input = some path ∧
      locate path = walk '/'.toUInt8 '.'.toUInt8 wd.dir input := by
  have hstrip := walk_strip wd.dir input
  rcases hfits with ⟨hcwd, hlen⟩
  rw [resolve_relative wd.head?_path hne hrel, if_neg (by omega), appendWithSlash_eq wd.rendered]
  generalize (if input.take 2 = bytes "./" then input.drop 2 else input) = more at hstrip hlen ⊢
  rw [if_neg (by omega), Option.bind_some]
  have habs : (spell '/'.toUInt8 wd.dir ++ '/'.toUInt8 :: more).head? = some '/'.toUInt8 := by
    rcases wd.dir with _ | ⟨c, cs⟩
    · rfl
    · rfl
  have hfit : (spell '/'.toUInt8 wd.dir ++ '/'.toUInt8 :: more).length < PATH_MAX := by
    rw [List.length_append, List.length_cons]
    omega
  rcases Option.isSome_iff_exists.mp (normalize_isSome habs hfit) with ⟨path, hpath⟩
  refine ⟨path, hpath, ?_⟩
  rw [locate_normalize hpath, locate, walk_append_sep,
    walk_spell (fun c hc => (wd.names c hc).isName), List.nil_append, hstrip]

/-- And it is refused when it does not fit. -/
theorem fitsBehind_of_resolve (wd : WorkingDir) {input path : Bytes} (hne : input ≠ [])
    (hrel : input.head? ≠ some '/'.toUInt8) (h : resolve (some wd.path) input = some path) :
    FitsBehind wd input := by
  rw [resolve_relative wd.head?_path hne hrel, appendWithSlash_eq wd.rendered] at h
  constructor
  · by_contra hcwd
    rw [if_pos (by omega)] at h
    cases h
  · by_contra hlen
    rw [if_pos (Nat.le_of_not_lt hlen)] at h
    split at h
    · cases h
    · cases h

/-- The directory part of a word is empty or ends with a `/`. -/
theorem splitDirAndPrefix_fst (tok : Bytes) :
    (splitDirAndPrefix tok).1 = [] ∨ ∃ path, (splitDirAndPrefix tok).1 = path ++ ['/'.toUInt8] := by
  have hrev : (splitDirAndPrefix tok).1.reverse = tok.reverse.dropWhile (· ≠ '/'.toUInt8) := by
    have hsplit := List.takeWhile_append_dropWhile (p := (· ≠ '/'.toUInt8)) (l := tok.reverse)
    have hlen := (List.takeWhile_prefix (· ≠ '/'.toUInt8) (l := tok.reverse)).length_le
    rw [List.length_reverse] at hlen
    show (tok.take (tok.length - (tok.reverse.takeWhile (· ≠ '/'.toUInt8)).length)).reverse = _
    rw [List.reverse_take, Nat.sub_sub_self hlen]
    exact (congrArg (List.drop (tok.reverse.takeWhile (· ≠ '/'.toUInt8)).length) hsplit).symm.trans
      List.drop_left
  rcases hdrop : tok.reverse.dropWhile (· ≠ '/'.toUInt8) with _ | ⟨b, rest⟩
  · rw [hdrop] at hrev
    exact Or.inl (List.reverse_eq_nil_iff.mp hrev)
  · have hb : b = '/'.toUInt8 := by
      have h := List.head?_dropWhile_not (· ≠ '/'.toUInt8) tok.reverse
      rw [hdrop] at h
      simpa using h
    rw [hdrop, hb] at hrev
    refine Or.inr ⟨rest.reverse, ?_⟩
    rw [← List.reverse_reverse (splitDirAndPrefix tok).1, hrev, List.reverse_cons]

/-- A name behind a directory part leads to an entry of that directory. -/
theorem walk_append_name {dirPart name : Bytes} (dir : List Bytes)
    (hdir : dirPart = [] ∨ ∃ path, dirPart = path ++ ['/'.toUInt8])
    (hname : IsName '/'.toUInt8 '.'.toUInt8 name) :
    walk '/'.toUInt8 '.'.toUInt8 dir (dirPart ++ name)
      = walk '/'.toUInt8 '.'.toUInt8 dir dirPart ++ [name] := by
  rcases hdir with rfl | ⟨path, rfl⟩
  · rw [List.nil_append, walk_run hname.sep_notMem, enter_name hname, walk_nil]
  · rw [walk_append_of_concat_sep, walk_run hname.sep_notMem, enter_name hname]

/-- A name in a listing is a name of an entry: not empty, without `/` and without a NUL. -/
theorem EntryName.of_mem_listing {fs : FileSystem} {path name : Bytes}
    (h : name ∈ fs.listing path) : EntryName name := by
  rw [FileSystem.listing] at h
  split at h
  · cases h
  · exact fs.entryName _ name h

/-- The names that are scanned: the first 64 that `readdir` delivers. -/
theorem items_scanDirEntries (fs : FileSystem) (dirPart : Bytes) :
    (scanDirEntries fs.listing dirPart).items = (fs.listing (scanPath dirPart)).take 64 := by
  have hfit : ∀ name ∈ (fs.listing (scanPath dirPart)).take 64, name.take 63 = name := by
    intro name hname
    have hle := (EntryName.of_mem_listing (List.mem_of_mem_take hname)).length_le
    exact List.take_of_length_le hle
  rw [items_scanDirEntries_listing fun name hname => (EntryName.of_mem_listing hname).no_nul,
    List.map_congr_left hfit, List.map_id']

/-- A name that matches comes from the listing of the pattern's directory. -/
theorem EntryName.of_mem_matchedNames {fs : FileSystem} {tok name : Bytes}
    (h : name ∈ matchedNames fs tok) :
    name ∈ fs.listing (scanPath (splitDirAndPrefix tok).1) ∧ EntryName name := by
  rw [matchedNames, items_scanDirEntries] at h
  have hmem := List.mem_of_mem_take (List.mem_of_mem_filter h)
  exact ⟨hmem, of_mem_listing hmem⟩

/-- The words of an expansion that finds a match. -/
theorem items_globExpand {fs : FileSystem} {tok : Bytes} (hglob : hasGlob tok = true)
    (hmatch : matchedNames fs tok ≠ []) :
    (globExpand fs.listing tok).items
      = (matchedNames fs tok).map (globEntry (splitDirAndPrefix tok).1) := by
  have hlen : ((matchedNames fs tok).map (globEntry (splitDirAndPrefix tok).1)).length ≤ 256 := by
    rw [List.length_map]
    exact Nat.le_trans (List.length_filter_le _ _)
      (scanDirEntries fs.listing (splitDirAndPrefix tok).1).length_le
  have hitems : (Vec.new.extendFromSlice
      ((matchedNames fs tok).map (globEntry (splitDirAndPrefix tok).1))).items
      = (matchedNames fs tok).map (globEntry (splitDirAndPrefix tok).1) := by
    rw [Vec.items_extendFromSlice]
    exact List.take_of_length_le hlen
  rw [globExpand, if_pos hglob]
  show (if (Vec.new.extendFromSlice
      ((matchedNames fs tok).map (globEntry (splitDirAndPrefix tok).1))).items.length = 0
    then Vec.new.push (tok.take 127)
    else Vec.new.extendFromSlice
      ((matchedNames fs tok).map (globEntry (splitDirAndPrefix tok).1))).items = _
  rw [if_neg, hitems]
  rw [hitems, List.length_map]
  exact fun h => hmatch (List.length_eq_zero_iff.mp h)

/-- A match is written whole behind what fits of the directory part. -/
theorem globEntry_eq {name : Bytes} (dirPart : Bytes) (h : EntryName name) :
    globEntry dirPart name = dirPart.take 64 ++ name := by
  have := h.length_le
  show dirPart.take 64 ++ name.take (127 - (dirPart.take 64).length) = _
  rw [List.take_of_length_le (l := name)]
  rw [List.length_take]
  omega

/-- What `readdir` is given for a directory part that its buffer holds. -/
theorem scanPath_eq {dirPart : Bytes} (hne : dirPart ≠ []) (hlen : dirPart.length ≤ 64)
    (hnul : 0 ∉ dirPart) : scanPath dirPart = dirPart := by
  rw [scanPath, if_neg (fun h => hne (List.length_eq_zero_iff.mp h)),
    List.take_of_length_le (by omega), cString_eq_self hnul]

/-- A relative directory part is longer than its `/`. -/
theorem two_le_length {dirPart : Bytes} (hne : dirPart ≠ [])
    (hrel : dirPart.head? ≠ some '/'.toUInt8)
    (hdir : dirPart = [] ∨ ∃ path, dirPart = path ++ ['/'.toUInt8]) : 2 ≤ dirPart.length := by
  rcases hdir with rfl | ⟨path, rfl⟩
  · exact absurd rfl hne
  · rcases path with _ | ⟨b, path⟩
    · exact absurd rfl hrel
    · simp

/-- A directory part fits where it fits with a name behind it. -/
theorem FitsBehind.of_append {wd : WorkingDir} {dirPart name : Bytes} (h2 : 2 ≤ dirPart.length)
    (h : FitsBehind wd (dirPart ++ name)) : FitsBehind wd dirPart := by
  rcases h with ⟨hcwd, hlen⟩
  rw [List.take_append_of_le_length h2] at hlen
  constructor
  · exact hcwd
  · split at hlen
    · rw [List.length_drop, List.length_append] at hlen
      rw [if_pos (by assumption), List.length_drop]
      omega
    · rw [List.length_append] at hlen
      rw [if_neg (by assumption)]
      omega

/-- What the directory part of a relative word stands for. -/
theorem directoryOf_relative (wd : WorkingDir) {dirPart : Bytes} (hne : dirPart ≠ [])
    (hrel : dirPart.head? ≠ some '/'.toUInt8) (h : FitsBehind wd dirPart) :
    wd.directoryOf dirPart = some (walk '/'.toUInt8 '.'.toUInt8 wd.dir dirPart) := by
  rcases locate_resolve wd hne hrel h with ⟨path, hpath, hlocate⟩
  rw [WorkingDir.directoryOf, if_neg (fun hnil => hne (List.length_eq_zero_iff.mp hnil)), hpath,
    Option.map_some, hlocate]

/-- What an absolute directory part stands for. -/
theorem directoryOf_absolute (wd : WorkingDir) {dirPart : Bytes}
    (habs : dirPart.head? = some '/'.toUInt8) (hlen : dirPart.length ≤ 64) :
    wd.directoryOf dirPart = some (locate dirPart) := by
  have hfit : dirPart.length < PATH_MAX := Nat.lt_of_le_of_lt hlen (by decide)
  rcases Option.isSome_iff_exists.mp (normalize_isSome habs hfit) with ⟨path, hpath⟩
  have hne : dirPart.length ≠ 0 := by
    intro hnil
    rw [List.length_eq_zero_iff.mp hnil] at habs
    cases habs
  rw [WorkingDir.directoryOf, if_neg hne, resolve_absolute _ habs, hpath, Option.map_some,
    locate_normalize hpath]

/-- A word behind an absolute directory part is absolute. -/
theorem head?_append_of_absolute {dirPart name : Bytes}
    (habs : dirPart.head? = some '/'.toUInt8) :
    (dirPart ++ name).head? = some '/'.toUInt8 := by
  rcases dirPart with _ | ⟨b, rest⟩
  · cases habs
  · exact habs

/-- A working directory without names is the root. -/
theorem WorkingDir.fitsBehind_of_root (wd : WorkingDir) (hroot : wd.dir = []) {name : Bytes}
    (hlen : name.length ≤ 63) : FitsBehind wd name := by
  have hpath : wd.path = bytes "/" := by
    rcases wd.renders with h | ⟨hne, -⟩
    · rw [h, hroot]
      rfl
    · exact absurd hroot hne
  rw [FitsBehind, hpath, hroot]
  constructor
  · decide
  · have hstrip : (if name.take 2 = bytes "./" then name.drop 2 else name).length ≤ name.length := by
      split
      · rw [List.length_drop]
        omega
      · exact Nat.le_refl _
    show 0 + 1 + _ < 256
    omega

/-- The scan of a directory part and the resolution of a word behind it agree: on a directory,
and on the name in it. -/
def Agrees (wd : WorkingDir) (fs : FileSystem) (dirPart name : Bytes) : Prop :=
  ∃ dir path, fs.scanned (scanPath dirPart) = some dir ∧ wd.directoryOf dirPart = some dir ∧
    resolve (some wd.path) (dirPart ++ name) = some path ∧ locate path = dir ++ [name]

/-- From an absolute directory part the word that is inserted names the same file for the shell
and for the kernel. -/
theorem agrees_absolute {wd : WorkingDir} {fs : FileSystem} {dirPart name : Bytes}
    (hdir : dirPart = [] ∨ ∃ path, dirPart = path ++ ['/'.toUInt8]) (hname : EntryName name)
    (hlen : dirPart.length ≤ 64) (hnul : 0 ∉ dirPart) (habs : dirPart.head? = some '/'.toUInt8) :
    Agrees wd fs dirPart name := by
  have hne : dirPart ≠ [] := by
    rintro rfl
    cases habs
  have hfit : (dirPart ++ name).length < PATH_MAX := by
    rw [List.length_append]
    exact Nat.lt_of_le_of_lt (Nat.add_le_add hlen hname.length_le) (by decide)
  have habs' : (dirPart ++ name).head? = some '/'.toUInt8 := head?_append_of_absolute habs
  rcases Option.isSome_iff_exists.mp (normalize_isSome habs' hfit) with ⟨path, hpath⟩
  refine ⟨locate dirPart, path, ?_, directoryOf_absolute wd habs hlen, ?_, ?_⟩
  · rw [scanPath_eq hne hlen hnul, FileSystem.scanned, if_pos habs]
  · rw [resolve_absolute _ habs', hpath]
  · rw [locate_normalize hpath]
    exact walk_append_name [] hdir hname.isName

/-- Without a directory part they agree if the working directory is the root. -/
theorem agrees_root {wd : WorkingDir} {fs : FileSystem} {name : Bytes} (hname : EntryName name)
    (hroot : wd.dir = []) : Agrees wd fs [] name := by
  have hrel : name.head? ≠ some '/'.toUInt8 :=
    fun h => hname.isName.sep_notMem (List.mem_of_mem_head? h)
  rcases locate_resolve wd hname.isName.ne_nil hrel (wd.fitsBehind_of_root hroot hname.length_le)
    with ⟨path, hpath, hlocate⟩
  refine ⟨[], path, rfl, ?_, hpath, ?_⟩
  · exact congrArg some hroot
  · rw [hlocate, hroot, walk_run hname.isName.sep_notMem, enter_name hname.isName]

/-- With a relative directory part they agree if the file system resolves it as the shell does. -/
theorem agrees_relative {wd : WorkingDir} {fs : FileSystem} {dirPart name : Bytes}
    (hdir : dirPart = [] ∨ ∃ path, dirPart = path ++ ['/'.toUInt8]) (hname : EntryName name)
    (hlen : dirPart.length ≤ 64) (hnul : 0 ∉ dirPart) (hne : dirPart ≠ [])
    (hrel : dirPart.head? ≠ some '/'.toUInt8)
    (hrelative : fs.relative dirPart = some (walk '/'.toUInt8 '.'.toUInt8 wd.dir dirPart))
    (hfits : FitsBehind wd (dirPart ++ name)) : Agrees wd fs dirPart name := by
  have hword : dirPart ++ name ≠ [] := fun h => hne (List.append_eq_nil_iff.mp h).1
  have hrel' : (dirPart ++ name).head? ≠ some '/'.toUInt8 := by
    rw [List.head?_append_of_ne_nil _ hne]
    exact hrel
  rcases locate_resolve wd hword hrel' hfits with ⟨path, hpath, hlocate⟩
  refine ⟨_, path, ?_, directoryOf_relative wd hne hrel
    (hfits.of_append (two_le_length hne hrel hdir)), hpath, ?_⟩
  · rw [scanPath_eq hne hlen hnul, FileSystem.scanned, if_neg hrel, hrelative]
  · rw [hlocate, walk_append_name _ hdir hname.isName]

/-- A match of a word that scans its directory names an entry of it. -/
theorem namesEntry_of_scansItsDirectory {wd : WorkingDir} {fs : FileSystem} {dirPart name : Bytes}
    (hdir : dirPart = [] ∨ ∃ path, dirPart = path ++ ['/'.toUInt8])
    (hmem : name ∈ fs.listing (scanPath dirPart)) (h : ScansItsDirectory wd fs dirPart name) :
    fs.scanned (scanPath dirPart) = wd.directoryOf dirPart ∧
      NamesEntry wd fs dirPart (globEntry dirPart name) := by
  have hname := EntryName.of_mem_listing hmem
  rcases h with ⟨hlen, hnul, hcases⟩
  have hword : cString (globEntry dirPart name) = dirPart ++ name := by
    rw [globEntry_eq dirPart hname, List.take_of_length_le hlen, cString_eq_self]
    intro h0
    rcases List.mem_append.mp h0 with h0 | h0
    · exact hnul h0
    · exact hname.no_nul h0
  have hagrees : Agrees wd fs dirPart name := by
    rcases hcases with habs | ⟨rfl, hroot⟩ | ⟨hne, hrel, hrelative, hfits⟩
    · exact agrees_absolute hdir hname hlen hnul habs
    · exact agrees_root hname hroot
    · exact agrees_relative hdir hname hlen hnul hne hrel hrelative hfits
  rcases hagrees with ⟨dir, path, hscan, hdirOf, hresolve, hlocate⟩
  constructor
  · rw [hscan, hdirOf]
  · rw [FileSystem.listing, hscan] at hmem
    exact ⟨dir, name, path, hdirOf, hmem, hword, by rw [hword]; exact hresolve, hlocate⟩

/-- A directory part that is carried over unaltered fits its buffer and holds no NUL. -/
theorem carried_of_cString_eq {dirPart name name' : Bytes}
    (hdir : dirPart = [] ∨ ∃ path, dirPart = path ++ ['/'.toUInt8]) (hname : EntryName name)
    (h : cString (globEntry dirPart name) = dirPart ++ name') :
    dirPart.length ≤ 64 ∧ 0 ∉ dirPart ∧ name' = name := by
  have hnul : 0 ∉ dirPart := by
    intro h0
    apply nul_notMem_cString (globEntry dirPart name)
    rw [h]
    exact List.mem_append_left _ h0
  have hlen : dirPart.length ≤ 64 := by
    by_contra hlong
    rcases hdir with rfl | ⟨path, rfl⟩
    · exact hlong (Nat.zero_le _)
    · -- The `/` at the end of the part would stand in the name.
      have hprefix : path ++ ['/'.toUInt8] ++ name' <+: (path ++ ['/'.toUInt8]).take 64 ++ name := by
        rw [← h, ← globEntry_eq _ hname]
        exact List.takeWhile_prefix _
      have hget : ((path ++ ['/'.toUInt8]).take 64 ++ name)[path.length]? = some '/'.toUInt8 := by
        rcases hprefix with ⟨rest, hrest⟩
        rw [← hrest]
        simp
      rw [List.length_append, List.length_singleton] at hlong
      rw [List.getElem?_append_right (by rw [List.length_take]; omega)] at hget
      exact hname.isName.sep_notMem (List.mem_of_getElem? hget)
  refine ⟨hlen, hnul, ?_⟩
  rw [globEntry_eq _ hname, List.take_of_length_le hlen, cString_eq_self] at h
  · exact (List.append_cancel_left h).symm
  · intro h0
    rcases List.mem_append.mp h0 with h0 | h0
    · exact hnul h0
    · exact hname.no_nul h0

/-- And the other way round: a match that names an entry was scanned in its directory. -/
theorem scansItsDirectory_of_namesEntry {wd : WorkingDir} {fs : FileSystem} {dirPart name : Bytes}
    (hdir : dirPart = [] ∨ ∃ path, dirPart = path ++ ['/'.toUInt8]) (hname : EntryName name)
    (hscan : fs.scanned (scanPath dirPart) = wd.directoryOf dirPart)
    (h : NamesEntry wd fs dirPart (globEntry dirPart name)) :
    ScansItsDirectory wd fs dirPart name := by
  rcases h with ⟨dir, name', path, hdirOf, -, hword, hresolve, -⟩
  rcases carried_of_cString_eq hdir hname hword with ⟨hlen, hnul, rfl⟩
  refine ⟨hlen, hnul, ?_⟩
  by_cases habs : dirPart.head? = some '/'.toUInt8
  · exact Or.inl habs
  · rcases dirPart with _ | ⟨b, rest⟩
    · -- An empty part scans the root and stands for the working directory.
      have hroot : some [] = some wd.dir := hscan
      exact Or.inr (Or.inl ⟨rfl, (Option.some.inj hroot).symm⟩)
    · have hne : b :: rest ≠ [] := List.cons_ne_nil _ _
      have hfits : FitsBehind wd (b :: rest ++ name') := by
        rw [hword] at hresolve
        exact fitsBehind_of_resolve wd (List.cons_ne_nil _ _) habs hresolve
      rw [directoryOf_relative wd hne habs (hfits.of_append (two_le_length hne habs hdir)),
        scanPath_eq hne hlen hnul, FileSystem.scanned, if_neg habs] at hscan
      exact Or.inr (Or.inr ⟨hne, habs, hscan, hfits⟩)

/-- In a given file system, an expansion names files just when every match is scanned in the
directory of the word. -/
theorem expandsToFiles_iff_scans (wd : WorkingDir) {tok : Bytes} (hglob : hasGlob tok = true)
    (fs : FileSystem) :
    ExpandsToFiles wd fs tok ↔
      ∀ name ∈ matchedNames fs tok, ScansItsDirectory wd fs (splitDirAndPrefix tok).1 name := by
  have hdir := splitDirAndPrefix_fst tok
  constructor
  · intro h name hname
    have hne : matchedNames fs tok ≠ [] := List.ne_nil_of_mem hname
    rcases h hne with ⟨hscan, hwords⟩
    apply scansItsDirectory_of_namesEntry hdir (EntryName.of_mem_matchedNames hname).2 hscan
    apply hwords
    rw [items_globExpand hglob hne]
    exact List.mem_map_of_mem hname
  · intro h hne
    have hboth : ∀ name ∈ matchedNames fs tok, _ := fun name hname =>
      namesEntry_of_scansItsDirectory hdir (EntryName.of_mem_matchedNames hname).1 (h name hname)
    constructor
    · rcases List.exists_mem_of_ne_nil _ hne with ⟨name, hname⟩
      exact (hboth name hname).1
    · intro word hword
      rw [items_globExpand hglob hne] at hword
      rcases List.mem_map.mp hword with ⟨name, hname, rfl⟩
      exact (hboth name hname).2

/-- A file system in which every directory holds one name, and every relative path leads
to one directory. -/
def singleName (name : Bytes) (h : EntryName name) (relative : List Bytes) : FileSystem where
  entries := fun _ => [name]
  relative := fun _ => some relative
  entryName := by
    intro dir n hn
    rw [List.mem_singleton.mp hn]
    exact h

/-- The file system with one name, which the examples are about. -/
theorem listing_singleName {name : Bytes} (h : EntryName name) (relative : List Bytes)
    (path : Bytes) : (singleName name h relative).listing path = [name] := by
  rw [FileSystem.listing, FileSystem.scanned]
  split
  · rename_i hnone
    split at hnone
    · cases hnone
    · cases hnone
  · rfl

/-- **Which expansions name files**: a word with a glob character does in a file system
just when every match is scanned in the directory of the word. A word that some name can
match does in every file system just when its directory part is absolute and fits, or is
empty in the root. -/
theorem expandsToFiles_iff (wd : WorkingDir) (tok : Bytes) (hglob : hasGlob tok = true) :
    (∀ fs, ExpandsToFiles wd fs tok ↔
      ∀ name ∈ matchedNames fs tok, ScansItsDirectory wd fs (splitDirAndPrefix tok).1 name) ∧
    ((∀ fs, ExpandsToFiles wd fs tok) ↔
      ((∃ name, EntryName name ∧ globMatch (splitDirAndPrefix tok).2 name = true) →
        (splitDirAndPrefix tok).1.length ≤ 64 ∧ 0 ∉ (splitDirAndPrefix tok).1 ∧
        ((splitDirAndPrefix tok).1.head? = some '/'.toUInt8 ∨
          (splitDirAndPrefix tok).1 = [] ∧ wd.dir = []))) := by
  have hiff := expandsToFiles_iff_scans wd hglob
  refine ⟨hiff, ?_⟩
  constructor
  · rintro h ⟨name, hname, hmatch⟩
    -- The kernel takes a relative path for a directory that `resolve` never gives.
    have hfs := (hiff _).mp (h (singleName name hname
      (walk '/'.toUInt8 '.'.toUInt8 wd.dir (splitDirAndPrefix tok).1 ++ [name])))
    have hmem : name ∈ matchedNames (singleName name hname
        (walk '/'.toUInt8 '.'.toUInt8 wd.dir (splitDirAndPrefix tok).1 ++ [name])) tok := by
      rw [matchedNames, items_scanDirEntries, listing_singleName]
      exact List.mem_filter.mpr ⟨List.mem_singleton_self name, hmatch⟩
    rcases hfs name hmem with ⟨hlen, hnul, habs | hroot | ⟨-, -, hrelative, -⟩⟩
    · exact ⟨hlen, hnul, Or.inl habs⟩
    · exact ⟨hlen, hnul, Or.inr hroot⟩
    · have hlength := congrArg List.length (Option.some.inj hrelative)
      rw [List.length_append, List.length_singleton] at hlength
      omega
  · intro h fs
    refine (hiff fs).mpr ?_
    intro name hname
    have hmatch : globMatch (splitDirAndPrefix tok).2 name = true := (List.mem_filter.mp hname).2
    rcases h ⟨name, (EntryName.of_mem_matchedNames hname).2, hmatch⟩ with ⟨hlen, hnul, hcases⟩
    exact ⟨hlen, hnul, hcases.elim Or.inl fun hroot => Or.inr (Or.inl hroot)⟩

/-- `/home` as a working directory. -/
def home : WorkingDir where
  dir := [bytes "home"]
  path := bytes "/home"
  names := by
    intro name hname
    rw [List.mem_singleton.mp hname]
    exact ⟨⟨by decide, by decide, by decide, by decide⟩, by decide, by decide⟩
  renders := Or.inr ⟨by decide, by decide⟩

/-- `x` may be the name of an entry. -/
theorem entryName_x : EntryName (bytes "x") :=
  ⟨⟨by decide, by decide, by decide, by decide⟩, by decide, by decide⟩

/-- `/*` in `/home`. -/
theorem expandsToFiles_slash_star :
    hasGlob (bytes "/*") = true ∧
      ExpandsToFiles home (singleName (bytes "x") entryName_x []) (bytes "/*") := by
  refine ⟨by decide, ((expandsToFiles_iff home (bytes "/*") (by decide)).2.mpr ?_) _⟩
  intro _
  exact ⟨by decide, by decide, Or.inl (by decide)⟩

/-- `*` in `/home` names the entries of `/`. -/
theorem not_expandsToFiles_star :
    ¬ ∀ wd fs tok, hasGlob tok = true → ExpandsToFiles wd fs tok := by
  intro h
  have hfiles := h home (singleName (bytes "x") entryName_x []) (bytes "*") (by decide)
  have hmatched : matchedNames (singleName (bytes "x") entryName_x []) (bytes "*") ≠ [] := by
    rw [matchedNames, items_scanDirEntries, listing_singleName]
    decide +kernel
  have hscan : some [] = some [bytes "home"] := (hfiles hmatched).1
  exact absurd hscan (by decide)

end OnyxShell
