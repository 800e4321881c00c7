import OnyxShell.Features.Service.GlobBuffers

/-!
# `OnyxShell.Proofs.Features.GlobBuffers`: nothing is lost in the buffers of an expansion

`globExpandBuffers_refines`: with names that `readdir` can write, the buffers hold what
`globExpand` returns. `globExpandBuffers_exact`: for words and names that fit, these are the
matches, whole and in order.

A directory part is spelled out as what stands before the pattern, so that
`splitDirAndPrefix_append` says where the code cuts the word.
-/

set_option autoImplicit false

namespace OnyxShell

open TextBuffer (zeros copySlice text zeroPad Padded)

variable {readdir : Readdir} {path : Bytes} {names : List Bytes}

/-! ### One buffer -/

/-- A slice at the start of a new buffer. -/
theorem exists_copySlice_zeros {n : Nat} (src : Bytes) (hfit : src.length ≤ n) :
    ∃ buf, copySlice (zeros n) 0 src = some buf ∧ Padded buf src :=
  TextBuffer.exists_copySlice TextBuffer.padded_zeros src (by rw [List.length_nil]; omega)

/-- The path that `readdir` gets. -/
theorem exists_pathBuffer (dirPath : Bytes) :
    ∃ buf, pathBuffer dirPath = some buf ∧ text buf = scanPath dirPath := by
  have hlen : (dirPath.take (min dirPath.length 255)).length = min dirPath.length 255 := by
    rw [List.length_take]
    omega
  rcases exists_copySlice_zeros (n := 256) (dirPath.take (min dirPath.length 255)) (by omega)
    with ⟨buf₁, hcopy₁, hpad₁⟩
  rcases TextBuffer.exists_copySlice hpad₁ [0] (by rw [hlen, List.length_singleton]; omega)
    with ⟨buf₂, hcopy₂, hpad₂⟩
  rw [hlen] at hcopy₂
  -- These two writes are always made. A third one follows without a directory part.
  have hstart : pathBuffer dirPath = if min dirPath.length 255 = 0 then
      copySlice buf₂ 0 ['/'.toUInt8, 0] else some buf₂ := by
    rw [pathBuffer, hcopy₁]
    show ((copySlice buf₁ (min dirPath.length 255) [0]).bind fun buf => _) = _
    rw [hcopy₂]
    rfl
  rw [hstart, scanPath]
  by_cases hempty : dirPath.length = 0
  · -- Without a directory part the first two bytes are written over.
    have hzero : min dirPath.length 255 = 0 := by omega
    rw [hzero, List.take_zero] at hpad₂
    rcases TextBuffer.exists_copySlice (t := []) hpad₂.of_concat_zero ['/'.toUInt8, 0]
      (by decide) with ⟨buf, hcopy, hpad⟩
    rw [if_pos hzero, if_pos hempty]
    exact ⟨buf, hcopy, TextBuffer.text_of_padded hpad⟩
  · rw [if_neg (by omega), if_neg hempty]
    refine ⟨buf₂, rfl, ?_⟩
    rw [TextBuffer.text_of_padded hpad₂.of_concat_zero, cString]
    congr 1
    rw [List.take_eq_take_iff]
    omega

/-- The buffer of a match. -/
theorem exists_entryBuffer (dirPath name : Bytes) :
    ∃ buf, entryBuffer dirPath name = some buf ∧ Padded buf (globEntry dirPath name) := by
  have hdir : dirPath.take (min dirPath.length 64) = dirPath.take 64 := by
    rw [List.take_eq_take_iff]
    omega
  have hlen : (dirPath.take 64).length = min dirPath.length 64 := by
    rw [List.length_take, Nat.min_comm]
  rcases exists_copySlice_zeros (n := 128) (dirPath.take 64) (by omega)
    with ⟨buf₁, hcopy₁, hpad₁⟩
  rcases TextBuffer.exists_copySlice hpad₁ (name.take (127 - min dirPath.length 64))
    (by rw [hlen, List.length_take]; omega) with ⟨buf, hcopy, hpad⟩
  rw [hlen] at hcopy
  refine ⟨buf, ?_, ?_⟩
  · rw [entryBuffer, hdir, hcopy₁]
    exact hcopy
  · rw [globEntry, hlen]
    exact hpad

/-- The buffer of the word itself. -/
theorem exists_wordBuffer (tok : Bytes) :
    ∃ result, wordBuffer tok = some result ∧
      result.items.map Vector.toList = [zeroPad 128 (tok.take 127)] := by
  rcases exists_copySlice_zeros (n := 128) (tok.take 127) (by rw [List.length_take]; omega)
    with ⟨buf, hcopy, hpad⟩
  refine ⟨Vec.new.push buf, ?_, ?_⟩
  · rw [wordBuffer, hcopy]
    rfl
  · rw [Vec.items_push]
    exact congrArg (· :: []) hpad

/-! ### The scan -/

/-- A name that stands in its buffer with a NUL is as long as the loop counts. -/
theorem length_counted {buf : Vector UInt8 256} {name : Bytes} (hnul : 0 ∉ name)
    (h : name ++ [0] <+: buf.toList) :
    ((buf.toList.take 255).takeWhile (· ≠ 0)).length = name.length ∧ name <+: buf.toList := by
  have hname : name <+: buf.toList := (List.prefix_append name [0]).trans h
  refine ⟨?_, hname⟩
  have hself : name.takeWhile (· ≠ 0) = name := cString_eq_self hnul
  rcases h with ⟨rest, hrest⟩
  rw [List.append_assoc, List.singleton_append] at hrest
  have hlen : name.length + 1 ≤ 256 := by
    have hall := congrArg List.length hrest
    rw [Vector.length_toList, List.length_append, List.length_cons] at hall
    omega
  rw [← hrest, List.take_append]
  rcases Nat.lt_or_ge name.length 255 with hlt | hge
  -- The NUL is among the bytes that are looked at, or the name is all of them.
  · have hmore : 255 - name.length = (254 - name.length) + 1 := by omega
    rw [List.take_of_length_le (Nat.le_of_lt hlt), hmore, List.take_succ_cons,
      TextBuffer.takeWhile_append_cons (by simp), hself]
  · have hnone : 255 - name.length = 0 := by omega
    rw [hnone, List.take_zero, List.append_nil, List.take_of_length_le (by omega), hself]

/-- The rows of the scan: the names that are left, as far as there are turns. -/
theorem exists_scanFrom (h : Delivers readdir path names) (hnul : ∀ name ∈ names, 0 ∉ name)
    (turns : Nat) {calls : Nat} (nameBuf : Vector UInt8 256) (result : Vec (Vector UInt8 64))
    (hcalls : calls ≤ names.length) (hroom : result.items.length + turns ≤ VEC_CAP) :
    ∃ rows, scanFrom readdir path turns calls nameBuf result = some rows ∧
      rows.items.map Vector.toList = result.items.map Vector.toList ++
        ((names.drop calls).take turns).map fun name => zeroPad 64 (name.take 63) := by
  -- `calls` is the number of names that are read, and there is room for a row in every turn.
  induction turns generalizing calls nameBuf result with
  | zero =>
    refine ⟨result, rfl, ?_⟩
    rw [List.take_zero, List.map_nil, List.append_nil]
  | succ turns ih =>
    rcases Nat.lt_or_eq_of_le hcalls with hlt | heq
    · -- A name is read: its row is one more, and the loop goes on in the buffer that holds it.
      have hget : (names)[calls]? = some names[calls] := List.getElem?_eq_getElem hlt
      rcases h.name calls _ hget nameBuf with ⟨hpos, hbuf⟩
      rcases length_counted (hnul _ (List.getElem_mem hlt)) hbuf with ⟨hcount, hname⟩
      rcases exists_copySlice_zeros (n := 64) (names[calls].take 63)
        (by rw [List.length_take]; omega) with ⟨entry, hcopy, hpad⟩
      have hslice : (readdir path calls nameBuf).2.toList.take (min names[calls].length 63)
          = names[calls].take 63 := by
        rcases hname with ⟨rest, hrest⟩
        rw [← hrest, List.take_append_of_le_length (Nat.min_le_left _ _), List.take_eq_take_iff]
        omega
      have hpush := Vec.items_push_of_lt (show result.items.length < VEC_CAP by omega) entry
      rcases ih (readdir path calls nameBuf).2 (result.push entry) hlt
        (by rw [hpush, List.length_append, List.length_singleton]; omega) with ⟨rows, hrows, hitems⟩
      refine ⟨rows, ?_, ?_⟩
      · rw [scanFrom]
        show (if (readdir path calls nameBuf).1 ≤ 0 then _ else _) = _
        rw [if_neg (Int.not_le.mpr hpos), hcount]
        show ((copySlice (zeros 64) 0 (List.take (min names[calls].length 63) _)).bind fun _ => _) = _
        rw [hslice, hcopy]
        exact hrows
      · rw [hitems, hpush, List.map_append, List.drop_eq_getElem_cons hlt, List.take_succ_cons,
          List.map_cons, List.append_assoc]
        exact congrArg (fun row => result.items.map Vector.toList ++ row :: _) hpad
    · -- The directory has no more names, and `readdir` says so.
      refine ⟨result, ?_, ?_⟩
      · rw [scanFrom, heq]
        show (if (readdir path names.length nameBuf).1 ≤ 0 then _ else _) = _
        rw [if_pos (Int.le_of_eq (h.stop nameBuf))]
      · rw [heq, List.drop_length, List.take_nil, List.map_nil, List.append_nil]

/-- The entries of a directory in their rows. -/
theorem exists_scanDirBuffers {dirPath : Bytes} (h : Delivers readdir (scanPath dirPath) names)
    (hnul : ∀ name ∈ names, 0 ∉ name) :
    ∃ rows, scanDirBuffers readdir dirPath = some rows ∧
      rows.items.map text = (names.take 64).map fun name => name.take 63 := by
  rcases exists_pathBuffer dirPath with ⟨pathBuf, hpath, htext⟩
  rw [← htext] at h
  rcases exists_scanFrom h hnul 64 (zeros 256) Vec.new (Nat.zero_le _)
    (by decide) with ⟨rows, hrows, hitems⟩
  refine ⟨rows, ?_, ?_⟩
  · rw [scanDirBuffers, hpath]
    exact hrows
  · have hpads : rows.items.map Vector.toList
        = ((names.take 64).map fun name => name.take 63).map (zeroPad 64) := by
      rw [hitems, List.drop_zero, List.map_map]
      rfl
    have hread : ∀ name ∈ (names.take 64).map fun name => name.take 63,
        name.takeWhile (· ≠ 0) = name := by
      intro name hname
      rcases List.mem_map.mp hname with ⟨whole, hwhole, rfl⟩
      exact cString_eq_self
        fun hin => hnul whole (List.mem_of_mem_take hwhole) (List.mem_of_mem_take hin)
    rw [TextBuffer.map_text_of_padded hpads, List.map_congr_left hread, List.map_id']

/-! ### The words -/

/-- The loop over the entries: a buffer for each match. -/
theorem exists_foldlM_addMatch (dirPath pattern : Bytes) (entries : List (Vector UInt8 64))
    (result : Vec (Vector UInt8 128)) (hroom : result.items.length + entries.length ≤ VEC_CAP) :
    ∃ result', entries.foldlM (addMatch dirPath pattern) result = some result' ∧
      result'.items.map Vector.toList = result.items.map Vector.toList ++
        ((entries.map text).filter (globMatch pattern)).map fun name =>
          zeroPad 128 (globEntry dirPath name) := by
  induction entries generalizing result with
  | nil =>
    refine ⟨result, rfl, ?_⟩
    rw [List.map_nil, List.filter_nil, List.map_nil, List.append_nil]
  | cons entry entries ih =>
    rw [List.length_cons] at hroom
    rw [List.foldlM_cons, addMatch, List.map_cons, List.filter_cons]
    by_cases hmatch : globMatch pattern (text entry) = true
    · rcases exists_entryBuffer dirPath (text entry) with ⟨buf, hbuf, hpad⟩
      have hpush := Vec.items_push_of_lt (show result.items.length < VEC_CAP by omega) buf
      rcases ih (result.push buf)
        (by rw [hpush, List.length_append, List.length_singleton]; omega) with ⟨result', hrest, hitems⟩
      refine ⟨result', ?_, ?_⟩
      · rw [if_pos hmatch, hbuf]
        exact hrest
      · rw [hitems, hpush, if_pos hmatch, List.map_append, List.append_assoc]
        exact congrArg (fun row => result.items.map Vector.toList ++ row :: _) hpad
    · rcases ih result (by omega) with ⟨result', hrest, hitems⟩
      refine ⟨result', ?_, ?_⟩
      · rw [if_neg hmatch]
        exact hrest
      · rw [hitems, if_neg hmatch]

/-- The names that match, as `globExpand` finds them. -/
def foundNames (listing : Listing) (tok : Bytes) : List Bytes :=
  (scanDirEntries listing (splitDirAndPrefix tok).1).items.filter
    (globMatch (splitDirAndPrefix tok).2)

/-- The vector of names does not grow beyond its capacity. -/
theorem length_foundNames_le (listing : Listing) (tok : Bytes) :
    (foundNames listing tok).length ≤ VEC_CAP :=
  Nat.le_trans (List.length_filter_le _ _)
    (scanDirEntries listing (splitDirAndPrefix tok).1).length_le

/-- What `globExpand` makes of them. -/
theorem items_globExpand_listing (listing : Listing) {tok : Bytes} (hglob : hasGlob tok = true) :
    (globExpand listing tok).items = if foundNames listing tok = [] then [tok.take 127]
      else (foundNames listing tok).map (globEntry (splitDirAndPrefix tok).1) := by
  have hitems : (Vec.new.extendFromSlice
      ((foundNames listing tok).map (globEntry (splitDirAndPrefix tok).1))).items
      = (foundNames listing tok).map (globEntry (splitDirAndPrefix tok).1) := by
    rw [Vec.items_extendFromSlice]
    apply List.take_of_length_le
    show (([] : List Bytes) ++ _).length ≤ VEC_CAP
    rw [List.nil_append, List.length_map]
    exact length_foundNames_le listing tok
  rw [globExpand, if_pos hglob]
  show (if (Vec.new.extendFromSlice
      ((foundNames listing tok).map (globEntry (splitDirAndPrefix tok).1))).items.length = 0
    then Vec.new.push (tok.take 127) else Vec.new.extendFromSlice _).items = _
  rw [hitems, List.length_map]
  by_cases hnone : foundNames listing tok = []
  · rw [if_pos hnone, if_pos (by rw [hnone]; rfl), Vec.items_push]
    rfl
  · rw [if_neg hnone, if_neg (fun h0 => hnone (List.length_eq_zero_iff.mp h0))]
    exact hitems

/-- **The buffers hold what `globExpand` returns**, each word with zeros behind it. -/
theorem globExpandBuffers_refines (listing : Listing) (tok : Bytes)
    (h : Delivers readdir (scanPath (splitDirAndPrefix tok).1)
      (listing (scanPath (splitDirAndPrefix tok).1)))
    (hnul : ∀ name ∈ listing (scanPath (splitDirAndPrefix tok).1), 0 ∉ name) :
    ∃ result, globExpandBuffers readdir tok = some result ∧
      result.items.map Vector.toList = (globExpand listing tok).items.map (zeroPad 128) := by
  by_cases hglob : hasGlob tok = true
  · rcases exists_scanDirBuffers h hnul with ⟨rows, hrows, htexts⟩
    rw [← items_scanDirEntries_listing hnul] at htexts
    have hcount : rows.items.length ≤ VEC_CAP := rows.length_le
    rcases exists_foldlM_addMatch (splitDirAndPrefix tok).1 (splitDirAndPrefix tok).2
      rows.items Vec.new (by show 0 + rows.items.length ≤ VEC_CAP; omega) with ⟨result, hfold, hitems⟩
    have hfound : result.items.map Vector.toList
        = ((foundNames listing tok).map (globEntry (splitDirAndPrefix tok).1)).map
          (zeroPad 128) := by
      rw [hitems, htexts, List.map_map]
      rfl
    have hlen : result.items.length = (foundNames listing tok).length := by
      have hmap := congrArg List.length hfound
      rwa [List.length_map, List.length_map, List.length_map] at hmap
    have hcode : globExpandBuffers readdir tok
        = if result.items.length = 0 then wordBuffer tok else some result := by
      rw [globExpandBuffers, if_pos hglob]
      show ((scanDirBuffers readdir (splitDirAndPrefix tok).1).bind fun entries => _) = _
      rw [hrows]
      show (Option.bind (List.foldlM (addMatch (splitDirAndPrefix tok).1 (splitDirAndPrefix tok).2)
        Vec.new rows.items) fun result => _) = _
      rw [hfold]
      rfl
    -- Without a match the word stands for itself, on both sides.
    rw [hcode, items_globExpand_listing listing hglob, hlen]
    by_cases hnone : foundNames listing tok = []
    · rw [if_pos (by rw [hnone]; rfl), if_pos hnone]
      exact exists_wordBuffer tok
    · rw [if_neg (fun h0 => hnone (List.length_eq_zero_iff.mp h0)), if_neg hnone]
      exact ⟨result, rfl, hfound⟩
  · rw [globExpandBuffers, globExpand, if_neg hglob, if_neg hglob, Vec.items_push]
    exact exists_wordBuffer tok

/-! ### Words and names that fit -/

section
variable {dirPath pattern : Bytes} (hdir : dirPath = [] ∨ ∃ path, dirPath = path ++ ['/'.toUInt8])
  (hpattern : '/'.toUInt8 ∉ pattern) (hfits : dirPath.length ≤ 64)

/-- `readdir` gets the directory part, or the root where there is none. No byte of a short one is
lost in the buffer for the path. -/
theorem scanPath_of_le (hfits : dirPath.length ≤ 64) :
    scanPath dirPath = if dirPath = [] then bytes "/" else cString dirPath := by
  rw [scanPath, List.take_of_length_le (by omega)]
  exact if_congr List.length_eq_zero_iff rfl rfl

include hdir hpattern hfits in
/-- With a word and names that fit, nothing is cut: what `globExpand` returns are the words of the
expansion. The directory part and the pattern are those of the word, because the word is cut behind
its last `/`. -/
theorem items_globExpand_words {listing : Listing} (hglob : hasGlob (dirPath ++ pattern) = true)
    (htok : (dirPath ++ pattern).length ≤ 127)
    (hcount : (listing (scanPath dirPath)).length ≤ 64)
    (hnames : ∀ name ∈ listing (scanPath dirPath), name.length ≤ 63 ∧ 0 ∉ name) :
    (globExpand listing (dirPath ++ pattern)).items
      = expansionWords dirPath pattern (listing (scanPath dirPath)) := by
  have hsplit := splitDirAndPrefix_append hdir hpattern
  have hwhole : ∀ name ∈ listing (scanPath dirPath), name.take 63 = name :=
    fun name hname => List.take_of_length_le (hnames name hname).1
  have hfound : foundNames listing (dirPath ++ pattern)
      = (listing (scanPath dirPath)).filter (globMatch pattern) := by
    rw [foundNames, hsplit,
      items_scanDirEntries_listing fun name hname => (hnames name hname).2,
      List.take_of_length_le hcount, List.map_congr_left hwhole, List.map_id']
  have hentry : ∀ name ∈ foundNames listing (dirPath ++ pattern),
      globEntry dirPath name = dirPath ++ name := by
    intro name hname
    rw [hfound] at hname
    have hlen := (hnames name (List.mem_of_mem_filter hname)).1
    show dirPath.take 64 ++ name.take _ = _
    rw [List.take_of_length_le hfits, List.take_of_length_le (by omega)]
  rw [items_globExpand_listing listing hglob, hsplit, List.map_congr_left hentry,
    List.take_of_length_le htok, hfound]
  rfl

include hfits in
/-- Words that fit their buffers: a directory part of 64 bytes and a name of 63 are 127. -/
theorem length_of_mem_expansionWords {word : Bytes} (htok : (dirPath ++ pattern).length ≤ 127)
    (hnames : ∀ name ∈ names, name.length ≤ 63)
    (h : word ∈ expansionWords dirPath pattern names) : word.length ≤ 127 := by
  rw [expansionWords] at h
  split at h
  · rw [List.mem_singleton.mp h]
    exact htok
  · rcases List.mem_map.mp h with ⟨name, hname, rfl⟩
    have hlen := hnames name (List.mem_of_mem_filter hname)
    rw [List.length_append]
    omega

end

/-- Words without a NUL. -/
theorem nul_notMem_expansionWords {dirPath pattern word : Bytes} (htok : 0 ∉ dirPath ++ pattern)
    (hnames : ∀ name ∈ names, 0 ∉ name) (h : word ∈ expansionWords dirPath pattern names) :
    0 ∉ word := by
  rw [expansionWords] at h
  split at h
  · rw [List.mem_singleton.mp h]
    exact htok
  · rcases List.mem_map.mp h with ⟨name, hname, rfl⟩
    intro hin
    rcases List.mem_append.mp hin with hin | hin
    · exact htok (List.mem_append_left _ hin)
    · exact hnames name (List.mem_of_mem_filter hname) hin

/-- The wildcard bytes, as `has_glob` finds them. -/
theorem hasGlob_of_exists {tok : Bytes}
    (h : ∃ b ∈ tok, b = '*'.toUInt8 ∨ b = '?'.toUInt8 ∨ b = '['.toUInt8) : hasGlob tok = true := by
  rcases h with ⟨b, hb, hglob⟩
  rw [hasGlob, List.any_eq_true]
  refine ⟨b, hb, ?_⟩
  rcases hglob with rfl | rfl | rfl
  · decide
  · decide
  · decide

/-- **An expansion is exact within its buffers**: the words are the matching names in the order
of the directory, each whole behind the directory part, or the word itself. Each is read back
whole when the word has no NUL. The word is written as its directory part, which is empty or ends
with a `/`, and a pattern without a `/`; so the part up to the last `/` is `dirPath`. -/
theorem globExpandBuffers_exact (dirPath pattern : Bytes) (names : List Bytes)
    (hdir : dirPath = [] ∨ ∃ path, dirPath = path ++ ['/'.toUInt8])
    (hpattern : '/'.toUInt8 ∉ pattern)
    (hglob : ∃ b ∈ dirPath ++ pattern, b = '*'.toUInt8 ∨ b = '?'.toUInt8 ∨ b = '['.toUInt8)
    (htok : (dirPath ++ pattern).length ≤ 127) (hfits : dirPath.length ≤ 64)
    (hcount : names.length ≤ 64)
    (hnames : ∀ name ∈ names, 1 ≤ name.length ∧ name.length ≤ 63 ∧ 0 ∉ name)
    (h : Delivers readdir (if dirPath = [] then bytes "/" else cString dirPath) names) :
    ∃ result, globExpandBuffers readdir (dirPath ++ pattern) = some result ∧
      result.items.map Vector.toList = (expansionWords dirPath pattern names).map (zeroPad 128) ∧
      (∀ word ∈ expansionWords dirPath pattern names, word.length < 128) ∧
      (0 ∉ dirPath ++ pattern → result.items.map text = expansionWords dirPath pattern names) := by
  have hlen : ∀ name ∈ names, name.length ≤ 63 := fun name hname => (hnames name hname).2.1
  have hnul : ∀ name ∈ names, 0 ∉ name := fun name hname => (hnames name hname).2.2
  have hsplit := splitDirAndPrefix_append hdir hpattern
  rw [← scanPath_of_le hfits] at h
  rcases globExpandBuffers_refines (fun _ => names) (dirPath ++ pattern) (by rw [hsplit]; exact h) hnul
    with ⟨result, hresult, hitems⟩
  rw [items_globExpand_words hdir hpattern hfits (hasGlob_of_exists hglob) htok hcount
    fun name hname => ⟨hlen name hname, hnul name hname⟩] at hitems
  have hshort : ∀ word ∈ expansionWords dirPath pattern names, word.length < 128 :=
    fun word hword => Nat.lt_succ_of_le (length_of_mem_expansionWords hfits htok hlen hword)
  refine ⟨result, hresult, hitems, hshort, ?_⟩
  intro htokNul
  have hread : ∀ word ∈ expansionWords dirPath pattern names, word.takeWhile (· ≠ 0) = word :=
    fun word hword => cString_eq_self (nul_notMem_expansionWords htokNul hnul hword)
  rw [TextBuffer.map_text_of_padded hitems, List.map_congr_left hread, List.map_id']

/-- A directory with these names, one for each call. -/
def readdirOf (names : List Bytes) : Readdir := fun _ calls buf =>
  match (names)[calls]? with
  | some name => (1, (copySlice buf 0 (name ++ [0])).getD buf)
  | none => (0, buf)

/-- A `readdir` that gives the names one after the other delivers them, if each fits the
buffer. -/
theorem delivers_readdirOf (path : Bytes) (hnames : ∀ name ∈ names, name.length ≤ 255) :
    Delivers (readdirOf names) path names := by
  constructor
  · intro calls name hname buf
    have hfit : (name ++ [0]).length ≤ 256 := by
      rw [List.length_append, List.length_singleton]
      exact Nat.succ_le_succ (hnames name (List.mem_of_getElem? hname))
    rcases TextBuffer.exists_copySlice_start buf hfit with ⟨buf', hcopy, hpre⟩
    rw [readdirOf, hname]
    dsimp only
    rw [hcopy]
    exact ⟨Int.one_pos, hpre⟩
  · intro buf
    rw [readdirOf, List.getElem?_eq_none (Nat.le_refl _)]

/-- `src/*.c` in a directory with `a.c`, `b.o` and `c.c` is `src/a.c src/c.c`. -/
theorem globExpandBuffers_exact_star :
    ∃ result, globExpandBuffers (readdirOf [bytes "a.c", bytes "b.o", bytes "c.c"]) (bytes "src/*.c")
        = some result ∧ result.items.map text = [bytes "src/a.c", bytes "src/c.c"] := by
  rcases globExpandBuffers_exact (bytes "src/") (bytes "*.c") [bytes "a.c", bytes "b.o", bytes "c.c"]
    (Or.inr ⟨bytes "src", by decide⟩) (by decide +kernel) ⟨'*'.toUInt8, by decide +kernel, Or.inl rfl⟩
    (by decide +kernel) (by decide +kernel) (by decide +kernel) (by decide +kernel)
    (delivers_readdirOf _ (by decide +kernel)) with ⟨result, hresult, -, -, hwords⟩
  have htok : bytes "src/" ++ bytes "*.c" = bytes "src/*.c" := by decide +kernel
  rw [htok] at hresult hwords
  refine ⟨result, hresult, (hwords (by decide +kernel)).trans ?_⟩
  decide +kernel

end OnyxShell
