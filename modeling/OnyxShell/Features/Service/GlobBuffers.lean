import OnyxShell.Features.Service.Glob
import OnyxShell.Lib.TextBuffer

/-!
# `OnyxShell.Features.Service.GlobBuffers`: wildcard expansion with its buffers

`scan_dir_entries` and `glob_expand` of `src/features/service/glob.rs` as they work on their
buffers: the path and the name of `readdir` in 256 bytes, an entry in 64, a word in 128. A
name is known by the NUL behind it. A slice outside of its buffer is `none`.

`expansionWords` says what the expansion of a directory part and a pattern is for, without a
buffer: the names of the directory that match, each behind the directory part, or the word itself
where none does.
-/

set_option autoImplicit false

namespace OnyxShell

open TextBuffer (zeros copySlice text)

/-- `syscalls::readdir`: for a path, the number of calls on it so far, and the buffer for the
name, the result and the buffer behind the call. -/
abbrev Readdir := Bytes → Nat → Vector UInt8 256 → Int × Vector UInt8 256

/-- `path_buf` of `scan_dir_entries`. -/
def pathBuffer (dirPath : Bytes) : Option (Vector UInt8 256) := do
  let n := min dirPath.length 255
  let buf ← copySlice (zeros 256) 0 (dirPath.take n)
  let buf ← copySlice buf n [0]
  if n = 0 then copySlice buf 0 ['/'.toUInt8, 0] else some buf

/-- The loop of `scan_dir_entries`, with the turns that are left. -/
def scanFrom (readdir : Readdir) (path : Bytes) :
    Nat → Nat → Vector UInt8 256 → Vec (Vector UInt8 64) → Option (Vec (Vector UInt8 64))
  | 0, _, _, result => some result
  | turns + 1, calls, nameBuf, result =>
    let (ret, nameBuf) := readdir path calls nameBuf
    if ret ≤ 0 then some result
    else do
      let elen := ((nameBuf.toList.take 255).takeWhile (· ≠ 0)).length
      let entry ← copySlice (zeros 64) 0 (nameBuf.toList.take (min elen 63))
      scanFrom readdir path turns (calls + 1) nameBuf (result.push entry)

/-- `glob::scan_dir_entries`. -/
def scanDirBuffers (readdir : Readdir) (dirPath : Bytes) : Option (Vec (Vector UInt8 64)) := do
  let pathBuf ← pathBuffer dirPath
  scanFrom readdir (text pathBuf) 64 0 (zeros 256) Vec.new

/-- `buf` with a match: the directory part and the name. -/
def entryBuffer (dirPath name : Bytes) : Option (Vector UInt8 128) := do
  let dn := min dirPath.length 64
  let buf ← copySlice (zeros 128) 0 (dirPath.take dn)
  copySlice buf dn (name.take (127 - dn))

/-- `buf` with the word itself, alone in a `Vec`. -/
def wordBuffer (tok : Bytes) : Option (Vec (Vector UInt8 128)) := do
  let buf ← copySlice (zeros 128) 0 (tok.take 127)
  some (Vec.new.push buf)

/-- The body of the loop in `glob_expand`. -/
def addMatch (dirPath pattern : Bytes) (result : Vec (Vector UInt8 128)) (entry : Vector UInt8 64) :
    Option (Vec (Vector UInt8 128)) :=
  let entryName := text entry
  if globMatch pattern entryName then do
    let buf ← entryBuffer dirPath entryName
    some (result.push buf)
  else some result

/-- `glob::glob_expand`. -/
def globExpandBuffers (readdir : Readdir) (tok : Bytes) : Option (Vec (Vector UInt8 128)) :=
  if hasGlob tok then do
    let (dirPath, pattern) := splitDirAndPrefix tok
    let entries ← scanDirBuffers readdir dirPath
    let result ← entries.items.foldlM (addMatch dirPath pattern) Vec.new
    if result.items.length = 0 then wordBuffer tok else some result
  else wordBuffer tok

/-- `readdir` delivers these names: each call writes the next one and its NUL, over whatever is
in the buffer, and the call behind them returns 0. -/
structure Delivers (readdir : Readdir) (path : Bytes) (names : List Bytes) : Prop where
  name : ∀ calls name, (names)[calls]? = some name → ∀ buf,
    0 < (readdir path calls buf).1 ∧ name ++ [0] <+: (readdir path calls buf).2.toList
  stop : ∀ buf, (readdir path names.length buf).1 = 0

/-- The words that a directory part and a pattern stand for: the names that match, each behind the
directory part, or the word itself where there are none. -/
def expansionWords (dirPath pattern : Bytes) (names : List Bytes) : List Bytes :=
  let found := names.filter (globMatch pattern)
  if found = [] then [dirPath ++ pattern] else found.map (dirPath ++ ·)

end OnyxShell
