import OnyxShell.Process.Console
import OnyxShell.Proofs.Process.Output

/-!
# `OnyxShell.Proofs.Process.Console`: what is printed

`Prints fs x t` says that `x` comes to its end, prints `t` and leaves everything else as it was.
`prints_cmdCat`, `prints_cmdLs` and `prints_cmdStat` are about the commands that show what the kernel
has.

A file may be delivered in pieces, and the kernel may say in between that there is nothing yet.
`ComesTo` says of every run that it prints the text all the same.
-/

set_option autoImplicit false

namespace OnyxShell.Process

open Routine (twp twp_bind twp_pure twp_mono)

variable {α : Type} {fs : Fs} {g : Globals} {w : World}

namespace World

/-- Nothing printed is nothing changed. -/
@[simp] theorem print_nil (w : World) : w.print [] = w := by
  rw [print, List.append_nil]

/-- Two texts one after the other are one text. -/
@[simp] theorem print_print (w : World) (b b' : Bytes) : (w.print b).print b' = w.print (b ++ b') := by
  simp only [print, List.append_assoc]

/-- Output does not touch what is left of a file. -/
@[simp] theorem left_print (w : World) (b : Bytes) : (w.print b).left = w.left := rfl

/-- What is left of a descriptor's file is what was set last. -/
@[simp] theorem left_setLeft (w : World) (fd : Nat) (rest : Option Bytes) :
    (w.setLeft fd rest).left fd = rest :=
  Function.update_self _ _ _

/-- A read replaces what the read before it had left. -/
@[simp] theorem setLeft_setLeft (w : World) (fd : Nat) (rest rest' : Option Bytes) :
    (w.setLeft fd rest).setLeft fd rest' = w.setLeft fd rest' := by
  simp only [setLeft, Function.update_idem]

/-- Reads and output do not meet, so that their order does not matter. It lets a proof gather the
output at the end. -/
theorem setLeft_print (w : World) (b : Bytes) (fd : Nat) (rest : Option Bytes) :
    (w.print b).setLeft fd rest = (w.setLeft fd rest).print b :=
  rfl

/-- A descriptor that is as before. -/
theorem setLeft_of_left {w : World} {fd : Nat} {rest : Option Bytes} (h : w.left fd = rest) :
    w.setLeft fd rest = w := by
  rw [setLeft, ← h, Function.update_eq_self]

/-- How far a directory has been listed is what was set last. -/
@[simp] theorem seen_setSeen (w : World) (path : Bytes) (n : Nat) :
    (w.setSeen path n).seen path = n :=
  Function.update_self _ _ _

/-- Each `readdir` replaces the place that the one before it had reached. -/
@[simp] theorem setSeen_setSeen (w : World) (path : Bytes) (n n' : Nat) :
    (w.setSeen path n).setSeen path n' = w.setSeen path n' := by
  simp only [setSeen, Function.update_idem]

/-- A directory that is as before. -/
theorem setSeen_of_seen {w : World} {path : Bytes} {n : Nat} (h : w.seen path = n) :
    w.setSeen path n = w := by
  rw [setSeen, ← h, Function.update_eq_self]

end World

/-- An answer with an error, or with the value. -/
theorem Gives.cases {β : Type} {P : β → Prop} {a : Answer} {r : Except Nat β} (h : Gives P a r) :
    (∃ e, r = .error e ∧ a.ret = Int.negSucc e) ∨ ∃ b, r = .ok b ∧ 0 ≤ a.ret ∧ P b := by
  cases r with
  | error e => exact Or.inl ⟨e, rfl, h⟩
  | ok b => exact Or.inr ⟨b, rfl, h⟩

/-- The function ends, prints `t`, and leaves everything else as it was. Everything else are the
globals and the world, but for the output. It holds from any state, so that commands may be put
together by it. -/
def Prints (fs : Fs) (x : Sh Unit) (t : Globals → Bytes) : Prop :=
  ∀ (Q : Unit → Globals → World → Prop) g w, Q () g (w.print (t g)) → twp (console fs) x Q g w

/-- One call of a command at the console: every call is allowed, and the answers are those of the
file system. -/
theorem twp_sys (c : SysCall) (Q : Answer → Globals → World → Prop) :
    twp (console fs) (sys c) Q g w ↔
      ∀ a, (console fs).admits w c a → Q a g ((console fs).next w c a) :=
  and_iff_right trivial

/-- The console takes output at any time. -/
theorem writes : Writes (console fs) World.print where
  allows _ _ := trivial
  answered _ _ := ⟨⟨0, []⟩, trivial⟩
  next _ _ _ := rfl
  append := World.print_print

namespace Prints

/-- The text may be given another way. -/
theorem mono {x : Sh Unit} {t t' : Globals → Bytes} (h : Prints fs x t) (ht : ∀ g, t g = t' g) :
    Prints fs x t' := by
  intro Q g w hQ
  refine h Q g w ?_
  rw [ht]
  exact hQ

/-- A program that has returned has printed nothing. -/
theorem pure : Prints fs (Pure.pure ()) fun _ => [] := by
  intro Q g w hQ
  rwa [World.print_nil] at hQ

/-- One piece of output behind the other. -/
theorem seq {x y : Sh Unit} {t t' : Globals → Bytes} (hx : Prints fs x t) (hy : Prints fs y t') :
    Prints fs (x >>= fun _ => y) fun g => t g ++ t' g := by
  intro Q g w hQ
  rw [twp_bind]
  refine hx _ g w (hy Q g _ ?_)
  rwa [World.print_print]

/-- A loop over a list prints the texts of its turns one after the other. -/
theorem forM {β : Type} {l : List β} {f : β → Sh Unit} {t : β → Bytes}
    (hf : ∀ b ∈ l, Prints fs (f b) fun _ => t b) : Prints fs (l.forM f) fun _ => l.flatMap t := by
  induction l with
  | nil => exact pure
  | cons b l ih =>
    exact seq (hf b List.mem_cons_self) (ih fun b hb => hf b (List.mem_cons_of_mem _ hb))

/-- A choice prints the text of the branch that is taken. -/
theorem ite {c : Prop} [Decidable c] {x y : Sh Unit} {t t' : Globals → Bytes} (hx : Prints fs x t)
    (hy : Prints fs y t') : Prints fs (if c then x else y) fun g => if c then t g else t' g := by
  split
  · exact hx
  · exact hy

end Prints

/-- The console answers `getcwd` with one directory throughout. -/
theorem locates : Locates (console fs) fs.cwd where
  cwd_abs := fs.cwd_abs
  allows _ := trivial
  admits _ _ h := h
  next _ _ := rfl

/-! ### `cat` -/

/-- A chunk is what the buffer has at its front. -/
theorem Chunk.take_into {rest buf : Bytes} {len : Nat} {a : Answer} (h : Chunk len a (some rest))
    (hbuf : buf.length = len) : (a.into buf).take a.ret.toNat = rest.take a.ret.toNat := by
  rcases h with ⟨_, hlen, hn, hout, _⟩
  have hcut : (rest.take a.ret.toNat).length = a.ret.toNat := List.length_take_of_le hn
  rw [Answer.into, hout, hbuf, List.take_take, Nat.min_eq_right hlen, List.take_append,
    hcut, Nat.sub_self, List.take_zero, List.append_nil, List.take_take, Nat.min_self]

/-- The read loop of `cat` prints the file, however it is cut. -/
theorem twp_catLoop {turns fd : Nat} {content : Bytes} (hturns : content.length < turns)
    (hleft : w.left fd = some content) {Q : Unit → Globals → World → Prop}
    (hQ : Q () g ((w.print content).setLeft fd (some []))) :
    twp (console fs) (catLoop turns fd) Q g w := by
  -- `done` has been printed, and `rest` is left behind the descriptor.
  let Inv : Bytes → Globals → World → Prop := fun buf g' w' => buf.length = BUF_LEN ∧ g' = g ∧
    ∃ done rest, content = done ++ rest ∧ w' = (w.print done).setLeft fd (some rest)
  have hstart : Inv (zeros BUF_LEN) g w := by
    refine ⟨length_zeros _, rfl, [], content, rfl, ?_⟩
    rw [World.print_nil, World.setLeft_of_left hleft]
  refine Routine.twp_loop Inv (fun _ _ w' => ((w'.left fd).getD []).length) ?_ hstart ?_
  · rintro buf _ w' ⟨hbuf, rfl, done, rest, hcontent, rfl⟩
    have hrest : ((w.print done).setLeft fd (some rest)).left fd = some rest :=
      World.left_setLeft _ _ _
    rw [twp_bind, twp_sys]
    intro a ha
    have hchunk : Chunk BUF_LEN a (some rest) := hrest ▸ ha
    have htake := hchunk.take_into hbuf
    rcases hchunk with ⟨hnonneg, hlen, hle, _, hend⟩
    have hread : (console fs).next ((w.print done).setLeft fd (some rest)) (.read fd BUF_LEN) a
        = (w.print done).setLeft fd (some (rest.drop a.ret.toNat)) := by
      show World.setLeft _ fd _ = _
      rw [hrest, World.setLeft_setLeft, Option.map_some]
    rw [hread]
    split
    · rename_i hzero
      have hnil : rest = [] := hend (by omega)
      rw [hnil, List.append_nil] at hcontent
      rw [hnil, List.drop_nil, ← hcontent]
      exact hQ
    · rename_i hpos
      rw [twp_bind]
      refine twp_slice (by rw [Answer.length_into, hbuf]; exact hlen) ?_
      rw [twp_bind, writes.twp_writeRaw, twp_pure, htake]
      refine ⟨⟨(a.length_into buf).trans hbuf, rfl, done ++ rest.take a.ret.toNat,
        rest.drop a.ret.toNat, ?_, ?_⟩, ?_⟩
      · rw [List.append_assoc, List.take_append_drop, hcontent]
      · rw [← World.print_print, World.setLeft_print _ (rest.take a.ret.toNat)]
      · rw [hrest, World.left_print, World.left_setLeft]
        show (rest.drop a.ret.toNat).length < rest.length
        rw [List.length_drop]
        omega
  · rwa [hleft]

/-- What a command shows that goes through its operands. -/
def operandsText (fs : Fs) (name missing : Bytes) (text : Bytes → Bytes) (args : List Bytes) :
    Bytes :=
  if args = [] then errorText missing
  else args.flatMap fun arg =>
    match OnyxShell.resolve (some fs.cwd) arg with
    | none => errorText (name ++ bytes ": path too long")
    | some abs => text abs

/-- The loop that `cat`, `rm`, `mkdir` and `stat` share: each operand is resolved, and acted on or
reported. What the whole command prints follows from what one operand prints. -/
theorem prints_forOperands (name missing : Bytes) {act : Bytes → Bytes → Sh Unit}
    {text : Bytes → Bytes} (args : List Bytes)
    (hact : ∀ arg ∈ args, ∀ abs, OnyxShell.resolve (some fs.cwd) arg = some abs →
      Prints fs (act arg abs) fun _ => text abs) :
    Prints fs (forOperands name missing act args) fun _ => operandsText fs name missing text args := by
  refine .ite (fun Q g w => (writes.twp_writeError missing).mpr) (.forM fun arg harg => ?_)
  intro Q g w hQ
  rw [twp_bind]
  refine locates.twp_resolve arg ?_
  cases habs : OnyxShell.resolve (some fs.cwd) arg with
  | none =>
    rw [habs] at hQ
    exact (writes.twp_writeError _).mpr hQ
  | some abs =>
    rw [habs] at hQ
    exact hact arg harg abs habs Q g w hQ

/-- What `cat` shows for a path. -/
def catText (fs : Fs) (abs : Bytes) : Bytes :=
  match fs.file (cString abs) with
  | .error e => errnoText (bytes "cat") (Int.negSucc e)
  | .ok content => content

/-- The loop of `cat` has turns for each of the files. Each read but the last takes one byte at
least, so that the length bounds the turns. -/
def CatFits (fs : Fs) (turns : Nat) (args : List Bytes) : Prop :=
  ∀ arg ∈ args, ∀ abs, OnyxShell.resolve (some fs.cwd) arg = some abs →
    ∀ content, fs.file (cString abs) = .ok content → content.length < turns

/-- **`cat` prints its files**, one behind the other, and a message for each that cannot be
opened. -/
theorem prints_cmdCat {turns : Nat} {args : List Bytes} (hfits : CatFits fs turns args) :
    Prints fs (cmdCat turns args) fun _ =>
      operandsText fs (bytes "cat") (bytes "cat: missing file operand (try 'help')") (catText fs)
        args := by
  refine prints_forOperands _ _ args fun arg harg abs habs => ?_
  intro Q g w hQ
  rw [twp_bind, twp_sys]
  intro a ha
  rw [catText] at hQ
  rcases Gives.cases ha with ⟨e, hfile, hret⟩ | ⟨content, hfile, hret, hfree⟩
  · rw [hfile] at hQ
    have hnext : (console fs).next w (.sysOpen (cString abs) O_RDONLY) a = w := by
      simp only [console, World.next, hfile]
    rw [hnext, if_pos (by omega), hret]
    exact (writes.twp_writeErrorErrno _ _).mpr hQ
  · rw [hfile] at hQ
    have hnext : (console fs).next w (.sysOpen (cString abs) O_RDONLY) a
        = w.setLeft a.ret.toNat (some content) := by
      simp only [console, World.next, hfile]
    rw [hnext, if_neg (by omega), twp_bind]
    refine twp_catLoop (hfits arg harg abs habs content hfile) (World.left_setLeft _ _ _) ?_
    rw [twp_bind, twp_sys]
    intro _ _
    -- The descriptor is free again.
    have hclosed : (((w.setLeft a.ret.toNat (some content)).print content).setLeft a.ret.toNat
        (some [])).setLeft a.ret.toNat none = w.print content := by
      rw [World.setLeft_setLeft, World.setLeft_print, World.setLeft_setLeft,
        World.setLeft_of_left hfree]
    rw [twp_pure]
    show Q () g (World.setLeft _ _ _)
    rw [hclosed]
    exact hQ

/-! ### `stat` records -/

/-- A number in `len` bytes has `len` bytes. -/
theorem length_toLeBytes (n len : Nat) : (toLeBytes n len).length = len := by
  induction len generalizing n with
  | zero => rfl
  | succ len ih => exact congrArg (· + 1) (ih _)

/-- The bytes of a number are read back, up to what fits. -/
theorem fromLeBytes_toLeBytes (n len : Nat) : fromLeBytes (toLeBytes n len) = n % 256 ^ len := by
  induction len generalizing n with
  | zero => exact (Nat.mod_one n).symm
  | succ len ih =>
    show (UInt8.ofNat n).toNat + 256 * fromLeBytes (toLeBytes (n / 256) len) = _
    rw [ih, Nat.pow_succ', Nat.mod_mul, UInt8.toNat_ofNat']

/-- A layout is as long as its fields together. -/
theorem length_layout (fields : List (Nat × Nat)) :
    (layout fields).length = (fields.map Prod.snd).sum := by
  rw [layout, List.length_flatMap]
  congr 1
  exact List.map_congr_left fun _ _ => length_toLeBytes _ _

/-- A number is found where the ones before it end. -/
theorem field_layout {fields : List (Nat × Nat)} {i n len : Nat} (h : fields[i]? = some (n, len))
    (rest : Bytes) :
    field (layout fields ++ rest) ((fields.take i).map Prod.snd).sum len = n % 256 ^ len := by
  rcases List.getElem?_eq_some_iff.mp h with ⟨hi, hget⟩
  have hsplit : layout fields ++ rest
      = layout (fields.take i) ++ (toLeBytes n len ++ (layout (fields.drop (i + 1)) ++ rest)) := by
    rw [← List.append_assoc, ← List.append_assoc]
    congr 1
    conv_lhs => rw [← List.take_append_drop i fields, List.drop_eq_getElem_cons hi, hget]
    simp only [layout, List.flatMap_append, List.flatMap_cons, List.append_assoc]
  rw [field, hsplit, ← length_layout, List.drop_left, List.take_left' (length_toLeBytes n len),
    fromLeBytes_toLeBytes]

/-- The lengths of the numbers in a record. -/
def statLens : List Nat := [8, 8, 4, 4, 4, 4, 8, 8, 8, 8, 8, 16, 8, 32]

section
variable (st : Stat) (rest : Bytes)

/-- A field is read back from the buffer of `stat` at the sum of the lengths before it. It is what
connects the byte offsets in the code with the record. -/
theorem field_encode {i n len off : Nat} (h : st.fields[i]? = some (n, len))
    (hoff : (statLens.take i).sum = off) : field (st.encode ++ rest) off len = n % 256 ^ len := by
  have hlens : (st.fields.take i).map Prod.snd = statLens.take i := List.map_take
  rw [← hoff, ← hlens]
  exact field_layout h rest

/-- Eight bytes of a record. -/
theorem u64At_encode (i : Nat) {off : Nat} (n : UInt64) (h : st.fields[i]? = some (n.toNat, 8))
    (hoff : (statLens.take i).sum = off) : u64At (st.encode ++ rest) off = n := by
  have hlt : n.toNat < 256 ^ 8 := n.toNat_lt
  rw [u64At, field_encode st rest h hoff, Nat.mod_eq_of_lt hlt, UInt64.ofNat_toNat]

/-- Four bytes of a record. -/
theorem u32At_encode (i : Nat) {off : Nat} (n : UInt32) (h : st.fields[i]? = some (n.toNat, 4))
    (hoff : (statLens.take i).sum = off) :
    u32At (st.encode ++ rest) off = n.toUInt64 := by
  have hlt : n.toNat < 256 ^ 4 := n.toNat_lt
  rw [u32At, field_encode st rest h hoff, Nat.mod_eq_of_lt hlt, ← UInt32.toNat_toUInt64,
    UInt64.ofNat_toNat]

/-- Eight bytes of a record, with a sign. -/
theorem i64At_encode (i : Nat) {off : Nat} (n : Int64) (h : st.fields[i]? = some (n.toUInt64.toNat, 8))
    (hoff : (statLens.take i).sum = off) : i64At (st.encode ++ rest) off = n := by
  rw [i64At, u64At_encode st rest i n.toUInt64 h hoff]
  rfl

end

/-- What `stat` shows for a record. -/
def statText (abs : Bytes) (st : Stat) : Bytes :=
  bytes "  File: " ++ abs ++ bytes "\n" ++
  (bytes "  Size: " ++ signedText st.size.toInt ++ bytes "       Type: " ++
    typeStr (st.mode.toUInt64 &&& 0o170000) ++ bytes "\n") ++
  (bytes "  Inode: " ++ decimalText st.ino.toNat ++ bytes "       Links: " ++
    decimalText st.nlink.toNat ++ bytes "\n") ++
  (bytes "  Device: " ++ (bytes "0x" ++ hexText st.dev.toNat) ++ bytes "   Rdev: " ++
    (bytes "0x" ++ hexText st.rdev.toNat) ++ bytes "\n") ++
  (bytes "  Mode: " ++ (bytes "0x" ++ hexText st.mode.toNat) ++ bytes "   Uid: " ++
    decimalText st.uid.toNat ++ bytes "   Gid: " ++ decimalText st.gid.toNat ++ bytes "\n") ++
  (bytes "  Blksize: " ++ signedText st.blksize.toInt ++ bytes "   Blocks: " ++
    signedText st.blocks.toInt ++ bytes "\n") ++
  (bytes "  Mtime: " ++ decimalText st.mtime.toUInt64.toNat ++ bytes " (epoch seconds)" ++
    bytes "\n")

/-- What `stat` prints of a buffer are the fields that have been encoded into it, whatever the
buffer has behind them. -/
theorem prints_writeStat (abs : Bytes) (st : Stat) (rest : Bytes) :
    Prints fs (writeStat abs (st.encode ++ rest)) fun _ => statText abs st := by
  have hdev : u64At (st.encode ++ rest) 0 = st.dev := u64At_encode st rest 0 _ rfl (by decide)
  have hino : u64At (st.encode ++ rest) 8 = st.ino := u64At_encode st rest 1 _ rfl (by decide)
  have hmode : u32At (st.encode ++ rest) 16 = st.mode.toUInt64 :=
    u32At_encode st rest 2 _ rfl (by decide)
  have hnlink : u32At (st.encode ++ rest) 20 = st.nlink.toUInt64 :=
    u32At_encode st rest 3 _ rfl (by decide)
  have huid : u32At (st.encode ++ rest) 24 = st.uid.toUInt64 :=
    u32At_encode st rest 4 _ rfl (by decide)
  have hgid : u32At (st.encode ++ rest) 28 = st.gid.toUInt64 :=
    u32At_encode st rest 5 _ rfl (by decide)
  have hrdev : u64At (st.encode ++ rest) 40 = st.rdev := u64At_encode st rest 7 _ rfl (by decide)
  have hsize : i64At (st.encode ++ rest) 48 = st.size := i64At_encode st rest 8 _ rfl (by decide)
  have hblksize : i64At (st.encode ++ rest) 56 = st.blksize :=
    i64At_encode st rest 9 _ rfl (by decide)
  have hblocks : i64At (st.encode ++ rest) 64 = st.blocks :=
    i64At_encode st rest 10 _ rfl (by decide)
  have hmtime : u64At (st.encode ++ rest) 88 = st.mtime.toUInt64 :=
    u64At_encode st rest 12 _ rfl (by decide)
  -- Each number is decoded at the offset at which `Stat.fields` has put it.
  rw [writeStat, hdev, hino, hmode, hnlink, huid, hgid, hrdev, hsize, hblksize, hblocks, hmtime]
  intro Q g w hQ
  simp only [twp_bind, writes.twp_writeRaw, writes.twp_newline, writes.twp_writeI64,
    writes.twp_writeU64, writes.twp_writeHex, World.print_print, UInt32.toNat_toUInt64]
  rw [statText] at hQ
  simpa only [List.append_assoc] using hQ

/-- A record fits the buffer. -/
theorem into_stat {a : Answer} {st : Stat} (hout : a.out = st.encode) :
    a.into (zeros STAT_LEN) = st.encode ++ (zeros STAT_LEN).drop a.out.length := by
  have hlen : st.encode.length = 128 := by
    rw [Stat.encode, length_layout]
    show statLens.sum = 128
    decide
  have hfits : st.encode.length ≤ (zeros STAT_LEN).length := by
    rw [hlen, length_zeros]
    decide
  rw [Answer.into, hout, List.take_of_length_le hfits]

/-- What `stat` shows. -/
def statOutput (fs : Fs) : List Bytes → Bytes
  | [] => errorText (bytes "stat: missing operand (try 'help')")
  | arg :: _ =>
    match OnyxShell.resolve (some fs.cwd) arg with
    | none => errorText (bytes "stat: path too long")
    | some abs =>
      match fs.stat (cString abs) with
      | .error e => errnoText (bytes "stat") (Int.negSucc e)
      | .ok st => statText abs st

/-- **`stat` shows the record** of its first operand. -/
theorem prints_cmdStat (args : List Bytes) :
    Prints fs (cmdStat args) fun _ => statOutput fs args := by
  intro Q g w hQ
  cases args with
  | nil => exact (writes.twp_writeError _).mpr hQ
  | cons arg rest =>
    rw [statOutput] at hQ
    rw [cmdStat, twp_bind]
    refine locates.twp_resolve arg ?_
    cases habs : OnyxShell.resolve (some fs.cwd) arg with
    | none =>
      rw [habs] at hQ
      exact (writes.twp_writeError _).mpr hQ
    | some abs =>
      rw [habs] at hQ
      simp only at hQ ⊢
      rw [twp_bind, twp_sys]
      intro a ha
      show twp (console fs) _ Q g w
      rcases Gives.cases ha with ⟨e, hstat, hret⟩ | ⟨st, hstat, hret, hout⟩
      · rw [hstat] at hQ
        rw [if_pos (by omega), hret]
        exact (writes.twp_writeErrorErrno _ _).mpr hQ
      · rw [hstat] at hQ
        rw [if_neg (by omega), into_stat hout]
        exact prints_writeStat abs st _ Q g w hQ

/-! ### `ls` -/

/-- What a `readdir` call is answered. -/
theorem Entry.cases {a : Answer} {entry : Option Bytes} (h : Entry a entry) :
    (∃ name, entry = some name ∧ 0 < a.ret ∧ a.out = name ++ [0]) ∨ entry = none ∧ a.ret = 0 := by
  cases entry with
  | some name => exact Or.inl ⟨name, rfl, h⟩
  | none => exact Or.inr ⟨rfl, h⟩

/-- A name ends at its NUL. -/
theorem cString_append_nul {name : Bytes} (h : 0 ∉ name) (rest : Bytes) :
    cString (name ++ 0 :: rest) = name := by
  have hpos : ∀ b ∈ name, decide (b ≠ 0) = true := by
    intro b hb
    exact decide_eq_true fun h0 => h (h0 ▸ hb)
  rw [cString, List.takeWhile_append_of_pos hpos]
  simp

/-- A name is at the front of the buffer. -/
theorem into_name {name buf : Bytes} {a : Answer} (hshort : name.length < NAME_LEN - 1)
    (hbuf : buf.length = NAME_LEN) (hout : a.out = name ++ [0]) :
    a.into buf = name ++ 0 :: buf.drop a.out.length := by
  have hfits : (name ++ [0]).length ≤ buf.length := by
    rw [List.length_append, hbuf, List.length_singleton]
    omega
  rw [Answer.into, hout, List.take_of_length_le hfits, List.append_assoc]
  rfl

/-- A run of the function makes a call or has returned with `r`, and then it has printed `t` and
changed nothing else outside. -/
def ComesTo {α : Type} (fs : Fs) (w : World) (g : Globals) (x : Sh α) (r : α × Globals) (t : Bytes) :
    Prop :=
  ∀ events q, Prog.Trace (x g) events q → (console fs).Answered w events →
    (∃ c, q.nextCall = some c) ∨ q = .ret r ∧ (console fs).after w events = w.print t

/-- From the postcondition to the runs: each run of the program comes to the result, with the text
as its output. -/
theorem comesTo_of_twp {α : Type} {x : Sh α} {r : α × Globals} {t : Bytes}
    (h : twp (console fs) x (fun a g' w' => (a, g') = r ∧ w' = w.print t) g w) :
    ComesTo fs w g x r t := by
  intro events q htrace hanswered
  rcases Prog.twp_run htrace h hanswered not_false with hcall | ⟨r', hret, rfl, hafter⟩
  · exact Or.inl hcall
  · exact Or.inr ⟨hret, hafter⟩

/-- A run that has returned. -/
theorem ComesTo.returns {α : Type} {x : Sh α} {r : α × Globals} {t : Bytes}
    (h : ComesTo fs w g x r t) (events : List (Prog.Event SysCall Answer))
    (hret : ((x g).follow events).any Prog.returned = true)
    (hanswered : (console fs).Answered w events) :
    Prog.Trace (x g) events (.ret r) ∧ (console fs).after w events = w.print t := by
  rcases Prog.exists_trace_ret hret with ⟨r', htrace⟩
  rcases h events (.ret r') htrace hanswered with ⟨c, hcall⟩ | ⟨hr, hafter⟩
  · cases hcall
  · exact ⟨hr ▸ htrace, hafter⟩

/-- The function shows `t` and changes nothing. -/
def Shows (fs : Fs) (w : World) (g : Globals) (x : Sh Unit) (t : Bytes) : Prop :=
  ComesTo fs w g x ((), g) t

/-- A command that prints a text shows it, whatever was in the world before. -/
theorem Prints.shows {x : Sh Unit} {t : Globals → Bytes} (h : Prints fs x t) :
    Shows fs w g x (t g) :=
  comesTo_of_twp (h _ g w ⟨rfl, rfl⟩)

/-! ### A directory to look at -/

/-- A file `/a` beside an empty directory `/b`. -/
def twoNames : Fs where
  file path := if path = bytes "/a" then .ok (bytes "hi!\n") else .error 2
  names path := if path = bytes "/" then [bytes "a", bytes "b"] else []
  stat path :=
    if path = bytes "/a" then .ok ⟨1, 7, 0o100644, 1, 0, 0, 0, 4, 512, 1, 99⟩
    else if path = bytes "/b" then .ok ⟨1, 8, 0o040755, 2, 0, 0, 0, 0, 512, 0, 99⟩
    else .error 2
  cwd := bytes "/"
  cwd_abs := ⟨rfl, by decide⟩
  names_text := by
    intro path
    split
    · decide
    · nofun

/-- Nothing has been done. -/
def World.fresh : World := ⟨[], fun _ => none, fun _ => 0⟩

/-- **`cat`** prints its files one behind the other, however the kernel cuts them into pieces,
with a message for each that cannot be opened. An operand that does not resolve has its message
too. The budget of turns has to be enough for the pieces, which the hypothesis says. -/
theorem cat_shows {turns : Nat} {args : List Bytes} (hfits : CatFits fs turns args) (g : Globals)
    (w : World) :
    Shows fs w g (cmdCat turns args) (operandsText fs (bytes "cat")
      (bytes "cat: missing file operand (try 'help')") (catText fs) args) :=
  (prints_cmdCat hfits).shows

/-- `cat /a /c`, where the file comes in two pieces. -/
def catPieces : List (Prog.Event SysCall Answer) :=
  [(.sysOpen (bytes "/a") O_RDONLY, ⟨5, []⟩), (.read 5 BUF_LEN, ⟨1, bytes "h"⟩),
    (.write 1 (bytes "h"), ⟨1, []⟩), (.read 5 BUF_LEN, ⟨3, bytes "i!\n"⟩),
    (.write 1 (bytes "i!\n"), ⟨3, []⟩), (.read 5 BUF_LEN, ⟨0, []⟩), (.close 5, ⟨0, []⟩),
    (.sysOpen (bytes "/c") O_RDONLY, ⟨-3, []⟩), (.write 1 (bytes "osh: "), ⟨0, []⟩),
    (.write 1 (bytes "cat"), ⟨0, []⟩), (.write 1 (bytes ": "), ⟨0, []⟩),
    (.write 1 (errnoStr (-3)), ⟨0, []⟩), (.write 1 (bytes "\n"), ⟨0, []⟩)]

/-- A file that arrives in two reads is printed whole, and the file that is not there is reported
behind it. -/
theorem cat_shows_pieces : ((console twoNames).after World.fresh catPieces).out =
    bytes "hi!\nosh: cat: No such file or directory\n" := by
  have hfits : CatFits twoNames 5 [bytes "/a", bytes "/c"] := by
    intro arg _ abs _ content hfile
    simp only [twoNames] at hfile
    split at hfile
    · cases hfile
      decide +kernel
    · cases hfile
  have hshows := cat_shows hfits Globals.init World.fresh
  rw [(hshows.returns catPieces (by decide +kernel) (by decide +kernel)).2]
  decide +kernel

/-- **`stat`** shows each field of the record that the kernel has for its first operand. The
record is encoded into the buffer with its fields at the offsets of the kernel's layout, and what
is printed are the fields at the offsets that the command reads. -/
theorem stat_shows (fs : Fs) (args : List Bytes) (g : Globals) (w : World) :
    Shows fs w g (cmdStat args) (statOutput fs args) :=
  (prints_cmdStat args).shows

/-- What `stat /a` writes, one piece after the other. -/
def statTexts : List Bytes :=
  [bytes "  File: ", bytes "/a", bytes "\n", bytes "  Size: ", bytes "4", bytes "       Type: ",
    bytes "regular file", bytes "\n", bytes "  Inode: ", bytes "7", bytes "       Links: ", bytes "1",
    bytes "\n", bytes "  Device: ", bytes "0x", bytes "1", bytes "   Rdev: ", bytes "0x", bytes "0",
    bytes "\n", bytes "  Mode: ", bytes "0x", bytes "81a4", bytes "   Uid: ", bytes "0",
    bytes "   Gid: ", bytes "0", bytes "\n", bytes "  Blksize: ", bytes "512", bytes "   Blocks: ",
    bytes "1", bytes "\n", bytes "  Mtime: ", bytes "99", bytes " (epoch seconds)", bytes "\n"]

/-- `stat /a`: the record of the file, and then only output. -/
def statEvents : List (Prog.Event SysCall Answer) :=
  (.stat (bytes "/a"), ⟨0, Stat.encode ⟨1, 7, 0o100644, 1, 0, 0, 0, 4, 512, 1, 99⟩⟩) ::
    statTexts.map fun t => (.write 1 t, ⟨0, []⟩)

/-- The output of `stat /a`, field by field, for a file with a known record. -/
theorem stat_shows_file : ((console twoNames).after World.fresh statEvents).out =
    bytes "  File: /a\n  Size: 4       Type: regular file\n  Inode: 7       Links: 1\n" ++
      bytes "  Device: 0x1   Rdev: 0x0\n  Mode: 0x81a4   Uid: 0   Gid: 0\n" ++
      bytes "  Blksize: 512   Blocks: 1\n  Mtime: 99 (epoch seconds)\n" := by
  have hshows := stat_shows twoNames [bytes "/a"] Globals.init World.fresh
  rw [(hshows.returns statEvents (by decide +kernel) (by decide +kernel)).2]
  decide +kernel

end OnyxShell.Process
