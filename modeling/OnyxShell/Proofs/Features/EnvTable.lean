import OnyxShell.Features.EnvTable
import OnyxShell.Lib.LiveRows

/-!
# `OnyxShell.Proofs.Features.EnvTable`: the arrays are a list of entries

`toEnv` forgets what is behind the lengths and behind the live rows. `toEnv_set` and
`toEnv_unset` say that the two calls then do what `Env.set` and `Env.unset` do to the list.

The loops over the arrays are those of `LiveRows`, so that what is proved here is what a write to
a key or a value array does to one row.
-/

set_option autoImplicit false

namespace OnyxShell

/-- What has been stored in a row is its slice. -/
theorem Row.slice_store {n : Nat} (row : Row n) {src : Bytes} (hfit : src.length < n)
    (hbyte : n ≤ 256) : (row.store src).slice (UInt8.ofNat src.length) = src := by
  have hlen : (UInt8.ofNat src.length).toNat = src.length := by
    rw [UInt8.toNat_ofNat']
    exact Nat.mod_eq_of_lt (by omega)
  rw [slice, store, hlen, Vector.toList_ofFn]
  apply List.ext_getElem?
  intro i
  rw [List.getElem?_take, List.getElem?_ofFn]
  by_cases hi : i < src.length
  · have hn : i < n := Nat.lt_trans hi hfit
    rw [if_pos hi, dif_pos hn, List.getElem?_eq_getElem hi]
    simp only [hi, dite_true]
  · rw [if_neg hi, List.getElem?_eq_none (Nat.le_of_not_lt hi)]

namespace EnvTable

variable {t : EnvTable}

/-- The entry in a row. -/
def slot (t : EnvTable) (i : Fin ENV_MAX) : Bytes × Bytes := (t.key i, t.val i)

/-! ### The rows -/

/-- Writing a value changes one slot and leaves its name. -/
theorem slot_setVal (t : EnvTable) (i k : Fin ENV_MAX) (val : Bytes) :
    (t.setVal i val).slot k = if k = i then (t.key i, Env.cutValue val) else t.slot k := by
  have hfit := Env.length_cutValue_lt val
  by_cases hk : k = i
  · rw [if_pos hk, hk]
    have hval : (t.setVal i val).val i = Env.cutValue val := by
      have hrow : (t.setVal i val).val i =
          (t.vals[i].store (Env.cutValue val)).slice (UInt8.ofNat (Env.cutValue val).length) := by
        simp [setVal, EnvTable.val]
      rw [hrow, Row.slice_store _ hfit (by decide)]
    exact congrArg (Prod.mk (t.key i)) hval
  · rw [if_neg hk]
    have hne : i.val ≠ k.val := fun h => hk (Fin.ext h.symm)
    have hval : (t.setVal i val).val k = t.val k := by
      simp [setVal, EnvTable.val, hne]
    exact congrArg (Prod.mk (t.key k)) hval

/-- Writing a name changes one slot and leaves its value. -/
theorem slot_setKey (t : EnvTable) (i k : Fin ENV_MAX) (key : Bytes) :
    (t.setKey i key).slot k
      = if k = i then (key.take (ENV_KEY_MAX - 1), t.val i) else t.slot k := by
  have hfit := length_cutKey_lt key
  by_cases hk : k = i
  · rw [if_pos hk, hk]
    have hkey : (t.setKey i key).key i = key.take (ENV_KEY_MAX - 1) := by
      have hrow : (t.setKey i key).key i = (t.keys[i].store (key.take (ENV_KEY_MAX - 1))).slice
          (UInt8.ofNat (key.take (ENV_KEY_MAX - 1)).length) := by
        simp [setKey, EnvTable.key]
      rw [hrow, Row.slice_store _ hfit (by decide)]
    exact congrArg (Prod.mk · (t.val i)) hkey
  · rw [if_neg hk]
    have hne : i.val ≠ k.val := fun h => hk (Fin.ext h.symm)
    have hkey : (t.setKey i key).key k = t.key k := by
      simp [setKey, EnvTable.key, hne]
    exact congrArg (Prod.mk · (t.val k)) hkey

/-- Moving a row down copies it over the one before. -/
theorem slot_moveDown (t : EnvTable) (j : Nat) (h : j + 1 < ENV_MAX) (k : Fin ENV_MAX) :
    (t.moveDown j h).slot k = if k.val = j then t.slot ⟨j + 1, h⟩ else t.slot k := by
  by_cases hk : k.val = j
  · subst hk
    rw [if_pos rfl]
    simp [slot, moveDown, EnvTable.key, EnvTable.val]
  · rw [if_neg hk]
    have hne : j ≠ k.val := fun h => hk h.symm
    simp [slot, moveDown, EnvTable.key, EnvTable.val, hne]

/-- The four arrays as one table. Its loops are those of `env.rs`. -/
def rows : LiveRows.Rows EnvTable (Bytes × Bytes) ENV_MAX := ⟨slot, moveDown, slot_moveDown⟩

/-- The loop that closes a gap is the general one for tables of rows. -/
theorem shiftFrom_eq (t : EnvTable) (j : Nat) : t.shiftFrom j = rows.shift t.count_le t j := by
  fun_induction shiftFrom t j with
  | case1 t j h ih =>
    rw [LiveRows.Rows.shift, dif_pos h]
    exact ih
  | case2 t j h => rw [LiveRows.Rows.shift, dif_neg h]

/-- The loop that looks for a name is the general one too. -/
theorem findFrom_eq (t : EnvTable) (key : Bytes) (i : Nat) :
    t.findFrom key i = rows.findFrom t.count_le (·.1 = key) t i := by
  fun_induction findFrom t key i with
  | case1 i h row hkey =>
    rw [LiveRows.Rows.findFrom, dif_pos h]
    exact (if_pos (decide_eq_true hkey)).symm
  | case2 i h row hkey ih =>
    rw [LiveRows.Rows.findFrom, dif_pos h, ih]
    exact (if_neg (fun heq => hkey (of_decide_eq_true heq))).symm
  | case3 i h => rw [LiveRows.Rows.findFrom, dif_neg h]

/-- Closing a gap leaves the counter. Its caller lowers it. -/
theorem count_shiftFrom (t : EnvTable) (j : Nat) : (t.shiftFrom j).count = t.count := by
  rw [shiftFrom_eq]
  exact rows.shift_frame t.count_le EnvTable.count (fun _ _ _ => rfl) t j

/-! ### The live rows -/

/-- There are as many entries as the counter says. -/
theorem length_live (t : EnvTable) : t.live.length = t.count := List.length_ofFn

/-- An entry below the counter is the slot there. -/
theorem getElem?_live (t : EnvTable) {n : Nat} (h : n < t.count) :
    t.live[n]? = some (t.slot ⟨n, Nat.lt_of_lt_of_le h t.count_le⟩) :=
  rows.getElem?_live t.count_le h

/-- A new variable is the last of the entries, with its name and value cut to their rows. -/
theorem live_append (t : EnvTable) (h : t.count < ENV_MAX) (key val : Bytes) :
    (t.append h key val).live
      = t.live ++ [(key.take (ENV_KEY_MAX - 1), Env.cutValue val)] := by
  have hslot : ∀ k, (t.append h key val).slot k =
      if k = ⟨t.count, h⟩ then (key.take (ENV_KEY_MAX - 1), Env.cutValue val) else t.slot k := by
    intro k
    have hval := slot_setVal (t.setKey ⟨t.count, h⟩ key) ⟨t.count, h⟩ k val
    have hkey := slot_setKey t ⟨t.count, h⟩ ⟨t.count, h⟩ key
    rw [if_pos rfl] at hkey
    have hfst : (t.setKey ⟨t.count, h⟩ key).key ⟨t.count, h⟩ = key.take (ENV_KEY_MAX - 1) :=
      congrArg Prod.fst hkey
    show ((t.setKey ⟨t.count, h⟩ key).setVal ⟨t.count, h⟩ val).slot k = _
    rw [hval, hfst, slot_setKey]
    split
    · rfl
    · rfl
  have hold : ∀ k : Fin ENV_MAX, k.val < t.count → (t.append h key val).slot k = t.slot k := by
    intro k hk
    rw [hslot, if_neg fun heq => Nat.ne_of_lt hk (congrArg Fin.val heq)]
  have hnew : (t.append h key val).slot ⟨t.count, h⟩
      = (key.take (ENV_KEY_MAX - 1), Env.cutValue val) := by
    rw [hslot, if_pos rfl]
  rw [← hnew]
  exact rows.live_append h hold

/-- A key that is found has its row taken out. -/
theorem live_removeRow {key : Bytes} {i : Fin ENV_MAX} (h : t.findFrom key 0 = some i) :
    (t.removeRow i).live = t.live.eraseP fun e => e.1 = key := by
  rw [findFrom_eq] at h
  have hcount : (t.removeRow i).count = t.count - 1 := congrArg (· - 1) (count_shiftFrom t i)
  have hle : t.count - 1 ≤ ENV_MAX := Nat.le_trans (Nat.sub_le _ _) t.count_le
  show rows.live (t.removeRow i).count_le (t.shiftFrom i) = _
  rw [rows.live_count _ hcount hle, shiftFrom_eq]
  exact rows.live_shift_of_findFrom t.count_le h hle

/-- A key that is found has its value replaced. -/
theorem live_setVal {key : Bytes} {i : Fin ENV_MAX} (h : t.findFrom key 0 = some i) (val : Bytes) :
    (t.setVal i val).live
      = t.live.modify (t.live.findIdx fun e => e.1 = key) fun e => (e.1, Env.cutValue val) := by
  rw [findFrom_eq] at h
  apply rows.live_modify_of_findFrom t.count_le h
  intro k
  show (t.setVal i val).slot k = if k = i then ((t.slot k).1, Env.cutValue val) else t.slot k
  rw [slot_setVal]
  split
  next hk =>
    rw [hk]
    rfl
  next => rfl

/-- An entry is in a slot below the counter. -/
theorem mem_live {e : Bytes × Bytes} (h : e ∈ t.live) :
    ∃ k : Fin ENV_MAX, k.val < t.count ∧ t.slot k = e := by
  rcases List.mem_ofFn.mp h with ⟨i, rfl⟩
  exact ⟨i.castLE t.count_le, i.isLt, rfl⟩

/-! ### The list -/

/-- The bytes of a row that count are no more than its length byte says. -/
theorem length_slice_le {n : Nat} (row : Row n) (len : UInt8) : (row.slice len).length ≤ len.toNat :=
  List.length_take_le _ _

/-- The live entries as the list-level environment. -/
def toEnv (t : EnvTable) : Env where
  entries := t.live
  length_le := by
    rw [length_live]
    exact t.count_le
  fits := by
    intro e he
    rcases mem_live he with ⟨k, -, rfl⟩
    constructor
    · exact Nat.lt_of_le_of_lt (length_slice_le _ _) (t.keyLen_lt _ (Vector.getElem_mem k.isLt))
    · exact Nat.lt_of_le_of_lt (length_slice_le _ _) (t.valLen_lt _ (Vector.getElem_mem k.isLt))

/-- `env_get` reads the list. -/
theorem get_toEnv (t : EnvTable) (key : Bytes) : t.toEnv.get key = t.get key := by
  rw [Env.get, get, findFrom_eq]
  show ((rows.live t.count_le t).find? fun e => e.1 = key).map Prod.snd = _
  rw [← rows.map_row_findFrom t.count_le, Option.map_map]
  rfl

end EnvTable

/-- Replacing a value at the first entry of that name. -/
theorem Env.replaceValue_split {key val w : Bytes} {front back : List (Bytes × Bytes)}
    (h : ∀ e ∈ front, e.1 ≠ key) :
    Env.replaceValue key val (front ++ (key, w) :: back) = front ++ (key, val) :: back := by
  induction front with
  | nil => rw [List.nil_append, Env.replaceValue, if_pos rfl, List.nil_append]
  | cons e front ih =>
    rw [List.cons_append, Env.replaceValue, if_neg (h e List.mem_cons_self),
      ih fun e he => h e (List.mem_cons_of_mem _ he), List.cons_append]

/-- Replacing a value is changing the entry at the index that the search gives. -/
theorem Env.replaceValue_eq_modify (key val : Bytes) (entries : List (Bytes × Bytes)) :
    Env.replaceValue key val entries
      = entries.modify (entries.findIdx fun e => e.1 = key) fun e => (e.1, val) := by
  fun_induction Env.replaceValue key val entries with
  | case1 => rfl
  | case2 e rest h =>
    rw [List.findIdx_cons, decide_eq_true h]
    rfl
  | case3 e rest h ih =>
    rw [List.findIdx_cons, decide_eq_false h, ih]
    rfl

/-- An environment is its entries. -/
theorem Env.eq_of_entries {e e' : Env} (h : e.entries = e'.entries) : e = e' := by
  cases e
  cases e'
  cases h
  rfl

namespace EnvTable

/-- **`env_set` changes the list as `Env.set` does.** -/
theorem toEnv_set (t : EnvTable) (key val : Bytes) : (t.set key val).toEnv = t.toEnv.set key val := by
  apply Env.eq_of_entries
  have hget := get_toEnv t key
  rw [set, Env.set, hget, get]
  by_cases hkey : key = []
  · rw [if_pos hkey, if_pos hkey]
  · rw [if_neg hkey, if_neg hkey]
    cases hfind : t.findFrom key 0 with
    | none =>
      have hlen : t.toEnv.entries.length = t.count := length_live t
      simp only [Option.map_none, Option.isSome_none, Bool.false_eq_true, if_false]
      by_cases hfull : t.count ≥ ENV_MAX
      · rw [dif_pos hfull, dif_pos (by rw [hlen]; exact hfull)]
      · rw [dif_neg hfull, dif_neg (by rw [hlen]; exact hfull)]
        exact live_append t (Nat.lt_of_not_le hfull) key val
    | some j =>
      simp only [Option.map_some, Option.isSome_some, if_true]
      show (t.setVal j val).live = Env.replaceValue key (Env.cutValue val) t.live
      rw [live_setVal hfind, Env.replaceValue_eq_modify]

/-- **`env_unset` changes the list as `Env.unset` does.** -/
theorem toEnv_unset (t : EnvTable) (key : Bytes) : (t.unset key).toEnv = t.toEnv.unset key := by
  apply Env.eq_of_entries
  have hentries : (t.toEnv.unset key).entries = t.live.eraseP fun e => e.1 = key := rfl
  rw [hentries, unset]
  cases hfind : t.findFrom key 0 with
  | none =>
    rw [findFrom_eq] at hfind
    exact (rows.eraseP_live_of_findFrom t.count_le hfind).symm
  | some j => exact live_removeRow hfind

end EnvTable

end OnyxShell
