import OnyxShell.Features.EnvMap
import OnyxShell.Proofs.Features.EnvTable

/-!
# `OnyxShell.Proofs.Features.EnvMap`: where the environment is a map

`live_run`: with keys that fit their rows, the arrays are the ordered map, through every
order of calls. `isMap_run_iff`: with any keys, they are a map through a run exactly when
no key is cut to one that is there.

One call cuts its key to 63 bytes when it stores it, and compares the whole of it when it looks.
Both results are about the calls of a run one after the other, with a step lemma each.
-/

set_option autoImplicit false

namespace OnyxShell

/-! ### One call on the list -/

namespace Env

/-- `get` is the lookup in an association list. -/
theorem get_eq_lookup (e : Env) (key : Bytes) : e.get key = e.entries.lookup key := by
  rw [get]
  induction e.entries with
  | nil => rfl
  | cons entry rest ih =>
    by_cases h : entry.1 = key
    · rw [List.find?_cons_of_pos (by simp [h]), ← h]
      exact (List.lookup_cons_self).symm
    · rw [List.find?_cons_of_neg (by simp [h]), ih, List.lookup_cons]
      have hne : (key == entry.1) = false := beq_eq_false_iff_ne.mpr (Ne.symm h)
      rw [hne]

/-- A variable is set if and only if its name is among the keys. -/
theorem get_isSome_iff (e : Env) (key : Bytes) :
    (e.get key).isSome = true ↔ key ∈ AssocList.keys e.entries := by
  rw [get, Option.isSome_map, List.find?_isSome, AssocList.keys, List.mem_map]
  constructor
  · rintro ⟨entry, he, hkey⟩
    exact ⟨entry, he, of_decide_eq_true hkey⟩
  · rintro ⟨entry, he, hkey⟩
    exact ⟨entry, he, decide_eq_true hkey⟩

/-- A list with the key, around its first entry. -/
theorem split_of_mem {key : Bytes} {entries : List (Bytes × Bytes)}
    (h : key ∈ AssocList.keys entries) :
    ∃ front back w, entries = front ++ (key, w) :: back ∧ ∀ e ∈ front, e.1 ≠ key := by
  have hsome : (entries.lookup key).isSome = true := by
    rcases List.mem_map.mp h with ⟨entry, hentry, hkey⟩
    exact List.lookup_isSome_iff.mpr ⟨entry, hentry, beq_iff_eq.mpr hkey.symm⟩
  rcases Option.isSome_iff_exists.mp hsome with ⟨w, hw⟩
  rcases List.lookup_eq_some_iff.mp hw with ⟨front, back, hsplit, hfront⟩
  exact ⟨front, back, w, hsplit, fun e he => Ne.symm (bne_iff_ne.mp (hfront e he))⟩

/-- What `env_set` does to the entries. -/
theorem entries_set (e : Env) (key val : Bytes) :
    (e.set key val).entries =
      if key = [] then e.entries
      else if key ∈ AssocList.keys e.entries then replaceValue key (cutValue val) e.entries
      else if e.entries.length < ENV_MAX then
        e.entries ++ [(key.take (ENV_KEY_MAX - 1), cutValue val)]
      else e.entries := by
  rw [set]
  by_cases hempty : key = []
  · rw [if_pos hempty, if_pos hempty]
  · rw [if_neg hempty, if_neg hempty]
    by_cases hin : key ∈ AssocList.keys e.entries
    · rw [if_pos ((get_isSome_iff e key).mpr hin), if_pos hin]
    · rw [if_neg (fun h => hin ((get_isSome_iff e key).mp h)), if_neg hin]
      by_cases hfull : e.entries.length ≥ ENV_MAX
      · rw [dif_pos hfull, if_neg (by omega)]
      · rw [dif_neg hfull, if_pos (by omega)]

/-- With distinct keys, a call with a key that fits is one on the map. -/
theorem entries_set_eq_mapStep {e : Env} (hnodup : (AssocList.keys e.entries).Nodup) {key : Bytes}
    (hkey : key.length < ENV_KEY_MAX) (val : Bytes) :
    (e.set key val).entries = mapStep e.entries (.set key val) := by
  rw [entries_set, mapStep, AssocList.put, List.take_of_length_le (by omega)]
  split
  · rfl
  · split
    · rename_i hin
      rcases split_of_mem hin with ⟨front, back, w, hsplit, hfront⟩
      rw [hsplit] at hnodup ⊢
      rw [replaceValue_split hfront, AssocList.replace_split hnodup, cutValue]
    · rfl

/-- `unset` removes the one entry of the name. That there is only one is the hypothesis. -/
theorem entries_unset_eq_mapStep {e : Env} (hnodup : (AssocList.keys e.entries).Nodup)
    (key : Bytes) :
    (e.unset key).entries = mapStep e.entries (.unset key) := by
  show e.entries.eraseP _ = AssocList.remove key e.entries
  by_cases hin : key ∈ AssocList.keys e.entries
  · rcases split_of_mem hin with ⟨front, back, w, hsplit, hfront⟩
    rw [hsplit] at hnodup ⊢
    rw [AssocList.remove_split hnodup,
      List.eraseP_append_right _ fun e he h => hfront e he (of_decide_eq_true h),
      List.eraseP_cons_of_pos (by simp)]
  · rw [AssocList.remove_of_notMem hin, List.eraseP_of_forall_not]
    intro entry he h
    exact hin (of_decide_eq_true h ▸ List.mem_map_of_mem he)

/-- Replacing a value leaves the names. -/
theorem keys_replaceValue (key val : Bytes) (entries : List (Bytes × Bytes)) :
    AssocList.keys (replaceValue key val entries) = AssocList.keys entries := by
  fun_induction replaceValue key val entries with
  | case1 => rfl
  | case2 => rfl
  | case3 entry rest h ih => exact congrArg (entry.1 :: ·) ih

/-- The keys behind `env_set`. -/
theorem keys_set (e : Env) (key val : Bytes) :
    AssocList.keys (e.set key val).entries =
      if key = [] ∨ key ∈ AssocList.keys e.entries ∨ ENV_MAX ≤ e.entries.length then
        AssocList.keys e.entries
      else AssocList.keys e.entries ++ [key.take (ENV_KEY_MAX - 1)] := by
  rw [entries_set]
  by_cases hempty : key = []
  · rw [if_pos hempty, if_pos (Or.inl hempty)]
  · by_cases hin : key ∈ AssocList.keys e.entries
    · rw [if_neg hempty, if_pos hin, if_pos (Or.inr (Or.inl hin)), keys_replaceValue]
    · by_cases hfull : ENV_MAX ≤ e.entries.length
      · rw [if_neg hempty, if_neg hin, if_neg (by omega), if_pos (Or.inr (Or.inr hfull))]
      · rw [if_neg hempty, if_neg hin, if_pos (by omega), if_neg (by tauto), AssocList.keys,
          List.map_append]
        rfl

end Env

/-! ### Runs with keys that fit -/

/-- Every call keeps the names distinct. -/
theorem nodup_keys_mapStep {entries : List (Bytes × Bytes)}
    (h : (AssocList.keys entries).Nodup) (call : EnvCall) :
    (AssocList.keys (mapStep entries call)).Nodup := by
  cases call with
  | set key val =>
    rw [mapStep]
    split
    · exact h
    · exact AssocList.nodup_put h
  | unset key => exact AssocList.nodup_remove h

namespace EnvTable

/-- One call on the arrays is one on the map. -/
theorem live_apply {t : EnvTable} (hnodup : t.liveKeys.Nodup) {call : EnvCall}
    (hkey : call.key.length ≤ 63) : (t.apply call).live = mapStep t.live call := by
  cases call with
  | set key val =>
    have hset : (t.toEnv.set key val).entries = mapStep t.live (.set key val) :=
      Env.entries_set_eq_mapStep (e := t.toEnv) hnodup (Nat.lt_succ_of_le hkey) val
    rw [← toEnv_set] at hset
    exact hset
  | unset key =>
    have hunset : (t.toEnv.unset key).entries = mapStep t.live (.unset key) :=
      Env.entries_unset_eq_mapStep (e := t.toEnv) hnodup key
    rw [← toEnv_unset] at hunset
    exact hunset

/-- A run on the arrays is one on the map. -/
theorem live_foldl {t : EnvTable} (hnodup : t.liveKeys.Nodup) {calls : List EnvCall}
    (hkeys : ∀ call ∈ calls, call.key.length ≤ 63) :
    (t.run calls).live = calls.foldl mapStep t.live := by
  induction calls generalizing t with
  | nil => rfl
  | cons call calls ih =>
    have hone := live_apply hnodup (hkeys call List.mem_cons_self)
    have hkept : (t.apply call).liveKeys.Nodup := by
      rw [liveKeys, hone]
      exact nodup_keys_mapStep hnodup call
    have hrest := ih hkept fun c hc => hkeys c (List.mem_cons_of_mem _ hc)
    rw [List.foldl_cons, ← hone]
    exact hrest

/-- The table starts with no entry. -/
theorem live_empty : empty.live = [] := rfl

end EnvTable

/-- **The arrays are the ordered map**, through every run of calls whose keys fit. `mapRun` is the
ordered map in its own terms. With keys that fit, cutting does nothing, and one call on the arrays
is one call on the map (`live_foldl`). -/
theorem live_run (calls : List EnvCall) (hkeys : ∀ call ∈ calls, call.key.length ≤ 63) :
    (EnvTable.empty.run calls).live = mapRun calls ∧
      ∀ key, (EnvTable.empty.run calls).get key = (mapRun calls).lookup key := by
  have hlive : (EnvTable.empty.run calls).live = mapRun calls :=
    EnvTable.live_foldl (t := EnvTable.empty) List.nodup_nil hkeys
  refine ⟨hlive, ?_⟩
  intro key
  rw [← EnvTable.get_toEnv, Env.get_eq_lookup, ← hlive]
  rfl

/-- A variable is set again to a shorter value and another is removed: the rows agree with the
map. -/
theorem live_run_overwrite :
    (EnvTable.empty.run [.set (bytes "A") (bytes "long"), .set (bytes "B") (bytes "b"),
        .set (bytes "A") (bytes "x"), .unset (bytes "B")]).live
      = mapRun [.set (bytes "A") (bytes "long"), .set (bytes "B") (bytes "b"),
        .set (bytes "A") (bytes "x"), .unset (bytes "B")] ∧
      ∀ key, (EnvTable.empty.run [.set (bytes "A") (bytes "long"), .set (bytes "B") (bytes "b"),
        .set (bytes "A") (bytes "x"), .unset (bytes "B")]).get key
      = (mapRun [.set (bytes "A") (bytes "long"), .set (bytes "B") (bytes "b"),
        .set (bytes "A") (bytes "x"), .unset (bytes "B")]).lookup key :=
  live_run _ (by decide)

/-! ### Runs with any keys -/

namespace EnvTable

variable {t : EnvTable}

/-- A name that is stored fits its row. -/
theorem length_of_mem_liveKeys {key : Bytes} (h : key ∈ t.liveKeys) : key.length < ENV_KEY_MAX := by
  rcases List.mem_map.mp h with ⟨e, he, rfl⟩
  exact (t.toEnv.fits e he).1

/-- The keys behind `env_set`. -/
theorem liveKeys_set (t : EnvTable) (key val : Bytes) :
    (t.set key val).liveKeys =
      if key = [] ∨ key ∈ t.liveKeys ∨ ENV_MAX ≤ t.count then t.liveKeys
      else t.liveKeys ++ [key.take (ENV_KEY_MAX - 1)] := by
  have hkeys := t.toEnv.keys_set key val
  rw [← toEnv_set] at hkeys
  rw [← length_live]
  exact hkeys

/-- **One call** keeps the keys apart unless it cuts one to a key that is there. -/
theorem nodup_apply_iff (h : t.liveKeys.Nodup) (call : EnvCall) :
    (t.apply call).liveKeys.Nodup ↔ t.KeepsKeys call := by
  cases call with
  | unset key =>
    -- A row less cannot make two keys equal.
    apply iff_of_true
    · have hunset : (t.toEnv.unset key).entries = mapStep t.live (.unset key) :=
        Env.entries_unset_eq_mapStep (e := t.toEnv) h key
      rw [← toEnv_unset] at hunset
      show (AssocList.keys (t.unset key).toEnv.entries).Nodup
      rw [hunset]
      exact AssocList.nodup_remove h
    · exact trivial
  | set key val =>
    show (t.set key val).liveKeys.Nodup ↔ _
    rw [liveKeys_set, KeepsKeys]
    by_cases hstay : key = [] ∨ key ∈ t.liveKeys ∨ ENV_MAX ≤ t.count
    · -- No row is added, and the keys are what they were.
      rw [if_pos hstay]
      apply iff_of_true h
      rcases hstay with rfl | hin | hfull
      · exact Or.inl (by decide)
      · exact Or.inl (length_of_mem_liveKeys hin)
      · exact Or.inr (Or.inr (Nat.le_antisymm t.count_le hfull))
    · -- A new row gets the key as far as it fits, and that may be a key there is.
      rw [if_neg hstay, List.nodup_append]
      have hnew : key ∉ t.liveKeys := fun hin => hstay (Or.inr (Or.inl hin))
      have hroom : ¬ t.count = ENV_MAX := fun heq => hstay (Or.inr (Or.inr (Nat.le_of_eq heq.symm)))
      constructor
      · rintro ⟨-, -, hne⟩
        refine Or.inr (Or.inl ?_)
        intro hin
        exact hne _ hin _ (List.mem_singleton_self _) rfl
      · intro hkeep
        have hcut : key.take (ENV_KEY_MAX - 1) ∉ t.liveKeys := by
          rcases hkeep with hfit | hcut | hfull
          · rw [List.take_of_length_le (by omega)]
            exact hnew
          · exact hcut
          · exact absurd hfull hroom
        refine ⟨h, List.nodup_singleton _, ?_⟩
        intro a ha b hb heq
        rw [heq, List.mem_singleton.mp hb] at ha
        exact hcut ha

/-! ### The exported names -/

/-- `export` takes what is before the first `=` as the key. -/
theorem notMem_exportCalls {args : List Bytes} {call : EnvCall} (h : call ∈ exportCalls args) :
    '='.toUInt8 ∉ call.key := by
  rcases List.mem_filterMap.mp h with ⟨a, -, hcall⟩
  cases heq : a.findIdx? (· == '='.toUInt8) with
  | none =>
    simp only [heq] at hcall
    cases hcall
  | some eq =>
    rcases List.findIdx?_eq_some_iff_getElem.mp heq with ⟨hlt, -, hfirst⟩
    simp only [heq] at hcall
    split at hcall
    · cases hcall
    · rw [← Option.some.inj hcall]
      intro hin
      rcases List.mem_take_iff_getElem.mp hin with ⟨n, hn, hbyte⟩
      have hne := hfirst n (Nat.lt_of_lt_of_le hn (Nat.min_le_left _ _))
      rw [hbyte] at hne
      exact hne (beq_self_eq_true _)

/-- A call brings no byte into the keys that its own key does not have. -/
theorem notMem_liveKeys_apply {b : UInt8} (h : ∀ key ∈ t.liveKeys, b ∉ key) {call : EnvCall}
    (hcall : b ∉ call.key) : ∀ key ∈ (t.apply call).liveKeys, b ∉ key := by
  cases call with
  | set key val =>
    show ∀ k ∈ (t.set key val).liveKeys, b ∉ k
    rw [liveKeys_set]
    split
    · exact h
    · intro k hk
      rcases List.mem_append.mp hk with hk | hk
      · exact h k hk
      · rw [List.mem_singleton.mp hk]
        exact fun hb => hcall (List.mem_of_mem_take hb)
  | unset key =>
    intro k hk
    rcases List.mem_map.mp hk with ⟨e, he, rfl⟩
    have hlive : (t.unset key).live = t.live.eraseP fun e => e.1 = key :=
      congrArg Env.entries (toEnv_unset t key)
    have he' : e ∈ (t.unset key).live := he
    rw [hlive] at he'
    exact h e.1 (List.mem_map_of_mem (List.mem_of_mem_eraseP he'))

/-- No key gets an `=` from `export`. -/
theorem notMem_liveKeys_cmdExport (h : ∀ key ∈ t.liveKeys, '='.toUInt8 ∉ key)
    (args : List Bytes) : ∀ key ∈ (cmdExport args t).1.liveKeys, '='.toUInt8 ∉ key := by
  have hrun : ∀ calls : List EnvCall, (∀ call ∈ calls, '='.toUInt8 ∉ call.key) →
      ∀ t : EnvTable, (∀ key ∈ t.liveKeys, '='.toUInt8 ∉ key) →
        ∀ key ∈ (t.run calls).liveKeys, '='.toUInt8 ∉ key := by
    intro calls hcalls
    induction calls with
    | nil => exact fun t h => h
    | cons call calls ih =>
      intro t h
      exact ih (fun c hc => hcalls c (List.mem_cons_of_mem _ hc)) (t.apply call)
        (notMem_liveKeys_apply h (hcalls call List.mem_cons_self))
  rw [cmdExport]
  split
  · exact h
  · exact hrun (exportCalls args) (fun _ => notMem_exportCalls) t h

/-- The name in a row is what stands before its first `=`. -/
theorem envName_row {key : Bytes} (h : '='.toUInt8 ∉ key) (rest : Bytes) :
    envName (key ++ '='.toUInt8 :: rest) = key := by
  rw [envName, List.takeWhile_append_of_pos, List.takeWhile_cons_of_neg (by simp),
    List.append_nil]
  intro b hb
  exact decide_eq_true fun heq => h (heq ▸ hb)

/-- `build_envp` writes one string for each entry, with `=` between and a NUL at the end. -/
theorem buildEnvp_eq (t : EnvTable) :
    t.buildEnvp = t.live.map fun e => e.1 ++ '='.toUInt8 :: (e.2 ++ [0]) := by
  rw [buildEnvp, live, List.map_ofFn]
  rfl

/-- Distinct keys are all it takes. -/
theorem isMap_iff_nodup : t.IsMap ↔ t.liveKeys.Nodup := by
  constructor
  · exact fun h => h.distinct
  · intro h
    refine ⟨h, ?_, ?_⟩
    · intro key
      have hunset : (t.toEnv.unset key).entries = AssocList.remove key t.live :=
        Env.entries_unset_eq_mapStep (e := t.toEnv) h key
      rw [← get_toEnv, Env.get_eq_lookup, toEnv_unset, hunset]
      exact AssocList.lookup_remove
    · intro hequals
      have hnames : t.buildEnvp.map envName = t.liveKeys := by
        rw [buildEnvp_eq, List.map_map, liveKeys, AssocList.keys]
        apply List.map_congr_left
        intro e he
        exact envName_row (hequals e.1 (List.mem_map_of_mem he)) _
      rw [hnames]
      exact h

/-- The empty table is a map. -/
theorem isMap_empty : empty.IsMap :=
  isMap_iff_nodup.mpr (by rw [liveKeys, live_empty]; exact List.nodup_nil)

/-- A run keeps the keys apart as long as each of its calls does. -/
theorem isMap_take_iff (h : t.IsMap) (calls : List EnvCall) :
    (∀ n, (t.run (calls.take n)).IsMap) ↔ t.RunKeepsKeys calls := by
  induction calls generalizing t with
  | nil =>
    apply iff_of_true
    · intro n
      rw [List.take_nil]
      exact h
    · exact trivial
  | cons call calls ih =>
    rw [RunKeepsKeys, ← nodup_apply_iff h.distinct]
    constructor
    · intro hrun
      have hone : (t.apply call).IsMap := hrun 1
      exact ⟨hone.distinct, (ih hone).mp fun n => hrun (n + 1)⟩
    · rintro ⟨hone, hrest⟩ n
      cases n with
      | zero => exact h
      | succ n => exact (ih (isMap_iff_nodup.mpr hone)).mpr hrest n

end EnvTable

/-- **The environment is a map** in every state of a run exactly when no call of the run cuts a
key to one that is there. A key is compared whole and stored cut to 63 bytes. `RunKeepsKeys` looks
at each call before it is made, in the table that the calls before it have left. -/
theorem isMap_run_iff (calls : List EnvCall) :
    (∀ n, (EnvTable.empty.run (calls.take n)).IsMap) ↔ EnvTable.empty.RunKeepsKeys calls :=
  EnvTable.isMap_take_iff EnvTable.isMap_empty calls

/-- A key of 64 bytes is not found again, and gets a second row. -/
theorem not_isMap_long_key :
    ¬ (EnvTable.empty.run [.set (List.replicate 64 'K'.toUInt8) (bytes "a"),
      .set (List.replicate 64 'K'.toUInt8) (bytes "b")]).IsMap := by
  intro h
  have hdistinct := h.distinct
  revert hdistinct
  decide +kernel

end OnyxShell
