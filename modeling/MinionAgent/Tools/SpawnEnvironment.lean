import MinionAgent.Execution.Environment

/-!
# MinionAgent.Tools.SpawnEnvironment

The environment that a tool composes for a spawn (`tools/builtin/environment.py`
and `tools/builtin/environment.rs`): Node's view of the snapshot, without the
removed names, with the injected ones, and on Windows one name of each class.

* `Composed` — what the composed map is, of the native environment;
* `composed_compose`, `composed_rustCompose` — both bindings compose it from
  every snapshot that holds the native entries;
* `composedAlike_iff` — and when their local providers' snapshots do.
-/

namespace MinionAgent

namespace Environment

/-- A map of names to values. -/
abbrev EnvMap : Type := FiniteMap (List Char) (List Char)

/-! ## The composed environment -/

/-- The bytes of the native entries: on Windows, generalized UTF-8. -/
def NativeEnv.bytes : NativeEnv → List (List UInt8 × List UInt8)
  | posix entries .. => entries
  | windows entries .. => entries.map fun e => (wtf8 (decode16 e.1), wtf8 (decode16 e.2))

/-- The names that are valid Unicode, with their values decoded with
replacement. -/
def visible (entries : List (List UInt8 × List UInt8)) : List (List Char × List Char) :=
  entries.filterMap fun e => (decodeStrict e.1).map (·, decodeUtf8 e.2)

/-- A name has this value after the removals and the injections. -/
def Merged (env : NativeEnv) (remove : List (List Char)) (inject : EnvMap) (name value : List Char) : Prop :=
  inject.lookup name = some value ∨ inject.lookup name = none ∧ name ∉ remove ∧ (name, value) ∈ visible env.bytes

/-- The order of names by their UTF-16 units. -/
def utf16Key (name : List Char) : List Nat := (encodeUtf16 name).map UInt16.toNat

/-- A map is the environment composed for a spawn: on Windows, each name is the
first of those with its upper case. -/
def Composed (upper : List Char → List Char) (env : NativeEnv) (remove : List (List Char))
    (inject map : EnvMap) : Prop :=
  ∀ name value, map.lookup name = some value ↔
    Merged env remove inject name value ∧
      (env.platform = .windows → ∀ other otherValue, Merged env remove inject other otherValue →
        upper other = upper name → utf16Key name ≤ utf16Key other)

theorem Composed.unique {upper : List Char → List Char} {env : NativeEnv} {remove : List (List Char)}
    {inject map map' : EnvMap} (h : Composed upper env remove inject map) (h' : Composed upper env remove inject map')
    (name : List Char) : map.lookup name = map'.lookup name :=
  Option.ext fun value => (h name value).trans (h' name value).symm

/-! ## Python -/

/-- `_native_bytes`. -/
def nativeBytes (text : PyText) : Platform → Option (List UInt8)
  | .posix => fsencode text
  | .windows => some (wtf8 (decode16 (Utf16.toUnits text)))

/-- The loop of `node_environment_view`. -/
def viewEntries (platform : Platform) : List (PyText × PyText) → EnvMap → Option EnvMap
  | [], view => some view
  | (name, value) :: entries, view =>
    match nativeBytes name platform with
    | none => none
    | some name =>
      match decodeStrict name with
      | none => viewEntries platform entries view
      | some decodedName =>
        match nativeBytes value platform with
        | none => none
        | some value => viewEntries platform entries (view.insert decodedName (decodeUtf8 value))

/-- `node_environment_view`. -/
def nodeEnvironmentView (snapshot : EnvSnapshot) : Option EnvMap := viewEntries snapshot.platform snapshot.entries ∅

/-- `_utf16_units`, the bytes of a name in UTF-16 with the high byte first. -/
def utf16BeKey (name : List Char) : List Nat :=
  (encodeUtf16 name).flatMap fun unit => [unit.toNat / 0x100, unit.toNat % 0x100]

/-- The loop of `windows_spawn_environment`: the first name of each upper case. -/
def choose (upper : List Char → List Char) (chosen : EnvMap) : List (List Char) → EnvMap
  | [] => chosen
  | name :: names =>
    choose upper (if upper name ∈ chosen then chosen else chosen.insert (upper name) name) names

/-- `windows_spawn_environment`. -/
def windowsSpawnEnvironment (upper : List Char → List Char) (env : EnvMap) : EnvMap :=
  let chosen := choose upper ∅ (FiniteMap.sortBy utf16BeKey env.keys)
  FiniteMap.pick env (FiniteMap.sortBy utf16BeKey (chosen.items.map Prod.snd))

/-- `env.pop(name, None)` for each name. -/
def removeNames (env : EnvMap) (remove : List (List Char)) : EnvMap := remove.foldl (fun env name => env.erase name) env

/-- `compose_spawn_environment`. -/
def composeSpawnEnvironment (upper : List Char → List Char) (snapshot : EnvSnapshot) (remove : List (List Char))
    (inject : EnvMap) : Option EnvMap :=
  match nodeEnvironmentView snapshot with
  | none => none
  | some view =>
    let env := (removeNames view remove).update inject.items
    match snapshot.platform with
    | .windows => some (windowsSpawnEnvironment upper env)
    | .posix => some env

/-! ## Rust -/

/-- `generalized_utf8`. -/
def generalizedUtf8 (units : List UInt16) : List UInt8 :=
  (decode16 units).flatMap fun c =>
    match scalar? c with
    | some ch => String.utf8EncodeChar ch
    | none =>
      let unit : UInt16 := c.val.toUInt16
      [(0xE0 : UInt8) ||| (unit >>> 12).toUInt8, (0x80 : UInt8) ||| ((unit >>> 6) &&& 63).toUInt8,
        (0x80 : UInt8) ||| (unit &&& 63).toUInt8]

/-- The bytes of the entries of a snapshot. -/
def EnvEntries.pairs : EnvEntries → List (List UInt8 × List UInt8)
  | posix entries => entries
  | windows entries => entries.map fun e => (generalizedUtf8 e.1, generalizedUtf8 e.2)

/-- `EnvSnapshot::platform`. -/
def EnvEntries.platform : EnvEntries → Platform
  | posix _ => .posix
  | windows _ => .windows

/-- `node_environment_view`. -/
def rustNodeEnvironmentView (snapshot : EnvEntries) : EnvMap := FiniteMap.update ∅ (visible snapshot.pairs)

/-- The loop of `windows_spawn_environment`; `none` is the panic of `env[name]`. -/
def spawnLoop (upper : List Char → List Char) (env : EnvMap) (chosen : List (List Char)) (output : EnvMap) :
    List (List Char) → Option EnvMap
  | [] => some output
  | name :: names =>
    if upper name ∈ chosen then spawnLoop upper env chosen output names
    else
      match env.lookup name with
      | none => none
      | some value => spawnLoop upper env (upper name :: chosen) (output.insert name value) names

/-- `windows_spawn_environment`. -/
def rustWindowsSpawnEnvironment (upper : List Char → List Char) (env : EnvMap) : Option EnvMap :=
  spawnLoop upper env [] ∅ (FiniteMap.sortBy utf16Key ((iter env).map Prod.fst))

/-- `compose_spawn_environment`. -/
def rustComposeSpawnEnvironment (upper : List Char → List Char) (snapshot : EnvEntries) (remove : List (List Char))
    (inject : EnvMap) : Option EnvMap :=
  let env := (removeNames (rustNodeEnvironmentView snapshot) remove).update (iter inject)
  match snapshot.platform with
  | .windows => rustWindowsSpawnEnvironment upper env
  | .posix => some env

/-! ## The merged map -/

theorem visible_names (entries : List (List UInt8 × List UInt8)) :
    (visible entries).map Prod.fst = (entries.map Prod.fst).filterMap decodeStrict := by
  rw [visible, List.map_filterMap, List.filterMap_map]
  refine List.filterMap_congr fun e _ => ?_
  rw [Option.map_map, Function.comp_apply]
  exact Option.map_id'

/-- Distinct native names that are valid Unicode are distinct texts. -/
theorem visible_bytes_nodup (env : NativeEnv) : ((visible env.bytes).map Prod.fst).Nodup := by
  rw [visible_names]
  cases env with
  | posix entries distinct named =>
    refine distinct.filterMap fun a a' text ha ha' => ?_
    exact (decodeStrict_eq_some.mp ha).trans (decodeStrict_eq_some.mp ha').symm
  | windows entries distinct named nonNul =>
    have hnames : (NativeEnv.windows entries distinct named nonNul).bytes.map Prod.fst =
        (entries.map Prod.fst).map fun units => wtf8 (decode16 units) := by
      simp [NativeEnv.bytes]
    rw [hnames, List.filterMap_map]
    refine distinct.filterMap fun a a' text ha ha' => ?_
    rw [Function.comp_apply, decodeStrict_wtf8] at ha ha'
    exact (scalars?_decode16.mp ha).trans (scalars?_decode16.mp ha').symm

theorem lookup_removeNames (env : EnvMap) (remove : List (List Char)) (name : List Char) :
    (removeNames env remove).lookup name = if name ∈ remove then none else env.lookup name := by
  induction remove generalizing env with
  | nil => simp [removeNames]
  | cons removed remove ih =>
    show (removeNames (env.erase removed) remove).lookup name = _
    rw [ih]
    by_cases heq : name = removed
    · subst heq
      simp [AList.lookup_erase]
    · simp [heq, AList.lookup_erase_ne heq]

/-- The view without the removed names and with the injected ones. -/
theorem lookup_merged {env : NativeEnv} {entries : List (List Char × List Char)}
    (hentries : entries.Perm (visible env.bytes)) (remove : List (List Char)) (inject : EnvMap)
    {injected : List (List Char × List Char)} (hinjected : injected.Perm inject.items) (name value : List Char) :
    ((removeNames (FiniteMap.update ∅ entries) remove).update injected).lookup name = some value ↔
      Merged env remove inject name value := by
  have hnodup := (hentries.map Prod.fst).nodup_iff.mpr (visible_bytes_nodup env)
  have hinjectedNodup := (hinjected.map Prod.fst).nodup_iff.mpr (FiniteMap.items_keys_nodup inject)
  have hkeys : name ∈ injected.map Prod.fst ↔ inject.lookup name ≠ none := by
    rw [(hinjected.map Prod.fst).mem_iff, FiniteMap.items_keys, ← AList.mem_keys, Ne, AList.lookup_eq_none, not_not]
  rw [FiniteMap.lookup_update hinjectedNodup, hinjected.mem_iff, FiniteMap.mem_items, hkeys, not_not,
    lookup_removeNames, Merged]
  by_cases hremove : name ∈ remove
  · simp [hremove]
  · rw [if_neg hremove, FiniteMap.lookup_update hnodup, hentries.mem_iff]
    simp [hremove]

/-! ## The order of the names -/

theorem encodeUtf16_injective : Function.Injective encodeUtf16 := by
  intro name name' h
  have hname := @scalars?_decode16 (encodeUtf16 name) name'
  rw [h] at hname
  have hname' := (@scalars?_decode16 (encodeUtf16 name') name).mpr h.symm
  exact Option.some.inj (hname'.symm.trans (hname.mpr rfl))

theorem utf16Key_injective : Function.Injective utf16Key := by
  intro name name' h
  exact encodeUtf16_injective (List.map_injective_iff.mpr (fun _ _ => UInt16.toNat_inj.mp) h)

/-- The bytes of units, the high one first, are in the order of the units. -/
theorem bytes_lt_iff (units units' : List UInt16) :
    (units.flatMap fun unit => [unit.toNat / 0x100, unit.toNat % 0x100]) <
        (units'.flatMap fun unit => [unit.toNat / 0x100, unit.toNat % 0x100]) ↔
      units.map UInt16.toNat < units'.map UInt16.toNat := by
  induction units generalizing units' with
  | nil => cases units' <;> simp
  | cons unit units ih =>
    cases units' with
    | nil => simp
    | cons unit' units' =>
      simp only [List.flatMap_cons, List.map_cons, List.cons_append, List.nil_append, List.cons_lt_cons_iff, ih]
      by_cases hrest : units.map UInt16.toNat < units'.map UInt16.toNat
      · simp only [hrest, and_true]
        omega
      · simp only [hrest, and_false, or_false]
        omega

theorem utf16BeKey_le_iff (name name' : List Char) :
    utf16BeKey name ≤ utf16BeKey name' ↔ utf16Key name ≤ utf16Key name' := by
  rw [← not_lt, ← not_lt, utf16BeKey, utf16BeKey, bytes_lt_iff, utf16Key, utf16Key]

theorem utf16BeKey_injective : Function.Injective utf16BeKey := by
  intro name name' h
  have hle := (utf16BeKey_le_iff name name').mp h.le
  have hge := (utf16BeKey_le_iff name' name).mp h.ge
  exact utf16Key_injective (le_antisymm hle hge)

/-! ## One name of each upper case -/

/-- No name of a map with the same upper case is before this one. -/
def First (upper : List Char → List Char) (env : EnvMap) (name : List Char) : Prop :=
  ∀ other otherValue, env.lookup other = some otherValue → upper other = upper name → utf16Key name ≤ utf16Key other

/-- The first name of an upper case, in any order that is the one of the units. -/
theorem find?_upper {upper : List Char → List Char} {env : EnvMap} {names : List (List Char)}
    (hnames : names.Perm env.keys) {key : List Char → List Nat} (hinjective : Function.Injective key)
    (hkey : ∀ name name', key name ≤ key name' ↔ utf16Key name ≤ utf16Key name') {name value : List Char}
    (hvalue : env.lookup name = some value) :
    (FiniteMap.sortBy key names).find? (fun n => decide (upper n = upper name)) = some name ↔ First upper env name := by
  have hmem (n : List Char) : n ∈ names ↔ ∃ v, env.lookup n = some v := by
    rw [hnames.mem_iff, ← AList.mem_keys, ← AList.lookup_isSome, Option.isSome_iff_exists]
  rw [FiniteMap.find?_sortBy hinjective]
  constructor
  · intro ⟨_, hfirst⟩ other otherValue hother hupper
    exact (hkey name other).mp (hfirst other ((hmem other).mpr ⟨otherValue, hother⟩) (decide_eq_true hupper))
  · intro hfirst
    refine ⟨⟨(hmem name).mpr ⟨value, hvalue⟩, decide_eq_true rfl⟩, fun other hother hupper => ?_⟩
    obtain ⟨otherValue, hlookup⟩ := (hmem other).mp hother
    exact (hkey name other).mpr (hfirst other otherValue hlookup (of_decide_eq_true hupper))

/-- What is chosen for an upper case is the first name with it. -/
theorem lookup_choose (upper : List Char → List Char) (chosen : EnvMap) (names : List (List Char))
    (u : List Char) :
    (choose upper chosen names).lookup u = (chosen.lookup u).or (names.find? fun name => decide (upper name = u)) := by
  induction names generalizing chosen with
  | nil => rw [choose, List.find?_nil, Option.or_none]
  | cons name names ih =>
    rw [choose, ih, List.find?_cons]
    by_cases hmem : upper name ∈ chosen
    · rw [if_pos hmem]
      by_cases hu : upper name = u
      · obtain ⟨kept, hkept⟩ := Option.isSome_iff_exists.mp (AList.lookup_isSome.mpr (hu ▸ hmem))
        simp [hkept]
      · simp [hu]
    · rw [if_neg hmem]
      by_cases hu : upper name = u
      · subst hu
        rw [AList.lookup_insert, AList.lookup_eq_none.mpr hmem]
        simp
      · rw [AList.lookup_insert_ne (Ne.symm hu)]
        simp [hu]

theorem mem_chosen {upper : List Char → List Char} {names : List (List Char)} {name : List Char} :
    name ∈ (choose upper ∅ names).items.map Prod.snd ↔
      names.find? (fun n => decide (upper n = upper name)) = some name := by
  have hitem (u : List Char) : (u, name) ∈ (choose upper ∅ names).items ↔
      names.find? (fun n => decide (upper n = u)) = some name := by
    rw [FiniteMap.mem_items, lookup_choose, AList.lookup_empty, Option.none_or]
  constructor
  · intro hmem
    obtain ⟨⟨u, n⟩, hpair, rfl⟩ := List.mem_map.mp hmem
    have hfind := (hitem u).mp hpair
    have hu : upper n = u := by simpa using List.find?_some hfind
    exact hu ▸ hfind
  · intro hfind
    exact List.mem_map.mpr ⟨_, (hitem _).mpr hfind, rfl⟩

theorem chosen_nodup (upper : List Char → List Char) (names : List (List Char)) :
    ((choose upper ∅ names).items.map Prod.snd).Nodup := by
  have hupper : ((choose upper ∅ names).items.map Prod.snd).map upper = (choose upper ∅ names).items.map Prod.fst := by
    rw [List.map_map]
    refine List.map_congr_left fun p hp => ?_
    obtain ⟨u, n⟩ := p
    have hfind := FiniteMap.mem_items.mp hp
    rw [lookup_choose, AList.lookup_empty, Option.none_or] at hfind
    simpa using List.find?_some hfind
  exact List.Nodup.of_map upper (hupper ▸ FiniteMap.items_keys_nodup _)

/-- The Python arbitration. -/
theorem lookup_windowsSpawnEnvironment (upper : List Char → List Char) (env : EnvMap) (name value : List Char) :
    (windowsSpawnEnvironment upper env).lookup name = some value ↔
      env.lookup name = some value ∧ First upper env name := by
  have hnodup := (FiniteMap.sortBy_perm utf16BeKey _).nodup_iff.mpr
    (chosen_nodup upper (FiniteMap.sortBy utf16BeKey env.keys))
  rw [windowsSpawnEnvironment, FiniteMap.lookup_pick hnodup, FiniteMap.mem_sortBy, mem_chosen, and_comm]
  refine and_congr_right fun hvalue => ?_
  exact find?_upper (List.Perm.refl _) utf16BeKey_injective utf16BeKey_le_iff hvalue

/-- The loop adds the first name of each upper case that is not chosen yet. -/
theorem spawnLoop_spec {upper : List Char → List Char} {env : EnvMap} {names : List (List Char)}
    (hnodup : names.Nodup) (hnames : ∀ n ∈ names, n ∈ env) (chosen : List (List Char)) {output : EnvMap}
    (hnew : ∀ n ∈ names, n ∉ output) :
    ∃ result, spawnLoop upper env chosen output names = some result ∧
      ∀ name value, result.lookup name = some value ↔
        output.lookup name = some value ∨
          upper name ∉ chosen ∧ env.lookup name = some value ∧
            names.find? (fun n => decide (upper n = upper name)) = some name := by
  induction names generalizing chosen output with
  | nil => exact ⟨output, rfl, fun name value => by simp⟩
  | cons first names ih =>
    obtain ⟨hfirst, hrest⟩ := List.nodup_cons.mp hnodup
    obtain ⟨henv, hnames⟩ := List.forall_mem_cons.mp hnames
    obtain ⟨hfresh, hnew⟩ := List.forall_mem_cons.mp hnew
    by_cases hchosen : upper first ∈ chosen
    · obtain ⟨result, hresult, hspec⟩ := ih hrest hnames chosen hnew
      refine ⟨result, by rw [spawnLoop, if_pos hchosen, hresult], fun name value => ?_⟩
      rw [hspec, List.find?_cons]
      by_cases hname : upper first = upper name
      · simp [← hname, hchosen]
      · simp [hname]
    · obtain ⟨held, hheld⟩ := Option.isSome_iff_exists.mp (AList.lookup_isSome.mpr henv)
      have hnew' : ∀ n ∈ names, n ∉ (output.insert first held : EnvMap) := by
        intro n hn hmem
        rcases (AList.mem_insert output).mp hmem with heq | hmem
        · exact hfirst (heq ▸ hn)
        · exact hnew n hn hmem
      obtain ⟨result, hresult, hspec⟩ := ih hrest hnames (upper first :: chosen) hnew'
      refine ⟨result, by rw [spawnLoop, if_neg hchosen, hheld]; exact hresult, fun name value => ?_⟩
      rw [hspec, List.find?_cons]
      by_cases heq : name = first
      · subst heq
        simp [AList.lookup_insert, AList.lookup_eq_none.mpr hfresh, hchosen, hheld]
      · rw [AList.lookup_insert_ne heq]
        by_cases hname : upper first = upper name
        · simp [← hname, Ne.symm heq]
        · simp [hname, Ne.symm hname]

theorem iter_perm (map : EnvMap) : (iter map).Perm map.items := FiniteMap.sortBy_perm ..

/-- The Rust arbitration, which never panics. -/
theorem lookup_rustWindowsSpawnEnvironment (upper : List Char → List Char) (env : EnvMap) :
    ∃ result, rustWindowsSpawnEnvironment upper env = some result ∧
      ∀ name value, result.lookup name = some value ↔ env.lookup name = some value ∧ First upper env name := by
  have hnames : ((iter env).map Prod.fst).Perm env.keys :=
    ((iter_perm env).map Prod.fst).trans (List.Perm.of_eq (FiniteMap.items_keys env))
  have hsorted := (FiniteMap.sortBy_perm utf16Key _).trans hnames
  obtain ⟨result, hresult, hspec⟩ := @spawnLoop_spec upper env _ (hsorted.nodup_iff.mpr env.keys_nodup)
    (fun n hn => AList.mem_keys.mpr (hsorted.mem_iff.mp hn)) [] ∅ fun n _ => AList.notMem_empty n
  refine ⟨result, hresult, fun name value => ?_⟩
  rw [hspec, AList.lookup_empty]
  simp only [reduceCtorEq, List.not_mem_nil, not_false_eq_true, true_and, false_or]
  exact and_congr_right fun hvalue => find?_upper hnames utf16Key_injective (fun _ _ => Iff.rfl) hvalue

/-! ## Both bindings -/

/-- A map is composed when it holds the merged names, and of those on Windows the
first ones. -/
theorem composed_of_lookup {upper : List Char → List Char} {env : NativeEnv} {remove : List (List Char)}
    {inject merged map : EnvMap} (hmerged : ∀ name value, merged.lookup name = some value ↔
      Merged env remove inject name value)
    (hmap : ∀ name value, map.lookup name = some value ↔
      merged.lookup name = some value ∧ (env.platform = .windows → First upper merged name)) :
    Composed upper env remove inject map := by
  intro name value
  simp only [hmap, First, hmerged]

theorem viewEntries_eq {platform : Platform} {entries : List (PyText × PyText)}
    {bytes : List (List UInt8 × List UInt8)}
    (h : entries.map (fun e => (nativeBytes e.1 platform, nativeBytes e.2 platform)) =
      bytes.map fun e => (some e.1, some e.2)) (view : EnvMap) :
    viewEntries platform entries view = some (view.update (visible bytes)) := by
  induction entries generalizing bytes view with
  | nil =>
    obtain rfl := List.map_eq_nil_iff.mp h.symm
    rfl
  | cons e entries ih =>
    cases bytes with
    | nil => cases h
    | cons b bytes =>
      obtain ⟨he, hrest⟩ := List.cons.inj h
      obtain ⟨hname, hvalue⟩ := Prod.mk.inj he
      simp only [viewEntries, hname, visible, List.filterMap_cons]
      cases decodeStrict b.1 with
      | none => exact ih hrest view
      | some name =>
        simp only [hvalue]
        exact ih hrest _

/-- The view of a snapshot that holds the native entries. -/
theorem nodeEnvironmentView_eq {env : NativeEnv} {snapshot : EnvSnapshot} (h : snapshot.Lossless env) :
    snapshot.platform = env.platform ∧
      nodeEnvironmentView snapshot = some (FiniteMap.update ∅ (visible env.bytes)) := by
  cases env with
  | posix entries distinct named =>
    obtain ⟨hplatform, hentries⟩ := h
    refine ⟨hplatform, ?_⟩
    rw [nodeEnvironmentView, hplatform]
    exact @viewEntries_eq .posix _ entries hentries ∅
  | windows entries distinct named nonNul =>
    obtain ⟨hplatform, hentries⟩ := h
    refine ⟨hplatform, ?_⟩
    rw [nodeEnvironmentView, hplatform]
    refine viewEntries_eq ?_ ∅
    simp only [NativeEnv.bytes, ← hentries, List.map_map]
    rfl

/-- Python composes the environment from every snapshot that holds the native
entries. -/
theorem composed_compose (upper : List Char → List Char) {env : NativeEnv} {snapshot : EnvSnapshot}
    (h : snapshot.Lossless env) (remove : List (List Char)) (inject : EnvMap) :
    ∃ map, composeSpawnEnvironment upper snapshot remove inject = some map ∧ Composed upper env remove inject map := by
  obtain ⟨hplatform, hview⟩ := nodeEnvironmentView_eq h
  have hmerged := lookup_merged (List.Perm.refl (visible env.bytes)) remove inject (List.Perm.refl inject.items)
  rw [composeSpawnEnvironment, hview, hplatform]
  cases hp : env.platform with
  | windows =>
    refine ⟨_, rfl, composed_of_lookup hmerged fun name value => ?_⟩
    rw [lookup_windowsSpawnEnvironment]
    simp [hp]
  | posix => exact ⟨_, rfl, composed_of_lookup hmerged fun name value => by simp [hp]⟩

/-- The bytes of a surrogate, by shifts and by division. -/
theorem surrogateBytes_eq {c : Nat} (hc : 0xD800 ≤ c ∧ c < 0xE000) :
    [(0xE0 : UInt8) ||| (c.toUInt16 >>> 12).toUInt8, (0x80 : UInt8) ||| ((c.toUInt16 >>> 6) &&& 63).toUInt8,
      (0x80 : UInt8) ||| (c.toUInt16 &&& 63).toUInt8] = surrogateBytes c := by
  have hunit := @toNat_toUInt16 c (by omega)
  have hor (x : Fin 64) : (0x80 : UInt8) ||| UInt8.ofNat x = UInt8.ofNat (0x80 + x) := by
    revert x
    decide
  have hlow (n : Nat) : n &&& 63 = n % 64 := Nat.and_two_pow_sub_one_eq_mod n 6
  have hfirst : (c.toUInt16 >>> 12).toUInt8 = UInt8.ofNat 0xD := by
    apply UInt8.toNat_inj.mp
    have hshift : (c.toUInt16 >>> 12).toNat = c / 0x1000 := by
      simp [hunit, Nat.shiftRight_eq_div_pow]
    rw [UInt16.toNat_toUInt8, hshift, UInt8.toNat_ofNat']
    omega
  have hsecond : ((c.toUInt16 >>> 6) &&& 63).toUInt8 = UInt8.ofNat (c / 0x40 % 0x40) := by
    apply UInt8.toNat_inj.mp
    have hshift : ((c.toUInt16 >>> 6) &&& 63).toNat = c / 0x40 % 0x40 := by
      simp [hunit, hlow, Nat.shiftRight_eq_div_pow]
    rw [UInt16.toNat_toUInt8, hshift, UInt8.toNat_ofNat']
  have hthird : (c.toUInt16 &&& 63).toUInt8 = UInt8.ofNat (c % 0x40) := by
    apply UInt8.toNat_inj.mp
    have hmask : (c.toUInt16 &&& 63).toNat = c % 0x40 := by
      simp [hunit, hlow]
    rw [UInt16.toNat_toUInt8, hmask, UInt8.toNat_ofNat']
  have hlead : c / 0x1000 = 0xD := by omega
  rw [hfirst, hsecond, hthird, surrogateBytes, hlead, hor ⟨c / 0x40 % 0x40, by omega⟩, hor ⟨c % 0x40, by omega⟩]
  rfl

theorem generalizedUtf8_eq (units : List UInt16) : generalizedUtf8 units = wtf8 (decode16 units) := by
  refine List.flatMap_congr fun c _ => ?_
  rw [wtf8Bytes]
  cases hc : scalar? c with
  | some ch => rfl
  | none => exact surrogateBytes_eq (surrogate_of_scalar? hc)

/-- The view of Rust entries that are the native ones. -/
theorem rustNodeEnvironmentView_eq {env : NativeEnv} {snapshot : EnvEntries} (h : snapshot.Lossless env) :
    snapshot.platform = env.platform ∧ (visible snapshot.pairs).Perm (visible env.bytes) := by
  cases env with
  | posix entries distinct named =>
    obtain ⟨held, rfl, hperm⟩ := h
    exact ⟨rfl, hperm.filterMap _⟩
  | windows entries distinct named nonNul =>
    obtain ⟨held, rfl, hperm⟩ := h
    refine ⟨rfl, List.Perm.filterMap _ ?_⟩
    simp only [EnvEntries.pairs, generalizedUtf8_eq]
    exact hperm.map _

/-- And so does Rust. -/
theorem composed_rustCompose (upper : List Char → List Char) {env : NativeEnv} {snapshot : EnvEntries}
    (h : snapshot.Lossless env) (remove : List (List Char)) (inject : EnvMap) :
    ∃ map, rustComposeSpawnEnvironment upper snapshot remove inject = some map ∧
      Composed upper env remove inject map := by
  obtain ⟨hplatform, hview⟩ := rustNodeEnvironmentView_eq h
  have hmerged := lookup_merged hview remove inject (iter_perm inject)
  rw [rustComposeSpawnEnvironment, rustNodeEnvironmentView, hplatform]
  cases hp : env.platform with
  | windows =>
    obtain ⟨map, hmap, hspec⟩ := lookup_rustWindowsSpawnEnvironment upper
      ((removeNames (FiniteMap.update ∅ (visible snapshot.pairs)) remove).update (iter inject))
    refine ⟨map, hmap, composed_of_lookup hmerged fun name value => ?_⟩
    rw [hspec]
    simp [hp]
  | posix => exact ⟨_, rfl, composed_of_lookup hmerged fun name value => by simp [hp]⟩

/-- Both local providers have a snapshot that holds every native entry, and both
bindings compose the same environment from it. -/
def ComposedAlike (upper : List Char → List Char) (env : NativeEnv) : Prop :=
  (baseEnv env).Lossless env ∧
    ∃ snapshot, rustBaseEnv env = some snapshot ∧ snapshot.Lossless env ∧
      ∀ remove inject, ∃ map rustMap,
        composeSpawnEnvironment upper (baseEnv env) remove inject = some map ∧
          rustComposeSpawnEnvironment upper snapshot remove inject = some rustMap ∧
          Composed upper env remove inject map ∧ ∀ name, map.lookup name = rustMap.lookup name

/-- They do just when every name and value is valid Unicode and no name begins
with `=`. -/
theorem composedAlike_iff (upper : List Char → List Char) (env : NativeEnv) :
    ComposedAlike upper env ↔ env.Unicode ∧ env.Variables := by
  constructor
  · intro ⟨hlossless, snapshot, hsnapshot, _⟩
    have hsome := Option.isSome_of_eq_some hsnapshot
    exact ⟨(rustBaseEnv_isSome_iff env).mp hsome, (lossless_baseEnv_iff env).mp hlossless⟩
  · intro ⟨hunicode, hvariables⟩
    have hlossless := (lossless_baseEnv_iff env).mpr hvariables
    obtain ⟨snapshot, hsnapshot⟩ := Option.isSome_iff_exists.mp ((rustBaseEnv_isSome_iff env).mpr hunicode)
    have hheld := lossless_rustBaseEnv hsnapshot
    refine ⟨hlossless, snapshot, hsnapshot, hheld, fun remove inject => ?_⟩
    obtain ⟨map, hmap, hcomposed⟩ := composed_compose upper hlossless remove inject
    obtain ⟨rustMap, hrustMap, hrustComposed⟩ := composed_rustCompose upper hheld remove inject
    exact ⟨map, rustMap, hmap, hrustMap, hcomposed, hcomposed.unique hrustComposed⟩

/-- A value that is one byte of no text: the provider panics. -/
theorem invalid_value_panics : ¬ ComposedAlike id (.posix [([0x41], [0xFF])] (by decide) (by decide)) := by
  intro ⟨_, snapshot, hsnapshot, _⟩
  have hunicode := (rustBaseEnv_isSome_iff _).mp (Option.isSome_of_eq_some hsnapshot)
  obtain ⟨_, hvalue⟩ := hunicode _ (List.mem_cons_self ..)
  rw [decodeStrict_of_none (by decide)] at hvalue
  cases hvalue

end Environment

end MinionAgent
