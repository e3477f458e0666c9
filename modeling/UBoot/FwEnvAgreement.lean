import UBoot.EnvLinear
import UBoot.FwEnvWrites

/-!
# The tool and the boot loader

The boot loader reads the strings of an environment image with `himport_r`, which takes
a backslash for an escape, and writes them with `hexport_r`, which puts a backslash before
each backslash.  The tool copies values as they are.  So the two see the same values only
as far as these have no backslashes, and the boot loader only sees as many variables as
its hash table holds.
-/

namespace UBoot

open List Option Memory Finmap EnvEntry EnvVar

/-! ## Values without their escapes -/

def unescape : CString → CString
  | [] => []
  | [c] => [c]
  | c :: d :: s => if c = BACKSLASH then d :: unescape s else c :: unescape (d :: s)

theorem parseValue_unescape (rest : List UInt8) (value : CString) (nulFree : 0 ∉ value) :
    parseValue 0 (value ++ 0 :: rest) = (unescape value, 0 :: rest) := by
  induction value using unescape.induct with
  | case1 => exact parseValue_stop (.inl rfl) rest
  | case2 c =>
    have notNul : c ≠ 0 := by
      rintro rfl
      exact nulFree mem_cons_self
    simp [parseValue, notNul, unescape, parseValue_stop]
  | case3 d s ih =>
    rw [mem_cons, mem_cons, not_or, not_or] at nulFree
    have good : GoodSeparator 0 := ⟨by decide, by decide, by decide, by decide⟩
    rw [cons_append, cons_append, parseValue_escaped good (Ne.symm nulFree.2.1),
      ih nulFree.2.2, unescape, if_pos rfl]
  | case4 c d s notBackslash ih =>
    rw [mem_cons, not_or] at nulFree
    rw [cons_append, parseValue_plain (Ne.symm nulFree.1) (Ne.symm nulFree.1) notBackslash,
      ih nulFree.2, unescape, if_neg notBackslash]

theorem length_unescape_le (value : CString) : (unescape value).length ≤ value.length := by
  induction value using unescape.induct with
  | case1 => exact le_rfl
  | case2 c => exact le_rfl
  | case3 d s ih =>
    rw [unescape, if_pos rfl, length_cons, length_cons, length_cons]
    omega
  | case4 c d s notBackslash ih =>
    rw [unescape, if_neg notBackslash, length_cons, length_cons]
    omega

theorem unescape_eq_iff (value : CString) :
    unescape value = value ↔ BACKSLASH ∉ value.dropLast := by
  induction value using unescape.induct with
  | case1 => simp [unescape]
  | case2 c => simp [unescape]
  | case3 d s _ =>
    rw [unescape, if_pos rfl, dropLast_cons_cons]
    apply iff_of_false
    · intro same
      have lengths := congrArg length same
      have shorter := length_unescape_le s
      simp only [length_cons] at lengths
      omega
    · simp
  | case4 c d s notBackslash ih =>
    rw [unescape, if_neg notBackslash, cons.injEq, and_iff_right rfl, ih,
      dropLast_cons_cons, mem_cons, not_or]
    exact ⟨fun rest => ⟨Ne.symm notBackslash, rest⟩, fun both => both.2⟩

theorem headD_append_ne {value rest : CString} (nonempty : value ≠ []) (nulFree : 0 ∉ value) :
    (value ++ rest).headD 0 ≠ 0 := by
  obtain ⟨c, s, rfl⟩ := exists_cons_of_ne_nil nonempty
  rintro rfl
  exact nulFree mem_cons_self

structure EnvVar.Importable (v : EnvVar) : Prop where
  notBlank : isblank (v.name.headD 0) = false
  notComment : v.name.headD 0 ≠ NUMBER_SIGN
  nonempty : v.value ≠ []

theorem EnvVar.isNameChar (v : EnvVar) : ∀ c ∈ v.name, isNameChar 0 c = true := by
  intro c member
  have notEquals : c ≠ EQUALS_SIGN := by
    rintro rfl
    exact v.name_equals member
  have notNul : c ≠ 0 := by
    rintro rfl
    exact v.name_nul member
  simp [UBoot.isNameChar, notEquals, notNul]

theorem parseItem_text {v : EnvVar} (importable : v.Importable) (rest : List UInt8) :
    parseItem 0 (v.text ++ 0 :: rest) = (.insert v.name (unescape v.value), rest) := by
  have starts : (v.value ++ 0 :: rest).headD 0 ≠ 0 :=
    headD_append_ne importable.nonempty v.value_nul
  rw [text, append_assoc, cons_append]
  exact parseItem_insert (by decide) v.isNameChar importable.notBlank importable.notComment
    ⟨starts, starts⟩ (parseValue_unescape rest v.value v.value_nul)

/-! ## Importing an image -/

def importVar (capacity : Nat) (entries : EnvMap) (v : EnvVar) : EnvMap :=
  if v.name ∈ entries ∨ entries.keys.card < capacity then
    entries.insert v.name (unescape v.value)
  else entries

def importVars (capacity : Nat) : EnvMap → List EnvVar → Option EnvMap
  | entries, [] => some entries
  | entries, v :: vars =>
    if v.name = [] then none else importVars capacity (importVar capacity entries v) vars

def LoopLeaves (expected : Option EnvMap) (result : ImportLoopResult) : Prop :=
  match expected with
  | none => result.errno = some .EINVAL
  | some entries => result.errno = none ∧ result.vars = [] ∧ result.htab.Refines entries

variable {htab : HsearchData} {entries : EnvMap} {v : EnvVar} {size : Nat} {data : Memory}
  {vars : List EnvVar}

section Import

variable {flag : Nat}

theorem importItem_var (flag : Nat) (refines : htab.Refines entries) (v : EnvVar) :
    ∃ imported, importItem .permissive flag htab [] (.insert v.name (unescape v.value)) =
        some ([], imported) ∧ imported.size = htab.size ∧
      imported.Refines (importVar htab.size entries v) := by
  unfold importVar
  split
  case isTrue fits =>
    obtain ⟨result, imported, search, -, size, refined⟩ :=
      refines.hsearchR_enter flag (unescape v.value) fits
    exact ⟨imported, by simp [importItem, dropVarFromSet, search], size, refined⟩
  case isFalse full =>
    have search := refines.hsearchR_enter_full flag (unescape v.value) full
    exact ⟨htab, by simp [importItem, dropVarFromSet, search], rfl, refines⟩

def EnvVar.item (v : EnvVar) : ImportItem := .insert v.name (unescape v.value)

theorem EnvVar.refused_item (v : EnvVar) : v.item.refused = decide (v.name = []) := by
  rw [item]
  cases v.name <;> rfl

theorem importAll_vars (flag : Nat) (vars : List EnvVar) : ∀ {htab entries}, htab.Refines entries →
      ∃ result, importAll .permissive flag (vars.map EnvVar.item) [] htab = some result ∧
        LoopLeaves (importVars htab.size entries vars) result := by
  induction vars with
  | nil =>
    intro htab entries refines
    exact ⟨_, rfl, rfl, rfl, refines⟩
  | cons v vars ih =>
    intro htab entries refines
    rw [map_cons, importAll, importVars, v.refused_item]
    by_cases named : v.name = []
    · rw [if_pos named, if_pos (decide_eq_true named)]
      exact ⟨_, rfl, rfl⟩
    obtain ⟨imported, inserted, size, refined⟩ := importItem_var flag refines v
    rw [if_neg named, if_neg (by simpa using named), EnvVar.item, inserted, ← size]
    rw [← size] at refined
    exact ih refined

variable {config : EnvConfig}

theorem Holds.read_eq {strings : List CString} (holds : Holds size data strings) :
    ∃ rest, data.read 0 size = terminated strings ++ rest := by
  obtain ⟨more, sizeEq⟩ := Nat.exists_eq_add_of_le holds.fits
  refine ⟨data.read (0 + (terminated strings).length) more, ?_⟩
  have bytes : data.read 0 (terminated strings).length = terminated strings := holds.bytes
  rw [sizeEq, read_add, bytes]

theorem importLoop_image (flag : Nat) (holds : Holds size data (vars.map text))
    (importable : ∀ v ∈ vars, v.Importable) (empty : htab.Refines ∅) :
    ∃ result, importLoop .permissive 0 flag (size + 1) (data.read 0 size ++ [0]) size [] htab =
        some result ∧ LoopLeaves (importVars htab.size ∅ vars) result := by
  obtain ⟨rest, bytes⟩ := holds.read_eq
  rw [bytes]
  cases vars with
  | nil =>
    have missing : hdeleteR .permissive htab [] flag = some (.notFound, htab) :=
      hdeleteR_of_absent empty.valid .permissive flag (empty.absent notMem_empty)
    refine ⟨⟨none, [], htab⟩, ?_, rfl, rfl, empty⟩
    rw [importLoop, map_nil, show terminated [] = [0, 0] from rfl]
    simp [parseItem_nul, importItem, dropVarFromSet, missing]
  | cons v vars =>
    have used := holds.joined.2
    have count : ((v :: vars).map text).length ≤ _ := length_le_length_joinStrings
    rw [length_map] at count
    obtain ⟨result, applied, leaves⟩ := importAll_vars flag (v :: vars) empty
    refine ⟨result, ?_, leaves⟩
    rw [terminated_of_ne_nil (by simp), append_assoc, append_assoc, joinStrings, flatMap_map]
    rw [joinStrings, flatMap_map] at used count
    refine (importLoop_flatMap rfl (fun u member rest => ?_) (fun u _ => ?_) (cons_ne_nil _ _)
      (by omega) (by omega)).trans applied
    · rw [append_assoc, singleton_append]
      exact parseItem_text (importable u member) rest
    · exact headD_append_ne u.proper_text.1 u.proper_text.2

def ImportLeaves (expected : Option EnvMap) (result : HimportResult) : Prop :=
  match expected with
  | none => result.ret = 0
  | some entries => ∃ imported, result = ⟨1, none, some imported⟩ ∧ imported.Refines entries

theorem himportR_image (usable : config.Usable) (clears : flag &&& H_NOCLEAR = 0)
    (old : Option HsearchData) (holds : Holds size data (vars.map text))
    (importable : ∀ v ∈ vars, v.Importable) :
    ∃ created result, hcreateR (importEntries config size) = some created ∧
      himportR config .permissive old (data.read 0 size) 0 flag false [] = some result ∧
      ImportLeaves (importVars created.size ∅ vars) result := by
  obtain ⟨created, creation, empty⟩ := refines_hcreateR
    (two_le_importEntries size usable.minEntries usable.maxEntries)
    (Nat.lt_of_le_of_lt (importEntries_le size) usable.maxBound)
  obtain ⟨result, loop, leaves⟩ := importLoop_image flag holds importable empty
  have fits := holds.fits
  have atLeast : 2 ≤ (terminated (vars.map text)).length := two_le_length_terminated
  have notEmpty : data.read 0 size ≠ [] := by
    rw [← length_pos_iff, length_read]
    omega
  have length : (data.read 0 size).length = size := length_read _ _ _
  rw [himportR_of_importLoop usable.noAppend clears old notEmpty (by rwa [length])
    (by rwa [length])]
  refine ⟨created, ?_⟩
  generalize importVars created.size ∅ vars = expected at leaves
  cases expected with
  | none =>
    have failed : result.errno = some .EINVAL := leaves
    rw [if_neg (by simp [failed])]
    exact ⟨_, creation, rfl, rfl⟩
  | some entries =>
    obtain ⟨noError, noVars, refined⟩ := leaves
    rw [if_pos noError, noVars, deleteVars]
    exact ⟨_, creation, rfl, _, rfl, refined⟩

end Import

/-! ## The values that the boot loader sees -/

def setVars (vars : List EnvVar) : List EnvVar := vars.filter fun v => v.value ≠ []

def valueOf (vars : List EnvVar) (name : CString) : Option CString :=
  ((setVars vars).find? fun v => v.name = name).map value

section Values

variable {capacity : Nat} {entries expected : EnvMap}

theorem nodup_setVars (nodup : (vars.map name).Nodup) :
    ((setVars vars).map name).Nodup :=
  nodup.sublist (filter_sublist.map _)

theorem valueOf_of_mem (nodup : (vars.map name).Nodup) (member : v ∈ setVars vars) :
    valueOf vars v.name = some v.value := by
  rw [valueOf]
  cases found : (setVars vars).find? fun u => u.name = v.name with
  | none =>
    have differs := find?_eq_none.1 found v member
    exact absurd (decide_eq_true rfl) differs
  | some u =>
    have sameName : u.name = v.name := by simpa using find?_some found
    rw [inj_on_of_nodup_map (nodup_setVars nodup) (mem_of_find?_eq_some found) member sameName]
    rfl

theorem valueOf_of_absent {name : CString} (absent : ∀ v ∈ setVars vars, v.name ≠ name) :
    valueOf vars name = none := by
  have missing : (setVars vars).find? (fun v => v.name = name) = none := by
    rw [find?_eq_none]
    intro v member
    simpa using absent v member
  rw [valueOf, missing, map_none]

def EnvVar.imported (v : EnvVar) : EnvEntry := ⟨some v.name, some (unescape v.value)⟩

theorem importVars_of_room (vars : List EnvVar) (entries : EnvMap) (named : ∀ v ∈ vars, v.name ≠ [])
    (room : entries.keys.card + vars.length ≤ capacity) :
    importVars capacity entries vars = some (insertAll entries (vars.map imported)) := by
  induction vars generalizing entries with
  | nil => rfl
  | cons v vars ih =>
    rw [forall_mem_cons] at named
    rw [length_cons] at room
    have inserted : importVar capacity entries v = entries.insert v.name (unescape v.value) :=
      if_pos (.inr (by omega))
    have more := card_keys_insert_le entries v.name (unescape v.value)
    rw [importVars, if_neg named.1, inserted, ih _ named.2 (by omega)]
    rfl

theorem card_importVar_le (few : entries.keys.card ≤ capacity) (v : EnvVar) :
    (importVar capacity entries v).keys.card ≤ capacity := by
  unfold importVar
  split
  case isTrue fits =>
    rcases fits with known | room
    · have same : (entries.insert v.name (unescape v.value)).keys = entries.keys := by
        ext name
        rw [Finmap.mem_keys, Finmap.mem_keys, mem_insert]
        exact or_iff_right_of_imp fun isName => isName ▸ known
      rw [same]
      exact few
    · exact (card_keys_insert_le _ _ _).trans room
  case isFalse => exact few

theorem importVars_some (vars : List EnvVar) (entries : EnvMap) (few : entries.keys.card ≤ capacity)
    (result : importVars capacity entries vars = some expected) :
    (∀ v ∈ vars, v.name ≠ []) ∧ expected.keys.card ≤ capacity := by
  induction vars generalizing entries with
  | nil =>
    cases result
    exact ⟨by simp, few⟩
  | cons v vars ih =>
    rw [importVars] at result
    split at result
    case isTrue => cases result
    case isFalse named =>
      obtain ⟨others, small⟩ := ih _ (card_importVar_le few v) result
      exact ⟨forall_mem_cons.2 ⟨named, others⟩, small⟩

theorem lookup_imported (nodup : (vars.map name).Nodup) (member : v ∈ setVars vars) :
    (insertAll ∅ ((setVars vars).map imported)).lookup v.name = some (unescape v.value) := by
  have keys : ((setVars vars).map imported).map keyText = (setVars vars).map name := by
    rw [List.map_map]
    rfl
  refine lookup_insertAll_of_mem ?_ (mem_map_of_mem member)
  rw [keys]
  exact nodup_setVars nodup

/-- The importer sees the values of the variables just when it does not change them and has room
for all of them. -/
theorem importVars_agrees_iff (nodup : (vars.map name).Nodup) :
    (∃ expected, importVars capacity ∅ (setVars vars) = some expected ∧
      ∀ name, expected.lookup name = valueOf vars name) ↔
    (∀ v ∈ setVars vars, v.name ≠ [] ∧ BACKSLASH ∉ v.value.dropLast) ∧
      (setVars vars).length ≤ capacity := by
  have none : (∅ : EnvMap).keys.card = 0 := by simp
  constructor
  · rintro ⟨expected, result, agrees⟩
    obtain ⟨named, few⟩ := importVars_some _ ∅ (by omega) result
    have present : ((setVars vars).map name).toFinset ⊆ expected.keys := by
      intro name member
      obtain ⟨v, inVars, rfl⟩ := mem_map.1 (mem_toFinset.1 member)
      rw [Finmap.mem_keys, mem_iff]
      exact ⟨v.value, (agrees v.name).trans (valueOf_of_mem nodup inVars)⟩
    have count := Finset.card_le_card present
    rw [toFinset_card_of_nodup (nodup_setVars nodup), length_map] at count
    have room : (setVars vars).length ≤ capacity := by omega
    rw [importVars_of_room _ ∅ named (by omega), some.injEq] at result
    subst result
    refine ⟨fun v member => ⟨named v member, ?_⟩, room⟩
    have same := (lookup_imported nodup member).symm.trans
      ((agrees v.name).trans (valueOf_of_mem nodup member))
    exact (unescape_eq_iff v.value).1 (some.inj same)
  rintro ⟨plain, room⟩
  refine ⟨_, importVars_of_room _ ∅ (fun v member => (plain v member).1) (by omega), ?_⟩
  intro name
  by_cases known : ∃ v ∈ setVars vars, v.name = name
  · obtain ⟨v, member, rfl⟩ := known
    rw [lookup_imported nodup member, valueOf_of_mem nodup member,
      (unescape_eq_iff v.value).2 (plain v member).2]
  have absent : ∀ v ∈ setVars vars, v.name ≠ name := by
    intro v member same
    exact known ⟨v, member, same⟩
  rw [valueOf_of_absent absent, lookup_insertAll_of_notMem]
  · exact lookup_empty name
  intro member
  rw [List.map_map] at member
  obtain ⟨v, inVars, same⟩ := mem_map.1 member
  exact absent v inVars same

end Values

/-! ## Building an area with the tool -/

def writeAll (size : Nat) (access : FwEnvAccess) :
    FwEnvironment → List EnvVar → Option FwEnvironment
  | e, [] => some e
  | e, v :: vars =>
    match fwEnvWrite size access e v.name v.value with
    | none => none
    | some (ret, e') => if ret = 0 then writeAll size access e' vars else none

variable (config : EnvConfig)

def ImportsAs (old : Option HsearchData) (flag size : Nat) (data : Memory)
    (vars : List EnvVar) : Prop :=
  ∃ imported, himportR config .permissive old (data.read 0 size) 0 flag false [] =
      some ⟨1, none, some imported⟩ ∧
    ∀ name, envGet .permissive imported name = some (valueOf vars name)

def ImportKept (size : Nat) (vars : List EnvVar) : Prop :=
  (∀ v ∈ setVars vars, v.name ≠ [] ∧ BACKSLASH ∉ v.value.dropLast) ∧
    ∀ created, hcreateR (importEntries config size) = some created →
      (setVars vars).length ≤ created.size

section Build

variable {size flag : Nat} {access : FwEnvAccess} {e e' : FwEnvironment}
  {done vars : List EnvVar} {config : EnvConfig}

theorem image_writeAll (free : access.Free) (vars done : List EnvVar) (e : FwEnvironment)
    (image : Image size e.data done) (nodup : ((done ++ vars).map name).Nodup)
    (result : writeAll size access e vars = some e') :
    Image size e'.data (done ++ setVars vars) := by
  induction vars generalizing done e with
  | nil =>
    cases result
    rw [setVars, filter_nil, append_nil]
    exact image
  | cons v vars ih =>
    rw [writeAll] at result
    split at result
    case h_1 => cases result
    case h_2 ret next call =>
      split at result
      case isFalse => cases result
      case isTrue success =>
        obtain ⟨retEq, edited⟩ := edits_of_returned free image call
        have absent : ∀ u ∈ done, u.name ≠ v.name := by
          intro u member
          rw [map_append, nodup_append] at nodup
          exact nodup.2.2 _ (mem_map_of_mem member) _ (by simp)
        have others := otherVars_of_absent absent
        have new : v ∉ done := fun present => absent v present rfl
        rw [success, setVar, others] at retEq
        rw [setVar, others] at edited
        by_cases empty : v.value = []
        · rw [if_pos empty] at edited
          have kept : ((done ++ vars).map name).Nodup :=
            nodup.sublist (((List.Sublist.refl done).append (sublist_cons_self v vars)).map _)
          have rest := ih done next edited kept result
          rw [setVars, filter_cons_of_neg (by simp [empty])]
          exact rest
        rw [if_neg empty, if_neg new] at edited retEq
        split at retEq
        case isFalse => cases retEq
        case isTrue fits =>
          rw [if_pos fits] at edited
          have rest := ih (done ++ [v]) next edited (by simpa using nodup) result
          rw [setVars, filter_cons_of_pos (by simp [empty])]
          rw [append_assoc] at rest
          exact rest

/-- The boot loader finds the variables that the tool has written just when they are kept. -/
theorem importsAs_iff (usable : config.Usable) (clears : flag &&& H_NOCLEAR = 0)
    (old : Option HsearchData) (free : access.Free) (empty : Image size e.data [])
    (nodup : (vars.map name).Nodup)
    (names : ∀ v ∈ vars, isblank (v.name.headD 0) = false ∧ v.name.headD 0 ≠ NUMBER_SIGN)
    (written : writeAll size access e vars = some e') :
    ImportsAs config old flag size e'.data vars ↔ ImportKept config size vars := by
  have image := image_writeAll free vars [] e empty nodup written
  have importable : ∀ v ∈ setVars vars, v.Importable := by
    intro v member
    obtain ⟨inVars, nonempty⟩ := mem_filter.1 member
    exact ⟨(names v inVars).1, (names v inVars).2, of_decide_eq_true nonempty⟩
  obtain ⟨created, result, creation, imports, leaves⟩ :=
    himportR_image usable clears old (image_iff.1 image).1 importable
  have kept : ImportKept config size vars ↔
      (∀ v ∈ setVars vars, v.name ≠ [] ∧ BACKSLASH ∉ v.value.dropLast) ∧
        (setVars vars).length ≤ created.size := by
    simp [ImportKept, creation]
  rw [kept, ← importVars_agrees_iff nodup, ImportsAs, imports]
  rw [nil_append] at leaves
  generalize importVars created.size ∅ (setVars vars) = outcome at leaves
  cases outcome with
  | none =>
    have failed : result.ret = 0 := leaves
    constructor
    · rintro ⟨imported, success, -⟩
      rw [some.inj success] at failed
      cases failed
    · rintro ⟨expected, impossible, -⟩
      cases impossible
  | some entries =>
    obtain ⟨imported, rfl, refined⟩ := leaves
    constructor
    · rintro ⟨_, ⟨⟩, agrees⟩
      refine ⟨entries, rfl, fun name => ?_⟩
      exact some.inj ((envGet_eq refined .permissive name).symm.trans (agrees name))
    · rintro ⟨_, ⟨⟩, agrees⟩
      refine ⟨imported, rfl, fun name => ?_⟩
      rw [envGet_eq refined, agrees name]

end Build

/-! ## Exported tables -/

def FwReads (size : Nat) (data : Memory) (name : CString) : (held : Option CString) → Prop
  | none => fwGetenv size data name = some none
  | some value =>
    ∃ position, fwGetenv size data name = some (some position) ∧
      data.HasBytes position (value ++ [0])

def StringMap (entries : EnvMap) : Prop :=
  ∀ key data, entries.lookup key = some data → EQUALS_SIGN ∉ key ∧ 0 ∉ key ∧ 0 ∉ data

/-- The tool reads the held values from the exported bytes, and these were written inside of the
array of `env_t`. -/
def ExportReads (envSize : Nat) (htab : HsearchData) (before : Memory) (env : EnvT) : Prop :=
  (exportText 0 (exportList config htab 0 [])).length < envSize ∧
    ∀ name held, EQUALS_SIGN ∉ name → 0 ∉ name → envGet .permissive htab name = some held →
      FwReads envSize (before.write 0 env.data) name held

section Export

variable {config : EnvConfig} {hooks : HashHooks}

theorem escape_eq_iff {value : CString} (nulFree : 0 ∉ value) :
    escape 0 value = value ↔ BACKSLASH ∉ value := by
  refine ⟨?_, escape_eq_self nulFree⟩
  induction value with
  | nil => simp
  | cons c value ih =>
    intro same
    rw [mem_cons, not_or] at nulFree
    rw [escape_cons] at same
    split at same
    case isTrue =>
      have lengths := congrArg length same
      have atLeast := length_escape_ge 0 value
      simp only [length_append, length_cons, length_nil] at lengths
      omega
    case isFalse plain =>
      rw [singleton_append, cons.injEq, and_iff_right rfl] at same
      rw [mem_cons, not_or]
      exact ⟨fun isBackslash => plain (.inr isBackslash.symm), ih nulFree.2 same⟩

theorem exists_exportedVars (list : List EnvEntry)
    (strings : ∀ ep ∈ list, EQUALS_SIGN ∉ ep.keyText ∧ 0 ∉ ep.keyText ∧ 0 ∉ ep.dataText) :
    ∃ vars : List EnvVar, vars.map name = list.map keyText ∧
      (∀ ep ∈ list, ∃ v ∈ vars, v.name = ep.keyText ∧ v.value = escape 0 ep.dataText) ∧
      joinStrings (vars.map text) = list.flatMap (exportEntry 0) := by
  induction list with
  | nil => exact ⟨[], rfl, by simp, rfl⟩
  | cons ep list ih =>
    rw [forall_mem_cons] at strings
    obtain ⟨⟨noEquals, keyNul, dataNul⟩, others⟩ := strings
    obtain ⟨vars, names, values, bytes⟩ := ih others
    refine ⟨⟨ep.keyText, escape 0 ep.dataText, noEquals, keyNul, nulFree_escape dataNul⟩ :: vars,
      ?_, ?_, ?_⟩
    · rw [map_cons, map_cons, names]
    · rw [forall_mem_cons]
      refine ⟨⟨_, mem_cons_self, rfl, rfl⟩, fun other member => ?_⟩
      obtain ⟨v, inVars, sameName, sameValue⟩ := values other member
      exact ⟨v, mem_cons_of_mem _ inVars, sameName, sameValue⟩
    · rw [map_cons, joinStrings_cons, bytes, flatMap_cons, exportEntry, text,
        append_assoc, append_assoc, append_assoc]
      rfl

section Bytes

variable (bytes : data.HasBytes 0 (joinStrings (vars.map text) ++ [0]))
  (fits : (joinStrings (vars.map text)).length < size)

include bytes fits

theorem fwReads_mem (nodup : (vars.map name).Nodup) {v : EnvVar} (member : v ∈ vars) :
    FwReads size data v.name (some v.value) := by
  obtain ⟨before, behind, rfl⟩ := append_of_mem member
  have search := fwEnvSearch_found (otherVars_split nodup).2 bytes fits
  refine ⟨_, by rw [fwGetenv, search], ?_⟩
  rw [map_append, map_cons, joinStrings_append, joinStrings_cons, append_assoc,
    append_assoc, hasBytes_append, Nat.zero_add, text, append_assoc,
    hasBytes_append, cons_append, hasBytes_cons] at bytes
  have value := bytes.2.2.2
  exact value.of_prefix (by simp [prefix_append_right_inj])

theorem fwReads_absent {name : CString} (nameEquals : EQUALS_SIGN ∉ name) (nameNul : 0 ∉ name)
    (absent : ∀ v ∈ vars, v.name ≠ name) : FwReads size data name none := by
  rw [FwReads, fwGetenv, fwEnvSearch_missing nameEquals nameNul absent bytes fits]

end Bytes

theorem FwReads.unique {name value value' : CString} (nulFree : 0 ∉ value) (nulFree' : 0 ∉ value')
    (reads : FwReads size data name (some value)) (reads' : FwReads size data name (some value')) :
    value = value' := by
  obtain ⟨position, found, bytes⟩ := reads
  obtain ⟨_, found', bytes'⟩ := reads'
  rw [found, some.injEq, some.injEq] at found'
  subst found'
  have same := strcmpEq_eq value value position [] nulFree nulFree bytes
  rw [strcmpEq_eq value value' position [] nulFree nulFree' bytes'] at same
  simpa using same

theorem fwReads_exported (refines : htab.Refines entries) (strings : StringMap entries)
    (bytes : data.HasBytes 0 (exportText 0 (exportList config htab 0 []) ++ [0]))
    (fits : (exportText 0 (exportList config htab 0 [])).length < size) {name : CString}
    (nameEquals : EQUALS_SIGN ∉ name) (nameNul : 0 ∉ name) :
    FwReads size data name ((entries.lookup name).map (escape 0)) := by
  have perm := perm_insertionSort
    (fun e1 e2 : EnvEntry => strcmp e1.keyText e2.keyText ≤ 0) (exportList config htab 0 [])
  unfold exportText at bytes fits
  generalize (exportList config htab 0 []).insertionSort
    (fun e1 e2 : EnvEntry => strcmp e1.keyText e2.keyText ≤ 0) = list at perm bytes fits
  have members : ∀ ep, ep ∈ list ↔ ∃ key held, entries.lookup key = some held ∧
      ep = ⟨some key, some held⟩ := by
    intro ep
    rw [perm.mem_iff]
    exact mem_exportList_iff refines
  obtain ⟨vars, names, values, joined⟩ := exists_exportedVars list (by
    intro ep member
    obtain ⟨key, held, present, rfl⟩ := (members ep).1 member
    exact strings key held present)
  rw [← joined] at bytes fits
  have nodup : (vars.map EnvVar.name).Nodup := by
    rw [names, (perm.map keyText).nodup_iff]
    exact nodup_exportList config refines.valid
  cases present : entries.lookup name with
  | some held =>
    obtain ⟨v, member, sameName, sameValue⟩ := values ⟨some name, some held⟩
      ((members _).2 ⟨name, held, present, rfl⟩)
    have reads := fwReads_mem bytes fits nodup member
    rw [sameName, sameValue] at reads
    exact reads
  | none =>
    apply fwReads_absent bytes fits nameEquals nameNul _
    intro v member sameName
    have listed : v.name ∈ list.map keyText := names ▸ mem_map_of_mem member
    obtain ⟨ep, inList, sameKey⟩ := mem_map.1 listed
    obtain ⟨key, held, found, rfl⟩ := (members ep).1 inList
    rw [show key = name from sameKey.trans sameName, present] at found
    cases found

theorem length_exportText_plain (refines : htab.Refines entries) (strings : StringMap entries)
    (plain : ∀ key held, entries.lookup key = some held → BACKSLASH ∉ held) :
    (exportText 0 (exportList config htab 0 [])).length =
      ((exportList config htab 0 []).map (exportLength 0)).sum := by
  rw [length_exportText]
  congr 1
  apply map_congr_left
  intro ep member
  obtain ⟨key, held, present, rfl⟩ := (mem_exportList_iff refines).1 member
  have escaped : escape 0 (dataText ⟨some key, some held⟩) = held :=
    escape_eq_self (strings key held present).2.2 (plain key held present)
  rw [exportEntry, exportLength, if_pos rfl, escaped, length_append, length_append,
    length_cons, length_singleton]
  rfl

theorem length_lt_of_hexportR {envSize : Nat} (sized : 0 < envSize) {result : HexportResult}
    (exported : hexportR config hooks htab 0 0 true envSize [] = .ok result) :
    ((exportList config htab 0 []).map (exportLength 0)).sum < envSize := by
  by_contra large
  have refused : envSize ≠ 0 ∧
      envSize < ((exportList config htab 0 []).map (exportLength 0)).sum + 1 := by
    omega
  unfold hexportR at exported
  rw [if_pos refused] at exported
  cases exported

/-- The tool reads the held values from an exported table just when they have no backslashes. -/
theorem exportReads_iff (refines : htab.Refines entries) (strings : StringMap entries)
    {envSize : Nat} (sized : 0 < envSize) {crc32 : List UInt8 → BitVec 32}
    {flags flags' : BitVec 8} {env : EnvT}
    (exported : envExport crc32 config hooks envSize htab flags = .ok (env, flags'))
    (before : Memory) :
    ExportReads config envSize htab before env ↔
      ∀ key held, entries.lookup key = some held → BACKSLASH ∉ held := by
  have escapedRead : (exportText 0 (exportList config htab 0 [])).length < envSize →
      ∀ name, EQUALS_SIGN ∉ name → 0 ∉ name →
        FwReads envSize (before.write 0 env.data) name ((entries.lookup name).map (escape 0)) := by
    intro fits name nameEquals nameNul
    obtain ⟨env', exported', bytes⟩ := exists_envExport crc32 hooks flags fits
    obtain ⟨rfl, -⟩ : env = env' ∧ flags' = flags + 1 := by
      rw [exported', Except.ok.injEq, Prod.mk.injEq] at exported
      exact ⟨exported.1.symm, exported.2.symm⟩
    have written : (before.write 0 env.data).HasBytes 0 env.data := hasBytes_write _ _ _
    apply fwReads_exported refines strings (written.of_prefix _) fits nameEquals nameNul
    obtain ⟨padding, paddingEq⟩ : ∃ padding,
        envSize - (exportText 0 (exportList config htab 0 [])).length = padding + 1 :=
      ⟨_, (Nat.sub_add_cancel (Nat.sub_pos_of_lt fits)).symm⟩
    rw [bytes, prefix_append_right_inj, paddingEq, replicate_succ]
    exact ⟨replicate padding 0, rfl⟩
  constructor
  · rintro ⟨fits, reads⟩ key held present
    obtain ⟨keyEquals, keyNul, heldNul⟩ := strings key held present
    have found := reads key _ keyEquals keyNul (envGet_eq refines .permissive key)
    have escaped := escapedRead fits key keyEquals keyNul
    rw [present] at found escaped
    exact (escape_eq_iff heldNul).1 (escaped.unique (nulFree_escape heldNul) heldNul found)
  intro plain
  have fits : (exportText 0 (exportList config htab 0 [])).length < envSize := by
    rw [length_exportText_plain refines strings plain]
    unfold envExport at exported
    cases result : hexportR config hooks htab 0 0 true envSize [] with
    | error e =>
      rw [result] at exported
      cases exported
    | ok value => exact length_lt_of_hexportR sized result
  refine ⟨fits, ?_⟩
  intro name held nameEquals nameNul get
  rw [envGet_eq refines, some.injEq] at get
  have reads := escapedRead fits name nameEquals nameNul
  rw [← get]
  cases present : entries.lookup name with
  | none =>
    rw [present] at reads
    exact reads
  | some value =>
    rw [present, map_some,
      escape_eq_self (strings name value present).2.2 (plain name value present)] at reads
    exact reads

end Export

/-! ## Agreement -/

/-- From an empty area, the boot loader finds what the tool has written just when no value has a
backslash before its last character, no name is empty and the table has room for the variables;
the tool finds what the boot loader has exported just when no value has a backslash. -/
theorem fwEnv_agrees_iff {config : EnvConfig} (usable : config.Usable) :
    (∀ (access : FwEnvAccess) (old : Option HsearchData) (flag size : Nat) (e e' : FwEnvironment)
        (vars : List EnvVar), access.Free → flag &&& H_NOCLEAR = 0 → Image size e.data [] →
      (vars.map name).Nodup →
      (∀ v ∈ vars, isblank (v.name.headD 0) = false ∧ v.name.headD 0 ≠ NUMBER_SIGN) →
      writeAll size access e vars = some e' →
      (ImportsAs config old flag size e'.data vars ↔ ImportKept config size vars)) ∧
    (∀ (hooks : HashHooks) (crc32 : List UInt8 → BitVec 32) (envSize : Nat) (htab : HsearchData)
        (entries : EnvMap) (flags flags' : BitVec 8) (env : EnvT) (before : Memory),
      htab.Refines entries → StringMap entries → 0 < envSize →
      envExport crc32 config hooks envSize htab flags = .ok (env, flags') →
      (ExportReads config envSize htab before env ↔
        ∀ key held, entries.lookup key = some held → BACKSLASH ∉ held)) := by
  constructor
  · intro access old flag size e e' vars free clears empty nodup names written
    exact importsAs_iff usable clears old free empty nodup names written
  · intro hooks crc32 envSize htab entries flags flags' env before refines strings sized exported
    exact exportReads_iff refines strings sized exported before

def blankArea : FwEnvironment := ⟨fun _ => 0, false⟩

theorem image_blankArea : Image 13 blankArea.data [] := image_zeros

theorem exists_writeAll_single {v : EnvVar} (nonempty : v.value ≠ [])
    (fits : v.text.length + 2 ≤ 13) :
    ∃ e', writeAll 13 freeAccess blankArea [v] = some e' := by
  have room : v.text.length + 2 ≤ roomFor 13 [] v.name := fits
  obtain ⟨e', returned, -⟩ := (fwEnvWrite_edits freeAccess_free image_blankArea v).1
    (.inr (.inr (.inl room)))
  rw [setVar, if_neg nonempty, if_neg not_mem_nil, if_pos room] at returned
  refine ⟨e', ?_⟩
  rw [writeAll, returned]
  rfl

theorem exists_exported_single (key held : CString) (short : key.length + held.length ≤ 6) :
    ∃ htab env, htab.Refines ((∅ : EnvMap).insert key held) ∧
      envExport (fun _ => 0) .default .permissive 16 htab 0 = .ok (env, 1) := by
  obtain ⟨htab, refines⟩ := exists_refines_single key held
  have fits : (exportText 0 (exportList .default htab 0 [])).length < 16 := by
    have escaped : (escape 0 held).length ≤ 2 * held.length := by
      rw [length_escape]
      have atMost : ∀ c ∈ held, (if c = 0 ∨ c = BACKSLASH then 2 else 1) ≤ 2 := by
        intro c _
        split <;> omega
      have sum := sum_le_card_nsmul (held.map fun c => if c = 0 ∨ c = BACKSLASH then 2 else 1)
        2 (by simpa using atMost)
      rw [length_map, smul_eq_mul] at sum
      omega
    rw [exportList_single refines, length_exportText, map_singleton, sum_singleton,
      exportEntry, length_append, length_append, length_cons, length_singleton]
    change key.length + ((escape 0 held).length + 1) + 1 < 16
    omega
  obtain ⟨env, exported, -⟩ := exists_envExport (fun _ => 0) .permissive 0 fits
  exact ⟨htab, env, refines, exported⟩

theorem stringMap_single {key held : CString} (proper : EQUALS_SIGN ∉ key ∧ 0 ∉ key ∧ 0 ∉ held) :
    StringMap ((∅ : EnvMap).insert key held) := by
  intro other value present
  by_cases same : other = key
  · subst same
    rw [lookup_insert] at present
    rw [← some.inj present]
    exact proper
  · rw [lookup_insert_of_ne _ same] at present
    cases present

/-- The variable `a=1` written by the tool, and `a=b` exported by the boot loader. -/
theorem fwEnv_agrees_iff_sample :
    (∃ v e', v.name = [97] ∧ writeAll 13 freeAccess blankArea [v] = some e' ∧
      ImportsAs .default none 0 13 e'.data [v]) ∧
    ∃ htab env, htab.Refines ((∅ : EnvMap).insert [97] [98]) ∧
      envExport (fun _ => 0) .default .permissive 16 htab 0 = .ok (env, 1) ∧
      ExportReads .default 16 htab (fun _ => 0) env := by
  obtain ⟨imports, exports⟩ := fwEnv_agrees_iff usable_default
  constructor
  · let v : EnvVar := sampleVar 97 49 (by decide)
    obtain ⟨e', written⟩ := exists_writeAll_single (v := v) (by decide) (by decide)
    have kept : ImportKept .default 13 [v] := by
      refine ⟨by decide, fun created creation => ?_⟩
      have room := le_size_of_usable usable_default creation
      exact (length_filter_le _ _).trans (Nat.le_of_succ_le room)
    have agrees := imports freeAccess none 0 13 blankArea e' [v] freeAccess_free rfl
      image_blankArea (by decide) (by decide) written
    exact ⟨v, e', rfl, written, agrees.2 kept⟩
  obtain ⟨htab, env, refines, exported⟩ := exists_exported_single [97] [98] (by decide)
  refine ⟨htab, env, refines, exported, (exports _ _ 16 htab _ 0 1 env (fun _ => 0) refines
    (stringMap_single (by decide)) (by decide) exported).2 ?_⟩
  intro key held present
  by_cases same : key = [97]
  · subst same
    rw [← some.inj present]
    decide
  · rw [lookup_insert_of_ne _ same] at present
    cases present

/-- The value of a variable with a backslash in it is read differently in both directions. -/
theorem fwEnv_disagrees : (∃ v e', v.name = [97] ∧ v.value = [97, BACKSLASH, 98] ∧
      writeAll 13 freeAccess blankArea [v] = some e' ∧
      ¬ImportsAs .default none 0 13 e'.data [v]) ∧
    ∃ htab env, htab.Refines ((∅ : EnvMap).insert [97] [97, BACKSLASH, 98]) ∧
      envExport (fun _ => 0) .default .permissive 16 htab 0 = .ok (env, 1) ∧
      ¬ExportReads .default 16 htab (fun _ => 0) env := by
  constructor
  · let v : EnvVar := ⟨[97], [97, BACKSLASH, 98], by decide, by decide, by decide⟩
    obtain ⟨e', written⟩ := exists_writeAll_single (v := v) (by decide) (by decide)
    refine ⟨v, e', rfl, rfl, written, ?_⟩
    rw [importsAs_iff usable_default rfl none freeAccess_free image_blankArea (by decide)
      (by decide) written]
    exact fun kept => (kept.1 v mem_cons_self).2 (by decide)
  obtain ⟨htab, env, refines, exported⟩ :=
    exists_exported_single [97] [97, BACKSLASH, 98] (by decide)
  refine ⟨htab, env, refines, exported, ?_⟩
  rw [exportReads_iff refines (stringMap_single (by decide)) (by decide) exported]
  intro plain
  exact plain [97] [97, BACKSLASH, 98] (lookup_insert ∅) (by decide)

end UBoot
