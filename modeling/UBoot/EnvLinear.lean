import UBoot.EnvCommon
import UBoot.EnvRoundTrip

/-!
# Early and late lookups of environment variables

Before relocation a variable is looked up in the exported data itself, later in
the hash table that was imported from the data.  Both find the same variables.
They give the same value if it has no backslash: the exporter puts a backslash
in front of each one, which the early lookup does not remove.
-/

namespace UBoot

open List Nat

variable {configEnvSize : Nat}

theorem findEnd_string : ∀ {s : CString} {offset : Nat}, 0 ∉ s → offset + s.length ≤ configEnvSize →
      ∀ rest, findEnd configEnvSize offset (s ++ 0 :: rest) = some (some (s, rest)) := by
  intro s
  induction s with
  | nil =>
    intro offset _ _ rest
    simp [findEnd]
  | cons c s ih =>
    intro offset nulFree inside rest
    rw [mem_cons, not_or] at nulFree
    rw [length_cons] at inside
    have notNul : c ≠ 0 := Ne.symm nulFree.1
    have notEnd : ¬ configEnvSize ≤ offset := by omega
    simp [findEnd, notNul, notEnd, ih nulFree.2 (by omega : offset + 1 + s.length ≤ _)]

theorem name_matches_iff {name key value : CString} (nameOk : EQUALS_SIGN ∉ name)
    (keyOk : EQUALS_SIGN ∉ key) :
    (name.isPrefixOf (key ++ EQUALS_SIGN :: value) = true ∧
      ((key ++ EQUALS_SIGN :: value).drop name.length).headD 0 = EQUALS_SIGN) ↔
      name = key := by
  constructor
  · rintro ⟨isPrefix, next⟩
    obtain ⟨tail, split⟩ := isPrefixOf_iff_prefix.1 isPrefix
    rw [← split, drop_left] at next
    cases tail with
    | nil => cases next
    | cons c tail =>
      subst next
      have names := congrArg (takeWhile fun c => c ≠ EQUALS_SIGN) split
      have nameAll : ∀ c ∈ name, decide (c ≠ EQUALS_SIGN) = true := by
        intro c member
        exact decide_eq_true fun same => nameOk (same ▸ member)
      have keyAll : ∀ c ∈ key, decide (c ≠ EQUALS_SIGN) = true := by
        intro c member
        exact decide_eq_true fun same => keyOk (same ▸ member)
      rw [takeWhile_append_of_pos nameAll, takeWhile_append_of_pos keyAll] at names
      simpa using names
  · rintro rfl
    constructor
    · exact isPrefixOf_iff_prefix.2 (prefix_append _ _)
    · rw [drop_left]
      rfl

section Lookup

/-- What a lookup with a buffer of `len` bytes should return: the length of the
value and as much of the value as there is room for. -/
def linearReply (len : Nat) : Option CString → LinearResult
  | none => .notFound
  | some value => .found value.length (value.take (len - 1) ++ [0])

variable {len : Nat}

theorem copyValue_eq (value : CString) (pos : 0 < len) :
    copyValue value len = value.take (len - 1) ++ [0] := by
  unfold copyValue
  split_ifs with short
  · obtain ⟨less, rfl⟩ : ∃ less, len = less + 1 := ⟨len - 1, by omega⟩
    rw [min_eq_left (by omega), take_append_of_le_length short,
      Nat.add_sub_cancel, take_add_one, List.getElem?_eq_getElem (by omega)]
    have index : (value.take less).length = less := by
      rw [length_take]
      omega
    rw [set_append_right _ _ (by omega), index, Nat.sub_self]
    rfl
  · rw [min_eq_right (by omega), take_of_length_le (by simp), take_of_length_le (by omega)]

theorem nulFree_escape {sep : UInt8} {s : CString} (nulFree : 0 ∉ s) : 0 ∉ escape sep s := by
  intro member
  obtain ⟨c, cMem, nul⟩ := mem_flatMap.1 member
  have notNul : c ≠ 0 := by
    rintro rfl
    exact nulFree cMem
  split_ifs at nul <;> simp [BACKSLASH, Ne.symm notNul] at nul

def entryString (ep : EnvEntry) : CString := ep.keyText ++ EQUALS_SIGN :: escape 0 ep.dataText

theorem nulFree_entryString {ep : EnvEntry}
    (importable : ImportableKey 0 ep.keyText ∧ ImportableData ep.dataText) :
    0 ∉ entryString ep := by
  unfold entryString
  rw [mem_append, mem_cons, not_or, not_or]
  refine ⟨fun member => (importable.1.chars 0 member).2.1 rfl, by decide, ?_⟩
  exact nulFree_escape importable.2.nulFree

variable {name : CString}

theorem linearLoop_entry (nameOk : EQUALS_SIGN ∉ name) (pos : 0 < len) {ep : EnvEntry}
    (importable : ImportableKey 0 ep.keyText ∧ ImportableData ep.dataText)
    (fuel : Nat) {offset : Nat}
    (inside : offset + (entryString ep).length ≤ configEnvSize) (rest : List UInt8) :
    linearLoop configEnvSize name len (fuel + 1) offset (exportEntry 0 ep ++ rest) =
      if name = ep.keyText then some (linearReply len (some (escape 0 ep.dataText)))
      else linearLoop configEnvSize name len fuel (offset + (exportEntry 0 ep).length) rest := by
  have keyOk : EQUALS_SIGN ∉ ep.keyText := fun member =>
    (importable.1.chars _ member).1 rfl
  have text : exportEntry 0 ep ++ rest = entryString ep ++ 0 :: rest := by
    simp [exportEntry, entryString]
  have length : (exportEntry 0 ep).length = (entryString ep).length + 1 := by
    simp [exportEntry, entryString, add_assoc]
  have scanned := findEnd_string (nulFree_entryString importable) inside rest
  obtain ⟨c, s, key, notNul⟩ := importable.1.exists_cons
  obtain ⟨tail, cons⟩ : ∃ tail, entryString ep ++ 0 :: rest = c :: tail := by
    simp [entryString, key]
  rw [text, length]
  rw [cons] at scanned ⊢
  rw [linearLoop, if_neg notNul, scanned, Option.bind_eq_bind, Option.bind_some]
  dsimp only
  have differs : (!name.isPrefixOf (entryString ep) ∨
      ((entryString ep).drop name.length).headD 0 ≠ EQUALS_SIGN) ↔ name ≠ ep.keyText := by
    rw [Ne, Ne, ← name_matches_iff nameOk keyOk, not_and_or, Bool.not_eq_true, Bool.not_eq_true']
    rfl
  by_cases same : name = ep.keyText
  · have value : (entryString ep).drop (name.length + 1) = escape 0 ep.dataText := by
      rw [same, entryString, drop_append]
      simp
    rw [if_neg (mt differs.1 (not_not.2 same)), if_pos same, linearReply, value,
      ← copyValue_eq _ pos]
    rfl
  · rw [if_pos (differs.2 same), if_neg same, add_assoc]

theorem linearLoop_exportEntries (nameOk : EQUALS_SIGN ∉ name)
    (pos : 0 < len) (padding : Nat) (list : List EnvEntry) :
    ∀ {fuel offset}, ImportableList 0 list → list.length < fuel →
      offset + (list.flatMap (exportEntry 0)).length ≤ configEnvSize →
      linearLoop configEnvSize name len fuel offset
          (list.flatMap (exportEntry 0) ++ replicate (padding + 1) 0) =
        some (linearReply len ((list.find? fun ep => name = ep.keyText).map fun ep =>
          escape 0 ep.dataText)) := by
  induction list with
  | nil =>
    intro fuel offset _ enough _
    obtain ⟨fuel, rfl⟩ : ∃ less, fuel = less + 1 := ⟨fuel - 1, by omega⟩
    simp [replicate_succ, linearLoop, linearReply]
  | cons ep list ih =>
    intro fuel offset importable enough inside
    rw [length_cons] at enough
    obtain ⟨fuel, rfl⟩ : ∃ less, fuel = less + 1 := ⟨fuel - 1, by omega⟩
    rw [flatMap_cons, length_append] at inside
    have string : (entryString ep).length ≤ (exportEntry 0 ep).length := by
      simp [exportEntry, entryString]
    rw [flatMap_cons, append_assoc,
      linearLoop_entry nameOk pos (importable ep mem_cons_self) fuel (by omega)]
    by_cases same : name = ep.keyText
    · simp [same]
    have later : ImportableList 0 list := fun other member =>
      importable other (mem_cons_of_mem ep member)
    rw [if_neg same, ih later (by omega) (by omega)]
    simp [same]

variable {config : EnvConfig} {hooks : HashHooks} {htab : HsearchData}
  {entries : EnvMap}

theorem find_exportList (refines : htab.Refines entries) {list : List EnvEntry}
    (perm : list.Perm (exportList config htab 0 [])) (name : CString) :
    (list.find? fun ep => name = ep.keyText).map EnvEntry.dataText = entries.lookup name := by
  cases found : list.find? fun ep => name = ep.keyText with
  | some ep =>
    have same : name = ep.keyText := by simpa using find?_some found
    obtain ⟨key, data, present, rfl⟩ := (mem_exportList_iff refines).1
      (perm.mem_iff.1 (mem_of_find?_eq_some found))
    rw [same]
    exact present.symm
  | none =>
    cases present : entries.lookup name with
    | none => rfl
    | some data =>
      have member : (⟨some name, some data⟩ : EnvEntry) ∈ list :=
        perm.mem_iff.2 ((mem_exportList_iff refines).2 ⟨name, data, present, rfl⟩)
      have differs := find?_eq_none.1 found _ member
      exact absurd (decide_eq_true rfl) differs

theorem envGetFromLinear_exportText (refines : htab.Refines entries)
    (importable : ImportableMap 0 entries)
    (nameOk : EQUALS_SIGN ∉ name) (pos : 0 < len) (padding : Nat)
    (inside : (exportText 0 (exportList config htab 0 [])).length ≤ configEnvSize) :
    envGetFromLinear configEnvSize (exportText 0 (exportList config htab 0 []) ++
        replicate (padding + 1) 0) name len =
      some (linearReply len ((entries.lookup name).map (escape 0))) := by
  unfold envGetFromLinear
  split_ifs with empty
  · have missing : entries.lookup name = none := by
      cases present : entries.lookup name with
      | none => rfl
      | some data => exact absurd empty (importable name data present).1.nonempty
    rw [missing]
    rfl
  have perm := perm_insertionSort (fun e1 e2 : EnvEntry => strcmp e1.keyText e2.keyText ≤ 0)
    (exportList config htab 0 [])
  have found := find_exportList refines perm name
  have lengths := length_le_length_exportEntries 0
    ((exportList config htab 0 []).insertionSort fun e1 e2 =>
      strcmp e1.keyText e2.keyText ≤ 0)
  rw [← found, Option.map_map]
  apply linearLoop_exportEntries nameOk pos padding
  · exact importableList_of_perm refines importable perm
  · rw [length_append]
    exact lt_succ_of_le (le_add_right_of_le lengths)
  · rw [zero_add]
    exact inside

theorem envGet_eq (refines : htab.Refines entries) (hooks : HashHooks)
    (name : CString) : envGet hooks htab name = some (entries.lookup name) := by
  obtain ⟨result, search, found⟩ := refines.hsearchR_find hooks name none 0
  simp [envGet, search, found]

theorem escape_eq_self {data : CString} (nulFree : 0 ∉ data)
    (plain : BACKSLASH ∉ data) : escape 0 data = data := by
  have chars : ∀ c ∈ data, (if c = 0 ∨ c = BACKSLASH then [BACKSLASH, c] else [c]) = [c] := by
    intro c member
    rw [if_neg]
    rintro (rfl | rfl)
    · exact nulFree member
    · exact plain member
  rw [escape, flatMap_congr chars, flatMap_singleton']

theorem exists_envExport (crc32 : List UInt8 → BitVec 32) (hooks : HashHooks)
    (envFlags : BitVec 8) {envSize : Nat}
    (fits : (exportText 0 (exportList config htab 0 [])).length < envSize) :
    ∃ env, envExport crc32 config hooks envSize htab envFlags = .ok (env, envFlags + 1) ∧
      env.data = exportText 0 (exportList config htab 0 []) ++ replicate
        (envSize - (exportText 0 (exportList config htab 0 [])).length) 0 := by
  obtain ⟨result, written⟩ : ∃ result,
      hexportR config hooks htab 0 0 true envSize [] = .ok result :=
    exists_hexportR (Or.inl rfl) (Or.inr fits)
  obtain ⟨sized, bytes⟩ := hexportR_ok written
  refine ⟨⟨crc32 (result.bytes.take envSize), envFlags + 1, result.bytes.take envSize⟩, ?_, ?_⟩
  · rw [envExport, written]
    rfl
  · rw [bytes]
    exact take_append_replicate _ _ _ (by omega) (by omega)

/-- The early lookup finds the same names as the lookup in the imported table, and
gives the same value, as far as there is room for it, if the value has no
backslash. -/
theorem envGetFromLinear_agrees (usable : config.Usable) (refines : htab.Refines entries)
    (importable : ImportableMap 0 entries) (crc32 : List UInt8 → BitVec 32)
    (envFlags : BitVec 8) {envSize : Nat} (sizeLe : envSize ≤ configEnvSize)
    (fits : (exportText 0 (exportList config htab 0 [])).length < envSize)
    (room : ∀ created, hcreateR (importEntries config envSize) = some created →
      entries.keys.card ≤ created.size)
    {flag : Nat} (clears : flag &&& H_NOCLEAR = 0) (old : Option HsearchData) :
    ∃ env imported, envExport crc32 config hooks envSize htab envFlags = .ok (env, envFlags + 1) ∧
      himportR config .permissive old env.data 0 flag false [] = some ⟨1, none, some imported⟩ ∧
      ∀ name len, EQUALS_SIGN ∉ name → 0 < len →
        ∃ found, envGet .permissive imported name = some found ∧
          (envGetFromLinear configEnvSize env.data name len = some .notFound ↔ found = none) ∧
          ((∀ value, found = some value → BACKSLASH ∉ value) →
            envGetFromLinear configEnvSize env.data name len = some (linearReply len found)) := by
  obtain ⟨env, exported, data⟩ := exists_envExport crc32 hooks envFlags fits
  have good : GoodSeparator 0 := ⟨by decide, by decide, by decide, by decide⟩
  obtain ⟨padding, paddingEq⟩ : ∃ padding, envSize -
      (exportText 0 (exportList config htab 0 [])).length = padding + 1 :=
    ⟨_, (Nat.sub_add_cancel (Nat.sub_pos_of_lt fits)).symm⟩
  rw [paddingEq] at data
  obtain ⟨imported, result, refined⟩ := himportR_exportText usable refines good
    importable clears old (padding + 1) (by
      rw [← paddingEq, Nat.add_sub_cancel' (Nat.le_of_lt fits)]
      exact room)
  rw [← data] at result
  refine ⟨env, imported, exported, result, fun name len nameOk pos => ?_⟩
  refine ⟨entries.lookup name, envGet_eq refined .permissive name, ?_⟩
  rw [data, envGetFromLinear_exportText refines importable nameOk pos padding (by omega)]
  cases present : entries.lookup name with
  | none => simp [linearReply]
  | some value =>
    constructor
    · simp [linearReply]
    · intro plain
      have nulFree := (importable name value present).2.nulFree
      rw [Option.map_some, escape_eq_self nulFree (plain value rfl)]

theorem exportList_single {key data : CString}
    (refines : htab.Refines ((∅ : EnvMap).insert key data)) :
    exportList config htab 0 [] = [⟨some key, some data⟩] := by
  have member : (⟨some key, some data⟩ : EnvEntry) ∈ exportList config htab 0 [] :=
    (mem_exportList_iff refines).2 ⟨key, data, Finmap.lookup_insert ∅, rfl⟩
  have length := length_exportList config refines
  have atMost := card_keys_single key data
  have pos := length_pos_of_mem member
  obtain ⟨ep, single⟩ := length_eq_one_iff.1 (by omega : (exportList config htab 0 []).length = 1)
  rw [single, mem_singleton] at member
  rw [single, member]

/-- The environment `a=b`. -/
theorem envGetFromLinear_agrees_single :
    ∃ htab env imported, htab.Refines ((∅ : EnvMap).insert [97] [98]) ∧
      envExport (fun _ => 0) .default .permissive 16 htab 0 = .ok (env, 1) ∧
      himportR .default .permissive none env.data 0 0 false [] = some ⟨1, none, some imported⟩ ∧
      ∃ found, envGet .permissive imported [97] = some found ∧
        (envGetFromLinear 21 env.data [97] 8 = some .notFound ↔ found = none) := by
  obtain ⟨htab, refines⟩ := exists_refines_single [97] [98]
  have importable : ImportableMap 0 ((∅ : EnvMap).insert [97] [98]) :=
    importableMap_single ⟨by decide, forall_mem_singleton.2 (by decide), by decide, by decide⟩
      ⟨by decide, by decide⟩
  have fits : (exportText 0 (exportList .default htab 0 [])).length < 16 := by
    rw [exportList_single refines]
    decide
  obtain ⟨env, imported, exported, import_, agrees⟩ := envGetFromLinear_agrees
    usable_default refines importable (fun _ => 0) 0 (by decide : 16 ≤ 21) fits
    (fun created creation => (card_keys_single _ _).trans
      (le_of_succ_le (le_size_of_usable usable_default creation)))
    (by decide : 0 &&& H_NOCLEAR = 0) none
  obtain ⟨found, late, early, -⟩ := agrees [97] 8 (by decide) (by decide)
  exact ⟨htab, env, imported, refines, exported, import_, found, late, early⟩

/-- The return value of the import, the late and the early lookup of a variable in
an environment that has nothing else. -/
def lookupsOf (name value : CString) : Option (Nat × Option CString × LinearResult) := do
  let htab ← hcreateR 2
  let (_, htab) ← hsearchR .permissive htab name (some value) .enter 0
  let (env, _) ← (envExport (fun _ => 0) .default .permissive 16 htab 0).toOption
  let result ← himportR .default .permissive none env.data 0 0 false []
  let imported ← result.htab
  let late ← envGet .permissive imported name
  let early ← envGetFromLinear 21 env.data name 8
  return (result.ret, late, early)

/-- A value that is a backslash has two characters before relocation, and a name that
starts like a comment exists only before relocation. -/
theorem lookupsOf_differ : lookupsOf [97] [BACKSLASH] =
      some (1, some [BACKSLASH], .found 2 [BACKSLASH, BACKSLASH, 0]) ∧
    lookupsOf [NUMBER_SIGN, 97] [98] = some (1, none, .found 1 [98, 0]) := by decide

end Lookup

end UBoot
