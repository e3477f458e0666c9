import UBoot.EnvImport

/-!
# Export and import of the environment

Importing the text that was exported from a hash table gives a table with the
same entries.
-/

namespace UBoot

open List OpenAddressing Option EnvEntry Finmap Nat

def insertAll (entries : EnvMap) (list : List EnvEntry) : EnvMap :=
  list.foldl (fun entries ep => entries.insert ep.keyText ep.dataText) entries

def ImportableList (sep : UInt8) (list : List EnvEntry) : Prop :=
  ∀ ep ∈ list, ImportableKey sep ep.keyText ∧ ImportableData ep.dataText

variable {entries : EnvMap}

section Entries

variable {list : List EnvEntry} {key : CString}

theorem lookup_insertAll_of_notMem (notMem : key ∉ list.map keyText) :
    (insertAll entries list).lookup key = entries.lookup key := by
  induction list generalizing entries with
  | nil => rfl
  | cons ep list ih =>
    rw [map_cons, mem_cons, not_or] at notMem
    have rest : (insertAll (entries.insert ep.keyText ep.dataText) list).lookup key =
        (entries.insert ep.keyText ep.dataText).lookup key := ih notMem.2
    rw [lookup_insert_of_ne entries notMem.1] at rest
    exact rest

theorem lookup_insertAll_of_mem (nodup : (list.map keyText).Nodup)
    {ep : EnvEntry} (member : ep ∈ list) :
    (insertAll entries list).lookup ep.keyText = some ep.dataText := by
  induction list generalizing entries with
  | nil => cases member
  | cons head list ih =>
    rw [map_cons, nodup_cons] at nodup
    rcases mem_cons.1 member with rfl | later
    · have rest : (insertAll (entries.insert ep.keyText ep.dataText) list).lookup
          ep.keyText = (entries.insert ep.keyText ep.dataText).lookup ep.keyText :=
        lookup_insertAll_of_notMem nodup.1
      rw [lookup_insert] at rest
      exact rest
    · exact ih nodup.2 later

end Entries

variable {htab : HsearchData} {config : EnvConfig} {ep : EnvEntry}

theorem listedEntry_eq (node : EnvEntryNode) :
    listedEntry config 0 [] node = if node.used ≤ 0 then none else some node.entry := by
  simp [listedEntry]

theorem exists_live_of_listedEntry (valid : htab.Valid) {idx : Nat}
    (listed : listedEntry config 0 [] (htab.node idx) = some ep) :
    ∃ key data, htab.slots idx = .live key data ∧ ep = ⟨some key, some data⟩ := by
  rw [listedEntry_eq] at listed
  split_ifs at listed with unused
  rcases valid.nodes idx with free | deleted | ⟨key, data, node⟩
  · rw [free] at unused
    exact absurd (le_refl _) unused
  · rw [deleted] at unused
    exact absurd (by decide) unused
  · refine ⟨key, data, ?_, ?_⟩
    · rw [HsearchData.slots, node, slot_live]
    · rw [← some.inj listed, node]

theorem mem_exportList (valid : htab.Valid) : ep ∈ exportList config htab 0 [] ↔
      ∃ idx key data, htab.slots idx = .live key data ∧ ep = ⟨some key, some data⟩ := by
  unfold exportList
  rw [mem_filterMap]
  constructor
  · rintro ⟨idx, -, listed⟩
    exact ⟨idx, exists_live_of_listedEntry valid listed⟩
  rintro ⟨idx, key, data, live, rfl⟩
  have bounds := Finset.mem_Icc.1 (valid.mem_of_live live)
  have pos := (Finset.mem_Icc.1 (firstHash_mem key valid.large)).1
  refine ⟨idx, mem_range'_1.2 (by omega), ?_⟩
  rw [listedEntry_eq, valid.node_of_live live, if_neg]
  simp only [not_le]
  omega

theorem nodup_exportList (config : EnvConfig) (valid : htab.Valid) :
    ((exportList config htab 0 []).map keyText).Nodup := by
  unfold exportList
  rw [map_filterMap]
  apply List.Nodup.filterMap _ nodup_range'
  intro first second key firstMem secondMem
  obtain ⟨firstEntry, firstListed, firstKey⟩ := map_eq_some_iff.1 firstMem
  obtain ⟨secondEntry, secondListed, secondKey⟩ := map_eq_some_iff.1 secondMem
  obtain ⟨_, data, firstLive, rfl⟩ := exists_live_of_listedEntry valid firstListed
  obtain ⟨_, other, secondLive, rfl⟩ := exists_live_of_listedEntry valid secondListed
  subst firstKey
  obtain rfl := secondKey
  exact valid.searchable.unique first second _ data other firstLive secondLive

theorem mem_exportList_iff (refines : htab.Refines entries) : ep ∈ exportList config htab 0 [] ↔
      ∃ key data, entries.lookup key = some data ∧ ep = ⟨some key, some data⟩ := by
  rw [mem_exportList refines.valid]
  constructor
  · rintro ⟨idx, key, data, live, rfl⟩
    exact ⟨key, data, (refines.stores key data).2 ⟨idx, live⟩, rfl⟩
  · rintro ⟨key, data, present, rfl⟩
    obtain ⟨idx, live⟩ := refines.exists_live present
    exact ⟨idx, key, data, live, rfl⟩

/-- The list that `hexport_r` writes is sorted, so only its elements count. -/
theorem insertAll_eq (refines : htab.Refines entries) {list : List EnvEntry}
    (perm : list.Perm (exportList config htab 0 [])) : insertAll ∅ list = entries := by
  have nodup : (list.map keyText).Nodup :=
    (perm.map keyText).nodup_iff.2 (nodup_exportList config refines.valid)
  apply ext_lookup
  intro key
  cases found : entries.lookup key with
  | some data =>
    have member : (⟨some key, some data⟩ : EnvEntry) ∈ list :=
      perm.mem_iff.2 ((mem_exportList_iff refines).2 ⟨key, data, found, rfl⟩)
    exact lookup_insertAll_of_mem nodup member
  | none =>
    have notMem : key ∉ list.map keyText := by
      intro member
      obtain ⟨ep, epMem, rfl⟩ := mem_map.1 member
      obtain ⟨key, data, present, rfl⟩ := (mem_exportList_iff refines).1 (perm.mem_iff.1 epMem)
      rw [show keyText ⟨some key, some data⟩ = key from rfl] at found
      rw [found] at present
      cases present
    rw [lookup_insertAll_of_notMem notMem]
    exact lookup_empty key

theorem length_exportList (config : EnvConfig) (refines : htab.Refines entries) :
    (exportList config htab 0 []).length = entries.keys.card := by
  rw [← length_map keyText, ← toFinset_card_of_nodup (nodup_exportList config refines.valid)]
  congr 1
  ext key
  rw [List.mem_toFinset, List.mem_map, Finmap.mem_keys, mem_iff]
  constructor
  · rintro ⟨ep, epMem, rfl⟩
    obtain ⟨key, data, present, rfl⟩ := (mem_exportList_iff refines).1 epMem
    exact ⟨data, present⟩
  · rintro ⟨data, present⟩
    exact ⟨⟨some key, some data⟩, (mem_exportList_iff refines).2 ⟨key, data, present, rfl⟩, rfl⟩

variable {sep : UInt8}

section Import

variable (flag : Nat)

theorem parseItem_exportEntry (good : GoodSeparator sep)
    (importable : ImportableKey sep ep.keyText ∧ ImportableData ep.dataText)
    (rest : List UInt8) :
    parseItem sep (exportEntry sep ep ++ rest) = (.insert ep.keyText ep.dataText, rest) := by
  have parsed := parseItem_entry good importable.1 importable.2 rest
  simpa [exportEntry] using parsed

theorem headD_exportEntry_ne_zero (importable : ImportableKey sep ep.keyText) :
    (exportEntry sep ep).headD 0 ≠ 0 := by
  obtain ⟨c, s, key, notNul⟩ := importable.exists_cons
  simpa [exportEntry, key] using notNul

def EnvEntry.item (ep : EnvEntry) : ImportItem := .insert ep.keyText ep.dataText

theorem two_le_length_exportEntry (sep : UInt8) (ep : EnvEntry) :
    2 ≤ (exportEntry sep ep).length := by
  simp only [exportEntry, length_append, length_cons, length_nil]
  omega

theorem length_le_length_exportEntries (sep : UInt8) (list : List EnvEntry) :
    list.length ≤ (list.flatMap (exportEntry sep)).length := by
  induction list with
  | nil => simp
  | cons ep list ih =>
    have entry := two_le_length_exportEntry sep ep
    rw [flatMap_cons, length_append, length_cons]
    omega

theorem parseItem_nul (sep : UInt8) (dp : List UInt8) :
    parseItem sep (0 :: dp) = (.delete [], dp) := by
  have notBlank : isblank 0 = false := rfl
  have notName : isNameChar sep 0 = false := by simp [isNameChar]
  have notComment : (0 : UInt8) ≠ NUMBER_SIGN := by decide
  have notEquals : (0 : UInt8) ≠ EQUALS_SIGN := by decide
  simp [parseItem, notBlank, notName, notComment, notEquals]

theorem importLoop_exportText (good : GoodSeparator sep) (padding : Nat)
    {list : List EnvEntry} (importable : ImportableList sep list)
    (refines : htab.Refines ∅) (room : list.length ≤ htab.size)
    (notEmpty : 0 < (list.flatMap (exportEntry sep)).length + padding) {fuel : Nat}
    (enough : (list.flatMap (exportEntry sep)).length + padding < fuel) :
    ∃ imported, importLoop .permissive sep flag fuel
        (list.flatMap (exportEntry sep) ++ replicate (padding + 1) 0)
        ((list.flatMap (exportEntry sep)).length + padding) [] htab =
        some ⟨none, [], imported⟩ ∧
      imported.Refines (insertAll ∅ list) := by
  cases list with
  | nil =>
    obtain ⟨fuel, rfl⟩ : ∃ less, fuel = less + 1 := ⟨fuel - 1, by omega⟩
    obtain ⟨padding, rfl⟩ : ∃ less, padding = less + 1 := ⟨padding - 1, by simp at notEmpty; omega⟩
    have missing : hdeleteR .permissive htab [] flag = some (.notFound, htab) :=
      hdeleteR_of_absent refines.valid .permissive flag (refines.absent notMem_empty)
    refine ⟨htab, ?_, refines⟩
    rw [importLoop]
    simp [replicate_succ, parseItem_nul, importItem, dropVarFromSet, missing]
  | cons ep list =>
    have lengths := length_le_length_exportEntries sep (ep :: list)
    have accepted : ∀ item ∈ (ep :: list).map EnvEntry.item, item.refused = false := by
      rw [List.forall_mem_map]
      intro other member
      obtain ⟨c, s, key, -⟩ := (importable other member).1.exists_cons
      rw [item, key]
      rfl
    obtain ⟨imported, run, -, refined, -⟩ := importAll_permissive flag _ accepted refines
      (by simpa using room)
    refine ⟨imported, ?_, ?_⟩
    · have applied := run []
      rw [append_nil] at applied
      refine (importLoop_flatMap rfl
        (fun other member => parseItem_exportEntry good (importable other member))
        (fun other member => headD_exportEntry_ne_zero (importable other member).1)
        (cons_ne_nil _ _) ?_ (le_add_right _ _)).trans applied
      omega
    · rw [foldl_map] at refined
      exact refined

end Import

section Length

variable (sep : UInt8)

theorem length_escape_ge (s : CString) : s.length ≤ (escape sep s).length := by
  induction s with
  | nil => simp
  | cons c s ih =>
    rw [escape_cons, length_append, length_cons]
    split_ifs <;> simp <;> omega

theorem length_escape (s : CString) : (escape sep s).length =
      (s.map fun c => if c = sep ∨ c = BACKSLASH then 2 else 1).sum := by
  induction s with
  | nil => rfl
  | cons c s ih =>
    rw [escape_cons, length_append, ih, map_cons, sum_cons]
    split_ifs <;> rfl

theorem exportLength_le (ep : EnvEntry) : exportLength sep ep ≤ (exportEntry sep ep).length := by
  have escaped := length_escape sep ep.dataText
  have atLeast := length_escape_ge sep ep.dataText
  simp only [exportLength, exportEntry, length_append, length_cons, length_nil]
  split_ifs <;> omega

theorem length_exportText (list : List EnvEntry) : (exportText sep list).length =
      (list.map fun ep => (exportEntry sep ep).length).sum := by
  have perm := perm_insertionSort (fun e1 e2 : EnvEntry => strcmp e1.keyText e2.keyText ≤ 0) list
  rw [exportText, length_flatMap]
  exact (perm.map _).sum_eq

theorem sum_exportLength_le (list : List EnvEntry) :
    (list.map (exportLength sep)).sum ≤ (exportText sep list).length := by
  rw [length_exportText]
  exact sum_le_sum fun ep _ => exportLength_le sep ep

end Length

section RoundTrip

variable {hooks : HashHooks} {size flag : Nat}

theorem hexportR_ok {resp : Bool} {argv : List CString} {result : HexportResult}
    (exported : hexportR config hooks htab sep flag resp size argv = .ok result) :
    ((size = 0 → result.size =
          ((exportList config htab flag argv).map (exportLength sep)).sum + 1) ∧
        (size ≠ 0 → result.size = size ∧
          ((exportList config htab flag argv).map (exportLength sep)).sum < size)) ∧
      result.bytes = exportText sep (exportList config htab flag argv) ++
        replicate (1 + (result.size -
          ((exportText sep (exportList config htab flag argv)).length + 1))) 0 := by
  unfold hexportR at exported
  simp only [bind, Except.bind, pure, Except.pure, throw, throwThe, MonadExceptOf.throw] at exported
  split at exported
  · cases exported
  next enough =>
  split at exported
  · cases exported
  cases exported
  refine ⟨⟨fun zero => if_pos zero, fun sized => ⟨if_neg sized, ?_⟩⟩, by simp [replicate_add]⟩
  exact Nat.lt_of_not_le fun short => enough ⟨sized, by omega⟩

section NoAppend

variable (noAppend : config.append = false) {flag : Nat} (clears : flag &&& H_NOCLEAR = 0)
  (old : Option HsearchData)

include noAppend clears old

variable {created : HsearchData}

theorem himportR_of_importLoop {env : List UInt8} (notEmpty : env ≠ []) {result : ImportLoopResult}
    (creation : hcreateR (importEntries config env.length) = some created)
    (loop : importLoop .permissive sep flag (env.length + 1) (env ++ [0]) env.length []
      created = some result) :
    himportR config .permissive old env sep flag false [] =
      if result.errno = none then
        (deleteVars .permissive flag result.vars result.htab).bind fun htab =>
          some ⟨1, none, some htab⟩
      else some ⟨0, result.errno, some result.htab⟩ := by
  have malloc : HashHooks.permissive.malloc = true := rfl
  have length : (env ++ [0]).length = env.length + 1 := by simp
  unfold himportR
  simp [noAppend, clears, malloc, creation, notEmpty, loop, length]

theorem himportR_nil (creation : hcreateR (importEntries config 0) = some created) :
    himportR config .permissive old [] sep flag false [] = some ⟨1, none, some created⟩ := by
  have malloc : HashHooks.permissive.malloc = true := rfl
  unfold himportR
  simp [noAppend, clears, malloc, creation]

theorem himportR_exportEntries (good : GoodSeparator sep) (padding : Nat) {list : List EnvEntry}
    (importable : ImportableList sep list)
    (creation : hcreateR (importEntries config
      ((list.flatMap (exportEntry sep)).length + padding)) = some created)
    (empty : created.Refines ∅) (room : list.length ≤ created.size) :
    ∃ imported, himportR config .permissive old
        (list.flatMap (exportEntry sep) ++ replicate padding 0) sep flag false [] =
        some ⟨1, none, some imported⟩ ∧
      imported.Refines (insertAll ∅ list) := by
  have envLength : (list.flatMap (exportEntry sep) ++ replicate padding 0).length =
      (list.flatMap (exportEntry sep)).length + padding := by
    rw [length_append, length_replicate]
  by_cases notEmpty : 0 < (list.flatMap (exportEntry sep)).length + padding
  · obtain ⟨imported, loop, refined⟩ := importLoop_exportText flag good padding
      importable empty room notEmpty (lt_succ_self _)
    rw [← envLength] at creation notEmpty loop
    rw [replicate_succ', ← append_assoc] at loop
    exact ⟨imported, himportR_of_importLoop noAppend clears old (length_pos_iff.1 notEmpty)
      creation loop, refined⟩
  · have lengths := length_le_length_exportEntries sep list
    obtain rfl : padding = 0 := by omega
    obtain rfl : list = [] := length_eq_zero_iff.1 (by omega)
    exact ⟨created, himportR_nil noAppend clears old creation, empty⟩

end NoAppend

theorem two_le_importEntries (size : Nat) (minEntries : 2 ≤ config.minEntries)
    (maxEntries : 2 ≤ config.maxEntries) : 2 ≤ importEntries config size := by
  unfold importEntries
  simp only
  split_ifs <;> omega

theorem importEntries_le (size : Nat) : importEntries config size ≤ config.maxEntries := by
  unfold importEntries
  simp only
  split_ifs <;> omega

/-- The configuration creates a new table for an import, of a size for which its
slots can be numbered. -/
structure EnvConfig.Usable (config : EnvConfig) : Prop where
  noAppend : config.append = false
  minEntries : 2 ≤ config.minEntries
  maxEntries : 2 ≤ config.maxEntries
  maxBound : config.maxEntries < 2 ^ 31

def ImportableMap (sep : UInt8) (entries : EnvMap) : Prop :=
  ∀ key data, entries.lookup key = some data → ImportableKey sep key ∧ ImportableData data

theorem importableList_of_perm (refines : htab.Refines entries)
    (importable : ImportableMap sep entries) {list : List EnvEntry}
    (perm : list.Perm (exportList config htab 0 [])) : ImportableList sep list := by
  intro ep member
  obtain ⟨key, data, present, rfl⟩ := (mem_exportList_iff refines).1 (perm.mem_iff.1 member)
  exact importable key data present

theorem himportR_exportText (usable : config.Usable) (refines : htab.Refines entries)
    (good : GoodSeparator sep) (importable : ImportableMap sep entries)
    (clears : flag &&& H_NOCLEAR = 0) (old : Option HsearchData) (padding : Nat)
    (room : ∀ created, hcreateR (importEntries config
        ((exportText sep (exportList config htab 0 [])).length + padding)) =
      some created → entries.keys.card ≤ created.size) :
    ∃ imported, himportR config .permissive old
        (exportText sep (exportList config htab 0 []) ++ replicate padding 0) sep
        flag false [] = some ⟨1, none, some imported⟩ ∧ imported.Refines entries := by
  have perm := perm_insertionSort (fun e1 e2 : EnvEntry => strcmp e1.keyText e2.keyText ≤ 0)
    (exportList config htab 0 [])
  obtain ⟨created, creation, empty⟩ := refines_hcreateR
    (two_le_importEntries _ usable.minEntries usable.maxEntries)
    (lt_of_le_of_lt (importEntries_le _) usable.maxBound)
  have enough := room created creation
  rw [← length_exportList config refines, ← perm.length_eq] at enough
  obtain ⟨imported, result, refined⟩ := himportR_exportEntries usable.noAppend clears
    old good padding (importableList_of_perm refines importable perm) creation empty enough
  rw [insertAll_eq refines perm] at refined
  exact ⟨imported, result, refined⟩

theorem take_append_replicate (exported : CString) (count len : Nat)
    (textLe : exported.length ≤ len) (lenLe : len ≤ exported.length + count) :
    (exported ++ replicate count 0).take len = exported ++ replicate (len - exported.length) 0 := by
  rw [take_append, take_of_length_le textLe, take_replicate, min_eq_left (by omega)]

theorem exists_hexportR {resp : Bool} {argv : List CString}
    (memory : resp = true ∨ hooks.malloc = true)
    (enough : size = 0 ∨ (exportText sep (exportList config htab flag argv)).length < size) :
    ∃ result, hexportR config hooks htab sep flag resp size argv = .ok result := by
  have accounted := sum_exportLength_le sep (exportList config htab flag argv)
  have large : ¬ (size ≠ 0 ∧ size <
      ((exportList config htab flag argv).map (exportLength sep)).sum + 1) := by
    omega
  have allocated : ¬ (!resp ∧ !hooks.malloc) := by
    rcases memory with given | allocates
    · simp [given]
    · simp [allocates]
  unfold hexportR
  simp only [if_neg large, if_neg allocated]
  exact ⟨_, rfl⟩

/-- Import undoes export.  The text may be imported with any number of the NULs
that follow it in the buffer. -/
theorem himportR_hexportR (usable : config.Usable) (refines : htab.Refines entries)
    (good : GoodSeparator sep) (importable : ImportableMap sep entries)
    {resp : Bool} (memory : resp = true ∨ hooks.malloc = true) {size : Nat}
    (enough : size = 0 ∨ (exportText sep (exportList config htab 0 [])).length < size) :
    ∃ result, hexportR config hooks htab sep 0 resp size [] = .ok result ∧
      (exportText sep (exportList config htab 0 [])).length ≤ result.bytes.length ∧
      ∀ old len, (exportText sep (exportList config htab 0 [])).length ≤ len →
        len ≤ result.bytes.length →
        (∀ created, hcreateR (importEntries config len) = some created →
          entries.keys.card ≤ created.size) →
        ∃ imported, himportR config .permissive old (result.bytes.take len) sep 0 false
            [] = some ⟨1, none, some imported⟩ ∧ imported.Refines entries := by
  obtain ⟨result, exported⟩ : ∃ result,
      hexportR config hooks htab sep 0 resp size [] = .ok result :=
    exists_hexportR memory enough
  have written := (hexportR_ok exported).2
  refine ⟨result, exported, ?_, ?_⟩
  · rw [written, length_append]
    exact le_add_right _ _
  intro old len textLe lenLe room
  rw [written, length_append, length_replicate] at lenLe
  rw [written, take_append_replicate _ _ _ textLe lenLe]
  apply himportR_exportText usable refines good importable rfl
  rw [Nat.add_sub_cancel' textLe]
  exact room

theorem usable_default : EnvConfig.default.Usable := ⟨rfl, by decide, by decide, by decide⟩

theorem le_size_of_usable (usable : config.Usable) {created : HsearchData}
    (creation : hcreateR (importEntries config size) = some created) :
    2 ≤ created.size := by
  have large := two_le_importEntries size usable.minEntries usable.maxEntries
  have bound := lt_of_le_of_lt (importEntries_le size) usable.maxBound
  exact large.trans (le_size_of_hcreateR large bound creation)

section Single

variable {key data : CString}

theorem exists_refines_room (room : Nat) (key data : CString) :
    ∃ htab : HsearchData, htab.Refines ((∅ : EnvMap).insert key data) ∧ room ≤ htab.size := by
  obtain ⟨size, le, prime⟩ := exists_infinite_primes (room + 5)
  have large : 5 ≤ size := by omega
  obtain ⟨created, createdEq⟩ : ∃ created : HsearchData, created =
      ⟨replicate (size + 1) ⟨USED_FREE, ⟨none, none⟩⟩, size, 0⟩ := ⟨_, rfl⟩
  have sizeOf : created.size = size := by rw [createdEq]
  obtain ⟨valid, free⟩ := valid_of_free (sizeOf ▸ prime) (sizeOf ▸ large)
    (by rw [createdEq]) (by rw [createdEq])
  have empty : created.Refines ∅ := ⟨valid, fun key data => by simp [free]⟩
  have fits : key ∈ (∅ : EnvMap) ∨ (∅ : EnvMap).keys.card < created.size := by
    rw [keys_empty, Finset.card_empty]
    omega
  obtain ⟨-, htab, -, -, sizeEq, refines⟩ := empty.hsearchR_enter 0 data fits
  exact ⟨htab, refines, by omega⟩

theorem exists_refines_single (key data : CString) :
    ∃ htab : HsearchData, htab.Refines ((∅ : EnvMap).insert key data) := by
  obtain ⟨htab, refines, -⟩ := exists_refines_room 0 key data
  exact ⟨htab, refines⟩

theorem card_keys_single (key data : CString) : ((∅ : EnvMap).insert key data).keys.card ≤ 1 := by
  have le := card_keys_insert_le ∅ key data
  rwa [keys_empty, Finset.card_empty] at le

theorem importableMap_single (importableKey : ImportableKey sep key)
    (importableData : ImportableData data) :
    ImportableMap sep ((∅ : EnvMap).insert key data) := by
  intro other value present
  by_cases same : other = key
  · subst same
    rw [lookup_insert] at present
    cases present
    exact ⟨importableKey, importableData⟩
  · rw [lookup_insert_of_ne _ same] at present
    cases present

end Single

/-- A value that is a backslash, with line feeds as separators. -/
theorem himportR_hexportR_backslash :
    ∃ htab result imported, htab.Refines ((∅ : EnvMap).insert [97] [BACKSLASH]) ∧
      hexportR .default .permissive htab LINE_FEED 0 true 0 [] = .ok result ∧
      himportR .default .permissive none result.bytes LINE_FEED 0 false [] =
        some ⟨1, none, some imported⟩ ∧
      imported.Refines ((∅ : EnvMap).insert [97] [BACKSLASH]) := by
  obtain ⟨htab, refines⟩ := exists_refines_single [97] [BACKSLASH]
  have importable : ImportableMap LINE_FEED ((∅ : EnvMap).insert [97] [BACKSLASH]) :=
    importableMap_single ⟨by decide, forall_mem_singleton.2 (by decide), by decide, by decide⟩
      ⟨by decide, by decide⟩
  obtain ⟨result, exported, textLe, imports⟩ := himportR_hexportR usable_default refines
    ⟨by decide, by decide, by decide, by decide⟩ importable (Or.inl rfl) (Or.inl rfl)
  obtain ⟨imported, import_, refined⟩ := imports none result.bytes.length textLe
    (le_refl _) fun other creation => (card_keys_single _ _).trans
      (le_of_succ_le (le_size_of_usable usable_default creation))
  rw [take_length] at import_
  exact ⟨htab, result, imported, refines, exported, import_, refined⟩

end RoundTrip

end UBoot
