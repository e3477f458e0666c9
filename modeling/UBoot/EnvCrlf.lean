import Mathlib.Data.List.TakeWhile
import UBoot.EnvTextEntries

/-!
# Carriage returns in an imported text

With `crlf_is_lf` the importer squeezes carriage returns in front of line feeds out of its
copy of the text and reduces the size by their number.  The bytes behind the squeezed text
stay in the copy, and an entry ends at a separator or a NUL only: the last entry of a text
without a line feed at its end runs into these bytes.
-/

namespace UBoot

open List Option ImportItem

variable {flag : Nat}

section Crlf

variable {config : EnvConfig} {hooks : HashHooks} {env : List UInt8}

def leftBehind (env : List UInt8) : List UInt8 := env.drop (removeCarriageReturns env).length

/-- The entries of the squeezed text up to its last line feed that ends an entry, and the text
behind it. -/
def squeezedEntries (env : List UInt8) : List ImportItem × List UInt8 :=
  readEntries LINE_FEED (removeCarriageReturns env).length (removeCarriageReturns env)

/-- The entries that the importer applies with the given bytes behind the squeezed text. -/
def appliedEntries (env behind : List UInt8) : List ImportItem :=
  (squeezedEntries env).1 ++
    if (squeezedEntries env).2 = [] then [] else [readLast LINE_FEED (squeezedEntries env).2 behind]

theorem removeCarriageReturns_sublist (env : List UInt8) :
    (removeCarriageReturns env).Sublist env := by
  induction env with
  | nil => exact List.Sublist.refl _
  | cons c env ih =>
    rw [removeCarriageReturns]
    split_ifs
    · exact nil_sublist _
    · exact ih.cons c
    · exact ih.cons_cons c

theorem removeCarriageReturns_ne_nil (nulFree : 0 ∉ env) (notEmpty : env ≠ []) :
    removeCarriageReturns env ≠ [] := by
  induction env with
  | nil => exact absurd rfl notEmpty
  | cons c env ih =>
    rw [mem_cons, not_or] at nulFree
    have notNul : c ≠ 0 := fun isNul => nulFree.1 isNul.symm
    rw [removeCarriageReturns, if_neg notNul]
    split_ifs with squeezed
    · refine ih nulFree.2 fun isEmpty => ?_
      rw [isEmpty] at squeezed
      cases squeezed.2
    · exact cons_ne_nil _ _

/-- `himport_r` as the effect of the entries of a text of some length. -/
def importEntriesInto (config : EnvConfig) (hooks : HashHooks) (htab : Option HsearchData)
    (length : Nat) (flag : Nat) (vars : List CString) (items : List ImportItem) :
    Option HimportResult := do
  if !hooks.malloc then return ⟨0, some .ENOMEM, htab⟩
  let flag := if config.append then flag ||| H_NOCLEAR else flag
  let htab := if flag &&& H_NOCLEAR = 0 ∧ vars = [] then none else htab
  let htab ← match htab with
    | some htab => some htab
    | none => hcreateR (importEntries config length)
  let result ← importAll hooks flag items (vars.map some) htab
  if result.errno ≠ none then return ⟨0, result.errno, some result.htab⟩
  if flag &&& H_NOCLEAR ≠ 0 then return ⟨1, none, some result.htab⟩
  let htab ← deleteVars hooks flag result.vars result.htab
  return ⟨1, none, some htab⟩

section Squeezed

variable (nulFree : 0 ∉ env) (notEmpty : env ≠ [])

include nulFree notEmpty

theorem importLoop_squeezed (hooks : HashHooks) (behind : List UInt8) (flag : Nat)
    (vars : List (Option CString)) (htab : HsearchData) :
    importLoop hooks LINE_FEED flag (removeCarriageReturns env ++ (behind ++ [0])).length
        (removeCarriageReturns env ++ (behind ++ [0])) (removeCarriageReturns env).length vars
        htab =
      importAll hooks flag (appliedEntries env behind) vars htab := by
  have sublist := removeCarriageReturns_sublist env
  apply importLoop_eq_importAll (by decide) behind _ (fun isMem => nulFree (sublist.mem isMem))
    (removeCarriageReturns_ne_nil nulFree notEmpty) le_rfl
  simp only [length_append]
  omega

theorem himportR_crlf_eq (htab : Option HsearchData) (flag : Nat) (vars : List CString) :
    himportR config hooks htab env LINE_FEED flag true vars =
      importEntriesInto config hooks htab env.length flag vars
        (appliedEntries env (leftBehind env)) := by
  have shorter := (removeCarriageReturns_sublist env).length_le
  have whole : (env.takeWhile fun c => c ≠ 0) = env := by
    rw [takeWhile_eq_self_iff]
    intro c isMem
    simpa using fun isNul : c = 0 => nulFree (isNul ▸ isMem)
  have size : env.length - (env.length - (removeCarriageReturns env).length) =
      (removeCarriageReturns env).length := by omega
  have copy : (env ++ [0]).drop (removeCarriageReturns env).length = leftBehind env ++ [0] := by
    rw [drop_append_of_le_length shorter, leftBehind]
  simp only [himportR, if_neg notEmpty, whole, size, copy, if_true,
    importLoop_squeezed nulFree notEmpty]
  rfl

theorem himportR_squeezed_eq (htab : Option HsearchData) (flag : Nat) (vars : List CString) :
    himportR config hooks htab (removeCarriageReturns env) LINE_FEED flag false vars =
      importEntriesInto config hooks htab (removeCarriageReturns env).length flag vars
        (appliedEntries env []) := by
  have loop := importLoop_squeezed nulFree notEmpty hooks []
  rw [nil_append] at loop
  simp only [himportR, if_neg (removeCarriageReturns_ne_nil nulFree notEmpty),
    Bool.false_eq_true, if_false, loop]
  rfl

end Squeezed

/-- The last entry is the same with the bytes left behind as without them, or both are
refused. -/
def LastEntryKept (env : List UInt8) : Prop :=
  (squeezedEntries env).2 = [] ∨ readLast LINE_FEED (squeezedEntries env).2 [] =
      readLast LINE_FEED (squeezedEntries env).2 (leftBehind env) ∨
    (readLast LINE_FEED (squeezedEntries env).2 []).refused = true ∧
      (readLast LINE_FEED (squeezedEntries env).2 (leftBehind env)).refused = true

/-- An existing table is kept, or the tables created for the two texts are the same. -/
def SameTable (config : EnvConfig) (env : List UInt8) (htab : Option HsearchData) (flag : Nat)
    (vars : List CString) : Prop :=
  htab ≠ none ∧ ¬ ((if config.append then flag ||| H_NOCLEAR else flag) &&& H_NOCLEAR = 0 ∧
    vars = []) ∨
  hcreateR (importEntries config env.length) =
    hcreateR (importEntries config (removeCarriageReturns env).length)

theorem importAll_append_refused {a b : ImportItem} (aRefused : a.refused = true)
    (bRefused : b.refused = true) (flag : Nat) (items : List ImportItem) :
    ∀ vars htab, importAll hooks flag (items ++ [a]) vars htab =
      importAll hooks flag (items ++ [b]) vars htab := by
  induction items with
  | nil =>
    intro vars htab
    simp [importAll, aRefused, bRefused]
  | cons item items ih =>
    intro vars htab
    simp [importAll, ih]

theorem importAll_appliedEntries (lastKept : LastEntryKept env) (flag : Nat)
    (vars : List (Option CString)) (htab : HsearchData) :
    importAll hooks flag (appliedEntries env (leftBehind env)) vars htab =
      importAll hooks flag (appliedEntries env []) vars htab := by
  unfold appliedEntries
  rcases lastKept with none | same | ⟨refused, alsoRefused⟩
  · rw [if_pos none, if_pos none]
  · rw [same]
  · split_ifs with none
    · rfl
    · exact importAll_append_refused alsoRefused refused flag _ vars htab

variable {htab : Option HsearchData} {vars : List CString}
  (sameTable : SameTable config env htab flag vars)

include sameTable

theorem importEntriesInto_congr (items : List ImportItem) :
    importEntriesInto config hooks htab env.length flag vars items =
      importEntriesInto config hooks htab (removeCarriageReturns env).length flag vars items := by
  rcases sameTable with ⟨exists', kept⟩ | created
  · obtain ⟨table, rfl⟩ := ne_none_iff_exists'.mp exists'
    simp [importEntriesInto, kept]
  · simp only [importEntriesInto, created]

theorem himportR_eq_of_lastEntryKept (nulFree : 0 ∉ env) (lastKept : LastEntryKept env) :
    himportR config hooks htab env LINE_FEED flag true vars =
      himportR config hooks htab (removeCarriageReturns env) LINE_FEED flag false vars := by
  by_cases isEmpty : env = []
  · subst isEmpty
    rfl
  rw [himportR_crlf_eq nulFree isEmpty, himportR_squeezed_eq nulFree isEmpty,
    importEntriesInto_congr sameTable]
  simp only [importEntriesInto, importAll_appliedEntries lastKept]

end Crlf

section Differs

variable {sep : UInt8} {htab : HsearchData} {entries : EnvMap}

def DeletedBefore (items : List ImportItem) (name : CString) : Prop :=
  ∃ before after, items = before ++ .delete name :: after ∧ ∀ value, .insert name value ∉ after

theorem isblank_nul : ([0] : List UInt8).dropWhile isblank = [0] := rfl

theorem readLast_eq_comment {last : List UInt8} (behind : List UInt8)
    (isComment : readLast sep last [] = .comment) : readLast sep last behind = .comment := by
  rcases dropWhile_append_cases isblank last with ⟨first, stripped, -, -, blanks⟩ | blanks
  · by_cases starts : first = NUMBER_SIGN
    · rw [readLast, parseItem_eq, (blanks _).1, headD_cons, if_pos starts]
    · rw [readLast, parseItem_eq, (blanks _).1, headD_cons, if_neg starts] at isComment
      exact absurd isComment (parseBehindName_ne_comment _ _)
  · rw [readLast, parseItem_eq, blanks, nil_append, isblank_nul, if_neg (by decide)] at isComment
    exact absurd isComment (parseBehindName_ne_comment _ _)

variable {name : CString}

theorem readLast_eq_insert {last : List UInt8} (behind : List UInt8) {value : CString}
    (inserts : readLast sep last [] = .insert name value) :
    ∃ other, readLast sep last behind = .insert name other := by
  rcases dropWhile_append_cases isblank last with ⟨first, stripped, -, -, blanks⟩ | blanks
  case inr =>
    rw [readLast, parseItem_eq, blanks, nil_append, isblank_nul, if_neg (by decide)] at inserts
    obtain ⟨-, reads⟩ := parseBehindName_inserts_iff.1 ⟨value, inserts⟩
    simp [isNameChar] at reads
  by_cases starts : first = NUMBER_SIGN
  · rw [readLast, parseItem_eq, (blanks _).1, headD_cons, if_pos starts] at inserts
    cases inserts
  rw [readLast, parseItem_eq, (blanks _).1, headD_cons, if_neg starts, ← cons_append] at inserts ⊢
  rcases dropWhile_append_cases (isNameChar sep) (first :: stripped) with
    ⟨second, rest, -, -, scan⟩ | scan
  · rw [(scan _).1, (scan _).2] at inserts ⊢
    obtain ⟨isName, reads⟩ := parseBehindName_inserts_iff.1 ⟨value, inserts⟩
    refine parseBehindName_inserts_iff.2 ⟨isName, ?_⟩
    cases rest with
    | nil => simp at reads
    | cons d rest => exact reads
  · rw [scan] at inserts
    obtain ⟨-, reads⟩ := parseBehindName_inserts_iff.1 ⟨value, inserts⟩
    simp [isNameChar] at reads

theorem mem_foldl_apply (items : List ImportItem)
    (notDeleted : ¬ DeletedBefore items name) (present : name ∈ entries) :
    name ∈ items.foldl apply entries := by
  induction items using reverseRecOn with
  | nil => exact present
  | append_singleton items item ih =>
    rw [foldl_append, foldl_cons, foldl_nil]
    by_cases sets : ∃ value, item = .insert name value
    · obtain ⟨value, rfl⟩ := sets
      exact Finmap.mem_insert.2 (.inl rfl)
    have before : ¬ DeletedBefore items name := by
      rintro ⟨before, after, split, unset⟩
      refine notDeleted ⟨before, after ++ [item], by simp [split], fun value isMem => ?_⟩
      rcases mem_append.1 isMem with inAfter | isItem
      · exact unset value inAfter
      · exact sets ⟨value, (mem_singleton.1 isItem).symm⟩
    have still := ih before
    cases item with
    | comment => exact still
    | delete other =>
      refine Finmap.mem_erase.2 ⟨fun same => notDeleted ⟨items, [], ?_, by simp⟩, still⟩
      rw [same]
    | insert other value => exact Finmap.mem_insert.2 (.inr still)

theorem HsearchData.Refines.lookup_unique {other : EnvMap} (refines : htab.Refines entries)
    (alsoRefines : htab.Refines other) (name : CString) :
    entries.lookup name = other.lookup name := by
  refine ext fun value => ?_
  exact (refines.stores name value).trans (alsoRefines.stores name value).symm

/-- An earlier entry is refused, or the last one deletes a variable that is deleted already. -/
def Settled (env : List UInt8) : Prop :=
  (∃ item ∈ (squeezedEntries env).1, item.refused = true) ∨
    ∃ name, readLast LINE_FEED (squeezedEntries env).2 [] = .delete name ∧
      DeletedBefore (squeezedEntries env).1 name

theorem importEntriesInto_existing (config : EnvConfig) (length : Nat) (items : List ImportItem) :
    (importEntriesInto config .permissive (some htab) length H_NOCLEAR [] items).map
        HimportResult.htab =
      (importAll .permissive H_NOCLEAR items [] htab).map fun result => some result.htab := by
  have flagEq : (if config.append then H_NOCLEAR ||| H_NOCLEAR else H_NOCLEAR) = H_NOCLEAR := by
    cases config.append <;> rfl
  have keeps : H_NOCLEAR &&& H_NOCLEAR ≠ 0 := by decide
  have memory : HashHooks.permissive.malloc = true := rfl
  simp only [importEntriesInto, memory, flagEq, keeps, false_and, if_false, Bool.not_true,
    Bool.false_eq_true, map_nil, bind_eq_bind, bind_some]
  rcases importAll .permissive H_NOCLEAR items [] htab with - | ⟨errno, vars, imported⟩
  · rfl
  · cases errno with
    | none => rfl
    | some errno => rfl

def ImportItem.effect (entries : EnvMap) (item : ImportItem) : EnvMap :=
  if item.refused then entries else item.apply entries

theorem importAll_singleton (flag : Nat) (refines : htab.Refines entries)
    (room : entries.keys.card < htab.size) (item : ImportItem) :
    ∃ result, importAll .permissive flag [item] [] htab = some result ∧
      result.htab.Refines (item.effect entries) := by
  by_cases refused : item.refused = true
  · refine ⟨⟨some .EINVAL, [], htab⟩, by rw [importAll, if_pos refused], ?_⟩
    rw [effect, if_pos refused]
    exact refines
  obtain ⟨imported, step, -, refined⟩ := importItem_permissive flag refines room item
  refine ⟨⟨none, [], imported⟩, ?_, ?_⟩
  · rw [importAll, if_neg refused, step]
    rfl
  · rw [effect, if_neg refused]
    exact refined

theorem exists_importAll_ne {a b : ImportItem} (name : CString) (items : List ImportItem)
    (accepted : ∀ item ∈ items, item.refused = false) (flag : Nat)
    (differ : ∀ entries : EnvMap, (¬ DeletedBefore items name → name ∈ entries) →
      (a.effect entries).lookup name ≠ (b.effect entries).lookup name) :
    ∃ htab : HsearchData, htab.Valid ∧ ∃ result other,
      importAll .permissive flag (items ++ [a]) [] htab = some result ∧
      importAll .permissive flag (items ++ [b]) [] htab = some other ∧
      result.htab ≠ other.htab := by
  obtain ⟨htab, refines, size⟩ := exists_refines_room (items.length + 2) name []
  have card := card_keys_single name []
  obtain ⟨imported, run, importedSize, refined, bound⟩ :=
    importAll_permissive flag items accepted refines (by omega)
  have present : ¬ DeletedBefore items name →
      name ∈ items.foldl apply ((∅ : EnvMap).insert name []) :=
    fun notDeleted => mem_foldl_apply items notDeleted (Finmap.mem_insert.2 (.inl rfl))
  obtain ⟨result, resultEq, resultRefines⟩ := importAll_singleton flag refined (by omega) a
  obtain ⟨other, otherEq, otherRefines⟩ := importAll_singleton flag refined (by omega) b
  refine ⟨htab, refines.valid, result, other, (run _).trans resultEq, (run _).trans otherEq, ?_⟩
  intro same
  rw [same] at resultRefines
  exact differ _ present (resultRefines.lookup_unique otherRefines name)

theorem lookup_effect_ne_none {item : ImportItem} (present : name ∈ entries)
    (keeps : item ≠ .delete name) : (item.effect entries).lookup name ≠ none := by
  have stays : name ∈ item.effect entries := by
    rw [effect]
    split_ifs
    · exact present
    cases item with
    | comment => exact present
    | delete other => exact Finmap.mem_erase.2 ⟨fun same => keeps (by rw [same]), present⟩
    | insert other value => exact Finmap.mem_insert.2 (.inr present)
  intro missing
  exact Finmap.lookup_eq_none.1 missing stays

theorem exists_himportR_ne {env : List UInt8} (nulFree : 0 ∉ env)
    (changed : ¬ LastEntryKept env) (notSettled : ¬ Settled env) :
    ∃ htab : HsearchData, htab.Valid ∧ ∀ config,
      (himportR config .permissive (some htab) env LINE_FEED H_NOCLEAR true []).map
          HimportResult.htab ≠
        (himportR config .permissive (some htab) (removeCarriageReturns env) LINE_FEED H_NOCLEAR
          false []).map HimportResult.htab := by
  simp only [LastEntryKept, not_or] at changed
  obtain ⟨notEmptyLast, differ, notRefused⟩ := changed
  simp only [Settled, not_or, not_exists, not_and] at notSettled
  obtain ⟨noneRefused, notDeleted⟩ := notSettled
  have accepted : ∀ item ∈ (squeezedEntries env).1, item.refused = false :=
    fun item itemMem => by simpa using noneRefused item itemMem
  have notEmpty : env ≠ [] := by
    rintro rfl
    exact notEmptyLast rfl
  have apart : ∃ name, ∀ entries : EnvMap,
      (¬ DeletedBefore (squeezedEntries env).1 name → name ∈ entries) →
      ((readLast LINE_FEED (squeezedEntries env).2 (leftBehind env)).effect entries).lookup name ≠
        ((readLast LINE_FEED (squeezedEntries env).2 []).effect entries).lookup name := by
    cases last : readLast LINE_FEED (squeezedEntries env).2 [] with
    | comment => exact absurd (last.trans (readLast_eq_comment _ last).symm) differ
    | delete name =>
      refine ⟨name, fun entries present => ?_⟩
      have isDeleted : ((delete name).effect entries).lookup name = none := Finmap.lookup_erase _ _
      rw [isDeleted]
      exact lookup_effect_ne_none (present (notDeleted name last))
        fun same => differ (last.trans same.symm)
    | insert name value =>
      obtain ⟨longer, extended⟩ := readLast_eq_insert (leftBehind env) last
      have nonempty : name ≠ [] := by
        rintro rfl
        exact notRefused ⟨by rw [last]; rfl, by rw [extended]; rfl⟩
      have set : ∀ entries value, ((insert name value).effect entries).lookup name =
          some value := by
        intro entries value
        rw [effect, if_neg (by cases name <;> simp_all [refused])]
        exact Finmap.lookup_insert _
      refine ⟨name, fun entries _ => ?_⟩
      rw [extended, set, set]
      intro same
      refine differ ?_
      rw [last, extended, some.inj same]
  obtain ⟨name, apart⟩ := apart
  obtain ⟨htab, valid, result, other, resultEq, otherEq, tables⟩ :=
    exists_importAll_ne name (squeezedEntries env).1 accepted H_NOCLEAR apart
  refine ⟨htab, valid, fun config => ?_⟩
  rw [himportR_crlf_eq nulFree notEmpty, himportR_squeezed_eq nulFree notEmpty,
    importEntriesInto_existing, importEntriesInto_existing, appliedEntries, appliedEntries,
    if_neg notEmptyLast, if_neg notEmptyLast, resultEq, otherEq]
  simpa using tables

/-- Imports with and without squeezing agree for every table and all flags if the last entry is
kept and the same table is used; and they agree for all of them only if it is kept, unless
everything is settled before the last entry. -/
theorem himportR_crlf {env : List UInt8} (nulFree : 0 ∉ env) :
    (LastEntryKept env → ∀ config hooks htab flag vars, SameTable config env htab flag vars →
      himportR config hooks htab env LINE_FEED flag true vars =
        himportR config hooks htab (removeCarriageReturns env) LINE_FEED flag false vars) ∧
    (¬ Settled env → (∀ config hooks htab flag vars, SameTable config env htab flag vars →
      himportR config hooks htab env LINE_FEED flag true vars =
        himportR config hooks htab (removeCarriageReturns env) LINE_FEED flag false vars) →
      LastEntryKept env) := by
  refine ⟨fun lastKept config hooks htab flag vars sameTable =>
    himportR_eq_of_lastEntryKept sameTable nulFree lastKept, fun notSettled agree => ?_⟩
  by_contra changed
  obtain ⟨htab, -, differ⟩ := exists_himportR_ne nulFree changed notSettled
  have existing : SameTable .default env (some htab) H_NOCLEAR [] :=
    .inl ⟨some_ne_none _, fun clears => absurd clears.1 (by decide)⟩
  exact differ .default (congrArg _ (agree .default .permissive _ _ _ existing))

/-- A text of two lines `a=1` and `b=2` with carriage returns and line feeds. -/
theorem himportR_crlf_lines : let env : List UInt8 := [97, 61, 49, 13, 10, 98, 61, 50, 13, 10]
    ∀ config hooks htab flag vars, SameTable config env htab flag vars →
      himportR config hooks htab env LINE_FEED flag true vars =
        himportR config hooks htab (removeCarriageReturns env) LINE_FEED flag false vars := by
  intro env
  have nulFree : 0 ∉ env := by decide
  exact (himportR_crlf nulFree).1 (.inl (by decide))

/-- Without a line feed at the end the last value is `22` instead of `2`. -/
theorem himportR_runs_on : let env : List UInt8 := [97, 61, 49, 13, 10, 98, 61, 50]
    let htab : HsearchData := ⟨List.replicate 8 ⟨USED_FREE, ⟨none, none⟩⟩, 7, 0⟩
    let imported := fun env crlfIsLf =>
      (himportR .default .permissive (some htab) env LINE_FEED H_NOCLEAR crlfIsLf []).bind
        fun result => result.htab.map fun htab => exportList .default htab 0 []
    imported env true = some [⟨some [97], some [49]⟩, ⟨some [98], some [50, 50]⟩] ∧
      imported (removeCarriageReturns env) false =
        some [⟨some [97], some [49]⟩, ⟨some [98], some [50]⟩] := by decide

end Differs

end UBoot
