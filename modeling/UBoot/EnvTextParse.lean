import UBoot.EnvText

/-!
# Reading back an exported entry

The importer takes one entry of an exported text for the assignment that it was
written for, whatever follows it, if its name can be told from blanks, comments
and separators.
-/

namespace UBoot

open List

variable {sep : UInt8}

structure GoodSeparator (sep : UInt8) : Prop where
  notEquals : sep ≠ EQUALS_SIGN
  notBackslash : sep ≠ BACKSLASH
  notBlank : isblank sep = false
  notComment : sep ≠ NUMBER_SIGN

structure ImportableKey (sep : UInt8) (key : CString) : Prop where
  nonempty : key ≠ []
  chars : ∀ c ∈ key, c ≠ EQUALS_SIGN ∧ c ≠ 0 ∧ c ≠ sep
  notBlank : isblank (key.headD 0) = false
  notComment : key.headD 0 ≠ NUMBER_SIGN

structure ImportableData (data : CString) : Prop where
  nonempty : data ≠ []
  nulFree : 0 ∉ data

section Value

theorem parseValue_stop {c : UInt8} (stop : c = 0 ∨ c = sep) (dp : List UInt8) :
    parseValue sep (c :: dp) = ([], c :: dp) := by
  cases dp with
  | nil => rw [parseValue, if_pos stop]
  | cons d dp => rw [parseValue, if_pos stop]

theorem parseValue_plain {c : UInt8} (notNul : c ≠ 0) (notSep : c ≠ sep)
    (notBackslash : c ≠ BACKSLASH) (dp : List UInt8) :
    parseValue sep (c :: dp) = (c :: (parseValue sep dp).1, (parseValue sep dp).2) := by
  cases dp with
  | nil => simp [parseValue, notNul, notSep]
  | cons d dp => simp [parseValue, notNul, notSep, notBackslash]

theorem parseValue_escaped (good : GoodSeparator sep) {d : UInt8} (notNul : d ≠ 0)
    (dp : List UInt8) :
    parseValue sep (BACKSLASH :: d :: dp) =
      (d :: (parseValue sep dp).1, (parseValue sep dp).2) := by
  have go : ¬ (BACKSLASH = 0 ∨ BACKSLASH = sep) := by
    rintro (nul | same)
    · cases nul
    · exact good.notBackslash same.symm
  rw [parseValue, if_neg go, if_pos ⟨rfl, notNul⟩]

theorem escape_cons (c : UInt8) (s : CString) : escape sep (c :: s) =
      (if c = sep ∨ c = BACKSLASH then [BACKSLASH, c] else [c]) ++ escape sep s :=
  flatMap_cons

theorem parseValue_escape (good : GoodSeparator sep) (rest : List UInt8) {data : CString}
    (nulFree : 0 ∉ data) :
    parseValue sep (escape sep data ++ sep :: rest) = (data, sep :: rest) := by
  induction data with
  | nil => exact parseValue_stop (Or.inr rfl) rest
  | cons c data ih =>
    rw [mem_cons, not_or] at nulFree
    have notNul : c ≠ 0 := Ne.symm nulFree.1
    rw [escape_cons]
    split_ifs with special
    · rw [append_assoc, cons_append, singleton_append, parseValue_escaped good notNul, ih nulFree.2]
    · rw [not_or] at special
      rw [append_assoc, singleton_append, parseValue_plain notNul special.1 special.2, ih nulFree.2]

theorem exists_escape_eq_cons (good : GoodSeparator sep) {data : CString}
    (importable : ImportableData data) :
    ∃ c s, escape sep data = c :: s ∧ c ≠ 0 ∧ c ≠ sep := by
  cases data with
  | nil => exact absurd rfl importable.nonempty
  | cons c data =>
    rw [escape_cons]
    split_ifs with special
    · exact ⟨BACKSLASH, _, rfl, by decide, Ne.symm good.notBackslash⟩
    rw [not_or] at special
    have nulFree := importable.nulFree
    rw [mem_cons, not_or] at nulFree
    exact ⟨c, _, rfl, Ne.symm nulFree.1, special.1⟩

end Value

section Item

variable {key : CString}

theorem ImportableKey.exists_cons (importable : ImportableKey sep key) :
    ∃ c s, key = c :: s ∧ c ≠ 0 := by
  cases key with
  | nil => exact absurd rfl importable.nonempty
  | cons c s => exact ⟨c, s, rfl, (importable.chars c mem_cons_self).2.1⟩

theorem ImportableKey.isNameChar (importable : ImportableKey sep key) :
    ∀ c ∈ key, isNameChar sep c = true := by
  intro c member
  obtain ⟨notEquals, notNul, notSep⟩ := importable.chars c member
  simp [UBoot.isNameChar, notEquals, notNul, notSep]

theorem parseItem_insert (notEquals : sep ≠ EQUALS_SIGN) {name value : CString}
    {behind next : List UInt8} {last : UInt8} (chars : ∀ c ∈ name, UBoot.isNameChar sep c = true)
    (notBlank : isblank (name.headD 0) = false) (notComment : name.headD 0 ≠ NUMBER_SIGN)
    (going : behind.headD 0 ≠ 0 ∧ behind.headD 0 ≠ sep)
    (parsed : parseValue sep behind = (value, last :: next)) :
    parseItem sep (name ++ EQUALS_SIGN :: behind) = (.insert name value, next) := by
  have starts : (name ++ EQUALS_SIGN :: behind).dropWhile isblank = name ++ EQUALS_SIGN :: behind ∧
      (name ++ EQUALS_SIGN :: behind).headD 0 ≠ NUMBER_SIGN := by
    cases name with
    | nil => exact ⟨rfl, show EQUALS_SIGN ≠ NUMBER_SIGN by decide⟩
    | cons c s =>
      rw [headD_cons] at notBlank notComment
      exact ⟨by simp [notBlank], notComment⟩
  have stops : UBoot.isNameChar sep EQUALS_SIGN = false := rfl
  have isName : (name ++ EQUALS_SIGN :: behind).takeWhile (UBoot.isNameChar sep) = name := by
    rw [takeWhile_append_of_pos chars, takeWhile_cons_of_neg (by simp [stops]), append_nil]
  have afterName : (name ++ EQUALS_SIGN :: behind).dropWhile (UBoot.isNameChar sep) =
      EQUALS_SIGN :: behind := by
    rw [dropWhile_append_of_pos chars, dropWhile_cons_of_neg (by simp [stops])]
  have noDeletion : ¬ (EQUALS_SIGN = 0 ∨ behind.headD 0 = 0 ∨ EQUALS_SIGN = sep ∨
      behind.headD 0 = sep) := by
    rintro (nul | nul | same | same)
    · cases nul
    · exact going.1 nul
    · exact notEquals same.symm
    · exact going.2 same
  unfold parseItem
  simp only [starts.1, if_neg starts.2, isName, afterName, headD_cons, drop_one, tail_cons,
    if_neg noDeletion, parsed]

theorem parseItem_entry (good : GoodSeparator sep) {data : CString}
    (importableKey : ImportableKey sep key) (importableData : ImportableData data)
    (rest : List UInt8) :
    parseItem sep (key ++ EQUALS_SIGN :: escape sep data ++ sep :: rest) =
      (.insert key data, rest) := by
  obtain ⟨c, s, escaped, notNul, notSep⟩ := exists_escape_eq_cons good importableData
  rw [append_assoc, cons_append]
  refine parseItem_insert good.notEquals importableKey.isNameChar importableKey.notBlank
    importableKey.notComment ?_ (parseValue_escape good rest importableData.nulFree)
  rw [escaped]
  exact ⟨notNul, notSep⟩

end Item

end UBoot
