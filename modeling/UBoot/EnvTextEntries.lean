import UBoot.EnvRoundTrip

/-!
# The entries of a text

The loop of `himport_r` applies the entries of a text one by one.  An entry that ends inside of
the text does not depend on what follows the text in the buffer; only the last entry may run on.
-/

namespace UBoot

open List

variable {sep : UInt8}

section Parse

theorem dropWhile_append_cases (p : UInt8 → Bool) (text : List UInt8) :
    (∃ first rest, p first = false ∧ (first :: rest) <:+ text ∧
      ∀ more, (text ++ more).dropWhile p = first :: (rest ++ more) ∧
        (text ++ more).takeWhile p = text.takeWhile p) ∨
    ∀ more, (text ++ more).dropWhile p = more.dropWhile p := by
  induction text with
  | nil => exact .inr fun more => rfl
  | cons c text ih =>
    by_cases goesOn : p c = true
    · rcases ih with ⟨first, rest, stops, suffix, scan⟩ | scan
      · refine .inl ⟨first, rest, stops, suffix.trans (suffix_cons c text), ?_⟩
        intro more
        simp [goesOn, scan more]
      · refine .inr fun more => ?_
        simp [goesOn, scan more]
    · refine .inl ⟨c, text, by simpa using goesOn, suffix_refl _, fun more => ?_⟩
      simp [goesOn]

theorem parseValue_escape_cons {c d : UInt8} (going : ¬ (c = 0 ∨ c = sep))
    (escapes : c = BACKSLASH ∧ d ≠ 0) (dp : List UInt8) :
    parseValue sep (c :: d :: dp) = (d :: (parseValue sep dp).1, (parseValue sep dp).2) := by
  rw [parseValue, if_neg going, if_pos escapes]

theorem parseValue_plain_cons {c d : UInt8} (going : ¬ (c = 0 ∨ c = sep))
    (plain : ¬ (c = BACKSLASH ∧ d ≠ 0)) (dp : List UInt8) :
    parseValue sep (c :: d :: dp) =
      (c :: (parseValue sep (d :: dp)).1, (parseValue sep (d :: dp)).2) := by
  rw [parseValue, if_neg going, if_neg plain]

theorem length_parseValue_le (sep : UInt8) (dp : List UInt8) :
    (parseValue sep dp).2.length ≤ dp.length := by
  induction dp using parseValue.induct sep with
  | case1 => simp [parseValue]
  | case2 c stops => simp [parseValue_stop stops]
  | case3 c going => simp [parseValue, going]
  | case4 c d dp stops => simp [parseValue_stop stops]
  | case5 c d dp going escapes _ _ _ ih =>
    simp only [parseValue_escape_cons going escapes, length_cons]
    omega
  | case6 c d dp going plain _ _ _ ih =>
    simp only [parseValue_plain_cons going plain, length_cons] at ih ⊢
    omega

theorem length_parseValue_cons_le {c : UInt8} (going : ¬ (c = 0 ∨ c = sep)) (dp : List UInt8) :
    (parseValue sep (c :: dp)).2.length ≤ dp.length := by
  cases dp with
  | nil => simp [parseValue, going]
  | cons d dp =>
    by_cases escapes : c = BACKSLASH ∧ d ≠ 0
    · have shorter := length_parseValue_le sep dp
      simp only [parseValue_escape_cons going escapes, length_cons]
      omega
    · rw [parseValue_plain_cons going escapes]
      exact length_parseValue_le sep (d :: dp)

theorem parseValue_append_cases {text : List UInt8} (nulFree : 0 ∉ text) :
    (∃ value next, (sep :: next) <:+ text ∧
      ∀ more, parseValue sep (text ++ more) = (value, sep :: (next ++ more))) ∨
    ∀ more, (parseValue sep (text ++ more)).2.length ≤ more.length := by
  induction text using parseValue.induct sep with
  | case1 => exact .inr fun more => length_parseValue_le sep more
  | case2 c stops =>
    obtain rfl : c = sep := stops.resolve_left fun isNul => nulFree (by simp [isNul])
    exact .inl ⟨[], [], suffix_refl _, fun more => parseValue_stop (.inr rfl) more⟩
  | case3 c going => exact .inr fun more => length_parseValue_cons_le going more
  | case4 c d dp stops =>
    obtain rfl : c = sep := stops.resolve_left fun isNul => nulFree (by simp [isNul])
    exact .inl ⟨[], d :: dp, suffix_refl _, fun more => parseValue_stop (.inr rfl) _⟩
  | case5 c d dp going escapes _ _ _ ih =>
    have escaped := fun more => parseValue_escape_cons going escapes (dp ++ more)
    rcases ih fun isMem => nulFree (by simp [isMem]) with ⟨value, next, suffix, ends⟩ | runs
    · refine .inl ⟨d :: value, next, suffix.trans ⟨[c, d], rfl⟩, fun more => ?_⟩
      simp [escaped, ends]
    · refine .inr fun more => ?_
      simp [escaped, runs]
  | case6 c d dp going plain _ _ _ ih =>
    have kept := fun more => parseValue_plain_cons going plain (dp ++ more)
    simp only [cons_append] at ih
    rcases ih fun isMem => nulFree (by simp [isMem]) with ⟨value, next, suffix, ends⟩ | runs
    · refine .inl ⟨c :: value, next, suffix.trans (suffix_cons c _), fun more => ?_⟩
      simp [kept, ends]
    · refine .inr fun more => ?_
      simp [kept, runs]

def parseBehindName (sep : UInt8) (name : CString) (dp : List UInt8) : ImportItem × List UInt8 :=
  let c := dp.headD 0
  let d := (dp.drop 1).headD 0
  if c = 0 ∨ d = 0 ∨ c = sep ∨ d = sep then
    (.delete name, if c = EQUALS_SIGN then dp.drop 2 else dp.drop 1)
  else
    let (value, dp) := parseValue sep (dp.drop 1)
    (.insert name value, dp.drop 1)

theorem parseItem_eq (dp : List UInt8) : parseItem sep dp =
      if (dp.dropWhile isblank).headD 0 = NUMBER_SIGN then
        (.comment, ((dp.dropWhile isblank).dropWhile fun c => c ≠ 0 && c ≠ sep).drop 1)
      else parseBehindName sep ((dp.dropWhile isblank).takeWhile (isNameChar sep))
        ((dp.dropWhile isblank).dropWhile (isNameChar sep)) :=
  rfl

theorem parseBehindName_ne_comment (name : CString) (dp : List UInt8) :
    (parseBehindName sep name dp).1 ≠ .comment := by
  simp only [parseBehindName]
  split_ifs <;> simp

variable {dp : List UInt8}

theorem parseBehindName_inserts_iff {name other : CString} :
    (∃ value, (parseBehindName sep name dp).1 = .insert other value) ↔
      name = other ∧ ¬ (dp.headD 0 = 0 ∨ (dp.drop 1).headD 0 = 0 ∨ dp.headD 0 = sep ∨
        (dp.drop 1).headD 0 = sep) := by
  simp only [parseBehindName]
  split_ifs with deletes
  · simp only [deletes, exists_false, not_true_eq_false, and_false]
  · simp only [deletes, ImportItem.insert.injEq, exists_and_left, exists_eq', and_true,
      not_false_eq_true]

theorem length_parseBehindName_lt {bound : Nat} (le : dp.length ≤ bound)
    (pos : 0 < bound) (name : CString) : (parseBehindName sep name dp).2.length < bound := by
  have value := length_parseValue_le sep (dp.drop 1)
  simp only [parseBehindName]
  split_ifs <;> simp only [length_drop] at value ⊢ <;> omega

theorem length_dropWhile_le (p : UInt8 → Bool) (dp : List UInt8) :
    (dp.dropWhile p).length ≤ dp.length :=
  (dropWhile_suffix p).length_le

theorem length_parseItem_lt {bound : Nat}
    (le : (dp.dropWhile isblank).length ≤ bound) (pos : 0 < bound) :
    (parseItem sep dp).2.length < bound := by
  rw [parseItem_eq]
  split_ifs
  · have scan := length_dropWhile_le (fun c => c ≠ 0 && c ≠ sep) (dp.dropWhile isblank)
    simp only [length_drop]
    omega
  · have scan := length_dropWhile_le (isNameChar sep) (dp.dropWhile isblank)
    exact length_parseBehindName_lt (by omega) pos _

theorem parseBehindName_append_cases (notEquals : sep ≠ EQUALS_SIGN)
    (name : CString) {first : UInt8} {rest : List UInt8}
    (stops : isNameChar sep first = false) (nulFree : 0 ∉ first :: rest) :
    (∃ item next, next.length ≤ rest.length ∧ next <:+ rest ∧
      ∀ more, parseBehindName sep name (first :: (rest ++ more)) = (item, next ++ more)) ∨
    ∀ more, more ≠ [] →
      (parseBehindName sep name (first :: (rest ++ more))).2.length < more.length := by
  rw [mem_cons, not_or] at nulFree
  have firstNotNul : first ≠ 0 := fun isNul => nulFree.1 isNul.symm
  by_cases atSep : first = sep
  · refine .inl ⟨.delete name, rest, le_rfl, suffix_refl _, fun more => ?_⟩
    simp [parseBehindName, atSep, notEquals]
  have atEquals : first = EQUALS_SIGN := by
    by_contra notEquals
    simp [isNameChar, firstNotNul, atSep, notEquals] at stops
  cases rest with
  | nil =>
    refine .inr fun more moreNotEmpty => ?_
    have pos := length_pos_of_ne_nil moreNotEmpty
    have value := length_parseValue_le sep more
    simp only [parseBehindName, nil_append, drop_succ_cons, drop_zero,
      headD_cons, atEquals, if_true]
    split_ifs <;> simp only [length_drop] <;> omega
  | cons d rest =>
    rw [mem_cons, not_or] at nulFree
    have dNotNul : d ≠ 0 := fun isNul => nulFree.2.1 isNul.symm
    by_cases dAtSep : d = sep
    · refine .inl ⟨.delete name, rest, by simp, suffix_cons d rest, fun more => ?_⟩
      simp [parseBehindName, atEquals, dAtSep]
    have inserts : ∀ more, parseBehindName sep name (first :: (d :: rest ++ more)) =
        (.insert name (parseValue sep (d :: rest ++ more)).1,
          (parseValue sep (d :: rest ++ more)).2.drop 1) := by
      intro more
      simp [parseBehindName, firstNotNul, atSep, dNotNul, dAtSep]
    have nulFreeRest : 0 ∉ d :: rest := by
      rw [mem_cons, not_or]
      exact ⟨nulFree.2.1, nulFree.2.2⟩
    rcases parseValue_append_cases nulFreeRest with ⟨value, next, suffix, ends⟩ | runs
    · have nextSuffix : next <:+ d :: rest := (suffix_cons sep next).trans suffix
      refine .inl ⟨.insert name value, next, nextSuffix.length_le, nextSuffix, fun more => ?_⟩
      rw [inserts, ends]
      rfl
    refine .inr fun more moreNotEmpty => ?_
    have pos := length_pos_of_ne_nil moreNotEmpty
    have atEnd := runs more
    rw [inserts, length_drop]
    omega

theorem parseItem_append_cases (notEquals : sep ≠ EQUALS_SIGN)
    {text : List UInt8} (nulFree : 0 ∉ text) :
    (∃ item next, next.length < text.length ∧ 0 ∉ next ∧
      ∀ more, parseItem sep (text ++ more) = (item, next ++ more)) ∨
    ∀ more, more ≠ [] → (parseItem sep (text ++ more)).2.length < more.length := by
  rcases dropWhile_append_cases isblank text with ⟨first, stripped, -, suffix, blanks⟩ | blanks
  case inr =>
    refine .inr fun more moreNotEmpty => ?_
    apply length_parseItem_lt _ (length_pos_of_ne_nil moreNotEmpty)
    rw [blanks]
    exact length_dropWhile_le _ _
  have nulFreeStripped : 0 ∉ first :: stripped := fun isMem => nulFree (suffix.mem isMem)
  have shorter := suffix.length_le
  by_cases isComment : first = NUMBER_SIGN
  · have comment : ∀ more, parseItem sep (text ++ more) = (.comment,
        ((first :: stripped ++ more).dropWhile fun c => c ≠ 0 && c ≠ sep).drop 1) := by
      intro more
      rw [parseItem_eq, (blanks more).1, headD_cons, if_pos isComment]
      rfl
    rcases dropWhile_append_cases (fun c => c ≠ 0 && c ≠ sep) (first :: stripped) with
      ⟨last, rest, -, lastSuffix, scan⟩ | scan
    · have restSuffix := (suffix_cons last rest).trans lastSuffix
      have restShorter := lastSuffix.length_le
      refine .inl ⟨.comment, rest, ?_, fun isMem => nulFreeStripped (restSuffix.mem isMem),
        fun more => ?_⟩
      · simp only [length_cons] at restShorter shorter
        omega
      · rw [comment, (scan more).1]
        rfl
    · refine .inr fun more moreNotEmpty => ?_
      have pos := length_pos_of_ne_nil moreNotEmpty
      have scanned := length_dropWhile_le (fun c => c ≠ 0 && c ≠ sep) more
      rw [comment, scan, length_drop]
      omega
  have named : ∀ more, parseItem sep (text ++ more) =
      parseBehindName sep ((first :: stripped ++ more).takeWhile (isNameChar sep))
        ((first :: stripped ++ more).dropWhile (isNameChar sep)) := by
    intro more
    rw [parseItem_eq, (blanks more).1, headD_cons, if_neg isComment]
    rfl
  rcases dropWhile_append_cases (isNameChar sep) (first :: stripped) with
    ⟨last, rest, stops, lastSuffix, scan⟩ | scan
  · have nulFreeLast : 0 ∉ last :: rest := fun isMem => nulFreeStripped (lastSuffix.mem isMem)
    have lastShorter := lastSuffix.length_le
    rcases parseBehindName_append_cases notEquals
        ((first :: stripped).takeWhile (isNameChar sep)) stops nulFreeLast with
      ⟨item, next, nextShorter, nextSuffix, ends⟩ | runs
    · refine .inl ⟨item, next, ?_, ?_, fun more => ?_⟩
      · simp only [length_cons] at lastShorter shorter
        omega
      · exact fun isMem => nulFreeLast (mem_cons_of_mem _ (nextSuffix.mem isMem))
      · rw [named, (scan more).1, (scan more).2, ends]
    · refine .inr fun more moreNotEmpty => ?_
      rw [named, (scan more).1, (scan more).2]
      exact runs more moreNotEmpty
  · refine .inr fun more moreNotEmpty => ?_
    rw [named, scan]
    exact length_parseBehindName_lt (length_dropWhile_le _ _) (length_pos_of_ne_nil moreNotEmpty) _

end Parse

section Loop

variable {hooks : HashHooks} {flag : Nat}

/-- The entries of a text that end at a separator inside of it, and the text behind them. -/
def readEntries (sep : UInt8) : (fuel : Nat) → (text : List UInt8) → List ImportItem × List UInt8
  | 0, text => ([], text)
  | fuel + 1, text =>
    let (item, next) := parseItem sep (text ++ [0])
    if next = [] then ([], text)
    else
      let (items, last) := readEntries sep fuel next.dropLast
      (item :: items, last)

/-- The entry read from the text behind the last separator, with the bytes behind it in the
copy of the importer. -/
def readLast (sep : UInt8) (last behind : List UInt8) : ImportItem :=
  (parseItem sep (last ++ (behind ++ [0]))).1

theorem readEntries_nil (fuel : Nat) : readEntries sep fuel [] = ([], []) := by
  cases fuel with
  | zero => rfl
  | succ fuel => simp [readEntries, parseItem_nul]

theorem readEntries_of_ends {text next : List UInt8} {item : ImportItem}
    (ends : parseItem sep (text ++ [0]) = (item, next ++ [0])) (fuel : Nat) :
    readEntries sep (fuel + 1) text =
      (item :: (readEntries sep fuel next).1, (readEntries sep fuel next).2) := by
  simp [readEntries, ends]

theorem readEntries_of_runs {text : List UInt8}
    (runs : (parseItem sep (text ++ [0])).2.length < 1) (fuel : Nat) :
    readEntries sep (fuel + 1) text = ([], text) := by
  have stopped : (parseItem sep (text ++ [0])).2 = [] := length_eq_zero_iff.1 (by omega)
  simp [readEntries, stopped]

/-- The loop over a text in the copy of the importer, whatever stands behind it, applies the
entries of the text. -/
theorem importLoop_eq_importAll (notEquals : sep ≠ EQUALS_SIGN) (behind : List UInt8) (fuel : Nat) :
    ∀ {text rounds vars htab}, 0 ∉ text → text ≠ [] → text.length ≤ fuel → text.length ≤ rounds →
      importLoop hooks sep flag rounds (text ++ (behind ++ [0])) text.length vars htab =
        importAll hooks flag ((readEntries sep fuel text).1 ++
          if (readEntries sep fuel text).2 = [] then []
          else [readLast sep (readEntries sep fuel text).2 behind]) vars htab := by
  induction fuel with
  | zero =>
    intro text rounds vars htab _ notEmpty enough
    exact absurd (length_eq_zero_iff.1 (by omega)) notEmpty
  | succ fuel ih =>
    intro text rounds vars htab nulFree notEmpty enough enoughRounds
    have pos := length_pos_of_ne_nil notEmpty
    obtain ⟨rounds, rfl⟩ : ∃ less, rounds = less + 1 := ⟨rounds - 1, by omega⟩
    rw [importLoop_succ]
    rcases parseItem_append_cases notEquals nulFree with
      ⟨item, next, shorter, nulFreeNext, ends⟩ | runs
    · have left : text.length - ((text ++ (behind ++ [0])).length -
          (next ++ (behind ++ [0])).length) = next.length := by
        simp only [length_append]
        omega
      rw [readEntries_of_ends (ends [0]), ends, left, cons_append, importAll]
      congr 1
      congr 1
      funext applied
      cases next with
      | nil => simp [readEntries_nil, importAll]
      | cons c next =>
        have goesOn : 0 < (c :: next).length ∧ (c :: next ++ (behind ++ [0])).headD 0 ≠ 0 := by
          refine ⟨Nat.succ_pos _, fun isNul => nulFreeNext ?_⟩
          rw [cons_append, headD_cons] at isNul
          simp [isNul]
        rw [if_pos goesOn]
        exact ih nulFreeNext (cons_ne_nil _ _) (by omega) (by omega)
    · have stops := runs (behind ++ [0]) (by simp)
      have left : text.length - ((text ++ (behind ++ [0])).length -
          (parseItem sep (text ++ (behind ++ [0]))).2.length) = 0 := by
        simp only [length_append] at stops ⊢
        omega
      rw [readEntries_of_runs (runs [0] (by simp)), left, if_neg notEmpty]
      simp [importAll, readLast]

end Loop

end UBoot
