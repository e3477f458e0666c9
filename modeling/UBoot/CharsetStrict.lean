import UBoot.CharsetRoundTrip

/-!
# What the UTF-8 decoder accepts

`get_code` checks that the bytes behind a lead are continuation bytes and compares
the code point with its limits once the first two bytes are known.  It does not
look at the second byte itself, so that longer encodings than needed and encodings
of surrogates get through, and no others.
-/

namespace UBoot

open List String Nat Option

/-- The code point read is a Unicode scalar value, and the bytes read are those that
`utf8_put` writes for it. -/
def StrictlyDecoded (src : List UInt8) : Prop :=
  (0 ≤ (utf8Get src).1 ∧ (utf8Get src).1 < 0xD800 ∨
      0xDFFF < (utf8Get src).1 ∧ (utf8Get src).1 ≤ 0x10FFFF) ∧
    ∃ bytes, utf8Put (utf8Get src).1 [] = some bytes ∧ src = bytes ++ (utf8Get src).2

def LaxlyEncoded : List UInt8 → Prop
  | lead :: second :: _ => lead.toNat = 0xE0 ∧ second.toNat < 0xA0 ∨
      lead.toNat = 0xED ∧ 0xA0 ≤ second.toNat ∨ lead.toNat = 0xF0 ∧ second.toNat < 0x90
  | _ => False

def ReadsChar (src : List UInt8) (code : Int) (rest : List UInt8) : Prop :=
  ∃ c : Char, code = c.val.toNat ∧ src = String.utf8EncodeChar c ++ rest

variable {src : List UInt8}

theorem strictlyDecoded_iff (text : src.headD 0 ≠ 0) :
    StrictlyDecoded src ↔ ReadsChar src (utf8Get src).1 (utf8Get src).2 := by
  unfold StrictlyDecoded ReadsChar
  generalize utf8Get src = read
  have notNul : ∀ c : Char, src = utf8EncodeChar c ++ read.2 → c ≠ '\x00' := by
    rintro _ encoded rfl
    rw [encoded] at text
    exact text rfl
  constructor
  · rintro ⟨scalar, bytes, put, split⟩
    obtain ⟨n, code⟩ := Int.eq_ofNat_of_zero_le (show 0 ≤ read.1 by omega)
    rw [code] at put scalar ⊢
    have valid : n.isValidChar := by omega
    refine ⟨.ofNatAux n valid, rfl, ?_⟩
    by_cases nul : Char.ofNatAux n valid = '\x00'
    · obtain rfl : n = 0 := congrArg (fun c : Char => c.val.toNat) nul
      cases put
      rw [split] at text
      exact absurd rfl text
    · cases put.symm.trans (utf8Put_char nul [])
      exact split
  · rintro ⟨c, code, encoded⟩
    obtain ⟨-, low, notSurrogate⟩ := char_bounds (notNul c encoded)
    rw [code]
    exact ⟨by omega, _, utf8Put_char (notNul c encoded) [], encoded⟩

theorem not_laxlyEncoded_char (c : Char) (rest : List UInt8) :
    ¬ LaxlyEncoded (utf8EncodeChar c ++ rest) := by
  have valid := c.valid
  unfold UInt32.isValidChar Nat.isValidChar at valid
  unfold utf8EncodeChar
  generalize c.val.toNat = n at *
  simp only
  split_ifs
  · cases rest <;> simp [LaxlyEncoded]
    omega
  all_goals
    simp only [cons_append, LaxlyEncoded]
    rw [toNat_ofNat_u8 (by omega), toNat_ofNat_u8 (by omega)]
    omega

section Read

variable {lead ch : Nat}

theorem readString_of_continuation (more : isContinuation (readString src).1.toNat = true) :
    (readString src).1.toNat = (readString src).1.toNat % 64 + 0x80 ∧
      ∀ n, n % 64 = (readString src).1.toNat % 64 → src = continuation n :: (readString src).2 := by
  cases src with
  | nil => simp [readString, isContinuation] at more
  | cons byte rest =>
    by_cases nul : byte = 0
    · simp [readString, nul, isContinuation] at more
    rw [readString, if_neg nul] at more ⊢
    simp only [isContinuation, Bool.and_eq_true, decide_eq_true_eq] at more ⊢
    refine ⟨by omega, fun n bits => ?_⟩
    rw [continuation, show n % 64 + 0x80 = byte.toNat by omega, UInt8.ofNat_toNat]

theorem getCodeEnd_legal (round : lead % 64 = 0)
    (legal : 0 ≤ (getCodeEnd readString lead ch src).1) :
    ∃ n : Nat, n / 64 = lead / 64 + ch % 64 ∧ (getCodeEnd readString lead ch src).1 = n ∧
      src = continuation n :: (getCodeEnd readString lead ch src).2 := by
  unfold getCodeEnd at *
  simp only [and_0x3f, shiftLeft_eq] at *
  split at legal
  next more =>
    rw [if_pos more]
    exact ⟨_, by omega, rfl, (readString_of_continuation more).2 _ (by omega)⟩
  next => omega

theorem getCodeLong_legal (round : lead % 4096 = 0)
    (legal : 0 ≤ (getCodeLong readString lead ch src).1) :
    ∃ n : Nat, n / 4096 = lead / 4096 + ch ∧ n < 0x110000 ∧
      (getCodeLong readString lead ch src).1 = n ∧
      src = continuation (n / 64) :: continuation n :: (getCodeLong readString lead ch src).2 := by
  unfold getCodeLong at *
  simp only [shiftLeft_eq] at *
  split_ifs at legal ⊢ with limits more
  · omega
  · obtain ⟨n, digits, code, splitLast⟩ := getCodeEnd_legal (by omega) legal
    refine ⟨n, by omega, by omega, code, ?_⟩
    rw [← splitLast]
    exact (readString_of_continuation more).2 _ (by omega)
  · omega

end Read

theorem utf8Get_legal {lead : UInt8} {rest : List UInt8} (text : lead ≠ 0)
    (legal : 0 ≤ (utf8Get (lead :: rest)).1) :
    ∃ n : Nat, ∃ bytes, Encodes n lead bytes ∧ (utf8Get (lead :: rest)).1 = n ∧
      rest = bytes ++ (utf8Get (lead :: rest)).2 := by
  have bound := lead.toNat_lt
  have positive : lead.toNat ≠ 0 := fun zero => text (UInt8.toNat_inj.1 zero)
  unfold utf8Get getCode at *
  rw [readString, if_neg text] at legal ⊢
  simp only [if_neg positive, and_0x0f, and_0x07, and_0x3f, shiftLeft_eq] at legal ⊢
  split_ifs at legal ⊢ with multi long four more
  · obtain ⟨n, digits, low, code, split⟩ := getCodeLong_legal (by omega) legal
    refine ⟨n, _, .inr (.inr (.inr ⟨rfl, by omega, low⟩)), code, ?_⟩
    rw [cons_append, cons_append, cons_append, nil_append, ← split]
    exact (readString_of_continuation more).2 _ (by omega)
  · omega
  · obtain ⟨n, digits, low, code, split⟩ := getCodeLong_legal (by omega) legal
    exact ⟨n, _, .inr (.inr (.inl ⟨rfl, by omega, by omega⟩)), code, split⟩
  · obtain ⟨n, digits, code, split⟩ := getCodeEnd_legal (by omega) legal
    exact ⟨n, _, .inr (.inl ⟨rfl, by omega, by omega, by omega⟩), code, split⟩
  · omega
  · exact ⟨_, [], .inl ⟨rfl, rfl, by omega⟩, rfl, rfl⟩

theorem readsChar_of_not_lax (text : src.headD 0 ≠ 0) (legal : 0 ≤ (utf8Get src).1)
    (strict : ¬ LaxlyEncoded src) : ReadsChar src (utf8Get src).1 (utf8Get src).2 := by
  cases src with
  | nil => exact absurd rfl text
  | cons lead rest =>
    rw [headD_cons] at text
    obtain ⟨n, bytes, encodes, code, split⟩ := utf8Get_legal text legal
    have bound := lead.toNat_lt
    have reads : n.isValidChar → (∀ c : Char, c.val.toNat = n →
          utf8EncodeChar c = UInt8.ofNat lead.toNat :: bytes) →
        ReadsChar (lead :: rest) (utf8Get (lead :: rest)).1 (utf8Get (lead :: rest)).2 := by
      intro scalar encoded
      refine ⟨.ofNatAux n scalar, code, ?_⟩
      rw [encoded _ rfl, cons_append, ← split, UInt8.ofNat_toNat]
    rw [split] at strict
    obtain ⟨rfl, is, small⟩ | ⟨rfl, is, large, small⟩ | ⟨rfl, is, small⟩ | ⟨rfl, is, small⟩ :=
      encodes
    · apply reads (.inl (by omega))
      rintro c rfl
      rw [utf8EncodeChar, if_pos (by omega), is]
    · apply reads (.inl (by omega))
      rintro c rfl
      rw [utf8EncodeChar, if_neg (by omega), if_pos (by omega), is, mod_eq_of_lt (by omega)]
      rfl
    all_goals
      rw [cons_append, LaxlyEncoded, continuation, toNat_ofNat_u8 (by omega)] at strict
    · apply reads (by unfold Nat.isValidChar; omega)
      rintro c rfl
      rw [utf8EncodeChar, if_neg (by omega), if_neg (by omega), if_pos (by omega), is,
        mod_eq_of_lt (by omega)]
      rfl
    apply reads (by unfold Nat.isValidChar; omega)
    rintro c rfl
    rw [utf8EncodeChar, if_neg (by omega), if_neg (by omega), if_neg (by omega), is,
      mod_eq_of_lt (by omega)]
    rfl

/-- Strictness of `utf8_get`. -/
theorem utf8Get_strict_iff (src : List UInt8) (text : src.headD 0 ≠ 0)
    (legal : 0 ≤ (utf8Get src).1) : StrictlyDecoded src ↔ ¬ LaxlyEncoded src := by
  rw [strictlyDecoded_iff text]
  refine ⟨?_, readsChar_of_not_lax text legal⟩
  rintro ⟨c, -, encoded⟩
  rw [encoded]
  exact not_laxlyEncoded_char c _

/-- The euro sign. -/
theorem utf8Get_strict_iff_euro : StrictlyDecoded [0xE2, 0x82, 0xAC, 0] :=
  (utf8Get_strict_iff [0xE2, 0x82, 0xAC, 0] (by decide) (by decide)).2 (by simp [LaxlyEncoded])

/-- A slash in three bytes, and a surrogate. -/
theorem utf8Get_overlong_and_surrogate :
    utf8Get [0xE0, 0x80, 0xAF, 0] = (0x2F, [0]) ∧ utf8Put 0x2F [] = some [0x2F] ∧
      utf8Get [0xED, 0xA0, 0x80, 0] = (0xD800, [0]) ∧ ¬ StrictlyDecoded [0xE0, 0x80, 0xAF, 0] ∧
      ¬ StrictlyDecoded [0xED, 0xA0, 0x80, 0] := by
  refine ⟨by decide, by decide, by decide, ?_, ?_⟩
  · rintro ⟨-, bytes, put, split⟩
    cases put
    exact absurd split (by decide)
  · rintro ⟨scalar, -⟩
    exact absurd scalar (by decide)

end UBoot
