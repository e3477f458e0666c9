import UBoot.Charset

/-!
# The round trip between UTF-8 and UTF-16

A string of Unicode scalar values is a list of characters, and its UTF-8 bytes are
those of the language's own encoding.  Each reader takes one character from the
front of what a writer has made of it, except that `utf16_get` refuses the two
low surrogates at the ends of their range.
-/

namespace UBoot

open List Nat UInt8

variable (n : Nat)

theorem and_0x3f : n &&& 0x3f = n % 64 := and_two_pow_sub_one_eq_mod n 6

theorem and_0x07 : n &&& 0x07 = n % 8 := and_two_pow_sub_one_eq_mod n 3

theorem and_0x0f : n &&& 0x0f = n % 16 := and_two_pow_sub_one_eq_mod n 4

theorem and_0x3ff : n &&& 0x3ff = n % 1024 := and_two_pow_sub_one_eq_mod n 10

variable {n : Nat}

theorem or_mark (w mark : Nat) (small : n < 2 ^ w) : n ||| mark * 2 ^ w = n + mark * 2 ^ w := by
  rw [Nat.or_comm, ← shiftLeft_eq, ← shiftLeft_add_eq_or_of_lt small, Nat.add_comm]

theorem or_0x80 (small : n < 64) : n ||| 0x80 = n + 0x80 := or_mark 6 2 small

theorem or_0xC0 (small : n < 64) : n ||| 0xC0 = n + 0xC0 := or_mark 6 3 small

theorem or_0xE0 (small : n < 32) : n ||| 0xE0 = n + 0xE0 := or_mark 5 7 small

theorem or_0xF0 (small : n < 16) : n ||| 0xF0 = n + 0xF0 := or_mark 4 15 small

theorem or_0xD800 (small : n < 1024) : n ||| 0xD800 = n + 0xD800 := or_mark 10 54 small

theorem or_0xDC00 (small : n < 1024) : n ||| 0xDC00 = n + 0xDC00 := or_mark 10 55 small

theorem toNat_ofNat_u8 (byte : n < 256) : (ofNat n).toNat = n := by exact mod_eq_of_lt byte

theorem toNat_ofNat_u16 (unit : n < 65536) : (UInt16.ofNat n).toNat = n := by
  exact mod_eq_of_lt unit

theorem ofNat_u8_ne_zero (byte : n < 256) (positive : 0 < n) : ofNat n ≠ 0 := by
  intro isZero
  have value := toNat_ofNat_u8 byte
  rw [isZero] at value
  simp at value
  omega

theorem ofNat_u16_ne_zero (unit : n < 65536) (positive : 0 < n) : UInt16.ofNat n ≠ 0 := by
  intro isZero
  have value := toNat_ofNat_u16 unit
  rw [isZero] at value
  simp at value
  omega

variable {c : Char}

theorem char_bounds (notNul : c ≠ '\x00') : 0 < c.val.toNat ∧ c.val.toNat < 0x110000 ∧
      (c.val.toNat < 0xD800 ∨ 0xDFFF < c.val.toNat) := by
  have positive : c.val.toNat ≠ 0 := by
    intro isZero
    apply notNul
    apply Char.ext
    apply UInt32.toNat_inj.1
    rw [isZero]
    rfl
  have valid := c.valid
  omega

section Utf8

variable {src : List UInt8}

def continuation (n : Nat) : UInt8 := UInt8.ofNat (n % 0x40 + 0x80)

theorem readString_continuation :
    readString (continuation n :: src) = (continuation n, src) ∧
      (continuation n).toNat = n % 0x40 + 0x80 ∧ isContinuation (n % 0x40 + 0x80) := by
  have byte : n % 0x40 + 0x80 < 256 := by omega
  refine ⟨if_neg (ofNat_u8_ne_zero byte (by omega)), toNat_ofNat_u8 byte, ?_⟩
  simp [isContinuation]
  omega

theorem getCodeEnd_continuation {lead ch : Nat} (code : lead + ch % 64 * 64 = n / 64 * 64) :
    getCodeEnd readString lead ch (continuation n :: src) = ((n : Int), src) := by
  obtain ⟨read, byte, more⟩ := @readString_continuation n src
  unfold getCodeEnd
  simp only [read, byte, and_0x3f, shiftLeft_eq, if_pos more]
  congr 2
  omega

theorem getCodeLong_continuation {lead ch : Nat} (code : lead + ch * 4096 = n / 4096 * 4096)
    (low : n < 0x110000) :
    getCodeLong readString lead ch (continuation (n / 64) :: continuation n :: src) =
      ((n : Int), src) := by
  obtain ⟨read, byte, more⟩ := @readString_continuation (n / 64) (continuation n :: src)
  unfold getCodeLong
  rw [if_neg (by omega)]
  simp only [read, byte, if_pos more]
  apply getCodeEnd_continuation
  omega

/-- The bytes that `utf8_get` takes for a code point, the shortest or longer ones. -/
def Encodes (n : Nat) (lead : UInt8) (bytes : List UInt8) : Prop :=
  bytes = [] ∧ lead.toNat = n ∧ n < 0x80 ∨
    bytes = [continuation n] ∧ lead.toNat = n / 64 + 0xC0 ∧ 0x80 ≤ n ∧ n < 0x800 ∨
    bytes = [continuation (n / 64), continuation n] ∧ lead.toNat = n / 4096 + 0xE0 ∧ n < 0x10000 ∨
    bytes = [continuation (n / 4096), continuation (n / 64), continuation n] ∧
      lead.toNat = n / 262144 + 0xF0 ∧ n < 0x110000

theorem utf8Get_encodes {lead : UInt8} {bytes : List UInt8} (encodes : Encodes n lead bytes)
    (text : lead ≠ 0) : utf8Get (lead :: (bytes ++ src)) = ((n : Int), src) := by
  have positive : lead.toNat ≠ 0 := fun zero => text (UInt8.toNat_inj.1 zero)
  unfold utf8Get getCode
  rw [readString, if_neg text]
  simp only [if_neg positive]
  obtain ⟨rfl, is, small⟩ | ⟨rfl, is, large, small⟩ | ⟨rfl, is, small⟩ | ⟨rfl, is, small⟩ := encodes
  · rw [if_neg (by omega), if_neg (by omega), is]
    rfl
  · rw [if_pos (by omega), if_neg (by omega)]
    apply getCodeEnd_continuation
    omega
  · rw [if_pos (by omega), if_pos (by omega), if_neg (by omega)]
    apply getCodeLong_continuation _ (by omega)
    rw [and_0x0f]
    omega
  obtain ⟨read, byte, more⟩ := @readString_continuation (n / 4096)
    (continuation (n / 64) :: continuation n :: src)
  rw [if_pos (by omega), if_pos (by omega), if_pos (by omega)]
  simp only [cons_append, nil_append, read, byte, if_pos more]
  apply getCodeLong_continuation _ small
  rw [and_0x07, and_0x3f, shiftLeft_eq]
  omega

end Utf8

theorem encodes_char (notNul : c ≠ '\x00') : ∃ lead bytes,
    String.utf8EncodeChar c = lead :: bytes ∧ lead ≠ 0 ∧ Encodes c.val.toNat lead bytes := by
  obtain ⟨positive, low, -⟩ := char_bounds notNul
  unfold String.utf8EncodeChar
  generalize c.val.toNat = n at *
  simp only
  split_ifs
  · exact ⟨_, _, rfl, ofNat_u8_ne_zero (by omega) positive,
      .inl ⟨rfl, toNat_ofNat_u8 (by omega), by omega⟩⟩
  · refine ⟨_, _, rfl, ofNat_u8_ne_zero (by omega) (by omega), .inr (.inl ⟨rfl, ?_, by omega⟩)⟩
    rw [toNat_ofNat_u8 (by omega)]
    omega
  · refine ⟨_, _, rfl, ofNat_u8_ne_zero (by omega) (by omega),
      .inr (.inr (.inl ⟨rfl, ?_, by omega⟩))⟩
    rw [toNat_ofNat_u8 (by omega)]
    omega
  · refine ⟨_, _, rfl, ofNat_u8_ne_zero (by omega) (by omega), .inr (.inr (.inr ⟨rfl, ?_, low⟩))⟩
    rw [toNat_ofNat_u8 (by omega)]
    omega

/-- `utf8_get` takes a character from the front of a string. -/
theorem utf8Get_utf8EncodeChar (notNul : c ≠ '\x00') (src : List UInt8) :
    utf8Get (String.utf8EncodeChar c ++ src) = ((c.val.toNat : Int), src) := by
  obtain ⟨lead, bytes, encoded, text, encodes⟩ := encodes_char notNul
  rw [encoded, cons_append, utf8Get_encodes encodes text]

/-- `utf8_put` appends the bytes of a character. -/
theorem utf8Put_char (notNul : c ≠ '\x00') (dst : List UInt8) :
    utf8Put c.val.toNat dst = some (dst ++ String.utf8EncodeChar c) := by
  obtain ⟨positive, low, notSurrogate⟩ := char_bounds notNul
  unfold String.utf8EncodeChar utf8Put
  generalize c.val.toNat = n at *
  have last : n &&& 0x3F ||| 0x80 = n % 0x40 + 0x80 := by
    rw [and_0x3f]
    apply or_0x80
    omega
  have middle : n >>> 6 &&& 0x3F ||| 0x80 = n / 64 % 0x40 + 0x80 := by
    rw [and_0x3f, shiftRight_eq_div_pow]
    apply or_0x80
    omega
  rw [if_neg (by omega)]
  by_cases one : n ≤ 0x7f
  · rw [if_pos (by omega), if_pos one, ofInt]
    congr 4
    omega
  rw [if_neg (by omega)]
  simp only [Int.toNat_natCast, last, middle]
  rw [if_neg one]
  by_cases two : n ≤ 0x7ff
  · rw [if_pos two, if_pos two, shiftRight_eq_div_pow, or_0xC0 (by omega)]
    congr 4
    omega
  rw [if_neg two, if_neg two]
  by_cases three : n ≤ 0xffff
  · rw [if_pos (by omega), if_pos three, shiftRight_eq_div_pow, or_0xE0 (by omega)]
    congr 4
    omega
  rw [if_neg (by omega), if_neg three, and_0x3f, shiftRight_eq_div_pow,
    shiftRight_eq_div_pow, or_0xF0 (by omega), or_0x80 (by omega)]
  congr 4
  omega

def utf16EncodeChar (c : Char) : List UInt16 :=
  if c.val.toNat < 0x10000 then
    [UInt16.ofNat c.val.toNat]
  else
    [UInt16.ofNat ((c.val.toNat - 0x10000) / 1024 + 0xD800),
      UInt16.ofNat (c.val.toNat % 1024 + 0xDC00)]

theorem utf16Put_char (notNul : c ≠ '\x00') (dst : List UInt16) :
    utf16Put c.val.toNat dst = some (dst ++ utf16EncodeChar c) := by
  obtain ⟨positive, low, notSurrogate⟩ := char_bounds notNul
  unfold utf16EncodeChar utf16Put
  generalize c.val.toNat = n at *
  rw [if_neg (by omega)]
  by_cases single : n < 0x10000
  · rw [if_pos (by omega), if_pos single, UInt16.ofInt]
    congr 4
    omega
  rw [if_neg (by omega), if_neg single, Int.toNat_natCast]
  have lowBits : (n - 0x10000) % 1024 = n % 1024 := by omega
  simp only [shiftRight_eq_div_pow, and_0x3ff, lowBits, reducePow]
  rw [or_0xD800 (by omega), or_0xDC00 (by omega)]

/-- The low surrogate of the character, if it has one, lies strictly inside the
range of low surrogates. -/
def InsideLowSurrogates (c : Char) : Prop :=
  c.val.toNat < 0x10000 ∨ (c.val.toNat % 1024 ≠ 0 ∧ c.val.toNat % 1024 ≠ 0x3ff)

instance (c : Char) : Decidable (InsideLowSurrogates c) := inferInstanceAs (Decidable (_ ∨ _ ∧ _))

/-- `utf16_get` takes a character from the front of a string, and takes one for
illegal whose low surrogate is the first or the last one. -/
theorem utf16Get_utf16EncodeChar (notNul : c ≠ '\x00') (src : List UInt16) :
    utf16Get (utf16EncodeChar c ++ src) =
      (if InsideLowSurrogates c then (c.val.toNat : Int) else -1, src) := by
  obtain ⟨positive, low, notSurrogate⟩ := char_bounds notNul
  have inside : InsideLowSurrogates c ↔
      c.val.toNat < 0x10000 ∨ (c.val.toNat % 1024 ≠ 0 ∧ c.val.toNat % 1024 ≠ 0x3ff) := Iff.rfl
  simp only [inside]
  unfold utf16EncodeChar
  generalize c.val.toNat = n at *
  by_cases single : n < 0x10000
  · rw [if_pos single, cons_append, nil_append, utf16Get,
      if_neg (ofNat_u16_ne_zero (by omega) positive), toNat_ofNat_u16 (by omega),
      if_neg (by omega), if_neg (by omega), if_pos (Or.inl single)]
  have high : (n - 0x10000) / 1024 + 0xD800 < 65536 := by omega
  have second : n % 1024 + 0xDC00 < 65536 := by omega
  rw [if_neg single, cons_append, cons_append, nil_append, utf16Get,
    if_neg (ofNat_u16_ne_zero high (by omega)), toNat_ofNat_u16 high, if_neg (by omega),
    if_pos (by omega), utf16GetLow, if_neg (ofNat_u16_ne_zero second (by omega)),
    toNat_ofNat_u16 second]
  simp only [and_0x3ff, shiftLeft_eq]
  by_cases inside : n < 0x10000 ∨ (n % 1024 ≠ 0 ∧ n % 1024 ≠ 0x3ff)
  · have whole : ((n - 0x10000) / 1024 + 0xD800) % 1024 * 2 ^ 10 + 0x10000 +
        (n % 1024 + 0xDC00) % 1024 = n := by
      omega
    rw [if_neg (by omega), if_pos inside, whole]
  · rw [if_pos (by omega), if_neg inside]

def recoded (c : Char) : List UInt8 :=
  if InsideLowSurrogates c then String.utf8EncodeChar c else [0x3F]

theorem headD_utf8EncodeChar (notNul : c ≠ '\x00') (src : List UInt8) :
    (String.utf8EncodeChar c ++ src).headD 0 ≠ 0 := by
  obtain ⟨positive, -, -⟩ := char_bounds notNul
  unfold String.utf8EncodeChar
  generalize c.val.toNat = n at *
  simp only
  split
  · exact ofNat_u8_ne_zero (by omega) positive
  split
  · exact ofNat_u8_ne_zero (by omega) (by omega)
  split
  · exact ofNat_u8_ne_zero (by omega) (by omega)
  · exact ofNat_u8_ne_zero (by omega) (by omega)

theorem headD_utf16EncodeChar (notNul : c ≠ '\x00') (src : List UInt16) :
    (utf16EncodeChar c ++ src).headD 0 ≠ 0 := by
  obtain ⟨positive, low, -⟩ := char_bounds notNul
  unfold utf16EncodeChar
  generalize c.val.toNat = n at *
  split
  · exact ofNat_u16_ne_zero (by omega) positive
  · exact ofNat_u16_ne_zero (by omega) (by omega)

theorem replaceIllegal_natCast : replaceIllegal n = n := by rw [replaceIllegal, if_neg (by omega)]

theorem utf8Utf16Loop_text {text : List Char} (nulFree : ∀ c ∈ text, c ≠ '\x00') {count : Nat}
    (enough : text.length ≤ count) (behind : List UInt8) (dst : List UInt16) :
    utf8Utf16Loop count (text.flatMap String.utf8EncodeChar ++ 0 :: behind) dst =
      dst ++ text.flatMap utf16EncodeChar := by
  induction text generalizing count dst with
  | nil =>
    rw [flatMap_nil, flatMap_nil, append_nil, nil_append]
    cases count with
    | zero => rfl
    | succ count => rw [utf8Utf16Loop, headD_cons, if_pos rfl]
  | cons c text ih =>
    have notNul : c ≠ '\x00' := nulFree c mem_cons_self
    cases count with
    | zero => simp at enough
    | succ count =>
      rw [flatMap_cons, append_assoc, utf8Utf16Loop,
        if_neg (headD_utf8EncodeChar notNul _), utf8Get_utf8EncodeChar notNul]
      simp only [replaceIllegal_natCast, utf16Put_char notNul, Option.getD_some]
      rw [ih (fun d inText => nulFree d (mem_cons_of_mem c inText))
        (le_of_succ_le_succ enough), flatMap_cons, append_assoc]

theorem utf8Put_recoded (notNul : c ≠ '\x00') (dst : List UInt8) :
    utf8Put (replaceIllegal (if InsideLowSurrogates c then (c.val.toNat : Int) else -1)) dst =
      some (dst ++ recoded c) := by
  unfold recoded
  by_cases inside : InsideLowSurrogates c
  · rw [if_pos inside, if_pos inside, replaceIllegal_natCast, utf8Put_char notNul]
  · rw [if_neg inside, if_neg inside]
    rfl

theorem utf16Utf8Loop_text {text : List Char} (nulFree : ∀ c ∈ text, c ≠ '\x00') {count : Nat}
    (enough : text.length ≤ count) (behind : List UInt16) (dst : List UInt8) :
    utf16Utf8Loop count (text.flatMap utf16EncodeChar ++ 0 :: behind) dst =
      dst ++ text.flatMap recoded := by
  induction text generalizing count dst with
  | nil =>
    rw [flatMap_nil, flatMap_nil, append_nil, nil_append]
    cases count with
    | zero => rfl
    | succ count => rw [utf16Utf8Loop, headD_cons, if_pos rfl]
  | cons c text ih =>
    have notNul : c ≠ '\x00' := nulFree c mem_cons_self
    cases count with
    | zero => simp at enough
    | succ count =>
      rw [flatMap_cons, append_assoc, utf16Utf8Loop,
        if_neg (headD_utf16EncodeChar notNul _), utf16Get_utf16EncodeChar notNul]
      simp only [utf8Put_recoded notNul, Option.getD_some]
      rw [ih (fun d inText => nulFree d (mem_cons_of_mem c inText))
        (le_of_succ_le_succ enough), flatMap_cons, append_assoc]

theorem length_utf8EncodeChar_of_not_inside (outside : ¬ InsideLowSurrogates c) :
    (String.utf8EncodeChar c).length = 4 := by
  unfold InsideLowSurrogates at outside
  unfold String.utf8EncodeChar
  generalize c.val.toNat = n at *
  rw [if_neg (by omega), if_neg (by omega), if_neg (by omega)]
  rfl

variable (text : List Char)

theorem length_recoded_le :
    (text.flatMap recoded).length ≤ (text.flatMap String.utf8EncodeChar).length := by
  induction text with
  | nil => exact le_refl 0
  | cons c text ih =>
    rw [flatMap_cons, flatMap_cons, length_append, length_append]
    by_cases inside : InsideLowSurrogates c
    · rw [recoded, if_pos inside]
      omega
    · rw [recoded, if_neg inside, length_utf8EncodeChar_of_not_inside inside, length_singleton]
      omega

theorem flatMap_recoded_eq_iff : text.flatMap recoded = text.flatMap String.utf8EncodeChar ↔
      ∀ c ∈ text, InsideLowSurrogates c := by
  induction text with
  | nil => simp
  | cons c text ih =>
    rw [flatMap_cons, flatMap_cons, forall_mem_cons]
    by_cases inside : InsideLowSurrogates c
    · rw [recoded, if_pos inside, append_cancel_left_eq, ih]
      simp [inside]
    rw [recoded, if_neg inside]
    constructor
    · intro same
      have lengths := congrArg List.length same
      have shorter := length_recoded_le text
      rw [length_append, length_append, length_utf8EncodeChar_of_not_inside inside,
        length_singleton] at lengths
      omega
    · intro both
      exact absurd both.1 inside

/-- Converting a string from UTF-8 to UTF-16 and back reproduces it if and only if
none of its characters has the first or the last low surrogate. -/
theorem utf8_utf16_round_trip_iff (nulFree : ∀ c ∈ text, c ≠ '\x00')
    (count back : Nat) (enough : text.length ≤ count) (enoughBack : text.length ≤ back)
    (behind : List UInt8) (behind16 : List UInt16) :
    utf16Utf8Strncpy
        (utf8Utf16Strncpy (text.flatMap String.utf8EncodeChar ++ 0 :: behind) count ++ behind16)
        back =
      text.flatMap String.utf8EncodeChar ++ [0] ↔
    ∀ c ∈ text, InsideLowSurrogates c := by
  unfold utf16Utf8Strncpy utf8Utf16Strncpy
  rw [utf8Utf16Loop_text nulFree enough, nil_append, append_assoc, singleton_append,
    utf16Utf8Loop_text nulFree enoughBack, nil_append, append_cancel_right_eq]
  exact flatMap_recoded_eq_iff text

/-- A string with characters of one to four bytes. -/
theorem utf8_utf16_round_trip_iff_lengths :
    utf16Utf8Strncpy (utf8Utf16Strncpy
        (['A', 'é', '€', '😀'].flatMap String.utf8EncodeChar ++ [0]) 4) 4 =
      ['A', 'é', '€', '😀'].flatMap String.utf8EncodeChar ++ [0] := by
  have trip := utf8_utf16_round_trip_iff ['A', 'é', '€', '😀'] (by simp) 4 4 (le_refl 4)
    (le_refl 4) [] []
  exact trip.2 (by simp [InsideLowSurrogates])

/-- U+10000 comes back as a question mark. -/
theorem utf8_utf16_first_supplementary :
    utf16Utf8Strncpy (utf8Utf16Strncpy
        ([Char.ofNat 0x10000].flatMap String.utf8EncodeChar ++ [0]) 4) 4 = [0x3F, 0] ∧
      [0x3F, 0] ≠ [Char.ofNat 0x10000].flatMap String.utf8EncodeChar ++ [0] := by decide

end UBoot
