import UBoot.CharsetStrict

/-!
# Lengths of converted strings

The functions that measure a string stop at a code point zero and count one unit for
a surrogate.  The copy functions go on after a zero and store nothing for a surrogate.
Only the UTF-8 reader returns such code points.
-/

namespace UBoot

open List

def strnlenLoop {Unit : Type} [DecidableEq Unit] [OfNat Unit 0]
    (get : List Unit → Int × List Unit) (width : Int → Nat) : Nat → List Unit → Nat → Nat
  | 0, _, len => len
  | count + 1, src, len =>
    if src.headD 0 = 0 then
      len
    else
      let next := get src
      if next.1 = 0 then len else strnlenLoop get width count next.2 (len + width next.1)

def utf16Width (code : Int) : Nat := if code < 0 then 1 else if code < 0x10000 then 1 else 2

def utf8Width (code : Int) : Nat :=
  if code < 0 then 1
  else if code < 0x80 then 1
  else if code < 0x800 then 2
  else if code < 0x10000 then 3
  else 4

def utf8Utf16Strnlen (src : List UInt8) (count : Nat) : Nat :=
  strnlenLoop utf8Get utf16Width count src 0

def utf16Utf8Strnlen (src : List UInt16) (count : Nat) : Nat :=
  strnlenLoop utf16Get utf8Width count src 0

def Fills {Unit : Type} [OfNat Unit 0] (stored : List Unit) (len : Nat) : Prop :=
  ∃ units, units.length = len ∧ stored = units ++ [0]

/-- The strings that a number of calls of `utf8_get` read from. -/
def utf8Reads : Nat → List UInt8 → List (List UInt8)
  | 0, _ => []
  | count + 1, src => if src.headD 0 = 0 then [] else src :: utf8Reads count (utf8Get src).2

def StartsUnstorable (src : List UInt8) : Prop :=
  ∃ n lead bytes, (n = 0 ∨ 0xD800 ≤ n ∧ n ≤ 0xDFFF) ∧ Encodes n lead bytes ∧ lead :: bytes <+: src

section Utf8

variable {src : List UInt8} (text : src.headD 0 ≠ 0)

include text

theorem exists_encodes (legal : 0 ≤ (utf8Get src).1) : ∃ n : Nat, ∃ lead bytes,
    Encodes n lead bytes ∧ (utf8Get src).1 = n ∧ lead :: bytes <+: src := by
  cases src with
  | nil => exact absurd rfl text
  | cons lead rest =>
    obtain ⟨n, bytes, encodes, code, split⟩ := utf8Get_legal text legal
    exact ⟨n, lead, bytes, encodes, code, _, congrArg (cons lead) split.symm⟩

theorem startsUnstorable_iff : StartsUnstorable src ↔
    (utf8Get src).1 = 0 ∨ 0xD800 ≤ (utf8Get src).1 ∧ (utf8Get src).1 ≤ 0xDFFF := by
  constructor
  · rintro ⟨n, lead, bytes, range, encodes, rest, rfl⟩
    rw [cons_append, utf8Get_encodes encodes text]
    omega
  · intro range
    obtain ⟨n, lead, bytes, encodes, code, front⟩ := exists_encodes text (by omega)
    exact ⟨n, lead, bytes, by omega, encodes, front⟩

theorem utf8Get_low : (utf8Get src).1 < 0x110000 := by
  by_contra high
  obtain ⟨n, lead, bytes, encodes, code, -⟩ := exists_encodes text (by omega)
  rw [Encodes] at encodes
  omega

end Utf8

section Put

variable {code : Int} (low : code < 0x110000) (notSurrogate : ¬(0xD800 ≤ code ∧ code ≤ 0xDFFF))

include low notSurrogate

theorem length_utf16Put (dst : List UInt16) :
    ((utf16Put (replaceIllegal code) dst).getD dst).length = dst.length + utf16Width code := by
  unfold utf16Put replaceIllegal utf16Width
  split_ifs <;> first | omega | simp

theorem length_utf8Put (dst : List UInt8) :
    ((utf8Put (replaceIllegal code) dst).getD dst).length = dst.length + utf8Width code := by
  unfold utf8Put replaceIllegal utf8Width
  simp only
  split_ifs <;> first | omega | simp

end Put

/-- All shorter copies have the measured lengths unless a code point cannot be stored. -/
theorem length_utf8Utf16Loop_iff (count : Nat) (src : List UInt8) (dst : List UInt16) :
    (∀ n ≤ count, (utf8Utf16Loop n src dst).length =
        strnlenLoop utf8Get utf16Width n src dst.length) ↔
      ∀ read ∈ utf8Reads count src, ¬ StartsUnstorable read := by
  induction count generalizing src dst with
  | zero => simp [utf8Reads, utf8Utf16Loop, strnlenLoop]
  | succ count ih =>
    rw [utf8Reads]
    by_cases empty : src.headD 0 = 0
    · rw [if_pos empty]
      refine iff_of_true ?_ (by simp)
      rintro (_ | n) -
      · rfl
      · rw [utf8Utf16Loop, strnlenLoop, if_pos empty, if_pos empty]
    have low := utf8Get_low empty
    have range := startsUnstorable_iff empty
    rw [if_neg empty, forall_mem_cons, ← ih _ ((utf16Put (replaceIllegal (utf8Get src).1) dst).getD
      dst)]
    have step : ∀ n, utf8Utf16Loop (n + 1) src dst = utf8Utf16Loop n (utf8Get src).2
        ((utf16Put (replaceIllegal (utf8Get src).1) dst).getD dst) := fun n => if_neg empty
    constructor
    · intro agree
      have storable : ¬ StartsUnstorable src := by
        intro bad
        have first := agree 1 (by omega)
        rw [step, utf8Utf16Loop, strnlenLoop, if_neg empty] at first
        rcases range.1 bad with zero | surrogate
        · simp [zero, replaceIllegal, utf16Put] at first
        rw [replaceIllegal, if_neg (by omega), utf16Put, if_pos (.inl surrogate),
          if_neg (by omega)] at first
        rw [strnlenLoop, utf16Width, if_neg (by omega), if_pos (by omega)] at first
        simp at first
      refine ⟨storable, fun n le => ?_⟩
      have next := agree (n + 1) (by omega)
      rw [range] at storable
      rw [step, strnlenLoop, if_neg empty] at next
      rw [next, length_utf16Put low (by omega)]
      exact if_neg (by omega)
    · rintro ⟨storable, agree⟩ (_ | n) le
      · rfl
      · rw [range] at storable
        rw [step, agree n (by omega), length_utf16Put low (by omega), strnlenLoop, if_neg empty]
        exact (if_neg (by omega)).symm

theorem utf16Get_storable {src : List UInt16} (text : src.headD 0 ≠ 0) : (utf16Get src).1 ≠ 0 ∧
    (utf16Get src).1 < 0x110000 ∧ ¬(0xD800 ≤ (utf16Get src).1 ∧ (utf16Get src).1 ≤ 0xDFFF) := by
  cases src with
  | nil => exact absurd rfl text
  | cons unit rest =>
    rw [headD_cons] at text
    have positive : unit.toNat ≠ 0 := fun zero => text (UInt16.toNat_inj.1 zero)
    have bound := unit.toNat_lt
    rw [utf16Get]
    simp only [if_neg text]
    split_ifs
    · simp
    · cases rest with
      | nil => simp [utf16GetLow]
      | cons low rest =>
        rw [utf16GetLow]
        simp only [and_0x3ff, Nat.shiftLeft_eq]
        split_ifs <;> simp only <;> omega
    · simp only
      omega

theorem length_utf16Utf8Loop (count : Nat) (src : List UInt16) (dst : List UInt8) :
    (utf16Utf8Loop count src dst).length = strnlenLoop utf16Get utf8Width count src dst.length := by
  induction count generalizing src dst with
  | zero => rfl
  | succ count ih =>
    rw [utf16Utf8Loop, strnlenLoop]
    split
    case isTrue => rfl
    case isFalse text =>
      obtain ⟨notZero, low, notSurrogate⟩ := utf16Get_storable text
      simp only [if_neg notZero]
      rw [ih, length_utf8Put low notSurrogate]

/-- Agreement of the measured length with what is copied. -/
theorem strncpy_fills_iff (src : List UInt8) (text : List UInt16) (count : Nat) :
    ((∀ n ≤ count, Fills (utf8Utf16Strncpy src n) (utf8Utf16Strnlen src n)) ↔
      ∀ read ∈ utf8Reads count src, ¬ StartsUnstorable read) ∧
    Fills (utf16Utf8Strncpy text count) (utf16Utf8Strnlen text count) := by
  refine ⟨?_, _, length_utf16Utf8Loop count text [], rfl⟩
  rw [← length_utf8Utf16Loop_iff count src []]
  refine forall₂_congr fun n _ => ⟨?_, fun length => ⟨_, length, rfl⟩⟩
  rintro ⟨units, length, stored⟩
  obtain rfl := append_cancel_right stored
  exact length

/-- A zero in three bytes, and a surrogate. -/
theorem strncpy_not_fills :
    utf8Utf16Strnlen [0xE0, 0x80, 0x80, 0x41, 0] 4 = 0 ∧
      utf8Utf16Strncpy [0xE0, 0x80, 0x80, 0x41, 0] 4 = [0, 0x41, 0] ∧
      utf8Utf16Strnlen [0xED, 0xA0, 0x80, 0] 3 = 1 ∧
      utf8Utf16Strncpy [0xED, 0xA0, 0x80, 0] 3 = [0] := by
  decide

end UBoot
