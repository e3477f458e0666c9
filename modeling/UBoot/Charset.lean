import Mathlib.Data.Nat.Bitwise
import Mathlib.Data.List.Basic

/-!
# Conversion between UTF-8 and UTF-16

The readers and writers of code points of `lib/charset.c` and the two copy
functions built from them.  A string is read from the units that stand in memory
at its address, and what a writer has stored so far is the list of units before
its destination pointer.  Code points are signed, with `-1` for an illegal
sequence.
-/

namespace UBoot

def readString : List UInt8 → UInt8 × List UInt8
  | [] => (0, [])
  | c :: src => if c = 0 then (0, c :: src) else (c, src)

section GetCode

variable {Stream : Type} (readU8 : Stream → UInt8 × Stream)

def isContinuation (ch : Nat) : Bool := 0x80 ≤ ch && ch ≤ 0xbf

/-- The part of `get_code` for the last two bytes of a code point. -/
def getCodeEnd (code ch : Nat) (data : Stream) : Int × Stream :=
  let code := code + (ch &&& 0x3f) <<< 6
  let next := readU8 data
  let ch := next.1.toNat
  if isContinuation ch then
    (((ch &&& 0x3f) + code : Nat), next.2)
  else
    (-1, next.2)

/-- The part of `get_code` that follows the lead of three or four bytes. -/
def getCodeLong (code ch : Nat) (data : Stream) : Int × Stream :=
  let code := code + ch <<< 12
  if (0xD800 ≤ code ∧ code ≤ 0xDFFF) ∨ 0x110000 ≤ code then
    (-1, data)
  else
    let next := readU8 data
    let ch := next.1.toNat
    if isContinuation ch then
      getCodeEnd readU8 code ch next.2
    else
      (-1, next.2)

def getCode (data : Stream) : Int × Stream :=
  let next := readU8 data
  let ch := next.1.toNat
  if ch = 0 then
    (0, next.2)
  else if 0xc2 ≤ ch ∧ ch ≤ 0xf4 then
    if 0xe0 ≤ ch then
      if 0xf0 ≤ ch then
        let code := (ch &&& 0x07) <<< 18
        let next := readU8 next.2
        let ch := next.1.toNat
        if isContinuation ch then
          getCodeLong readU8 code (ch &&& 0x3f) next.2
        else
          (-1, next.2)
      else
        getCodeLong readU8 0 (ch &&& 0x0f) next.2
    else
      getCodeEnd readU8 0 ch next.2
  else if 0x80 ≤ ch then
    (-1, next.2)
  else
    (ch, next.2)

end GetCode

def utf8Get (src : List UInt8) : Int × List UInt8 := getCode readString src

/-- Appends the bytes of a code point, or returns `none` for `-1` with nothing
written. -/
def utf8Put (code : Int) (dst : List UInt8) : Option (List UInt8) :=
  if (0xD800 ≤ code ∧ code ≤ 0xDFFF) ∨ 0x110000 ≤ code then
    none
  else if code ≤ 0x007F then
    some (dst ++ [UInt8.ofInt code])
  else
    let code := code.toNat
    let last := UInt8.ofNat (code &&& 0x3F ||| 0x80)
    if code ≤ 0x07FF then
      some (dst ++ [UInt8.ofNat (code >>> 6 ||| 0xC0), last])
    else
      let middle := UInt8.ofNat (code >>> 6 &&& 0x3F ||| 0x80)
      if code < 0x10000 then
        some (dst ++ [UInt8.ofNat (code >>> 12 ||| 0xE0), middle, last])
      else
        some (dst ++ [UInt8.ofNat (code >>> 18 ||| 0xF0),
          UInt8.ofNat (code >>> 12 &&& 0x3F ||| 0x80), middle, last])

/-- Appends the units of a code point, or returns `none` for `-1` with nothing
written. -/
def utf16Put (code : Int) (dst : List UInt16) : Option (List UInt16) :=
  if (0xD800 ≤ code ∧ code ≤ 0xDFFF) ∨ 0x110000 ≤ code then
    none
  else if code < 0x10000 then
    some (dst ++ [UInt16.ofInt code])
  else
    let code := code.toNat - 0x10000
    some (dst ++ [UInt16.ofNat (code >>> 10 ||| 0xD800), UInt16.ofNat (code &&& 0x3ff ||| 0xDC00)])

/-- The part of `utf16_get` for the unit after a high surrogate `code`. -/
def utf16GetLow (code : Nat) : List UInt16 → Int × List UInt16
  | [] => (-1, [])
  | unit :: src =>
    if unit = 0 then
      (-1, unit :: src)
    else
      let code := (code &&& 0x3ff) <<< 10 + 0x10000
      let code2 := unit.toNat
      if code2 ≤ 0xDC00 ∨ 0xDFFF ≤ code2 then
        (-1, src)
      else
        ((code + (code2 &&& 0x3ff) : Nat), src)

def utf16Get : List UInt16 → Int × List UInt16
  | [] => (0, [])
  | unit :: src =>
    let code := unit.toNat
    if unit = 0 then
      (0, unit :: src)
    else if 0xDC00 ≤ code ∧ code ≤ 0xDFFF then
      (-1, src)
    else if 0xD800 ≤ code ∧ code ≤ 0xDBFF then
      utf16GetLow code src
    else
      (code, src)

def replaceIllegal (code : Int) : Int := if code < 0 then 0x3F else code

/-- The loop of `utf8_utf16_strncpy`. -/
def utf8Utf16Loop : Nat → List UInt8 → List UInt16 → List UInt16
  | 0, _, dst => dst
  | count + 1, src, dst =>
    if src.headD 0 = 0 then
      dst
    else
      let next := utf8Get src
      utf8Utf16Loop count next.2 ((utf16Put (replaceIllegal next.1) dst).getD dst)

/-- What `utf8_utf16_strncpy` writes, with the final NUL. -/
def utf8Utf16Strncpy (src : List UInt8) (count : Nat) : List UInt16 :=
  utf8Utf16Loop count src [] ++ [0]

/-- The loop of `utf16_utf8_strncpy`. -/
def utf16Utf8Loop : Nat → List UInt16 → List UInt8 → List UInt8
  | 0, _, dst => dst
  | count + 1, src, dst =>
    if src.headD 0 = 0 then
      dst
    else
      let next := utf16Get src
      utf16Utf8Loop count next.2 ((utf8Put (replaceIllegal next.1) dst).getD dst)

/-- What `utf16_utf8_strncpy` writes, with the final NUL. -/
def utf16Utf8Strncpy (src : List UInt16) (count : Nat) : List UInt8 :=
  utf16Utf8Loop count src [] ++ [0]

end UBoot
