import UBoot.Alignment
import UBoot.ByteMemory
import UBoot.Common

/-!
# Reading and writing NAND around bad blocks

The functions of `nand_util.c` that write an image to a NAND device and read it
back while they step over bad blocks.  Offsets are `loff_t`, whose values are
natural numbers here; the masks that round an offset down to a block are taken in
the widths the source takes them in, and sums in `size_t` wrap around.  The chip
itself is a parameter.  A loop takes a number of rounds and has no answer if that
number is not enough.
-/

namespace UBoot

/-- The geometry of a device; the erase size is a `uint32_t` that is taken for an `int`, the
size is a `loff_t`. -/
structure MtdInfo where
  size : Nat
  erasesize : Nat
  writesize : Nat
  erasesize_pow : ∃ shift < 31, erasesize = 2 ^ shift
  writesize_pos : 0 < writesize
  writesize_dvd : writesize ∣ erasesize
  erasesize_dvd : erasesize ∣ size
  size_lt : size < 2 ^ 63

structure NandChip where
  bad : Nat → Bool
  write : Nat → List UInt8 → Memory → Int × Memory
  read : Nat → Nat → Memory → Int × List UInt8

section Device

variable (mtd : MtdInfo) (chip : NandChip)

def MtdInfo.blockStart (offset : Nat) : Nat :=
  (BitVec.ofNat 64 offset &&& ~~~BitVec.ofNat 64 (mtd.erasesize - 1)).toNat

/-- The same with a mask that is an `unsigned int`. -/
def MtdInfo.blockStart32 (offset : Nat) : Nat :=
  (BitVec.ofNat 64 offset &&& (~~~BitVec.ofNat 32 (mtd.erasesize - 1)).setWidth 64).toNat

def MtdInfo.blockOffset (offset : Nat) : Nat := offset &&& (mtd.erasesize - 1)

/-- Whether a block counts as bad; an offset outside of the device is an error, which does. -/
def nandBlockIsbad (ofs : Nat) : Bool := mtd.size ≤ ofs || chip.bad (ofs / mtd.erasesize)

def nandWrite (ofs : Nat) (data : List UInt8) (flash : Memory) : Int × Memory :=
  if mtd.size < ofs + data.length then (-EINVAL, flash)
  else if data = [] then (0, flash)
  else chip.write ofs data flash

def nandRead (ofs len : Nat) (flash : Memory) : Int × List UInt8 :=
  if mtd.size < ofs + len then (-EINVAL, [])
  else if len = 0 then (0, [])
  else chip.read ofs len flash

/-- The loop of `check_skip_len`: whether bad blocks are met and how much of the flash is used,
where `bits` is the width of `size_t`. -/
def checkSkipLoop (bits length : Nat) : (rounds offset lenExclBad used : Nat) → Int →
    Option (Int × Nat)
  | 0, _, _, _, _ => none
  | rounds + 1, offset, lenExclBad, used, ret =>
    if lenExclBad < length then
      if mtd.size ≤ offset then some (-1, used)
      else
        let blockLen := mtd.erasesize - mtd.blockOffset offset
        if nandBlockIsbad mtd chip (mtd.blockStart offset) then
          checkSkipLoop bits length rounds (offset + blockLen) lenExclBad
            ((used + blockLen) % 2 ^ bits) 1
        else
          checkSkipLoop bits length rounds (offset + blockLen)
            ((lenExclBad + blockLen) % 2 ^ bits) ((used + blockLen) % 2 ^ bits) ret
    else if length < lenExclBad then
      some (ret, (used + (2 ^ bits - (lenExclBad - length))) % 2 ^ bits)
    else some (ret, used)

def checkSkipLen (bits rounds offset length : Nat) : Option (Int × Nat) :=
  checkSkipLoop mtd chip bits length rounds offset 0 0 0

def dropFfs (buf : List UInt8) : Nat :=
  let l := (buf.reverse.dropWhile fun byte => byte == 0xff).length
  min ((l + mtd.writesize - 1) / mtd.writesize * mtd.writesize) buf.length

/-- The loop of `nand_verify`; the offset is a `size_t`, the end is not. -/
def nandVerifyLoop (bits stop : Nat) (flash : Memory) : (rounds verofs : Nat) → List UInt8 →
    Option Int
  | 0, _, _ => none
  | rounds + 1, verofs, buf =>
    if verofs < stop then
      let verlen := min mtd.writesize ((stop - verofs) % 2 ^ 32)
      let result := nandRead mtd chip verofs verlen flash
      if result.1 ≠ 0 ∧ result.1 ≠ -EUCLEAN then some (-eio)
      else if buf.length < verlen then none
      else if buf.take verlen ≠ result.2 then some (-eio)
      else
        nandVerifyLoop bits stop flash rounds ((verofs + verlen) % 2 ^ bits) (buf.drop verlen)
    else some 0

def nandVerify (bits rounds ofs : Nat) (buf : List UInt8) (flash : Memory) : Option Int :=
  nandVerifyLoop mtd chip bits (ofs + buf.length) flash rounds (ofs % 2 ^ bits) buf

structure NandFlags where
  dropFfs : Bool
  wrVerify : Bool

def writeVerified (bits rounds : Nat) (flags : NandFlags) (offset : Nat) (data : List UInt8)
    (flash : Memory) : Option (Int × Memory) :=
  let result := nandWrite mtd chip offset data flash
  if flags.wrVerify ∧ result.1 = 0 then
    (nandVerify mtd chip bits rounds offset data result.2).map fun rval => (rval, result.2)
  else some result

/-- The loop of `nand_write_skip_bad`: its status, how much is left to write, and the flash. -/
def writeSkipLoop (bits : Nat) (flags : NandFlags) : (rounds offset : Nat) → List UInt8 →
    Memory → Option (Int × Nat × Memory)
  | 0, _, _, _ => none
  | rounds + 1, offset, buffer, flash =>
    if buffer = [] then some (0, 0, flash)
    else if nandBlockIsbad mtd chip (mtd.blockStart offset) then
      writeSkipLoop bits flags rounds (offset + (mtd.erasesize - mtd.blockOffset offset)) buffer
        flash
    else
      let writeSize :=
        if buffer.length < mtd.erasesize - mtd.blockOffset offset then buffer.length
        else mtd.erasesize - mtd.blockOffset offset
      let truncated :=
        if flags.dropFfs then dropFfs mtd (buffer.take writeSize) else writeSize
      match writeVerified mtd chip bits rounds flags offset (buffer.take truncated) flash with
      | none => none
      | some (rval, flash) =>
        if rval ≠ 0 then some (rval, buffer.length, flash)
        else
          writeSkipLoop bits flags rounds (offset + writeSize) (buffer.drop writeSize) flash

/-- What a write comes to: its status, `*length`, `*actual` and the flash. -/
structure NandWritten where
  rval : Int
  length : Nat
  actual : Nat
  flash : Memory

def nandWriteSkipBad (bits rounds : Nat) (flags : NandFlags) (offset lim : Nat)
    (buffer : List UInt8) (flash : Memory) : Option NandWritten :=
  if offset % mtd.writesize ≠ 0 then some ⟨-EINVAL, 0, 0, flash⟩
  else
    match checkSkipLen mtd chip bits rounds offset buffer.length with
    | none => none
    | some (needSkip, used) =>
      if needSkip < 0 then some ⟨-EINVAL, 0, used, flash⟩
      else if lim < used then some ⟨-EFBIG, 0, used, flash⟩
      else if needSkip = 0 ∧ flags.dropFfs = false then
        (writeVerified mtd chip bits rounds flags offset buffer flash).map fun (rval, flash) =>
          ⟨rval, if rval = 0 then buffer.length else 0, used, flash⟩
      else
        (writeSkipLoop mtd chip bits flags rounds offset buffer flash).map
          fun (rval, left, flash) => ⟨rval, buffer.length - left, used, flash⟩

/-- The loop of `nand_read_skip_bad`: its status, how much is left to read, and the bytes. -/
def readSkipLoop (flash : Memory) : (rounds offset left : Nat) → List UInt8 →
    Option (Int × Nat × List UInt8)
  | 0, _, _, _ => none
  | rounds + 1, offset, left, buffer =>
    if left = 0 then some (0, 0, buffer)
    else if nandBlockIsbad mtd chip (mtd.blockStart32 offset) then
      readSkipLoop flash rounds (offset + (mtd.erasesize - mtd.blockOffset offset)) left buffer
    else
      let readLength :=
        if left < mtd.erasesize - mtd.blockOffset offset then left
        else mtd.erasesize - mtd.blockOffset offset
      let result := nandRead mtd chip offset readLength flash
      if result.1 ≠ 0 ∧ result.1 ≠ -EUCLEAN then some (result.1, left, buffer)
      else
        readSkipLoop flash rounds (offset + readLength) (left - readLength) (buffer ++ result.2)

/-- What a read comes to: its status, `*length`, `*actual` and the bytes in the buffer. -/
structure NandReadBack where
  rval : Int
  length : Nat
  actual : Nat
  buffer : List UInt8

def nandReadSkipBad (bits rounds offset length lim : Nat) (flash : Memory) : Option NandReadBack :=
  if offset % mtd.writesize ≠ 0 then some ⟨-EINVAL, 0, 0, []⟩
  else
    match checkSkipLen mtd chip bits rounds offset length with
    | none => none
    | some (needSkip, used) =>
      if needSkip < 0 then some ⟨-EINVAL, 0, used, []⟩
      else if lim < used then some ⟨-EFBIG, 0, used, []⟩
      else if needSkip = 0 then
        let result := nandRead mtd chip offset length flash
        if result.1 = 0 ∨ result.1 = -EUCLEAN then some ⟨0, length, used, result.2⟩
        else some ⟨result.1, 0, used, []⟩
      else
        (readSkipLoop mtd chip flash rounds offset length []).map fun (rval, left, buffer) =>
          ⟨rval, length - left, used, buffer⟩

end Device

end UBoot
