import UBoot.Alignment
import UBoot.ByteMemory
import UBoot.RecordWalk

/-!
# Bloblists

A bloblist hands data from one boot stage to the next.  This file translates
`common/bloblist.c`: a header of 24 bytes is followed by records, each a header of
eight bytes and the data of a blob.  The header and the records are read from and
written to memory as the source does, in little-endian order and with 32-bit
arithmetic where the source has an `int`.  What may not return is an `Option`: adding
a padding record to a list that is not aligned needs another padding record, and the
walk over the records may come to a place that is not a record.
-/

namespace UBoot

def BLOBLIST_VERSION : UInt8 := 1

def BLOBLIST_MAGIC : Nat := 0x4a0fb10b

def BLOBLIST_BLOB_ALIGN_LOG2 : Nat := 3

def BLOBLIST_ALIGN : Nat := 8

def BLOBLISTT_VOID : BitVec 32 := 0

def BLOBLISTR_TAG_MASK : Nat := 0xffffff

def BLOBLISTR_HDR_SIZE_SHIFT : Nat := 24

def BLOBLISTR_HDR_SIZE_MASK : Nat := 0xff000000

def BLOBLIST_HDR_SIZE : Nat := 24

def BLOBLIST_REC_HDR_SIZE : Nat := 8

inductive BloblistError where
  | ENOSPC
  | EFAULT
  | ESPIPE
  deriving DecidableEq

inductive BloblistCheckError where
  | badMagic
  | badVersion
  | badTotalSize
  | badUsedSize
  | badHeaderSize
  | badChecksum
  deriving DecidableEq

/-- The memory of a machine with addresses of `ulongBits` bits, and the address of the
bloblist in it. -/
structure Bloblist where
  ulongBits : Nat
  wide : 32 ≤ ulongBits
  mem : Memory
  hdr : Nat

namespace Bloblist

/-! ## Fields -/

variable (b : Bloblist)

def u8 (ofs : Nat) : UInt8 := b.mem (b.hdr + ofs)

def u32 (ofs : Nat) : Nat := b.mem.readLE (b.hdr + ofs) 4

def putU8 (ofs : Nat) (value : UInt8) : Bloblist :=
  { b with mem := b.mem.write (b.hdr + ofs) [value] }

def putU32 (ofs value : Nat) : Bloblist := { b with mem := b.mem.writeLE (b.hdr + ofs) 4 value }

/-- `memset` with zero from an offset on. -/
def clear (ofs n : Nat) : Bloblist := { b with mem := b.mem.zero (b.hdr + ofs) n }

def magic : Nat := b.u32 0

def chksum : UInt8 := b.u8 4

def version : UInt8 := b.u8 5

def hdrSize : Nat := (b.u8 6).toNat

def alignLog2 : Nat := (b.u8 7).toNat

def usedSize : Nat := b.u32 8

def totalSize : Nat := b.u32 12

def tagAndHdrSize (ofs : Nat) : Nat := b.u32 ofs

def recSize (ofs : Nat) : Nat := b.u32 (ofs + 4)

def recHdrSize (ofs : Nat) : Nat :=
  (b.tagAndHdrSize ofs &&& BLOBLISTR_HDR_SIZE_MASK) >>> BLOBLISTR_HDR_SIZE_SHIFT

def recTag (ofs : Nat) : Nat := b.tagAndHdrSize ofs &&& BLOBLISTR_TAG_MASK

/-! ## Walking -/

/-- The offset of the record behind the one at `ofs`. -/
def blobEndOfs (ofs : Nat) : Nat :=
  let hdrSize := BitVec.ofNat b.ulongBits (b.recHdrSize ofs)
  let offset := BitVec.ofNat b.ulongBits ofs +
    BitVec.ofNat b.ulongBits ((b.recHdrSize ofs + b.recSize ofs) % 2 ^ 32)
  let mask := BitVec.ofNat b.ulongBits (2 ^ b.alignLog2 - 1)
  ((offset + hdrSize - 1 ||| mask) + 1 - hdrSize).toNat

/-- The records that `foreach_rec` visits. -/
def foreachRec (steps : Nat) : Option (List Nat) :=
  recordWalk b.blobEndOfs b.usedSize steps b.hdrSize

def findrecWithin (steps : Nat) (tag : BitVec 32) : Option (Option Nat) :=
  recordSearch b.blobEndOfs b.usedSize (fun ofs => b.recTag ofs = tag.toNat) steps b.hdrSize

/-- The record with a tag.  Records take space, so that the search has come to its end or
to a record of no length after as many steps as the list has bytes. -/
def bloblistFindrec (tag : BitVec 32) : Option (Option Nat) := b.findrecWithin (b.usedSize + 1) tag

def bloblistGetBlob (tag : BitVec 32) : Option (Option (Nat × Nat)) :=
  (b.bloblistFindrec tag).map fun found =>
    found.map fun ofs => (b.hdr + ofs + b.recHdrSize ofs, b.recSize ofs)

def bloblistFind (tag size : BitVec 32) : Option (Option Nat) :=
  (b.bloblistGetBlob tag).map fun found =>
    found.bind fun blob =>
      if size ≠ 0 ∧ size.toNat ≠ blob.2 then none else some blob.1

/-! ## Adding -/

/-- `ALIGN` of an `int`. -/
def alignInt (x : BitVec 32) (alignLog2 : Nat) : BitVec 32 :=
  let mask : BitVec 32 := (1#32 <<< alignLog2) - 1
  x + mask &&& ~~~mask

/-- The address at which the data of the next record starts, as an `int`. -/
def dataStart : BitVec 32 := BitVec.ofNat 32 (b.hdr + b.usedSize + BLOBLIST_REC_HDR_SIZE)

def writeRec (tag size : BitVec 32) : Bloblist :=
  let named := b.putU32 b.usedSize
    (tag ||| BitVec.ofNat 32 (BLOBLIST_REC_HDR_SIZE <<< BLOBLISTR_HDR_SIZE_SHIFT)).toNat
  let sized := named.putU32 (b.usedSize + 4) size.toNat
  sized.clear (b.usedSize + sized.recHdrSize b.usedSize) (sized.recSize b.usedSize)

/-- The second half of `bloblist_addrec`, after the padding. -/
def placeRec (tag size : BitVec 32) (alignLog2 : Nat) : Bloblist × Except BloblistError Nat :=
  let newAlloced := b.dataStart - BitVec.ofNat 32 b.hdr + alignInt size alignLog2
  if b.totalSize < newAlloced.toNat then (b, .error .ENOSPC)
  else ((b.writeRec tag size).putU32 8 newAlloced.toNat, .ok b.usedSize)

/-- `bloblist_addrec` with room for `depth` nested calls. -/
def bloblistAddrec : (depth : Nat) → (b : Bloblist) → (tag size : BitVec 32) →
    (alignLog2 : Nat) → Option (Bloblist × Except BloblistError Nat)
  | 0, _, _, _, _ => none
  | depth + 1, b, tag, size, alignLog2 =>
    let alignLog2 := if alignLog2 = 0 then BLOBLIST_BLOB_ALIGN_LOG2 else alignLog2
    let alignedStart := alignInt b.dataStart alignLog2 - b.dataStart
    if alignedStart = 0 then some (b.placeRec tag size alignLog2)
    else
      let voidSize := alignedStart - BitVec.ofNat 32 BLOBLIST_REC_HDR_SIZE
      match bloblistAddrec depth b BLOBLISTT_VOID voidSize 0 with
      | some (padded, .ok _) => some (padded.placeRec tag size alignLog2)
      | failed => failed

def blobAddress : Bloblist × Except BloblistError Nat → Bloblist × Option Nat
  | (b, .ok ofs) => (b, some (b.hdr + ofs + b.recHdrSize ofs))
  | (b, .error _) => (b, none)

/-- The list after `bloblist_add`, and the address of the new blob.  A padding record of a
list that is aligned needs no padding of its own. -/
def bloblistAdd (tag size : BitVec 32) (alignLog2 : Nat) : Option (Bloblist × Option Nat) :=
  (bloblistAddrec 2 b tag size alignLog2).map blobAddress

def bloblistEnsurerec (tag size : BitVec 32) (alignLog2 : Nat) :
    Option (Bloblist × Except BloblistError Nat) :=
  match b.bloblistFindrec tag with
  | none => none
  | some (some ofs) =>
    if size ≠ 0 ∧ size.toNat ≠ b.recSize ofs then some (b, .error .ESPIPE)
    else some (b, .ok ofs)
  | some none => bloblistAddrec 2 b tag size alignLog2

/-- The list after `bloblist_ensure`, and the address of the blob. -/
def bloblistEnsure (tag size : BitVec 32) : Option (Bloblist × Option Nat) :=
  (b.bloblistEnsurerec tag size 0).map blobAddress

/-! ## Making, checking and moving a list -/

/-- `bloblist_new` at an address of the machine. -/
def bloblistNew (machine : Bloblist) (addr : Nat) (size flags alignLog2 : BitVec 32) :
    Except BloblistError Bloblist :=
  if size.toNat < BLOBLIST_HDR_SIZE then .error .ENOSPC
  else if addr % BLOBLIST_ALIGN ≠ 0 then .error .EFAULT
  else .ok <| ({ machine with hdr := addr }.clear 0 BLOBLIST_HDR_SIZE)
      |>.putU8 5 BLOBLIST_VERSION
      |>.putU8 6 (UInt8.ofNat BLOBLIST_HDR_SIZE)
      |>.putU32 16 flags.toNat
      |>.putU32 0 BLOBLIST_MAGIC
      |>.putU32 8 BLOBLIST_HDR_SIZE
      |>.putU32 12 size.toNat
      |>.putU8 7
        (if alignLog2 ≠ 0 then UInt8.ofNat alignLog2.toNat
         else UInt8.ofNat BLOBLIST_BLOB_ALIGN_LOG2)
      |>.putU8 4 0

/-- `table_compute_checksum`, whose length is an `int`. -/
def tableComputeChecksum (mem : Memory) (v : Nat) (len : BitVec 32) : UInt8 :=
  (mem.read v len.toInt.toNat).foldl (· - ·) 0

def bloblistCalcChksum : UInt8 :=
  tableComputeChecksum b.mem b.hdr (BitVec.ofNat 32 b.usedSize) + b.chksum

def bloblistFinish : Bloblist := b.putU8 4 b.bloblistCalcChksum

/-- `bloblist_check` of the list at an address, which becomes the list of this stage. -/
def bloblistCheck (machine : Bloblist) (addr : Nat) (size : BitVec 32) :
    Except BloblistCheckError Bloblist :=
  let b := { machine with hdr := addr }
  if b.magic ≠ BLOBLIST_MAGIC then .error .badMagic
  else if b.version ≠ BLOBLIST_VERSION then .error .badVersion
  else if b.totalSize = 0 ∨ size ≠ 0 ∧ size.toNat < b.totalSize then .error .badTotalSize
  else if b.totalSize < b.usedSize then .error .badUsedSize
  else if b.hdrSize ≠ BLOBLIST_HDR_SIZE then .error .badHeaderSize
  else if b.chksum ≠ b.bloblistCalcChksum then .error .badChecksum
  else .ok b

/-- `bloblist_reloc`: copy the list to another address. -/
def bloblistReloc (dest : Nat) (toSize : BitVec 32) : Except BloblistError Bloblist :=
  if toSize = 0 then .ok b
  else if toSize.toNat < b.totalSize then .error .ENOSPC
  else
    .ok ({ b with mem := b.mem.copy dest b.hdr b.totalSize, hdr := dest }.putU32 12 toSize.toNat)

def machine : Bloblist := ⟨64, by decide, fun _ => 0, 0⟩

end Bloblist

end UBoot
