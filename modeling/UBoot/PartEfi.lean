import Mathlib.Data.List.TakeDrop
import UBoot.ByteMemory
import UBoot.Common

/-!
# GUID partition tables

The functions of `disk/part_efi.c` that lay out a partition table, write it to a
disk, check it and look partitions up in it.  Block numbers are `lbaint_t`, whose
width is a parameter; numbers in the table have fixed widths and are stored in
little-endian order, which is also the order of the processor.  The checksum and the
conversion of a GUID from text are parameters.  Allocations succeed.
-/

namespace UBoot

def GPT_HEADER_SIGNATURE_UBOOT : UInt64 := 0x5452415020494645

def GPT_HEADER_CHROMEOS_IGNORE : UInt64 := 0x454d45524f4e4749

def GPT_HEADER_REVISION_V1 : UInt32 := 0x00010000

def GPT_PRIMARY_PARTITION_TABLE_LBA : Nat := 1

/-- The sizes of the structures `gpt_header` and `gpt_entry`. -/
def GPT_HEADER_SIZE : Nat := 92

def GPT_ENTRY_SIZE : Nat := 128

def MSDOS_MBR_SIGNATURE : Nat := 0xAA55

def MSDOS_MBR_BOOT_CODE_SIZE : Nat := 440

def EFI_PMBR_OSTYPE_EFI_GPT : Nat := 0xEE

def PARTITION_BASIC_DATA_GUID : EfiGuid :=
  ⟨[0xA2, 0xA0, 0xD0, 0xEB, 0xE5, 0xB9, 0x33, 0x44, 0x87, 0xC0, 0x68, 0xB6, 0xB7, 0x26, 0x99,
    0xC7], rfl⟩

def PARTITION_SYSTEM_GUID : EfiGuid :=
  ⟨[0x28, 0x73, 0x2A, 0xC1, 0x1F, 0xF8, 0xD2, 0x11, 0xBA, 0x4B, 0x00, 0xA0, 0xC9, 0x3E, 0xC9,
    0x3B], rfl⟩

def zeroGuid : EfiGuid := ⟨List.replicate 16 0, rfl⟩

/-- The configuration: the width of `lbaint_t`, the number of entries of a table, the byte
offset of the entries where one is configured, the options of a partition, the conversion of
a GUID from text and the checksum. -/
structure GptConfig where
  lbaBits : Nat
  entryNumbers : Nat
  entriesOff : Option Nat
  partitionTypeGuid : Bool
  partitionUuids : Bool
  uuidStrToBin : List UInt8 → Option EfiGuid
  crc32 : List UInt8 → UInt32
  lbaBits_eq : lbaBits = 32 ∨ lbaBits = 64
  entryNumbers_pos : 0 < entryNumbers
  entryNumbers_le : entryNumbers ≤ 128

/-- A number as an `lbaint_t`. -/
def GptConfig.lbaint (c : GptConfig) (n : Nat) : Nat := n % 2 ^ c.lbaBits

/-- A difference of two numbers of type `lbaint_t`. -/
def GptConfig.lbaSub (c : GptConfig) (a b : Nat) : Nat := c.lbaint (a + (2 ^ c.lbaBits - b))

/-- What a `blk_desc` says about the size of a disk. -/
structure DiskDesc (c : GptConfig) where
  lba : Nat
  blksz : Nat
  lba_lt : lba < 2 ^ c.lbaBits
  blksz_ge : 512 ≤ blksz

structure DiskPartition (c : GptConfig) where
  start : Nat
  size : Nat
  name : { bytes : List UInt8 // bytes.length = 32 }
  bootable : Bool
  uuid : List UInt8
  typeGuid : List UInt8
  start_lt : start < 2 ^ c.lbaBits
  size_lt : size < 2 ^ c.lbaBits

structure GptHeader where
  signature : UInt64
  revision : UInt32
  headerSize : UInt32
  headerCrc32 : UInt32
  reserved1 : UInt32
  myLba : UInt64
  alternateLba : UInt64
  firstUsableLba : UInt64
  lastUsableLba : UInt64
  diskGuid : EfiGuid
  partitionEntryLba : UInt64
  numPartitionEntries : UInt32
  sizeofPartitionEntry : UInt32
  partitionEntryArrayCrc32 : UInt32
  deriving DecidableEq

structure GptEntry where
  partitionTypeGuid : EfiGuid
  uniquePartitionGuid : EfiGuid
  startingLba : UInt64
  endingLba : UInt64
  attributes : UInt64
  partitionName : { bytes : List UInt8 // bytes.length = 72 }
  deriving DecidableEq

/-! ## The bytes of a table -/

def u32At (bytes : List UInt8) (offset : Nat) : UInt32 :=
  UInt32.ofNat (leNat ((bytes.drop offset).take 4))

def u64At (bytes : List UInt8) (offset : Nat) : UInt64 :=
  UInt64.ofNat (leNat ((bytes.drop offset).take 8))

/-- A field of `n` bytes. -/
def fieldAt (bytes : List UInt8) (offset n : Nat) : { field : List UInt8 // field.length = n } :=
  ⟨(bytes.drop offset).takeD n 0, List.takeD_length _ _ _⟩

def GptHeader.bytes (h : GptHeader) : List UInt8 :=
  leBytes 8 h.signature.toNat ++ (leBytes 4 h.revision.toNat ++ (leBytes 4 h.headerSize.toNat ++
  (leBytes 4 h.headerCrc32.toNat ++ (leBytes 4 h.reserved1.toNat ++ (leBytes 8 h.myLba.toNat ++
  (leBytes 8 h.alternateLba.toNat ++ (leBytes 8 h.firstUsableLba.toNat ++
  (leBytes 8 h.lastUsableLba.toNat ++ (h.diskGuid.1 ++ (leBytes 8 h.partitionEntryLba.toNat ++
  (leBytes 4 h.numPartitionEntries.toNat ++ (leBytes 4 h.sizeofPartitionEntry.toNat ++
  leBytes 4 h.partitionEntryArrayCrc32.toNat))))))))))))

def GptHeader.ofBytes (bytes : List UInt8) : GptHeader where
  signature := u64At bytes 0
  revision := u32At bytes 8
  headerSize := u32At bytes 12
  headerCrc32 := u32At bytes 16
  reserved1 := u32At bytes 20
  myLba := u64At bytes 24
  alternateLba := u64At bytes 32
  firstUsableLba := u64At bytes 40
  lastUsableLba := u64At bytes 48
  diskGuid := fieldAt bytes 56 16
  partitionEntryLba := u64At bytes 72
  numPartitionEntries := u32At bytes 80
  sizeofPartitionEntry := u32At bytes 84
  partitionEntryArrayCrc32 := u32At bytes 88

def GptEntry.bytes (e : GptEntry) : List UInt8 :=
  e.partitionTypeGuid.1 ++ (e.uniquePartitionGuid.1 ++ (leBytes 8 e.startingLba.toNat ++
  (leBytes 8 e.endingLba.toNat ++ (leBytes 8 e.attributes.toNat ++ e.partitionName.1))))

def GptEntry.ofBytes (bytes : List UInt8) : GptEntry where
  partitionTypeGuid := fieldAt bytes 0 16
  uniquePartitionGuid := fieldAt bytes 16 16
  startingLba := u64At bytes 32
  endingLba := u64At bytes 40
  attributes := u64At bytes 48
  partitionName := fieldAt bytes 56 72

def GptEntry.zero : GptEntry where
  partitionTypeGuid := zeroGuid
  uniquePartitionGuid := zeroGuid
  startingLba := 0
  endingLba := 0
  attributes := 0
  partitionName := ⟨List.replicate 72 0, rfl⟩

section Tables

variable {c : GptConfig} (d : DiskDesc c)

/-- `BLOCK_CNT`. -/
def DiskDesc.blockCnt (size : Nat) : Nat := (size - 1) / d.blksz + 1

def DiskDesc.padToBlocksize (bytes : List UInt8) : List UInt8 :=
  bytes ++ List.replicate (d.blockCnt bytes.length * d.blksz - bytes.length) 0

def blkDread (start blkcnt : Nat) (disk : Memory) : Option (List UInt8) :=
  if start + blkcnt ≤ d.lba then some (disk.read (start * d.blksz) (blkcnt * d.blksz)) else none

def blkDwrite (start blkcnt : Nat) (buffer : List UInt8) (disk : Memory) : Option Memory :=
  if start + blkcnt ≤ d.lba then
    some (disk.write (start * d.blksz) (buffer.take (blkcnt * d.blksz)))
  else none

/-! ## Making a table -/

/-- The configured block number of the entries; the padded byte offset is a `uint32_t`. -/
def configuredOffset : Nat :=
  match c.entriesOff with
  | none => 2
  | some offset => d.blockCnt offset * d.blksz % 2 ^ 32 / d.blksz

def partitionEntriesOffset : Nat :=
  if configuredOffset d < 2 then 2 else configuredOffset d

def gptFillHeader (strGuid : List UInt8) : Option GptHeader :=
  match c.uuidStrToBin strGuid with
  | none => none
  | some guid =>
    some
      { signature := GPT_HEADER_SIGNATURE_UBOOT
        revision := GPT_HEADER_REVISION_V1
        headerSize := UInt32.ofNat GPT_HEADER_SIZE
        headerCrc32 := 0
        reserved1 := 0
        myLba := 1
        alternateLba := UInt64.ofNat (c.lbaSub d.lba 1)
        firstUsableLba := UInt64.ofNat (partitionEntriesOffset d) + 32
        lastUsableLba := UInt64.ofNat (c.lbaSub d.lba 34)
        diskGuid := guid
        partitionEntryLba := UInt64.ofNat (partitionEntriesOffset d)
        numPartitionEntries := UInt32.ofNat c.entryNumbers
        sizeofPartitionEntry := UInt32.ofNat GPT_ENTRY_SIZE
        partitionEntryArrayCrc32 := 0 }

variable (h : GptHeader)

def GptHeader.entriesSize : Nat := (h.numPartitionEntries * h.sizeofPartitionEntry).toNat

variable (p : DiskPartition c)

def fillTypeGuid : Option EfiGuid :=
  if c.partitionTypeGuid then
    if p.typeGuid = [] then some PARTITION_BASIC_DATA_GUID else c.uuidStrToBin p.typeGuid
  else some PARTITION_BASIC_DATA_GUID

def fillUniqueGuid : Option EfiGuid :=
  if c.partitionUuids then c.uuidStrToBin p.uuid else some zeroGuid

def efiName (name : List UInt8) : List UInt8 := name.flatMap fun char => [char, 0]

theorem length_efiName (name : List UInt8) : (efiName name).length = 2 * name.length := by
  simp [efiName, List.length_flatMap, Nat.mul_comm]

def fillName : { bytes : List UInt8 // bytes.length = 72 } :=
  ⟨efiName p.name.1 ++ List.replicate 8 0, by
    rw [List.length_append, length_efiName, p.name.2, List.length_replicate]⟩

def askedStart (offset : Nat) (p : DiskPartition c) : Nat := if p.start = 0 then offset else p.start

/-- The loop of `gpt_fill_pte`, with the running offset. -/
def gptFillLoop (h : GptHeader) : (offset : Nat) → List (DiskPartition c) →
    Except Int (List GptEntry)
  | _, [] => .ok []
  | offset, p :: rest =>
    let start := askedStart offset p
    let next := c.lbaint (start + p.size)
    let hdrStart := h.myLba.toNat
    let pteStart := h.partitionEntryLba.toNat
    let pteEnd := pteStart + h.entriesSize / d.blksz
    if (start < hdrStart + 1 ∧ hdrStart < next) ∨ (start < pteEnd ∧ pteStart < next) then
      .error (-ENOSPC)
    else if c.lbaint (c.lbaint h.lastUsableLba.toNat + 1) < next then .error (-E2BIG)
    else
      match fillTypeGuid p with
      | none => .error (-EINVAL)
      | some typeGuid =>
        match fillUniqueGuid p with
        | none => .error (-EINVAL)
        | some uniqueGuid =>
          let entry : GptEntry :=
            { partitionTypeGuid := typeGuid
              uniquePartitionGuid := uniqueGuid
              startingLba := UInt64.ofNat start
              endingLba :=
                if rest = [] ∧ p.size = 0 then h.lastUsableLba
                else UInt64.ofNat (c.lbaSub next 1)
              attributes := if p.bootable then 4 else 0
              partitionName := fillName p }
          match gptFillLoop h next rest with
          | .error error => .error error
          | .ok entries => .ok (entry :: entries)

def gptFillPte (partitions : List (DiskPartition c)) : Except Int (List GptEntry) :=
  gptFillLoop d h (c.lbaint h.firstUsableLba.toNat) partitions

/-! ## Writing a table -/

/-- The protective MBR of a disk: the boot code is kept, one partition covers the disk. -/
def protectiveMbr (block : List UInt8) : List UInt8 :=
  block.take MSDOS_MBR_BOOT_CODE_SIZE ++ (List.replicate 6 0 ++ (List.replicate 4 0 ++
  (leBytes 4 EFI_PMBR_OSTYPE_EFI_GPT ++ (leBytes 4 1 ++ (leBytes 4 (d.lba + (2 ^ 32 - 1)) ++
  (List.replicate 48 0 ++ (leBytes 2 MSDOS_MBR_SIGNATURE ++ block.drop 512)))))))

def setProtectiveMbr (disk : Memory) : Option Memory :=
  match blkDread d 0 1 disk with
  | none => none
  | some block => blkDwrite d 0 1 (protectiveMbr d block) disk

/-- `efi_crc32` of a header, over as many bytes as it says it has. -/
def headerCrc : UInt32 := c.crc32 ((d.padToBlocksize h.bytes).take h.headerSize.toNat)

def entriesCrc (c : GptConfig) (h : GptHeader) (ptes : List UInt8) : UInt32 :=
  c.crc32 (ptes.take h.entriesSize)

def prepareBackupGptHeader (h : GptHeader) : GptHeader :=
  let backup :=
    { h with
      myLba := h.alternateLba
      alternateLba := h.myLba
      partitionEntryLba := h.lastUsableLba + 1
      headerCrc32 := 0 }
  { backup with headerCrc32 := headerCrc d backup }

def writeGptTable (h : GptHeader) (ptes : List UInt8) (disk : Memory) : Int × Memory :=
  let pteBlkCnt := d.blockCnt (h.numPartitionEntries.toNat * GPT_ENTRY_SIZE)
  match setProtectiveMbr d disk with
  | none => (-eio, disk)
  | some disk =>
    let h := { h with partitionEntryArrayCrc32 := entriesCrc c h ptes }
    let h := { h with headerCrc32 := headerCrc d h }
    match blkDwrite d 1 1 (d.padToBlocksize h.bytes) disk with
    | none => (-eio, disk)
    | some disk =>
      match blkDwrite d (c.lbaint h.partitionEntryLba.toNat) pteBlkCnt ptes disk with
      | none => (-eio, disk)
      | some disk =>
        let h := prepareBackupGptHeader d h
        match blkDwrite d (c.lbaint (c.lbaint h.lastUsableLba.toNat + 1)) pteBlkCnt ptes disk with
        | none => (-eio, disk)
        | some disk =>
          match blkDwrite d (c.lbaint h.myLba.toNat) 1 (d.padToBlocksize h.bytes) disk with
          | none => (-eio, disk)
          | some disk => (0, disk)

def entriesBuffer (entries : List GptEntry) : List UInt8 :=
  d.padToBlocksize
    ((entries ++ List.replicate (c.entryNumbers - entries.length) GptEntry.zero).flatMap
      GptEntry.bytes)

def gptRestore (strDiskGuid : List UInt8) (partitions : List (DiskPartition c)) (disk : Memory) :
    Int × Memory :=
  match gptFillHeader d strDiskGuid with
  | none => (-1, disk)
  | some h =>
    match gptFillPte d h partitions with
    | .error error => (error, disk)
    | .ok entries => writeGptTable d h (entriesBuffer d entries) disk

/-! ## Checking a table -/

/-- What `is_gpt_valid` answers; a valid table comes with its header and entries. -/
inductive GptCheck
  | invalid
  | valid (head : GptHeader) (ptes : List UInt8)
  | ignored

def GptCheck.code : GptCheck → Int
  | .invalid => 0
  | .valid _ _ => 1
  | .ignored => 2

/-- Whether a header block passes; the checksum is taken with the field of the checksum
cleared. -/
def validateGptHeader (c : GptConfig) (block : List UInt8) (lba lastlba : Nat) : Bool :=
  let h := GptHeader.ofBytes block
  h.signature = GPT_HEADER_SIGNATURE_UBOOT &&
    c.crc32 ((block.take 16 ++ (leBytes 4 0 ++ block.drop 20)).take h.headerSize.toNat) =
      h.headerCrc32 &&
    h.myLba.toNat = lba && h.firstUsableLba.toNat ≤ lastlba && h.lastUsableLba.toNat ≤ lastlba

def validateGptEntries (c : GptConfig) (h : GptHeader) (ptes : List UInt8) : Bool :=
  entriesCrc c h ptes = h.partitionEntryArrayCrc32

def allocReadGptEntries (disk : Memory) : Option (List UInt8) :=
  if h.entriesSize = 0 then none
  else blkDread d (c.lbaint h.partitionEntryLba.toNat) (d.blockCnt h.entriesSize) disk

def isGptValid (lba : Nat) (disk : Memory) : GptCheck :=
  match blkDread d 0 1 disk with
  | none => .invalid
  | some _ =>
    match blkDread d (c.lbaint lba) 1 disk with
    | none => .invalid
    | some block =>
      let h := GptHeader.ofBytes block
      if h.signature = GPT_HEADER_CHROMEOS_IGNORE then .ignored
      else if validateGptHeader c block (c.lbaint lba) d.lba then
        match allocReadGptEntries d h disk with
        | none => .invalid
        | some ptes => if validateGptEntries c h ptes then .valid h ptes else .invalid
      else .invalid

def gptVerifyHeaders (disk : Memory) : Option (GptHeader × List UInt8) :=
  match isGptValid d GPT_PRIMARY_PARTITION_TABLE_LBA disk with
  | .valid head _ =>
    if head.alternateLba.toNat ≠ c.lbaSub d.lba 1 then none
    else
      match isGptValid d (c.lbaSub d.lba 1) disk with
      | .valid head ptes => some (head, ptes)
      | _ => none
  | _ => none

def gptEntryAt (ptes : List UInt8) (i : Nat) : GptEntry :=
  GptEntry.ofBytes (ptes.drop (i * GPT_ENTRY_SIZE))

def gptConvertEfiNameToChar : (n : Nat) → List UInt8 → List UInt8
  | 0, _ => []
  | n + 1, [] => List.replicate (n + 1) 0
  | n + 1, char :: rest =>
    if char = 0 then List.replicate (n + 1) 0
    else char :: gptConvertEfiNameToChar n (rest.drop 1)

/-- Whether `strncmp` finds no difference. -/
def strncmpEq : (n : Nat) → List UInt8 → List UInt8 → Bool
  | 0, _, _ => true
  | n + 1, a :: as, b :: bs => a = b && (a = 0 || strncmpEq n as bs)
  | _ + 1, _, _ => false

def gptVerifyLoop (head : GptHeader) (ptes : List UInt8) : (i : Nat) → List (DiskPartition c) → Int
  | _, [] => 0
  | i, p :: rest =>
    let e := gptEntryAt ptes i
    if i = head.numPartitionEntries.toNat then -1
    else if strncmpEq 32 (gptConvertEfiNameToChar 37 (ptes.drop (i * GPT_ENTRY_SIZE + 56)))
        p.name.1 = false then -1
    else if (e.endingLba - e.startingLba + 1).toNat ≠ p.size then
      if rest = [] ∧ p.size = 0 then 0 else -1
    else if p.start = 0 then gptVerifyLoop head ptes (i + 1) rest
    else if e.startingLba.toNat ≠ p.start then -1
    else gptVerifyLoop head ptes (i + 1) rest

def gptVerifyPartitions (partitions : List (DiskPartition c)) (disk : Memory) : Int :=
  match gptVerifyHeaders d disk with
  | none => -1
  | some (head, ptes) => gptVerifyLoop head ptes 0 partitions

/-! ## Looking up a partition -/

def findValidGpt (disk : Memory) : Option (GptHeader × List UInt8) :=
  match isGptValid d GPT_PRIMARY_PARTITION_TABLE_LBA disk with
  | .valid head ptes => some (head, ptes)
  | _ =>
    match isGptValid d (c.lbaSub d.lba 1) disk with
    | .valid head ptes => some (head, ptes)
    | _ => none

def isPteValid (e : GptEntry) : Bool := e.partitionTypeGuid ≠ zeroGuid

def getBootable (e : GptEntry) : Nat :=
  (if e.partitionTypeGuid = PARTITION_SYSTEM_GUID then 2 else 0) +
    if e.attributes &&& 4 = 0 then 0 else 1

structure PartInfo where
  start : Nat
  size : Nat
  blksz : Nat
  bootable : Nat
  typeFlags : Nat
  uuid : EfiGuid
  typeGuid : EfiGuid

def partGetInfoEfi (part : Int) (disk : Memory) : Except Int PartInfo :=
  if part < 1 then .error (-EINVAL)
  else
    match findValidGpt d disk with
    | none => .error (-EINVAL)
    | some (head, ptes) =>
      let e := gptEntryAt ptes (part - 1).toNat
      if head.numPartitionEntries.toNat < part ∨ isPteValid e = false then .error (-EPERM)
      else
        let start := c.lbaint e.startingLba.toNat
        .ok
          { start := start
            size := c.lbaSub (c.lbaint e.endingLba.toNat + 1) start
            blksz := d.blksz
            bootable := getBootable e
            typeFlags := e.attributes.toNat / 2 ^ 48
            uuid := e.uniquePartitionGuid
            typeGuid := e.partitionTypeGuid }

end Tables

end UBoot
