import UBoot.GptLayout

/-!
# Partition tables read back

What `gpt_restore` writes is read back by the functions that check a table and look
partitions up: both copies are valid and hold the header and the entries as they were
filled in.  Whether the partitions are then found as they were asked for depends on the
sums of the request.
-/

namespace UBoot

open List Nat GptConfig GptEntry DiskDesc

/-! ## Headers and entries as bytes -/

section Fields

variable {front rest : List UInt8} {offset n : Nat}

section Append

variable (behind : front.length ≤ offset)

include behind

theorem drop_behind : (front ++ rest).drop offset = rest.drop (offset - front.length) := by
  rw [drop_append, drop_eq_nil_of_le behind, nil_append]

theorem u32At_append : u32At (front ++ rest) offset = u32At rest (offset - front.length) := by
  rw [u32At, u32At, drop_behind behind]

theorem u64At_append : u64At (front ++ rest) offset = u64At rest (offset - front.length) := by
  rw [u64At, u64At, drop_behind behind]

theorem fieldAt_append :
    fieldAt (front ++ rest) offset n = fieldAt rest (offset - front.length) n :=
  Subtype.ext (congrArg (takeD n · 0) (drop_behind behind))

end Append

theorem u32At_leBytes (value : UInt32) : u32At (leBytes 4 value.toNat ++ rest) 0 = value := by
  have bound := value.toNat_lt
  rw [u32At, drop_zero, take_left' (length_leBytes _ _), leNat_leBytes,
    mod_eq_of_lt (by omega), UInt32.ofNat_toNat]

theorem u64At_leBytes (value : UInt64) : u64At (leBytes 8 value.toNat ++ rest) 0 = value := by
  have bound := value.toNat_lt
  rw [u64At, drop_zero, take_left' (length_leBytes _ _), leNat_leBytes,
    mod_eq_of_lt (by omega), UInt64.ofNat_toNat]

theorem fieldAt_append_same (field : { field : List UInt8 // field.length = n }) :
    fieldAt (field.1 ++ rest) 0 n = field :=
  Subtype.ext (takeD_left' field.2)

end Fields

namespace GptHeader

theorem length_bytes (h : GptHeader) : h.bytes.length = GPT_HEADER_SIZE := by
  simp [bytes, length_leBytes, h.diskGuid.2, GPT_HEADER_SIZE]

theorem ofBytes_bytes (h : GptHeader) (rest : List UInt8) : ofBytes (h.bytes ++ rest) = h := by
  have guidLength := h.diskGuid.2
  simp (disch := simp [guidLength]) only [ofBytes, bytes, append_assoc, u32At_append,
    u64At_append, fieldAt_append, length_leBytes, guidLength, reduceSub, u32At_leBytes,
    u64At_leBytes, fieldAt_append_same]

theorem clearCrc_bytes (h : GptHeader) (rest : List UInt8) :
    (h.bytes ++ rest).take 16 ++ (leBytes 4 0 ++ (h.bytes ++ rest).drop 20) =
      { h with headerCrc32 := 0 }.bytes ++ rest := by
  have zero : (0 : UInt32).toNat = 0 := rfl
  simp [bytes, take_append, drop_append, take_of_length_le, drop_eq_nil_of_le, zero]

end GptHeader

namespace GptEntry

theorem length_bytes (e : GptEntry) : e.bytes.length = GPT_ENTRY_SIZE := by
  simp [bytes, length_leBytes, e.partitionTypeGuid.2, e.uniquePartitionGuid.2,
    e.partitionName.2, GPT_ENTRY_SIZE]

theorem ofBytes_bytes (e : GptEntry) (rest : List UInt8) : ofBytes (e.bytes ++ rest) = e := by
  have typeLength := e.partitionTypeGuid.2
  have uniqueLength := e.uniquePartitionGuid.2
  simp (disch := simp [typeLength, uniqueLength]) only [ofBytes, bytes, append_assoc,
    u64At_append, fieldAt_append, length_leBytes, typeLength, uniqueLength, reduceSub,
    u64At_leBytes, fieldAt_append_same]

theorem drop_bytes (e : GptEntry) (rest : List UInt8) :
    (e.bytes ++ rest).drop 56 = e.partitionName.1 ++ rest := by
  have front : e.bytes = (e.partitionTypeGuid.1 ++ (e.uniquePartitionGuid.1 ++
      (leBytes 8 e.startingLba.toNat ++ (leBytes 8 e.endingLba.toNat ++
      leBytes 8 e.attributes.toNat)))) ++ e.partitionName.1 := by
    simp [bytes]
  rw [front, append_assoc]
  apply drop_left'
  simp [length_leBytes, e.partitionTypeGuid.2, e.uniquePartitionGuid.2]

theorem length_flatMap_bytes (es : List GptEntry) :
    (es.flatMap bytes).length = es.length * GPT_ENTRY_SIZE := by
  induction es with
  | nil => rfl
  | cons e es ih =>
    rw [flatMap_cons, length_append, length_bytes, ih, length_cons, succ_mul, add_comm]

end GptEntry

variable {c : GptConfig} (d : DiskDesc c)

/-! ## Blocks of a disk -/

theorem le_blockCnt_mul (size : Nat) : size ≤ d.blockCnt size * d.blksz := by
  have positive : 0 < d.blksz := lt_of_lt_of_le (by decide) d.blksz_ge
  have divided := lt_div_mul_add positive (a := size - 1)
  rw [blockCnt, add_mul]
  omega

theorem length_padToBlocksize (bytes : List UInt8) :
    (d.padToBlocksize bytes).length = d.blockCnt bytes.length * d.blksz := by
  have enough := le_blockCnt_mul d bytes.length
  rw [padToBlocksize, length_append, length_replicate]
  omega

variable (h : GptHeader)

theorem blockCnt_header : d.blockCnt h.bytes.length = 1 := by
  have wide := d.blksz_ge
  rw [h.length_bytes, blockCnt, GPT_HEADER_SIZE, div_eq_of_lt (by omega)]

theorem length_headerBlock : (d.padToBlocksize h.bytes).length = 1 * d.blksz := by
  rw [length_padToBlocksize, blockCnt_header]

theorem blockCnt_entries_le : d.blockCnt (c.entryNumbers * GPT_ENTRY_SIZE) ≤ 32 := by
  have wide := d.blksz_ge
  have few := c.entryNumbers_le
  have quotient : (c.entryNumbers * GPT_ENTRY_SIZE - 1) / d.blksz < 32 := by
    apply Nat.div_lt_of_lt_mul
    unfold GPT_ENTRY_SIZE
    omega
  unfold blockCnt
  omega

variable {disk disk' : Memory}

section Blocks

variable {d} {start blkcnt : Nat} {buffer : List UInt8}

variable (written : blkDwrite d start blkcnt buffer disk = some disk')

include written

theorem blkDwrite_some : start + blkcnt ≤ d.lba ∧
      disk' = disk.write (start * d.blksz) (buffer.take (blkcnt * d.blksz)) := by
  unfold blkDwrite at written
  split at written
  case isTrue inside =>
    cases written
    exact ⟨inside, rfl⟩
  case isFalse => cases written

theorem blkDread_written (whole : buffer.length = blkcnt * d.blksz) :
    blkDread d start blkcnt disk' = some buffer := by
  obtain ⟨inside, rfl⟩ := blkDwrite_some written
  rw [blkDread, if_pos inside, take_of_length_le whole.le, ← whole, Memory.read_write_same]

theorem blkDread_apart {start' blkcnt' : Nat}
    (apart : start' + blkcnt' ≤ start ∨ start + blkcnt ≤ start') :
    blkDread d start' blkcnt' disk' = blkDread d start' blkcnt' disk := by
  obtain ⟨-, rfl⟩ := blkDwrite_some written
  have scale {a b : Nat} (le : a ≤ b) : a * d.blksz ≤ b * d.blksz := mul_le_mul_right _ le
  have bytesApart : start' * d.blksz + blkcnt' * d.blksz ≤ start * d.blksz ∨
      start * d.blksz + (buffer.take (blkcnt * d.blksz)).length ≤ start' * d.blksz := by
    rcases apart with before | behind
    · left
      rw [← add_mul]
      exact scale before
    right
    have taken : (buffer.take (blkcnt * d.blksz)).length ≤ blkcnt * d.blksz := length_take_le _ _
    have ends := scale behind
    rw [add_mul] at ends
    omega
  rw [blkDread, blkDread, Memory.read_write_of_disjoint bytesApart]

end Blocks

/-! ## Valid tables -/

structure Sealed (h : GptHeader) (ptes : List UInt8) (lba : Nat) : Prop where
  signature : h.signature = GPT_HEADER_SIGNATURE_UBOOT
  headerCrc : h.headerCrc32 = headerCrc d { h with headerCrc32 := 0 }
  entriesCrc : h.partitionEntryArrayCrc32 = entriesCrc c h ptes
  myLba : h.myLba.toNat = lba
  firstUsable : h.firstUsableLba.toNat ≤ d.lba
  lastUsable : h.lastUsableLba.toNat ≤ d.lba
  entriesSize : h.entriesSize ≠ 0

theorem isGptValid_sealed {h : GptHeader} {ptes : List UInt8} {lba : Nat} {disk : Memory}
    (sealed : Sealed d h ptes lba) (inside : lba < d.lba)
    (headerRead : blkDread d lba 1 disk = some (d.padToBlocksize h.bytes))
    (entriesRead : blkDread d (c.lbaint h.partitionEntryLba.toNat) (d.blockCnt h.entriesSize) disk =
      some ptes) :
    isGptValid d lba disk = .valid h ptes := by
  have number : c.lbaint lba = lba := lbaint_of_lt (lt_trans inside d.lba_lt)
  have parsed : GptHeader.ofBytes (d.padToBlocksize h.bytes) = h := GptHeader.ofBytes_bytes h _
  have checksum : c.crc32 (((d.padToBlocksize h.bytes).take 16 ++
      (leBytes 4 0 ++ (d.padToBlocksize h.bytes).drop 20)).take h.headerSize.toNat) =
      h.headerCrc32 := by
    have cleared : (d.padToBlocksize h.bytes).take 16 ++
        (leBytes 4 0 ++ (d.padToBlocksize h.bytes).drop 20) =
        d.padToBlocksize { h with headerCrc32 := 0 }.bytes := by
      rw [padToBlocksize, GptHeader.clearCrc_bytes, padToBlocksize,
        GptHeader.length_bytes, GptHeader.length_bytes]
    rw [cleared, sealed.headerCrc]
    rfl
  have headerValid : validateGptHeader c (d.padToBlocksize h.bytes) lba d.lba = true := by
    unfold validateGptHeader
    simp [parsed, checksum, sealed.signature, sealed.myLba, sealed.firstUsable, sealed.lastUsable]
  have entriesValid : validateGptEntries c h ptes = true := by
    simp [validateGptEntries, sealed.entriesCrc]
  have entriesFound : allocReadGptEntries d h disk = some ptes := by
    rw [allocReadGptEntries, if_neg sealed.entriesSize, entriesRead]
  have notIgnored : ¬h.signature = GPT_HEADER_CHROMEOS_IGNORE := by
    rw [sealed.signature]
    decide
  unfold isGptValid
  rw [show blkDread d 0 1 disk = some _ from if_pos (by omega)]
  simp [number, headerRead, parsed, notIgnored, headerValid, entriesFound, entriesValid]

/-! ## The table that is written -/

def primaryHeader (ptes : List UInt8) : GptHeader :=
  let h := { h with partitionEntryArrayCrc32 := entriesCrc c h ptes }
  { h with headerCrc32 := headerCrc d h }

theorem entriesSize_primary (ptes : List UInt8) :
    (primaryHeader d h ptes).entriesSize = h.entriesSize := rfl

theorem entriesSize_prepareBackup : (prepareBackupGptHeader d h).entriesSize = h.entriesSize := rfl

def LargeEnough : Prop :=
  partitionEntriesOffset d + d.blockCnt (c.entryNumbers * GPT_ENTRY_SIZE) + 33 ≤ d.lba

variable {d} {h : GptHeader} {ptes : List UInt8}

/-- The writes of `write_gpt_table`, when all of them succeed. -/
theorem writeGptTable_success (written : writeGptTable d h ptes disk = (0, disk')) :
    ∃ disk₀ disk₁ disk₂ disk₃, setProtectiveMbr d disk = some disk₀ ∧
      blkDwrite d 1 1 (d.padToBlocksize (primaryHeader d h ptes).bytes) disk₀ = some disk₁ ∧
      blkDwrite d (c.lbaint h.partitionEntryLba.toNat)
        (d.blockCnt (h.numPartitionEntries.toNat * GPT_ENTRY_SIZE)) ptes disk₁ = some disk₂ ∧
      blkDwrite d (c.lbaint (c.lbaint h.lastUsableLba.toNat + 1))
        (d.blockCnt (h.numPartitionEntries.toNat * GPT_ENTRY_SIZE)) ptes disk₂ = some disk₃ ∧
      blkDwrite d (c.lbaint h.alternateLba.toNat) 1
        (d.padToBlocksize (prepareBackupGptHeader d (primaryHeader d h ptes)).bytes) disk₃ =
        some disk' := by
  have failure {m : Memory} : ¬(-eio, m) = (0, disk') := by simp [eio]
  unfold writeGptTable at written
  dsimp only at written
  split at written
  case h_1 => exact absurd written failure
  case h_2 disk₀ mbr =>
    split at written
    case h_1 => exact absurd written failure
    case h_2 disk₁ header =>
      split at written
      case h_1 => exact absurd written failure
      case h_2 disk₂ entries =>
        split at written
        case h_1 => exact absurd written failure
        case h_2 disk₃ backupEntries =>
          split at written
          case h_1 => exact absurd written failure
          case h_2 disk₄ backupHeader =>
            cases written
            exact ⟨disk₀, disk₁, disk₂, disk₃, mbr, header, entries, backupEntries, backupHeader⟩

section New

variable (new : NewHeader d h) (large : LargeEnough d)

include new large

theorem writeGptTable_fst : (writeGptTable d h ptes disk).1 = 0 := by
  have offsetBound := partitionEntriesOffset_ge d
  have cntBound := blockCnt_entries_le d
  have lbaBound := d.lba_lt
  unfold LargeEnough at large
  have written {start blkcnt : Nat} {buffer : List UInt8} {disk : Memory}
      (inside : start + blkcnt ≤ d.lba) : blkDwrite d start blkcnt buffer disk =
      some (disk.write (start * d.blksz) (buffer.take (blkcnt * d.blksz))) := if_pos inside
  have mbr : ∃ disk₀, setProtectiveMbr d disk = some disk₀ := by
    rw [setProtectiveMbr, blkDread, if_pos (by omega)]
    exact ⟨_, written (by omega)⟩
  obtain ⟨disk₀, mbr⟩ := mbr
  have entryLba : c.lbaint h.partitionEntryLba.toNat = partitionEntriesOffset d := by
    rw [new.entryLba, lbaint_of_lt (by omega)]
  have backupLba : c.lbaint (c.lbaint h.lastUsableLba.toNat + 1) = d.lba - 33 := by
    rw [new.lastUsable, lbaSub_of_le (by omega) d.lba_lt,
      lbaint_of_lt (n := d.lba - 34) (by omega), lbaint_of_lt (by omega)]
    omega
  have lastLba : c.lbaint h.alternateLba.toNat = d.lba - 1 := by
    rw [new.alternate, lbaSub_of_le (by omega) d.lba_lt, lbaint_of_lt (by omega)]
  rw [writeGptTable, mbr]
  simp only [prepareBackupGptHeader, new.count, entryLba, backupLba, lastLba]
  rw [written (by omega)]
  dsimp only
  rw [written (by omega)]
  dsimp only
  rw [written (by omega)]
  dsimp only
  rw [written (by omega)]

theorem primaryHeader_sealed (ptes : List UInt8) : Sealed d (primaryHeader d h ptes) ptes 1 := by
  have cleared : { primaryHeader d h ptes with headerCrc32 := 0 } =
      { h with partitionEntryArrayCrc32 := entriesCrc c h ptes } := by
    have crc := new.headerCrc
    cases h
    cases crc
    rfl
  unfold LargeEnough at large
  have offsetBound := partitionEntriesOffset_ge d
  have lastUsable : c.lbaSub d.lba 34 = d.lba - 34 := lbaSub_of_le (by omega) d.lba_lt
  constructor
  · exact new.signature
  · rw [cleared]
    rfl
  · rw [entriesCrc, entriesSize_primary]
    rfl
  · exact congrArg UInt64.toNat new.myLba
  · have first := new.firstUsable
    change h.firstUsableLba.toNat ≤ d.lba
    have positive : 0 < d.blockCnt (c.entryNumbers * GPT_ENTRY_SIZE) := succ_pos _
    omega
  · have last := new.lastUsable
    change h.lastUsableLba.toNat ≤ d.lba
    omega
  rw [entriesSize_primary]
  have positive := mul_pos c.entryNumbers_pos (show 0 < GPT_ENTRY_SIZE by decide)
  have size := new.entriesSize
  omega

theorem backupHeader_sealed (ptes : List UInt8) :
    Sealed d (prepareBackupGptHeader d (primaryHeader d h ptes)) ptes (d.lba - 1) := by
  have primary := primaryHeader_sealed new large ptes
  unfold LargeEnough at large
  constructor
  · exact primary.signature
  · rfl
  · rw [entriesCrc, entriesSize_prepareBackup]
    exact primary.entriesCrc
  · have alternate := new.alternate
    have swapped : (prepareBackupGptHeader d (primaryHeader d h ptes)).myLba = h.alternateLba := rfl
    rw [swapped, alternate, lbaSub_of_le (by omega) d.lba_lt]
  · exact primary.firstUsable
  · exact primary.lastUsable
  · rw [entriesSize_prepareBackup]
    exact primary.entriesSize

theorem writeGptTable_valid
    (whole : ptes.length = d.blockCnt (c.entryNumbers * GPT_ENTRY_SIZE) * d.blksz)
    (written : writeGptTable d h ptes disk = (0, disk')) :
    isGptValid d 1 disk' = .valid (primaryHeader d h ptes) ptes ∧
    isGptValid d (d.lba - 1) disk' =
      .valid (prepareBackupGptHeader d (primaryHeader d h ptes)) ptes := by
  obtain ⟨disk₀, disk₁, disk₂, disk₃, -, header, entries, backupEntries, backupHeader⟩ :=
    writeGptTable_success written
  have primarySealed := primaryHeader_sealed new large ptes
  have backupSealed := backupHeader_sealed new large ptes
  have offsetBound := partitionEntriesOffset_ge d
  have cntBound := blockCnt_entries_le d
  have lbaBound := d.lba_lt
  have last := new.lastUsable
  have alternate := new.alternate
  unfold LargeEnough at large
  rw [lbaSub_of_le (by omega) d.lba_lt] at last alternate
  rw [new.entryLba, lbaint_of_lt (by omega), new.count] at entries
  rw [last, lbaint_of_lt (n := d.lba - 34) (by omega), lbaint_of_lt (by omega),
    new.count] at backupEntries
  rw [alternate, lbaint_of_lt (by omega)] at backupHeader
  constructor
  · apply isGptValid_sealed d primarySealed (by omega)
    · rw [blkDread_apart backupHeader (by omega), blkDread_apart backupEntries (by omega),
        blkDread_apart entries (by omega)]
      exact blkDread_written header (length_headerBlock d _)
    have place : c.lbaint (primaryHeader d h ptes).partitionEntryLba.toNat =
        partitionEntriesOffset d := by
      change c.lbaint h.partitionEntryLba.toNat = _
      rw [new.entryLba, lbaint_of_lt (by omega)]
    rw [place, entriesSize_primary, new.entriesSize, blkDread_apart backupHeader (by omega),
      blkDread_apart backupEntries (by omega)]
    exact blkDread_written entries whole
  apply isGptValid_sealed d backupSealed (by omega)
  · exact blkDread_written backupHeader (length_headerBlock d _)
  have place : c.lbaint (prepareBackupGptHeader d
      (primaryHeader d h ptes)).partitionEntryLba.toNat = d.lba - 34 + 1 := by
    change c.lbaint (h.lastUsableLba + 1).toNat = _
    have width := c.two_pow_lbaBits_le
    have one : (1 : UInt64).toNat = 1 := rfl
    rw [UInt64.toNat_add, last, one, mod_eq_of_lt (by omega), lbaint_of_lt (by omega)]
  rw [place, entriesSize_prepareBackup, entriesSize_primary, new.entriesSize,
    blkDread_apart backupHeader (by omega)]
  exact blkDread_written backupEntries whole

end New

/-! ## Names and sizes -/

theorem strncmpEq_efiName (name rest : List UInt8) {n : Nat} (enough : name.length ≤ n) :
    strncmpEq name.length (gptConvertEfiNameToChar n (efiName name ++ rest)) name = true := by
  induction name generalizing n with
  | nil => rfl
  | cons char name ih =>
    cases n with
    | zero => simp at enough
    | succ n =>
      have tail := @ih n (by simpa using enough)
      have bytes : efiName (char :: name) ++ rest = char :: 0 :: (efiName name ++ rest) := rfl
      rw [bytes, gptConvertEfiNameToChar, length_cons]
      by_cases zero : char = 0
      · rw [if_pos zero, replicate_succ, strncmpEq, zero]
        simp
      · rw [if_neg zero, drop_one, tail_cons, strncmpEq, tail]
        simp

theorem lbaSub_lbaint_one {sum : Nat} (bound : sum < 2 * 2 ^ c.lbaBits) :
    c.lbaSub (c.lbaint sum) 1 =
      if sum = 0 then 2 ^ c.lbaBits - 1
      else if sum ≤ 2 ^ c.lbaBits then sum - 1 else sum - 2 ^ c.lbaBits - 1 := by
  have positive := Nat.two_pow_pos c.lbaBits
  rcases lt_trichotomy sum (2 ^ c.lbaBits) with less | equal | greater
  · rw [lbaint_of_lt less]
    split
    case isTrue zero =>
      rw [zero, lbaSub, lbaint_of_lt (by omega), zero_add]
    case isFalse nonzero => rw [if_pos less.le, lbaSub_of_le (by omega) less]
  · rw [lbaint_of_ge equal.ge (by omega), if_neg (by omega), if_pos equal.le, equal,
      Nat.sub_self, lbaSub, lbaint_of_lt (by omega), Nat.zero_add]
  · rw [lbaint_of_ge greater.le (by omega), if_neg (by omega), if_neg (by omega),
      lbaSub_of_le (by omega) (by omega)]

theorem two_pow_lbaBits_eq_iff (c : GptConfig) : 2 ^ c.lbaBits = 2 ^ 64 ↔ c.lbaBits = 64 :=
  Nat.pow_right_inj (le_refl 2)

variable {e : GptEntry}

section Entry

variable {offset : Nat} {p : DiskPartition c} {last : Prop}

variable (filled : Filled d h offset p last e) (offsetBound : offset < 2 ^ c.lbaBits)

include filled offsetBound

/-- The size that is verified is the one asked for if the sum is positive and at most one past
the largest block number, or if block numbers have the width of the table's. -/
theorem Filled.size_verified_iff (sized : ¬(last ∧ p.size = 0)) :
    (e.endingLba - e.startingLba + 1).toNat = p.size ↔ c.lbaBits = 64 ∨
        (0 < askedStart offset p + p.size ∧ askedStart offset p + p.size ≤ 2 ^ c.lbaBits) := by
  have startBound := askedStart_lt (p := p) offsetBound
  have sizeBound := p.size_lt
  have width := c.two_pow_lbaBits_le
  have one : (1 : UInt64).toNat = 1 := rfl
  have wide := two_pow_lbaBits_eq_iff c
  rw [UInt64.toNat_add, UInt64.toNat_sub, filled.starting, filled.ending sized,
    toNat_ofNat startBound, toNat_ofNat (c.lbaSub_lt _ _),
    lbaSub_lbaint_one (by omega), one, ← wide]
  generalize askedStart offset p = start at startBound ⊢
  generalize p.size = size at sizeBound ⊢
  generalize 2 ^ c.lbaBits = modulus at startBound sizeBound width ⊢
  split
  · omega
  · split
    · omega
    · omega

theorem Filled.start_reported : c.lbaint e.startingLba.toNat = askedStart offset p := by
  have startBound := askedStart_lt (p := p) offsetBound
  rw [filled.starting, toNat_ofNat startBound, lbaint_of_lt startBound]

/-- The size that is reported is the one asked for, whether the sum wraps around or not. -/
theorem Filled.size_reported (sized : ¬(last ∧ p.size = 0)) :
    c.lbaSub (c.lbaint e.endingLba.toNat + 1) (askedStart offset p) = p.size := by
  have startBound := askedStart_lt (p := p) offsetBound
  have sizeBound := p.size_lt
  rw [filled.ending sized, toNat_ofNat (c.lbaSub_lt _ _),
    lbaint_of_lt (c.lbaSub_lt _ _), lbaSub_lbaint_one (by omega), lbaSub]
  split
  case isTrue zero =>
    rw [lbaint, Nat.sub_add_cancel (Nat.two_pow_pos _),
      show askedStart offset p = 0 by omega, Nat.sub_zero, add_mod_right, mod_self]
    omega
  case isFalse nonzero =>
    split
    case isTrue within =>
      have total : askedStart offset p + p.size - 1 + 1 + (2 ^ c.lbaBits - askedStart offset p) =
          p.size + 2 ^ c.lbaBits := by omega
      rw [total, lbaint, add_mod_right, mod_eq_of_lt sizeBound]
    case isFalse beyond =>
      have total : askedStart offset p + p.size - 2 ^ c.lbaBits - 1 + 1 +
          (2 ^ c.lbaBits - askedStart offset p) = p.size := by omega
      rw [total, lbaint_of_lt sizeBound]

theorem Filled.size_reported_extended (extended : last ∧ p.size = 0)
    (lastBound : h.lastUsableLba.toNat + 1 < 2 ^ c.lbaBits) :
    c.lbaSub (c.lbaint e.endingLba.toNat + 1) (askedStart offset p) =
      h.lastUsableLba.toNat + 1 - askedStart offset p ∧
      askedStart offset p ≤ h.lastUsableLba.toNat + 1 := by
  have laid := filled.laid_extended offsetBound extended
  have order := laid.order
  rw [filled.extended extended.1 extended.2, lbaint_of_lt (by omega), lbaSub_of_le order lastBound]
  exact ⟨rfl, order⟩

end Entry

/-! ## Whole lists of partitions -/

/-- The starts of a list of partitions, each where it says or at the end of the one before. -/
def askedStarts : (offset : Nat) → List (DiskPartition c) → List Nat
  | _, [] => []
  | offset, p :: rest =>
    askedStart offset p :: askedStarts (c.lbaint (askedStart offset p + p.size)) rest

theorem length_askedStarts (ps : List (DiskPartition c)) (offset : Nat) :
    (askedStarts offset ps).length = ps.length := by
  induction ps generalizing offset with
  | nil => rfl
  | cons p ps ih => rw [askedStarts, length_cons, length_cons, ih]

/-- The sums of starts and sizes fit into a block number, one past the largest included, except
for a last partition that is extended; where block numbers are as wide as those of the table,
any sum will do. -/
def SizesKept : (offset : Nat) → List (DiskPartition c) → Prop
  | _, [] => True
  | offset, p :: rest =>
    ((rest = [] ∧ p.size = 0) ∨ c.lbaBits = 64 ∨
      (0 < askedStart offset p + p.size ∧ askedStart offset p + p.size ≤ 2 ^ c.lbaBits)) ∧
    SizesKept (c.lbaint (askedStart offset p + p.size)) rest

section Stored

variable {i : Nat} {rest : List UInt8} (stored : ptes.drop (i * GPT_ENTRY_SIZE) = e.bytes ++ rest)

include stored

theorem gptEntryAt_of_drop : gptEntryAt ptes i = e := by rw [gptEntryAt, stored, ofBytes_bytes]

theorem Filled.name_verified {offset : Nat} {p : DiskPartition c} {last : Prop}
    (filled : Filled d h offset p last e) :
    strncmpEq 32 (gptConvertEfiNameToChar 37 (ptes.drop (i * GPT_ENTRY_SIZE + 56))) p.name.1 =
      true := by
  have name : ptes.drop (i * GPT_ENTRY_SIZE + 56) =
      efiName p.name.1 ++ (replicate 8 0 ++ rest) := by
    rw [← drop_drop, stored, drop_bytes, filled.name, fillName, append_assoc]
  have equal := strncmpEq_efiName p.name.1 (replicate 8 0 ++ rest) (n := 37)
  rw [p.name.2] at equal
  rw [name]
  exact equal (by decide)

end Stored

theorem gptVerifyLoop_iff {head : GptHeader} {ps : List (DiskPartition c)} {offset i : Nat}
    {es : List GptEntry} {rest : List UInt8} (offsetBound : offset < 2 ^ c.lbaBits)
    (filled : gptFillLoop d h offset ps = .ok es)
    (stored : ptes.drop (i * GPT_ENTRY_SIZE) = es.flatMap bytes ++ rest)
    (few : i + ps.length ≤ head.numPartitionEntries.toNat) :
    gptVerifyLoop head ptes i ps = 0 ↔ SizesKept offset ps := by
  induction ps generalizing offset i es with
  | nil => simp [gptVerifyLoop, SizesKept]
  | cons p ps ih =>
    obtain ⟨e, tail, rfl, head', tailFilled⟩ := gptFillLoop_cons d filled
    rw [flatMap_cons, append_assoc] at stored
    rw [length_cons] at few
    have tailStored : ptes.drop ((i + 1) * GPT_ENTRY_SIZE) = tail.flatMap bytes ++ rest := by
      rw [succ_mul, ← drop_drop, stored]
      exact drop_left' e.length_bytes
    have tailIff := ih (c.lbaint_lt _) tailFilled tailStored (by omega)
    have startKept : p.start ≠ 0 → e.startingLba.toNat = p.start := by
      intro given
      rw [head'.starting, toNat_ofNat (askedStart_lt offsetBound), askedStart, if_neg given]
    have startPasses : (if p.start = 0 then gptVerifyLoop head ptes (i + 1) ps
        else if e.startingLba.toNat ≠ p.start then -1
        else gptVerifyLoop head ptes (i + 1) ps) = gptVerifyLoop head ptes (i + 1) ps := by
      split
      case isTrue => rfl
      case isFalse given => rw [if_neg (not_not.2 (startKept given))]
    rw [gptVerifyLoop, gptEntryAt_of_drop stored, if_neg (by omega),
      if_neg (by rw [head'.name_verified stored]; simp), SizesKept, startPasses]
    by_cases extended : ps = [] ∧ p.size = 0
    · obtain ⟨rfl, empty⟩ := extended
      simp [empty, gptVerifyLoop, SizesKept]
    rw [if_neg extended, or_iff_right extended, ← head'.size_verified_iff offsetBound extended]
    split
    case isTrue differs =>
      constructor
      · intro impossible
        cases impossible
      · intro kept
        exact absurd kept.1 differs
    case isFalse kept => rw [tailIff, and_iff_right (not_not.1 kept)]

theorem gptFillLoop_getElem {ps : List (DiskPartition c)} {offset : Nat} {es : List GptEntry}
    (offsetBound : offset < 2 ^ c.lbaBits) (filled : gptFillLoop d h offset ps = .ok es)
    {i : Nat} {p : DiskPartition c} (found : ps[i]? = some p) :
    ∃ e before, es[i]? = some e ∧ before < 2 ^ c.lbaBits ∧
      (askedStarts offset ps)[i]? = some (askedStart before p) ∧
      Filled d h before p (ps.drop (i + 1) = []) e := by
  induction ps generalizing offset es i with
  | nil => simp at found
  | cons q ps ih =>
    obtain ⟨e, tail, rfl, head, tailFilled⟩ := gptFillLoop_cons d filled
    cases i with
    | zero =>
      rw [getElem?_cons_zero, Option.some.injEq] at found
      subst found
      exact ⟨e, offset, rfl, offsetBound, rfl, head⟩
    | succ i => exact ih (c.lbaint_lt _) tailFilled found

theorem gptFillLoop_length {ps : List (DiskPartition c)} {offset : Nat} {es : List GptEntry}
    (filled : gptFillLoop d h offset ps = .ok es) : es.length = ps.length := by
  induction ps generalizing offset es with
  | nil =>
    cases filled
    rfl
  | cons p ps ih =>
    obtain ⟨e, tail, rfl, _, tailFilled⟩ := gptFillLoop_cons d filled
    rw [length_cons, length_cons, ih tailFilled]

theorem drop_flatMap_bytes (es : List GptEntry) {i : Nat} (rest : List UInt8)
    (inside : i ≤ es.length) : (es.flatMap bytes ++ rest).drop (i * GPT_ENTRY_SIZE) =
      (es.drop i).flatMap bytes ++ rest := by
  induction i generalizing es with
  | zero => rfl
  | succ i ih =>
    cases es with
    | nil => simp at inside
    | cons e es =>
      rw [flatMap_cons, append_assoc, succ_mul, add_comm, ← drop_drop,
        drop_left' e.length_bytes, ih es (by simpa using inside), drop_succ_cons]

/-! ## The buffer of the entries -/

theorem entriesBuffer_eq (es : List GptEntry) : ∃ rest,
    entriesBuffer d es = es.flatMap bytes ++ rest := by
  rw [entriesBuffer, padToBlocksize, flatMap_append, append_assoc]
  exact ⟨_, rfl⟩

variable {es : List GptEntry}

theorem length_entriesBuffer (few : es.length ≤ c.entryNumbers) :
    (entriesBuffer d es).length = d.blockCnt (c.entryNumbers * GPT_ENTRY_SIZE) * d.blksz := by
  rw [entriesBuffer, length_padToBlocksize, length_flatMap_bytes, length_append,
    length_replicate, Nat.add_sub_cancel' few]

theorem gptEntryAt_entriesBuffer {i : Nat} {e : GptEntry}
    (found : es[i]? = some e) : gptEntryAt (entriesBuffer d es) i = e := by
  obtain ⟨rest, buffer⟩ := entriesBuffer_eq (d := d) es
  obtain ⟨inside, element⟩ := List.getElem?_eq_some_iff.1 found
  have stored : (entriesBuffer d es).drop (i * GPT_ENTRY_SIZE) =
      e.bytes ++ ((es.drop (i + 1)).flatMap bytes ++ rest) := by
    rw [buffer, drop_flatMap_bytes es rest inside.le, drop_eq_getElem_cons inside, element,
      flatMap_cons, append_assoc]
  exact gptEntryAt_of_drop stored

/-! ## A table that was restored -/

structure RestoredAsAsked (d : DiskDesc c) (ps : List (DiskPartition c)) (disk : Memory) :
    Prop where
  verified : gptVerifyPartitions d ps disk = 0
  primary : (isGptValid d GPT_PRIMARY_PARTITION_TABLE_LBA disk).code = 1
  backup : (isGptValid d (d.lba - 1) disk).code = 1
  reported : ∀ (i : Nat) (p : DiskPartition c), ps[i]? = some p →
    fillTypeGuid p ≠ some zeroGuid → ∃ info, partGetInfoEfi d (i + 1) disk = .ok info ∧
      (askedStarts (partitionEntriesOffset d + 32) ps)[i]? = some info.start ∧ info.size = p.size

/-- A request whose sums do not wrap around more than the table can hold, and which does not ask
for an extended partition, unless that is not in use or has nothing to extend to. -/
structure Restorable (d : DiskDesc c) (ps : List (DiskPartition c)) : Prop where
  sums : SizesKept (partitionEntriesOffset d + 32) ps
  last : ∀ (p : DiskPartition c) (start : Nat), ps.getLast? = some p →
    (askedStarts (partitionEntriesOffset d + 32) ps).getLast? = some start → p.size = 0 →
    fillTypeGuid p ≠ some zeroGuid → start = d.lba - 33

theorem gptFillLoop_error {ps : List (DiskPartition c)} {offset : Nat} {error : Int}
    (failed : gptFillLoop d h offset ps = .error error) : error ≠ 0 := by
  induction ps generalizing offset with
  | nil => cases failed
  | cons p ps ih =>
    rw [gptFillLoop] at failed
    dsimp only at failed
    split at failed
    case isTrue =>
      cases failed
      decide
    case isFalse =>
      split at failed
      case isTrue =>
        cases failed
        decide
      case isFalse =>
        split at failed
        case h_1 =>
          cases failed
          decide
        case h_2 =>
          split at failed
          case h_1 =>
            cases failed
            decide
          case h_2 =>
            split at failed
            case h_1 tailError tailFailed =>
              cases failed
              exact ih tailFailed
            case h_2 => cases failed

variable {strDiskGuid : List UInt8} {ps : List (DiskPartition c)}

theorem gptRestore_success (restored : gptRestore d strDiskGuid ps disk = (0, disk')) :
    ∃ h es, gptFillHeader d strDiskGuid = some h ∧ gptFillPte d h ps = .ok es ∧
      writeGptTable d h (entriesBuffer d es) disk = (0, disk') := by
  unfold gptRestore at restored
  split at restored
  case h_1 => simp at restored
  case h_2 h made =>
    split at restored
    case h_1 error failed =>
      cases restored
      exact absurd rfl (gptFillLoop_error failed)
    case h_2 es filled => exact ⟨h, es, made, filled, restored⟩

theorem partGetInfoEfi_ok {head : GptHeader} {i : Nat} {e : GptEntry}
    (valid : isGptValid d GPT_PRIMARY_PARTITION_TABLE_LBA disk = .valid head ptes)
    (inside : i < head.numPartitionEntries.toNat) (entry : gptEntryAt ptes i = e)
    (used : e.partitionTypeGuid ≠ zeroGuid) :
    ∃ info, partGetInfoEfi d (i + 1) disk = .ok info ∧ info.start = c.lbaint e.startingLba.toNat ∧
      info.size = c.lbaSub (c.lbaint e.endingLba.toNat + 1) (c.lbaint e.startingLba.toNat) := by
  have found : findValidGpt d disk = some (head, ptes) := by rw [findValidGpt, valid]
  have index : ((i : Int) + 1 - 1).toNat = i := by omega
  have pteValid : isPteValid e = true := decide_eq_true used
  rw [partGetInfoEfi, if_neg (by omega), found]
  dsimp only
  rw [index, entry, if_neg (by
    rw [pteValid]
    simp only [Bool.true_eq_false, or_false]
    omega)]
  exact ⟨_, rfl, rfl, rfl⟩

structure Written (d : DiskDesc c) (h : GptHeader) (ps : List (DiskPartition c))
    (es : List GptEntry) (disk : Memory) : Prop where
  new : NewHeader d h
  large : LargeEnough d
  few : ps.length ≤ c.entryNumbers
  filled : gptFillLoop d h (partitionEntriesOffset d + 32) ps = .ok es
  primary : isGptValid d 1 disk =
    .valid (primaryHeader d h (entriesBuffer d es)) (entriesBuffer d es)
  backup : isGptValid d (d.lba - 1) disk =
    .valid (prepareBackupGptHeader d (primaryHeader d h (entriesBuffer d es))) (entriesBuffer d es)

theorem firstUsable_lt (d : DiskDesc c) : partitionEntriesOffset d + 32 < 2 ^ c.lbaBits := by
  have offsetBound := partitionEntriesOffset_lt d
  have width := c.le_two_pow_lbaBits
  omega

theorem gptRestore_written (few : ps.length ≤ c.entryNumbers) (large : LargeEnough d)
    (restored : gptRestore d strDiskGuid ps disk = (0, disk')) :
    ∃ h es, Written d h ps es disk' := by
  obtain ⟨h, es, made, filled, written⟩ := gptRestore_success restored
  have new := gptFillHeader_new d made
  rw [gptFillPte, new.firstUsable, lbaint_of_lt (firstUsable_lt d)] at filled
  have length := gptFillLoop_length filled
  obtain ⟨primary, backup⟩ :=
    writeGptTable_valid new large (length_entriesBuffer (by omega)) written
  exact ⟨h, es, new, large, few, filled, primary, backup⟩

theorem Written.lastUsable (written : Written d h ps es disk) :
    h.lastUsableLba.toNat = d.lba - 34 ∧ 34 ≤ d.lba := by
  have large := written.large
  have offsetBound := partitionEntriesOffset_ge d
  unfold LargeEnough at large
  rw [written.new.lastUsable, lbaSub_of_le (by omega) d.lba_lt]
  exact ⟨rfl, by omega⟩

theorem Written.verified_iff (written : Written d h ps es disk) :
    gptVerifyPartitions d ps disk = 0 ↔ SizesKept (partitionEntriesOffset d + 32) ps := by
  have lba := written.lastUsable.2
  have last : c.lbaSub d.lba 1 = d.lba - 1 := lbaSub_of_le (by omega) d.lba_lt
  have alternate : (primaryHeader d h (entriesBuffer d es)).alternateLba.toNat =
      c.lbaSub d.lba 1 := written.new.alternate
  have headers : gptVerifyHeaders d disk =
      some (prepareBackupGptHeader d (primaryHeader d h (entriesBuffer d es)),
        entriesBuffer d es) := by
    rw [gptVerifyHeaders, GPT_PRIMARY_PARTITION_TABLE_LBA, written.primary]
    dsimp only
    rw [alternate, if_neg (not_not.2 rfl), last, written.backup]
  have count : (prepareBackupGptHeader d
      (primaryHeader d h (entriesBuffer d es))).numPartitionEntries = h.numPartitionEntries := rfl
  obtain ⟨rest, buffer⟩ := entriesBuffer_eq (d := d) es
  rw [gptVerifyPartitions, headers]
  apply gptVerifyLoop_iff (firstUsable_lt d) written.filled
  · rw [zero_mul, drop_zero, buffer]
  · rw [count, written.new.count, zero_add]
    exact written.few

theorem Written.reported (written : Written d h ps es disk) {i : Nat} {p : DiskPartition c}
    (found : ps[i]? = some p) (used : fillTypeGuid p ≠ some zeroGuid) :
    ∃ info e before, partGetInfoEfi d (i + 1) disk = .ok info ∧ before < 2 ^ c.lbaBits ∧
      (askedStarts (partitionEntriesOffset d + 32) ps)[i]? = some info.start ∧
      info.start = askedStart before p ∧
      info.size = c.lbaSub (c.lbaint e.endingLba.toNat + 1) (askedStart before p) ∧
      Filled d h before p (ps.drop (i + 1) = []) e := by
  obtain ⟨e, before, entry, beforeBound, start, filled⟩ :=
    gptFillLoop_getElem (firstUsable_lt d) written.filled found
  have count : (primaryHeader d h (entriesBuffer d es)).numPartitionEntries =
      h.numPartitionEntries := rfl
  have inside := (List.getElem?_eq_some_iff.1 found).1
  have few := written.few
  have usedEntry : e.partitionTypeGuid ≠ zeroGuid := by
    intro unused
    exact used (unused ▸ filled.typeGuid)
  obtain ⟨info, answer, infoStart, infoSize⟩ := partGetInfoEfi_ok written.primary
    (by rw [count, written.new.count]; omega) (gptEntryAt_entriesBuffer entry) usedEntry
  rw [filled.start_reported beforeBound] at infoStart infoSize
  exact ⟨info, e, before, answer, beforeBound, infoStart ▸ start, infoStart, infoSize, filled⟩

/-- After a table was restored the partitions are found as they were asked for just when the
request was restorable. -/
theorem gptRestore_asAsked_iff {strDiskGuid : List UInt8} {ps : List (DiskPartition c)}
    (few : ps.length ≤ c.entryNumbers) (large : LargeEnough d)
    (restored : gptRestore d strDiskGuid ps disk = (0, disk')) :
    RestoredAsAsked d ps disk' ↔ Restorable d ps := by
  obtain ⟨h, es, written⟩ := gptRestore_written few large restored
  have lastUsable := written.lastUsable
  have lbaBound := d.lba_lt
  constructor
  · intro asAsked
    refine ⟨written.verified_iff.1 asAsked.verified, ?_⟩
    intro p start lastPart lastStart empty used
    rw [getLast?_eq_getElem?] at lastPart lastStart
    rw [length_askedStarts] at lastStart
    obtain ⟨info, e, before, answer, beforeBound, infoAt, infoStart, infoSize, filled⟩ :=
      written.reported lastPart used
    obtain ⟨info', answer', infoAt', kept⟩ := asAsked.reported _ p lastPart used
    rw [answer, Except.ok.injEq] at answer'
    subst answer'
    rw [infoAt, Option.some.injEq] at lastStart
    have extended := filled.size_reported_extended beforeBound
      ⟨drop_eq_nil_of_le (by omega), empty⟩ (by omega)
    omega
  intro restorable
  refine ⟨written.verified_iff.2 restorable.sums, ?_, ?_, ?_⟩
  · rw [GPT_PRIMARY_PARTITION_TABLE_LBA, written.primary]
    rfl
  · rw [written.backup]
    rfl
  intro i p found used
  obtain ⟨info, e, before, answer, beforeBound, start, infoStart, infoSize, filled⟩ :=
    written.reported found used
  refine ⟨info, answer, start, ?_⟩
  by_cases extended : ps.drop (i + 1) = [] ∧ p.size = 0
  · have inside := (List.getElem?_eq_some_iff.1 found).1
    have behind := drop_eq_nil_iff.1 extended.1
    have lastIndex : i = ps.length - 1 := by omega
    have lastStart := restorable.last p info.start
      (by rw [getLast?_eq_getElem?, ← lastIndex, found])
      (by rw [getLast?_eq_getElem?, length_askedStarts, ← lastIndex, start])
      extended.2 used
    rw [infoSize, (filled.size_reported_extended beforeBound extended (by omega)).1, extended.2]
    omega
  · rw [infoSize, filled.size_reported beforeBound extended]

theorem gptRestore_fst (large : LargeEnough d) (made : gptFillHeader d strDiskGuid = some h)
    (filled : gptFillPte d h ps = .ok es) :
    gptRestore d strDiskGuid ps disk = (0, (gptRestore d strDiskGuid ps disk).2) := by
  apply Prod.ext
  · rw [gptRestore, made]
    dsimp only
    rw [filled]
    exact writeGptTable_fst (gptFillHeader_new d made) large
  · rfl

theorem gptRestore_asAsked_iff_sample : RestoredAsAsked sampleDisk [samplePartition 0 100]
      (gptRestore sampleDisk [] [samplePartition 0 100] (fun _ => 0)).2 := by
  have large : LargeEnough sampleDisk := by
    unfold LargeEnough
    decide
  have made : gptFillHeader sampleDisk [] = some sampleHeader := rfl
  have filled : gptFillPte sampleDisk sampleHeader [samplePartition 0 100] =
      .ok [sampleEntry 34 133] := rfl
  have restorable : Restorable sampleDisk [samplePartition 0 100] := by
    refine ⟨⟨.inr (.inl rfl), trivial⟩, ?_⟩
    intro p start lastPart _ empty _
    cases lastPart
    cases empty
  exact (gptRestore_asAsked_iff (by decide) large (gptRestore_fst large made filled)).2 restorable

def narrowGptConfig : GptConfig :=
  { sampleGptConfig with
    lbaBits := 32
    lbaBits_eq := .inl rfl }

def narrowDisk : DiskDesc narrowGptConfig where
  lba := 2 ^ 20
  blksz := 512
  lba_lt := by decide
  blksz_ge := sampleDisk.blksz_ge

def widePartition : DiskPartition narrowGptConfig where
  start := 100
  size := 2 ^ 32 - 50
  name := (samplePartition 0 0).name
  bootable := false
  uuid := []
  typeGuid := []
  start_lt := by decide
  size_lt := by decide

/-- The table is written, but not accepted by the verifier. -/
theorem gptRestore_not_verified : (gptRestore narrowDisk [] [widePartition] (fun _ => 0)).1 = 0 ∧
      gptVerifyPartitions narrowDisk [widePartition]
        (gptRestore narrowDisk [] [widePartition] (fun _ => 0)).2 ≠ 0 := by
  have large : LargeEnough narrowDisk := by
    unfold LargeEnough
    decide
  have made : gptFillHeader narrowDisk [] = some sampleHeader := rfl
  have filled : gptFillPte narrowDisk sampleHeader [widePartition] = .ok [sampleEntry 100 49] := rfl
  have restored : gptRestore narrowDisk [] [widePartition] (fun _ => 0) = (0, _) :=
    gptRestore_fst large made filled
  obtain ⟨h, es, written⟩ := gptRestore_written (by decide) large restored
  refine ⟨congrArg Prod.fst restored, ?_⟩
  intro verified
  have kept := written.verified_iff.1 verified
  rcases kept.1 with extended | wide | fits
  · exact absurd extended.2 (by decide)
  · cases wide
  · exact absurd fits.2 (by decide)

end UBoot
