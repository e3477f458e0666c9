import UBoot.GptLayout

/-!
# The entry behind a partition number

`part_get_info_efi` takes the entries it has read for an array of `gpt_entry`,
whatever size the header gives an entry, and asks only that the number of the
partition is not above the number of entries.
-/

namespace UBoot

variable {c : GptConfig} {d : DiskDesc c} {head : GptHeader} {ptes : List UInt8}
  {part : Int} {disk : Memory}

/-- The entry that `part_get_info_efi` uses, and where in the buffer it begins.  Behind the
buffer it finds what the heap holds. -/
def partEntryEfi (d : DiskDesc c) (heap : List UInt8) (part : Int) (disk : Memory) :
    Except Int (Nat × GptEntry) :=
  if part < 1 then .error (-EINVAL)
  else
    match findValidGpt d disk with
    | none => .error (-EINVAL)
    | some (head, ptes) =>
      let start := (part - 1).toNat * GPT_ENTRY_SIZE
      let e := GptEntry.ofBytes (((ptes ++ heap).drop start).take GPT_ENTRY_SIZE)
      if head.numPartitionEntries.toNat < part ∨ isPteValid e = false then .error (-EPERM)
      else .ok (start, e)

/-- The entry at this place of the buffer is the one the header speaks of, and all of it was
read from the disk. -/
structure EntryOfTable (d : DiskDesc c) (head : GptHeader) (ptes : List UInt8) (part : Int)
    (start : Nat) (e : GptEntry) (disk : Memory) : Prop where
  place : start = (part - 1).toNat * head.sizeofPartitionEntry.toNat
  inside : start + GPT_ENTRY_SIZE ≤ ptes.length
  entry : e = GptEntry.ofBytes (disk.read (c.lbaint head.partitionEntryLba.toNat * d.blksz +
    (part - 1).toNat * head.sizeofPartitionEntry.toNat) GPT_ENTRY_SIZE)

theorem allocRead_of_isGptValid {lba : Nat} (valid : isGptValid d lba disk = .valid head ptes) :
    allocReadGptEntries d head disk = some ptes := by
  unfold isGptValid at valid
  grind

theorem read_of_findValidGpt (found : findValidGpt d disk = some (head, ptes)) :
    ptes = disk.read (c.lbaint head.partitionEntryLba.toNat * d.blksz)
      (d.blockCnt head.entriesSize * d.blksz) := by
  obtain ⟨lba, valid⟩ : ∃ lba, isGptValid d lba disk = .valid head ptes := by
    unfold findValidGpt at found
    grind
  have alloc := allocRead_of_isGptValid valid
  unfold allocReadGptEntries blkDread at alloc
  grind

theorem partEntryEfi_ok {heap : List UInt8} {start : Nat} {e : GptEntry}
    (found : findValidGpt d disk = some (head, ptes))
    (success : partEntryEfi d heap part disk = .ok (start, e)) :
    1 ≤ part ∧ start = (part - 1).toNat * GPT_ENTRY_SIZE ∧
      e = GptEntry.ofBytes (((ptes ++ heap).drop start).take GPT_ENTRY_SIZE) := by
  unfold partEntryEfi at success
  rw [found] at success
  split_ifs at success with small
  dsimp only at success
  split_ifs at success
  cases success
  exact ⟨by omega, rfl, rfl⟩

/-- A lookup that succeeds has used the right entry exactly if it was the first, or entries have
the size of the structure and the number of bytes they take did not wrap around below it. -/
theorem partEntryEfi_entryOfTable_iff (d : DiskDesc c) (heap : List UInt8) (part : Int)
    (disk : Memory) (head : GptHeader) (ptes : List UInt8) (start : Nat) (e : GptEntry)
    (found : findValidGpt d disk = some (head, ptes))
    (success : partEntryEfi d heap part disk = .ok (start, e)) :
    EntryOfTable d head ptes part start e disk ↔ part = 1 ∨ head.sizeofPartitionEntry = 128 ∧
        part.toNat * 128 ≤ d.blockCnt head.entriesSize * d.blksz := by
  obtain ⟨positive, isStart, isEntry⟩ := partEntryEfi_ok found success
  have isRead := read_of_findValidGpt found
  have length : ptes.length = d.blockCnt head.entriesSize * d.blksz := by
    rw [isRead, Memory.length_read]
  have oneBlock : d.blksz ≤ ptes.length := by
    rw [length]
    exact Nat.le_mul_of_pos_left _ (Nat.succ_pos _)
  have blksz := d.blksz_ge
  have stop : start + GPT_ENTRY_SIZE = part.toNat * 128 := by
    unfold GPT_ENTRY_SIZE at *
    omega
  have entry (inside : start + GPT_ENTRY_SIZE ≤ ptes.length) : e = GptEntry.ofBytes
      (disk.read (c.lbaint head.partitionEntryLba.toNat * d.blksz + start) GPT_ENTRY_SIZE) := by
    rw [isEntry, List.drop_append_of_le_length (by omega),
      List.take_append_of_le_length (by rw [List.length_drop]; omega), isRead,
      Memory.take_drop_read _ (by rwa [← length])]
  rw [← length, ← stop]
  constructor
  · rintro ⟨place, inside, -⟩
    refine or_iff_not_imp_left.2 fun later => ⟨?_, inside⟩
    rw [isStart] at place
    exact UInt32.toNat_inj.1 (Nat.eq_of_mul_eq_mul_left (by omega) place).symm
  · intro right
    have place : start = (part - 1).toNat * head.sizeofPartitionEntry.toNat := by
      rcases right with rfl | ⟨size, -⟩
      · simpa using isStart
      · rw [isStart, size]
        rfl
    have inside : start + GPT_ENTRY_SIZE ≤ ptes.length := by
      rcases right with rfl | ⟨-, inside⟩
      · omega
      · exact inside
    exact ⟨place, inside, place ▸ entry inside⟩

def sampleTable (size : UInt32) : Memory :=
  (Memory.write (fun _ => 0) 512 { sampleHeader with
      numPartitionEntries := 2
      sizeofPartitionEntry := size }.bytes).write 1024
    ((sampleEntry 34 133).bytes ++ (sampleEntry 134 200).bytes)

theorem partEntryEfi_entryOfTable_iff_sample : ∃ head ptes,
    findValidGpt sampleDisk (sampleTable 128) = some (head, ptes) ∧
      EntryOfTable sampleDisk head ptes 2 128 (sampleEntry 134 200) (sampleTable 128) := by
  have fields : (findValidGpt sampleDisk (sampleTable 128)).map (fun table =>
      (table.1.sizeofPartitionEntry, table.1.entriesSize)) = some (128, 256) := by decide +kernel
  obtain ⟨⟨head, ptes⟩, found, isFields⟩ := Option.map_eq_some_iff.1 fields
  obtain ⟨size, entries⟩ := Prod.mk.inj isFields
  refine ⟨head, ptes, found, (partEntryEfi_entryOfTable_iff sampleDisk [] 2 _ head ptes
    128 (sampleEntry 134 200) found (by decide +kernel)).2 (.inr ⟨size, ?_⟩)⟩
  rw [show head.entriesSize = 256 from entries]
  decide

/-- With entries of 256 bytes the second one is taken from the middle of the first. -/
theorem partEntryEfi_wrong_place :
    partEntryEfi sampleDisk [] 2 (sampleTable 256) = .ok (128, sampleEntry 134 200) ∧
    ∀ head ptes, findValidGpt sampleDisk (sampleTable 256) = some (head, ptes) →
      ¬EntryOfTable sampleDisk head ptes 2 128 (sampleEntry 134 200) (sampleTable 256) := by
  refine ⟨by decide +kernel, fun head ptes found inTable => ?_⟩
  have size : (findValidGpt sampleDisk (sampleTable 256)).map
      (·.1.sizeofPartitionEntry) = some 256 := by decide +kernel
  rw [found] at size
  have place := inTable.place
  rw [show head.sizeofPartitionEntry = 256 from Option.some.inj size] at place
  cases place

end UBoot
