import UBoot.SparseImage

/-!
# Writes stay inside the partition

A chunk is compared with the end of the partition once, before it is written, and
the sum of the comparison may wrap.  A run is safe when no sum of block numbers
wraps, no write but the last one of a chunk is answered with more blocks than it
was given, and the number of blocks of a fill chunk fits in an `int`.  Nothing is
asked behind a request that is refused or a write that fails.
-/

namespace UBoot

open Nat List

variable {Media : Type} (config : SparseConfig) (info : SparseStorage Media) (m : Memory)

/-- The block number behind what the storage reports to be written does not wrap. -/
def BehindSafe (blk blks : Nat) : Prop :=
  config.isErrValue blks = false → blk + blks < 2 ^ config.lbaBits

/-- No write but the last one of a raw chunk reports more than it was given. -/
def RawSafe : Nat → (blk blks blkcnt data : Nat) → SparseState Media → Prop
  | 0, blk, blks, _, _, _ => BehindSafe config blk blks
  | rounds + 1, blk, blks, blkcnt, data, s =>
    if blkcnt = 0 then BehindSafe config blk blks
    else
      let n := min FASTBOOT_MAX_BLK_WRITE blkcnt
      let bytes := config.lba (n * info.blksz)
      let call := writeBlocks config info s (config.lba (blk + blks)) n (m.read data bytes)
      n ≤ call.1 → (blkcnt = n ∨ call.1 ≤ n) ∧
        RawSafe rounds blk (config.lba (blks + call.1)) (blkcnt - n) (data + bytes) call.2

/-- No write but the last one of a fill chunk reports more than it was given, and
the block number does not wrap. -/
def FillSafe (blkcnt : Nat) (buffer : List UInt8) : Nat → Nat → SparseState Media → Prop
  | 0, _, _ => True
  | fuel + 1, i, s =>
    i < blkcnt → let j := min (fillBufNumBlks config info) (blkcnt - i)
      let call := writeBlocks config info s s.blk j buffer
      j ≤ call.1 → (blkcnt = i + j ∨ call.1 ≤ j) ∧ s.blk + call.1 < 2 ^ config.lbaBits ∧
        FillSafe blkcnt buffer fuel (i + j) { call.2 with blk := s.blk + call.1 }

def RawChunkSafe (blkcnt : Nat) (s : SparseState Media) : Prop :=
  exceedsPartition config info s.blk blkcnt = false → s.blk + blkcnt < 2 ^ config.lbaBits ∧
    if config.sysDcacheOff then
      let call := writeBlocks config info s s.blk blkcnt (m.read s.data (blkcnt * info.blksz))
      blkcnt ≤ call.1 → BehindSafe config s.blk call.1
    else
      (info.memalign s.media).1 = true → RawSafe config info m blkcnt s.blk 0 blkcnt s.data
        { s with media := (info.memalign s.media).2 }

def FillChunkSafe (fuel blkcnt : Nat) (s : SparseState Media) : Prop :=
  (info.memalign s.media).1 = true → exceedsPartition config info s.blk blkcnt = false →
    s.blk + blkcnt < 2 ^ config.lbaBits ∧ blkcnt < 2 ^ 31 ∧
      FillSafe config info blkcnt (fillBuf config info (m.read s.data 4)) fuel 0
        { s with media := (info.memalign s.media).2, data := s.data + 4 }

def DontCareSafe (blkcnt : Nat) (s : SparseState Media) : Prop :=
  s.blk + config.lba (info.reserve s.media s.blk blkcnt).1 < 2 ^ config.lbaBits

def ChunkSafe (header : SparseHeader) (fuel : Nat) (s : SparseState Media) : Prop :=
  let chunkType := m.readLE s.data 2
  let chunkDataSz := header.blkSz * m.readLE (s.data + 4) 4
  let totalSz := m.readLE (s.data + 8) 4
  let blkcnt := chunkBlkcnt config info chunkDataSz
  let s := { s with data := s.data + CHUNK_HEADER_SIZE + (header.chunkHdrSz - CHUNK_HEADER_SIZE) }
  (chunkType = CHUNK_TYPE_RAW → totalSz = header.chunkHdrSz + chunkDataSz →
      RawChunkSafe config info m blkcnt s) ∧
    (chunkType = CHUNK_TYPE_FILL → totalSz = header.chunkHdrSz + 4 →
      FillChunkSafe config info m fuel blkcnt s) ∧
    (chunkType = CHUNK_TYPE_DONT_CARE → DontCareSafe config info blkcnt s)

def ChunksSafe (header : SparseHeader) (fuel : Nat) : Nat → SparseState Media → Prop
  | 0, _ => True
  | chunks + 1, s =>
    ChunkSafe config info m header fuel s ∧
      ((processChunk config info m header fuel s).stop = none →
        ChunksSafe header fuel chunks (processChunk config info m header fuel s).state)

def SparseSafe (fuel : Nat) (media : Media) (data : Nat) : Prop :=
  (sparseHeader m data).blkSz % info.blksz = 0 →
    ChunksSafe config info m (sparseHeader m data) fuel (sparseHeader m data).totalChunks
      { media := media
        data := firstChunk data (m.readLE (data + 8) 2)
        blk := info.start
        totalBlocks := 0
        writes := [] }

def InPartition (call : Nat × Nat) : Prop :=
  call.2 = 0 ∨ (info.start ≤ call.1 ∧ call.1 + call.2 ≤ info.start + info.size)

def AllInPartition (s : SparseState Media) : Prop := ∀ call ∈ s.writes, InPartition info call

variable {config info m}

theorem lba_of_lt {x : Nat} (less : x < 2 ^ config.lbaBits) : config.lba x = x := mod_eq_of_lt less

variable {blkcnt : Nat} {s : SparseState Media}

theorem AllInPartition.writeBlocks (config : SparseConfig) (inside : AllInPartition info s)
    {blk : Nat} (next : InPartition info (blk, blkcnt)) (buffer : List UInt8) :
    AllInPartition info (UBoot.writeBlocks config info s blk blkcnt buffer).2 := by
  intro call inWrites
  rw [UBoot.writeBlocks, mem_append, mem_singleton] at inWrites
  rcases inWrites with earlier | rfl
  · exact inside call earlier
  · exact next

theorem blk_rawLoop (rounds blk blks blkcnt data : Nat) (s : SparseState Media) :
    (rawLoop config info m rounds blk blks blkcnt data s).2.blk = s.blk := by
  induction rounds generalizing blks blkcnt data s with
  | zero => rfl
  | succ rounds ih =>
    rw [rawLoop]
    split
    · rfl
    simp only
    split
    · rfl
    · rw [ih]
      rfl

theorem AllInPartition.rawLoop (noWrap : info.start + info.size < 2 ^ config.lbaBits)
    {rounds blk blks data : Nat} (inside : AllInPartition info s) (atLeast : info.start ≤ blk)
    (fits : blkcnt = 0 ∨ blk + blks + blkcnt ≤ info.start + info.size)
    (safe : RawSafe config info m rounds blk blks blkcnt data s) :
    AllInPartition info (UBoot.rawLoop config info m rounds blk blks blkcnt data s).2 ∧
      ∀ written, (UBoot.rawLoop config info m rounds blk blks blkcnt data s).1 = .ok written →
        BehindSafe config blk written := by
  induction rounds generalizing blks blkcnt data s with
  | zero =>
    refine ⟨inside, ?_⟩
    rintro written ⟨⟩
    exact safe
  | succ rounds ih =>
    rw [UBoot.rawLoop]
    rw [RawSafe] at safe
    split
    case isTrue done =>
      rw [if_pos done] at safe
      refine ⟨inside, ?_⟩
      rintro written ⟨⟩
      exact safe
    case isFalse more =>
      rw [if_neg more] at safe
      have place : blk + blks + blkcnt ≤ info.start + info.size := fits.resolve_left more
      have here : config.lba (blk + blks) = blk + blks := lba_of_lt (by omega)
      have piece := min_le_right FASTBOOT_MAX_BLK_WRITE blkcnt
      generalize min FASTBOOT_MAX_BLK_WRITE blkcnt = n at *
      simp only
      rw [here] at safe ⊢
      have next : InPartition info (blk + blks, n) := .inr ⟨by omega, by simp only; omega⟩
      have written := inside.writeBlocks config next (m.read data (config.lba (n * info.blksz)))
      split
      case isTrue => exact ⟨written, nofun⟩
      case isFalse enough =>
        obtain ⟨reported, later⟩ := safe (Nat.not_lt.1 enough)
        apply ih written _ later
        rcases reported with last | atMost
        · left
          omega
        · right
          rw [lba_of_lt (by omega)]
          omega

theorem lbaOfInt_of_nat {x : Nat} (less : x < 2 ^ 31) : config.lbaOfInt x = x := by
  have wide : 2 ^ 32 ≤ 2 ^ config.lbaBits :=
    Nat.pow_le_pow_right (by omega) (config.ulongBits_ge.trans config.ulongBits_le)
  unfold SparseConfig.lbaOfInt
  rw [← cast_ofNat, ← cast_pow, ← Int.natCast_mod, Int.toNat_natCast]
  exact mod_eq_of_lt (by omega)

theorem fillRound_eq {i num : Nat} (below : i < blkcnt) (bound : blkcnt < 2 ^ 31) :
    (if int32 (blkcnt - i) > num then (num : Int) else int32 (blkcnt - i)) =
      (min num (blkcnt - i) : Nat) := by
  rw [← cast_sub below.le, int32_of_nat (by omega)]
  split <;> omega

/-- As long as the block count fits an `int`, the fill loop counts without
overflow. -/
theorem fillLoop_succ {i : Nat} (atMost : i ≤ blkcnt) (bound : blkcnt < 2 ^ 31)
    (buffer : List UInt8) (fuel : Nat) (s : SparseState Media) :
    fillLoop config info blkcnt buffer (fuel + 1) i s =
      if i < blkcnt then
        let j := min (fillBufNumBlks config info) (blkcnt - i)
        let call := writeBlocks config info s s.blk j buffer
        if call.1 < j then
          failedRun call.2 "flash write failure"
        else
          fillLoop config info blkcnt buffer fuel (i + j : Nat)
            { call.2 with blk := config.lba (call.2.blk + call.1) }
      else
        { state := s, stop := none } := by
  rw [fillLoop, lbaOfInt_of_nat (by omega)]
  by_cases below : i < blkcnt
  · simp only [if_pos below]
    rw [fillRound_eq below bound]
    have part := min_le_right (fillBufNumBlks config info) (blkcnt - i)
    generalize min (fillBufNumBlks config info) (blkcnt - i) = j at *
    rw [lbaOfInt_of_nat (by omega), ← cast_add, int32_of_nat (by omega)]
    rfl
  · rw [if_neg below, if_neg below]

/-- The pieces of a fill chunk lie inside the partition, and the block number
stays behind its start. -/
theorem AllInPartition.fillLoop (bound : blkcnt < 2 ^ 31) {buffer : List UInt8}
    {fuel i : Nat} (inside : AllInPartition info s)
    (atLeast : info.start ≤ s.blk) (atMost : i ≤ blkcnt)
    (fits : i = blkcnt ∨ s.blk + (blkcnt - i) ≤ info.start + info.size)
    (safe : FillSafe config info blkcnt buffer fuel i s) :
    AllInPartition info (UBoot.fillLoop config info blkcnt buffer fuel i s).state ∧
      info.start ≤ (UBoot.fillLoop config info blkcnt buffer fuel i s).state.blk := by
  induction fuel generalizing i s with
  | zero => exact ⟨inside, atLeast⟩
  | succ fuel ih =>
    rw [fillLoop_succ atMost bound]
    split
    case isFalse => exact ⟨inside, atLeast⟩
    case isTrue below =>
      have safe := safe below
      have piece := min_le_right (fillBufNumBlks config info) (blkcnt - i)
      generalize min (fillBufNumBlks config info) (blkcnt - i) = j at *
      simp only
      have place : s.blk + (blkcnt - i) ≤ info.start + info.size := fits.resolve_left (by omega)
      have next : InPartition info (s.blk, j) := .inr ⟨atLeast, by simp only; omega⟩
      have written := inside.writeBlocks config next buffer
      have same : (UBoot.writeBlocks config info s s.blk j buffer).2.blk = s.blk := rfl
      split
      case isTrue => exact ⟨written, atLeast⟩
      case isFalse enough =>
        obtain ⟨reported, noWrap, later⟩ := safe (Nat.not_lt.1 enough)
        rw [same, lba_of_lt noWrap]
        apply ih _ _ _ _ later
        · exact written
        · exact atLeast.trans (Nat.le_add_right _ _)
        · omega
        · simp only
          omega

theorem fits_of_not_exceeds {blk : Nat} (noWrap : info.start + info.size < 2 ^ config.lbaBits)
    (sum : blk + blkcnt < 2 ^ config.lbaBits)
    (checked : exceedsPartition config info blk blkcnt = false) :
    blk + blkcnt ≤ info.start + info.size := by
  rw [exceedsPartition, lba_of_lt sum, lba_of_lt noWrap, decide_eq_false_iff_not] at checked
  omega

structure Flashing (info : SparseStorage Media) (s : SparseState Media) : Prop where
  inside : AllInPartition info s
  atLeast : info.start ≤ s.blk

theorem blk_writeSparseChunkRaw (blk blkcnt data : Nat) (s : SparseState Media) :
    (writeSparseChunkRaw config info m blk blkcnt data s).2.blk = s.blk := by
  unfold writeSparseChunkRaw
  split
  · simp only
    split <;> rfl
  simp only
  split
  · rw [blk_rawLoop]
  · rfl

theorem AllInPartition.writeSparseChunkRaw (noWrap : info.start + info.size < 2 ^ config.lbaBits)
    (flashing : Flashing info s) (checked : exceedsPartition config info s.blk blkcnt = false)
    (safe : RawChunkSafe config info m blkcnt s) :
    AllInPartition info (UBoot.writeSparseChunkRaw config info m s.blk blkcnt s.data s).2 ∧
      ∀ blks, (UBoot.writeSparseChunkRaw config info m s.blk blkcnt s.data s).1 = .ok blks →
        BehindSafe config s.blk blks := by
  obtain ⟨sum, behind⟩ := safe checked
  have fits := fits_of_not_exceeds noWrap sum checked
  unfold UBoot.writeSparseChunkRaw
  split
  case isTrue uncached =>
    rw [if_pos uncached] at behind
    have next : InPartition info (s.blk, blkcnt) := .inr ⟨flashing.atLeast, fits⟩
    have written := flashing.inside.writeBlocks config next (m.read s.data (blkcnt * info.blksz))
    simp only
    split
    case isTrue => exact ⟨written, nofun⟩
    case isFalse enough =>
      refine ⟨written, ?_⟩
      rintro blks ⟨⟩
      exact behind (Nat.not_lt.1 enough)
  case isFalse cached =>
    rw [if_neg cached] at behind
    simp only
    split
    case isTrue buffer =>
      exact AllInPartition.rawLoop noWrap flashing.inside flashing.atLeast (.inr fits)
        (behind buffer)
    case isFalse => exact ⟨flashing.inside, nofun⟩

variable {header : SparseHeader} {chunkDataSz chunkSz totalSz : Nat}

theorem Flashing.rawChunk (noWrap : info.start + info.size < 2 ^ config.lbaBits)
    (flashing : Flashing info s)
    (safe : totalSz = header.chunkHdrSz + chunkDataSz → RawChunkSafe config info m blkcnt s) :
    Flashing info
      (UBoot.rawChunk config info m header chunkSz totalSz chunkDataSz blkcnt s).state := by
  unfold UBoot.rawChunk
  split
  case isTrue => exact flashing
  case isFalse size =>
    split
    case isTrue => exact flashing
    case isFalse checked =>
      rw [Bool.not_eq_true] at checked
      obtain ⟨inside, behind⟩ := AllInPartition.writeSparseChunkRaw noWrap flashing checked
        (safe (not_not.1 size))
      have same : (UBoot.writeSparseChunkRaw config info m s.blk blkcnt s.data s).2.blk = s.blk :=
        blk_writeSparseChunkRaw s.blk blkcnt s.data s
      generalize UBoot.writeSparseChunkRaw config info m s.blk blkcnt s.data s = result at *
      rcases result with ⟨mssg | blks, written⟩
      · exact ⟨inside, same.symm ▸ flashing.atLeast⟩
      simp only at same inside ⊢
      split
      case isTrue => exact ⟨inside, same.symm ▸ flashing.atLeast⟩
      case isFalse valid =>
        have noWrapBehind := behind blks rfl (Bool.eq_false_of_not_eq_true valid)
        refine ⟨inside, ?_⟩
        rw [same, lba_of_lt noWrapBehind]
        exact flashing.atLeast.trans (Nat.le_add_right _ _)

theorem Flashing.fillChunk (noWrap : info.start + info.size < 2 ^ config.lbaBits) {fuel : Nat}
    (flashing : Flashing info s)
    (safe : totalSz = header.chunkHdrSz + 4 → FillChunkSafe config info m fuel blkcnt s) :
    Flashing info
      (UBoot.fillChunk config info m header fuel totalSz chunkDataSz blkcnt s).state := by
  unfold UBoot.fillChunk
  split
  case isTrue => exact flashing
  case isFalse size =>
    simp only
    split
    case isFalse => exact ⟨flashing.inside, flashing.atLeast⟩
    case isTrue allocated =>
      split
      case isTrue => exact ⟨flashing.inside, flashing.atLeast⟩
      case isFalse checked =>
        rw [Bool.not_eq_true] at checked
        obtain ⟨sum, bound, pieces⟩ := safe (not_not.1 size) allocated checked
        have fits := fits_of_not_exceeds noWrap sum checked
        have inside : AllInPartition info
            { s with media := (info.memalign s.media).2, data := s.data + 4 } := flashing.inside
        have result := inside.fillLoop bound flashing.atLeast (Nat.zero_le _) (.inr fits) pieces
        split
        · exact ⟨result.1, result.2⟩
        · exact ⟨result.1, result.2⟩

theorem Flashing.dontCareChunk
    (flashing : Flashing info s) (safe : DontCareSafe config info blkcnt s) :
    Flashing info (UBoot.dontCareChunk config info chunkSz blkcnt s).state where
  inside := flashing.inside
  atLeast := by
    rw [UBoot.dontCareChunk]
    rw [lba_of_lt safe]
    exact flashing.atLeast.trans (Nat.le_add_right _ _)

theorem Flashing.crc32Chunk (flashing : Flashing info s) :
    Flashing info (UBoot.crc32Chunk header chunkSz totalSz chunkDataSz s).state := by
  unfold UBoot.crc32Chunk
  split
  · exact flashing
  · exact ⟨flashing.inside, flashing.atLeast⟩

theorem Flashing.processChunk (noWrap : info.start + info.size < 2 ^ config.lbaBits)
    {fuel : Nat} (flashing : Flashing info s)
    (safe : ChunkSafe config info m header fuel s) :
    Flashing info (UBoot.processChunk config info m header fuel s).state := by
  obtain ⟨raw, fill, dontCare⟩ := safe
  have behindHeader : Flashing info
      { s with data := s.data + CHUNK_HEADER_SIZE + (header.chunkHdrSz - CHUNK_HEADER_SIZE) } :=
    ⟨flashing.inside, flashing.atLeast⟩
  unfold UBoot.processChunk
  simp only
  split
  case isTrue type => exact behindHeader.rawChunk noWrap (raw type)
  case isFalse =>
    split
    case isTrue type => exact behindHeader.fillChunk noWrap (fill type)
    case isFalse =>
      split
      case isTrue type => exact behindHeader.dontCareChunk (dontCare type)
      case isFalse =>
        split
        · exact behindHeader.crc32Chunk
        · exact behindHeader

theorem Flashing.chunkLoop (noWrap : info.start + info.size < 2 ^ config.lbaBits)
    {fuel chunks : Nat}
    (flashing : Flashing info s) (safe : ChunksSafe config info m header fuel chunks s) :
    Flashing info (UBoot.chunkLoop config info m header fuel chunks s).state := by
  induction chunks generalizing s with
  | zero => exact flashing
  | succ chunks ih =>
    obtain ⟨first, later⟩ := safe
    have next := flashing.processChunk noWrap first
    rw [UBoot.chunkLoop]
    split
    case h_1 => exact next
    case h_2 more => exact ih next (later more)

/-- No block outside the partition is written as long as no block number wraps, the
storage reports no more blocks than it was given in the middle of a chunk, and the
length of a fill chunk is a positive `int`. -/
theorem writeSparseImage_inPartition {Media : Type} (config : SparseConfig)
    (info : SparseStorage Media) (m : Memory) (fuel : Nat) (media : Media) (data : Nat)
    (noWrap : info.start + info.size < 2 ^ config.lbaBits)
    (safe : SparseSafe config info m fuel media data) :
    AllInPartition info (writeSparseImage config info m fuel media data).state := by
  have start : Flashing info
      { media := media
        data := firstChunk data (m.readLE (data + 8) 2)
        blk := info.start
        totalBlocks := 0
        writes := [] } := ⟨fun _ inNil => absurd inNil not_mem_nil, le_rfl⟩
  unfold writeSparseImage
  simp only
  split
  case isTrue => exact start.inside
  case isFalse whole =>
    have loop := start.chunkLoop noWrap (safe (not_not.1 whole))
    split
    case h_1 => exact loop.inside
    case h_2 =>
      split
      · exact loop.inside
      · exact loop.inside

def willingStorage (start size : Nat) : SparseStorage Unit where
  blksz := 512
  start := start
  size := size
  write _ _ blkcnt _ := (blkcnt, ())
  reserve _ _ blkcnt := (blkcnt, ())
  memalign _ := (true, ())
  blksz_pos := by omega
  blksz_lt := by omega

def lba32Config : SparseConfig where
  ulongBits := 32
  lbaBits := 32
  ulongBits_ge := Nat.le_add_right 32 0
  ulongBits_le := Nat.le_add_right 32 0
  sysDcacheOff := false
  imageSparseFillbufSize := 524288
  imageSparseFillbufSize_lt := by omega

def skipImage (skipped : Nat) : Memory := fun a =>
  ([0x3a, 0xff, 0x26, 0xed, 1, 0, 0, 0, 28, 0, 12, 0] ++ leBytes 4 512 ++
    leBytes 4 (skipped + 1) ++ leBytes 4 2 ++ leBytes 4 0 ++
    [0xc3, 0xca, 0, 0] ++ leBytes 4 skipped ++ leBytes 4 12 ++
    [0xc1, 0xca, 0, 0] ++ leBytes 4 1 ++ leBytes 4 524).getD a 0

/-- The safety condition holds where blocks are skipped inside the partition. -/
theorem writeSparseImage_inPartition_skip : AllInPartition (willingStorage 2048 2048)
      (writeSparseImage lba32Config (willingStorage 2048 2048) (skipImage 3) 1 () 0).state := by
  apply writeSparseImage_inPartition
  · decide
  intro _
  constructor
  · refine ⟨fun type => ?_, fun type => ?_, fun _ => ?_⟩
    · cases type
    · cases type
    · unfold DontCareSafe
      decide
  intro _
  refine ⟨⟨fun _ _ _ => ⟨?_, fun _ _ => ⟨.inl ?_, ?_⟩⟩, fun type => ?_, fun type => ?_⟩,
    fun _ => trivial⟩
  · decide
  · decide
  · intro _
    decide
  · cases type
  · cases type

/-- With 32 bit block numbers a chunk to skip can wrap the block number to zero: the
raw block behind it is written before the partition. -/
theorem not_inPartition_wrapped_skip :
    (writeSparseImage lba32Config (willingStorage 2048 2048) (skipImage (2 ^ 32 - 2048)) 1 ()
        0).state.writes = [(0, 1)] ∧
      ¬AllInPartition (willingStorage 2048 2048)
        (writeSparseImage lba32Config (willingStorage 2048 2048) (skipImage (2 ^ 32 - 2048)) 1 ()
          0).state := by
  have written : (writeSparseImage lba32Config (willingStorage 2048 2048)
      (skipImage (2 ^ 32 - 2048)) 1 () 0).state.writes = [(0, 1)] := by
    decide
  refine ⟨written, fun inside => ?_⟩
  have outside := inside (0, 1) (by rw [written]; exact mem_singleton_self _)
  exact absurd outside (by unfold InPartition; decide)

end UBoot
