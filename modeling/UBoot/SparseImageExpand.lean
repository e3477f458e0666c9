import UBoot.SparseImageBounds

/-!
# Expansion of Android sparse images

An image of the sparse format, where it lies in memory, and the contents that it
gives to a device.  On a storage that takes every write `write_sparse_image`
produces that expansion, if no file header is longer than the one the function
knows, no chunk follows a checksum, and the fill buffer is made of whole words.
-/

namespace UBoot

open List Nat Memory

/-! ## The format -/

inductive SparseChunk
  | raw (blocks : Nat) (payload : List UInt8)
  | fill (blocks : Nat) (fillVal : List UInt8)
  | dontCare (blocks : Nat)
  | crc32 (crc : List UInt8)

namespace SparseChunk

def blocks : SparseChunk → Nat
  | raw blocks _ => blocks
  | fill blocks _ => blocks
  | dontCare blocks => blocks
  | crc32 _ => 0

def chunkType : SparseChunk → Nat
  | raw _ _ => CHUNK_TYPE_RAW
  | fill _ _ => CHUNK_TYPE_FILL
  | dontCare _ => CHUNK_TYPE_DONT_CARE
  | crc32 _ => CHUNK_TYPE_CRC32

def body : SparseChunk → List UInt8
  | raw _ payload => payload
  | fill _ fillVal => fillVal
  | dontCare _ => []
  | crc32 crc => crc

def bodySize (blkSz : Nat) : SparseChunk → Nat
  | raw blocks _ => blkSz * blocks
  | fill _ _ => 4
  | dontCare _ => 0
  | crc32 _ => 4

def expand (blkSz : Nat) (device : Memory) (position : Nat) : SparseChunk → Memory
  | raw _ payload => device.write position payload
  | fill blocks fillVal => device.write position (replicate (blkSz * blocks / 4) fillVal).flatten
  | dontCare _ => device
  | crc32 _ => device

end SparseChunk

def expandChunks (blkSz : Nat) : Memory → Nat → List SparseChunk → Memory
  | device, _, [] => device
  | device, position, chunk :: rest =>
    expandChunks blkSz (chunk.expand blkSz device position) (position + blkSz * chunk.blocks) rest

structure ChunkAt (m : Memory) (header : SparseHeader) (data : Nat) (chunk : SparseChunk) :
    Prop where
  chunkType : m.readLE data 2 = chunk.chunkType
  chunkSz : m.readLE (data + 4) 4 = chunk.blocks
  totalSz : m.readLE (data + 8) 4 = header.chunkHdrSz + chunk.bodySize header.blkSz
  body : m.read (data + header.chunkHdrSz) (chunk.bodySize header.blkSz) = chunk.body

def ChunksAt (m : Memory) (header : SparseHeader) : Nat → List SparseChunk → Prop
  | _, [] => True
  | data, chunk :: rest =>
    ChunkAt m header data chunk ∧
      ChunksAt m header (data + header.chunkHdrSz + chunk.bodySize header.blkSz) rest

def totalBlocks (chunks : List SparseChunk) : Nat := (chunks.map SparseChunk.blocks).sum

structure SparseImageAt (m : Memory) (data : Nat) (chunks : List SparseChunk) : Prop where
  fileHdrSz : SPARSE_HEADER_SIZE ≤ m.readLE (data + 8) 2
  chunkHdrSz : CHUNK_HEADER_SIZE ≤ (sparseHeader m data).chunkHdrSz
  blkSz_pos : 0 < (sparseHeader m data).blkSz
  blkSz_words : 4 ∣ (sparseHeader m data).blkSz
  totalBlks : (sparseHeader m data).totalBlks = totalBlocks chunks
  totalChunks : (sparseHeader m data).totalChunks = chunks.length
  chunksAt : ChunksAt m (sparseHeader m data) (data + m.readLE (data + 8) 2) chunks

/-! ## The storage -/

/-- The storage takes every write, and its contents are those of a device. -/
structure Accepts {Media : Type} (info : SparseStorage Media) (device : Media → Memory) :
    Prop where
  write_count : ∀ media blk blkcnt buffer, (info.write media blk blkcnt buffer).1 = blkcnt
  write_device : ∀ media blk blkcnt buffer, blkcnt * info.blksz ≤ buffer.length →
    device (info.write media blk blkcnt buffer).2 =
      (device media).write (blk * info.blksz) (buffer.take (blkcnt * info.blksz))
  reserve_count : ∀ media blk blkcnt, (info.reserve media blk blkcnt).1 = blkcnt
  reserve_device : ∀ media blk blkcnt, device (info.reserve media blk blkcnt).2 = device media
  memalign_ok : ∀ media, (info.memalign media).1 = true
  memalign_device : ∀ media, device (info.memalign media).2 = device media

section Expand

variable {Media : Type} {config : SparseConfig} {info : SparseStorage Media} {m : Memory}
  {device : Media → Memory}

/-- What writing a block of bytes to the device does to the state, apart from the
block number. -/
structure Wrote (device : Media → Memory) (s t : SparseState Media) (position : Nat)
    (bytes : List UInt8) : Prop where
  device : device t.media = (device s.media).write position bytes
  data : t.data = s.data
  totalBlocks : t.totalBlocks = s.totalBlocks

theorem Wrote.trans {s t u : SparseState Media} {position : Nat} {first second : List UInt8}
    (before : Wrote device s t position first)
    (behind : Wrote device t u (position + first.length) second) :
    Wrote device s u position (first ++ second) where
  device := by rw [behind.device, before.device, write_append]
  data := behind.data.trans before.data
  totalBlocks := behind.totalBlocks.trans before.totalBlocks

variable {blkcnt : Nat} {s : SparseState Media}

section Accepts

variable (accepts : Accepts info device)

include accepts

theorem Accepts.writeBlocks (config : SparseConfig) (s : SparseState Media) (blk : Nat)
    {buffer : List UInt8} (enough : blkcnt * info.blksz ≤ buffer.length) :
    Wrote device s (UBoot.writeBlocks config info s blk blkcnt buffer).2 (blk * info.blksz)
      (buffer.take (blkcnt * info.blksz)) where
  device := accepts.write_device s.media blk blkcnt buffer enough
  data := rfl
  totalBlocks := rfl

theorem Accepts.writeBlocks_read (config : SparseConfig) (s : SparseState Media) (blk blkcnt : Nat)
    (m : Memory) (data : Nat) : Wrote device s
      (UBoot.writeBlocks config info s blk blkcnt (m.read data (blkcnt * info.blksz))).2
      (blk * info.blksz) (m.read data (blkcnt * info.blksz)) := by
  have length := m.length_read data (blkcnt * info.blksz)
  have call := accepts.writeBlocks config s blk length.ge
  rwa [take_of_length_le length.le] at call

theorem Accepts.writeBlocks_count {blk : Nat} {buffer : List UInt8}
    (bound : blkcnt < 2 ^ config.lbaBits) :
    (UBoot.writeBlocks config info s blk blkcnt buffer).1 = blkcnt := by
  rw [UBoot.writeBlocks, accepts.write_count]
  exact lba_of_lt bound

theorem Accepts.rawLoop (data : Nat) {rounds blk blks : Nat}
    (enough : blkcnt ≤ rounds) (noWrap : blk + blks + blkcnt < 2 ^ config.lbaBits)
    (bytes : blkcnt * info.blksz < 2 ^ 32) :
    ∃ t, UBoot.rawLoop config info m rounds blk blks blkcnt data s = (.ok (blks + blkcnt), t) ∧
      Wrote device s t ((blk + blks) * info.blksz) (m.read data (blkcnt * info.blksz)) := by
  induction rounds generalizing blks blkcnt data s with
  | zero =>
    obtain rfl : blkcnt = 0 := by omega
    refine ⟨s, rfl, ?_, rfl, rfl⟩
    rw [zero_mul, Memory.read, write_nil]
  | succ rounds ih =>
    rw [UBoot.rawLoop]
    split
    case isTrue none =>
      subst none
      refine ⟨s, rfl, ?_, rfl, rfl⟩
      rw [zero_mul, Memory.read, write_nil]
    case isFalse more =>
      have piece := min_le_right FASTBOOT_MAX_BLK_WRITE blkcnt
      have positive : 0 < min FASTBOOT_MAX_BLK_WRITE blkcnt :=
        lt_min (by decide) (pos_of_ne_zero more)
      generalize min FASTBOOT_MAX_BLK_WRITE blkcnt = n at *
      have wide : 2 ^ 32 ≤ 2 ^ config.lbaBits :=
        Nat.pow_le_pow_right (by omega) (config.ulongBits_ge.trans config.ulongBits_le)
      have shorter := mul_le_mul_right info.blksz piece
      simp only
      rw [lba_of_lt (by omega), lba_of_lt (by omega),
        accepts.writeBlocks_count (by omega), if_neg (lt_irrefl n), lba_of_lt (by omega)]
      have remaining := mul_le_mul_right info.blksz (sub_le blkcnt n)
      have first := accepts.writeBlocks_read config s (blk + blks) n m data
      generalize (UBoot.writeBlocks config info s (blk + blks) n
        (m.read data (n * info.blksz))).2 = next at *
      obtain ⟨t, result, rest⟩ := ih (data + n * info.blksz) (s := next)
        (show blkcnt - n ≤ rounds by omega)
        (show blk + (blks + n) + (blkcnt - n) < 2 ^ config.lbaBits by omega) (by omega)
      refine ⟨t, ?_, ?_⟩
      · rw [result]
        congr 2
        omega
      have whole : blkcnt * info.blksz = n * info.blksz + (blkcnt - n) * info.blksz := by
        rw [← Nat.add_mul, Nat.add_sub_cancel' piece]
      rw [whole, read_add]
      apply first.trans
      rwa [length_read, ← add_mul, add_assoc]

theorem Accepts.writeSparseChunkRaw (data : Nat) {blk : Nat}
    (noWrap : blk + blkcnt < 2 ^ config.lbaBits) (bytes : blkcnt * info.blksz < 2 ^ 32) :
    ∃ t, UBoot.writeSparseChunkRaw config info m blk blkcnt data s = (.ok blkcnt, t) ∧
      Wrote device s t (blk * info.blksz) (m.read data (blkcnt * info.blksz)) := by
  unfold UBoot.writeSparseChunkRaw
  split
  case isTrue =>
    simp only
    rw [accepts.writeBlocks_count (by omega), if_neg (lt_irrefl blkcnt)]
    exact ⟨_, rfl, accepts.writeBlocks_read config s blk blkcnt m data⟩
  case isFalse =>
    rw [if_pos (accepts.memalign_ok s.media)]
    obtain ⟨t, result, wrote⟩ := accepts.rawLoop data (m := m)
      (s := { s with media := (info.memalign s.media).2 }) le_rfl
      (show blk + 0 + blkcnt < 2 ^ config.lbaBits by omega) bytes
    rw [zero_add] at result
    refine ⟨t, result, ?_, wrote.data, wrote.totalBlocks⟩
    rw [wrote.device, accepts.memalign_device, add_zero]

end Accepts

/-! ### Fill chunks -/

def fillWords (fillVal : List UInt8) (words : Nat) : List UInt8 := (replicate words fillVal).flatten

theorem length_fillWords {fillVal : List UInt8} (word : fillVal.length = 4) (words : Nat) :
    (fillWords fillVal words).length = 4 * words := by simp [fillWords, word, mul_comm]

theorem fillWords_add (fillVal : List UInt8) (a b : Nat) :
    fillWords fillVal (a + b) = fillWords fillVal a ++ fillWords fillVal b := by
  rw [fillWords, replicate_add, flatten_append]
  rfl

theorem take_fillWords {fillVal : List UInt8} (word : fillVal.length = 4) {part words : Nat}
    (atMost : part ≤ words) :
    (fillWords fillVal words).take (4 * part) = fillWords fillVal part := by
  obtain ⟨rest, rfl⟩ := Nat.exists_eq_add_of_le atMost
  rw [fillWords_add]
  exact take_left' (length_fillWords word part)

/-- What the fill loop needs to write a number of blocks: they fit an `int`, the
buffer has at least one block, and it is made of whole words or used only once. -/
structure FillFits (config : SparseConfig) (info : SparseStorage Media) (blkcnt : Nat) :
    Prop where
  int : blkcnt < 2 ^ 31
  buffer : blkcnt = 0 ∨ 0 < fillBufNumBlks config info
  words : 4 ∣ info.blksz * fillBufNumBlks config info ∨ blkcnt ≤ fillBufNumBlks config info

theorem FillFits.round {blkcnt i : Nat} (fits : FillFits config info blkcnt)
    (words : 4 ∣ (blkcnt - i) * info.blksz) :
    4 ∣ min (fillBufNumBlks config info) (blkcnt - i) * info.blksz := by
  by_cases last : blkcnt - i ≤ fillBufNumBlks config info
  · rwa [min_eq_right last]
  · rw [min_eq_left (by omega), mul_comm]
    exact fits.words.resolve_right (by omega)

section Accepts

variable (accepts : Accepts info device) {fillVal : List UInt8} (word : fillVal.length = 4)

include accepts word

theorem Accepts.writeFill (config : SparseConfig) (s : SparseState Media)
    (inBuffer : blkcnt ≤ fillBufNumBlks config info) (whole : 4 ∣ blkcnt * info.blksz) :
    Wrote device s (UBoot.writeBlocks config info s s.blk blkcnt (fillBuf config info fillVal)).2
      (s.blk * info.blksz) (fillWords fillVal (blkcnt * info.blksz / 4)) := by
  have buffer : fillBuf config info fillVal =
    fillWords fillVal (info.blksz * fillBufNumBlks config info / 4) := rfl
  have atMost : blkcnt * info.blksz / 4 ≤ info.blksz * fillBufNumBlks config info / 4 := by
    rw [mul_comm info.blksz]
    exact Nat.div_le_div_right (Nat.mul_le_mul_right _ inBuffer)
  have bytes : 4 * (blkcnt * info.blksz / 4) = blkcnt * info.blksz := Nat.mul_div_cancel' whole
  have enough : blkcnt * info.blksz ≤ (fillBuf config info fillVal).length := by
    rw [buffer, length_fillWords word]
    omega
  have call := accepts.writeBlocks config s s.blk enough
  have stored : (fillBuf config info fillVal).take (blkcnt * info.blksz) =
      fillWords fillVal (blkcnt * info.blksz / 4) := by
    rw [buffer, ← take_fillWords word atMost, bytes]
  rwa [stored] at call

theorem Accepts.fillLoop {fuel i : Nat} {s : SparseState Media}
    (fits : FillFits config info blkcnt) (atMost : i ≤ blkcnt) (enough : blkcnt - i < fuel)
    (words : 4 ∣ (blkcnt - i) * info.blksz) (noWrap : s.blk + (blkcnt - i) < 2 ^ config.lbaBits) :
    ∃ t, UBoot.fillLoop config info blkcnt (fillBuf config info fillVal) fuel i s =
        { state := t, stop := none } ∧ t.blk = s.blk + (blkcnt - i) ∧
      Wrote device s t (s.blk * info.blksz)
        (fillWords fillVal ((blkcnt - i) * info.blksz / 4)) := by
  induction fuel generalizing i s with
  | zero => omega
  | succ fuel ih =>
    rw [fillLoop_succ atMost fits.int]
    split
    case isFalse done =>
      obtain rfl : i = blkcnt := by omega
      refine ⟨s, rfl, by omega, ?_, rfl, rfl⟩
      rw [Nat.sub_self, Nat.zero_mul, Nat.zero_div, fillWords, replicate_zero,
        flatten_nil, write_nil]
    case isTrue below =>
      have whole := fits.round words
      have piece := min_le_right (fillBufNumBlks config info) (blkcnt - i)
      have inBuffer := min_le_left (fillBufNumBlks config info) (blkcnt - i)
      have positive : 0 < min (fillBufNumBlks config info) (blkcnt - i) :=
        lt_min (fits.buffer.resolve_left (by omega)) (by omega)
      generalize min (fillBufNumBlks config info) (blkcnt - i) = j at *
      simp only
      rw [accepts.writeBlocks_count (by omega), if_neg (lt_irrefl j)]
      have same : (UBoot.writeBlocks config info s s.blk j (fillBuf config info fillVal)).2.blk =
        s.blk := rfl
      have first := accepts.writeFill word config s inBuffer whole
      rw [same, lba_of_lt (by omega)]
      generalize (UBoot.writeBlocks config info s s.blk j (fillBuf config info fillVal)).2 = next
        at *
      have parts : (blkcnt - i) * info.blksz =
          j * info.blksz + (blkcnt - (i + j)) * info.blksz := by
        rw [← add_mul]
        congr 1
        omega
      have restWords : 4 ∣ (blkcnt - (i + j)) * info.blksz :=
        (Nat.dvd_add_right whole).1 (parts ▸ words)
      obtain ⟨t, result, blk, rest⟩ := ih (i := i + j) (s := { next with blk := s.blk + j })
        (by omega) (by omega) restWords (by simp only; omega)
      simp only at blk
      refine ⟨t, result, by omega, ?_⟩
      have allWords : (blkcnt - i) * info.blksz / 4 =
          j * info.blksz / 4 + (blkcnt - (i + j)) * info.blksz / 4 := by
        omega
      rw [allWords, fillWords_add]
      refine first.trans ⟨?_, rest.data, rest.totalBlocks⟩
      rw [rest.device, length_fillWords word, Nat.mul_div_cancel' whole, Nat.add_mul]

end Accepts

/-! ## Chunks -/

def SparseChunk.deviceBlocks (info : SparseStorage Media) (blkSz : Nat) (chunk : SparseChunk) :
    Nat :=
  chunk.blocks * (blkSz / info.blksz)

/-- The chunks the function handles as the format says: the number of blocks of a
raw chunk is no error value, and a fill chunk suits the fill loop. -/
def SparseChunk.Handled (config : SparseConfig) (info : SparseStorage Media) (blkSz : Nat) :
    SparseChunk → Prop
  | raw blocks _ => config.isErrValue (blocks * (blkSz / info.blksz)) = false
  | fill blocks _ => FillFits config info (blocks * (blkSz / info.blksz))
  | dontCare _ => True
  | crc32 _ => True

def SparseChunk.skipped (blkSz : Nat) : SparseChunk → Nat
  | crc32 _ => 0
  | chunk => chunk.bodySize blkSz

structure ChunkDone (info : SparseStorage Media) (device : Media → Memory)
    (header : SparseHeader) (chunk : SparseChunk) (s t : SparseState Media) : Prop where
  data : t.data = s.data + chunk.skipped header.blkSz
  blk : t.blk = s.blk + chunk.deviceBlocks info header.blkSz
  totalBlocks : t.totalBlocks = (s.totalBlocks + chunk.blocks) % 2 ^ 32
  device : device t.media = chunk.expand header.blkSz (device s.media) (s.blk * info.blksz)

theorem chunkBlkcnt_eq {blkSz blocks : Nat} (whole : info.blksz ∣ blkSz)
    (noWrap : blocks * (blkSz / info.blksz) < 2 ^ config.lbaBits) :
    chunkBlkcnt config info (blkSz * blocks) = blocks * (blkSz / info.blksz) := by
  obtain ⟨ratio, rfl⟩ := whole
  have positive := info.blksz_pos
  rw [Nat.mul_div_cancel_left _ positive] at noWrap ⊢
  unfold chunkBlkcnt
  rw [Nat.add_sub_assoc positive, Nat.mul_assoc, mul_add_div positive,
    div_eq_of_lt (by omega), add_zero, mul_comm ratio]
  exact lba_of_lt noWrap

theorem deviceBytes_eq {blkSz : Nat} (blocks : Nat) (whole : info.blksz ∣ blkSz) :
    blocks * (blkSz / info.blksz) * info.blksz = blkSz * blocks := by
  rw [Nat.mul_assoc, Nat.div_mul_cancel whole, Nat.mul_comm]

theorem not_exceeds_of_fits {blk blkcnt : Nat}
    (noWrap : info.start + info.size < 2 ^ config.lbaBits)
    (fits : blk + blkcnt ≤ info.start + info.size) :
    exceedsPartition config info blk blkcnt = false := by
  rw [exceedsPartition, lba_of_lt (by omega), lba_of_lt noWrap, decide_eq_false_iff_not]
  omega

/-- What is assumed about the block size, the partition and a chunk that comes next. -/
structure ChunkFits (config : SparseConfig) (info : SparseStorage Media) (header : SparseHeader)
    (chunk : SparseChunk) (s : SparseState Media) : Prop where
  whole : info.blksz ∣ header.blkSz
  blkSz_pos : 0 < header.blkSz
  blkSz_words : 4 ∣ header.blkSz
  noWrap : info.start + info.size < 2 ^ config.lbaBits
  partition : s.blk + chunk.deviceBlocks info header.blkSz ≤ info.start + info.size
  handled : chunk.Handled config info header.blkSz

section Header

variable {header : SparseHeader} {blocks : Nat}

theorem Accepts.rawChunk (accepts : Accepts info device) {payload : List UInt8}
    (fits : ChunkFits config info header (.raw blocks payload) s)
    (body : m.read s.data (header.blkSz * blocks) = payload)
    (short : header.blkSz * blocks < 2 ^ 32) :
    ∃ t, UBoot.rawChunk config info m header blocks (header.chunkHdrSz + header.blkSz * blocks)
        (header.blkSz * blocks) (blocks * (header.blkSz / info.blksz)) s =
          { state := t, stop := none } ∧
      ChunkDone info device header (.raw blocks payload) s t := by
  have noWrap := fits.noWrap
  have place : s.blk + blocks * (header.blkSz / info.blksz) ≤ info.start + info.size :=
    fits.partition
  have bytes := deviceBytes_eq blocks fits.whole
  obtain ⟨t, result, wrote⟩ := accepts.writeSparseChunkRaw s.data (m := m) (s := s)
    (place.trans_lt noWrap) (bytes.trans_lt short)
  have same : (UBoot.writeSparseChunkRaw config info m s.blk
      (blocks * (header.blkSz / info.blksz)) s.data s).2.blk = s.blk :=
    blk_writeSparseChunkRaw _ _ _ _
  unfold UBoot.rawChunk
  rw [if_neg (not_not.2 rfl), not_exceeds_of_fits noWrap place, if_neg Bool.false_ne_true, result]
  rw [result] at same
  simp only at same ⊢
  rw [fits.handled, if_neg Bool.false_ne_true]
  refine ⟨_, rfl, ?_, ?_, ?_, ?_⟩
  · simp only
    rw [wrote.data]
    rfl
  · simp only
    rw [same]
    exact lba_of_lt (by omega)
  · simp only
    rw [wrote.totalBlocks]
    rfl
  · simp only
    rw [wrote.device, bytes]
    exact congrArg _ body

theorem Accepts.fillChunk (accepts : Accepts info device) {fuel : Nat} {fillVal : List UInt8}
    (fits : ChunkFits config info header (.fill blocks fillVal) s)
    (body : m.read s.data 4 = fillVal) (enough : blocks * (header.blkSz / info.blksz) < fuel) :
    ∃ t, UBoot.fillChunk config info m header fuel (header.chunkHdrSz + 4)
        (header.blkSz * blocks) (blocks * (header.blkSz / info.blksz)) s =
          { state := t, stop := none } ∧
      ChunkDone info device header (.fill blocks fillVal) s t := by
  have noWrap := fits.noWrap
  have place : s.blk + blocks * (header.blkSz / info.blksz) ≤ info.start + info.size :=
    fits.partition
  have bytes := deviceBytes_eq blocks fits.whole
  have word : fillVal.length = 4 := by rw [← body, length_read]
  have words : 4 ∣ blocks * (header.blkSz / info.blksz) * info.blksz := by
    rw [bytes]
    exact fits.blkSz_words.mul_right blocks
  obtain ⟨t, result, blk, wrote⟩ := accepts.fillLoop word (i := 0)
    (s := { s with media := (info.memalign s.media).2, data := s.data + 4 }) fits.handled
    (zero_le _) enough words (by simp only; omega)
  rw [cast_zero] at result
  rw [Nat.sub_zero] at blk wrote
  have count : (header.blkSz * blocks + header.blkSz - 1) / header.blkSz = blocks := by
    have positive := fits.blkSz_pos
    rw [Nat.add_sub_assoc positive, mul_add_div positive,
      div_eq_of_lt (by omega), add_zero]
  unfold UBoot.fillChunk
  rw [if_neg (not_not.2 rfl)]
  simp only
  rw [if_pos (accepts.memalign_ok s.media), not_exceeds_of_fits noWrap place,
    if_neg Bool.false_ne_true, body, result]
  refine ⟨_, rfl, ?_, blk, ?_, ?_⟩
  · exact wrote.data
  · simp only
    rw [wrote.totalBlocks, count]
    rfl
  · simp only
    rw [wrote.device, accepts.memalign_device, bytes]
    rfl

theorem Accepts.dontCareChunk (accepts : Accepts info device)
    (fits : ChunkFits config info header (.dontCare blocks) s) :
    ∃ t, UBoot.dontCareChunk config info blocks (blocks * (header.blkSz / info.blksz))
        s = { state := t, stop := none } ∧
      ChunkDone info device header (.dontCare blocks) s t := by
  have noWrap := fits.noWrap
  have place : s.blk + blocks * (header.blkSz / info.blksz) ≤ info.start + info.size :=
    fits.partition
  refine ⟨_, rfl, rfl, ?_, rfl, accepts.reserve_device _ _ _⟩
  rw [accepts.reserve_count, lba_of_lt (show blocks * _ < _ by omega)]
  exact lba_of_lt (by omega)

theorem crc32Chunk_done {crc : List UInt8} :
    ∃ t, crc32Chunk header 0 (header.chunkHdrSz + 4) (header.blkSz * 0) s =
        { state := t, stop := none } ∧
      ChunkDone info device header (.crc32 crc) s t := by
  unfold crc32Chunk
  rw [if_neg (not_not.2 rfl)]
  refine ⟨_, rfl, rfl, ?_, rfl, rfl⟩
  simp only [SparseChunk.deviceBlocks, SparseChunk.blocks, zero_mul]
  rfl

theorem Accepts.processChunk (accepts : Accepts info device) {chunk : SparseChunk} {fuel : Nat}
    (long : CHUNK_HEADER_SIZE ≤ header.chunkHdrSz) (chunkAt : ChunkAt m header s.data chunk)
    (fits : ChunkFits config info header chunk s)
    (enough : chunk.deviceBlocks info header.blkSz < fuel) :
    ∃ t, UBoot.processChunk config info m header fuel s = { state := t, stop := none } ∧
      ChunkDone info device header chunk { s with data := s.data + header.chunkHdrSz } t := by
  have noWrap := fits.noWrap
  have place := fits.partition
  have blkcnt : chunkBlkcnt config info (header.blkSz * chunk.blocks) =
      chunk.blocks * (header.blkSz / info.blksz) := by
    apply chunkBlkcnt_eq fits.whole
    change chunk.deviceBlocks info header.blkSz < _
    omega
  have behind : s.data + CHUNK_HEADER_SIZE + (header.chunkHdrSz - CHUNK_HEADER_SIZE) =
      s.data + header.chunkHdrSz := by
    omega
  have fitsBehind : ChunkFits config info header chunk
      { s with data := s.data + header.chunkHdrSz } := { fits with }
  have total := chunkAt.totalSz ▸ m.readLE_lt (s.data + 8) 4
  unfold UBoot.processChunk
  simp only
  rw [chunkAt.chunkType, chunkAt.chunkSz, chunkAt.totalSz, blkcnt, behind]
  cases chunk with
  | raw blocks payload =>
    exact accepts.rawChunk fitsBehind chunkAt.body (by
      change header.chunkHdrSz + header.blkSz * blocks < _ at total
      omega)
  | fill blocks fillVal => exact accepts.fillChunk fitsBehind chunkAt.body enough
  | dontCare blocks => exact accepts.dontCareChunk fitsBehind
  | crc32 crc => exact crc32Chunk_done

end Header

def ChunksHandled (config : SparseConfig) (info : SparseStorage Media) (blkSz : Nat) :
    List SparseChunk → Prop
  | [] => True
  | chunk :: rest =>
    chunk.Handled config info blkSz ∧ (chunk.chunkType = CHUNK_TYPE_CRC32 → rest = []) ∧
      ChunksHandled config info blkSz rest

theorem ChunksAt.behind {header : SparseHeader} {data : Nat} {chunk : SparseChunk}
    {rest : List SparseChunk} (chunksAt : ChunksAt m header data (chunk :: rest))
    (last : chunk.chunkType = CHUNK_TYPE_CRC32 → rest = []) :
    ChunksAt m header (data + header.chunkHdrSz + chunk.skipped header.blkSz) rest := by
  cases chunk with
  | raw | fill | dontCare => exact chunksAt.2
  | crc32 crc =>
    rw [last rfl]
    trivial

theorem Accepts.chunkLoop (accepts : Accepts info device) {header : SparseHeader}
    {chunks : List SparseChunk} {fuel : Nat} {s : SparseState Media}
    (long : CHUNK_HEADER_SIZE ≤ header.chunkHdrSz) (whole : info.blksz ∣ header.blkSz)
    (blkSz_pos : 0 < header.blkSz) (blkSz_words : 4 ∣ header.blkSz)
    (noWrap : info.start + info.size < 2 ^ config.lbaBits)
    (counted : s.totalBlocks < 2 ^ 32)
    (partition : s.blk + totalBlocks chunks * (header.blkSz / info.blksz) ≤ info.start + info.size)
    (chunksAt : ChunksAt m header s.data chunks)
    (handled : ChunksHandled config info header.blkSz chunks)
    (enough : totalBlocks chunks * (header.blkSz / info.blksz) < fuel) :
    ∃ t, UBoot.chunkLoop config info m header fuel chunks.length s = { state := t, stop := none } ∧
      t.totalBlocks = (s.totalBlocks + totalBlocks chunks) % 2 ^ 32 ∧
      device t.media = expandChunks header.blkSz (device s.media) (s.blk * info.blksz) chunks := by
  induction chunks generalizing s with
  | nil => exact ⟨s, rfl, (mod_eq_of_lt counted).symm, rfl⟩
  | cons chunk rest ih =>
    obtain ⟨first, last, later⟩ := handled
    have sum : totalBlocks (chunk :: rest) * (header.blkSz / info.blksz) =
        chunk.deviceBlocks info header.blkSz + totalBlocks rest * (header.blkSz / info.blksz) := by
      rw [totalBlocks, map_cons, sum_cons, add_mul]
      rfl
    have fits : ChunkFits config info header chunk s :=
      ⟨whole, blkSz_pos, blkSz_words, noWrap, by omega, first⟩
    obtain ⟨t, result, done⟩ := accepts.processChunk long chunksAt.1 fits
      (show chunk.deviceBlocks info header.blkSz < fuel by omega)
    have blk : t.blk = s.blk + chunk.deviceBlocks info header.blkSz := done.blk
    have data : t.data = s.data + header.chunkHdrSz + chunk.skipped header.blkSz := done.data
    obtain ⟨u, resultRest, count, expanded⟩ := ih (s := t)
      (done.totalBlocks ▸ mod_lt _ (by omega)) (by omega)
      (data ▸ chunksAt.behind last) later (by omega)
    refine ⟨u, ?_, ?_, ?_⟩
    · rw [length_cons, UBoot.chunkLoop, result]
      exact resultRest
    · rw [count, done.totalBlocks, mod_add_mod, add_assoc]
      rfl
    · rw [expanded, done.device, blk, add_mul, SparseChunk.deviceBlocks, deviceBytes_eq _ whole]
      rfl

/-- Apart from long file headers, checksums before other chunks, counts that look like
errors and fill chunks that do not suit the fill buffer, an image is expanded as the
format says. -/
theorem writeSparseImage_expands {Media : Type} (config : SparseConfig)
    (info : SparseStorage Media) (device : Media → Memory) (accepts : Accepts info device)
    (m : Memory) (data : Nat) (chunks : List SparseChunk) (image : SparseImageAt m data chunks)
    (whole : info.blksz ∣ (sparseHeader m data).blkSz)
    (noWrap : info.start + info.size < 2 ^ config.lbaBits)
    (partition : totalBlocks chunks * ((sparseHeader m data).blkSz / info.blksz) ≤ info.size)
    (fileHdrSz : m.readLE (data + 8) 2 = SPARSE_HEADER_SIZE ∨ chunks = [])
    (handled : ChunksHandled config info (sparseHeader m data).blkSz chunks) :
    ∃ rounds, ∀ fuel ≥ rounds, ∀ media,
      (writeSparseImage config info m fuel media data).stop = none ∧
      device (writeSparseImage config info m fuel media data).state.media =
        expandChunks (sparseHeader m data).blkSz (device media) (info.start * info.blksz)
          chunks := by
  refine ⟨totalBlocks chunks * ((sparseHeader m data).blkSz / info.blksz) + 1,
    fun fuel enough media => ?_⟩
  have chunksAt : ChunksAt m (sparseHeader m data) (firstChunk data (m.readLE (data + 8) 2))
      chunks := by
    rcases fileHdrSz with short | rfl
    · have first := image.chunksAt
      rw [short] at first ⊢
      exact first
    · trivial
  obtain ⟨t, result, count, expanded⟩ := accepts.chunkLoop
    (s := {
      media := media
      data := firstChunk data (m.readLE (data + 8) 2)
      blk := info.start
      totalBlocks := 0
      writes := [] }) image.chunkHdrSz whole image.blkSz_pos image.blkSz_words noWrap
    (by simp only; omega) (by simp only; omega) chunksAt handled enough
  have total : t.totalBlocks = (sparseHeader m data).totalBlks := by
    have bound : (sparseHeader m data).totalBlks < 256 ^ 4 := m.readLE_lt _ _
    rw [count, zero_add, ← image.totalBlks, mod_eq_of_lt (by omega)]
  have run : writeSparseImage config info m fuel media data = { state := t, stop := none } := by
    unfold writeSparseImage
    rw [if_neg (not_not.2 (mod_eq_zero_of_dvd whole)), image.totalChunks, result]
    simp only
    rw [if_neg (not_not.2 total)]
  rw [run]
  exact ⟨rfl, expanded⟩

end Expand

def wordDevice : SparseStorage Memory where
  blksz := 4
  start := 2
  size := 16
  write device blk blkcnt buffer := (blkcnt, device.write (blk * 4) (buffer.take (blkcnt * 4)))
  reserve device _ blkcnt := (blkcnt, device)
  memalign device := (true, device)
  blksz_pos := by omega
  blksz_lt := by omega

theorem accepts_wordDevice : Accepts wordDevice id where
  write_count _ _ _ _ := rfl
  write_device _ _ _ _ _ := rfl
  reserve_count _ _ _ := rfl
  reserve_device _ _ _ := rfl
  memalign_ok _ := rfl
  memalign_device _ := rfl

def chunkBytes (chunk : SparseChunk) : List UInt8 :=
  leBytes 2 chunk.chunkType ++ [0, 0] ++ leBytes 4 chunk.blocks ++
    leBytes 4 (CHUNK_HEADER_SIZE + chunk.body.length) ++ chunk.body

def wordImage (extra : List UInt8) (chunks : List SparseChunk) : Memory := fun a =>
  ([0x3a, 0xff, 0x26, 0xed, 1, 0, 0, 0] ++ leBytes 2 (SPARSE_HEADER_SIZE + extra.length) ++
    leBytes 2 CHUNK_HEADER_SIZE ++ leBytes 4 4 ++ leBytes 4 (totalBlocks chunks) ++
    leBytes 4 chunks.length ++ leBytes 4 0 ++ extra ++ (chunks.map chunkBytes).flatten).getD a 0

def sampleChunks : List SparseChunk :=
  [.raw 1 [1, 2, 3, 4], .fill 2 [5, 6, 7, 8], .dontCare 1, .crc32 [0, 0, 0, 0]]

theorem sampleChunks_at : SparseImageAt (wordImage [] sampleChunks) 0 sampleChunks where
  fileHdrSz := by decide
  chunkHdrSz := by decide
  blkSz_pos := by decide
  blkSz_words := by decide
  totalBlks := by decide
  totalChunks := by decide
  chunksAt := by
    refine ⟨⟨?_, ?_, ?_, ?_⟩, ⟨?_, ?_, ?_, ?_⟩, ⟨?_, ?_, ?_, ?_⟩, ⟨?_, ?_, ?_, ?_⟩, trivial⟩ <;>
      decide

theorem writeSparseImage_expands_sample : ∃ rounds, ∀ fuel ≥ rounds, ∀ media,
      (writeSparseImage lba32Config wordDevice (wordImage [] sampleChunks) fuel media 0).stop =
          none ∧
        id (writeSparseImage lba32Config wordDevice (wordImage [] sampleChunks) fuel media
          0).state.media =
          expandChunks (sparseHeader (wordImage [] sampleChunks) 0).blkSz (id media)
            (wordDevice.start * wordDevice.blksz) sampleChunks := by
  apply writeSparseImage_expands lba32Config wordDevice id accepts_wordDevice _ 0 sampleChunks
    sampleChunks_at
  · decide
  · decide
  · decide
  · left
    decide
  refine ⟨?_, fun type => absurd type (by decide), ⟨by decide, ?_, ?_⟩,
    fun type => absurd type (by decide), trivial, fun type => absurd type (by decide), trivial,
    fun _ => rfl, trivial⟩
  · unfold SparseChunk.Handled
    decide
  · right
    decide
  · left
    decide

/-- The two ways in which the function loses its place in an image: a file header that
is longer than the one it knows, and a checksum before another chunk. -/
theorem writeSparseImage_loses_place :
    (SparseImageAt (wordImage [0, 0, 0, 0] [.raw 1 [1, 2, 3, 4]]) 0 [.raw 1 [1, 2, 3, 4]] ∧
      (writeSparseImage lba32Config wordDevice (wordImage [0, 0, 0, 0] [.raw 1 [1, 2, 3, 4]]) 5
        (fun _ => 0) 0).stop = some (.failed (some "Unknown chunk type"))) ∧
    (SparseImageAt (wordImage [] [.crc32 [0, 0, 0, 0], .raw 1 [1, 2, 3, 4]]) 0
        [.crc32 [0, 0, 0, 0], .raw 1 [1, 2, 3, 4]] ∧
      (writeSparseImage lba32Config wordDevice
        (wordImage [] [.crc32 [0, 0, 0, 0], .raw 1 [1, 2, 3, 4]]) 5 (fun _ => 0) 0).stop =
          some (.failed (some "Unknown chunk type"))) := by
  refine ⟨⟨⟨?_, ?_, ?_, ?_, ?_, ?_, ⟨?_, ?_, ?_, ?_⟩, trivial⟩, ?_⟩,
    ⟨?_, ?_, ?_, ?_, ?_, ?_, ⟨?_, ?_, ?_, ?_⟩, ⟨?_, ?_, ?_, ?_⟩, trivial⟩, ?_⟩ <;>
    decide

end UBoot
