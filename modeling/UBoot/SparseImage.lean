import UBoot.ByteMemory

/-!
# Flashing Android sparse images

`write_sparse_image` of `lib/image-sparse.c`.  The image is read from memory, the
storage answers each call with a number of blocks, and block numbers are of the
type `lbaint_t`, whose width is a parameter.  Beside the variables of the function
the state records the calls of the storage's `write`.  The loop that writes a fill
chunk may go on for ever, so it runs for a given number of rounds.
-/

namespace UBoot

structure SparseConfig where
  ulongBits : Nat
  lbaBits : Nat
  ulongBits_ge : 32 ≤ ulongBits
  ulongBits_le : ulongBits ≤ lbaBits
  sysDcacheOff : Bool
  imageSparseFillbufSize : Nat
  imageSparseFillbufSize_lt : imageSparseFillbufSize < 2 ^ 31

/-- The storage with its block device and the heap, whose state is a `Media`. -/
structure SparseStorage (Media : Type) where
  blksz : Nat
  start : Nat
  size : Nat
  write : Media → (blk blkcnt : Nat) → (buffer : List UInt8) → Nat × Media
  reserve : Media → (blk blkcnt : Nat) → Nat × Media
  memalign : Media → Bool × Media
  blksz_pos : 0 < blksz
  blksz_lt : blksz < 2 ^ 32

def FASTBOOT_MAX_BLK_WRITE : Nat := 16384

def CHUNK_TYPE_RAW : Nat := 0xCAC1

def CHUNK_TYPE_FILL : Nat := 0xCAC2

def CHUNK_TYPE_DONT_CARE : Nat := 0xCAC3

def CHUNK_TYPE_CRC32 : Nat := 0xCAC4

def SPARSE_HEADER_SIZE : Nat := 28

def CHUNK_HEADER_SIZE : Nat := 12

structure SparseState (Media : Type) where
  media : Media
  data : Nat
  blk : Nat
  totalBlocks : Nat
  writes : List (Nat × Nat)

/-- Why the function has not come to its end: a failure with the message given to
the storage, or a fill loop that is still running. -/
inductive SparseStop
  | failed (mssg : Option String)
  | unfinished
  deriving DecidableEq

structure SparseRun (Media : Type) where
  state : SparseState Media
  stop : Option SparseStop

namespace SparseConfig

variable (config : SparseConfig)

/-- A number as an `lbaint_t`. -/
def lba (x : Nat) : Nat := x % 2 ^ config.lbaBits

/-- An `int` as an `lbaint_t`. -/
def lbaOfInt (x : Int) : Nat := (x % 2 ^ config.lbaBits).toNat

def isErrValue (x : Nat) : Bool := 2 ^ config.ulongBits - 4095 ≤ x

end SparseConfig

section Chunks

variable {Media : Type} (config : SparseConfig) (info : SparseStorage Media) (m : Memory)

/-- A call of `info->write` and its answer. -/
def writeBlocks (s : SparseState Media) (blk blkcnt : Nat) (buffer : List UInt8) :
    Nat × SparseState Media :=
  let answer := info.write s.media blk blkcnt buffer
  (config.lba answer.1, { s with media := answer.2, writes := s.writes ++ [(blk, blkcnt)] })

def writeFail (writeBlks : Nat) : String :=
  if config.isErrValue writeBlks then "flash write failure" else "flash write failure(incomplete)"

/-- The loop of `write_sparse_chunk_raw`, with a bound on its rounds. -/
def rawLoop : Nat → (blk blks blkcnt data : Nat) → SparseState Media →
    Except String Nat × SparseState Media
  | 0, _, blks, _, _, s => (.ok blks, s)
  | rounds + 1, blk, blks, blkcnt, data, s =>
    if blkcnt = 0 then
      (.ok blks, s)
    else
      let n := min FASTBOOT_MAX_BLK_WRITE blkcnt
      let bytes := config.lba (n * info.blksz)
      let call := writeBlocks config info s (config.lba (blk + blks)) n (m.read data bytes)
      if call.1 < n then
        (.error (writeFail config call.1), call.2)
      else
        rawLoop rounds blk (config.lba (blks + call.1)) (blkcnt - n) (data + bytes) call.2

def writeSparseChunkRaw (blk blkcnt data : Nat) (s : SparseState Media) :
    Except String Nat × SparseState Media :=
  if config.sysDcacheOff then
    let call := writeBlocks config info s blk blkcnt (m.read data (blkcnt * info.blksz))
    if call.1 < blkcnt then
      (.error (writeFail config call.1), call.2)
    else
      (.ok call.1, call.2)
  else
    let alignedBuf := info.memalign s.media
    if alignedBuf.1 then
      rawLoop config info m blkcnt blk 0 blkcnt data { s with media := alignedBuf.2 }
    else
      (.error "Malloc failed for: CHUNK_TYPE_RAW", { s with media := alignedBuf.2 })

def fillBufNumBlks : Nat := config.imageSparseFillbufSize / info.blksz

def fillBuf (fillVal : List UInt8) : List UInt8 :=
  (List.replicate (info.blksz * fillBufNumBlks config info / 4) fillVal).flatten

def fillLoop (blkcnt : Nat) (buffer : List UInt8) : Nat → Int → SparseState Media → SparseRun Media
  | 0, _, s => { state := s, stop := some .unfinished }
  | fuel + 1, i, s =>
    if config.lbaOfInt i < blkcnt then
      let rest := int32 (blkcnt - i)
      let j :=
        if rest > fillBufNumBlks config info then (fillBufNumBlks config info : Int) else rest
      let call := writeBlocks config info s s.blk (config.lbaOfInt j) buffer
      if call.1 < config.lbaOfInt j then
        { state := call.2, stop := some (.failed (some "flash write failure")) }
      else
        fillLoop blkcnt buffer fuel (int32 (i + j))
          { call.2 with blk := config.lba (call.2.blk + call.1) }
    else
      { state := s, stop := none }

structure SparseHeader where
  chunkHdrSz : Nat
  blkSz : Nat
  totalBlks : Nat
  totalChunks : Nat

def exceedsPartition (blk blkcnt : Nat) : Bool :=
  config.lba (blk + blkcnt) > config.lba (info.start + info.size)

def failedRun (s : SparseState Media) (mssg : String) : SparseRun Media :=
  { state := s, stop := some (.failed (some mssg)) }

variable (header : SparseHeader)

def rawChunk (chunkSz totalSz chunkDataSz blkcnt : Nat) (s : SparseState Media) : SparseRun Media :=
  if totalSz ≠ header.chunkHdrSz + chunkDataSz then
    failedRun s "Bogus chunk size for chunk type Raw"
  else if exceedsPartition config info s.blk blkcnt then
    failedRun s "Request would exceed partition size!"
  else
    match writeSparseChunkRaw config info m s.blk blkcnt s.data s with
    | (.error mssg, s) => failedRun s mssg
    | (.ok blks, s) =>
      if config.isErrValue blks then
        { state := s, stop := some (.failed none) }
      else
        { state :=
            { s with
              blk := config.lba (s.blk + blks)
              totalBlocks := (s.totalBlocks + chunkSz) % 2 ^ 32
              data := s.data + chunkDataSz }
          stop := none }

def fillChunk (fuel totalSz chunkDataSz blkcnt : Nat) (s : SparseState Media) : SparseRun Media :=
  if totalSz ≠ header.chunkHdrSz + 4 then
    failedRun s "Bogus chunk size for chunk type FILL"
  else
    let alloc := info.memalign s.media
    if alloc.1 then
      let fillVal := m.read s.data 4
      let s := { s with media := alloc.2, data := s.data + 4 }
      if exceedsPartition config info s.blk blkcnt then
        failedRun s "Request would exceed partition size!"
      else
        let written := fillLoop config info blkcnt (fillBuf config info fillVal) fuel 0 s
        match written.stop with
        | some stop => { written with stop := some stop }
        | none =>
          { state :=
              { written.state with
                totalBlocks := (written.state.totalBlocks +
                  (chunkDataSz + header.blkSz - 1) / header.blkSz) % 2 ^ 32 }
            stop := none }
    else
      failedRun { s with media := alloc.2 } "Malloc failed for: CHUNK_TYPE_FILL"

def dontCareChunk (chunkSz blkcnt : Nat) (s : SparseState Media) : SparseRun Media :=
  let answer := info.reserve s.media s.blk blkcnt
  { state :=
      { s with
        media := answer.2
        blk := config.lba (s.blk + config.lba answer.1)
        totalBlocks := (s.totalBlocks + chunkSz) % 2 ^ 32 }
    stop := none }

def crc32Chunk (chunkSz totalSz chunkDataSz : Nat) (s : SparseState Media) : SparseRun Media :=
  if totalSz ≠ header.chunkHdrSz + 4 then
    failedRun s "Bogus chunk size for chunk type CRC32"
  else
    { state :=
        { s with
          totalBlocks := (s.totalBlocks + chunkSz) % 2 ^ 32
          data := s.data + chunkDataSz }
      stop := none }

def chunkBlkcnt (chunkDataSz : Nat) : Nat :=
  config.lba ((chunkDataSz + info.blksz - 1) / info.blksz)

def processChunk (fuel : Nat) (s : SparseState Media) : SparseRun Media :=
  let chunkType := m.readLE s.data 2
  let chunkSz := m.readLE (s.data + 4) 4
  let totalSz := m.readLE (s.data + 8) 4
  let chunkDataSz := header.blkSz * chunkSz
  let blkcnt := chunkBlkcnt config info chunkDataSz
  let s := { s with data := s.data + CHUNK_HEADER_SIZE + (header.chunkHdrSz - CHUNK_HEADER_SIZE) }
  if chunkType = CHUNK_TYPE_RAW then
    rawChunk config info m header chunkSz totalSz chunkDataSz blkcnt s
  else if chunkType = CHUNK_TYPE_FILL then
    fillChunk config info m header fuel totalSz chunkDataSz blkcnt s
  else if chunkType = CHUNK_TYPE_DONT_CARE then
    dontCareChunk config info chunkSz blkcnt s
  else if chunkType = CHUNK_TYPE_CRC32 then
    crc32Chunk header chunkSz totalSz chunkDataSz s
  else
    failedRun s "Unknown chunk type"

def chunkLoop (header : SparseHeader) (fuel : Nat) : Nat → SparseState Media → SparseRun Media
  | 0, s => { state := s, stop := none }
  | chunks + 1, s =>
    let next := processChunk config info m header fuel s
    match next.stop with
    | some stop => { next with stop := some stop }
    | none => chunkLoop header fuel chunks next.state

def firstChunk (data fileHdrSz : Nat) : Nat := data + fileHdrSz + (fileHdrSz - SPARSE_HEADER_SIZE)

def sparseHeader (data : Nat) : SparseHeader where
  chunkHdrSz := m.readLE (data + 10) 2
  blkSz := m.readLE (data + 12) 4
  totalBlks := m.readLE (data + 16) 4
  totalChunks := m.readLE (data + 20) 4

/-- The run of `write_sparse_image`, with the number of rounds a fill loop is
given; it returned 0 if it has no reason to stop. -/
def writeSparseImage (fuel : Nat) (media : Media) (data : Nat) : SparseRun Media :=
  let header := sparseHeader m data
  let start : SparseState Media :=
    { media := media
      data := firstChunk data (m.readLE (data + 8) 2)
      blk := info.start
      totalBlocks := 0
      writes := [] }
  if header.blkSz % info.blksz ≠ 0 then
    failedRun start "sparse image block size issue"
  else
    let written := chunkLoop config info m header fuel header.totalChunks start
    match written.stop with
    | some stop => { written with stop := some stop }
    | none =>
      if written.state.totalBlocks ≠ header.totalBlks then
        failedRun written.state "sparse image write failure"
      else
        written

end Chunks

end UBoot
