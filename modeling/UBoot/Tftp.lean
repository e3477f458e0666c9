import UBoot.ByteMemory

/-!
# The TFTP client

The globals of `net/tftp.c`, the functions that store and load a block, the
packet and timeout handlers, and the start of a transfer, as the net loop calls
them.  Block numbers are sixteen bits wide on the wire; offsets are kept in an
`ulong`, whose width is a parameter.  Addresses wrap at the end of the address
space.  Packets come in a receive buffer that may hold older bytes behind them.
-/

namespace UBoot

open List

def TFTP_WRQ : Nat := 2

def TFTP_DATA : Nat := 3

def TFTP_ACK : Nat := 4

def TFTP_ERROR : Nat := 5

def TFTP_OACK : Nat := 6

def TFTP_ERR_FILE_NOT_FOUND : Nat := 1

def TFTP_ERR_ACCESS_DENIED : Nat := 2

def TFTP_ERR_OPTION_NEGOTIATION : Nat := 8

def WELL_KNOWN_PORT : Nat := 69

def TFTP_BLOCK_SIZE : Nat := 512

def TFTP_SEQUENCE_SIZE : Nat := 65536

/-- The values of `tftp_state`. -/
inductive TftpPhase where
  | STATE_SEND_RRQ
  | STATE_DATA
  | STATE_TOO_LARGE
  | STATE_BAD_MAGIC
  | STATE_OACK
  | STATE_RECV_WRQ
  | STATE_SEND_WRQ
  | STATE_INVALID_OPTION
  deriving DecidableEq, Repr

/-- The values of `net_state`. -/
inductive NetState where
  | NETLOOP_CONTINUE
  | NETLOOP_RESTART
  | NETLOOP_SUCCESS
  | NETLOOP_FAIL
  deriving DecidableEq, Repr

open TftpPhase NetState

inductive TftpPacket where
  | request (write : Bool) (filename : String) (timeout blksize : Nat) (windowsize : Option Nat)
  | ack (block : Nat)
  | data (block : Nat) (bytes : List UInt8)
  | error (code : Nat) (message : String)
  deriving DecidableEq, Repr

def TftpPacket.isData : TftpPacket → Bool
  | .data _ _ => true
  | _ => false

/-- What the build, the environment and the board fix for a transfer.  `lmb` is
`lmb_read_check`, where the build has it; `port` is the client's own port and
`tryAgain` tells whether `net_start_again` is still allowed to. -/
structure TftpConfig where
  ulongBits : Nat
  ulongBits_ge : 32 ≤ ulongBits
  lmb : Option (Nat → Nat → Bool)
  cmdTftpsrv : Bool
  tftpFilename : String
  timeoutMs : Nat
  tftpTimeoutCountMax : Nat
  tftpBlockSizeOption : Nat
  tftpWindowSizeOption : Nat
  port : Nat
  tryAgain : Bool
  imageLoadAddr : Nat
  imageLoadAddr_lt : imageLoadAddr < 2 ^ ulongBits
  imageSaveAddr : Nat
  imageSaveSize : Nat

variable (config : TftpConfig)

/-- The number of values of an `ulong`. -/
def TftpConfig.ulong : Nat := 2 ^ config.ulongBits

theorem TftpConfig.ulong_ge : 2 ^ 32 ≤ config.ulong :=
  Nat.pow_le_pow_right (by decide) config.ulongBits_ge

theorem TftpConfig.imageLoadAddr_lt_ulong :
    config.imageLoadAddr < config.ulong := config.imageLoadAddr_lt

structure Tftp where
  tftpState : TftpPhase
  netState : NetState
  remotePort : Nat
  ourPort : Nat
  timeoutCount : Nat
  timeoutCountMax : Nat
  curBlock : Nat
  prevBlock : Nat
  blockWrap : Nat
  blockWrapOffset : Nat
  loadAddr : Nat
  windowsize : Nat
  nextAck : Nat
  lastNack : Nat
  putActive : Bool
  putFinalBlockSent : Bool
  blockSize : Nat
  netBootFileSize : Nat
  memory : Memory
  sent : List TftpPacket

namespace Tftp

variable (config : TftpConfig)

/-! ## Blocks -/

variable (s : Tftp)

/-- Where `store_block` puts a block: the product is an `int`, the sum an `ulong`. -/
def storeOffset (block : Nat) : Nat :=
  ((Int.bmod (block * s.blockSize) (2 ^ 32) + s.blockWrapOffset - s.blockSize) % config.ulong).toNat

def storeBlock (block : Nat) (src : List UInt8) : Option Tftp :=
  let offset := s.storeOffset config block
  let newsize := (offset + src.length) % config.ulong
  let storeAddr := (s.loadAddr + offset) % config.ulong
  if ∃ readCheck ∈ config.lmb, storeAddr < s.loadAddr ∨ readCheck storeAddr src.length then
    none
  else
    some { s with
      memory := s.memory.wrapWrite config.ulong storeAddr src
      netBootFileSize :=
        if s.netBootFileSize < newsize then newsize % 2 ^ 32 else s.netBootFileSize }

def newTransfer : Tftp :=
  { s with
    prevBlock := 0
    blockWrap := 0
    blockWrapOffset := 0
    putFinalBlockSent := false }

/-- Where `load_block` takes a block from: the product is an `unsigned`. -/
def loadOffset (block : Nat) : Nat :=
  (((block * s.blockSize % 2 ^ 32 : Nat) + s.blockWrapOffset - s.blockSize : Int) %
    config.ulong).toNat

def loadBlock (block len : Nat) : List UInt8 :=
  let offset := s.loadOffset config block
  let left := ((s.netBootFileSize - offset : Int) % config.ulong).toNat
  s.memory.wrapRead config.ulong (config.imageSaveAddr + offset) (min left len)

def updateBlockNumber : Tftp :=
  if s.curBlock = 0 ∧ s.prevBlock ≠ 0 then
    { s with
      blockWrap := (s.blockWrap + 1) % config.ulong
      blockWrapOffset := (s.blockWrapOffset + s.blockSize * TFTP_SEQUENCE_SIZE) % config.ulong
      timeoutCount := 0 }
  else
    s

theorem updateBlockNumber_eq : ∃ wrap offset count, s.updateBlockNumber config =
      { s with blockWrap := wrap, blockWrapOffset := offset, timeoutCount := count } := by
  unfold updateBlockNumber
  split
  · exact ⟨_, _, _, rfl⟩
  · exact ⟨s.blockWrap, s.blockWrapOffset, s.timeoutCount, rfl⟩

def tftpComplete : Tftp := { s with netState := NETLOOP_SUCCESS }

/-- Start the transfer again, or give up when `netretry` allows no more tries. -/
def netStartAgain : Tftp :=
  { s with netState := if config.tryAgain then NETLOOP_RESTART else NETLOOP_FAIL }

theorem netStartAgain_netState : (s.netStartAgain config).netState = NETLOOP_FAIL ∨
    (s.netStartAgain config).netState = NETLOOP_RESTART := by
  unfold netStartAgain
  cases config.tryAgain
  · exact .inl rfl
  · exact .inr rfl

/-! ## Sending -/

def emit (packet : TftpPacket) : Tftp := { s with sent := s.sent ++ [packet] }

def sendRequest : Tftp :=
  s.emit (.request (s.tftpState = STATE_SEND_WRQ) config.tftpFilename
    (config.timeoutMs / 1000) config.tftpBlockSizeOption
    (if s.tftpState = STATE_SEND_RRQ ∧ 1 < config.tftpWindowSizeOption then
      some config.tftpWindowSizeOption
    else none))

def sendCurrent : Tftp :=
  if s.putActive then
    let bytes := s.loadBlock config (s.curBlock % 2 ^ 32) s.blockSize
    { s.emit (.data (s.curBlock % 2 ^ 16) bytes) with
      putFinalBlockSent := bytes.length < s.blockSize }
  else
    s.emit (.ack (s.curBlock % 2 ^ 16))

def sendError (code : Nat) (message : String) : Tftp :=
  { s.emit (.error code message) with netState := NETLOOP_FAIL }

def tftpSend : Tftp :=
  match s.tftpState with
  | STATE_SEND_RRQ => s.sendRequest config
  | STATE_SEND_WRQ => s.sendRequest config
  | STATE_OACK => s.sendCurrent config
  | STATE_RECV_WRQ => s.sendCurrent config
  | STATE_DATA => s.sendCurrent config
  | STATE_TOO_LARGE => s.sendError 3 "File too large"
  | STATE_BAD_MAGIC => s.sendError 2 "File has bad magic"
  | STATE_INVALID_OPTION => s.sendError TFTP_ERR_OPTION_NEGOTIATION "Option Negotiation Failed"

/-! ## Options -/

def tolower (c : UInt8) : UInt8 := if 65 ≤ c ∧ c ≤ 90 then c + 32 else c

def stringAt (buffer : List UInt8) (i : Nat) : List UInt8 :=
  (buffer.drop i).takeWhile fun c => c ≠ 0

/-- `strcasecmp` finds no difference. -/
def strcasecmp (left right : List UInt8) : Bool := left.map tolower = right.map tolower

def decodeDigit (c : UInt8) : Nat :=
  if 48 ≤ c ∧ c ≤ 57 then c.toNat - 48
  else if 97 ≤ tolower c ∧ tolower c ≤ 102 then (tolower c).toNat - 97 + 10
  else 256

def parseDigits (base : Nat) : (result : Nat) → List UInt8 → Nat
  | result, [] => result
  | result, c :: rest =>
    if decodeDigit c < base then
      parseDigits base ((result * base + decodeDigit c) % config.ulong) rest
    else result

/-- `simple_strtoul` with base ten, which a `0x` in front changes to sixteen. -/
def dectoul (cp : List UInt8) : Nat :=
  if cp.headD 0 = 48 ∧ tolower (cp.getD 1 0) = 120 then parseDigits config 16 0 (cp.drop 2)
  else parseDigits config 10 0 cp

def blksizeOption : List UInt8 := [98, 108, 107, 115, 105, 122, 101]

def timeoutOption : List UInt8 := [116, 105, 109, 101, 111, 117, 116]

def windowsizeOption : List UInt8 := [119, 105, 110, 100, 111, 119, 115, 105, 122, 101]

def readBlksize (pkt : List UInt8) (i : Nat) : Tftp :=
  if strcasecmp (stringAt pkt i) blksizeOption then
    let blockSize := dectoul config (pkt.drop (i + 8)) % 2 ^ 16
    { s with
      blockSize := blockSize
      tftpState :=
        if config.tftpBlockSizeOption < blockSize then STATE_INVALID_OPTION
        else s.tftpState }
  else s

def readTimeout (pkt : List UInt8) (i : Nat) : Tftp :=
  if strcasecmp (stringAt pkt i) timeoutOption ∧
      dectoul config (pkt.drop (i + 8)) % 2 ^ 16 ≠ config.timeoutMs / 1000 then
    { s with tftpState := STATE_INVALID_OPTION }
  else s

def readWindowsize (pkt : List UInt8) (i : Nat) : Tftp :=
  if strcasecmp (stringAt pkt i) windowsizeOption then
    { s with windowsize := dectoul config (pkt.drop (i + 11)) % 2 ^ 16 }
  else s

def readOptions (pkt : List UInt8) (s : Tftp) (i : Nat) : Tftp :=
  ((s.readBlksize config pkt i).readTimeout config pkt i).readWindowsize config pkt i

/-- Reading the options changes the block size, the window size and, if one of them is
refused, the state. -/
theorem readOptions_eq (pkt : List UInt8) (s : Tftp) (i : Nat) :
    ∃ blockSize phase windowsize, readOptions config pkt s i =
      { s with blockSize := blockSize, tftpState := phase, windowsize := windowsize } ∧
    (phase = s.tftpState ∨ phase = STATE_INVALID_OPTION) ∧
    (s.blockSize < 2 ^ 16 → blockSize < 2 ^ 16) := by
  have blksize : ∃ blockSize phase, s.readBlksize config pkt i =
      { s with blockSize := blockSize, tftpState := phase } ∧
      (phase = s.tftpState ∨ phase = STATE_INVALID_OPTION) ∧
      (s.blockSize < 2 ^ 16 → blockSize < 2 ^ 16) := by
    unfold readBlksize
    split
    · refine ⟨_, _, rfl, ?_, fun _ => Nat.mod_lt _ (by decide)⟩
      split
      · exact .inr rfl
      · exact .inl rfl
    · exact ⟨_, _, rfl, .inl rfl, id⟩
  obtain ⟨blockSize, phase, sized, allowed, bounded⟩ := blksize
  have timeout : ∃ phase', (s.readBlksize config pkt i).readTimeout config pkt i =
      { s with blockSize := blockSize, tftpState := phase' } ∧
      (phase' = s.tftpState ∨ phase' = STATE_INVALID_OPTION) := by
    rw [sized]
    unfold readTimeout
    split
    · exact ⟨_, rfl, .inr rfl⟩
    · exact ⟨_, rfl, allowed⟩
  obtain ⟨phase', timed, allowed'⟩ := timeout
  unfold readOptions
  rw [timed]
  unfold readWindowsize
  split
  · exact ⟨_, _, _, rfl, allowed', bounded⟩
  · exact ⟨_, _, _, rfl, allowed', bounded⟩

theorem foldl_readOptions_eq (pkt : List UInt8) (offsets : List Nat) (s : Tftp) :
    ∃ blockSize phase windowsize, offsets.foldl (readOptions config pkt) s =
      { s with blockSize := blockSize, tftpState := phase, windowsize := windowsize } ∧
    (phase = s.tftpState ∨ phase = STATE_INVALID_OPTION) ∧
    (s.blockSize < 2 ^ 16 → blockSize < 2 ^ 16) := by
  induction offsets generalizing s with
  | nil => exact ⟨_, _, _, rfl, .inl rfl, id⟩
  | cons i offsets ih =>
    obtain ⟨_, phase, _, first, allowed, bounded⟩ := readOptions_eq config pkt s i
    obtain ⟨blockSize, phase', windowsize, rest, allowed', bounded'⟩ :=
      ih (readOptions config pkt s i)
    rw [first] at allowed' bounded'
    refine ⟨blockSize, phase', windowsize, ?_, ?_, fun small => bounded' (bounded small)⟩
    · rw [foldl_cons, rest, first]
    · rcases allowed' with rfl | refused
      · exact allowed
      · exact .inr refused

/-! ## Packets -/

def ntohsAt (buffer : List UInt8) (i : Nat) : Nat :=
  (buffer.getD i 0).toNat * 256 + (buffer.getD (i + 1) 0).toNat

theorem ntohsAt_number (n : Nat) (rest : List UInt8) :
    ntohsAt (UInt8.ofNat (n / 256) :: UInt8.ofNat n :: rest) 0 = n % 2 ^ 16 := by
  have high : (UInt8.ofNat (n / 256)).toNat = n / 256 % 256 := by simp
  have low : (UInt8.ofNat n).toNat = n % 256 := by simp
  simp only [ntohsAt, getD_cons_zero, getD_cons_succ, high, low]
  omega

def startWindow : Tftp := { s with nextAck := s.windowsize }

def beginPut : Tftp :=
  if s.putActive ∧ s.tftpState = STATE_OACK then
    { s with tftpState := STATE_DATA, curBlock := (s.curBlock + 1) % config.ulong }
  else s

/-- A `TFTP_OACK`; `pkt` starts behind the operation code. -/
def handleOack (src : Nat) (pkt : List UInt8) (len : Nat) : Tftp :=
  (((List.range (len - 8)).foldl (readOptions config pkt)
    { s with tftpState := STATE_OACK, remotePort := src }).startWindow.beginPut
      config).tftpSend config

/-- Go to the block after an acknowledged one; the block count wraps like the server's. -/
def moveBlock (block : Nat) : Tftp :=
  updateBlockNumber config { s with prevBlock := s.curBlock, curBlock := (block + 1) % 2 ^ 16 }

def connect (src block : Nat) : Tftp :=
  if block = 0 ∧ s.tftpState = STATE_SEND_WRQ then
    { s with tftpState := STATE_DATA, remotePort := src }
  else s

/-- A `TFTP_ACK`. -/
def handleAck (src : Nat) (pkt : List UInt8) : Tftp :=
  if s.putActive then
    let s := { s with timeoutCount := 0 }
    if s.putFinalBlockSent then s.tftpComplete
    else
      let block := ntohsAt pkt 0
      let moved := s.moveBlock config block
      if s.curBlock = block then
        { moved.connect src block with timeoutCount := 0 }.tftpSend config
      else moved
  else s

/-- A `TFTP_DATA` with another number than the one after the current block. -/
def unexpectedBlock (block : Nat) : Tftp :=
  if 0 < (((s.curBlock + 1) % 2 ^ 16 : Nat) : Int) - Int.bmod block (2 ^ 16) then s
  else if s.lastNack ≠ s.curBlock then
    let s := s.tftpSend config
    { s with
      lastNack := s.curBlock % 2 ^ 16
      nextAck := (s.curBlock + s.windowsize) % 2 ^ 16 }
  else s

/-- What follows the storing of a block of `len` bytes. -/
def acknowledgeBlock (len : Nat) : Tftp :=
  let s := { s with timeoutCount := 0 }
  if len < s.blockSize then (s.tftpSend config).tftpComplete
  else if s.curBlock = s.nextAck then
    let s := s.tftpSend config
    { s with nextAck := (s.nextAck + s.windowsize) % 2 ^ 16 }
  else s

def advanceBlock : Tftp :=
  let s := s.updateBlockNumber config
  { s with prevBlock := s.curBlock, timeoutCountMax := config.tftpTimeoutCountMax }

/-- What follows the check of the block number in `TFTP_DATA`. -/
def acceptBlock (data : List UInt8) : Tftp :=
  if s.curBlock = s.prevBlock then s
  else
    let s := s.advanceBlock config
    match s.storeBlock config s.curBlock data with
    | none => { s with netState := NETLOOP_FAIL }
    | some s => s.acknowledgeBlock config data.length

/-- A `TFTP_DATA` with the number after the current block. -/
def expectedBlock (src : Nat) (data : List UInt8) : Tftp :=
  let s := { s with curBlock := (s.curBlock + 1) % TFTP_SEQUENCE_SIZE }
  let s := if s.tftpState = STATE_SEND_RRQ then { s with nextAck := s.windowsize } else s
  if s.tftpState = STATE_SEND_RRQ ∨ s.tftpState = STATE_OACK ∨ s.tftpState = STATE_RECV_WRQ then
    let s := { s with tftpState := STATE_DATA, remotePort := src }.newTransfer
    if s.curBlock ≠ 1 then s.netStartAgain config else s.acceptBlock config data
  else s.acceptBlock config data

/-- A `TFTP_DATA` of `len` bytes behind the operation code. -/
def handleData (src : Nat) (pkt : List UInt8) (len : Nat) : Tftp :=
  if len < 2 then s
  else if ntohsAt pkt 0 ≠ (s.curBlock + 1) % 2 ^ 16 then s.unexpectedBlock config (ntohsAt pkt 0)
  else s.expectedBlock config src ((pkt.drop 2).take (len - 2))

/-- A `TFTP_ERROR`. -/
def handleError (pkt : List UInt8) : Tftp :=
  if ntohsAt pkt 0 = TFTP_ERR_FILE_NOT_FOUND ∨ ntohsAt pkt 0 = TFTP_ERR_ACCESS_DENIED then
    { s with netState := NETLOOP_FAIL }
  else s.netStartAgain config

/-- A `TFTP_WRQ`, which only a client built as a server answers. -/
def handleWrq (src : Nat) : Tftp :=
  if config.cmdTftpsrv then
    { s with remotePort := src, ourPort := config.port }.newTransfer.tftpSend config
  else s

end Tftp

structure TftpDatagram where
  dest : Nat
  src : Nat
  buffer : List UInt8
  len : Nat
  inBuffer : len ≤ buffer.length

namespace Tftp

variable (config : TftpConfig) (s : Tftp)

def dispatch (d : TftpDatagram) : Tftp :=
  let proto := ntohsAt d.buffer 0
  let pkt := d.buffer.drop 2
  let len := d.len - 2
  if proto = TFTP_ACK then s.handleAck config d.src pkt
  else if proto = TFTP_WRQ then s.handleWrq config d.src
  else if proto = TFTP_OACK then s.handleOack config d.src pkt len
  else if proto = TFTP_DATA then s.handleData config d.src pkt len
  else if proto = TFTP_ERROR then s.handleError config pkt
  else s

theorem dispatch_oack {s : Tftp} {d : TftpDatagram} (opcode : ntohsAt d.buffer 0 = TFTP_OACK) :
    s.dispatch config d = s.handleOack config d.src (d.buffer.drop 2) (d.len - 2) := by
  unfold dispatch
  simp only [opcode]
  rfl

def tftpHandler (d : TftpDatagram) : Tftp :=
  if d.dest ≠ s.ourPort then s
  else if s.tftpState ≠ STATE_SEND_RRQ ∧ d.src ≠ s.remotePort ∧
      s.tftpState ≠ STATE_RECV_WRQ ∧ s.tftpState ≠ STATE_SEND_WRQ then s
  else if d.len < 2 then s
  else s.dispatch config d

def tftpTimeoutHandler : Tftp :=
  let s := { s with timeoutCount := s.timeoutCount + 1 }
  if s.timeoutCountMax < s.timeoutCount then s.netStartAgain config
  else if s.tftpState ≠ STATE_RECV_WRQ then s.tftpSend config
  else s

theorem tftpHandler_eq_dispatch {s : Tftp} {d : TftpDatagram} (ours : d.dest = s.ourPort)
    (fromServer : s.tftpState = STATE_SEND_RRQ ∨ s.tftpState = STATE_SEND_WRQ ∨
      d.src = s.remotePort) (long : 2 ≤ d.len) :
    s.tftpHandler config d = s.dispatch config d := by
  unfold tftpHandler
  rw [if_neg (not_not.2 ours), if_neg, if_neg (by omega)]
  rintro ⟨notReading, otherPort, -, notWriting⟩
  rcases fromServer with reading | writing | samePort
  · exact notReading reading
  · exact notWriting writing
  · exact otherPort samePort

/-! ## Transfers -/

/-- `tftp_start`, for writing (`TFTPPUT`) or reading. -/
def tftpStart (put : Bool) (s : Tftp) : Tftp :=
  let s :=
    if put then
      { s with
        putActive := true
        netBootFileSize := config.imageSaveSize % 2 ^ 32
        tftpState := STATE_SEND_WRQ }.newTransfer
    else
      { s with
        putActive := false
        loadAddr := config.imageLoadAddr
        tftpState := STATE_SEND_RRQ }
  { s with
    timeoutCountMax := config.tftpTimeoutCountMax
    remotePort := WELL_KNOWN_PORT
    timeoutCount := 0
    ourPort := config.port
    curBlock := 0
    windowsize := 1
    lastNack := 0
    blockSize := TFTP_BLOCK_SIZE }.tftpSend config

/-- The start of a transfer in `net_loop`; `sent` begins anew. -/
def netLoopStart (put : Bool) (s : Tftp) : Tftp :=
  { s with netState := NETLOOP_CONTINUE, netBootFileSize := 0, sent := [] }.tftpStart config put

inductive Event where
  | packet (d : TftpDatagram)
  | timeout

def handle : Event → Tftp
  | .packet d => s.tftpHandler config d
  | .timeout => s.tftpTimeoutHandler config

/-- One event.  A failed transfer has halted the device, and one that is to be
restarted comes back through `tftp_start`; a packet may still be in the same batch as
the one that completed the transfer. -/
def step (event : Event) : Tftp :=
  if s.netState = NETLOOP_FAIL ∨ s.netState = NETLOOP_RESTART then s
  else s.handle config event

theorem step_of_stopped {s : Tftp} {event : Event}
    (stopped : s.netState = NETLOOP_FAIL ∨ s.netState = NETLOOP_RESTART) :
    s.step config event = s := by
  unfold Tftp.step
  rw [if_pos stopped]

theorem step_of_running {s : Tftp} {event : Event}
    (runs : s.netState = NETLOOP_CONTINUE ∨ s.netState = NETLOOP_SUCCESS) :
    s.step config event = s.handle config event := by
  unfold Tftp.step
  rcases runs with h | h <;> simp [h]

def run (events : List Event) : Tftp := events.foldl (step config) s

@[simp]
theorem run_nil : s.run config [] = s := rfl

@[simp]
theorem run_cons (event : Event) (events : List Event) :
    s.run config (event :: events) = (s.step config event).run config events := rfl

theorem run_append (first second : List Event) :
    s.run config (first ++ second) = (s.run config first).run config second :=
  foldl_append

end Tftp

theorem TftpConfig.wide_ulongBits : 32 ≤ 64 := by decide

theorem TftpConfig.wide_imageLoadAddr : 0x1000 < 2 ^ 64 := by decide

def TftpConfig.wide : TftpConfig where
  ulongBits := 64
  ulongBits_ge := TftpConfig.wide_ulongBits
  lmb := none
  cmdTftpsrv := false
  tftpFilename := "uImage"
  timeoutMs := 5000
  tftpTimeoutCountMax := 10
  tftpBlockSizeOption := 32767
  tftpWindowSizeOption := 1
  port := 1024
  tryAgain := false
  imageLoadAddr := 0x1000
  imageLoadAddr_lt := TftpConfig.wide_imageLoadAddr
  imageSaveAddr := 0
  imageSaveSize := 700

namespace Tftp

def powerOn : Tftp where
  tftpState := STATE_SEND_RRQ
  netState := NETLOOP_CONTINUE
  remotePort := 0
  ourPort := 0
  timeoutCount := 0
  timeoutCountMax := 0
  curBlock := 0
  prevBlock := 0
  blockWrap := 0
  blockWrapOffset := 0
  loadAddr := 0
  windowsize := 0
  nextAck := 0
  lastNack := 0
  putActive := false
  putFinalBlockSent := false
  blockSize := TFTP_BLOCK_SIZE
  netBootFileSize := 0
  memory := fun _ => 0
  sent := []

end Tftp

end UBoot
