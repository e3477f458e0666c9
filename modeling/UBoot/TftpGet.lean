import UBoot.BlockTransfer
import UBoot.Tftp

/-!
# Reading a file over TFTP

An honest server sends the blocks of one file; the network loses, repeats and
reorders them.  The client stores a block exactly when it is the one after the
blocks it has, however often the sixteen-bit numbers have wrapped.  So memory
holds a first part of the file at the load address and nothing else, and the
transfer completes with the whole file.
-/

namespace UBoot

open List TftpPhase NetState Nat Tftp TftpDatagram

/-- A datagram that carries a block; `stale` is what the buffer held behind it. -/
def TftpDatagram.data (port tid n : Nat) (bytes stale : List UInt8) : TftpDatagram where
  dest := port
  src := tid
  buffer := 0 :: 3 :: UInt8.ofNat (n / 256) :: UInt8.ofNat n :: (bytes ++ stale)
  len := bytes.length + 4
  inBuffer := by simp

namespace Tftp

def Event.Negotiates (tid : Nat) : Event → Prop
  | .packet d => d.src = tid ∧ ntohsAt d.buffer 0 = TFTP_OACK
  | .timeout => True

inductive GetEvent where
  | data (n : Nat) (stale : List UInt8)
  | timeout

section

variable (config : TftpConfig) (tid : Nat) (file : List UInt8) (bs : Nat)

def GetEvent.event : GetEvent → Event
  | .data n stale => .packet (.data config.port tid n (fileBlock file bs n) stale)
  | .timeout => .timeout

def receivedBlocks : (received : Nat) → List GetEvent → Nat
  | received, [] => received
  | received, .data n _ :: rest => receivedBlocks (keepInOrder received n) rest
  | received, .timeout :: rest => receivedBlocks received rest

/-- The file has every block that arrives, and each is less than one round of the
sequence numbers away from the block that is expected. -/
def Deliverable : (received : Nat) → List GetEvent → Prop
  | _, [] => True
  | received, .data n _ :: rest =>
    (HasBlock file bs n ∧ n < received + 1 + TFTP_SEQUENCE_SIZE ∧
      received + 1 < n + TFTP_SEQUENCE_SIZE) ∧
    Deliverable (keepInOrder received n) rest
  | received, .timeout :: rest => Deliverable received rest

variable (initial : Memory)

/-- Memory differs from what it was by the first `k` blocks at the load address, and
their length is recorded in the 32 bits of `net_boot_file_size`. -/
def Stored (k : Nat) (s : Tftp) : Prop :=
  s.memory = initial.wrapWrite config.ulong config.imageLoadAddr (file.take (k * bs)) ∧
    s.netBootFileSize = (file.take (k * bs)).length % 2 ^ 32

/-- The globals when `received` blocks were accepted. -/
structure Receiving (received : Nat) (s : Tftp) : Prop where
  reading : s.putActive = false
  port : s.ourPort = config.port
  blockSize : s.blockSize = bs
  loadAddr : s.loadAddr = config.imageLoadAddr
  curBlock : s.curBlock = received % TFTP_SEQUENCE_SIZE
  phase : received = 0 ∧ s.tftpState = STATE_SEND_RRQ ∨
    received = 0 ∧ s.tftpState = STATE_OACK ∧ s.remotePort = tid ∨
    0 < received ∧ s.tftpState = STATE_DATA ∧ s.remotePort = tid ∧
      s.prevBlock = received % TFTP_SEQUENCE_SIZE ∧
      s.blockWrapOffset = received / TFTP_SEQUENCE_SIZE * (TFTP_SEQUENCE_SIZE * bs) % config.ulong

def loopState (received : Nat) : NetState :=
  if IsFinalBlock file bs received then NETLOOP_SUCCESS else NETLOOP_CONTINUE

def Going (received : Nat) (s : Tftp) : Prop :=
  s.netState = loopState file bs received ∧ Receiving config tid bs received s ∧
    Stored config file bs initial received s

def Progress (received : Nat) (s : Tftp) : Prop :=
  s.netState = loopState file bs received ∧ Receiving config tid bs received s ∧
      Stored config file bs initial received s ∨
    (s.netState = NETLOOP_FAIL ∨ s.netState = NETLOOP_RESTART) ∧
      ∃ k ≤ received, Stored config file bs initial k s

end

/-! ## Sending while reading -/

structure SameFile (s s' : Tftp) : Prop where
  netState : s'.netState = s.netState
  memory : s'.memory = s.memory
  size : s'.netBootFileSize = s.netBootFileSize

structure Accepting (config : TftpConfig) (tid bs received : Nat) (s : Tftp) : Prop where
  reading : s.putActive = false
  port : s.ourPort = config.port
  blockSize : s.blockSize = bs
  loadAddr : s.loadAddr = config.imageLoadAddr
  curBlock : s.curBlock = (received + 1) % TFTP_SEQUENCE_SIZE
  phase : s.tftpState = STATE_DATA
  remotePort : s.remotePort = tid
  prevBlock : s.prevBlock = received % TFTP_SEQUENCE_SIZE
  blockWrapOffset : s.blockWrapOffset =
    received / TFTP_SEQUENCE_SIZE * (TFTP_SEQUENCE_SIZE * bs) % config.ulong

variable {config : TftpConfig} {tid : Nat} {file : List UInt8} {bs : Nat} {initial : Memory}
  {s : Tftp}

section

variable {received : Nat}

variable {n : Nat}

theorem Stored.congr {s' : Tftp} (stored : Stored config file bs initial received s)
    (same : s.SameFile s') : Stored config file bs initial received s' := by
  unfold Stored
  rw [same.memory, same.size]
  exact stored

theorem Progress.of_netStartAgain (stored : Stored config file bs initial received s) :
    Progress config tid file bs initial received (s.netStartAgain config) :=
  .inr ⟨netStartAgain_netState config s, received, le_rfl, stored⟩

theorem tftpHandler_data {bytes stale : List UInt8} (ourPort : s.ourPort = config.port)
    (fromServer : s.tftpState = STATE_SEND_RRQ ∨ s.remotePort = tid) :
    s.tftpHandler config (.data config.port tid n bytes stale) =
      if n % 2 ^ 16 ≠ (s.curBlock + 1) % 2 ^ 16 then s.unexpectedBlock config (n % 2 ^ 16)
      else s.expectedBlock config tid bytes := by
  rw [tftpHandler_eq_dispatch config ourPort.symm]
  · have number := ntohsAt_number n (bytes ++ stale)
    simp only [dispatch, data, drop_succ_cons, drop_zero]
    rw [if_neg (by simp [ntohsAt, TFTP_ACK]), if_neg (by simp [ntohsAt, TFTP_WRQ]),
      if_neg (by simp [ntohsAt, TFTP_OACK]), if_pos (by simp [ntohsAt, TFTP_DATA])]
    unfold handleData
    rw [if_neg (by omega), number]
    simp
  · rcases fromServer with reading | samePort
    · exact .inl reading
    · exact .inr (.inr samePort.symm)
  · simp [data]

section Receiving

variable (receiving : Receiving config tid bs received s)

include receiving

theorem Receiving.tftpSend : ∃ packet, s.tftpSend config = s.emit packet := by
  unfold Tftp.tftpSend
  rcases receiving.phase with ⟨-, phase⟩ | ⟨-, phase, -⟩ | ⟨-, phase, -⟩
  · rw [phase]
    exact ⟨_, rfl⟩
  all_goals
    rw [phase, sendCurrent, receiving.reading]
    exact ⟨_, rfl⟩

theorem Receiving.fromServer : s.tftpState = STATE_SEND_RRQ ∨ s.remotePort = tid := by
  rcases receiving.phase with ⟨-, h⟩ | ⟨-, -, h⟩ | ⟨-, -, h, -⟩
  · exact .inl h
  · exact .inr h
  · exact .inr h

theorem Receiving.expects_iff (notAhead : n < received + 1 + TFTP_SEQUENCE_SIZE)
    (notBehind : received + 1 < n + TFTP_SEQUENCE_SIZE) :
    n % 2 ^ 16 = (s.curBlock + 1) % 2 ^ 16 ↔ n = received + 1 := by
  have current : (s.curBlock + 1) % TFTP_SEQUENCE_SIZE = (received + 1) % TFTP_SEQUENCE_SIZE := by
    rw [receiving.curBlock, mod_add_mod]
  constructor
  · intro same
    exact eq_of_mod_eq_of_near (same.trans current) notAhead notBehind
  · rintro rfl
    exact current.symm

theorem Receiving.unexpectedBlock (block : Nat) :
    Receiving config tid bs received (s.unexpectedBlock config block) ∧
      s.SameFile (s.unexpectedBlock config block) := by
  unfold Tftp.unexpectedBlock
  split
  · exact ⟨receiving, ⟨rfl, rfl, rfl⟩⟩
  split
  · obtain ⟨packet, sends⟩ := receiving.tftpSend
    rw [sends]
    exact ⟨{ receiving with }, ⟨rfl, rfl, rfl⟩⟩
  · exact ⟨receiving, ⟨rfl, rfl, rfl⟩⟩

theorem Receiving.expectedBlock (data : List UInt8) :
    ∃ accepting, Accepting config tid bs received accepting ∧ s.SameFile accepting ∧
      s.expectedBlock config tid data = accepting.acceptBlock config data := by
  have next : (s.curBlock + 1) % TFTP_SEQUENCE_SIZE = (received + 1) % TFTP_SEQUENCE_SIZE := by
    rw [receiving.curBlock, mod_add_mod]
  have first : (0 + 1) % TFTP_SEQUENCE_SIZE = 1 := rfl
  unfold Tftp.expectedBlock
  rw [next]
  rcases receiving.phase with ⟨rfl, phase⟩ | ⟨rfl, phase, -⟩ | ⟨-, phase, remote, previous, offset⟩
  case inl | inr.inl =>
    simp only [phase, true_or, or_true, if_true, reduceCtorEq, if_false, newTransfer, first,
      ne_eq, not_true_eq_false]
    refine ⟨_, ?_, ?_, rfl⟩
    · exact ⟨receiving.reading, receiving.port, receiving.blockSize, receiving.loadAddr, rfl,
        rfl, rfl, rfl, by simp⟩
    · exact ⟨rfl, rfl, rfl⟩
  · simp only [phase, reduceCtorEq, or_self, if_false]
    refine ⟨_, ?_, ?_, rfl⟩
    · exact ⟨receiving.reading, receiving.port, receiving.blockSize, receiving.loadAddr, rfl,
        rfl, remote, previous, offset⟩
    · exact ⟨rfl, rfl, rfl⟩

variable (stored : Stored config file bs initial received s)

include stored

theorem Receiving.timeout (goesOn : s.netState = loopState file bs received) :
    Progress config tid file bs initial received (s.tftpTimeoutHandler config) := by
  unfold tftpTimeoutHandler
  have counted : Receiving config tid bs received
      { s with timeoutCount := s.timeoutCount + 1 } := { receiving with }
  dsimp only
  split
  · exact Progress.of_netStartAgain stored
  split
  · obtain ⟨packet, sends⟩ := counted.tftpSend
    rw [sends]
    exact .inl ⟨goesOn, { receiving with }, stored⟩
  · exact .inl ⟨goesOn, counted, stored⟩

theorem Receiving.acknowledgeBlock (goesOn : s.netState = NETLOOP_CONTINUE)
    (has : HasBlock file bs received) :
    Going config tid file bs initial received
      (s.acknowledgeBlock config (fileBlock file bs received).length) := by
  have reset : Receiving config tid bs received { s with timeoutCount := 0 } := { receiving with }
  obtain ⟨packet, sends⟩ := reset.tftpSend
  have sized := receiving.blockSize
  subst sized
  have last := length_fileBlock_lt_iff has
  unfold Going acknowledgeBlock loopState
  dsimp only
  split
  · next isShort =>
    rw [if_pos (last.1 isShort), sends]
    exact ⟨rfl, { receiving with }, stored⟩
  next isFull =>
  have notLast : ¬IsFinalBlock file s.blockSize received := fun isLast =>
    isFull (last.2 isLast)
  split
  · rw [sends]
    exact ⟨goesOn, { receiving with }, stored⟩
  · exact ⟨goesOn, { receiving with }, stored⟩

end Receiving

/-! ## Arrival of a block -/

theorem Accepting.updateBlockNumber (accepting : Accepting config tid bs received s) :
    (s.updateBlockNumber config).blockWrapOffset =
      (received + 1) / TFTP_SEQUENCE_SIZE * (TFTP_SEQUENCE_SIZE * bs) % config.ulong := by
  unfold Tftp.updateBlockNumber
  have current := accepting.curBlock
  have previous := accepting.prevBlock
  unfold TFTP_SEQUENCE_SIZE at *
  split
  · next wraps =>
    have round : (received + 1) / 65536 = received / 65536 + 1 := by omega
    have offset := accepting.blockWrapOffset
    unfold TFTP_SEQUENCE_SIZE at offset
    simp only [offset, accepting.blockSize, round]
    rw [mod_add_mod, add_mul, one_mul, mul_comm bs]
  · next stays =>
    have round : (received + 1) / 65536 = received / 65536 := by omega
    rw [round]
    exact accepting.blockWrapOffset

theorem Accepting.advanceBlock (accepting : Accepting config tid bs received s) :
    Receiving config tid bs (received + 1) (s.advanceBlock config) ∧
      s.SameFile (s.advanceBlock config) := by
  have wrapOffset := accepting.updateBlockNumber
  obtain ⟨wrap, offset, count, updated⟩ := updateBlockNumber_eq config s
  unfold Tftp.advanceBlock
  rw [updated] at wrapOffset ⊢
  refine ⟨?_, ⟨rfl, rfl, rfl⟩⟩
  exact
    { reading := accepting.reading
      port := accepting.port
      blockSize := accepting.blockSize
      loadAddr := accepting.loadAddr
      curBlock := accepting.curBlock
      phase := .inr (.inr ⟨succ_pos _, accepting.phase, accepting.remotePort,
        accepting.curBlock, wrapOffset⟩) }

theorem Receiving.storeOffset (receiving : Receiving config tid bs (received + 1) s)
    (small : 65535 * bs < 2 ^ 31) (below : received * bs < config.ulong) :
    s.storeOffset config s.curBlock = received * bs := by
  unfold Tftp.storeOffset
  have blockWrapOffset : s.blockWrapOffset =
      (received + 1) / TFTP_SEQUENCE_SIZE * (TFTP_SEQUENCE_SIZE * bs) % config.ulong := by
    rcases receiving.phase with ⟨none, -⟩ | ⟨none, -⟩ | ⟨-, -, -, -, offset⟩
    · exact absurd none (succ_ne_zero _)
    · exact absurd none (succ_ne_zero _)
    · exact offset
  rw [receiving.curBlock, receiving.blockSize, blockWrapOffset]
  have inRange : (received + 1) % TFTP_SEQUENCE_SIZE ≤ 65535 := by
    unfold TFTP_SEQUENCE_SIZE
    omega
  have product : (received + 1) % TFTP_SEQUENCE_SIZE * bs ≤ 65535 * bs := mul_le_mul_right _ inRange
  have noOverflow : Int.bmod (((received + 1) % TFTP_SEQUENCE_SIZE : Nat) * bs) (2 ^ 32) =
      ((received + 1) % TFTP_SEQUENCE_SIZE * bs : Nat) := by
    rw [← cast_mul, Int.bmod_eq_of_le (by omega) (by omega)]
  rw [noOverflow, offset_of_wrapped below]

theorem storeBlock_eq (short : file.length < config.ulong)
    (has : HasBlock file bs (received + 1)) {block : Nat}
    (offset : s.storeOffset config block = received * bs)
    (loadAddr : s.loadAddr = config.imageLoadAddr)
    (stored : Stored config file bs initial received s) :
    s.storeBlock config block (fileBlock file bs (received + 1)) = none ∧ config.lmb.isSome ∨
      ∃ memory size, s.storeBlock config block (fileBlock file bs (received + 1)) =
          some { s with memory := memory, netBootFileSize := size } ∧
        Stored config file bs initial (received + 1)
          { s with memory := memory, netBootFileSize := size } := by
  have before : received * bs ≤ file.length := by simpa using has.2
  have lengthBefore : (file.take (received * bs)).length = received * bs := by
    rw [length_take, min_eq_left before]
  have lengthAfter := length_take_add_length_fileBlock has
  have newsize : (received * bs + (fileBlock file bs (received + 1)).length) % config.ulong =
      (file.take ((received + 1) * bs)).length := by
    rw [lengthAfter, length_take, mod_eq_of_lt (by omega)]
  unfold storeBlock
  simp only [offset, newsize, loadAddr]
  split
  · next refused =>
    obtain ⟨readCheck, enabled, -⟩ := refused
    exact .inl ⟨rfl, Option.isSome_of_mem enabled⟩
  refine .inr ⟨_, _, rfl, ?_, ?_⟩
  · have together : (file.take (received * bs)).length +
        (fileBlock file bs (received + 1)).length ≤ config.ulong := by omega
    have extended := Memory.wrapWrite_append (m := initial) config.imageLoadAddr_lt_ulong together
    rw [lengthBefore, take_append_fileBlock] at extended
    simp only [stored.1]
    exact extended
  have recorded := stored.2
  have total : (file.take ((received + 1) * bs)).length =
      received * bs + (fileBlock file bs (received + 1)).length := by
    rw [length_take, lengthAfter]
  simp only
  split
  · rfl
  · omega

theorem loopState_cases (file : List UInt8) (bs received : Nat) :
    loopState file bs received = NETLOOP_CONTINUE ∨
      loopState file bs received = NETLOOP_SUCCESS ∧ IsFinalBlock file bs received := by
  unfold loopState
  split
  · next final => exact .inr ⟨rfl, final⟩
  · exact .inl rfl

theorem step_of_loopState {event : Event} (goesOn : s.netState = loopState file bs received) :
    s.step config event = s.handle config event := by
  apply step_of_running
  rw [goesOn]
  exact (loopState_cases file bs received).imp_right And.left

theorem le_keepInOrder {k : Nat} (le : k ≤ received) : k ≤ keepInOrder received n := by
  unfold keepInOrder
  split
  · omega
  · exact le

section Data

variable (small : 65535 * bs < 2 ^ 31) (short : file.length < config.ulong)

include small short

/-- A block whose number is expected is stored, and completes the transfer if it is the
last; otherwise the memory check refused it. -/
theorem Accepting.acceptBlock (accepting : Accepting config tid bs received s)
    (goesOn : s.netState = NETLOOP_CONTINUE) (has : HasBlock file bs (received + 1))
    (stored : Stored config file bs initial received s) :
    let after := s.acceptBlock config (fileBlock file bs (received + 1))
    Going config tid file bs initial (received + 1) after ∨
      (after.netState = NETLOOP_FAIL ∧ config.lmb.isSome ∧
        Stored config file bs initial received after) := by
  have before : received * bs < config.ulong := by
    have inFile := has.2
    rw [Nat.add_sub_cancel] at inFile
    omega
  have isNew : s.curBlock ≠ s.prevBlock := by
    rw [accepting.curBlock, accepting.prevBlock]
    unfold TFTP_SEQUENCE_SIZE
    omega
  unfold Tftp.acceptBlock
  rw [if_neg isNew]
  obtain ⟨receiving, same⟩ := accepting.advanceBlock
  generalize s.advanceBlock config = next at *
  have storedNext := stored.congr same
  rcases storeBlock_eq short has (receiving.storeOffset small before) receiving.loadAddr
      storedNext with ⟨refused, enabled⟩ | ⟨memory, size, accepted, storedMore⟩
  · right
    simp only [refused]
    exact ⟨trivial, enabled, storedNext⟩
  left
  simp only [accepted]
  have receivingMore : Receiving config tid bs (received + 1)
      { next with memory := memory, netBootFileSize := size } := { receiving with }
  exact receivingMore.acknowledgeBlock storedMore (same.netState.trans goesOn) has

theorem Going.data (going : Going config tid file bs initial received s) {stale : List UInt8}
    (has : HasBlock file bs n) (notAhead : n < received + 1 + TFTP_SEQUENCE_SIZE)
    (notBehind : received + 1 < n + TFTP_SEQUENCE_SIZE) :
    let after := s.tftpHandler config (.data config.port tid n (fileBlock file bs n) stale)
    Going config tid file bs initial (keepInOrder received n) after ∨
      (after.netState = NETLOOP_FAIL ∧ config.lmb.isSome ∧
        Stored config file bs initial received after) := by
  obtain ⟨goesOn, receiving, stored⟩ := going
  rw [tftpHandler_data receiving.port receiving.fromServer]
  have expects := receiving.expects_iff notAhead notBehind
  unfold keepInOrder
  by_cases isNext : n = received + 1
  · subst isNext
    rw [if_neg (not_not.2 (expects.2 rfl)), if_pos rfl]
    obtain ⟨accepting, enters, same, expected⟩ :=
      receiving.expectedBlock (fileBlock file bs (received + 1))
    rw [expected]
    apply enters.acceptBlock small short _ has (stored.congr same)
    rcases loopState_cases file bs received with continues | ⟨-, final⟩
    · rw [same.netState, goesOn, continues]
    · have beyond := final.le_of_hasBlock has
      omega
  · rw [if_pos (fun same => isNext (expects.1 same)), if_neg isNext]
    obtain ⟨still, same⟩ := receiving.unexpectedBlock (n % 2 ^ 16)
    exact .inl ⟨same.netState.trans goesOn, still, stored.congr same⟩

/-! ## Runs -/

theorem Progress.run {events : List GetEvent}
    (progress : Progress config tid file bs initial received s)
    (deliverable : Deliverable file bs received events) :
    Progress config tid file bs initial (receivedBlocks received events)
      (s.run config (events.map (GetEvent.event config tid file bs))) := by
  induction events generalizing received s with
  | nil => exact progress
  | cons event events ih =>
    cases event with
    | timeout =>
      apply ih _ deliverable
      rcases progress with ⟨goesOn, receiving, stored⟩ | ⟨stopped, k, le, stored⟩
      · rw [step_of_loopState goesOn]
        exact receiving.timeout stored goesOn
      · rw [step_of_stopped config stopped]
        exact .inr ⟨stopped, k, le, stored⟩
    | data n stale =>
      obtain ⟨⟨has, notAhead, notBehind⟩, rest⟩ := deliverable
      apply ih _ rest
      rcases progress with going | ⟨stopped, k, le, stored⟩
      · rw [step_of_loopState going.1]
        rcases Going.data small short going has notAhead notBehind with
          going | ⟨failed, -, storedBefore⟩
        · exact .inl going
        · exact .inr ⟨.inl failed, received, le_keepInOrder le_rfl, storedBefore⟩
      · rw [step_of_stopped config stopped]
        exact .inr ⟨stopped, k, le_keepInOrder le, stored⟩

end Data

/-! ## Negotiation of the options -/

def Negotiating (config : TftpConfig) (tid : Nat) (initial : Memory) (s : Tftp) : Prop :=
  (s.netState = NETLOOP_CONTINUE ∧ Receiving config tid s.blockSize 0 s ∨
      s.netState = NETLOOP_FAIL ∨ s.netState = NETLOOP_RESTART) ∧
    s.memory = initial ∧ s.netBootFileSize = 0

theorem Negotiating.progress (negotiating : Negotiating config tid initial s)
    (file : List UInt8) : Progress config tid file s.blockSize initial 0 s := by
  obtain ⟨phase, memory, size⟩ := negotiating
  have stored : Stored config file s.blockSize initial 0 s := by
    unfold Stored
    simp [memory, size]
  rcases phase with ⟨goesOn, receiving⟩ | stopped
  · left
    refine ⟨?_, receiving, stored⟩
    unfold loopState IsFinalBlock HasBlock
    simp [goesOn]
  · exact .inr ⟨stopped, 0, le_rfl, stored⟩

theorem netLoopStart_negotiating (config : TftpConfig) (tid : Nat) (s : Tftp) :
    Negotiating config tid s.memory (s.netLoopStart config false) := by
  refine ⟨.inl ⟨rfl, ?_⟩, rfl, rfl⟩
  exact ⟨rfl, rfl, rfl, rfl, rfl, .inl ⟨rfl, rfl⟩⟩

theorem Receiving.handleOack {bs : Nat} (receiving : Receiving config tid bs 0 s)
    (goesOn : s.netState = NETLOOP_CONTINUE) (pkt : List UInt8) (len : Nat)
    (memory : s.memory = initial) (size : s.netBootFileSize = 0) :
    Negotiating config tid initial (s.handleOack config tid pkt len) := by
  have reading := receiving.reading
  unfold Tftp.handleOack
  obtain ⟨blockSize, phase, windowsize, read, allowed, -⟩ := foldl_readOptions_eq config pkt
    (range (len - 8)) { s with tftpState := STATE_OACK, remotePort := tid }
  rw [read]
  unfold startWindow beginPut
  split
  · next writes =>
    have writing : s.putActive = true := writes.1
    rw [reading] at writing
    cases writing
  rcases allowed with rfl | rfl
  · unfold Tftp.tftpSend sendCurrent
    simp only [reading, Bool.false_eq_true, if_false]
    refine ⟨.inl ⟨goesOn, ?_⟩, memory, size⟩
    exact ⟨rfl, receiving.port, rfl, receiving.loadAddr, receiving.curBlock,
      .inr (.inl ⟨rfl, rfl, rfl⟩)⟩
  · exact ⟨.inr (.inl rfl), memory, size⟩

theorem Progress.negotiating (progress : Progress config tid file bs initial 0 s) :
    Negotiating config tid initial s := by
  have noBlock : loopState file bs 0 = NETLOOP_CONTINUE := by
    unfold loopState IsFinalBlock HasBlock
    simp
  have nothing : ∀ k ≤ 0, Stored config file bs initial k s →
      s.memory = initial ∧ s.netBootFileSize = 0 := by
    rintro k le ⟨memory, size⟩
    obtain rfl : k = 0 := le_zero.1 le
    simpa using And.intro memory size
  rcases progress with ⟨goesOn, receiving, stored⟩ | ⟨stopped, k, le, stored⟩
  · have sized := receiving.blockSize
    subst sized
    exact ⟨.inl ⟨goesOn.trans noBlock, receiving⟩, nothing 0 le_rfl stored⟩
  · exact ⟨.inr stopped, nothing k le stored⟩

theorem Negotiating.step (negotiating : Negotiating config tid initial s) {event : Event}
    (negotiates : event.Negotiates tid) : Negotiating config tid initial (s.step config event) := by
  have progress := negotiating.progress []
  rcases progress with ⟨goesOn, receiving, stored⟩ | ⟨stopped, -⟩
  · rw [step_of_loopState goesOn]
    cases event with
    | timeout => exact (receiving.timeout stored goesOn).negotiating
    | packet d =>
      obtain ⟨rfl, opcode⟩ := negotiates
      simp only [handle, tftpHandler, dispatch_oack config opcode]
      split
      · exact negotiating
      split
      · exact negotiating
      split
      · exact negotiating
      · exact receiving.handleOack (goesOn.trans (by simp [loopState, IsFinalBlock, HasBlock]))
          _ _ negotiating.2.1 negotiating.2.2
  · rw [step_of_stopped config stopped]
    exact negotiating

theorem Negotiating.run {events : List Event} (negotiating : Negotiating config tid initial s)
    (negotiates : ∀ event ∈ events, event.Negotiates tid) :
    Negotiating config tid initial (s.run config events) := by
  induction events generalizing s with
  | nil => exact negotiating
  | cons event events ih =>
    apply ih
    · exact negotiating.step (negotiates event mem_cons_self)
    · intro later isLater
      exact negotiates later (mem_cons_of_mem event isLater)

end

/-! ## The transfer -/

/-- After any negotiation, and whatever the network does to the blocks of the file, the
memory differs from what it was by the first blocks of the file at the load address; as
long as the client goes on these are all blocks that came in order, and it completes
with the whole file in memory and its length in `net_boot_file_size`. -/
theorem get_stores_file (config : TftpConfig) (s : Tftp) (tid : Nat) (file : List UInt8)
    (bs : Nat) (negotiation : List Event) (events : List GetEvent)
    (negotiates : ∀ event ∈ negotiation, event.Negotiates tid)
    (negotiated : ((s.netLoopStart config false).run config negotiation).blockSize = bs)
    (small : 65535 * bs < 2 ^ 31) (short : file.length < config.ulong)
    (deliverable : Deliverable file bs 0 events) :
    let after := (s.netLoopStart config false).run config
      (negotiation ++ events.map (GetEvent.event config tid file bs))
    (∃ k ≤ receivedBlocks 0 events, Stored config file bs s.memory k after ∧
      (after.netState = NETLOOP_CONTINUE → k = receivedBlocks 0 events)) ∧
    (after.netState = NETLOOP_SUCCESS →
      after.memory = s.memory.wrapWrite config.ulong config.imageLoadAddr file ∧
      after.netBootFileSize = file.length % 2 ^ 32) := by
  have negotiating := (netLoopStart_negotiating config tid s).run negotiates
  have beforeData := negotiating.progress file
  rw [negotiated] at beforeData
  have progress := beforeData.run small short deliverable
  rw [← run_append] at progress
  rcases progress with ⟨goesOn, -, stored⟩ | ⟨stopped, k, le, stored⟩
  · refine ⟨⟨_, le_rfl, stored, fun _ => rfl⟩, ?_⟩
    intro success
    have final : IsFinalBlock file bs (receivedBlocks 0 events) := by
      rcases loopState_cases file bs (receivedBlocks 0 events) with continues | ⟨-, final⟩
      · rw [goesOn, continues] at success
        cases success
      · exact final
    have whole : file.take (receivedBlocks 0 events * bs) = file := take_of_length_le final.2.le
    unfold Stored at stored
    rwa [whole] at stored
  · constructor
    · refine ⟨k, le, stored, ?_⟩
      intro continues
      rw [continues] at stopped
      rcases stopped with h | h <;> cases h
    · intro success
      rw [success] at stopped
      rcases stopped with h | h <;> cases h

/-! ## Transfers without losses -/

def GetEvent.inOrder : (received count : Nat) → List GetEvent
  | _, 0 => []
  | received, more + 1 => .data (received + 1) [] :: inOrder (received + 1) more

section

variable {received count : Nat}

theorem deliverable_inOrder (has : 0 < count → HasBlock file bs (received + count)) :
    Deliverable file bs received (GetEvent.inOrder received count) := by
  induction count generalizing received with
  | zero => trivial
  | succ count ih =>
    have positive : 0 < TFTP_SEQUENCE_SIZE := by decide
    have hasNext : HasBlock file bs (received + 1) :=
      (has (succ_pos _)).of_le (succ_pos _) (by omega)
    refine ⟨⟨hasNext, by omega, by omega⟩, ?_⟩
    rw [keepInOrder, if_pos rfl]
    apply ih
    intro _
    rw [add_right_comm]
    exact has (succ_pos _)

/-- Blocks that arrive in order are all stored when no memory check can refuse them. -/
theorem Going.inOrder (going : Going config tid file bs initial received s)
    (unchecked : config.lmb = none)
    (small : 65535 * bs < 2 ^ 31) (short : file.length < config.ulong)
    (has : 0 < count → HasBlock file bs (received + count)) :
    Going config tid file bs initial (received + count) (s.run config
      ((GetEvent.inOrder received count).map (GetEvent.event config tid file bs))) := by
  induction count generalizing received s with
  | zero => exact going
  | succ count ih =>
    obtain ⟨⟨hasNext, notAhead, notBehind⟩, -⟩ := deliverable_inOrder has
    rw [GetEvent.inOrder, map_cons, run_cons, step_of_loopState going.1, ← add_assoc,
      add_right_comm]
    rcases Going.data small short going hasNext notAhead notBehind with next | ⟨-, checked, -⟩
    · rw [keepInOrder, if_pos rfl] at next
      apply ih next
      intro _
      rw [add_right_comm]
      exact has (succ_pos _)
    · rw [unchecked] at checked
      cases checked

end

def acceptsBlksize (digits : List UInt8) : TftpDatagram where
  dest := 1024
  src := 2000
  buffer := [0, 6, 98, 108, 107, 115, 105, 122, 101, 0] ++ digits ++ [0]
  len := digits.length + 11
  inBuffer := by simp

theorem acceptsBlksize_negotiates (digits : List UInt8) :
    ∀ event ∈ [Event.packet (acceptsBlksize digits)], event.Negotiates 2000 := by
  simp [Event.Negotiates, acceptsBlksize, ntohsAt, TFTP_OACK]

theorem get_stores_file_reordered :
    let after := (powerOn.netLoopStart .wide false).run .wide ([.packet (acceptsBlksize [50])] ++
        [GetEvent.data 2 [], .data 1 [7], .data 1 [], .timeout, .data 2 []].map
          (GetEvent.event .wide 2000 [1, 2, 3] 2))
    after.netState = NETLOOP_SUCCESS ∧
      after.memory = powerOn.memory.wrapWrite (2 ^ 64) 0x1000 [1, 2, 3] ∧
      after.netBootFileSize = 3 := by
  intro after
  have stores := get_stores_file .wide powerOn 2000 [1, 2, 3] 2 [.packet (acceptsBlksize [50])]
    [GetEvent.data 2 [], .data 1 [7], .data 1 [], .timeout, .data 2 []]
    (acceptsBlksize_negotiates [50]) (by decide) (by decide) (by decide)
    (by simp [Deliverable, HasBlock, keepInOrder, TFTP_SEQUENCE_SIZE])
  have completes : after.netState = NETLOOP_SUCCESS := by decide
  exact ⟨completes, stores.2 completes⟩

/-- A file of four gigabytes is stored, but recorded with no bytes. -/
theorem get_records_wrong_size :
    ∃ (config : TftpConfig) (s : Tftp) (tid : Nat) (file : List UInt8) (bs : Nat)
      (negotiation : List Event) (events : List GetEvent),
      (∀ event ∈ negotiation, event.Negotiates tid) ∧
      ((s.netLoopStart config false).run config negotiation).blockSize = bs ∧
      65535 * bs < 2 ^ 31 ∧ Deliverable file bs 0 events ∧
      let after := (s.netLoopStart config false).run config
        (negotiation ++ events.map (GetEvent.event config tid file bs))
      after.netState = NETLOOP_SUCCESS ∧ after.netBootFileSize ≠ file.length := by
  obtain ⟨file, length⟩ : ∃ file : List UInt8, file.length = 2 ^ 32 :=
    ⟨replicate (2 ^ 32) 0, length_replicate⟩
  have sized : ((powerOn.netLoopStart .wide false).run .wide
      [.packet (acceptsBlksize [51, 50, 55, 54, 55])]).blockSize = 32767 := by decide
  have continues : ((powerOn.netLoopStart .wide false).run .wide
      [.packet (acceptsBlksize [51, 50, 55, 54, 55])]).netState = NETLOOP_CONTINUE := by
    decide
  have negotiates := acceptsBlksize_negotiates [51, 50, 55, 54, 55]
  have negotiating := (netLoopStart_negotiating .wide 2000 powerOn).run negotiates
  have final : IsFinalBlock file 32767 131077 := by
    unfold IsFinalBlock HasBlock
    omega
  have hasAll : 0 < 131077 → HasBlock file 32767 (0 + 131077) := fun _ => by simpa using final.1
  refine ⟨.wide, powerOn, 2000, file, 32767, [.packet (acceptsBlksize [51, 50, 55, 54, 55])],
    GetEvent.inOrder 0 131077, negotiates, sized, by decide, deliverable_inOrder hasAll, ?_⟩
  have beforeData := negotiating.progress file
  rw [sized] at beforeData
  rw [run_append]
  generalize (powerOn.netLoopStart .wide false).run .wide
    [.packet (acceptsBlksize [51, 50, 55, 54, 55])] = s at *
  rcases beforeData with going | ⟨stopped, -⟩
  · obtain ⟨loop, -, -, recorded⟩ := Going.inOrder going rfl (by decide) (by rw [length]; decide)
      hasAll
    rw [zero_add] at loop recorded
    constructor
    · rw [loop, loopState, if_pos final]
    · rw [recorded, take_of_length_le final.2.le, length]
      decide
  · rw [continues] at stopped
    rcases stopped with h | h <;> cases h

/-! ## Gaps in a window -/

def Reacknowledged (s s' : Tftp) : Prop :=
  if s.lastNack = s.curBlock then s'.sent = s.sent
  else s'.sent = s.sent ++ [.ack (s.curBlock % 2 ^ 16)] ∧ s'.lastNack = s.curBlock % 2 ^ 16

/-- A block behind the expected one sends nothing.  A block ahead of it makes the client
acknowledge again exactly if that was done before, or the number of the block is positive as
a `short` and above the expected one without a wrap. -/
theorem tftpHandler_gap_iff {config : TftpConfig} {s : Tftp} {tid : Nat}
    (phase : s.tftpState = STATE_DATA) (reading : s.putActive = false)
    (ourPort : s.ourPort = config.port) (server : s.remotePort = tid) (n k : Nat)
    (some : 1 ≤ k) (few : k ≤ 32767) (bytes stale : List UInt8) :
    ((n + k) % 2 ^ 16 = (s.curBlock + 1) % 2 ^ 16 →
      (s.tftpHandler config (.data config.port tid n bytes stale)).sent = s.sent) ∧
    (n % 2 ^ 16 = (s.curBlock + 1 + k) % 2 ^ 16 →
      (Reacknowledged s (s.tftpHandler config (.data config.port tid n bytes stale)) ↔
        s.lastNack = s.curBlock ∨
          n % 2 ^ 16 < 2 ^ 15 ∧ (s.curBlock + 1) % 2 ^ 16 < n % 2 ^ 16)) := by
  have sends : (s.tftpSend config).sent = s.sent ++ [.ack (s.curBlock % 2 ^ 16)] ∧
      (s.tftpSend config).curBlock = s.curBlock := by
    simp [tftpSend, phase, sendCurrent, reading, emit]
  rw [tftpHandler_data ourPort (.inr server)]
  generalize isBlock : n % 2 ^ 16 = block
  -- the number as a `short` decides whether the block counts as an old one
  have old : 0 < (((s.curBlock + 1) % 2 ^ 16 : Nat) : Int) - Int.bmod block (2 ^ 16) ↔
      ¬ (block < 2 ^ 15 ∧ (s.curBlock + 1) % 2 ^ 16 ≤ block) := by
    rw [Int.bmod_def]
    split <;> omega
  unfold unexpectedBlock
  simp only [old]
  constructor
  · intro behind
    rw [if_pos (by omega), if_pos (by omega)]
  intro ahead
  rw [if_pos (by omega)]
  unfold Reacknowledged
  by_cases known : s.lastNack = s.curBlock
  · simp [known]
  rw [if_neg known, or_iff_right known]
  by_cases above : block < 2 ^ 15 ∧ (s.curBlock + 1) % 2 ^ 16 < block
  · rw [if_neg (not_not.2 ⟨above.1, above.2.le⟩), if_pos known]
    exact iff_of_true ⟨sends.1, by rw [sends.2]⟩ above
  · rw [if_pos (by omega)]
    exact iff_of_false (fun sent => by simp at sent) above

/-- The client has seven blocks, and block ten arrives. -/
theorem tftpHandler_gap_seven :
    Reacknowledged { powerOn with tftpState := STATE_DATA, curBlock := 7, ourPort := 1024 }
      (tftpHandler .wide { powerOn with tftpState := STATE_DATA, curBlock := 7, ourPort := 1024 }
        (.data 1024 0 10 [] [])) :=
  ((tftpHandler_gap_iff rfl rfl rfl rfl 10 2 (by decide) (by decide) [] []).2 rfl).2
    (.inr (by decide))

/-- The client expects block 32766, and block 32768 makes it send nothing. -/
theorem tftpHandler_gap_unseen :
    (tftpHandler .wide { powerOn with
        tftpState := STATE_DATA, curBlock := 32765, lastNack := 32700, ourPort := 1024 }
      (.data 1024 0 32768 [] [])).sent = [] := by decide

end Tftp

end UBoot
