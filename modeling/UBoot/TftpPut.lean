import UBoot.BlockTransfer
import UBoot.Tftp

/-!
# Writing a file over TFTP

The client sends a block and goes to the one after the block that is
acknowledged.  It takes any acknowledgement for the last one once it has sent its
last block, and a late acknowledgement may move it to the wrong round of the
sixteen-bit numbers.  When no acknowledgement of these two kinds arrives, every
packet carries the block behind the one that is acknowledged, and the transfer
completes only when the last block is acknowledged.
-/

namespace UBoot

open List TftpPhase NetState Nat Tftp Memory

def TftpDatagram.ack (port tid n : Nat) (stale : List UInt8) : TftpDatagram where
  dest := port
  src := tid
  buffer := 0 :: 4 :: UInt8.ofNat (n / 256) :: UInt8.ofNat n :: stale
  len := 4
  inBuffer := by simp

namespace Tftp

inductive PutEvent where
  | ack (n : Nat) (stale : List UInt8)
  | timeout

def PutEvent.event (config : TftpConfig) (tid : Nat) : PutEvent → Event
  | .ack n stale => .packet (.ack config.port tid n stale)
  | .timeout => .timeout

/-- The number of the current block, with the rounds that the counter went through. -/
def position (s : Tftp) : Nat := s.blockWrap * TFTP_SEQUENCE_SIZE + s.curBlock

section

variable (config : TftpConfig) (tid : Nat) (file : List UInt8) (bs : Nat)

def dataPacket (n : Nat) : TftpPacket := .data (n % 2 ^ 16) (fileBlock file bs n)

def Acknowledgeable (s : Tftp) (n : Nat) : Prop := n = 0 ∨ dataPacket file bs n ∈ s.sent

instance (s : Tftp) (n : Nat) : Decidable (Acknowledgeable file bs s n) :=
  inferInstanceAs (Decidable (_ ∨ _))

/-- After its last block the client is sent the acknowledgement of that block only.  Before,
it is sent that of the current block, or one that leads to a block of the same round and,
unless that is the current block, not to the first one of the round. -/
def AckSafe (s : Tftp) (n : Nat) : Prop :=
  if s.putFinalBlockSent then IsFinalBlock file bs n
  else n = s.position ∨ (n + 1) / TFTP_SEQUENCE_SIZE = s.position / TFTP_SEQUENCE_SIZE ∧
      ((n + 1) % TFTP_SEQUENCE_SIZE ≠ 0 ∨ n + 1 = s.position)

instance (s : Tftp) (n : Nat) : Decidable (AckSafe file bs s n) :=
  inferInstanceAs (Decidable (if s.putFinalBlockSent then IsFinalBlock file bs n
    else n = s.position ∨ (n + 1) / TFTP_SEQUENCE_SIZE = s.position / TFTP_SEQUENCE_SIZE ∧
        ((n + 1) % TFTP_SEQUENCE_SIZE ≠ 0 ∨ n + 1 = s.position)))

def AllAcks (P : Tftp → Nat → Prop) (s : Tftp) : List PutEvent → Prop
  | [] => True
  | .ack n stale :: rest =>
    P s n ∧ AllAcks P (s.step config (.packet (.ack config.port tid n stale))) rest
  | .timeout :: rest => AllAcks P (s.step config .timeout) rest

instance AllAcks.decidable (P : Tftp → Nat → Prop) [∀ s n, Decidable (P s n)] (s : Tftp)
    (events : List PutEvent) : Decidable (AllAcks config tid P s events) :=
  match events with
  | [] => isTrue trivial
  | .ack n stale :: rest =>
    have := AllAcks.decidable P (s.step config (.packet (.ack config.port tid n stale))) rest
    inferInstanceAs (Decidable (P s n ∧
      AllAcks config tid P (s.step config (.packet (.ack config.port tid n stale))) rest))
  | .timeout :: rest => AllAcks.decidable P (s.step config .timeout) rest

/-- The block that is acknowledged.  The acknowledgement of the last block moves nothing. -/
def acknowledged (m : Nat) : PutEvent → Nat
  | .ack n _ => if IsFinalBlock file bs n then m else n
  | .timeout => m

/-- From one state to another no data is sent but the block with this number. -/
def SendsOnly (n : Nat) (s t : Tftp) : Prop :=
  ∃ new, t.sent = s.sent ++ new ∧
    ∀ packet ∈ new, packet.isData = true → HasBlock file bs n ∧ packet = dataPacket file bs n

/-- Every event sends at most the block behind the one that is acknowledged. -/
def SendsBehind (s : Tftp) (m : Nat) : List PutEvent → Prop
  | [] => True
  | event :: rest =>
    SendsOnly file bs (acknowledged file bs m event + 1) s
        (s.step config (event.event config tid)) ∧
      SendsBehind (s.step config (event.event config tid)) (acknowledged file bs m event) rest

/-- The current block is the one behind an acknowledged block. -/
def Behind (m : Nat) (s : Tftp) : Prop := s.tftpState = STATE_DATA → s.position = m + 1

structure Sending (s : Tftp) : Prop where
  writing : s.putActive = true
  port : s.ourPort = config.port
  blockSize : s.blockSize = bs
  small : bs < 2 ^ 16
  size : s.netBootFileSize = file.length
  image : s.memory.wrapRead config.ulong config.imageSaveAddr file.length = file
  curBlock : s.curBlock < TFTP_SEQUENCE_SIZE
  blockWrapOffset : s.blockWrapOffset = s.blockWrap * (TFTP_SEQUENCE_SIZE * bs) % config.ulong
  phase : s.position = 0 ∧ s.tftpState = STATE_SEND_WRQ ∧
      (∀ packet ∈ s.sent, packet.isData = false) ∨
    HasBlock file bs s.position ∧ s.tftpState = STATE_DATA ∧ s.remotePort = tid
  final : s.putFinalBlockSent = true → IsFinalBlock file bs s.position
  full : s.putFinalBlockSent = false → ∀ number bytes, .data number bytes ∈ s.sent →
    bytes.length = bs

end

section

variable {config : TftpConfig} {tid : Nat} {file : List UInt8} {bs : Nat} {s : Tftp}

/-! ## Sending a block -/

theorem position_mod (inRange : s.curBlock < TFTP_SEQUENCE_SIZE) :
    s.position % TFTP_SEQUENCE_SIZE = s.curBlock := by
  unfold position
  rw [mul_add_mod_self_right, mod_eq_of_lt inRange]

theorem position_div (inRange : s.curBlock < TFTP_SEQUENCE_SIZE) :
    s.position / TFTP_SEQUENCE_SIZE = s.blockWrap := by
  unfold position TFTP_SEQUENCE_SIZE at *
  omega

variable {n size : Nat}

theorem wrapRead_add {a o k : Nat} {m : Memory} (inside : o + n ≤ k) :
    wrapRead size m (a + o) n = ((wrapRead size m a k).drop o).take n := by
  apply ext_getElem
  · simp only [length_wrapRead, length_take, length_drop]
    omega
  · intro i left right
    rw [getElem_wrapRead, getElem_take, getElem_drop, getElem_wrapRead, add_assoc]

theorem sendsOnly_of_sent {t : Tftp} (same : t.sent = s.sent) : SendsOnly file bs n s t :=
  ⟨[], by simp [same], by simp⟩

theorem mem_emit {packet other : TftpPacket} :
    other ∈ (s.emit packet).sent ↔ other ∈ s.sent ∨ other = packet := by simp [emit]

theorem tftpHandler_ack {stale : List UInt8} (ourPort : s.ourPort = config.port)
    (fromServer : s.tftpState = STATE_SEND_WRQ ∨ s.remotePort = tid) :
    s.tftpHandler config (.ack config.port tid n stale) =
      s.handleAck config tid (UInt8.ofNat (n / 256) :: UInt8.ofNat n :: stale) := by
  rw [tftpHandler_eq_dispatch config ourPort.symm]
  · simp only [dispatch, TftpDatagram.ack, drop_succ_cons, drop_zero]
    rw [if_pos (by simp [ntohsAt, TFTP_ACK])]
  · rcases fromServer with writing | samePort
    · exact .inr (.inl writing)
    · exact .inr (.inr samePort.symm)
  · simp [TftpDatagram.ack]

theorem moveBlock_frame (config : TftpConfig) (s : Tftp) (block : Nat) :
    (s.moveBlock config block).netState = s.netState ∧
      (s.moveBlock config block).sent = s.sent := by
  unfold moveBlock updateBlockNumber
  split <;> exact ⟨rfl, rfl⟩

theorem connect_frame (s : Tftp) (src block : Nat) :
    (s.connect src block).netState = s.netState ∧ (s.connect src block).sent = s.sent ∧
      (s.connect src block).position = s.position := by
  unfold connect
  split <;> exact ⟨rfl, rfl, rfl⟩

section Sending

variable (sending : Sending config tid file bs s)

include sending

theorem Sending.fromServer : s.tftpState = STATE_SEND_WRQ ∨ s.remotePort = tid := by
  rcases sending.phase with ⟨-, request, -⟩ | ⟨-, -, remote⟩
  · exact .inl request
  · exact .inr remote

theorem Sending.noData (request : s.tftpState = STATE_SEND_WRQ) :
    ∀ packet ∈ s.sent, packet.isData = false := by
  rcases sending.phase with ⟨-, -, noData⟩ | ⟨-, data, -⟩
  · exact noData
  · rw [request] at data
    cases data

section Unfinished

variable (unfinished : s.putFinalBlockSent = false)

include unfinished

theorem Sending.hasBlock_succ (acknowledgeable : Acknowledgeable file bs s n) :
    HasBlock file bs (n + 1) := by
  constructor
  · exact succ_pos _
  rw [Nat.add_sub_cancel]
  rcases acknowledgeable with rfl | isSent
  · simp
  have full := sending.full unfinished _ _ isSent
  rw [length_fileBlock] at full
  cases n with
  | zero => simp
  | succ n =>
    rw [succ_mul]
    rcases Nat.eq_zero_or_pos bs with rfl | positive
    · simp
    · rw [Nat.add_sub_cancel] at full
      omega

theorem Sending.moveTo {count previous remote : Nat} {phase : TftpPhase}
    (has : HasBlock file bs (n + 1)) (isData : phase = STATE_DATA)
    (isRemote : remote = tid) :
    Sending config tid file bs
      { s with
        timeoutCount := count
        prevBlock := previous
        curBlock := (n + 1) % TFTP_SEQUENCE_SIZE
        blockWrap := (n + 1) / TFTP_SEQUENCE_SIZE
        blockWrapOffset := (n + 1) / TFTP_SEQUENCE_SIZE * (TFTP_SEQUENCE_SIZE * bs) % config.ulong
        tftpState := phase
        remotePort := remote } := by
  have there : (n + 1) / TFTP_SEQUENCE_SIZE * TFTP_SEQUENCE_SIZE +
      (n + 1) % TFTP_SEQUENCE_SIZE = n + 1 := div_add_mod' _ _
  exact
    { sending with
      curBlock := mod_lt _ (by decide)
      blockWrapOffset := rfl
      phase := by
        right
        simp only [position, there]
        exact ⟨has, isData, isRemote⟩
      final := fun finished => by simp [unfinished] at finished }

end Unfinished

variable (short : file.length < 2 ^ 32)

include short

section Has

variable (has : HasBlock file bs s.position)

include has

theorem Sending.loadOffset : s.loadOffset config (s.curBlock % 2 ^ 32) = (s.position - 1) * bs := by
  have inRange := sending.curBlock
  have small := sending.small
  have word := config.ulong_ge
  have inFile := has.2
  obtain ⟨n, position⟩ : ∃ n, s.position = n + 1 := ⟨s.position - 1, by have := has.1; omega⟩
  have number := position_mod inRange
  have round := position_div inRange
  rw [position] at number round inFile ⊢
  have product : s.curBlock * bs < 2 ^ 32 := by
    have bounded : s.curBlock * bs ≤ 65535 * 65535 := by
      apply Nat.mul_le_mul
      · unfold TFTP_SEQUENCE_SIZE at inRange
        omega
      · omega
    omega
  unfold Tftp.loadOffset
  rw [sending.blockSize, sending.blockWrapOffset, ← round, ← number]
  rw [Nat.add_sub_cancel] at inFile ⊢
  rw [← number] at product
  have noWrap : (n + 1) % TFTP_SEQUENCE_SIZE % 2 ^ 32 = (n + 1) % TFTP_SEQUENCE_SIZE := by
    unfold TFTP_SEQUENCE_SIZE
    omega
  rw [noWrap, mod_eq_of_lt product]
  exact offset_of_wrapped (by omega)

theorem Sending.loadBlock :
    s.loadBlock config (s.curBlock % 2 ^ 32) s.blockSize = fileBlock file bs s.position := by
  have word := config.ulong_ge
  have inFile := has.2
  unfold Tftp.loadBlock
  rw [sending.loadOffset short has, sending.blockSize, sending.size]
  have left : ((file.length : Int) - ((s.position - 1) * bs : Nat)) % config.ulong =
      (file.length - (s.position - 1) * bs : Nat) := by
    rw [Int.emod_eq_of_lt (by omega) (by omega)]
    omega
  dsimp only
  rw [left, Int.toNat_natCast, wrapRead_add (k := file.length) (by omega), sending.image, fileBlock]
  rcases le_total (file.length - (s.position - 1) * bs) bs with lastOne | more
  · rw [min_eq_left lastOne, take_of_length_le (by simp), take_of_length_le
      (by simpa using lastOne)]
  · rw [min_eq_right more]

theorem Sending.sendCurrent_eq :
    s.sendCurrent config = { s.emit (dataPacket file bs s.position) with
      putFinalBlockSent := decide (IsFinalBlock file bs s.position) } := by
  have number : s.curBlock % 2 ^ 16 = s.position % 2 ^ 16 := by
    rw [← position_mod sending.curBlock]
    exact mod_mod _ _
  have last : ((fileBlock file bs s.position).length < s.blockSize) ↔
      IsFinalBlock file bs s.position := by
    rw [sending.blockSize]
    exact length_fileBlock_lt_iff has
  unfold sendCurrent
  rw [if_pos sending.writing, sending.loadBlock short has, number]
  simp only [last]
  rfl

end Has

theorem Sending.tftpSend :
    Sending config tid file bs (s.tftpSend config) ∧ (s.tftpSend config).netState = s.netState := by
  unfold Tftp.tftpSend
  rcases sending.phase with ⟨none, request, noData⟩ | ⟨has, data, remote⟩
  · rw [request]
    have noDataAfter : ∀ packet ∈ (s.sendRequest config).sent, packet.isData = false := by
      intro packet isSent
      rcases mem_emit.1 isSent with before | rfl
      · exact noData packet before
      · rfl
    refine ⟨?_, rfl⟩
    exact
      { sending with
        phase := .inl ⟨none, request, noDataAfter⟩
        full := fun _ number bytes isSent => nomatch noDataAfter _ isSent }
  rw [data]
  rw [sending.sendCurrent_eq short has]
  refine ⟨?_, rfl⟩
  exact
    { sending with
      phase := .inr ⟨has, data, remote⟩
      final := of_decide_eq_true
      full := by
        intro notFinal number bytes isSent
        have notLast := of_decide_eq_false notFinal
        rcases mem_emit.1 isSent with before | now
        · by_cases finished : s.putFinalBlockSent
          · exact absurd (sending.final finished) notLast
          · exact sending.full (by simpa using finished) number bytes before
        cases now
        have notShort := (length_fileBlock_lt_iff has).not.2 notLast
        have bounded := length_fileBlock_le file bs s.position
        omega }

theorem Sending.tftpSend_sends {m : Nat} (behind : Behind m s) :
    SendsOnly file bs (m + 1) s (s.tftpSend config) ∧ Behind m (s.tftpSend config) := by
  unfold Tftp.tftpSend
  rcases sending.phase with ⟨-, request, -⟩ | ⟨has, data, -⟩
  · rw [request]
    refine ⟨⟨[_], rfl, by simp [TftpPacket.isData]⟩, fun impossible => ?_⟩
    cases request.symm.trans impossible
  · rw [data, sending.sendCurrent_eq short has, behind data]
    rw [behind data] at has
    refine ⟨⟨[dataPacket file bs (m + 1)], rfl, ?_⟩, fun _ => behind data⟩
    intro packet isNew _
    exact ⟨has, eq_of_mem_singleton isNew⟩

theorem Sending.timeout {m : Nat} (behind : Behind m s) :
    SendsOnly file bs (m + 1) s (s.tftpTimeoutHandler config) ∧
      ((Sending config tid file bs (s.tftpTimeoutHandler config) ∧
          Behind m (s.tftpTimeoutHandler config) ∧
          (s.tftpTimeoutHandler config).netState = s.netState) ∨
        (s.tftpTimeoutHandler config).netState = NETLOOP_FAIL ∨
          (s.tftpTimeoutHandler config).netState = NETLOOP_RESTART) := by
  unfold tftpTimeoutHandler
  have counted : Sending config tid file bs { s with timeoutCount := s.timeoutCount + 1 } :=
    { sending with }
  dsimp only
  split
  · exact ⟨sendsOnly_of_sent rfl, .inr (netStartAgain_netState config _)⟩
  · split
    · obtain ⟨sends, behind'⟩ := counted.tftpSend_sends short behind
      obtain ⟨after, same⟩ := counted.tftpSend short
      exact ⟨sends, .inl ⟨after, behind', same⟩⟩
    · exact ⟨sendsOnly_of_sent rfl, .inl ⟨counted, behind, rfl⟩⟩

/-! ## Acknowledgements -/

variable (positive : 0 < bs) (acknowledgeable : Acknowledgeable file bs s n)
  (safe : AckSafe file bs s n)

include positive acknowledgeable safe

/-- A safe acknowledgement leads to the block behind the one it is for, in the right round. -/
theorem Sending.moveBlock_eq (unfinished : s.putFinalBlockSent = false) :
    ∃ count, s.moveBlock config (n % 2 ^ 16) = { s with
        timeoutCount := count
        prevBlock := s.curBlock
        curBlock := (n + 1) % TFTP_SEQUENCE_SIZE
        blockWrap := (n + 1) / TFTP_SEQUENCE_SIZE
        blockWrapOffset :=
          (n + 1) / TFTP_SEQUENCE_SIZE * (TFTP_SEQUENCE_SIZE * bs) % config.ulong } := by
  have word := config.ulong_ge
  have has := sending.hasBlock_succ unfinished acknowledgeable
  have bounded : n < 2 ^ 32 := by
    have inFile := has.2
    rw [Nat.add_sub_cancel] at inFile
    have atLeast : n * 1 ≤ n * bs := mul_le_mul_left _ positive
    omega
  have number : (n % 2 ^ 16 + 1) % 2 ^ 16 = (n + 1) % TFTP_SEQUENCE_SIZE := by
    unfold TFTP_SEQUENCE_SIZE
    omega
  have inRange := sending.curBlock
  have round := position_div inRange
  have current := position_mod inRange
  unfold AckSafe at safe
  rw [unfinished, if_neg Bool.false_ne_true] at safe
  unfold moveBlock updateBlockNumber
  rw [number]
  dsimp only
  rw [sending.blockWrapOffset, sending.blockSize]
  split
  · next wraps =>
    have nextRound : (n + 1) / TFTP_SEQUENCE_SIZE = s.blockWrap + 1 := by
      unfold TFTP_SEQUENCE_SIZE at *
      omega
    have noWrap : (s.blockWrap + 1) % config.ulong = s.blockWrap + 1 := by
      apply mod_eq_of_lt
      rw [← nextRound]
      unfold TFTP_SEQUENCE_SIZE
      omega
    refine ⟨0, ?_⟩
    rw [nextRound, noWrap, mod_add_mod, add_mul, one_mul, mul_comm bs]
  · next stays =>
    have sameRound : (n + 1) / TFTP_SEQUENCE_SIZE = s.blockWrap := by
      unfold TFTP_SEQUENCE_SIZE at *
      omega
    refine ⟨s.timeoutCount, ?_⟩
    rw [sameRound, ← sending.blockWrapOffset]

theorem Sending.moveBlock_position (unfinished : s.putFinalBlockSent = false) :
    (s.moveBlock config (n % 2 ^ 16)).position = n + 1 := by
  obtain ⟨count, moved⟩ := sending.moveBlock_eq short positive acknowledgeable safe unfinished
  rw [moved]
  exact div_add_mod' _ _

theorem Sending.moveBlock (unfinished : s.putFinalBlockSent = false) :
    (s.curBlock ≠ n % 2 ^ 16 → Sending config tid file bs (s.moveBlock config (n % 2 ^ 16))) ∧
      Sending config tid file bs ((s.moveBlock config (n % 2 ^ 16)).connect tid (n % 2 ^ 16)) := by
  have has := sending.hasBlock_succ unfinished acknowledgeable
  obtain ⟨count, moved⟩ := sending.moveBlock_eq short positive acknowledgeable safe unfinished
  rw [moved]
  unfold connect
  rcases sending.phase with ⟨none, request, noData⟩ | ⟨-, data, remote⟩
  · have first : n = 0 := acknowledgeable.resolve_right fun isSent =>
      nomatch noData _ isSent
    subst first
    have start : s.curBlock = 0 := (Nat.add_eq_zero_iff.1 none).2
    rw [if_pos ⟨rfl, request⟩]
    exact ⟨fun other => absurd start other, sending.moveTo unfinished has rfl rfl⟩
  · have connected : ¬(n % 2 ^ 16 = 0 ∧ s.tftpState = STATE_SEND_WRQ) := by simp [data]
    rw [if_neg connected]
    exact ⟨fun _ => sending.moveTo unfinished has data remote,
      sending.moveTo unfinished has data remote⟩

/-- A safe acknowledgement keeps the globals of the transfer, sends at most the block behind
the one it is for, and completes the transfer only when it is for the last block. -/
theorem Sending.ack {m : Nat} (behind : Behind m s) (stale : List UInt8) :
    let after := s.tftpHandler config (.ack config.port tid n stale)
    let m' := acknowledged file bs m (.ack n stale)
    SendsOnly file bs (m' + 1) s after ∧ Sending config tid file bs after ∧ Behind m' after ∧
      (after.netState = s.netState ∨
        IsFinalBlock file bs n ∧ after.netState = NETLOOP_SUCCESS) := by
  rw [tftpHandler_ack sending.port sending.fromServer]
  unfold handleAck
  rw [if_pos sending.writing, ntohsAt_number]
  have reset : Sending config tid file bs { s with timeoutCount := 0 } := { sending with }
  have sameNet : ({ s with timeoutCount := 0 } : Tftp).netState = s.netState := rfl
  have sameSent : ({ s with timeoutCount := 0 } : Tftp).sent = s.sent := rfl
  have sameBehind : Behind m ({ s with timeoutCount := 0 } : Tftp) := behind
  have sameAck : Acknowledgeable file bs { s with timeoutCount := 0 } n := acknowledgeable
  have sameSafe : AckSafe file bs { s with timeoutCount := 0 } n := safe
  generalize ({ s with timeoutCount := 0 } : Tftp) = t at *
  rw [← sameNet]
  unfold acknowledged
  by_cases finished : t.putFinalBlockSent
  · have last : IsFinalBlock file bs n := by
      unfold AckSafe at sameSafe
      rwa [if_pos finished] at sameSafe
    simp only [finished, if_true, if_pos last]
    exact ⟨sendsOnly_of_sent sameSent, { reset with }, sameBehind, .inr ⟨last, rfl⟩⟩
  have unfinished : t.putFinalBlockSent = false := by simpa using finished
  have notLast : ¬IsFinalBlock file bs n := fun last => by
    have more := (reset.hasBlock_succ unfinished sameAck).2
    have ended := last.2
    rw [Nat.add_sub_cancel] at more
    omega
  obtain ⟨moved, connected⟩ := reset.moveBlock short positive sameAck sameSafe unfinished
  have place := reset.moveBlock_position short positive sameAck sameSafe unfinished
  obtain ⟨movedNet, movedSent⟩ := moveBlock_frame config t (n % 2 ^ 16)
  obtain ⟨connectedNet, connectedSent, connectedPlace⟩ :=
    connect_frame (t.moveBlock config (n % 2 ^ 16)) tid (n % 2 ^ 16)
  simp only [unfinished, Bool.false_eq_true, if_false, if_neg notLast]
  split
  · have again : Sending config tid file bs
        { (t.moveBlock config (n % 2 ^ 16)).connect tid (n % 2 ^ 16) with timeoutCount := 0 } :=
      { connected with }
    obtain ⟨after, same⟩ := again.tftpSend short
    obtain ⟨⟨new, sends, only⟩, behind'⟩ := again.tftpSend_sends short fun _ =>
      connectedPlace.trans place
    refine ⟨⟨new, sends.trans ?_, only⟩, after, behind', .inl (same.trans
      (connectedNet.trans movedNet))⟩
    rw [← sameSent, ← movedSent, ← connectedSent]
  · next other =>
    exact ⟨sendsOnly_of_sent (movedSent.trans sameSent), moved other, fun _ => place, .inl movedNet⟩

end Sending

/-! ## Runs -/

def PutProgress (config : TftpConfig) (tid : Nat) (file : List UInt8) (bs m : Nat) (s : Tftp) :
    Prop :=
  (s.netState = NETLOOP_CONTINUE ∨ s.netState = NETLOOP_SUCCESS) ∧
      Sending config tid file bs s ∧ Behind m s ∨
    s.netState = NETLOOP_FAIL ∨ s.netState = NETLOOP_RESTART

section Progress

variable {m : Nat} (progress : PutProgress config tid file bs m s) (short : file.length < 2 ^ 32)

include progress short

theorem PutProgress.timeout : SendsOnly file bs (m + 1) s (s.step config .timeout) ∧
      PutProgress config tid file bs m (s.step config .timeout) ∧
      ((s.step config .timeout).netState = NETLOOP_SUCCESS → s.netState = NETLOOP_SUCCESS) := by
  rcases progress with ⟨goesOn, sending, behind⟩ | stopped
  · rw [step_of_running config goesOn, handle]
    obtain ⟨sends, ⟨after, behind', same⟩ | stopped⟩ := sending.timeout short behind
    · refine ⟨sends, .inl ⟨?_, after, behind'⟩, same.symm.trans⟩
      rw [same]
      exact goesOn
    refine ⟨sends, .inr stopped, ?_⟩
    intro success
    rw [success] at stopped
    rcases stopped with h | h <;> cases h
  · rw [step_of_stopped config stopped]
    exact ⟨sendsOnly_of_sent rfl, .inr stopped, id⟩

theorem PutProgress.ack (positive : 0 < bs) {n : Nat}
    (acknowledgeable : Acknowledgeable file bs s n) (safe : AckSafe file bs s n)
    (stale : List UInt8) : let after := s.step config (.packet (.ack config.port tid n stale))
    let m' := acknowledged file bs m (.ack n stale)
    SendsOnly file bs (m' + 1) s after ∧ PutProgress config tid file bs m' after ∧
      (after.netState = NETLOOP_SUCCESS →
        s.netState = NETLOOP_SUCCESS ∨ IsFinalBlock file bs n) := by
  rcases progress with ⟨goesOn, sending, behind⟩ | stopped
  · rw [step_of_running config goesOn, handle]
    obtain ⟨sends, after, behind', same | ⟨final, success⟩⟩ :=
      sending.ack short positive acknowledgeable safe behind stale
    · refine ⟨sends, .inl ⟨?_, after, behind'⟩, fun success => .inl (same.symm.trans success)⟩
      rw [same]
      exact goesOn
    · exact ⟨sends, .inl ⟨.inr success, after, behind'⟩, fun _ => .inr final⟩
  · rw [step_of_stopped config stopped]
    exact ⟨sendsOnly_of_sent rfl, .inr stopped, .inl⟩

theorem PutProgress.run {events : List PutEvent} (positive : 0 < bs)
    (honest : AllAcks config tid (Acknowledgeable file bs) s events)
    (safe : AllAcks config tid (AckSafe file bs) s events) :
    SendsBehind config tid file bs s m events ∧
      ((s.run config (events.map (PutEvent.event config tid))).netState = NETLOOP_SUCCESS →
        s.netState = NETLOOP_SUCCESS ∨
          ∃ n stale, .ack n stale ∈ events ∧ IsFinalBlock file bs n) := by
  induction events generalizing s m with
  | nil => exact ⟨trivial, .inl⟩
  | cons event events ih =>
    cases event with
    | timeout =>
      obtain ⟨sends, next, completes⟩ := progress.timeout short
      obtain ⟨after, completesLater⟩ := ih next honest safe
      refine ⟨⟨sends, after⟩, ?_⟩
      intro success
      rcases completesLater success with before | ⟨n, stale, isEvent, final⟩
      · exact .inl (completes before)
      · exact .inr ⟨n, stale, mem_cons_of_mem _ isEvent, final⟩
    | ack n stale =>
      obtain ⟨sends, next, completes⟩ := progress.ack short positive honest.1 safe.1 stale
      obtain ⟨after, completesLater⟩ := ih next honest.2 safe.2
      refine ⟨⟨sends, after⟩, ?_⟩
      intro success
      rcases completesLater success with before | ⟨k, rest, isEvent, final⟩
      · rcases completes before with earlier | final
        · exact .inl earlier
        · exact .inr ⟨n, stale, mem_cons_self, final⟩
      · exact .inr ⟨k, rest, mem_cons_of_mem _ isEvent, final⟩

end Progress

/-! ## The request -/

def Requesting (config : TftpConfig) (tid : Nat) (file : List UInt8) (s : Tftp) : Prop :=
  (s.netState = NETLOOP_CONTINUE ∧ s.tftpState = STATE_SEND_WRQ ∧
      Sending config tid file s.blockSize s) ∨
    (s.netState = NETLOOP_FAIL ∨ s.netState = NETLOOP_RESTART) ∧
      ∀ packet ∈ s.sent, packet.isData = false

theorem netLoopStart_requesting (tid : Nat)
    (image : s.memory.wrapRead config.ulong config.imageSaveAddr file.length = file)
    (size : config.imageSaveSize = file.length) (short : file.length < 2 ^ 32) :
    Requesting config tid file (s.netLoopStart config true) := by
  have noData : ∀ packet ∈ (s.netLoopStart config true).sent, packet.isData = false := by
    simp [netLoopStart, tftpStart, newTransfer, tftpSend, sendRequest, emit, TftpPacket.isData]
  refine .inl ⟨rfl, rfl, ?_⟩
  exact
    { writing := rfl
      port := rfl
      blockSize := rfl
      small := show TFTP_BLOCK_SIZE < 2 ^ 16 by decide
      size := by
        change config.imageSaveSize % 2 ^ 32 = file.length
        rw [size, mod_eq_of_lt short]
      image := image
      curBlock := show 0 < TFTP_SEQUENCE_SIZE by decide
      blockWrapOffset := by
        change 0 = 0 * (TFTP_SEQUENCE_SIZE * _) % config.ulong
        simp
      phase := by
        refine .inl ⟨?_, rfl, noData⟩
        change 0 * TFTP_SEQUENCE_SIZE + 0 = 0
        simp
      final := fun finished => by cases finished
      full := fun _ number bytes isSent => nomatch noData _ isSent }

/-- The transfer goes on or has stopped, and no data was sent but the first block. -/
def BegunPut (config : TftpConfig) (tid : Nat) (file : List UInt8) (bs : Nat) (s : Tftp) : Prop :=
  PutProgress config tid file bs 0 s ∧ s.netState ≠ NETLOOP_SUCCESS ∧
    ∀ packet ∈ s.sent, packet.isData = true → packet = dataPacket file bs 1

theorem BegunPut.sized (sized : s.blockSize = bs) (begun : BegunPut config tid file bs s) :
    BegunPut config tid file s.blockSize s := by
  rwa [sized]

theorem first_of_noData (noData : ∀ packet ∈ s.sent, packet.isData = false) :
    ∀ packet ∈ s.sent, packet.isData = true → packet = dataPacket file bs 1 :=
  fun packet isSent isData => by simp [noData packet isSent] at isData

theorem first_of_sendsOnly {t : Tftp} (noData : ∀ packet ∈ s.sent, packet.isData = false)
    (sends : SendsOnly file bs 1 s t) :
    ∀ packet ∈ t.sent, packet.isData = true → packet = dataPacket file bs 1 := by
  obtain ⟨new, isSent, only⟩ := sends
  rw [isSent]
  intro packet either isData
  rcases mem_append.1 either with before | now
  · exact first_of_noData noData packet before isData
  · exact (only packet now isData).2

theorem Requesting.begun (requesting : Requesting config tid file s) :
    BegunPut config tid file s.blockSize s := by
  rcases requesting with ⟨continues, request, sending⟩ | ⟨stopped, noData⟩
  · refine ⟨.inl ⟨.inl continues, sending, fun data => ?_⟩, ?_,
      first_of_noData (sending.noData request)⟩
    · cases request.symm.trans data
    · rw [continues]
      decide
  · refine ⟨.inr stopped, ?_, first_of_noData noData⟩
    rcases stopped with h | h <;> simp [h]

theorem Requesting.timeout (requesting : Requesting config tid file s)
    (short : file.length < 2 ^ 32) :
    Requesting config tid file (s.step config .timeout) := by
  rcases requesting with ⟨continues, request, sending⟩ | ⟨stopped, noData⟩
  · have noData := sending.noData request
    have counted : Sending config tid file s.blockSize
        { s with timeoutCount := s.timeoutCount + 1 } := { sending with }
    obtain ⟨after, sameNet⟩ := counted.tftpSend short
    rw [step_of_running config (.inl continues), handle, tftpTimeoutHandler]
    split
    · exact .inr ⟨netStartAgain_netState config _, noData⟩
    left
    rw [if_pos (by simp [request])]
    have sized := after.blockSize
    refine ⟨sameNet.trans continues, ?_, ?_⟩
    · simp only [tftpSend, request, sendRequest, emit]
    · rw [sized]
      exact after
  · rw [step_of_stopped config stopped]
    exact .inr ⟨stopped, noData⟩

/-- The client that begins with its first block, in blocks of the size it was given. -/
theorem Sending.beginPut (sending : Sending config tid file size s)
    (request : s.tftpState = STATE_SEND_WRQ) {blockSize : Nat} (small : blockSize < 2 ^ 16)
    (windowsize nextAck : Nat) :
    let begun := beginPut config
        { s with
          tftpState := STATE_OACK
          remotePort := tid
          blockSize := blockSize
          windowsize := windowsize
          nextAck := nextAck }
    Sending config tid file blockSize begun ∧ Behind 0 begun ∧ begun.netState = s.netState ∧
      begun.sent = s.sent := by
  have word := config.ulong_ge
  unfold Tftp.beginPut
  split
  · rcases sending.phase with ⟨none, -, noData⟩ | ⟨-, data, -⟩
    · obtain ⟨noRound, start⟩ := Nat.add_eq_zero_iff.1 none
      have noWrap : s.blockWrap = 0 := by
        rcases Nat.mul_eq_zero.1 noRound with h | h
        · exact h
        · cases h
      have offset := sending.blockWrapOffset
      have one : (0 + 1) % config.ulong = 1 := mod_eq_of_lt (by omega)
      have unfinished : s.putFinalBlockSent = false := by
        by_contra finished
        have final := sending.final (by simpa using finished)
        rw [none] at final
        exact absurd final.1.1 (lt_irrefl 0)
      have place : s.blockWrap * TFTP_SEQUENCE_SIZE + (s.curBlock + 1) % config.ulong = 1 := by
        simp only [noWrap, start, one, zero_mul, zero_add]
      refine ⟨?_, fun _ => place, rfl, rfl⟩
      exact
        { sending with
          blockSize := rfl
          small := small
          curBlock := by
            simp only [start, one]
            decide
          blockWrapOffset := by simp [offset, noWrap]
          phase := by
            right
            simp only [position, noWrap, start, one, zero_mul, zero_add]
            exact ⟨⟨by decide, by simp⟩, trivial, trivial⟩
          final := fun finished => by simp [unfinished] at finished
          full := fun _ number bytes isSent => nomatch noData _ isSent }
    · rw [request] at data
      cases data
  · next idle => exact absurd ⟨sending.writing, rfl⟩ idle

/-- The server's acceptance of options is answered with the first block, or refused. -/
theorem Sending.handleOack (sending : Sending config tid file size s)
    (continues : s.netState = NETLOOP_CONTINUE) (request : s.tftpState = STATE_SEND_WRQ)
    (short : file.length < 2 ^ 32) (pkt : List UInt8) (len : Nat) :
    BegunPut config tid file (s.handleOack config tid pkt len).blockSize
      (s.handleOack config tid pkt len) := by
  have noData := sending.noData request
  unfold Tftp.handleOack
  obtain ⟨blockSize, phase, windowsize, read, allowed, bounded⟩ := foldl_readOptions_eq config pkt
    (range (len - 8)) { s with tftpState := STATE_OACK, remotePort := tid }
  have small : blockSize < 2 ^ 16 := by
    apply bounded
    rw [sending.blockSize]
    exact sending.small
  rw [read]
  rcases allowed with rfl | rfl
  · obtain ⟨begins, behind, sameNet, sameSent⟩ :=
      sending.beginPut request small windowsize windowsize
    obtain ⟨after, sameAfter⟩ := begins.tftpSend short
    obtain ⟨sends, behind'⟩ := begins.tftpSend_sends short behind
    have runs := sameAfter.trans (sameNet.trans continues)
    refine BegunPut.sized after.blockSize ⟨.inl ⟨.inl runs, after, behind'⟩, ?_, ?_⟩
    · intro success
      cases runs.symm.trans success
    · exact first_of_sendsOnly (fun packet isSent => noData packet (sameSent ▸ isSent)) sends
  · unfold Tftp.beginPut
    split
    · next accepted => cases accepted.2
    refine ⟨.inr (.inl rfl), nofun, first_of_noData ?_⟩
    intro packet isSent
    rcases mem_emit.1 isSent with before | rfl
    · exact noData packet before
    · rfl

theorem Requesting.oack (requesting : Requesting config tid file s) (short : file.length < 2 ^ 32)
    {d : TftpDatagram} (opcode : ntohsAt d.buffer 0 = TFTP_OACK) (fromServer : d.src = tid) :
    BegunPut config tid file (s.step config (.packet d)).blockSize
      (s.step config (.packet d)) := by
  have begun := requesting.begun
  rcases requesting with ⟨continues, request, sending⟩ | ⟨stopped, -⟩
  · rw [step_of_running config (.inl continues)]
    simp only [handle, tftpHandler, dispatch_oack config opcode]
    split
    · exact begun
    split
    · exact begun
    split
    · exact begun
    subst fromServer
    exact sending.handleOack continues request short (d.buffer.drop 2) (d.len - 2)
  · rw [step_of_stopped config stopped]
    exact begun

theorem Requesting.waits (requesting : Requesting config tid file s) (short : file.length < 2 ^ 32)
    (waits : Nat) :
    Requesting config tid file (s.run config (replicate waits .timeout)) := by
  induction waits generalizing s with
  | zero => exact requesting
  | succ _ ih => exact ih (requesting.timeout short)

end

/-! ## The transfer -/

/-- The events before the first acknowledgement of a block: timeouts, and the server's
acceptance of options, if it accepts any. -/
def requestEvents (waits : Nat) (oack : Option TftpDatagram) : List Event :=
  replicate waits .timeout ++ (oack.map Event.packet).toList

/-- With acknowledgements of an honest server that are all safe, every packet with data
carries the block behind the one that is acknowledged, and the transfer completes only after
the acknowledgement of the last block. -/
theorem put_sends_file (config : TftpConfig) (s : Tftp) (tid : Nat) (file : List UInt8)
    (bs waits : Nat) (oack : Option TftpDatagram) (events : List PutEvent)
    (image : s.memory.wrapRead config.ulong config.imageSaveAddr file.length = file)
    (size : config.imageSaveSize = file.length) (short : file.length < 2 ^ 32)
    (negotiates : ∀ d ∈ oack, d.src = tid ∧ ntohsAt d.buffer 0 = TFTP_OACK)
    (negotiated :
      ((s.netLoopStart config true).run config (requestEvents waits oack)).blockSize = bs)
    (positive : 0 < bs)
    (honest : AllAcks config tid (Acknowledgeable file bs)
      ((s.netLoopStart config true).run config (requestEvents waits oack)) events)
    (safe : AllAcks config tid (AckSafe file bs)
      ((s.netLoopStart config true).run config (requestEvents waits oack)) events) :
    let begun := (s.netLoopStart config true).run config (requestEvents waits oack)
    (∀ packet ∈ begun.sent, packet.isData = true → packet = dataPacket file bs 1) ∧
      SendsBehind config tid file bs begun 0 events ∧
      ((begun.run config (events.map (PutEvent.event config tid))).netState = NETLOOP_SUCCESS →
        ∃ n stale, .ack n stale ∈ events ∧ IsFinalBlock file bs n) := by
  have requesting := (netLoopStart_requesting tid image size short).waits short waits
  have begun : BegunPut config tid file bs
      ((s.netLoopStart config true).run config (requestEvents waits oack)) := by
    rw [← negotiated]
    unfold requestEvents
    rw [run_append]
    cases oack with
    | none => exact requesting.begun
    | some d =>
      obtain ⟨fromServer, opcode⟩ := negotiates d rfl
      exact requesting.oack short opcode fromServer
  obtain ⟨progress, incomplete, first⟩ := begun
  obtain ⟨sends, completes⟩ := progress.run short positive honest safe
  exact ⟨first, sends, fun success => (completes success).resolve_left incomplete⟩

theorem put_sends_file_two_blocks : let file := replicate 700 (0 : UInt8)
    let events := [PutEvent.ack 0 [], .timeout, .ack 0 [], .ack 1 [], .ack 2 []]
    let begun := (powerOn.netLoopStart .wide true).run .wide (requestEvents 1 none)
    SendsBehind .wide 2000 file 512 begun 0 events ∧
      (begun.run .wide (events.map (PutEvent.event .wide 2000))).netState = NETLOOP_SUCCESS :=
  ⟨(put_sends_file .wide powerOn 2000 (replicate 700 0) 512 1 none
    [.ack 0 [], .timeout, .ack 0 [], .ack 1 [], .ack 2 []]
    (by decide +kernel) (by decide +kernel) (by decide +kernel) (by simp) (by decide +kernel)
    (by decide) (by decide +kernel) (by decide +kernel)).2.1, by decide +kernel⟩

/-- A repeated acknowledgement of the first block completes the transfer of two blocks. -/
theorem put_completes_without_final_ack :
    ∃ (config : TftpConfig) (s : Tftp) (tid : Nat) (file : List UInt8) (bs waits : Nat)
      (oack : Option TftpDatagram) (events : List PutEvent),
      s.memory.wrapRead config.ulong config.imageSaveAddr file.length = file ∧
      config.imageSaveSize = file.length ∧
      (∀ d ∈ oack, d.src = tid ∧ ntohsAt d.buffer 0 = TFTP_OACK) ∧
      ((s.netLoopStart config true).run config (requestEvents waits oack)).blockSize = bs ∧
      AllAcks config tid (Acknowledgeable file bs)
        ((s.netLoopStart config true).run config (requestEvents waits oack)) events ∧
      ((s.netLoopStart config true).run config
        (requestEvents waits oack ++ events.map (PutEvent.event config tid))).netState =
          NETLOOP_SUCCESS ∧
      ¬∃ n stale, .ack n stale ∈ events ∧ IsFinalBlock file bs n := by
  refine ⟨.wide, powerOn, 2000, replicate 700 0, 512, 0, none, [.ack 0 [], .ack 1 [], .ack 1 []],
    by decide +kernel, by decide +kernel, by simp, by decide +kernel, by decide +kernel,
    by decide +kernel, ?_⟩
  rintro ⟨n, stale, isEvent, final⟩
  have early : n < 2 := by
    simp only [mem_cons, PutEvent.ack.injEq, not_mem_nil, or_false] at isEvent
    omega
  have short := final.2
  rw [length_replicate] at short
  omega

end Tftp

end UBoot
