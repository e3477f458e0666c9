import UBoot.TcpHills

/-!
# The send window

How `tcp_rx_check_ack_num` of `tcp.c` keeps the window that the peer has advertised.
-/

namespace UBoot

open TcpState

/-- A segment: its positions, its window, and `snd_nxt` and the state of the stream when it
arrives, which other parts of the code change in between. -/
structure TcpAck where
  (seq ack : Int)
  (win nxt : BitVec 32)
  state : TcpState

/-- The fields of the stream that the send window depends on. -/
structure SendWindow where
  state : TcpState
  (sndUna sndWnd sndWl1 sndWl2 : BitVec 32)

namespace SendWindow

variable (s : SendWindow) (nxt seq ack win : BitVec 32) (g : TcpAck)

def setWindow : SendWindow := { s with sndWnd := win, sndWl1 := seq, sndWl2 := ack }

def updateUna : SendWindow :=
  if tcpSeqCmp s.sndUna ack < 0 then { s with sndUna := ack } else s

def updateWindow : SendWindow :=
  if tcpSeqCmp s.sndUna ack ≤ 0 ∧ (tcpSeqCmp s.sndWl1 seq < 0 ∨
      s.sndWl1 = seq ∧ tcpSeqCmp s.sndWl2 seq ≤ 0) then s.setWindow seq ack win
  else s

def finishState : SendWindow :=
  if s.sndUna = nxt then
    match s.state with
    | TCP_FIN_WAIT_1 => { s with state := TCP_FIN_WAIT_2 }
    | TCP_CLOSING => { s with state := TCP_CLOSED }
    | _ => s
  else s

/-- The case that the states from ESTABLISHED to CLOSING share. -/
def checkAckOpen : SendWindow :=
  if 0 < tcpSeqCmp ack nxt then s
  else ((s.updateUna ack).updateWindow seq ack win).finishState nxt

def tcpRxCheckAckNum : SendWindow :=
  match s.state with
  | TCP_SYN_RECEIVED =>
    if 0 ≤ tcpSeqCmp s.sndUna ack ∨ 0 < tcpSeqCmp ack nxt then s
    else ({ s with state := TCP_ESTABLISHED }.setWindow seq ack win).checkAckOpen nxt seq ack win
  | TCP_ESTABLISHED | TCP_FIN_WAIT_1 | TCP_FIN_WAIT_2 | TCP_CLOSE_WAIT | TCP_CLOSING =>
    s.checkAckOpen nxt seq ack win
  | TCP_LAST_ACK => if ack = nxt then { s with state := TCP_CLOSED } else s
  | TCP_CLOSED | TCP_SYN_SENT => s

def receive : SendWindow :=
  { s with state := g.state }.tcpRxCheckAckNum g.nxt (serial 32 g.seq) (serial 32 g.ack) g.win

def Along (p : SendWindow → TcpAck → Prop) : SendWindow → List TcpAck → Prop
  | _, [] => True
  | s, g :: gs => p s g ∧ Along p (s.receive g) gs

/-- The acknowledgement is acceptable to a connection that is established. -/
def Accepts : Prop :=
  g.state ∈ [TCP_ESTABLISHED, TCP_FIN_WAIT_1, TCP_FIN_WAIT_2, TCP_CLOSE_WAIT, TCP_CLOSING,
      TCP_LAST_ACK] ∧
    tcpSeqCmp s.sndUna (serial 32 g.ack) ≤ 0 ∧ tcpSeqCmp (serial 32 g.ack) g.nxt ≤ 0

/-- A segment with the recorded sequence number compares with the recorded acknowledgement
number as its own acknowledgement number does, and in LAST-ACK, where no window is taken, a
segment comes before the recorded one. -/
def TieRight : Prop :=
  if g.state = TCP_LAST_ACK then
    0 < tcpSeqCmp s.sndWl1 (serial 32 g.seq) ∨
      s.sndWl1 = serial 32 g.seq ∧ 0 < tcpSeqCmp s.sndWl2 (serial 32 g.ack)
  else s.sndWl1 = serial 32 g.seq → (tcpSeqCmp s.sndWl2 (serial 32 g.seq) ≤ 0 ↔
    tcpSeqCmp s.sndWl2 (serial 32 g.ack) ≤ 0)

end SendWindow

namespace TcpAck

/-- The positions lie in windows of less than half the range. -/
def Near (lo loAck : Int) (g : TcpAck) : Prop :=
  (lo ≤ g.seq ∧ g.seq < lo + 2 ^ 31) ∧ loAck ≤ g.ack ∧ g.ack < loAck + 2 ^ 31

/-- The newer one of two segments, the second one if neither is. -/
def newer (r g : TcpAck) : TcpAck :=
  if r.seq < g.seq ∨ r.seq = g.seq ∧ r.ack ≤ g.ack then g else r

end TcpAck

open TcpAck

namespace SendWindow

structure Records (s : SendWindow) (r : TcpAck) : Prop where
  wnd : s.sndWnd = r.win
  wl1 : s.sndWl1 = serial 32 r.seq
  wl2 : s.sndWl2 = serial 32 r.ack

variable {s : SendWindow} {r g : TcpAck} {lo loAck : Int}

theorem Records.updateUna (records : s.Records r) (ack : BitVec 32) :
    (s.updateUna ack).Records r := by
  unfold SendWindow.updateUna
  split
  · exact ⟨records.wnd, records.wl1, records.wl2⟩
  · exact records

theorem Records.finishState (records : s.Records r) (nxt : BitVec 32) :
    (s.finishState nxt).Records r := by
  unfold SendWindow.finishState
  split
  · split <;> exact ⟨records.wnd, records.wl1, records.wl2⟩
  · exact records

theorem records_establish (s : SendWindow) {f : TcpAck} (opens : f.state = TCP_SYN_RECEIVED)
    (accepts : tcpSeqCmp s.sndUna (serial 32 f.ack) < 0 ∧ tcpSeqCmp (serial 32 f.ack) f.nxt ≤ 0) :
    (s.receive f).Records f := by
  unfold receive tcpRxCheckAckNum checkAckOpen
  simp only [opens, accepts.1.not_ge, accepts.2.not_gt, or_self, if_false]
  apply Records.finishState
  unfold updateWindow
  split
  · exact ⟨rfl, rfl, rfl⟩
  · exact Records.updateUna ⟨rfl, rfl, rfl⟩ _

/-- Positions in such windows compare as they should. -/
theorem compare_near (near : Near lo loAck r) (nearG : Near lo loAck g) :
    tcpSeqCmp (serial 32 r.seq) (serial 32 g.seq) = r.seq - g.seq ∧
      tcpSeqCmp (serial 32 r.ack) (serial 32 g.ack) = r.ack - g.ack ∧
      (serial 32 r.seq = serial 32 g.seq ↔ r.seq = g.seq) := by
  unfold Near at near nearG
  have seqs : tcpSeqCmp (serial 32 r.seq) (serial 32 g.seq) = r.seq - g.seq := by
    apply tcpSeqCmp_serial <;> omega
  refine ⟨seqs, by apply tcpSeqCmp_serial <;> omega, fun equal => ?_, fun equal => by rw [equal]⟩
  rw [equal, tcpSeqCmp_serial (by omega) (by omega)] at seqs
  omega

theorem Records.checkAckOpen (records : s.Records r) (near : Near lo loAck r)
    (nearG : Near lo loAck g) (una : tcpSeqCmp s.sndUna (serial 32 g.ack) ≤ 0)
    (sent : tcpSeqCmp (serial 32 g.ack) g.nxt ≤ 0)
    (tie : r.seq = g.seq → (tcpSeqCmp (serial 32 r.ack) (serial 32 g.seq) ≤ 0 ↔ r.ack ≤ g.ack)) :
    (s.checkAckOpen g.nxt (serial 32 g.seq) (serial 32 g.ack) g.win).Records (newer r g) := by
  obtain ⟨seqs, -, same⟩ := compare_near near nearG
  have acked : tcpSeqCmp (s.updateUna (serial 32 g.ack)).sndUna (serial 32 g.ack) ≤ 0 := by
    unfold SendWindow.updateUna
    split
    · exact (tcpSeqCmp_serial (by omega) (by omega)).le.trans (by omega)
    · exact una
  have later := records.updateUna (serial 32 g.ack)
  unfold SendWindow.checkAckOpen
  rw [if_neg sent.not_gt]
  apply Records.finishState
  unfold updateWindow newer
  simp only [later.wl1, later.wl2, same, seqs]
  by_cases isNewer : r.seq < g.seq ∨ r.seq = g.seq ∧ r.ack ≤ g.ack
  · rw [if_pos isNewer, if_pos ⟨acked, by omega⟩]
    exact ⟨rfl, rfl, rfl⟩
  · rw [if_neg isNewer, if_neg (by omega)]
    exact later

theorem Records.receive (records : s.Records r) (near : Near lo loAck r)
    (nearG : Near lo loAck g) (accepts : s.Accepts g) (tie : s.TieRight g) :
    (s.receive g).Records (newer r g) := by
  obtain ⟨isOpen, una, sent⟩ := accepts
  obtain ⟨seqs, acks, same⟩ := compare_near near nearG
  have kept : { s with state := g.state }.Records r := ⟨records.wnd, records.wl1, records.wl2⟩
  unfold TieRight at tie
  rw [records.wl1, records.wl2, same, seqs, acks] at tie
  unfold SendWindow.receive tcpRxCheckAckNum
  by_cases last : g.state = TCP_LAST_ACK
  · rw [if_pos last] at tie
    rw [show newer r g = r from if_neg (by omega)]
    simp only [last] at kept ⊢
    split
    · exact ⟨records.wnd, records.wl1, records.wl2⟩
    · exact kept
  · rw [if_neg last, sub_nonpos] at tie
    have opened := kept.checkAckOpen near nearG una sent tie
    simp only [List.mem_cons, List.not_mem_nil, or_false, last] at isOpen
    rcases isOpen with isState | isState | isState | isState | isState <;>
      simpa only [isState] using opened

/-- The window in force is that of the newest segment since the connection was established if
segments with the recorded sequence number are compared as they should be, and no newer one
comes in LAST-ACK. -/
theorem sndWnd_newest (s : SendWindow) (f : TcpAck) (gs : List TcpAck) (lo loAck : Int)
    (opens : f.state = TCP_SYN_RECEIVED)
    (accepts : tcpSeqCmp s.sndUna (serial 32 f.ack) < 0 ∧ tcpSeqCmp (serial 32 f.ack) f.nxt ≤ 0)
    (near : ∀ g ∈ f :: gs, Near lo loAck g)
    (each : Along (fun s g => s.Accepts g ∧ s.TieRight g) (s.receive f) gs) :
    (gs.foldl receive (s.receive f)).sndWnd = (gs.foldl newer f).win := by
  have records := records_establish s opens accepts
  clear opens accepts
  generalize s.receive f = t at *
  induction gs generalizing t f with
  | nil => exact records.wnd
  | cons g gs ih =>
    rw [List.forall_mem_cons, List.forall_mem_cons] at near
    refine ih (newer f g) (List.forall_mem_cons.2 ⟨?_, near.2.2⟩) (t.receive g) each.2
      (records.receive near.1 near.2.1 each.1.1 each.1.2)
    unfold newer
    split
    · exact near.2.1
    · exact near.1

/-- A newer segment with the same sequence number is taken. -/
theorem sndWnd_newest_tie : (List.foldl receive (receive ⟨TCP_SYN_RECEIVED, 0, 0, 0, 0⟩
    ⟨5, 1, 10, 9, TCP_SYN_RECEIVED⟩) [⟨5, 2, 20, 9, TCP_CLOSE_WAIT⟩]).sndWnd = 20 :=
  sndWnd_newest ⟨TCP_SYN_RECEIVED, 0, 0, 0, 0⟩ ⟨5, 1, 10, 9, TCP_SYN_RECEIVED⟩
    [⟨5, 2, 20, 9, TCP_CLOSE_WAIT⟩] 0 0 rfl (by decide) (by simp [Near])
    ⟨by unfold Accepts TieRight; decide, trivial⟩

/-- With a recorded acknowledgement number above the sequence number the window stays. -/
theorem sndWnd_not_newest :
    ([⟨5, 8, 20, 9, TCP_ESTABLISHED⟩].foldl receive
      (receive ⟨TCP_SYN_RECEIVED, 6, 0, 0, 0⟩ ⟨5, 7, 10, 7, TCP_SYN_RECEIVED⟩)).sndWnd ≠
      ([⟨5, 8, 20, 9, TCP_ESTABLISHED⟩].foldl newer ⟨5, 7, 10, 7, TCP_SYN_RECEIVED⟩).win := by
  decide

/-- What is acknowledged when a segment has been processed. -/
def acknowledged (una : Int) (g : TcpAck) : Int :=
  if g.state ∈ [TCP_CLOSED, TCP_SYN_SENT, TCP_LAST_ACK] then una
  else if tcpSeqCmp (serial 32 g.ack) g.nxt ≤ 0 then max una g.ack else una

theorem compare_una {una : Int} (starts : s.sndUna = serial 32 una)
    (near : lo ≤ una ∧ una < lo + 2 ^ 31) (nearG : lo ≤ g.ack ∧ g.ack < lo + 2 ^ 31) :
    tcpSeqCmp s.sndUna (serial 32 g.ack) = una - g.ack := by
  rw [starts]
  apply tcpSeqCmp_serial <;> omega

theorem sndUna_checkAckOpen {una : Int} (starts : s.sndUna = serial 32 una)
    (near : lo ≤ una ∧ una < lo + 2 ^ 31) (nearG : lo ≤ g.ack ∧ g.ack < lo + 2 ^ 31)
    (seq win : BitVec 32) : (s.checkAckOpen g.nxt seq (serial 32 g.ack) win).sndUna =
      serial 32 (if tcpSeqCmp (serial 32 g.ack) g.nxt ≤ 0 then max una g.ack else una) := by
  have acks := compare_una starts near nearG
  have finished : ∀ (t : SendWindow) nxt, (t.finishState nxt).sndUna = t.sndUna := by
    intro t nxt
    unfold finishState
    split
    · split <;> rfl
    · rfl
  have kept : ∀ (t : SendWindow) seq ack win,
      (t.updateWindow seq ack win).sndUna = t.sndUna := by
    intro t seq ack win
    unfold updateWindow
    split <;> rfl
  unfold checkAckOpen
  split
  next unsent => rw [if_neg (by omega), starts]
  next sent =>
    rw [if_pos (by omega), finished, kept, SendWindow.updateUna, acks]
    split
    next below => rw [max_eq_right (by omega)]
    next above => rw [max_eq_left (by omega), starts]

theorem sndUna_receive {una : Int} (starts : s.sndUna = serial 32 una)
    (near : lo ≤ una ∧ una < lo + 2 ^ 31) (nearG : lo ≤ g.ack ∧ g.ack < lo + 2 ^ 31) :
    (s.receive g).sndUna = serial 32 (acknowledged una g) := by
  have acks := compare_una starts near nearG
  have opened := fun t : SendWindow => fun same : t.sndUna = serial 32 una =>
    sndUna_checkAckOpen same near nearG
  unfold receive tcpRxCheckAckNum acknowledged
  cases g.state <;> simp only [List.mem_cons, List.not_mem_nil, reduceCtorEq, or_self, or_false,
    or_true, if_true, if_false]
  case TCP_SYN_RECEIVED =>
    split
    next dropped =>
      rw [acks] at dropped
      split
      next sent => rw [starts, max_eq_left (by omega)]
      next => exact starts
    next =>
      refine opened _ ?_ _ _
      exact starts
  case TCP_LAST_ACK =>
    split
    · exact starts
    · exact starts
  case TCP_CLOSED => exact starts
  case TCP_SYN_SENT => exact starts
  all_goals
    refine opened _ ?_ _ _
    exact starts

/-- Segments in any order: `snd_una` is the largest acknowledgement of what had been sent, of
those that came before LAST-ACK. -/
theorem sndUna_largest (s : SendWindow) (una lo : Int) (gs : List TcpAck)
    (starts : s.sndUna = serial 32 una) (near : lo ≤ una ∧ una < lo + 2 ^ 31)
    (nearAll : ∀ g ∈ gs, lo ≤ g.ack ∧ g.ack < lo + 2 ^ 31) :
    (gs.foldl receive s).sndUna = serial 32 (gs.foldl acknowledged una) := by
  induction gs generalizing s una with
  | nil => exact starts
  | cons g gs ih =>
    rw [List.forall_mem_cons] at nearAll
    refine ih _ _ (sndUna_receive starts near nearAll.1) ?_ nearAll.2
    unfold acknowledged
    split_ifs <;> omega

theorem sndUna_largest_late : (List.foldl receive ⟨TCP_ESTABLISHED, 6, 0, 0, 0⟩
    [⟨5, 9, 1, 9, TCP_ESTABLISHED⟩, ⟨5, 8, 1, 9, TCP_FIN_WAIT_1⟩]).sndUna = 9 :=
  sndUna_largest ⟨TCP_ESTABLISHED, 6, 0, 0, 0⟩ 6 0
    [⟨5, 9, 1, 9, TCP_ESTABLISHED⟩, ⟨5, 8, 1, 9, TCP_FIN_WAIT_1⟩] rfl (by decide) (by simp)

end SendWindow

end UBoot
