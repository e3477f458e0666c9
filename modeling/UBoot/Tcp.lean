import UBoot.SerialNumber

/-!
# Receiving a TCP stream

The receive side of `net/tcp.c`: the window check, the bookkeeping of data that
came before its turn, and the handing over of user data.  Data behind the next
expected number is recorded in four *hills*, ranges that were received.  The array
of hills is a function of the index: a full array is shifted one place past its
end, so the place behind it is modelled too.
-/

namespace UBoot

def TCP_SACK_HILLS : Nat := 4

def TCP_OPT_LEN_2 : Nat := 2

def TCP_OPT_LEN_8 : Nat := 8

def TCP_O_NOP : BitVec 32 := 0x01010101

inductive TcpState where
  | TCP_CLOSED
  | TCP_SYN_SENT
  | TCP_SYN_RECEIVED
  | TCP_ESTABLISHED
  | TCP_CLOSE_WAIT
  | TCP_CLOSING
  | TCP_FIN_WAIT_1
  | TCP_FIN_WAIT_2
  | TCP_LAST_ACK
  deriving DecidableEq, Repr

open TcpState

structure SackEdges where
  l : BitVec 32
  r : BitVec 32
  deriving DecidableEq, Repr

structure TcpStream where
  state : TcpState
  rcvNxt : BitVec 32
  rcvWnd : BitVec 32
  lostLen : Nat
  hill : Nat → SackEdges

def tcpSeqCmp (a b : BitVec 32) : Int := serialCmp a b

/-- `memmove` of hills inside their array. -/
def moveHills (hill : Nat → SackEdges) (dest src count : Nat) : Nat → SackEdges :=
  fun k => if dest ≤ k ∧ k < dest + count then hill (k - dest + src) else hill k

namespace TcpStream

variable (t : TcpStream)

def cnt : Nat := (t.lostLen - TCP_OPT_LEN_2) / TCP_OPT_LEN_8

def setHill (i : Nat) (edges : SackEdges) : TcpStream :=
  { t with hill := fun k => if k = i then edges else t.hill k }

def tcpUpdateRcvNxt : TcpStream :=
  if 0 ≤ tcpSeqCmp t.rcvNxt (t.hill 0).l then
    { t with
      rcvNxt := (t.hill 0).r
      lostLen := t.lostLen - TCP_OPT_LEN_8
      hill := fun k =>
        if k = TCP_SACK_HILLS - 1 then ⟨TCP_O_NOP, TCP_O_NOP⟩
        else moveHills t.hill 0 1 (TCP_SACK_HILLS - 1) k }
  else t

/-- The loop over the hills: the index at which it ends, and whether the hill there meets
the range from `seq` to `last`. -/
def scanHills (hill : Nat → SackEdges) (seq last : BitVec 32) : (left i : Nat) → Nat × Bool
  | 0, i => (i, false)
  | left + 1, i =>
    if tcpSeqCmp (hill i).r seq < 0 then scanHills hill seq last left (i + 1)
    else if 0 < tcpSeqCmp (hill i).l last then (i, false)
    else (i, true)

/-- The loop over the next hills that a grown one now meets: its right edge, and the number
of hills it takes in. -/
def absorbHills (hill : Nat → SackEdges) : (left j : Nat) → BitVec 32 → BitVec 32 × Nat
  | 0, _, r => (r, 0)
  | left + 1, j, r =>
    if 0 < tcpSeqCmp (hill j).l r then (r, 0)
    else
      let rest := absorbHills hill left (j + 1) (hill j).r
      (rest.1, rest.2 + 1)

def closeGap (i cntMove : Nat) : TcpStream :=
  let cnt := t.cnt - cntMove
  let hill :=
    if i + cntMove + 1 < t.cnt then moveHills t.hill (i + 1) (i + cntMove + 1) cntMove
    else t.hill
  { t with
    lostLen := TCP_OPT_LEN_2 + cnt * TCP_OPT_LEN_8
    hill := fun k =>
      if cnt ≤ k ∧ k < TCP_SACK_HILLS then ⟨TCP_O_NOP, TCP_O_NOP⟩ else hill k }

def growHill (i : Nat) (seq len : BitVec 32) : TcpStream :=
  let r := (t.hill i).r
  let l := if 0 < tcpSeqCmp (t.hill i).l seq then seq else (t.hill i).l
  let last := if tcpSeqCmp l seq < 0 then l + (len + (seq - l)) else seq + len
  if 0 ≤ tcpSeqCmp r last then (t.setHill i ⟨l, r⟩).tcpUpdateRcvNxt
  else
    let absorbed := absorbHills t.hill (t.cnt - (i + 1)) (i + 1) last
    let grown := t.setHill i ⟨l, absorbed.1⟩
    (if 0 < absorbed.2 then grown.closeGap i absorbed.2 else grown).tcpUpdateRcvNxt

def insertHill (i : Nat) (seq last : BitVec 32) : TcpStream :=
  let cntMove := if t.cnt < TCP_SACK_HILLS then t.cnt - i else TCP_SACK_HILLS - i
  let cnt := if t.cnt < TCP_SACK_HILLS then t.cnt + 1 else TCP_SACK_HILLS
  { t with
    hill := fun k => if k = i then ⟨seq, last⟩ else moveHills t.hill (i + 1) i cntMove k
    lostLen := TCP_OPT_LEN_2 + cnt * TCP_OPT_LEN_8 }

def tcpHole (seq len : BitVec 32) : TcpStream :=
  let found := scanHills t.hill seq (seq + len) t.cnt 0
  if found.2 then t.growHill found.1 seq len
  else if found.1 = TCP_SACK_HILLS then t.tcpUpdateRcvNxt
  else (t.insertHill found.1 seq (seq + len)).tcpUpdateRcvNxt

@[simp]
theorem tcpUpdateRcvNxt_rcvWnd : t.tcpUpdateRcvNxt.rcvWnd = t.rcvWnd := by
  unfold tcpUpdateRcvNxt
  split
  · rfl
  · rfl

@[simp]
theorem growHill_rcvWnd (i : Nat) (seq len : BitVec 32) :
    (t.growHill i seq len).rcvWnd = t.rcvWnd := by
  unfold growHill closeGap setHill
  simp [apply_ite TcpStream.rcvWnd, tcpUpdateRcvNxt_rcvWnd]

@[simp]
theorem tcpHole_rcvWnd (seq len : BitVec 32) : (t.tcpHole seq len).rcvWnd = t.rcvWnd := by
  unfold tcpHole insertHill
  simp [apply_ite TcpStream.rcvWnd, tcpUpdateRcvNxt_rcvWnd, growHill_rcvWnd]

def InWindow (seq : BitVec 32) : Prop :=
  tcpSeqCmp t.rcvNxt seq ≤ 0 ∧ tcpSeqCmp seq (t.rcvNxt + t.rcvWnd) < 0

instance (t : TcpStream) (seq : BitVec 32) : Decidable (t.InWindow seq) :=
  inferInstanceAs (Decidable (_ ∧ _))

def tcpSegInWnd (seq : BitVec 32) (payloadLen : Int) : Bool :=
  payloadLen = 0 ∧ t.rcvWnd = 0 ∧ seq = t.rcvNxt ∨ payloadLen = 0 ∧ t.rcvWnd ≠ 0 ∧ t.InWindow seq ∨
    0 < payloadLen ∧ t.rcvWnd ≠ 0 ∧
      (t.InWindow seq ∨ t.InWindow (seq + BitVec.ofInt 32 (payloadLen - 1)))

def TakesData : Prop :=
  t.state = TCP_ESTABLISHED ∨ t.state = TCP_FIN_WAIT_1 ∨ t.state = TCP_FIN_WAIT_2

instance (t : TcpStream) : Decidable t.TakesData := inferInstanceAs (Decidable (_ ∨ _))

/-- `tcp_rx_user_data`, where the receive callback returns `rx`; a stream whose callback
fails is closed. -/
def tcpRxUserData (seq : BitVec 32) (len rx : Int) : TcpStream :=
  if len = 0 then t
  else if t.TakesData then
    if rx < 0 then { t with state := TCP_CLOSED }
    else if rx ≠ 0 then t.tcpHole seq (BitVec.ofInt 32 rx)
    else t
  else t

end TcpStream

end UBoot
