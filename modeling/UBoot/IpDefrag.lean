import UBoot.ByteMemory

/-!
# Reassembling IP datagrams

This file translates `__net_defragment` of `net/net.c`, which collects the
fragments of a datagram in one static buffer.  The bytes that have not arrived
yet are described by a doubly linked list of holes, and the descriptor of a hole
is stored in the first eight bytes of the hole itself.  The buffer and the
received packet are memories, so that a write beyond the end of the buffer can
be seen, and the fields of a descriptor are read from the bytes of the buffer.
-/

namespace UBoot

open Memory

def IP_HDR_SIZE : Nat := 20
def IP_OFFS : Nat := 0x1fff
def IP_FLAGS_MFRAG : Nat := 0x2000

structure DefragConfig where
  netMaxdefrag : Nat
  lower : 1024 ≤ netMaxdefrag
  upper : netMaxdefrag ≤ 65536

variable (config : DefragConfig)

/-- `IP_MAXUDP`, the room for the payload of a datagram. -/
def DefragConfig.ipMaxudp : Nat := config.netMaxdefrag - IP_HDR_SIZE

section Holes

/-- The fields of `struct hole` that are used. -/
inductive HoleField
  | lastByte
  | nextHole
  | prevHole
  deriving DecidableEq, Repr

/-- The offset of a field in `struct hole`. -/
def HoleField.offset : HoleField → Nat
  | .lastByte => 0
  | .nextHole => 2
  | .prevHole => 4

/-- The offset in `pkt_buff` of `payload[i]`. -/
def holeAddr (i : Nat) : Nat := IP_HDR_SIZE + 8 * i

/-- Read a field of `payload[i]`. -/
def Memory.hole (m : Memory) (i : Nat) (field : HoleField) : Nat :=
  m.readLE (holeAddr i + field.offset) 2

/-- Write a field of `payload[i]`. -/
def Memory.setHole (m : Memory) (i : Nat) (field : HoleField) (value : Nat) : Memory :=
  m.writeLE (holeAddr i + field.offset) 2 value

/-- `payload[j] = payload[i]`. -/
def Memory.copyHole (m : Memory) (i j : Nat) : Memory :=
  m.write (holeAddr j) (m.read (holeAddr i) 8)

end Holes

section Packet

/-! ### Fields of a received packet -/

def Memory.ipLen (ip : Memory) : Nat := ip.readBE 2 2

def Memory.ipId (ip : Memory) : Nat := ip.readBE 4 2

def Memory.ipOff (ip : Memory) : Nat := ip.readBE 6 2

def Memory.offset8 (ip : Memory) : Nat := ip.ipOff &&& IP_OFFS

def Memory.fragStart (ip : Memory) : Nat := ip.offset8 * 8

def Memory.fragLen (ip : Memory) : Nat := ip.ipLen - IP_HDR_SIZE

def Memory.moreFragments (ip : Memory) : Bool := ip.ipOff &&& IP_FLAGS_MFRAG != 0

/-- The checks of a packet that `__net_defragment` makes before it looks at its
own state. -/
def Memory.Admissible (ip : Memory) : Prop :=
  IP_HDR_SIZE < ip.ipLen ∧ ¬(ip.fragLen &&& 7 ≠ 0 ∧ ip.moreFragments) ∧
    ip.fragStart + ip.fragLen ≤ config.ipMaxudp

instance (config : DefragConfig) (ip : Memory) : Decidable (ip.Admissible config) := by
  unfold Memory.Admissible
  infer_instance

end Packet

/-- The static variables of `__net_defragment`. -/
structure DefragState where
  pktBuff : Memory
  firstHole : Nat
  totalLen : Nat

/-- What a call of `__net_defragment` does: the variables it leaves, the range of
the payload it copied the fragment to, and the length of the packet it returned,
if any. -/
structure DefragCall where
  state : DefragState
  copied : Nat × Nat
  lenp : Option Nat

variable (state : DefragState)

def DefragState.drop : DefragCall := ⟨state, (0, 0), none⟩

def DefragState.StartsOver (ip : Memory) : Prop := state.totalLen = 0 ∨ state.pktBuff.ipId ≠ ip.ipId

instance (state : DefragState) (ip : Memory) : Decidable (state.StartsOver ip) := by
  unfold DefragState.StartsOver
  infer_instance

def DefragState.reset (ip : Memory) : DefragState :=
  let m := state.pktBuff.setHole 0 .lastByte 0xffff
  let m := m.setHole 0 .nextHole 0
  let m := m.setHole 0 .prevHole 0
  { pktBuff := m.write 0 (ip.read 0 IP_HDR_SIZE), firstHole := 0, totalLen := 0xffff }

def DefragState.begin (ip : Memory) : DefragState :=
  if state.StartsOver ip then state.reset ip else state

/-- The first hole from `payload[h]` on that does not end before `start`.  The
inner `none` is the end of the list; the outer one means that the loop does not
end, since there are only `2 ^ 16` values of an index. -/
def findHole (m : Memory) (start : Nat) : (fuel h : Nat) → Option (Option Nat)
  | 0, _ => none
  | fuel + 1, h =>
    if m.hole h .lastByte < start then
      if m.hole h .nextHole = 0 then some none
      else findHole m start fuel (m.hole h .nextHole)
    else some (some h)

/-- The buffer and the first hole after the list has been fixed, and whether the
hole was the last one. -/
structure FixedHoles where
  pktBuff : Memory
  firstHole : Nat
  done : Bool

def removeHole (m : Memory) (firstHole h : Nat) : FixedHoles :=
  if m.hole h .prevHole = 0 ∧ m.hole h .nextHole = 0 then ⟨m, firstHole, true⟩
  else if m.hole h .prevHole = 0 then
    ⟨m.setHole (m.hole h .nextHole) .prevHole 0, m.hole h .nextHole, false⟩
  else if m.hole h .nextHole = 0 then
    ⟨m.setHole (m.hole h .prevHole) .nextHole 0, firstHole, false⟩
  else
    let m := m.setHole (m.hole h .nextHole) .prevHole (m.hole h .prevHole)
    ⟨m.setHole (m.hole h .prevHole) .nextHole (m.hole h .nextHole), firstHole, false⟩

def moveHole (m : Memory) (firstHole h newh : Nat) : FixedHoles :=
  let m := m.copyHole h newh
  let m :=
    if m.hole newh .nextHole ≠ 0 then m.setHole (m.hole newh .nextHole) .prevHole newh
    else m
  if m.hole newh .prevHole ≠ 0 then
    ⟨m.setHole (m.hole newh .prevHole) .nextHole newh, firstHole, false⟩
  else ⟨m, newh % 2 ^ 16, false⟩

def splitHole (m : Memory) (firstHole h newh start : Nat) : FixedHoles :=
  let m := m.copyHole h newh
  let m := m.setHole h .lastByte start
  let m := m.setHole h .nextHole newh
  let m := m.setHole newh .prevHole h
  let m :=
    if m.hole newh .nextHole ≠ 0 then m.setHole (m.hole newh .nextHole) .prevHole newh
    else m
  ⟨m, firstHole, false⟩

/-- Fix the hole list for a fragment that overlaps with `payload[h]`. -/
def fixHoles (m : Memory) (firstHole h offset8 len : Nat) : FixedHoles :=
  let start := offset8 * 8
  if offset8 ≤ h ∧ m.hole h .lastByte ≤ start + len then removeHole m firstHole h
  else if m.hole h .lastByte ≤ start + len then
    ⟨m.setHole h .lastByte start, firstHole, false⟩
  else if offset8 ≤ h then moveHole m firstHole h (offset8 + len / 8)
  else splitHole m firstHole h (offset8 + len / 8) start

def DefragState.truncate (ip : Memory) (h : Nat) : DefragState :=
  if ip.moreFragments then state
  else
    { state with
      pktBuff := state.pktBuff.setHole h .lastByte (ip.fragStart + ip.fragLen)
      totalLen := (ip.fragStart + ip.fragLen) % 2 ^ 16 }

def usedLen (m : Memory) (ip : Memory) (h : Nat) : Nat :=
  if m.hole h .lastByte < ip.fragStart + ip.fragLen then
    m.hole h .lastByte - ip.fragStart
  else ip.fragLen

/-- Take the fragment into `payload[h]` and possibly return the whole packet. -/
def DefragState.accept (ip : Memory) (h : Nat) : DefragCall :=
  let state := state.truncate ip h
  let len := usedLen state.pktBuff ip h
  let fixed := fixHoles state.pktBuff state.firstHole h ip.offset8 len
  let m := fixed.pktBuff.write (holeAddr ip.offset8) (ip.read IP_HDR_SIZE len)
  if fixed.done then
    let lenp := state.totalLen + IP_HDR_SIZE
    { state :=
        { pktBuff := m.writeBE 2 2 lenp, firstHole := fixed.firstHole, totalLen := state.totalLen }
      copied := (ip.fragStart, len), lenp := some lenp }
  else
    { state := { pktBuff := m, firstHole := fixed.firstHole, totalLen := state.totalLen }
      copied := (ip.fragStart, len), lenp := none }

/-- `__net_defragment`; `none` means that it does not return. -/
def netDefragment (state : DefragState) (ip : Memory) : Option DefragCall :=
  if ip.Admissible config then
    let state := state.begin ip
    match findHole state.pktBuff ip.fragStart (2 ^ 16) state.firstHole with
    | none => none
    | some none => some state.drop
    | some (some h) =>
      if ip.offset8 + (ip.fragLen + 7) / 8 ≤ h then some state.drop
      else some (state.accept ip h)
  else some state.drop

/-! ## Reading the buffer after a write -/

section Fields

variable {m : Memory}

theorem holeField_offset_le (field : HoleField) : field.offset ≤ 4 := by cases field <;> decide

theorem hole_lt (m : Memory) (i : Nat) (field : HoleField) : m.hole i field < 65536 :=
  m.readLE_lt _ 2

variable {field : HoleField}

theorem hole_congr {m' : Memory} {i : Nat}
    (agree : ∀ x, holeAddr i ≤ x → x < holeAddr i + 8 → m x = m' x) :
    m.hole i field = m'.hole i field := by
  have bound := holeField_offset_le field
  apply readLE_congr
  intro k inside
  exact agree _ (by omega) (by omega)

theorem setHole_of_outside {i x value : Nat}
    (outside : x < holeAddr i ∨ holeAddr i + 8 ≤ x) : m.setHole i field value x = m x := by
  have bound := holeField_offset_le field
  exact writeLE_of_disjoint (by omega)

theorem copyHole_of_outside {i j x : Nat}
    (outside : x < holeAddr j ∨ holeAddr j + 8 ≤ x) : m.copyHole i j x = m x :=
  write_of_disjoint (by rwa [length_read])

theorem hole_setHole (m : Memory) (i j value : Nat) (field field' : HoleField) :
    (m.setHole i field value).hole j field' =
      if i = j ∧ field = field' then value % 65536 else m.hole j field' := by
  split
  next same =>
    obtain ⟨rfl, rfl⟩ := same
    exact m.readLE_writeLE_same _ 2 value
  next different =>
    apply readLE_writeLE_of_disjoint
    unfold holeAddr
    by_cases sameHole : i = j
    · subst sameHole
      cases field <;> cases field' <;> simp_all [HoleField.offset]
    · have bound := holeField_offset_le field
      have bound' := holeField_offset_le field'
      omega

theorem hole_copyHole (m : Memory) (i j k : Nat) (field : HoleField) :
    (m.copyHole i j).hole k field = if j = k then m.hole i field else m.hole k field := by
  split
  next same =>
    subst same
    have bound := holeField_offset_le field
    unfold hole readLE
    congr 1
    apply List.ext_getElem (by simp)
    intro b inside inside'
    rw [length_read] at inside
    have inBlock : field.offset + b < (m.read (holeAddr i) 8).length := by
      rw [length_read]
      omega
    rw [getElem_read, getElem_read, copyHole, Nat.add_assoc,
      write_inside inBlock, getElem_read, Nat.add_assoc]
  next different =>
    apply hole_congr
    intro x lower upper
    exact copyHole_of_outside (by unfold holeAddr at *; omega)

theorem hole_write {a j : Nat} {bytes : List UInt8}
    (outside : holeAddr j + 8 ≤ a ∨ a + bytes.length ≤ holeAddr j) :
    (m.write a bytes).hole j field = m.hole j field := by
  apply hole_congr
  intro x lower upper
  exact write_of_disjoint (by omega)

end Fields

end UBoot
