import UBoot.ByteMemory

/-!
# Memory buffers

`lib/membuf.c` keeps bytes in a buffer that wraps: they are written at the head and
read at the tail, and one byte of the buffer always stays unused.  Positions are
counted from the start of the buffer, so that `end` is the size; a length that is not
negative limits what is read or written, and a negative one does not.  Sizes are 32-bit
numbers in the loop of `membuf_extend_by`, which need not end.
-/

namespace UBoot

structure Membuf where
  mem : Memory
  isNull : Bool
  size : Nat
  head : Nat
  tail : Nat

inductive MembufError where
  | E2BIG
  | ENOMEM
  deriving DecidableEq

namespace Membuf

def membufInit (mem : Memory) (size : Nat) : Membuf := ⟨mem, false, size, 0, 0⟩

variable (b : Membuf)

def limited (maxlen len : Int) : Int := if 0 ≤ maxlen ∧ maxlen < len then maxlen else len

def moveHead (update : Bool) (head : Int) : Membuf :=
  if update then { b with head := head.toNat } else b

def moveTail (update : Bool) (tail : Int) : Membuf :=
  if update then { b with tail := tail.toNat } else b

/-- `membuf_putrawflex`: how many bytes can be written at the head. -/
def membufPutraw (maxlen : Int) (update : Bool) : Membuf × Int :=
  if b.isNull then (b, 0)
  else if b.tail ≤ b.head then
    let len := limited maxlen (b.size - b.head - 1)
    if (maxlen < 0 ∨ len < maxlen) ∧ b.tail ≠ 0 then (b.moveHead update 0, len + 1)
    else (b.moveHead update (b.head + len), len)
  else
    let len := limited maxlen (b.tail - b.head - 1)
    (b.moveHead update (b.head + len), len)

/-- `membuf_getraw`: how many bytes can be read at the tail. -/
def membufGetraw (maxlen : Int) (update : Bool) : Membuf × Int :=
  if b.tail < b.head then
    let len := limited maxlen (b.head - b.tail)
    (b.moveTail update (b.tail + len), len)
  else if b.head < b.tail then
    let len := limited maxlen (b.size - b.tail)
    (b.moveTail update (if b.tail + len = b.size then 0 else b.tail + len), len)
  else (b, 0)

def membufPutbyte (ch : UInt8) : Membuf × Bool :=
  let r := b.membufPutraw 1 true
  if r.2 ≠ 1 then (r.1, false) else ({ r.1 with mem := r.1.mem.write b.head [ch] }, true)

def membufGetbyte : Membuf × Option UInt8 :=
  let r := b.membufGetraw 1 true
  (r.1, if r.2 ≠ 1 then none else some (b.mem b.tail))

def membufPeekbyte : Option UInt8 :=
  if (b.membufGetraw 1 false).2 ≠ 1 then none else some (b.mem b.tail)

/-- One round of `membuf_get`: the bytes that are copied out of the buffer. -/
def getRound (maxlen : Int) : Membuf × List UInt8 :=
  let r := b.membufGetraw maxlen true
  (r.1, b.mem.read b.tail r.2.toNat)

def membufGet (maxlen : Int) : Membuf × List UInt8 :=
  let first := b.getRound maxlen
  if first.2.length = 0 then first
  else
    let second := first.1.getRound (maxlen - first.2.length)
    (second.1, first.2 ++ second.2)

/-- One round of `membuf_put`: the bytes that are left to be written. -/
def putRound (buff : List UInt8) : Membuf × List UInt8 :=
  let r := b.membufPutraw buff.length true
  ({ r.1 with mem := r.1.mem.write b.head (buff.take r.2.toNat) }, buff.drop r.2.toNat)

/-- The buffer after `membuf_put`, and the number of bytes that were written. -/
def membufPut (buff : List UInt8) : Membuf × Nat :=
  let first := b.putRound buff
  let second := first.1.putRound first.2
  (second.1, buff.length - second.2.length)

def membufAvail : Int :=
  let first := b.membufGetraw (-1) true
  first.2 + (first.1.membufGetraw (-1) true).2

def membufSize : Nat := b.size

def membufFree : Int := if b.size = 0 then 0 else b.size - 1 - b.membufAvail

def membufMakecontig : Membuf × Bool :=
  if b.head < b.tail then
    let topsize := b.size - b.tail
    let botsize := b.head
    if b.tail ≤ b.head + topsize then (b, false)
    else
      let moved := b.mem.move topsize 0 botsize
      ({ b with mem := moved.copy 0 b.tail topsize, tail := 0, head := topsize + botsize }, true)
  else
    let topsize := b.head - b.tail
    ({ b with mem := b.mem.copy 0 b.tail topsize, tail := 0, head := topsize }, true)

/-- The loop that doubles the size until it is big enough.  After 32 rounds the size is zero
and stays so. -/
def doubleSize (enough : BitVec 32) : (rounds : Nat) → (size : BitVec 32) → Option (BitVec 32)
  | 0, _ => none
  | rounds + 1, size => if size.slt enough then doubleSize enough rounds (size * 2) else some size

/-- The size that `membuf_extend_by` asks for. -/
def extendedSize (extra max : BitVec 32) : Option (BitVec 32) :=
  (doubleSize (BitVec.ofNat 32 b.size + extra) 33 (BitVec.ofNat 32 b.size)).map fun size =>
    if max ≠ -1 ∧ max.slt size then max else size

/-- The buffer in the memory that `realloc` returned, whose other bytes are given. -/
def resize (fresh : Memory) (size : Nat) : Membuf :=
  let moved : Memory := fun x => if x < b.size then b.mem x else fresh x
  if b.head < b.tail then
    { b with
      mem := moved.move (b.tail + (size - b.size)) b.tail (b.size - b.tail)
      tail := b.tail + (size - b.size)
      size := size }
  else { b with mem := moved, size := size }

/-- `membuf_extend_by`, where `realloc` returns `ptr`, but nothing for a size that is
negative. -/
def membufExtendBy (extra max : BitVec 32) (ptr : Option Memory) :
    Option (Membuf × Option MembufError) :=
  (b.extendedSize extra max).map fun size =>
    if (size - BitVec.ofNat 32 b.size).sle 0 then (b, some .E2BIG)
    else
      match ptr with
      | none => (b, some .ENOMEM)
      | some fresh => if size.slt 0 then (b, some .ENOMEM) else (b.resize fresh size.toNat, none)

end Membuf

end UBoot
