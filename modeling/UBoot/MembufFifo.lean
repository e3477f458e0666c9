import UBoot.Membuf

/-!
# A memory buffer is a queue

The bytes from the tail to the head of a memory buffer, around its end, are a queue.
Writing puts bytes behind the queue, reading takes them from its front, and moving or
extending the buffer leaves it alone.  Each function of the source works on at most two
pieces that do not wrap; this file first says what one piece does, and then puts two of
them together.
-/

namespace UBoot

open List Nat Memory Membuf

namespace Membuf

/-- Head and tail lie in the buffer. -/
structure Valid (b : Membuf) : Prop where
  exists_ : b.isNull = false
  head : b.head < b.size
  tail : b.tail < b.size
  small : b.size < 2 ^ 31

variable (b : Membuf)

def count : Nat :=
  if b.tail ≤ b.head then b.head - b.tail else b.size - b.tail + b.head

def queue : List UInt8 := wrapRead b.size b.mem b.tail b.count

variable {b : Membuf}

@[simp]
theorem length_queue : b.queue.length = b.count := length_wrapRead ..

theorem count_cases : b.tail ≤ b.head ∧ b.count = b.head - b.tail ∨
      b.head < b.tail ∧ b.count = b.size - b.tail + b.head := by
  unfold count
  split <;> omega

theorem count_eq {n : Nat} (position : b.tail ≤ b.head ∧ n = b.head - b.tail ∨
      b.head < b.tail ∧ n = b.size - b.tail + b.head) : b.count = n := by
  have cases := b.count_cases
  omega

theorem Valid.bounds (valid : b.Valid) : b.head < b.size ∧ b.tail < b.size ∧
    (b.tail ≤ b.head ∧ b.count = b.head - b.tail ∨
      b.head < b.tail ∧ b.count = b.size - b.tail + b.head) :=
  ⟨valid.head, valid.tail, b.count_cases⟩

theorem Valid.count_lt (valid : b.Valid) : b.count < b.size := by
  have bounds := valid.bounds
  omega

theorem Valid.head_eq (valid : b.Valid) : (b.tail + b.count) % b.size = b.head := by
  have bounds := valid.bounds
  have wrapped := mod_cases (b.tail + b.count) b.size (by omega)
  omega

/-! ## Writing a piece -/

def room : Nat :=
  if b.tail ≤ b.head then
    if b.tail = 0 then b.size - b.head - 1 else b.size - b.head
  else b.tail - b.head - 1

def push (piece : List UInt8) : Membuf :=
  { b with
    mem := b.mem.write b.head piece
    head := (b.head + piece.length) % b.size }

theorem Valid.push (valid : b.Valid) (piece : List UInt8) : (b.push piece).Valid where
  exists_ := valid.exists_
  head := mod_lt _ (by have := valid.head; omega)
  tail := valid.tail
  small := valid.small

theorem push_fields (piece : List UInt8) :
    (b.push piece).head = (b.head + piece.length) % b.size ∧ (b.push piece).tail = b.tail ∧
      (b.push piece).size = b.size :=
  ⟨rfl, rfl, rfl⟩

theorem room_cases : b.tail ≤ b.head ∧ b.tail = 0 ∧ b.room = b.size - b.head - 1 ∨
      b.tail ≤ b.head ∧ 0 < b.tail ∧ b.room = b.size - b.head ∨
      b.head < b.tail ∧ b.room = b.tail - b.head - 1 := by
  unfold room
  split
  · split <;> omega
  · omega

theorem Valid.count_push (valid : b.Valid) {piece : List UInt8} (fits : piece.length ≤ b.room) :
    (b.push piece).count = b.count + piece.length := by
  have bounds := valid.bounds
  have pushedCases := (b.push piece).count_cases
  have spaces := b.room_cases
  have wrapped := mod_cases (b.head + piece.length) b.size (by omega)
  have fields := b.push_fields piece
  omega

theorem Valid.queue_push (valid : b.Valid) {piece : List UInt8} (fits : piece.length ≤ b.room) :
    (b.push piece).queue = b.queue ++ piece := by
  have bounds := valid.bounds
  have spaces := b.room_cases
  unfold queue
  rw [valid.count_push fits, wrapRead_append]
  congr 1
  · apply wrapRead_congr
    intro i inside
    have wrapped := mod_cases (b.tail + i) b.size (by omega)
    apply write_of_disjoint
    change (b.tail + i) % b.size < b.head ∨ b.head + piece.length ≤ (b.tail + i) % b.size
    omega
  · change wrapRead b.size _ ((b.tail + b.count) % b.size) _ = _
    rw [valid.head_eq, wrapRead_eq_read (by omega)]
    exact read_write_same ..

/-! ## Reading a piece -/

def run : Nat := if b.tail ≤ b.head then b.head - b.tail else b.size - b.tail

def pop (len : Nat) : Membuf := { b with tail := (b.tail + len) % b.size }

theorem pop_fields (len : Nat) :
    (b.pop len).tail = (b.tail + len) % b.size ∧ (b.pop len).head = b.head ∧
      (b.pop len).size = b.size :=
  ⟨rfl, rfl, rfl⟩

theorem run_cases :
    b.tail ≤ b.head ∧ b.run = b.head - b.tail ∨ b.head < b.tail ∧ b.run = b.size - b.tail := by
  unfold run
  split <;> omega

theorem Valid.pop (valid : b.Valid) (len : Nat) : (b.pop len).Valid where
  exists_ := valid.exists_
  head := valid.head
  tail := mod_lt _ (by have := valid.head; omega)
  small := valid.small

theorem Valid.count_pop (valid : b.Valid) {len : Nat} (fits : len ≤ b.run) :
    b.count = len + (b.pop len).count := by
  have bounds := valid.bounds
  have poppedCases := (b.pop len).count_cases
  have pieces := b.run_cases
  have wrapped := mod_cases (b.tail + len) b.size (by omega)
  have fields := b.pop_fields len
  omega

theorem Valid.queue_pop (valid : b.Valid) {len : Nat} (fits : len ≤ b.run) :
    b.queue = b.mem.read b.tail len ++ (b.pop len).queue := by
  have bounds := valid.bounds
  have pieces := b.run_cases
  unfold queue
  rw [valid.count_pop fits, wrapRead_append, wrapRead_eq_read (by omega)]
  rfl

/-! ## The functions of the source -/

theorem limited_natCast (n len : Nat) : limited n len = (min n len : Nat) := by
  unfold limited
  split <;> omega

theorem limited_neg {maxlen : Int} (negative : maxlen < 0) (len : Int) :
    limited maxlen len = len := by
  unfold limited
  rw [if_neg (by omega)]

/-- What `membuf_putraw` returns for a length. -/
theorem Valid.membufPutraw_eq (valid : b.Valid) (n : Nat) : b.membufPutraw n true =
      ({ b with head := (b.head + min n b.room) % b.size }, ((min n b.room : Nat) : Int)) := by
  have bounds := valid.bounds
  have spaces := b.room_cases
  have wrapped := mod_cases (b.head + min n b.room) b.size (by omega)
  have done : ∀ position len : Int, position.toNat = (b.head + min n b.room) % b.size →
      len = (min n b.room : Nat) → (b.moveHead true position, len) =
        ({ b with head := (b.head + min n b.room) % b.size }, ((min n b.room : Nat) : Int)) := by
    intro position len samePosition sameLen
    rw [← samePosition, ← sameLen]
    rfl
  unfold membufPutraw
  rw [if_neg (by simp [valid.exists_])]
  dsimp only
  split
  · have lastLen : (b.size : Int) - b.head - 1 = (b.size - b.head - 1 : Nat) := by omega
    rw [lastLen, limited_natCast]
    split
    · exact done _ _ (by omega) (by omega)
    · exact done _ _ (by omega) (by omega)
  · have lastLen : (b.tail : Int) - b.head - 1 = (b.tail - b.head - 1 : Nat) := by omega
    rw [lastLen, limited_natCast]
    exact done _ _ (by omega) (by omega)

theorem Valid.putRound_eq (valid : b.Valid) (buff : List UInt8) :
    b.putRound buff = (b.push (buff.take b.room), buff.drop b.room) := by
  have taken : buff.take (min buff.length b.room) = buff.take b.room := by
    rw [take_eq_take_iff]
    omega
  have dropped : buff.drop (min buff.length b.room) = buff.drop b.room := by
    rcases le_total buff.length b.room with short | long
    · rw [min_eq_left short, drop_eq_nil_of_le le_rfl, drop_eq_nil_of_le short]
    · rw [min_eq_right long]
  unfold putRound
  rw [valid.membufPutraw_eq]
  dsimp only
  rw [Int.toNat_natCast, taken, dropped]
  unfold Membuf.push
  rw [length_take, min_comm buff.length]

def space : Nat := b.size - 1 - b.count

section Valid

variable (valid : b.Valid)

include valid

theorem Valid.room_le_space : b.room ≤ b.space := by
  have bounds := valid.bounds
  have spaces := b.room_cases
  unfold space
  omega

theorem Valid.room_push {piece : List UInt8} (full : piece.length = b.room) :
    b.room + (b.push piece).room = b.space := by
  have bounds := valid.bounds
  have spaces := b.room_cases
  have pushedSpaces := (b.push piece).room_cases
  have wrapped := mod_cases (b.head + piece.length) b.size (by omega)
  have fields := b.push_fields piece
  unfold space
  omega

theorem Valid.membufPut (buff : List UInt8) :
    (b.membufPut buff).1.Valid ∧ (b.membufPut buff).1.queue = b.queue ++ buff.take b.space ∧
      (b.membufPut buff).2 = min buff.length b.space := by
  have roomSpace := valid.room_le_space
  have fits : (buff.take b.room).length ≤ b.room := by
    rw [length_take]
    exact min_le_left _ _
  have valid' := valid.push (buff.take b.room)
  have fits' : ((buff.drop b.room).take (b.push (buff.take b.room)).room).length ≤
      (b.push (buff.take b.room)).room := by
    rw [length_take]
    exact min_le_left _ _
  have both : buff.take b.room ++ (buff.drop b.room).take (b.push (buff.take b.room)).room =
      buff.take b.space := by
    rcases le_total buff.length b.room with short | long
    · rw [drop_eq_nil_of_le short, take_nil, append_nil, take_of_length_le short,
        take_of_length_le (by omega)]
    · rw [← take_add, valid.room_push (by rw [length_take, min_eq_left long])]
  unfold Membuf.membufPut
  rw [valid.putRound_eq]
  dsimp only
  rw [valid'.putRound_eq]
  refine ⟨valid'.push _, ?_, ?_⟩
  · rw [valid'.queue_push fits', valid.queue_push fits, append_assoc, both]
  · have written := congrArg length both
    simp only [length_append, length_take, length_drop] at written ⊢
    omega

/-- What `membuf_getraw` returns when its limit allows `n` bytes. -/
theorem Valid.membufGetraw_eq {maxlen : Int} {n : Nat}
    (limit : ∀ len : Nat, len = b.run → limited maxlen len = (n : Int)) (update : Bool) :
    b.membufGetraw maxlen update = (if update then b.pop n else b, (n : Int)) := by
  have bounds := valid.bounds
  have pieces := b.run_cases
  have atMost := limit b.run rfl
  have short : n ≤ b.run := by
    unfold limited at atMost
    split at atMost <;> omega
  have wrapped := mod_cases (b.tail + n) b.size (by omega)
  have done : ∀ position : Int, position.toNat = (b.tail + n) % b.size →
      (b.moveTail update position, (n : Int)) = (if update then b.pop n else b, (n : Int)) := by
    intro position samePosition
    unfold moveTail Membuf.pop
    rw [samePosition]
  unfold membufGetraw
  split
  · have lastLen : (b.head : Int) - b.tail = (b.head - b.tail : Nat) := by omega
    rw [lastLen, limit _ (by omega)]
    exact done _ (by omega)
  split
  · have lastLen : (b.size : Int) - b.tail = (b.size - b.tail : Nat) := by omega
    rw [lastLen, limit _ (by omega)]
    apply done
    split <;> omega
  have none : n = 0 := by omega
  have same : b.pop 0 = b := by
    unfold Membuf.pop
    rw [add_zero, mod_eq_of_lt valid.tail]
  subst none
  rw [same, ite_self]
  rfl

theorem Valid.membufGetraw_natCast (n : Nat) (update : Bool) : b.membufGetraw n update =
      (if update then b.pop (min n b.run) else b, ((min n b.run : Nat) : Int)) :=
  valid.membufGetraw_eq (fun len same => by rw [same, limited_natCast]) update

theorem Valid.membufGetraw_neg (update : Bool) :
    b.membufGetraw (-1) update = (if update then b.pop b.run else b, (b.run : Int)) :=
  valid.membufGetraw_eq (fun len same => by rw [same, limited_neg (by decide)]) update

theorem Valid.getRound_eq (n : Nat) :
    b.getRound n = (b.pop (min n b.run), b.mem.read b.tail (min n b.run)) := by
  unfold getRound
  rw [valid.membufGetraw_natCast]
  rfl

theorem Valid.run_pop : (b.pop b.run).run = (b.pop b.run).count := by
  have bounds := valid.bounds
  have pieces := b.run_cases
  have cases := (b.pop b.run).count_cases
  have poppedPieces := (b.pop b.run).run_cases
  have wrapped := mod_cases (b.tail + b.run) b.size (by omega)
  have fields := b.pop_fields b.run
  omega

theorem Valid.getRound (n : Nat) : (b.getRound n).1.Valid ∧ (b.getRound n).2.length = min n b.run ∧
      b.queue = (b.getRound n).2 ++ (b.getRound n).1.queue := by
  rw [valid.getRound_eq]
  exact ⟨valid.pop _, length_read .., valid.queue_pop (min_le_right _ _)⟩

end Valid

theorem take_drop_of_cut {rest : Membuf} {bytes : List UInt8} {n : Nat} (restValid : rest.Valid)
    (cut : b.queue = bytes ++ rest.queue) (full : bytes.length = min n b.count) :
    rest.Valid ∧ bytes = b.queue.take n ∧ rest.queue = b.queue.drop n := by
  rcases le_total n b.count with enough | few
  · have all : bytes.length = n := by omega
    rw [cut, ← all, take_left, drop_left]
    exact ⟨restValid, rfl, rfl⟩
  have lengths := congrArg length cut
  rw [length_append, length_queue, length_queue] at lengths
  have nil : rest.queue = [] := by
    rw [← length_eq_zero_iff, length_queue]
    omega
  rw [cut, nil, append_nil, take_of_length_le (by omega), drop_eq_nil_of_le (by omega)]
  exact ⟨restValid, rfl, rfl⟩

section Valid

variable (valid : b.Valid)

include valid

theorem Valid.min_count (n : Nat) :
    min n b.run + min (n - min n b.run) (b.pop (min n b.run)).run = min n b.count := by
  have bounds := valid.bounds
  have pieces := b.run_cases
  by_cases limit : n ≤ b.run
  · rw [min_eq_left limit, Nat.sub_self, Nat.zero_min]
    omega
  have last := valid.run_pop
  have total := valid.count_pop le_rfl
  rw [min_eq_right (by omega : b.run ≤ n), last]
  omega

theorem Valid.membufGet (n : Nat) : (b.membufGet n).1.Valid ∧ (b.membufGet n).2 = b.queue.take n ∧
      (b.membufGet n).1.queue = b.queue.drop n := by
  obtain ⟨valid', length, cut⟩ := valid.getRound n
  have both := valid.min_count n
  have popped : (b.getRound n).1 = b.pop (min n b.run) := congrArg Prod.fst (valid.getRound_eq n)
  unfold Membuf.membufGet
  dsimp only
  split
  · next none =>
    have sameRun : (b.pop (min n b.run)).run = b.run := by
      rw [← length, none]
      unfold Membuf.pop
      rw [add_zero, mod_eq_of_lt valid.tail]
    apply take_drop_of_cut valid' cut
    omega
  · have rest : (n : Int) - (b.getRound n).2.length = (n - min n b.run : Nat) := by omega
    obtain ⟨valid'', length', cut'⟩ := valid'.getRound (n - min n b.run)
    rw [rest]
    apply take_drop_of_cut valid''
    · rw [cut, cut', append_assoc]
    · rw [length_append, length, length', popped, both]

theorem Valid.membufAvail_eq : b.membufAvail = b.count := by
  have total := valid.count_pop le_rfl
  unfold membufAvail
  dsimp only
  rw [valid.membufGetraw_neg, if_pos rfl, (valid.pop b.run).membufGetraw_neg, valid.run_pop]
  omega

theorem Valid.membufFree_eq : b.membufFree = b.space := by
  have short := valid.count_lt
  unfold membufFree space
  rw [if_neg (by omega), valid.membufAvail_eq]
  omega

theorem Valid.front : b.run = 0 ∧ b.queue = [] ∧ b.pop 0 = b ∨
      0 < b.run ∧ b.queue = b.mem b.tail :: (b.pop 1).queue := by
  have bounds := valid.bounds
  have pieces := b.run_cases
  rcases Nat.eq_zero_or_pos b.run with none | some
  · refine .inl ⟨none, ?_, ?_⟩
    · rw [← length_eq_zero_iff, length_queue]
      omega
    · unfold Membuf.pop
      rw [add_zero, mod_eq_of_lt valid.tail]
  · exact .inr ⟨some, valid.queue_pop some⟩

theorem Valid.membufGetbyte : b.membufGetbyte.1.Valid ∧ b.membufGetbyte.2 = b.queue.head? ∧
      b.membufGetbyte.1.queue = b.queue.drop 1 := by
  have raw := valid.membufGetraw_natCast 1 true
  unfold Membuf.membufGetbyte
  rw [cast_one] at raw
  rw [raw, if_pos rfl]
  rcases valid.front with ⟨none, empty, same⟩ | ⟨some, front⟩
  · rw [none, min_zero, same, empty]
    exact ⟨valid, rfl, rfl⟩
  · rw [min_eq_left (show 1 ≤ b.run from some), front]
    exact ⟨valid.pop 1, rfl, rfl⟩

theorem Valid.membufPeekbyte_eq : b.membufPeekbyte = b.queue.head? := by
  have raw := valid.membufGetraw_natCast 1 false
  unfold membufPeekbyte
  rw [cast_one] at raw
  rw [raw]
  rcases valid.front with ⟨none, empty, -⟩ | ⟨some, front⟩
  · rw [none, min_zero, empty]
    rfl
  · rw [min_eq_left (show 1 ≤ b.run from some), front]
    rfl

theorem Valid.membufPutbyte (ch : UInt8) :
    (b.membufPutbyte ch).1.Valid ∧ (b.membufPutbyte ch).2 = decide (0 < b.space) ∧
      (b.membufPutbyte ch).1.queue = b.queue ++ [ch].take b.space := by
  have bounds := valid.bounds
  have spaces := b.room_cases
  have raw := valid.membufPutraw_eq 1
  have below := valid.room_le_space
  unfold Membuf.membufPutbyte
  rw [cast_one] at raw
  rw [raw]
  dsimp only
  rcases Nat.eq_zero_or_pos b.room with none | some
  · have full : b.space = 0 := by
      unfold space
      omega
    have same : (b.head + 0) % b.size = b.head := mod_eq_of_lt valid.head
    rw [none, min_zero, if_pos (by decide), full, same]
    exact ⟨valid, rfl, (append_nil _).symm⟩
  have fits : [ch].length ≤ b.room := some
  have one : min 1 b.room = 1 := by omega
  rw [one, if_neg (by decide)]
  refine ⟨valid.push [ch], ?_, ?_⟩
  · exact (decide_eq_true (by omega)).symm
  · rw [take_of_length_le (fits.trans below)]
    exact valid.queue_push fits

end Valid

/-! ## Moving the buffer -/

theorem same_queue {b' : Membuf} (isThere : b'.isNull = false) (small : b'.size < 2 ^ 31)
    (position : b'.head < b'.size ∧ b'.tail < b'.size ∧
      (b'.tail ≤ b'.head ∧ b.count = b'.head - b'.tail ∨
        b'.head < b'.tail ∧ b.count = b'.size - b'.tail + b'.head))
    (agree : ∀ i < b.count, b'.mem ((b'.tail + i) % b'.size) = b.mem ((b.tail + i) % b.size)) :
    b'.Valid ∧ b'.queue = b.queue := by
  refine ⟨⟨isThere, position.1, position.2.1, small⟩, ?_⟩
  unfold queue
  rw [count_eq position.2.2]
  exact wrapRead_congr agree

theorem Valid.membufMakecontig (valid : b.Valid) : b.membufMakecontig = (b, false) ∨
      b.membufMakecontig.2 = true ∧ b.membufMakecontig.1.size = b.size ∧
        b.membufMakecontig.1.Valid ∧ b.membufMakecontig.1.queue = b.queue := by
  have bounds := valid.bounds
  unfold Membuf.membufMakecontig
  dsimp only
  split
  · next wraps =>
    split
    · exact .inl rfl
    next fits =>
    refine .inr ⟨rfl, rfl, same_queue valid.exists_ valid.small ?_ ?_⟩ <;> dsimp only
    · omega
    intro i inside
    have wrapped := mod_cases (b.tail + i) b.size (by omega)
    have direct : (0 + i) % b.size = 0 + i := mod_eq_of_lt (by omega)
    rw [direct]
    by_cases top : i < b.size - b.tail
    · rw [copy_inside (.inl (zero_le _)) top, move_of_disjoint (by omega)]
      congr 1
      omega
    have shifted : 0 + i = (b.size - b.tail) + (i - (b.size - b.tail)) := by omega
    rw [copy_of_disjoint (by omega), shifted, move_inside (by omega)]
    congr 1
    omega
  · next straight =>
    refine .inr ⟨rfl, rfl, same_queue valid.exists_ valid.small ?_ ?_⟩ <;> dsimp only
    · omega
    intro i inside
    have wrapped := mod_cases (b.tail + i) b.size (by omega)
    have direct : (0 + i) % b.size = 0 + i := mod_eq_of_lt (by omega)
    rw [direct, copy_inside (.inl (zero_le _)) (by omega)]
    congr 1
    omega

theorem Valid.resize (valid : b.Valid) (fresh : Memory) {size : Nat} (larger : b.size < size)
    (small : size < 2 ^ 31) :
    (b.resize fresh size).Valid ∧ (b.resize fresh size).queue = b.queue := by
  have bounds := valid.bounds
  unfold Membuf.resize
  split
  · next wraps =>
    refine same_queue valid.exists_ small ?_ ?_ <;> dsimp only
    · omega
    intro i inside
    have wrapped := mod_cases (b.tail + i) b.size (by omega)
    have wrapped' := mod_cases (b.tail + (size - b.size) + i) size (by omega)
    by_cases top : i < b.size - b.tail
    · have direct : (b.tail + (size - b.size) + i) % size = b.tail + (size - b.size) + i := by omega
      rw [direct, move_inside top, if_pos (by omega)]
      congr 1
      omega
    · rw [move_of_disjoint (by omega), if_pos (by omega)]
      congr 1
      omega
  · next straight =>
    refine same_queue valid.exists_ small ?_ ?_ <;> dsimp only
    · omega
    intro i inside
    have wrapped := mod_cases (b.tail + i) b.size (by omega)
    have direct : (b.tail + i) % size = b.tail + i := mod_eq_of_lt (by omega)
    rw [direct, if_pos (by omega)]
    congr 1
    omega

theorem Valid.membufExtendBy (valid : b.Valid) {extra max : BitVec 32} {ptr : Option Memory}
    {b' : Membuf} {error : Option MembufError}
    (returned : b.membufExtendBy extra max ptr = some (b', error)) :
    b' = b ∧ error ≠ none ∨ b'.Valid ∧ b'.queue = b.queue ∧ b.size < b'.size ∧ error = none := by
  have small := valid.small
  obtain ⟨size, -, result⟩ := Option.map_eq_some_iff.1 returned
  split at result
  · cases result
    exact .inl ⟨rfl, nofun⟩
  next grows =>
  split at result
  · cases result
    exact .inl ⟨rfl, nofun⟩
  next fresh =>
  split at result
  · cases result
    exact .inl ⟨rfl, nofun⟩
  next positive =>
  have larger : b.size < size.toNat ∧ size.toNat < 2 ^ 31 := by
    have orig : (BitVec.ofNat 32 b.size).toNat = b.size := by
      rw [BitVec.toNat_ofNat, mod_eq_of_lt (by omega)]
    rw [BitVec.sle_iff_toInt_le, BitVec.toInt_eq_toNat_cond, BitVec.toNat_sub, orig] at grows
    rw [BitVec.slt_iff_toInt_lt, BitVec.toInt_eq_toNat_cond] at positive
    have zero : (0 : BitVec 32).toInt = 0 := rfl
    have bound := size.isLt
    rw [zero] at grows positive
    split at positive <;> split at grows <;> omega
  cases result
  obtain ⟨valid', same⟩ := valid.resize fresh larger.1 larger.2
  refine .inr ⟨valid', same, ?_, rfl⟩
  unfold Membuf.resize
  split
  · exact larger.1
  · exact larger.1

end Membuf

/-! ## Runs -/

/-- A call on a buffer; `ptr` is what `realloc` returns. -/
inductive MembufEvent where
  | put (buff : List UInt8)
  | putbyte (ch : UInt8)
  | get (maxlen : Nat)
  | getbyte
  | peekbyte
  | makecontig
  | extendBy (extra max : BitVec 32) (ptr : Option Memory)

/-- A buffer with the bytes that it accepted and the bytes that were read from it. -/
structure MembufRun where
  buffer : Membuf
  accepted : List UInt8
  output : List UInt8

namespace MembufRun

def step (c : MembufRun) : MembufEvent → MembufRun
  | .put buff =>
    let r := c.buffer.membufPut buff
    ⟨r.1, c.accepted ++ buff.take r.2, c.output⟩
  | .putbyte ch =>
    let r := c.buffer.membufPutbyte ch
    ⟨r.1, if r.2 then c.accepted ++ [ch] else c.accepted, c.output⟩
  | .get maxlen =>
    let r := c.buffer.membufGet maxlen
    ⟨r.1, c.accepted, c.output ++ r.2⟩
  | .getbyte =>
    let r := c.buffer.membufGetbyte
    ⟨r.1, c.accepted, c.output ++ r.2.toList⟩
  | .peekbyte => c
  | .makecontig => { c with buffer := c.buffer.membufMakecontig.1 }
  | .extendBy extra max ptr =>
    match c.buffer.membufExtendBy extra max ptr with
    | some (buffer, none) => { c with buffer := buffer }
    | _ => c

def run (c : MembufRun) (events : List MembufEvent) : MembufRun := events.foldl step c

def start (mem : Memory) (size : Nat) : MembufRun := ⟨membufInit mem size, [], []⟩

structure Sound (c : MembufRun) : Prop where
  valid : c.buffer.Valid
  order : c.accepted = c.output ++ c.buffer.queue

variable {c : MembufRun}

theorem Sound.step (sound : c.Sound) (event : MembufEvent) : (c.step event).Sound := by
  have valid := sound.valid
  cases event with
  | put buff =>
    obtain ⟨valid', queue, number⟩ := valid.membufPut buff
    refine ⟨valid', ?_⟩
    unfold MembufRun.step
    dsimp only
    rw [queue, number, sound.order, append_assoc, min_comm, ← take_eq_take_min]
  | putbyte ch =>
    obtain ⟨valid', accepted, queue⟩ := valid.membufPutbyte ch
    refine ⟨valid', ?_⟩
    unfold MembufRun.step
    dsimp only
    rw [queue, accepted, sound.order]
    by_cases some : 0 < c.buffer.space
    · rw [if_pos (decide_eq_true some), take_of_length_le some, append_assoc]
    · have none : c.buffer.space = 0 := by omega
      rw [if_neg (by simpa using none), none, take_zero, append_nil]
  | get maxlen =>
    obtain ⟨valid', bytes, queue⟩ := valid.membufGet maxlen
    refine ⟨valid', ?_⟩
    unfold MembufRun.step
    dsimp only
    rw [queue, bytes, sound.order, append_assoc, take_append_drop]
  | getbyte =>
    obtain ⟨valid', byte, queue⟩ := valid.membufGetbyte
    refine ⟨valid', ?_⟩
    unfold MembufRun.step
    dsimp only
    rw [queue, byte, sound.order, append_assoc]
    cases c.buffer.queue <;> rfl
  | peekbyte => exact sound
  | makecontig =>
    rcases valid.membufMakecontig with same | ⟨-, -, valid', queue⟩
    · refine ⟨?_, ?_⟩
      · unfold MembufRun.step
        rw [same]
        exact valid
      · unfold MembufRun.step
        rw [same]
        exact sound.order
    · exact ⟨valid', sound.order.trans (by rw [← queue]; rfl)⟩
  | extendBy extra max ptr =>
    unfold MembufRun.step
    dsimp only
    split
    · next buffer returned =>
      rcases valid.membufExtendBy returned with ⟨-, failed⟩ | ⟨valid', queue, -, -⟩
      · exact absurd rfl failed
      · exact ⟨valid', sound.order.trans (by rw [← queue])⟩
    · exact sound

theorem Sound.run (sound : c.Sound) (events : List MembufEvent) : (c.run events).Sound := by
  induction events generalizing c with
  | nil => exact sound
  | cons event _ ih => exact ih (sound.step event)

/-- After any calls on a new buffer the bytes that were read are the bytes that were accepted,
in order; the bytes that were not yet read are what is read next, and every function
reports their number and the space that is left. -/
theorem bounded_fifo (mem : Memory) (n : Nat) (some : 0 < n) (small : n < 2 ^ 31)
    (events : List MembufEvent) :
    let c := (start mem n).run events
    c.buffer.head < c.buffer.size ∧ c.buffer.tail < c.buffer.size ∧
      c.buffer.membufAvail + c.buffer.membufFree = c.buffer.membufSize - 1 ∧
      (∀ buff, ((c.buffer.membufPut buff).2 : Int) = min (buff.length : Int) c.buffer.membufFree) ∧
      (∀ ch, (c.buffer.membufPutbyte ch).2 = decide (0 < c.buffer.membufFree)) ∧
      (c.buffer.membufMakecontig.2 = false → c.buffer.membufMakecontig.1 = c.buffer) ∧
      ∃ rest, c.accepted = c.output ++ rest ∧ c.buffer.membufAvail = rest.length ∧
        (∀ maxlen : Nat, (c.buffer.membufGet maxlen).2 = rest.take maxlen ∧
          ((c.buffer.membufGet maxlen).2.length : Int) = min (maxlen : Int) c.buffer.membufAvail) ∧
        c.buffer.membufGetbyte.2 = rest.head? ∧ c.buffer.membufPeekbyte = rest.head? := by
  have initial : (start mem n).Sound := ⟨⟨rfl, some, some, small⟩, rfl⟩
  have sound := initial.run events
  have valid := sound.valid
  have short := valid.count_lt
  dsimp only
  generalize (start mem n).run events = c at *
  rw [valid.membufAvail_eq, valid.membufFree_eq]
  refine ⟨valid.head, valid.tail, ?_, ?_, ?_, ?_, c.buffer.queue, sound.order, ?_, ?_, ?_, ?_⟩
  · unfold space membufSize
    omega
  · intro buff
    rw [(valid.membufPut buff).2.2]
    omega
  · intro ch
    rw [(valid.membufPutbyte ch).2.1]
    simp
  · intro refused
    rcases valid.membufMakecontig with same | ⟨done, -⟩
    · rw [same]
    · rw [refused] at done
      cases done
  · rw [length_queue]
  · intro maxlen
    have bytes := (valid.membufGet maxlen).2.1
    refine ⟨bytes, ?_⟩
    rw [bytes, length_take, length_queue]
    omega
  · exact valid.membufGetbyte.2.1
  · exact valid.membufPeekbyte_eq

theorem bounded_fifo_after_wrap :
    let events : List MembufEvent := [.put [1, 2, 3, 4], .get 2, .put [5, 6, 7], .makecontig,
      .extendBy 3 (-1) (some fun _ => 0xff), .putbyte 8, .get 1, .peekbyte]
    let c := (start (fun _ => 0) 5).run events
    (c.accepted = [1, 2, 3, 4, 5, 6, 8] ∧ c.output = [1, 2, 3] ∧ c.buffer.size = 10) ∧
      c.buffer.membufAvail + c.buffer.membufFree = c.buffer.membufSize - 1 :=
  ⟨by decide, (bounded_fifo (fun _ => 0) 5 (by decide) (by decide) _).2.2.1⟩

end MembufRun

end UBoot
