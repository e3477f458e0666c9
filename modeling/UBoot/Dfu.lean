import Mathlib.Data.Nat.Bitwise
import UBoot.Common

/-!
# Device firmware upgrade

`dfu_write` of `drivers/dfu/dfu.c` collects the blocks that the host sends in a buffer, which
is written to the medium when the next block would not fit.  The writes are recorded, and the
medium is a function that says, with those before it, how a write ends and how many bytes it
has taken.
-/

namespace UBoot

/-- The fields that a transfer to the medium uses, and the writes that were made. -/
structure Dfu where
  inited : Bool
  iBlkSeqNum : Nat
  offset : Nat
  buf : List UInt8
  written : List (Nat × List UInt8)

/-- The medium, the size of the buffer, and the result of `flush_medium`. -/
structure DfuConfig where
  writeMedium : (written : List (Nat × List UInt8)) → (offset : Nat) → List UInt8 → Int × Nat
  bufSize : Nat
  flushMedium : Int

namespace Dfu

variable (c : DfuConfig) (d : Dfu)

def dfuWriteBufferDrain : Int × Dfu :=
  if d.buf = [] then (0, d)
  else
    let (ret, wSize) := c.writeMedium d.written d.offset d.buf
    (ret, { d with
      buf := [], offset := d.offset + wSize, written := d.written ++ [(d.offset, d.buf)] })

def dfuTransactionCleanup : Dfu :=
  { d with inited := false, iBlkSeqNum := 0, offset := 0, buf := [] }

def dfuTransactionInitiate : Dfu :=
  if d.inited then d else { d.dfuTransactionCleanup with inited := true }

def drainIf (full : Bool) : Int × Dfu := if full then d.dfuWriteBufferDrain c else (0, d)

def dfuWrite (block : List UInt8) (blkSeqNum : Nat) : Int × Dfu :=
  let d := d.dfuTransactionInitiate
  let full (d : Dfu) : Bool := c.bufSize < d.buf.length + block.length
  if d.iBlkSeqNum ≠ blkSeqNum then (-1, d.dfuTransactionCleanup)
  else
    let d := { d with iBlkSeqNum := (d.iBlkSeqNum + 1) % 2 ^ 16 }
    let (ret, d) := d.drainIf c (full d)
    if ret ≠ 0 then (ret, d.dfuTransactionCleanup)
    else if full d then (-1, d.dfuTransactionCleanup)
    else
      let d := { d with buf := d.buf ++ block }
      let (ret, d) := d.drainIf c (block.isEmpty || full d)
      if ret ≠ 0 then (ret, d.dfuTransactionCleanup) else (0, d)

def dfuFlush : Int × Dfu :=
  let (ret, d) := d.dfuWriteBufferDrain c
  if ret ≠ 0 then (ret, d) else (c.flushMedium, d.dfuTransactionCleanup)

/-- A call of the host: a block with its number, or the end of the transfer. -/
inductive Call
  | write (block : List UInt8) (blkSeqNum : Nat)
  | flush

def call : Call → Int × Dfu
  | .write block blkSeqNum => d.dfuWrite c block blkSeqNum
  | .flush => d.dfuFlush c

/-- The blocks of a transfer, numbered from `count` on. -/
def writes : (count : Nat) → List (List UInt8) → List Call
  | _, [] => []
  | count, block :: blocks => .write block (count % 2 ^ 16) :: writes (count + 1) blocks

/-- The results of some calls, and what they leave. -/
def run (d : Dfu) : List Call → List Int × Dfu
  | [] => ([], d)
  | call :: calls =>
    let (ret, d) := d.call c call
    let (rets, d) := d.run calls
    (ret :: rets, d)

/-- Writes of at most `size` bytes that follow one another and end at an offset. -/
inductive Laid (size : Nat) : List (Nat × List UInt8) → Nat → Prop
  | nil : Laid size [] 0
  | snoc {new : List (Nat × List UInt8)} {offset : Nat} {piece : List UInt8}
      (laid : Laid size new offset) (nonempty : piece ≠ []) (fits : piece.length ≤ size) :
      Laid size (new ++ [(offset, piece)]) (offset + piece.length)

theorem Laid.length_flatten {size offset : Nat} {new : List (Nat × List UInt8)}
    (laid : Laid size new offset) : (new.map Prod.snd).flatten.length = offset := by
  induction laid with
  | nil => rfl
  | snoc _ _ _ ih => simp [← ih]

/-- The data of a transfer have been written, but for what is in the buffer. -/
structure Holds (old : List (Nat × List UInt8)) (data : List UInt8) (count : Nat) : Prop where
  inited : d.inited = true
  seq : d.iBlkSeqNum = count % 2 ^ 16
  small : d.buf.length ≤ c.bufSize
  pieces : ∃ new, d.written = old ++ new ∧ Laid c.bufSize new d.offset ∧
    (new.map Prod.snd).flatten ++ d.buf = data

variable {c d} {old : List (Nat × List UInt8)} {data block : List UInt8} {count : Nat}
  (accepts : ∀ written offset bytes, c.writeMedium written offset bytes = (0, bytes.length))

include accepts

theorem Holds.drain (holds : d.Holds c old data count) :
    ∃ e, d.dfuWriteBufferDrain c = (0, e) ∧ e.Holds c old data count ∧ e.buf = [] := by
  unfold dfuWriteBufferDrain
  split
  next empty => exact ⟨d, rfl, holds, empty⟩
  next nonempty =>
    obtain ⟨new, written, laid, all⟩ := holds.pieces
    rw [accepts]
    refine ⟨_, rfl, ⟨holds.inited, holds.seq, Nat.zero_le _,
      new ++ [(d.offset, d.buf)], ?_, ?_, ?_⟩, rfl⟩
    · simp [written]
    · exact .snoc laid nonempty holds.small
    · simpa using all

theorem Holds.drainIf (holds : d.Holds c old data count) (full : Bool) :
    ∃ e, d.drainIf c full = (0, e) ∧ e.Holds c old data count ∧
      (if full then e.buf = [] else e = d) := by
  unfold Dfu.drainIf
  cases full with
  | true => exact holds.drain accepts
  | false => exact ⟨d, rfl, holds, rfl⟩

theorem Holds.write (holds : d.dfuTransactionInitiate.Holds c old data count)
    (fits : block.length ≤ c.bufSize) : ∃ e, d.dfuWrite c block (count % 2 ^ 16) = (0, e) ∧
      e.Holds c old (data ++ block) (count + 1) := by
  unfold dfuWrite
  simp only [holds.seq, ne_eq, not_true_eq_false, if_false]
  have counted : Holds c { d.dfuTransactionInitiate with
      iBlkSeqNum := (count % 2 ^ 16 + 1) % 2 ^ 16 } old data (count + 1) :=
    ⟨holds.inited, by simp [Nat.add_mod], holds.small, holds.pieces⟩
  obtain ⟨e, first, holdsE, room⟩ := counted.drainIf accepts
    (decide (c.bufSize < d.dfuTransactionInitiate.buf.length + block.length))
  have roomE : ¬c.bufSize < e.buf.length + block.length := by
    split at room
    next => simpa [room] using fits
    next notFull => simpa [room] using notFull
  simp only [first, not_true_eq_false, if_false, decide_eq_true_eq, if_neg roomE]
  have extended : Holds c { e with buf := e.buf ++ block } old (data ++ block) (count + 1) := by
    obtain ⟨new, written, laid, all⟩ := holdsE.pieces
    refine ⟨holdsE.inited, holdsE.seq, ?_, new, written, laid, ?_⟩
    · rw [List.length_append]
      omega
    · rw [← all, List.append_assoc]
  obtain ⟨f, second, holdsF, -⟩ := extended.drainIf accepts
    (block.isEmpty || decide (c.bufSize < (e.buf ++ block).length + block.length))
  simp only [second, not_true_eq_false, if_false]
  exact ⟨f, rfl, holdsF⟩

theorem Holds.writes {blocks : List (List UInt8)} (fit : ∀ block ∈ blocks, block.length ≤ c.bufSize)
    (holds : d.Holds c old data count) : ∃ e,
      d.run c (writes count blocks) = (List.replicate blocks.length 0, e) ∧
        e.Holds c old (data ++ blocks.flatten) (count + blocks.length) := by
  induction blocks generalizing d data count with
  | nil => exact ⟨d, rfl, by simpa using holds⟩
  | cons block blocks ih =>
    rw [List.forall_mem_cons] at fit
    have going : d.dfuTransactionInitiate = d := if_pos holds.inited
    obtain ⟨e, first, holdsE⟩ := (going.symm ▸ holds).write accepts fit.1
    obtain ⟨f, later, holdsF⟩ := ih fit.2 holdsE
    refine ⟨f, ?_, ?_⟩
    · simp only [Dfu.writes, run, call, first, later, List.length_cons, List.replicate_succ]
    · simpa [Nat.add_assoc, Nat.add_comm 1] using holdsF

omit accepts

/-- A transfer of blocks that fit in the buffer, with any number of them: every call succeeds,
the medium gets the bytes of the blocks in order and without gaps, in pieces that fit in the
buffer, and the entity is then as idle as before. -/
theorem run_transparent (c : DfuConfig) (d : Dfu) (blocks : List (List UInt8))
    (accepts : ∀ written offset bytes, c.writeMedium written offset bytes = (0, bytes.length))
    (idle : d.dfuTransactionCleanup = d) (fit : ∀ block ∈ blocks, block.length ≤ c.bufSize) :
    ∃ e new, d.run c (writes 0 blocks) = (List.replicate blocks.length 0, e) ∧
      e.dfuFlush c = (c.flushMedium, { d with written := d.written ++ new }) ∧
      Laid c.bufSize new blocks.flatten.length ∧ (new.map Prod.snd).flatten = blocks.flatten := by
  have fresh : d.dfuTransactionInitiate.Holds c d.written [] 0 := by
    rw [← idle]
    exact ⟨rfl, rfl, Nat.zero_le _, [], by simp [dfuTransactionInitiate, dfuTransactionCleanup],
      .nil, rfl⟩
  cases blocks with
  | nil =>
    refine ⟨d, [], rfl, ?_, .nil, rfl⟩
    rw [← idle]
    simp [dfuFlush, dfuWriteBufferDrain, dfuTransactionCleanup]
  | cons block blocks =>
    rw [List.forall_mem_cons] at fit
    obtain ⟨e, first, holdsE⟩ := fresh.write accepts fit.1
    obtain ⟨f, later, holdsF⟩ := holdsE.writes accepts fit.2
    obtain ⟨g, drained, holdsG, empty⟩ := holdsF.drain accepts
    obtain ⟨new, written, laid, all⟩ := holdsG.pieces
    rw [empty, List.append_nil, List.nil_append] at all
    refine ⟨f, new, ?_, ?_, ?_, all⟩
    · simp only [writes, run, call, first, later, List.length_cons, List.replicate_succ]
    · have same : g.dfuTransactionCleanup = { d with written := d.written ++ new } := by
        rw [← written]
        conv_rhs => rw [← idle]
        rfl
      simp only [dfuFlush, drained, not_true_eq_false, ne_eq, if_false, same]
    · rw [List.flatten_cons, ← all, laid.length_flatten]
      exact laid

theorem run_transparent_two : ∃ e new, (Dfu.mk false 0 0 [] []).run
      ⟨fun _ _ b => (0, b.length), 3, 0⟩ (writes 0 [[1, 2], [3, 4]]) = ([0, 0], e) ∧
    e.dfuFlush ⟨fun _ _ b => (0, b.length), 3, 0⟩ = (0, ⟨false, 0, 0, [], new⟩) ∧
    (new.map Prod.snd).flatten = [1, 2, 3, 4] := by
  obtain ⟨e, new, ran, flushed, -, all⟩ := run_transparent ⟨fun _ _ b => (0, b.length), 3, 0⟩
    ⟨false, 0, 0, [], []⟩ [[1, 2], [3, 4]] (fun _ _ _ => rfl) rfl (by decide)
  exact ⟨e, new, ran, flushed, all⟩

/-- The buffer holds what it has room for, and so did every piece that was written. -/
structure Bounded (c : DfuConfig) (d : Dfu) : Prop where
  small : d.buf.length ≤ c.bufSize
  pieces : ∀ piece ∈ d.written, piece.2 ≠ [] ∧ piece.2.length ≤ c.bufSize

theorem Bounded.cleanup (bounded : d.Bounded c) : d.dfuTransactionCleanup.Bounded c :=
  ⟨Nat.zero_le _, bounded.pieces⟩

theorem Bounded.drain (bounded : d.Bounded c) : (d.dfuWriteBufferDrain c).2.Bounded c := by
  unfold dfuWriteBufferDrain
  split
  next => exact bounded
  next nonempty =>
    refine ⟨Nat.zero_le _, ?_⟩
    rw [List.forall_mem_append, List.forall_mem_singleton]
    exact ⟨bounded.pieces, nonempty, bounded.small⟩

theorem Bounded.drainIf (bounded : d.Bounded c) (full : Bool) : (d.drainIf c full).2.Bounded c := by
  cases full with
  | true => exact bounded.drain
  | false => exact bounded

theorem Bounded.write (bounded : d.Bounded c) (block : List UInt8) (blkSeqNum : Nat) :
    (d.dfuWrite c block blkSeqNum).2.Bounded c := by
  have initiated : d.dfuTransactionInitiate.Bounded c := by
    unfold dfuTransactionInitiate
    split
    · exact bounded
    · exact ⟨Nat.zero_le _, bounded.pieces⟩
  unfold dfuWrite
  generalize d.dfuTransactionInitiate = d at initiated
  have first := Bounded.drainIf (d := { d with iBlkSeqNum := (d.iBlkSeqNum + 1) % 2 ^ 16 })
    ⟨initiated.small, initiated.pieces⟩ (decide (c.bufSize < d.buf.length + block.length))
  dsimp only
  generalize Dfu.drainIf c _ _ = drained at first
  split_ifs with _ _ full
  · exact initiated.cleanup
  · exact first.cleanup
  · exact first.cleanup
  all_goals
    have extended : Bounded c { drained.2 with buf := drained.2.buf ++ block } :=
      ⟨by simpa using full, first.pieces⟩
  · exact (extended.drainIf _).cleanup
  · exact extended.drainIf _

theorem Bounded.call (bounded : d.Bounded c) (call : Call) : (d.call c call).2.Bounded c := by
  cases call with
  | write block blkSeqNum => exact bounded.write block blkSeqNum
  | flush =>
    unfold Dfu.call dfuFlush
    dsimp only
    split
    · exact bounded.drain
    · exact bounded.drain.cleanup

/-- Whatever the host sends and however the medium answers, the buffer never overflows, and the
medium gets no piece that is empty or larger than the buffer. -/
theorem run_bounded (c : DfuConfig) (d : Dfu) (calls : List Call) (bounded : d.Bounded c) :
    (d.run c calls).2.Bounded c := by
  induction calls generalizing d with
  | nil => exact bounded
  | cons call calls ih => exact ih _ (bounded.call call)

theorem run_bounded_large : let failsOnce : DfuConfig :=
      ⟨fun written _ b => if written = [] then (-5, 0) else (0, b.length), 3, 0⟩
    Bounded failsOnce ((Dfu.mk false 0 0 [] []).run failsOnce
      [.write [1, 2] 0, .write [3, 4] 1, .write [5] 0, .flush]).2 :=
  run_bounded _ _ _ ⟨Nat.zero_le _, by simp⟩

end Dfu

end UBoot
