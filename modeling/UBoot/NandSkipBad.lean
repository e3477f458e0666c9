import UBoot.NandUtil
import UBoot.SkipWalk

/-!
# NAND images behind bad blocks

A write takes the good bytes of the flash from an offset on, block by block.  The
read takes those that are good by a test of its own, in which the offset loses its
upper half.  An image is therefore read back exactly if the two tests agree on the
blocks that are passed, or none of those is bad.
-/

namespace UBoot

open List Option Nat MtdInfo Memory

variable (mtd : MtdInfo)

def MtdInfo.good (chip : NandChip) (x : Nat) : Bool := !chip.bad (x / mtd.erasesize)

def MtdInfo.good32 (chip : NandChip) (x : Nat) : Bool := !chip.bad (x % 2 ^ 32 / mtd.erasesize)

def MtdInfo.imageBytes (chip : NandChip) (offset length : Nat) : List Nat :=
  goodAddresses (mtd.good chip) offset (mtd.size - offset) length

def MtdInfo.imageLength (chip : NandChip) (offset length : Nat) : Nat :=
  walkLength (mtd.good chip) offset (mtd.size - offset) length

def MtdInfo.rest (offset : Nat) : Nat := mtd.erasesize - offset % mtd.erasesize

def MtdInfo.AllGood (chip : NandChip) (offset length : Nat) : Prop :=
  ∀ x, offset ≤ x → x < offset + mtd.imageLength chip offset length → mtd.good chip x = true

namespace MtdInfo

variable {mtd : MtdInfo} {chip : NandChip} {offset x : Nat}

theorem erasesize_pos : 0 < mtd.erasesize := by
  obtain ⟨shift, -, isPow⟩ := mtd.erasesize_pow
  rw [isPow]
  exact Nat.two_pow_pos shift

theorem erasesize_le : mtd.erasesize ≤ 2 ^ 31 := by
  obtain ⟨shift, small, isPow⟩ := mtd.erasesize_pow
  rw [isPow]
  exact Nat.pow_le_pow_right (by omega) (by omega)

theorem erasesize_dvd_word : mtd.erasesize ∣ 2 ^ 32 := by
  obtain ⟨shift, small, isPow⟩ := mtd.erasesize_pow
  rw [isPow]
  exact pow_dvd_pow 2 (by omega)

theorem sub_blockOffset (offset : Nat) :
    mtd.erasesize - mtd.blockOffset offset = mtd.rest offset := by
  obtain ⟨shift, -, isPow⟩ := mtd.erasesize_pow
  unfold blockOffset rest
  rw [isPow, and_two_pow_sub_one_eq_mod]

theorem blockStart_eq (inside : offset < mtd.size) :
    mtd.blockStart offset = offset / mtd.erasesize * mtd.erasesize := by
  obtain ⟨shift, small, isPow⟩ := mtd.erasesize_pow
  have sizeLt := mtd.size_lt
  have mask : (BitVec.ofNat 64 (mtd.erasesize - 1)).toNat = 2 ^ shift - 1 := by
    have less : 2 ^ shift < 2 ^ 64 := Nat.pow_lt_pow_right (by omega) (by omega)
    rw [BitVec.toNat_ofNat, isPow, mod_eq_of_lt (by omega)]
  unfold blockStart
  rw [toNat_and_not_mask mask, BitVec.toNat_ofNat, mod_eq_of_lt (by omega), isPow]

theorem blockStart32_eq (offset : Nat) :
    mtd.blockStart32 offset = offset % 2 ^ 32 / mtd.erasesize * mtd.erasesize := by
  obtain ⟨shift, small, isPow⟩ := mtd.erasesize_pow
  have mask : (BitVec.ofNat 32 (mtd.erasesize - 1)).toNat = 2 ^ shift - 1 := by
    have less : 2 ^ shift < 2 ^ 32 := Nat.pow_lt_pow_right (by omega) (by omega)
    rw [BitVec.toNat_ofNat, isPow, mod_eq_of_lt (by omega)]
  have narrow : (BitVec.ofNat 64 offset &&& (~~~BitVec.ofNat 32 (mtd.erasesize - 1)).setWidth 64) =
        (BitVec.ofNat 32 offset &&& ~~~BitVec.ofNat 32 (mtd.erasesize - 1)).setWidth 64 := by
    apply BitVec.eq_of_getLsbD_eq
    intro i inRange
    simp only [BitVec.getLsbD_and, BitVec.getLsbD_setWidth, BitVec.getLsbD_not,
      BitVec.getLsbD_ofNat]
    by_cases low : i < 32
    · simp [low, inRange]
    · simp [low]
  unfold blockStart32
  rw [narrow, BitVec.toNat_setWidth, toNat_and_not_mask mask, BitVec.toNat_ofNat, isPow]
  have bound := div_mul_le_self (offset % 2 ^ 32) (2 ^ shift)
  exact mod_eq_of_lt (by omega)

theorem next_block : (offset + mtd.rest offset) / mtd.erasesize = offset / mtd.erasesize + 1 := by
  have positive := mtd.erasesize_pos
  have less := mod_lt offset positive
  have split := div_add_mod offset mtd.erasesize
  have sum : offset + mtd.rest offset = (offset / mtd.erasesize + 1) * mtd.erasesize := by
    rw [succ_mul, mul_comm]
    unfold rest
    omega
  rw [sum, Nat.mul_div_cancel _ positive]

theorem block_inside (inside : offset < mtd.size) : 0 < mtd.rest offset ∧
      mtd.rest offset ≤ mtd.size - offset ∧
      (offset + mtd.rest offset) / mtd.erasesize = offset / mtd.erasesize + 1 ∧
      offset / mtd.erasesize < mtd.size / mtd.erasesize := by
  have positive := mtd.erasesize_pos
  have less := mod_lt offset positive
  obtain ⟨blocks, isSize⟩ := mtd.erasesize_dvd
  have split := div_add_mod offset mtd.erasesize
  have below : offset / mtd.erasesize < blocks := by
    rw [div_lt_iff_lt_mul positive, mul_comm, ← isSize]
    exact inside
  have next := mul_le_mul_left mtd.erasesize (succ_le_of_lt below)
  rw [mul_succ, ← isSize] at next
  refine ⟨?_, ?_, next_block, div_lt_div_of_lt_of_dvd mtd.erasesize_dvd inside⟩
  · exact Nat.sub_pos_of_lt less
  · unfold rest
    omega

theorem div_of_block (above : offset ≤ x) (below : x < offset + mtd.rest offset) :
    x / mtd.erasesize = offset / mtd.erasesize := by
  have positive := mtd.erasesize_pos
  have less := mod_lt offset positive
  have split := div_add_mod offset mtd.erasesize
  unfold rest at below
  apply Nat.div_eq_of_lt_le
  · rw [Nat.mul_comm]
    omega
  · rw [succ_mul, mul_comm]
    omega

def Blockwise (g : Nat → Bool) : Prop :=
  ∀ offset x, offset ≤ x → x < offset + (mtd.erasesize - offset % mtd.erasesize) → g x = g offset

theorem blockwise_good (chip : NandChip) : mtd.Blockwise (mtd.good chip) := by
  intro offset x above below
  unfold good
  rw [div_of_block above below]

theorem blockwise_good32 (chip : NandChip) : mtd.Blockwise (mtd.good32 chip) := by
  have low : ∀ y, y % 2 ^ 32 / mtd.erasesize = y / mtd.erasesize % (2 ^ 32 / mtd.erasesize) := by
    intro y
    rw [← mod_mul_right_div_self, Nat.mul_div_cancel' mtd.erasesize_dvd_word]
  intro offset x above below
  unfold good32
  rw [low, low, div_of_block above below]

theorem isbad_blockStart (inside : offset < mtd.size) :
    nandBlockIsbad mtd chip (mtd.blockStart offset) = !mtd.good chip offset := by
  have bound := div_mul_le_self offset mtd.erasesize
  unfold nandBlockIsbad good
  rw [blockStart_eq inside, decide_eq_false (by omega),
    Nat.mul_div_cancel _ mtd.erasesize_pos, Bool.not_not, Bool.false_or]

theorem isbad_blockStart32 (inside : offset < mtd.size) :
    nandBlockIsbad mtd chip (mtd.blockStart32 offset) = !mtd.good32 chip offset := by
  have bound := div_mul_le_self (offset % 2 ^ 32) mtd.erasesize
  have low := mod_le offset (2 ^ 32)
  unfold nandBlockIsbad good32
  rw [blockStart32_eq, decide_eq_false (by omega),
    Nat.mul_div_cancel _ mtd.erasesize_pos, Bool.not_not, Bool.false_or]

end MtdInfo

/-! ## The length check -/

/-- How the check ends: the flash is too short, or the part of it that is used is counted and a
bad block in it is told. -/
def CheckEnds (chip : NandChip) (bits offset n used : Nat) (ret : Int)
    (result : Int × Nat) : Prop :=
  ((mtd.imageBytes chip offset n).length < n ∧ result.1 = -1) ∨
    ((mtd.imageBytes chip offset n).length = n ∧
      result.2 = (used + mtd.imageLength chip offset n) % 2 ^ bits ∧
      (result.1 = 1 ∧ (∃ x, offset ≤ x ∧ x < offset + mtd.imageLength chip offset n ∧
          mtd.good chip x = false) ∨
        result.1 = ret ∧ ∀ x, offset ≤ x → x < offset + mtd.imageLength chip offset n →
          mtd.good chip x = true))

section Check

variable {mtd : MtdInfo} {chip : NandChip} {bits offset length n used : Nat} {ret : Int}
  {g : Nat → Bool}

theorem goodAddresses_outside (outside : mtd.size ≤ offset) (n : Nat) :
    goodAddresses g offset (mtd.size - offset) n = [] := by
  unfold goodAddresses
  rw [Nat.sub_eq_zero_of_le outside]
  simp

theorem imageBytes_outside (outside : mtd.size ≤ offset) (n : Nat) :
    mtd.imageBytes chip offset n = [] :=
  goodAddresses_outside outside n

theorem checkEnds_zero (less : used < 2 ^ bits) :
    CheckEnds mtd chip bits offset 0 used ret (ret, used) := by
  refine .inr ⟨by simp [imageBytes], ?_, .inr ⟨rfl, ?_⟩⟩
  · simp [imageLength, mod_eq_of_lt less]
  · intro x above below
    simp only [imageLength, walkLength_zero] at below
    omega

section Block

variable (inside : offset < mtd.size)

include inside

theorem blocks_skip (blockwise : mtd.Blockwise g) (bad : g offset = false) :
    goodAddresses g offset (mtd.size - offset) (n + 1) = goodAddresses g (offset + mtd.rest offset)
          (mtd.size - (offset + mtd.rest offset)) (n + 1) ∧
      walkLength g offset (mtd.size - offset) (n + 1) = mtd.rest offset +
        walkLength g (offset + mtd.rest offset)
          (mtd.size - (offset + mtd.rest offset)) (n + 1) := by
  have block := (block_inside inside).2.1
  have allBad : ∀ x, offset ≤ x → x < offset + mtd.rest offset → g x = false :=
    fun x above below => (blockwise offset x above below).trans bad
  rw [goodAddresses_skip block allBad, walkLength_skip block allBad, Nat.sub_sub]
  exact ⟨rfl, rfl⟩

theorem blocks_take {k : Nat} (blockwise : mtd.Blockwise g) (isGood : g offset = true)
    (short : k ≤ mtd.rest offset) :
    goodAddresses g offset (mtd.size - offset) (k + n) =
        range' offset k ++ goodAddresses g (offset + k) (mtd.size - (offset + k)) n ∧
      walkLength g offset (mtd.size - offset) (k + n) =
        k + walkLength g (offset + k) (mtd.size - (offset + k)) n := by
  have block := (block_inside inside).2.1
  have allGood : ∀ x, offset ≤ x → x < offset + k → g x = true :=
    fun x above below =>
      (blockwise offset x above (below.trans_le (Nat.add_le_add_left short _))).trans isGood
  rw [goodAddresses_take allGood (by omega), walkLength_take allGood (by omega), Nat.sub_sub]
  exact ⟨rfl, rfl⟩

section Bad

variable (bad : mtd.good chip offset = false)

include bad

theorem imageBytes_skip : mtd.imageBytes chip offset (n + 1) =
        mtd.imageBytes chip (offset + mtd.rest offset) (n + 1) ∧
      mtd.imageLength chip offset (n + 1) = mtd.rest offset +
        mtd.imageLength chip (offset + mtd.rest offset) (n + 1) :=
  blocks_skip inside (mtd.blockwise_good chip) bad

theorem CheckEnds.skip {result : Int × Nat}
    (ends : CheckEnds mtd chip bits (offset + mtd.rest offset) (n + 1)
      ((used + mtd.rest offset) % 2 ^ bits) 1 result) :
    CheckEnds mtd chip bits offset (n + 1) used ret result := by
  obtain ⟨bytes, walk⟩ : _ ∧ mtd.imageLength chip offset (n + 1) = _ := imageBytes_skip inside bad
  have positive := (block_inside inside).1
  rcases ends with ⟨short, failed⟩ | ⟨enough, counted, told⟩
  · exact .inl ⟨by rwa [bytes], failed⟩
  refine .inr ⟨by rwa [bytes], ?_, .inl ⟨?_, offset, le_refl offset, by omega, bad⟩⟩
  · rw [counted, walk, mod_add_mod, add_assoc]
  · rcases told with ⟨one, -⟩ | ⟨one, -⟩
    · exact one
    · exact one

end Bad

section Good

variable {k : Nat} (isGood : mtd.good chip offset = true)
  (short : k ≤ mtd.rest offset)

include isGood short

theorem imageBytes_take : mtd.imageBytes chip offset (k + n) =
        range' offset k ++ mtd.imageBytes chip (offset + k) n ∧
      mtd.imageLength chip offset (k + n) = k + mtd.imageLength chip (offset + k) n :=
  blocks_take inside (mtd.blockwise_good chip) isGood short

theorem CheckEnds.take {result : Int × Nat}
    (ends : CheckEnds mtd chip bits (offset + k) n ((used + k) % 2 ^ bits) ret result) :
    CheckEnds mtd chip bits offset (k + n) used ret result := by
  obtain ⟨bytes, walk⟩ : mtd.imageBytes chip offset (k + n) = _ ∧ _ :=
    imageBytes_take inside isGood short
  have length : (mtd.imageBytes chip offset (k + n)).length =
      k + (mtd.imageBytes chip (offset + k) n).length := by
    rw [bytes, length_append, length_range']
  rcases ends with ⟨tooShort, failed⟩ | ⟨enough, counted, told⟩
  · exact .inl ⟨by omega, failed⟩
  refine .inr ⟨by omega, by rw [counted, walk, mod_add_mod, add_assoc], ?_⟩
  rcases told with ⟨one, x, above, below, isBad⟩ | ⟨same, allGood⟩
  · exact .inl ⟨one, x, by omega, by omega, isBad⟩
  refine .inr ⟨same, ?_⟩
  intro x above below
  by_cases inBlock : x < offset + k
  · have inRest := inBlock.trans_le (Nat.add_le_add_left short offset)
    exact (mtd.blockwise_good chip offset x above inRest).trans isGood
  · exact allGood x (by omega) (by omega)

end Good

end Block

theorem checkSkipLoop_ends {rounds lenExclBad : Nat} (room : length + mtd.erasesize ≤ 2 ^ bits)
    (split : length = lenExclBad + (n + 1)) :
    (∃ result, checkSkipLoop mtd chip bits length rounds offset lenExclBad used ret =
        some result ∧ CheckEnds mtd chip bits offset (n + 1) used ret result) ∨
      checkSkipLoop mtd chip bits length rounds offset lenExclBad used ret = none ∧
        rounds < mtd.size / mtd.erasesize - offset / mtd.erasesize + 2 := by
  induction rounds generalizing offset lenExclBad used ret n with
  | zero => exact .inr ⟨rfl, by omega⟩
  | succ rounds ih =>
    rw [checkSkipLoop, if_pos (by omega)]
    by_cases outside : mtd.size ≤ offset
    · rw [if_pos outside]
      refine .inl ⟨_, rfl, .inl ⟨?_, rfl⟩⟩
      rw [imageBytes_outside outside]
      exact succ_pos n
    rw [if_neg outside]
    have inside : offset < mtd.size := Nat.lt_of_not_le outside
    have block := block_inside inside
    rw [sub_blockOffset, isbad_blockStart inside]
    have short : mtd.rest offset ≤ mtd.erasesize := sub_le _ _
    generalize isLen : mtd.rest offset = blockLen at *
    cases isGood : mtd.good chip offset with
    | false =>
      rcases @ih (offset + blockLen) n ((used + blockLen) % 2 ^ bits) 1 lenExclBad
          split with ⟨result, run, ends⟩ | ⟨run, few⟩
      · exact .inl ⟨result, run, (isLen ▸ CheckEnds.skip inside isGood) ends⟩
      · exact .inr ⟨run, by omega⟩
    | true =>
      have less : lenExclBad + blockLen < 2 ^ bits := by omega
      simp only [Bool.not_true, Bool.false_eq_true, if_false, mod_eq_of_lt less]
      rcases lt_or_ge blockLen (n + 1) with more | last
      · obtain ⟨m, isMore⟩ : ∃ m, n + 1 = blockLen + (m + 1) := ⟨n - blockLen, by omega⟩
        rcases @ih (offset + blockLen) m ((used + blockLen) % 2 ^ bits) ret
            (lenExclBad + blockLen) (by omega) with ⟨result, run, ends⟩ | ⟨run, few⟩
        · refine .inl ⟨result, run, ?_⟩
          rw [isMore]
          exact ends.take inside isGood (by omega)
        · exact .inr ⟨run, by omega⟩
      cases rounds with
      | zero => exact .inr ⟨rfl, by omega⟩
      | succ rounds =>
        have ends : CheckEnds mtd chip bits offset (n + 1 + 0) used ret
            (ret, (used + (n + 1)) % 2 ^ bits) :=
          CheckEnds.take inside isGood (by omega)
            (checkEnds_zero (mod_lt _ (Nat.two_pow_pos bits)))
        rw [checkSkipLoop, if_neg (by omega)]
        refine .inl ⟨_, ?_, ends⟩
        by_cases exact : length < lenExclBad + blockLen
        · rw [if_pos exact, mod_add_mod, show used + blockLen +
            (2 ^ bits - (lenExclBad + blockLen - length)) = used + (n + 1) + 2 ^ bits by
              omega, add_mod_right]
        · rw [if_neg exact, show blockLen = n + 1 by omega]

theorem checkSkipLen_ends (chip : NandChip) (offset rounds : Nat)
    (room : length + mtd.erasesize ≤ 2 ^ bits) :
    (∃ result, checkSkipLen mtd chip bits rounds offset length = some result ∧
        CheckEnds mtd chip bits offset length 0 0 result) ∨
      checkSkipLen mtd chip bits rounds offset length = none ∧
        rounds < mtd.size / mtd.erasesize - offset / mtd.erasesize + 2 := by
  cases length with
  | zero =>
    cases rounds with
    | zero => exact .inr ⟨rfl, by omega⟩
    | succ rounds =>
      exact .inl ⟨_, by simp [checkSkipLen, checkSkipLoop], checkEnds_zero (Nat.two_pow_pos bits)⟩
  | succ n => exact checkSkipLoop_ends room (by omega)

end Check

/-! ## Writing -/

def Memory.program (m : Memory) (a : Nat) (data : List UInt8) : Memory :=
  fun x => if a ≤ x then m x &&& (data[x - a]?).getD 0xff else m x

/-- A chip that programs what it is told to if it reports no error, and reads its flash. -/
structure NandChip.Faithful (chip : NandChip) : Prop where
  write : ∀ ofs data m m', chip.write ofs data m = (0, m') → m' = m.program ofs data
  reads : ∀ ofs len m, (chip.read ofs len m).1 = 0 ∨ (chip.read ofs len m).1 = -EUCLEAN
  read : ∀ ofs len m, (chip.read ofs len m).2 = m.read ofs len

structure Programmed (flash flash' : Memory) (addresses : List Nat) (data : List UInt8) :
    Prop where
  at_get : ∀ (i a : Nat) (d : UInt8), addresses[i]? = some a → data[i]? = some d →
    flash' a = flash a &&& d
  others : ∀ x, x ∉ addresses → flash' x = flash x

section Write

variable {mtd : MtdInfo} {chip : NandChip} {bits offset : Nat} {flags : NandFlags}
  {flash flash' : Memory} {buffer : List UInt8}

theorem and_ff (byte : UInt8) : byte &&& 0xff = byte := by
  apply UInt8.toBitVec_inj.1
  exact BitVec.and_allOnes

theorem programmed_range (m : Memory) (a : Nat) (data : List UInt8) :
    Programmed m (m.program a data) (range' a data.length) data where
  at_get i x d isAddress isData := by
    obtain ⟨less, -⟩ := List.getElem?_eq_some_iff.1 isData
    rw [getElem?_range' less, some.injEq] at isAddress
    subst isAddress
    unfold program
    rw [if_pos (by omega), show a + 1 * i - a = i by omega, isData]
    rfl
  others x outside := by
    rw [mem_range'_1] at outside
    unfold program
    split
    · rw [getElem?_eq_none (by omega)]
      exact and_ff (m x)
    · rfl

theorem Programmed.append {flash'' : Memory} {first second : List Nat} {data more : List UInt8}
    (before : Programmed flash flash' first data) (after : Programmed flash' flash'' second more)
    (sameLength : first.length = data.length) (disjoint : ∀ x ∈ first, x ∉ second) :
    Programmed flash flash'' (first ++ second) (data ++ more) where
  at_get i a d isAddress isData := by
    by_cases early : i < first.length
    · rw [getElem?_append_left early] at isAddress
      rw [getElem?_append_left (by omega)] at isData
      rw [after.others a (disjoint a (mem_of_getElem? isAddress))]
      exact before.at_get i a d isAddress isData
    rw [getElem?_append_right (by omega)] at isAddress isData
    rw [← sameLength] at isData
    rw [after.at_get _ a d isAddress isData, before.others a]
    intro member
    exact disjoint a member (mem_of_getElem? isAddress)
  others x outside := by
    rw [mem_append, not_or] at outside
    rw [after.others x outside.2, before.others x outside.1]

theorem programmed_nil (m : Memory) : Programmed m m [] [] where
  at_get i a d isAddress := by simp at isAddress
  others _ _ := rfl

variable (faithful : chip.Faithful)

include faithful

theorem nandWrite_ok (run : nandWrite mtd chip offset buffer flash = (0, flash')) :
    offset + buffer.length ≤ mtd.size ∧
      Programmed flash flash' (range' offset buffer.length) buffer := by
  unfold nandWrite at run
  split at run
  · simp [EINVAL] at run
  rename_i inside
  refine ⟨Nat.le_of_not_lt inside, ?_⟩
  split at run
  · rename_i empty
    cases run
    rw [empty]
    exact programmed_nil flash
  · rw [faithful.write _ _ _ _ run]
    exact programmed_range flash offset buffer

theorem writeVerified_ok {rounds : Nat}
    (run : writeVerified mtd chip bits rounds flags offset buffer flash = some (0, flash')) :
    offset + buffer.length ≤ mtd.size ∧
      Programmed flash flash' (range' offset buffer.length) buffer := by
  unfold writeVerified at run
  dsimp only at run
  split at run
  · rename_i verified
    obtain ⟨rval, -, same⟩ := map_eq_some_iff.1 run
    cases same
    exact nandWrite_ok faithful (Prod.ext verified.2 rfl)
  · exact nandWrite_ok faithful (some.inj run)

theorem writeSkipLoop_ok {rounds left : Nat} (noDrop : flags.dropFfs = false)
    (enough : (mtd.imageBytes chip offset buffer.length).length = buffer.length)
    (run : writeSkipLoop mtd chip bits flags rounds offset buffer flash = some (0, left, flash')) :
    left = 0 ∧ Programmed flash flash' (mtd.imageBytes chip offset buffer.length) buffer := by
  induction rounds generalizing offset buffer flash with
  | zero => cases run
  | succ rounds ih =>
    rw [writeSkipLoop] at run
    by_cases empty : buffer = []
    · rw [if_pos empty] at run
      cases run
      subst empty
      exact ⟨rfl, by simpa [imageBytes] using programmed_nil _⟩
    rw [if_neg empty] at run
    have positive := length_pos_iff.2 empty
    have inside : offset < mtd.size := by
      by_contra outside
      rw [imageBytes_outside (Nat.le_of_not_lt outside), length_nil] at enough
      omega
    obtain ⟨n, isLength⟩ : ∃ n, buffer.length = n + 1 := ⟨buffer.length - 1, by omega⟩
    rw [isbad_blockStart inside, sub_blockOffset] at run
    cases isGood : mtd.good chip offset with
    | false =>
      rw [isGood, Bool.not_false, if_pos rfl] at run
      rw [isLength, (imageBytes_skip inside isGood).1, ← isLength] at enough ⊢
      exact ih enough run
    | true =>
      rw [isGood, Bool.not_true, if_neg (by simp)] at run
      rw [← min_def_lt] at run
      generalize isSize : min buffer.length (mtd.rest offset) = writeSize at run
      have short : writeSize ≤ mtd.rest offset ∧ writeSize ≤ buffer.length := by omega
      simp only [noDrop, Bool.false_eq_true, if_false] at run
      split at run
      · cases run
      rename_i rval flash₁ written
      split at run
      · rename_i failed
        exact absurd (Prod.mk.inj (some.inj run)).1 failed
      rename_i succeeded
      obtain rfl : rval = 0 := not_not.1 succeeded
      have isSplit : buffer.length = writeSize + (buffer.drop writeSize).length := by
        rw [length_drop]
        omega
      have takeLength : (buffer.take writeSize).length = writeSize := by
        rw [length_take]
        omega
      obtain ⟨bytes, -⟩ : mtd.imageBytes chip offset
          (writeSize + (buffer.drop writeSize).length) = _ ∧ _ :=
        imageBytes_take inside isGood short.1
      rw [isSplit, bytes, length_append, length_range'] at enough
      obtain ⟨done, later⟩ := ih (add_left_cancel enough) run
      have first := (writeVerified_ok faithful written).2
      rw [takeLength] at first
      refine ⟨done, ?_⟩
      have whole := first.append later (by rw [length_range', takeLength]) (by
        intro x inFirst inLater
        have below := (mem_range'_1.1 inFirst).2
        have above := (mem_goodAddresses.1 inLater).1
        omega)
      rwa [take_append_drop, ← bytes, ← isSplit] at whole

end Write

/-! ## Reading back -/

section Read

variable {mtd : MtdInfo} {chip : NandChip} {offset : Nat} {flash : Memory}

def MtdInfo.readBytes (chip : NandChip) (offset length : Nat) : List Nat :=
  goodAddresses (mtd.good32 chip) offset (mtd.size - offset) length

theorem map_range'_eq_read (m : Memory) (a n : Nat) : (range' a n).map m = m.read a n := by
  induction n generalizing a with
  | zero => rfl
  | succ n ih => rw [range'_succ, map_cons, ih, Memory.read]

variable (faithful : chip.Faithful)

include faithful

theorem nandRead_inside {len : Nat} (inside : offset + len ≤ mtd.size) :
    ((nandRead mtd chip offset len flash).1 = 0 ∨
        (nandRead mtd chip offset len flash).1 = -EUCLEAN) ∧
      (nandRead mtd chip offset len flash).2 = flash.read offset len := by
  unfold nandRead
  rw [if_neg (by omega)]
  split
  · rename_i empty
    rw [empty]
    exact ⟨.inl rfl, rfl⟩
  · exact ⟨faithful.reads offset len flash, faithful.read offset len flash⟩

/-- The read gives the bytes that it takes for good ones, and only if there are enough. -/
theorem readSkipLoop_ends {rounds left : Nat} {buffer : List UInt8} :
    ((mtd.readBytes chip offset left).length = left ∧
      readSkipLoop mtd chip flash rounds offset left buffer =
        some (0, 0, buffer ++ (mtd.readBytes chip offset left).map flash)) ∨
    ((mtd.readBytes chip offset left).length = left →
      rounds < mtd.size / mtd.erasesize - offset / mtd.erasesize + 2) ∧
      ∀ left' out, readSkipLoop mtd chip flash rounds offset left buffer ≠
        some (0, left', out) := by
  induction rounds generalizing offset left buffer with
  | zero => exact .inr ⟨fun _ => by omega, fun _ _ => by simp [readSkipLoop]⟩
  | succ rounds ih =>
    rw [readSkipLoop]
    by_cases empty : left = 0
    · subst empty
      exact .inl (by simp [readBytes])
    rw [if_neg empty]
    by_cases outside : mtd.size ≤ offset
    · have none : ∀ a, mtd.size ≤ a → (mtd.readBytes chip a left).length ≠ left := by
        intro a above
        unfold readBytes
        rw [goodAddresses_outside above, length_nil]
        exact Ne.symm empty
      refine .inr ⟨fun enough => absurd enough (none offset outside), ?_⟩
      intro left' out
      split
      · rcases @ih (offset + (mtd.erasesize - mtd.blockOffset offset)) left buffer with
          ⟨enough, -⟩ | ⟨-, never⟩
        · exact absurd enough (none _ (by omega))
        · exact never left' out
      have positive : 0 < mtd.rest offset := Nat.sub_pos_of_lt (mod_lt _ mtd.erasesize_pos)
      rw [sub_blockOffset]
      rw [← min_def_lt]
      generalize isLength : min left (mtd.rest offset) = readLength
      have fails : nandRead mtd chip offset readLength flash = (-EINVAL, []) := by
        unfold nandRead
        rw [if_pos (by omega)]
      dsimp only
      rw [fails, if_pos (by decide)]
      intro same
      exact absurd (Prod.mk.inj (some.inj same)).1 (by decide)
    have inside : offset < mtd.size := Nat.lt_of_not_le outside
    have block := block_inside inside
    obtain ⟨n, isLeft⟩ : ∃ n, left = n + 1 := ⟨left - 1, by omega⟩
    rw [isbad_blockStart32 inside, sub_blockOffset]
    cases isGood : mtd.good32 chip offset with
    | false =>
      have bytes : mtd.readBytes chip offset left = mtd.readBytes chip
          (offset + mtd.rest offset) left := by
        rw [isLeft]
        exact (blocks_skip inside (mtd.blockwise_good32 chip) isGood).1
      rw [Bool.not_false, if_pos rfl, bytes]
      rcases @ih (offset + mtd.rest offset) left buffer with ends | ⟨few, never⟩
      · exact .inl ends
      · refine .inr ⟨fun enough => ?_, never⟩
        have rounds := few enough
        omega
    | true =>
      rw [Bool.not_true, if_neg (by simp)]
      rw [← min_def_lt]
      generalize isLength : min left (mtd.rest offset) = readLength
      have short : readLength ≤ mtd.rest offset ∧ readLength ≤ left ∧ (readLength = left ∨
            readLength = mtd.rest offset) := by omega
      obtain ⟨isOk, isRead⟩ : _ ∧ (nandRead mtd chip offset readLength flash).2 = _ :=
        nandRead_inside faithful (by omega)
      have bytes : mtd.readBytes chip offset left = range' offset readLength ++
          mtd.readBytes chip (offset + readLength) (left - readLength) := by
        conv_lhs => rw [← Nat.add_sub_cancel' short.2.1]
        exact (blocks_take inside (mtd.blockwise_good32 chip) isGood short.1).1
      have lengths : (mtd.readBytes chip offset left).length = readLength +
          (mtd.readBytes chip (offset + readLength) (left - readLength)).length := by
        rw [bytes, length_append, length_range']
      rw [if_neg (by tauto), isRead, ← map_range'_eq_read]
      rcases @ih (offset + readLength) (left - readLength)
          (buffer ++ (range' offset readLength).map flash) with
        ⟨enough, run⟩ | ⟨few, never⟩
      · refine .inl ⟨by omega, ?_⟩
        rw [run, bytes, map_append, append_assoc]
      refine .inr ⟨fun enough => ?_, never⟩
      have fewRounds := few (by omega)
      rcases short.2.2 with last | whole
      · cases rounds with
        | zero => omega
        | succ rounds =>
          rw [last, Nat.sub_self, readSkipLoop, if_pos rfl] at never
          exact absurd rfl (never 0 _)
      · rw [whole, block.2.2.1] at fewRounds
        omega

end Read

/-! ## The image that is written and read back -/

/-- What a write that succeeds should have done: only good blocks from the offset on are
programmed, the length that is told is that of the flash used, within the limit, and the image can
be read back. -/
structure WrittenBack (mtd : MtdInfo) (chip : NandChip) (bits offset lim : Nat)
    (buffer : List UInt8) (flash : Memory) (written : NandWritten) : Prop where
  onlyGood : ∀ x, written.flash x ≠ flash x → offset ≤ x ∧
    x < offset + mtd.imageLength chip offset buffer.length ∧ mtd.good chip x = true
  actual : written.actual = mtd.imageLength chip offset buffer.length
  limited : mtd.imageLength chip offset buffer.length ≤ lim
  readBack : ∃ rounds, nandReadSkipBad mtd chip bits rounds offset buffer.length lim
    written.flash = some ⟨0, buffer.length, written.actual, buffer⟩

/-- The length fits a `size_t`, and among the blocks that are passed none is bad or the read
finds the same ones bad. -/
structure SameBlocks (mtd : MtdInfo) (chip : NandChip) (bits offset length : Nat) : Prop where
  fits : mtd.imageLength chip offset length < 2 ^ bits
  agree : (∀ x, offset ≤ x → x < offset + mtd.imageLength chip offset length →
      mtd.good chip x = true) ∨
    ∀ x, offset ≤ x → x < offset + mtd.imageLength chip offset length →
      mtd.good chip x = mtd.good32 chip x

section Image

variable {mtd : MtdInfo} {chip : NandChip} {bits offset lim : Nat} {flags : NandFlags}
  {flash : Memory} {buffer : List UInt8} {written : NandWritten} {rounds : Nat}

theorem Programmed.map_eq {flash' : Memory} {addresses : List Nat}
    (programmed : Programmed flash flash' addresses buffer)
    (sameLength : addresses.length = buffer.length)
    (erased : ∀ x ∈ addresses, flash x = 0xff) : addresses.map flash' = buffer := by
  apply ext_getElem (by rw [length_map, sameLength])
  intro i inAddresses inBuffer
  rw [getElem_map]
  rw [length_map] at inAddresses
  have written := programmed.at_get i _ _ (getElem?_eq_getElem inAddresses)
    (getElem?_eq_getElem inBuffer)
  rw [written, erased _ (getElem_mem inAddresses)]
  exact (UInt8.and_comm _ _).trans (and_ff _)

variable {length : Nat}

theorem exists_image_not_read {addresses others : List Nat}
    (sameLength : addresses.length = length) (sameLength' : others.length = length)
    (differ : addresses ≠ others) (erased : ∀ x ∈ addresses, flash x = 0xff) :
    ∃ image : List UInt8, image.length = length ∧
      ∀ flash', Programmed flash flash' addresses image → others.map flash' ≠ image := by
  obtain ⟨k, less, less', notSame⟩ : ∃ k, ∃ (less : k < addresses.length)
      (less' : k < others.length), addresses[k] ≠ others[k] := by
    by_contra same
    push Not at same
    exact differ (ext_getElem (by omega) same)
  by_cases member : others[k] ∈ addresses
  · obtain ⟨j, lessJ, isJ⟩ := getElem_of_mem member
    refine ⟨(range length).map fun i => if i = k then 0 else 0xff, by simp, ?_⟩
    intro flash' programmed back
    have atK : (others.map flash')[k]? = some 0 := by
      rw [back]
      simp [show k < length by omega]
    have atJ := programmed.at_get j _ 0xff (getElem?_eq_getElem lessJ) (by
      have other : j ≠ k := by
        rintro rfl
        exact notSame isJ
      simp [show j < length by omega, other])
    rw [getElem?_map, getElem?_eq_getElem less', map_some, ← isJ, atJ, isJ, erased _ member] at atK
    cases atK
  · obtain ⟨other, isOther⟩ : ∃ other : UInt8, other ≠ flash others[k] := by
      by_cases zero : flash others[k] = 0
      · exact ⟨1, by rw [zero]; decide⟩
      · exact ⟨0, Ne.symm zero⟩
    refine ⟨replicate length other, by simp, ?_⟩
    intro flash' programmed back
    have atK : (others.map flash')[k]? = some other := by
      rw [back]
      simp [show k < length by omega]
    rw [getElem?_map, getElem?_eq_getElem less', map_some,
      programmed.others _ member, some.injEq] at atK
    exact isOther atK.symm

variable (faithful : chip.Faithful)

include faithful

section Read

variable (aligned : offset % mtd.writesize = 0) (room : length + mtd.erasesize ≤ 2 ^ bits)
  (enough : (mtd.imageBytes chip offset length).length = length)
  (limited : mtd.imageLength chip offset length % 2 ^ bits ≤ lim)

include aligned room enough limited

theorem nandReadSkipBad_direct (inside : offset ≤ mtd.size)
    (allGood : mtd.AllGood chip offset length) :
    ∃ rounds, nandReadSkipBad mtd chip bits rounds offset length lim flash =
      some ⟨0, length, mtd.imageLength chip offset length % 2 ^ bits,
        (mtd.imageBytes chip offset length).map flash⟩ := by
  obtain ⟨bytes, walk⟩ : mtd.imageBytes chip offset length = _ ∧ _ :=
    goodAddresses_eq_range' enough allGood
  have short : mtd.imageLength chip offset length ≤ mtd.size - offset := walkLength_le
  obtain ⟨isOk, isRead⟩ : _ ∧ (nandRead mtd chip offset length flash).2 = _ :=
    nandRead_inside faithful (by rw [imageLength, walk] at short; omega)
  rcases checkSkipLen_ends chip offset
      (mtd.size / mtd.erasesize - offset / mtd.erasesize + 2) room with
    ⟨⟨needSkip, used⟩, check, ends⟩ | ⟨-, few⟩
  · rcases ends with ⟨short, -⟩ | ⟨-, counted, told⟩
    · omega
    rw [zero_add] at counted
    obtain rfl : used = _ := counted
    rcases told with ⟨-, x, above, below, isBad⟩ | ⟨zero, -⟩
    · rw [allGood x above below] at isBad
      cases isBad
    obtain rfl : needSkip = 0 := zero
    refine ⟨mtd.size / mtd.erasesize - offset / mtd.erasesize + 2, ?_⟩
    unfold nandReadSkipBad
    rw [if_neg (not_not.2 aligned), check]
    dsimp only
    rw [if_neg (by omega), if_neg (by omega), if_pos rfl, if_pos isOk, isRead, bytes,
      map_range'_eq_read]
  · omega

theorem nandReadSkipBad_skipping (someBad : ¬mtd.AllGood chip offset length) :
    ((mtd.readBytes chip offset length).length = length ∧
      nandReadSkipBad mtd chip bits rounds offset length lim flash =
        some ⟨0, length, mtd.imageLength chip offset length % 2 ^ bits,
          (mtd.readBytes chip offset length).map flash⟩) ∨
    ((mtd.readBytes chip offset length).length = length →
      rounds < mtd.size / mtd.erasesize - offset / mtd.erasesize + 2) ∧
      ∀ length' actual out, nandReadSkipBad mtd chip bits rounds offset length lim flash ≠
        some ⟨0, length', actual, out⟩ := by
  unfold nandReadSkipBad
  rw [if_neg (not_not.2 aligned)]
  rcases checkSkipLen_ends chip offset rounds room with ⟨⟨needSkip, used⟩, check, ends⟩ |
    ⟨check, few⟩
  · rcases ends with ⟨short, -⟩ | ⟨-, counted, told⟩
    · omega
    rw [zero_add] at counted
    obtain rfl : used = _ := counted
    rcases told with ⟨one, -⟩ | ⟨-, allGood⟩
    · obtain rfl : needSkip = 1 := one
      rw [check]
      dsimp only
      rw [if_neg (by omega), if_neg (by omega), if_neg (by omega)]
      rcases @readSkipLoop_ends mtd chip offset flash faithful rounds length [] with
        ⟨enough', run⟩ | ⟨few, never⟩
      · refine .inl ⟨enough', ?_⟩
        rw [run]
        rfl
      refine .inr ⟨few, ?_⟩
      intro length' actual out same
      obtain ⟨⟨rval, left, out'⟩, ran, result⟩ := map_eq_some_iff.1 same
      obtain rfl : rval = 0 := congrArg NandReadBack.rval result
      exact never left out' ran
    · exact absurd allGood someBad
  · rw [check]
    exact .inr ⟨fun _ => few, by simp⟩

end Read

section Written

variable (noDrop : flags.dropFfs = false)
  (room : buffer.length + mtd.erasesize ≤ 2 ^ bits)
  (run : nandWriteSkipBad mtd chip bits rounds flags offset lim buffer flash = some written)
  (success : written.rval = 0)

include noDrop room run success

theorem nandWriteSkipBad_ok : offset % mtd.writesize = 0 ∧
      (mtd.imageBytes chip offset buffer.length).length = buffer.length ∧
      written.actual = mtd.imageLength chip offset buffer.length % 2 ^ bits ∧
      written.actual ≤ lim ∧ offset ≤ mtd.size ∧
      Programmed flash written.flash (mtd.imageBytes chip offset buffer.length) buffer := by
  unfold nandWriteSkipBad at run
  by_cases aligned : offset % mtd.writesize = 0
  · rw [if_neg (not_not.2 aligned)] at run
    rcases checkSkipLen_ends chip offset rounds room with ⟨⟨needSkip, used⟩, check, ends⟩ |
      ⟨check, -⟩
    · rw [check] at run
      dsimp only at run
      by_cases negative : needSkip < 0
      · rw [if_pos negative] at run
        cases run
        cases success
      rw [if_neg negative] at run
      by_cases exceeds : lim < used
      · rw [if_pos exceeds] at run
        cases run
        cases success
      rw [if_neg exceeds] at run
      rcases ends with ⟨-, failed⟩ | ⟨enough, counted, told⟩
      · exact absurd (show needSkip < 0 by rw [show needSkip = -1 from failed]; decide) negative
      rw [zero_add] at counted
      obtain rfl : used = _ := counted
      refine ⟨aligned, enough, ?_⟩
      by_cases direct : needSkip = 0 ∧ flags.dropFfs = false
      · rw [if_pos direct] at run
        obtain ⟨⟨rval, flash'⟩, wrote, rfl⟩ := map_eq_some_iff.1 run
        obtain rfl : rval = 0 := success
        rcases told with ⟨one, -⟩ | ⟨-, allGood⟩
        · cases one.symm.trans direct.1
        have bytes : mtd.imageBytes chip offset buffer.length = _ :=
          (goodAddresses_eq_range' enough allGood).1
        obtain ⟨inside, programmed⟩ := writeVerified_ok faithful wrote
        refine ⟨rfl, Nat.le_of_not_lt exceeds, by omega, ?_⟩
        rw [bytes]
        exact programmed
      rw [if_neg direct] at run
      obtain ⟨⟨rval, left, flash'⟩, wrote, rfl⟩ := map_eq_some_iff.1 run
      obtain rfl : rval = 0 := success
      have inside : offset ≤ mtd.size := by
        by_contra outside
        rw [imageBytes_outside (by omega), length_nil] at enough
        rcases told with ⟨-, x, above, below, -⟩ | ⟨zero, -⟩
        · rw [← enough, imageLength, walkLength_zero] at below
          omega
        · exact direct ⟨zero, noDrop⟩
      exact ⟨rfl, Nat.le_of_not_lt exceeds, inside,
        (writeSkipLoop_ok faithful noDrop enough wrote).2⟩
    · rw [check] at run
      cases run
  · rw [if_pos aligned] at run
    cases run
    cases success

theorem WrittenBack.of_sameBlocks
    (erased : ∀ x ∈ mtd.imageBytes chip offset buffer.length, flash x = 0xff)
    (same : SameBlocks mtd chip bits offset buffer.length) :
    WrittenBack mtd chip bits offset lim buffer flash written := by
  obtain ⟨aligned, enough, actual, limited, inside, programmed⟩ :=
    nandWriteSkipBad_ok faithful noDrop room run success
  have written_eq := programmed.map_eq enough erased
  rw [actual] at limited
  have fits : mtd.imageLength chip offset buffer.length % 2 ^ bits =
      mtd.imageLength chip offset buffer.length := mod_eq_of_lt same.fits
  refine ⟨?_, actual.trans fits, fits ▸ limited, ?_⟩
  · intro x changed
    have member : x ∈ mtd.imageBytes chip offset buffer.length := by
      by_contra outside
      exact changed (programmed.others x outside)
    exact mem_goodAddresses.1 member
  rw [actual]
  by_cases allGood : mtd.AllGood chip offset buffer.length
  · obtain ⟨rounds', ran⟩ : ∃ rounds', nandReadSkipBad mtd chip bits rounds' offset
        buffer.length lim written.flash = _ :=
      nandReadSkipBad_direct faithful aligned room enough limited inside allGood
    exact ⟨rounds', by rw [ran, written_eq]⟩
  have agree := same.agree.resolve_left allGood
  have bytes : mtd.imageBytes chip offset buffer.length =
      mtd.readBytes chip offset buffer.length := (goodAddresses_eq_iff enough).2 agree
  refine ⟨mtd.size / mtd.erasesize - offset / mtd.erasesize + 2, ?_⟩
  rcases nandReadSkipBad_skipping faithful aligned room enough limited allGood with
    ⟨-, ran⟩ | ⟨few, -⟩
  · rw [ran, ← bytes, written_eq]
  · have few' := few (bytes ▸ enough)
    omega

theorem WrittenBack.map_readBytes (someBad : ¬mtd.AllGood chip offset buffer.length)
    (back : WrittenBack mtd chip bits offset lim buffer flash written) :
    Programmed flash written.flash (mtd.imageBytes chip offset buffer.length) buffer ∧
      (mtd.imageBytes chip offset buffer.length).length = buffer.length ∧
      (mtd.readBytes chip offset buffer.length).length = buffer.length ∧
      (mtd.readBytes chip offset buffer.length).map written.flash = buffer := by
  obtain ⟨aligned, enough, actual, limited, -, programmed⟩ :=
    nandWriteSkipBad_ok faithful noDrop room run success
  rw [actual] at limited
  obtain ⟨rounds', ran⟩ := back.readBack
  rcases nandReadSkipBad_skipping faithful aligned room enough limited someBad with
    ⟨enough', ran'⟩ | ⟨-, never⟩
  · have same := some.inj (ran.symm.trans ran')
    exact ⟨programmed, enough, enough', (congrArg NandReadBack.buffer same).symm⟩
  · exact absurd ran (never _ _ _)

end Written

end Image

/-- Every image of a length is written to good blocks and read back exactly if the length fits a
`size_t` and the read finds the same blocks bad. -/
theorem nandWriteSkipBad_back_iff (chip : NandChip) (faithful : chip.Faithful)
    (bits : Nat) (wide : 32 ≤ bits) (offset length lim : Nat) (object : length < 2 ^ (bits - 1))
    (flags : NandFlags) (noDrop : flags.dropFfs = false) (flash : Memory)
    (erased : ∀ x ∈ mtd.imageBytes chip offset length, flash x = 0xff) :
    (SameBlocks mtd chip bits offset length →
      ∀ buffer : List UInt8, buffer.length = length → ∀ rounds written,
        nandWriteSkipBad mtd chip bits rounds flags offset lim buffer flash = some written →
        written.rval = 0 → WrittenBack mtd chip bits offset lim buffer flash written) ∧
    ((∀ buffer : List UInt8, buffer.length = length → ∃ rounds written,
        nandWriteSkipBad mtd chip bits rounds flags offset lim buffer flash = some written ∧
        written.rval = 0) →
      ((∀ buffer : List UInt8, buffer.length = length → ∀ rounds written,
          nandWriteSkipBad mtd chip bits rounds flags offset lim buffer flash = some written →
          written.rval = 0 → WrittenBack mtd chip bits offset lim buffer flash written) ↔
        SameBlocks mtd chip bits offset length)) := by
  have room : length + mtd.erasesize ≤ 2 ^ bits := by
    have half : 2 ^ bits = 2 * 2 ^ (bits - 1) := by
      rw [← Nat.pow_succ', succ_eq_add_one, Nat.sub_add_cancel (by omega)]
    have word : 2 ^ 31 ≤ 2 ^ (bits - 1) := Nat.pow_le_pow_right (by omega) (by omega)
    have erase := mtd.erasesize_le
    omega
  have enough : SameBlocks mtd chip bits offset length →
      ∀ buffer : List UInt8, buffer.length = length → ∀ rounds written,
        nandWriteSkipBad mtd chip bits rounds flags offset lim buffer flash = some written →
        written.rval = 0 → WrittenBack mtd chip bits offset lim buffer flash written := by
    rintro same buffer rfl rounds written run success
    exact .of_sameBlocks faithful noDrop room run success erased same
  refine ⟨enough, fun writes => ⟨fun back => ?_, enough⟩⟩
  obtain ⟨rounds, written, run, success⟩ := writes (replicate length 0) (by simp)
  have zeroBack := back _ (by simp) _ _ run success
  constructor
  · have fits := (nandWriteSkipBad_ok faithful noDrop (by simpa using room) run success).2.2.1
    rw [zeroBack.actual, length_replicate] at fits
    rw [fits]
    exact mod_lt _ (Nat.two_pow_pos bits)
  by_contra disagree
  rw [not_or] at disagree
  have readBack : ∀ buffer : List UInt8, buffer.length = length → ∃ flash',
      Programmed flash flash' (mtd.imageBytes chip offset length) buffer ∧
        (mtd.imageBytes chip offset length).length = length ∧
        (mtd.readBytes chip offset length).length = length ∧
        (mtd.readBytes chip offset length).map flash' = buffer := by
    rintro buffer rfl
    obtain ⟨rounds, written, run, success⟩ := writes buffer rfl
    exact ⟨written.flash, (back buffer rfl _ _ run success).map_readBytes faithful noDrop room
      run success disagree.1⟩
  obtain ⟨-, -, sameLength, sameLength', -⟩ := readBack (replicate length 0) (by simp)
  have differ : mtd.imageBytes chip offset length ≠ mtd.readBytes chip offset length := by
    intro same
    exact disagree.2 ((goodAddresses_eq_iff sameLength).1 same)
  obtain ⟨image, isLength, notRead⟩ := exists_image_not_read sameLength sameLength' differ erased
  obtain ⟨flash', programmed, -, -, isRead⟩ := readBack image isLength
  exact notRead flash' programmed isRead

def sampleMtd : MtdInfo where
  size := 2 ^ 32 + 2 * 0x20000
  erasesize := 0x20000
  writesize := 2048
  erasesize_pow := ⟨17, by decide, rfl⟩
  writesize_pos := by decide
  writesize_dvd := by decide
  erasesize_dvd := by decide
  size_lt := by decide

def sampleChip (badBlock : Nat) : NandChip where
  bad := fun block => block == badBlock
  write := fun ofs data m => (0, m.program ofs data)
  read := fun ofs len m => (0, m.read ofs len)

theorem sampleChip_faithful (badBlock : Nat) : (sampleChip badBlock).Faithful where
  write _ _ _ _ run := (Prod.mk.inj run).2.symm
  reads _ _ _ := .inl rfl
  read _ _ _ := rfl

def smallMtd : MtdInfo :=
  ⟨16, 4, 1, ⟨2, by decide, rfl⟩, by decide, by decide, by decide, by decide⟩

/-- An image that goes on behind a bad block. -/
theorem nandWriteSkipBad_back_iff_sample : ∃ written,
    nandWriteSkipBad smallMtd (sampleChip 1) 64 4 ⟨false, false⟩ 0 16 [1, 2, 3, 4, 5, 6]
        (fun _ => 0xff) = some written ∧ written.actual = 10 ∧
      WrittenBack smallMtd (sampleChip 1) 64 0 16 [1, 2, 3, 4, 5, 6] (fun _ => 0xff) written := by
  have succeeds : (nandWriteSkipBad smallMtd (sampleChip 1) 64 4 ⟨false, false⟩ 0 16
      [1, 2, 3, 4, 5, 6] (fun _ => 0xff)).map (fun written => (written.rval, written.actual)) =
        some (0, 10) := by decide
  obtain ⟨written, run, result⟩ := map_eq_some_iff.1 succeeds
  obtain ⟨success, actual⟩ := Prod.mk.inj result
  have long : smallMtd.imageLength (sampleChip 1) 0 6 = 10 := by decide
  have agree : ∀ x < 10, smallMtd.good (sampleChip 1) x = smallMtd.good32 (sampleChip 1) x := by
    decide
  have same : SameBlocks smallMtd (sampleChip 1) 64 0 6 :=
    ⟨by rw [long]; decide, .inr fun x _ below => agree x (by omega)⟩
  exact ⟨written, run, actual, (nandWriteSkipBad_back_iff smallMtd (sampleChip 1)
    (sampleChip_faithful 1) 64 (by decide) 0 6 16 (by decide) ⟨false, false⟩ rfl (fun _ => 0xff)
    fun _ _ => rfl).1 same [1, 2, 3, 4, 5, 6] rfl 4 written run success⟩

/-- At four gigabytes the write skips the bad block, and the read does not. -/
theorem nandReadSkipBad_bad_block : (sampleChip 0x8000).Faithful ∧
    (nandWriteSkipBad sampleMtd (sampleChip 0x8000) 64 4 ⟨false, false⟩ (2 ^ 32) (2 ^ 20) [7]
        (fun _ => 0xff)).map (fun written =>
          (written.rval, written.actual, written.flash (2 ^ 32 + 0x20000))) =
      some (0, 0x20001, 7) ∧
    ((nandWriteSkipBad sampleMtd (sampleChip 0x8000) 64 4 ⟨false, false⟩ (2 ^ 32) (2 ^ 20) [7]
        (fun _ => 0xff)).bind fun written =>
          nandReadSkipBad sampleMtd (sampleChip 0x8000) 64 4 (2 ^ 32) 1 (2 ^ 20) written.flash).map
        (fun back => (back.rval, back.buffer)) =
      some (0, [0xff]) :=
  ⟨sampleChip_faithful _, by decide, by decide⟩

end UBoot
