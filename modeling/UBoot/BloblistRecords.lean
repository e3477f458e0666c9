import Mathlib.Data.List.Find
import UBoot.Bloblist

/-!
# The records of a bloblist

A list that was made with the default alignment and filled by the functions of the
source is a sequence of records without gaps, as long as every record was added with
the space that a walk gives to it.  This file states what the memory of such a list
looks like, shows that adding a record keeps it so, and derives what a walk visits and
what a search finds.
-/

namespace UBoot

open List Nat Memory BitVec Bloblist Option

namespace Bloblist

/-! ## Bytes that stay -/

variable {b b' : Bloblist}

section Bytes

variable {ofs x n : Nat}

@[simp]
theorem hdr_putU8 (b : Bloblist) (ofs : Nat) (value : UInt8) : (b.putU8 ofs value).hdr = b.hdr :=
  rfl

@[simp]
theorem hdr_putU32 (b : Bloblist) (ofs value : Nat) : (b.putU32 ofs value).hdr = b.hdr := rfl

@[simp]
theorem hdr_clear (b : Bloblist) (ofs n : Nat) : (b.clear ofs n).hdr = b.hdr := rfl

theorem u8_putU8_same (b : Bloblist) (ofs : Nat) (value : UInt8) :
    (b.putU8 ofs value).u8 ofs = value := by
  exact write_inside (i := 0) (by simp)

theorem u8_putU8_of_ne {value : UInt8} (other : x ≠ ofs) : (b.putU8 ofs value).u8 x = b.u8 x := by
  apply write_of_disjoint
  rw [hdr_putU8, length_singleton]
  omega

theorem u8_putU32 {value : Nat} (outside : x < ofs ∨ ofs + 4 ≤ x) :
    (b.putU32 ofs value).u8 x = b.u8 x := by
  apply writeLE_of_disjoint
  rw [hdr_putU32]
  omega

theorem u8_clear (outside : x < ofs ∨ ofs + n ≤ x) : (b.clear ofs n).u8 x = b.u8 x := by
  apply zero_of_disjoint
  rw [hdr_clear]
  omega

theorem u32_congr (agree : ∀ i < 4, b'.u8 (ofs + i) = b.u8 (ofs + i)) : b'.u32 ofs = b.u32 ofs := by
  unfold u32 readLE
  congr 1
  apply ext_getElem (by simp)
  intro i inside inside'
  rw [getElem_read, getElem_read, add_assoc, add_assoc]
  exact agree i inside

theorem u32_putU8 {value : UInt8} (outside : x < ofs ∨ ofs + 4 ≤ x) :
    (b.putU8 x value).u32 ofs = b.u32 ofs :=
  u32_congr fun i inside => u8_putU8_of_ne (by omega)

theorem u32_putU32 {value : Nat} (outside : x + 4 ≤ ofs ∨ ofs + 4 ≤ x) :
    (b.putU32 x value).u32 ofs = b.u32 ofs :=
  u32_congr fun i inside => u8_putU32 (by omega)

theorem u32_putU32_same (b : Bloblist) (ofs value : Nat) :
    (b.putU32 ofs value).u32 ofs = value % 2 ^ 32 :=
  readLE_writeLE_same b.mem (b.hdr + ofs) 4 value

end Bytes

/-! ## The first word of a record -/

theorem recHdrSize_eq (b : Bloblist) (ofs : Nat) :
    b.recHdrSize ofs = b.tagAndHdrSize ofs / 2 ^ 24 % 2 ^ 8 := by
  unfold recHdrSize
  rw [shiftRight_and_distrib, shiftRight_eq_div_pow]
  exact and_two_pow_sub_one_eq_mod _ 8

theorem recTag_eq (b : Bloblist) (ofs : Nat) : b.recTag ofs = b.tagAndHdrSize ofs % 2 ^ 24 :=
  and_two_pow_sub_one_eq_mod _ 24

theorem toNat_tagWord {tag : BitVec 32} (tagFits : tag.toNat < 2 ^ 24) :
    (tag ||| BitVec.ofNat 32 (BLOBLIST_REC_HDR_SIZE <<< BLOBLISTR_HDR_SIZE_SHIFT)).toNat =
      2 ^ 24 * 8 + tag.toNat := by
  rw [toNat_or, two_pow_add_eq_or_of_lt tagFits, Nat.or_comm]
  rfl

/-! ## Records without gaps -/

/-- A record: where it starts, its tag and the size of its data, and whether it pads the
list. -/
structure Blob where
  ofs : Nat
  tag : Nat
  size : Nat
  padding : Bool
  deriving DecidableEq

structure Holds (b : Bloblist) (blob : Blob) : Prop where
  tag : b.recTag blob.ofs = blob.tag
  hdrSize : b.recHdrSize blob.ofs = BLOBLIST_REC_HDR_SIZE
  size : b.recSize blob.ofs = blob.size

def Blob.extent (blob : Blob) : Nat := BLOBLIST_REC_HDR_SIZE + roundUp blob.size 8

/-- The records lie one behind the other from `ofs` to `last`. -/
def Placed : (ofs : Nat) → List Blob → (last : Nat) → Prop
  | ofs, [], last => ofs = last
  | ofs, blob :: blobs, last => blob.ofs = ofs ∧ Placed (ofs + blob.extent) blobs last

/-- The list has the default alignment and holds the given records and nothing else. -/
structure Listed (b : Bloblist) (blobs : List Blob) : Prop where
  magic : b.magic = BLOBLIST_MAGIC
  version : b.version = BLOBLIST_VERSION
  hdrSize : b.hdrSize = BLOBLIST_HDR_SIZE
  alignLog2 : b.alignLog2 = BLOBLIST_BLOB_ALIGN_LOG2
  bounded : b.usedSize < 2 ^ 31 - 8
  within : b.usedSize ≤ b.totalSize
  placed : Placed BLOBLIST_HDR_SIZE blobs b.usedSize
  holds : ∀ blob ∈ blobs, b.Holds blob

structure Laid (b : Bloblist) (blobs : List Blob) : Prop extends Listed b blobs where
  aligned : 8 ∣ b.hdr
  small : b.totalSize < 2 ^ 31 - 8

variable {blobs : List Blob} {blob : Blob}

section Placed

variable {ofs last : Nat}

theorem eight_dvd_extent (blob : Blob) : 8 ∣ blob.extent := by
  exact Nat.dvd_add (by decide) (dvd_roundUp _ _)

theorem size_lt_extent (blob : Blob) : 8 + blob.size ≤ blob.extent := by
  have atLeast := le_roundUp (n := blob.size) (a := 8) (by decide)
  unfold Blob.extent BLOBLIST_REC_HDR_SIZE
  omega

variable (placed : Placed ofs blobs last)

include placed

theorem Placed.concat (starts : blob.ofs = last) :
    Placed ofs (blobs ++ [blob]) (last + blob.extent) := by
  induction blobs generalizing ofs with
  | nil =>
    obtain rfl : ofs = last := placed
    exact ⟨starts, rfl⟩
  | cons first blobs ih => exact ⟨placed.1, ih placed.2⟩

theorem Placed.unique {last' : Nat} (placed' : Placed ofs blobs last') : last = last' := by
  induction blobs generalizing ofs with
  | nil => exact placed.symm.trans placed'
  | cons first blobs ih => exact ih placed.2 placed'.2

theorem Placed.dvd (start : 8 ∣ ofs) : 8 ∣ last := by
  induction blobs generalizing ofs with
  | nil =>
    obtain rfl : ofs = last := placed
    exact start
  | cons first blobs ih => exact ih placed.2 (Nat.dvd_add start (eight_dvd_extent first))

theorem Placed.le : ofs ≤ last := by
  induction blobs generalizing ofs with
  | nil => exact le_of_eq placed
  | cons first blobs ih =>
    have rest := ih placed.2
    omega

theorem Placed.bounds (start : 8 ∣ ofs) (inside : blob ∈ blobs) :
    ofs ≤ blob.ofs ∧ blob.ofs + blob.extent ≤ last ∧ 8 ∣ blob.ofs := by
  induction blobs generalizing ofs with
  | nil => simp at inside
  | cons first blobs ih =>
    obtain ⟨starts, rest⟩ := placed
    rcases mem_cons.1 inside with rfl | inRest
    · subst starts
      exact ⟨le_rfl, rest.le, start⟩
    · obtain ⟨above, below, multiple⟩ := ih rest (Nat.dvd_add start (eight_dvd_extent first)) inRest
      exact ⟨by omega, below, multiple⟩

theorem Placed.apart {other : Blob} (start : 8 ∣ ofs) (inside : blob ∈ blobs)
    (inside' : other ∈ blobs) : other.ofs ≤ blob.ofs ∨ blob.ofs + blob.extent ≤ other.ofs := by
  induction blobs generalizing ofs with
  | nil => simp at inside
  | cons first blobs ih =>
    obtain ⟨starts, rest⟩ := placed
    have start' : 8 ∣ ofs + first.extent := Nat.dvd_add start (eight_dvd_extent first)
    rcases mem_cons.1 inside with rfl | inRest
    · rcases mem_cons.1 inside' with rfl | inRest'
      · exact .inl le_rfl
      · have bounds := rest.bounds start' inRest'
        exact .inr (by omega)
    have bounds := rest.bounds start' inRest
    rcases mem_cons.1 inside' with rfl | inRest'
    · exact .inl (by omega)
    · exact ih rest start' inRest inRest'

end Placed

namespace Listed

variable {b : Bloblist}

variable (listed : Listed b blobs)

include listed

theorem eight_dvd_usedSize : 8 ∣ b.usedSize := listed.placed.dvd (by decide)

theorem hdrSize_le_usedSize : 24 ≤ b.usedSize := listed.placed.le

theorem blobEndOfs (inside : blob ∈ blobs) : b.blobEndOfs blob.ofs = blob.ofs + blob.extent := by
  obtain ⟨-, below, multiple⟩ := listed.placed.bounds (by decide) inside
  have held := listed.holds blob inside
  have bounded := listed.bounded
  have room := size_lt_extent blob
  have wide : 2 ^ 32 ≤ 2 ^ b.ulongBits := Nat.pow_le_pow_right (by omega) b.wide
  have sum : (BitVec.ofNat b.ulongBits blob.ofs + BitVec.ofNat b.ulongBits (8 + blob.size) +
      BitVec.ofNat b.ulongBits 8).toNat = blob.ofs + 8 + (8 + blob.size) := by
    rw [← ofNat_add, ← ofNat_add, toNat_ofNat, mod_eq_of_lt (by omega)]
    omega
  have mask : (BitVec.ofNat b.ulongBits (2 ^ 3 - 1)).toNat = 2 ^ 3 - 1 := by
    rw [toNat_ofNat, mod_eq_of_lt (by omega)]
  have rounded : roundUp (blob.ofs + 8 + (8 + blob.size)) (2 ^ 3) = blob.ofs + 8 + blob.extent := by
    rw [← add_assoc]
    exact (roundUp_add (by decide) (by omega) blob.size).trans (add_assoc _ _ _)
  have ended : ((BitVec.ofNat b.ulongBits blob.ofs + BitVec.ofNat b.ulongBits (8 + blob.size) +
      BitVec.ofNat b.ulongBits 8 - 1 ||| BitVec.ofNat b.ulongBits (2 ^ 3 - 1)) + 1).toNat =
      blob.ofs + 8 + blob.extent := by
    rw [toNat_sub_one_or_mask_add_one mask, sum, rounded]
    · rw [sum]
      omega
    · rw [sum, rounded]
      omega
  have eight : (BitVec.ofNat b.ulongBits 8).toNat = 8 := by
    rw [toNat_ofNat, mod_eq_of_lt (by omega)]
  unfold Bloblist.blobEndOfs
  rw [held.hdrSize, held.size, listed.alignLog2]
  unfold BLOBLIST_REC_HDR_SIZE BLOBLIST_BLOB_ALIGN_LOG2
  rw [mod_eq_of_lt (a := 8 + blob.size) (by omega), toNat_sub_of_le, ended, eight]
  · omega
  · rw [le_def, ended, eight]
    omega

theorem consecutive : Consecutive b.blobEndOfs b.hdrSize (blobs.map Blob.ofs) b.usedSize := by
  have ends : ∀ blob ∈ blobs, b.blobEndOfs blob.ofs = blob.ofs + blob.extent :=
    fun blob inside => listed.blobEndOfs inside
  have placed := listed.placed
  rw [listed.hdrSize]
  generalize b.usedSize = last at placed
  generalize BLOBLIST_HDR_SIZE = ofs at placed
  clear listed
  induction blobs generalizing ofs with
  | nil => exact placed
  | cons first blobs ih =>
    obtain ⟨starts, rest⟩ := placed
    subst starts
    have ended := ends first (mem_cons_self ..)
    have room := size_lt_extent first
    refine ⟨rfl, by omega, ?_⟩
    rw [ended]
    apply ih _ _ rest
    exact fun blob inside => ends blob (mem_cons_of_mem _ inside)

theorem length_lt : blobs.length < b.usedSize + 1 := by
  have within := listed.consecutive.length_le
  rw [length_map] at within
  omega

theorem foreachRec_eq {steps : Nat} (enough : blobs.length < steps) :
    b.foreachRec steps = some (blobs.map Blob.ofs) := by
  apply listed.consecutive.recordWalk_eq
  rwa [length_map]

theorem bloblistFindrec_eq (tag : BitVec 32) :
    b.bloblistFindrec tag = some ((blobs.find? (·.tag = tag.toNat)).map Blob.ofs) := by
  have enough : (blobs.map Blob.ofs).length < b.usedSize + 1 := by
    rw [length_map]
    exact listed.length_lt
  have search := listed.consecutive.recordSearch_eq (fun ofs => b.recTag ofs = tag.toNat) enough
  have sameTag : blobs.find? ((fun ofs => decide (b.recTag ofs = tag.toNat)) ∘ Blob.ofs) =
      blobs.find? (·.tag = tag.toNat) := by
    apply find?_congr
    intro blob inside
    simp only [Function.comp, (listed.holds blob inside).tag]
  rw [find?_map, sameTag] at search
  exact search

theorem bloblistGetBlob_eq (tag : BitVec 32) :
    b.bloblistGetBlob tag = some ((blobs.find? (·.tag = tag.toNat)).map
      fun blob => (b.hdr + blob.ofs + BLOBLIST_REC_HDR_SIZE, blob.size)) := by
  unfold bloblistGetBlob
  rw [listed.bloblistFindrec_eq, map_some, Option.map_map]
  congr 1
  cases found : blobs.find? (·.tag = tag.toNat) with
  | none => rfl
  | some blob =>
    have held := listed.holds blob (mem_of_find?_eq_some found)
    simp [Function.comp, held.hdrSize, held.size]

end Listed

theorem laid_bloblistNew {machine b : Bloblist} {addr : Nat} {size flags : BitVec 32}
    (made : bloblistNew machine addr size flags 0 = .ok b) (small : size.toNat < 2 ^ 31 - 8) :
    Laid b [] ∧ b.hdr = addr ∧ b.totalSize = size.toNat := by
  unfold bloblistNew at made
  split at made
  · cases made
  next fits =>
  split at made
  · cases made
  next aligned =>
  cases made
  unfold BLOBLIST_HDR_SIZE at fits
  unfold BLOBLIST_ALIGN at aligned
  have total : ∀ c : Bloblist, (c.putU32 12 size.toNat).u32 12 = size.toNat := by
    intro c
    rw [u32_putU32_same, mod_eq_of_lt size.isLt]
  refine ⟨⟨⟨?_, ?_, ?_, ?_, ?_, ?_, ?_, nofun⟩, ?_, ?_⟩, rfl, ?_⟩
  · unfold magic
    simp (disch := decide) only [u32_putU8, u32_putU32, u32_putU32_same]
    rfl
  · unfold version
    simp (disch := decide) only [u8_putU8_of_ne, u8_putU32, u8_putU8_same]
  · unfold hdrSize
    simp (disch := decide) only [u8_putU8_of_ne, u8_putU32, u8_putU8_same]
    rfl
  · unfold alignLog2
    simp (disch := decide) only [u8_putU8_of_ne, u8_putU8_same]
    rfl
  · unfold usedSize
    simp (disch := decide) only [u32_putU8, u32_putU32, u32_putU32_same]
    decide
  · unfold totalSize usedSize
    simp (disch := decide) only [u32_putU8, u32_putU32, u32_putU32_same, total]
    unfold BLOBLIST_HDR_SIZE
    omega
  · unfold usedSize
    simp (disch := decide) only [u32_putU8, u32_putU32, u32_putU32_same]
    rfl
  · change 8 ∣ addr
    omega
  · unfold totalSize
    simp (disch := decide) only [u32_putU8, total]
    exact small
  · unfold totalSize
    simp (disch := decide) only [u32_putU8, total]

/-! ## Adding a record -/

section Adding

variable {tag size : BitVec 32} {alignLog2 : Nat}

theorem Holds.congr (held : b.Holds blob)
    (agree : ∀ x, blob.ofs ≤ x → x < blob.ofs + 8 → b'.u8 x = b.u8 x) : b'.Holds blob := by
  have sameFirst : b'.u32 blob.ofs = b.u32 blob.ofs :=
    u32_congr fun i inside => agree _ (by omega) (by omega)
  have sameSecond : b'.u32 (blob.ofs + 4) = b.u32 (blob.ofs + 4) :=
    u32_congr fun i inside => agree _ (by omega) (by omega)
  refine ⟨?_, ?_, sameSecond.trans held.size⟩
  · rw [← held.tag, recTag_eq, recTag_eq]
    exact congrArg (· % 2 ^ 24) sameFirst
  · rw [← held.hdrSize, recHdrSize_eq, recHdrSize_eq]
    exact congrArg (· / 2 ^ 24 % 2 ^ 8) sameFirst

/-- The list stays when its header does, but for the checksum and the total size, and the
headers of its records do. -/
theorem Listed.congr (listed : Listed b blobs)
    (header : ∀ x < BLOBLIST_HDR_SIZE, x ≠ 4 → x < 12 ∨ 16 ≤ x → b'.u8 x = b.u8 x)
    (records : ∀ blob ∈ blobs, ∀ x, blob.ofs ≤ x → x < blob.ofs + 8 → b'.u8 x = b.u8 x)
    (within : b.usedSize ≤ b'.totalSize) : Listed b' blobs := by
  unfold BLOBLIST_HDR_SIZE at header
  have sameUsed : b'.usedSize = b.usedSize :=
    u32_congr fun i inside => header _ (by omega) (by omega) (by omega)
  constructor
  · rw [← listed.magic]
    exact u32_congr fun i inside => header _ (by omega) (by omega) (by omega)
  · rw [← listed.version]
    exact header _ (by omega) (by omega) (by omega)
  · rw [← listed.hdrSize]
    exact congrArg UInt8.toNat (header _ (by omega) (by omega) (by omega))
  · rw [← listed.alignLog2]
    exact congrArg UInt8.toNat (header _ (by omega) (by omega) (by omega))
  · rw [sameUsed]
    exact listed.bounded
  · rw [sameUsed]
    exact within
  · rw [sameUsed]
    exact listed.placed
  · intro other inside
    exact (listed.holds other inside).congr (records other inside)

/-- A record behind the used part, when nothing but that part and the used size has
changed. -/
theorem Laid.concat (laid : Laid b blobs) (sameHdr : b'.hdr = b.hdr)
    (agree : ∀ x < b.usedSize, x < 8 ∨ 12 ≤ x → b'.u8 x = b.u8 x)
    (starts : blob.ofs = b.usedSize) (held : b'.Holds blob)
    (used : b'.usedSize = b.usedSize + blob.extent)
    (fits : b.usedSize + blob.extent ≤ b.totalSize) : Laid b' (blobs ++ [blob]) := by
  have header := laid.hdrSize_le_usedSize
  have small := laid.small
  have sameTotal : b'.totalSize = b.totalSize :=
    u32_congr fun i inside => agree _ (by omega) (by omega)
  refine ⟨⟨?_, ?_, ?_, ?_, by omega, by omega, ?_, ?_⟩, ?_, by omega⟩
  · rw [← laid.magic]
    exact u32_congr fun i inside => agree _ (by omega) (by omega)
  · rw [← laid.version]
    exact agree _ (by omega) (by omega)
  · rw [← laid.hdrSize]
    exact congrArg UInt8.toNat (agree _ (by omega) (by omega))
  · rw [← laid.alignLog2]
    exact congrArg UInt8.toNat (agree _ (by omega) (by omega))
  · rw [used]
    exact laid.placed.concat starts
  · intro other inside
    rcases mem_append.1 inside with old | new
    · obtain ⟨above, below, -⟩ := laid.placed.bounds (by decide) old
      have room := size_lt_extent other
      unfold BLOBLIST_HDR_SIZE at above
      exact (laid.holds other old).congr fun x atLeast less => agree x (by omega) (by omega)
    · obtain rfl := mem_singleton.1 new
      exact held
  · rw [sameHdr]
    exact laid.aligned

theorem u8_writeRec {x : Nat} (before : x < b.usedSize) : (b.writeRec tag size).u8 x = b.u8 x := by
  unfold writeRec
  rw [u8_clear (by omega), u8_putU32 (by omega), u8_putU32 (by omega)]

/-- The record that `writeRec` writes. -/
theorem holds_writeRec (tagFits : tag.toNat < 2 ^ 24) (padding : Bool) :
    (b.writeRec tag size).Holds ⟨b.usedSize, tag.toNat, size.toNat, padding⟩ := by
  have word := toNat_tagWord tagFits
  unfold writeRec
  generalize (tag ||| BitVec.ofNat 32 (BLOBLIST_REC_HDR_SIZE <<< BLOBLISTR_HDR_SIZE_SHIFT)).toNat =
    first at word
  have firstWord : ((b.putU32 b.usedSize first).putU32 (b.usedSize + 4) size.toNat).tagAndHdrSize
      b.usedSize = first := by
    unfold tagAndHdrSize
    rw [u32_putU32 (by omega), u32_putU32_same, mod_eq_of_lt (by omega)]
  have secondWord : ((b.putU32 b.usedSize first).putU32 (b.usedSize + 4) size.toNat).recSize
      b.usedSize = size.toNat := by
    unfold recSize
    rw [u32_putU32_same, mod_eq_of_lt size.isLt]
  have held : Holds ((b.putU32 b.usedSize first).putU32 (b.usedSize + 4) size.toNat)
      ⟨b.usedSize, tag.toNat, size.toNat, padding⟩ := by
    refine ⟨?_, ?_, secondWord⟩
    · rw [recTag_eq, firstWord, word, mul_add_mod, mod_eq_of_lt tagFits]
    · rw [recHdrSize_eq, firstWord]
      unfold BLOBLIST_REC_HDR_SIZE
      omega
  apply held.congr
  intro x _ less
  apply u8_clear
  rw [held.hdrSize]
  exact .inl less

theorem toNat_alignInt (few : alignLog2 ≤ 31) (x : BitVec 32) :
    (alignInt x alignLog2).toNat = roundUp x.toNat (2 ^ alignLog2) % 2 ^ 32 := by
  have power : 2 ^ alignLog2 ≤ 2 ^ 31 := Nat.pow_le_pow_right (by omega) few
  have positive : 0 < 2 ^ alignLog2 := Nat.two_pow_pos _
  apply toNat_add_mask_and_not _ (by omega)
  have shifted : (1#32 <<< alignLog2).toNat = 2 ^ alignLog2 := by
    rw [toNat_shiftLeft, toNat_ofNat, one_mod_two_pow (by decide),
      one_shiftLeft, mod_eq_of_lt (by omega)]
  rw [toNat_sub_of_le]
  · rw [shifted]
    rfl
  · rw [le_def, shifted]
    exact positive

def SameSpace (size : BitVec 32) (alignLog2 : Nat) : Prop :=
  roundUp size.toNat (2 ^ alignLog2) = roundUp size.toNat 8

instance (size : BitVec 32) (alignLog2 : Nat) : Decidable (SameSpace size alignLog2) :=
  inferInstanceAs (Decidable (_ = _))

theorem dataStart_sub_hdr :
    b.dataStart - BitVec.ofNat 32 b.hdr = BitVec.ofNat 32 (b.usedSize + 8) := by
  unfold dataStart BLOBLIST_REC_HDR_SIZE
  rw [Nat.add_assoc, ofNat_add, BitVec.add_comm, BitVec.add_sub_cancel]

theorem toNat_newAlloced (laid : Laid b blobs) (nonneg : size.toNat < 2 ^ 31)
    (few : alignLog2 ≤ 31) (sameSpace : SameSpace size alignLog2) :
    (b.dataStart - BitVec.ofNat 32 b.hdr + alignInt size alignLog2).toNat =
      b.usedSize + (BLOBLIST_REC_HDR_SIZE + roundUp size.toNat 8) := by
  have small := laid.small
  have within := laid.within
  have multiple := laid.eight_dvd_usedSize
  have near : roundUp size.toNat 8 ≤ 2 ^ 31 := by
    have below := roundUp_lt (n := size.toNat) (a := 8) (by decide)
    have rounded := dvd_roundUp size.toNat 8
    omega
  rw [dataStart_sub_hdr, toNat_add, toNat_ofNat, toNat_alignInt few, sameSpace]
  unfold BLOBLIST_REC_HDR_SIZE
  omega

theorem Laid.placeRec (laid : Laid b blobs) (tagFits : tag.toNat < 2 ^ 24)
    (nonneg : size.toNat < 2 ^ 31) (few : alignLog2 ≤ 31)
    (sameSpace : SameSpace size alignLog2) (padding : Bool) :
    b.placeRec tag size alignLog2 = (b, .error .ENOSPC) ∨
      ∃ added, b.placeRec tag size alignLog2 = (added, .ok b.usedSize) ∧ added.hdr = b.hdr ∧
        Laid added (blobs ++ [⟨b.usedSize, tag.toNat, size.toNat, padding⟩]) := by
  have alloced := toNat_newAlloced laid nonneg few sameSpace
  have header := laid.hdrSize_le_usedSize
  have before : ∀ x < b.usedSize, (b.writeRec tag size).u8 x = b.u8 x := fun x => u8_writeRec
  have held : (b.writeRec tag size).Holds ⟨b.usedSize, tag.toNat, size.toNat, padding⟩ :=
    holds_writeRec tagFits padding
  have sameHdr : (b.writeRec tag size).hdr = b.hdr := rfl
  unfold Bloblist.placeRec
  dsimp only
  rw [alloced]
  generalize b.writeRec tag size = written at *
  split
  · exact .inl rfl
  next fits =>
  refine .inr ⟨_, rfl, sameHdr, ?_⟩
  apply laid.concat
  · exact sameHdr
  · intro x inside other
    rw [u8_putU32 (by omega), before x inside]
  · rfl
  · apply held.congr
    intro x atLeast _
    change b.usedSize ≤ x at atLeast
    exact u8_putU32 (by omega)
  · rw [usedSize, u32_putU32_same, mod_eq_of_lt (by omega)]
    rfl
  · exact Nat.le_of_not_lt fits

theorem toNat_alignedStart (few : alignLog2 ≤ 31) (b : Bloblist) :
    (alignInt b.dataStart alignLog2 - b.dataStart).toNat =
      roundUp (b.hdr + b.usedSize + 8) (2 ^ alignLog2) - (b.hdr + b.usedSize + 8) := by
  have positive : 0 < 2 ^ alignLog2 := Nat.two_pow_pos _
  have power : 2 ^ alignLog2 ≤ 2 ^ 31 := Nat.pow_le_pow_right (by omega) few
  have start : b.dataStart.toNat = (b.hdr + b.usedSize + 8) % 2 ^ 32 := toNat_ofNat _ _
  have split := div_add_mod (b.hdr + b.usedSize + 8) (2 ^ 32)
  have shifted := roundUp_add positive (n := (b.hdr + b.usedSize + 8) % 2 ^ 32)
    (k := 2 ^ 32 * ((b.hdr + b.usedSize + 8) / 2 ^ 32))
    ((pow_dvd_pow 2 (by omega)).mul_right _)
  have above := le_roundUp (n := (b.hdr + b.usedSize + 8) % 2 ^ 32) positive
  have near := roundUp_lt (n := (b.hdr + b.usedSize + 8) % 2 ^ 32) positive
  rw [split] at shifted
  rw [toNat_sub, toNat_alignInt few, start, shifted]
  generalize roundUp ((b.hdr + b.usedSize + 8) % 2 ^ 32) (2 ^ alignLog2) = rounded at *
  generalize b.hdr + b.usedSize + 8 = address at *
  omega

theorem Laid.alignedStart_default (laid : Laid b blobs) :
    alignInt b.dataStart BLOBLIST_BLOB_ALIGN_LOG2 - b.dataStart = 0 := by
  have multiple := laid.eight_dvd_usedSize
  have base := laid.aligned
  apply eq_of_toNat_eq
  rw [toNat_alignedStart (by decide), roundUp_of_dvd (by decide), Nat.sub_self]
  · rfl
  · change 8 ∣ _
    omega

theorem Laid.usedSize_concat (laid : Laid b blobs) {padded : Bloblist}
    (laid' : Laid padded (blobs ++ [blob])) (starts : blob.ofs = b.usedSize) :
    padded.usedSize = b.usedSize + blob.extent :=
  laid'.placed.unique (laid.placed.concat starts)

/-- What adding a record does to a list: at most a padding record is put behind it, and
then either the new record or nothing. -/
inductive Added (b : Bloblist) (blobs : List Blob) (tag size : BitVec 32) (alignLog2 : Nat) :
    Bloblist × Except BloblistError Nat → Prop
  | placed (added : Bloblist) (padding : List Blob) (ofs : Nat)
      (pads : ∀ blob ∈ padding, blob.padding = true ∧ blob.tag = 0) (sameHdr : added.hdr = b.hdr)
      (laid : Laid added (blobs ++ padding ++ [⟨ofs, tag.toNat, size.toNat, false⟩]))
      (aligned : 2 ^ alignLog2 ∣ b.hdr + ofs + 8) :
      Added b blobs tag size alignLog2 (added, .ok ofs)
  | refused (padded : Bloblist) (padding : List Blob)
      (pads : ∀ blob ∈ padding, blob.padding = true ∧ blob.tag = 0) (sameHdr : padded.hdr = b.hdr)
      (laid : Laid padded (blobs ++ padding)) :
      Added b blobs tag size alignLog2 (padded, .error .ENOSPC)

theorem Laid.placeRec_added {padded : Bloblist} {padding : List Blob}
    (laid : Laid padded (blobs ++ padding)) (sameHdr : padded.hdr = b.hdr)
    (pads : ∀ blob ∈ padding, blob.padding = true ∧ blob.tag = 0) (tagFits : tag.toNat < 2 ^ 24)
    (nonneg : size.toNat < 2 ^ 31) (few : alignLog2 ≤ 31) (sameSpace : SameSpace size alignLog2)
    (aligned : 2 ^ alignLog2 ∣ b.hdr + padded.usedSize + 8) :
    Added b blobs tag size alignLog2 (padded.placeRec tag size alignLog2) := by
  rcases laid.placeRec tagFits nonneg few sameSpace false with refused |
    ⟨added, placed, same, laid'⟩
  · rw [refused]
    exact .refused padded padding pads sameHdr laid
  · rw [placed]
    exact .placed added padding padded.usedSize pads (same.trans sameHdr) laid' aligned

structure Walkable (tag size : BitVec 32) (alignLog2 : Nat) : Prop where
  tagFits : tag.toNat < 2 ^ 24
  nonneg : size.toNat < 2 ^ 31
  coarse : 3 ≤ alignLog2
  few : alignLog2 ≤ 31
  sameSpace : SameSpace size alignLog2

theorem Laid.bloblistAddrec (laid : Laid b blobs) {requested : Nat}
    (effective : alignLog2 = if requested = 0 then BLOBLIST_BLOB_ALIGN_LOG2 else requested)
    (walkable : Walkable tag size alignLog2) (depth : Nat) :
    ∃ result, bloblistAddrec (depth + 2) b tag size requested = some result ∧
      Added b blobs tag size alignLog2 result := by
  have positive : 0 < 2 ^ alignLog2 := Nat.two_pow_pos _
  have multiple := laid.eight_dvd_usedSize
  have base := laid.aligned
  have distance := toNat_alignedStart walkable.few b
  have above := le_roundUp (n := b.hdr + b.usedSize + 8) positive
  have near := roundUp_lt (n := b.hdr + b.usedSize + 8) positive
  have rounded := dvd_roundUp (b.hdr + b.usedSize + 8) (2 ^ alignLog2)
  have coarse : 8 ∣ 2 ^ alignLog2 := pow_dvd_pow 2 walkable.coarse
  rw [Bloblist.bloblistAddrec, ← effective]
  dsimp only
  split
  · next noPadding =>
    rw [noPadding] at distance
    change 0 = _ at distance
    refine ⟨_, rfl, ?_⟩
    have laid' : Laid b (blobs ++ []) := by simpa using laid
    apply laid'.placeRec_added rfl nofun walkable.tagFits walkable.nonneg walkable.few
      walkable.sameSpace
    rwa [le_antisymm (by omega : roundUp _ _ ≤ b.hdr + b.usedSize + 8) above] at rounded
  next padding =>
  have positiveDistance : (alignInt b.dataStart alignLog2 - b.dataStart).toNat ≠ 0 :=
    fun none => padding (eq_of_toNat_eq none)
  generalize alignInt b.dataStart alignLog2 - b.dataStart = alignedStart at *
  have roundedEight : 8 ∣ roundUp (b.hdr + b.usedSize + 8) (2 ^ alignLog2) := coarse.trans rounded
  have power : 2 ^ alignLog2 ≤ 2 ^ 31 := Nat.pow_le_pow_right (by omega) walkable.few
  have voidSize : (alignedStart - BitVec.ofNat 32 BLOBLIST_REC_HDR_SIZE).toNat =
      alignedStart.toNat - 8 := by
    apply toNat_sub_of_le
    change 8 ≤ alignedStart.toNat
    omega
  generalize alignedStart - BitVec.ofNat 32 BLOBLIST_REC_HDR_SIZE = size' at *
  rw [Bloblist.bloblistAddrec]
  rw [if_pos rfl, if_pos laid.alignedStart_default]
  have sameSpace : SameSpace size' BLOBLIST_BLOB_ALIGN_LOG2 := rfl
  have voidFits : BLOBLISTT_VOID.toNat < 2 ^ 24 := by decide
  rcases laid.placeRec voidFits (by omega) (by decide) sameSpace true with
    refused | ⟨padded, placed, same, laid'⟩
  · rw [refused]
    exact ⟨_, rfl, .refused b [] nofun rfl (by simpa using laid)⟩
  have used := laid.usedSize_concat laid' rfl
  unfold Blob.extent BLOBLIST_REC_HDR_SIZE at used
  rw [roundUp_of_dvd (by decide) (by dsimp only; omega)] at used
  dsimp only at used
  rw [placed]
  refine ⟨_, rfl, ?_⟩
  apply laid'.placeRec_added same ?_ walkable.tagFits walkable.nonneg walkable.few
    walkable.sameSpace
  · have reached : b.hdr + padded.usedSize + 8 =
        roundUp (b.hdr + b.usedSize + 8) (2 ^ alignLog2) := by omega
    rwa [reached]
  · intro blob inside
    obtain rfl := mem_singleton.1 inside
    exact ⟨rfl, rfl⟩

end Adding

end Bloblist

end UBoot
