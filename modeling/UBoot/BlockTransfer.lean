import Mathlib.Data.List.Basic
import Mathlib.Tactic.LinearCombination

/-!
# Files sent block by block

A file is cut into blocks of one size, counted from one; the block that is not
full is the last.  The receiver of this file keeps a block exactly when it is the
one after the blocks it has, so what it has is always a first part of the file.
Sequence numbers of limited width tell blocks apart that are less than one round
of the numbers away from each other.
-/

namespace UBoot

open Nat

variable {α : Type*}

def fileBlock (file : List α) (blockSize n : Nat) : List α :=
  (file.drop ((n - 1) * blockSize)).take blockSize

def HasBlock (file : List α) (blockSize n : Nat) : Prop := 0 < n ∧ (n - 1) * blockSize ≤ file.length

instance (file : List α) (blockSize n : Nat) : Decidable (HasBlock file blockSize n) :=
  inferInstanceAs (Decidable (_ ∧ _))

def IsFinalBlock (file : List α) (blockSize n : Nat) : Prop :=
  HasBlock file blockSize n ∧ file.length < n * blockSize

instance (file : List α) (blockSize n : Nat) : Decidable (IsFinalBlock file blockSize n) :=
  inferInstanceAs (Decidable (_ ∧ _))

theorem length_fileBlock (file : List α) (blockSize n : Nat) : (fileBlock file blockSize n).length =
      min blockSize (file.length - (n - 1) * blockSize) := by simp [fileBlock]

theorem length_fileBlock_le (file : List α) (blockSize n : Nat) :
    (fileBlock file blockSize n).length ≤ blockSize := by
  rw [length_fileBlock]
  exact Nat.min_le_left _ _

theorem take_append_fileBlock (file : List α) (blockSize n : Nat) :
    file.take (n * blockSize) ++ fileBlock file blockSize (n + 1) =
      file.take ((n + 1) * blockSize) := by
  rw [fileBlock, Nat.add_sub_cancel, succ_mul, List.take_add]

variable {n blockSize : Nat} {file : List α}

theorem length_fileBlock_lt_iff (has : HasBlock file blockSize n) :
    (fileBlock file blockSize n).length < blockSize ↔ IsFinalBlock file blockSize n := by
  obtain ⟨positive, before⟩ := has
  have next : n * blockSize = (n - 1) * blockSize + blockSize := by
    rw [← succ_mul]
    congr 1
    omega
  rw [length_fileBlock]
  unfold IsFinalBlock HasBlock
  omega

theorem length_take_add_length_fileBlock (has : HasBlock file blockSize (n + 1)) :
    n * blockSize + (fileBlock file blockSize (n + 1)).length =
      min ((n + 1) * blockSize) file.length := by
  have before : n * blockSize ≤ file.length := by simpa using has.2
  rw [length_fileBlock, Nat.add_sub_cancel, succ_mul]
  omega

theorem HasBlock.of_le {k : Nat} (has : HasBlock file blockSize n) (positive : 0 < k) (le : k ≤ n) :
    HasBlock file blockSize k := by
  constructor
  · exact positive
  · have fewer : (k - 1) * blockSize ≤ (n - 1) * blockSize := Nat.mul_le_mul_right _ (by omega)
    exact fewer.trans has.2

theorem IsFinalBlock.le_of_hasBlock {last : Nat}
    (final : IsFinalBlock file blockSize last) (has : HasBlock file blockSize n) :
    n ≤ last := by
  by_contra beyond
  have more : last * blockSize ≤ (n - 1) * blockSize := Nat.mul_le_mul_right _ (by omega)
  have full := has.2
  have short := final.2
  omega

theorem eq_of_mod_eq_of_near {size k : Nat} (same : n % size = k % size)
    (notAhead : n < k + size) (notBehind : k < n + size) : n = k := by
  have leftSplit := div_add_mod n size
  have rightSplit := div_add_mod k size
  rcases Nat.lt_trichotomy (n / size) (k / size) with less | equal | more
  · have round : size * (n / size) + size ≤ size * (k / size) := by exact Nat.mul_le_mul_left _ less
    omega
  · rw [equal] at leftSplit
    omega
  · have round : size * (k / size) + size ≤ size * (n / size) := by exact Nat.mul_le_mul_left _ more
    omega

theorem offset_of_wrapped {word size : Nat} (below : n * blockSize < word) :
    (((((n + 1) % size * blockSize : Nat) : Int) +
      ((n + 1) / size * (size * blockSize) % word : Nat) - blockSize) % word).toNat =
      n * blockSize := by
  have split := div_add_mod (n + 1) size
  have wrapped := div_add_mod ((n + 1) / size * (size * blockSize)) word
  generalize (n + 1) / size * (size * blockSize) % word = offset at *
  generalize (n + 1) / size * (size * blockSize) / word = rounds at *
  generalize (n + 1) % size = block at *
  have position : ((block * blockSize : Nat) : Int) + offset - blockSize =
      (n * blockSize : Nat) - word * rounds := by
    have splitInt : (size : Int) * ((n + 1) / size : Nat) + block = n + 1 := by exact_mod_cast split
    have wrappedInt : (word : Int) * rounds + offset =
        ((n + 1) / size : Nat) * (size * blockSize) := by exact_mod_cast wrapped
    push_cast
    linear_combination blockSize * splitInt + wrappedInt
  rw [position, Int.sub_mul_emod_self_left, ← Int.natCast_emod, Int.toNat_natCast,
    mod_eq_of_lt below]

def keepInOrder (received n : Nat) : Nat := if n = received + 1 then received + 1 else received

end UBoot
