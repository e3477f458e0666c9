import Mathlib.Data.Nat.Bitwise
import Mathlib.Tactic.Ring

/-!
# Rounding to an alignment

The least multiple of an alignment that is not below a number, and the two ways in
which programs compute such roundings on machine words: clearing the low bits with
the complement of a mask, and setting them with the mask.
-/

namespace UBoot

open Nat BitVec

/-- The least multiple of `a` that is not below `n`. -/
def roundUp (n a : Nat) : Nat := (n + (a - 1)) / a * a

section RoundUp

variable {n a : Nat}

theorem dvd_roundUp (n a : Nat) : a ∣ roundUp n a := dvd_mul_left _ _

theorem le_roundUp (pos : 0 < a) : n ≤ roundUp n a := by
  have split := div_add_mod (n + (a - 1)) a
  have below := mod_lt (n + (a - 1)) pos
  unfold roundUp
  rw [mul_comm]
  omega

theorem roundUp_lt (pos : 0 < a) : roundUp n a < n + a := by
  have below := div_mul_le_self (n + (a - 1)) a
  unfold roundUp
  omega

theorem roundUp_unique {m : Nat} (multiple : a ∣ m) (notBelow : n ≤ m) (near : m < n + a) :
    roundUp n a = m := by
  have pos : 0 < a := by omega
  obtain ⟨q, rfl⟩ := multiple
  unfold roundUp
  rw [Nat.mul_comm a q]
  congr 1
  rw [Nat.div_eq_iff pos]
  rw [Nat.mul_comm a q] at notBelow near
  have next : (q + 1) * a = q * a + a := Nat.succ_mul q a
  omega

theorem roundUp_of_dvd (pos : 0 < a) (multiple : a ∣ n) : roundUp n a = n :=
  roundUp_unique multiple le_rfl (by omega)

theorem roundUp_add (pos : 0 < a) {k : Nat} (multiple : a ∣ k) (n : Nat) :
    roundUp (k + n) a = k + roundUp n a := by
  have atLeast := le_roundUp (n := n) pos
  have near := roundUp_lt (n := n) pos
  apply roundUp_unique
  · exact Nat.dvd_add multiple (dvd_roundUp n a)
  · omega
  · omega

end RoundUp

section Masks

variable {w k : Nat} {x mask : BitVec w}

variable (isMask : mask.toNat = 2 ^ k - 1)

include isMask

theorem toNat_and_not_mask : (x &&& ~~~mask).toNat = x.toNat / 2 ^ k * 2 ^ k := by
  have small : x.toNat / 2 ^ k * 2 ^ k < 2 ^ w := (div_mul_le_self _ _).trans_lt x.isLt
  have cleared : x &&& ~~~mask = BitVec.ofNat w (x.toNat / 2 ^ k * 2 ^ k) := by
    apply eq_of_getLsbD_eq
    intro i inRange
    have maskBit : mask.getLsbD i = decide (i < k) := by
      rw [getLsbD, isMask, testBit_two_pow_sub_one]
    rw [getLsbD_and, getLsbD_not, maskBit, getLsbD_ofNat, testBit_mul_two_pow, testBit_div_two_pow]
    by_cases low : i < k
    · simp [low]
    · have index : i - k + k = i := by omega
      simp [low, inRange, getLsbD, index]
      omega
  rw [cleared, toNat_ofNat, mod_eq_of_lt small]

theorem toNat_or_mask : (x ||| mask).toNat = x.toNat / 2 ^ k * 2 ^ k + (2 ^ k - 1) := by
  have parts : (x &&& ~~~mask) + mask = x ||| mask := by
    rw [add_eq_or_of_and_eq_zero]
    · ext i
      simp
      grind
    · ext i
      simp
  rw [← parts, toNat_add_of_and_eq_zero, toNat_and_not_mask isMask, isMask]
  ext i
  simp

theorem toNat_add_mask_and_not (few : k ≤ w) :
    (x + mask &&& ~~~mask).toNat = roundUp x.toNat (2 ^ k) % 2 ^ w := by
  have positive : 0 < 2 ^ k := Nat.two_pow_pos k
  have bound := x.isLt
  rw [toNat_and_not_mask isMask, toNat_add, isMask]
  by_cases noWrap : x.toNat + (2 ^ k - 1) < 2 ^ w
  · have below := div_mul_le_self (x.toNat + (2 ^ k - 1)) (2 ^ k)
    rw [mod_eq_of_lt noWrap]
    exact (mod_eq_of_lt (lt_of_le_of_lt below noWrap)).symm
  have top : roundUp x.toNat (2 ^ k) = 2 ^ w :=
    roundUp_unique (pow_dvd_pow 2 few) bound.le (by omega)
  have wrapped : (x.toNat + (2 ^ k - 1)) % 2 ^ w < 2 ^ k := by
    rw [mod_eq_sub_mod (by omega), mod_eq_of_lt (by omega)]
    omega
  rw [top, div_eq_of_lt wrapped, Nat.zero_mul, mod_self]

theorem toNat_sub_one_or_mask_add_one (pos : 0 < x.toNat)
    (noWrap : roundUp x.toNat (2 ^ k) < 2 ^ w) :
    ((x - 1 ||| mask) + 1).toNat = roundUp x.toNat (2 ^ k) := by
  have positive : 0 < 2 ^ k := Nat.two_pow_pos k
  have one : (1 : BitVec w).toNat = 1 := by
    have wide : 1 < 2 ^ w := by omega
    simpa using mod_eq_of_lt wide
  have before : (x - 1).toNat = x.toNat - 1 := by rw [toNat_sub_of_le (by rw [le_def]; omega), one]
  have next : x.toNat + (2 ^ k - 1) = x.toNat - 1 + 2 ^ k := by omega
  have rounded : roundUp x.toNat (2 ^ k) = (x.toNat - 1) / 2 ^ k * 2 ^ k + 2 ^ k := by
    unfold roundUp
    rw [next, add_div_right _ positive, Nat.succ_mul]
  rw [toNat_add, toNat_or_mask isMask, before, one, add_assoc,
    Nat.sub_add_cancel positive, ← rounded, mod_eq_of_lt noWrap]

end Masks

end UBoot
