import Mathlib.Data.ZMod.Units
import Mathlib.Data.Nat.Digits.Defs

/-!
# Montgomery multiplication

The product of two numbers divided by a power of the base, modulo an odd number,
is computed digit by digit: to the running result a digit times the other factor
is added, then the multiple of the modulus that clears the lowest digit, and that
digit is dropped.  The result is reduced only when it no longer fits the digits,
so it stays below the limit of the digits and not below the modulus.
-/

namespace UBoot
namespace Montgomery

def quotient (base inverse sum : Nat) : Nat := sum % base * inverse % base

def step (base modulus inverse factor result digit : Nat) : Nat :=
  (result + digit * factor + quotient base inverse (result + digit * factor) * modulus) / base

def reduce (modulus limit x : Nat) : Nat := if limit ≤ x then x - modulus else x

def product (base modulus inverse limit factor : Nat) (result : Nat) (digits : List Nat) : Nat :=
  digits.foldl
    (fun result digit => reduce modulus limit (step base modulus inverse factor result digit))
    result

section Step

variable {base modulus inverse limit factor : Nat}

theorem dvd_sum_add_quotient (isInverse : base ∣ inverse * modulus + 1) (sum : Nat) :
    base ∣ sum + quotient base inverse sum * modulus := by
  have whole : quotient base inverse sum ≡ sum * inverse [MOD base] := by
    calc sum % base * inverse % base ≡ sum % base * inverse [MOD base] := Nat.mod_modEq _ _
      _ ≡ sum * inverse [MOD base] := (Nat.mod_modEq sum base).mul_right inverse
  apply (Nat.modEq_zero_iff_dvd).1
  calc sum + quotient base inverse sum * modulus
      ≡ sum + sum * inverse * modulus [MOD base] := (whole.mul_right modulus).add_left sum
    _ = sum * (inverse * modulus + 1) := by ring
    _ ≡ 0 [MOD base] := Nat.modEq_zero_iff_dvd.2 (Dvd.dvd.mul_left isInverse sum)

theorem base_mul_step (isInverse : base ∣ inverse * modulus + 1) (factor result digit : Nat) :
    base * step base modulus inverse factor result digit =
      result + digit * factor + quotient base inverse (result + digit * factor) * modulus :=
  Nat.mul_div_cancel' (dvd_sum_add_quotient isInverse _)

theorem quotient_lt (positive : 0 < base) (inverse sum : Nat) : quotient base inverse sum < base :=
  Nat.mod_lt _ positive

theorem step_lt (isInverse : base ∣ inverse * modulus + 1) {result digit : Nat}
    (positive : 0 < base) (resultLt : result < limit) (digitLt : digit < base)
    (factorLt : factor < limit) :
    step base modulus inverse factor result digit < limit + modulus := by
  have total := base_mul_step isInverse factor result digit
  have cleared := quotient_lt positive inverse (result + digit * factor)
  apply Nat.lt_of_mul_lt_mul_left (a := base)
  have product : digit * factor ≤ (base - 1) * (limit - 1) := Nat.mul_le_mul (by omega) (by omega)
  have multiple : quotient base inverse (result + digit * factor) * modulus ≤ base * modulus :=
    Nat.mul_le_mul_right modulus cleared.le
  have room : (limit - 1) + (base - 1) * (limit - 1) = base * (limit - 1) := by
    obtain ⟨b, rfl⟩ : ∃ b, base = b + 1 := ⟨base - 1, by omega⟩
    rw [Nat.add_sub_cancel]
    ring
  have less : base * (limit - 1) < base * limit := (Nat.mul_lt_mul_left positive).2 (by omega)
  rw [Nat.mul_add]
  omega

theorem reduce_cast {x : Nat} (fits : modulus ≤ limit) :
    (reduce modulus limit x : ZMod modulus) = x := by
  unfold reduce
  split
  case isTrue large =>
    rw [Nat.cast_sub (fits.trans large), ZMod.natCast_self, sub_zero]
  case isFalse => rfl

variable (isInverse : base ∣ inverse * modulus + 1)

include isInverse

theorem step_cast (result digit : Nat) :
    (base : ZMod modulus) * step base modulus inverse factor result digit =
      result + digit * factor := by
  have total := congrArg (Nat.cast (R := ZMod modulus))
    (base_mul_step isInverse factor result digit)
  rw [Nat.cast_mul] at total
  rw [total]
  push_cast
  rw [ZMod.natCast_self, mul_zero, add_zero]

theorem product_cast (fits : modulus ≤ limit) (factor : Nat) (digits : List Nat) (result : Nat) :
    (base : ZMod modulus) ^ digits.length *
        product base modulus inverse limit factor result digits =
      result + (Nat.ofDigits base digits : Nat) * factor := by
  induction digits generalizing result with
  | nil => simp [product]
  | cons digit digits ih =>
    have later := ih (reduce modulus limit (step base modulus inverse factor result digit))
    rw [reduce_cast fits] at later
    rw [List.length_cons, pow_succ']
    calc (base : ZMod modulus) * (base : ZMod modulus) ^ digits.length *
          product base modulus inverse limit factor result (digit :: digits)
        = base * ((base : ZMod modulus) ^ digits.length * product base modulus inverse limit
            factor (reduce modulus limit (step base modulus inverse factor result digit))
            digits) := by
          rw [mul_assoc]
          rfl
      _ = base * step base modulus inverse factor result digit +
            base * ((Nat.ofDigits base digits : Nat) * factor) := by
          rw [later, mul_add]
      _ = result + (Nat.ofDigits base (digit :: digits) : Nat) * factor := by
          rw [step_cast isInverse, Nat.ofDigits_cons]
          push_cast
          ring

end Step

end Montgomery
end UBoot
