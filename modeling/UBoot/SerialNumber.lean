import Mathlib.Data.BitVec
import Mathlib.Tactic.Ring

/-!
# Serial numbers

Positions of an unbounded stream are written in machine words that wrap.  The
difference of two words, read as a signed number, is the difference of the
positions when these are less than half the range of the words apart.
-/

namespace UBoot

open BitVec

def serial (w : Nat) (z : Int) : BitVec w := BitVec.ofInt w z

def serialCmp {w : Nat} (a b : BitVec w) : Int := (a - b).toInt

theorem serial_add (w : Nat) (a b : Int) : serial w (a + b) = serial w a + serial w b :=
  ofInt_add a b

theorem serial_sub (w : Nat) (a b : Int) : serial w (a - b) = serial w a - serial w b := by
  have sum : serial w (a - b) + serial w b = serial w a := by rw [← serial_add, Int.sub_add_cancel]
  rw [← sum, BitVec.add_sub_cancel]

theorem serial_natCast (w n : Nat) : serial w n = BitVec.ofNat w n := ofInt_natCast ..

theorem serialCmp_serial {w : Nat} {a b : Int} (notFarAbove : a - b < (2 ^ w + 1) / 2)
    (notFarBelow : -(2 ^ w / 2) ≤ a - b) : serialCmp (serial w a) (serial w b) = a - b := by
  unfold serialCmp
  rw [← serial_sub]
  unfold serial
  rw [toInt_ofInt]
  apply Int.bmod_eq_of_le
  · push_cast
    exact notFarBelow
  · push_cast
    exact notFarAbove

theorem serial_add_two_pow (w : Nat) (z : Int) : serial w (z + 2 ^ w) = serial w z := by
  apply eq_of_toInt_eq
  unfold serial
  rw [toInt_ofInt, toInt_ofInt]
  have cast : (2 : Int) ^ w = ((2 ^ w : Nat) : Int) := by push_cast; rfl
  rw [cast, Int.add_bmod_right]

theorem serial_add_serialCmp {w : Nat} (x : BitVec w) (z : Int) :
    serial w (z + serialCmp x (serial w z)) = x := by
  have difference : serial w (serialCmp x (serial w z)) = x - serial w z := ofInt_toInt
  rw [serial_add, difference, BitVec.add_comm, BitVec.sub_add_cancel]

end UBoot
