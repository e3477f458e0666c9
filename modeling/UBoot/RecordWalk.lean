import Mathlib.Data.List.Basic

/-!
# Walking over consecutive records

Records of different lengths lie one behind the other in an area.  A walk starts at
the first one and goes on to the end of each record, which is computed from the
record itself, until it has reached the end of the area.  The walk is given a number
of steps; it has no result when they do not suffice.
-/

namespace UBoot

open List

def recordWalk (next : Nat → Nat) (limit : Nat) : (steps ofs : Nat) → Option (List Nat)
  | 0, _ => none
  | steps + 1, ofs =>
    if limit ≤ ofs then some []
    else (recordWalk next limit steps (next ofs)).map (ofs :: ·)

def recordSearch (next : Nat → Nat) (limit : Nat) (found : Nat → Bool) :
    (steps ofs : Nat) → Option (Option Nat)
  | 0, _ => none
  | steps + 1, ofs =>
    if limit ≤ ofs then some none
    else if found ofs then some (some ofs)
    else recordSearch next limit found steps (next ofs)

/-- The records at the given offsets follow each other from `ofs` to `last`. -/
def Consecutive (next : Nat → Nat) : (ofs : Nat) → List Nat → (last : Nat) → Prop
  | ofs, [], last => ofs = last
  | ofs, x :: xs, last => x = ofs ∧ ofs < next ofs ∧ Consecutive next (next ofs) xs last

theorem recordWalk_stuck {next : Nat → Nat} {limit ofs : Nat} (inside : ofs < limit)
    (still : next ofs = ofs) (steps : Nat) : recordWalk next limit steps ofs = none := by
  induction steps with
  | zero => rfl
  | succ steps ih => rw [recordWalk, if_neg (by omega), still, ih, Option.map_none]

theorem recordSearch_stuck {next : Nat → Nat} {limit ofs : Nat} {found : Nat → Bool}
    (inside : ofs < limit) (still : next ofs = ofs) (other : found ofs = false) (steps : Nat) :
    recordSearch next limit found steps ofs = none := by
  induction steps with
  | zero => rfl
  | succ steps ih => rw [recordSearch, if_neg (by omega), if_neg (by simp [other]), still, ih]

namespace Consecutive

variable {next next' : Nat → Nat} {ofs last : Nat} {xs ys : List Nat}

variable (consecutive : Consecutive next ofs xs last)

include consecutive

theorem length_le : ofs + xs.length ≤ last := by
  induction xs generalizing ofs with
  | nil => exact Nat.le_of_eq consecutive
  | cons x xs ih =>
    have forward := consecutive.2.1
    have rest := ih consecutive.2.2
    rw [length_cons]
    omega

theorem recordWalk_eq {steps : Nat} (enough : xs.length < steps) :
    recordWalk next last steps ofs = some xs := by
  induction xs generalizing ofs steps with
  | nil =>
    obtain _ | steps := steps
    · omega
    rw [recordWalk, if_pos (Nat.le_of_eq consecutive.symm)]
  | cons x xs ih =>
    obtain _ | steps := steps
    · omega
    have within := consecutive.length_le
    rw [length_cons] at within enough
    obtain ⟨rfl, -, rest⟩ := consecutive
    rw [recordWalk, if_neg (by omega), ih rest (by omega), Option.map_some]

theorem recordSearch_eq (found : Nat → Bool) {steps : Nat} (enough : xs.length < steps) :
    recordSearch next last found steps ofs = some (xs.find? found) := by
  induction xs generalizing ofs steps with
  | nil =>
    obtain _ | steps := steps
    · omega
    rw [recordSearch, if_pos (Nat.le_of_eq consecutive.symm), List.find?_nil]
  | cons x xs ih =>
    obtain _ | steps := steps
    · omega
    have within := consecutive.length_le
    rw [length_cons] at within enough
    obtain ⟨rfl, -, rest⟩ := consecutive
    rw [recordSearch, if_neg (by omega), ih rest (by omega), List.find?_cons]
    cases found x with
    | false => rw [if_neg (by simp)]
    | true => rw [if_pos rfl]

end Consecutive

end UBoot
