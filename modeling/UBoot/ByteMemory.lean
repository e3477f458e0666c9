import Mathlib.Data.List.Basic
import Mathlib.Data.List.GetD
import Mathlib.Tactic.LinearCombination
import Mathlib.Tactic.Ring

/-!
# Byte memories

A memory gives every address a byte.  This file has block reads and block
writes, numbers stored in little-endian and big-endian order, and the two facts
that programs over such memories need of every write: it is read back where it
was made, and it is not seen by a read of other addresses.
-/

namespace UBoot

open List Nat

/-- The value of an `int` that is assigned a number. -/
def int32 (x : Int) : Int := x.bmod (2 ^ 32)

/-- A number as an `unsigned int`. -/
def uint32 (x : Int) : Nat := (x % 2 ^ 32).toNat

variable {x : Nat}

theorem int32_of_nat (less : x < 2 ^ 31) : int32 x = x := by
  unfold int32
  rw [Int.bmod_eq_of_le]
  · omega
  · omega

theorem uint32_of_nat (less : x < 2 ^ 32) : uint32 x = x := by
  unfold uint32
  omega

abbrev Memory := Nat → UInt8

variable {n a : Nat}

namespace Memory

def write (m : Memory) (a : Nat) (bytes : List UInt8) : Memory :=
  fun x => if a ≤ x then (bytes[x - a]?).getD (m x) else m x

def read (m : Memory) : (a n : Nat) → List UInt8
  | _, 0 => []
  | a, n + 1 => m a :: read m (a + 1) n

variable {m : Memory}

section M

variable {bytes : List UInt8} {a : Nat}

theorem write_of_lt (below : x < a) : m.write a bytes x = m x := by
  unfold write
  rw [if_neg (by omega)]

theorem write_of_ge (above : a + bytes.length ≤ x) : m.write a bytes x = m x := by
  unfold write
  split
  · rw [getElem?_eq_none (by omega)]
    rfl
  · rfl

theorem write_of_disjoint (outside : x < a ∨ a + bytes.length ≤ x) : m.write a bytes x = m x :=
  outside.elim write_of_lt write_of_ge

theorem write_inside {i : Nat} (inside : i < bytes.length) :
    m.write a bytes (a + i) = bytes[i] := by
  unfold write
  rw [if_pos (by omega), Nat.add_sub_cancel_left, List.getElem?_eq_getElem inside]
  rfl

end M

@[simp]
theorem write_nil (m : Memory) (a : Nat) : m.write a [] = m := by
  funext x
  exact write_of_disjoint (by simp only [length_nil]; omega)

theorem write_append (m : Memory) (a : Nat) (first second : List UInt8) :
    (m.write a first).write (a + first.length) second = m.write a (first ++ second) := by
  funext x
  by_cases below : x < a + first.length
  · rw [write_of_lt below]
    unfold write
    split
    · rw [getElem?_append_left (by omega)]
    · rfl
  · rw [write, write_of_ge (by omega), if_pos (by omega), write, if_pos (by omega),
      List.getElem?_append_right (by omega), Nat.sub_sub]

theorem write_prepend (m : Memory) (a : Nat) (first second : List UInt8) :
    (m.write (a + first.length) second).write a first = m.write a (first ++ second) := by
  funext x
  by_cases below : x < a + first.length
  · unfold write
    rw [if_neg (show ¬a + first.length ≤ x by omega)]
    split
    · rw [getElem?_append_left (by omega)]
    · rfl
  · rw [write_of_ge (by omega), write, if_pos (by omega), write, if_pos (by omega),
      List.getElem?_append_right (by omega), Nat.sub_sub]

@[simp]
theorem length_read (m : Memory) (a n : Nat) : (m.read a n).length = n := by
  induction n generalizing a with
  | zero => rfl
  | succ n ih => simp [read, ih]

theorem getElem_read {i : Nat} (inside : i < (m.read a n).length) :
    (m.read a n)[i] = m (a + i) := by
  induction n generalizing a i with
  | zero => simp at inside
  | succ n ih =>
    cases i with
    | zero => rfl
    | succ i =>
      simp only [read, getElem_cons_succ]
      rw [ih, add_assoc, add_comm 1 i]

theorem read_congr {m' : Memory}
    (agree : ∀ i, i < n → m (a + i) = m' (a + i)) : m.read a n = m'.read a n := by
  apply ext_getElem (by simp)
  intro i inside inside'
  rw [getElem_read, getElem_read]
  exact agree i (by simpa using inside)

theorem read_eq_iff {bytes : List UInt8} :
    m.read a bytes.length = bytes ↔ ∀ i (inside : i < bytes.length), m (a + i) = bytes[i] := by
  constructor
  · intro same i inside
    have inRead : i < (m.read a bytes.length).length := by simpa using inside
    rw [← getElem_read inRead]
    simp only [same]
  intro agree
  apply ext_getElem (by simp)
  intro i inside inside'
  rw [getElem_read, agree i inside']

theorem read_add (m : Memory) (a n k : Nat) :
    m.read a (n + k) = m.read a n ++ m.read (a + n) k := by
  induction n generalizing a with
  | zero => simp [read]
  | succ n ih => rw [add_right_comm, read, read, ih, cons_append, add_assoc, add_comm 1 n]

theorem take_drop_read (m : Memory) {i k : Nat} (inside : i + k ≤ n) :
    ((m.read a n).drop i).take k = m.read (a + i) k := by
  obtain ⟨rest, rfl⟩ := Nat.exists_eq_add_of_le inside
  rw [read_add, read_add, append_assoc, drop_left' (length_read m a i),
    take_left' (length_read m (a + i) k)]

theorem read_write_of_disjoint {b : Nat} {bytes : List UInt8}
    (outside : b + n ≤ a ∨ a + bytes.length ≤ b) :
    (m.write a bytes).read b n = m.read b n := by
  apply read_congr
  intro i inside
  exact write_of_disjoint (by omega)

theorem read_write_same (m : Memory) (a : Nat) (bytes : List UInt8) :
    (m.write a bytes).read a bytes.length = bytes := by
  rw [read_eq_iff]
  intro i inside
  exact write_inside inside

end Memory

/-! ## Numbers in memory -/

def leNat : List UInt8 → Nat
  | [] => 0
  | b :: rest => b.toNat + 256 * leNat rest

/-- The lowest `n` bytes of a number, lowest first. -/
def leBytes : (n value : Nat) → List UInt8
  | 0, _ => []
  | n + 1, value => UInt8.ofNat value :: leBytes n (value / 256)

@[simp]
theorem length_leBytes (n value : Nat) : (leBytes n value).length = n := by
  induction n generalizing value with
  | zero => rfl
  | succ n ih => simp [leBytes, ih]

@[simp]
theorem leNat_leBytes (n value : Nat) : leNat (leBytes n value) = value % 256 ^ n := by
  induction n generalizing value with
  | zero => simp [leBytes, leNat, mod_one]
  | succ n ih =>
    have lowByte : (UInt8.ofNat value).toNat = value % 256 := by simp
    rw [leBytes, leNat, ih, lowByte, pow_succ (256), mul_comm (256 ^ n) 256, mod_mul]

theorem leNat_lt (bytes : List UInt8) : leNat bytes < 256 ^ bytes.length := by
  induction bytes with
  | nil => simp [leNat]
  | cons b rest ih =>
    have byteBound := b.toNat_lt
    rw [leNat, length_cons, pow_succ]
    omega

theorem leNat_append (low high : List UInt8) :
    leNat (low ++ high) = leNat low + 256 ^ low.length * leNat high := by
  induction low with
  | nil => simp [leNat]
  | cons b low ih =>
    rw [cons_append, leNat, leNat, ih, length_cons, pow_succ]
    ring

namespace Memory

/-- The little-endian number of `n` bytes at an address. -/
def readLE (m : Memory) (a n : Nat) : Nat := leNat (m.read a n)

/-- Store the lowest `n` bytes of a number in little-endian order. -/
def writeLE (m : Memory) (a n value : Nat) : Memory := m.write a (leBytes n value)

/-- The big-endian number of `n` bytes at an address. -/
def readBE (m : Memory) (a n : Nat) : Nat := leNat (m.read a n).reverse

/-- Store the lowest `n` bytes of a number in big-endian order. -/
def writeBE (m : Memory) (a n value : Nat) : Memory := m.write a (leBytes n value).reverse

theorem readLE_lt (m : Memory) (a n : Nat) : m.readLE a n < 256 ^ n := by
  simpa [readLE] using leNat_lt (m.read a n)

variable {m' m : Memory}

theorem readLE_congr (agree : ∀ i, i < n → m (a + i) = m' (a + i)) : m.readLE a n = m'.readLE a n :=
  congrArg leNat (read_congr agree)

theorem readBE_congr (agree : ∀ i, i < n → m (a + i) = m' (a + i)) : m.readBE a n = m'.readBE a n :=
  congrArg leNat (congrArg reverse (read_congr agree))

theorem readLE_writeLE_same (m : Memory) (a n value : Nat) :
    (m.writeLE a n value).readLE a n = value % 256 ^ n := by
  have readBack := read_write_same m a (leBytes n value)
  rw [length_leBytes] at readBack
  rw [readLE, writeLE, readBack, leNat_leBytes]

theorem readBE_writeBE_same (m : Memory) (a n value : Nat) :
    (m.writeBE a n value).readBE a n = value % 256 ^ n := by
  have readBack := read_write_same m a (leBytes n value).reverse
  rw [length_reverse, length_leBytes] at readBack
  rw [readBE, writeBE, readBack, reverse_reverse, leNat_leBytes]

theorem writeLE_of_disjoint {value : Nat}
    (outside : x < a ∨ a + n ≤ x) : m.writeLE a n value x = m x :=
  write_of_disjoint (by rwa [length_leBytes])

theorem readLE_writeLE_of_disjoint {value b k : Nat} (outside : b + k ≤ a ∨ a + n ≤ b) :
    (m.writeLE a n value).readLE b k = m.readLE b k := by
  apply readLE_congr
  intro i inside
  exact writeLE_of_disjoint (by omega)

/-! ## Filling and copying -/

/-- Set `n` bytes from an address on to zero. -/
def zero (m : Memory) (a n : Nat) : Memory := fun x => if a ≤ x ∧ x < a + n then 0 else m x

/-- Copy `n` bytes to the address `dest` from the address `src`, lowest first. -/
def copy (m : Memory) (dest src : Nat) : (n : Nat) → Memory
  | 0, x => m x
  | n + 1, x => if x = dest + n then copy m dest src n (src + n) else copy m dest src n x

/-- Move `n` bytes to the address `dest` from the address `src`; the areas may overlap. -/
def move (m : Memory) (dest src n : Nat) : Memory :=
  fun x => if dest ≤ x ∧ x < dest + n then m (src + (x - dest)) else m x

variable {src dest : Nat}

theorem move_of_disjoint (outside : x < dest ∨ dest + n ≤ x) : m.move dest src n x = m x := by
  unfold move
  rw [if_neg (by omega)]

variable {i : Nat}

theorem move_inside (inside : i < n) : m.move dest src n (dest + i) = m (src + i) := by
  unfold move
  rw [if_pos (by omega), Nat.add_sub_cancel_left]

theorem zero_of_disjoint (outside : x < a ∨ a + n ≤ x) : m.zero a n x = m x := by
  unfold zero
  rw [if_neg (by omega)]

theorem copy_of_disjoint (outside : x < dest ∨ dest + n ≤ x) : m.copy dest src n x = m x := by
  induction n with
  | zero => rfl
  | succ n ih =>
    rw [copy, if_neg (by omega)]
    exact ih (by omega)

theorem copy_inside (apart : dest ≤ src ∨ src + n ≤ dest)
    (inside : i < n) : m.copy dest src n (dest + i) = m (src + i) := by
  induction n with
  | zero => omega
  | succ n ih =>
    by_cases last : i = n
    · rw [copy, if_pos (by omega), last]
      exact copy_of_disjoint (by omega)
    · rw [copy, if_neg (by omega)]
      exact ih (by omega) (by omega)

theorem read_write_singleton (v : UInt8) :
    (m.write (a + i) [v]).read a n = (m.read a n).set i v := by
  apply ext_getElem (by simp)
  intro j inside inside'
  rw [getElem_read, getElem_set]
  split
  · next same =>
    subst same
    exact write_inside (i := 0) (by simp)
  next other =>
  rw [getElem_read]
  apply write_of_disjoint
  rw [length_singleton]
  omega

/-! ## Addresses that wrap -/

/-- Write a block from an address on, where the address after the last of a memory of
`size` bytes is zero. -/
def wrapWrite (size : Nat) (m : Memory) (a : Nat) (bytes : List UInt8) : Memory :=
  fun x => bytes.getD ((x + (size - a)) % size) (m x)

/-- Read a block from an address on in a memory of `size` bytes that wraps. -/
def wrapRead (size : Nat) (m : Memory) (a n : Nat) : List UInt8 :=
  (range n).map fun i => m ((a + i) % size)

@[simp]
theorem wrapWrite_nil (size : Nat) (m : Memory) (a : Nat) : wrapWrite size m a [] = m := by
  funext x
  simp [wrapWrite]

variable {size : Nat}

theorem distance_add_mod {k : Nat} (inside : a < size) (short : k ≤ size) :
    (x + (size - (a + k) % size)) % size =
      if (x + (size - a)) % size < k then (x + (size - a)) % size + (size - k)
      else (x + (size - a)) % size - k := by
  have positive : 0 < size := by omega
  have below := mod_lt (x + (size - a)) positive
  have belowStart := mod_lt (a + k) positive
  have split := div_add_mod (x + (size - a)) size
  have splitStart := div_add_mod (a + k) size
  generalize (x + (size - a)) % size = d at *
  generalize (x + (size - a)) / size = q at *
  generalize (a + k) % size = b at *
  generalize (a + k) / size = e at *
  have distance : (x + (size - b) : Int) = (d - k : Int) + size * (q + e) := by
    have leftSide : ((size * q : Nat) : Int) + d = x + (size - a) := by
      rw [← cast_sub inside.le]
      exact_mod_cast split
    have rightSide : ((size * e : Nat) : Int) + b = a + k := by exact_mod_cast splitStart
    push_cast at leftSide rightSide
    linear_combination -leftSide - rightSide
  have asInt : (((x + (size - b)) % size : Nat) : Int) = (d - k : Int) % size := by
    push_cast [cast_sub belowStart.le]
    rw [distance, Int.add_mul_emod_self_left]
  split
  · next small =>
    have shifted : (d - k : Int) % size = d + (size - k) := by
      rw [← Int.add_emod_right, Int.emod_eq_of_lt (by omega) (by omega)]
      ring
    omega
  · next large =>
    have unshifted : (d - k : Int) % size = d - k := Int.emod_eq_of_lt (by omega) (by omega)
    omega

theorem wrapWrite_append {first second : List UInt8}
    (inside : a < size) (short : first.length + second.length ≤ size) :
    wrapWrite size (wrapWrite size m a first) ((a + first.length) % size) second =
      wrapWrite size m a (first ++ second) := by
  funext x
  unfold wrapWrite
  rw [distance_add_mod inside (by omega)]
  generalize (x + (size - a)) % size = d at *
  split
  · next small =>
    rw [getD_eq_default _ _ (by omega), getD_append _ _ _ _ small]
  · next large =>
    rw [getD_append_right _ _ _ _ (by omega), getD_eq_default first _ (by omega)]

@[simp]
theorem length_wrapRead (size : Nat) (m : Memory) (a n : Nat) :
    (wrapRead size m a n).length = n := by simp [wrapRead]

theorem getElem_wrapRead (inside : i < (wrapRead size m a n).length) :
    (wrapRead size m a n)[i] = m ((a + i) % size) := by simp [wrapRead]

theorem mod_cases (x size : Nat) (once : x < 2 * size) :
    x < size ∧ x % size = x ∨ size ≤ x ∧ x % size = x - size := by
  by_cases small : x < size
  · exact .inl ⟨small, mod_eq_of_lt small⟩
  · refine .inr ⟨by omega, ?_⟩
    rw [mod_eq_sub_mod (by omega), mod_eq_of_lt (by omega)]

theorem wrapRead_congr {size' : Nat} {a' : Nat}
    (agree : ∀ i < n, m ((a + i) % size) = m' ((a' + i) % size')) :
    wrapRead size m a n = wrapRead size' m' a' n := by
  apply map_congr_left
  intro i inside
  exact agree i (mem_range.1 inside)

theorem wrapRead_append (size : Nat) (m : Memory) (a n k : Nat) :
    wrapRead size m a (n + k) = wrapRead size m a n ++ wrapRead size m ((a + n) % size) k := by
  unfold wrapRead
  rw [range_add, map_append, map_map]
  congr 1
  apply map_congr_left
  intro i _
  simp [Function.comp, add_assoc]

theorem wrapRead_eq_read (fits : a + n ≤ size) : wrapRead size m a n = m.read a n := by
  apply ext_getElem (by simp)
  intro i inside inside'
  rw [length_wrapRead] at inside
  rw [getElem_wrapRead, getElem_read, mod_eq_of_lt (by omega)]

end Memory

end UBoot
