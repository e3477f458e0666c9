import UBoot.Alignment
import UBoot.ByteMemory

/-!
# Records packed in a memory

Records are byte strings of different lengths that lie one behind the other in a
memory, each filled up to an alignment with bytes that mean nothing.  A record is
taken out by copying those behind it to its place, and a record is added by writing
it behind the last one.
-/

namespace UBoot

open Memory

structure RecordFormat (α : Type) where
  bytes : α → List UInt8
  align : Nat
  align_pos : 0 < align

namespace RecordFormat

variable {α : Type} (f : RecordFormat α)

def size (x : α) : Nat := roundUp (f.bytes x).length f.align

def total (xs : List α) : Nat := (xs.map f.size).sum

def At (m : Memory) (a : Nat) (x : α) : Prop := m.read a (f.bytes x).length = f.bytes x

def Packed (m : Memory) : (a : Nat) → List α → Prop
  | _, [] => True
  | a, x :: xs => f.At m a x ∧ Packed m (a + f.size x) xs

def Fits (limit : Nat) : (a : Nat) → List α → Prop
  | _, [] => True
  | a, x :: xs => a + (f.bytes x).length ≤ limit ∧ Fits limit (a + f.size x) xs

variable {f} {m m' : Memory} {a b limit : Nat} {x : α} {xs ys : List α}

theorem length_le_size (x : α) : (f.bytes x).length ≤ f.size x := le_roundUp f.align_pos

theorem size_lt (x : α) : f.size x < (f.bytes x).length + f.align := roundUp_lt f.align_pos

theorem align_dvd_size (x : α) : f.align ∣ f.size x := dvd_roundUp _ _

@[simp]
theorem total_nil : f.total [] = 0 := rfl

@[simp]
theorem total_cons (x : α) (xs : List α) : f.total (x :: xs) = f.size x + f.total xs := by
  simp [total]

@[simp]
theorem total_append (xs ys : List α) : f.total (xs ++ ys) = f.total xs + f.total ys := by
  simp [total]

theorem align_dvd_total (xs : List α) : f.align ∣ f.total xs := by
  induction xs with
  | nil => exact Nat.dvd_zero _
  | cons x xs ih => exact Nat.dvd_add (align_dvd_size x) ih

theorem total_sublist (sub : xs.Sublist ys) : f.total xs ≤ f.total ys := by
  induction sub with
  | slnil => exact le_rfl
  | cons y _ ih =>
    rw [total_cons]
    omega
  | cons_cons y _ ih =>
    rw [total_cons, total_cons]
    omega

theorem At.transfer (here : f.At m a x)
    (agree : ∀ i < (f.bytes x).length, m' (b + i) = m (a + i)) : f.At m' b x := by
  unfold At
  rw [read_eq_iff]
  intro i inside
  rw [agree i inside]
  exact read_eq_iff.1 here i inside

theorem packed_append :
    f.Packed m a (xs ++ ys) ↔ f.Packed m a xs ∧ f.Packed m (a + f.total xs) ys := by
  induction xs generalizing a with
  | nil => simp [Packed]
  | cons x xs ih => rw [List.cons_append, Packed, Packed, ih, total_cons, Nat.add_assoc, and_assoc]

theorem Packed.transfer (packed : f.Packed m a xs)
    (agree : ∀ i < f.total xs, m' (b + i) = m (a + i)) : f.Packed m' b xs := by
  induction xs generalizing a b with
  | nil => trivial
  | cons x xs ih =>
    have size := length_le_size (f := f) x
    rw [total_cons] at agree
    refine ⟨packed.1.transfer fun i inside => agree i (by omega), ?_⟩
    apply ih packed.2
    intro i inside
    rw [Nat.add_assoc, Nat.add_assoc]
    exact agree (f.size x + i) (by omega)

theorem Packed.remove (packed : f.Packed m a (xs ++ x :: ys)) :
    f.Packed (m.copy (a + f.total xs) (a + f.total xs + f.size x) (f.total ys)) a (xs ++ ys) := by
  obtain ⟨before, -, behind⟩ := packed_append.1 packed
  refine packed_append.2 ⟨before.transfer ?_, behind.transfer ?_⟩
  · intro i inside
    exact copy_of_disjoint (by omega)
  · intro i inside
    exact copy_inside (by omega) inside

theorem Packed.add (packed : f.Packed m a xs) :
    f.Packed (m.write (a + f.total xs) (f.bytes x)) a (xs ++ [x]) := by
  refine packed_append.2 ⟨packed.transfer ?_, read_write_same _ _ _, trivial⟩
  intro i inside
  exact write_of_lt (by omega)

theorem fits_append :
    f.Fits limit a (xs ++ ys) ↔ f.Fits limit a xs ∧ f.Fits limit (a + f.total xs) ys := by
  induction xs generalizing a with
  | nil => simp [Fits]
  | cons x xs ih => rw [List.cons_append, Fits, Fits, ih, total_cons, Nat.add_assoc, and_assoc]

theorem Fits.sublist (fits : f.Fits limit a ys) (sub : xs.Sublist ys) (earlier : b ≤ a) :
    f.Fits limit b xs := by
  induction sub generalizing a b with
  | slnil => trivial
  | cons y _ ih => exact ih fits.2 (by omega)
  | cons_cons y _ ih => exact ⟨by have := fits.1; omega, ih fits.2 (by omega)⟩

theorem Fits.length_le (fits : f.Fits limit a xs) (member : x ∈ xs) :
    a + (f.bytes x).length ≤ limit :=
  (fits.sublist (List.singleton_sublist.2 member) le_rfl).1

theorem Fits.total_lt (fits : f.Fits limit a xs) (start : a ≤ limit) :
    a + f.total xs < limit + f.align := by
  induction xs generalizing a with
  | nil =>
    have positive := f.align_pos
    rw [total_nil]
    omega
  | cons x xs ih =>
    have size := size_lt (f := f) x
    have first := fits.1
    rw [total_cons]
    cases xs with
    | nil =>
      rw [total_nil]
      omega
    | cons y xs =>
      have second := fits.2.1
      have rest := ih fits.2 (by omega)
      omega

end RecordFormat

end UBoot
