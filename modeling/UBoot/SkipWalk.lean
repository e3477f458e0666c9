import Mathlib.Data.List.Range

/-!
# Walks that skip

A walk over a range of addresses takes the good ones and skips the others until
it has taken a given number.  This file has the list of addresses that are taken
and the length of the walk, how both go on behind a block that is taken or
skipped as a whole, and that two such walks take the same addresses exactly if
they agree on every address that they pass.
-/

namespace UBoot

open List Nat

/-- The number of elements passed until `n` good ones are taken. -/
def passed {α : Type*} (good : α → Bool) : Nat → List α → Nat
  | 0, _ => 0
  | _ + 1, [] => 0
  | n + 1, x :: xs => if good x then passed good n xs + 1 else passed good (n + 1) xs + 1

section Lists

variable {α : Type*} {good good' : α → Bool} {n : Nat} {xs ys : List α}

@[simp] theorem passed_zero (xs : List α) : passed good 0 xs = 0 := by cases xs <;> rfl

@[simp] theorem passed_nil (n : Nat) : passed good n [] = 0 := by cases n <;> rfl

theorem passed_cons (n : Nat) (x : α) (xs : List α) : passed good (n + 1) (x :: xs) =
    if good x then passed good n xs + 1 else passed good (n + 1) xs + 1 := rfl

theorem passed_le_length (n : Nat) (xs : List α) : passed good n xs ≤ xs.length := by
  induction xs generalizing n with
  | nil => simp
  | cons x xs ih =>
    cases n with
    | zero => simp
    | succ n =>
      rw [passed_cons]
      split
      · exact succ_le_succ (ih n)
      · exact succ_le_succ (ih (n + 1))

theorem take_filter_eq (n : Nat) (xs : List α) :
    (xs.filter good).take n = (xs.take (passed good n xs)).filter good := by
  induction xs generalizing n with
  | nil => simp
  | cons x xs ih =>
    cases n with
    | zero => simp
    | succ n =>
      rw [passed_cons]
      by_cases isGood : good x = true
      · simp [isGood, ih n]
      · simp [isGood, ih (n + 1)]

theorem passed_append_skip (bad : ∀ x ∈ xs, good x = false) (n : Nat) (ys : List α) :
    passed good (n + 1) (xs ++ ys) = xs.length + passed good (n + 1) ys := by
  induction xs with
  | nil => simp
  | cons x xs ih =>
    rw [cons_append, passed_cons, if_neg (by simp [bad x mem_cons_self]),
      ih fun y inside => bad y (mem_cons_of_mem x inside), length_cons]
    omega

theorem passed_append_take (allGood : ∀ x ∈ xs, good x = true) (n : Nat) (ys : List α) :
    passed good (xs.length + n) (xs ++ ys) = xs.length + passed good n ys := by
  induction xs with
  | nil => simp
  | cons x xs ih =>
    rw [length_cons, Nat.add_right_comm, cons_append, passed_cons, if_pos (allGood x mem_cons_self),
      ih fun y inside => allGood y (mem_cons_of_mem x inside)]
    omega

/-- Two walks that take as many elements take the same ones exactly if they agree on every
element that is passed. -/
theorem take_filter_eq_iff (enough : n ≤ (xs.filter good).length) (nodup : xs.Nodup) :
    (xs.filter good).take n = (xs.filter good').take n ↔
      ∀ x ∈ xs.take (passed good n xs), good x = good' x := by
  induction xs generalizing n with
  | nil => simp
  | cons x xs ih =>
    obtain ⟨fresh, nodup⟩ := nodup_cons.1 nodup
    cases n with
    | zero => simp
    | succ n =>
      rw [passed_cons]
      by_cases isGood : good x = true
      · rw [filter_cons_of_pos isGood, length_cons] at enough
        have rest := ih (show n ≤ (xs.filter good).length by omega) nodup
        rw [filter_cons_of_pos isGood, if_pos isGood, take_succ_cons,
          take_succ_cons, forall_mem_cons, ← rest]
        by_cases isGood' : good' x = true
        · simp [filter_cons_of_pos isGood', isGood, isGood']
        rw [filter_cons_of_neg isGood']
        constructor
        · intro same
          have inside : x ∈ (xs.filter good').take (n + 1) := by
            rw [← same]
            exact mem_cons_self
          exact absurd (mem_of_mem_filter (mem_of_mem_take inside)) fresh
        · rintro ⟨same, -⟩
          exact absurd (same ▸ isGood) isGood'
      · rw [filter_cons_of_neg isGood] at enough
        have rest := ih enough nodup
        rw [filter_cons_of_neg isGood, if_neg isGood, take_succ_cons, forall_mem_cons, ← rest]
        by_cases isGood' : good' x = true
        · rw [filter_cons_of_pos isGood', take_succ_cons]
          constructor
          · intro same
            have inside : x ∈ (xs.filter good).take (n + 1) := by
              rw [same]
              exact mem_cons_self
            exact absurd (mem_of_mem_filter (mem_of_mem_take inside)) fresh
          · rintro ⟨same, -⟩
            exact absurd (same.symm ▸ isGood') isGood
        · simp [filter_cons_of_neg isGood', isGood, isGood']

end Lists

/-! ## Ranges of addresses -/

/-- The first `n` good addresses among the `m` from `a` on. -/
def goodAddresses (good : Nat → Bool) (a m n : Nat) : List Nat :=
  ((List.range' a m).filter good).take n

/-- The number of addresses that are passed until `n` good ones are taken. -/
def walkLength (good : Nat → Bool) (a m n : Nat) : Nat := passed good n (List.range' a m)

section Ranges

variable {good good' : Nat → Bool} {a m n k x : Nat}

theorem range'_split (inside : k ≤ m) :
    range' a m = range' a k ++ range' (a + k) (m - k) := by
  have joined : range' a k ++ range' (a + 1 * k) (m - k) = range' a (k + (m - k)) := range'_append
  rw [Nat.one_mul, Nat.add_sub_cancel' inside] at joined
  exact joined.symm

theorem walkLength_le : walkLength good a m n ≤ m := by
  have bound : passed good n (range' a m) ≤ _ := passed_le_length n (range' a m)
  rwa [length_range'] at bound

@[simp] theorem goodAddresses_zero : goodAddresses good a m 0 = [] := by simp [goodAddresses]

@[simp] theorem walkLength_zero : walkLength good a m 0 = 0 := passed_zero _

theorem mem_goodAddresses : x ∈ goodAddresses good a m n ↔
    a ≤ x ∧ x < a + walkLength good a m n ∧ good x = true := by
  unfold goodAddresses
  rw [take_filter_eq, mem_filter]
  change x ∈ (range' a m).take (walkLength good a m n) ∧ _ ↔ _
  rw [range'_split walkLength_le, take_left' (length_range' ..), mem_range'_1]
  tauto

theorem length_goodAddresses_le_walkLength :
    (goodAddresses good a m n).length ≤ walkLength good a m n := by
  unfold goodAddresses
  rw [take_filter_eq]
  exact (length_filter_le _ _).trans (length_take_le _ _)

theorem goodAddresses_skip (inside : k ≤ m) (bad : ∀ x, a ≤ x → x < a + k → good x = false) :
    goodAddresses good a m n = goodAddresses good (a + k) (m - k) n := by
  have none : (range' a k).filter good = [] := by
    rw [filter_eq_nil_iff]
    intro x member
    obtain ⟨above, below⟩ := mem_range'_1.1 member
    simp [bad x above below]
  unfold goodAddresses
  rw [range'_split inside, filter_append, none, nil_append]

theorem walkLength_skip (inside : k ≤ m) (bad : ∀ x, a ≤ x → x < a + k → good x = false) :
    walkLength good a m (n + 1) = k + walkLength good (a + k) (m - k) (n + 1) := by
  unfold walkLength
  rw [range'_split inside, passed_append_skip, length_range']
  intro x member
  obtain ⟨above, below⟩ := mem_range'_1.1 member
  exact bad x above below

section AllGood

variable (allGood : ∀ x, a ≤ x → x < a + k → good x = true)

include allGood

theorem filter_range'_self : (range' a k).filter good = range' a k := by
  rw [filter_eq_self]
  intro x member
  obtain ⟨above, below⟩ := mem_range'_1.1 member
  exact allGood x above below

theorem goodAddresses_take (inside : k ≤ m) :
    goodAddresses good a m (k + n) = range' a k ++ goodAddresses good (a + k) (m - k) n := by
  unfold goodAddresses
  rw [range'_split inside, filter_append, filter_range'_self allGood, take_append,
    length_range', Nat.add_sub_cancel_left, take_of_length_le]
  simp

theorem walkLength_take (inside : k ≤ m) :
    walkLength good a m (k + n) = k + walkLength good (a + k) (m - k) n := by
  have taken : ∀ x ∈ range' a k, good x = true := by
    intro x member
    obtain ⟨above, below⟩ := mem_range'_1.1 member
    exact allGood x above below
  have through := passed_append_take taken n (range' (a + k) (m - k))
  rw [length_range', ← range'_split inside] at through
  exact through

end AllGood

theorem goodAddresses_eq_range' (enough : (goodAddresses good a m n).length = n)
    (allGood : ∀ x, a ≤ x → x < a + walkLength good a m n → good x = true) :
    goodAddresses good a m n = range' a n ∧ walkLength good a m n = n := by
  have atLeast : (goodAddresses good a m n).length ≤ walkLength good a m n :=
    length_goodAddresses_le_walkLength
  have inside : walkLength good a m n ≤ m := walkLength_le
  have first : ∀ x, a ≤ x → x < a + n → good x = true :=
    fun x above below => allGood x above (by omega)
  have taken : goodAddresses good a m (n + 0) = _ := goodAddresses_take first (by omega)
  have walked : walkLength good a m (n + 0) = _ := walkLength_take first (by omega)
  rw [goodAddresses_zero, append_nil] at taken
  rw [walkLength_zero] at walked
  exact ⟨taken, walked⟩

theorem goodAddresses_eq_iff (enough : (goodAddresses good a m n).length = n) :
    goodAddresses good a m n = goodAddresses good' a m n ↔
      ∀ x, a ≤ x → x < a + walkLength good a m n → good x = good' x := by
  have atLeast : n ≤ ((range' a m).filter good).length := by
    unfold goodAddresses at enough
    rw [length_take] at enough
    omega
  unfold goodAddresses
  rw [take_filter_eq_iff atLeast (nodup_range' ..)]
  change (∀ x ∈ (range' a m).take (walkLength good a m n), _) ↔ _
  rw [range'_split walkLength_le, take_left' (length_range' ..)]
  simp only [mem_range'_1, and_imp]

end Ranges

end UBoot
