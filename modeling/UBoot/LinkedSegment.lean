import Mathlib.Data.List.Basic

/-!
# Doubly linked segments

Cells of a type `ι` are linked by two functions, `next` and `prev`.  A segment
is a list of cells that follow each other both ways, entered from a cell before
it and left to a cell after it.  Segments are joined and cut like lists; the
last theorem replaces the middle of a segment, which is how every update of a
linked list is done.
-/

namespace UBoot

open List

variable {ι : Type*}

/-- The cells of the list follow each other from `p`, the cell before them, to
`n`, the cell after them. -/
def Segment (next prev : ι → ι) : (p : ι) → List ι → (n : ι) → Prop
  | _, [], _ => True
  | p, x :: xs, n => prev x = p ∧ next x = xs.headD n ∧ Segment next prev x xs n

namespace Segment

variable {next prev next' prev' : ι → ι} {p n x : ι} {xs ys : List ι}

theorem append_iff : Segment next prev p (xs ++ ys) n ↔
      Segment next prev p xs (ys.headD n) ∧ Segment next prev (xs.getLastD p) ys n := by
  induction xs generalizing p with
  | nil => simp [Segment]
  | cons x xs ih =>
    have head : (xs ++ ys).headD n = xs.headD (ys.headD n) := by cases xs <;> rfl
    rw [cons_append, Segment, Segment, ih, head, getLastD_cons]
    tauto

section Linked

variable (linked : Segment next prev p xs n)

include linked

theorem congr (sameNext : ∀ x ∈ xs, next' x = next x) (samePrev : ∀ x ∈ xs, prev' x = prev x) :
    Segment next' prev' p xs n := by
  induction xs generalizing p with
  | nil => trivial
  | cons x xs ih =>
    obtain ⟨before, after, rest⟩ := linked
    refine ⟨?_, ?_, ?_⟩
    · rw [samePrev x (by simp), before]
    · rw [sameNext x (by simp), after]
    apply ih rest
    · intro y inRest
      exact sameNext y (mem_cons_of_mem _ inRest)
    · intro y inRest
      exact samePrev y (mem_cons_of_mem _ inRest)

theorem next_last (nonempty : xs ≠ []) : next (xs.getLastD p) = n := by
  induction xs generalizing p with
  | nil => exact absurd rfl nonempty
  | cons x xs ih =>
    cases xs with
    | nil => exact linked.2.1
    | cons y ys => exact ih linked.2.2 (by simp)

theorem next_mem (inside : x ∈ xs) : next x = n ∨ next x ∈ xs := by
  induction xs generalizing p with
  | nil => simp at inside
  | cons y ys ih =>
    rcases mem_cons.1 inside with rfl | inRest
    · rw [linked.2.1]
      cases ys <;> simp
    · rcases ih linked.2.2 inRest with leaves | stays
      · exact Or.inl leaves
      · exact Or.inr (mem_cons_of_mem _ stays)

theorem retarget {n' : ι} (distinct : xs.Nodup)
    (sameNext : ∀ x ∈ xs, x ≠ xs.getLastD p → next' x = next x)
    (lastNext : xs ≠ [] → next' (xs.getLastD p) = n') (samePrev : ∀ x ∈ xs, prev' x = prev x) :
    Segment next' prev' p xs n' := by
  induction xs generalizing p with
  | nil => trivial
  | cons x xs ih =>
    obtain ⟨before, after, rest⟩ := linked
    obtain ⟨fresh, distinctRest⟩ := nodup_cons.1 distinct
    rw [getLastD_cons] at sameNext lastNext
    refine ⟨by rw [samePrev x (by simp), before], ?_, ?_⟩
    · cases xs with
      | nil => simpa using lastNext (by simp)
      | cons y ys =>
        have notLast : x ≠ (y :: ys).getLastD x := by
          rw [getLastD_cons]
          intro same
          apply fresh
          rw [same]
          exact getLastD_mem_cons
        rw [sameNext x (by simp) notLast, after]
        rfl
    · apply ih rest distinctRest
      · intro y inRest
        exact sameNext y (mem_cons_of_mem _ inRest)
      · intro _
        exact lastNext (by simp)
      · intro y inRest
        exact samePrev y (mem_cons_of_mem _ inRest)

end Linked

theorem reenter {p' : ι} (linked : Segment next prev p (x :: xs) n)
    (sameNext : ∀ y ∈ x :: xs, next' y = next y)
    (samePrev : ∀ y ∈ xs, prev' y = prev y) (headPrev : prev' x = p') :
    Segment next' prev' p' (x :: xs) n := by
  obtain ⟨-, after, rest⟩ := linked
  refine ⟨headPrev, by rw [sameNext x (by simp), after], ?_⟩
  apply rest.congr
  · intro y inRest
    exact sameNext y (mem_cons_of_mem _ inRest)
  · exact samePrev

/-- Replace the middle of a segment: the cell before it is pointed at the new
middle, the cell after it is pointed back, and no other link outside the middle
changes. -/
theorem splice {pre mid mid' post : List ι} (linked : Segment next prev p (pre ++ mid ++ post) n)
    (distinctPre : pre.Nodup) (distinctPost : post.Nodup)
    (preNext : ∀ x ∈ pre, x ≠ pre.getLastD p → next' x = next x)
    (preLast : pre ≠ [] → next' (pre.getLastD p) = (mid' ++ post).headD n)
    (prePrev : ∀ x ∈ pre, prev' x = prev x)
    (middle : Segment next' prev' (pre.getLastD p) mid' (post.headD n))
    (postNext : ∀ x ∈ post, next' x = next x)
    (postPrev : ∀ x ∈ post, x ≠ post.headD n → prev' x = prev x)
    (postHead : post ≠ [] → prev' (post.headD n) = mid'.getLastD (pre.getLastD p)) :
    Segment next' prev' p (pre ++ mid' ++ post) n := by
  rw [append_iff, append_iff] at linked ⊢
  have lastEq : (pre ++ mid').getLastD p = mid'.getLastD (pre.getLastD p) := by
    cases mid' <;> simp [getLastD_eq_getLast?]
  have headEq : mid'.headD (post.headD n) = (mid' ++ post).headD n := by cases mid' <;> rfl
  rw [lastEq, headEq]
  refine ⟨⟨linked.1.1.retarget distinctPre preNext preLast prePrev, middle⟩, ?_⟩
  cases post with
  | nil => trivial
  | cons y ys =>
    apply linked.2.reenter postNext _ (postHead (by simp))
    intro z inRest
    apply postPrev z (mem_cons_of_mem _ inRest)
    rintro rfl
    exact (nodup_cons.1 distinctPost).1 inRest

end Segment

end UBoot
