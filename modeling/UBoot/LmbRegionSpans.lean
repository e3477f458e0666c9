import UBoot.LmbRegions

/-!
# Regions as address spans

Inside a range that does not wrap, the word arithmetic of `lib/lmb.c` is
arithmetic on natural numbers.  This file reads regions as labelled spans,
states the invariant of a region list and translates the overlap and adjacency
tests into inequalities between span ends.
-/

namespace UBoot

open List BitVec

variable {w : Nat}

/-- A non-empty address range that ends below `2 ^ w`. -/
structure Fits (base size : BitVec w) : Prop where
  pos : 0 < size.toNat
  noWrap : base.toNat + size.toNat < 2 ^ w

instance (base size : BitVec w) : Decidable (Fits base size) :=
  decidable_of_iff (0 < size.toNat ∧ base.toNat + size.toNat < 2 ^ w)
    ⟨fun ⟨pos, noWrap⟩ => ⟨pos, noWrap⟩, fun fits => ⟨fits.pos, fits.noWrap⟩⟩

def LmbRegion.top (region : LmbRegion w) : Nat := region.base.toNat + region.size.toNat

def lmbView (w : Nat) : SpanView (LmbRegion w) (BitVec 32) where
  lo region := region.base.toNat
  hi region := region.top
  label region := region.flags

def flagsAt (rgn : List (LmbRegion w)) (address : Nat) : Option (BitVec 32) :=
  (lmbView w).labelAt rgn address

@[simp]
theorem flagsAt_nil (address : Nat) : flagsAt ([] : List (LmbRegion w)) address = none := rfl

/-- The invariant of a region list: non-empty regions without wrap-around,
each ending before the next begins. -/
structure WellFormed (rgn : List (LmbRegion w)) : Prop where
  fits : ∀ region ∈ rgn, Fits region.base region.size
  ascending : (lmbView w).Ascending rgn

theorem lmbView_covers {region : LmbRegion w} {address : Nat} : (lmbView w).Covers region address ↔
      region.base.toNat ≤ address ∧ address < region.top :=
  Iff.rfl

section Fits

variable {base size : BitVec w} (fits : Fits base size)

include fits

theorem Fits.width_pos : 1 < 2 ^ w := by
  have := fits.pos
  omega

theorem Fits.toNat_add : (base + size).toNat = base.toNat + size.toNat :=
  toNat_add_of_lt fits.noWrap

theorem Fits.toNat_one : (1 : BitVec w).toNat = 1 := by simpa using Nat.mod_eq_of_lt fits.width_pos

theorem Fits.toNat_last : (base + size - 1).toNat = base.toNat + size.toNat - 1 := by
  have pos := fits.pos
  have one := fits.toNat_one
  have sum := fits.toNat_add
  have le : (1 : BitVec w) ≤ base + size := by
    rw [le_def]
    omega
  rw [toNat_sub_of_le le, one, sum]

theorem Fits.toNat_last_add_one : (base + size - 1 + 1).toNat = base.toNat + size.toNat := by
  rw [BitVec.sub_add_cancel, fits.toNat_add]

end Fits

section Fits1

variable {base1 size1 base2 size2 : BitVec w} (fits1 : Fits base1 size1)

include fits1

theorem lmbAddrsOverlap_iff (fits2 : Fits base2 size2) :
    lmbAddrsOverlap base1 size1 base2 size2 = true ↔ base1.toNat < base2.toNat + size2.toNat ∧
        base2.toNat < base1.toNat + size1.toNat := by
  have pos1 := fits1.pos
  have pos2 := fits2.pos
  simp only [lmbAddrsOverlap, Bool.and_eq_true, decide_eq_true_eq,
    le_def, fits1.toNat_last, fits2.toNat_last]
  omega

theorem lmbAddrsAdjacent_pos_iff :
    lmbAddrsAdjacent base1 size1 base2 size2 > 0 ↔ base2.toNat = base1.toNat + size1.toNat := by
  rw [← fits1.toNat_add, toNat_inj, lmbAddrsAdjacent]
  split_ifs <;> simp_all

theorem lmbAddrsAdjacent_neg_iff (fits2 : Fits base2 size2) :
    lmbAddrsAdjacent base1 size1 base2 size2 < 0 ↔ base1.toNat = base2.toNat + size2.toNat ∧
        base2.toNat ≠ base1.toNat + size1.toNat := by
  rw [← fits1.toNat_add, ← fits2.toNat_add, Ne, toNat_inj, toNat_inj, lmbAddrsAdjacent]
  split_ifs <;> simp_all

theorem lmbAddrsAdjacent_ne_zero_iff (fits2 : Fits base2 size2) :
    lmbAddrsAdjacent base1 size1 base2 size2 ≠ 0 ↔ base2.toNat = base1.toNat + size1.toNat ∨
        base1.toNat = base2.toNat + size2.toNat := by
  rw [← fits1.toNat_add, ← fits2.toNat_add, toNat_inj, toNat_inj, lmbAddrsAdjacent]
  split_ifs <;> simp_all

end Fits1

@[simp]
theorem toNat_minAddr (x y : BitVec w) : (minAddr x y).toNat = min x.toNat y.toNat := by
  unfold minAddr
  split_ifs with less <;> rw [lt_def] at less <;> omega

@[simp]
theorem toNat_maxAddr (x y : BitVec w) : (maxAddr x y).toNat = max x.toNat y.toNat := by
  unfold maxAddr
  split_ifs with less <;> rw [lt_def] at less <;> omega

namespace WellFormed

theorem nil : WellFormed ([] : List (LmbRegion w)) := ⟨by simp, List.Pairwise.nil⟩

theorem sublist {first second : List (LmbRegion w)}
    (wellFormed : WellFormed second) (sub : first.Sublist second) :
    WellFormed first :=
  ⟨fun region regionMem => wellFormed.fits region (sub.subset regionMem),
    List.Pairwise.sublist sub wellFormed.ascending⟩

variable {rgn : List (LmbRegion w)}

theorem apart (wellFormed : WellFormed rgn) : (lmbView w).Apart rgn := wellFormed.ascending.apart

theorem nonempty (wellFormed : WellFormed rgn) :
    ∀ region ∈ rgn, (lmbView w).lo region < (lmbView w).hi region := by
  intro region regionMem
  have pos := (wellFormed.fits region regionMem).pos
  simp only [lmbView, LmbRegion.top]
  omega

variable {before after : List (LmbRegion w)} {region : LmbRegion w}

/-- A region list is well formed when its two halves are and a region fits
between them. -/
theorem append_cons (outer : WellFormed (before ++ after)) (fits : Fits region.base region.size)
    (below : ∀ other ∈ before, other.top ≤ region.base.toNat)
    (above : ∀ other ∈ after, region.top ≤ other.base.toNat) :
    WellFormed (before ++ region :: after) := by
  obtain ⟨beforeAscending, afterAscending, across⟩ := pairwise_append.1 outer.ascending
  constructor
  · intro other otherMem
    simp only [mem_append, mem_cons] at otherMem
    rcases otherMem with inBefore | rfl | inAfter
    · exact outer.fits other (mem_append_left _ inBefore)
    · exact fits
    · exact outer.fits other (mem_append_right _ inAfter)
  · refine pairwise_append.2 ⟨beforeAscending, pairwise_cons.2 ⟨above, afterAscending⟩, ?_⟩
    intro other otherMem next nextMem
    rcases mem_cons.1 nextMem with rfl | inAfter
    · exact below other otherMem
    · exact across other otherMem next inAfter

theorem of_append_cons (wellFormed : WellFormed (before ++ region :: after)) :
    WellFormed (before ++ after) ∧ Fits region.base region.size ∧
      (∀ other ∈ before, other.top ≤ region.base.toNat) ∧
      ∀ other ∈ after, region.top ≤ other.base.toNat := by
  obtain ⟨-, regionAfter, across⟩ := pairwise_append.1 wellFormed.ascending
  refine ⟨wellFormed.sublist (List.Sublist.append_left (sublist_cons_self _ _) _),
    wellFormed.fits region (by simp), ?_, ?_⟩
  · intro other otherMem
    exact across other otherMem region mem_cons_self
  · intro other otherMem
    exact (pairwise_cons.1 regionAfter).1 other otherMem

end WellFormed

variable (before after : List (LmbRegion w))

@[simp]
theorem rgnAt_append_length (region : LmbRegion w) :
    rgnAt (before ++ region :: after) before.length = region := by simp [rgnAt]

@[simp]
theorem rgnAt_append_length_add (index : Nat) :
    rgnAt (before ++ after) (before.length + index) = rgnAt after index := by
  simp [rgnAt, getD_eq_getElem?_getD, List.getElem?_append_right]

@[simp]
theorem set_append_length (region replacement : LmbRegion w) :
    (before ++ region :: after).set before.length replacement = before ++ replacement :: after := by
  simp

end UBoot
