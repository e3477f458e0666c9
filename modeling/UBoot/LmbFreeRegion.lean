import UBoot.LmbAddRegion

/-!
# The effect of `_lmb_free`

`_lmb_free` looks for the region that encloses the request and removes it,
shortens it or splits it in two.  Splitting puts the part after the request
back through `lmb_add_region_flags`.
-/

namespace UBoot

open List Option BitVec LmbRegion SpanView

variable {w : Nat} {before after : List (LmbRegion w)}

theorem WellFormed.flagsAt_replace {region : LmbRegion w} (pieces : List (LmbRegion w))
    (wellFormed : WellFormed (before ++ region :: after))
    (inside : ∀ piece ∈ pieces, region.base.toNat ≤ piece.base.toNat ∧ piece.top ≤ region.top)
    (address : Nat) :
    flagsAt (before ++ (pieces ++ after)) address =
      if (lmbView w).Covers region address then flagsAt pieces address
      else flagsAt (before ++ region :: after) address :=
  wellFormed.apart.labelAt_replace pieces inside address

section FreeRegion

variable {rgn result : List (LmbRegion w)} {base size : BitVec w}

def Encloses (base size : BitVec w) (region : LmbRegion w) : Prop :=
  region.base.toNat ≤ base.toNat ∧ base.toNat + size.toNat ≤ region.top

theorem findEnclosing_test_iff {region : LmbRegion w} (fits : Fits base size)
    (regionFits : Fits region.base region.size) :
    (region.base ≤ base ∧ base + size - 1 ≤ region.base + region.size - 1) ↔
      Encloses base size region := by
  rw [le_def, le_def, fits.toNat_last, regionFits.toNat_last, Encloses, top]
  have regionPos := regionFits.pos
  omega

theorem findEnclosing_cases (fits : Fits base size)
    (rgnFits : ∀ region ∈ rgn, Fits region.base region.size) (i : Nat) :
    (findEnclosing base (base + size - 1) rgn i = none ∧
      ∀ region ∈ rgn, ¬ Encloses base size region) ∨
    ∃ before region after, rgn = before ++ region :: after ∧
      findEnclosing base (base + size - 1) rgn i = some (i + before.length) ∧
        Encloses base size region := by
  induction rgn generalizing i with
  | nil => simp [findEnclosing]
  | cons region rest ih =>
    rw [forall_mem_cons] at rgnFits
    have test := findEnclosing_test_iff fits rgnFits.1
    simp only [findEnclosing]
    split_ifs with encloses
    · exact .inr ⟨[], region, rest, rfl, rfl, test.1 encloses⟩
    rcases ih rgnFits.2 (i + 1) with ⟨missing, others⟩ |
      ⟨before, other, after, rfl, found, otherEncloses⟩
    · exact .inl ⟨missing, forall_mem_cons.2 ⟨mt test.2 encloses, others⟩⟩
    · rw [Nat.add_right_comm] at found
      exact .inr ⟨region :: before, other, after, rfl, found, otherEncloses⟩

theorem trim_region {region piece : LmbRegion w}
    (wellFormed : WellFormed (before ++ region :: after))
    (pieceFits : Fits piece.base piece.size)
    (sameFlags : piece.flags = region.flags)
    (low : region.base.toNat ≤ piece.base.toNat)
    (high : piece.top ≤ region.top) :
    WellFormed (before ++ piece :: after) ∧ (Separated (before ++ region :: after) →
        Separated (before ++ piece :: after)) ∧
      ∀ address, flagsAt (before ++ piece :: after) address =
        if (lmbView w).Covers region address ∧ ¬ (lmbView w).Covers piece address then none
        else flagsAt (before ++ region :: after) address := by
  obtain ⟨outer, -, below, above⟩ := wellFormed.of_append_cons
  refine ⟨?_, ?_, ?_⟩
  · exact outer.append_cons pieceFits (fun other otherMem => (below other otherMem).trans low)
      (fun other otherMem => high.trans (above other otherMem))
  · intro separated
    obtain ⟨beforeSeparated, regionAfter, across⟩ := pairwise_append.1 separated
    obtain ⟨afterApart, afterSeparated⟩ := pairwise_cons.1 regionAfter
    refine pairwise_append.2 ⟨beforeSeparated, pairwise_cons.2 ⟨?_, afterSeparated⟩, ?_⟩
    · intro other otherMem same touching
      have apart := afterApart other otherMem (sameFlags.symm.trans same)
      have ordered := above other otherMem
      omega
    intro other otherMem next nextMem same touching
    rcases mem_cons.1 nextMem with rfl | inAfter
    · have apart := across other otherMem region mem_cons_self (same.trans sameFlags)
      have ordered := below other otherMem
      omega
    · exact across other otherMem next (mem_cons_of_mem _ inAfter) same touching
  intro address
  have replaced := wellFormed.flagsAt_replace [piece] (by simpa using ⟨low, high⟩) address
  rw [singleton_append] at replaced
  rw [replaced]
  by_cases covers : (lmbView w).Covers region address
  · by_cases inPiece : (lmbView w).Covers piece address
    · have recorded : flagsAt (before ++ region :: after) address = some region.flags :=
        wellFormed.apart.labelAt_of_mem (by simp) covers
      rw [if_pos covers, if_neg (fun both => both.2 inPiece), recorded, flagsAt,
        labelAt_cons_of_covers inPiece]
      exact congrArg some sameFlags
    · simp only [covers, inPiece, if_true, not_false_eq_true, and_true, flagsAt]
      rw [labelAt_cons_of_not_covers inPiece, labelAt_nil]
  · simp [covers]

/-- What `_lmb_free` leaves of a list: the request is no longer recorded, and
nothing else changes unless putting back the end of a split region is lost. -/
structure Freed (rgn : List (LmbRegion w)) (base size : BitVec w)
    (result : List (LmbRegion w)) : Prop where
  wellFormed : WellFormed result
  separated : Separated rgn → Separated result
  recorded : ∃ stop, base.toNat + size.toNat ≤ stop ∧
    (Separated rgn → stop = base.toNat + size.toNat) ∧
    ∀ address, flagsAt result address =
      if base.toNat ≤ address ∧ address < stop then none
      else flagsAt rgn address

section Cases

variable {region : LmbRegion w}

section WellFormed

variable (wellFormed : WellFormed (before ++ region :: after))

include wellFormed

theorem Freed.whole (sameBase : region.base.toNat = base.toNat)
    (sameTop : region.top = base.toNat + size.toNat) :
    Freed (before ++ region :: after) base size (before ++ after) := by
  obtain ⟨outer, -, -, -⟩ := wellFormed.of_append_cons
  refine ⟨outer, ?_, base.toNat + size.toNat, le_rfl, fun _ => rfl, ?_⟩
  · exact List.Pairwise.sublist (List.Sublist.append_left (sublist_cons_self _ _) _)
  · intro address
    have replaced := wellFormed.flagsAt_replace [] (by simp) address
    simpa only [nil_append, lmbView_covers, sameBase, sameTop, flagsAt_nil] using replaced

theorem Freed.of_piece {piece : LmbRegion w} (pieceFits : Fits piece.base piece.size)
    (sameFlags : piece.flags = region.flags) (low : region.base.toNat ≤ piece.base.toNat)
    (high : piece.top ≤ region.top)
    (removed : ∀ address, (base.toNat ≤ address ∧ address < base.toNat + size.toNat) ↔
      (lmbView w).Covers region address ∧ ¬ (lmbView w).Covers piece address) :
    Freed (before ++ region :: after) base size (before ++ piece :: after) := by
  obtain ⟨pieceWellFormed, pieceSeparated, recorded⟩ :=
    trim_region wellFormed pieceFits sameFlags low high
  refine ⟨pieceWellFormed, pieceSeparated, base.toNat + size.toNat, le_rfl, fun _ => rfl, ?_⟩
  intro address
  simp only [recorded, removed]

theorem not_meets_of_split {piece : LmbRegion w} {tailBase tailSize : BitVec w}
    (low : region.base.toNat ≤ piece.top) (tailLow : piece.top ≤ tailBase.toNat)
    (tailHigh : tailBase.toNat + tailSize.toNat = region.top) :
    ∀ other ∈ before ++ piece :: after, ¬ Meets tailBase tailSize other := by
  obtain ⟨-, -, below, above⟩ := wellFormed.of_append_cons
  intro other otherMem
  simp only [mem_append, mem_cons] at otherMem
  rintro ⟨meetsLow, meetsHigh⟩
  rcases otherMem with inBefore | rfl | inAfter
  · have ordered := below other inBefore
    omega
  · omega
  · have ordered := above other inAfter
    omega

/-- Splitting a region: `piece` is the part before the request and the part
from `tailBase` on is added again. -/
theorem Freed.of_split (piece : LmbRegion w) {tailBase tailSize : BitVec w}
    (pieceFits : Fits piece.base piece.size) (sameFlags : piece.flags = region.flags)
    (low : region.base.toNat = piece.base.toNat) (high : piece.top = base.toNat)
    (tailFits : Fits tailBase tailSize) (tailLow : tailBase.toNat = base.toNat + size.toNat)
    (tailHigh : tailBase.toNat + tailSize.toNat = region.top) :
    ∃ result, lmbAddRegionFlags (before ++ piece :: after) tailBase tailSize
        region.flags = some result ∧
      Freed (before ++ region :: after) base size result := by
  have bounds : region.base.toNat ≤ base.toNat ∧ base.toNat + size.toNat ≤ region.top := by
    rw [top] at high
    omega
  obtain ⟨pieceWellFormed, pieceSeparated, recorded⟩ :=
    trim_region wellFormed pieceFits sameFlags low.le (by omega)
  have free : ∀ other ∈ before ++ piece :: after, ¬ Meets tailBase tailSize other :=
    not_meets_of_split wellFormed (by omega) (by omega) tailHigh
  have compatible : Compatible (before ++ piece :: after) tailBase tailSize region.flags :=
    fun other otherMem meets => absurd meets (free other otherMem)
  obtain ⟨result, added, resultWellFormed⟩ :=
    exists_lmbAddRegionFlags pieceWellFormed tailFits compatible
  have recordedAdded := flagsAt_lmbAddRegionFlags pieceWellFormed tailFits compatible added
  have notSwallows (separated : Separated (before ++ region :: after)) :
      ¬ Swallows (before ++ piece :: after) tailBase tailSize region.flags :=
    (pieceSeparated separated).not_swallows pieceWellFormed
  have pieceCovers : ∀ address, (lmbView w).Covers piece address ↔
      region.base.toNat ≤ address ∧ address < base.toNat := by
    intro address
    rw [lmbView_covers, low, high]
  have regionCovers : ∀ address, (lmbView w).Covers region address ↔
      region.base.toNat ≤ address ∧ address < region.top :=
    fun _ => Iff.rfl
  refine ⟨result, added, resultWellFormed, ?_, ?_⟩
  · intro separated
    obtain ⟨absorption, equality⟩ := lmbAddRegionFlags_absorbs pieceWellFormed
      tailFits compatible (notSwallows separated)
    cases equality.symm.trans added
    exact absorption.separated free (pieceSeparated separated)
  by_cases swallows : Swallows (before ++ piece :: after) tailBase tailSize region.flags
  · refine ⟨region.top, bounds.2, fun separated => absurd swallows (notSwallows separated), ?_⟩
    intro address
    rw [recordedAdded]
    simp only [swallows, not_true_eq_false, and_false, if_false, recorded,
      pieceCovers, regionCovers]
    congr 1
    rw [eq_iff_iff]
    omega
  refine ⟨base.toNat + size.toNat, le_rfl, fun _ => rfl, ?_⟩
  intro address
  rw [recordedAdded]
  simp only [swallows, not_false_eq_true, and_true, recorded, pieceCovers, regionCovers, tailLow]
  by_cases inTail : base.toNat + size.toNat ≤ address ∧
      address < base.toNat + size.toNat + tailSize.toNat
  · have inRegion : (lmbView w).Covers region address := by
      rw [regionCovers]
      omega
    have old : flagsAt (before ++ region :: after) address = some region.flags :=
      wellFormed.apart.labelAt_of_mem (by simp) inRegion
    rw [if_pos inTail, if_neg (by omega), old]
  · rw [if_neg inTail]
    congr 1
    rw [eq_iff_iff]
    omega

end WellFormed

theorem toNat_size_sub (encloses : Encloses base size region) :
    (region.size - size).toNat = region.size.toNat - size.toNat := by
  obtain ⟨low, high⟩ := encloses
  rw [top] at high
  apply toNat_sub_of_le
  rw [le_def]
  omega

theorem Freed.start (wellFormed : WellFormed (before ++ region :: after))
    (fits : Fits base size) (encloses : Encloses base size region)
    (sameBase : region.base.toNat = base.toNat)
    (longer : region.top ≠ base.toNat + size.toNat) :
    Freed (before ++ region :: after) base size
      (before ++ { region with base := base + size - 1 + 1
                               size := region.size - size } :: after) := by
  have regionFits := wellFormed.fits region (by simp)
  have noWrap := regionFits.noWrap
  have baseEq := fits.toNat_last_add_one
  have sizeEq := toNat_size_sub encloses
  obtain ⟨low, high⟩ := encloses
  rw [top] at high longer
  apply Freed.of_piece wellFormed
  · constructor <;> simp only [sizeEq, baseEq] <;> omega
  · rfl
  · simp only [baseEq]
    omega
  · simp only [top, baseEq, sizeEq]
    omega
  · intro address
    simp only [lmbView_covers, top, baseEq, sizeEq]
    omega

theorem Freed.ending (wellFormed : WellFormed (before ++ region :: after))
    (encloses : Encloses base size region)
    (earlier : region.base.toNat ≠ base.toNat)
    (sameTop : region.top = base.toNat + size.toNat) :
    Freed (before ++ region :: after) base size
      (before ++ { region with size := region.size - size } :: after) := by
  have sizeEq := toNat_size_sub encloses
  obtain ⟨low, high⟩ := encloses
  rw [top] at high sameTop
  apply Freed.of_piece wellFormed
  · constructor <;> simp only [sizeEq] <;> omega
  · rfl
  · exact le_rfl
  · simp only [top, sizeEq]
    omega
  · intro address
    simp only [lmbView_covers, top, sizeEq]
    omega

theorem Freed.middle (wellFormed : WellFormed (before ++ region :: after))
    (fits : Fits base size) (encloses : Encloses base size region)
    (earlier : region.base.toNat ≠ base.toNat)
    (longer : region.top ≠ base.toNat + size.toNat) :
    ∃ result, lmbAddRegionFlags (before ++ { region with size := base - region.base } :: after)
        (base + size - 1 + 1) (region.base + region.size - 1 - (base + size - 1))
        region.flags = some result ∧
      Freed (before ++ region :: after) base size result := by
  have regionFits := wellFormed.fits region (by simp)
  have noWrap := regionFits.noWrap
  obtain ⟨low, high⟩ := encloses
  have headSize : (base - region.base).toNat = base.toNat - region.base.toNat := toNat_sub_of_le low
  have tailBase := fits.toNat_last_add_one
  have tailSize : (region.base + region.size - 1 - (base + size - 1)).toNat =
      region.top - (base.toNat + size.toNat) := by
    rw [toNat_sub_of_le, regionFits.toNat_last, fits.toNat_last, top]
    · omega
    · rw [le_def, regionFits.toNat_last, fits.toNat_last]
      rw [top] at high
      omega
  rw [top] at high longer tailSize
  apply Freed.of_split wellFormed
    { region with size := base - region.base } _ rfl rfl _ _ tailBase _
  · constructor <;> simp only [headSize] <;> omega
  · simp only [top, headSize]
    omega
  · constructor <;> simp only [tailBase, tailSize] <;> omega
  · rw [tailBase, tailSize, top]
    omega

end Cases

/-- `_lmb_free` of a range that one region encloses. -/
theorem exists_lmbFreeRegion (wellFormed : WellFormed rgn)
    (fits : Fits base size) {enclosing : LmbRegion w}
    (enclosingMem : enclosing ∈ rgn)
    (enclosed : Encloses base size enclosing) :
    ∃ result, lmbFreeRegion rgn base size = some result ∧ Freed rgn base size result := by
  rw [lmbFreeRegion]
  obtain ⟨-, others⟩ | ⟨before, region, after, rfl, found, encloses⟩ :=
    findEnclosing_cases fits wellFormed.fits 0
  · exact absurd enclosed (others enclosing enclosingMem)
  rw [Nat.zero_add] at found
  have regionFits := wellFormed.fits region (by simp)
  have sameBase : region.base = base ↔ region.base.toNat = base.toNat := toNat_inj.symm
  have sameEnd : region.base + region.size - 1 = base + size - 1 ↔
      region.top = base.toNat + size.toNat := by
    have pos := fits.pos
    have regionPos := regionFits.pos
    rw [← toNat_inj, regionFits.toNat_last, fits.toNat_last, top]
    omega
  simp only [found, bind_eq_bind, bind_some, rgnAt_append_length, sameBase, sameEnd,
    set_append_length]
  split_ifs with both front back
  · have removed := Freed.whole wellFormed both.1 both.2
    refine ⟨_, rfl, ?_⟩
    simpa [lmbRemoveRegion, eraseIdx_append_of_length_le] using removed
  · exact ⟨_, rfl, Freed.start wellFormed fits encloses front
      (fun sameTop => both ⟨front, sameTop⟩)⟩
  · exact ⟨_, rfl, Freed.ending wellFormed encloses front back⟩
  · exact Freed.middle wellFormed fits encloses front back

theorem lmbFreeRegion_spec (wellFormed : WellFormed rgn) (fits : Fits base size)
    (freed : lmbFreeRegion rgn base size = some result) :
    (∃ region ∈ rgn, Encloses base size region) ∧ Freed rgn base size result := by
  obtain ⟨index, found, -⟩ := bind_eq_some_iff.1 freed
  obtain ⟨missing, -⟩ | ⟨before, region, after, rfl, -, encloses⟩ :=
    findEnclosing_cases fits wellFormed.fits 0
  · cases missing.symm.trans found
  obtain ⟨expected, equality, spec⟩ := exists_lmbFreeRegion wellFormed fits (by simp) encloses
  cases equality.symm.trans freed
  exact ⟨⟨region, by simp, encloses⟩, spec⟩

end FreeRegion

end UBoot
