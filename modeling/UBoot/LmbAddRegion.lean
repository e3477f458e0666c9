import UBoot.LmbRegionInsert
import Mathlib.Data.List.GetD

/-!
# The effect of `lmb_add_region_flags`

The first loop of `lmb_add_region_flags` stops at the first region that
touches or overlaps the request.  Followed through the second step and
the final insertion, a compatible request is either absorbed or, in the `Swallows` shape, lost.
-/

namespace UBoot

open List LmbRegion Growth

variable {w : Nat}

/-- The first loop of `lmb_add_region_flags` passes over the region. -/
def Skips (base size : BitVec w) (flags : BitVec 32) (region : LmbRegion w) : Prop :=
  region.base.toNat ≠ base.toNat + size.toNat ∧ ¬ Meets base size region ∧
    (region.top = base.toNat → region.flags ≠ flags)

instance (base size : BitVec w) (flags : BitVec 32) (region : LmbRegion w) :
    Decidable (Skips base size flags region) :=
  inferInstanceAs (Decidable (_ ∧ _ ∧ _))

variable {rgn : List (LmbRegion w)} {base size : BitVec w} {flags : BitVec 32}

theorem coalesceLoop_append (rgn : List (LmbRegion w))
    {passed : List (LmbRegion w)} (rest : List (LmbRegion w)) (i : Nat)
    (fits : Fits base size)
    (passedFits : ∀ region ∈ passed, Fits region.base region.size)
    (skips : ∀ region ∈ passed, Skips base size flags region) :
    coalesceLoop rgn base size flags (passed ++ rest) i =
      coalesceLoop rgn base size flags rest (i + passed.length) := by
  induction passed generalizing i with
  | nil => rfl
  | cons region passed ih =>
    obtain ⟨notAbove, notMeets, notSame⟩ := skips region mem_cons_self
    have regionFits := passedFits region mem_cons_self
    have continues := ih (i + 1)
      (fun other otherMem => passedFits other (mem_cons_of_mem _ otherMem))
      (fun other otherMem => skips other (mem_cons_of_mem _ otherMem))
    have above : ¬ lmbAddrsAdjacent base size region.base region.size > 0 := by
      rw [lmbAddrsAdjacent_pos_iff fits]
      exact notAbove
    have apart : ¬ lmbAddrsOverlap base size region.base region.size = true := by
      rw [lmbAddrsOverlap_iff fits regionFits]
      exact notMeets
    rw [cons_append, coalesceLoop]
    simp only [if_neg above, if_neg apart, continues, length_cons]
    rw [show i + 1 + passed.length = i + (passed.length + 1) by omega]
    split_ifs with adjacent sameFlags
    · rfl
    · rw [lmbAddrsAdjacent_neg_iff fits regionFits] at adjacent
      exact absurd (not_not.1 sameFlags).symm (notSame adjacent.1.symm)
    · rfl

theorem skips_or_exists_hit (rgn : List (LmbRegion w)) (base size : BitVec w) (flags : BitVec 32) :
    (∀ region ∈ rgn, Skips base size flags region) ∨
      ∃ before region after, rgn = before ++ region :: after ∧
        (∀ other ∈ before, Skips base size flags other) ∧
        ¬ Skips base size flags region := by
  cases found : rgn.find? fun region => !decide (Skips base size flags region) with
  | none =>
    left
    simpa using found
  | some region =>
    right
    obtain ⟨hit, before, after, split, skips⟩ := List.find?_eq_some_iff_append.1 found
    exact ⟨before, region, after, split, by simpa using skips, by simpa using hit⟩

section Insertion

variable {low high : List (LmbRegion w)}

theorem insertIndex_append (lowOrder : ∀ region ∈ low, ¬ base < region.base)
    (highOrder : ∀ region ∈ high, base < region.base) :
    insertIndex (low ++ high) base (low ++ high).length = low.length := by
  have atLow : insertIndex (low ++ high) base low.length = low.length := by
    rcases eq_nil_or_concat low with rfl | ⟨init, last, rfl⟩
    · rfl
    have notLess := lowOrder last (by simp)
    simp only [concat_eq_append, length_append, length_singleton,
      insertIndex, append_assoc, cons_append, nil_append,
      rgnAt_append_length]
    rw [if_neg notLess]
  have descend : ∀ count ≤ high.length,
      insertIndex (low ++ high) base (low.length + count) = low.length := by
    intro count
    induction count with
    | zero => exact fun _ => atLow
    | succ count ih =>
      intro bounded
      have less : base < (rgnAt (low ++ high) (low.length + count)).base := by
        rw [rgnAt_append_length_add, rgnAt, getD_eq_getElem _ _ (by omega : count < high.length)]
        exact highOrder _ (getElem_mem _)
      rw [← Nat.add_assoc, insertIndex, if_pos less]
      exact ih (by omega)
  rw [length_append]
  exact descend high.length le_rfl

theorem insertIdx_append_length (low high : List (LmbRegion w)) (region : LmbRegion w) :
    (low ++ high).insertIdx low.length region = low ++ region :: high := by
  induction low with
  | nil => rfl
  | cons first low ih => simp [ih]

end Insertion

variable {region : LmbRegion w}

section Stops

variable {after : List (LmbRegion w)} (rgn : List (LmbRegion w)) (i : Nat) (fits : Fits base size)

include fits

theorem coalesceLoop_right_other (touching : region.base.toNat = base.toNat + size.toNat)
    (differ : region.flags ≠ flags) :
    coalesceLoop rgn base size flags (region :: after) i = some ⟨rgn, i, 0⟩ := by
  rw [coalesceLoop, if_pos ((lmbAddrsAdjacent_pos_iff fits).2 touching), if_pos (Ne.symm differ)]

theorem coalesceLoop_right_same (touching : region.base.toNat = base.toNat + size.toNat)
    (same : region.flags = flags) :
    coalesceLoop rgn base size flags (region :: after) i = some ⟨rgn.set i
        { region with base := region.base - size, size := region.size + size },
        i, 1⟩ := by
  rw [coalesceLoop, if_pos ((lmbAddrsAdjacent_pos_iff fits).2 touching), if_neg (by simp [same])]

theorem coalesceLoop_left_same (regionFits : Fits region.base region.size)
    (touching : region.top = base.toNat) (same : region.flags = flags) :
    coalesceLoop rgn base size flags (region :: after) i =
      some ⟨rgn.set i { region with size := region.size + size }, i, 1⟩ := by
  have pos := fits.pos
  rw [top] at touching
  have apart : region.base.toNat ≠ base.toNat + size.toNat := by omega
  rw [coalesceLoop, if_neg (by rw [lmbAddrsAdjacent_pos_iff fits]; exact apart),
    if_pos ((lmbAddrsAdjacent_neg_iff fits regionFits).2
      ⟨touching.symm, apart⟩), if_neg (by simp [same])]

theorem coalesceLoop_overlap (regionFits : Fits region.base region.size)
    (meets : Meets base size region) :
    coalesceLoop rgn base size flags (region :: after) i =
      (lmbResizeRegions rgn i base size).bind fun resized =>
        some ⟨resized, i, 1⟩ := by
  obtain ⟨low, high⟩ := meets
  have notAbove : ¬ lmbAddrsAdjacent base size region.base region.size > 0 := by
    rw [lmbAddrsAdjacent_pos_iff fits]
    omega
  have notBelow : ¬ lmbAddrsAdjacent base size region.base region.size < 0 := by
    rw [lmbAddrsAdjacent_neg_iff fits regionFits]
    rw [top] at low
    omega
  rw [coalesceLoop]
  simp only [if_neg notAbove, if_neg notBelow,
    if_pos ((lmbAddrsOverlap_iff fits regionFits).2 ⟨low, high⟩)]
  rfl

end Stops

variable {before after : List (LmbRegion w)}

section Growths

theorem toNat_extended_down (regionFits : Fits region.base region.size)
    (touching : region.base.toNat = base.toNat + size.toNat) :
    (region.base - size).toNat = base.toNat ∧
      (region.size + size).toNat = region.size.toNat + size.toNat := by
  have noWrap := regionFits.noWrap
  constructor
  · rw [BitVec.toNat_sub_of_le (by rw [BitVec.le_def]; omega)]
    omega
  · exact BitVec.toNat_add_of_lt (by omega)

theorem toNat_extended_up (fits : Fits base size) (touching : region.top = base.toNat) :
    (region.size + size).toNat = region.size.toNat + size.toNat := by
  have noWrap := fits.noWrap
  rw [top] at touching
  exact BitVec.toNat_add_of_lt (by omega)

theorem fits_up (regionFits : Fits region.base region.size) (fits : Fits base size)
    (touching : region.top = base.toNat) : Fits region.base (region.size + size) := by
  have noWrap := fits.noWrap
  have regionPos := regionFits.pos
  have sizeEq := toNat_extended_up fits touching
  rw [top] at touching
  constructor <;> simp only [sizeEq] <;> omega

theorem covers_up (fits : Fits base size) (touching : region.top = base.toNat) (address : Nat) :
    (lmbView w).Covers { region with size := region.size + size } address ↔
      (base.toNat ≤ address ∧ address < base.toNat + size.toNat) ∨
        ∃ other ∈ [region], (lmbView w).Covers other address := by
  have sizeEq := toNat_extended_up fits touching
  rw [top] at touching
  simp only [lmbView_covers, top, sizeEq, List.mem_singleton, exists_eq_left]
  omega

theorem fits_down (regionFits : Fits region.base region.size) (fits : Fits base size)
    (touching : region.base.toNat = base.toNat + size.toNat) :
    Fits (region.base - size) (region.size + size) := by
  obtain ⟨baseEq, sizeEq⟩ := toNat_extended_down regionFits touching
  have pos := fits.pos
  have noWrap := regionFits.noWrap
  constructor <;> simp only [baseEq, sizeEq] <;> omega

theorem covers_down (regionFits : Fits region.base region.size)
    (touching : region.base.toNat = base.toNat + size.toNat) (address : Nat) :
    (lmbView w).Covers { region with base := region.base - size, size := region.size + size }
        address ↔
      (base.toNat ≤ address ∧ address < base.toNat + size.toNat) ∨
        ∃ other ∈ [region], (lmbView w).Covers other address := by
  obtain ⟨baseEq, sizeEq⟩ := toNat_extended_down regionFits touching
  simp only [lmbView_covers, top, baseEq, sizeEq, mem_singleton, exists_eq_left]
  omega

theorem Skips.top_le {other : LmbRegion w} (skips : Skips base size flags other)
    (otherFits : Fits other.base other.size)
    (ordered : other.top ≤ region.base.toNat)
    (near : region.base.toNat ≤ base.toNat + size.toNat) : other.top ≤ base.toNat := by
  obtain ⟨-, notMeets, -⟩ := skips
  have pos := otherFits.pos
  simp only [Meets, top] at notMeets ordered ⊢
  omega

variable (wellFormed : WellFormed (before ++ region :: after)) (fits : Fits base size)

def Growth.down (skips : ∀ other ∈ before, Skips base size flags other)
    (touching : region.base.toNat = base.toNat + size.toNat)
    (same : region.flags = flags) : Growth (before ++ region :: after) base size flags where
  before := before
  block := [region]
  after := after
  region := { region with base := region.base - size, size := region.size + size }
  source := rfl
  regionFlags := same
  blockFlags := by simpa using same
  fits := fits_down wellFormed.of_append_cons.2.1 fits touching
  covers := covers_down wellFormed.of_append_cons.2.1 touching
  below := by
    obtain ⟨-, regionFits, below, -⟩ := wellFormed.of_append_cons
    simp only [(toNat_extended_down regionFits touching).1]
    exact fun other otherMem => (skips other otherMem).top_le
      (wellFormed.fits other (mem_append_left _ otherMem)) (below other otherMem)
      (Nat.le_of_eq touching)
  separateBefore := by
    obtain ⟨-, regionFits, -, -⟩ := wellFormed.of_append_cons
    simp only [(toNat_extended_down regionFits touching).1]
    exact fun _ _ other otherMem sameFlags touches =>
      (skips other otherMem).2.2 touches sameFlags

def Growth.up (touching : region.top = base.toNat) (same : region.flags = flags) :
    Growth (before ++ region :: after) base size flags where
  before := before
  block := [region]
  after := after
  region := { region with size := region.size + size }
  source := rfl
  regionFlags := same
  blockFlags := by simpa using same
  fits := fits_up (wellFormed.fits region (by simp)) fits touching
  covers := covers_up fits touching
  below := wellFormed.of_append_cons.2.2.1
  separateBefore := fun _ separated other otherMem sameFlags =>
    (pairwise_append.1 separated).2.2 other otherMem region mem_cons_self
      (sameFlags.trans same.symm)

include wellFormed fits

theorem exists_growth_overlap (compatible : Compatible (before ++ region :: after) base size flags)
    (skips : ∀ other ∈ before, Skips base size flags other)
    (meets : Meets base size region) :
    ∃ growth : Growth (before ++ region :: after) base size flags, growth.before = before ∧
      lmbResizeRegions (before ++ region :: after) before.length base size = some growth.result ∧
      WellFormed growth.after ∧
      ∀ other ∈ growth.after, growth.region.top ≤ other.base.toNat := by
  obtain ⟨outer, regionFits, below, above⟩ := wellFormed.of_append_cons
  have afterWellFormed := outer.sublist (sublist_append_right before after)
  obtain ⟨noFlags, regionNoFlags⟩ := compatible region (by simp) meets
  obtain ⟨low, high⟩ := meets
  have follows : ∀ other ∈ after, base.toNat < other.top ∧ region.base.toNat ≤ other.base.toNat ∧
      (region.top ≤ other.base.toNat ∨ region.top ≤ base.toNat + size.toNat) := by
    intro other otherMem
    have ordered := above other otherMem
    refine ⟨?_, ?_, Or.inl ordered⟩
    · simp only [top] at low ordered ⊢
      omega
    · simp only [top] at ordered
      omega
  obtain ⟨hit, rest, merged, rfl, resized, mergedFlags, mergedFits, mergedBase,
    hitFlags, covers, mergedAbove⟩ :=
    lmbResizeRegions_spec before fits regionFits afterWellFormed ⟨high, low⟩ follows regionNoFlags
      (fun other otherMem less => (compatible other (by simp [otherMem])
        ⟨(follows other otherMem).1, less⟩).2)
  refine ⟨
    { before := before
      block := region :: hit
      after := rest
      region := merged
      source := rfl
      regionFlags := mergedFlags.trans noFlags.symm
      blockFlags := ?_
      fits := mergedFits
      covers := ?_
      below := ?_
      separateBefore := ?_ }, rfl, resized, ?_, mergedAbove⟩
  · intro other otherMem
    rcases mem_cons.1 otherMem with rfl | inHit
    · exact regionNoFlags.trans noFlags.symm
    · exact (hitFlags other inHit).trans noFlags.symm
  · simpa only [mem_cons, exists_eq_or_imp] using covers
  · intro other otherMem
    obtain ⟨notAbove, notMeets, -⟩ := skips other otherMem
    have ordered := below other otherMem
    simp only [Meets, top] at notMeets ordered ⊢
    omega
  · intro free
    exact absurd ⟨low, high⟩ (free region (by simp))
  · exact afterWellFormed.sublist (sublist_append_right hit rest)

end Growths

section AddRegion

/-- The call replaces a run of regions by one that covers the run and the request. -/
def Absorbs (rgn : List (LmbRegion w)) (base size : BitVec w) (flags : BitVec 32) : Prop :=
  ∃ absorption : Absorption rgn base size flags,
    lmbAddRegionFlags rgn base size flags = some absorption.result

theorem lmbAddRegionFlags_of_growth (growth : Growth rgn base size flags)
    (loop : coalesceLoop rgn base size flags rgn 0 = some ⟨growth.result, growth.before.length, 1⟩)
    (afterWellFormed : WellFormed growth.after)
    (ordered : ∀ other ∈ growth.after, growth.region.base.toNat ≤ other.base.toNat)
    (compatible : Compatible rgn base size flags)
    (reaches : ∀ other ∈ growth.after, other.base.toNat < growth.region.top →
      Meets base size other) :
    Absorbs rgn base size flags := by
  have inRgn : ∀ other ∈ growth.after, other ∈ rgn := by
    intro other otherMem
    rw [growth.source]
    simp [otherMem]
  obtain ⟨absorption, count, next⟩ := coalesceNext_growth growth afterWellFormed ordered
    (fun other otherMem low => compatible other (inRgn other otherMem) (reaches other otherMem low))
    1 (fun other otherMem low =>
      ⟨other, inRgn other otherMem, reaches other otherMem low⟩)
  refine ⟨absorption, ?_⟩
  simp [lmbAddRegionFlags, loop, next]

/-- The final loop of `lmb_add_region_flags` as a growth that replaces no
region. -/
theorem lmbAddRegionFlags_of_insertion {i : Nat}
    (loop : coalesceLoop rgn base size flags rgn 0 = some ⟨rgn, i, 0⟩)
    (next : coalesceNext ⟨rgn, i, 0⟩ = some ⟨rgn, i, 0⟩)
    (wellFormed : WellFormed rgn) (fits : Fits base size)
    (free : ∀ region ∈ rgn, ¬ Meets base size region)
    (notBelow : ∀ region ∈ rgn, region.top = base.toNat → region.flags ≠ flags)
    (notAbove : ∀ region ∈ rgn,
      region.base.toNat = base.toNat + size.toNat → region.flags ≠ flags) :
    Absorbs rgn base size flags := by
  obtain ⟨low, high, rfl, lowOrder, highOrder⟩ :=
    wellFormed.ascending.exists_split wellFormed.nonempty (base.toNat + 1)
  simp only [lmbView] at lowOrder highOrder
  have pos := fits.pos
  have below : ∀ region ∈ low, region.top ≤ base.toNat := by
    intro region regionMem
    have apart := free region (mem_append_left _ regionMem)
    have := lowOrder region regionMem
    simp only [Meets] at apart
    omega
  have above : ∀ region ∈ high, base.toNat + size.toNat ≤ region.base.toNat := by
    intro region regionMem
    have apart := free region (mem_append_right _ regionMem)
    have := highOrder region regionMem
    simp only [Meets, top] at apart
    omega
  let absorption : Absorption (low ++ high) base size flags :=
    { before := low
      block := []
      after := high
      region := ⟨base, size, flags⟩
      source := rfl
      regionFlags := rfl
      blockFlags := by simp
      fits := fits
      covers := by simp [lmbView_covers, top]
      below := below
      separateBefore := fun _ _ region regionMem sameFlags touching =>
        notBelow region (mem_append_left _ regionMem) touching sameFlags
      above := above
      separateAfter := fun _ _ region regionMem sameFlags touching =>
        notAbove region (mem_append_right _ regionMem) touching.symm
          sameFlags }
  refine ⟨absorption, ?_⟩
  simp only [lmbAddRegionFlags, loop, next, Option.bind_eq_bind, Option.bind_some, ne_eq,
    not_true_eq_false, if_false]
  rw [insertIndex_append]
  · exact congrArg some (insertIdx_append_length low high _)
  · intro region regionMem
    have := lowOrder region regionMem
    rw [BitVec.lt_def]
    omega
  intro region regionMem
  have := highOrder region regionMem
  rw [BitVec.lt_def]
  omega

/-- The facts about a list whose loop stops at a region of other flags that
begins where the request ends. -/
theorem free_of_right_hit {before after : List (LmbRegion w)} {region : LmbRegion w}
    (wellFormed : WellFormed (before ++ region :: after))
    (skips : ∀ other ∈ before, Skips base size flags other)
    (touching : region.base.toNat = base.toNat + size.toNat)
    (differ : region.flags ≠ flags) :
    (∀ other ∈ before ++ region :: after, ¬ Meets base size other) ∧
    (∀ other ∈ before ++ region :: after, other.top = base.toNat → other.flags ≠ flags) ∧
    ∀ other ∈ before ++ region :: after,
      other.base.toNat = base.toNat + size.toNat → other.flags ≠ flags := by
  obtain ⟨-, regionFits, -, above⟩ := wellFormed.of_append_cons
  have regionPos := regionFits.pos
  have beyond : ∀ other ∈ after, base.toNat + size.toNat < other.base.toNat := by
    intro other otherMem
    have ordered := above other otherMem
    simp only [top] at ordered
    omega
  simp only [mem_append, mem_cons, Meets, top, ← forall_and]
  rintro other (inBefore | rfl | inAfter)
  · obtain ⟨notAbove, notMeets, notSame⟩ := skips other inBefore
    exact ⟨notMeets, notSame, fun touches => absurd touches notAbove⟩
  · exact ⟨by omega, by omega, fun _ => differ⟩
  · have := beyond other inAfter
    omega

section Hit

variable (wellFormed : WellFormed (before ++ region :: after)) (fits : Fits base size)
  (skips : ∀ other ∈ before, Skips base size flags other)

include wellFormed fits skips

theorem coalesceLoop_hit : coalesceLoop (before ++ region :: after) base size flags
        (before ++ region :: after) 0 =
      coalesceLoop (before ++ region :: after) base size flags (region :: after) before.length := by
  have passed := coalesceLoop_append (before ++ region :: after) (region :: after) 0 fits
    (fun other otherMem => wellFormed.fits other (by simp [otherMem])) skips
  rwa [Nat.zero_add] at passed

section Compatible

variable (compatible : Compatible (before ++ region :: after) base size flags)

include compatible

theorem lmbAddRegionFlags_right_same (right : region.base.toNat = base.toNat + size.toNat)
    (same : region.flags = flags) :
    Absorbs (before ++ region :: after) base size flags := by
  obtain ⟨outer, regionFits, -, above⟩ := wellFormed.of_append_cons
  obtain ⟨baseEq, sizeEq⟩ := toNat_extended_down regionFits right
  apply lmbAddRegionFlags_of_growth (.down wellFormed fits skips right same) _
    (outer.sublist (sublist_append_right before after)) _ compatible
  · intro other otherMem low
    have := above other otherMem
    simp only [down, top, baseEq, sizeEq] at low this
    omega
  · rw [coalesceLoop_hit wellFormed fits skips, coalesceLoop_right_same _ _ fits right same,
      set_append_length]
    rfl
  intro other otherMem
  have := above other otherMem
  simp only [down, top, baseEq] at this ⊢
  omega

theorem lmbAddRegionFlags_left_same (left : region.top = base.toNat) (same : region.flags = flags) :
    Absorbs (before ++ region :: after) base size flags := by
  obtain ⟨outer, regionFits, -, above⟩ := wellFormed.of_append_cons
  have sizeEq := toNat_extended_up fits left
  have afterWellFormed := outer.sublist (sublist_append_right before after)
  rw [left] at above
  apply lmbAddRegionFlags_of_growth (.up wellFormed fits left same) _ afterWellFormed _ compatible
  · intro other otherMem low
    have ordered := above other otherMem
    have otherPos := (afterWellFormed.fits other otherMem).pos
    simp only [up, Meets, top, sizeEq] at left low ⊢
    omega
  · rw [coalesceLoop_hit wellFormed fits skips,
      coalesceLoop_left_same _ _ fits regionFits left same, set_append_length]
    rfl
  · intro other otherMem
    have ordered := above other otherMem
    simp only [up, top] at left ⊢
    omega

theorem lmbAddRegionFlags_overlap (meets : Meets base size region) :
    Absorbs (before ++ region :: after) base size flags := by
  obtain ⟨-, regionFits, -, -⟩ := wellFormed.of_append_cons
  obtain ⟨growth, sameBefore, resized, restWellFormed, restAbove⟩ :=
    exists_growth_overlap wellFormed fits compatible skips meets
  apply lmbAddRegionFlags_of_growth growth _ restWellFormed _ compatible
  · intro other otherMem low
    have := restAbove other otherMem
    omega
  · rw [coalesceLoop_hit wellFormed fits skips,
      coalesceLoop_overlap _ _ fits regionFits meets, resized, sameBefore]
    rfl
  intro other otherMem
  have := restAbove other otherMem
  rw [top] at this
  omega

end Compatible

/-- A request that ends at a region of other flags is inserted, unless the
second step finds two regions to merge. -/
theorem lmbAddRegionFlags_right_other (right : region.base.toNat = base.toNat + size.toNat)
    (differ : region.flags ≠ flags)
    (kept : ¬ Swallows (before ++ region :: after) base size flags) :
    Absorbs (before ++ region :: after) base size flags := by
  obtain ⟨outer, regionFits, -, above⟩ := wellFormed.of_append_cons
  obtain ⟨free, notBelow, notAbove⟩ := free_of_right_hit wellFormed skips right differ
  have apart : ∀ next ∈ after.head?, region.base.toNat ≤ next.base.toNat ∧
      (region.flags ≠ next.flags ∨ region.top < next.base.toNat) := by
    intro next nextHead
    have nextMem : next ∈ after := mem_of_mem_head? nextHead
    have ordered := above next nextMem
    constructor
    · rw [top] at ordered
      omega
    by_contra touching
    push Not at touching
    exact kept ⟨⟨region, by simp, right, differ, next, by simp [nextMem],
      by omega, touching.1.symm⟩, free, notBelow⟩
  refine lmbAddRegionFlags_of_insertion (i := before.length) ?_
    (coalesceNext_of_apart _ 0 regionFits (outer.sublist (sublist_append_right before after)) apart)
    wellFormed fits free notBelow notAbove
  rw [coalesceLoop_hit wellFormed fits skips, coalesceLoop_right_other _ _ fits right differ]

end Hit

/-- A compatible request outside the `Swallows` shape is absorbed. -/
theorem lmbAddRegionFlags_absorbs (wellFormed : WellFormed rgn)
    (fits : Fits base size) (compatible : Compatible rgn base size flags)
    (kept : ¬ Swallows rgn base size flags) :
    Absorbs rgn base size flags := by
  rcases skips_or_exists_hit rgn base size flags with
      allSkip | ⟨before, region, after, rfl, skips, hit⟩
  · have loop : coalesceLoop rgn base size flags rgn 0 = some ⟨rgn, rgn.length, 0⟩ := by
      have passed := coalesceLoop_append rgn [] 0 fits wellFormed.fits allSkip
      simpa [coalesceLoop] using passed
    apply lmbAddRegionFlags_of_insertion loop (by simp [coalesceNext]) wellFormed
      fits (fun other otherMem => (allSkip other otherMem).2.1)
      (fun other otherMem => (allSkip other otherMem).2.2)
    exact fun other otherMem touches => absurd touches (allSkip other otherMem).1
  by_cases right : region.base.toNat = base.toNat + size.toNat
  · by_cases same : region.flags = flags
    · exact lmbAddRegionFlags_right_same wellFormed fits skips compatible right same
    · exact lmbAddRegionFlags_right_other wellFormed fits skips right same kept
  by_cases meets : Meets base size region
  · exact lmbAddRegionFlags_overlap wellFormed fits skips compatible meets
  have left : region.top = base.toNat ∧ region.flags = flags := by
    by_contra apart
    exact hit ⟨right, meets, fun touches same => apart ⟨touches, same⟩⟩
  exact lmbAddRegionFlags_left_same wellFormed fits skips compatible left.1 left.2

theorem WellFormed.exists_tail_of_touching {before tail : List (LmbRegion w)}
    {first second : LmbRegion w}
    (wellFormed : WellFormed (before ++ first :: tail))
    (secondMem : second ∈ before ++ first :: tail)
    (touching : second.base.toNat = first.top) :
    ∃ after, tail = second :: after := by
  obtain ⟨outer, firstFits, below, above⟩ := wellFormed.of_append_cons
  have tailWellFormed := outer.sublist (sublist_append_right before tail)
  have firstPos := firstFits.pos
  simp only [mem_append, mem_cons] at secondMem
  rcases secondMem with inBefore | rfl | inTail
  · have ordered := below second inBefore
    simp only [top] at ordered touching
    omega
  · rw [top] at touching
    omega
  cases tail with
  | nil => simp at inTail
  | cons next after =>
    rcases mem_cons.1 inTail with rfl | inAfter
    · exact ⟨after, rfl⟩
    have nextBound := above next mem_cons_self
    have nextPos := (tailWellFormed.fits next mem_cons_self).pos
    have ordered := (pairwise_cons.1 tailWellFormed.ascending).1 second inAfter
    simp only [lmbView, top] at ordered nextBound touching
    omega

variable (wellFormed : WellFormed rgn)

include wellFormed

/-- A request in the `Swallows` shape merges two other regions and is not
recorded. -/
theorem lmbAddRegionFlags_swallows (fits : Fits base size)
    (swallows : Swallows rgn base size flags) :
    ∃ first ∈ rgn, ∃ absorption : Absorption rgn first.base first.size first.flags,
      lmbAddRegionFlags rgn base size flags = some absorption.result := by
  obtain ⟨⟨first, firstMem, right, differ, second, secondMem, touching, same⟩,
    free, notBelow⟩ := swallows
  obtain ⟨before, tail, rfl⟩ := append_of_mem firstMem
  obtain ⟨outer, firstFits, below, above⟩ := wellFormed.of_append_cons
  have tailWellFormed := outer.sublist (sublist_append_right before tail)
  have skips : ∀ other ∈ before, Skips base size flags other := by
    intro other otherMem
    have inRgn : other ∈ before ++ first :: tail := by simp [otherMem]
    refine ⟨?_, free other inRgn, notBelow other inRgn⟩
    have ordered := below other otherMem
    have otherPos := (wellFormed.fits other inRgn).pos
    rw [top] at ordered
    omega
  obtain ⟨after, rfl⟩ := wellFormed.exists_tail_of_touching secondMem touching
  let growth : Growth (before ++ first :: second :: after) first.base first.size first.flags :=
    { before := before
      block := [first]
      after := second :: after
      region := first
      source := rfl
      regionFlags := rfl
      blockFlags := by simp
      fits := firstFits
      covers := by simp [lmbView_covers, top]
      below := below
      separateBefore := fun _ separated other otherMem =>
        (pairwise_append.1 separated).2.2 other otherMem first
          mem_cons_self }
  obtain ⟨absorption, merged⟩ := coalesceNext_growth_touching growth tailWellFormed
    0 rfl same.symm touching.symm
  refine ⟨first, firstMem, absorption, ?_⟩
  have loop := coalesceLoop_hit wellFormed fits skips
  rw [coalesceLoop_right_other _ _ fits right differ] at loop
  have next : coalesceNext ⟨before ++ first :: second :: after, before.length, 0⟩ =
      some ⟨absorption.result, before.length, 1⟩ := merged
  simp [lmbAddRegionFlags, loop, next]

theorem exists_lmbAddRegionFlags (fits : Fits base size)
    (compatible : Compatible rgn base size flags) :
    ∃ result, lmbAddRegionFlags rgn base size flags = some result ∧ WellFormed result := by
  by_cases swallows : Swallows rgn base size flags
  · obtain ⟨first, -, absorption, equality⟩ := lmbAddRegionFlags_swallows wellFormed fits swallows
    exact ⟨absorption.result, equality, absorption.wellFormed wellFormed⟩
  · obtain ⟨absorption, equality⟩ := lmbAddRegionFlags_absorbs wellFormed fits compatible swallows
    exact ⟨absorption.result, equality, absorption.wellFormed wellFormed⟩

theorem flagsAt_lmbAddRegionFlags {result : List (LmbRegion w)} (fits : Fits base size)
    (compatible : Compatible rgn base size flags)
    (added : lmbAddRegionFlags rgn base size flags = some result) (address : Nat) :
    flagsAt result address =
      if (base.toNat ≤ address ∧ address < base.toNat + size.toNat) ∧
        ¬ Swallows rgn base size flags then some flags
      else flagsAt rgn address := by
  by_cases swallows : Swallows rgn base size flags
  · obtain ⟨first, firstMem, absorption, equality⟩ :=
      lmbAddRegionFlags_swallows wellFormed fits swallows
    cases equality.symm.trans added
    simp only [swallows, not_true_eq_false, and_false, if_false]
    rw [absorption.flagsAt_result wellFormed]
    split_ifs with inFirst
    · exact (wellFormed.apart.labelAt_of_mem firstMem inFirst).symm
    · rfl
  · obtain ⟨absorption, equality⟩ := lmbAddRegionFlags_absorbs wellFormed fits compatible swallows
    cases equality.symm.trans added
    rw [absorption.flagsAt_result wellFormed]
    simp [swallows]

theorem Separated.not_swallows (separated : Separated rgn) : ¬ Swallows rgn base size flags := by
  rintro ⟨⟨first, firstMem, -, -, second, secondMem, touching, same⟩, -, -⟩
  obtain ⟨before, tail, rfl⟩ := append_of_mem firstMem
  obtain ⟨after, rfl⟩ := wellFormed.exists_tail_of_touching secondMem touching
  exact (pairwise_cons.1 (pairwise_append.1 separated).2.1).1
    second mem_cons_self same.symm touching.symm

end AddRegion

end UBoot
