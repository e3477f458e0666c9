import UBoot.Alignment
import UBoot.LmbState

/-!
# Searching free memory

`_lmb_alloc_base` walks down an available region, each time moving below the
reserved region it ran into.  The walk ends, since every round leaves one more
reserved region above the candidate, and it misses no area: what is found is the
highest aligned area that lies in one available region, ends below the limit and
meets nothing reserved.  Regions may reach the end of the address space here.
-/

namespace UBoot

open List Nat
open BitVec hiding not_or

variable {w : Nat} {k : Nat} {x align : BitVec w}

section

variable (power : align.toNat = 2 ^ k)

include power

theorem toNat_alignDown : (alignDown x align).toNat = x.toNat / 2 ^ k * 2 ^ k := by
  have positive : 0 < 2 ^ k := Nat.two_pow_pos k
  have bound := align.isLt
  have mask : (align - 1).toNat = 2 ^ k - 1 := by
    have one : (1 : BitVec w).toNat = 1 := by
      simpa using mod_eq_of_lt (show 1 < 2 ^ w by
        rcases w with _ | w
        · simp at bound
          omega
        · exact Nat.one_lt_two_pow (by omega))
    rw [toNat_sub_of_le (by rw [le_def]; omega), one, power]
  rw [alignDown, sub_add_cancel, toNat_and_not_mask mask]

theorem toNat_alignDown_le : (alignDown x align).toNat ≤ x.toNat := by
  rw [toNat_alignDown power]
  exact div_mul_le_self _ _

theorem le_toNat_alignDown {b : Nat} (aligned : align.toNat ∣ b) (le : b ≤ x.toNat) :
    b ≤ (alignDown x align).toNat := by
  rw [power] at aligned
  obtain ⟨q, rfl⟩ := aligned
  rw [toNat_alignDown power, Nat.mul_comm]
  apply Nat.mul_le_mul_right
  rw [Nat.le_div_iff_mul_le (Nat.two_pow_pos k), Nat.mul_comm]
  exact le

theorem dvd_toNat_alignDown : align.toNat ∣ (alignDown x align).toNat := by
  rw [toNat_alignDown power, power]
  exact dvd_mul_left _ _

end

structure InSpace (base size : BitVec w) : Prop where
  pos : 0 < size.toNat
  end_le : base.toNat + size.toNat ≤ 2 ^ w

variable {size base : BitVec w}

theorem Fits.inSpace (fits : Fits base size) : InSpace base size := ⟨fits.pos, le_of_lt fits.noWrap⟩

theorem InSpace.add_cases (inSpace : InSpace base size) :
    (base.toNat + size.toNat < 2 ^ w ∧ (base + size).toNat = base.toNat + size.toNat) ∨
      base.toNat + size.toNat = 2 ^ w ∧ base + size = 0 := by
  by_cases noWrap : base.toNat + size.toNat < 2 ^ w
  · exact Or.inl ⟨noWrap, toNat_add_of_lt noWrap⟩
  have total : base.toNat + size.toNat = 2 ^ w := le_antisymm inSpace.end_le (by omega)
  refine Or.inr ⟨total, ?_⟩
  apply eq_of_toNat_eq
  rw [toNat_add, total]
  simp

theorem InSpace.toNat_end_sub (inSpace : InSpace base size) (le : x.toNat ≤ base.toNat + size.toNat)
    (inWord : base.toNat + size.toNat - x.toNat < 2 ^ w) :
    (base + size - x).toNat = base.toNat + size.toNat - x.toNat := by
  rcases inSpace.add_cases with ⟨-, sum⟩ | ⟨total, sum⟩
  · rw [toNat_sub_of_le (by rw [le_def]; omega), sum]
  · rw [sum, toNat_sub, total]
    simp only [ofNat_eq_ofNat, toNat_ofNat, zero_mod, add_zero]
    exact mod_eq_of_lt (by omega)

theorem InSpace.toNat_last (inSpace : InSpace base size) :
    (base + size - 1).toNat = base.toNat + size.toNat - 1 := by
  have pos := inSpace.pos
  have one : (1 : BitVec w).toNat = 1 := by simpa using mod_eq_of_lt (by omega : 1 < 2 ^ w)
  rw [inSpace.toNat_end_sub (by omega) (by have := inSpace.end_le; omega), one]

/-- The invariant of a region list in which the last region may end with the address
space. -/
structure SortedRegions (rgn : List (LmbRegion w)) : Prop where
  inSpace : ∀ region ∈ rgn, InSpace region.base region.size
  ascending : (lmbView w).Ascending rgn

theorem WellFormed.sortedRegions {rgn : List (LmbRegion w)} (wellFormed : WellFormed rgn) :
    SortedRegions rgn :=
  ⟨fun region regionMem => (wellFormed.fits region regionMem).inSpace, wellFormed.ascending⟩

theorem sortedRegions_singleton {region : LmbRegion w}
    (inSpace : InSpace region.base region.size) : SortedRegions [region] :=
  ⟨forall_mem_singleton.2 inSpace, pairwise_singleton _ _⟩

section Overlaps

variable {rgn : List (LmbRegion w)} {base size : BitVec w}

theorem lmbAddrsOverlap_iff_meets {region : LmbRegion w} (inSpace : InSpace base size)
    (regionInSpace : InSpace region.base region.size) :
    lmbAddrsOverlap base size region.base region.size = true ↔ Meets base size region := by
  have pos := inSpace.pos
  have regionPos := regionInSpace.pos
  simp only [lmbAddrsOverlap, Bool.and_eq_true, decide_eq_true_eq, le_def,
    inSpace.toNat_last, regionInSpace.toNat_last, Meets, LmbRegion.top]
  omega

theorem lmbCanReserveRegion_iff_overlap {flags : BitVec 32} :
    lmbCanReserveRegion rgn base size flags = true ↔
      ∀ region ∈ rgn, lmbAddrsOverlap base size region.base region.size = true →
        flags = LMB_NONE ∧ region.flags = LMB_NONE := by
  rw [lmbCanReserveRegion, all_eq_true]
  apply forall₂_congr
  intro region _
  by_cases overlap : lmbAddrsOverlap base size region.base region.size = true
  · simp only [overlap]
    by_cases none : flags = LMB_NONE
    · simp [none, eq_comm]
    · simp [none]
  · simp [overlap]

theorem lmbOverlapsRegion_eq_none (sortedRegions : SortedRegions rgn)
    (inSpace : InSpace base size) (none : lmbOverlapsRegion rgn base size = none) :
    ∀ region ∈ rgn, ¬ Meets base size region := by
  rw [lmbOverlapsRegion, findIdx?_eq_none_iff] at none
  intro region regionMem
  have apart := none region regionMem
  rw [← lmbAddrsOverlap_iff_meets inSpace (sortedRegions.inSpace region regionMem)]
  simp [apart]

theorem lmbOverlapsRegion_eq_some (sortedRegions : SortedRegions rgn)
    (inSpace : InSpace base size) {i : Nat}
    (found : lmbOverlapsRegion rgn base size = some i) :
    rgnAt rgn i ∈ rgn ∧ Meets base size (rgnAt rgn i) := by
  rw [lmbOverlapsRegion, findIdx?_eq_some_iff_getElem] at found
  obtain ⟨bound, overlaps, -⟩ := found
  have located : rgnAt rgn i = rgn[i] := getD_eq_getElem _ _ bound
  have regionMem : rgn[i] ∈ rgn := getElem_mem bound
  rw [located]
  exact ⟨regionMem,
    (lmbAddrsOverlap_iff_meets inSpace (sortedRegions.inSpace _ regionMem)).1 overlaps⟩

end Overlaps

/-- An area that an allocation may return. -/
structure Allocatable (available used : List (LmbRegion w))
    (size align base : BitVec w) : Prop where
  nonzero : base ≠ 0
  aligned : align.toNat ∣ base.toNat
  inside : ∃ region ∈ available, region.base.toNat ≤ base.toNat ∧
    base.toNat + size.toNat ≤ region.top
  free : ∀ region ∈ used, ¬ Meets base size region

def HighestIn (candidate : BitVec w → Prop) : Option (BitVec w) → Prop
  | none => ∀ base, ¬ candidate base
  | some found => candidate found ∧ ∀ base, candidate base → base ≤ found

theorem HighestIn.congr {candidate other : BitVec w → Prop} {outcome : Option (BitVec w)}
    (highest : HighestIn candidate outcome) (same : ∀ base, other base ↔ candidate base) :
    HighestIn other outcome := by
  rw [show other = candidate from funext fun base => propext (same base)]
  exact highest

section Search

variable {available used : List (LmbRegion w)} {size align : BitVec w}

def countBelow (used : List (LmbRegion w)) (address : Nat) : Nat :=
  used.countP fun region => region.base.toNat < address

variable {region : LmbRegion w}

theorem countBelow_lt (regionMem : region ∈ used)
    (low : Nat) {high : Nat} (lowBound : low ≤ region.base.toNat)
    (highBound : region.base.toNat < high) :
    countBelow used low < countBelow used high := by
  have restricted : countBelow used low =
      (used.filter fun region => region.base.toNat < high).countP
        fun region => region.base.toNat < low := by
    rw [countP_filter, countBelow]
    congr 1
    funext other
    by_cases below : other.base.toNat < low
    · have : other.base.toNat < high := by omega
      simp [below, this]
    · simp [below]
  have total : countBelow used high = (used.filter fun region => region.base.toNat < high).length :=
    countP_eq_length_filter
  rw [restricted, total, countP_lt_length_iff]
  refine ⟨region, ?_, ?_⟩
  · simp [regionMem, highBound]
  · simp only [decide_eq_false_iff_not]
    omega

/-- The areas that the inner loop looks for, from a candidate down to the start of the
available region. -/
structure SearchArea (used : List (LmbRegion w)) (size align lmbbase base found : BitVec w) :
    Prop where
  nonzero : found ≠ 0
  above : lmbbase ≤ found
  notAbove : found ≤ base
  aligned : align.toNat ∣ found.toNat
  free : ∀ region ∈ used, ¬ Meets found size region

theorem allocSearch_highest (usedList : SortedRegions used)
    (power : align.toNat = 2 ^ k) (lmbbase : BitVec w) {fuel : Nat}
    {base : BitVec w} (inSpace : InSpace base size) (aligned : align.toNat ∣ base.toNat)
    (enough : countBelow used (base.toNat + size.toNat) < fuel) :
    ∃ outcome, allocSearch used size align lmbbase fuel base = some outcome ∧
      HighestIn (SearchArea used size align lmbbase base) outcome := by
  induction fuel generalizing base with
  | zero => omega
  | succ fuel ih =>
    rw [allocSearch]
    by_cases stops : base = 0 ∨ base < lmbbase
    · refine ⟨none, if_pos stops, ?_⟩
      rintro found ⟨nonzero, above, notAbove, -, -⟩
      rcases stops with rfl | below
      · exact nonzero (le_zero_iff.1 notAbove)
      · exact absurd (BitVec.le_trans above notAbove) (BitVec.not_le.2 below)
    rw [if_neg stops]
    rw [not_or, BitVec.not_lt] at stops
    cases hit : lmbOverlapsRegion used base size with
    | none =>
      refine ⟨some base, rfl, ⟨stops.1, stops.2, BitVec.le_refl _, aligned, ?_⟩, ?_⟩
      · exact lmbOverlapsRegion_eq_none usedList inSpace hit
      · exact fun found area => area.notAbove
    | some i =>
      obtain ⟨regionMem, overlapsLow, overlapsHigh⟩ :=
        lmbOverlapsRegion_eq_some usedList inSpace hit
      -- an area not above the candidate that misses the region ends below it
      have lower : ∀ found, SearchArea used size align lmbbase base found →
          found.toNat + size.toNat ≤ (rgnAt used i).base.toNat := by
        intro found area
        have notAbove := area.notAbove
        have misses := area.free _ regionMem
        rw [le_def] at notAbove
        rw [Meets] at misses
        omega
      simp only
      by_cases tooLow : (rgnAt used i).base < size
      · refine ⟨none, if_pos tooLow, ?_⟩
        intro found area
        have := lower found area
        rw [lt_def] at tooLow
        omega
      rw [if_neg tooLow]
      rw [BitVec.not_lt] at tooLow
      have difference := toNat_sub_of_le tooLow
      have below := toNat_alignDown_le (x := (rgnAt used i).base - size) power
      have pos := inSpace.pos
      rw [le_def] at tooLow
      have nextInSpace : InSpace (alignDown ((rgnAt used i).base - size) align) size :=
        ⟨pos, by omega⟩
      have fewer := countBelow_lt regionMem
        ((alignDown ((rgnAt used i).base - size) align).toNat + size.toNat)
        (by omega) overlapsHigh
      obtain ⟨outcome, searched, highest⟩ := ih nextInSpace (dvd_toNat_alignDown power) (by omega)
      refine ⟨outcome, searched, highest.congr fun found => ?_⟩
      constructor
      · intro area
        have ends := lower found area
        have le := le_toNat_alignDown (x := (rgnAt used i).base - size) power
          area.aligned (by omega)
        exact { area with notAbove := by rw [le_def]; exact le }
      · intro area
        have notAbove := area.notAbove
        rw [le_def] at notAbove
        exact { area with notAbove := by rw [le_def]; omega }

theorem toNat_minusOne (wide : 1 < 2 ^ w) : (-1 : BitVec w).toNat = 2 ^ w - 1 := by
  have one : 1 % 2 ^ w = 1 := mod_eq_of_lt wide
  simp only [toNat_neg, ofNat_eq_ofNat, toNat_ofNat, one]
  exact mod_eq_of_lt (by omega)

theorem InSpace.toNat_regionEnd (inSpace : InSpace base size) :
    (if base + size < base then -1 else base + size).toNat =
      min (base.toNat + size.toNat) (2 ^ w - 1) := by
  have sizeLt := size.isLt
  have pos := inSpace.pos
  rcases inSpace.add_cases with ⟨noWrap, sum⟩ | ⟨total, sum⟩
  · rw [if_neg (by rw [lt_def]; omega), sum]
    omega
  have wraps : base + size < base := by
    rw [sum, lt_def]
    simp only [ofNat_eq_ofNat, toNat_ofNat, zero_mod]
    omega
  rw [if_pos wraps, toNat_minusOne (by omega), total]
  omega

def allocLimit (maxAddr : BitVec w) : Nat :=
  if maxAddr = LMB_ALLOC_ANYWHERE then 2 ^ w else maxAddr.toNat

variable {maxAddr : BitVec w}

theorem allocStart_cases (align : BitVec w)
    (inSpace : InSpace region.base region.size) (pos : 0 < size.toNat)
    (room : size.toNat ≤ allocLimit maxAddr) (large : size ≤ region.size) :
    (allocStart region size align maxAddr = none ∧ allocLimit maxAddr ≤ region.base.toNat) ∨
      ∃ start, allocStart region size align maxAddr = some (alignDown start align) ∧
        start.toNat = min region.top (allocLimit maxAddr) - size.toNat := by
  have endLe := inSpace.end_le
  have maxLt := maxAddr.isLt
  rw [le_def] at large
  unfold allocStart allocLimit LmbRegion.top at *
  by_cases anywhere : maxAddr = LMB_ALLOC_ANYWHERE
  · right
    refine ⟨_, if_pos anywhere, ?_⟩
    rw [inSpace.toNat_end_sub (by omega) (by omega), if_pos anywhere, min_eq_left endLe]
  simp only [if_neg anywhere] at room ⊢
  by_cases below : region.base < maxAddr
  · right
    refine ⟨_, if_pos below, ?_⟩
    rw [toNat_sub_of_le, toNat_minAddr, inSpace.toNat_regionEnd]
    · omega
    · rw [le_def, toNat_minAddr, inSpace.toNat_regionEnd]
      omega
  · left
    refine ⟨if_neg below, ?_⟩
    rw [BitVec.not_lt, le_def] at below
    exact below

/-- An area that an allocation below a limit may return. -/
structure AllocatableBelow (available used : List (LmbRegion w))
    (size align : BitVec w) (limit : Nat) (base : BitVec w) : Prop
    extends Allocatable available used size align base where
  below : base.toNat + size.toNat ≤ limit

variable {limit : Nat} {base : BitVec w}

theorem AllocatableBelow.inside_singleton
    (area : AllocatableBelow [region] used size align limit base) :
    region.base.toNat ≤ base.toNat ∧ base.toNat + size.toNat ≤ region.top := by
  obtain ⟨other, otherMem, inside⟩ := area.inside
  rw [mem_singleton] at otherMem
  rw [← otherMem]
  exact inside

theorem allocatableBelow_iff : AllocatableBelow available used size align limit base ↔
      ∃ region ∈ available, AllocatableBelow [region] used size align limit base := by
  constructor
  · rintro ⟨⟨nonzero, aligned, ⟨region, regionMem, inside⟩, free⟩, below⟩
    exact ⟨region, regionMem, ⟨nonzero, aligned, ⟨region, mem_cons_self, inside⟩, free⟩, below⟩
  · rintro ⟨region, regionMem, area⟩
    exact { area with inside := ⟨region, regionMem, area.inside_singleton⟩ }

theorem allocatableBelow_cons : AllocatableBelow (region :: available) used size align limit base ↔
      AllocatableBelow [region] used size align limit base ∨
        AllocatableBelow available used size align limit base := by
  rw [allocatableBelow_iff, exists_mem_cons_iff, ← allocatableBelow_iff]

variable (usedList : SortedRegions used) (power : align.toNat = 2 ^ k) (pos : 0 < size.toNat)

include usedList power pos

theorem allocSearch_region (inSpace : InSpace region.base region.size)
    {start : BitVec w} (isStart : start.toNat = min region.top limit - size.toNat)
    (room : size.toNat ≤ min region.top limit) :
    ∃ outcome, allocSearch used size align region.base (used.length + 1)
        (alignDown start align) = some outcome ∧
      HighestIn (AllocatableBelow [region] used size align limit) outcome := by
  have endLe := inSpace.end_le
  have top : region.top = region.base.toNat + region.size.toNat := rfl
  have below := toNat_alignDown_le (x := start) power
  have startInSpace : InSpace (alignDown start align) size := ⟨pos, by omega⟩
  obtain ⟨outcome, searched, highest⟩ := allocSearch_highest usedList power region.base
    startInSpace (dvd_toNat_alignDown power) (lt_succ_of_le countP_le_length)
  refine ⟨outcome, searched, highest.congr fun found => ?_⟩
  constructor
  · intro area
    obtain ⟨low, high⟩ := area.inside_singleton
    have ends := area.below
    have le := le_toNat_alignDown (x := start) power area.aligned (by omega)
    exact ⟨area.nonzero, by rw [le_def]; exact low, by rw [le_def]; exact le,
      area.aligned, area.free⟩
  · rintro ⟨nonzero, above, notAbove, aligned, free⟩
    rw [le_def] at above notAbove
    exact ⟨⟨nonzero, aligned, ⟨region, mem_cons_self, above, by omega⟩, free⟩, by omega⟩

/-- The search over all available regions, given from the last to the first, ends, and it
finds the highest area below the limit. -/
theorem allocFind_highest (inSpace : ∀ region ∈ available, InSpace region.base region.size)
    (descending : available.Pairwise fun first second => second.top ≤ first.base.toNat)
    (room : size.toNat ≤ allocLimit maxAddr) :
    ∃ outcome, allocFind used size align maxAddr available = some outcome ∧
      HighestIn (AllocatableBelow available used size align (allocLimit maxAddr)) outcome := by
  induction available with
  | nil =>
    refine ⟨none, rfl, ?_⟩
    rintro found ⟨⟨-, -, ⟨region, regionMem, -⟩, -⟩, -⟩
    cases regionMem
  | cons region rest ih =>
    rw [pairwise_cons] at descending
    obtain ⟨restOutcome, restFound, restHighest⟩ := ih
      (fun other otherMem => inSpace other (mem_cons_of_mem _ otherMem)) descending.2
    have regionInSpace := inSpace region mem_cons_self
    have top : region.top = region.base.toNat + region.size.toNat := rfl
    have onlyRest : (∀ base, ¬ AllocatableBelow [region] used size align
        (allocLimit maxAddr) base) →
        HighestIn (AllocatableBelow (region :: rest) used size align (allocLimit maxAddr))
          restOutcome := by
      intro nothing
      exact restHighest.congr fun base => allocatableBelow_cons.trans (or_iff_right (nothing base))
    rw [allocFind]
    by_cases small : region.size < size
    · refine ⟨restOutcome, (if_pos small).trans restFound, onlyRest ?_⟩
      intro base area
      have inside := area.inside_singleton
      rw [lt_def] at small
      omega
    rw [if_neg small]
    rw [BitVec.not_lt] at small
    rcases allocStart_cases align regionInSpace pos room small with
      ⟨outside, limitLe⟩ | ⟨start, isStart, startValue⟩
    · refine ⟨restOutcome, by rw [outside]; exact restFound, onlyRest ?_⟩
      intro base area
      have inside := area.inside_singleton
      have below := area.below
      omega
    rw [le_def] at small
    obtain ⟨outcome, searched, highest⟩ := allocSearch_region usedList power pos
      regionInSpace startValue (by omega)
    simp only [isStart, searched]
    cases outcome with
    | none => exact ⟨restOutcome, restFound, onlyRest highest⟩
    | some found =>
      refine ⟨some found, rfl, allocatableBelow_cons.2 (Or.inl highest.1), ?_⟩
      intro base area
      rcases allocatableBelow_cons.1 area with inRegion | inRest
      · exact highest.2 base inRegion
      obtain ⟨other, otherMem, -, high⟩ := inRest.inside
      have inside := highest.1.inside_singleton
      have order := descending.1 other otherMem
      rw [le_def]
      omega

theorem SortedRegions.allocFind_reverse (availableList : SortedRegions available)
    (room : size.toNat ≤ allocLimit maxAddr) :
    ∃ outcome, allocFind used size align maxAddr available.reverse = some outcome ∧
      HighestIn (AllocatableBelow available used size align (allocLimit maxAddr)) outcome := by
  obtain ⟨outcome, found, highest⟩ := allocFind_highest usedList power pos
    (fun region regionMem => availableList.inSpace region (mem_reverse.1 regionMem))
    (pairwise_reverse.2 availableList.ascending) room
  refine ⟨outcome, found, highest.congr fun base => ?_⟩
  rw [allocatableBelow_iff, @allocatableBelow_iff _ available.reverse]
  simp only [mem_reverse]

end Search

end UBoot
