import UBoot.LmbAccepted
import UBoot.LmbRuns

/-!
# Allocation below a limit

`_lmb_alloc_base` returns the highest free area that ends at or below the limit.
This fails for a limit below the size: the start of the search is a difference that
wraps around, and an area at the upper end of the address space passes for one of
the available region.
-/

namespace UBoot

open List Nat Option

variable {w : Nat}

section Contract

variable {available used : List (LmbRegion w)} {size align maxAddr : BitVec w} {k : Nat}

/-- An area that the search takes in an available region for a limit below the size: it
begins at the difference that wraps around or, if the area there does not wrap around
itself, below it. -/
structure WrappedArea (used : List (LmbRegion w)) (size align maxAddr lmbbase base : BitVec w) :
    Prop where
  nonzero : base ≠ 0
  above : lmbbase ≤ base
  notAbove : base ≤ alignDown (maxAddr - size) align
  aligned : align.toNat ∣ base.toNat
  free : ∀ region ∈ used, lmbAddrsOverlap base size region.base region.size = false
  start : base = alignDown (maxAddr - size) align ∨
    (alignDown (maxAddr - size) align).toNat + size.toNat ≤ 2 ^ w

/-- A limit below the size, and an available region that begins below the limit, is large
enough, and in which the search then takes an area. -/
@[mk_iff]
structure TakesWrapped (available used : List (LmbRegion w)) (size align maxAddr : BitVec w) :
    Prop where
  limited : maxAddr ≠ LMB_ALLOC_ANYWHERE
  short : maxAddr < size
  taken : ∃ region ∈ available, region.base < maxAddr ∧ size ≤ region.size ∧
    ∃ base, WrappedArea used size align maxAddr region.base base

variable {base : BitVec w}

/-- The inner loop from an area that wraps around: it takes this area or gives up. -/
theorem allocSearch_wrapping (lmbbase : BitVec w) (fuel : Nat)
    (wraps : 2 ^ w < base.toNat + size.toNat) :
    allocSearch used size align lmbbase (fuel + 1) base =
      some (if base = 0 ∨ base < lmbbase ∨ lmbOverlapsRegion used base size ≠ none then none
        else some base) := by
  rw [allocSearch]
  by_cases stops : base = 0 ∨ base < lmbbase
  · rw [if_pos stops, if_pos (by tauto)]
  rw [if_neg stops]
  cases hit : lmbOverlapsRegion used base size with
  | none => simp only [ne_eq, not_true_eq_false, or_false, if_neg stops]
  | some i =>
    rw [lmbOverlapsRegion, findIdx?_eq_some_iff_getElem] at hit
    obtain ⟨bound, overlaps, -⟩ := hit
    have located : rgnAt used i = used[i] := getD_eq_getElem _ _ bound
    have sum : (base + size).toNat = base.toNat + size.toNat - 2 ^ w := by
      rw [BitVec.toNat_add, mod_eq_sub_mod (by omega), mod_eq_of_lt (by omega)]
    have one : (1 : BitVec w).toNat = 1 := by simpa using mod_eq_of_lt (by omega : 1 < 2 ^ w)
    have last : (base + size - 1).toNat = base.toNat + size.toNat - 2 ^ w - 1 := by
      rw [BitVec.toNat_sub_of_le (by rw [BitVec.le_def]; omega), sum, one]
    have low : (rgnAt used i).base < size := by
      simp only [lmbAddrsOverlap, Bool.and_eq_true, decide_eq_true_eq, BitVec.le_def,
        last] at overlaps
      rw [located, BitVec.lt_def]
      omega
    simp [low]

theorem lmbOverlapsRegion_eq_none_iff : lmbOverlapsRegion used base size = none ↔
      ∀ region ∈ used, lmbAddrsOverlap base size region.base region.size = false := by
  simp [lmbOverlapsRegion, findIdx?_eq_none_iff]

theorem allocSearch_wrapped (usedList : SortedRegions used) (power : align.toNat = 2 ^ k)
    (maxAddr lmbbase : BitVec w) (pos : 0 < size.toNat) :
    ∃ outcome, allocSearch used size align lmbbase (used.length + 1)
        (alignDown (maxAddr - size) align) = some outcome ∧
      match outcome with
      | none => ∀ base, ¬ WrappedArea used size align maxAddr lmbbase base
      | some base => WrappedArea used size align maxAddr lmbbase base := by
  have aligned := dvd_toNat_alignDown (x := maxAddr - size) power
  by_cases fits : (alignDown (maxAddr - size) align).toNat + size.toNat ≤ 2 ^ w
  case neg =>
    refine ⟨_, allocSearch_wrapping lmbbase used.length (by omega), ?_⟩
    split_ifs with stops
    · rintro base ⟨nonzero, above, notAbove, -, free, start⟩
      have same := start.resolve_right fits
      subst same
      rcases stops with zero | below | hit
      · exact nonzero zero
      · exact absurd above (BitVec.not_le.2 below)
      · exact hit (lmbOverlapsRegion_eq_none_iff.2 free)
    · simp only [not_or, not_not, BitVec.not_lt] at stops
      exact ⟨stops.1, stops.2.1, BitVec.le_refl _, aligned,
        lmbOverlapsRegion_eq_none_iff.1 stops.2.2, Or.inl rfl⟩
  have inSpace : InSpace (alignDown (maxAddr - size) align) size := ⟨pos, fits⟩
  obtain ⟨outcome, searched, highest⟩ := allocSearch_highest usedList power lmbbase inSpace
    aligned (lt_succ_of_le countP_le_length)
  have same : ∀ base, WrappedArea used size align maxAddr lmbbase base ↔
      SearchArea used size align lmbbase (alignDown (maxAddr - size) align) base := by
    intro base
    have freeIff : base ≤ alignDown (maxAddr - size) align →
        ((∀ region ∈ used, lmbAddrsOverlap base size region.base region.size = false) ↔
          ∀ region ∈ used, ¬ Meets base size region) := by
      intro notAbove
      rw [BitVec.le_def] at notAbove
      have baseInSpace : InSpace base size := ⟨pos, by omega⟩
      apply forall₂_congr
      intro region regionMem
      rw [← lmbAddrsOverlap_iff_meets baseInSpace (usedList.inSpace region regionMem),
        Bool.not_eq_true]
    constructor
    · rintro ⟨nonzero, above, notAbove, isAligned, free, -⟩
      exact ⟨nonzero, above, notAbove, isAligned, (freeIff notAbove).1 free⟩
    · rintro ⟨nonzero, above, notAbove, isAligned, free⟩
      exact ⟨nonzero, above, notAbove, isAligned, (freeIff notAbove).2 free, Or.inr fits⟩
  refine ⟨outcome, searched, ?_⟩
  cases outcome with
  | none => exact fun base area => highest base ((same base).1 area)
  | some base => exact (same base).2 highest.1

/-- What a search returns that takes an area exactly if it `takes` one that wraps around. -/
def WrappedOutcome (takes : Prop) (used : List (LmbRegion w)) (size : BitVec w) :
    Option (BitVec w) → Prop
  | none => ¬ takes
  | some base => takes ∧ base ≠ 0 ∧
      ∀ region ∈ used, lmbAddrsOverlap base size region.base region.size = false

theorem minAddr_limit {region : LmbRegion w} (inSpace : InSpace region.base region.size)
    (short : maxAddr < size) (large : size ≤ region.size) :
    minAddr (if region.base + region.size < region.base then -1
      else region.base + region.size) maxAddr = maxAddr := by
  rw [BitVec.lt_def] at short
  rw [BitVec.le_def] at large
  apply if_neg
  rw [BitVec.not_lt, BitVec.le_def, inSpace.toNat_regionEnd]
  omega

theorem allocFind_wrapped (usedList : SortedRegions used) (power : align.toNat = 2 ^ k)
    (pos : 0 < size.toNat) (limited : maxAddr ≠ LMB_ALLOC_ANYWHERE) (short : maxAddr < size)
    (inSpace : ∀ region ∈ available, InSpace region.base region.size) :
    ∃ outcome, allocFind used size align maxAddr available = some outcome ∧
      WrappedOutcome (TakesWrapped available used size align maxAddr) used size outcome := by
  induction available with
  | nil =>
    refine ⟨none, rfl, ?_⟩
    rintro ⟨-, -, region, regionMem, -⟩
    cases regionMem
  | cons region rest ih =>
    obtain ⟨restOutcome, restFound, restSpec⟩ := ih
      (fun other otherMem => inSpace other (mem_cons_of_mem _ otherMem))
    have skip : (region.base < maxAddr → size ≤ region.size →
        ∀ base, ¬ WrappedArea used size align maxAddr region.base base) →
        WrappedOutcome (TakesWrapped (region :: rest) used size align maxAddr) used size
          restOutcome := by
      intro nothing
      have same : TakesWrapped (region :: rest) used size align maxAddr ↔
          TakesWrapped rest used size align maxAddr := by
        rw [takesWrapped_iff, takesWrapped_iff, exists_mem_cons_iff, or_iff_right]
        rintro ⟨below, large, base, area⟩
        exact nothing below large base area
      rw [same]
      exact restSpec
    rw [allocFind]
    by_cases small : region.size < size
    · refine ⟨restOutcome, (if_pos small).trans restFound, skip ?_⟩
      intro _ large
      exact absurd large (BitVec.not_le.2 small)
    rw [if_neg small, allocStart, if_neg limited]
    by_cases below : region.base < maxAddr
    case neg =>
      refine ⟨restOutcome, by rw [if_neg below]; exact restFound, skip ?_⟩
      intro isBelow
      exact absurd isBelow below
    have top := minAddr_limit (inSpace region mem_cons_self) short (BitVec.not_lt.1 small)
    obtain ⟨outcome, searched, spec⟩ := allocSearch_wrapped usedList power maxAddr region.base pos
    simp only [if_pos below, top, searched]
    cases outcome with
    | none => exact ⟨restOutcome, restFound, skip fun _ _ => spec⟩
    | some base =>
      refine ⟨some base, rfl, ⟨limited, short, region, mem_cons_self, below, ?_, base,
        spec⟩, spec.nonzero, spec.free⟩
      exact BitVec.not_lt.1 small

variable {sys : LmbSystem w} {env : LmbEnv} {flags : BitVec 32}

/-- What is promised of a base that `lmb_alloc_base` returns. -/
def AllocContract (env : LmbEnv) (sys : LmbSystem w) (size align maxAddr : BitVec w)
    (flags : BitVec 32) : Prop :=
  ∃ base next, lmbAllocBase env sys size align maxAddr flags = some (base, next) ∧
    (base ≠ 0 → AllocatableBelow sys.lmb.availableMem sys.lmb.usedMem size align
      (allocLimit maxAddr) base)

theorem lmbAllocBase_of_none
    (found : allocFind sys.lmb.usedMem size align maxAddr sys.lmb.availableMem.reverse =
      some none) :
    lmbAllocBase env sys size align maxAddr flags = some (0, sys) := by simp [lmbAllocBase, found]

theorem lmbAllocBase_of_some (flags : BitVec 32) (usedList : SortedRegions sys.lmb.usedMem)
    (served : ∀ i, env.calloc i = true)
    (found : allocFind sys.lmb.usedMem size align maxAddr sys.lmb.availableMem.reverse =
      some (some base))
    (free : ∀ region ∈ sys.lmb.usedMem, lmbAddrsOverlap base size region.base region.size = false) :
    ∃ next, lmbAllocBase env sys size align maxAddr flags = some (base, next) := by
  obtain ⟨usedMem, added⟩ := usedList.exists_add flags fun region regionMem overlap =>
    absurd ((free region regionMem).symm.trans overlap) Bool.false_ne_true
  have success := lmbMapUpdateNotify_served (sys.setUsed usedMem) served base size .reserve flags
  refine ⟨(lmbMapUpdateNotify env (sys.setUsed usedMem) base size .reserve flags).2, ?_⟩
  simp only [lmbAllocBase, found, added, success, bind_eq_bind, bind_some]
  rfl

theorem takesWrapped_reverse : TakesWrapped available.reverse used size align maxAddr ↔
      TakesWrapped available used size align maxAddr := by
  simp only [takesWrapped_iff, mem_reverse]

theorem room_of_not_short (notShort : maxAddr ≠ LMB_ALLOC_ANYWHERE → ¬ maxAddr < size) :
    size.toNat ≤ allocLimit maxAddr := by
  unfold allocLimit
  split_ifs with anywhere
  · exact le_of_lt size.isLt
  · have notLess := notShort anywhere
    rw [BitVec.not_lt, BitVec.le_def] at notLess
    exact notLess

section Included

variable (availableList : SortedRegions sys.lmb.availableMem)
  (usedList : SortedRegions sys.lmb.usedMem) (served : ∀ i, env.calloc i = true)
  (pos : 0 < size.toNat) (power : align.toNat = 2 ^ k)

include availableList usedList served pos power

/-- `lmb_alloc_base` returns the highest area below the limit, if the limit leaves room for
the size. -/
theorem lmbAllocBase_highest (room : size.toNat ≤ allocLimit maxAddr) (flags : BitVec 32) :
    ∃ base next, lmbAllocBase env sys size align maxAddr flags = some (base, next) ∧
      HighestIn (AllocatableBelow sys.lmb.availableMem sys.lmb.usedMem size align
        (allocLimit maxAddr)) (if base = 0 then none else some base) := by
  obtain ⟨outcome, found, highest⟩ := usedList.allocFind_reverse power pos availableList room
  cases outcome with
  | none => exact ⟨0, sys, lmbAllocBase_of_none found, by rw [if_pos rfl]; exact highest⟩
  | some base =>
    obtain ⟨region, regionMem, -, high⟩ := highest.1.inside
    have regionEnd := (availableList.inSpace region regionMem).end_le
    have top : region.top = region.base.toNat + region.size.toNat := rfl
    have inSpace : InSpace base size := ⟨pos, by omega⟩
    have free : ∀ region ∈ sys.lmb.usedMem,
        lmbAddrsOverlap base size region.base region.size = false := by
      intro region regionMem
      rw [← Bool.not_eq_true, lmbAddrsOverlap_iff_meets inSpace (usedList.inSpace region regionMem)]
      exact highest.1.free region regionMem
    obtain ⟨next, returned⟩ := lmbAllocBase_of_some flags usedList served found free
    exact ⟨base, next, returned, by rw [if_neg highest.1.nonzero]; exact highest⟩

theorem not_allocContract_of_takesWrapped (flags : BitVec 32)
    (takes : TakesWrapped sys.lmb.availableMem sys.lmb.usedMem size align maxAddr) :
    ¬ AllocContract env sys size align maxAddr flags := by
  obtain ⟨outcome, found, spec⟩ := allocFind_wrapped usedList power pos takes.limited takes.short
    (fun region regionMem => availableList.inSpace region (mem_reverse.1 regionMem))
  cases outcome with
  | none => exact absurd (takesWrapped_reverse.2 takes) spec
  | some found' =>
    obtain ⟨-, nonzero, free⟩ := spec
    obtain ⟨next, returned⟩ := lmbAllocBase_of_some flags usedList served found free
    rintro ⟨base, next', returned', good⟩
    rw [returned, some_inj, Prod.mk.injEq] at returned'
    obtain ⟨rfl, -⟩ := returned'
    have below := (good nonzero).below
    have short := takes.short
    rw [allocLimit, if_neg takes.limited] at below
    rw [BitVec.lt_def] at short
    omega

/-- A base that `lmb_alloc_base` returns keeps the contract, unless the limit is below the
size and an area that wraps around is taken. -/
theorem allocContract_iff (flags : BitVec 32) : AllocContract env sys size align maxAddr flags ↔
      ¬ TakesWrapped sys.lmb.availableMem sys.lmb.usedMem size align maxAddr := by
  constructor
  · intro contract takes
    exact not_allocContract_of_takesWrapped availableList usedList served pos power flags takes
      contract
  intro notTaken
  by_cases underflow : maxAddr ≠ LMB_ALLOC_ANYWHERE ∧ maxAddr < size
  · obtain ⟨outcome, found, spec⟩ := allocFind_wrapped usedList power pos underflow.1 underflow.2
      (fun region regionMem => availableList.inSpace region (mem_reverse.1 regionMem))
    cases outcome with
    | none => exact ⟨0, sys, lmbAllocBase_of_none found, fun nonzero => absurd rfl nonzero⟩
    | some base => exact absurd (takesWrapped_reverse.1 spec.1) notTaken
  have room : size.toNat ≤ allocLimit maxAddr :=
    room_of_not_short fun limited short => underflow ⟨limited, short⟩
  obtain ⟨base, next, returned, highest⟩ := lmbAllocBase_highest availableList usedList served
    pos power room flags
  refine ⟨base, next, returned, fun nonzero => ?_⟩
  rw [if_neg nonzero] at highest
  exact highest.1

end Included

def lowBank : LmbSystem 32 := ⟨⟨[⟨0, 0x10000000, LMB_NONE⟩], [], false⟩, ⟨[], 0⟩⟩

theorem lowBank_available : SortedRegions lowBank.lmb.availableMem :=
  sortedRegions_singleton ⟨by decide, by decide⟩

theorem lowBank_used : SortedRegions lowBank.lmb.usedMem := WellFormed.nil.sortedRegions

/-- A page below 128 MiB. -/
theorem allocContract_iff_page :
    AllocContract ⟨true, fun _ => true⟩ lowBank 0x1000 0x1000 0x8000000 LMB_NONE := by
  have power : (0x1000 : BitVec 32).toNat = 2 ^ 12 := by decide
  refine (allocContract_iff lowBank_available lowBank_used (fun _ => rfl) (by decide) power
    LMB_NONE).2 ?_
  intro takes
  exact absurd takes.short (by decide)

/-- A page below 2 KiB: the area returned is the last page of the address space. -/
theorem lmbAllocBase_wraps :
    (lmbAllocBase ⟨false, fun _ => true⟩ lowBank 0x1000 0x1000 0x800 LMB_NONE).map
        Prod.fst = some 0xfffff000 ∧
      ¬ AllocContract ⟨false, fun _ => true⟩ lowBank 0x1000 0x1000 0x800 LMB_NONE := by
  have power : (0x1000 : BitVec 32).toNat = 2 ^ 12 := by decide
  refine ⟨by decide, not_allocContract_of_takesWrapped lowBank_available lowBank_used
    (fun _ => rfl) (by decide) power LMB_NONE ?_⟩
  refine ⟨by decide, by decide, ⟨0, 0x10000000, LMB_NONE⟩, mem_singleton_self _, by decide,
    by decide, 0xfffff000, by decide, by decide, by decide, by decide, ?_, Or.inl (by decide)⟩
  intro region regionMem
  cases regionMem

/-- `lmb_alloc` returns 0 only if there is no area, and otherwise the highest one. -/
theorem lmbAlloc_highest (availableList : SortedRegions sys.lmb.availableMem)
    (usedList : SortedRegions sys.lmb.usedMem) (served : ∀ i, env.calloc i = true)
    (pos : 0 < size.toNat) (power : align.toNat = 2 ^ k) :
    ∃ base next, lmbAlloc env sys size align = some (base, next) ∧ (base = 0 →
        ∀ other, ¬ Allocatable sys.lmb.availableMem sys.lmb.usedMem size align other) ∧
      (base ≠ 0 → Allocatable sys.lmb.availableMem sys.lmb.usedMem size align base ∧
        ∀ other, Allocatable sys.lmb.availableMem sys.lmb.usedMem size align other →
          other ≤ base) := by
  have room : size.toNat ≤ allocLimit (LMB_ALLOC_ANYWHERE : BitVec w) :=
    room_of_not_short fun limited => absurd rfl limited
  obtain ⟨base, next, returned, highest⟩ := lmbAllocBase_highest availableList usedList served
    pos power room LMB_NONE
  have unlimited : ∀ other, Allocatable sys.lmb.availableMem sys.lmb.usedMem size align other →
      AllocatableBelow sys.lmb.availableMem sys.lmb.usedMem size align
        (allocLimit (LMB_ALLOC_ANYWHERE : BitVec w)) other := by
    intro other area
    obtain ⟨region, regionMem, -, high⟩ := area.inside
    have regionEnd := (availableList.inSpace region regionMem).end_le
    have top : region.top = region.base.toNat + region.size.toNat := rfl
    refine ⟨area, ?_⟩
    rw [allocLimit, if_pos rfl]
    omega
  refine ⟨base, next, returned, ?_, ?_⟩
  · intro zero other area
    rw [if_pos zero] at highest
    exact highest other (unlimited other area)
  · intro nonzero
    rw [if_neg nonzero] at highest
    exact ⟨highest.1.toAllocatable, fun other area => highest.2 other (unlimited other area)⟩

/-- The last page of the bank is found. -/
theorem lmbAlloc_highest_page : ∃ base next,
    lmbAlloc ⟨true, fun _ => true⟩ lowBank 0x1000 0x1000 = some (base, next) ∧ base ≠ 0 ∧
      ∀ other, Allocatable lowBank.lmb.availableMem lowBank.lmb.usedMem 0x1000 0x1000 other →
        other ≤ base := by
  have power : (0x1000 : BitVec 32).toNat = 2 ^ 12 := by decide
  have pos : 0 < (0x1000 : BitVec 32).toNat := by decide
  have served : ∀ i, (⟨true, fun _ => true⟩ : LmbEnv).calloc i = true := fun _ => rfl
  obtain ⟨base, next, returned, none, some⟩ :=
    lmbAlloc_highest lowBank_available lowBank_used served pos power
  have nonzero : base ≠ 0 := by
    intro zero
    refine none zero 0x1000 ⟨by decide, by decide, ?_, ?_⟩
    · exact ⟨⟨0, 0x10000000, LMB_NONE⟩, mem_singleton_self _, by decide, by decide⟩
    · intro region regionMem
      cases regionMem
  exact ⟨base, next, returned, nonzero, (some nonzero).2⟩

end Contract

end UBoot
