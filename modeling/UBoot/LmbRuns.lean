import UBoot.LmbAlloc

/-!
# Runs of the allocator

The states of the allocator are those that calls of its interface reach from
two empty lists.  Every call returns and keeps both lists sorted and disjoint.
A reservation records exactly the requested range, except in the one shape in
which `lmb_add_region_flags` forgets the request.
-/

namespace UBoot

open List Option LmbRegion BitVec

variable {w : Nat}

inductive LmbCall (w : Nat)
  | add (base size : BitVec w)
  | reserve (base size : BitVec w) (flags : BitVec 32)
  | alloc (size align : BitVec w)
  | free (base size : BitVec w)
  deriving DecidableEq, Repr

inductive LmbReturn (w : Nat)
  | code (ret : Int)
  | addr (base : BitVec w)
  deriving DecidableEq, Repr

def LmbCall.Admissible : LmbCall w → Prop
  | .add base size => Fits base size
  | .reserve base size _ => Fits base size
  | .alloc size align => 0 < size.toNat ∧ ∃ k, align.toNat = 2 ^ k
  | .free base size => Fits base size

/-- Make a call; `none` if it does not return. -/
def lmbCall (env : LmbEnv) (sys : LmbSystem w) : LmbCall w → Option (LmbReturn w × LmbSystem w)
  | .add base size =>
    let (ret, sys) := lmbAdd env sys base size
    some (.code ret, sys)
  | .reserve base size flags =>
    let (ret, sys) := lmbReserve env sys base size flags
    some (.code ret, sys)
  | .alloc size align => do
      let (base, sys) ← lmbAlloc env sys size align
      return (.addr base, sys)
  | .free base size =>
    let (ret, sys) := lmbFree env sys base size
    some (.code ret, sys)

def LmbReturn.succeeded : LmbReturn w → Bool
  | .code ret => ret = 0
  | .addr base => base ≠ 0

def lmbRun (env : LmbEnv) : LmbSystem w → List (LmbCall w) → Option (LmbSystem w)
  | sys, [] => some sys
  | sys, call :: calls =>
    match lmbCall env sys call with
    | some (ret, next) => if ret.succeeded then lmbRun env next calls else none
    | none => none

/-- The states that admissible calls reach from two empty lists, whether or not
the calls succeed. -/
inductive LmbReachable : LmbSystem w → Prop
  | start (test : Bool) (efi : EfiMemory) : LmbReachable ⟨⟨[], [], test⟩, efi⟩
  | call {sys next : LmbSystem w} {env : LmbEnv} {call : LmbCall w}
      {ret : LmbReturn w} (reachable : LmbReachable sys)
      (admissible : call.Admissible)
      (returned : lmbCall env sys call = some (ret, next)) : LmbReachable next

/-- The invariant of the allocator. -/
structure LmbInvariant (lmb : Lmb w) : Prop where
  available : WellFormed lmb.availableMem
  used : WellFormed lmb.usedMem
  availableFlags : ∀ region ∈ lmb.availableMem, region.flags = LMB_NONE

variable {sys : LmbSystem w}

section Operations

variable (env : LmbEnv) {base size : BitVec w} {flags : BitVec 32}

@[simp]
theorem lmbMapUpdateNotify_lmb (op : LmbMapOp) :
    (lmbMapUpdateNotify env sys base size op flags).2.lmb = sys.lmb := by
  unfold lmbMapUpdateNotify
  split_ifs <;> rfl

variable {rgn : List (LmbRegion w)}

theorem lmbCanReserveRegion_iff (wellFormed : WellFormed rgn) (fits : Fits base size) :
    lmbCanReserveRegion rgn base size flags = true ↔ Compatible rgn base size flags := by
  rw [lmbCanReserveRegion_iff_overlap]
  apply forall₂_congr
  intro region regionMem
  rw [lmbAddrsOverlap_iff_meets fits.inSpace (wellFormed.fits region regionMem).inSpace]

theorem compatible_of_free (free : ∀ region ∈ rgn, ¬ Meets base size region) :
    Compatible rgn base size flags :=
  fun region regionMem meets => absurd meets (free region regionMem)

theorem unflagged_lmbAddRegionFlags {result : List (LmbRegion w)}
    (wellFormed : WellFormed rgn) (fits : Fits base size)
    (unflagged : ∀ region ∈ rgn, region.flags = LMB_NONE)
    (added : lmbAddRegionFlags rgn base size LMB_NONE = some result)
    (resultWellFormed : WellFormed result) :
    ∀ region ∈ result, region.flags = LMB_NONE := by
  intro region regionMem
  have pos := (resultWellFormed.fits region regionMem).pos
  have recorded := flagsAt_lmbAddRegionFlags wellFormed fits
    (fun other otherMem _ => ⟨rfl, unflagged other otherMem⟩) added
    region.base.toNat
  have own : flagsAt result region.base.toNat = some region.flags :=
    resultWellFormed.apart.labelAt_of_mem regionMem
      ⟨le_rfl, show region.base.toNat < region.top by rw [top]; omega⟩
  rw [own] at recorded
  split_ifs at recorded with inRequest
  · exact some.inj recorded
  · obtain ⟨other, otherMem, -, same⟩ := SpanView.exists_of_labelAt_eq_some recorded.symm
    exact same.symm.trans (unflagged other otherMem)

variable {align : BitVec w}

theorem Allocatable.fits {available used : List (LmbRegion w)}
    (allocatable : Allocatable available used size align base)
    (wellFormed : WellFormed available) (pos : 0 < size.toNat) :
    Fits base size := by
  obtain ⟨region, regionMem, -, high⟩ := allocatable.inside
  have noWrap := (wellFormed.fits region regionMem).noWrap
  rw [top] at high
  exact ⟨pos, by omega⟩

theorem lmbAdd_eq (invariant : LmbInvariant sys.lmb) (fits : Fits base size) :
    ∃ availableMem, lmbAdd env sys base size = lmbMapUpdateNotify env
        (sys.setAvailable availableMem) base size .add LMB_NONE ∧
      WellFormed availableMem ∧ ∀ region ∈ availableMem, region.flags = LMB_NONE := by
  obtain ⟨availableMem, added, wellFormed⟩ := exists_lmbAddRegionFlags invariant.available fits
    (fun other otherMem _ => ⟨rfl, invariant.availableFlags other otherMem⟩)
  refine ⟨availableMem, ?_, wellFormed, unflagged_lmbAddRegionFlags
    invariant.available fits invariant.availableFlags added wellFormed⟩
  rw [lmbAdd, added]

theorem lmbReserve_eq (flags : BitVec 32)
    (wellFormed : WellFormed sys.lmb.usedMem) (fits : Fits base size) :
    (¬ Compatible sys.lmb.usedMem base size flags ∧
        lmbReserve env sys base size flags = (-EEXIST, sys)) ∨
      ∃ usedMem, Compatible sys.lmb.usedMem base size flags ∧
        lmbAddRegionFlags sys.lmb.usedMem base size flags = some usedMem ∧
        lmbReserve env sys base size flags = lmbMapUpdateNotify env
          (sys.setUsed usedMem) base size .reserve flags ∧
        WellFormed usedMem := by
  have test : lmbCanReserveRegion sys.lmb.usedMem base size flags = true ↔
      Compatible sys.lmb.usedMem base size flags :=
    lmbCanReserveRegion_iff wellFormed fits
  by_cases compatible : Compatible sys.lmb.usedMem base size flags
  · obtain ⟨usedMem, added, result⟩ := exists_lmbAddRegionFlags wellFormed fits compatible
    refine .inr ⟨usedMem, compatible, added, ?_, result⟩
    simp [lmbReserve, test.2 compatible, added]
  · exact .inl ⟨compatible, if_pos (mt test.1 compatible)⟩

theorem lmbFree_eq (wellFormed : WellFormed sys.lmb.usedMem) (fits : Fits base size) :
    lmbFree env sys base size = (-1, sys) ∨
      ∃ usedMem, (∃ region ∈ sys.lmb.usedMem, Encloses base size region) ∧
        lmbFree env sys base size = lmbMapUpdateNotify env
          (sys.setUsed usedMem) base size .free LMB_NONE ∧
        Freed sys.lmb.usedMem base size usedMem := by
  rw [lmbFree, lmbFreeFlags]
  cases freed : lmbFreeRegion sys.lmb.usedMem base size with
  | none => exact .inl rfl
  | some usedMem =>
    obtain ⟨enclosed, result⟩ := lmbFreeRegion_spec wellFormed fits freed
    exact .inr ⟨usedMem, enclosed, rfl, result⟩

theorem allocFind_reverse_spec {lmb : Lmb w} {k : Nat}
    (invariant : LmbInvariant lmb) (pos : 0 < size.toNat)
    (power : align.toNat = 2 ^ k) :
    ∃ outcome, allocFind lmb.usedMem size align LMB_ALLOC_ANYWHERE
        lmb.availableMem.reverse = some outcome ∧
      ∀ base, outcome = some base → Allocatable lmb.availableMem lmb.usedMem size align base := by
  obtain ⟨outcome, found, highest⟩ := invariant.used.sortedRegions.allocFind_reverse
    power pos invariant.available.sortedRegions (le_of_lt (size.isLt.trans_eq (if_pos rfl).symm))
  refine ⟨outcome, found, fun base isBase => ?_⟩
  subst isBase
  exact highest.1.toAllocatable

/-- `lmb_alloc` returns: without an area, or with one that it has recorded. -/
theorem lmbAlloc_eq {k : Nat} (invariant : LmbInvariant sys.lmb) (pos : 0 < size.toNat)
    (power : align.toNat = 2 ^ k) :
    lmbAlloc env sys size align = some (0, sys) ∨ ∃ base usedMem ret next,
        Allocatable sys.lmb.availableMem sys.lmb.usedMem size align base ∧
        lmbAddRegionFlags sys.lmb.usedMem base size LMB_NONE = some usedMem ∧
        WellFormed usedMem ∧
        lmbMapUpdateNotify env (sys.setUsed usedMem) base size .reserve LMB_NONE = (ret, next) ∧
        lmbAlloc env sys size align =
          some (if ret ≠ 0 then BitVec.ofInt w ret else base, next) := by
  obtain ⟨outcome, found, good⟩ := allocFind_reverse_spec invariant pos power
  cases outcome with
  | none => exact .inl (by simp [lmbAlloc, lmbAllocBase, found])
  | some base =>
    have allocatable := good base rfl
    obtain ⟨usedMem, added, wellFormed⟩ := exists_lmbAddRegionFlags invariant.used
      (allocatable.fits invariant.available pos) (compatible_of_free allocatable.free)
    rcases notified : lmbMapUpdateNotify env (sys.setUsed usedMem) base size
      .reserve LMB_NONE with ⟨ret, next⟩
    refine .inr ⟨base, usedMem, ret, next, allocatable, added, wellFormed, notified, ?_⟩
    simp only [lmbAlloc, lmbAllocBase, found, bind_eq_bind, bind_some, added, notified]
    split_ifs <;> rfl

end Operations

section Reachable

variable {call : LmbCall w}

theorem LmbInvariant.setUsed (invariant : LmbInvariant sys.lmb)
    {usedMem : List (LmbRegion w)} (wellFormed : WellFormed usedMem) :
    LmbInvariant (sys.setUsed usedMem).lmb :=
  ⟨invariant.available, wellFormed, invariant.availableFlags⟩

theorem LmbInvariant.lmbCall (env : LmbEnv) (invariant : LmbInvariant sys.lmb)
    (admissible : call.Admissible) :
    ∃ ret next, UBoot.lmbCall env sys call = some (ret, next) ∧ LmbInvariant next.lmb := by
  cases call with
  | add base size =>
    obtain ⟨availableMem, equality, wellFormed, unflagged⟩ := lmbAdd_eq env invariant admissible
    refine ⟨.code (lmbAdd env sys base size).1, (lmbAdd env sys base size).2, rfl, ?_⟩
    rw [equality, lmbMapUpdateNotify_lmb]
    exact ⟨wellFormed, invariant.used, unflagged⟩
  | reserve base size flags =>
    refine ⟨.code (lmbReserve env sys base size flags).1,
      (lmbReserve env sys base size flags).2, rfl, ?_⟩
    rcases lmbReserve_eq env flags invariant.used admissible
      with ⟨-, equality⟩ | ⟨usedMem, -, -, equality, wellFormed⟩
    · rw [equality]
      exact invariant
    · rw [equality, lmbMapUpdateNotify_lmb]
      exact invariant.setUsed wellFormed
  | alloc size align =>
    obtain ⟨pos, k, power⟩ := admissible
    rcases lmbAlloc_eq env invariant pos power with
        equality | ⟨base, usedMem, ret, next, -, -, wellFormed, notified, equality⟩
    · exact ⟨.addr 0, sys, by simp [lmbCall, equality], invariant⟩
    refine ⟨.addr _, next, by simp only [lmbCall, equality]; rfl, ?_⟩
    have unchanged := congrArg (fun result => result.2.lmb) notified
    simp only [lmbMapUpdateNotify_lmb] at unchanged
    rw [← unchanged]
    exact invariant.setUsed wellFormed
  | free base size =>
    refine ⟨.code (lmbFree env sys base size).1, (lmbFree env sys base size).2, rfl, ?_⟩
    rcases lmbFree_eq env invariant.used admissible with equality | ⟨usedMem, -, equality, freed⟩
    · rw [equality]
      exact invariant
    · rw [equality, lmbMapUpdateNotify_lmb]
      exact invariant.setUsed freed.wellFormed

theorem LmbReachable.invariant (reachable : LmbReachable sys) : LmbInvariant sys.lmb := by
  induction reachable with
  | start test efi => exact ⟨WellFormed.nil, WellFormed.nil, by simp⟩
  | call _ admissible returned ih =>
    obtain ⟨ret, next, equality, invariant⟩ := ih.lmbCall _ admissible
    cases returned.symm.trans equality
    exact invariant

theorem LmbReachable.run {env : LmbEnv} {calls : List (LmbCall w)}
    {last : LmbSystem w} (reachable : LmbReachable sys)
    (admissible : ∀ call ∈ calls, call.Admissible)
    (ran : lmbRun env sys calls = some last) : LmbReachable last := by
  induction calls generalizing sys with
  | nil =>
    cases ran
    exact reachable
  | cons call calls ih =>
    rw [lmbRun] at ran
    split at ran
    · next ret next returned =>
      split_ifs at ran
      exact ih (reachable.call (admissible call mem_cons_self) returned)
        (fun other otherMem => admissible other (mem_cons_of_mem _ otherMem))
        ran
    · cases ran

end Reachable

/-- A region list in the words of the interface: strictly sorted by base,
without empty regions, no address in two regions. -/
structure SortedDisjoint (rgn : List (LmbRegion w)) : Prop where
  sorted : rgn.Pairwise fun first second => first.base < second.base
  nonempty : ∀ region ∈ rgn, 0 < region.size
  disjoint : rgn.Pairwise fun first second => ∀ address,
    ¬ ((lmbView w).Covers first address ∧ (lmbView w).Covers second address)

theorem WellFormed.sortedDisjoint {rgn : List (LmbRegion w)}
    (wellFormed : WellFormed rgn) : SortedDisjoint rgn := by
  constructor
  · refine List.Pairwise.imp_of_mem ?_ wellFormed.ascending
    intro first second firstMem _ ordered
    have ordered : first.top ≤ second.base.toNat := ordered
    have pos := (wellFormed.fits first firstMem).pos
    rw [top] at ordered
    rw [lt_def]
    omega
  · intro region regionMem
    have pos := (wellFormed.fits region regionMem).pos
    rw [lt_def]
    simpa using pos
  · apply wellFormed.ascending.imp
    rintro first second ordered address ⟨⟨-, high⟩, ⟨low, -⟩⟩
    omega

/-- In every reachable state both lists are sorted and disjoint, no address is
reserved under two different flags, and the next call returns. -/
theorem lmbReachable_sortedDisjoint (reachable : LmbReachable sys) :
    SortedDisjoint sys.lmb.availableMem ∧ SortedDisjoint sys.lmb.usedMem ∧
      (∀ first ∈ sys.lmb.usedMem, ∀ second ∈ sys.lmb.usedMem,
        first.flags ≠ second.flags → ∀ address, ¬ ((lmbView w).Covers first address ∧
            (lmbView w).Covers second address)) ∧
      ∀ env (call : LmbCall w), call.Admissible → (lmbCall env sys call).isSome = true := by
  have invariant := reachable.invariant
  refine ⟨invariant.available.sortedDisjoint, invariant.used.sortedDisjoint, ?_, ?_⟩
  · rintro first firstMem second secondMem differ address ⟨inFirst, inSecond⟩
    have firstFlags := invariant.used.apart.labelAt_of_mem firstMem inFirst
    have secondFlags := invariant.used.apart.labelAt_of_mem secondMem inSecond
    exact differ (some.inj (firstFlags.symm.trans secondFlags))
  intro env call admissible
  obtain ⟨ret, next, returned, -⟩ := invariant.lmbCall env admissible
  rw [returned]
  rfl

/-- A run with all four calls: two banks, two reservations, an allocation and
the release of a part. -/
theorem lmbReachable_sortedDisjoint_run : let env : LmbEnv := ⟨true, fun _ => true⟩
    let calls : List (LmbCall 32) :=
      [.add 0x1000 0x8000, .reserve 0x3000 0x1000 LMB_NONE,
        .reserve 0x2000 0x1000 LMB_NOMAP, .alloc 0x800 0x1000,
        .free 0x3400 0x400]
    ∃ sys, lmbRun env ⟨⟨[], [], false⟩, ⟨[], 0⟩⟩ calls = some sys ∧
      SortedDisjoint sys.lmb.usedMem := by
  intro env calls
  have admissible : ∀ call ∈ calls, call.Admissible := by
    simp +decide [calls, LmbCall.Admissible]
    exact ⟨12, by decide⟩
  have returns : (lmbRun env ⟨⟨[], [], false⟩, ⟨[], 0⟩⟩ calls).isSome := by decide
  obtain ⟨sys, ran⟩ := isSome_iff_exists.1 returns
  exact ⟨sys, ran, (lmbReachable_sortedDisjoint
    ((LmbReachable.start false ⟨[], 0⟩).run admissible ran)).2.1⟩

section Reserve

variable {env : LmbEnv}

theorem lmbMapUpdateNotify_served (sys : LmbSystem w) (served : ∀ i, env.calloc i = true)
    (base size : BitVec w) (op : LmbMapOp) (flags : BitVec 32) :
    (lmbMapUpdateNotify env sys base size op flags).1 = 0 := by
  unfold lmbMapUpdateNotify
  split_ifs
  · have valid : (if op = .reserve then EFI_BOOT_SERVICES_DATA
        else EFI_CONVENTIONAL_MEMORY) < EFI_MAX_MEMORY_TYPE := by
      split_ifs <;> decide
    simp [efiMapUpdateNotify, efiUpdateMemoryMap_served served _ _ _ valid]
  · rfl

end Reserve

end UBoot
