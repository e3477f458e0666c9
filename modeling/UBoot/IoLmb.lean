import UBoot.LmbRuns

/-!
# The IOVA allocator

The `io_lmb_` functions run the same region lists without flags and without
notifications.  Reservations never overlap there, so regions of the list never
touch and an allocation always lies in a single region, however blocks were
merged and split before.  The reserved addresses are then exactly those of the
allocations that are still outstanding.
-/

namespace UBoot

open List SpanView Option

variable {w : Nat}

/-- `io_lmb_setup`. -/
def ioLmbSetup : Lmb w := ⟨[], [], false⟩

def ioLmbAdd (ioLmb : Lmb w) (base size : BitVec w) : Int × Lmb w :=
  match lmbAddRegionFlags ioLmb.availableMem base size LMB_NONE with
  | none => (-1, ioLmb)
  | some availableMem => (0, { ioLmb with availableMem })

/-- `io_lmb_alloc`; `none` if the search does not end. -/
def ioLmbAlloc (ioLmb : Lmb w) (size align : BitVec w) : Option (BitVec w × Lmb w) := do
  match ← allocFind ioLmb.usedMem size align LMB_ALLOC_ANYWHERE ioLmb.availableMem.reverse with
  | none => return (0, ioLmb)
  | some base =>
    match lmbAddRegionFlags ioLmb.usedMem base size LMB_NONE with
    | none => return (0, ioLmb)
    | some usedMem => return (base, { ioLmb with usedMem })

def ioLmbFree (ioLmb : Lmb w) (base size : BitVec w) : Int × Lmb w :=
  match lmbFreeRegion ioLmb.usedMem base size with
  | none => (-1, ioLmb)
  | some usedMem => (0, { ioLmb with usedMem })

structure IoAllocation (w : Nat) where
  base : BitVec w
  size : BitVec w
  deriving DecidableEq, Repr

def IoAllocation.Covers (allocation : IoAllocation w) (address : Nat) : Prop :=
  allocation.base.toNat ≤ address ∧ address < allocation.base.toNat + allocation.size.toNat

def IoAllocation.Disjoint (first second : IoAllocation w) : Prop :=
  ∀ address, ¬ (first.Covers address ∧ second.Covers address)

inductive IoReachable : Lmb w → List (IoAllocation w) → Prop
  | setup : IoReachable ioLmbSetup []
  | add {ioLmb : Lmb w} {outstanding : List (IoAllocation w)}
      (reachable : IoReachable ioLmb outstanding) (base size : BitVec w)
      (fits : Fits base size) :
      IoReachable (ioLmbAdd ioLmb base size).2 outstanding
  | alloc {ioLmb next : Lmb w} {outstanding : List (IoAllocation w)}
      (reachable : IoReachable ioLmb outstanding) (size align base : BitVec w)
      {k : Nat} (pos : 0 < size.toNat) (power : align.toNat = 2 ^ k)
      (returned : ioLmbAlloc ioLmb size align = some (base, next)) :
      IoReachable next (if base = 0 then outstanding else ⟨base, size⟩ :: outstanding)
  | free {ioLmb : Lmb w} {outstanding : List (IoAllocation w)}
      (reachable : IoReachable ioLmb outstanding) (allocation : IoAllocation w)
      (held : allocation ∈ outstanding) :
      IoReachable (ioLmbFree ioLmb allocation.base allocation.size).2 (outstanding.erase allocation)

/-- The invariant of the IOVA allocator. -/
structure IoInvariant (ioLmb : Lmb w) (outstanding : List (IoAllocation w)) :
    Prop where
  lists : LmbInvariant ioLmb
  separated : Separated ioLmb.usedMem
  fits : ∀ allocation ∈ outstanding, Fits allocation.base allocation.size
  disjoint : outstanding.Pairwise IoAllocation.Disjoint
  recorded : ∀ address flags, flagsAt ioLmb.usedMem address = some flags ↔
    flags = LMB_NONE ∧ ∃ allocation ∈ outstanding, allocation.Covers address

/-- Where regions of equal flags never touch, a range all of whose addresses
are recorded with the same flags lies in one region. -/
theorem Separated.exists_encloses {rgn : List (LmbRegion w)}
    {base size : BitVec w} {flags : BitVec 32} (separated : Separated rgn)
    (wellFormed : WellFormed rgn) (fits : Fits base size)
    (recorded : ∀ address, base.toNat ≤ address →
      address < base.toNat + size.toNat → flagsAt rgn address = some flags) :
    ∃ region ∈ rgn, Encloses base size region := by
  have pos := fits.pos
  obtain ⟨first, firstMem, ⟨low, high⟩, firstFlags⟩ :=
    exists_of_labelAt_eq_some (recorded base.toNat le_rfl (by omega))
  have low : first.base.toNat ≤ base.toNat := low
  have high : base.toNat < first.top := high
  refine ⟨first, firstMem, low, ?_⟩
  by_contra short
  obtain ⟨second, secondMem, ⟨low', high'⟩, secondFlags⟩ :=
    exists_of_labelAt_eq_some (recorded first.top (by omega) (by omega))
  have low' : second.base.toNat ≤ first.top := low'
  have high' : first.top < second.top := high'
  obtain ⟨before, after, rfl⟩ := append_of_mem firstMem
  obtain ⟨-, -, below, above⟩ := wellFormed.of_append_cons
  simp only [mem_append, mem_cons] at secondMem
  rcases secondMem with inBefore | rfl | inAfter
  · have ordered := below second inBefore
    omega
  · omega
  · have ordered := above second inAfter
    exact (pairwise_cons.1 (pairwise_append.1 separated).2.1).1
      second inAfter (firstFlags.trans secondFlags.symm) (by omega)

theorem IoAllocation.Disjoint.symm {first second : IoAllocation w}
    (disjoint : first.Disjoint second) : second.Disjoint first :=
  fun address both => disjoint address both.symm

section Steps

variable {ioLmb : Lmb w} {outstanding : List (IoAllocation w)}
  {base size align : BitVec w} {k : Nat}

theorem IoInvariant.setup : IoInvariant (ioLmbSetup : Lmb w) [] :=
  ⟨⟨WellFormed.nil, WellFormed.nil, by simp [ioLmbSetup]⟩, List.Pairwise.nil,
    by simp, List.Pairwise.nil, by simp [ioLmbSetup]⟩

section Invariant

variable (invariant : IoInvariant ioLmb outstanding)

include invariant

theorem IoInvariant.add (fits : Fits base size) :
    IoInvariant (ioLmbAdd ioLmb base size).2 outstanding := by
  have unflagged := invariant.lists.availableFlags
  obtain ⟨availableMem, added, wellFormed⟩ := exists_lmbAddRegionFlags
    invariant.lists.available fits
    (fun other otherMem _ => ⟨rfl, unflagged other otherMem⟩)
  rw [ioLmbAdd, added]
  exact ⟨⟨wellFormed, invariant.lists.used, unflagged_lmbAddRegionFlags
    invariant.lists.available fits unflagged added wellFormed⟩,
    invariant.separated, invariant.fits, invariant.disjoint, invariant.recorded⟩

theorem IoInvariant.disjoint_of_free (free : ∀ region ∈ ioLmb.usedMem, ¬ Meets base size region) :
    ∀ allocation ∈ outstanding, IoAllocation.Disjoint ⟨base, size⟩ allocation := by
  rintro allocation held address ⟨⟨low, high⟩, inAllocation⟩
  have low : base.toNat ≤ address := low
  have high : address < base.toNat + size.toNat := high
  obtain ⟨region, regionMem, ⟨low', high'⟩, -⟩ := exists_of_labelAt_eq_some
    ((invariant.recorded address LMB_NONE).2 ⟨rfl, allocation, held, inAllocation⟩)
  have low' : region.base.toNat ≤ address := low'
  have high' : address < region.top := high'
  exact free region regionMem ⟨by omega, by omega⟩

/-- `io_lmb_alloc` returns: without an area, or with a free one that is then
outstanding. -/
theorem IoInvariant.alloc (pos : 0 < size.toNat) (power : align.toNat = 2 ^ k) :
    ioLmbAlloc ioLmb size align = some (0, ioLmb) ∨
      ∃ base next, ioLmbAlloc ioLmb size align = some (base, next) ∧
        Allocatable ioLmb.availableMem ioLmb.usedMem size align base ∧
        IoInvariant next (⟨base, size⟩ :: outstanding) := by
  obtain ⟨outcome, found, good⟩ := allocFind_reverse_spec invariant.lists pos power
  cases outcome with
  | none => exact Or.inl (by simp [ioLmbAlloc, found])
  | some base =>
    have allocatable := good base rfl
    have fits := allocatable.fits invariant.lists.available pos
    have notSwallows : ¬ Swallows ioLmb.usedMem base size LMB_NONE :=
      invariant.separated.not_swallows invariant.lists.used
    obtain ⟨absorption, added⟩ := lmbAddRegionFlags_absorbs invariant.lists.used
      fits (compatible_of_free allocatable.free) notSwallows
    refine Or.inr ⟨base, { ioLmb with usedMem := absorption.result },
      by simp [ioLmbAlloc, found, added], allocatable, ?_⟩
    refine ⟨⟨invariant.lists.available,
      absorption.wellFormed invariant.lists.used, invariant.lists.availableFlags⟩,
      absorption.separated allocatable.free invariant.separated, ?_, ?_, ?_⟩
    · exact forall_mem_cons.2 ⟨fits, invariant.fits⟩
    · exact pairwise_cons.2 ⟨invariant.disjoint_of_free allocatable.free, invariant.disjoint⟩
    intro address flags
    rw [absorption.flagsAt_result invariant.lists.used]
    have inNew : IoAllocation.Covers ⟨base, size⟩ address ↔
        base.toNat ≤ address ∧ address < base.toNat + size.toNat := Iff.rfl
    simp only [mem_cons, exists_eq_or_imp, inNew]
    split_ifs with inRange
    · simp [inRange, eq_comm]
    · simp only [inRange, false_or]
      exact invariant.recorded address flags

/-- `io_lmb_free` of an outstanding allocation succeeds and takes back exactly
its addresses. -/
theorem IoInvariant.free {allocation : IoAllocation w} (held : allocation ∈ outstanding) :
    (ioLmbFree ioLmb allocation.base allocation.size).1 = 0 ∧
      IoInvariant (ioLmbFree ioLmb allocation.base allocation.size).2
        (outstanding.erase allocation) := by
  have fits := invariant.fits allocation held
  obtain ⟨region, regionMem, encloses⟩ := invariant.separated.exists_encloses
    invariant.lists.used fits (fun address low high =>
      (invariant.recorded address LMB_NONE).2 ⟨rfl, allocation, held, low, high⟩)
  obtain ⟨usedMem, freed, wellFormed, separated, stop, -, stopEq, recorded⟩ :=
    exists_lmbFreeRegion invariant.lists.used fits regionMem encloses
  obtain rfl := stopEq invariant.separated
  rw [ioLmbFree, freed]
  have permuted := perm_cons_erase held
  obtain ⟨apart, restDisjoint⟩ := pairwise_cons.1
    (invariant.disjoint.perm permuted fun disjoint => disjoint.symm)
  refine ⟨rfl, ⟨invariant.lists.available, wellFormed,
    invariant.lists.availableFlags⟩, separated invariant.separated, ?_,
    restDisjoint, ?_⟩
  · intro other otherMem
    exact invariant.fits other (mem_of_mem_erase otherMem)
  intro address flags
  have remaining : (∃ other ∈ outstanding.erase allocation,
      other.Covers address) ↔ ¬ allocation.Covers address ∧
        ∃ other ∈ outstanding, other.Covers address := by
    constructor
    · rintro ⟨other, otherMem, covers⟩
      exact ⟨fun both => apart other otherMem address ⟨both, covers⟩, other,
        mem_of_mem_erase otherMem, covers⟩
    rintro ⟨outside, other, otherMem, covers⟩
    rcases mem_cons.1 (permuted.mem_iff.1 otherMem) with rfl | inRest
    · exact absurd covers outside
    · exact ⟨other, inRest, covers⟩
  have inAllocation : allocation.Covers address ↔ allocation.base.toNat ≤ address ∧
        address < allocation.base.toNat + allocation.size.toNat := Iff.rfl
  rw [remaining, recorded, inAllocation]
  split_ifs with inRange
  · simp [inRange]
  · rw [invariant.recorded]
    simp [inRange]

end Invariant

theorem IoReachable.invariant (reachable : IoReachable ioLmb outstanding) :
    IoInvariant ioLmb outstanding := by
  induction reachable with
  | setup => exact IoInvariant.setup
  | add _ base size fits ih => exact ih.add fits
  | alloc _ size align base pos power returned ih =>
    rcases ih.alloc pos power with equality | ⟨base, next, equality, allocatable, invariant⟩
    · cases returned.symm.trans equality
      exact ih
    · cases returned.symm.trans equality
      rw [if_neg allocatable.nonzero]
      exact invariant
  | free _ allocation held ih => exact (ih.free held).2

end Steps

end UBoot
