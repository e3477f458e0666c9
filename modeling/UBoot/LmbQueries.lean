import UBoot.LmbAccepted
import UBoot.LmbRuns

/-!
# Free bytes and fixed addresses

`lmb_get_free_size` looks for the next reserved region and otherwise at the end of the
last bank, and `lmb_alloc_addr` at the last byte of a range.  Neither looks at all of the
range: holes between the banks count as free, and a range may begin in front of a bank.
-/

namespace UBoot

open List Nat BitVec LmbRegion

variable {w : Nat} (lmb : Lmb w)

def Lmb.Available (address : Nat) : Prop :=
  ∃ region ∈ lmb.availableMem, (lmbView w).Covers region address

def Lmb.Reserved (address : Nat) : Prop := ∃ region ∈ lmb.usedMem, (lmbView w).Covers region address

structure Lmb.FreeBytes (lmb : Lmb w) (address count : Nat) : Prop where
  free : ∀ x, address ≤ x → x < address + count → lmb.Available x ∧ ¬ lmb.Reserved x
  ended : ¬ lmb.Available (address + count) ∨ lmb.Reserved (address + count)

def Lmb.lastBank : LmbRegion w := rgnAt lmb.availableMem (lmb.availableMem.length - 1)

/-- What `lmb_get_free_size` takes for the end of the free bytes from an address on: the next
reserved region or, without one, the end of the last bank. -/
def StopsAt (used : List (LmbRegion w)) (last : LmbRegion w) (address stop : Nat) : Prop :=
  (∃ region ∈ used, address < region.base.toNat ∧ stop = region.base.toNat ∧
    ∀ other ∈ used, address < other.base.toNat → stop ≤ other.base.toNat) ∨
  (∀ region ∈ used, region.base.toNat ≤ address) ∧ stop = last.top

section FreeSize

variable {lmb : Lmb w} {addr : BitVec w}

/-- The loop over the reserved regions returns 0 inside of a region whose end does not wrap
around, and otherwise the distance to the stop. -/
theorem freeSizeLoop_cases {last : LmbRegion w}
    (below : addr.toNat ≤ last.top) (used : List (LmbRegion w)) (sorted : SortedRegions used) :
    (∃ region ∈ used, (lmbView w).Covers region addr.toNat ∧ region.top < 2 ^ w ∧
      freeSizeLoop addr last used = 0) ∨
    (∀ region ∈ used, (lmbView w).Covers region addr.toNat → region.top = 2 ^ w) ∧
      ∃ stop, StopsAt used last addr.toNat stop ∧
        (freeSizeLoop addr last used).toNat = (stop - addr.toNat) % 2 ^ w := by
  induction used with
  | nil =>
    refine .inr ⟨by simp, last.top, .inr ⟨by simp, rfl⟩, ?_⟩
    unfold top at below ⊢
    rw [freeSizeLoop, toNat_sub, toNat_add, add_mod_mod, ← add_mod_right (_ - _)]
    congr 1
    omega
  | cons region rest ih =>
    obtain ⟨inSpace, restSorted, order⟩ := sorted.tail_of_cons
    have top : region.top = region.base.toNat + region.size.toNat := rfl
    rw [freeSizeLoop]
    by_cases above : addr < region.base
    · rw [if_pos above, toNat_sub_of_le (BitVec.le_of_lt above)]
      rw [lt_def] at above
      have least : ∀ other ∈ region :: rest, region.base.toNat ≤ other.base.toNat := by
        intro other otherMem
        rcases mem_cons.1 otherMem with rfl | inRest
        · exact le_rfl
        · exact le_trans (by omega) (order other inRest)
      refine .inr ⟨?_, region.base.toNat, .inl ⟨region, mem_cons_self, above, rfl,
        fun other otherMem _ => least other otherMem⟩, (mod_eq_of_lt (by omega)).symm⟩
      rintro other otherMem ⟨low, -⟩
      exact absurd (le_trans (least other otherMem) low) (by omega)
    rw [if_neg above]
    rw [BitVec.not_lt, le_def] at above
    by_cases inside : addr < region.base + region.size
    · rw [if_pos inside]
      rw [lt_def] at inside
      rcases inSpace.add_cases with ⟨-, sum⟩ | ⟨-, sum⟩
      · exact .inl ⟨region, mem_cons_self,
          ⟨above, (by omega : addr.toNat < region.top)⟩, by omega, rfl⟩
      · rw [sum] at inside
        simp at inside
    rw [if_neg inside]
    rw [BitVec.not_lt, le_def] at inside
    rcases ih restSorted with ⟨found, foundMem, covered⟩ | ⟨reach, stop, stops, count⟩
    · exact .inl ⟨found, mem_cons_of_mem _ foundMem, covered⟩
    refine .inr ⟨?_, stop, ?_, count⟩
    · intro other otherMem covers
      rcases mem_cons.1 otherMem with rfl | inRest
      · have high : addr.toNat < other.top := covers.2
        rcases inSpace.add_cases with ⟨-, sum⟩ | ⟨total, -⟩
        · omega
        · exact total
      · exact reach other inRest covers
    rcases stops with ⟨found, foundMem, foundAbove, isStop, first⟩ | ⟨below, isStop⟩
    · refine .inl ⟨found, mem_cons_of_mem _ foundMem, foundAbove, isStop, ?_⟩
      rintro other (- | ⟨-, inRest⟩) otherAbove
      · omega
      · exact first other inRest otherAbove
    refine .inr ⟨?_, isStop⟩
    rintro other (- | ⟨-, inRest⟩)
    · exact above
    · exact below other inRest

theorem lmbAddrsOverlap_byte {region : LmbRegion w} (inSpace : InSpace region.base region.size) :
    lmbAddrsOverlap addr 1 region.base region.size = true ↔
      (lmbView w).Covers region addr.toNat := by
  have pos := inSpace.pos
  have addrLt := addr.isLt
  have one : (1 : BitVec w).toNat = 1 := by simpa using mod_eq_of_lt (by omega : 1 < 2 ^ w)
  have byteInSpace : InSpace addr 1 := ⟨by omega, by omega⟩
  rw [lmbAddrsOverlap_iff_meets byteInSpace inSpace, Meets, lmbView_covers, one]
  omega

theorem lmbOverlapsRegion_byte (sorted : SortedRegions lmb.availableMem) :
    lmbOverlapsRegion lmb.availableMem addr 1 = none ↔ ¬ lmb.Available addr.toNat := by
  rw [lmbOverlapsRegion, findIdx?_eq_none_iff]
  constructor
  · rintro none ⟨region, regionMem, covers⟩
    have overlap := (lmbAddrsOverlap_byte (sorted.inSpace region regionMem)).2 covers
    rw [none region regionMem] at overlap
    cases overlap
  · intro outside region regionMem
    rw [← Bool.not_eq_true, lmbAddrsOverlap_byte (sorted.inSpace region regionMem)]
    exact fun covers => outside ⟨region, regionMem, covers⟩

theorem SortedRegions.top_le_last {rgn : List (LmbRegion w)} (sorted : SortedRegions rgn)
    (nonempty : rgn ≠ []) :
    rgnAt rgn (rgn.length - 1) ∈ rgn ∧
      ∀ region ∈ rgn, region.top ≤ (rgnAt rgn (rgn.length - 1)).top := by
  have located : rgnAt rgn (rgn.length - 1) = rgn.getLast nonempty := by
    rw [getLast_eq_getElem]
    exact getD_eq_getElem _ _ (by have := length_pos_of_ne_nil nonempty; omega)
  rw [located]
  refine ⟨getLast_mem nonempty, ?_⟩
  intro region regionMem
  obtain ⟨low, high, rfl⟩ := append_of_mem regionMem
  obtain ⟨-, highSorted, order⟩ := sorted.around
  cases high with
  | nil => rw [getLast_append_singleton]
  | cons next high =>
    have lastMem : (low ++ region :: next :: high).getLast nonempty ∈ next :: high := by
      rw [getLast_append_of_ne_nil _ (by simp), getLast_cons (by simp)]
      exact getLast_mem _
    have behind := order _ lastMem
    have pos := (highSorted.inSpace _ lastMem).pos
    unfold top at behind ⊢
    omega

/-- Where `lmb_get_free_size` counts right: the address is not available; or it is reserved by
a region that ends below the end of the address space; or it is not reserved, and everything
up to the place where the function stops is available, and the count fits in a word. -/
def Lmb.Counts (address : Nat) : Prop :=
  lmb.Available address →
    (∃ region ∈ lmb.usedMem, (lmbView w).Covers region address ∧ region.top < 2 ^ w) ∨
    ¬ lmb.Reserved address ∧ ∃ stop, StopsAt lmb.usedMem lmb.lastBank address stop ∧
      stop - address < 2 ^ w ∧ ∀ x, address ≤ x → x < stop → lmb.Available x

section Stops

variable {address stop : Nat} (stops : StopsAt lmb.usedMem lmb.lastBank address stop)

include stops

theorem StopsAt.unique {other : Nat}
    (alsoStops : StopsAt lmb.usedMem lmb.lastBank address other) : stop = other := by
  rcases stops with ⟨region, regionMem, above, rfl, first⟩ | ⟨none, rfl⟩
  · rcases alsoStops with ⟨region', regionMem', above', rfl, first'⟩ | ⟨none, -⟩
    · exact le_antisymm (first region' regionMem' above') (first' region regionMem above)
    · have := none region regionMem
      omega
  rcases alsoStops with ⟨region, regionMem, above, -, -⟩ | ⟨-, rfl⟩
  · have := none region regionMem
    omega
  · rfl

theorem StopsAt.not_reserved {x : Nat} (free : ¬ lmb.Reserved address) (atLeast : address ≤ x)
    (below : x < stop) : ¬ lmb.Reserved x := by
  rintro ⟨region, regionMem, low, high⟩
  have low : region.base.toNat ≤ x := low
  have high : x < region.top := high
  have startsBelow : region.base.toNat ≤ address := by
    rcases stops with ⟨next, -, -, rfl, first⟩ | ⟨none, -⟩
    · by_contra startsAbove
      have := first region regionMem (by omega)
      omega
    · exact none region regionMem
  exact free ⟨region, regionMem, startsBelow, (by omega : address < region.top)⟩

theorem StopsAt.ended (availableList : SortedRegions lmb.availableMem)
    (usedList : SortedRegions lmb.usedMem) : ¬ lmb.Available stop ∨ lmb.Reserved stop := by
  rcases stops with ⟨region, regionMem, -, rfl, -⟩ | ⟨-, rfl⟩
  · have pos := (usedList.inSpace region regionMem).pos
    refine .inr ⟨region, regionMem, le_rfl, ?_⟩
    exact (by rw [top]; omega : region.base.toNat < region.top)
  refine .inl ?_
  rintro ⟨bank, bankMem, -, high⟩
  exact absurd high (not_lt.2
    ((availableList.top_le_last (ne_nil_of_mem bankMem)).2 bank bankMem))

/-- Where the count reaches to the stop, it is right if nothing in between is missing. -/
theorem StopsAt.freeBytes_iff_available (availableList : SortedRegions lmb.availableMem)
    (usedList : SortedRegions lmb.usedMem) (above : address < stop) :
    lmb.FreeBytes address (stop - address) ↔
      ¬ lmb.Reserved address ∧ ∀ x, address ≤ x → x < stop → lmb.Available x := by
  have reaches : address + (stop - address) = stop := by omega
  constructor
  · rintro ⟨free, -⟩
    rw [reaches] at free
    exact ⟨(free address le_rfl above).2, fun x atLeast below => (free x atLeast below).1⟩
  rintro ⟨notReserved, available⟩
  constructor
  · rw [reaches]
    intro x atLeast below
    exact ⟨available x atLeast below, stops.not_reserved notReserved atLeast below⟩
  · rw [reaches]
    exact stops.ended availableList usedList

/-- The condition at an available address that no region below the end of the address space
reserves. -/
theorem StopsAt.counts_iff (available : lmb.Available address)
    (reach : ∀ region ∈ lmb.usedMem, (lmbView w).Covers region address → region.top = 2 ^ w) :
    lmb.Counts address ↔ stop - address < 2 ^ w ∧
      ¬ lmb.Reserved address ∧ ∀ x, address ≤ x → x < stop → lmb.Available x := by
  constructor
  · intro counts
    rcases counts available with ⟨region, regionMem, covers, low⟩ | ⟨free, other, also, inWord, all⟩
    · exact absurd (reach region regionMem covers) (by omega)
    · rw [← stops.unique also] at all inWord
      exact ⟨inWord, free, all⟩
  · rintro ⟨inWord, free, all⟩ -
    exact .inr ⟨free, stop, stops, inWord, all⟩

end Stops

/-- `lmb_get_free_size` gives the number of consecutive free bytes exactly if there is no hole
between the banks before the place where it stops. -/
theorem freeBytes_iff (availableList : SortedRegions lmb.availableMem)
    (usedList : SortedRegions lmb.usedMem) (addr : BitVec w) :
    lmb.FreeBytes addr.toNat (lmbGetFreeSize lmb addr).toNat ↔ lmb.Counts addr.toNat := by
  by_cases available : lmb.Available addr.toNat
  case neg =>
    have outside := (lmbOverlapsRegion_byte availableList).2 available
    have zero : (lmbGetFreeSize lmb addr).toNat = 0 := by
      simp only [lmbGetFreeSize, outside]
      rfl
    rw [zero]
    refine iff_of_true ⟨?_, .inl available⟩ (fun isAvailable => absurd isAvailable available)
    intro x atLeast below
    omega
  have result : lmbGetFreeSize lmb addr = freeSizeLoop addr lmb.lastBank lmb.usedMem := by
    cases hit : lmbOverlapsRegion lmb.availableMem addr 1 with
    | none => exact absurd available ((lmbOverlapsRegion_byte availableList).1 hit)
    | some i => simp only [lmbGetFreeSize, hit, Lmb.lastBank]
  obtain ⟨bank, bankMem, covers⟩ := id available
  obtain ⟨lastMem, lastTop⟩ := availableList.top_le_last (ne_nil_of_mem bankMem)
  have lastInSpace : InSpace lmb.lastBank.base lmb.lastBank.size := availableList.inSpace _ lastMem
  have belowLast : addr.toNat < lmb.lastBank.top := lt_of_lt_of_le covers.2 (lastTop bank bankMem)
  rcases freeSizeLoop_cases belowLast.le lmb.usedMem usedList with
    ⟨region, regionMem, covers, low, count⟩ | ⟨reach, stop, stops, count⟩
  · rw [result, count]
    refine iff_of_true ⟨fun x atLeast under => ?_, .inr ⟨region, regionMem, covers⟩⟩
      (fun _ => .inl ⟨region, regionMem, covers, low⟩)
    simp at under
    omega
  have stopLe : addr.toNat < stop ∧ stop ≤ 2 ^ w := by
    rcases stops with ⟨region, -, above, rfl, -⟩ | ⟨-, rfl⟩
    · exact ⟨above, region.base.isLt.le⟩
    · exact ⟨belowLast, lastInSpace.end_le⟩
  rw [result, count, stops.counts_iff available reach]
  by_cases inWord : stop - addr.toNat < 2 ^ w
  · rw [mod_eq_of_lt inWord, stops.freeBytes_iff_available availableList usedList stopLe.1,
      and_iff_right inWord]
  -- The count is 0 although the whole address space is free.
  · have whole : stop - addr.toNat = 2 ^ w := by omega
    rw [whole, mod_self]
    refine iff_of_false ?_ fun counts => absurd counts.1 (lt_irrefl _)
    rintro ⟨-, gone | ⟨region, regionMem, covers⟩⟩
    · exact gone available
    have top := reach region regionMem covers
    have low : region.base.toNat ≤ addr.toNat := covers.1
    rw [LmbRegion.top] at top
    omega

def reservedPage : Lmb 32 := ⟨[⟨0x1000, 0x4000, LMB_NONE⟩], [⟨0x3000, 0x1000, LMB_NONE⟩], false⟩

theorem reservedPage_available : SortedRegions reservedPage.availableMem :=
  sortedRegions_singleton ⟨by decide, by decide⟩

theorem reservedPage_used : SortedRegions reservedPage.usedMem :=
  sortedRegions_singleton ⟨by decide, by decide⟩

/-- From 0x2000 on one page is free. -/
theorem freeBytes_iff_page : reservedPage.FreeBytes (0x2000 : BitVec 32).toNat
      (lmbGetFreeSize reservedPage 0x2000).toNat := by
  refine (freeBytes_iff reservedPage_available reservedPage_used 0x2000).2 fun _ => .inr ?_
  refine ⟨?_, 0x3000, .inl ⟨_, mem_singleton_self _, by decide, by decide, ?_⟩, by decide, ?_⟩
  · rintro ⟨region, regionMem, covers⟩
    rw [mem_singleton.1 regionMem] at covers
    exact absurd covers.1 (by decide)
  · intro other otherMem _
    rw [mem_singleton.1 otherMem]
    decide
  intro x atLeast below
  refine ⟨_, mem_singleton_self _, ?_, ?_⟩
  · exact le_trans (by decide) atLeast
  · exact lt_trans below (by decide)

/-- Two banks with a hole between them: the count runs over the hole. -/
theorem lmbGetFreeSize_hole :
    let lmb : Lmb 32 := ⟨[⟨0x1000, 0x1000, LMB_NONE⟩, ⟨0x8000, 0x1000, LMB_NONE⟩], [], false⟩
    lmbGetFreeSize lmb 0x1000 = 0x8000 ∧ ¬ lmb.Available 0x2000 ∧
      ¬ lmb.FreeBytes (0x1000 : BitVec 32).toNat (lmbGetFreeSize lmb 0x1000).toNat := by
  intro lmb
  have count : lmbGetFreeSize lmb 0x1000 = 0x8000 := by decide
  have hole : ¬ lmb.Available 0x2000 := by
    rintro ⟨region, regionMem, low, high⟩
    rcases mem_cons.1 regionMem with rfl | second
    · exact absurd high (by decide)
    · rw [mem_singleton.1 second] at low
      exact absurd low (by decide)
  refine ⟨count, hole, fun counted => ?_⟩
  exact hole (counted.free 0x2000 (by decide) (by decide)).1

end FreeSize

section FixedAddress

variable {env : LmbEnv} {sys : LmbSystem w} {base size : BitVec w} {flags : BitVec 32}

/-- What a caller of `lmb_alloc_addr` relies on: a range that is granted is available, and a
request with a byte that is not is refused and changes nothing. -/
structure OnlyAvailable (env : LmbEnv) (sys : LmbSystem w) (base size : BitVec w)
    (flags : BitVec 32) : Prop where
  inside : (lmbAllocAddr env sys base size flags).1 = 0 →
    ∀ x, base.toNat ≤ x → x < base.toNat + size.toNat → sys.lmb.Available x
  refused : ∀ x, base.toNat ≤ x → x < base.toNat + size.toNat → ¬ sys.lmb.Available x →
    (lmbAllocAddr env sys base size flags).1 ≠ 0 ∧
      (lmbAllocAddr env sys base size flags).2.lmb.usedMem = sys.lmb.usedMem

/-- The range begins outside of the available memory, and the first bank it enters is the one
in which it ends. -/
def Lmb.EntersBank (base size : BitVec w) : Prop :=
  ∃ bank ∈ lmb.availableMem, base.toNat < bank.base.toNat ∧
    (lmbView w).Covers bank (base.toNat + size.toNat - 1) ∧
    ∀ x, base.toNat ≤ x → x < bank.base.toNat → ¬ lmb.Available x

structure FirstMet (rgn : List (LmbRegion w)) (base size : BitVec w) (region : LmbRegion w) :
    Prop where
  mem : region ∈ rgn
  meets : Meets base size region
  first : ∀ other ∈ rgn, Meets base size other → other = region ∨ region.top ≤ other.base.toNat

theorem lmbOverlapsRegion_first {rgn : List (LmbRegion w)} (sorted : SortedRegions rgn)
    (inSpace : InSpace base size) {i : Nat} (found : lmbOverlapsRegion rgn base size = some i) :
    FirstMet rgn base size (rgnAt rgn i) := by
  obtain ⟨mem, meets⟩ := lmbOverlapsRegion_eq_some sorted inSpace found
  refine ⟨mem, meets, fun other otherMem otherMeets => ?_⟩
  rw [lmbOverlapsRegion, findIdx?_eq_some_iff_getElem] at found
  obtain ⟨bound, -, first⟩ := found
  have located : rgnAt rgn i = rgn[i] := getD_eq_getElem _ _ bound
  rw [located]
  obtain ⟨j, jBound, rfl⟩ := getElem_of_mem otherMem
  rcases Nat.lt_trichotomy i j with before | rfl | behind
  · exact .inr (pairwise_iff_getElem.1 sorted.ascending i j bound jBound before)
  · exact .inl rfl
  · have overlap := (lmbAddrsOverlap_iff_meets inSpace
      (sorted.inSpace _ (getElem_mem jBound))).2 otherMeets
    exact absurd overlap (first j behind)

variable {bank : LmbRegion w}

theorem lmbAddrsOverlap_lastByte (inSpace : InSpace base size)
    (bankInSpace : InSpace bank.base bank.size) :
    lmbAddrsOverlap bank.base bank.size (base + size - 1) 1 = true ↔
      (lmbView w).Covers bank (base.toNat + size.toNat - 1) := by
  rw [← inSpace.toNat_last, ← lmbAddrsOverlap_byte bankInSpace, lmbAddrsOverlap,
    lmbAddrsOverlap, Bool.and_comm]

/-- A bank that contains the last byte and is the first one met contains the whole range or
is entered from outside of the available memory. -/
theorem FirstMet.entersBank (firstMet : FirstMet sys.lmb.availableMem base size bank)
    (bankInSpace : InSpace bank.base bank.size)
    (covers : (lmbView w).Covers bank (base.toNat + size.toNat - 1)) {x : Nat}
    (low : base.toNat ≤ x) (high : x < base.toNat + size.toNat)
    (outside : ¬ sys.lmb.Available x) : sys.lmb.EntersBank base size := by
  have bankPos := bankInSpace.pos
  have top : bank.top = bank.base.toNat + bank.size.toNat := rfl
  have bankLow : bank.base.toNat ≤ base.toNat + size.toNat - 1 := covers.1
  have lastBelow : base.toNat + size.toNat - 1 < bank.top := covers.2
  have starts : base.toNat < bank.base.toNat := by
    by_contra startsInside
    exact outside ⟨bank, firstMet.mem, (by omega : bank.base.toNat ≤ x), (by omega : x < bank.top)⟩
  refine ⟨bank, firstMet.mem, starts, covers, ?_⟩
  rintro y atLeast below ⟨other, otherMem, otherLow, otherHigh⟩
  have otherLow : other.base.toNat ≤ y := otherLow
  have otherHigh : y < other.top := otherHigh
  rcases firstMet.first other otherMem ⟨by omega, by omega⟩ with rfl | behind
  · omega
  · omega

theorem FirstMet.eq_of_enters {first : LmbRegion w}
    (firstMet : FirstMet sys.lmb.availableMem base size first)
    (firstInSpace : InSpace first.base first.size) (bankMem : bank ∈ sys.lmb.availableMem)
    (meets : Meets base size bank) (starts : base.toNat < bank.base.toNat)
    (outside : ∀ x, base.toNat ≤ x → x < bank.base.toNat → ¬ sys.lmb.Available x) :
    bank = first := by
  refine (firstMet.first bank bankMem meets).resolve_right fun behind => ?_
  have firstPos := firstInSpace.pos
  have firstHigh := firstMet.meets.1
  have top : first.top = first.base.toNat + first.size.toNat := rfl
  exact outside (max base.toNat first.base.toNat) (by omega) (by omega) ⟨first, firstMet.mem,
    le_max_right _ _, max_lt firstHigh (by omega : first.base.toNat < first.top)⟩

theorem lmbAllocAddr_of_entersBank (availableList : SortedRegions sys.lmb.availableMem)
    (usedList : SortedRegions sys.lmb.usedMem) (served : ∀ i, env.calloc i = true)
    (inSpace : InSpace base size) (enters : sys.lmb.EntersBank base size)
    (can : lmbCanReserveRegion sys.lmb.usedMem base size flags = true) :
    (lmbAllocAddr env sys base size flags).1 = 0 := by
  obtain ⟨bank, bankMem, starts, covers, outside⟩ := enters
  have pos := inSpace.pos
  have bankLow : bank.base.toNat ≤ base.toNat + size.toNat - 1 := covers.1
  have bankHigh : base.toNat + size.toNat - 1 < bank.top := covers.2
  have meets : Meets base size bank := ⟨by omega, by omega⟩
  cases found : lmbOverlapsRegion sys.lmb.availableMem base size with
  | none => exact absurd meets (lmbOverlapsRegion_eq_none availableList inSpace found bank bankMem)
  | some i =>
    have firstMet := lmbOverlapsRegion_first availableList inSpace found
    have isBank := firstMet.eq_of_enters (availableList.inSpace _ firstMet.mem) bankMem meets
      starts outside
    have last := (lmbAddrsOverlap_lastByte inSpace (availableList.inSpace _ bankMem)).2 covers
    rw [isBank] at last
    obtain ⟨usedMem, added⟩ := usedList.exists_add flags fun region regionMem overlap =>
      ⟨inSpace, (lmbCanReserveRegion_iff_overlap.1 can region regionMem overlap).2⟩
    have success := lmbMapUpdateNotify_served (sys.setUsed usedMem) served base size .reserve flags
    simp only [lmbAllocAddr, found, last, lmbReserve, can, added, success, not_true_eq_false,
      if_true, if_false]

/-- `lmb_alloc_addr` keeps to the available memory exactly if the range does not enter a bank
from outside, or is reserved already. -/
theorem onlyAvailable_iff (availableList : SortedRegions sys.lmb.availableMem)
    (usedList : SortedRegions sys.lmb.usedMem) (served : ∀ i, env.calloc i = true)
    (inSpace : InSpace base size) :
    OnlyAvailable env sys base size flags ↔ ¬ (sys.lmb.EntersBank base size ∧
        lmbCanReserveRegion sys.lmb.usedMem base size flags = true) := by
  constructor
  · rintro only ⟨enters, can⟩
    have granted := lmbAllocAddr_of_entersBank availableList usedList served inSpace enters can
    obtain ⟨bank, -, starts, -, outside⟩ := enters
    have pos := inSpace.pos
    exact outside base.toNat le_rfl starts (only.inside granted base.toNat le_rfl (by omega))
  intro guarded
  have refused : ∀ x, base.toNat ≤ x → x < base.toNat + size.toNat → ¬ sys.lmb.Available x →
      (lmbAllocAddr env sys base size flags).1 ≠ 0 ∧
        (lmbAllocAddr env sys base size flags).2.lmb.usedMem = sys.lmb.usedMem := by
    intro x low high outside
    cases found : lmbOverlapsRegion sys.lmb.availableMem base size with
    | none => simp [lmbAllocAddr, found]
    | some i =>
      have firstMet := lmbOverlapsRegion_first availableList inSpace found
      have bankInSpace := availableList.inSpace _ firstMet.mem
      by_cases last : lmbAddrsOverlap (rgnAt sys.lmb.availableMem i).base
          (rgnAt sys.lmb.availableMem i).size (base + size - 1) 1 = true
      · have covers := (lmbAddrsOverlap_lastByte inSpace bankInSpace).1 last
        have enters := firstMet.entersBank bankInSpace covers low high outside
        have cannot : ¬ lmbCanReserveRegion sys.lmb.usedMem base size flags = true :=
          fun can => guarded ⟨enters, can⟩
        have notGranted : (-EEXIST : Int) ≠ 0 := by decide
        have reserved : lmbReserve env sys base size flags = (-EEXIST, sys) := if_pos cannot
        simp only [lmbAllocAddr, found, if_pos last, reserved, if_neg notGranted]
        exact ⟨by decide, trivial⟩
      · simp only [lmbAllocAddr, found, if_neg last]
        exact ⟨by decide, trivial⟩
  refine ⟨fun granted x low high => ?_, refused⟩
  by_contra outside
  exact (refused x low high outside).1 granted

/-- A page inside of the bank. -/
theorem onlyAvailable_iff_page :
    OnlyAvailable ⟨true, fun _ => true⟩ ⟨reservedPage, ⟨[], 0⟩⟩ 0x2000 0x1000 LMB_NONE := by
  refine (onlyAvailable_iff reservedPage_available reservedPage_used (fun _ => rfl)
    ⟨by decide, by decide⟩).2 ?_
  rintro ⟨⟨bank, bankMem, starts, -⟩, -⟩
  rw [mem_singleton.1 bankMem] at starts
  exact absurd starts (by decide)

/-- Two pages of which the first one lies in front of the only bank. -/
theorem lmbAllocAddr_inFront : ¬ reservedPage.Available 0 ∧
      (lmbAllocAddr ⟨false, fun _ => true⟩ ⟨reservedPage, ⟨[], 0⟩⟩ 0 0x2000 LMB_NONE).1 = 0 ∧
      ¬ OnlyAvailable ⟨false, fun _ => true⟩ ⟨reservedPage, ⟨[], 0⟩⟩ 0 0x2000 LMB_NONE := by
  have outside : ¬ reservedPage.Available 0 := by
    rintro ⟨bank, bankMem, low, -⟩
    rw [mem_singleton.1 bankMem] at low
    exact absurd low (by decide)
  have granted :
      (lmbAllocAddr ⟨false, fun _ => true⟩ ⟨reservedPage, ⟨[], 0⟩⟩ 0 0x2000 LMB_NONE).1 = 0 := by
    decide
  exact ⟨outside, granted, fun only => outside (only.inside granted 0 (by decide) (by decide))⟩

end FixedAddress

end UBoot
