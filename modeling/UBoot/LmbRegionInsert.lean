import UBoot.LmbRegionMerge

/-!
# Adding a region to a list

`lmb_add_region_flags` extends, merges or inserts, depending on the regions
around the request.  Whatever it does, the outcome has one shape: a run of
regions with the flags of the request is replaced by a single region that
covers the run and the request.  The one exception is a request that ends at a
region with other flags which is itself followed by an unmerged region of the
same flags: there the function merges those two and forgets the request.
-/

namespace UBoot

open List LmbRegion SpanView

variable {w : Nat}

def Separated (rgn : List (LmbRegion w)) : Prop :=
  rgn.Pairwise fun first second =>
    first.flags = second.flags → first.top ≠ second.base.toNat

def Meets (base size : BitVec w) (region : LmbRegion w) : Prop :=
  base.toNat < region.top ∧ region.base.toNat < base.toNat + size.toNat

instance (base size : BitVec w) (region : LmbRegion w) : Decidable (Meets base size region) :=
  inferInstanceAs (Decidable (_ ∧ _))

def Compatible (rgn : List (LmbRegion w)) (base size : BitVec w) (flags : BitVec 32) : Prop :=
  ∀ region ∈ rgn, Meets base size region → flags = LMB_NONE ∧ region.flags = LMB_NONE

/-- The shape in which `lmb_add_region_flags` loses the request: it ends where
a region of other flags begins, that region is directly followed by an
unmerged region of the same flags, and nothing else takes the request up. -/
def Swallows (rgn : List (LmbRegion w)) (base size : BitVec w) (flags : BitVec 32) : Prop :=
  (∃ first ∈ rgn, first.base.toNat = base.toNat + size.toNat ∧ first.flags ≠ flags ∧
    ∃ second ∈ rgn, second.base.toNat = first.top ∧ second.flags = first.flags) ∧
  (∀ region ∈ rgn, ¬ Meets base size region) ∧
  ∀ region ∈ rgn, region.top = base.toNat → region.flags ≠ flags

instance (rgn : List (LmbRegion w)) (base size : BitVec w)
    (flags : BitVec 32) : Decidable (Swallows rgn base size flags) :=
  inferInstanceAs (Decidable (_ ∧ _ ∧ _))

/-- A run of regions with the flags of the request replaced by one region that
covers the run and the request. -/
structure Growth (rgn : List (LmbRegion w)) (base size : BitVec w)
    (flags : BitVec 32) where
  before : List (LmbRegion w)
  block : List (LmbRegion w)
  after : List (LmbRegion w)
  region : LmbRegion w
  source : rgn = before ++ (block ++ after)
  regionFlags : region.flags = flags
  blockFlags : ∀ other ∈ block, other.flags = flags
  fits : Fits region.base region.size
  covers : ∀ address, (lmbView w).Covers region address ↔
    (base.toNat ≤ address ∧ address < base.toNat + size.toNat) ∨
      ∃ other ∈ block, (lmbView w).Covers other address
  below : ∀ other ∈ before, other.top ≤ region.base.toNat
  separateBefore : (∀ other ∈ rgn, ¬ Meets base size other) →
    Separated rgn → ∀ other ∈ before, other.flags = flags → other.top ≠ region.base.toNat

def Growth.result {rgn : List (LmbRegion w)} {base size : BitVec w}
    {flags : BitVec 32} (growth : Growth rgn base size flags) :
    List (LmbRegion w) :=
  growth.before ++ growth.region :: growth.after

structure Absorption (rgn : List (LmbRegion w)) (base size : BitVec w)
    (flags : BitVec 32) extends Growth rgn base size flags where
  above : ∀ other ∈ after, region.top ≤ other.base.toNat
  separateAfter : (∀ other ∈ rgn, ¬ Meets base size other) →
    Separated rgn → ∀ other ∈ after, other.flags = flags → region.top ≠ other.base.toNat

variable {rgn : List (LmbRegion w)} {base size : BitVec w} {flags : BitVec 32}

namespace Absorption

variable (absorption : Absorption rgn base size flags)

include absorption

theorem wellFormed (rgnWellFormed : WellFormed rgn) : WellFormed absorption.result := by
  obtain ⟨⟨before, block, after, region, rfl, -, -, fits, -, below, -⟩, above, -⟩ := absorption
  refine WellFormed.append_cons (rgnWellFormed.sublist ?_) fits below above
  exact List.Sublist.append_left (sublist_append_right _ _) _

/-- The request is recorded with its flags and every other address keeps what
it had. -/
theorem flagsAt_result (rgnWellFormed : WellFormed rgn) (address : Nat) :
    flagsAt absorption.result address =
      if base.toNat ≤ address ∧ address < base.toNat + size.toNat then some flags
      else flagsAt rgn address := by
  have resultApart := (absorption.wellFormed rgnWellFormed).apart
  revert resultApart
  obtain ⟨⟨before, block, after, region, rfl, rfl, blockFlags, -, covers, -, -⟩, -, -⟩ := absorption
  intro resultApart
  simp only [Growth.result, flagsAt] at resultApart ⊢
  have covers := covers address
  by_cases inRegion : (lmbView w).Covers region address
  · have found : (lmbView w).labelAt (before ++ region :: after) address = some region.flags :=
      resultApart.labelAt_of_mem (by simp) inRegion
    rw [found]
    split_ifs with inRequest
    · rfl
    · obtain ⟨other, otherMem, otherCovers⟩ := (covers.1 inRegion).resolve_left inRequest
      rw [← blockFlags other otherMem]
      exact (rgnWellFormed.apart.labelAt_of_mem (by simp [otherMem]) otherCovers).symm
  · have outside : ¬ (base.toNat ≤ address ∧ address < base.toNat + size.toNat) :=
      fun inRequest => inRegion (covers.2 (Or.inl inRequest))
    have blockOutside : (lmbView w).labelAt block address = none :=
      labelAt_eq_none_iff.2 fun other otherMem otherCovers =>
        inRegion (covers.2 (Or.inr ⟨other, otherMem, otherCovers⟩))
    rw [if_neg outside]
    simp [labelAt_append, blockOutside, labelAt_cons_of_not_covers inRegion]

theorem separated (free : ∀ other ∈ rgn, ¬ Meets base size other) (rgnSeparated : Separated rgn) :
    Separated absorption.result := by
  obtain ⟨⟨before, block, after, region, rfl, rfl, -, -, -, -, separateBefore⟩,
    -, separateAfter⟩ := absorption
  obtain ⟨beforeSeparated, restSeparated, across⟩ := pairwise_append.1 rgnSeparated
  obtain ⟨-, afterSeparated, -⟩ := pairwise_append.1 restSeparated
  refine pairwise_append.2 ⟨beforeSeparated, pairwise_cons.2 ⟨?_, afterSeparated⟩, ?_⟩
  · intro other otherMem sameFlags
    exact separateAfter free rgnSeparated other otherMem sameFlags.symm
  intro other otherMem next nextMem sameFlags
  rcases mem_cons.1 nextMem with rfl | inAfter
  · exact separateBefore free rgnSeparated other otherMem sameFlags
  · exact across other otherMem next (mem_append_right _ inAfter) sameFlags

end Absorption

def Growth.extend (growth : Growth rgn base size flags)
    (hit rest : List (LmbRegion w)) (merged : LmbRegion w)
    (split : growth.after = hit ++ rest)
    (mergedFlags : merged.flags = flags)
    (hitFlags : ∀ other ∈ hit, other.flags = flags)
    (fits : Fits merged.base merged.size)
    (sameBase : merged.base.toNat = growth.region.base.toNat)
    (covers : ∀ address, (lmbView w).Covers merged address ↔
      (lmbView w).Covers growth.region address ∨ ∃ other ∈ hit, (lmbView w).Covers other address)
    (above : ∀ other ∈ rest, merged.top ≤ other.base.toNat)
    (separateAfter : (∀ other ∈ rgn, ¬ Meets base size other) →
      Separated rgn → ∀ other ∈ rest, other.flags = flags → merged.top ≠ other.base.toNat) :
    Absorption rgn base size flags where
  before := growth.before
  block := growth.block ++ hit
  after := rest
  region := merged
  source := by
    rw [List.append_assoc, ← split]
    exact growth.source
  regionFlags := mergedFlags
  blockFlags := by
    intro other otherMem
    rcases List.mem_append.1 otherMem with inBlock | inHit
    · exact growth.blockFlags other inBlock
    · exact hitFlags other inHit
  fits := fits
  covers := by
    intro address
    rw [covers, growth.covers, or_assoc]
    simp [or_and_right, exists_or]
  below := by
    rw [sameBase]
    exact growth.below
  separateBefore := by
    rw [sameBase]
    exact growth.separateBefore
  above := above
  separateAfter := separateAfter

theorem Growth.separated_after (growth : Growth rgn base size flags)
    (separated : Separated rgn) : Separated growth.after := by
  have source := growth.source
  rw [source] at separated
  exact (pairwise_append.1 (pairwise_append.1 separated).2.1).2.1

section Growth

variable (growth : Growth rgn base size flags) (afterWellFormed : WellFormed growth.after)

include growth afterWellFormed

variable {rest : List (LmbRegion w)}

theorem Growth.rest_after {next : LmbRegion w} (split : growth.after = next :: rest) :
    Fits next.base next.size ∧ ∀ other ∈ rest, next.top ≤ other.base.toNat := by
  rw [split] at afterWellFormed
  exact ⟨afterWellFormed.fits next mem_cons_self, (pairwise_cons.1 afterWellFormed.ascending).1⟩

/-- A growth that ends before the next region, or next to one of other flags,
is left as it is. -/
theorem coalesceNext_growth_apart (coalesced : Nat)
    (apart : ∀ next ∈ growth.after.head?, growth.region.top ≤ next.base.toNat ∧
      (growth.region.flags ≠ next.flags ∨ growth.region.top < next.base.toNat)) :
    ∃ absorption : Absorption rgn base size flags,
      coalesceNext ⟨growth.result, growth.before.length, coalesced⟩ =
        some ⟨absorption.result, growth.before.length, coalesced⟩ := by
  have unchanged := coalesceNext_of_apart growth.before coalesced growth.fits afterWellFormed (by
      intro next nextHead
      obtain ⟨ends, separate⟩ := apart next nextHead
      refine ⟨?_, separate⟩
      rw [top] at ends
      omega)
  have bounds : ∀ other ∈ growth.after, growth.region.top ≤ other.base.toNat ∧
        (other.flags = flags → growth.region.top ≠ other.base.toNat) := by
    intro other otherMem
    cases split : growth.after with
    | nil => simp [split] at otherMem
    | cons next rest =>
      obtain ⟨nextFits, restAfter⟩ := growth.rest_after afterWellFormed split
      obtain ⟨ends, separate⟩ := apart next (by simp [split])
      rw [split] at otherMem
      rcases mem_cons.1 otherMem with rfl | inRest
      · refine ⟨ends, fun sameFlags => ?_⟩
        rcases separate with differ | less
        · exact absurd (growth.regionFlags.trans sameFlags.symm) differ
        · omega
      have nextPos := nextFits.pos
      have ordered := restAfter other inRest
      simp only [top] at ordered ends ⊢
      omega
  let absorption := growth.extend [] growth.after growth.region rfl
    growth.regionFlags (by simp) growth.fits rfl (by simp)
    (fun other otherMem => (bounds other otherMem).1)
    (fun _ _ other otherMem => (bounds other otherMem).2)
  exact ⟨absorption, unchanged⟩

/-- A growth that ends where a region of the same flags begins takes that
region in. -/
theorem coalesceNext_growth_touching (coalesced : Nat) {next : LmbRegion w}
    (split : growth.after = next :: rest) (sameFlags : growth.region.flags = next.flags)
    (touching : growth.region.top = next.base.toNat) :
    ∃ absorption : Absorption rgn base size flags,
      coalesceNext ⟨growth.result, growth.before.length, coalesced⟩ =
        some ⟨absorption.result, growth.before.length, coalesced + 1⟩ := by
  obtain ⟨nextFits, restAfter⟩ := growth.rest_after afterWellFormed split
  obtain ⟨mergedTop, mergedSize⟩ := top_coalesced nextFits touching
  have nextFlags : next.flags = flags := sameFlags.symm.trans growth.regionFlags
  have regionPos := growth.fits.pos
  let merged : LmbRegion w :=
    { growth.region with size := growth.region.size + next.size }
  have mergedFits : Fits merged.base merged.size := by
    constructor
    · change 0 < (growth.region.size + next.size).toNat
      rw [BitVec.toNat_add_of_lt mergedSize]
      omega
    · change merged.top < 2 ^ w
      rw [mergedTop]
      exact nextFits.noWrap
  let absorption := growth.extend [next] rest merged split
    growth.regionFlags (by simpa using nextFlags) mergedFits rfl
    (by
      intro address
      simp only [lmbView_covers, mergedTop, merged, mem_singleton, exists_eq_left]
      simp only [top] at touching ⊢
      omega)
    (by
      rw [mergedTop]
      exact restAfter)
    (by
      intro _ separated other otherMem otherFlags
      have after := growth.separated_after separated
      rw [split] at after
      rw [mergedTop]
      exact (pairwise_cons.1 after).1 other otherMem (nextFlags.trans otherFlags.symm))
  refine ⟨absorption, ?_⟩
  rw [Growth.result, split, coalesceNext_of_touching coalesced growth.fits
    nextFits sameFlags touching]
  rfl

variable (ordered : ∀ other ∈ growth.after, growth.region.base.toNat ≤ other.base.toNat)
  (compatible : ∀ other ∈ growth.after, other.base.toNat < growth.region.top →
    flags = LMB_NONE ∧ other.flags = LMB_NONE)

include ordered compatible

/-- A growth that reaches into the following regions takes them in, provided
that neither they nor the request carry flags. -/
theorem coalesceNext_growth_overlap (coalesced : Nat) {next : LmbRegion w}
    (split : growth.after = next :: rest)
    (overlapping : next.base.toNat < growth.region.top)
    (met : ∃ other ∈ rgn, Meets base size other) :
    ∃ absorption : Absorption rgn base size flags,
      coalesceNext ⟨growth.result, growth.before.length, coalesced⟩ =
        some ⟨absorption.result, growth.before.length, coalesced + 1⟩ := by
  have nextMem : next ∈ growth.after := by simp [split]
  obtain ⟨noFlags, nextNoFlags⟩ := compatible next nextMem overlapping
  have regionNoFlags := growth.regionFlags.trans noFlags
  have regionPos := growth.fits.pos
  obtain ⟨hit, after, merged, restSplit, resized, mergedFlags, mergedFits,
    mergedBase, hitFlags, covers, above⟩ :=
    lmbResizeRegions_spec growth.before growth.fits growth.fits
      afterWellFormed ⟨by omega, by rw [top]; omega⟩
      (by
        intro other otherMem
        have otherOrdered := ordered other otherMem
        have otherPos := (afterWellFormed.fits other otherMem).pos
        refine ⟨?_, otherOrdered, Or.inr le_rfl⟩
        rw [top]
        omega)
      regionNoFlags
      (fun other otherMem low => (compatible other otherMem low).2)
  let absorption := growth.extend hit after merged restSplit (mergedFlags.trans noFlags.symm)
    (fun other otherMem => (hitFlags other otherMem).trans noFlags.symm)
    mergedFits (by omega)
    (by
      intro address
      rw [covers, ← or_assoc]
      exact or_congr_left or_self_iff)
    above
    (by
      intro free
      obtain ⟨other, otherMem, meets⟩ := met
      exact absurd meets (free other otherMem))
  refine ⟨absorption, ?_⟩
  rw [split] at resized
  rw [Growth.result, split, coalesceNext_of_overlap coalesced growth.fits
    (afterWellFormed.fits next nextMem) (regionNoFlags.trans nextNoFlags.symm)
    (ordered next nextMem) overlapping, resized]
  rfl

/-- The second step of `lmb_add_region_flags`, applied to the region the first
loop grew, takes in the following regions that the grown region reaches. -/
theorem coalesceNext_growth (coalesced : Nat)
    (met : ∀ other ∈ growth.after, other.base.toNat < growth.region.top →
      ∃ other ∈ rgn, Meets base size other) :
    ∃ absorption : Absorption rgn base size flags, ∃ count,
      coalesceNext ⟨growth.result, growth.before.length, coalesced⟩ =
        some ⟨absorption.result, growth.before.length, coalesced + count⟩ := by
  cases split : growth.after with
  | nil =>
    obtain ⟨absorption, equality⟩ := coalesceNext_growth_apart growth afterWellFormed
      coalesced (by simp [split])
    exact ⟨absorption, 0, equality⟩
  | cons next rest =>
    have nextMem : next ∈ growth.after := by simp [split]
    rcases lt_trichotomy growth.region.top next.base.toNat with less | equal | greater
    · obtain ⟨absorption, equality⟩ := coalesceNext_growth_apart growth afterWellFormed
        coalesced (by simpa [split] using ⟨less.le, Or.inr less⟩)
      exact ⟨absorption, 0, equality⟩
    · by_cases sameFlags : growth.region.flags = next.flags
      · obtain ⟨absorption, equality⟩ := coalesceNext_growth_touching growth
          afterWellFormed coalesced split sameFlags equal
        exact ⟨absorption, 1, equality⟩
      · obtain ⟨absorption, equality⟩ := coalesceNext_growth_apart growth afterWellFormed coalesced
          (by simpa [split] using ⟨equal.le, Or.inl sameFlags⟩)
        exact ⟨absorption, 0, equality⟩
    · obtain ⟨absorption, equality⟩ := coalesceNext_growth_overlap growth afterWellFormed
        ordered compatible coalesced split greater (met next nextMem greater)
      exact ⟨absorption, 1, equality⟩

end Growth

end UBoot
