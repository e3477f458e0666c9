import UBoot.EfiMemoryMap
import UBoot.SpanList

/-!
# The EFI memory map as a page map

A descriptor of whole pages is a span of page numbers labelled with its type
and attribute, and a list of such descriptors is a partial function on pages.
This file states the invariant of the list and shows what the carve loop does
to that function: it only ever removes pages of the carved range, and when it
runs to its end it has removed all of them.
-/

namespace UBoot

open List Option BitVec SpanView

/-- A descriptor of whole pages whose end, as `desc_get_end` computes it, lies
above its start. -/
structure EfiMemDesc.Valid (desc : EfiMemDesc) : Prop where
  aligned : 4096 ∣ desc.physicalStart.toNat
  pages : desc.numPages.toNat < 2 ^ 52
  nonempty : desc.physicalStart < descGetEnd desc

instance (desc : EfiMemDesc) : Decidable desc.Valid :=
  decidable_of_iff (4096 ∣ desc.physicalStart.toNat ∧ desc.numPages.toNat < 2 ^ 52 ∧
      desc.physicalStart < descGetEnd desc)
    ⟨fun ⟨aligned, pages, nonempty⟩ => ⟨aligned, pages, nonempty⟩,
      fun valid => ⟨valid.aligned, valid.pages, valid.nonempty⟩⟩

def EfiMemDesc.firstPage (desc : EfiMemDesc) : Nat := desc.physicalStart.toNat / 4096

def EfiMemDesc.endPage (desc : EfiMemDesc) : Nat := desc.firstPage + desc.numPages.toNat

def efiView : SpanView EfiMemDesc (BitVec 32 × BitVec 64) where
  lo desc := desc.firstPage
  hi desc := desc.endPage
  label desc := (desc.type, desc.attrib)

def pageAt (efiMem : List EfiMemDesc) (page : Nat) : Option (BitVec 32 × BitVec 64) :=
  efiView.labelAt efiMem page

/-- The invariant of the memory map: valid descriptors, highest address first,
that share no page. -/
structure EfiWellFormed (efiMem : List EfiMemDesc) : Prop where
  valid : ∀ desc ∈ efiMem, desc.Valid
  descending : efiView.Descending efiMem

instance (efiMem : List EfiMemDesc) : Decidable (EfiWellFormed efiMem) :=
  decidable_of_iff ((∀ desc ∈ efiMem, desc.Valid) ∧
      efiMem.Pairwise fun first second => efiView.hi second ≤ efiView.lo first)
    ⟨fun ⟨valid, descending⟩ => ⟨valid, descending⟩,
      fun wellFormed => ⟨wellFormed.valid, wellFormed.descending⟩⟩

theorem efiView_covers {desc : EfiMemDesc} {page : Nat} :
    efiView.Covers desc page ↔ desc.firstPage ≤ page ∧ page < desc.endPage :=
  Iff.rfl

theorem toNat_shiftLeft_pageShift {pages : BitVec 64} (small : pages.toNat < 2 ^ 52) :
    (pages <<< EFI_PAGE_SHIFT).toNat = 4096 * pages.toNat := by
  simp only [EFI_PAGE_SHIFT, toNat_shiftLeft, Nat.shiftLeft_eq]
  omega

namespace EfiMemDesc

variable {desc : EfiMemDesc}

theorem Valid.toNat_physicalStart (valid : desc.Valid) :
    desc.physicalStart.toNat = 4096 * desc.firstPage := by
  have aligned := valid.aligned
  rw [firstPage]
  omega

theorem Valid.toNat_descGetEnd (valid : desc.Valid) :
    (descGetEnd desc).toNat = 4096 * desc.endPage := by
  have start := valid.toNat_physicalStart
  have size := toNat_shiftLeft_pageShift valid.pages
  have nonempty := valid.nonempty
  rw [lt_def] at nonempty
  rw [descGetEnd, toNat_add] at nonempty ⊢
  rw [endPage]
  omega

theorem Valid.firstPage_lt_endPage (valid : desc.Valid) : desc.firstPage < desc.endPage := by
  have start := valid.toNat_physicalStart
  have stop := valid.toNat_descGetEnd
  have nonempty := valid.nonempty
  rw [lt_def] at nonempty
  omega

theorem valid_of_pages {first count : Nat} (start : desc.physicalStart.toNat = 4096 * first)
    (size : desc.numPages.toNat = count) (pos : 0 < count)
    (noWrap : 4096 * (first + count) < 2 ^ 64) : desc.Valid := by
  have small : desc.numPages.toNat < 2 ^ 52 := by omega
  have shifted := toNat_shiftLeft_pageShift small
  refine ⟨by omega, small, ?_⟩
  rw [lt_def, descGetEnd, toNat_add]
  omega

theorem Valid.endPage_lt (valid : desc.Valid) : desc.endPage < 2 ^ 52 := by
  have stop := valid.toNat_descGetEnd
  omega

theorem Valid.fromAddr (valid : desc.Valid) {start : BitVec 64} {page : Nat}
    (startPage : start.toNat = 4096 * page) (high : page < desc.endPage) :
    (desc.fromAddr start).Valid ∧ (desc.fromAddr start).firstPage = page ∧
      (desc.fromAddr start).endPage = desc.endPage := by
  have stop := valid.toNat_descGetEnd
  have le : start ≤ descGetEnd desc := by
    rw [le_def]
    omega
  have count : (desc.fromAddr start).numPages.toNat = desc.endPage - page := by
    simp only [EfiMemDesc.fromAddr, EFI_PAGE_SHIFT, toNat_ushiftRight,
      toNat_sub_of_le le, Nat.shiftRight_eq_div_pow]
    omega
  have first : (desc.fromAddr start).firstPage = page := by
    simp only [firstPage, EfiMemDesc.fromAddr]
    omega
  refine ⟨valid_of_pages startPage count (by omega) (by omega), first, ?_⟩
  rw [endPage, first, count]
  omega

theorem Valid.upToAddr (valid : desc.Valid) {stop : BitVec 64} {page : Nat}
    (stopPage : stop.toNat = 4096 * page) (low : desc.firstPage < page) :
    (desc.upToAddr stop).Valid ∧ (desc.upToAddr stop).firstPage = desc.firstPage ∧
      (desc.upToAddr stop).endPage = page := by
  have start := valid.toNat_physicalStart
  have le : desc.physicalStart ≤ stop := by
    rw [le_def]
    omega
  have count : (desc.upToAddr stop).numPages.toNat = page - desc.firstPage := by
    simp only [EfiMemDesc.upToAddr, EFI_PAGE_SHIFT, toNat_ushiftRight,
      toNat_sub_of_le le, Nat.shiftRight_eq_div_pow]
    omega
  have first : (desc.upToAddr stop).firstPage = desc.firstPage := rfl
  refine ⟨valid_of_pages start count (by omega) (by omega), first, ?_⟩
  rw [endPage, first, count]
  omega

end EfiMemDesc

namespace EfiWellFormed

variable {efiMem before after : List EfiMemDesc} {map : EfiMemDesc}

theorem apart (wellFormed : EfiWellFormed efiMem) : efiView.Apart efiMem :=
  wellFormed.descending.apart

variable (wellFormed : EfiWellFormed (before ++ map :: after))

include wellFormed

theorem replace {pieces : List EfiMemDesc} (valid : ∀ piece ∈ pieces, piece.Valid)
    (inside : ∀ piece ∈ pieces, map.firstPage ≤ piece.firstPage ∧ piece.endPage ≤ map.endPage)
    (descending : efiView.Descending pieces) :
    EfiWellFormed (before ++ (pieces ++ after)) := by
  refine ⟨?_, wellFormed.descending.replace inside descending⟩
  intro desc descMem
  rcases mem_append.1 descMem with inBefore | inRest
  · exact wellFormed.valid desc (mem_append_left _ inBefore)
  · rcases mem_append.1 inRest with inPieces | inAfter
    · exact valid desc inPieces
    · exact wellFormed.valid desc (mem_append_right _ (mem_cons_of_mem _ inAfter))

theorem pageAt_replace (pieces : List EfiMemDesc)
    (inside : ∀ piece ∈ pieces, map.firstPage ≤ piece.firstPage ∧ piece.endPage ≤ map.endPage)
    (page : Nat) :
    pageAt (before ++ (pieces ++ after)) page =
      if efiView.Covers map page then pageAt pieces page
      else pageAt (before ++ map :: after) page :=
  wellFormed.apart.labelAt_replace pieces inside page

theorem pageAt_of_covers {page : Nat} (covers : efiView.Covers map page) :
    pageAt (before ++ map :: after) page = some (map.type, map.attrib) :=
  wellFormed.apart.labelAt_of_mem (by simp) covers

end EfiWellFormed

/-- The carved range as `efi_mem_carve_out` computes it, in pages.  The end may
have wrapped around and lie below the start. -/
structure CarveRange (carveDesc : EfiMemDesc) (lo hi : Nat) : Prop where
  start : carveDesc.physicalStart.toNat = 4096 * lo
  stop : (descGetEnd carveDesc).toNat = 4096 * hi

/-- The list describes the same pages as before except for pages of the carved
range that are gone. -/
structure CarvedFrom (lo hi : Nat) (efiMem result : List EfiMemDesc) : Prop where
  wellFormed : EfiWellFormed result
  pages : ∀ page, pageAt result page = pageAt efiMem page ∨
    (lo ≤ page ∧ page < hi) ∧ pageAt result page = none

variable {lo hi : Nat}

namespace CarvedFrom

variable {first second third : List EfiMemDesc}

theorem refl (wellFormed : EfiWellFormed first) : CarvedFrom lo hi first first :=
  ⟨wellFormed, fun _ => .inl rfl⟩

theorem trans (carved : CarvedFrom lo hi first second)
    (again : CarvedFrom lo hi second third) : CarvedFrom lo hi first third := by
  refine ⟨again.wellFormed, fun page => ?_⟩
  rcases again.pages page with same | gone
  · rcases carved.pages page with same' | ⟨inRange, gone⟩
    · exact .inl (same.trans same')
    · exact .inr ⟨inRange, same.trans gone⟩
  · exact .inr gone

theorem pageAt_eq_none (carved : CarvedFrom lo hi first second) {page : Nat}
    (gone : pageAt first page = none) : pageAt second page = none := by
  rcases carved.pages page with same | ⟨-, gone'⟩
  · exact same.trans gone
  · exact gone'

/-- Replacing a descriptor by pieces that keep its label and leave out pages of
the carved range only. -/
theorem of_replace {before after pieces : List EfiMemDesc} {map : EfiMemDesc}
    (wellFormed : EfiWellFormed (before ++ map :: after))
    (valid : ∀ piece ∈ pieces, piece.Valid)
    (inside : ∀ piece ∈ pieces, map.firstPage ≤ piece.firstPage ∧ piece.endPage ≤ map.endPage)
    (descending : efiView.Descending pieces)
    (sameLabel : ∀ piece ∈ pieces, efiView.label piece = efiView.label map)
    (kept : ∀ page, efiView.Covers map page →
      (∃ piece ∈ pieces, efiView.Covers piece page) ∨ lo ≤ page ∧ page < hi) :
    CarvedFrom lo hi (before ++ map :: after) (before ++ (pieces ++ after)) := by
  refine ⟨wellFormed.replace valid inside descending, fun page => ?_⟩
  rw [wellFormed.pageAt_replace pieces inside]
  by_cases covers : efiView.Covers map page
  · rw [if_pos covers, wellFormed.pageAt_of_covers covers]
    cases found : pageAt pieces page with
    | none =>
      rw [pageAt, labelAt_eq_none_iff] at found
      rcases kept page covers with ⟨piece, pieceMem, pieceCovers⟩ | inRange
      · exact absurd pieceCovers (found piece pieceMem)
      · exact .inr ⟨inRange, rfl⟩
    | some label =>
      obtain ⟨piece, pieceMem, -, rfl⟩ := exists_of_labelAt_eq_some found
      exact .inl (congrArg some (sameLabel piece pieceMem))
  · exact .inl (if_neg covers)

end CarvedFrom

section Carve

variable {carveDesc map : EfiMemDesc} {before after efiMem result : List EfiMemDesc}
  {overlapConventional callocOk : Bool} {calloc : Nat → Bool}

section Range

variable (range : CarveRange carveDesc lo hi)

include range

theorem CarveRange.overlaps_iff (valid : map.Valid) :
    carveDesc.Overlaps map ↔ map.firstPage < hi ∧ lo < map.endPage := by
  rw [EfiMemDesc.Overlaps, lt_def, lt_def, range.start, range.stop,
    valid.toNat_physicalStart, valid.toNat_descGetEnd]
  omega

/-- Carving an entry that begins inside the range removes the pages it shares
with the range. -/
theorem carvedFrom_start (wellFormed : EfiWellFormed (before ++ map :: after))
    (overlaps : carveDesc.Overlaps map) (carvable : map.Carvable overlapConventional)
    (inside : carveDesc.physicalStart ≤ map.physicalStart) :
    ∃ pages entries, efiMemCarveOut callocOk map carveDesc overlapConventional =
        (.carved pages, entries) ∧
      CarvedFrom lo hi (before ++ map :: after) (before ++ (entries ++ after)) ∧
      pageAt (before ++ (entries ++ after)) map.firstPage = none := by
  have valid := wellFormed.valid map (by simp)
  obtain ⟨low, high⟩ := (range.overlaps_iff valid).1 overlaps
  have covered : efiView.Covers map map.firstPage := ⟨le_rfl, valid.firstPage_lt_endPage⟩
  rw [efiMemCarveOut_start overlaps carvable inside]
  rw [le_def, range.start, valid.toNat_physicalStart] at inside
  have shorterIff : descGetEnd carveDesc < descGetEnd map ↔ hi < map.endPage := by
    rw [lt_def, range.stop, valid.toNat_descGetEnd]
    omega
  split_ifs with shorter
  · rw [shorterIff] at shorter
    obtain ⟨tailValid, first, stop⟩ := valid.fromAddr range.stop shorter
    refine ⟨_, _, rfl, ?_⟩
    have pieceInside : ∀ piece ∈ [map.fromAddr (descGetEnd carveDesc)],
        map.firstPage ≤ piece.firstPage ∧ piece.endPage ≤ map.endPage := by
      simp only [mem_singleton, forall_eq, first, stop]
      omega
    refine ⟨CarvedFrom.of_replace wellFormed (by simpa using tailValid)
      pieceInside (pairwise_singleton _ _) (by simp; rfl) ?_, ?_⟩
    · intro page covers
      simp only [efiView_covers, mem_singleton, exists_eq_left, first, stop] at covers ⊢
      omega
    · rw [wellFormed.pageAt_replace _ pieceInside, if_pos covered, pageAt, labelAt_eq_none_iff]
      simp only [efiView_covers, mem_singleton, forall_eq, first]
      omega
  · rw [shorterIff] at shorter
    refine ⟨_, _, rfl, CarvedFrom.of_replace wellFormed (by simp) (by simp)
      List.Pairwise.nil (by simp) ?_, ?_⟩
    · intro page covers
      rw [efiView_covers] at covers
      omega
    · rw [wellFormed.pageAt_replace [] (by simp), if_pos covered]
      rfl

theorem carvedFrom_split (wellFormed : EfiWellFormed (before ++ map :: after))
    (overlaps : carveDesc.Overlaps map) (below : map.firstPage < lo) :
    CarvedFrom lo hi (before ++ map :: after) (before ++ ([map.fromAddr carveDesc.physicalStart,
        map.upToAddr carveDesc.physicalStart] ++ after)) := by
  have valid := wellFormed.valid map (by simp)
  obtain ⟨-, high⟩ := (range.overlaps_iff valid).1 overlaps
  obtain ⟨upperValid, upperFirst, upperEnd⟩ := valid.fromAddr range.start high
  obtain ⟨lowerValid, lowerFirst, lowerEnd⟩ := valid.upToAddr range.start below
  apply CarvedFrom.of_replace wellFormed
  · simpa using ⟨upperValid, lowerValid⟩
  · simp only [mem_cons, not_mem_nil, or_false, forall_eq_or_imp,
      forall_eq, upperFirst, upperEnd, lowerFirst, lowerEnd]
    omega
  · simp only [SpanView.Descending, pairwise_pair]
    exact (lowerEnd.trans upperFirst.symm).le
  · simp only [mem_cons, not_mem_nil, or_false, forall_eq_or_imp, forall_eq]
    exact ⟨rfl, rfl⟩
  intro page covers
  simp only [efiView_covers, mem_cons, not_mem_nil, or_false,
    exists_eq_or_imp, exists_eq_left, upperFirst, upperEnd, lowerFirst,
    lowerEnd] at covers ⊢
  omega

theorem carvedFrom_carveWalk (wellFormed : EfiWellFormed efiMem) : CarvedFrom lo hi efiMem
      (carveWalk callocOk carveDesc overlapConventional efiMem).2 := by
  rcases apart_or_exists_overlap carveDesc efiMem with
      apart | ⟨before, map, after, rfl, apart, overlaps⟩
  · rw [carveWalk_apart apart]
    exact CarvedFrom.refl wellFormed
  rw [carveWalk_hit apart overlaps]
  by_cases carvable : map.Carvable overlapConventional
  · by_cases inside : carveDesc.physicalStart ≤ map.physicalStart
    · obtain ⟨pages, entries, carved, carvedFrom, -⟩ := carvedFrom_start
        range wellFormed overlaps carvable inside
      rw [carved]
      exact carvedFrom
    have below := BitVec.not_le.1 inside
    rw [efiMemCarveOut_split overlaps carvable below]
    rw [lt_def, range.start, (wellFormed.valid map (by simp)).toNat_physicalStart] at below
    split_ifs
    · exact carvedFrom_split range wellFormed overlaps (by omega)
    · exact CarvedFrom.refl wellFormed
  · rw [efiMemCarveOut_nonram overlaps carvable]
    exact CarvedFrom.refl wellFormed

end Range

theorem carveWalk_noOverlap {result : List EfiMemDesc}
    (walked : carveWalk callocOk carveDesc overlapConventional efiMem = (.noOverlap, result)) :
    result = efiMem ∧ ∀ map ∈ efiMem, ¬ carveDesc.Overlaps map := by
  rcases apart_or_exists_overlap carveDesc efiMem with
      apart | ⟨before, map, after, rfl, apart, overlaps⟩
  · rw [carveWalk_apart apart] at walked
    exact ⟨(Prod.mk.inj walked).2.symm, apart⟩
  exfalso
  rw [carveWalk_hit apart overlaps] at walked
  replace walked := congrArg Prod.fst walked
  by_cases carvable : map.Carvable overlapConventional
  · by_cases inside : carveDesc.physicalStart ≤ map.physicalStart
    · rw [efiMemCarveOut_start overlaps carvable inside] at walked
      split_ifs at walked
    · rw [efiMemCarveOut_split overlaps carvable (BitVec.not_le.1 inside)] at walked
      split_ifs at walked
  · rw [efiMemCarveOut_nonram overlaps carvable] at walked
    exact EfiCarve.noConfusion walked

theorem pageAt_of_apart (range : CarveRange carveDesc lo hi) (wellFormed : EfiWellFormed efiMem)
    (apart : ∀ map ∈ efiMem, ¬ carveDesc.Overlaps map) {page : Nat}
    (low : lo ≤ page) (high : page < hi) : pageAt efiMem page = none := by
  rw [pageAt, labelAt_eq_none_iff]
  intro map mapMem covers
  have apart := apart map mapMem
  rw [range.overlaps_iff (wellFormed.valid map mapMem)] at apart
  rw [efiView_covers] at covers
  omega

/-- The carve loop removes pages of the carved range only, and all of them if
it is not broken off. -/
theorem carvedFrom_carveLoop (range : CarveRange carveDesc lo hi)
    {fuel calls : Nat} {carvedPages : BitVec 64}
    {outcome : Except EfiStatus (BitVec 64)} (wellFormed : EfiWellFormed efiMem)
    (ran : carveLoop calloc carveDesc overlapConventional fuel calls carvedPages
      efiMem = some (outcome, result)) :
    CarvedFrom lo hi efiMem result ∧ ∀ pages, outcome = .ok pages → ∀ page, lo ≤ page → page < hi →
        pageAt result page = none := by
  induction fuel generalizing calls carvedPages efiMem with
  | zero => simp [carveLoop] at ran
  | succ fuel ih =>
    rw [carveLoop] at ran
    have step : CarvedFrom lo hi efiMem (carveWalk (calloc calls) carveDesc
        overlapConventional efiMem).2 :=
      carvedFrom_carveWalk range wellFormed
    rcases walked : carveWalk (calloc calls) carveDesc overlapConventional efiMem with ⟨code, next⟩
    rw [walked] at ran step
    cases code with
    | noOverlap =>
      obtain ⟨rfl, apart⟩ := carveWalk_noOverlap walked
      cases ran
      exact ⟨step, fun _ _ _ low high =>
        pageAt_of_apart range wellFormed apart low high⟩
    | outOfResources =>
      cases ran
      exact ⟨step, by simp⟩
    | overlapsNonram =>
      cases ran
      exact ⟨step, by simp⟩
    | loopAgain =>
      obtain ⟨carvedFrom, gone⟩ := ih step.wellFormed ran
      exact ⟨step.trans carvedFrom, gone⟩
    | carved pages =>
      obtain ⟨carvedFrom, gone⟩ := ih step.wellFormed ran
      exact ⟨step.trans carvedFrom, gone⟩

section Changes

variable {fuel calls : Nat} {carvedPages : BitVec 64}
  {outcome : Except EfiStatus (BitVec 64)}

variable (range : CarveRange carveDesc lo hi) (wellFormed : EfiWellFormed (before ++ map :: after))
  (apart : ∀ other ∈ before, ¬ carveDesc.Overlaps other) (overlaps : carveDesc.Overlaps map)
  (carvable : map.Carvable overlapConventional)
  (ran : carveLoop calloc carveDesc overlapConventional fuel calls carvedPages
    (before ++ map :: after) = some (outcome, result))

include range wellFormed apart overlaps carvable ran

theorem pageAt_carveLoop_of_start (inside : carveDesc.physicalStart ≤ map.physicalStart) :
    pageAt result map.firstPage = none := by
  cases fuel with
  | zero => simp [carveLoop] at ran
  | succ fuel =>
    obtain ⟨pages, entries, carved, carvedFrom, gone⟩ := carvedFrom_start
      range wellFormed overlaps carvable inside
    rw [carveLoop, carveWalk_hit apart overlaps, carved] at ran
    obtain ⟨rest, -⟩ := carvedFrom_carveLoop range carvedFrom.wellFormed ran
    exact rest.pageAt_eq_none gone

/-- If the first entry that overlaps the range may be carved, the loop removes
one of its pages. -/
theorem carveLoop_removes (proper : lo < hi) (served : outcome ≠ .error .outOfResources) :
    ∃ page, efiView.Covers map page ∧ pageAt result page = none := by
  have valid := wellFormed.valid map (by simp)
  have ends := valid.firstPage_lt_endPage
  by_cases inside : carveDesc.physicalStart ≤ map.physicalStart
  · exact ⟨map.firstPage, ⟨le_rfl, ends⟩, pageAt_carveLoop_of_start range
      wellFormed apart overlaps carvable ran inside⟩
  have below := BitVec.not_le.1 inside
  have meets := (range.overlaps_iff valid).1 overlaps
  have belowPages : map.firstPage < lo := by
    rw [lt_def, range.start, valid.toNat_physicalStart] at below
    omega
  cases fuel with
  | zero => simp [carveLoop] at ran
  | succ fuel =>
    rw [carveLoop, carveWalk_hit apart overlaps,
      efiMemCarveOut_split overlaps carvable below] at ran
    split_ifs at ran with granted
    · have split := carvedFrom_split range wellFormed overlaps belowPages
      obtain ⟨upperValid, upperFirst, upperEnd⟩ := valid.fromAddr range.start meets.2
      have upperOverlaps : carveDesc.Overlaps (map.fromAddr carveDesc.physicalStart) := by
        rw [range.overlaps_iff upperValid, upperFirst, upperEnd]
        exact ⟨proper, meets.2⟩
      have gone := pageAt_carveLoop_of_start range split.wellFormed apart
        upperOverlaps carvable ran (BitVec.le_refl _)
      rw [upperFirst] at gone
      exact ⟨lo, ⟨belowPages.le, meets.2⟩, gone⟩
    · cases ran
      exact absurd rfl served

end Changes

end Carve

end UBoot
