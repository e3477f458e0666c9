import UBoot.EfiMemorySort

/-!
# Updates of the EFI memory map

This file puts the carve loop and the sort together.  An update that succeeds
maps exactly the requested pages.  An update that fails because it met memory
that is not conventional, or found too little of it, may already have removed
pages: it leaves the map alone only if the first entry it met made it fail.
-/

namespace UBoot

open Option BitVec SpanView List

variable {calloc : Nat → Bool} {efi result : EfiMemory} {start pages : BitVec 64} {memoryType : Int}

section Update

variable {overlapConventional remove : Bool} {carved efiMem : List EfiMemDesc}
  {carveDesc : EfiMemDesc}

theorem carveLoop_of_carveOverlaps {outcome : Except EfiStatus (BitVec 64)}
    (ran : carveOverlaps calloc carveDesc overlapConventional efiMem = (outcome, carved)) :
    carveLoop calloc carveDesc overlapConventional
      (carveBound carveDesc efiMem + 1) 1 0 efiMem = some (outcome, carved) := by
  rw [← ran, carveOverlaps, some_get]

theorem carveLoop_error {fuel calls : Nat} {carvedPages : BitVec 64} {status : EfiStatus}
    (ran : carveLoop calloc carveDesc overlapConventional fuel calls carvedPages
      efiMem = some (.error status, carved)) :
    status = .outOfResources ∨ status = .noMapping := by
  induction fuel generalizing calls carvedPages efiMem with
  | zero => simp [carveLoop] at ran
  | succ fuel ih =>
    rw [carveLoop] at ran
    split at ran
    · simp at ran
    · simp_all
    · simp_all
    · exact ih ran
    · exact ih ran

/-- What an update can do: reject the request, find nothing to do, run out of
memory before it begins, or carve. -/
theorem efiUpdateMemoryMap_cases {status : EfiStatus}
    (updated : efiUpdateMemoryMap calloc efi start pages memoryType
      overlapConventional remove = (status, result)) :
    (status = .invalidParameter ∧ result = efi) ∨ (pages = 0 ∧ status = .success ∧ result = efi) ∨
      (status = .outOfResources ∧ result.efiMem = efi.efiMem) ∨
      ∃ outcome carved, carveOverlaps calloc
          (newlistDesc start pages memoryType) overlapConventional efi.efiMem = (outcome, carved) ∧
        ((outcome = .error status ∧ result.efiMem = carved) ∨
          (status = .noMapping ∧ (∃ carvedPages, outcome = .ok carvedPages) ∧
            result.efiMem = carved) ∨
          (status = .success ∧ (∃ carvedPages, outcome = .ok carvedPages) ∧
            result.efiMem = efiMemSort (if remove then carved
              else carved ++ [newlistDesc start pages memoryType]))) := by
  rw [efiUpdateMemoryMap] at updated
  by_cases invalid : EFI_MAX_MEMORY_TYPE ≤ memoryType
  · rw [if_pos invalid] at updated
    left
    exact ⟨(Prod.mk.inj updated).1.symm, (Prod.mk.inj updated).2.symm⟩
  right
  rw [if_neg invalid] at updated
  by_cases empty : pages = 0
  · rw [if_pos empty] at updated
    left
    exact ⟨empty, (Prod.mk.inj updated).1.symm, (Prod.mk.inj updated).2.symm⟩
  right
  rw [if_neg empty] at updated
  by_cases full : calloc 0 = true
  · right
    simp only [full, not_true_eq_false, if_false] at updated
    rcases ran : carveOverlaps calloc (newlistDesc start pages memoryType)
      overlapConventional efi.efiMem with ⟨outcome, carved⟩
    refine ⟨outcome, carved, rfl, ?_⟩
    rw [ran] at updated
    cases outcome with
    | error failure =>
      cases updated
      exact Or.inl ⟨rfl, rfl⟩
    | ok carvedPages =>
      right
      by_cases short : overlapConventional = true ∧ carvedPages ≠ pages
      · left
        simp only [if_pos short] at updated
        cases updated
        exact ⟨rfl, ⟨carvedPages, rfl⟩, rfl⟩
      right
      simp only [if_neg short] at updated
      cases remove <;> obtain ⟨rfl, rfl⟩ := Prod.mk.inj updated <;>
        exact ⟨rfl, ⟨carvedPages, rfl⟩, rfl⟩
  · left
    rw [if_pos full] at updated
    cases updated
    exact ⟨rfl, rfl⟩

theorem EfiWellFormed.outside {lo hi : Nat} (wellFormed : EfiWellFormed efiMem) (proper : lo < hi)
    (gone : ∀ page, lo ≤ page → page < hi → pageAt efiMem page = none) :
    ∀ desc ∈ efiMem, desc.endPage ≤ lo ∨ hi ≤ desc.firstPage := by
  intro desc descMem
  by_contra inRange
  have pages := (wellFormed.valid desc descMem).firstPage_lt_endPage
  have missing := gone (max desc.firstPage lo) (by omega) (by omega)
  rw [pageAt, labelAt_eq_none_iff] at missing
  exact missing desc descMem ⟨le_max_left _ _, show _ < desc.endPage by omega⟩

theorem newlistDesc_pages (memoryType : Int) (aligned : 4096 ∣ start.toNat) (pos : pages ≠ 0)
    (noWrap : start.toNat + pages.toNat * 4096 < 2 ^ 64) :
    (newlistDesc start pages memoryType).Valid ∧
      CarveRange (newlistDesc start pages memoryType) (start.toNat / 4096)
        (start.toNat / 4096 + pages.toNat) := by
  have positive : 0 < pages.toNat := by
    rw [Nat.pos_iff_ne_zero, Ne, ← toNat_zero, toNat_inj]
    exact pos
  have valid : (newlistDesc start pages memoryType).Valid :=
    EfiMemDesc.valid_of_pages (Nat.mul_div_cancel' aligned).symm rfl positive
      (by simp only [newlistDesc]; omega)
  exact ⟨valid, valid.toNat_physicalStart, valid.toNat_descGetEnd⟩

theorem EfiWellFormed.sort_append {desc : EfiMemDesc}
    (wellFormed : EfiWellFormed efiMem) (valid : desc.Valid)
    (outside : ∀ other ∈ efiMem, other.endPage ≤ desc.firstPage ∨ desc.endPage ≤ other.firstPage) :
    EfiWellFormed (efiMemSort (efiMem ++ [desc])) ∧ Merged (efiMemSort (efiMem ++ [desc])) ∧
      ∀ page, pageAt (efiMemSort (efiMem ++ [desc])) page = (pageAt efiMem page).or
          (if efiView.Covers desc page then some (desc.type, desc.attrib)
          else none) := by
  have addedValid : ∀ other ∈ efiMem ++ [desc], other.Valid := by
    intro other otherMem
    rcases mem_append.1 otherMem with old | new
    · exact wellFormed.valid other old
    · rw [mem_singleton.1 new]
      exact valid
  have addedApart : efiView.Apart (efiMem ++ [desc]) := by
    apply pairwise_append.2
    refine ⟨wellFormed.apart, pairwise_singleton _ _, ?_⟩
    intro other otherMem new newMem
    rw [mem_singleton.1 newMem]
    exact outside other otherMem
  obtain ⟨sortedWellFormed, merged, samePages⟩ := efiMemSort_spec addedValid addedApart
  refine ⟨sortedWellFormed, merged, ?_⟩
  intro page
  rw [samePages, pageAt, labelAt_append, ← pageAt, labelAt_cons, labelAt_nil]
  rfl

/-- The memory map after a successful update: the pages of the request are
mapped to its type and attribute, or gone, and all others are as before. -/
theorem pageAt_efiUpdateMemoryMap (wellFormed : EfiWellFormed efi.efiMem)
    (aligned : 4096 ∣ start.toNat) (pos : pages ≠ 0)
    (noWrap : start.toNat + pages.toNat * 4096 < 2 ^ 64)
    (updated : efiUpdateMemoryMap calloc efi start pages memoryType
      overlapConventional remove = (.success, result)) :
    EfiWellFormed result.efiMem ∧ Merged result.efiMem ∧ ∀ page, pageAt result.efiMem page =
        if start.toNat / 4096 ≤ page ∧ page < start.toNat / 4096 + pages.toNat then
          if remove then none
          else some (BitVec.ofInt 32 memoryType, efiMemAttribute memoryType)
        else pageAt efi.efiMem page := by
  obtain ⟨valid, range⟩ := newlistDesc_pages memoryType aligned pos noWrap
  rcases efiUpdateMemoryMap_cases updated with
      ⟨impossible, -⟩ | ⟨impossible, -, -⟩ | ⟨impossible, -⟩ | ⟨outcome, carved, ran, rest⟩
  · cases impossible
  · exact absurd impossible pos
  · cases impossible
  have loop := carveLoop_of_carveOverlaps ran
  obtain ⟨carvedFrom, gone⟩ := carvedFrom_carveLoop range wellFormed loop
  rcases rest with ⟨rfl, -⟩ | ⟨impossible, -, -⟩ | ⟨-, ⟨carvedPages, rfl⟩, sorted⟩
  · rcases carveLoop_error loop with impossible | impossible <;> cases impossible
  · cases impossible
  have proper := valid.firstPage_lt_endPage
  have outside := carvedFrom.wellFormed.outside proper (gone carvedPages rfl)
  have carvedPage : ∀ page, pageAt carved page =
      if start.toNat / 4096 ≤ page ∧ page < start.toNat / 4096 + pages.toNat then none
      else pageAt efi.efiMem page := by
    intro page
    split_ifs with inRange
    · exact gone carvedPages rfl page inRange.1 inRange.2
    · exact (carvedFrom.pages page).resolve_right fun carved => inRange carved.1
  rw [sorted]
  cases remove with
  | true =>
    obtain ⟨sortedWellFormed, merged, samePages⟩ := efiMemSort_spec
      carvedFrom.wellFormed.valid carvedFrom.wellFormed.apart
    exact ⟨sortedWellFormed, merged, fun page => (samePages page).trans (carvedPage page)⟩
  | false =>
    obtain ⟨sortedWellFormed, merged, samePages⟩ := carvedFrom.wellFormed.sort_append valid outside
    refine ⟨sortedWellFormed, merged, ?_⟩
    intro page
    have covers : efiView.Covers (newlistDesc start pages memoryType) page ↔
        start.toNat / 4096 ≤ page ∧ page < start.toNat / 4096 + pages.toNat := Iff.rfl
    rw [if_neg Bool.false_ne_true, samePages, carvedPage]
    by_cases inRange : start.toNat / 4096 ≤ page ∧ page < start.toNat / 4096 + pages.toNat
    · rw [if_pos inRange, if_pos (covers.2 inRange), if_pos inRange]
      rfl
    · rw [if_neg inRange, if_neg (mt covers.1 inRange), if_neg inRange, or_none]

end Update

theorem carveWalk_served (carveDesc : EfiMemDesc) (efiMem : List EfiMemDesc) :
    (carveWalk true carveDesc false efiMem).1 ≠ .outOfResources ∧
      (carveWalk true carveDesc false efiMem).1 ≠ .overlapsNonram := by
  rcases apart_or_exists_overlap carveDesc efiMem with
      apart | ⟨before, map, after, rfl, apart, overlaps⟩
  · simp [carveWalk_apart apart]
  have carvable : map.Carvable false := fun impossible => Bool.noConfusion impossible
  rw [carveWalk_hit apart overlaps]
  by_cases inside : carveDesc.physicalStart ≤ map.physicalStart
  · rw [efiMemCarveOut_start overlaps carvable inside]
    split_ifs <;> simp
  · rw [efiMemCarveOut_split overlaps carvable (BitVec.not_le.1 inside)]
    simp

theorem carveLoop_served (served : ∀ i, calloc i = true) {carveDesc : EfiMemDesc}
    {fuel calls : Nat} {carvedPages : BitVec 64}
    {outcome : Except EfiStatus (BitVec 64)} {efiMem carved : List EfiMemDesc}
    (ran : carveLoop calloc carveDesc false fuel calls carvedPages efiMem =
      some (outcome, carved)) :
    ∃ pages, outcome = .ok pages := by
  induction fuel generalizing calls carvedPages efiMem with
  | zero => simp [carveLoop] at ran
  | succ fuel ih =>
    obtain ⟨funded, ram⟩ := carveWalk_served carveDesc efiMem
    rw [carveLoop, served] at ran
    rcases walked : carveWalk true carveDesc false efiMem with ⟨code, next⟩
    rw [walked] at ran funded ram
    cases code with
    | noOverlap => exact ⟨carvedPages, (Prod.mk.inj (some.inj ran)).1.symm⟩
    | outOfResources => exact absurd rfl funded
    | overlapsNonram => exact absurd rfl ram
    | loopAgain => exact ih ran
    | carved pages => exact ih ran

theorem efiUpdateMemoryMap_served (served : ∀ i, calloc i = true)
    (efi : EfiMemory) (start pages : BitVec 64) {memoryType : Int}
    (valid : memoryType < EFI_MAX_MEMORY_TYPE) (remove : Bool) :
    (efiUpdateMemoryMap calloc efi start pages memoryType false remove).1 = .success := by
  rw [efiUpdateMemoryMap, if_neg (by omega)]
  by_cases empty : pages = 0
  · rw [if_pos empty]
  rcases ran : carveOverlaps calloc (newlistDesc start pages memoryType) false
    efi.efiMem with ⟨outcome, carved⟩
  obtain ⟨carvedPages, rfl⟩ := carveLoop_served served (carveLoop_of_carveOverlaps ran)
  simp only [if_neg empty, served 0, not_true_eq_false, if_false, ran,
    Bool.false_eq_true, false_and]
  cases remove <;> rfl

/-- The update removes a page from the map: its range has not wrapped around
and the first entry of the list that overlaps it is conventional memory. -/
def CarvesConventional (carveDesc : EfiMemDesc) (efiMem : List EfiMemDesc) : Prop :=
  carveDesc.physicalStart < descGetEnd carveDesc ∧
    ∃ map, efiMem.find? (fun map => decide (carveDesc.Overlaps map)) = some map ∧
      map.type = BitVec.ofInt 32 EFI_CONVENTIONAL_MEMORY

theorem carveRange_newlistDesc (aligned : 4096 ∣ start.toNat) :
    CarveRange (newlistDesc start pages memoryType) (start.toNat / 4096)
      ((descGetEnd (newlistDesc start pages memoryType)).toNat / 4096) := by
  refine ⟨(Nat.mul_div_cancel' aligned).symm, (Nat.mul_div_cancel' ?_).symm⟩
  simp only [descGetEnd, newlistDesc, EFI_PAGE_SHIFT, toNat_add, toNat_shiftLeft, Nat.shiftLeft_eq]
  omega

theorem carveLoop_of_noMapping
    (failed : efiUpdateMemoryMap calloc efi start pages memoryType true false =
      (.noMapping, result)) :
    ∃ outcome, outcome ≠ .error .outOfResources ∧
      carveLoop calloc (newlistDesc start pages memoryType) true
        (carveBound (newlistDesc start pages memoryType) efi.efiMem + 1) 1 0
        efi.efiMem = some (outcome, result.efiMem) := by
  rcases efiUpdateMemoryMap_cases failed with
      ⟨impossible, -⟩ | ⟨-, impossible, -⟩ | ⟨impossible, -⟩ | ⟨outcome, carved, ran, rest⟩
  · cases impossible
  · cases impossible
  · cases impossible
  have loop := carveLoop_of_carveOverlaps ran
  rcases rest with ⟨rfl, rfl⟩ | ⟨-, ⟨carvedPages, rfl⟩, rfl⟩ | ⟨impossible, -, -⟩
  · exact ⟨_, by simp, loop⟩
  · exact ⟨_, by simp, loop⟩
  · cases impossible

/-- A failed update that may only overlap conventional memory leaves every page
as it was exactly if it did not begin to carve conventional memory. -/
theorem efiUpdateMemoryMap_noMapping_iff
    (wellFormed : EfiWellFormed efi.efiMem) (aligned : 4096 ∣ start.toNat)
    (failed : efiUpdateMemoryMap calloc efi start pages memoryType true false =
      (.noMapping, result)) :
    (∀ page, pageAt result.efiMem page = pageAt efi.efiMem page) ↔
      ¬ CarvesConventional (newlistDesc start pages memoryType) efi.efiMem := by
  have range : CarveRange (newlistDesc start pages memoryType) _ _ := carveRange_newlistDesc aligned
  obtain ⟨outcome, served, ran⟩ := carveLoop_of_noMapping failed
  obtain ⟨carvedFrom, -⟩ := carvedFrom_carveLoop range wellFormed ran
  constructor
  · rintro unchanged ⟨proper, map, found, conventional⟩
    obtain ⟨hit, before, after, split, apart⟩ := List.find?_eq_some_iff_append.1 found
    rw [split] at wellFormed ran unchanged
    have properPages : start.toNat / 4096 <
        (descGetEnd (newlistDesc start pages memoryType)).toNat / 4096 := by
      rw [lt_def, range.start, range.stop] at proper
      omega
    obtain ⟨page, covers, gone⟩ := carveLoop_removes range wellFormed (by simpa using apart)
      (by simpa using hit) (fun _ => conventional) ran properPages
      served
    rw [unchanged, wellFormed.pageAt_of_covers covers] at gone
    exact some_ne_none _ gone
  intro harmless page
  apply (carvedFrom.pages page).elim id
  rintro ⟨⟨low, high⟩, gone⟩
  rw [gone]
  rcases apart_or_exists_overlap (newlistDesc start pages memoryType)
    efi.efiMem with apart | ⟨before, map, after, split, apart, overlaps⟩
  · exact (pageAt_of_apart range wellFormed apart low high).symm
  have nonram : ¬ map.Carvable true := by
    intro carvable
    refine harmless ⟨?_, map, ?_, carvable rfl⟩
    · rw [lt_def, range.start, range.stop]
      omega
    · rw [split]
      exact List.find?_eq_some_iff_append.2
        ⟨by simpa using overlaps, before, after, rfl, by simpa using apart⟩
  rw [split, carveLoop, carveWalk_hit apart overlaps, efiMemCarveOut_nonram overlaps nonram] at ran
  obtain ⟨-, same⟩ := Prod.mk.inj (some.inj ran)
  rw [← gone, ← same, split]
  rfl

/-- A request of two pages of which the upper one is reserved changes
nothing. -/
theorem efiUpdateMemoryMap_noMapping_iff_reserved : let efiMem : List EfiMemDesc :=
      [⟨4, 0x2000, 0x2000, 1, EFI_MEMORY_WB⟩, ⟨7, 0x1000, 0x1000, 1, EFI_MEMORY_WB⟩]
    efiUpdateMemoryMap (fun _ => true) ⟨efiMem, 0⟩ 0x1000 2
        EFI_BOOT_SERVICES_DATA true false = (.noMapping, ⟨efiMem, 1⟩) ∧
      ¬ CarvesConventional (newlistDesc 0x1000 2 EFI_BOOT_SERVICES_DATA)
        efiMem := by
  intro efiMem
  have failed : efiUpdateMemoryMap (fun _ => true) ⟨efiMem, 0⟩ 0x1000 2
      EFI_BOOT_SERVICES_DATA true false = (.noMapping, ⟨efiMem, 1⟩) := by
    decide
  exact ⟨failed, (efiUpdateMemoryMap_noMapping_iff (by decide) (by decide) failed).1 fun _ => rfl⟩

/-- A request of two pages of which the lower one is reserved takes the upper
one out of the map and fails. -/
theorem efiUpdateMemoryMap_noMapping_changes :
    ¬ ∀ (calloc : Nat → Bool) (efi result : EfiMemory) (start pages : BitVec 64)
      (memoryType : Int), EfiWellFormed efi.efiMem → 4096 ∣ start.toNat →
      efiUpdateMemoryMap calloc efi start pages memoryType true false = (.noMapping, result) →
      ∀ page, pageAt result.efiMem page = pageAt efi.efiMem page := by
  intro unchanged
  have same := unchanged (fun _ => true)
    ⟨[⟨7, 0x2000, 0x2000, 1, EFI_MEMORY_WB⟩, ⟨4, 0x1000, 0x1000, 1, EFI_MEMORY_WB⟩], 0⟩
    ⟨[⟨4, 0x1000, 0x1000, 1, EFI_MEMORY_WB⟩], 1⟩ 0x1000 2
    EFI_BOOT_SERVICES_DATA (by decide) (by decide) (by decide) 2
  revert same
  decide

end UBoot
