import UBoot.EfiMemoryPages

/-!
# Sorting and merging the EFI memory map

`efi_mem_sort` sorts the list and then merges contiguous entries of the same
kind, one merge in each pass.  The entry to compare with is carried over from
one pass to the next, so that every pass but the first begins with a
comparison of the head of the list with some entry of the list.
-/

namespace UBoot

open List EfiMemDesc

/-- The test with which `efi_mem_sort` merges `cur` into `prev`. -/
def Mergeable (prev cur : EfiMemDesc) : Prop :=
  descGetEnd cur = prev.physicalStart ∧ prev.type = cur.type ∧ prev.attrib = cur.attrib

instance : DecidableRel Mergeable := fun _ _ => inferInstanceAs (Decidable (_ ∧ _))

/-- The entry `prev` grown by the pages of `cur`. -/
def EfiMemDesc.grow (prev cur : EfiMemDesc) : EfiMemDesc :=
  { prev with
    numPages := prev.numPages + cur.numPages
    physicalStart := prev.physicalStart - cur.numPages <<< EFI_PAGE_SHIFT
    virtualStart := prev.virtualStart - cur.numPages <<< EFI_PAGE_SHIFT }

section Pass

/-- What a pass of the merge loop does from an entry on: either no entry can be
merged into its predecessor or the first such entry is. -/
theorem mergePass_from (before rest : List EfiMemDesc) (prev : EfiMemDesc) :
    mergePass (before ++ prev :: rest) rest (before.length + 1) (some before.length) = .done ∧
        (prev :: rest).IsChain (fun prev cur => ¬ Mergeable prev cur) ∨
      ∃ passed upper lower after, before ++ prev :: rest =
          passed ++ upper :: lower :: after ∧ Mergeable upper lower ∧
        mergePass (before ++ prev :: rest) rest (before.length + 1) (some before.length) =
            .merged (passed ++ upper.grow lower :: after) passed.length := by
  induction rest generalizing before prev with
  | nil => exact Or.inl ⟨rfl, List.IsChain.singleton _⟩
  | cons cur rest ih =>
    have lookup : (before ++ prev :: cur :: rest)[before.length]? = some prev := by simp
    by_cases mergeable : Mergeable prev cur
    · right
      refine ⟨before, prev, cur, rest, rfl, mergeable, ?_⟩
      have merged : ((before ++ prev :: cur :: rest).set before.length
          (prev.grow cur)).eraseIdx (before.length + 1) = before ++ prev.grow cur :: rest := by
        simp [eraseIdx_append_of_length_le]
      have ordered : ¬ before.length + 1 < before.length := by omega
      rw [Mergeable] at mergeable
      simp only [mergePass, lookup, if_pos mergeable, if_neg ordered]
      exact congrArg (MergePass.merged · before.length) merged
    have step : mergePass (before ++ prev :: cur :: rest) (cur :: rest)
        (before.length + 1) (some before.length) = mergePass (before ++ prev :: cur :: rest) rest
            (before.length + 1 + 1) (some (before.length + 1)) := by
      rw [mergePass]
      simp only [lookup]
      exact if_neg mergeable
    have tail := ih (before ++ [prev]) cur
    simp only [append_assoc, singleton_append, length_append, length_singleton] at tail
    rw [step]
    rcases tail with ⟨done, chain⟩ | merged
    · exact Or.inl ⟨done, isChain_cons_cons.2 ⟨mergeable, chain⟩⟩
    · exact Or.inr merged

theorem not_mergeable_head {head prev : EfiMemDesc} {rest : List EfiMemDesc}
    (wellFormed : EfiWellFormed (head :: rest)) (prevMem : prev ∈ head :: rest) :
    ¬ Mergeable prev head := by
  rintro ⟨contiguous, -, -⟩
  have headValid := wellFormed.valid head mem_cons_self
  have prevValid := wellFormed.valid prev prevMem
  have headPages := headValid.firstPage_lt_endPage
  have prevPages := prevValid.firstPage_lt_endPage
  have samePage := congrArg BitVec.toNat contiguous
  rw [headValid.toNat_descGetEnd, prevValid.toNat_physicalStart] at samePage
  rcases mem_cons.1 prevMem with rfl | inRest
  · omega
  · have ordered : prev.endPage ≤ head.firstPage :=
      (pairwise_cons.1 wellFormed.descending).1 prev inRest
    omega

theorem mergePass_spec {efiMem : List EfiMemDesc} {prevmem : Option Nat}
    (wellFormed : EfiWellFormed efiMem)
    (inside : ∀ i ∈ prevmem, i < efiMem.length) :
    mergePass efiMem efiMem 0 prevmem = .done ∧
        efiMem.IsChain (fun prev cur => ¬ Mergeable prev cur) ∨
      ∃ passed upper lower after, efiMem = passed ++ upper :: lower :: after ∧
        Mergeable upper lower ∧ mergePass efiMem efiMem 0 prevmem =
          .merged (passed ++ upper.grow lower :: after) passed.length := by
  cases efiMem with
  | nil => exact Or.inl ⟨rfl, List.IsChain.nil⟩
  | cons head rest =>
    have begins : mergePass (head :: rest) (head :: rest) 0 prevmem =
        mergePass (head :: rest) rest 1 (some 0) := by
      cases prevmem with
      | none => rfl
      | some i =>
        have bound := inside i rfl
        have lookup := List.getElem?_eq_getElem bound
        rw [mergePass]
        simp only [lookup]
        exact if_neg (not_mergeable_head wellFormed (getElem_mem bound))
    rw [begins]
    exact mergePass_from [] rest head

end Pass

section Merge

variable {before after : List EfiMemDesc} {prev cur : EfiMemDesc}

theorem Mergeable.samePage (mergeable : Mergeable prev cur)
    (prevValid : prev.Valid) (curValid : cur.Valid) :
    cur.endPage = prev.firstPage := by
  have samePage := congrArg BitVec.toNat mergeable.1
  rw [curValid.toNat_descGetEnd, prevValid.toNat_physicalStart] at samePage
  omega

theorem Mergeable.grow (mergeable : Mergeable prev cur)
    (prevValid : prev.Valid) (curValid : cur.Valid) :
    (prev.grow cur).Valid ∧ (prev.grow cur).firstPage = cur.firstPage ∧
      (prev.grow cur).endPage = prev.endPage := by
  have samePage := mergeable.samePage prevValid curValid
  have start := prevValid.toNat_physicalStart
  have curPages := curValid.firstPage_lt_endPage
  have bound := prevValid.endPage_lt
  have shifted := toNat_shiftLeft_pageShift curValid.pages
  rw [endPage] at samePage bound
  have less : cur.numPages <<< EFI_PAGE_SHIFT ≤ prev.physicalStart := by
    rw [BitVec.le_def]
    omega
  have first : (prev.grow cur).physicalStart.toNat = 4096 * cur.firstPage := by
    simp only [EfiMemDesc.grow, BitVec.toNat_sub_of_le less]
    omega
  have count : (prev.grow cur).numPages.toNat = prev.numPages.toNat + cur.numPages.toNat := by
    simp only [EfiMemDesc.grow, BitVec.toNat_add]
    omega
  have firstPage : (prev.grow cur).firstPage = cur.firstPage := by
    rw [firstPage]
    omega
  rw [endPage] at curPages
  refine ⟨valid_of_pages first count (by omega) (by omega), firstPage, ?_⟩
  rw [endPage, endPage, firstPage, count]
  omega

theorem EfiWellFormed.merge (wellFormed : EfiWellFormed (before ++ prev :: cur :: after))
    (mergeable : Mergeable prev cur) :
    EfiWellFormed (before ++ prev.grow cur :: after) ∧
      ∀ page, pageAt (before ++ prev.grow cur :: after) page =
        pageAt (before ++ prev :: cur :: after) page := by
  have prevValid := wellFormed.valid prev (by simp)
  have curValid := wellFormed.valid cur (by simp)
  have samePage := mergeable.samePage prevValid curValid
  have prevPages := prevValid.firstPage_lt_endPage
  have curPages := curValid.firstPage_lt_endPage
  obtain ⟨valid, first, stop⟩ := mergeable.grow prevValid curValid
  obtain ⟨beforeDescending, fromPrev, across⟩ := pairwise_append.1 wellFormed.descending
  obtain ⟨-, fromCur⟩ := pairwise_cons.1 fromPrev
  obtain ⟨belowCur, afterDescending⟩ := pairwise_cons.1 fromCur
  refine ⟨⟨?_, pairwise_append.2 ⟨beforeDescending,
    pairwise_cons.2 ⟨?_, afterDescending⟩, ?_⟩⟩, ?_⟩
  · intro desc descMem
    simp only [mem_append, mem_cons] at descMem
    rcases descMem with inBefore | rfl | inAfter
    · exact wellFormed.valid desc (by simp [inBefore])
    · exact valid
    · exact wellFormed.valid desc (by simp [inAfter])
  · intro desc descMem
    exact (belowCur desc descMem).trans first.ge
  · intro desc descMem other otherMem
    rcases mem_cons.1 otherMem with rfl | inAfter
    · exact stop.le.trans (across desc descMem prev mem_cons_self)
    · exact across desc descMem other (by simp [inAfter])
  intro page
  have labels : efiView.label cur = efiView.label prev :=
    Prod.ext mergeable.2.1.symm mergeable.2.2.symm
  have grown : efiView.label (prev.grow cur) = efiView.label prev := rfl
  simp only [pageAt, SpanView.labelAt_append, SpanView.labelAt_cons, labels,
    grown, efiView_covers, first, stop]
  congr 1
  split_ifs <;> first | rfl | omega

end Merge

def Merged (efiMem : List EfiMemDesc) : Prop :=
  ∀ prev ∈ efiMem, ∀ cur ∈ efiMem, ¬ Mergeable prev cur

section MergeLoop

variable {efiMem : List EfiMemDesc}

/-- In a well-formed list it is enough that no entry can be merged into the one
before it. -/
theorem EfiWellFormed.merged (wellFormed : EfiWellFormed efiMem)
    (chain : efiMem.IsChain (fun prev cur => ¬ Mergeable prev cur)) :
    Merged efiMem := by
  induction efiMem with
  | nil => simp [Merged]
  | cons head rest ih =>
    obtain ⟨belowHead, restDescending⟩ := pairwise_cons.1 wellFormed.descending
    have restWellFormed : EfiWellFormed rest :=
      ⟨fun desc descMem => wellFormed.valid desc (mem_cons_of_mem _ descMem), restDescending⟩
    have restMerged := ih restWellFormed chain.of_cons
    intro prev prevMem cur curMem
    rcases mem_cons.1 curMem with rfl | curInRest
    · exact not_mergeable_head wellFormed prevMem
    rcases mem_cons.1 prevMem with rfl | prevInRest
    · cases rest with
      | nil => simp at curInRest
      | cons next rest =>
        rcases mem_cons.1 curInRest with rfl | curInTail
        · exact (isChain_cons_cons.1 chain).1
        intro mergeable
        have nextValid := wellFormed.valid next (by simp)
        have nextPages := nextValid.firstPage_lt_endPage
        have samePage := mergeable.samePage
          (wellFormed.valid prev (by simp)) (wellFormed.valid cur curMem)
        have nextBelow : next.endPage ≤ prev.firstPage := belowHead next mem_cons_self
        have curBelow : cur.endPage ≤ next.firstPage :=
          (pairwise_cons.1 restDescending).1 cur curInTail
        omega
    · exact restMerged prev prevInRest cur curInRest

theorem mergeLoop_spec {fuel : Nat} (prevmem : Option Nat)
    (wellFormed : EfiWellFormed efiMem) (enough : efiMem.length ≤ fuel)
    (inside : ∀ i ∈ prevmem, i < efiMem.length) :
    EfiWellFormed (mergeLoop fuel efiMem prevmem) ∧ Merged (mergeLoop fuel efiMem prevmem) ∧
      ∀ page, pageAt (mergeLoop fuel efiMem prevmem) page = pageAt efiMem page := by
  induction fuel generalizing efiMem prevmem with
  | zero =>
    obtain rfl : efiMem = [] := length_eq_zero_iff.1 (by omega)
    exact ⟨wellFormed, by simp [Merged, mergeLoop], fun _ => rfl⟩
  | succ fuel ih =>
    rcases mergePass_spec wellFormed inside with
        ⟨done, chain⟩ | ⟨passed, upper, lower, after, rfl, mergeable, merged⟩
    · rw [mergeLoop, done]
      exact ⟨wellFormed, wellFormed.merged chain, fun _ => rfl⟩
    obtain ⟨mergedWellFormed, samePages⟩ := wellFormed.merge mergeable
    rw [mergeLoop, merged]
    obtain ⟨resultWellFormed, resultMerged, resultPages⟩ :=
      ih (some passed.length) mergedWellFormed (by simp at enough ⊢; omega) (by simp)
    exact ⟨resultWellFormed, resultMerged, fun page => (resultPages page).trans (samePages page)⟩

instance : Std.Total efiMemBefore :=
  ⟨fun a b => by
    simp only [efiMemBefore, BitVec.le_def]
    omega⟩

instance : IsTrans EfiMemDesc efiMemBefore :=
  ⟨fun a b c => by
    simp only [efiMemBefore, BitVec.le_def]
    omega⟩

/-- `efi_mem_sort` turns any list of disjoint descriptors into a well-formed
one that describes the same pages. -/
theorem efiMemSort_spec (valid : ∀ desc ∈ efiMem, desc.Valid) (apart : efiView.Apart efiMem) :
    EfiWellFormed (efiMemSort efiMem) ∧ Merged (efiMemSort efiMem) ∧
      ∀ page, pageAt (efiMemSort efiMem) page = pageAt efiMem page := by
  have permuted : efiMem.Perm (efiMem.insertionSort efiMemBefore) :=
    (perm_insertionSort efiMemBefore efiMem).symm
  have sorted := pairwise_insertionSort efiMemBefore efiMem
  have sortedValid : ∀ desc ∈ efiMem.insertionSort efiMemBefore, desc.Valid :=
    fun desc descMem => valid desc (permuted.mem_iff.2 descMem)
  have sortedWellFormed : EfiWellFormed (efiMem.insertionSort efiMemBefore) := by
    refine ⟨sortedValid, ?_⟩
    have both := List.Pairwise.and sorted (apart.perm permuted)
    apply List.Pairwise.imp_of_mem _ both
    rintro first second firstMem secondMem ⟨ordered, disjoint⟩
    have firstPages := (sortedValid first firstMem).firstPage_lt_endPage
    have firstStart := (sortedValid first firstMem).toNat_physicalStart
    have secondStart := (sortedValid second secondMem).toNat_physicalStart
    rw [efiMemBefore, BitVec.le_def] at ordered
    rcases disjoint with wrong | right
    · have wrong : first.endPage ≤ second.firstPage := wrong
      omega
    · exact right
  obtain ⟨wellFormed, merged, pages⟩ := mergeLoop_spec
    none sortedWellFormed permuted.length_eq.ge (by simp)
  exact ⟨wellFormed, merged, fun page => (pages page).trans (apart.labelAt_perm permuted page)⟩

end MergeLoop

end UBoot
