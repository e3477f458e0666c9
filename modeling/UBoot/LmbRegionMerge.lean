import UBoot.LmbRegionSpans

/-!
# Merging regions of a list

`lmb_resize_regions` replaces a region and the following regions that a
request overlaps by one region, and `lmb_add_region_flags` afterwards merges
the region it touched with its successor.  Both steps are described here by
the region they leave behind: the addresses it covers and the regions it
replaces.
-/

namespace UBoot

open List LmbRegion

variable {w : Nat} {size base : BitVec w} {rest : List (LmbRegion w)}

theorem countOverlaps_of_apart (idx rgnCnt idxEnd : Nat)
    (apart : ∀ region ∈ rest, lmbAddrsOverlap base size region.base region.size = false) :
    countOverlaps base size rest idx rgnCnt idxEnd = some (rgnCnt, idxEnd) := by
  induction rest generalizing idx with
  | nil => rfl
  | cons region rest ih =>
    rw [countOverlaps, apart region mem_cons_self, if_neg (by simp)]
    exact ih (idx + 1) (fun other otherMem =>
      apart other (mem_cons_of_mem _ otherMem))

variable {hit : List (LmbRegion w)}

theorem countOverlaps_append (idx rgnCnt idxEnd : Nat)
    (overlaps : ∀ region ∈ hit, lmbAddrsOverlap base size region.base region.size = true ∧
        region.flags = LMB_NONE) :
    countOverlaps base size (hit ++ rest) idx rgnCnt idxEnd =
      countOverlaps base size rest (idx + hit.length) (rgnCnt + hit.length)
        (if hit = [] then idxEnd else idx + hit.length - 1) := by
  induction hit generalizing idx rgnCnt idxEnd with
  | nil => rfl
  | cons region hit ih =>
    obtain ⟨regionOverlaps, regionFlags⟩ := overlaps region mem_cons_self
    rw [cons_append, countOverlaps, if_pos regionOverlaps, if_neg (by simp [regionFlags]),
      ih (idx + 1) (rgnCnt + 1) idx (fun other otherMem =>
        overlaps other (mem_cons_of_mem _ otherMem))]
    rcases hit with - | ⟨next, hit⟩
    · simp
    · simp only [length_cons, reduceCtorEq, if_false]
      congr 1 <;> omega

theorem iterate_lmbRemoveRegion (before hit after : List (LmbRegion w)) (region : LmbRegion w) :
    (fun rgn => lmbRemoveRegion rgn (before.length + 1))^[hit.length]
        (before ++ region :: (hit ++ after)) =
      before ++ region :: after := by
  induction hit with
  | nil => rfl
  | cons next hit ih =>
    rw [length_cons, Function.iterate_succ_apply]
    have removed : lmbRemoveRegion
        (before ++ region :: (next :: hit ++ after)) (before.length + 1) =
        before ++ region :: (hit ++ after) := by
      simp [lmbRemoveRegion, eraseIdx_append_of_length_le]
    rw [removed, ih]

theorem exists_last_of_ascending (region : LmbRegion w) (after : List (LmbRegion w))
    (wellFormed : WellFormed hit) :
    ∃ last ∈ region :: hit, rgnAt (region :: (hit ++ after)) hit.length = last ∧
      (∀ other ∈ hit, other.top ≤ last.top) ∧ (hit = [] → last = region) := by
  induction hit generalizing region with
  | nil => exact ⟨region, by simp, rfl, by simp, fun _ => rfl⟩
  | cons next hit ih =>
    have tailWellFormed := wellFormed.sublist (sublist_cons_self next hit)
    obtain ⟨last, lastMem, atLast, dominates, single⟩ := ih next tailWellFormed
    refine ⟨last, mem_cons_of_mem _ lastMem, ?_, ?_, by simp⟩
    · simpa [rgnAt] using atLast
    intro other otherMem
    rcases mem_cons.1 otherMem with rfl | inHit
    · rcases mem_cons.1 lastMem with rfl | lastInHit
      · exact le_rfl
      have ordered := (pairwise_cons.1 wellFormed.ascending).1 last lastInHit
      have lastNonempty := tailWellFormed.nonempty last lastInHit
      simp only [lmbView] at ordered lastNonempty
      omega
    · exact dominates other inHit

/-- The region that replaces the regions from `first` to `last`. -/
def mergedRegion (base size : BitVec w) (first last : LmbRegion w) : LmbRegion w :=
  { first with
    base := minAddr base first.base
    size := maxAddr (last.base + last.size) (base + size) - minAddr base first.base }

variable {after : List (LmbRegion w)}

theorem lmbResizeRegions_eq (before : List (LmbRegion w)) {first last : LmbRegion w}
    (overlaps : ∀ region ∈ first :: hit, lmbAddrsOverlap base size region.base region.size = true ∧
        region.flags = LMB_NONE)
    (apart : ∀ region ∈ after, lmbAddrsOverlap base size region.base region.size = false)
    (atLast : rgnAt (first :: (hit ++ after)) hit.length = last) :
    lmbResizeRegions (before ++ first :: (hit ++ after)) before.length base size =
      some (before ++ mergedRegion base size first last :: after) := by
  have counted : countOverlaps base size
      ((before ++ first :: (hit ++ after)).drop before.length) before.length 0
        before.length = some (hit.length + 1, before.length + hit.length) := by
    rw [drop_left, ← cons_append,
      countOverlaps_append _ _ _ overlaps, countOverlaps_of_apart _ _ _ apart]
    simp
  rw [lmbResizeRegions, counted]
  simp only [bind, Option.bind, pure, rgnAt_append_length,
    rgnAt_append_length_add, atLast, set_append_length, Nat.add_sub_cancel,
    iterate_lmbRemoveRegion]
  rfl

section Merged

variable {base size : BitVec w} {first last : LmbRegion w}

theorem base_mergedRegion : (mergedRegion base size first last).base.toNat =
      min base.toNat first.base.toNat :=
  toNat_minAddr base first.base

variable (fits : Fits base size) (lastFits : Fits last.base last.size)

include fits lastFits

theorem top_mergedRegion :
    (mergedRegion base size first last).top = max last.top (base.toNat + size.toNat) := by
  have mergedEnd : (maxAddr (last.base + last.size) (base + size)).toNat =
      max last.top (base.toNat + size.toNat) := by
    rw [toNat_maxAddr, lastFits.toNat_add, fits.toNat_add, top]
  have mergedSize : (mergedRegion base size first last).size.toNat =
      max last.top (base.toNat + size.toNat) - min base.toNat first.base.toNat := by
    change (_ - _ : BitVec w).toNat = _
    rw [BitVec.toNat_sub_of_le, mergedEnd, toNat_minAddr]
    rw [BitVec.le_def, mergedEnd, toNat_minAddr]
    omega
  rw [top, base_mergedRegion, mergedSize]
  omega

theorem fits_mergedRegion : Fits (mergedRegion base size first last).base
      (mergedRegion base size first last).size := by
  have mergedTop : (mergedRegion base size first last).top =
      max last.top (base.toNat + size.toNat) := top_mergedRegion fits lastFits
  have mergedBase : (mergedRegion base size first last).base.toNat =
      min base.toNat first.base.toNat := base_mergedRegion
  have lastNoWrap : last.top < 2 ^ w := lastFits.noWrap
  rw [top] at mergedTop
  constructor
  · have := fits.pos
    omega
  · have := fits.noWrap
    omega

theorem covers_mergedRegion {hit : List (LmbRegion w)} (lastMem : last ∈ first :: hit)
    (overlaps : first.base.toNat < base.toNat + size.toNat ∧ base.toNat < first.top)
    (lastLow : last.base.toNat < base.toNat + size.toNat)
    (firstTop : first.top ≤ max last.top (base.toNat + size.toNat))
    (between : ∀ region ∈ hit, first.base.toNat ≤ region.base.toNat ∧ region.top ≤ last.top)
    (address : Nat) : (lmbView w).Covers (mergedRegion base size first last) address ↔
      (base.toNat ≤ address ∧ address < base.toNat + size.toNat) ∨
        (lmbView w).Covers first address ∨
        ∃ region ∈ hit, (lmbView w).Covers region address := by
  rw [lmbView_covers, base_mergedRegion, top_mergedRegion fits lastFits, lmbView_covers]
  constructor
  · rintro ⟨low, high⟩
    by_cases early : address < base.toNat
    · exact .inr (.inl (by omega))
    by_cases late : address < base.toNat + size.toNat
    · exact .inl ⟨by omega, late⟩
    rcases mem_cons.1 lastMem with rfl | inHit
    · exact .inr (.inl (by omega))
    · exact .inr (.inr ⟨last, inHit, by
        rw [lmbView_covers]
        omega⟩)
  · rintro (inRequest | inFirst | ⟨region, regionMem, covers⟩)
    · omega
    · omega
    · have := between region regionMem
      rw [lmbView_covers] at covers
      omega

end Merged

/-- `lmb_resize_regions` at a region that the request overlaps.  The regions
after it reach beyond the start of the request, so that the ones overlapped
form a prefix of them. -/
theorem lmbResizeRegions_spec (before : List (LmbRegion w)) {region : LmbRegion w}
    (fits : Fits base size) (regionFits : Fits region.base region.size)
    (restWellFormed : WellFormed rest)
    (overlaps : region.base.toNat < base.toNat + size.toNat ∧ base.toNat < region.top)
    (follows : ∀ other ∈ rest, base.toNat < other.top ∧ region.base.toNat ≤ other.base.toNat ∧
      (region.top ≤ other.base.toNat ∨ region.top ≤ base.toNat + size.toNat))
    (regionFlags : region.flags = LMB_NONE)
    (restFlags : ∀ other ∈ rest,
      other.base.toNat < base.toNat + size.toNat → other.flags = LMB_NONE) :
    ∃ hit after merged, rest = hit ++ after ∧
      lmbResizeRegions (before ++ region :: rest) before.length base size =
        some (before ++ merged :: after) ∧
      merged.flags = LMB_NONE ∧ Fits merged.base merged.size ∧
      merged.base.toNat = min base.toNat region.base.toNat ∧
      (∀ other ∈ hit, other.flags = LMB_NONE) ∧
      (∀ address, (lmbView w).Covers merged address ↔
        (base.toNat ≤ address ∧ address < base.toNat + size.toNat) ∨
          (lmbView w).Covers region address ∨
          ∃ other ∈ hit, (lmbView w).Covers other address) ∧
      ∀ other ∈ after, merged.top ≤ other.base.toNat := by
  obtain ⟨hit, after, rfl, hitLow, afterHigh⟩ :=
    restWellFormed.ascending.exists_split restWellFormed.nonempty (base.toNat + size.toNat)
  simp only [lmbView] at hitLow afterHigh
  have hitWellFormed := restWellFormed.sublist (sublist_append_left hit after)
  have fitsOf : ∀ other ∈ hit ++ after, Fits other.base other.size := restWellFormed.fits
  have regionHit : ∀ other ∈ region :: hit, lmbAddrsOverlap base size other.base other.size = true ∧
        other.flags = LMB_NONE := by
    intro other otherMem
    rcases mem_cons.1 otherMem with rfl | inHit
    · exact ⟨(lmbAddrsOverlap_iff fits regionFits).2 overlaps.symm, regionFlags⟩
    have inRest := mem_append_left after inHit
    refine ⟨(lmbAddrsOverlap_iff fits (fitsOf other inRest)).2
      ⟨(follows other inRest).1, hitLow other inHit⟩, ?_⟩
    exact restFlags other inRest (hitLow other inHit)
  have afterApart : ∀ other ∈ after, lmbAddrsOverlap base size other.base other.size = false := by
    intro other otherMem
    have high := afterHigh other otherMem
    rw [Bool.eq_false_iff]
    intro overlapping
    have := (lmbAddrsOverlap_iff fits (fitsOf other (mem_append_right hit otherMem))).1 overlapping
    omega
  obtain ⟨last, lastMem, atLast, dominates, single⟩ :=
    exists_last_of_ascending region after hitWellFormed
  have lastFits : Fits last.base last.size := by
    rcases mem_cons.1 lastMem with rfl | inHit
    · exact regionFits
    · exact hitWellFormed.fits last inHit
  have lastLow : last.base.toNat < base.toNat + size.toNat := by
    rcases mem_cons.1 lastMem with rfl | inHit
    · exact overlaps.1
    · exact hitLow last inHit
  have regionTop : region.top ≤ max last.top (base.toNat + size.toNat) := by
    rcases mem_cons.1 lastMem with rfl | inHit
    · exact le_max_left _ _
    · have := (follows last (mem_append_left after inHit)).2.2
      omega
  refine ⟨hit, after, mergedRegion base size region last, rfl,
    lmbResizeRegions_eq before regionHit afterApart atLast, regionFlags,
    fits_mergedRegion fits lastFits, base_mergedRegion, ?_, ?_, ?_⟩
  · intro other otherMem
    exact (regionHit other (mem_cons_of_mem _ otherMem)).2
  · apply covers_mergedRegion fits lastFits lastMem overlaps lastLow regionTop
    intro other otherMem
    exact ⟨(follows other (mem_append_left after otherMem)).2.1, dominates other otherMem⟩
  intro other otherMem
  have high := afterHigh other otherMem
  rw [top_mergedRegion fits lastFits]
  rcases mem_cons.1 lastMem with rfl | inHit
  · have := (follows other (mem_append_right hit otherMem)).2.2
    omega
  · have ordered := (pairwise_append.1 restWellFormed.ascending).2.2 last inHit other otherMem
    simp only [lmbView] at ordered
    omega

theorem lmbCoalesceRegions_append (before after : List (LmbRegion w)) (region next : LmbRegion w) :
    lmbCoalesceRegions (before ++ region :: next :: after) before.length (before.length + 1) =
      before ++ { region with size := region.size + next.size } :: after := by
  simp [lmbCoalesceRegions, rgnAt, lmbRemoveRegion, eraseIdx_append_of_length_le]

theorem lmbRegionsCheck_append (before after : List (LmbRegion w)) (region next : LmbRegion w) :
    lmbRegionsCheck (before ++ region :: next :: after) before.length (before.length + 1) =
      lmbRegionsCheck [region, next] 0 1 := by simp [lmbRegionsCheck, rgnAt]

theorem lmbRegionsCheck_eq {region next : LmbRegion w} (regionFits : Fits region.base region.size)
    (nextFits : Fits next.base next.size)
    (ordered : region.base.toNat ≤ next.base.toNat) :
    lmbRegionsCheck [region, next] 0 1 =
      if region.flags ≠ next.flags ∨ region.top < next.base.toNat then .neither
      else if region.top = next.base.toNat then .adjacent
      else .overlap := by
  have pos := regionFits.pos
  have nextPos := nextFits.pos
  have top : region.top = region.base.toNat + region.size.toNat := rfl
  simp only [lmbRegionsCheck, rgnAt, getD_cons_zero, getD_cons_succ,
    lmbAddrsOverlap_iff regionFits nextFits, lmbAddrsAdjacent_ne_zero_iff regionFits nextFits]
  by_cases sameFlags : region.flags = next.flags
  · simp only [sameFlags, ne_eq, not_true_eq_false, if_false, false_or]
    rcases lt_trichotomy region.top next.base.toNat with less | equal | greater
    · rw [if_neg (by omega), if_neg (by omega), if_pos less]
    · rw [if_neg (by omega), if_pos (by omega), if_neg (by omega), if_pos equal]
    · rw [if_pos (by omega), if_neg (by omega), if_neg (by omega)]
  · simp [sameFlags]

theorem coalesceNext_of_apart (before : List (LmbRegion w)) {region : LmbRegion w} (coalesced : Nat)
    (regionFits : Fits region.base region.size)
    (afterWellFormed : WellFormed after)
    (apart : ∀ next ∈ after.head?, region.base.toNat ≤ next.base.toNat ∧
      (region.flags ≠ next.flags ∨ region.top < next.base.toNat)) :
    coalesceNext ⟨before ++ region :: after, before.length, coalesced⟩ =
      some ⟨before ++ region :: after, before.length, coalesced⟩ := by
  cases after with
  | nil => simp [coalesceNext]
  | cons next after =>
    obtain ⟨ordered, separate⟩ := apart next rfl
    have nextFits := afterWellFormed.fits next mem_cons_self
    simp only [coalesceNext, lmbRegionsCheck_append,
      lmbRegionsCheck_eq regionFits nextFits ordered, if_pos separate]
    split_ifs <;> rfl

section Coalesced

variable {before after : List (LmbRegion w)} {region next : LmbRegion w} (coalesced : Nat)
  (regionFits : Fits region.base region.size) (nextFits : Fits next.base next.size)
  (sameFlags : region.flags = next.flags)

include coalesced regionFits nextFits sameFlags

theorem coalesceNext_of_touching (touching : region.top = next.base.toNat) :
    coalesceNext ⟨before ++ region :: next :: after, before.length, coalesced⟩ =
      some ⟨before ++ { region with size := region.size + next.size } :: after,
        before.length, coalesced + 1⟩ := by
  have ordered : region.base.toNat ≤ next.base.toNat := by
    rw [← touching, top]
    omega
  simp only [coalesceNext, lmbRegionsCheck_append,
    lmbRegionsCheck_eq regionFits nextFits ordered, sameFlags, touching,
    lmbCoalesceRegions_append]
  simp

theorem coalesceNext_of_overlap (ordered : region.base.toNat ≤ next.base.toNat)
    (overlapping : next.base.toNat < region.top) :
    coalesceNext ⟨before ++ region :: next :: after, before.length, coalesced⟩ =
      (lmbResizeRegions (before ++ region :: next :: after) before.length
        region.base region.size).bind fun resized =>
          some ⟨resized, before.length, coalesced + 1⟩ := by
  have apart : ¬ region.top < next.base.toNat := by omega
  have separate : ¬ region.top = next.base.toNat := by omega
  simp only [coalesceNext, lmbRegionsCheck_append,
    lmbRegionsCheck_eq regionFits nextFits ordered, sameFlags, apart, separate,
    rgnAt_append_length]
  simp [bind]

end Coalesced

theorem top_coalesced {region next : LmbRegion w} (nextFits : Fits next.base next.size)
    (touching : region.top = next.base.toNat) :
    ({ region with size := region.size + next.size } : LmbRegion w).top = next.top ∧
      region.size.toNat + next.size.toNat < 2 ^ w := by
  have bound := nextFits.noWrap
  simp only [top] at touching ⊢
  have fitting : region.size.toNat + next.size.toNat < 2 ^ w := by omega
  refine ⟨?_, fitting⟩
  rw [BitVec.toNat_add_of_lt fitting]
  omega

end UBoot
