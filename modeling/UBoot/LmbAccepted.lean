import UBoot.LmbAlloc

/-!
# Requests that a region list accepts

`lmb_add_region_flags` fails only for a request that overlaps a flagged region, or
that has flags and overlaps a region at all.  This also holds for regions that end
with the address space and, without an overlap, for requests that wrap around.
-/

namespace UBoot

open List

variable {w : Nat} {rgn : List (LmbRegion w)} {base size : BitVec w} {flags : BitVec 32}

/-- What the first loop of `lmb_add_region_flags` leaves of a region that touches the
request. -/
inductive Beside (base size : BitVec w) (flags : BitVec 32) (cur : LmbRegion w) :
    LmbRegion w → Prop
  | kept : Beside base size flags cur cur
  | right : Beside base size flags cur
      { cur with base := cur.base - size, size := cur.size + size }
  | left (touching : base = cur.base + cur.size) (same : flags = cur.flags) :
      Beside base size flags cur { cur with size := cur.size + size }

/-- How the first loop ends: behind the list, at a region that touches the request, or at
one that overlaps it. -/
theorem coalesceLoop_cases (base size : BitVec w) (flags : BitVec 32)
    (before rest : List (LmbRegion w)) :
    (∃ exit, coalesceLoop (before ++ rest) base size flags rest before.length = some exit ∧
      exit.rgn.length ≤ exit.i) ∨
    (∃ low cur grown high coalesced, before ++ rest = low ++ cur :: high ∧
      coalesceLoop (before ++ rest) base size flags rest before.length =
        some ⟨low ++ grown :: high, low.length, coalesced⟩ ∧
      Beside base size flags cur grown) ∨
    ∃ low cur high, before ++ rest = low ++ cur :: high ∧
      lmbAddrsOverlap base size cur.base cur.size = true ∧
      coalesceLoop (before ++ rest) base size flags rest before.length =
        (lmbResizeRegions (low ++ cur :: high) low.length base size).bind
          fun resized => some ⟨resized, low.length, 1⟩ := by
  induction rest generalizing before with
  | nil => exact .inl ⟨_, rfl, by simp⟩
  | cons cur rest ih =>
    have later := ih (before ++ [cur])
    rw [append_assoc, length_append] at later
    rw [coalesceLoop]
    split_ifs with above differ below differ overlap
    · exact .inr (.inl ⟨before, cur, cur, rest, 0, rfl, rfl, .kept⟩)
    · refine .inr (.inl ⟨before, cur, _, rest, 1, rfl, ?_, .right⟩)
      rw [set_append_length]
    · exact later
    · refine .inr (.inl ⟨before, cur, _, rest, 1, rfl, ?_, .left ?_ (not_not.1 differ)⟩)
      · rw [set_append_length]
      unfold lmbAddrsAdjacent at below
      split_ifs at below with first second
      · omega
      · exact second
      · omega
    · exact .inr (.inr ⟨before, cur, rest, rfl, overlap, rfl⟩)
    · exact later

variable {cur : LmbRegion w}

/-- A region beside the request does not reach the next one, unless the request does. -/
theorem Beside.apart {grown next : LmbRegion w} (beside : Beside base size flags cur grown)
    (curInSpace : InSpace cur.base cur.size) (nextInSpace : InSpace next.base next.size)
    (order : cur.top ≤ next.base.toNat)
    (free : lmbAddrsOverlap base size next.base next.size = false) :
    lmbAddrsOverlap grown.base grown.size next.base next.size = false := by
  have curPos := curInSpace.pos
  have nextPos := nextInSpace.pos
  have curLast := curInSpace.toNat_last
  have nextLast := nextInSpace.toNat_last
  have top : cur.top = cur.base.toNat + cur.size.toNat := rfl
  cases beside with
  | kept =>
    simp only [lmbAddrsOverlap, Bool.and_eq_false_iff, decide_eq_false_iff_not, BitVec.le_def,
      curLast]
    omega
  | right =>
    have last : cur.base - size + (cur.size + size) - 1 = cur.base + cur.size - 1 := by
      congr 1
      rw [BitVec.add_comm cur.size, ← BitVec.add_assoc, BitVec.sub_add_cancel]
    simp only [lmbAddrsOverlap, Bool.and_eq_false_iff, decide_eq_false_iff_not, last,
      BitVec.le_def, curLast]
    omega
  | left touching =>
    have last : cur.base + (cur.size + size) - 1 = base + size - 1 := by
      rw [touching, BitVec.add_assoc]
    have baseValue : base.toNat = cur.top := by
      rw [touching]
      exact BitVec.toNat_add_of_lt (by omega)
    simp only [lmbAddrsOverlap, Bool.and_eq_false_iff, decide_eq_false_iff_not, last,
      BitVec.le_def, nextLast] at free ⊢
    omega

variable {rest : List (LmbRegion w)}

theorem exists_countOverlaps (idx rgnCnt idxEnd : Nat)
    (unflagged : ∀ region ∈ rest, lmbAddrsOverlap base size region.base region.size = true →
      region.flags = LMB_NONE) :
    ∃ counts, countOverlaps base size rest idx rgnCnt idxEnd = some counts := by
  induction rest generalizing idx rgnCnt idxEnd with
  | nil => exact ⟨_, rfl⟩
  | cons region rest ih =>
    have later := fun idx rgnCnt idxEnd => ih idx rgnCnt idxEnd
      (fun other otherMem => unflagged other (mem_cons_of_mem _ otherMem))
    rw [countOverlaps]
    split_ifs with overlap flagged
    · exact absurd (unflagged region mem_cons_self overlap) flagged
    · exact later _ _ _
    · exact later _ _ _

theorem exists_lmbResizeRegions (low : List (LmbRegion w))
    (unflagged : ∀ region ∈ rest, lmbAddrsOverlap base size region.base region.size = true →
      region.flags = LMB_NONE) :
    ∃ result, lmbResizeRegions (low ++ rest) low.length base size = some result := by
  obtain ⟨counts, counted⟩ := exists_countOverlaps low.length 0 low.length unflagged
  rw [lmbResizeRegions, drop_left, counted]
  exact ⟨_, rfl⟩

theorem exists_coalesceNext (low : List (LmbRegion w)) (cur : LmbRegion w)
    (high : List (LmbRegion w)) (coalesced : Nat)
    (resized : ∀ next ∈ high.head?, cur.flags = next.flags →
      lmbAddrsOverlap cur.base cur.size next.base next.size = true →
      ∃ result, lmbResizeRegions (low ++ cur :: high) low.length cur.base cur.size = some result) :
    ∃ exit, coalesceNext ⟨low ++ cur :: high, low.length, coalesced⟩ = some exit := by
  unfold coalesceNext
  split_ifs with more
  case neg => exact ⟨_, rfl⟩
  cases high with
  | nil => simp at more
  | cons next high =>
    simp only [lmbRegionsCheck_append, rgnAt_append_length]
    rw [lmbRegionsCheck]
    have first : rgnAt [cur, next] 0 = cur := rfl
    have second : rgnAt [cur, next] 1 = next := rfl
    simp only [first, second]
    by_cases same : cur.flags = next.flags
    case neg => exact ⟨_, by rw [if_pos same]⟩
    rw [if_neg (not_not.2 same)]
    by_cases overlap : lmbAddrsOverlap cur.base cur.size next.base next.size = true
    · obtain ⟨result, equality⟩ := resized next rfl same overlap
      simp only [if_pos overlap, equality]
      exact ⟨_, rfl⟩
    rw [if_neg overlap]
    split_ifs
    · exact ⟨_, rfl⟩
    · exact ⟨_, rfl⟩

theorem exists_lmbAddRegionFlags_of_exit {exit : CoalesceExit w}
    (loop : coalesceLoop rgn base size flags rgn 0 = some exit)
    (next : ∃ exit', coalesceNext exit = some exit') :
    ∃ result, lmbAddRegionFlags rgn base size flags = some result := by
  obtain ⟨exit', merged⟩ := next
  simp only [lmbAddRegionFlags, loop, merged, Option.bind_eq_bind, Option.bind_some]
  split_ifs
  · exact ⟨_, rfl⟩
  · exact ⟨_, rfl⟩

variable {high low : List (LmbRegion w)}

theorem SortedRegions.around (sorted : SortedRegions (low ++ cur :: high)) :
    InSpace cur.base cur.size ∧ SortedRegions high ∧ ∀ next ∈ high, cur.top ≤ next.base.toNat := by
  have tail := pairwise_cons.1 (pairwise_append.1 sorted.ascending).2.1
  refine ⟨sorted.inSpace cur (by simp), ⟨?_, tail.2⟩, tail.1⟩
  intro region regionMem
  exact sorted.inSpace region (by simp [regionMem])

theorem SortedRegions.tail_of_cons (sorted : SortedRegions (cur :: high)) :
    InSpace cur.base cur.size ∧ SortedRegions high ∧ ∀ next ∈ high, cur.top ≤ next.base.toNat :=
  around (show SortedRegions ([] ++ cur :: high) from sorted)

/-- The region that replaces those that a request overlaps does not reach the next one. -/
theorem mergedRegion_apart {first last next : LmbRegion w} (inSpace : InSpace base size)
    (behind : base.toNat + size.toNat ≤ next.base.toNat)
    (order : last.top ≤ next.base.toNat) :
    lmbAddrsOverlap (mergedRegion base size first last).base
      (mergedRegion base size first last).size next.base next.size = false := by
  have pos := inSpace.pos
  have top : last.top = last.base.toNat + last.size.toNat := rfl
  have lastEnd : (last.base + last.size).toNat = last.top := BitVec.toNat_add_of_lt (by omega)
  have requestEnd : (base + size).toNat = base.toNat + size.toNat :=
    BitVec.toNat_add_of_lt (by omega)
  have one : (1 : BitVec w).toNat = 1 := by simpa using Nat.mod_eq_of_lt (by omega : 1 < 2 ^ w)
  have mergedEnd : (mergedRegion base size first last).base +
      (mergedRegion base size first last).size = maxAddr (last.base + last.size) (base + size) := by
    simp only [mergedRegion]
    rw [BitVec.add_comm, BitVec.sub_add_cancel]
  have endValue := toNat_maxAddr (last.base + last.size) (base + size)
  have lastByte : (maxAddr (last.base + last.size) (base + size) - 1).toNat =
      max last.top (base.toNat + size.toNat) - 1 := by
    rw [BitVec.toNat_sub_of_le (by rw [BitVec.le_def]; omega), endValue, lastEnd, requestEnd, one]
  simp only [lmbAddrsOverlap, Bool.and_eq_false_iff, decide_eq_false_iff_not, mergedEnd,
    BitVec.le_def, lastByte]
  omega

/-- The first step for a request that overlaps unflagged regions from `cur` on. -/
theorem exists_resized (sorted : SortedRegions (low ++ cur :: high)) (inSpace : InSpace base size)
    (overlap : lmbAddrsOverlap base size cur.base cur.size = true)
    (unflagged : ∀ region ∈ cur :: high,
      lmbAddrsOverlap base size region.base region.size = true → region.flags = LMB_NONE) :
    ∃ merged after, lmbResizeRegions (low ++ cur :: high) low.length base size =
        some (low ++ merged :: after) ∧
      ∀ next ∈ after, lmbAddrsOverlap merged.base merged.size next.base next.size = false := by
  obtain ⟨curInSpace, highSorted, order⟩ := sorted.around
  have curPos := curInSpace.pos
  have curTop : cur.top = cur.base.toNat + cur.size.toNat := rfl
  have curMeets := (lmbAddrsOverlap_iff_meets inSpace curInSpace).1 overlap
  have nonempty : ∀ region ∈ high, (lmbView w).lo region < (lmbView w).hi region := by
    intro region regionMem
    have pos := (highSorted.inSpace region regionMem).pos
    simp only [lmbView, LmbRegion.top]
    omega
  obtain ⟨hit, after, rfl, hitLow, afterHigh⟩ :=
    highSorted.ascending.exists_split nonempty (base.toNat + size.toNat)
  have hits : ∀ region ∈ cur :: hit,
      lmbAddrsOverlap base size region.base region.size = true ∧ region.flags = LMB_NONE := by
    intro region regionMem
    have inList : region ∈ cur :: (hit ++ after) := by exact mem_append_left after regionMem
    have overlaps : lmbAddrsOverlap base size region.base region.size = true := by
      rcases mem_cons.1 regionMem with rfl | inHit
      · exact overlap
      have inHigh := mem_append_left after inHit
      have behindCur := order region inHigh
      have low := hitLow region inHit
      have inSpaceRegion := highSorted.inSpace region inHigh
      have pos := inSpaceRegion.pos
      rw [lmbAddrsOverlap_iff_meets inSpace inSpaceRegion]
      refine ⟨?_, low⟩
      have top : region.top = region.base.toNat + region.size.toNat := rfl
      have := curMeets.1
      omega
    exact ⟨overlaps, unflagged region inList overlaps⟩
  have apart : ∀ region ∈ after, lmbAddrsOverlap base size region.base region.size = false := by
    intro region regionMem
    have inSpaceRegion := highSorted.inSpace region (mem_append_right hit regionMem)
    have high : base.toNat + size.toNat ≤ region.base.toNat := afterHigh region regionMem
    rw [← Bool.not_eq_true, lmbAddrsOverlap_iff_meets inSpace inSpaceRegion]
    rintro ⟨-, low⟩
    omega
  obtain ⟨last, atLast⟩ : ∃ last, rgnAt (cur :: (hit ++ after)) hit.length = last := ⟨_, rfl⟩
  have lastMem : last ∈ cur :: hit := by
    have within : hit.length < (cur :: hit ++ after).length := by
      rw [length_append, length_cons]
      omega
    rw [← atLast, rgnAt, ← cons_append, getD_eq_getElem _ _ within, getElem_append_left (by simp)]
    exact getElem_mem _
  refine ⟨mergedRegion base size cur last, after, lmbResizeRegions_eq low hits apart atLast, ?_⟩
  intro next nextMem
  have lastOrder : last.top ≤ next.base.toNat := by
    rcases mem_cons.1 lastMem with rfl | inHit
    · exact order next (mem_append_right hit nextMem)
    · exact (pairwise_append.1 highSorted.ascending).2.2 last inHit next nextMem
  exact mergedRegion_apart inSpace (afterHigh next nextMem) lastOrder

theorem SortedRegions.exists_add (flags : BitVec 32) (sorted : SortedRegions rgn)
    (can : ∀ region ∈ rgn, lmbAddrsOverlap base size region.base region.size = true →
      InSpace base size ∧ region.flags = LMB_NONE) :
    ∃ result, lmbAddRegionFlags rgn base size flags = some result := by
  rcases coalesceLoop_cases base size flags [] rgn with
    ⟨exit, loop, behind⟩ | ⟨low, cur, grown, high, coalesced, source, loop, beside⟩ |
      ⟨low, cur, high, source, overlap, loop⟩
  · apply exists_lmbAddRegionFlags_of_exit loop
    refine ⟨exit, if_neg ?_⟩
    omega
  · rw [nil_append] at source
    subst source
    apply exists_lmbAddRegionFlags_of_exit loop
    obtain ⟨curInSpace, highSorted, order⟩ := sorted.around
    apply exists_coalesceNext
    intro next isNext same overlap
    have nextMem := mem_of_mem_head? isNext
    -- what reaches another region was extended by a request that overlaps it
    have meets : ∀ region ∈ high,
        lmbAddrsOverlap grown.base grown.size region.base region.size = true →
          lmbAddrsOverlap base size region.base region.size = true := by
      intro region regionMem reached
      by_contra free
      rw [Bool.not_eq_true] at free
      have apart := beside.apart curInSpace (highSorted.inSpace region regionMem)
        (order region regionMem) free
      rw [apart] at reached
      cases reached
    have inList : ∀ region ∈ high, region ∈ low ++ cur :: high := by
      intro region regionMem
      simp [regionMem]
    apply exists_lmbResizeRegions
    intro region regionMem reached
    rcases mem_cons.1 regionMem with rfl | inHigh
    · rw [same]
      exact (can next (inList next nextMem) (meets next nextMem overlap)).2
    · exact (can region (inList region inHigh) (meets region inHigh reached)).2
  · rw [nil_append] at source
    subst source
    obtain ⟨merged, after, resized, apart⟩ := exists_resized sorted (can cur (by simp) overlap).1
      overlap (fun region regionMem overlaps =>
        (can region (mem_append_right low regionMem) overlaps).2)
    rw [resized] at loop
    apply exists_lmbAddRegionFlags_of_exit loop
    apply exists_coalesceNext
    intro next isNext _ reached
    rw [apart next (mem_of_mem_head? isNext)] at reached
    cases reached

end UBoot
