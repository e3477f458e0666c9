import UBoot.IpDefrag
import UBoot.LinkedSegment
import Mathlib.Data.List.Nodup
import Mathlib.Data.List.Perm.Subperm

/-!
# The hole list of a datagram

The descriptors that are linked from `first_hole` stand for a list of spans.
Each of the four ways in which `__net_defragment` fixes its list is described
here as an operation on the spans, under the conditions that the descriptors
stay inside the buffer and are not covered by the bytes of the fragment.

The link back of a hole is zero both when there is no hole before it and when
that hole is the one at offset zero.  A hole that is removed or moved therefore
takes the hole at offset zero out of the list, which `keptSpans` describes.
-/

namespace UBoot

open List Segment Nat

structure HoleSpan where
  index : Nat
  last : Nat
  deriving DecidableEq, Repr

/-- The holes are apart, each has room for its descriptor, and all descriptors
are inside the buffer. -/
structure HoleSpans (config : DefragConfig) (spans : List HoleSpan) : Prop where
  apart : spans.Pairwise fun a b => a.last < 8 * b.index
  long : ∀ a ∈ spans, 8 * a.index + 8 ≤ a.last
  aligned : ∀ a ∈ spans, 8 ∣ a.last ∨ a.last = 65535
  inside : ∀ a ∈ spans, holeAddr a.index + 8 ≤ config.netMaxdefrag

structure HoleChain (m : Memory) (firstHole : Nat) (spans : List HoleSpan) : Prop where
  starts : (spans.map HoleSpan.index).head? = some firstHole
  linked : Segment (m.hole · .nextHole) (m.hole · .prevHole) 0 (spans.map HoleSpan.index) 0
  lasts : ∀ a ∈ spans, m.hole a.index .lastByte = a.last

def keptSpans (pre : List HoleSpan) : List HoleSpan :=
  if (pre.map HoleSpan.index).getLastD 0 = 0 then [] else pre

variable {config : DefragConfig} {spans pre post : List HoleSpan} {hole : HoleSpan}

section Holes

variable (holes : HoleSpans config spans)

include holes

theorem HoleSpans.sublist {kept : List HoleSpan} (sub : kept.Sublist spans) :
    HoleSpans config kept where
  apart := holes.apart.sublist sub
  long a inKept := holes.long a (sub.subset inKept)
  aligned a inKept := holes.aligned a (sub.subset inKept)
  inside a inKept := holes.inside a (sub.subset inKept)

theorem HoleSpans.index_lt {a : HoleSpan} (inSpans : a ∈ spans) : a.index < 8190 := by
  have inside := holes.inside a inSpans
  have upper := config.upper
  unfold holeAddr IP_HDR_SIZE at inside
  omega

theorem HoleSpans.increasing : spans.Pairwise fun a b => a.index < b.index := by
  apply List.Pairwise.imp_of_mem _ holes.apart
  intro a b inA _ apart
  have long := holes.long a inA
  omega

theorem HoleSpans.pairwise_index : (spans.map HoleSpan.index).Pairwise (· < ·) :=
  pairwise_map.2 holes.increasing

theorem HoleSpans.nodup_index : (spans.map HoleSpan.index).Nodup :=
  holes.pairwise_index.imp Nat.ne_of_lt

theorem HoleSpans.length_le : spans.length ≤ 8190 := by
  have inRange : spans.map HoleSpan.index ⊆ range 8190 := by
    intro i inMap
    obtain ⟨a, inSpans, rfl⟩ := mem_map.1 inMap
    exact mem_range.2 (holes.index_lt inSpans)
  simpa using (holes.nodup_index.subperm inRange).length_le

end Holes

theorem HoleSpans.split (holes : HoleSpans config (pre ++ hole :: post)) :
    (∀ a ∈ pre, a.last < 8 * hole.index) ∧ (∀ b ∈ post, hole.last < 8 * b.index) ∧
      ∀ a ∈ pre, ∀ b ∈ post, a.last < 8 * b.index := by
  have apart := pairwise_append.1 holes.apart
  refine ⟨?_, ?_, ?_⟩
  · intro a inPre
    exact apart.2.2 a inPre hole (by simp)
  · exact (pairwise_cons.1 apart.2.1).1
  · intro a inPre b inPost
    exact apart.2.2 a inPre b (by simp [inPost])

theorem keptSpans_sublist (pre : List HoleSpan) : (keptSpans pre).Sublist pre := by
  unfold keptSpans
  split
  · exact nil_sublist _
  · exact List.Sublist.refl _

variable {firstHole : Nat}

section Chain

variable {m m' : Memory}

theorem HoleChain.congr (chain : HoleChain m firstHole spans)
    (same : ∀ a ∈ spans, ∀ field, m'.hole a.index field = m.hole a.index field) :
    HoleChain m' firstHole spans where
  starts := chain.starts
  linked := by
    apply chain.linked.congr
    · intro i inMap
      obtain ⟨a, inSpans, rfl⟩ := mem_map.1 inMap
      exact same a inSpans .nextHole
    · intro i inMap
      obtain ⟨a, inSpans, rfl⟩ := mem_map.1 inMap
      exact same a inSpans .prevHole
  lasts a inSpans := (same a inSpans .lastByte).trans (chain.lasts a inSpans)

theorem HoleChain.write {a : Nat} {bytes : List UInt8} (chain : HoleChain m firstHole spans)
    (outside : ∀ hole ∈ spans,
      holeAddr hole.index + 8 ≤ a ∨ a + bytes.length ≤ holeAddr hole.index) :
    HoleChain (m.write a bytes) firstHole spans := by
  apply chain.congr
  intro hole inSpans field
  exact hole_write (outside hole inSpans)

variable (chain : HoleChain m firstHole (pre ++ hole :: post))

include chain

theorem HoleChain.links : m.hole hole.index .prevHole = (pre.map HoleSpan.index).getLastD 0 ∧
      m.hole hole.index .nextHole = (post.map HoleSpan.index).headD 0 := by
  have linked := chain.linked
  rw [map_append, append_iff] at linked
  exact ⟨linked.2.1, linked.2.2.1⟩

theorem keptSpans_of_prevHole :
    keptSpans pre = if m.hole hole.index .prevHole = 0 then [] else pre := by
  rw [chain.links.1, keptSpans]

theorem keptSpans_eq_nil : keptSpans pre = [] ↔ m.hole hole.index .prevHole = 0 := by
  rw [keptSpans_of_prevHole chain]
  split
  · simp_all
  next linkedBack =>
    rw [chain.links.1] at linkedBack ⊢
    simp only [linkedBack, iff_false]
    rintro rfl
    simp at linkedBack

theorem HoleChain.kept : Segment (m.hole · .nextHole) (m.hole · .prevHole) 0
      ((keptSpans pre).map HoleSpan.index ++ [hole.index] ++ post.map HoleSpan.index) 0 := by
  have linked := chain.linked
  rw [map_append, map_cons, ← singleton_append, ← append_assoc] at linked
  unfold keptSpans
  split
  next unlinked =>
    rw [append_assoc, append_iff, unlinked] at linked
    simpa using linked.2
  next => exact linked

end Chain

/-! ## Walking the list -/

variable {m : Memory}

section Walk

variable {spans : List HoleSpan}

theorem findHole_eq {start fuel p : Nat}
    (linked : Segment (m.hole · .nextHole) (m.hole · .prevHole) p (spans.map HoleSpan.index) 0)
    (lasts : ∀ a ∈ spans, m.hole a.index .lastByte = a.last)
    (positive : ∀ a ∈ spans.tail, 0 < a.index) (nonempty : spans ≠ [])
    (enough : spans.length ≤ fuel) :
    findHole m start fuel ((spans.map HoleSpan.index).headD 0) =
      some ((spans.find? fun a => start ≤ a.last).map HoleSpan.index) := by
  induction spans generalizing fuel p with
  | nil => exact absurd rfl nonempty
  | cons a rest ih =>
    cases fuel with
    | zero => simp at enough
    | succ fuel =>
      have after : m.hole a.index .nextHole = (rest.map HoleSpan.index).headD 0 := linked.2.1
      have linkedRest := linked.2.2
      have lastA := lasts a (by simp)
      rw [map_cons, headD_cons, findHole, lastA]
      by_cases before : a.last < start
      · rw [if_pos before, List.find?_cons_of_neg (by simp; omega), after]
        cases rest with
        | nil => simp
        | cons b rest =>
          have positiveB := positive b (by simp)
          rw [if_neg (by simp; omega)]
          apply ih linkedRest
          · intro c inRest
            exact lasts c (mem_cons_of_mem _ inRest)
          · intro c inRest
            exact positive c (mem_cons_of_mem _ inRest)
          · simp
          · simpa using enough
      · rw [if_neg before, List.find?_cons_of_pos (by simp; omega)]
        rfl

theorem HoleChain.findHole_eq (chain : HoleChain m firstHole spans)
    (holes : HoleSpans config spans) (start : Nat) :
    findHole m start (2 ^ 16) firstHole =
      some ((spans.find? fun a => start ≤ a.last).map HoleSpan.index) := by
  have nonempty : spans ≠ [] := by
    rintro rfl
    simpa using chain.starts
  have first : (spans.map HoleSpan.index).headD 0 = firstHole := by
    rw [headD_eq_head?_getD, chain.starts]
    rfl
  have length := holes.length_le
  rw [← first]
  apply UBoot.findHole_eq chain.linked chain.lasts _ nonempty (by omega)
  cases spans with
  | nil => simp
  | cons a rest =>
    intro b inRest
    have apart := (pairwise_cons.1 holes.increasing).1 b inRest
    omega

end Walk

/-! ## The four updates -/

section Updates

variable {pre post : List HoleSpan} {firstHole h newh start : Nat}

theorem removeHole_hole (firstHole : Nat)
    (loopFree : m.hole h .nextHole ≠ 0 → m.hole h .nextHole ≠ h)
    (listed : ¬(m.hole h .prevHole = 0 ∧ m.hole h .nextHole = 0)) :
    (∀ x, (removeHole m firstHole h).pktBuff.hole x .lastByte = m.hole x .lastByte) ∧
      (∀ x, (removeHole m firstHole h).pktBuff.hole x .nextHole =
        if m.hole h .prevHole ≠ 0 ∧ m.hole h .prevHole = x then m.hole h .nextHole
        else m.hole x .nextHole) ∧
      ∀ x, (removeHole m firstHole h).pktBuff.hole x .prevHole =
        if m.hole h .nextHole ≠ 0 ∧ m.hole h .nextHole = x then m.hole h .prevHole
        else m.hole x .prevHole := by
  have nextLt := hole_lt m h .nextHole
  have prevLt := hole_lt m h .prevHole
  unfold removeHole
  refine ⟨?_, ?_, ?_⟩ <;> intro x <;> by_cases noPrev : m.hole h .prevHole = 0 <;>
    by_cases noNext : m.hole h .nextHole = 0 <;>
    simp_all [hole_setHole, mod_eq_of_lt]

theorem moveHole_hole (firstHole : Nat) (freshNext : m.hole h .nextHole ≠ newh)
    (small : newh < 65536) :
    (∀ x, (moveHole m firstHole h newh).pktBuff.hole x .lastByte =
        if newh = x then m.hole h .lastByte else m.hole x .lastByte) ∧
      (∀ x, (moveHole m firstHole h newh).pktBuff.hole x .nextHole =
        if m.hole h .prevHole ≠ 0 ∧ m.hole h .prevHole = x then newh
        else if newh = x then m.hole h .nextHole else m.hole x .nextHole) ∧
      (∀ x, (moveHole m firstHole h newh).pktBuff.hole x .prevHole =
        if m.hole h .nextHole ≠ 0 ∧ m.hole h .nextHole = x then newh
        else if newh = x then m.hole h .prevHole else m.hole x .prevHole) ∧
      (moveHole m firstHole h newh).firstHole =
        (if m.hole h .prevHole ≠ 0 then firstHole else newh) ∧
      (moveHole m firstHole h newh).done = false := by
  unfold moveHole
  refine ⟨?_, ?_, ?_, ?_, ?_⟩ <;> intros <;> by_cases noPrev : m.hole h .prevHole = 0 <;>
    by_cases noNext : m.hole h .nextHole = 0 <;>
    simp_all [hole_setHole, hole_copyHole, mod_eq_of_lt]

theorem splitHole_hole (m : Memory) (firstHole : Nat) (fresh : h ≠ newh)
    (small : newh < 65536) (smallStart : start < 65536) (smallHole : h < 65536) :
    (∀ x, (splitHole m firstHole h newh start).pktBuff.hole x .lastByte = if h = x then start
        else if newh = x then m.hole h .lastByte else m.hole x .lastByte) ∧
      (∀ x, (splitHole m firstHole h newh start).pktBuff.hole x .nextHole =
        if h = x then newh
        else if newh = x then m.hole h .nextHole else m.hole x .nextHole) ∧
      ∀ x, (splitHole m firstHole h newh start).pktBuff.hole x .prevHole =
        if m.hole h .nextHole ≠ 0 ∧ m.hole h .nextHole = x then newh
        else if newh = x then h else m.hole x .prevHole := by
  unfold splitHole
  refine ⟨?_, ?_, ?_⟩ <;> intro x <;> by_cases noNext : m.hole h .nextHole = 0 <;>
    simp_all +contextual [hole_setHole, hole_copyHole, mod_eq_of_lt]

/-- Where a hole is in its list: behind the holes of `front`, from where its link
back leads, and before the holes of `post`. -/
structure Placed (m : Memory) (front : List HoleSpan) (hole : HoleSpan)
    (post : List HoleSpan) : Prop where
  linked : Segment (m.hole · .nextHole) (m.hole · .prevHole) 0
    (front.map HoleSpan.index ++ [hole.index] ++ post.map HoleSpan.index) 0
  increasing : (front.map HoleSpan.index ++ hole.index :: post.map HoleSpan.index).Pairwise (· < ·)

section Placed

variable {front : List HoleSpan}

variable (place : Placed m front hole post)

include place

theorem Placed.prevEq : m.hole hole.index .prevHole = (front.map HoleSpan.index).getLastD 0 := by
  have linked := place.linked
  rw [append_assoc, append_iff] at linked
  exact linked.2.1

theorem Placed.nextEq : m.hole hole.index .nextHole = (post.map HoleSpan.index).headD 0 := by
  have linked := place.linked
  rw [append_assoc, append_iff] at linked
  exact linked.2.2.1

theorem Placed.ordered : (∀ x ∈ front.map HoleSpan.index, x < hole.index) ∧
      (∀ x ∈ post.map HoleSpan.index, hole.index < x) ∧
      (front.map HoleSpan.index).Nodup ∧ (post.map HoleSpan.index).Nodup := by
  obtain ⟨inFront, behind, across⟩ := pairwise_append.1 place.increasing
  obtain ⟨after, inPost⟩ := pairwise_cons.1 behind
  refine ⟨?_, after, inFront.imp Nat.ne_of_lt, inPost.imp Nat.ne_of_lt⟩
  intro x isFront
  exact across x isFront hole.index (by simp)

theorem Placed.nextNil : m.hole hole.index .nextHole = 0 ↔ post = [] := by
  rw [place.nextEq]
  cases post with
  | nil => simp
  | cons b rest =>
    have after := place.ordered.2.1 b.index (by simp)
    simp only [map_cons, headD_cons, reduceCtorEq, iff_false]
    omega

theorem Placed.front_ne_nil (linkedBack : m.hole hole.index .prevHole ≠ 0) : front ≠ [] := by
  rintro rfl
  exact linkedBack place.prevEq

theorem Placed.prev_mem (nonempty : front ≠ []) :
    m.hole hole.index .prevHole ∈ front.map HoleSpan.index := by
  rw [place.prevEq]
  cases front with
  | nil => exact absurd rfl nonempty
  | cons a rest =>
    rw [map_cons, getLastD_cons]
    exact getLastD_mem_cons

theorem Placed.prev_lt (nonempty : front ≠ []) : m.hole hole.index .prevHole < hole.index :=
  place.ordered.1 _ (place.prev_mem nonempty)

theorem Placed.next_prev (nonempty : front ≠ []) :
    m.hole (m.hole hole.index .prevHole) .nextHole = hole.index := by
  have linked := place.linked
  rw [append_assoc, append_iff] at linked
  rw [place.prevEq]
  exact linked.1.next_last (by simpa using nonempty)

theorem Placed.next_mem (linkedOn : m.hole hole.index .nextHole ≠ 0) :
    m.hole hole.index .nextHole ∈ post.map HoleSpan.index := by
  rw [place.nextEq] at linkedOn ⊢
  cases post with
  | nil => simp at linkedOn
  | cons a rest => simp

theorem Placed.lt_next (linkedOn : m.hole hole.index .nextHole ≠ 0) :
    hole.index < m.hole hole.index .nextHole :=
  place.ordered.2.1 _ (place.next_mem linkedOn)

theorem Placed.head_le {b : HoleSpan} (inPost : b ∈ post) :
    (post.map HoleSpan.index).headD 0 ≤ b.index := by
  have behind := (pairwise_cons.1 (pairwise_append.1 place.increasing).2.1).2
  cases post with
  | nil => simp at inPost
  | cons c rest =>
    rcases mem_cons.1 inPost with rfl | inRest
    · exact le_rfl
    · exact ((pairwise_cons.1 behind).1 b.index (mem_map_of_mem inRest)).le

theorem Placed.next_ne_of_room (forward : hole.index < newh) (room : ∀ b ∈ post, newh < b.index) :
    m.hole hole.index .nextHole ≠ newh := by
  rw [place.nextEq]
  cases post with
  | nil => simp only [map_nil, headD_nil]; omega
  | cons b rest => exact (room b (by simp)).ne'

theorem Placed.ne_index {x : Nat}
    (inList : x ∈ front.map HoleSpan.index ++ post.map HoleSpan.index) : hole.index ≠ x := by
  rcases mem_append.1 inList with inFront | inPost
  · exact (place.ordered.1 x inFront).ne'
  · exact (place.ordered.2.1 x inPost).ne

theorem Placed.fresh (forward : hole.index < newh) (room : ∀ b ∈ post, newh < b.index) :
    ∀ x ∈ front.map HoleSpan.index ++ post.map HoleSpan.index, newh ≠ x := by
  intro x inList
  rcases mem_append.1 inList with inFront | inPost
  · exact ((place.ordered.1 x inFront).trans forward).ne'
  · obtain ⟨b, isPost, rfl⟩ := mem_map.1 inPost
    exact (room b isPost).ne

theorem Placed.splice {m' : Memory} {mid : List HoleSpan}
    (nextOf : ∀ x ∈ front.map HoleSpan.index ++ post.map HoleSpan.index, m'.hole x .nextHole =
      if front ≠ [] ∧ m.hole hole.index .prevHole = x then
        ((mid ++ post).map HoleSpan.index).headD 0
      else m.hole x .nextHole)
    (prevOf : ∀ x ∈ front.map HoleSpan.index ++ post.map HoleSpan.index, m'.hole x .prevHole =
      if post ≠ [] ∧ m.hole hole.index .nextHole = x then
        (mid.map HoleSpan.index).getLastD (m.hole hole.index .prevHole)
      else m.hole x .prevHole)
    (middle : Segment (m'.hole · .nextHole) (m'.hole · .prevHole)
      (m.hole hole.index .prevHole) (mid.map HoleSpan.index) (m.hole hole.index .nextHole)) :
    Segment (m'.hole · .nextHole) (m'.hole · .prevHole) 0
      ((front ++ mid ++ post).map HoleSpan.index) 0 := by
  have ordered := place.ordered
  have before := place.prev_mem
  have behind : post ≠ [] → m.hole hole.index .nextHole ∈ post.map HoleSpan.index :=
    fun nonempty => place.next_mem (mt place.nextNil.1 nonempty)
  simp only [← map_eq_nil_iff (f := HoleSpan.index) (l := front), ne_eq] at nextOf before
  simp only [← map_eq_nil_iff (f := HoleSpan.index) (l := post), ne_eq] at prevOf behind
  simp only [place.prevEq, place.nextEq, mem_append] at nextOf prevOf middle before behind
  rw [map_append, map_append]
  apply place.linked.splice ordered.2.2.1 ordered.2.2.2 _ _ _ middle
  · intro x inPost
    rw [nextOf x (.inr inPost), if_neg]
    rintro ⟨nonempty, rfl⟩
    exact (ordered.1 _ (before nonempty)).not_gt (ordered.2.1 _ inPost)
  · intro x inPost notHead
    rw [prevOf x (.inr inPost), if_neg fun same => notHead same.2.symm]
  · intro nonempty
    rw [prevOf _ (.inr (behind nonempty)), if_pos ⟨nonempty, rfl⟩]
  · intro x inFront notLast
    rw [nextOf x (.inl inFront), if_neg fun same => notLast same.2.symm]
  · intro nonempty
    rw [nextOf _ (.inl (before nonempty)), if_pos ⟨nonempty, rfl⟩, map_append]
  intro x inFront
  rw [prevOf x (.inl inFront), if_neg]
  rintro ⟨nonempty, rfl⟩
  exact (ordered.1 _ inFront).not_gt (ordered.2.1 _ (behind nonempty))

end Placed

theorem HoleChain.starts_kept (chain : HoleChain m firstHole (pre ++ hole :: post))
    (rest : List HoleSpan) (linkedBack : m.hole hole.index .prevHole ≠ 0) :
    ((keptSpans pre ++ rest).map HoleSpan.index).head? = some firstHole := by
  have starts := chain.starts
  rw [keptSpans_of_prevHole chain, if_neg linkedBack]
  cases pre with
  | nil => exact absurd (by simpa using chain.links.1) linkedBack
  | cons a pre => simpa using starts

variable (chain : HoleChain m firstHole (pre ++ hole :: post))
  (increasing : ((pre ++ hole :: post).map HoleSpan.index).Pairwise (· < ·))

include chain increasing

theorem HoleChain.placed : Placed m pre hole post where
  linked := by simpa using chain.linked
  increasing := by simpa using increasing

theorem HoleChain.placed_kept : Placed m (keptSpans pre) hole post where
  linked := chain.kept
  increasing := by
    have sub : (keptSpans pre ++ hole :: post).Sublist (pre ++ hole :: post) :=
      List.Sublist.append_right (keptSpans_sublist pre) _
    simpa using increasing.sublist (sub.map HoleSpan.index)

theorem HoleChain.removeHole (left : keptSpans pre ++ post ≠ []) :
    HoleChain (removeHole m firstHole hole.index).pktBuff
        (removeHole m firstHole hole.index).firstHole (keptSpans pre ++ post) ∧
      (UBoot.removeHole m firstHole hole.index).done = false := by
  have place := chain.placed_kept increasing
  have listed : ¬(m.hole hole.index .prevHole = 0 ∧ m.hole hole.index .nextHole = 0) := by
    rw [← keptSpans_eq_nil chain, place.nextNil]
    simpa using left
  have loopFree : m.hole hole.index .nextHole ≠ 0 → m.hole hole.index .nextHole ≠ hole.index :=
    fun linkedOn => (place.lt_next linkedOn).ne'
  obtain ⟨lastOf, nextOf, prevOf⟩ := removeHole_hole firstHole loopFree listed
  refine ⟨⟨?_, ?_, ?_⟩, ?_⟩
  · unfold UBoot.removeHole
    rw [if_neg listed]
    split
    next unlinked =>
      rw [(keptSpans_eq_nil chain).2 unlinked] at left ⊢
      rw [place.nextEq]
      cases post with
      | nil => simp at left
      | cons b rest => rfl
    next linkedBack =>
      rw [chain.starts_kept post linkedBack]
      split <;> rfl
  · rw [← append_nil (keptSpans pre)]
    apply place.splice
    · intro x _
      simp only [nextOf, ne_eq, keptSpans_eq_nil chain, nil_append, ← place.nextEq]
    · intro x _
      simp only [prevOf, ne_eq, ← place.nextNil]
      rfl
    · trivial
  · intro a inList
    rw [lastOf]
    apply chain.lasts
    have sub : (keptSpans pre ++ post).Sublist (pre ++ hole :: post) :=
      (keptSpans_sublist pre).append (sublist_cons_self hole post)
    exact sub.subset inList
  · unfold UBoot.removeHole
    rw [if_neg listed]
    split
    · rfl
    · split <;> rfl

variable (forward : hole.index < newh) (room : ∀ b ∈ post, newh < b.index) (small : newh < 65536)

include forward room small

theorem HoleChain.moveHole : HoleChain (moveHole m firstHole hole.index newh).pktBuff
        (moveHole m firstHole hole.index newh).firstHole
        (keptSpans pre ++ ⟨newh, hole.last⟩ :: post) ∧
      (UBoot.moveHole m firstHole hole.index newh).done = false := by
  have place := chain.placed_kept increasing
  have fresh := place.fresh forward room
  have freshNext := place.next_ne_of_room forward room
  obtain ⟨lastOf, nextOf, prevOf, first, notDone⟩ := moveHole_hole firstHole freshNext small
  generalize UBoot.moveHole m firstHole hole.index newh = moved at *
  refine ⟨⟨?_, ?_, ?_⟩, notDone⟩
  · rw [first]
    by_cases unlinked : m.hole hole.index .prevHole = 0
    · rw [(keptSpans_eq_nil chain).2 unlinked, if_neg (by simpa using unlinked)]
      rfl
    · rw [if_pos unlinked]
      exact chain.starts_kept _ unlinked
  · rw [← singleton_append, ← append_assoc]
    apply place.splice
    · intro x inList
      simp only [nextOf, if_neg (fresh x inList), ne_eq, keptSpans_eq_nil chain]
      rfl
    · intro x inList
      simp only [prevOf, if_neg (fresh x inList), ne_eq, ← place.nextNil]
      rfl
    refine ⟨?_, ?_, trivial⟩
    · exact (prevOf newh).trans (by rw [if_neg (by tauto), if_pos rfl])
    apply (nextOf newh).trans
    rw [if_neg, if_pos rfl]
    · rfl
    · rintro ⟨linkedBack, same⟩
      have := place.prev_lt (place.front_ne_nil linkedBack)
      omega
  · intro a inList
    rw [lastOf]
    rcases mem_append.1 inList with inKept | inRest
    · have := place.ordered.1 a.index (mem_map_of_mem inKept)
      rw [if_neg (by omega)]
      exact chain.lasts a (mem_append_left _ ((keptSpans_sublist pre).subset inKept))
    rcases mem_cons.1 inRest with rfl | inPost
    · rw [if_pos rfl]
      exact chain.lasts hole (by simp)
    · have := room a inPost
      rw [if_neg (by omega)]
      exact chain.lasts a (by simp [inPost])

theorem HoleChain.splitHole (smallStart : start < 65536) :
    HoleChain (splitHole m firstHole hole.index newh start).pktBuff firstHole
      (pre ++ ⟨hole.index, start⟩ :: ⟨newh, hole.last⟩ :: post) := by
  have place := chain.placed increasing
  have fresh := place.fresh forward room
  have freshNext := place.next_ne_of_room forward room
  obtain ⟨lastOf, nextOf, prevOf⟩ :=
    splitHole_hole m firstHole forward.ne small smallStart (by omega)
  generalize UBoot.splitHole m firstHole hole.index newh start = halves at *
  refine ⟨?_, ?_, ?_⟩
  · have starts := chain.starts
    rw [← starts]
    cases pre <;> rfl
  · have rejoin : pre ++ ⟨hole.index, start⟩ :: ⟨newh, hole.last⟩ :: post =
        pre ++ [⟨hole.index, start⟩, ⟨newh, hole.last⟩] ++ post := by simp
    rw [rejoin]
    apply place.splice
    · intro x inList
      rw [nextOf, if_neg (place.ne_index inList), if_neg (fresh x inList)]
      split_ifs with last
      · rw [← last.2, place.next_prev last.1]
        rfl
      · rfl
    · intro x inList
      simp only [prevOf, if_neg (fresh x inList), ne_eq, ← place.nextNil]
      rfl
    refine ⟨?_, ?_, ?_, ?_, trivial⟩
    · apply (prevOf hole.index).trans
      rw [if_neg, if_neg (by omega)]
      rintro ⟨linkedOn, same⟩
      have := place.lt_next linkedOn
      omega
    · exact (nextOf hole.index).trans (if_pos rfl)
    · apply (prevOf newh).trans
      rw [if_neg (by tauto), if_pos rfl]
    · apply (nextOf newh).trans
      rw [if_neg (by omega), if_pos rfl]
      rfl
  · intro a inList
    rw [lastOf]
    rcases mem_append.1 inList with inPre | inRest
    · have := place.ordered.1 a.index (mem_map_of_mem inPre)
      rw [if_neg (by omega), if_neg (by omega)]
      exact chain.lasts a (by simp [inPre])
    rcases mem_cons.1 inRest with rfl | inRest
    · exact if_pos rfl
    rcases mem_cons.1 inRest with rfl | inPost
    · rw [if_neg (by simp only; omega), if_pos rfl]
      exact chain.lasts hole (by simp)
    · have := room a inPost
      rw [if_neg (by omega), if_neg (by omega)]
      exact chain.lasts a (by simp [inPost])

end Updates

end UBoot
