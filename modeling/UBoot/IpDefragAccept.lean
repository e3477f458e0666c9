import UBoot.IpDefragChain

/-!
# Taking a fragment into a hole

A fragment that overlaps with a hole is taken into it: `fixedSpans` says which
holes are left.  Two conditions keep the descriptors of the holes intact.  A last
fragment must end before the next hole, since it is not cut at the end of its
hole; and a hole that begins at the end of the fragment must have room for its
descriptor before the end of the buffer.
-/

namespace UBoot

open List Memory HoleSpan DefragState

def HoleSpan.truncated (hole : HoleSpan) (ip : Memory) : Nat :=
  if ip.moreFragments then hole.last else ip.fragStart + ip.fragLen

def HoleSpan.usedLen (hole : HoleSpan) (ip : Memory) : Nat :=
  if hole.truncated ip < ip.fragStart + ip.fragLen then hole.truncated ip - ip.fragStart
  else ip.fragLen

def fixedSpans (ip : Memory) (pre : List HoleSpan) (hole : HoleSpan)
    (post : List HoleSpan) : List HoleSpan :=
  let last := hole.truncated ip
  let len := hole.usedLen ip
  if ip.offset8 ≤ hole.index ∧ last ≤ ip.fragStart + len then keptSpans pre ++ post
  else if last ≤ ip.fragStart + len then pre ++ ⟨hole.index, ip.fragStart⟩ :: post
  else if ip.offset8 ≤ hole.index then
    keptSpans pre ++ ⟨ip.offset8 + len / 8, last⟩ :: post
  else pre ++ ⟨hole.index, ip.fragStart⟩ :: ⟨ip.offset8 + len / 8, last⟩ :: post

/-- The byte `x` is missing. -/
def Missing (spans : List HoleSpan) (x : Nat) : Prop := ∃ a ∈ spans, 8 * a.index ≤ x ∧ x < a.last

/-- The fragment overlaps with `hole`, the first one it can overlap with, and
neither of the two dangers is there. -/
structure Overlap (config : DefragConfig) (ip : Memory) (pre : List HoleSpan)
    (hole : HoleSpan) (post : List HoleSpan) : Prop where
  admissible : ip.Admissible config
  before : ∀ a ∈ pre, a.last < ip.fragStart
  reaches : ip.fragStart ≤ hole.last
  overlaps : hole.index < ip.offset8 + (ip.fragLen + 7) / 8
  clear : ip.moreFragments = false → ∀ b ∈ post, ip.fragStart + ip.fragLen ≤ 8 * b.index
  room : ip.moreFragments = true → ip.fragStart + ip.fragLen < hole.last →
    ip.fragStart + ip.fragLen + 8 ≤ config.ipMaxudp

variable {config : DefragConfig} {ip : Memory} {pre post : List HoleSpan} {hole : HoleSpan}

theorem fragStart_eq (ip : Memory) : ip.fragStart = 8 * ip.offset8 := by
  unfold fragStart
  omega

theorem Memory.Admissible.dvd (admissible : ip.Admissible config)
    (more : ip.moreFragments = true) : 8 ∣ ip.fragLen := by
  have check := admissible.2.1
  rw [show (7 : Nat) = 2 ^ 3 - 1 from rfl, Nat.and_two_pow_sub_one_eq_mod] at check
  simp only [more, and_true, ne_eq, Decidable.not_not] at check
  omega

theorem Memory.Admissible.bounds (admissible : ip.Admissible config) :
    0 < ip.fragLen ∧ ip.fragStart + ip.fragLen ≤ config.ipMaxudp ∧
      config.ipMaxudp + 20 = config.netMaxdefrag ∧ config.ipMaxudp < 65536 := by
  obtain ⟨nonempty, -, bound⟩ := admissible
  have lower := config.lower
  have upper := config.upper
  unfold fragLen DefragConfig.ipMaxudp IP_HDR_SIZE at *
  omega

section

variable (overlap : Overlap config ip pre hole post)

include overlap

theorem Overlap.start_le_truncated : ip.fragStart ≤ hole.truncated ip := by
  unfold truncated
  split
  · exact overlap.reaches
  · omega

theorem Overlap.used_le :
    ip.fragStart + hole.usedLen ip ≤ hole.truncated ip ∧ hole.usedLen ip ≤ ip.fragLen := by
  have := overlap.start_le_truncated
  unfold HoleSpan.usedLen
  split <;> omega

theorem Overlap.goes_on (goesOn : ip.fragStart + hole.usedLen ip < hole.truncated ip) :
    ip.moreFragments = true ∧ hole.usedLen ip = ip.fragLen ∧ hole.truncated ip = hole.last ∧
      8 ∣ ip.fragLen ∧ ip.fragStart + ip.fragLen + 8 ≤ config.ipMaxudp := by
  have used : hole.usedLen ip = ip.fragLen := by
    have := overlap.start_le_truncated
    unfold HoleSpan.usedLen at goesOn ⊢
    split at goesOn
    · omega
    · rw [if_neg (by assumption)]
  have more : ip.moreFragments = true := by
    by_contra notMore
    rw [used, truncated, if_neg notMore] at goesOn
    omega
  have truncated : hole.truncated ip = hole.last := if_pos more
  refine ⟨more, used, truncated, overlap.admissible.dvd more, overlap.room more ?_⟩
  omega

end

theorem HoleSpans.replace (holes : HoleSpans config (pre ++ hole :: post)) {shrunk : HoleSpan}
    (begins : hole.index ≤ shrunk.index) (ends : shrunk.last ≤ hole.last)
    (long : 8 * shrunk.index + 8 ≤ shrunk.last) (aligned : 8 ∣ shrunk.last ∨ shrunk.last = 65535)
    (inside : holeAddr shrunk.index + 8 ≤ config.netMaxdefrag) :
    HoleSpans config (pre ++ shrunk :: post) := by
  have parts := pairwise_append.1 holes.apart
  have behind := pairwise_cons.1 parts.2.1
  have each (P : HoleSpan → Prop) (old : ∀ a ∈ pre ++ hole :: post, P a) (new : P shrunk) :
      ∀ a ∈ pre ++ shrunk :: post, P a := by
    simp only [forall_mem_append, forall_mem_cons] at old ⊢
    exact ⟨old.1, new, old.2.2⟩
  refine ⟨?_, each _ holes.long long, each _ holes.aligned aligned, each _ holes.inside inside⟩
  refine pairwise_append.2 ⟨parts.1, pairwise_cons.2 ⟨?_, behind.2⟩, ?_⟩
  · intro b inPost
    have := behind.1 b inPost
    omega
  intro a inPre b inRest
  rcases mem_cons.1 inRest with rfl | inPost
  · have := parts.2.2 a inPre hole (by simp)
    omega
  · exact parts.2.2 a inPre b (by simp [inPost])

theorem HoleSpans.insert {first second : HoleSpan}
    (withFirst : HoleSpans config (pre ++ first :: post))
    (withSecond : HoleSpans config (pre ++ second :: post))
    (apart : first.last < 8 * second.index) :
    HoleSpans config (pre ++ first :: second :: post) := by
  have firstParts := pairwise_append.1 withFirst.apart
  have secondParts := pairwise_append.1 withSecond.apart
  have each (P : HoleSpan → Prop) (one : ∀ a ∈ pre ++ first :: post, P a)
      (other : ∀ a ∈ pre ++ second :: post, P a) : ∀ a ∈ pre ++ first :: second :: post, P a := by
    simp only [forall_mem_append, forall_mem_cons] at one other ⊢
    exact ⟨one.1, one.2.1, other.2⟩
  refine ⟨?_, each _ withFirst.long withSecond.long, each _ withFirst.aligned withSecond.aligned,
    each _ withFirst.inside withSecond.inside⟩
  refine pairwise_append.2 ⟨firstParts.1, pairwise_cons.2 ⟨?_, secondParts.2.1⟩, ?_⟩
  · intro b inRest
    rcases mem_cons.1 inRest with rfl | inPost
    · exact apart
    · exact (pairwise_cons.1 firstParts.2.1).1 b inPost
  intro a inPre b inRest
  rcases mem_cons.1 inRest with rfl | inRest
  · exact firstParts.2.2 a inPre b (by simp)
  · exact secondParts.2.2 a inPre b inRest

theorem HoleSpans.last_not_missing (holes : HoleSpans config (pre ++ hole :: post)) :
    ¬Missing (pre ++ hole :: post) hole.last := by
  have long := holes.long hole (by simp)
  rintro ⟨a, inList, lower, upper⟩
  simp only [mem_append, mem_cons] at inList
  rcases inList with inPre | rfl | inPost
  · have := holes.split.1 a inPre
    omega
  · omega
  · have := holes.split.2.1 a inPost
    omega

theorem mem_fixedSpans {a : HoleSpan} : a ∈ fixedSpans ip pre hole post ↔
    a ∈ (if ip.offset8 ≤ hole.index then keptSpans pre else pre) ∨
      hole.index < ip.offset8 ∧ a = ⟨hole.index, ip.fragStart⟩ ∨
      ip.fragStart + hole.usedLen ip < hole.truncated ip ∧
        a = ⟨ip.offset8 + hole.usedLen ip / 8, hole.truncated ip⟩ ∨ a ∈ post := by
  unfold fixedSpans
  by_cases ends : hole.truncated ip ≤ ip.fragStart + hole.usedLen ip <;>
    by_cases first : ip.offset8 ≤ hole.index <;> simp [ends, first, ← not_le]

section Fixed

variable (overlap : Overlap config ip pre hole post)
  (holes : HoleSpans config (pre ++ hole :: post))

include overlap holes

theorem Overlap.used_before {b : HoleSpan} (inPost : b ∈ post) :
    ip.fragStart + hole.usedLen ip ≤ 8 * b.index := by
  have apart := holes.split.2.1 b inPost
  have used := overlap.used_le
  cases more : ip.moreFragments with
  | true =>
    rw [truncated, if_pos more] at used
    omega
  | false =>
    have clear := overlap.clear more b inPost
    omega

theorem Overlap.new_index (goesOn : ip.fragStart + hole.usedLen ip < hole.truncated ip) :
    8 * (ip.offset8 + hole.usedLen ip / 8) = ip.fragStart + hole.usedLen ip ∧
      hole.index < ip.offset8 + hole.usedLen ip / 8 ∧
      (∀ b ∈ post, ip.offset8 + hole.usedLen ip / 8 < b.index) ∧
      8 * (ip.offset8 + hole.usedLen ip / 8) + 8 ≤ hole.last := by
  obtain ⟨more, used, truncated, ⟨blocks, whole⟩, room⟩ := overlap.goes_on goesOn
  have start := fragStart_eq ip
  have overlaps := overlap.overlaps
  have bounds := overlap.admissible.bounds
  have aligned := holes.aligned hole (by simp)
  refine ⟨by omega, by omega, ?_, by omega⟩
  intro b inPost
  have apart := holes.split.2.1 b inPost
  omega

theorem Overlap.shortened (inside : hole.index < ip.offset8) :
    HoleSpans config (pre ++ ⟨hole.index, ip.fragStart⟩ :: post) := by
  have start := fragStart_eq ip
  apply holes.replace
  · exact le_rfl
  · exact overlap.reaches
  · show 8 * hole.index + 8 ≤ ip.fragStart
    omega
  · exact .inl ⟨ip.offset8, start⟩
  · exact holes.inside hole (by simp)

theorem Overlap.moved (goesOn : ip.fragStart + hole.usedLen ip < hole.truncated ip) :
    HoleSpans config (pre ++ ⟨ip.offset8 + hole.usedLen ip / 8, hole.truncated ip⟩ :: post) := by
  obtain ⟨position, forward, -, long⟩ := overlap.new_index holes goesOn
  obtain ⟨-, used, truncated, -, room⟩ := overlap.goes_on goesOn
  have bounds := overlap.admissible.bounds
  rw [truncated]
  apply holes.replace
  · exact forward.le
  · exact le_rfl
  · exact long
  · exact holes.aligned hole (by simp)
  · show holeAddr (ip.offset8 + hole.usedLen ip / 8) + 8 ≤ _
    unfold holeAddr IP_HDR_SIZE
    omega

theorem Overlap.fixed : HoleSpans config (fixedSpans ip pre hole post) := by
  have used := overlap.used_le
  unfold fixedSpans
  simp only
  split_ifs with removed shortened moved
  · apply holes.sublist
    exact (keptSpans_sublist pre).append (sublist_cons_self hole post)
  · exact overlap.shortened holes (by omega)
  · apply (overlap.moved holes (by omega)).sublist
    exact (keptSpans_sublist pre).append (List.Sublist.refl _)
  apply (overlap.shortened holes (by omega)).insert (overlap.moved holes (by omega))
  have position := (overlap.new_index holes (by omega)).1
  have positive := overlap.admissible.bounds.1
  have whole := (overlap.goes_on (by omega)).2.1
  show ip.fragStart < 8 * (ip.offset8 + hole.usedLen ip / 8)
  omega

/-- The holes that are left lie in the old ones and outside the fragment, and end
where a last fragment ends. -/
theorem Overlap.missing_fixed {x : Nat} (missing : Missing (fixedSpans ip pre hole post) x) :
    Missing (pre ++ hole :: post) x ∧ ¬(ip.fragStart ≤ x ∧ x < ip.fragStart + hole.usedLen ip) ∧
      (8 * hole.index ≤ x → x < hole.last → x < hole.truncated ip) := by
  have used := overlap.used_le
  have reaches := overlap.reaches
  obtain ⟨a, inFixed, lower, upper⟩ := missing
  rcases mem_fixedSpans.1 inFixed with isKept | ⟨-, rfl⟩ | ⟨goesOn, rfl⟩ | isPost
  · have isPre : a ∈ pre := by
      split_ifs at isKept
      · exact (keptSpans_sublist pre).subset isKept
      · exact isKept
    have := overlap.before a isPre
    have := holes.split.1 a isPre
    exact ⟨⟨a, by simp [isPre], lower, upper⟩, by omega, by omega⟩
  · simp only at lower upper
    exact ⟨⟨hole, by simp, lower, by omega⟩, by omega, by omega⟩
  · simp only at lower upper
    obtain ⟨position, forward, -, -⟩ := overlap.new_index holes goesOn
    have truncated := (overlap.goes_on goesOn).2.2.1
    exact ⟨⟨hole, by simp, by omega, by omega⟩, by omega, by omega⟩
  · have := overlap.used_before holes isPost
    have := holes.split.2.1 a isPost
    exact ⟨⟨a, by simp [isPost], lower, upper⟩, by omega, by omega⟩

/-- When no hole is lost, the holes that are left are all of the old ones outside
the fragment. -/
theorem Overlap.missing_of_missing (kept : ip.offset8 ≤ hole.index → keptSpans pre = pre) {x : Nat}
    (missing : Missing (pre ++ hole :: post) x)
    (outside : ¬(ip.fragStart ≤ x ∧ x < ip.fragStart + hole.usedLen ip))
    (ends : x < hole.last → x < hole.truncated ip ∨ x < 8 * hole.index) :
    Missing (fixedSpans ip pre hole post) x := by
  have start := fragStart_eq ip
  obtain ⟨a, inList, lower, upper⟩ := missing
  simp only [mem_append, mem_cons] at inList
  rcases inList with inPre | rfl | inPost
  · refine ⟨a, mem_fixedSpans.2 (.inl ?_), lower, upper⟩
    split_ifs with first
    · rwa [kept first]
    · exact inPre
  · have inHole := (ends upper).resolve_right (by omega)
    by_cases front : x < ip.fragStart
    · exact ⟨_, mem_fixedSpans.2 (.inr (.inl ⟨by omega, rfl⟩)), lower, front⟩
    · have position := (overlap.new_index holes (by omega)).1
      exact ⟨_, mem_fixedSpans.2 (.inr (.inr (.inl ⟨by omega, rfl⟩))), by simp only; omega,
        inHole⟩
  · exact ⟨a, mem_fixedSpans.2 (.inr (.inr (.inr inPost))), lower, upper⟩

end Fixed

/-! ## The call -/

section Call

variable {m : Memory} {firstHole : Nat} {state : DefragState}

theorem HoleChain.setLast {last : Nat} (chain : HoleChain m firstHole (pre ++ hole :: post))
    (increasing : ((pre ++ hole :: post).map index).Pairwise (· < ·))
    (small : last < 65536) :
    HoleChain (m.setHole hole.index .lastByte last) firstHole
      (pre ++ ⟨hole.index, last⟩ :: post) := by
  have place := chain.placed increasing
  have sameMap : (pre ++ ⟨hole.index, last⟩ :: post).map index =
      (pre ++ hole :: post).map index := by simp
  refine ⟨?_, ?_, ?_⟩
  · rw [sameMap, chain.starts]
  · rw [sameMap]
    apply chain.linked.congr <;> simp [hole_setHole]
  intro a inList
  rw [hole_setHole]
  rcases mem_append.1 inList with inPre | inRest
  · have := place.ordered.1 a.index (mem_map_of_mem inPre)
    rw [if_neg (by omega)]
    exact chain.lasts a (by simp [inPre])
  rcases mem_cons.1 inRest with rfl | inPost
  · rw [if_pos ⟨rfl, rfl⟩, Nat.mod_eq_of_lt small]
  · have := place.ordered.2.1 a.index (mem_map_of_mem inPost)
    rw [if_neg (by omega)]
    exact chain.lasts a (by simp [inPost])

theorem HoleChain.truncate (chain : HoleChain state.pktBuff firstHole (pre ++ hole :: post))
    (holes : HoleSpans config (pre ++ hole :: post)) (admissible : ip.Admissible config) :
    HoleChain (state.truncate ip hole.index).pktBuff firstHole
      (pre ++ ⟨hole.index, hole.truncated ip⟩ :: post) := by
  have bounds := admissible.bounds
  unfold DefragState.truncate truncated
  split
  · exact chain
  · exact chain.setLast holes.pairwise_index (by omega)

theorem truncate_firstHole (ip : Memory) (h : Nat) :
    (state.truncate ip h).firstHole = state.firstHole := by
  unfold truncate
  split <;> rfl

theorem HoleSpans.pairwise_truncated (holes : HoleSpans config (pre ++ hole :: post))
    (ip : Memory) :
    ((pre ++ (⟨hole.index, hole.truncated ip⟩ : HoleSpan) :: post).map
      index).Pairwise (· < ·) := by simpa using holes.pairwise_index

theorem usedLen_eq (chain : HoleChain m firstHole
      (pre ++ ⟨hole.index, hole.truncated ip⟩ :: post)) :
    usedLen m ip hole.index = hole.usedLen ip := by
  unfold usedLen HoleSpan.usedLen
  rw [chain.lasts ⟨hole.index, hole.truncated ip⟩ (by simp)]

/-! ### Bytes that a call leaves alone -/

/-- An address outside `payload[i]`. -/
def OutsideHole (a i : Nat) : Prop := a < holeAddr i ∨ holeAddr i + 8 ≤ a

variable {a : Nat}

section Frame

variable (place : Placed m pre hole post)
  (outside : ∀ b ∈ pre ++ hole :: post, OutsideHole a b.index)

include place outside

theorem Placed.prev_outside (linkedBack : m.hole hole.index .prevHole ≠ 0) :
    OutsideHole a (m.hole hole.index .prevHole) := by
  obtain ⟨b, inPre, same⟩ := mem_map.1 (place.prev_mem (place.front_ne_nil linkedBack))
  rw [← same]
  exact outside b (by simp [inPre])

theorem Placed.next_outside (linkedOn : m.hole hole.index .nextHole ≠ 0) :
    OutsideHole a (m.hole hole.index .nextHole) := by
  obtain ⟨b, inPost, same⟩ := mem_map.1 (place.next_mem linkedOn)
  rw [← same]
  exact outside b (by simp [inPost])

theorem removeHole_frame (firstHole : Nat) :
    (removeHole m firstHole hole.index).pktBuff a = m a := by
  unfold removeHole
  split_ifs with alone first last
  · rfl
  · exact setHole_of_outside (place.next_outside outside (by tauto))
  · exact setHole_of_outside (place.prev_outside outside first)
  have loopFree := (place.lt_next last).ne'
  simp only [hole_setHole, loopFree, false_and, if_false]
  rw [setHole_of_outside (place.prev_outside outside first),
    setHole_of_outside (place.next_outside outside last)]

theorem moveHole_frame (firstHole : Nat) {newh : Nat}
    (fresh : m.hole hole.index .nextHole ≠ newh) (outsideNew : OutsideHole a newh) :
    (moveHole m firstHole hole.index newh).pktBuff a = m a := by
  have copied := copyHole_of_outside (m := m) (i := hole.index) outsideNew
  unfold moveHole
  by_cases last : m.hole hole.index .nextHole = 0
  · simp only [last, ne_eq, not_true_eq_false, if_false, hole_copyHole, if_true]
    split_ifs with first
    · exact copied
    · exact (setHole_of_outside (place.prev_outside outside first)).trans copied
  have backLink : ((m.copyHole hole.index newh).setHole (m.hole hole.index .nextHole)
      .prevHole newh) a = m a :=
    (setHole_of_outside (place.next_outside outside last)).trans copied
  simp only [last, ne_eq, not_false_eq_true, if_true, hole_setHole, fresh, false_and,
    if_false, hole_copyHole]
  split_ifs with first
  · exact backLink
  · exact (setHole_of_outside (place.prev_outside outside first)).trans backLink

theorem splitHole_frame (firstHole start : Nat) {newh : Nat}
    (forward : hole.index ≠ newh) (outsideNew : OutsideHole a newh) :
    (splitHole m firstHole hole.index newh start).pktBuff a = m a := by
  have copied := copyHole_of_outside (m := m) (i := hole.index) outsideNew
  have outsideHole := outside hole (by simp)
  unfold splitHole
  simp only
  split_ifs with linkedOn
  · simp only [hole_setHole, hole_copyHole, forward, false_and, if_false, if_true,
      reduceCtorEq, and_false] at linkedOn ⊢
    rw [setHole_of_outside (place.next_outside outside linkedOn),
      setHole_of_outside outsideNew, setHole_of_outside outsideHole,
      setHole_of_outside outsideHole, copied]
  · rw [setHole_of_outside outsideNew, setHole_of_outside outsideHole,
      setHole_of_outside outsideHole, copied]

end Frame

theorem HoleSpans.outside_of_not_missing {spans : List HoleSpan} {x : Nat}
    (holes : HoleSpans config spans) (present : ¬Missing spans x) {b : HoleSpan}
    (inSpans : b ∈ spans) : OutsideHole (IP_HDR_SIZE + x) b.index := by
  have long := holes.long b inSpans
  unfold OutsideHole holeAddr
  by_contra meets
  exact present ⟨b, inSpans, by omega, by omega⟩

/-! ### The whole call -/

section Accept

variable (overlap : Overlap config ip pre hole post)
  (holes : HoleSpans config (pre ++ hole :: post))

include overlap holes

theorem Overlap.fixHoles_chain
    (chain : HoleChain m firstHole (pre ++ ⟨hole.index, hole.truncated ip⟩ :: post)) :
    let fixed := fixHoles m firstHole hole.index ip.offset8 (hole.usedLen ip)
    (fixedSpans ip pre hole post = [] → fixed.done = true) ∧
      (fixedSpans ip pre hole post ≠ [] → fixed.done = false ∧
        HoleChain fixed.pktBuff fixed.firstHole (fixedSpans ip pre hole post)) := by
  have increasing := holes.pairwise_truncated ip
  have last : m.hole hole.index .lastByte = hole.truncated ip :=
    chain.lasts ⟨hole.index, hole.truncated ip⟩ (by simp)
  have used := overlap.used_le
  have bounds := overlap.admissible.bounds
  have place := chain.placed_kept increasing
  intro fixed
  unfold fixedSpans
  have startEq : ip.offset8 * 8 = ip.fragStart := rfl
  simp only [fixed, fixHoles, last, startEq]
  split_ifs with removed shortened moved
  · constructor
    · intro none
      obtain ⟨noPre, noPost⟩ := append_eq_nil_iff.1 none
      rw [removeHole, if_pos ⟨(keptSpans_eq_nil chain).1 noPre, place.nextNil.2 noPost⟩]
    · intro left
      exact (chain.removeHole increasing left).symm
  · refine ⟨by simp, fun _ => ⟨rfl, chain.setLast increasing (by omega)⟩⟩
  · obtain ⟨position, forward, room, -⟩ := overlap.new_index holes (by omega)
    refine ⟨by simp, fun _ => ?_⟩
    exact (chain.moveHole increasing forward room (by omega)).symm
  · obtain ⟨position, forward, room, -⟩ := overlap.new_index holes (by omega)
    refine ⟨by simp, fun _ => ⟨rfl, ?_⟩⟩
    exact chain.splitHole increasing forward room (by omega) (by omega)

theorem Overlap.descriptor_outside {a : HoleSpan} (inFixed : a ∈ fixedSpans ip pre hole post) :
    8 * a.index + 8 ≤ ip.fragStart ∨ ip.fragStart + hole.usedLen ip ≤ 8 * a.index := by
  have long := (overlap.fixed holes).long a inFixed
  have inside : ∀ x, 8 * a.index ≤ x → x < 8 * a.index + 8 →
      ¬(ip.fragStart ≤ x ∧ x < ip.fragStart + hole.usedLen ip) := by
    intro x lower upper
    exact (overlap.missing_fixed holes ⟨a, inFixed, lower, by omega⟩).2.1
  have start := fragStart_eq ip
  by_contra meets
  have within := inside (max (8 * a.index) ip.fragStart) (by omega)
  omega

theorem Overlap.fixHoles_frame {a : Nat}
    (chain : HoleChain m firstHole (pre ++ ⟨hole.index, hole.truncated ip⟩ :: post))
    (outside : ∀ b ∈ pre ++ hole :: post, OutsideHole a b.index)
    (outsideNew : ip.fragStart + hole.usedLen ip < hole.truncated ip →
      OutsideHole a (ip.offset8 + hole.usedLen ip / 8)) :
    (fixHoles m firstHole hole.index ip.offset8 (hole.usedLen ip)).pktBuff a = m a := by
  have increasing := holes.pairwise_truncated ip
  have last : m.hole hole.index .lastByte = hole.truncated ip :=
    chain.lasts ⟨hole.index, hole.truncated ip⟩ (by simp)
  have place := chain.placed increasing
  have outside' : ∀ b ∈ pre ++ (⟨hole.index, hole.truncated ip⟩ : HoleSpan) :: post,
      OutsideHole a b.index := by
    simpa only [forall_mem_append, forall_mem_cons] using outside
  have startEq : ip.offset8 * 8 = ip.fragStart := rfl
  simp only [fixHoles, last, startEq]
  split_ifs with removed shortened moved
  · exact removeHole_frame place outside' firstHole
  · exact setHole_of_outside (outside hole (by simp))
  · obtain ⟨-, forward, room, -⟩ := overlap.new_index holes (by omega)
    exact moveHole_frame place outside' firstHole (place.next_ne_of_room forward room)
      (outsideNew (by omega))
  · obtain ⟨-, forward, -, -⟩ := overlap.new_index holes (by omega)
    exact splitHole_frame place outside' firstHole ip.fragStart forward.ne (outsideNew (by omega))

variable (chain : HoleChain state.pktBuff state.firstHole (pre ++ hole :: post))

include chain

/-- A fragment is taken into a hole: the call returns a packet when no hole is
left, and otherwise leaves the descriptors of `fixedSpans`. -/
theorem Overlap.accept : let call := state.accept ip hole.index
    call.copied = (ip.fragStart, hole.usedLen ip) ∧ (fixedSpans ip pre hole post = [] →
        call.lenp = some ((state.truncate ip hole.index).totalLen + IP_HDR_SIZE)) ∧
      (fixedSpans ip pre hole post ≠ [] → call.lenp = none ∧
        HoleChain call.state.pktBuff call.state.firstHole (fixedSpans ip pre hole post)) := by
  have truncated := chain.truncate holes overlap.admissible
  obtain ⟨finished, left⟩ := overlap.fixHoles_chain holes truncated
  intro call
  simp only [call, DefragState.accept, usedLen_eq truncated, truncate_firstHole]
  refine ⟨?_, ?_, ?_⟩
  · split <;> rfl
  · intro none
    rw [if_pos (finished none)]
  intro some
  obtain ⟨notDone, fixed⟩ := left some
  rw [if_neg (by simp [notDone])]
  refine ⟨rfl, ?_⟩
  apply fixed.write
  intro a inFixed
  have outside := overlap.descriptor_outside holes inFixed
  have start := fragStart_eq ip
  rw [length_read]
  unfold holeAddr
  omega

theorem Overlap.accept_pktBuff {a : Nat} (notLength : a < 2 ∨ 4 ≤ a) :
    (state.accept ip hole.index).state.pktBuff a =
      (fixHoles (state.truncate ip hole.index).pktBuff state.firstHole hole.index ip.offset8
        (hole.usedLen ip)).pktBuff.write (IP_HDR_SIZE + ip.fragStart)
          (ip.read IP_HDR_SIZE (hole.usedLen ip)) a := by
  have truncated := chain.truncate holes overlap.admissible
  have address : holeAddr ip.offset8 = IP_HDR_SIZE + ip.fragStart := by rw [fragStart_eq, holeAddr]
  simp only [DefragState.accept, usedLen_eq truncated, truncate_firstHole, address]
  split
  · exact write_of_disjoint (by simpa using notLength)
  · rfl

theorem Overlap.fixed_frame {a : Nat} (outside : ∀ b ∈ pre ++ hole :: post, OutsideHole a b.index)
    (outsideNew : ip.fragStart + hole.usedLen ip < hole.truncated ip →
      OutsideHole a (ip.offset8 + hole.usedLen ip / 8)) :
    (fixHoles (state.truncate ip hole.index).pktBuff state.firstHole hole.index ip.offset8
      (hole.usedLen ip)).pktBuff a = state.pktBuff a := by
  rw [overlap.fixHoles_frame holes (chain.truncate holes overlap.admissible) outside outsideNew]
  unfold truncate
  split
  · rfl
  · exact setHole_of_outside (outside hole (by simp))

theorem Overlap.accept_frame {x : Nat} (present : ¬Missing (pre ++ hole :: post) x)
    (outside : ¬(ip.fragStart ≤ x ∧ x < ip.fragStart + hole.usedLen ip)) :
    (state.accept ip hole.index).state.pktBuff (IP_HDR_SIZE + x) =
      state.pktBuff (IP_HDR_SIZE + x) := by
  rw [overlap.accept_pktBuff holes chain (.inr (by unfold IP_HDR_SIZE; omega)),
    write_of_disjoint (by rw [length_read]; omega)]
  apply overlap.fixed_frame holes chain
  · intro b inSpans
    exact holes.outside_of_not_missing present inSpans
  intro goesOn
  obtain ⟨-, forward, -, long⟩ := overlap.new_index holes goesOn
  unfold OutsideHole holeAddr
  by_contra meets
  exact present ⟨hole, by simp, by omega, by omega⟩

theorem Overlap.accept_copied {k : Nat} (inside : k < hole.usedLen ip) :
    (state.accept ip hole.index).state.pktBuff (IP_HDR_SIZE + ip.fragStart + k) =
      ip (IP_HDR_SIZE + k) := by
  rw [overlap.accept_pktBuff holes chain (.inr (by unfold IP_HDR_SIZE; omega)),
    write_inside (by rwa [length_read]), getElem_read]

theorem Overlap.accept_ipId :
    (state.accept ip hole.index).state.pktBuff.ipId = state.pktBuff.ipId := by
  apply readBE_congr
  intro k inside
  have inHeader : ∀ i, OutsideHole (4 + k) i := by
    intro i
    unfold OutsideHole holeAddr IP_HDR_SIZE
    omega
  rw [overlap.accept_pktBuff holes chain (.inr (by omega)),
    write_of_disjoint (.inl (by unfold IP_HDR_SIZE; omega))]
  exact overlap.fixed_frame holes chain (fun b _ => inHeader b.index) (fun _ => inHeader _)

end Accept

theorem accept_totalLen (state : DefragState) (ip : Memory) (h : Nat) :
    (state.accept ip h).state.totalLen =
      if ip.moreFragments then state.totalLen
      else (ip.fragStart + ip.fragLen) % 2 ^ 16 := by
  have same : (state.accept ip h).state.totalLen = (state.truncate ip h).totalLen := by
    unfold accept
    simp only
    split <;> rfl
  rw [same, truncate]
  split <;> rfl

theorem accept_ipLen {h lenp : Nat} (returned : (state.accept ip h).lenp = some lenp) :
    (state.accept ip h).state.pktBuff.ipLen = lenp % 65536 ∧
      lenp = (state.accept ip h).state.totalLen + IP_HDR_SIZE := by
  unfold accept at returned ⊢
  simp only at returned ⊢
  split at returned
  next done =>
    rw [if_pos done]
    cases returned
    exact ⟨readBE_writeBE_same _ 2 2 _, rfl⟩
  next => cases returned

end Call

end UBoot
