import UBoot.IpDefragRuns

/-!
# Reassembly of one datagram

A sender cuts a datagram into consecutive pieces, all but the last of them whole
blocks of eight bytes, and the fragments arrive in any order and any number of
times.  The holes are then exactly the bytes of the pieces that did not arrive,
as long as no fragment arrives directly behind the first run of pieces while the
first piece is missing: such a fragment moves or removes the second hole, and
takes the hole at offset zero out of the list.
-/

namespace UBoot

open List Memory Nat HoleSpan DefragState Option

structure Datagram (config : DefragConfig) where
  id : Nat
  pieces : List (List UInt8)
  nonempty : pieces ≠ []
  filled : ∀ piece ∈ pieces, piece ≠ []
  blocks : ∀ piece ∈ pieces.dropLast, 8 ∣ piece.length
  fits : pieces.flatten.length + 8 ≤ config.ipMaxudp

namespace Datagram

variable {config : DefragConfig} (D : Datagram config)

def payload : List UInt8 := D.pieces.flatten

def offset (i : Nat) : Nat := (D.pieces.take i).flatten.length

structure Fragment where
  index : Nat
  inRange : index < D.pieces.length
  ip : Memory
  ipId : ip.ipId = D.id
  fragStart : ip.fragStart = D.offset index
  ipLen : ip.ipLen = IP_HDR_SIZE + D.pieces[index].length
  moreFragments : ip.moreFragments = decide (index + 1 < D.pieces.length)
  data : ip.read IP_HDR_SIZE D.pieces[index].length = D.pieces[index]

/-- The byte `x` of the payload is in piece `i`. -/
def InPiece (i x : Nat) : Prop := D.offset i ≤ x ∧ x < D.offset (i + 1)

/-! ## Offsets -/

variable {D} {i : Nat}

theorem offset_succ (inRange : i < D.pieces.length) :
    D.offset (i + 1) = D.offset i + D.pieces[i].length := by
  unfold offset
  rw [take_succ_eq_append_getElem inRange, flatten_append, length_append]
  simp

theorem offset_lt_succ (inRange : i < D.pieces.length) : D.offset i < D.offset (i + 1) := by
  have positive := length_pos_of_ne_nil (D.filled _ (getElem_mem inRange))
  rw [offset_succ inRange]
  omega

theorem offset_mono {j : Nat} (le : i ≤ j) : D.offset i ≤ D.offset j := by
  unfold offset
  have split : D.pieces.take j = D.pieces.take i ++ (D.pieces.take j).drop i := by
    have := take_append_drop i (D.pieces.take j)
    rw [take_take, min_eq_left le] at this
    exact this.symm
  rw [split, flatten_append, length_append]
  omega

theorem offset_length : D.offset D.pieces.length = D.payload.length := by
  unfold offset payload
  rw [take_length]

theorem offset_le_length : D.offset i ≤ D.payload.length := by
  rcases le_total i D.pieces.length with le | ge
  · rw [← offset_length]
    exact offset_mono le
  · unfold offset payload
    rw [take_of_length_le ge]

theorem dvd_offset (inRange : i < D.pieces.length) : 8 ∣ D.offset i := by
  induction i with
  | zero => simp [offset]
  | succ i ih =>
    have before : i < D.pieces.length := by omega
    rw [offset_succ before]
    apply Nat.dvd_add (ih before)
    apply D.blocks
    rw [mem_iff_getElem]
    refine ⟨i, by rw [length_dropLast]; omega, ?_⟩
    rw [getElem_dropLast]

theorem inPiece_offset (inRange : i < D.pieces.length) : D.InPiece i (D.offset i) :=
  ⟨le_rfl, offset_lt_succ inRange⟩

theorem InPiece.unique {j x : Nat} (first : D.InPiece i x) (second : D.InPiece j x) : i = j := by
  rcases lt_trichotomy i j with lt | eq | gt
  · have := offset_mono (D := D) (show i + 1 ≤ j by omega)
    have := first.2
    have := second.1
    omega
  · exact eq
  have := offset_mono (D := D) (show j + 1 ≤ i by omega)
  have := second.2
  have := first.1
  omega

theorem exists_inPiece {x n : Nat} (inRange : n ≤ D.pieces.length) (inside : x < D.offset n) :
    ∃ i, i < n ∧ D.InPiece i x := by
  induction n with
  | zero => simp [offset] at inside
  | succ n ih =>
    by_cases before : x < D.offset n
    · obtain ⟨i, lt, inPiece⟩ := ih (by omega) before
      exact ⟨i, by omega, inPiece⟩
    · exact ⟨n, by omega, by omega, inside⟩

theorem getElem_payload {k : Nat} (inRange : i < D.pieces.length)
    (inside : k < D.pieces[i].length) :
    D.payload[D.offset i + k]? = some (D.pieces[i][k]) := by
  have split : D.payload = (D.pieces.take i).flatten ++ (D.pieces.drop i).flatten := by
    rw [← flatten_append, take_append_drop, payload]
  rw [split, offset, List.getElem?_append_right (by omega), Nat.add_sub_cancel_left,
    drop_eq_getElem_cons inRange, flatten_cons, getElem?_append_left inside,
    getElem?_eq_getElem inside]

/-! ## Fragments -/

namespace Fragment

theorem fragEnd (f : D.Fragment) : f.ip.fragStart + f.ip.fragLen = D.offset (f.index + 1) := by
  rw [offset_succ f.inRange, f.fragStart, fragLen, f.ipLen]
  omega

theorem admissible (f : D.Fragment) : f.ip.Admissible config := by
  have positive := offset_lt_succ f.inRange
  have stop := f.fragEnd
  have start := f.fragStart
  have bound := offset_le_length (D := D) (i := f.index + 1)
  have fits := D.fits
  refine ⟨?_, ?_, ?_⟩
  · unfold fragLen at stop
    omega
  · rintro ⟨ragged, more⟩
    rw [f.moreFragments, decide_eq_true_iff] at more
    have blocks := dvd_offset more
    have blocksBefore := dvd_offset f.inRange
    rw [show (7 : Nat) = 2 ^ 3 - 1 from rfl, and_two_pow_sub_one_eq_mod] at ragged
    omega
  · unfold payload at bound
    omega

theorem getElem_data (f : D.Fragment) {k : Nat} (inside : k < f.ip.fragLen) :
    D.payload[D.offset f.index + k]? = some (f.ip (IP_HDR_SIZE + k)) := by
  have stop := f.fragEnd
  rw [offset_succ f.inRange, f.fragStart] at stop
  have inRange := f.inRange
  have inPiece : k < D.pieces[f.index].length := by omega
  rw [getElem_payload inRange inPiece]
  congr 1
  exact (read_eq_iff.1 f.data k inPiece).symm

end Fragment

/-! ## Progress -/

def bound (D : Datagram config) (seen : List Nat) : Nat :=
  if D.pieces.length - 1 ∈ seen then D.payload.length else 65535

/-- The variables of `__net_defragment` when the pieces of `seen` have arrived. -/
structure Progress (D : Datagram config) (seen : List Nat) (state : DefragState)
    (spans : List HoleSpan) : Prop where
  holes : HoleSpans config spans
  chain : HoleChain state.pktBuff state.firstHole spans
  missing : ∀ x, Missing spans x ↔ x < D.bound seen ∧ ∀ i ∈ seen, ¬D.InPiece i x
  data : ∀ i ∈ seen, ∀ x, D.InPiece i x → D.payload[x]? = some (state.pktBuff (IP_HDR_SIZE + x))
  started : state.totalLen ≠ 0
  ipId : state.pktBuff.ipId = D.id
  total : D.pieces.length - 1 ∈ seen → state.totalLen = D.payload.length

/-- The fragment would come directly behind the first run of pieces, with the
first piece still missing. -/
def FollowsFirstRun (seen : List Nat) (i : Nat) : Prop :=
  ∃ r < i, 0 < r ∧ (∀ j < r, j ∉ seen) ∧ ∀ j < i, r ≤ j → j ∈ seen

instance (seen : List Nat) (i : Nat) : Decidable (FollowsFirstRun seen i) := by
  unfold FollowsFirstRun
  infer_instance

structure Returned (D : Datagram config) (call : DefragCall) : Prop where
  lenp : call.lenp = some (IP_HDR_SIZE + D.payload.length)
  ipLen : call.state.pktBuff.ipLen = IP_HDR_SIZE + D.payload.length
  payload : call.state.pktBuff.read IP_HDR_SIZE D.payload.length = D.payload

section Step

variable {seen : List Nat} {state : DefragState} {spans pre post : List HoleSpan}
  {hole : HoleSpan}

theorem length_lt (D : Datagram config) : D.payload.length < 65509 := by
  have fits := D.fits
  have upper := config.upper
  unfold DefragConfig.ipMaxudp IP_HDR_SIZE at fits
  unfold payload
  omega

theorem length_le_bound (D : Datagram config) (seen : List Nat) :
    D.payload.length ≤ D.bound seen := by
  have := D.length_lt
  unfold bound
  split <;> omega

theorem bound_cons_le (D : Datagram config) (i : Nat) (seen : List Nat) :
    D.bound (i :: seen) ≤ D.bound seen := by
  have := D.length_lt
  unfold bound
  split_ifs with now before
  · exact le_rfl
  · omega
  · rename_i isSeen
    exact absurd (mem_cons_of_mem i isSeen) now
  · exact le_rfl

theorem bound_cons_of_more (D : Datagram config) {i : Nat} (seen : List Nat)
    (more : i + 1 < D.pieces.length) : D.bound (i :: seen) = D.bound seen := by
  unfold bound
  simp [show D.pieces.length - 1 ≠ i by omega]

theorem bound_cons_last (D : Datagram config) {i : Nat} (seen : List Nat)
    (last : i + 1 = D.pieces.length) : D.bound (i :: seen) = D.payload.length := by
  unfold bound
  rw [if_pos (by simp [← last])]

theorem InPiece.lt_length {i x : Nat} (inPiece : D.InPiece i x) : x < D.payload.length :=
  inPiece.2.trans_le offset_le_length

namespace Progress

section Seen

variable (progress : D.Progress seen state spans)

include progress

theorem missing_of_new {x : Nat} (new : i ∉ seen) (inPiece : D.InPiece i x) : Missing spans x := by
  rw [progress.missing]
  refine ⟨inPiece.lt_length.trans_le (D.length_le_bound seen), ?_⟩
  intro j isSeen inOther
  exact new (inPiece.unique inOther ▸ isSeen)

theorem not_missing_of_seen {x : Nat} (isSeen : i ∈ seen) (inPiece : D.InPiece i x) :
    ¬Missing spans x := by
  rw [progress.missing]
  intro missing
  exact missing.2 i isSeen inPiece

theorem seen_of_not_missing {x : Nat} (present : ¬Missing spans x) (inPiece : D.InPiece i x) :
    i ∈ seen := by
  by_contra new
  exact present (progress.missing_of_new new inPiece)

theorem again (isSeen : i ∈ seen) : D.Progress (i :: seen) state spans := by
  have same : ∀ j, j ∈ i :: seen ↔ j ∈ seen := by
    intro j
    rw [mem_cons, or_iff_right_of_imp]
    rintro rfl
    exact isSeen
  have sameBound : D.bound (i :: seen) = D.bound seen := by
    unfold bound
    simp only [same]
  refine ⟨progress.holes, progress.chain, ?_, ?_, progress.started, progress.ipId, ?_⟩
  · simpa only [same, sameBound] using progress.missing
  · simpa only [same] using progress.data
  · simpa only [same] using progress.total

end Seen

section Hole

variable (progress : D.Progress seen state (pre ++ hole :: post))

include progress

theorem hole_of_new (inRange : i < D.pieces.length) (new : i ∉ seen)
    (before : ∀ a ∈ pre, a.last < D.offset i) (reaches : D.offset i ≤ hole.last) :
    8 * hole.index ≤ D.offset i ∧ D.offset (i + 1) ≤ hole.last := by
  constructor
  · obtain ⟨a, inList, lower, upper⟩ := progress.missing_of_new new (inPiece_offset inRange)
    simp only [mem_append, mem_cons] at inList
    rcases inList with inPre | rfl | inPost
    · have := before a inPre
      omega
    · exact lower
    · have := progress.holes.split.2.1 a inPost
      omega
  · by_contra short
    apply progress.holes.last_not_missing
    exact progress.missing_of_new new ⟨reaches, by omega⟩

theorem hole_of_seen
    (inRange : i < D.pieces.length) (isSeen : i ∈ seen) (reaches : D.offset i ≤ hole.last)
    (overlaps : 8 * hole.index < D.offset (i + 1)) : hole.last = D.offset i := by
  have positive := offset_lt_succ inRange
  have long := progress.holes.long hole (by simp)
  by_contra further
  apply progress.not_missing_of_seen isSeen
    (x := max (D.offset i) (8 * hole.index)) ⟨by omega, by omega⟩
  exact ⟨hole, by simp, by omega, by omega⟩

/-- The hole at offset zero is lost only to a fragment that follows the first run. -/
theorem kept_of_not_follows (starts : 8 * hole.index = D.offset i) (inRange : i < D.pieces.length)
    (allowed : ¬FollowsFirstRun seen i) : keptSpans pre = pre := by
  unfold keptSpans
  split
  next zero =>
    rcases eq_nil_or_concat pre with rfl | ⟨front, a, split⟩
    · rfl
    exfalso
    apply allowed
    rw [concat_eq_append] at split
    subst split
    have apart := progress.holes.split
    have long := progress.holes.long a (by simp)
    have first : a.index = 0 := by simpa [getLastD_concat] using zero
    have gap : a.last < D.offset i := by
      have := apart.1 a (by simp)
      omega
    have present : ∀ x, a.last ≤ x → x < D.offset i →
        ¬Missing ((front ++ [a]) ++ hole :: post) x := by
      have holes := progress.holes
      rw [append_assoc, singleton_append] at holes
      rintro x lower upper ⟨c, inList, from8, upTo⟩
      simp only [mem_append, mem_cons, not_mem_nil, or_false] at inList
      rcases inList with (inFront | rfl) | rfl | inPost
      · have := holes.split.1 c inFront
        omega
      · omega
      · omega
      · have := apart.2.1 c inPost
        have := progress.holes.long hole (by simp)
        omega
    have absent : ∀ x, x < a.last → Missing ((front ++ [a]) ++ hole :: post) x := by
      intro x lt
      exact ⟨a, by simp, by omega, lt⟩
    obtain ⟨r, before, inPiece⟩ := exists_inPiece (le_of_lt inRange) gap
    have rSeen := progress.seen_of_not_missing (present a.last le_rfl gap) inPiece
    have rStart : D.offset r = a.last := by
      by_contra different
      have := inPiece.1
      exact progress.not_missing_of_seen rSeen (inPiece_offset (by omega))
        (absent (D.offset r) (by omega))
    refine ⟨r, before, ?_, ?_, ?_⟩
    · rcases Nat.eq_zero_or_pos r with rfl | positive
      · simp only [offset, take_zero, flatten_nil, length_nil] at rStart
        omega
      · exact positive
    · intro j lt isSeen
      have := offset_lt_succ (D := D) (show j < D.pieces.length by omega)
      have := offset_mono (D := D) (show j + 1 ≤ r by omega)
      exact progress.not_missing_of_seen isSeen (inPiece_offset (by omega))
        (absent (D.offset j) (by omega))
    intro j lt ge
    have := offset_mono (D := D) ge
    have := offset_lt_succ (D := D) (show j < D.pieces.length by omega)
    have := offset_mono (D := D) (show j + 1 ≤ i by omega)
    exact progress.seen_of_not_missing (present (D.offset j) (by omega) (by omega))
      (inPiece_offset (by omega))
  next => rfl

variable (f : D.Fragment)

theorem overlap (before : ∀ a ∈ pre, a.last < f.ip.fragStart) (reaches : f.ip.fragStart ≤ hole.last)
    (overlaps : hole.index < f.ip.offset8 + (f.ip.fragLen + 7) / 8) :
    Overlap config f.ip pre hole post := by
  have start := f.fragStart
  have stop := f.fragEnd
  have apart := progress.holes.split
  have block := fragStart_eq f.ip
  refine ⟨f.admissible, before, reaches, overlaps, ?_, ?_⟩
  · intro _ b inPost
    have behind := apart.2.1 b inPost
    by_cases isSeen : f.index ∈ seen
    · have ends := progress.hole_of_seen f.inRange isSeen (start ▸ reaches) (by omega)
      have longB := progress.holes.long b (by simp [inPost])
      have missing : Missing (pre ++ hole :: post) (8 * b.index) :=
        ⟨b, by simp [inPost], le_rfl, by omega⟩
      by_contra overlapped
      apply progress.not_missing_of_seen isSeen _ missing
      exact ⟨by omega, by omega⟩
    · have inside := progress.hole_of_new f.inRange isSeen (start ▸ before) (start ▸ reaches)
      omega
  · intro _ _
    have total := offset_le_length (D := D) (i := f.index + 1)
    have fits := D.fits
    unfold payload at total
    omega

theorem fixed_of_seen (isSeen : f.index ∈ seen) (reaches : f.ip.fragStart ≤ hole.last)
    (overlaps : hole.index < f.ip.offset8 + (f.ip.fragLen + 7) / 8) :
    fixedSpans f.ip pre hole post = pre ++ hole :: post := by
  have start := f.fragStart
  have stop := f.fragEnd
  have long := progress.holes.long hole (by simp)
  have block := fragStart_eq f.ip
  have ends := progress.hole_of_seen f.inRange isSeen (start ▸ reaches) (by omega)
  have whole : hole.truncated f.ip ≤ f.ip.fragStart + hole.usedLen f.ip := by
    unfold HoleSpan.usedLen truncated
    split_ifs <;> omega
  unfold fixedSpans
  rw [if_neg (by omega), if_pos whole, start, ← ends]

theorem usedLen_of_new (new : f.index ∉ seen)
    (before : ∀ a ∈ pre, a.last < f.ip.fragStart) (reaches : f.ip.fragStart ≤ hole.last) :
    hole.usedLen f.ip = f.ip.fragLen := by
  have start := f.fragStart
  have stop := f.fragEnd
  have inside := progress.hole_of_new f.inRange new (start ▸ before) (start ▸ reaches)
  unfold HoleSpan.usedLen truncated
  split_ifs <;> omega

theorem missing_fixed_of_new (new : f.index ∉ seen)
    (allowed : ¬FollowsFirstRun seen f.index) (overlap : Overlap config f.ip pre hole post)
    (x : Nat) :
    Missing (fixedSpans f.ip pre hole post) x ↔
      x < D.bound (f.index :: seen) ∧ ∀ i ∈ f.index :: seen, ¬D.InPiece i x := by
  have start := f.fragStart
  have stop := f.fragEnd
  have block := fragStart_eq f.ip
  have inside := progress.hole_of_new f.inRange new (start ▸ overlap.before)
    (start ▸ overlap.reaches)
  have used := progress.usedLen_of_new f new overlap.before overlap.reaches
  constructor
  · intro missing
    obtain ⟨wasMissing, notCopied, cut⟩ := overlap.missing_fixed progress.holes missing
    obtain ⟨belowBound, unseen⟩ := (progress.missing x).1 wasMissing
    constructor
    · rcases lt_or_eq_of_le (succ_le_of_lt f.inRange) with more | last
      · rwa [D.bound_cons_of_more seen more]
      have total : D.offset (f.index + 1) = D.payload.length := by rw [← offset_length, ← last]
      have truncated : hole.truncated f.ip = D.payload.length := by
        rw [truncated, f.moreFragments, if_neg (by simp; omega), stop, total]
      rw [D.bound_cons_last seen last]
      by_contra beyond
      obtain ⟨a, inList, lower, upper⟩ := wasMissing
      simp only [mem_append, mem_cons] at inList
      rcases inList with inPre | rfl | inPost
      · have := overlap.before a inPre
        have := f.admissible.bounds.1
        omega
      · have := cut lower upper
        omega
      have behind := progress.holes.split.2.1 a inPost
      apply progress.holes.last_not_missing
      rw [progress.missing]
      refine ⟨by omega, ?_⟩
      intro i _ inPiece
      have := inPiece.lt_length
      omega
    · intro i isSeen inPiece
      rcases mem_cons.1 isSeen with rfl | wasSeen
      · apply notCopied
        have := inPiece.1
        have := inPiece.2
        omega
      · exact unseen i wasSeen inPiece
  · rintro ⟨belowBound, unseen⟩
    apply overlap.missing_of_missing progress.holes
    · intro notAfter
      exact progress.kept_of_not_follows (by omega) f.inRange allowed
    · rw [progress.missing]
      refine ⟨belowBound.trans_le (D.bound_cons_le f.index seen), ?_⟩
      intro i isSeen
      exact unseen i (mem_cons_of_mem _ isSeen)
    · intro copied
      apply unseen f.index (by simp)
      exact ⟨by omega, by omega⟩
    intro inHole
    left
    unfold truncated
    split
    · exact inHole
    next notMore =>
      rw [f.moreFragments, decide_eq_true_iff] at notMore
      have last : f.index + 1 = D.pieces.length := by
        have := f.inRange
        omega
      rw [D.bound_cons_last seen last, ← offset_length, ← last] at belowBound
      omega

theorem missing_fixed (allowed : f.index ∈ seen ∨ ¬FollowsFirstRun seen f.index)
    (overlap : Overlap config f.ip pre hole post) (x : Nat) :
    Missing (fixedSpans f.ip pre hole post) x ↔
      x < D.bound (f.index :: seen) ∧ ∀ i ∈ f.index :: seen, ¬D.InPiece i x := by
  by_cases isSeen : f.index ∈ seen
  · rw [progress.fixed_of_seen f isSeen overlap.reaches overlap.overlaps]
    exact (progress.again isSeen).missing x
  · exact progress.missing_fixed_of_new f isSeen (allowed.resolve_left isSeen) overlap x

theorem data_accept (overlap : Overlap config f.ip pre hole post) {x : Nat}
    (isSeen : i ∈ f.index :: seen) (inPiece : D.InPiece i x) :
    D.payload[x]? = some ((state.accept f.ip hole.index).state.pktBuff (IP_HDR_SIZE + x)) := by
  have start := f.fragStart
  have stop := f.fragEnd
  by_cases copied : f.ip.fragStart ≤ x ∧ x < f.ip.fragStart + hole.usedLen f.ip
  · obtain ⟨k, rfl⟩ := Nat.exists_eq_add_of_le copied.1
    have used := overlap.used_le
    have inside : k < hole.usedLen f.ip := by omega
    rw [← add_assoc, overlap.accept_copied progress.holes progress.chain inside, start]
    exact f.getElem_data (by omega)
  have wasSeen : i ∈ seen := by
    rcases mem_cons.1 isSeen with rfl | wasSeen
    · by_contra new
      have used := progress.usedLen_of_new f new overlap.before overlap.reaches
      have := inPiece.1
      have := inPiece.2
      omega
    · exact wasSeen
  rw [overlap.accept_frame progress.holes progress.chain
    (progress.not_missing_of_seen wasSeen inPiece) copied]
  exact progress.data i wasSeen x inPiece

end Hole

theorem totalLen_accept (progress : D.Progress seen state spans) (f : D.Fragment) (h : Nat) :
    (state.accept f.ip h).state.totalLen ≠ 0 ∧ (D.pieces.length - 1 ∈ f.index :: seen →
        (state.accept f.ip h).state.totalLen = D.payload.length) := by
  have inRange := f.inRange
  have small := D.length_lt
  rw [accept_totalLen, f.fragEnd, f.moreFragments]
  by_cases more : f.index + 1 < D.pieces.length
  · rw [if_pos (by simpa using more)]
    refine ⟨progress.started, ?_⟩
    intro isSeen
    rcases mem_cons.1 isSeen with isLast | wasSeen
    · omega
    · exact progress.total wasSeen
  have last : D.pieces.length = f.index + 1 := by omega
  have positive := f.admissible.bounds.1
  have stop := f.fragEnd
  rw [← last, offset_length] at stop ⊢
  rw [if_neg (by simp), mod_eq_of_lt (by omega)]
  exact ⟨by omega, fun _ => rfl⟩

/-- A fragment that leaves pieces missing returns nothing and makes progress; the
one that brings the last missing piece returns the datagram. -/
theorem accept (progress : D.Progress seen state (pre ++ hole :: post))
    (f : D.Fragment) (allowed : f.index ∈ seen ∨ ¬FollowsFirstRun seen f.index)
    (overlap : Overlap config f.ip pre hole post) :
    let call := state.accept f.ip hole.index
    ((∃ i < D.pieces.length, i ∉ f.index :: seen) →
        call.lenp = none ∧ ∃ spans, D.Progress (f.index :: seen) call.state spans) ∧
      ((∀ i < D.pieces.length, i ∈ f.index :: seen) → D.Returned call) := by
  intro call
  have missing := progress.missing_fixed f allowed overlap
  have holes := overlap.fixed progress.holes
  obtain ⟨-, finished, left⟩ := overlap.accept progress.holes progress.chain
  obtain ⟨started, total⟩ := progress.totalLen_accept f hole.index
  constructor
  · rintro ⟨i, inRange, unseen⟩
    have some : fixedSpans f.ip pre hole post ≠ [] := by
      intro none
      have notMissing : ¬Missing (fixedSpans f.ip pre hole post) (D.offset i) := by
        simp [none, Missing]
      apply notMissing
      rw [missing]
      have inPiece := inPiece_offset inRange
      refine ⟨inPiece.lt_length.trans_le (D.length_le_bound _), ?_⟩
      intro j isSeen inOther
      exact unseen (inPiece.unique inOther ▸ isSeen)
    refine ⟨(left some).1, _, holes, (left some).2, missing, ?_, started, ?_, total⟩
    · intro j isSeen x inPiece
      exact progress.data_accept f overlap isSeen inPiece
    · rw [overlap.accept_ipId progress.holes progress.chain, progress.ipId]
  intro all
  have lastSeen : D.pieces.length - 1 ∈ f.index :: seen := by
    apply all
    have := f.inRange
    omega
  have none : fixedSpans f.ip pre hole post = [] := by
    by_contra some
    obtain ⟨a, rest, split⟩ := exists_cons_of_ne_nil some
    have long := holes.long a (by simp [split])
    have isMissing : Missing (fixedSpans f.ip pre hole post) (8 * a.index) :=
      ⟨a, by simp [split], le_rfl, by omega⟩
    obtain ⟨belowBound, unseen⟩ := (missing _).1 isMissing
    rw [bound, if_pos lastSeen, ← offset_length] at belowBound
    obtain ⟨i, inRange, inPiece⟩ := exists_inPiece le_rfl belowBound
    exact unseen i (all i inRange) inPiece
  have returned := finished none
  obtain ⟨length, lenp⟩ := accept_ipLen returned
  have small := D.length_lt
  rw [lenp, total lastSeen, add_comm] at length
  refine ⟨?_, ?_, ?_⟩
  · rw [returned, lenp, total lastSeen, add_comm]
  · rw [length, mod_eq_of_lt (by unfold IP_HDR_SIZE; omega)]
  rw [read_eq_iff]
  intro x inside
  have inOffsets : x < D.offset D.pieces.length := by rwa [offset_length]
  obtain ⟨i, inRange, inPiece⟩ := exists_inPiece le_rfl inOffsets
  have data := progress.data_accept f overlap (all i inRange) inPiece
  rw [getElem?_eq_getElem inside] at data
  exact (some.inj data).symm

theorem step (f : D.Fragment) (progress : D.Progress seen (state.begin f.ip) spans)
    (allowed : f.index ∈ seen ∨ ¬FollowsFirstRun seen f.index) :
    ∃ call, netDefragment config state f.ip = some call ∧
      ((∃ i < D.pieces.length, i ∉ f.index :: seen) →
        call.lenp = none ∧ ∃ spans, D.Progress (f.index :: seen) call.state spans) ∧
      ((∀ i < D.pieces.length, i ∈ f.index :: seen) → f.index ∉ seen → D.Returned call) := by
  have start := f.fragStart
  have stop := f.fragEnd
  have block := fragStart_eq f.ip
  -- A fragment is only dropped when its piece has arrived before.
  have dropped : f.index ∈ seen →
      ((∃ i < D.pieces.length, i ∉ f.index :: seen) → (state.begin f.ip).drop.lenp = none ∧
          ∃ spans, D.Progress (f.index :: seen) (state.begin f.ip).drop.state spans) ∧
        ((∀ i < D.pieces.length, i ∈ f.index :: seen) → f.index ∉ seen →
          D.Returned (state.begin f.ip).drop) := by
    intro isSeen
    exact ⟨fun _ => ⟨rfl, spans, progress.again isSeen⟩, fun _ new => absurd isSeen new⟩
  rcases netDefragment_cases f.admissible progress.holes progress.chain with
    ⟨allBefore, called⟩ | ⟨pre, hole, post, rfl, before, reaches, -, called⟩
  · refine ⟨_, called, dropped ?_⟩
    by_contra new
    obtain ⟨a, inList, -, upper⟩ := progress.missing_of_new new (inPiece_offset f.inRange)
    have := allBefore a inList
    omega
  refine ⟨_, called, ?_⟩
  split
  next beyond =>
    apply dropped
    by_contra new
    have inside := progress.hole_of_new f.inRange new (start ▸ before) (start ▸ reaches)
    have := f.admissible.bounds.1
    omega
  next overlaps =>
    have overlap := progress.overlap f before reaches (by omega)
    obtain ⟨goesOn, finished⟩ := progress.accept f allowed overlap
    exact ⟨goesOn, fun all _ => finished all⟩

end Progress

theorem progress_reset (f : D.Fragment) (state : DefragState) :
    D.Progress [] (state.reset f.ip) [⟨0, 65535⟩] := by
  refine ⟨reset_spans config, reset_chain state f.ip, ?_, ?_, ?_, ?_, ?_⟩
  · intro x
    simp [Missing, bound]
  · simp
  · simp [reset]
  · rw [← f.ipId]
    apply readBE_congr
    intro k inside
    unfold reset
    simp only
    have inHeader : 4 + k < (f.ip.read 0 IP_HDR_SIZE).length := by
      rw [length_read, IP_HDR_SIZE]
      omega
    rw [← zero_add (4 + k), write_inside inHeader, getElem_read]
  · intro isSeen
    simp at isSeen

def Ready (D : Datagram config) (seen : List Nat) (state : DefragState) : Prop :=
  seen = [] ∧ (state.totalLen = 0 ∨ state.pktBuff.ipId ≠ D.id) ∨
    ∃ spans, D.Progress seen state spans

theorem Ready.begin (ready : D.Ready seen state) (f : D.Fragment) :
    ∃ spans, D.Progress seen (state.begin f.ip) spans := by
  have startsOver : state.StartsOver f.ip ↔ state.totalLen = 0 ∨ state.pktBuff.ipId ≠ D.id := by
    rw [DefragState.StartsOver, f.ipId]
  rcases ready with ⟨rfl, fresh⟩ | ⟨spans, progress⟩
  · rw [begin, if_pos (startsOver.2 fresh)]
    exact ⟨_, progress_reset f state⟩
  rw [DefragState.begin, if_neg]
  · exact ⟨spans, progress⟩
  rw [startsOver]
  rintro (unstarted | other)
  · exact progress.started unstarted
  · exact other progress.ipId

end Step

/-! ## Deliveries -/

/-- Calls of `__net_defragment` that all return nothing. -/
def silentCalls (config : DefragConfig) (state : DefragState) (packets : List Memory) :
    Option DefragState :=
  packets.foldlM (fun state ip => do
    let call ← netDefragment config state ip
    if call.lenp = none then some call.state else none) state

/-- No fragment arrives for the first time directly behind the first run of pieces
while the first piece is missing. -/
def Orderly : (seen : List Nat) → (order : List Nat) → Prop
  | _, [] => True
  | seen, i :: rest => (i ∈ seen ∨ ¬FollowsFirstRun seen i) ∧ Orderly (i :: seen) rest

instance decidableOrderly : (seen order : List Nat) → Decidable (Orderly seen order)
  | _, [] => .isTrue trivial
  | seen, i :: rest =>
    have := decidableOrderly (i :: seen) rest
    inferInstanceAs (Decidable ((i ∈ seen ∨ ¬FollowsFirstRun seen i) ∧ Orderly (i :: seen) rest))

theorem silentCalls_ready {seen : List Nat} {state : DefragState}
    (ready : D.Ready seen state) {fragments : List D.Fragment} {rest : List Nat}
    (orderly : Orderly seen (fragments.map Fragment.index ++ rest))
    (incomplete : ∃ i < D.pieces.length, i ∉ (fragments.map Fragment.index).reverse ++ seen) :
    ∃ last, silentCalls config state (fragments.map Fragment.ip) = some last ∧
      D.Ready ((fragments.map Fragment.index).reverse ++ seen) last ∧
      Orderly ((fragments.map Fragment.index).reverse ++ seen) rest := by
  induction fragments generalizing seen state with
  | nil => exact ⟨state, rfl, ready, orderly⟩
  | cons f fragments ih =>
    obtain ⟨spans, progress⟩ := ready.begin f
    obtain ⟨call, called, goesOn, -⟩ := progress.step f orderly.1
    have seenNow : ((f :: fragments).map Fragment.index).reverse ++ seen =
        (fragments.map Fragment.index).reverse ++ f.index :: seen := by simp
    rw [seenNow] at incomplete ⊢
    have stillMissing : ∃ i < D.pieces.length, i ∉ f.index :: seen := by
      obtain ⟨i, inRange, unseen⟩ := incomplete
      exact ⟨i, inRange, fun isSeen => unseen (mem_append_right _ isSeen)⟩
    obtain ⟨silent, nextSpans, next⟩ := goesOn stillMissing
    obtain ⟨last, ran, lastReady⟩ := ih (Or.inr ⟨nextSpans, next⟩) orderly.2 incomplete
    refine ⟨last, ?_, lastReady⟩
    unfold silentCalls at ran ⊢
    rw [map_cons, foldlM_cons, called]
    simpa [silent] using ran

/-- Fragments in any orderly sequence, with any repetitions: as long as a piece is
missing every call returns nothing, and the call that brings the last missing piece
returns the datagram. -/
theorem reassembled_of_orderly {config : DefragConfig} (D : Datagram config)
    (state : DefragState) (fresh : state.totalLen = 0 ∨ state.pktBuff.ipId ≠ D.id)
    (fragments : List D.Fragment) (final : D.Fragment)
    (orderly : Orderly [] ((fragments ++ [final]).map Fragment.index))
    (incomplete : ∃ i < D.pieces.length, i ∉ fragments.map Fragment.index) :
    ∃ last, silentCalls config state (fragments.map Fragment.ip) = some last ∧
      ∃ call, netDefragment config last final.ip = some call ∧
        (if ∀ i < D.pieces.length, i ∈ (fragments ++ [final]).map Fragment.index then
          D.Returned call else call.lenp = none) := by
  rw [map_append] at orderly
  have begins : D.Ready [] state := Or.inl ⟨rfl, fresh⟩
  obtain ⟨last, ran, ready, finalOrderly⟩ := silentCalls_ready begins orderly
    (by simpa using incomplete)
  obtain ⟨spans, progress⟩ := ready.begin final
  obtain ⟨call, called, goesOn, finished⟩ := progress.step final finalOrderly.1
  refine ⟨last, ran, call, called, ?_⟩
  have same : ∀ i, i ∈ final.index :: ((fragments.map Fragment.index).reverse ++ []) ↔
      i ∈ (fragments ++ [final]).map Fragment.index := by
    intro i
    simp [or_comm]
  simp only [same] at goesOn finished
  split
  next all =>
    apply finished all
    obtain ⟨i, inRange, unseen⟩ := incomplete
    intro isSeen
    have isFinal := all i inRange
    simp only [map_append, mem_append, map_cons, map_nil, mem_singleton] at isFinal
    rcases isFinal with before | rfl
    · exact unseen before
    · simp only [append_nil, mem_reverse] at isSeen
      exact unseen isSeen
  next some =>
    push Not at some
    exact (goesOn some).1

def threePieces : Datagram .default where
  id := 1
  pieces := [replicate 8 1, replicate 8 2, replicate 4 3]
  nonempty := by decide
  filled := by decide
  blocks := by decide
  fits := by decide

def firstOfThree : threePieces.Fragment where
  index := 0
  inRange := by decide
  ip := ipFragment 1 0 true (replicate 8 1)
  ipId := by decide
  fragStart := by decide
  ipLen := by decide
  moreFragments := by decide
  data := by decide

def secondOfThree : threePieces.Fragment where
  index := 1
  inRange := by decide
  ip := ipFragment 1 1 true (replicate 8 2)
  ipId := by decide
  fragStart := by decide
  ipLen := by decide
  moreFragments := by decide
  data := by decide

def thirdOfThree : threePieces.Fragment where
  index := 2
  inRange := by decide
  ip := ipFragment 1 2 false (replicate 4 3)
  ipId := by decide
  fragStart := by decide
  ipLen := by decide
  moreFragments := by decide
  data := by decide

/-- The pieces in reverse order, one of them twice. -/
theorem reassembled_three_pieces : ∃ last, silentCalls .default ⟨fun _ => 0, 0, 0⟩
        [thirdOfThree.ip, secondOfThree.ip, secondOfThree.ip] = some last ∧
      ∃ call, netDefragment .default last firstOfThree.ip = some call ∧
        threePieces.Returned call := by
  obtain ⟨last, ran, call, called, returned⟩ :=
    reassembled_of_orderly threePieces ⟨fun _ => 0, 0, 0⟩ (Or.inl rfl)
      [thirdOfThree, secondOfThree, secondOfThree] firstOfThree (by decide) (by decide)
  exact ⟨last, ran, call, called, by rwa [if_pos (by decide)] at returned⟩

/-- The second and the third of three pieces: the call with the third one returns a
packet, although the first piece has not arrived. -/
theorem returned_without_first_piece :
    ∃ last, silentCalls .default ⟨fun _ => 0, 0, 0⟩ [secondOfThree.ip] = some last ∧
      ∃ call, netDefragment .default last thirdOfThree.ip = some call ∧
        call.lenp = some (IP_HDR_SIZE + threePieces.payload.length) ∧
        call.state.pktBuff.read IP_HDR_SIZE threePieces.payload.length ≠ threePieces.payload := by
  have evaluated : (silentCalls .default ⟨fun _ => 0, 0, 0⟩ [secondOfThree.ip]).bind (fun last =>
      (netDefragment .default last thirdOfThree.ip).map fun call =>
        (call.lenp, call.state.pktBuff.read IP_HDR_SIZE 20)) =
      some (some 40, [8, 0, 2, 0, 0, 0, 0, 0] ++ replicate 8 2 ++ replicate 4 3) := by
    decide
  obtain ⟨last, ran, mapped⟩ := bind_eq_some_iff.1 evaluated
  obtain ⟨call, called, values⟩ := map_eq_some_iff.1 mapped
  simp only [Prod.mk.injEq] at values
  refine ⟨last, ran, call, called, values.1, ?_⟩
  have length : threePieces.payload.length = 20 := by decide
  rw [length, values.2]
  decide

end Datagram

end UBoot
