import UBoot.Tcp

/-!
# Hills hold received data

The numbers of a stream are positions in a sequence without end, of which the
code keeps the lowest 32 bits.  The hills are ranges of positions behind the next
expected one, in order; only a copy of a hill may overlap it, and then both end at
one position.  Everything in a hill and everything before the next expected
position was received, whatever the order of the segments.
-/

namespace UBoot

open TcpState Nat BitVec TcpStream

def segmentReach : Int := 2 ^ 30 + 2 ^ 16

def hillLength : Int := 2 ^ 30 + 2 ^ 17

/-- Ranges of positions, of which the first `cnt` count. -/
structure Ranges where
  cnt : Nat
  l : Nat → Int
  r : Nat → Int

variable {h : Ranges} {next : Int}

namespace Ranges

def InOrder (h : Ranges) (i j : Nat) : Prop := h.r i < h.l j ∨ h.r i = h.r j ∧ h.l i ≤ h.l j

/-- Ranges in order behind the next expected position `next`. -/
structure Settled (h : Ranges) (next : Int) : Prop where
  le : ∀ k < h.cnt, h.l k ≤ h.r k
  inOrder : ∀ i j, i < j → j < h.cnt → h.InOrder i j
  ahead : ∀ k < h.cnt, next < h.l k ∨ h.r k = next ∧ next - hillLength ≤ h.l k
  near : ∀ k < h.cnt, h.r k ≤ next + segmentReach

structure Raised (h : Ranges) (next : Int) : Prop where
  pos : 0 < h.cnt
  le : ∀ k < h.cnt, h.l k ≤ h.r k
  inOrder : ∀ i j, i < j → j < h.cnt → h.InOrder i j
  near : ∀ k < h.cnt, h.r k ≤ next + segmentReach
  reaches : next ≤ h.r 0
  low : next - hillLength ≤ h.l 0
  short : ∀ k < h.cnt, 0 < k → h.r k - h.l k ≤ hillLength

def Holds (h : Ranges) (Received : Int → Prop) : Prop :=
  ∀ k < h.cnt, ∀ x, h.l k ≤ x → x < h.r k → Received x

theorem Settled.next_le_r (settled : h.Settled next) {k : Nat} (inside : k < h.cnt) :
    next ≤ h.r k := by
  have below := settled.le k inside
  rcases settled.ahead k inside with ahead | ⟨ends, -⟩
  · omega
  · omega

theorem Settled.low (settled : h.Settled next) {k : Nat} (inside : k < h.cnt) :
    next - hillLength ≤ h.l k := by
  have long : (0 : Int) ≤ hillLength := by decide
  rcases settled.ahead k inside with ahead | ⟨-, low⟩
  · omega
  · exact low

theorem Settled.raised (settled : h.Settled next) (pos : 0 < h.cnt) : h.Raised next where
  pos := pos
  le := settled.le
  inOrder := settled.inOrder
  near := settled.near
  reaches := settled.next_le_r pos
  low := settled.low pos
  short := by
    intro k inside _
    have near := settled.near k inside
    have longer : segmentReach ≤ hillLength := by decide
    rcases settled.ahead k inside with ahead | ⟨ends, low⟩
    · omega
    · omega

def tail (h : Ranges) : Ranges where
  cnt := h.cnt - 1
  l := fun k => h.l (k + 1)
  r := fun k => h.r (k + 1)

theorem Raised.settled_tail (raised : h.Raised next) : h.tail.Settled (h.r 0) where
  le := fun k inside => raised.le (k + 1) (add_lt_of_lt_sub inside)
  inOrder := fun i j less inside =>
    raised.inOrder (i + 1) (j + 1) (by omega) (add_lt_of_lt_sub inside)
  ahead := by
    intro k inside
    have inside' : k + 1 < h.cnt := add_lt_of_lt_sub inside
    have short := raised.short (k + 1) inside' (succ_pos k)
    rcases raised.inOrder 0 (k + 1) (succ_pos k) inside' with apart | ⟨same, -⟩
    · exact .inl apart
    right
    refine ⟨same.symm, ?_⟩
    unfold tail
    dsimp only
    omega
  near := by
    intro k inside
    have near := raised.near (k + 1) (add_lt_of_lt_sub inside)
    have reaches := raised.reaches
    unfold tail
    dsimp only
    omega

theorem Raised.settled (raised : h.Raised next) (later : next < h.l 0) : h.Settled next where
  le := raised.le
  inOrder := raised.inOrder
  ahead := by
    intro k inside
    left
    rcases Nat.eq_zero_or_pos k with rfl | positive
    · exact later
    have first := raised.le 0 raised.pos
    rcases raised.inOrder 0 k positive inside with apart | ⟨-, after⟩
    · omega
    · omega
  near := raised.near

end Ranges

/-- The stream has the ranges as its hills and expects the position `next`. -/
structure Tracks (t : TcpStream) (h : Ranges) (next : Int) : Prop where
  rcvNxt : t.rcvNxt = serial 32 next
  few : h.cnt ≤ TCP_SACK_HILLS
  cnt : t.cnt = h.cnt
  hill : ∀ k < h.cnt, t.hill k = ⟨serial 32 (h.l k), serial 32 (h.r k)⟩

theorem tcpSeqCmp_serial {a b : Int} (notFarAbove : a - b < 2 ^ 31)
    (notFarBelow : -2 ^ 31 ≤ a - b) : tcpSeqCmp (serial 32 a) (serial 32 b) = a - b := by
  apply serialCmp_serial
  · omega
  · omega

variable {t : TcpStream}

theorem cnt_of_lostLen {n : Nat} (lostLen : t.lostLen = TCP_OPT_LEN_2 + n * TCP_OPT_LEN_8) :
    t.cnt = n := by
  unfold TcpStream.cnt
  rw [lostLen, Nat.add_sub_cancel_left, Nat.mul_div_cancel _ (by decide)]

/-- The receiver's account: everything before the next expected position and in the hills
was received. -/
structure Accounted (t : TcpStream) (first next : Int) (Received : Int → Prop) : Prop where
  before : ∀ x, first ≤ x → x < next → Received x
  hills : ∃ h, Tracks t h next ∧ h.Settled next ∧ h.Holds Received

/-! ## The next expected position -/

variable {first : Int}

theorem Tracks.tcpUpdateRcvNxt {Received : Int → Prop} (tracks : Tracks t h next)
    (raised : h.Raised next) (holds : h.Holds Received)
    (before : ∀ x, first ≤ x → x < next → Received x) :
    ∃ next', next ≤ next' ∧ next' ≤ next + segmentReach ∧
      Accounted t.tcpUpdateRcvNxt first next' Received := by
  have firstHill := tracks.hill 0 raised.pos
  have low := raised.low
  have le := raised.le 0 raised.pos
  have near := raised.near 0 raised.pos
  have compared : tcpSeqCmp t.rcvNxt (t.hill 0).l = next - h.l 0 := by
    rw [tracks.rcvNxt, firstHill]
    apply tcpSeqCmp_serial
    · unfold hillLength at low
      omega
    · unfold segmentReach at near
      omega
  unfold TcpStream.tcpUpdateRcvNxt
  split
  · next reached =>
    refine ⟨h.r 0, raised.reaches, near, ?_, h.tail, ?_, raised.settled_tail, ?_⟩
    · intro x atLeast below
      by_cases old : x < next
      · exact before x atLeast old
      · exact holds 0 raised.pos x (by omega) below
    · have pos := raised.pos
      have few := tracks.few
      refine ⟨?_, ?_, ?_, ?_⟩
      · rw [firstHill]
      · unfold Ranges.tail
        dsimp only
        omega
      · have cnt := tracks.cnt
        unfold TcpStream.cnt TCP_OPT_LEN_2 TCP_OPT_LEN_8 at *
        unfold Ranges.tail
        dsimp only
        omega
      intro k inside
      have inside' : k + 1 < h.cnt := add_lt_of_lt_sub inside
      unfold TCP_SACK_HILLS at *
      dsimp only
      rw [if_neg (by omega), moveHills, if_pos (by omega)]
      exact tracks.hill (k + 1) inside'
    · intro k inside
      exact holds (k + 1) (add_lt_of_lt_sub inside)
  · next notReached =>
    have forward : (0 : Int) ≤ segmentReach := by decide
    exact ⟨next, le_rfl, by omega, before, h, tracks, raised.settled (by omega), holds⟩

/-! ## Finding the place of a range -/

/-- A range of positions that may be recorded: it ends behind the next expected position. -/
structure InReach (next lo hi : Int) : Prop where
  low : next - 2 ^ 16 < lo
  short : hi - lo < 2 ^ 16
  less : lo < hi
  behind : next < hi
  near : hi ≤ next + segmentReach

variable {lo hi : Int} {k : Nat}

theorem Ranges.Settled.compare_r (settled : h.Settled next) (fits : InReach next lo hi)
    (inside : k < h.cnt) :
    tcpSeqCmp (serial 32 (h.r k)) (serial 32 lo) = h.r k - lo := by
  have reaches := settled.next_le_r inside
  have near := settled.near k inside
  obtain ⟨low, short, less, behind, nearEnd⟩ := fits
  unfold segmentReach at *
  apply tcpSeqCmp_serial <;> omega

theorem Ranges.Settled.compare_l (settled : h.Settled next) (fits : InReach next lo hi)
    (inside : k < h.cnt) (meets : lo ≤ h.r k) {x : Int} (atLeast : next - 2 ^ 16 < x)
    (atMost : x ≤ hi) :
    tcpSeqCmp (serial 32 (h.l k)) (serial 32 x) = h.l k - x := by
  have le := settled.le k inside
  have near := settled.near k inside
  obtain ⟨low, short, less, behind, nearEnd⟩ := fits
  have ahead := settled.ahead k inside
  unfold segmentReach hillLength at *
  apply tcpSeqCmp_serial <;> omega

theorem scanHills_spec (tracks : Tracks t h next) (settled : h.Settled next)
    (fits : InReach next lo hi) (left i : Nat) (inside : i + left = h.cnt)
    (below : ∀ k < i, h.r k < lo) :
    let found := scanHills t.hill (serial 32 lo) (serial 32 hi) left i
    found.1 ≤ h.cnt ∧ (∀ k < found.1, h.r k < lo) ∧
      (found.2 = true → found.1 < h.cnt ∧ lo ≤ h.r found.1 ∧ h.l found.1 ≤ hi) ∧
      (found.2 = false → found.1 < h.cnt → hi < h.l found.1) := by
  induction left generalizing i with
  | zero =>
    refine ⟨by simp only [scanHills]; omega, below, nofun, ?_⟩
    intro _ less
    simp only [scanHills] at less
    omega
  | succ left ih =>
    have here : i < h.cnt := by omega
    have compareR := settled.compare_r fits here
    unfold scanHills
    rw [tracks.hill i here, compareR]
    split
    · next isBelow =>
      apply ih (i + 1) (by omega)
      intro k less
      rcases Nat.lt_succ_iff_lt_or_eq.1 less with before | rfl
      · exact below k before
      · omega
    next notBelow =>
    have behind := fits.behind
    rw [settled.compare_l fits here (by omega) (by omega) le_rfl]
    split
    · exact ⟨here.le, below, nofun, fun _ _ => by dsimp only; omega⟩
    · exact ⟨here.le, below, fun _ => ⟨here, by dsimp only; omega, by dsimp only; omega⟩, nofun⟩

/-! ## A range that meets no hill -/

def Ranges.insert (h : Ranges) (i : Nat) (lo hi : Int) : Ranges where
  cnt := if h.cnt < TCP_SACK_HILLS then h.cnt + 1 else TCP_SACK_HILLS
  l := fun k => if k = i then lo else if k < i then h.l k else h.l (k - 1)
  r := fun k => if k = i then hi else if k < i then h.r k else h.r (k - 1)

variable {i : Nat}

theorem Ranges.insert_cases (h : Ranges) (lo hi : Int) (few : h.cnt ≤ TCP_SACK_HILLS)
    (place : i ≤ h.cnt) (inside : k < (h.insert i lo hi).cnt) :
    k = i ∧ (h.insert i lo hi).l k = lo ∧ (h.insert i lo hi).r k = hi ∨
      ∃ old < h.cnt, (h.insert i lo hi).l k = h.l old ∧ (h.insert i lo hi).r k = h.r old ∧
        (k < i ∧ old = k ∨ i < k ∧ old = k - 1) := by
  unfold insert at *
  dsimp only at *
  by_cases here : k = i
  · left
    rw [if_pos here, if_pos here]
    exact ⟨here, rfl, rfl⟩
  right
  rw [if_neg here, if_neg here]
  by_cases less : k < i
  · rw [if_pos less, if_pos less]
    exact ⟨k, by omega, rfl, rfl, .inl ⟨less, rfl⟩⟩
  · rw [if_neg less, if_neg less]
    refine ⟨k - 1, ?_, rfl, rfl, .inr ⟨by omega, rfl⟩⟩
    split at inside <;> omega

theorem Ranges.Settled.with_new (settled : h.Settled next) {h' : Ranges}
    {From : Nat → Nat → Prop} {l r : Int} (pos : 0 < h'.cnt)
    (each : ∀ k < h'.cnt, k = i ∧ h'.l k = l ∧ h'.r k = r ∨
      ∃ old < h.cnt, h'.l k = h.l old ∧ h'.r k = h.r old ∧ From k old)
    (mono : ∀ {j k old old'}, j < k → k < h'.cnt → From j old → From k old' → old ≤ old')
    (before : ∀ {k old}, From k old → k < i → h.r old < l ∨ h.r old = r ∧ h.l old ≤ l)
    (after : ∀ {k old}, From k old → i < k → old < h.cnt → r < h.l old ∨ r = h.r old ∧ l ≤ h.l old)
    (le : l ≤ r) (near : r ≤ next + segmentReach) (reaches : next ≤ r)
    (low : next - hillLength ≤ l) (short : 0 < i → r - l ≤ hillLength) : h'.Raised next := by
  refine ⟨pos, ?_, ?_, ?_, ?_, ?_, ?_⟩
  · intro k inside
    rcases each k inside with ⟨-, hl, hr⟩ | ⟨old, isOld, hl, hr, -⟩
    · omega
    · rw [hl, hr]
      exact settled.le old isOld
  · intro j k less inside
    unfold InOrder
    rcases each k inside with ⟨rfl, hlk, hrk⟩ | ⟨oldK, isK, hlk, hrk, fromK⟩ <;>
      rcases each j (lt_trans less inside) with ⟨rfl, hlj, hrj⟩ | ⟨oldJ, -, hlj, hrj, fromJ⟩ <;>
      simp only [hlk, hrk, hrj, hlj]
    · omega
    · exact before fromJ less
    · exact after fromK less isK
    · rcases eq_or_lt_of_le (mono less inside fromJ fromK) with rfl | apart
      · exact .inr ⟨rfl, le_rfl⟩
      · exact settled.inOrder oldJ oldK apart isK
  · intro k inside
    rcases each k inside with ⟨-, -, hr⟩ | ⟨old, isOld, -, hr, -⟩
    · omega
    · rw [hr]
      exact settled.near old isOld
  · rcases each 0 pos with ⟨-, -, hr⟩ | ⟨old, isOld, -, hr, -⟩
    · omega
    · rw [hr]
      exact settled.next_le_r isOld
  · rcases each 0 pos with ⟨-, hl, -⟩ | ⟨old, isOld, hl, -, -⟩
    · omega
    · rw [hl]
      exact settled.low isOld
  · intro k inside positive
    rcases each k inside with ⟨rfl, hl, hr⟩ | ⟨old, isOld, hl, hr, -⟩
    · rw [hl, hr]
      exact short positive
    · have nearOld := settled.near old isOld
      have long : segmentReach ≤ hillLength := by decide
      rcases settled.ahead old isOld with ahead | ⟨ends, lowEdge⟩ <;> omega

theorem Ranges.Settled.insert (settled : h.Settled next) (fits : InReach next lo hi)
    (few : h.cnt ≤ TCP_SACK_HILLS) (place : i ≤ h.cnt) (below : ∀ k < i, h.r k < lo)
    (above : i < h.cnt → hi < h.l i) : (h.insert i lo hi).Raised next := by
  obtain ⟨low, short, less, behind, near⟩ := fits
  refine settled.with_new ?_ (fun k inside => h.insert_cases lo hi few place inside) (by omega)
    ?_ ?_ less.le near behind.le (by unfold hillLength; omega) (by unfold hillLength; omega)
  · unfold Ranges.insert
    dsimp only
    split
    · omega
    · decide
  · intro k old isFrom before
    exact .inl (below old (by omega))
  intro k old isFrom after isOld
  left
  have first := above (by omega)
  rcases eq_or_lt_of_le (show i ≤ old by omega) with rfl | later
  · exact first
  · have le := settled.le i (by omega)
    rcases settled.inOrder i old later isOld with apart | ⟨-, later⟩ <;> omega

theorem Tracks.insertHill (tracks : Tracks t h next) (place : i ≤ h.cnt)
    (room : i < TCP_SACK_HILLS) :
    Tracks (t.insertHill i (serial 32 lo) (serial 32 hi)) (h.insert i lo hi) next := by
  have few := tracks.few
  have cnt := tracks.cnt
  unfold TcpStream.insertHill Ranges.insert
  rw [cnt]
  refine ⟨tracks.rcvNxt, ?_, cnt_of_lostLen rfl, ?_⟩
  · dsimp only
    split <;> omega
  intro k inside
  dsimp only at inside ⊢
  by_cases here : k = i
  · rw [if_pos here, if_pos here, if_pos here]
  rw [if_neg here, if_neg here, if_neg here]
  by_cases less : k < i
  · rw [if_pos less, if_pos less, moveHills, if_neg (by omega)]
    exact tracks.hill k (by omega)
  rw [if_neg less, if_neg less, moveHills]
  have moved : k - (i + 1) + i = k - 1 := by omega
  rw [if_pos (by split at inside <;> split <;> omega), moved]
  exact tracks.hill (k - 1) (by split at inside <;> omega)

/-! ## A range that meets a hill -/

/-- The hill at `i` becomes the range from `l` to `r`, and the `m` hills behind it are
dropped.  The code moves only as many hills down as it drops. -/
def Ranges.grow (h : Ranges) (i m : Nat) (l r : Int) : Ranges where
  cnt := h.cnt - m
  l := fun k => if k = i then l else if k < i ∨ i + m < k then h.l k else h.l (k + m)
  r := fun k => if k = i then r else if k < i ∨ i + m < k then h.r k else h.r (k + m)

variable {m : Nat}

theorem Ranges.grow_cases (h : Ranges) (l r : Int) (inside : k < (h.grow i m l r).cnt) :
    k = i ∧ (h.grow i m l r).l k = l ∧ (h.grow i m l r).r k = r ∨
      ∃ old < h.cnt, (h.grow i m l r).l k = h.l old ∧ (h.grow i m l r).r k = h.r old ∧
        (k < i ∧ old = k ∨ i + m < k ∧ old = k ∨ i < k ∧ k ≤ i + m ∧ old = k + m) := by
  unfold grow at *
  dsimp only at *
  by_cases here : k = i
  · left
    rw [if_pos here, if_pos here]
    exact ⟨here, rfl, rfl⟩
  right
  rw [if_neg here, if_neg here]
  by_cases stays : k < i ∨ i + m < k
  · rw [if_pos stays, if_pos stays]
    exact ⟨k, by omega, rfl, rfl, by omega⟩
  · rw [if_neg stays, if_neg stays]
    exact ⟨k + m, by omega, rfl, rfl, by omega⟩

theorem absorbHills_spec (tracks : Tracks t h next) (settled : h.Settled next) (left j : Nat)
    (inside : j + left = h.cnt) (r : Int) (reaches : next ≤ r) (near : r ≤ next + segmentReach)
    (comparable : ∀ k, j ≤ k → k < h.cnt → -2 ^ 31 ≤ h.l k - r) :
    ∃ r' m, absorbHills t.hill left j (serial 32 r) = (serial 32 r', m) ∧
      j + m ≤ h.cnt ∧ (j + m < h.cnt → r' < h.l (j + m)) ∧
      (m = 0 ∧ r' = r ∨ ∃ k, j ≤ k ∧ k < h.cnt ∧ r' = h.r k) ∧
      (∀ x, r ≤ x → x < r' → ∃ k < h.cnt, h.l k ≤ x ∧ x < h.r k) := by
  induction left generalizing j r with
  | zero => exact ⟨r, 0, rfl, by omega, by omega, .inl ⟨rfl, rfl⟩, fun x _ _ => by omega⟩
  | succ left ih =>
    have here : j < h.cnt := by omega
    have le := settled.le j here
    have nearHere := settled.near j here
    have compared : tcpSeqCmp (serial 32 (h.l j)) (serial 32 r) = h.l j - r := by
      apply tcpSeqCmp_serial
      · unfold segmentReach at *
        omega
      · exact comparable j le_rfl here
    unfold absorbHills
    rw [tracks.hill j here, compared]
    split
    · refine ⟨r, 0, rfl, by omega, ?_, .inl ⟨rfl, rfl⟩, fun x _ _ => by omega⟩
      rw [add_zero]
      omega
    next met =>
    have comparableNext : ∀ k, j + 1 ≤ k → k < h.cnt → -2 ^ 31 ≤ h.l k - h.r j := by
      intro k after insideK
      rcases settled.inOrder j k after insideK with apart | ⟨same, -⟩
      · omega
      · have ahead := settled.ahead k insideK
        unfold hillLength segmentReach at *
        omega
    obtain ⟨r', m, absorbed, atMost, ends, last, covered⟩ :=
      ih (j + 1) (by omega) (h.r j) (settled.next_le_r here) nearHere comparableNext
    refine ⟨r', m + 1, ?_, by omega, ?_, ?_, ?_⟩
    · simp only [absorbed]
    · intro more
      have index : j + 1 + m = j + (m + 1) := by omega
      rw [← index] at more ⊢
      exact ends more
    · right
      rcases last with ⟨-, rfl⟩ | ⟨k, after, insideK, rfl⟩
      · exact ⟨j, le_rfl, here, rfl⟩
      · exact ⟨k, by omega, insideK, rfl⟩
    intro x atLeast below
    by_cases inHill : x < h.r j
    · exact ⟨j, here, by omega, inHill⟩
    · exact covered x (by omega) below

theorem Ranges.Settled.grow (settled : h.Settled next) (fits : InReach next lo hi)
    (few : h.cnt ≤ TCP_SACK_HILLS) (place : i < h.cnt) (below : ∀ k < i, h.r k < lo)
    (meets : lo ≤ h.r i) {r : Int} (room : i + 1 + m ≤ h.cnt)
    (atLeast : lo ≤ r) (reaches : next ≤ r) (near : r ≤ next + segmentReach)
    (apart : ∀ k, i + m < k → k < h.cnt → r < h.l k ∨ r = h.r k ∧ h.l i ≤ h.l k) :
    (h.grow i m (min (h.l i) lo) r).Raised next := by
  obtain ⟨low, -, -, -, -⟩ := fits
  have cnt : (h.grow i m (min (h.l i) lo) r).cnt = h.cnt - m := rfl
  have lowEdge := settled.low place
  unfold TCP_SACK_HILLS at few
  refine settled.with_new (by omega) (fun k inside => h.grow_cases _ r inside) (by omega) ?_ ?_
    (by omega) near reaches ?_ ?_
  · intro k old isFrom before
    have isBelow := below old (by omega)
    rcases settled.inOrder old i (by omega) place with sep | ⟨same, -⟩
    · omega
    · omega
  · intro k old isFrom after isOld
    rcases apart old (by omega) isOld with sep | ⟨same, later⟩
    · omega
    · omega
  · unfold hillLength at *
    omega
  intro positive
  have first := below 0 positive
  have firstReaches := settled.next_le_r (k := 0) (by omega)
  have ahead := settled.ahead i place
  unfold hillLength segmentReach at *
  omega

theorem Tracks.setHill (tracks : Tracks t h next) (i : Nat) (l r : Int) :
    Tracks (t.setHill i ⟨serial 32 l, serial 32 r⟩) (h.grow i 0 l r) next := by
  refine ⟨tracks.rcvNxt, tracks.few, tracks.cnt, ?_⟩
  intro k inside
  rcases h.grow_cases l r inside with ⟨at_k, hl, hr⟩ | ⟨old, isOld, hl, hr, whereK⟩
  · rw [hl, hr]
    exact if_pos at_k
  · obtain rfl : old = k := by omega
    rw [hl, hr]
    exact (if_neg (by omega)).trans (tracks.hill old isOld)

theorem Tracks.closeGap (tracks : Tracks t h next) (room : i + 1 + m ≤ h.cnt)
    (positive : 0 < m) (l r : Int) :
    Tracks ((t.setHill i ⟨serial 32 l, serial 32 r⟩).closeGap i m) (h.grow i m l r) next := by
  have few := tracks.few
  have cnt : (t.setHill i ⟨serial 32 l, serial 32 r⟩).cnt = h.cnt := tracks.cnt
  unfold TcpStream.closeGap
  rw [cnt]
  refine ⟨tracks.rcvNxt, (sub_le _ _).trans few, cnt_of_lostLen rfl, ?_⟩
  intro k inside
  have inside' : k < h.cnt - m := inside
  dsimp only
  rw [if_neg (by omega)]
  rcases h.grow_cases l r inside with ⟨at_k, hl, hr⟩ | ⟨old, isOld, hl, hr, whereK⟩
  · rw [hl, hr]
    split
    · exact (if_neg (by omega)).trans (if_pos at_k)
    · exact if_pos at_k
  rw [hl, hr]
  rcases whereK with ⟨less, rfl⟩ | ⟨beyond, rfl⟩ | ⟨after, within, rfl⟩
  · split
    · exact (if_neg (by omega)).trans ((if_neg (by omega)).trans (tracks.hill old isOld))
    · exact (if_neg (by omega)).trans (tracks.hill old isOld)
  · split
    · exact (if_neg (by omega)).trans ((if_neg (by omega)).trans (tracks.hill old isOld))
    · exact (if_neg (by omega)).trans (tracks.hill old isOld)
  rw [if_pos (by omega)]
  have moved : k - (i + 1) + (i + m + 1) = k + m := by omega
  unfold moveHills
  rw [if_pos (by omega), moved]
  exact (if_neg (by omega)).trans (tracks.hill (k + m) isOld)

def WithRange (Received : Int → Prop) (lo hi : Int) (x : Int) : Prop := Received x ∨ lo ≤ x ∧ x < hi

theorem Ranges.Holds.grow {Received : Int → Prop} (holds : h.Holds Received) {r : Int}
    (place : i < h.cnt) (meets : lo ≤ h.r i) (met : h.l i ≤ hi)
    (covered : ∀ x, max (h.r i) hi ≤ x → x < r → ∃ k < h.cnt, h.l k ≤ x ∧ x < h.r k) :
    (h.grow i m (min (h.l i) lo) r).Holds (WithRange Received lo hi) := by
  intro k inside x atLeast below
  rcases h.grow_cases _ r inside with ⟨-, hl, hr⟩ | ⟨old, isOld, hl, hr, -⟩
  · rw [hl] at atLeast
    rw [hr] at below
    by_cases inHill : h.l i ≤ x ∧ x < h.r i
    · exact .inl (holds i place x inHill.1 inHill.2)
    by_cases inRange : lo ≤ x ∧ x < hi
    · exact .inr inRange
    · obtain ⟨j, isHill, from_, upTo⟩ := covered x (by omega) below
      exact .inl (holds j isHill x from_ upTo)
  · rw [hl] at atLeast
    rw [hr] at below
    exact .inl (holds old isOld x atLeast below)

theorem serial_range : serial 32 lo + serial 32 (hi - lo) = serial 32 hi := by
  rw [← serial_add]
  congr 1
  omega

/-- The left edge of the grown hill, and the right edge of the range counted from it. -/
theorem growHill_edges (settled : h.Settled next) (fits : InReach next lo hi)
    (place : i < h.cnt) (meets : lo ≤ h.r i) :
    let seq := serial 32 lo
    let l := if 0 < tcpSeqCmp (serial 32 (h.l i)) seq then seq else serial 32 (h.l i)
    l = serial 32 (min (h.l i) lo) ∧
      (if tcpSeqCmp l seq < 0 then l + (serial 32 (hi - lo) + (seq - l))
        else seq + serial 32 (hi - lo)) = serial 32 hi := by
  have compared := settled.compare_l fits place meets fits.low fits.less.le
  dsimp only
  rw [compared]
  by_cases later : 0 < h.l i - lo
  · rw [if_pos later]
    refine ⟨by congr 1; omega, ?_⟩
    have same : tcpSeqCmp (serial 32 lo) (serial 32 lo) = lo - lo :=
      tcpSeqCmp_serial (by omega) (by omega)
    rw [same, if_neg (by omega), serial_range]
  rw [if_neg later, compared]
  refine ⟨by congr 1; omega, ?_⟩
  split
  · rw [← serial_sub, ← serial_add, ← serial_add]
    congr 1
    omega
  · exact serial_range

theorem Tracks.growHill {Received : Int → Prop} (tracks : Tracks t h next)
    (settled : h.Settled next) (fits : InReach next lo hi) (holds : h.Holds Received)
    (before : ∀ x, first ≤ x → x < next → Received x) (place : i < h.cnt)
    (below : ∀ k < i, h.r k < lo) (meets : lo ≤ h.r i) (met : h.l i ≤ hi) :
    ∃ next', next ≤ next' ∧ next' ≤ next + segmentReach ∧
      Accounted (t.growHill i (serial 32 lo) (serial 32 (hi - lo))) first next'
        (WithRange Received lo hi) := by
  have few := tracks.few
  have beforeToo : ∀ x, first ≤ x → x < next → WithRange Received lo hi x :=
    fun x atLeast less => .inl (before x atLeast less)
  obtain ⟨leftEdge, rightEdge⟩ := growHill_edges settled fits place meets
  have reachesI := settled.next_le_r place
  have nearI := settled.near i place
  obtain ⟨low, short, less, behind, nearEnd⟩ := id fits
  have comparedR : tcpSeqCmp (serial 32 (h.r i)) (serial 32 hi) = h.r i - hi := by
    unfold segmentReach at *
    apply tcpSeqCmp_serial <;> omega
  unfold TcpStream.growHill
  rw [tracks.hill i place]
  dsimp only at leftEdge rightEdge ⊢
  rw [rightEdge, leftEdge, comparedR]
  split
  · next inside =>
    have raised : (h.grow i 0 (min (h.l i) lo) (h.r i)).Raised next := by
      apply settled.grow fits few place below meets (by omega) meets reachesI nearI
      intro k after insideK
      exact settled.inOrder i k (by omega) insideK
    have holdsToo := holds.grow (m := 0) (r := h.r i) place meets met (by omega)
    exact (tracks.setHill i _ _).tcpUpdateRcvNxt raised holdsToo beforeToo
  next outside =>
  have comparable : ∀ k, i + 1 ≤ k → k < h.cnt → -2 ^ 31 ≤ h.l k - hi := by
    intro k after insideK
    have ahead := settled.ahead k insideK
    have order := settled.inOrder i k after insideK
    unfold Ranges.InOrder segmentReach hillLength at *
    omega
  obtain ⟨r, m, absorbed, atMost, ends, last, covered⟩ := absorbHills_spec tracks settled
    (h.cnt - (i + 1)) (i + 1) (by omega) hi behind.le nearEnd comparable
  have rBounds : lo ≤ r ∧ next ≤ r ∧ r ≤ next + segmentReach := by
    rcases last with ⟨-, rfl⟩ | ⟨k, after, insideK, rfl⟩
    · exact ⟨less.le, behind.le, nearEnd⟩
    · have le := settled.le k insideK
      refine ⟨?_, settled.next_le_r insideK, settled.near k insideK⟩
      rcases settled.inOrder i k after insideK with apart | ⟨same, -⟩ <;> omega
  have apart : ∀ k, i + m < k → k < h.cnt → r < h.l k ∨ r = h.r k ∧ h.l i ≤ h.l k := by
    intro k beyond insideK
    left
    have nextOne := ends (by omega)
    rcases eq_or_lt_of_le (show i + 1 + m ≤ k by omega) with rfl | after
    · exact nextOne
    · have le := settled.le (i + 1 + m) (by omega)
      rcases settled.inOrder (i + 1 + m) k after insideK with apart | ⟨-, later⟩ <;> omega
  have raised := settled.grow fits few place below meets atMost rBounds.1 rBounds.2.1
    rBounds.2.2 apart
  have holdsToo := holds.grow (m := m) (r := r) place meets met (by
    intro x atLeast lessR
    exact covered x (by omega) lessR)
  rw [tracks.cnt, absorbed]
  split
  · next some =>
    exact (tracks.closeGap atMost some _ _).tcpUpdateRcvNxt raised holdsToo beforeToo
  · next none =>
    obtain rfl : m = 0 := by omega
    exact (tracks.setHill i _ _).tcpUpdateRcvNxt raised holdsToo beforeToo

/-- One call of `tcp_hole`: the next expected position does not move back, and what is
recorded was received. -/
theorem Accounted.tcpHole {Received : Int → Prop}
    (accounted : Accounted t first next Received) (fits : InReach next lo hi) :
    ∃ next', next ≤ next' ∧ next' ≤ next + segmentReach ∧
      Accounted (t.tcpHole (serial 32 lo) (serial 32 (hi - lo))) first next'
        (WithRange Received lo hi) := by
  obtain ⟨before, h, tracks, settled, holds⟩ := accounted
  have beforeToo : ∀ x, first ≤ x → x < next → WithRange Received lo hi x :=
    fun x atLeast less => .inl (before x atLeast less)
  have found := scanHills_spec tracks settled fits h.cnt 0 (by omega) (by omega)
  unfold TcpStream.tcpHole
  rw [serial_range, tracks.cnt]
  generalize scanHills t.hill (serial 32 lo) (serial 32 hi) h.cnt 0 = result at *
  obtain ⟨i, overlaps⟩ := result
  obtain ⟨place, below, meeting, apart⟩ := found
  dsimp only at *
  split
  · next overlap =>
    obtain ⟨inside, meets, met⟩ := meeting overlap
    exact tracks.growHill settled fits holds before inside below meets met
  next noOverlap =>
  have above : i < h.cnt → hi < h.l i := apart (by simpa using noOverlap)
  split
  · next full =>
    have some : 0 < h.cnt := by
      unfold TCP_SACK_HILLS at full
      omega
    have holdsToo : h.Holds (WithRange Received lo hi) :=
      fun k inside x atLeast less => .inl (holds k inside x atLeast less)
    exact tracks.tcpUpdateRcvNxt (settled.raised some) holdsToo beforeToo
  next notFull =>
  have few := tracks.few
  have raised := settled.insert fits few place below above
  have holdsToo : (h.insert i lo hi).Holds (WithRange Received lo hi) := by
    intro k inside x atLeast less
    rcases h.insert_cases lo hi few place inside with ⟨-, hl, hr⟩ | ⟨old, isOld, hl, hr, -⟩
    · exact .inr ⟨by omega, by omega⟩
    · exact .inl (holds old isOld x (by omega) (by omega))
  exact (tracks.insertHill place (by omega)).tcpUpdateRcvNxt raised holdsToo beforeToo

/-! ## Segments -/

structure TcpSegment where
  seq : BitVec 32
  len : Nat
  len_lt : len < 2 ^ 16

theorem TcpStream.InWindow.distance {seq : BitVec 32} (inWindow : t.InWindow seq)
    (some : t.rcvWnd ≠ 0) (small : t.rcvWnd.toNat < 2 ^ 30)
    (rcvNxt : t.rcvNxt = serial 32 next) :
    0 ≤ tcpSeqCmp seq t.rcvNxt ∧ tcpSeqCmp seq t.rcvNxt < 2 ^ 30 := by
  obtain ⟨notBefore, notBehind⟩ := inWindow
  have positive : 0 < t.rcvWnd.toNat := by
    rw [Nat.pos_iff_ne_zero]
    intro zero
    exact some (eq_of_toNat_eq zero)
  have window : t.rcvWnd = serial 32 t.rcvWnd.toNat := by
    rw [serial_natCast, ofNat_toNat, setWidth_eq]
  have place := serial_add_serialCmp seq next
  rw [← rcvNxt] at place
  have upper : tcpSeqCmp seq t.rcvNxt < 2 ^ 31 := toInt_lt
  have lower : -2 ^ 31 ≤ tcpSeqCmp seq t.rcvNxt := le_toInt _
  change serial 32 (next + tcpSeqCmp seq t.rcvNxt) = seq at place
  generalize tcpSeqCmp seq t.rcvNxt = d at *
  rw [window, rcvNxt, ← serial_add, ← place] at notBehind
  rw [rcvNxt, ← place] at notBefore
  by_cases edge : d = -2 ^ 31
  · rw [← serial_add_two_pow, tcpSeqCmp_serial (by omega) (by omega)] at notBehind
    omega
  · rw [tcpSeqCmp_serial (by omega) (by omega)] at notBefore
    rw [tcpSeqCmp_serial (by omega) (by omega)] at notBehind
    omega

theorem inReach_of_tcpSegInWnd {segment : TcpSegment} (some : 0 < segment.len)
    (inWindow : t.tcpSegInWnd segment.seq segment.len = true)
    (small : t.rcvWnd.toNat < 2 ^ 30) (rcvNxt : t.rcvNxt = serial 32 next) :
    InReach next (next + tcpSeqCmp segment.seq t.rcvNxt)
      (next + tcpSeqCmp segment.seq t.rcvNxt + segment.len) := by
  have bounded := segment.len_lt
  have wide : ∃ d : Int, tcpSeqCmp segment.seq t.rcvNxt = d ∧ -2 ^ 16 < d ∧ d < 2 ^ 30 ∧
      0 < d + segment.len := by
    rcases of_decide_eq_true inWindow with ⟨none, -⟩ | ⟨none, -⟩ | ⟨-, open_, first | last⟩
    · omega
    · omega
    · have distance := first.distance open_ small rcvNxt
      exact ⟨_, rfl, by omega, by omega, by omega⟩
    have distance := last.distance open_ small rcvNxt
    have place := serial_add_serialCmp (segment.seq + BitVec.ofInt 32 (segment.len - 1)) next
    rw [← rcvNxt] at place
    change serial 32 (next + tcpSeqCmp _ t.rcvNxt) = _ at place
    generalize tcpSeqCmp (segment.seq + BitVec.ofInt 32 (segment.len - 1)) t.rcvNxt = d at *
    have start : segment.seq = serial 32 (next + d - (segment.len - 1)) := by
      rw [serial_sub, place]
      exact (BitVec.add_sub_cancel _ _).symm
    refine ⟨d - (segment.len - 1), ?_, by omega, by omega, by omega⟩
    rw [start, rcvNxt, tcpSeqCmp_serial (by omega) (by omega)]
    omega
  obtain ⟨d, distance, low, near, behind⟩ := wide
  refine ⟨by omega, by omega, by omega, by omega, ?_⟩
  unfold segmentReach
  omega

/-! ## Runs -/

/-- What happens to a stream: a segment is given to `tcp_rx_user_data`, or to `tcp_hole`
itself as the one number of a `FIN` is, or the state is set. -/
inductive TcpEvent where
  | userData (segment : TcpSegment)
  | hole (segment : TcpSegment)
  | setState (state : TcpState)

/-- A stream with the positions that its numbers stand for: the next expected one, and the
ranges of what was received. -/
structure Receiver where
  stream : TcpStream
  next : Int
  received : List (Int × Int)

namespace Receiver

variable (c : Receiver)

def Received (x : Int) : Prop := ∃ range ∈ c.received, range.1 ≤ x ∧ x < range.2

/-- The receiver after `len` numbers from `seq` on, which left the stream as given. -/
def record (seq : BitVec 32) (len : Nat) (stream : TcpStream) : Receiver where
  stream := stream
  next := c.next + tcpSeqCmp stream.rcvNxt c.stream.rcvNxt
  received := c.received ++
    [(c.next + tcpSeqCmp seq c.stream.rcvNxt, c.next + tcpSeqCmp seq c.stream.rcvNxt + len)]

/-- One event: a segment is processed when it is in the window, and the receive callback
takes all of it. -/
def step : TcpEvent → Receiver
  | .userData segment =>
    if c.stream.tcpSegInWnd segment.seq segment.len ∧ c.stream.TakesData then
      c.record segment.seq segment.len (c.stream.tcpRxUserData segment.seq segment.len segment.len)
    else c
  | .hole segment =>
    if c.stream.tcpSegInWnd segment.seq segment.len ∧ 0 < segment.len then
      c.record segment.seq segment.len (c.stream.tcpHole segment.seq (BitVec.ofInt 32 segment.len))
    else c
  | .setState state => { c with stream := { c.stream with state := state } }

def run (events : List TcpEvent) : Receiver := events.foldl step c

def start (stream : TcpStream) (first : Int) : Receiver := ⟨stream, first, []⟩

structure Sound (c : Receiver) (first : Int) : Prop where
  accounted : Accounted c.stream first c.next c.Received
  small : c.stream.rcvWnd.toNat < 2 ^ 30

variable {c : Receiver}

theorem Sound.rcvNxt (sound : c.Sound first) : c.stream.rcvNxt = serial 32 c.next := by
  obtain ⟨-, h, tracks, -, -⟩ := sound.accounted
  exact tracks.rcvNxt

theorem received_record {seq : BitVec 32} {len : Nat} {stream : TcpStream} {x : Int}
    (covered : WithRange c.Received (c.next + tcpSeqCmp seq c.stream.rcvNxt)
      (c.next + tcpSeqCmp seq c.stream.rcvNxt + len) x) :
    (c.record seq len stream).Received x := by
  rcases covered with ⟨range, isRange, inRange⟩ | inRange
  · exact ⟨range, List.mem_append_left _ isRange, inRange⟩
  · exact ⟨_, List.mem_append_right _ (List.mem_singleton_self _), inRange⟩

theorem tcpSeqCmp_self (a : BitVec 32) : tcpSeqCmp a a = 0 := by
  unfold tcpSeqCmp serialCmp
  simp

/-- Processing a segment of the window keeps the account, and does not move the next
expected number back. -/
theorem Sound.record (sound : c.Sound first) {segment : TcpSegment} (some : 0 < segment.len)
    (inWindow : c.stream.tcpSegInWnd segment.seq segment.len = true) :
    (c.record segment.seq segment.len
        (c.stream.tcpHole segment.seq (BitVec.ofInt 32 segment.len))).Sound first ∧
      0 ≤ tcpSeqCmp (c.stream.tcpHole segment.seq (BitVec.ofInt 32 segment.len)).rcvNxt
        c.stream.rcvNxt := by
  have fits := inReach_of_tcpSegInWnd some inWindow sound.small sound.rcvNxt
  have place : serial 32 (c.next + tcpSeqCmp segment.seq c.stream.rcvNxt) = segment.seq := by
    rw [sound.rcvNxt]
    exact serial_add_serialCmp segment.seq c.next
  obtain ⟨next', forward, near, accounted⟩ := sound.accounted.tcpHole fits
  rw [place, add_sub_cancel_left] at accounted
  have moved : tcpSeqCmp (c.stream.tcpHole segment.seq (BitVec.ofInt 32 segment.len)).rcvNxt
      c.stream.rcvNxt = next' - c.next := by
    obtain ⟨-, h, tracks, -, -⟩ := accounted
    rw [sound.rcvNxt]
    change tcpSeqCmp (c.stream.tcpHole segment.seq (serial 32 segment.len)).rcvNxt _ = _
    rw [tracks.rcvNxt]
    unfold segmentReach at near
    apply tcpSeqCmp_serial <;> omega
  refine ⟨⟨?_, ?_⟩, by omega⟩
  · obtain ⟨before, h, tracks, settled, holds⟩ := accounted
    have reached : (c.record segment.seq segment.len
        (c.stream.tcpHole segment.seq (BitVec.ofInt 32 segment.len))).next = next' := by
      unfold Receiver.record
      dsimp only
      omega
    rw [reached]
    refine ⟨?_, h, tracks, settled, ?_⟩
    · exact fun x atLeast less => received_record (before x atLeast less)
    · exact fun k inside x atLeast less => received_record (holds k inside x atLeast less)
  · unfold Receiver.record
    rw [tcpHole_rcvWnd]
    exact sound.small

theorem Sound.record_unchanged (sound : c.Sound first) (seq : BitVec 32) (len : Nat) :
    (c.record seq len c.stream).Sound first := by
  refine ⟨?_, sound.small⟩
  obtain ⟨before, h, tracks, settled, holds⟩ := sound.accounted
  have reached : (c.record seq len c.stream).next = c.next := by
    change c.next + tcpSeqCmp c.stream.rcvNxt c.stream.rcvNxt = c.next
    rw [tcpSeqCmp_self, add_zero]
  rw [reached]
  refine ⟨?_, h, tracks, settled, ?_⟩
  · exact fun x atLeast less => received_record (.inl (before x atLeast less))
  · exact fun k inside x atLeast less => received_record (.inl (holds k inside x atLeast less))

theorem Sound.step (sound : c.Sound first) (event : TcpEvent) : (c.step event).Sound first ∧
      0 ≤ tcpSeqCmp (c.step event).stream.rcvNxt c.stream.rcvNxt := by
  have still : 0 ≤ tcpSeqCmp c.stream.rcvNxt c.stream.rcvNxt := by rw [tcpSeqCmp_self]
  cases event with
  | userData segment =>
    unfold Receiver.step
    dsimp only
    split
    · next taken =>
      unfold tcpRxUserData
      by_cases empty : segment.len = 0
      · rw [if_pos (by omega)]
        exact ⟨sound.record_unchanged _ _, still⟩
      · rw [if_neg (by omega), if_pos taken.2, if_neg (by omega), if_pos (by omega)]
        exact sound.record (by omega) taken.1
    · exact ⟨sound, still⟩
  | hole segment =>
    unfold Receiver.step
    dsimp only
    split
    · next taken => exact sound.record taken.2 taken.1
    · exact ⟨sound, still⟩
  | setState state =>
    refine ⟨⟨?_, sound.small⟩, still⟩
    obtain ⟨before, h, tracks, settled, holds⟩ := sound.accounted
    exact ⟨before, h, ⟨tracks.rcvNxt, tracks.few, tracks.cnt, tracks.hill⟩, settled, holds⟩

theorem Sound.run (sound : c.Sound first) (events : List TcpEvent) :
    (c.run events).Sound first := by
  induction events generalizing c with
  | nil => exact sound
  | cons event _ ih => exact ih (sound.step event).1

theorem start_sound {stream : TcpStream} (noHills : stream.cnt = 0)
    (rcvNxt : stream.rcvNxt = serial 32 first) (small : stream.rcvWnd.toNat < 2 ^ 30) :
    (start stream first).Sound first := by
  refine ⟨⟨?_, ⟨0, fun _ => 0, fun _ => 0⟩, ?_, ?_, ?_⟩, small⟩
  · intro x atLeast less
    exact absurd less (not_lt.2 atLeast)
  · exact ⟨rcvNxt, zero_le _, noHills, nofun⟩
  · exact ⟨nofun, nofun, nofun, nofun⟩
  · exact nofun

/-- In every state that any events lead to from a new stream, the next expected number
stands for a position before which everything was received, every hill holds only what was
received, and no event moves the next expected number back. -/
theorem acknowledges_only_received (stream : TcpStream) (first : Int)
    (noHills : stream.cnt = 0) (rcvNxt : stream.rcvNxt = serial 32 first)
    (small : stream.rcvWnd.toNat < 2 ^ 30) (events : List TcpEvent) :
    let c := (start stream first).run events
    c.stream.rcvNxt = serial 32 c.next ∧ (∀ x, first ≤ x → x < c.next → c.Received x) ∧
      (∀ k < c.stream.cnt, ∃ l r, c.stream.hill k = ⟨serial 32 l, serial 32 r⟩ ∧
        c.next - 2 ^ 31 < l ∧ l ≤ r ∧ r < c.next + 2 ^ 31 ∧
        ∀ x, l ≤ x → x < r → c.Received x) ∧
      ∀ event, 0 ≤ tcpSeqCmp (c.step event).stream.rcvNxt c.stream.rcvNxt := by
  have sound := (start_sound noHills rcvNxt small).run events
  obtain ⟨before, h, tracks, settled, holds⟩ := sound.accounted
  refine ⟨tracks.rcvNxt, before, ?_, fun event => (sound.step event).2⟩
  intro k inside
  rw [tracks.cnt] at inside
  have low := settled.low inside
  have near := settled.near k inside
  unfold hillLength at low
  unfold segmentReach at near
  exact ⟨h.l k, h.r k, tracks.hill k inside, by omega, settled.le k inside, by omega,
    holds k inside⟩

theorem acknowledges_only_received_after_gap : let stream : TcpStream :=
      ⟨TCP_ESTABLISHED, 0xFFFFFFFE, 20000, TCP_OPT_LEN_2, fun _ => ⟨TCP_O_NOP, TCP_O_NOP⟩⟩
    let events : List TcpEvent :=
      [.userData ⟨2, 6, by decide⟩, .userData ⟨0xFFFFFFFE, 5, by decide⟩, .hole ⟨8, 1, by decide⟩]
    let c := (start stream (-2)).run events
    (c.next = 9 ∧ c.stream.rcvNxt = 9) ∧ ∀ x, -2 ≤ x → x < c.next → c.Received x :=
  ⟨by decide, (acknowledges_only_received _ (-2) (by decide) (by decide) (by decide) _).2.1⟩

end Receiver

end UBoot
