import Mathlib.Data.List.Range

/-!
# Spans of a row of items

Items lie one behind the other, and some of them are selected.  The selected ones are
collected in spans: a span that is open grows with each selected item, it is closed at
the first item that is not selected, and a new span that starts where the last one
ended continues it.  An item that is not selected may be trailing: a span that is open
in front of it is closed behind it.  The spans are sorted, disjoint and not empty, and
their positions, in order, are those of the items that are covered.
-/

namespace UBoot

open List Option

structure Span where
  start : Nat
  stop : Nat
  deriving DecidableEq

def Span.positions (span : Span) : List Nat := List.range' span.start (span.stop - span.start)

theorem Span.mem_positions {span : Span} {x : Nat} :
    x ∈ span.positions ↔ span.start ≤ x ∧ x < span.stop := by
  rw [Span.positions, mem_range'_1]
  omega

structure Spans where
  closed : List Span
  start : Option Nat

structure SpanItem where
  start : Nat
  stop : Nat
  selected : Bool
  trailing : Bool

namespace Spans

variable (s : Spans)

def openAt (a : Nat) : Spans :=
  match s.closed.getLast? with
  | some last =>
    if last.stop = a then { closed := s.closed.dropLast, start := some last.start }
    else { s with start := some a }
  | none => { s with start := some a }

def closeAt (start stop : Nat) : Spans :=
  { closed := s.closed ++ [{ start := start, stop := stop }], start := none }

def step (item : SpanItem) : Spans :=
  match s.start with
  | none => if item.selected then s.openAt item.start else s
  | some start =>
    if item.selected then s
    else s.closeAt start (if item.trailing then item.stop else item.start)

def positions (p : Nat) : List Nat :=
  s.closed.flatMap Span.positions ++
    match s.start with
    | none => []
    | some start => List.range' start (p - start)

structure Sorted (s : Spans) (p : Nat) : Prop where
  pairwise : s.closed.Pairwise fun x y => x.stop ≤ y.start
  nonempty : ∀ span ∈ s.closed, span.start < span.stop
  bounded : ∀ span ∈ s.closed, span.stop ≤ s.start.getD p
  opened : ∀ start ∈ s.start, start < p

def coveredBy (item : SpanItem) : Bool := item.selected || (item.trailing && s.start.isSome)

variable {s : Spans} {item : SpanItem}

theorem start_step : (s.step item).start.isSome = item.selected := by
  unfold step
  split
  case h_1 closed =>
    split
    case isTrue chosen =>
      unfold openAt
      split
      · split <;> exact chosen.symm
      · exact chosen.symm
    case isFalse skipped =>
      rw [closed]
      exact (by simpa using skipped : item.selected = false).symm
  case h_2 start opened =>
    split
    case isTrue chosen => rw [opened, chosen, isSome_some]
    case isFalse skipped => exact (by simpa using skipped : item.selected = false).symm

theorem closed_eq_of_getLast {last : Span} (found : s.closed.getLast? = some last) :
    s.closed = s.closed.dropLast ++ [last] :=
  (dropLast_append_getLast? last found).symm

variable {b a : Nat}

theorem Sorted.openAt (sorted : s.Sorted a) (closed : s.start = none)
    (longer : a < b) : (s.openAt a).Sorted b := by
  have bounded := sorted.bounded
  rw [closed, getD_none] at bounded
  unfold Spans.openAt
  split
  case h_1 last found =>
    have parts := closed_eq_of_getLast found
    split
    case isTrue ends =>
      have pairwise := sorted.pairwise
      rw [parts, pairwise_append] at pairwise
      have inLast : last ∈ s.closed := mem_of_getLast? found
      refine ⟨pairwise.1, fun span member => ?_, fun span member => ?_, fun start member => ?_⟩
      · exact sorted.nonempty span ((dropLast_sublist s.closed).subset member)
      · exact pairwise.2.2 span member last (mem_singleton_self last)
      · obtain rfl : last.start = start := by simpa using member
        have nonempty := sorted.nonempty last inLast
        omega
    case isFalse =>
      refine ⟨sorted.pairwise, sorted.nonempty, bounded, fun start member => ?_⟩
      obtain rfl : a = start := by simpa using member
      exact longer
  case h_2 =>
    refine ⟨sorted.pairwise, sorted.nonempty, bounded, fun start member => ?_⟩
    obtain rfl : a = start := by simpa using member
    exact longer

theorem Sorted.closeAt {start stop : Nat} (sorted : s.Sorted a) (opened : s.start = some start)
    (atLeast : a ≤ stop) (atMost : stop ≤ b) : (s.closeAt start stop).Sorted b := by
  have bounded := sorted.bounded
  rw [opened, getD_some] at bounded
  have before := sorted.opened start opened
  have last : ∀ span ∈ s.closed ++ [⟨start, stop⟩], span.start < span.stop ∧ span.stop ≤ b := by
    intro span member
    rcases mem_append.1 member with earlier | new
    · have ends := bounded span earlier
      exact ⟨sorted.nonempty span earlier, by omega⟩
    · obtain rfl := mem_singleton.1 new
      exact ⟨by simp only; omega, atMost⟩
  refine ⟨?_, fun span member => (last span member).1, fun span member => (last span member).2,
    fun start member => by simp [Spans.closeAt] at member⟩
  refine pairwise_append.2 ⟨sorted.pairwise, pairwise_singleton _ _, ?_⟩
  rintro span earlier new inNew
  obtain rfl := mem_singleton.1 inNew
  exact bounded span earlier

theorem Sorted.step (sorted : s.Sorted item.start) (longer : item.start < item.stop) :
    (s.step item).Sorted item.stop := by
  unfold Spans.step
  split
  case h_1 closed =>
    split
    case isTrue => exact sorted.openAt closed longer
    case isFalse =>
      refine ⟨sorted.pairwise, sorted.nonempty, fun span member => ?_, fun start member => ?_⟩
      · have ends := sorted.bounded span member
        rw [closed, getD_none] at ends ⊢
        omega
      · rw [closed] at member
        cases member
  case h_2 start opened =>
    split
    case isTrue =>
      refine ⟨sorted.pairwise, sorted.nonempty, fun span member => ?_, fun start' member => ?_⟩
      · have ends := sorted.bounded span member
        rwa [opened, getD_some] at ends ⊢
      · have before := sorted.opened start' member
        omega
    case isFalse =>
      apply sorted.closeAt opened
      · split <;> omega
      · split <;> omega

theorem positions_openAt (sorted : s.Sorted a) (closed : s.start = none)
    (longer : a < b) : (s.openAt a).positions b = s.positions a ++ range' a (b - a) := by
  have before : s.positions a = s.closed.flatMap Span.positions := by simp [positions, closed]
  unfold openAt
  split
  case h_1 last found =>
    split
    case isTrue ends =>
      have nonempty := sorted.nonempty last (mem_of_getLast? found)
      have whole : b - last.start = (last.stop - last.start) + (b - a) := by omega
      have next : last.start + (last.stop - last.start) = a := by omega
      rw [before]
      conv_rhs => rw [closed_eq_of_getLast found, flatMap_append]
      simp only [positions, flatMap_singleton]
      rw [whole, ← range'_append_1, next, Span.positions, append_assoc]
    case isFalse => simp [positions, closed]
  case h_2 => simp [positions, closed]

theorem positions_step (sorted : s.Sorted item.start) (longer : item.start < item.stop) :
    (s.step item).positions item.stop = s.positions item.start ++
      if s.coveredBy item then range' item.start (item.stop - item.start) else [] := by
  unfold step coveredBy
  split
  case h_1 closed =>
    split
    case isTrue chosen =>
      rw [positions_openAt sorted closed longer, chosen, Bool.true_or, if_pos rfl]
    case isFalse skipped =>
      simp [positions, closed, skipped]
  case h_2 start opened =>
    have before := sorted.opened start opened
    have grown : range' start (item.start - start) ++ range' item.start (item.stop - item.start) =
          range' start (item.stop - start) := by
      have whole : item.stop - start = (item.start - start) + (item.stop - item.start) := by omega
      have next : start + (item.start - start) = item.start := by omega
      rw [whole, ← range'_append_1, next]
    split
    case isTrue chosen =>
      simp only [positions, opened, chosen, Bool.true_or, if_true]
      rw [append_assoc, grown]
    case isFalse skipped =>
      cases trail : item.trailing with
      | true => simp [positions, closeAt, opened, skipped, grown, Span.positions]
      | false => simp [positions, closeAt, opened, skipped, Span.positions]

/-! ## Rows of items -/

def Row : Nat → List SpanItem → Nat → Prop
  | a, [], b => a = b
  | a, item :: items, b => item.start = a ∧ a < item.stop ∧ Row item.stop items b

/-- The positions of the items that are covered, where the flag says whether a span is
open in front of the first one. -/
def coveredPositions : Bool → List SpanItem → List Nat
  | _, [] => []
  | opened, item :: items =>
    (if item.selected || (item.trailing && opened) then
      List.range' item.start (item.stop - item.start) else []) ++
      coveredPositions item.selected items

variable {items : List SpanItem}

theorem run_spec (sorted : s.Sorted a) (row : Row a items b) :
    (items.foldl step s).Sorted b ∧ (items.foldl step s).positions b =
        s.positions a ++ coveredPositions s.start.isSome items := by
  induction items generalizing s a with
  | nil =>
    obtain rfl : a = b := row
    exact ⟨sorted, (append_nil _).symm⟩
  | cons item items ih =>
    obtain ⟨rfl, longer, rest⟩ := row
    obtain ⟨ordered, positions⟩ := ih (sorted.step longer) rest
    refine ⟨ordered, ?_⟩
    rw [foldl_cons, positions, positions_step sorted longer, start_step, coveredPositions,
      append_assoc]
    rfl

theorem Row.le (row : Row a items b) : a ≤ b := by
  induction items generalizing a with
  | nil => exact Nat.le_of_eq row
  | cons item items ih =>
    obtain ⟨-, longer, rest⟩ := row
    exact longer.le.trans (ih rest)

theorem Row.append {first second : List SpanItem} :
    Row a (first ++ second) b ↔ ∃ m, Row a first m ∧ Row m second b := by
  induction first generalizing a with
  | nil => simp [Row]
  | cons item first ih =>
    simp only [cons_append, Row, ih]
    constructor
    · rintro ⟨start, longer, m, front, back⟩
      exact ⟨m, ⟨start, longer, front⟩, back⟩
    · rintro ⟨m, ⟨start, longer, front⟩, back⟩
      exact ⟨start, longer, m, front, back⟩

theorem Row.mem_bounds (row : Row a items b) {item : SpanItem}
    (member : item ∈ items) : a ≤ item.start ∧ item.start < item.stop ∧ item.stop ≤ b := by
  induction items generalizing a with
  | nil => cases member
  | cons first items ih =>
    obtain ⟨start, longer, rest⟩ := row
    rcases mem_cons.1 member with rfl | later
    · exact ⟨start.ge, by omega, rest.le⟩
    · obtain ⟨atLeast, nonempty, atMost⟩ := ih rest later
      exact ⟨by omega, nonempty, atMost⟩

theorem mem_coveredPositions_bounds {x : Nat} {opened : Bool}
    (row : Row a items b) (covered : x ∈ coveredPositions opened items) : a ≤ x ∧ x < b := by
  induction items generalizing a opened with
  | nil => cases covered
  | cons item items ih =>
    obtain ⟨start, longer, rest⟩ := row
    have atMost := rest.le
    rcases mem_append.1 covered with here | later
    · split at here
      · rw [mem_range'_1] at here
        omega
      · cases here
    · obtain ⟨atLeast, less⟩ := ih rest later
      omega

/-- A position of an item that is selected is covered; one of an item that is not trailing
is covered only if the item is selected. -/
theorem mem_coveredPositions {x : Nat} {opened : Bool}
    (row : Row a items b) {item : SpanItem} (member : item ∈ items) (atLeast : item.start ≤ x)
    (less : x < item.stop) :
    (item.selected = true → x ∈ coveredPositions opened items) ∧
      (item.trailing = false → x ∈ coveredPositions opened items → item.selected = true) := by
  induction items generalizing a opened with
  | nil => cases member
  | cons first items ih =>
    obtain ⟨start, longer, rest⟩ := row
    rw [coveredPositions, mem_append]
    rcases mem_cons.1 member with rfl | later
    · have notLater : x ∉ coveredPositions item.selected items := by
        intro covered
        have bounds := mem_coveredPositions_bounds rest covered
        omega
      constructor
      · intro chosen
        left
        rw [chosen, Bool.true_or, if_pos rfl, mem_range'_1]
        omega
      rintro plain (here | covered)
      · rw [plain, Bool.false_and, Bool.or_false] at here
        split at here
        · assumption
        · cases here
      · exact absurd covered notLater
    · have bounds := rest.mem_bounds later
      have notHere : x ∉ (if first.selected || (first.trailing && opened) then
          range' first.start (first.stop - first.start) else []) := by
        intro here
        split at here
        · rw [mem_range'_1] at here
          omega
        · cases here
      obtain ⟨covers, selects⟩ := @ih _ first.selected rest later
      exact ⟨fun chosen => .inr (covers chosen),
        fun plain covered => selects plain (covered.resolve_left notHere)⟩

end Spans

end UBoot
