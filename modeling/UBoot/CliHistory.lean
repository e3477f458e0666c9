import Mathlib.Data.List.Induction
import Mathlib.Logic.Function.Basic

/-!
# The history of the line editor

The lines that were entered stand in a ring of `HIST_MAX` slots.  The slot behind the latest
line is never shown, so that the ring is a list of the latest `HIST_MAX - 1` lines.  Only the
end of a line that is entered sets the place in the list back to its start: a line that is given
up by `^C` or by a timeout leaves it where the arrow keys have put it.
-/

namespace UBoot

open List

namespace Readline

def CREAD_HIST_CHAR : UInt8 := 33

/-- `hist_max`, `hist_add_idx`, `hist_cur` and `hist_list`. -/
structure History where
  max : Nat
  addIdx : Nat
  cur : Int
  list : Nat → List UInt8

def histInit : History := ⟨0, 0, -1, fun _ => []⟩

variable (HIST_MAX : Nat)

def creadAddToHist (line : List UInt8) (h : History) : History :=
  let addIdx := if h.addIdx + 1 ≥ HIST_MAX then 0 else h.addIdx + 1
  ⟨if addIdx > h.max then addIdx else h.max, addIdx, h.cur, Function.update h.list h.addIdx line⟩

/-- The line to show, if it is not `NULL`. -/
def histPrev (h : History) : Option (List UInt8) × History :=
  if h.cur < 0 then (none, h)
  else
    let cur := if h.cur - 1 < 0 then (h.max : Int) else h.cur - 1
    if cur = h.addIdx then (none, h) else (some (h.list cur.toNat), { h with cur })

def histNext (h : History) : Option (List UInt8) × History :=
  if h.cur < 0 then (none, h)
  else if h.cur = h.addIdx then (none, h)
  else
    let cur := if h.cur + 1 > h.max then 0 else h.cur + 1
    (some (if cur = h.addIdx then [] else h.list cur.toNat), { h with cur })

inductive Arrow
  | up
  | down

/-- The keys `^P` and `^N` of `cread_line_process_ch`. -/
def histLine (h : History) : Arrow → Option (List UInt8) × History
  | .up => histPrev h
  | .down => histNext h

def pressArrow (state : List UInt8 × History) (arrow : Arrow) : List UInt8 × History :=
  ((histLine state.2 arrow).1.getD state.1, (histLine state.2 arrow).2)

/-- The line is kept by the end of `cread_line`. -/
def remembers (buf : List UInt8) : Bool := buf.headD 0 ≠ 0 ∧ buf.headD 0 ≠ CREAD_HIST_CHAR

/-- The end of `cread_line`. -/
def creadLineEnd (buf : List UInt8) (h : History) : History :=
  let h := if remembers buf then creadAddToHist HIST_MAX buf h else h
  { h with cur := h.addIdx }

/-- The arrow keys of a line, and the line that was entered; `none` stands for the returns -1
and -2 of `cread_line`, for `^C` and a timeout. -/
abbrev TypedLine := List Arrow × Option (List UInt8)

def creadHistory (h : History) (line : TypedLine) : History :=
  let pressed := (line.1.foldl pressArrow ([], h)).2
  match line.2 with
  | some buf => creadLineEnd HIST_MAX buf pressed
  | none => pressed

def typeLines (lines : List TypedLine) : History :=
  lines.foldl (creadHistory HIST_MAX) histInit

/-! ## The list of the latest lines -/

def latestLines (lines : List TypedLine) : List (List UInt8) :=
  ((lines.filterMap Prod.snd).filter remembers).reverse

def shownLines (latest : List (List UInt8)) : Nat := min latest.length (HIST_MAX - 1)

def lineAt (latest : List (List UInt8)) (position : Nat) : List UInt8 :=
  ([] :: latest).getD position []

/-- An arrow key in a list of `limit` lines. -/
def moveArrow (limit position : Nat) : Arrow → Nat
  | .up => min (position + 1) limit
  | .down => position - 1

/-- The latest lines, and the place where the lines since the last one that was entered leave
the arrow keys. -/
def leaveAt (at_ : List (List UInt8) × Nat) (line : TypedLine) : List (List UInt8) × Nat :=
  match line.2 with
  | some buf => (if remembers buf then buf :: at_.1 else at_.1, 0)
  | none => (at_.1, line.1.foldl (moveArrow (shownLines HIST_MAX at_.1)) at_.2)

def leftAt (lines : List TypedLine) : Nat := (lines.foldl (leaveAt HIST_MAX) ([], 0)).2

theorem foldl_moveArrow_up (limit k : Nat) :
    (replicate k Arrow.up).foldl (moveArrow limit) 0 = min k limit := by
  induction k with
  | zero => exact (Nat.zero_min _).symm
  | succ k ih =>
    rw [replicate_succ', foldl_append, ih]
    simp only [foldl_cons, foldl_nil, moveArrow]
    omega

def slotBefore (idx places : Nat) : Nat :=
  if places ≤ idx then idx - places else idx + HIST_MAX - places

variable {HIST_MAX : Nat} {latest : List (List UInt8)} {position : Nat} {h : History}

structure StandsAt (HIST_MAX : Nat) (latest : List (List UInt8)) (position : Nat)
    (h : History) : Prop where
  below : h.addIdx < HIST_MAX
  max : h.max = shownLines HIST_MAX latest
  first : latest.length < HIST_MAX → h.addIdx = latest.length
  slots : ∀ p, 0 < p → p ≤ shownLines HIST_MAX latest →
    h.list (slotBefore HIST_MAX h.addIdx p) = lineAt latest p
  inside : position ≤ shownLines HIST_MAX latest
  cur : h.cur = slotBefore HIST_MAX h.addIdx position ∨ h.cur = -1 ∧ latest = []

namespace StandsAt

variable (stands : StandsAt HIST_MAX latest position h)

include stands

theorem move {p : Nat} (inside : p ≤ shownLines HIST_MAX latest) :
    StandsAt HIST_MAX latest p { h with cur := slotBefore HIST_MAX h.addIdx p } :=
  { stands with inside, cur := .inl rfl }

theorem histLine_eq (arrow : Arrow) :
    let p := moveArrow (shownLines HIST_MAX latest) position arrow
    p ≤ shownLines HIST_MAX latest ∧ histLine h arrow = if p = position then (none, h) else
      (some (lineAt latest p), { h with cur := slotBefore HIST_MAX h.addIdx p }) := by
  obtain ⟨below, max, first, slots, inside, cur | ⟨cur, rfl⟩⟩ := stands
  · have other : ∀ p, 0 < p → p < HIST_MAX →
        slotBefore HIST_MAX h.addIdx p ≠ h.addIdx := by grind [slotBefore]
    have less : shownLines HIST_MAX latest < HIST_MAX := by grind [shownLines]
    cases arrow with
    | up =>
      have pred : (if h.cur - 1 < 0 then (h.max : Int) else h.cur - 1) =
          if position = shownLines HIST_MAX latest then (h.addIdx : Int)
          else slotBefore HIST_MAX h.addIdx (position + 1) := by
        grind [slotBefore, shownLines]
      simp only [histLine, histPrev, moveArrow, pred]
      grind
    | down =>
      have succ : 0 < position → (if h.cur + 1 > h.max then 0 else h.cur + 1) =
            slotBefore HIST_MAX h.addIdx (position - 1) := by
        grind [slotBefore, shownLines]
      simp only [histLine, histNext, moveArrow]
      obtain rfl | pos := Nat.eq_zero_or_pos position
      · have last : h.cur = h.addIdx := by simpa [slotBefore] using cur
        grind
      have zero : slotBefore HIST_MAX h.addIdx 0 = h.addIdx := rfl
      have empty : lineAt latest 0 = [] := rfl
      rw [succ pos]
      grind
  · have none : position = 0 := by simpa [shownLines] using inside
    cases arrow <;> simp [histLine, histPrev, histNext, moveArrow, shownLines, cur, none]

theorem press (buf : List UInt8) (arrow : Arrow) :
    StandsAt HIST_MAX latest (moveArrow (shownLines HIST_MAX latest) position arrow)
        (pressArrow (buf, h) arrow).2 ∧
      (buf = lineAt latest position → (pressArrow (buf, h) arrow).1 =
        lineAt latest (moveArrow (shownLines HIST_MAX latest) position arrow)) := by
  obtain ⟨inside, same⟩ := stands.histLine_eq arrow
  rw [pressArrow, same]
  split_ifs with stays
  · rw [stays]
    exact ⟨stands, id⟩
  · exact ⟨stands.move inside, fun _ => rfl⟩

theorem presses (buf : List UInt8) (arrows : List Arrow) :
    StandsAt HIST_MAX latest (arrows.foldl (moveArrow (shownLines HIST_MAX latest)) position)
        (arrows.foldl pressArrow (buf, h)).2 ∧
      (buf = lineAt latest position → (arrows.foldl pressArrow (buf, h)).1 =
        lineAt latest (arrows.foldl (moveArrow (shownLines HIST_MAX latest)) position)) := by
  induction arrows generalizing position buf h with
  | nil => exact ⟨stands, id⟩
  | cons arrow arrows ih =>
    obtain ⟨next, shown⟩ := stands.press buf arrow
    exact (ih next _).imp_right fun later isShown => later (shown isShown)

theorem add (line : List UInt8) :
    StandsAt HIST_MAX (line :: latest) 0 { creadAddToHist HIST_MAX line h with
      cur := (creadAddToHist HIST_MAX line h).addIdx } := by
  obtain ⟨below, max, first, slots, -, -⟩ := stands
  have slot : ∀ p ≤ shownLines HIST_MAX latest,
      slotBefore HIST_MAX (creadAddToHist HIST_MAX line h).addIdx (p + 1) =
        slotBefore HIST_MAX h.addIdx p := by
    grind [slotBefore, creadAddToHist, shownLines]
  refine ⟨?_, ?_, ?_, fun p pos le => ?_, Nat.zero_le _, .inl ?_⟩
  · grind [creadAddToHist]
  · grind [creadAddToHist, shownLines]
  · grind [creadAddToHist]
  · match p with
    | 1 =>
      rw [slot 0 (Nat.zero_le _)]
      exact Function.update_self ..
    | p + 2 =>
      have inside : p + 1 ≤ shownLines HIST_MAX latest := by grind [shownLines]
      have other : slotBefore HIST_MAX h.addIdx (p + 1) ≠ h.addIdx := by
        grind [slotBefore, shownLines]
      rw [slot _ inside]
      exact (Function.update_of_ne other ..).trans (slots _ p.succ_pos inside)
  · simp [slotBefore]

theorem line (line : TypedLine) :
    StandsAt HIST_MAX (leaveAt HIST_MAX (latest, position) line).1
      (leaveAt HIST_MAX (latest, position) line).2 (creadHistory HIST_MAX h line) := by
  obtain ⟨pressed, -⟩ := stands.presses [] line.1
  unfold leaveAt creadHistory
  cases line.2 with
  | none => exact pressed
  | some buf =>
    simp only [creadLineEnd]
    split_ifs
    · exact pressed.add buf
    · exact pressed.move (Nat.zero_le _)

end StandsAt

theorem standsAt_typeLines (ring : 0 < HIST_MAX) (lines : List TypedLine) :
    StandsAt HIST_MAX (latestLines lines) (leftAt HIST_MAX lines) (typeLines HIST_MAX lines) := by
  have latest : (lines.foldl (leaveAt HIST_MAX) ([], 0)).1 = latestLines lines := by
    induction lines using reverseRecOn with
    | nil => rfl
    | append_singleton lines line ih =>
      rw [foldl_append, foldl_cons, foldl_nil]
      rcases line with ⟨arrows, _ | buf⟩
      · simpa [leaveAt, latestLines] using ih
      · cases kept : remembers buf <;> simp [leaveAt, latestLines, kept, ih]
  rw [← latest]
  clear latest
  unfold leftAt typeLines
  induction lines using reverseRecOn with
  | nil => exact ⟨ring, by simp [histInit, shownLines], fun _ => rfl, fun p pos le => by
      grind [shownLines], Nat.zero_le _, .inr ⟨rfl, rfl⟩⟩
  | append_singleton lines line ih =>
    simp only [foldl_append, foldl_cons, foldl_nil]
    exact ih.line line

/-- The history is the list of the latest lines: the arrow keys show the line at the position
that they lead to, and ring the bell where they lead to no other, if the lines that were given
up since the last one that was entered have not left the arrow keys in the list. -/
theorem history_shows_latest (HIST_MAX : Nat) (ring : 0 < HIST_MAX) (lines : List TypedLine)
    (arrows : List Arrow) (back : leftAt HIST_MAX lines = 0) :
    let latest := latestLines lines
    let limit := min latest.length (HIST_MAX - 1)
    let position := arrows.foldl (moveArrow limit) 0
    let state := arrows.foldl pressArrow ([], typeLines HIST_MAX lines)
    state.1 = lineAt latest position ∧ ((histPrev state.2).1 = none ↔ position = limit) ∧
      ((histNext state.2).1 = none ↔ position = 0) ∧
      ∀ k ≤ limit, ((replicate k Arrow.up).foldl pressArrow ([], typeLines HIST_MAX lines)).1 =
        lineAt latest k := by
  intro latest limit position state
  have start := standsAt_typeLines ring lines
  rw [back] at start
  have stands : StandsAt HIST_MAX latest position state.2 := (start.presses [] arrows).1
  have inside : position ≤ limit := stands.inside
  have up := (stands.histLine_eq .up).2
  have down := (stands.histLine_eq .down).2
  refine ⟨(start.presses [] arrows).2 rfl, ?_, ?_, fun k le => ?_⟩
  · simp only [histLine, moveArrow] at up
    grind [shownLines]
  · simp only [histLine, moveArrow] at down
    grind
  · rw [(start.presses [] _).2 rfl, foldl_moveArrow_up]
    exact congrArg _ (Nat.min_eq_left le)

/-- A line that is given up after an arrow key and its opposite. -/
theorem history_shows_latest_back : ([Arrow.up].foldl pressArrow ([], typeLines 20
    [([], some [97]), ([], some [98]), ([.up, .down], none)])).1 = [98] :=
  (history_shows_latest 20 (by decide) _ [.up] (by decide)).1

/-- A line that is given up after an arrow key: the latest line is not shown any more. -/
theorem history_skips_latest : ([Arrow.up].foldl pressArrow ([], typeLines 20
    [([], some [97]), ([], some [98]), ([.up], none)])).1 = [97] ∧
    lineAt (latestLines [([], some [97]), ([], some [98]), ([.up], none)]) 1 = [98] := by decide

end Readline

end UBoot
