import Mathlib.Data.List.DropRight
import Mathlib.Data.Nat.Bitwise

/-!
# The line editor

`cread_line_process_ch` keeps a line and a cursor in a buffer.  It refines a text that is split
at the cursor, except that `^W` behind nothing but blanks reads in front of the buffer: the
index is unsigned, so that the test for its end never fails.
-/

namespace UBoot

open List Option

namespace Readline

def SPACE : UInt8 := 32
def NEWLINE : UInt8 := 10
def DEL : UInt8 := 255
def DEL7 : UInt8 := 127

def CTL_CH (c : Char) : UInt8 := c.toUInt8 - 'a'.toUInt8 + 1

/-- `n - 1` of a `uint`. -/
def uintPred (n : Nat) : Nat := (n + (2 ^ 32 - 1)) % 2 ^ 32

/-- The part of `struct cli_line_state` that is used without history and completion. -/
structure LineState where
  num : Nat
  eolNum : Nat
  len : Nat
  insert : Bool
  buf : List UInt8
  deriving DecidableEq

/-- What `cread_line_process_ch` returns: `-EAGAIN`, 0 or `-EINTR`. -/
inductive CreadResult
  | again
  | done
  | interrupted
  deriving DecidableEq

/-- `buf[i] = c`; an access outside of the buffer is `none`. -/
def store (buf : List UInt8) (i : Nat) (c : UInt8) : Option (List UInt8) :=
  if i < buf.length then some (buf.set i c) else none

def memmove (buf : List UInt8) (dst src n : Nat) : Option (List UInt8) :=
  if dst + n ≤ buf.length ∧ src + n ≤ buf.length then
    some (buf.take dst ++ ((buf.drop src).take n ++ buf.drop (dst + n)))
  else none

/-- The bytes that `putnstr` echoes. -/
def putnstr (buf : List UInt8) (i n : Nat) : Option (List UInt8) :=
  if i + n ≤ buf.length then some ((buf.drop i).take n) else none

def creadAddChar (ichar : UInt8) (insert : Bool) (cls : LineState) : Option LineState := do
  if (insert ∨ cls.num = cls.eolNum) ∧ cls.eolNum > uintPred cls.len then return cls
  let eolNum := if insert ∨ cls.num = cls.eolNum then cls.eolNum + 1 else cls.eolNum
  if insert then
    let wlen := eolNum - cls.num
    let buf ← (if wlen > 1 then memmove cls.buf (cls.num + 1) cls.num (wlen - 1)
      else some cls.buf : Option (List UInt8))
    let buf ← store buf cls.num ichar
    let _ ← putnstr buf cls.num wlen
    return { cls with buf, eolNum, num := cls.num + 1 }
  else
    let buf ← store cls.buf cls.num ichar
    let _ ← putnstr buf cls.num 1
    return { cls with buf, eolNum, num := cls.num + 1 }

/-- The loop of `cread_add_str` over the bytes of the buffer itself. -/
def creadAddStr : (strsize str : Nat) → LineState → Option LineState
  | 0, _, cls => some cls
  | strsize + 1, str, cls => do
      let c ← cls.buf[str]?
      let cls ← creadAddChar c false cls
      creadAddStr strsize (str + 1) cls

/-- The first loop of `^W`.  `base` is a `uint`, and `base >= 0` always holds. -/
def skipBlanks (buf : List UInt8) : (fuel base : Nat) → Option Nat
  | 0, _ => none
  | fuel + 1, base => do
      let c ← buf[base]?
      if c = SPACE then skipBlanks buf fuel (uintPred base) else return base

/-- The second loop of `^W`. -/
def wordStart (buf : List UInt8) : (base : Nat) → Option Nat
  | 0 => some 0
  | base + 1 => do
      let c ← buf[base]?
      if c ≠ SPACE then wordStart buf base else return base + 1

/-- The characters from `base` to the cursor are deleted.  The echo `puts(buf + base)`, which
reads up to a NUL, is left out. -/
def deleteFrom (cls : LineState) (base : Nat) : Option LineState := do
  let wlen := cls.num - base
  let eolNum := cls.eolNum - wlen
  let buf ← memmove cls.buf base cls.num (eolNum - base + 1)
  return { cls with buf, eolNum, num := base }

def deleteWord (cls : LineState) : Option LineState := do
  if cls.num = 0 then return cls
  let base ← skipBlanks cls.buf (cls.num + 1) (cls.num - 1)
  let base ← wordStart cls.buf base
  deleteFrom cls base

def deleteChar (cls : LineState) : Option LineState := do
  if ¬ cls.num < cls.eolNum then return cls
  let wlen := cls.eolNum - cls.num - 1
  let buf ← (if wlen ≠ 0 then memmove cls.buf cls.num (cls.num + 1) wlen
    else some cls.buf : Option (List UInt8))
  let _ ← putnstr buf cls.num wlen
  return { cls with buf, eolNum := cls.eolNum - 1 }

def backspace (cls : LineState) : Option LineState := do
  if cls.num = 0 then return cls
  let wlen := cls.eolNum - cls.num
  let num := cls.num - 1
  let buf ← memmove cls.buf num (num + 1) wlen
  let _ ← putnstr buf num wlen
  return { cls with buf, num, eolNum := cls.eolNum - 1 }

variable (cls : LineState)

/-- `BEGINNING_OF_LINE`. -/
def beginningOfLine : LineState := { cls with num := 0 }

/-- `ERASE_TO_EOL`. -/
def eraseToEol : LineState :=
  if cls.num < cls.eolNum then { cls with eolNum := cls.num } else cls

/-- The cases of the switch of `cread_line_process_ch` that go on with the line. -/
inductive Key
  | beginning
  | forward
  | back
  | delete
  | kill
  | toEnd
  | toggle
  | word
  | line
  | backspace
  | history
  | char
  deriving DecidableEq

def keyOf (ichar : UInt8) : Key :=
  if ichar = CTL_CH 'a' then .beginning
  else if ichar = CTL_CH 'f' then .forward
  else if ichar = CTL_CH 'b' then .back
  else if ichar = CTL_CH 'd' then .delete
  else if ichar = CTL_CH 'k' then .kill
  else if ichar = CTL_CH 'e' then .toEnd
  else if ichar = CTL_CH 'o' then .toggle
  else if ichar = CTL_CH 'w' then .word
  else if ichar = CTL_CH 'x' ∨ ichar = CTL_CH 'u' then .line
  else if ichar = DEL ∨ ichar = DEL7 ∨ ichar = 8 then .backspace
  else if ichar = CTL_CH 'p' ∨ ichar = CTL_CH 'n' then .history
  else .char

/-- The switch of `cread_line_process_ch`; without completion a tab is a character. -/
def editKey (ichar : UInt8) : Option LineState :=
  match keyOf ichar with
  | .beginning => some (beginningOfLine cls)
  | .forward =>
      if cls.num < cls.eolNum then
        cls.buf[cls.num]?.map fun _ => { cls with num := cls.num + 1 }
      else some cls
  | .back => some (if cls.num ≠ 0 then { cls with num := cls.num - 1 } else cls)
  | .delete => deleteChar cls
  | .kill => some (eraseToEol cls)
  | .toEnd =>
      if cls.num < cls.eolNum then
        (putnstr cls.buf cls.num (cls.eolNum - cls.num)).map fun _ =>
          { cls with num := cls.eolNum }
      else some cls
  | .toggle => some { cls with insert := !cls.insert }
  | .word => deleteWord cls
  | .line => some (eraseToEol (beginningOfLine cls))
  | .backspace => backspace cls
  | .history => some cls
  | .char => creadAddChar ichar cls.insert cls

def creadLineProcessCh (ichar : UInt8) : Option (CreadResult × LineState) := do
  if ichar = 0 then return (.again, cls)
  if ichar = NEWLINE then
    let buf ← store cls.buf cls.eolNum 0
    return (.done, { cls with buf })
  if ichar = CTL_CH 'c' then
    let buf ← store cls.buf 0 0
    return (.interrupted, { cls with buf })
  let cls ← editKey cls ichar
  let buf ← store cls.buf cls.eolNum 0
  return (.again, { cls with buf })

/-- `cli_cread_init`. -/
def cliCreadInit (buf : List UInt8) (bufSize : Nat) : Option LineState :=
  creadAddStr (buf.takeWhile (· ≠ 0)).length 0 ⟨0, 0, bufSize, true, buf⟩

/-- The loop of `cread_line`: characters are fed until the line is finished or discarded. -/
def creadLine : List UInt8 → LineState → Option LineState
  | [], cls => some cls
  | c :: cs, cls => do
      let (ret, cls) ← creadLineProcessCh cls c
      if ret = .again then creadLine cs cls else return cls

/-! ## A text with a cursor -/

structure EditText where
  before : List UInt8
  after : List UInt8
  insert : Bool

namespace EditText

def text (e : EditText) : List UInt8 := e.before ++ e.after

def type (len : Nat) (c : UInt8) (e : EditText) : EditText :=
  if e.insert ∨ e.after = [] then
    if e.text.length < len then { e with before := e.before ++ [c] } else e
  else { e with before := e.before ++ [c], after := e.after.tail }

def dropWord (before : List UInt8) : List UInt8 :=
  before.rdropWhile (· = SPACE) |>.rdropWhile (· ≠ SPACE)

def press (len : Nat) (c : UInt8) (e : EditText) : EditText :=
  match keyOf c with
  | .beginning => { e with before := [], after := e.text }
  | .forward => { e with before := e.before ++ e.after.take 1, after := e.after.drop 1 }
  | .back => { e with before := e.before.dropLast, after := e.before.getLast?.toList ++ e.after }
  | .delete => { e with after := e.after.drop 1 }
  | .kill => { e with after := [] }
  | .toEnd => { e with before := e.text, after := [] }
  | .toggle => { e with insert := !e.insert }
  | .word => { e with before := dropWord e.before }
  | .line => { e with before := [], after := [] }
  | .backspace => { e with before := e.before.dropLast }
  | .history => e
  | .char => e.type len c

/-- The text when characters are fed: a newline finishes the line, and `^C` discards it. -/
def feed (len : Nat) : List UInt8 → EditText → List UInt8
  | [], e => e.text
  | c :: cs, e =>
      if c = 0 then feed len cs e
      else if c = NEWLINE then e.text
      else if c = CTL_CH 'c' then []
      else feed len cs (e.press len c)

/-- `^W` is pressed behind blanks only. -/
def BlankWord (c : UInt8) (e : EditText) : Prop :=
  keyOf c = .word ∧ e.before ≠ [] ∧ e.before.rdropWhile (· = SPACE) = []

instance (c : UInt8) (e : EditText) : Decidable (e.BlankWord c) :=
  inferInstanceAs (Decidable (_ ∧ _))

/-- No `^W` of the characters stands behind blanks only. -/
def WordsOnly (len : Nat) : List UInt8 → EditText → Prop
  | [], _ => True
  | c :: cs, e =>
      if c = 0 then WordsOnly len cs e
      else if c = NEWLINE ∨ c = CTL_CH 'c' then True
      else ¬ e.BlankWord c ∧ WordsOnly len cs (e.press len c)

instance decidableWordsOnly (len : Nat) :
    ∀ (keys : List UInt8) (e : EditText), Decidable (e.WordsOnly len keys)
  | [], _ => inferInstanceAs (Decidable True)
  | c :: cs, e =>
      have := decidableWordsOnly len cs
      inferInstanceAs (Decidable (if c = 0 then WordsOnly len cs e
        else if c = NEWLINE ∨ c = CTL_CH 'c' then True
        else ¬ e.BlankWord c ∧ WordsOnly len cs (e.press len c)))

end EditText

/-- The state that shows a text; `junk` is what stands behind it in the buffer. -/
def lineState (size : Nat) (e : EditText) (junk : List UInt8) : LineState :=
  ⟨e.before.length, e.before.length + e.after.length, size, e.insert, e.before ++ (e.after ++ junk)⟩

structure Fits (size : Nat) (e : EditText) (junk : List UInt8) : Prop where
  length : e.text.length + junk.length = size + 1
  room : e.text.length ≤ size
  nulFree : 0 ∉ e.text

def Shows (size : Nat) (e : EditText) (result : Option LineState) : Prop :=
  ∃ junk, result = some (lineState size e junk) ∧ Fits size e junk

def Spells (buf text : List UInt8) : Prop := text ++ [0] <+: buf ∧ 0 ∉ text

/-! ## Accesses to the buffer -/

theorem store_append (p rest : List UInt8) (x c : UInt8) :
    store (p ++ x :: rest) p.length c = some (p ++ c :: rest) := by simp [store]

theorem memmove_left (p gone moved rest : List UInt8) :
    ∃ rest', memmove (p ++ (gone ++ (moved ++ rest))) p.length (p.length + gone.length)
      moved.length = some (p ++ (moved ++ rest')) ∧ rest'.length = gone.length + rest.length := by
  refine ⟨(gone ++ (moved ++ rest)).drop moved.length, ?_, by simp; omega⟩
  rw [memmove, if_pos (by simp; omega), take_left, drop_length_add_append,
    drop_length_add_append, drop_left, take_left]

theorem memmove_right (p moved rest : List UInt8) (x c : UInt8) :
    (memmove (p ++ (moved ++ x :: rest)) (p.length + 1) p.length moved.length).bind
      (store · p.length c) = some (p ++ c :: (moved ++ rest)) := by
  obtain ⟨y, tail, eq⟩ : ∃ y tail, moved ++ x :: rest = y :: tail := exists_cons_of_ne_nil (by simp)
  have dropped : (y :: tail).drop (1 + moved.length) = rest := by
    rw [← eq, Nat.add_comm, drop_length_add_append]
    rfl
  rw [memmove, if_pos (by simp; omega), bind_some, drop_left, take_left,
    Nat.add_assoc, drop_length_add_append, take_length_add_append, eq, dropped,
    take_succ_cons, append_assoc]
  exact store_append p _ y c

variable {buf : List UInt8}

theorem memmove_guarded {dst src n : Nat} {moves : Prop} [Decidable moves]
    (dst_le : dst ≤ buf.length) (src_le : src ≤ buf.length) (zero : ¬ moves → n = 0) :
    (if moves then memmove buf dst src n else some buf) = memmove buf dst src n := by
  split_ifs with h
  · rfl
  · rw [zero h, memmove, if_pos ⟨dst_le, src_le⟩]
    simp

theorem putnstr_append (p shown rest : List UInt8) :
    putnstr (p ++ (shown ++ rest)) p.length shown.length = some shown := by
  rw [putnstr, if_pos (by simp)]
  simp

/-! ## The two loops of `^W` -/

theorem getElem_length {u : List UInt8} {d : UInt8} (eq : u ++ [d] <+: buf) :
    buf[u.length]? = some d := by
  obtain ⟨rest, rfl⟩ := eq
  simp

theorem wordStart_eq (u : List UInt8) (isPrefix : u <+: buf) :
    wordStart buf u.length = some (u.rdropWhile (· ≠ SPACE)).length := by
  induction u using reverseRecOn with
  | nil => rfl
  | append_singleton u d ih =>
    rw [length_append, length_singleton, wordStart, getElem_length isPrefix]
    by_cases blank : d = SPACE
    · rw [rdropWhile_concat_neg _ _ _ (by simpa using blank)]
      simp [blank]
    · rw [rdropWhile_concat_pos _ _ _ (by simpa using blank),
        ← ih ((prefix_append u [d]).trans isPrefix)]
      simp [blank]

/-- The loop stops at the last character that is no blank, and otherwise leaves the buffer. -/
theorem skipBlanks_eq (small : buf.length < 2 ^ 32) (w : List UInt8)
    (isPrefix : w <+: buf) (more : w ≠ []) :
    skipBlanks buf (w.length + 1) (w.length - 1) =
      if w.rdropWhile (· = SPACE) = [] then none
      else some ((w.rdropWhile (· = SPACE)).length - 1) := by
  induction w using reverseRecOn with
  | nil => exact absurd rfl more
  | append_singleton u d ih =>
    have inside := isPrefix.length_le
    rw [length_append, length_singleton] at inside ⊢
    rw [Nat.add_sub_cancel, skipBlanks, getElem_length isPrefix]
    by_cases blank : d = SPACE
    · rw [rdropWhile_concat_pos _ _ _ (by simpa using blank)]
      obtain rfl | more := eq_or_ne u []
      · have outside : buf[uintPred 0]? = none := getElem?_eq_none (by simp [uintPred]; omega)
        simp [blank, skipBlanks, outside]
      have pred : uintPred u.length = u.length - 1 := by
        have := length_pos_of_ne_nil more
        rw [uintPred]
        omega
      rw [← ih ((prefix_append _ [d]).trans isPrefix) more]
      simp [blank, pred]
    · rw [rdropWhile_concat_neg _ _ _ (by simpa using blank)]
      simp [blank]

/-! ## The keys -/

variable {size : Nat}

section keys

variable {e : EditText} {junk : List UInt8}

theorem Fits.shrink (fits : Fits size e junk) {e' : EditText} {junk' : List UInt8}
    (kept : e'.text.Sublist e.text)
    (length : e'.text.length + junk'.length = e.text.length + junk.length) :
    Fits size e' junk' where
  length := length.trans fits.length
  room := kept.length_le.trans fits.room
  nulFree := fun mem => fits.nulFree (kept.subset mem)

theorem Fits.exists_junk (fits : Fits size e junk) : ∃ x rest, junk = x :: rest := by
  have length := fits.length
  have room := fits.room
  exact exists_cons_of_ne_nil (by rintro rfl; simp at length; omega)

theorem Fits.small (fits : Fits size e junk) (small : size < 2 ^ 31) :
    (e.before ++ (e.after ++ junk)).length < 2 ^ 32 := by
  have length := fits.length
  simp only [EditText.text, length_append] at length ⊢
  omega

theorem memmove_one (p after junk : List UInt8) (c : UInt8) :
    ∃ rest, memmove (p ++ c :: (after ++ junk)) p.length (p.length + 1) after.length =
      some (p ++ (after ++ rest)) ∧ rest.length = 1 + junk.length :=
  memmove_left p [c] after junk

theorem Fits.deleteChar (fits : Fits size e junk) :
    Shows size { e with after := e.after.drop 1 } (deleteChar (lineState size e junk)) := by
  obtain ⟨before, after, ins⟩ := e
  cases after with
  | nil => exact ⟨junk, by simp [deleteChar, lineState], fits⟩
  | cons c after =>
    obtain ⟨rest, moved, length⟩ := memmove_one before after junk c
    refine ⟨rest, ?_, fits.shrink (by simp [EditText.text])
      (by simp [EditText.text, length]; omega)⟩
    have wlen : before.length + (after.length + 1) - before.length - 1 = after.length := by omega
    rw [deleteChar, if_neg (by simp [lineState])]
    simp only [lineState, length_cons, wlen, cons_append]
    rw [memmove_guarded (by simp) (by simp) (by simp), moved]
    simp [putnstr_append]

theorem Fits.backspace (fits : Fits size e junk) :
    Shows size { e with before := e.before.dropLast } (backspace (lineState size e junk)) := by
  obtain ⟨before, after, ins⟩ := e
  obtain rfl | ⟨before, c, rfl⟩ := eq_nil_or_concat' before
  · exact ⟨junk, rfl, fits⟩
  obtain ⟨rest, moved, length⟩ := memmove_one before after junk c
  refine ⟨rest, ?_, fits.shrink (by simp [EditText.text])
    (by simp [EditText.text, length]; omega)⟩
  have wlen : before.length + 1 + after.length - (before.length + 1) = after.length := by omega
  rw [backspace, if_neg (by simp [lineState])]
  simp only [lineState, length_append, length_singleton, wlen, Nat.add_sub_cancel,
    append_assoc, singleton_append, moved]
  simp [putnstr_append]

theorem Fits.deleteFrom {p gone after : List UInt8} {ins : Bool}
    (fits : Fits size ⟨p ++ gone, after, ins⟩ junk) :
    Shows size ⟨p, after, ins⟩ (deleteFrom (lineState size ⟨p ++ gone, after, ins⟩ junk)
      p.length) := by
  obtain ⟨x, junk, rfl⟩ := fits.exists_junk
  obtain ⟨rest, moved, length⟩ := memmove_left p gone (after ++ [x]) junk
  refine ⟨x :: rest, ?_, fits.shrink (by simp [EditText.text])
    (by simp [EditText.text, length]; omega)⟩
  have wlen : p.length + gone.length + after.length - gone.length = p.length + after.length := by
    omega
  simp only [append_assoc, singleton_append, length_append, length_singleton] at moved
  simp [deleteFrom, lineState, wlen, moved]

/-- `^W` deletes the word, and behind blanks only it reads outside of the buffer. -/
theorem Fits.deleteWord (fits : Fits size e junk) (small : size < 2 ^ 31) :
    if e.before ≠ [] ∧ e.before.rdropWhile (· = SPACE) = [] then
      deleteWord (lineState size e junk) = none
    else Shows size { e with before := EditText.dropWord e.before }
      (deleteWord (lineState size e junk)) := by
  obtain ⟨before, after, ins⟩ := e
  obtain rfl | some := eq_or_ne before []
  · exact ⟨junk, rfl, fits⟩
  have run : deleteWord (lineState size ⟨before, after, ins⟩ junk) =
      ((skipBlanks (before ++ (after ++ junk)) (before.length + 1) (before.length - 1)).bind
        fun base => (wordStart (before ++ (after ++ junk)) base).bind
          (Readline.deleteFrom (lineState size ⟨before, after, ins⟩ junk))) :=
    if_neg (by simpa [lineState] using some)
  rw [run, skipBlanks_eq (fits.small small) before (prefix_append _ _) some]
  have nonblank := rdropWhile_last_not (· = SPACE) before
  have ofWord := rdropWhile_prefix (· = SPACE) before
  obtain none | ⟨r, d, rEq⟩ := eq_nil_or_concat' (before.rdropWhile (· = SPACE))
  · rw [if_pos ⟨some, none⟩, if_pos none, bind_none]
  simp only [rEq, getLast_concat, decide_eq_true_eq] at nonblank ofWord
  have inBefore : r <+: before := (prefix_append _ _).trans ofWord
  rw [if_neg (by simp [rEq]), if_neg (by simp [rEq]), EditText.dropWord, rEq,
    rdropWhile_concat_pos _ _ _ (by simpa using nonblank), bind_some,
    length_append, length_singleton, Nat.add_sub_cancel,
    wordStart_eq r (inBefore.trans (prefix_append _ (after ++ junk))), bind_some]
  have kept := rdropWhile_prefix (· ≠ SPACE) r
  obtain ⟨gone, rfl⟩ := kept.trans inBefore
  exact fits.deleteFrom

theorem creadAddChar_overwrite (p rest : List UInt8) (x c : UInt8) (eolNum : Nat) (ins : Bool)
    (room : p.length = eolNum → ¬ eolNum > uintPred size) :
    creadAddChar c false ⟨p.length, eolNum, size, ins, p ++ x :: rest⟩ =
      some ⟨p.length + 1, if p.length = eolNum then eolNum + 1 else eolNum, size, ins,
        p ++ c :: rest⟩ := by
  rw [creadAddChar, if_neg (by simpa using room)]
  simp [store_append, putnstr]

theorem creadAddChar_insert (p after rest : List UInt8) (x c : UInt8)
    (room : ¬ p.length + after.length > uintPred size) :
    creadAddChar c true ⟨p.length, p.length + after.length, size, true, p ++ (after ++ x :: rest)⟩ =
      some ⟨p.length + 1, p.length + after.length + 1, size, true, p ++ c :: (after ++ rest)⟩ := by
  have wlen : p.length + after.length + 1 - p.length = after.length + 1 := by omega
  obtain ⟨buf, moved, stored⟩ := bind_eq_some_iff.1 (memmove_right p after rest x c)
  have echoed : putnstr (p ++ c :: (after ++ rest)) p.length (after.length + 1) =
      some (c :: after) :=
    putnstr_append p (c :: after) rest
  rw [creadAddChar, if_neg (by simp [room])]
  simp only [true_or, if_true, wlen, Nat.add_sub_cancel]
  rw [memmove_guarded (by simp; omega) (by simp) (by omega), moved]
  simp [stored, echoed]

variable (fits : Fits size e junk)

include fits

variable {c : UInt8}

theorem Fits.typed (ne : c ≠ 0) {after rest : List UInt8} (left : after <:+ e.after)
    (room : e.before.length + after.length < size)
    (length : e.before.length + after.length + rest.length = size) :
    Fits size ⟨e.before ++ [c], after, e.insert⟩ rest where
  length := by
    simp [EditText.text]
    omega
  room := by
    simp [EditText.text]
    omega
  nulFree := by
    have nulFree := fits.nulFree
    have inside := left.subset
    simp only [EditText.text, mem_append, mem_singleton, not_or] at nulFree ⊢
    exact ⟨⟨nulFree.1, ne.symm⟩, fun mem => nulFree.2 (inside mem)⟩

theorem Fits.creadAddChar (positive : 0 < size) (small : size < 2 ^ 31) (ne : c ≠ 0) :
    Shows size (e.type size c) (creadAddChar c e.insert (lineState size e junk)) := by
  obtain ⟨before, after, ins⟩ := e
  obtain ⟨x, rest, rfl⟩ := fits.exists_junk
  have length := fits.length
  have inside := fits.room
  simp only [EditText.text, length_append, length_cons] at length inside
  have full : before.length + after.length > uintPred size ↔
      ¬ before.length + after.length < size := by
    rw [uintPred]
    omega
  rw [EditText.type, EditText.text, length_append]
  by_cases adds : ins = true ∨ after = []
  · rw [if_pos adds]
    by_cases room : before.length + after.length < size
    · rw [if_pos room]
      cases ins with
      | true =>
        refine ⟨rest, ?_, fits.typed ne suffix_rfl room (by simp; omega)⟩
        simpa [lineState, Nat.add_right_comm] using
          creadAddChar_insert before after rest x c (by omega)
      | false =>
        obtain rfl : after = [] := by simpa using adds
        refine ⟨rest, ?_, fits.typed ne suffix_rfl room (by simp at length ⊢; omega)⟩
        simpa [lineState] using creadAddChar_overwrite before rest x c before.length false
          (by simp at full room; omega)
    · rw [if_neg room]
      exact ⟨x :: rest, if_pos ⟨by simpa [lineState] using adds, full.2 room⟩, fits⟩
  · obtain ⟨rfl, more⟩ : ins = false ∧ after ≠ [] := by simpa using adds
    obtain ⟨d, after, rfl⟩ := exists_cons_of_ne_nil more
    rw [length_cons] at length inside
    refine ⟨x :: rest, ?_, fits.typed ne (suffix_cons d after) (by simp; omega) (by simp; omega)⟩
    simpa [lineState, Nat.add_right_comm, Nat.add_assoc] using
      creadAddChar_overwrite before (after ++ x :: rest) d c (before.length + (after.length + 1))
        false (by omega)

theorem Fits.eraseToEol :
    Shows size { e with after := [] } (some (eraseToEol (lineState size e junk))) := by
  obtain ⟨before, after, ins⟩ := e
  refine ⟨after ++ junk, ?_, fits.shrink (by simp [EditText.text]) (by simp [EditText.text]; omega)⟩
  cases after with
  | nil => simp [eraseToEol, lineState]
  | cons c after => simp [eraseToEol, lineState]

theorem Fits.move (p after : List UInt8) (text : e.before ++ e.after = p ++ after) :
    Shows size ⟨p, after, e.insert⟩ (some { lineState size e junk with num := p.length }) := by
  have same : (⟨p, after, e.insert⟩ : EditText).text = e.text := text.symm
  refine ⟨junk, ?_, fits.shrink (by rw [same]) (by rw [same])⟩
  have length := congrArg List.length text
  simp only [length_append] at length
  simp only [lineState, ← append_assoc, text, length]

theorem Fits.editKey (positive : 0 < size) (small : size < 2 ^ 31) (ne : c ≠ 0)
    (word : ¬ e.BlankWord c) : Shows size (e.press size c) (editKey (lineState size e junk) c) := by
  obtain ⟨key, keyEq⟩ : ∃ key, keyOf c = key := ⟨_, rfl⟩
  rw [Readline.editKey, EditText.press, keyEq]
  cases key with
  | beginning => exact fits.move [] _ rfl
  | forward =>
    obtain ⟨before, after, ins⟩ := e
    cases after with
    | nil => simpa [lineState] using fits.move _ _ rfl
    | cons c after => simpa [lineState] using fits.move (before ++ [c]) after (by simp)
  | back =>
    obtain ⟨before, after, ins⟩ := e
    obtain rfl | ⟨before, c, rfl⟩ := eq_nil_or_concat' before
    · simpa [lineState] using fits.move _ _ rfl
    · simpa [lineState] using fits.move before (c :: after) (by simp)
  | delete => exact fits.deleteChar
  | kill => exact fits.eraseToEol
  | toEnd =>
    obtain ⟨before, after, ins⟩ := e
    cases after with
    | nil => simpa [lineState, EditText.text] using fits.move _ _ rfl
    | cons c after =>
      have echoed := putnstr_append before (c :: after) junk
      simp only [length_cons, cons_append] at echoed
      simpa [lineState, EditText.text, echoed] using fits.move (before ++ c :: after) [] (by simp)
  | toggle => exact ⟨junk, rfl, fits.length, fits.room, fits.nulFree⟩
  | word =>
    have deleted := fits.deleteWord small
    rwa [if_neg fun blank => word ⟨keyEq, blank⟩] at deleted
  | line =>
    obtain ⟨rest, moved, fits⟩ := fits.move [] _ rfl
    have start : beginningOfLine (lineState size e junk) = _ := some.inj moved
    rw [start]
    exact fits.eraseToEol
  | backspace => exact fits.backspace
  | history => exact ⟨junk, rfl, fits⟩
  | char => exact fits.creadAddChar positive small ne

theorem Fits.terminate :
    ∃ buf rest, store (lineState size e junk).buf (lineState size e junk).eolNum 0 = some buf ∧
      { lineState size e junk with buf } = lineState size e rest ∧ Fits size e rest ∧
        Spells buf e.text := by
  obtain ⟨x, rest, rfl⟩ := fits.exists_junk
  have stored := store_append e.text rest x 0
  simp only [EditText.text, length_append, append_assoc] at stored
  exact ⟨_, 0 :: rest, stored, rfl, fits.shrink (List.Sublist.refl _) rfl,
    ⟨rest, by simp [EditText.text]⟩, fits.nulFree⟩

theorem Fits.process (positive : 0 < size) (small : size < 2 ^ 31) (ne : c ≠ 0)
    (line : ¬ (c = NEWLINE ∨ c = CTL_CH 'c')) (word : ¬ e.BlankWord c) :
    ∃ rest, creadLineProcessCh (lineState size e junk) c =
        some (.again, lineState size (e.press size c) rest) ∧
      Fits size (e.press size c) rest ∧
        Spells (lineState size (e.press size c) rest).buf (e.press size c).text := by
  obtain ⟨junk', edited, fits⟩ := fits.editKey positive small ne word
  obtain ⟨buf, rest, stored, same, fits, spells⟩ := fits.terminate
  rw [not_or] at line
  refine ⟨rest, ?_, fits, same ▸ spells⟩
  rw [creadLineProcessCh, if_neg ne, if_neg line.1, if_neg line.2, edited, ← same]
  simp [stored]

theorem Fits.process_none (small : size < 2 ^ 31) (ne : c ≠ 0)
    (line : ¬ (c = NEWLINE ∨ c = CTL_CH 'c')) (blank : e.BlankWord c) :
    creadLineProcessCh (lineState size e junk) c = none := by
  have deleted := fits.deleteWord small
  rw [if_pos blank.2] at deleted
  rw [not_or] at line
  rw [creadLineProcessCh, if_neg ne, if_neg line.1, if_neg line.2, Readline.editKey, blank.1]
  simp [deleted]

end keys

/-! ## Whole lines -/

structure Line (size : Nat) (text : List UInt8) (cls : LineState) : Prop where
  num_le : cls.num ≤ cls.eolNum
  eolNum_le : cls.eolNum ≤ size
  spells : Spells cls.buf text

theorem Fits.line {e : EditText} {junk : List UInt8} (fits : Fits size e junk)
    {text : List UInt8} (spells : Spells buf text) :
    Line size text { lineState size e junk with buf } where
  num_le := by simp [lineState]
  eolNum_le := by simpa [EditText.text, lineState] using fits.room
  spells := spells

theorem Fits.creadLine (positive : 0 < size) (small : size < 2 ^ 31)
    (keys : List UInt8) : ∀ {e : EditText} {junk : List UInt8}, Fits size e junk →
      Spells (lineState size e junk).buf e.text →
        ((∃ cls, creadLine keys (lineState size e junk) = some cls ∧
          Line size (e.feed size keys) cls) ↔ e.WordsOnly size keys) := by
  induction keys with
  | nil =>
    intro e junk fits spells
    exact iff_of_true ⟨_, rfl, fits.line spells⟩ trivial
  | cons c keys ih =>
    intro e junk fits spells
    rw [Readline.creadLine, EditText.feed, EditText.WordsOnly]
    by_cases zero : c = 0
    · rw [if_pos zero, if_pos zero, creadLineProcessCh, if_pos zero]
      exact ih fits spells
    rw [if_neg zero, if_neg zero]
    by_cases newline : c = NEWLINE
    · obtain ⟨buf, rest, stored, -, -, spells⟩ := fits.terminate
      rw [if_pos newline, if_pos (.inl newline), creadLineProcessCh, if_neg zero, if_pos newline,
        stored]
      exact iff_of_true ⟨_, rfl, fits.line spells⟩ trivial
    rw [if_neg newline]
    by_cases discard : c = CTL_CH 'c'
    · obtain ⟨x, rest, eq⟩ : ∃ x rest, (lineState size e junk).buf = x :: rest := by
        obtain ⟨x, rest, rfl⟩ := fits.exists_junk
        exact exists_cons_of_ne_nil (by simp [lineState])
      have stored : store (lineState size e junk).buf 0 0 = some (0 :: rest) :=
        eq ▸ store_append [] rest x 0
      rw [if_pos discard, if_pos (.inr discard), creadLineProcessCh, if_neg zero, if_neg newline,
        if_pos discard, stored]
      exact iff_of_true ⟨_, rfl, fits.line ⟨⟨rest, rfl⟩, by simp⟩⟩ trivial
    have line : ¬ (c = NEWLINE ∨ c = CTL_CH 'c') := by simp [newline, discard]
    rw [if_neg discard, if_neg line]
    by_cases blank : e.BlankWord c
    · rw [fits.process_none small zero line blank]
      exact iff_of_false (by simp) (by simp [blank])
    · obtain ⟨rest, processed, fits, spells⟩ := fits.process positive small zero line blank
      rw [processed, and_iff_right blank]
      exact ih fits spells

theorem creadAddStr_eq (length : buf.length = size + 1)
    (small : size < 2 ^ 31) (n : Nat) : ∀ i, i + n ≤ size →
      creadAddStr n i ⟨i, i, size, true, buf⟩ = some ⟨i + n, i + n, size, true, buf⟩ := by
  induction n with
  | zero => exact fun i _ => rfl
  | succ n ih =>
    intro i le
    have inside : i < buf.length := by omega
    have split : buf.take i ++ buf[i] :: buf.drop (i + 1) = buf := by simp
    have taken : (buf.take i).length = i := by simp; omega
    have room : ¬ i > uintPred size := by rw [uintPred]; omega
    have added := creadAddChar_overwrite (buf.take i) (buf.drop (i + 1)) buf[i] buf[i] i true
      fun _ => room
    rw [taken, split, if_pos rfl] at added
    rw [creadAddStr, getElem?_eq_getElem inside]
    simp only [bind_eq_bind, bind_some, added]
    rw [ih (i + 1) (by omega), Nat.add_right_comm, Nat.add_assoc]

/-- The editor refines a text with a cursor exactly when no `^W` stands behind blanks only. -/
theorem creadLine_refines_iff (text junk : List UInt8) (nulFree : 0 ∉ text) (size : Nat)
    (length : (text ++ 0 :: junk).length = size + 1) (small : size < 2 ^ 31)
    (short : text.length < size) (keys : List UInt8) :
    (∃ cls, (cliCreadInit (text ++ 0 :: junk) size).bind (creadLine keys) = some cls ∧
      Line size (EditText.feed size keys ⟨text, [], true⟩) cls) ↔
        EditText.WordsOnly size keys ⟨text, [], true⟩ := by
  have strlen : (text ++ 0 :: junk).takeWhile (· ≠ 0) = text := by
    rw [takeWhile_append_of_pos fun c mem => by simpa using ne_of_mem_of_not_mem mem nulFree]
    simp
  have started : cliCreadInit (text ++ 0 :: junk) size =
      some (lineState size ⟨text, [], true⟩ (0 :: junk)) := by
    rw [cliCreadInit, strlen, creadAddStr_eq length small _ 0 (by omega), Nat.zero_add]
    rfl
  have same : (⟨text, [], true⟩ : EditText).text = text := append_nil text
  rw [started, bind_some]
  refine Fits.creadLine (by omega) small keys ⟨?_, ?_, ?_⟩ ⟨⟨junk, ?_⟩, ?_⟩
  · rw [same, ← length_append, length]
  · rw [same]
    exact short.le
  · rwa [same]
  · simp [same, lineState]
  · rwa [same]

theorem creadLine_refines_typed :
    ∃ cls, (cliCreadInit [97, 0, 0, 0, 0] 4).bind (creadLine [98, 2, 23, 32, 10]) = some cls ∧
      Line 4 [32, 98] cls :=
  (creadLine_refines_iff [97] [0, 0, 0] (by decide) 4 rfl (by decide) (by decide)
    [98, 2, 23, 32, 10]).2 (by decide)

/-- A blank and `^W`: the loop reads in front of the buffer. -/
theorem creadLine_blank : (cliCreadInit [0, 0, 0] 2).bind (creadLine [32, 23]) = none ∧
      EditText.feed 2 [32, 23] ⟨[], [], true⟩ = [] := by decide

end Readline

end UBoot
