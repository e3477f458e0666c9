import Mathlib.Data.List.Chain
import UBoot.ByteMemory

/-!
# Lists of terminated strings in memory

A list of strings that are not empty is stored one behind the other, each with a zero
byte behind it, and the list ends with one more zero byte.  The empty list is stored as
two zero bytes, so that two zero bytes in a row mark the end of every list and are found
nowhere else.
-/

namespace UBoot

open List

namespace Memory

def HasBytes (m : Memory) (a : Nat) (bytes : List UInt8) : Prop := m.read a bytes.length = bytes

variable {m : Memory} {a b : Nat} {bytes xs ys : List UInt8} {x : UInt8}

theorem hasBytes_nil : m.HasBytes a [] := rfl

theorem hasBytes_cons : m.HasBytes a (x :: xs) ↔ m a = x ∧ m.HasBytes (a + 1) xs := by
  unfold HasBytes
  rw [length_cons, read, cons.injEq]

theorem hasBytes_append :
    m.HasBytes a (xs ++ ys) ↔ m.HasBytes a xs ∧ m.HasBytes (a + xs.length) ys := by
  induction xs generalizing a with
  | nil => simp [hasBytes_nil]
  | cons x xs ih =>
    rw [cons_append, hasBytes_cons, hasBytes_cons, ih, and_assoc, length_cons,
      Nat.add_assoc, Nat.add_comm 1 xs.length]

theorem hasBytes_write (m : Memory) (a : Nat) (bytes : List UInt8) :
    (m.write a bytes).HasBytes a bytes := read_write_same m a bytes

theorem HasBytes.write_apart (has : m.HasBytes a bytes)
    (apart : a + bytes.length ≤ b ∨ b + xs.length ≤ a) : (m.write b xs).HasBytes a bytes := by
  unfold HasBytes
  rw [read_write_of_disjoint apart]
  exact has

theorem HasBytes.of_prefix (has : m.HasBytes a ys) (before : xs <+: ys) : m.HasBytes a xs := by
  obtain ⟨rest, rfl⟩ := before
  exact (hasBytes_append.1 has).1

end Memory

def joinStrings (strings : List (List UInt8)) : List UInt8 := strings.flatMap (· ++ [0])

def terminated (strings : List (List UInt8)) : List UInt8 :=
  if strings = [] then [0, 0] else joinStrings strings ++ [0]

def ProperString (s : List UInt8) : Prop := s ≠ [] ∧ 0 ∉ s

variable {s : List UInt8} {strings more : List (List UInt8)}

theorem joinStrings_cons : joinStrings (s :: strings) = s ++ 0 :: joinStrings strings := by
  rw [joinStrings, flatMap_cons, append_assoc]
  rfl

theorem joinStrings_append :
    joinStrings (strings ++ more) = joinStrings strings ++ joinStrings more :=
  flatMap_append

theorem terminated_of_ne_nil (nonempty : strings ≠ []) :
    terminated strings = joinStrings strings ++ [0] := if_neg nonempty

theorem terminated_append (nonempty : more ≠ []) :
    terminated (strings ++ more) = joinStrings strings ++ terminated more := by
  rw [terminated_of_ne_nil (by simp [nonempty]), terminated_of_ne_nil nonempty, joinStrings_append,
    append_assoc]

theorem terminated_singleton : terminated [s] = s ++ 0 :: [0] := by
  rw [terminated_of_ne_nil (by simp), joinStrings_cons, append_assoc]
  rfl

theorem terminated_cons (nonempty : more ≠ []) :
    terminated (s :: more) = s ++ 0 :: terminated more := by
  rw [terminated_of_ne_nil (by simp), terminated_of_ne_nil nonempty, joinStrings_cons,
    append_assoc, cons_append]

theorem terminated_prefix : terminated strings <+: joinStrings strings ++ [0, 0] := by
  unfold terminated
  split
  case isTrue empty =>
    rw [empty]
    exact prefix_rfl
  case isFalse => exact ⟨[0], by rw [append_assoc]; rfl⟩

theorem joinStrings_prefix_terminated : joinStrings strings ++ [0] <+: terminated strings := by
  unfold terminated
  split
  case isTrue empty =>
    rw [empty]
    exact ⟨[0], rfl⟩
  case isFalse => exact prefix_rfl

theorem two_le_length_terminated : 2 ≤ (terminated strings).length := by
  cases strings with
  | nil => decide
  | cons s strings =>
    rw [terminated_of_ne_nil (by simp), joinStrings_cons]
    simp only [length_append, length_cons, length_nil]
    omega

theorem length_le_length_joinStrings : strings.length ≤ (joinStrings strings).length := by
  induction strings with
  | nil => exact le_rfl
  | cons s strings ih =>
    rw [joinStrings_cons, length_append, length_cons, length_cons]
    omega

def NoDoubleZero (bytes : List UInt8) : Prop := bytes.IsChain fun x y => ¬(x = 0 ∧ y = 0)

theorem noDoubleZero_append {bytes : List UInt8} (nulFree : 0 ∉ s) (rest : NoDoubleZero bytes) :
    NoDoubleZero (s ++ bytes) := by
  induction s with
  | nil => exact rest
  | cons x s ih =>
    rw [mem_cons, not_or] at nulFree
    apply List.IsChain.cons (ih nulFree.2)
    intro y _ zeros
    exact nulFree.1 zeros.1.symm

theorem noDoubleZero_joinStrings (proper : ∀ s ∈ strings, ProperString s) :
    NoDoubleZero (joinStrings strings) := by
  induction strings with
  | nil => exact .nil
  | cons s strings ih =>
    rw [forall_mem_cons] at proper
    rw [joinStrings_cons]
    apply noDoubleZero_append proper.1.2
    apply List.IsChain.cons (ih proper.2)
    intro y first zeros
    cases strings with
    | nil => cases first
    | cons next strings =>
      rw [forall_mem_cons] at proper
      obtain ⟨x, text, rfl⟩ := exists_cons_of_ne_nil proper.2.1.1
      rw [joinStrings_cons, cons_append, head?_cons, Option.mem_some_iff] at first
      rw [first, zeros.2] at proper
      exact proper.2.1.2 mem_cons_self

theorem getLast?_joinStrings (nonempty : strings ≠ []) :
    (joinStrings strings).getLast? = some 0 := by
  induction strings with
  | nil => exact absurd rfl nonempty
  | cons s strings ih =>
    rw [joinStrings_cons]
    cases strings with
    | nil => exact getLast?_concat
    | cons next strings =>
      rw [getLast?_append, getLast?_cons, ih (by simp)]
      rfl

end UBoot
