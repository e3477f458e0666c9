import UBoot.FwEnv
import UBoot.TerminatedStrings

/-!
# Images of an environment

The data area of an image that the tool accepts is a list of terminated strings.  This
file says what each loop over the area finds in such a list: its strings and its end, a
variable by its name, and the list without one of its strings.
-/

namespace UBoot

open List Memory

/-- The strings that `fw_printenv` prints. -/
def imageEntriesLoop (size : Nat) (data : Memory) : (rounds env : Nat) → List CString
  | 0, _ => []
  | rounds + 1, env =>
    if env < size ∧ data env ≠ 0 then
      match fwEnvEntryEnd size data env with
      | none => []
      | some nxt => data.read env (nxt - env) :: imageEntriesLoop size data rounds (nxt + 1)
    else []

def imageEntries (size : Nat) (data : Memory) : List CString :=
  imageEntriesLoop size data (size + 1) 0

structure Holds (size : Nat) (data : Memory) (strings : List CString) : Prop where
  proper : ∀ s ∈ strings, ProperString s
  bytes : data.HasBytes 0 (terminated strings)
  fits : (terminated strings).length ≤ size

variable {size : Nat} {data : Memory} {env : Nat}

/-! ## One string -/

variable {rest s : CString}

theorem memchrNul_string (nulFree : 0 ∉ s)
    (bytes : data.HasBytes env (s ++ 0 :: rest)) : ∀ n, s.length < n →
    memchrNul data n env = some (env + s.length) := by
  induction s generalizing env with
  | nil =>
    intro n enough
    cases n with
    | zero => cases enough
    | succ n =>
      rw [nil_append, hasBytes_cons] at bytes
      rw [memchrNul, if_pos bytes.1]
      rfl
  | cons x s ih =>
    intro n enough
    cases n with
    | zero => cases enough
    | succ n =>
      rw [mem_cons, not_or] at nulFree
      rw [cons_append, hasBytes_cons] at bytes
      rw [length_cons] at enough
      rw [memchrNul, if_neg (by rw [bytes.1]; exact Ne.symm nulFree.1),
        ih nulFree.2 bytes.2 n (by omega), length_cons, Nat.add_assoc,
        Nat.add_comm 1 s.length]

theorem fwEnvEntryEnd_string (nulFree : 0 ∉ s)
    (bytes : data.HasBytes env (s ++ 0 :: rest)) (inside : env + s.length < size) :
    fwEnvEntryEnd size data env = some (env + s.length) := by
  rw [fwEnvEntryEnd, if_neg (by omega)]
  exact memchrNul_string nulFree bytes _ (by omega)

theorem head_string (proper : ProperString s)
    (bytes : data.HasBytes env (s ++ rest)) : data env ≠ 0 := by
  obtain ⟨x, text, rfl⟩ := exists_cons_of_ne_nil proper.1
  rw [cons_append, hasBytes_cons] at bytes
  rw [bytes.1]
  intro zero
  exact proper.2 (zero ▸ mem_cons_self)

theorem memchrNul_some (n env nxt : Nat) (found : memchrNul data n env = some nxt) :
    env ≤ nxt ∧ data nxt = 0 ∧ 0 ∉ data.read env (nxt - env) := by
  induction n generalizing env nxt with
  | zero => cases found
  | succ n ih =>
    rw [memchrNul] at found
    split at found
    case isTrue zero =>
      cases found
      rw [Nat.sub_self]
      exact ⟨le_rfl, zero, not_mem_nil⟩
    case isFalse nonzero =>
      obtain ⟨lower, zero, nulFree⟩ := ih (env + 1) nxt found
      have length : nxt - env = nxt - (env + 1) + 1 := by omega
      refine ⟨by omega, zero, ?_⟩
      rw [length, Memory.read, mem_cons, not_or]
      exact ⟨Ne.symm nonzero, nulFree⟩

/-! ## The strings of an area and its end -/

theorem imageEntriesLoop_of_zero {rounds : Nat} (zero : data env = 0) :
    imageEntriesLoop size data rounds env = [] := by
  cases rounds with
  | zero => rfl
  | succ rounds => rw [imageEntriesLoop, if_neg fun going => going.2 zero]

variable {strings : List CString}

theorem head_terminated (nonempty : strings ≠ [])
    (proper : ∀ s ∈ strings, ProperString s) (bytes : data.HasBytes env (terminated strings)) :
    data env ≠ 0 := by
  obtain ⟨s, rest, rfl⟩ := exists_cons_of_ne_nil nonempty
  rw [terminated_of_ne_nil nonempty, joinStrings_cons, append_assoc] at bytes
  exact head_string (proper s mem_cons_self) bytes

theorem fwEnvDataEndLoop_holds (strings : List CString) (rounds env : Nat)
    (proper : ∀ s ∈ strings, ProperString s) (bytes : data.HasBytes env (terminated strings))
    (fits : env + (terminated strings).length ≤ size) (enough : strings.length < rounds) :
    fwEnvDataEndLoop size data rounds env = some (env + (terminated strings).length - 2) ∧
      imageEntriesLoop size data rounds env = strings := by
  induction strings generalizing rounds env with
  | nil =>
    cases rounds with
    | zero => cases enough
    | succ rounds =>
      have ending : terminated [] = [0, 0] := rfl
      rw [ending, hasBytes_cons, hasBytes_cons] at bytes
      rw [ending, length_cons, length_cons, length_nil] at fits
      have stops : ¬(env < size ∧ data env ≠ 0) := fun going => going.2 bytes.1
      rw [fwEnvDataEndLoop, imageEntriesLoop_of_zero bytes.1, if_neg stops,
        if_pos ⟨by omega, by omega, bytes.2.1⟩]
      exact ⟨rfl, rfl⟩
  | cons s strings ih =>
    cases rounds with
    | zero => cases enough
    | succ rounds =>
      rw [forall_mem_cons] at proper
      have going : env < size ∧ data env ≠ 0 := by
        have least : 2 ≤ (terminated (s :: strings)).length := two_le_length_terminated
        exact ⟨by omega, head_terminated (by simp) (forall_mem_cons.2 proper) bytes⟩
      rw [fwEnvDataEndLoop, imageEntriesLoop, if_pos going, if_pos going]
      by_cases last : strings = []
      · subst last
        rw [terminated_singleton] at bytes fits ⊢
        simp only [length_append, length_cons, length_nil] at fits ⊢
        rw [fwEnvEntryEnd_string proper.1.2 bytes (by omega)]
        rw [hasBytes_append, hasBytes_cons, hasBytes_cons] at bytes
        dsimp only
        rw [if_neg (by omega), if_pos bytes.2.2.1, imageEntriesLoop_of_zero bytes.2.2.1,
          Nat.add_sub_cancel_left, bytes.1]
        exact ⟨by congr 1, rfl⟩
      rw [terminated_cons last] at bytes fits ⊢
      simp only [length_append, length_cons] at fits enough ⊢
      have least : 2 ≤ (terminated strings).length := two_le_length_terminated
      rw [fwEnvEntryEnd_string proper.1.2 bytes (by omega)]
      rw [hasBytes_append, hasBytes_cons] at bytes
      have tail := ih rounds (env + s.length + 1) proper.2 bytes.2.2 (by omega) (by omega)
      dsimp only
      rw [if_neg (by omega), if_neg (head_terminated last proper.2 bytes.2.2), tail.1, tail.2,
        Nat.add_sub_cancel_left, bytes.1]
      exact ⟨by congr 1; omega, rfl⟩

theorem holds_of_fwEnvDataEndLoop (rounds env last : Nat)
    (accepted : fwEnvDataEndLoop size data rounds env = some last) :
    (∀ s ∈ imageEntriesLoop size data rounds env, ProperString s) ∧
      data.HasBytes env (terminated (imageEntriesLoop size data rounds env)) ∧
      env + (terminated (imageEntriesLoop size data rounds env)).length ≤ size := by
  induction rounds generalizing env last with
  | zero => cases accepted
  | succ rounds ih =>
    rw [fwEnvDataEndLoop] at accepted
    rw [imageEntriesLoop]
    split at accepted
    case isTrue going =>
      rw [if_pos going]
      cases found : fwEnvEntryEnd size data env with
      | none =>
        rw [found] at accepted
        cases accepted
      | some nxt =>
        rw [found] at accepted
        dsimp only at accepted ⊢
        rw [fwEnvEntryEnd, if_neg (by omega)] at found
        obtain ⟨lower, zero, nulFree⟩ := memchrNul_some _ _ _ found
        have nonempty : data.read env (nxt - env) ≠ [] := by
          intro empty
          have length := congrArg length empty
          rw [length_read, length_nil] at length
          have same : nxt = env := by omega
          exact going.2 (same ▸ zero)
        have string : data.HasBytes env (data.read env (nxt - env)) := by
          rw [Memory.HasBytes, length_read]
        have stringEnd : env + (data.read env (nxt - env)).length = nxt := by
          rw [length_read]
          omega
        split at accepted
        case isTrue => cases accepted
        case isFalse inside =>
          split at accepted
          case isTrue ends =>
            rw [imageEntriesLoop_of_zero ends, terminated_singleton]
            refine ⟨?_, ?_, ?_⟩
            · intro s member
              rw [mem_singleton] at member
              rw [member]
              exact ⟨nonempty, nulFree⟩
            · rw [hasBytes_append, hasBytes_cons, hasBytes_cons, stringEnd]
              exact ⟨string, zero, ends, hasBytes_nil⟩
            · simp only [length_append, length_cons, length_nil]
              omega
          case isFalse more =>
            obtain ⟨proper, bytes, fits⟩ := ih (nxt + 1) last accepted
            have rest : imageEntriesLoop size data rounds (nxt + 1) ≠ [] := by
              intro none
              rw [none] at bytes
              exact more (hasBytes_cons.1 bytes).1
            rw [terminated_cons rest]
            refine ⟨?_, ?_, ?_⟩
            · exact forall_mem_cons.2 ⟨⟨nonempty, nulFree⟩, proper⟩
            · rw [hasBytes_append, hasBytes_cons, stringEnd]
              exact ⟨string, zero, bytes⟩
            · simp only [length_append, length_cons]
              omega
    case isFalse stops =>
      rw [if_neg stops]
      split at accepted
      case isTrue ends =>
        have zero : data env = 0 := by
          by_contra nonzero
          exact stops ⟨ends.1, nonzero⟩
        refine ⟨by simp, ?_, ?_⟩
        · exact hasBytes_cons.2 ⟨zero, hasBytes_cons.2 ⟨ends.2.2, hasBytes_nil⟩⟩
        · exact ends.2.1
      case isFalse => cases accepted

theorem Holds.length_lt (holds : Holds size data strings) : strings.length < size + 1 := by
  have fits := holds.fits
  have joined : (joinStrings strings ++ [0]).length ≤ (terminated strings).length :=
    joinStrings_prefix_terminated.length_le
  have count : strings.length ≤ (joinStrings strings).length := length_le_length_joinStrings
  rw [length_append, length_singleton] at joined
  omega

theorem Holds.found (holds : Holds size data strings) :
    fwEnvDataEnd size data = some ((terminated strings).length - 2) ∧
      imageEntries size data = strings := by
  have fits : 0 + (terminated strings).length ≤ size := by
    rw [Nat.zero_add]
    exact holds.fits
  have found := fwEnvDataEndLoop_holds strings (size + 1) 0 holds.proper holds.bytes fits
    holds.length_lt
  rw [Nat.zero_add] at found
  exact found

theorem holds_iff : Holds size data strings ↔
      (fwEnvDataEnd size data).isSome = true ∧ imageEntries size data = strings := by
  constructor
  · intro holds
    rw [holds.found.1]
    exact ⟨rfl, holds.found.2⟩
  rintro ⟨accepted, rfl⟩
  obtain ⟨last, accepted⟩ := Option.isSome_iff_exists.1 accepted
  obtain ⟨proper, bytes, fits⟩ := holds_of_fwEnvDataEndLoop _ _ _ accepted
  rw [Nat.zero_add] at fits
  exact ⟨proper, bytes, fits⟩

/-! ## Removing and appending a string -/

theorem slideLoop_eq (bytes : List UInt8) (rounds : Nat) (data : Memory) (env nxt : Nat)
    (apart : NoDoubleZero bytes) (last : bytes.getLast? = some 0)
    (stored : data.HasBytes nxt (bytes ++ [0])) (order : env < nxt)
    (fits : nxt + bytes.length < size) (enough : bytes.length ≤ rounds) :
    slideLoop size rounds data env nxt = some (data.write env bytes, env + bytes.length - 1) := by
  induction bytes generalizing rounds data env nxt with
  | nil => cases last
  | cons x bytes ih =>
    cases rounds with
    | zero => simp at enough
    | succ rounds =>
      rw [length_cons] at fits enough
      rw [cons_append, hasBytes_cons] at stored
      have copied : (data.write env [data nxt]) env = x := by
        have has := hasBytes_write data env [data nxt]
        rw [hasBytes_cons] at has
        rw [has.1, stored.1]
      have source : (data.write env [data nxt]).HasBytes (nxt + 1) (bytes ++ [0]) := by
        apply stored.2.write_apart
        simp only [length_cons, length_nil]
        omega
      rw [slideLoop, if_neg (by omega)]
      cases bytes with
      | nil =>
        rw [getLast?_singleton, Option.some.injEq] at last
        rw [nil_append, hasBytes_cons] at source
        rw [if_pos ⟨copied.trans last, source.1⟩, stored.1]
        rfl
      | cons y bytes =>
        rw [NoDoubleZero, isChain_cons_cons] at apart
        have next : (data.write env [data nxt]) (nxt + 1) = y := by
          rw [cons_append, hasBytes_cons] at source
          exact source.1
        rw [if_neg (by rw [copied, next]; exact apart.1),
          ih rounds _ (env + 1) (nxt + 1) apart.2 last source (by omega) (by omega)
            (by omega), stored.1]
        have joined := write_append data env [x] (y :: bytes)
        rw [length_singleton] at joined
        simp only [length_cons]
        congr 2
        omega

section Edit

variable {before behind : List CString} {s : CString}

theorem Holds.split (holds : Holds size data (before ++ s :: behind)) :
    data.HasBytes 0 (joinStrings before) ∧
      data.HasBytes (joinStrings before).length (terminated (s :: behind)) ∧
      (joinStrings before).length + (terminated (s :: behind)).length ≤ size := by
  have bytes := holds.bytes
  have fits := holds.fits
  rw [terminated_append (by simp)] at bytes fits
  rw [hasBytes_append, Nat.zero_add] at bytes
  rw [length_append] at fits
  exact ⟨bytes.1, bytes.2, fits⟩

theorem Holds.removeEntry (holds : Holds size data (before ++ s :: behind)) :
    ∃ data', removeEntry size data (joinStrings before).length
        ((joinStrings before).length + s.length) = some data' ∧
      Holds size data' (before ++ behind) := by
  obtain ⟨front, back, fits⟩ := holds.split
  have proper : ∀ t ∈ before ++ behind, ProperString t := by
    intro t member
    apply holds.proper
    rw [mem_append] at member ⊢
    exact member.imp_right (mem_cons_of_mem s)
  have nonempty : 0 < s.length := by
    have properS := holds.proper s (by simp)
    exact length_pos_of_ne_nil properS.1
  unfold UBoot.removeEntry
  by_cases last : behind = []
  · subst last
    rw [terminated_singleton] at back fits
    simp only [length_append, length_cons, length_nil] at fits
    rw [hasBytes_append, hasBytes_cons, hasBytes_cons] at back
    rw [if_neg (by omega), if_pos back.2.2.1, if_neg (by omega)]
    have joined := write_append data (joinStrings before).length [0] [0]
    rw [length_singleton] at joined
    have ending : (data.write (joinStrings before).length [0, 0]).HasBytes 0
        (joinStrings before ++ [0, 0]) := by
      rw [hasBytes_append, Nat.zero_add]
      exact ⟨front.write_apart (by omega), hasBytes_write _ _ _⟩
    have length : (terminated before).length ≤ (joinStrings before ++ [0, 0]).length :=
      terminated_prefix.length_le
    simp only [length_append, length_cons, length_nil] at length
    rw [joined]
    refine ⟨_, rfl, proper, ?_, ?_⟩
    · rw [append_nil]
      exact ending.of_prefix terminated_prefix
    · rw [append_nil]
      omega
  have properBehind : ∀ t ∈ behind, ProperString t := fun t member =>
    proper t (mem_append_right _ member)
  rw [terminated_cons last] at back fits
  rw [hasBytes_append, hasBytes_cons] at back
  have more := head_terminated last properBehind back.2.2
  have stored := back.2.2
  rw [terminated_of_ne_nil last] at stored fits
  simp only [length_append, length_cons, length_nil] at fits
  have moved : slideLoop size size data (joinStrings before).length
      ((joinStrings before).length + s.length + 1) =
      some (data.write (joinStrings before).length (joinStrings behind), _) :=
    slideLoop_eq (joinStrings behind) size data _ _ (noDoubleZero_joinStrings properBehind)
      (getLast?_joinStrings last) stored (by omega) (by omega) (by omega)
  have positive : 0 < (joinStrings behind).length :=
    lt_of_lt_of_le (length_pos_of_ne_nil last) length_le_length_joinStrings
  have place : (joinStrings before).length + (joinStrings behind).length - 1 + 1 =
      (joinStrings before).length + (joinStrings behind).length := by omega
  rw [if_neg (by omega), if_neg more, moved]
  dsimp only
  rw [if_neg (by omega), place, write_append]
  refine ⟨_, rfl, proper, ?_, ?_⟩
  · rw [terminated_append last, terminated_of_ne_nil last, hasBytes_append, Nat.zero_add]
    exact ⟨front.write_apart (by omega), hasBytes_write _ _ _⟩
  · rw [terminated_append last, terminated_of_ne_nil last]
    simp only [length_append, length_cons, length_nil]
    omega

theorem Holds.appendPosition (holds : Holds size data strings) :
    ∃ last, fwEnvDataEnd size data = some last ∧
      (if 0 < last then last + 1 else last) = (joinStrings strings).length := by
  refine ⟨_, holds.found.1, ?_⟩
  cases strings with
  | nil => rfl
  | cons s strings =>
    have nonempty := length_pos_of_ne_nil (holds.proper s mem_cons_self).1
    rw [terminated_of_ne_nil (by simp), length_append, length_singleton]
    rw [joinStrings_cons, length_append, length_cons, if_pos (by omega)]
    omega

theorem Holds.append (holds : Holds size data strings)
    (properS : ProperString s) (fits : (joinStrings strings).length + s.length + 2 ≤ size) :
    Holds size (data.write (joinStrings strings).length (s ++ [0, 0])) (strings ++ [s]) := by
  have front : data.HasBytes 0 (joinStrings strings) := by
    have stored := holds.bytes.of_prefix joinStrings_prefix_terminated
    exact (hasBytes_append.1 stored).1
  constructor
  · intro t member
    rw [mem_append, mem_singleton] at member
    rcases member with old | new
    · exact holds.proper t old
    · rw [new]
      exact properS
  · rw [terminated_append (by simp), terminated_singleton, hasBytes_append, Nat.zero_add]
    exact ⟨front.write_apart (by omega), hasBytes_write _ _ _⟩
  · rw [terminated_append (by simp), terminated_singleton]
    simp only [length_append, length_cons, length_nil]
    omega

end Edit

end UBoot
