import UBoot.HashTableMap

/-!
# Enumerating the environment hash table

`hmatch_r` walks over the slots of the table and stops at entries whose key begins
with a given string.  Its loop ends before the last slot, which the probe sequence
of `hsearch_r` does use.
-/

namespace UBoot

open List

variable (htab : HsearchData)

/-- The test of `hmatch_r`: the slot is in use, and its key begins with the string. -/
def HsearchData.matching (start : CString) (idx : Nat) : Bool :=
  0 < (htab.node idx).used && (htab.node idx).entry.key.any start.isPrefixOf

/-- The loop of `hmatch_r` over the slots that are left. -/
def hmatchLoop (htab : HsearchData) (start : CString) : (left idx : Nat) → HsearchResult
  | 0, _ => .fail .ESRCH
  | left + 1, idx =>
    if htab.matching start idx then ⟨idx, some idx, none⟩
    else hmatchLoop htab start left (idx + 1)

def hmatchR (start : CString) (lastIdx : Nat) : HsearchResult :=
  hmatchLoop htab start (htab.size - (lastIdx + 1)) (lastIdx + 1)

/-- The slots that `hmatch_r` returns until it returns zero, as in the loop of `env_complete`. -/
def hmatchAll (htab : HsearchData) (start : CString) : (rounds lastIdx : Nat) → Option (List Nat)
  | 0, _ => none
  | rounds + 1, lastIdx =>
    let idx := (hmatchR htab start lastIdx).ret
    if idx = 0 then some []
    else (hmatchAll htab start rounds idx).map (idx :: ·)

theorem hmatchLoop_spec (start : CString) (left idx : Nat) :
    (hmatchLoop htab start left idx).ret = 0 ∧ (range' idx left).filter (htab.matching start) = [] ∨
      ∃ count < left, (hmatchLoop htab start left idx).ret = idx + count ∧
        (range' idx left).filter (htab.matching start) = (idx + count) ::
          (range' (idx + count + 1) (left - (count + 1))).filter (htab.matching start) := by
  induction left generalizing idx with
  | zero => exact .inl ⟨rfl, rfl⟩
  | succ left ih =>
    unfold hmatchLoop
    rw [range'_succ, filter_cons]
    by_cases here : htab.matching start idx = true
    · rw [if_pos here, if_pos here]
      exact .inr ⟨0, left.succ_pos, rfl, rfl⟩
    rw [if_neg here, if_neg here]
    obtain ended | ⟨count, less, result, rest⟩ := ih (idx + 1)
    · exact .inl ended
    · rw [show idx + 1 + count = idx + (count + 1) by omega] at result rest
      exact .inr ⟨count + 1, by omega, result, rest.trans (by rw [Nat.add_sub_add_right])⟩

theorem hmatchAll_eq {htab : HsearchData} {start : CString} (rounds lastIdx : Nat)
    (inside : lastIdx ≤ htab.size) (enough : htab.size < lastIdx + rounds) :
    hmatchAll htab start rounds lastIdx = some
      ((range' (lastIdx + 1) (htab.size - (lastIdx + 1))).filter (htab.matching start)) := by
  induction rounds generalizing lastIdx with
  | zero => omega
  | succ rounds ih =>
    unfold hmatchAll hmatchR
    obtain ⟨ended, none⟩ | ⟨count, less, result, rest⟩ :=
      hmatchLoop_spec htab start (htab.size - (lastIdx + 1)) (lastIdx + 1)
    · simp [ended, none]
    · simp only [result]
      rw [if_neg (by omega), ih _ (by omega) (by omega), rest, Nat.sub_sub]
      rfl

/-- The calls of `hmatch_r` come to an end.  They return every slot in use whose key
begins with the string once and no other, exactly if the last slot is not such a one. -/
theorem hmatchAll_exact_iff (start : CString) :
    ∃ visited, (∀ rounds, htab.size < rounds → hmatchAll htab start rounds 0 = some visited) ∧
      ((visited.Nodup ∧ ∀ idx, idx ∈ visited ↔
          1 ≤ idx ∧ idx ≤ htab.size ∧ htab.matching start idx = true) ↔
        ¬ (1 ≤ htab.size ∧ htab.matching start htab.size = true)) := by
  refine ⟨_, fun rounds enough => hmatchAll_eq rounds 0 (Nat.zero_le _) (by omega), ?_⟩
  simp only [mem_filter, mem_range'_1]
  constructor
  · rintro ⟨-, exact⟩ ⟨pos, last⟩
    have visited := (exact htab.size).2 ⟨pos, Nat.le_refl _, last⟩
    omega
  intro unmatched
  refine ⟨Nodup.filter _ nodup_range', fun idx => ⟨?_, ?_⟩⟩
  · rintro ⟨⟨low, high⟩, here⟩
    exact ⟨low, by omega, here⟩
  rintro ⟨low, high, here⟩
  have notLast : idx ≠ htab.size := by
    rintro rfl
    exact unmatched ⟨low, here⟩
  exact ⟨by omega, here⟩

/-- In a table of five slots the variables `d`, `i`, `n` and `s` begin with the same slot, and
`s` ends up in the last one: it can be looked up, but it is never returned. -/
theorem hmatchAll_last_slot : (do
    let htab ← hcreateR 2
    let (_, htab) ← hsearchR .permissive htab [100] (some [49]) .enter 0
    let (_, htab) ← hsearchR .permissive htab [105] (some [49]) .enter 0
    let (_, htab) ← hsearchR .permissive htab [110] (some [49]) .enter 0
    let (_, htab) ← hsearchR .permissive htab [115] (some [49]) .enter 0
    let (found, htab) ← hsearchR .permissive htab [115] none .find 0
    return (htab.size, found.ret, ← hmatchAll htab [115] 6 0)) = some (5, 5, []) := by
  decide

end UBoot
