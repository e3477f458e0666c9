import UBoot.FwEnvWrites

/-!
# Looking a variable up in any accepted image

The entries of an accepted image need not be definitions, and a name may hold an '='.
`envmatch` asks for the part of the name before its first '=' and reads on where an
entry is equal to the name.
-/

namespace UBoot

open List Memory

variable {size env : Nat} {data : Memory} {name : CString} {strings : List CString}

/-- The position of the value in the first entry that is the name, an '=' and a value. -/
def valuePosition (name : CString) : (env : Nat) → List CString → Option Nat
  | _, [] => none
  | env, s :: strings =>
    if name ++ [EQUALS_SIGN] <+: s then some (env + name.length + 1)
    else valuePosition name (env + s.length + 1) strings

structure GetsValue (size : Nat) (data : Memory) (name : CString) : Prop where
  result : fwGetenv size data name = some (valuePosition name 0 (imageEntries size data))
  inside : ∀ data', (∀ x < size, data' x = data x) →
    fwGetenv size data' name = fwGetenv size data name

def FirstDefines (name : CString) (strings : List CString) : Prop :=
  ∀ s, strings.find? (fun s => (EQUALS_SIGN ∈ s ∧ nameKey s = nameKey name) ∨ s = name) = some s →
    EQUALS_SIGN ∉ name ∧ s ≠ name

theorem nameKey_begins {s : CString} (hasEquals : EQUALS_SIGN ∈ s) :
    nameKey s ++ [EQUALS_SIGN] <+: s := by
  induction s with
  | nil => cases hasEquals
  | cons c s ih =>
    rw [nameKey_cons]
    split
    · rename_i equals
      exact ⟨s, by rw [equals]; rfl⟩
    · rename_i other
      rw [cons_append, cons_prefix_cons]
      exact ⟨rfl, ih ((mem_cons.1 hasEquals).resolve_left (Ne.symm other))⟩

theorem nameKey_append (name rest : CString) :
    nameKey (name ++ EQUALS_SIGN :: rest) = nameKey name := by
  induction name with
  | nil => rfl
  | cons c name ih => rw [cons_append, nameKey_cons, nameKey_cons, ih]

theorem valuePosition_gt {p : Nat} (found : valuePosition name env strings = some p) :
    env + name.length < p := by
  induction strings generalizing env with
  | nil => cases found
  | cons s strings ih =>
    rw [valuePosition] at found
    split at found
    · cases found
      exact Nat.lt_succ_self _
    · have := ih found
      omega

/-- What `fw_getenv` answers after a search. -/
def foundValue : Option FwEnvSearch → Option (Option Nat)
  | none => none
  | some (.found _ _ val) => some (some val)
  | some _ => some none

theorem fwGetenv_eq (nameNul : 0 ∉ name) (holds : Holds size data strings) :
    fwGetenv size data name = foundValue (searchEntries name 0 strings) := by
  rw [fwGetenv, fwEnvSearch_eq nameNul holds.proper holds.joined.1 holds.joined.2]
  rfl

theorem foundValue_eq_iff (env : Nat) : foundValue (searchEntries name env strings) =
    some (valuePosition name env strings) ↔ FirstDefines name strings := by
  induction strings generalizing env with
  | nil => simp [FirstDefines, searchEntries, foundValue, valuePosition]
  | cons s strings ih =>
    unfold FirstDefines at ih ⊢
    by_cases keyed : EQUALS_SIGN ∈ s ∧ nameKey s = nameKey name
    · rw [searchEntries, entryMatch, if_pos keyed, find?_cons_of_pos (by simp [keyed])]
      simp only [Option.some.injEq, forall_eq', foundValue]
      by_cases hasEquals : EQUALS_SIGN ∈ name
      · refine iff_of_false (fun same => ?_) (fun defines => defines.1 hasEquals)
        have := valuePosition_gt same.symm
        have := (nameKey_begins hasEquals).length_le
        rw [length_append, length_singleton] at this
        omega
      refine iff_of_true ?_ ⟨hasEquals, fun same => hasEquals (same ▸ keyed.1)⟩
      have begins := nameKey_begins keyed.1
      rw [keyed.2, nameKey_eq hasEquals] at begins
      rw [valuePosition, if_pos begins, nameKey_eq hasEquals]
      rfl
    · by_cases same : s = name
      · rw [searchEntries, entryMatch, if_neg keyed, if_pos same,
          find?_cons_of_pos (by simp [same])]
        simp [foundValue, same]
      have later : ¬name ++ [EQUALS_SIGN] <+: s := by
        rintro ⟨rest, rfl⟩
        exact keyed (by simp [nameKey_append])
      rw [searchEntries, entryMatch, if_neg keyed, if_neg same, valuePosition, if_neg later,
        find?_cons_of_neg (by simp [keyed, same])]
      exact ih _

/-- In an accepted image the lookup of a name is right exactly if the first entry that is the
name or has its key defines it. -/
theorem fwGetenv_getsValue_iff (size : Nat) (data : Memory) (name : CString) (nameNul : 0 ∉ name)
    (accepted : (fwEnvDataEnd size data).isSome = true) :
    GetsValue size data name ↔ FirstDefines name (imageEntries size data) := by
  have holds : Holds size data _ := holds_iff.2 ⟨accepted, rfl⟩
  rw [← foundValue_eq_iff 0, ← fwGetenv_eq nameNul holds]
  refine ⟨fun gets => gets.result, fun result => ⟨result, fun data' same => ?_⟩⟩
  have bytes : data'.HasBytes 0 (terminated (imageEntries size data)) := by
    rw [HasBytes, read_congr fun i inside => same _ (by have := holds.fits; omega)]
    exact holds.bytes
  rw [fwGetenv_eq nameNul holds, fwGetenv_eq nameNul ⟨holds.proper, bytes, holds.fits⟩]

def definedArea : Memory := fun x => [0x61, EQUALS_SIGN, 0x31].getD x 0

theorem fwGetenv_getsValue_iff_sample : GetsValue 5 definedArea [0x61] := by
  refine (fwGetenv_getsValue_iff 5 definedArea [0x61] (by decide) (by decide)).2 ?_
  intro s found
  cases found
  decide

/-- A name that is an entry without an '=' is read past its end. -/
theorem fwGetenv_past_name : (fwEnvDataEnd 3 fun x => [0x61].getD x 0).isSome = true ∧
    fwGetenv 3 (fun x => [0x61].getD x 0) [0x61] = none := by
  decide

end UBoot
