import Mathlib.Data.List.TakeWhile
import UBoot.FwEnvImage

/-!
# Editing an environment

Each call of `fw_env_write` takes an image to the image of the edited list of variables
and stays inside of the data area, as long as the length of a definition that has no room
is not mistaken for a smaller one.  Runs of calls follow by induction.
-/

namespace UBoot

open List Memory

@[ext]
structure EnvVar where
  name : CString
  value : CString
  name_equals : EQUALS_SIGN ∉ name
  name_nul : 0 ∉ name
  value_nul : 0 ∉ value
  deriving DecidableEq

namespace EnvVar

def text (v : EnvVar) : CString := v.name ++ EQUALS_SIGN :: v.value

theorem length_text (v : EnvVar) : v.text.length = v.name.length + v.value.length + 1 := by
  rw [text, length_append, length_cons]
  omega

theorem proper_text (v : EnvVar) : ProperString v.text := by
  constructor
  · simp [text]
  rw [text, mem_append, mem_cons]
  rintro (inName | isEquals | inValue)
  · exact v.name_nul inName
  · cases isEquals
  · exact v.value_nul inValue

end EnvVar

structure Image (size : Nat) (data : Memory) (vars : List EnvVar) : Prop where
  accepted : (fwEnvDataEnd size data).isSome = true
  entries : imageEntries size data = vars.map EnvVar.text
  nodup : (vars.map EnvVar.name).Nodup

theorem image_iff {size : Nat} {data : Memory} {vars : List EnvVar} : Image size data vars ↔
      Holds size data (vars.map EnvVar.text) ∧ (vars.map EnvVar.name).Nodup := by
  rw [holds_iff]
  constructor
  · rintro ⟨accepted, entries, nodup⟩
    exact ⟨⟨accepted, entries⟩, nodup⟩
  · rintro ⟨⟨accepted, entries⟩, nodup⟩
    exact ⟨accepted, entries, nodup⟩

variable {size : Nat} {data : Memory}

/-! ## Looking for a variable -/

def nameKey (name : CString) : CString := name.takeWhile (· ≠ EQUALS_SIGN)

theorem nameKey_cons (c : UInt8) (name : CString) :
    nameKey (c :: name) = if c = EQUALS_SIGN then [] else c :: nameKey name := by
  simp [nameKey, takeWhile_cons]

theorem nameKey_eq {name : CString} (nameEquals : EQUALS_SIGN ∉ name) : nameKey name = name :=
  takeWhile_eq_self_iff.2 fun _ inName => decide_eq_true (ne_of_mem_of_not_mem inName nameEquals)

theorem EnvVar.nameKey_text (v : EnvVar) : nameKey v.text = v.name := by
  rw [nameKey, text, takeWhile_append, ← nameKey, nameKey_eq v.name_equals]
  simp

/-- What `envmatch` finds in an entry.  Where the entry is the name, it runs past the ends of
both. -/
def entryMatch (name s : CString) : Option (Option Nat) :=
  if EQUALS_SIGN ∈ s ∧ nameKey s = nameKey name then some (some ((nameKey name).length + 1))
  else if s = name then none
  else some none

theorem envmatch_entry {name s : CString} {env : Nat} {rest : List UInt8} (nameNul : 0 ∉ name)
    (nulFree : 0 ∉ s) (bytes : data.HasBytes env (s ++ 0 :: rest)) :
    envmatch data name env = (entryMatch name s).map (Option.map (env + ·)) := by
  induction name generalizing s env with
  | nil =>
    cases s with
    | nil =>
      rw [nil_append, hasBytes_cons] at bytes
      rw [envmatch, if_pos bytes.1]
      rfl
    | cons x s =>
      rw [cons_append, hasBytes_cons] at bytes
      rw [mem_cons, not_or] at nulFree
      rw [envmatch, bytes.1, if_neg (Ne.symm nulFree.1)]
      by_cases equals : x = EQUALS_SIGN
      · simp [entryMatch, nameKey, equals]
      · simp [entryMatch, nameKey, equals, Ne.symm equals]
  | cons c name ih =>
    rw [mem_cons, not_or] at nameNul
    cases s with
    | nil =>
      rw [nil_append, hasBytes_cons] at bytes
      rw [envmatch, bytes.1, if_neg (Ne.symm nameNul.1)]
      simp [entryMatch]
    | cons x s =>
      rw [cons_append, hasBytes_cons] at bytes
      rw [mem_cons, not_or] at nulFree
      rw [envmatch, bytes.1, ih nameNul.2 nulFree.2 bytes.2]
      unfold entryMatch
      by_cases same : c = x
      · subst same
        by_cases equals : c = EQUALS_SIGN
        · simp [equals, nameKey]
        rw [if_pos rfl, if_neg equals, nameKey_cons, if_neg equals, nameKey_cons, if_neg equals]
        simp only [mem_cons, Ne.symm equals, false_or, cons.injEq, true_and, length_cons]
        split_ifs
        · exact congrArg (some ∘ some) (Nat.add_right_comm _ _ _)
        · rfl
        · rfl
      · rw [if_neg same, if_neg, if_neg (by simp [Ne.symm same])]
        · rfl
        · rw [nameKey_cons, nameKey_cons]
          split_ifs <;> simp_all [Ne.symm same]

theorem strcmpEq_eq (s value : CString) (env : Nat) (rest : List UInt8) (sNul : 0 ∉ s)
    (valueNul : 0 ∉ value) (bytes : data.HasBytes env (value ++ 0 :: rest)) :
    strcmpEq data s env = decide (s = value) := by
  induction s generalizing value env rest with
  | nil =>
    cases value with
    | nil =>
      rw [nil_append, hasBytes_cons] at bytes
      simp [strcmpEq, bytes.1]
    | cons x value =>
      rw [cons_append, hasBytes_cons] at bytes
      rw [mem_cons, not_or] at valueNul
      simp [strcmpEq, bytes.1, Ne.symm valueNul.1]
  | cons c s ih =>
    rw [mem_cons, not_or] at sNul
    cases value with
    | nil =>
      rw [nil_append, hasBytes_cons] at bytes
      simp [strcmpEq, bytes.1, sNul.1]
    | cons x value =>
      rw [cons_append, hasBytes_cons] at bytes
      rw [mem_cons, not_or] at valueNul
      rw [strcmpEq, bytes.1, ih value (env + 1) rest sNul.2 valueNul.2 bytes.2]
      by_cases same : x = c
      · simp [same]
      · simp [same, Ne.symm same]

def searchEntries (name : CString) : (env : Nat) → List CString → Option FwEnvSearch
  | _, [] => some .missing
  | env, s :: strings =>
    match entryMatch name s with
    | none => none
    | some (some val) => some (.found env (env + s.length) (env + val))
    | some none => searchEntries name (env + s.length + 1) strings

theorem fwEnvSearchLoop_eq {name : CString} (nameNul : 0 ∉ name) {strings : List CString}
    {env rounds : Nat} (proper : ∀ s ∈ strings, ProperString s)
    (bytes : data.HasBytes env (joinStrings strings ++ [0]))
    (fits : env + (joinStrings strings).length < size) (enough : strings.length < rounds) :
    fwEnvSearchLoop size data name rounds env = searchEntries name env strings := by
  induction strings generalizing env rounds with
  | nil =>
    obtain _ | rounds := rounds
    · omega
    rw [joinStrings, flatMap_nil, nil_append, hasBytes_cons] at bytes
    rw [fwEnvSearchLoop, if_neg (fun going => going.2 bytes.1), if_neg (by omega)]
    rfl
  | cons s strings ih =>
    obtain _ | rounds := rounds
    · omega
    rw [forall_mem_cons] at proper
    rw [joinStrings_cons, append_assoc, cons_append] at bytes
    rw [joinStrings_cons, length_append, length_cons] at fits
    have going : env < size ∧ data env ≠ 0 := ⟨by omega, head_string proper.1 bytes⟩
    rw [fwEnvSearchLoop, if_pos going, fwEnvEntryEnd_string proper.1.2 bytes (by omega),
      envmatch_entry nameNul proper.1.2 bytes, searchEntries]
    rw [hasBytes_append, hasBytes_cons] at bytes
    rcases entryMatch name s with - | - | val
    · rfl
    · exact ih proper.2 bytes.2.2 (by omega) (by rw [length_cons] at enough; omega)
    · rfl

theorem fwEnvSearch_eq {name : CString} (nameNul : 0 ∉ name) {strings : List CString}
    (proper : ∀ s ∈ strings, ProperString s) (bytes : data.HasBytes 0 (joinStrings strings ++ [0]))
    (fits : (joinStrings strings).length < size) :
    fwEnvSearch size data name = searchEntries name 0 strings := by
  have count : strings.length ≤ (joinStrings strings).length := length_le_length_joinStrings
  exact fwEnvSearchLoop_eq nameNul proper bytes (by omega) (by omega)

/-! ### Entries that are definitions -/

theorem proper_texts (vars : List EnvVar) : ∀ s ∈ vars.map EnvVar.text, ProperString s :=
  forall_mem_map.2 fun v _ => v.proper_text

theorem entryMatch_text {name : CString} (nameEquals : EQUALS_SIGN ∉ name) (v : EnvVar) :
    entryMatch name v.text = some (if v.name = name then some (name.length + 1) else none) := by
  have notName : v.text ≠ name := by
    rintro rfl
    exact nameEquals (by simp [EnvVar.text])
  simp only [entryMatch, nameKey_eq nameEquals, v.nameKey_text, notName, if_false]
  split <;> simp_all [EnvVar.text]

theorem searchEntries_skip {name : CString} (nameEquals : EQUALS_SIGN ∉ name)
    {before : List EnvVar} (others : ∀ u ∈ before, u.name ≠ name) (strings : List CString)
    (env : Nat) : searchEntries name env (before.map EnvVar.text ++ strings) =
      searchEntries name (env + (joinStrings (before.map EnvVar.text)).length) strings := by
  induction before generalizing env with
  | nil => rfl
  | cons u before ih =>
    rw [forall_mem_cons] at others
    rw [map_cons, cons_append, searchEntries, entryMatch_text nameEquals, if_neg others.1]
    dsimp only
    rw [ih others.2, joinStrings_cons, length_append, length_cons]
    congr 1
    omega

theorem fwEnvSearch_found {before behind : List EnvVar} {v : EnvVar}
    (first : ∀ u ∈ before, u.name ≠ v.name)
    (bytes : data.HasBytes 0 (joinStrings ((before ++ v :: behind).map EnvVar.text) ++ [0]))
    (fits : (joinStrings ((before ++ v :: behind).map EnvVar.text)).length < size) :
    fwEnvSearch size data v.name = some (.found (joinStrings (before.map EnvVar.text)).length
        ((joinStrings (before.map EnvVar.text)).length + v.text.length)
        ((joinStrings (before.map EnvVar.text)).length + v.name.length + 1)) := by
  rw [fwEnvSearch_eq v.name_nul (proper_texts _) bytes fits, map_append,
    searchEntries_skip v.name_equals first, map_cons, searchEntries,
    entryMatch_text v.name_equals, if_pos rfl, Nat.zero_add]
  rfl

theorem fwEnvSearch_missing {vars : List EnvVar} {name : CString} (nameEquals : EQUALS_SIGN ∉ name)
    (nameNul : 0 ∉ name) (absent : ∀ u ∈ vars, u.name ≠ name)
    (bytes : data.HasBytes 0 (joinStrings (vars.map EnvVar.text) ++ [0]))
    (fits : (joinStrings (vars.map EnvVar.text)).length < size) :
    fwEnvSearch size data name = some .missing := by
  rw [fwEnvSearch_eq nameNul (proper_texts _) bytes fits, ← append_nil (vars.map _),
    searchEntries_skip nameEquals absent]
  rfl

variable {vars before behind : List EnvVar} {v : EnvVar}

section Search

variable {name : CString}

theorem Holds.joined {strings : List CString} (holds : Holds size data strings) :
    data.HasBytes 0 (joinStrings strings ++ [0]) ∧ (joinStrings strings).length < size := by
  have length : (joinStrings strings ++ [0]).length ≤ (terminated strings).length :=
    joinStrings_prefix_terminated.length_le
  have fits := holds.fits
  rw [length_append, length_singleton] at length
  exact ⟨holds.bytes.of_prefix joinStrings_prefix_terminated, by omega⟩

theorem Holds.strcmp_value (holds : Holds size data ((before ++ v :: behind).map EnvVar.text))
    {value : CString} (nulFree : 0 ∉ value) :
    strcmpEq data value ((joinStrings (before.map EnvVar.text)).length + v.name.length + 1) =
      decide (value = v.value) := by
  have bytes := holds.joined.1
  rw [map_append, map_cons, joinStrings_append, joinStrings_cons, append_assoc,
    append_assoc, hasBytes_append, Nat.zero_add, EnvVar.text, append_assoc,
    hasBytes_append, cons_append, hasBytes_cons, cons_append] at bytes
  exact strcmpEq_eq value v.value _ _ nulFree v.value_nul bytes.2.2.2

end Search

/-! ## One call -/

def otherVars (vars : List EnvVar) (name : CString) : List EnvVar :=
  vars.filter fun u => u.name ≠ name

def roomFor (size : Nat) (vars : List EnvVar) (name : CString) : Nat :=
  size - (joinStrings ((otherVars vars name).map EnvVar.text)).length

/-- What a call is to return and to leave: the variable set or, for an empty value, removed; a
definition that has no room is only removed. -/
def setVar (size : Nat) (vars : List EnvVar) (v : EnvVar) : Int × List EnvVar :=
  if v.value = [] then (0, otherVars vars v.name)
  else if v ∈ vars then (0, vars)
  else if v.text.length + 2 ≤ roomFor size vars v.name then (0, otherVars vars v.name ++ [v])
  else (-1, otherVars vars v.name)

/-- The length of a definition that has no room is too large as an `int` as well. -/
def LengthKept (size : Nat) (vars : List EnvVar) (v : EnvVar) : Prop :=
  v.value = [] ∨ v ∈ vars ∨ v.text.length + 2 ≤ roomFor size vars v.name ∨
    (roomFor size vars v.name : Int) < int32 (v.text.length + 2)

/-- A call keeps inside of the area, returns what it is to return and leaves the edited
variables. -/
def Edits (size : Nat) (access : FwEnvAccess) (e : FwEnvironment) (vars : List EnvVar)
    (v : EnvVar) (e' : FwEnvironment) : Prop :=
  fwEnvWrite size access e v.name v.value = some ((setVar size vars v).1, e') ∧
    Image size e'.data (setVar size vars v).2

structure FwEnvAccess.Free (access : FwEnvAccess) : Prop where
  delete : ∀ data name, access.preventDelete data name = false
  overwr : ∀ data name, access.preventOverwr data name = false
  nondefOverwr : ∀ data name, access.preventNondefOverwr data name = false
  create : ∀ data name, access.preventCreate data name = false

section Step

variable {e : FwEnvironment} {access : FwEnvAccess}

theorem nodup_otherVars (nodup : (vars.map EnvVar.name).Nodup) (name : CString) :
    ((otherVars vars name).map EnvVar.name).Nodup :=
  nodup.sublist ((filter_sublist).map _)

theorem otherVars_of_absent (absent : ∀ u ∈ vars, u.name ≠ v.name) : otherVars vars v.name = vars :=
  filter_eq_self.2 fun u member => decide_eq_true (absent u member)

theorem otherVars_split {old : EnvVar} (nodup : ((before ++ old :: behind).map EnvVar.name).Nodup) :
    otherVars (before ++ old :: behind) old.name = before ++ behind ∧
      ∀ u ∈ before, u.name ≠ old.name := by
  rw [map_append, map_cons, nodup_append] at nodup
  obtain ⟨_, behindNodup, apart⟩ := nodup
  rw [nodup_cons] at behindNodup
  have inBefore : ∀ u ∈ before, u.name ≠ old.name := by
    intro u member
    exact apart _ (mem_map_of_mem member) _ mem_cons_self
  have inBehind : ∀ u ∈ behind, u.name ≠ old.name := by
    intro u member same
    exact behindNodup.1 (same ▸ mem_map_of_mem member)
  refine ⟨?_, inBefore⟩
  rw [otherVars, filter_append, filter_cons_of_neg (by simp),
    filter_eq_self.2 fun u member => decide_eq_true (inBefore u member),
    filter_eq_self.2 fun u member => decide_eq_true (inBehind u member)]

theorem int32_length (v : EnvVar) :
    int32 (int32 (v.name.length + 2) + (v.value.length + 1)) = int32 (v.text.length + 2) := by
  have sum : ((v.name.length : Int) + 2) + (v.value.length + 1) = (v.text.length : Int) + 2 := by
    rw [v.length_text]
    push_cast
    ring
  rw [int32, int32, int32, Int.bmod_add_bmod, sum]

theorem int32_le {x : Int} (nonneg : 0 ≤ x) : int32 x ≤ x := by
  unfold int32
  rw [Int.bmod_def]
  split <;> omega

theorem image_append (nodup : (vars.map EnvVar.name).Nodup) (absent : ∀ u ∈ vars, u.name ≠ v.name) :
    ((vars ++ [v]).map EnvVar.name).Nodup := by
  rw [map_append, nodup_append]
  refine ⟨nodup, by simp, ?_⟩
  intro name member name' member'
  obtain ⟨u, inVars, rfl⟩ := mem_map.1 member
  rw [map_singleton, mem_singleton] at member'
  rw [member']
  exact absent u inVars

theorem appendEntry_eq (holds : Holds size e.data (vars.map EnvVar.text)) (v : EnvVar) :
    appendEntry size e v.name v.value =
      if ((size - (joinStrings (vars.map EnvVar.text)).length : Nat) : Int) <
          int32 (v.text.length + 2) then some (-1, e)
      else if size < (joinStrings (vars.map EnvVar.text)).length + (v.text.length + 2) then none
      else some (0, ⟨e.data.write (joinStrings (vars.map EnvVar.text)).length (v.text ++ [0, 0]),
        e.dirty⟩) := by
  obtain ⟨last, accepted, position⟩ := holds.appendPosition
  have bytes : v.name ++ EQUALS_SIGN :: (v.value ++ [0, 0]) = v.text ++ [0, 0] := by
    rw [EnvVar.text, append_assoc, cons_append]
  have lengths : (v.text ++ [(0 : UInt8), 0]).length = v.text.length + 2 := by
    rw [length_append]
    rfl
  rw [appendEntry, accepted]
  dsimp only
  rw [position, bytes, lengths, int32_length]

/-- Appending a definition to an image without the variable: it is appended, refused for lack of
room, or written past the end of the area. -/
theorem appendEntry_cases (holds : Holds size e.data (vars.map EnvVar.text))
    (nodup : (vars.map EnvVar.name).Nodup) (absent : ∀ u ∈ vars, u.name ≠ v.name) :
    let room := size - (joinStrings (vars.map EnvVar.text)).length
    (v.text.length + 2 ≤ room →
      ∃ e', appendEntry size e v.name v.value = some (0, e') ∧ Image size e'.data (vars ++ [v])) ∧
    (¬v.text.length + 2 ≤ room → (room : Int) < int32 (v.text.length + 2) →
      appendEntry size e v.name v.value = some (-1, e) ∧ Image size e.data vars) ∧
    (¬v.text.length + 2 ≤ room → ¬(room : Int) < int32 (v.text.length + 2) →
      appendEntry size e v.name v.value = none) := by
  intro room
  have used := holds.joined.2
  have smaller : int32 (v.text.length + 2) ≤ v.text.length + 2 := int32_le (by omega)
  rw [appendEntry_eq holds]
  refine ⟨?_, ?_, ?_⟩
  · intro fits
    have appended := holds.append v.proper_text (by omega)
    rw [show vars.map EnvVar.text ++ [v.text] = (vars ++ [v]).map EnvVar.text by simp] at appended
    rw [if_neg (by omega), if_neg (by omega)]
    exact ⟨_, rfl, image_iff.2 ⟨appended, image_append nodup absent⟩⟩
  · intro _ exceeds
    rw [if_pos exceeds]
    exact ⟨rfl, image_iff.2 ⟨holds, nodup⟩⟩
  · intro full lost
    rw [if_neg lost, if_pos (by omega)]

theorem appendEntry_edits (nonempty : v.value ≠ []) (new : v ∉ vars)
    (holds : Holds size e.data ((otherVars vars v.name).map EnvVar.text))
    (nodup : (vars.map EnvVar.name).Nodup) :
    (LengthKept size vars v →
      ∃ e', appendEntry size e v.name v.value = some ((setVar size vars v).1, e') ∧
        Image size e'.data (setVar size vars v).2) ∧
    (¬LengthKept size vars v → appendEntry size e v.name v.value = none) := by
  have absent : ∀ u ∈ otherVars vars v.name, u.name ≠ v.name := by
    intro u member
    exact of_decide_eq_true (mem_filter.1 member).2
  obtain ⟨appended, refused, outside⟩ := appendEntry_cases holds (nodup_otherVars nodup _) absent
  rw [LengthKept, or_iff_right nonempty, or_iff_right new, setVar, if_neg nonempty, if_neg new]
  by_cases fits : v.text.length + 2 ≤ roomFor size vars v.name
  · rw [if_pos fits]
    exact ⟨fun _ => appended fits, fun lost => absurd (.inl fits) lost⟩
  · rw [if_neg fits, or_iff_right fits]
    exact ⟨fun exceeds => ⟨e, refused fits exceeds⟩, outside fits⟩

variable (free : access.Free) (image : Image size e.data vars)

include free image

/-- A call edits the variables as it should if the length of the definition is kept, and leaves
the area otherwise. -/
theorem fwEnvWrite_edits (v : EnvVar) :
    (LengthKept size vars v → ∃ e', Edits size access e vars v e') ∧
    (¬LengthKept size vars v → fwEnvWrite size access e v.name v.value = none) := by
  obtain ⟨holds, nodup⟩ := image_iff.1 image
  unfold Edits
  by_cases known : ∃ old ∈ vars, old.name = v.name
  · obtain ⟨old, member, sameName⟩ := known
    obtain ⟨before, behind, rfl⟩ := append_of_mem member
    obtain ⟨others, first⟩ := otherVars_split nodup
    have search := fwEnvSearch_found first holds.joined.1 holds.joined.2
    have compare := holds.strcmp_value v.value_nul
    rw [map_append, map_cons] at holds
    obtain ⟨data', removed, rest⟩ := holds.removeEntry
    rw [← map_append, ← others, sameName] at rest
    rw [fwEnvWrite, ← sameName, search]
    dsimp only
    by_cases empty : v.value = []
    · rw [if_pos empty, free.delete, if_neg (by simp), removed, setVar, if_pos empty]
      exact ⟨fun _ => ⟨_, rfl, image_iff.2 ⟨rest, nodup_otherVars nodup _⟩⟩,
        fun lost => absurd (.inl empty) lost⟩
    rw [if_neg empty, compare]
    by_cases same : v.value = old.value
    · have isOld : v = old := EnvVar.ext sameName.symm same
      have present : v ∈ before ++ old :: behind := isOld ▸ member
      rw [if_pos (decide_eq_true same), setVar, if_neg empty, if_pos present]
      exact ⟨fun _ => ⟨e, rfl, image⟩, fun lost => absurd (.inr (.inl present)) lost⟩
    have new : v ∉ before ++ old :: behind := by
      intro present
      have unique := inj_on_of_nodup_map nodup present member sameName.symm
      exact same (congrArg EnvVar.value unique)
    rw [if_neg (by simp [same]), free.overwr, if_neg (by simp), free.nondefOverwr,
      if_neg (by simp), removed, sameName]
    exact appendEntry_edits empty new rest nodup
  · have absent : ∀ u ∈ vars, u.name ≠ v.name := by
      intro u member same
      exact known ⟨u, member, same⟩
    rw [fwEnvWrite, fwEnvSearch_missing v.name_equals v.name_nul absent holds.joined.1
      holds.joined.2]
    have others := otherVars_of_absent absent
    by_cases empty : v.value = []
    · rw [if_pos empty, setVar, if_pos empty, others]
      exact ⟨fun _ => ⟨e, rfl, image⟩, fun lost => absurd (.inl empty) lost⟩
    have new : v ∉ vars := fun present => absent v present rfl
    rw [if_neg empty, free.create, if_neg (by simp)]
    apply appendEntry_edits empty new _ nodup
    rw [others]
    exact holds

theorem edits_iff (v : EnvVar) :
    (∃ e', Edits size access e vars v e') ↔ LengthKept size vars v := by
  obtain ⟨kept, lost⟩ := fwEnvWrite_edits free image v
  refine ⟨?_, kept⟩
  rintro ⟨e', returned, _⟩
  by_contra notKept
  rw [lost notKept] at returned
  cases returned

theorem edits_of_returned {ret : Int} {e' : FwEnvironment}
    (returned : fwEnvWrite size access e v.name v.value = some (ret, e')) :
    ret = (setVar size vars v).1 ∧ Image size e'.data (setVar size vars v).2 := by
  obtain ⟨kept, lost⟩ := fwEnvWrite_edits free image v
  by_cases lengthKept : LengthKept size vars v
  · obtain ⟨e'', result, after⟩ := kept lengthKept
    rw [result, Option.some.injEq, Prod.mk.injEq] at returned
    obtain ⟨rfl, rfl⟩ := returned
    exact ⟨rfl, after⟩
  · rw [lost lengthKept] at returned
    cases returned

end Step

/-! ## Runs of calls -/

def RunEdits (size : Nat) (access : FwEnvAccess) : FwEnvironment → List EnvVar → List EnvVar → Prop
  | _, _, [] => True
  | e, vars, v :: calls =>
    ∃ e', Edits size access e vars v e' ∧ RunEdits size access e' (setVar size vars v).2 calls

def RunLengthKept (size : Nat) : List EnvVar → List EnvVar → Prop
  | _, [] => True
  | vars, v :: calls => LengthKept size vars v ∧ RunLengthKept size (setVar size vars v).2 calls

/-- From every accepted image, a run of calls edits the list of variables call by call, without
an access outside of the data area, just when no length is lost. -/
theorem fwEnvWrite_runs_iff {access : FwEnvAccess} (free : access.Free) (calls : List EnvVar) :
    ∀ (e : FwEnvironment) (vars : List EnvVar), Image size e.data vars →
      (RunEdits size access e vars calls ↔ RunLengthKept size vars calls) := by
  induction calls with
  | nil =>
    intro e vars _
    exact Iff.rfl
  | cons v calls ih =>
    intro e vars image
    constructor
    · rintro ⟨e', edits, rest⟩
      exact ⟨(edits_iff free image v).1 ⟨e', edits⟩, (ih e' _ edits.2).1 rest⟩
    · rintro ⟨kept, rest⟩
      obtain ⟨e', edits⟩ := (edits_iff free image v).2 kept
      exact ⟨e', edits, (ih e' _ edits.2).2 rest⟩

def freeAccess : FwEnvAccess where
  preventDelete := fun _ _ => false
  preventOverwr := fun _ _ => false
  preventNondefOverwr := fun _ _ => false
  preventCreate := fun _ _ => false
  fwGetdefenv := fun _ => none

theorem freeAccess_free : freeAccess.Free :=
  ⟨fun _ _ => rfl, fun _ _ => rfl, fun _ _ => rfl, fun _ _ => rfl⟩

theorem image_zeros : Image 13 (fun _ => 0) [] := ⟨rfl, rfl, nodup_nil⟩

def sampleVar (name value : UInt8) (proper : EQUALS_SIGN ≠ name ∧ 0 ≠ name ∧ 0 ≠ value) :
    EnvVar where
  name := [name]
  value := [value]
  name_equals := mt mem_singleton.1 proper.1
  name_nul := mt mem_singleton.1 proper.2.1
  value_nul := mt mem_singleton.1 proper.2.2

/-- Two definitions, one of them changed, one that just fits and one that does not. -/
def sampleCalls : List EnvVar :=
  [sampleVar 97 49 (by decide), sampleVar 98 50 (by decide), sampleVar 97 51 (by decide),
    sampleVar 99 52 (by decide), sampleVar 100 53 (by decide)]

theorem fwEnvWrite_runs_iff_sample : RunEdits 13 freeAccess ⟨fun _ => 0, false⟩ [] sampleCalls := by
  have kept : RunLengthKept 13 [] sampleCalls := by
    refine ⟨.inr (.inr (.inl ?_)), .inr (.inr (.inl ?_)), .inr (.inr (.inl ?_)),
      .inr (.inr (.inl ?_)), .inr (.inr (.inr ?_)), trivial⟩
    all_goals decide
  exact (fwEnvWrite_runs_iff freeAccess_free _ ⟨fun _ => 0, false⟩ [] image_zeros).2 kept

theorem exists_envVar (length : Nat) :
    ∃ v : EnvVar, v.value.length = length ∧ v.text.length = length + 2 := by
  have nulFree : (0 : UInt8) ∉ replicate length 120 := by
    intro member
    cases eq_of_mem_replicate member
  refine ⟨⟨[97], replicate length 120, by decide, by decide, nulFree⟩, length_replicate, ?_⟩
  rw [EnvVar.length_text, length_replicate, length_singleton]
  omega

/-- A definition of 2 GiB is written past the end of a small area. -/
theorem fwEnvWrite_outside : ∃ v : EnvVar, Image 13 (fun _ => 0) [] ∧
      fwEnvWrite 13 freeAccess ⟨fun _ => 0, false⟩ v.name v.value = none := by
  obtain ⟨v, valueLength, length⟩ := exists_envVar (2 ^ 31 - 4)
  have room : roomFor 13 [] v.name = 13 := rfl
  refine ⟨v, image_zeros, (fwEnvWrite_edits freeAccess_free image_zeros v).2 ?_⟩
  have asInt : int32 (v.text.length + 2) = -2 ^ 31 := by
    have cast : (v.text.length : Int) + 2 = 2 ^ 31 := by
      rw [length]
      norm_num
    rw [cast]
    decide
  rintro (empty | member | fits | exceeds)
  · rw [empty, length_nil] at valueLength
    omega
  · cases member
  · omega
  · omega

end UBoot
