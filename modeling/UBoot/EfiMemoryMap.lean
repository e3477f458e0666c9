import Mathlib.Data.BitVec

/-!
# The EFI memory map

`lib/efi_loader/efi_memory.c` keeps the memory map as a linked list of
descriptors, highest address first.  An update carves the pages of a request
out of the list, restarting the walk after every change, adds a descriptor for
the request and sorts and merges the result.  Whether a call of `calloc`
succeeds is decided by a parameter that numbers the calls of one update.
-/

namespace UBoot

open List Nat

/-- `EFI_RUNTIME_SERVICES_CODE` of `enum efi_memory_type`. -/
def EFI_RUNTIME_SERVICES_CODE : Int := 5
def EFI_RUNTIME_SERVICES_DATA : Int := 6
def EFI_BOOT_SERVICES_DATA : Int := 4
def EFI_CONVENTIONAL_MEMORY : Int := 7
def EFI_MMAP_IO : Int := 11
def EFI_MAX_MEMORY_TYPE : Int := 16

def EFI_MEMORY_WB : BitVec 64 := 0x8
def EFI_MEMORY_RUNTIME : BitVec 64 := 0x8000000000000000

def EFI_PAGE_SHIFT : Nat := 12
def EFI_PAGE_MASK : BitVec 64 := 0xfff

/-- The fields of `struct efi_mem_desc` that the memory map uses. -/
structure EfiMemDesc where
  type : BitVec 32
  physicalStart : BitVec 64
  virtualStart : BitVec 64
  numPages : BitVec 64
  attrib : BitVec 64
  deriving DecidableEq, Repr

inductive EfiStatus
  | success
  | invalidParameter
  | outOfResources
  | noMapping
  deriving DecidableEq, Repr

/-- The return value of `efi_mem_carve_out`: one of the `EFI_CARVE_` codes or
the number of pages carved out. -/
inductive EfiCarve
  | noOverlap
  | loopAgain
  | overlapsNonram
  | outOfResources
  | carved (pages : BitVec 64)
  deriving DecidableEq, Repr

def descGetEnd (desc : EfiMemDesc) : BitVec 64 :=
  desc.physicalStart + desc.numPages <<< EFI_PAGE_SHIFT

/-- `efi_mem_carve_out` with the entries that afterwards stand in the place of
`map`. -/
def efiMemCarveOut (callocOk : Bool) (map carveDesc : EfiMemDesc)
    (overlapConventional : Bool) : EfiCarve × List EfiMemDesc :=
  let mapStart := map.physicalStart
  let mapEnd := descGetEnd map
  let carveStart := carveDesc.physicalStart
  let carveEnd := descGetEnd carveDesc
  if carveEnd ≤ mapStart ∨ mapEnd ≤ carveStart then (.noOverlap, [map])
  else if overlapConventional ∧ map.type ≠ BitVec.ofInt 32 EFI_CONVENTIONAL_MEMORY then
    (.overlapsNonram, [map])
  else
    let carveStart := if mapStart < carveStart then carveStart else mapStart
    let carveEnd := if carveEnd < mapEnd then carveEnd else mapEnd
    if carveStart = mapStart then
      (.carved ((carveEnd - carveStart) >>> EFI_PAGE_SHIFT),
        if mapEnd = carveEnd then []
        else [{ map with
          physicalStart := carveEnd
          virtualStart := carveEnd
          numPages := (mapEnd - carveEnd) >>> EFI_PAGE_SHIFT }])
    else if callocOk then
      (.loopAgain, [{ map with
          physicalStart := carveStart
          virtualStart := carveStart
          numPages := (mapEnd - carveStart) >>> EFI_PAGE_SHIFT },
         { map with numPages := (carveStart - mapStart) >>> EFI_PAGE_SHIFT }])
    else (.outOfResources, [map])

/-- One walk of `efi_update_memory_map` over the list, up to the first entry
that overlaps. -/
def carveWalk (callocOk : Bool) (carveDesc : EfiMemDesc) (overlapConventional : Bool) :
    List EfiMemDesc → EfiCarve × List EfiMemDesc
  | [] => (.noOverlap, [])
  | map :: rest =>
    match efiMemCarveOut callocOk map carveDesc overlapConventional with
    | (.noOverlap, _) =>
      let (code, rest) := carveWalk callocOk carveDesc overlapConventional rest
      (code, map :: rest)
    | (code, entries) => (code, entries ++ rest)

/-- The carve loop of `efi_update_memory_map`: the number of carved pages or
the status of an early return, with the list as the loop leaves it.  The loop
makes at most `fuel` walks; `calls` counts the calls of `calloc`. -/
def carveLoop (calloc : Nat → Bool) (carveDesc : EfiMemDesc) (overlapConventional : Bool) :
    (fuel calls : Nat) → (carvedPages : BitVec 64) → List EfiMemDesc →
      Option (Except EfiStatus (BitVec 64) × List EfiMemDesc)
  | 0, _, _, _ => none
  | fuel + 1, calls, carvedPages, efiMem =>
    match carveWalk (calloc calls) carveDesc overlapConventional efiMem with
    | (.noOverlap, efiMem) => some (.ok carvedPages, efiMem)
    | (.outOfResources, efiMem) => some (.error .outOfResources, efiMem)
    | (.overlapsNonram, efiMem) => some (.error .noMapping, efiMem)
    | (.loopAgain, efiMem) =>
      carveLoop calloc carveDesc overlapConventional fuel (calls + 1) carvedPages efiMem
    | (.carved pages, efiMem) =>
      carveLoop calloc carveDesc overlapConventional fuel calls (carvedPages + pages) efiMem

variable {callocOk : Bool} {carveDesc map : EfiMemDesc} {overlapConventional : Bool}

/-- The test with which `efi_mem_carve_out` detects an overlap. -/
def EfiMemDesc.Overlaps (carveDesc map : EfiMemDesc) : Prop :=
  map.physicalStart < descGetEnd carveDesc ∧ carveDesc.physicalStart < descGetEnd map

instance : Decidable (carveDesc.Overlaps map) := inferInstanceAs (Decidable (_ ∧ _))

def EfiMemDesc.Carvable (overlapConventional : Bool) (map : EfiMemDesc) : Prop :=
  overlapConventional = true → map.type = BitVec.ofInt 32 EFI_CONVENTIONAL_MEMORY

instance : Decidable (map.Carvable overlapConventional) := inferInstanceAs (Decidable (_ → _))

def EfiMemDesc.fromAddr (map : EfiMemDesc) (start : BitVec 64) : EfiMemDesc :=
  { map with
    physicalStart := start
    virtualStart := start
    numPages := (descGetEnd map - start) >>> EFI_PAGE_SHIFT }

def EfiMemDesc.upToAddr (map : EfiMemDesc) (stop : BitVec 64) : EfiMemDesc :=
  { map with numPages := (stop - map.physicalStart) >>> EFI_PAGE_SHIFT }

theorem not_overlaps_iff : ¬ carveDesc.Overlaps map ↔ descGetEnd carveDesc ≤ map.physicalStart ∨
      descGetEnd map ≤ carveDesc.physicalStart := by
  rw [EfiMemDesc.Overlaps, not_and_or, BitVec.not_lt, BitVec.not_lt]

theorem not_carvable_iff : ¬ map.Carvable overlapConventional ↔ overlapConventional = true ∧
      map.type ≠ BitVec.ofInt 32 EFI_CONVENTIONAL_MEMORY := by
  rw [EfiMemDesc.Carvable, Classical.not_imp]

theorem efiMemCarveOut_apart (apart : ¬ carveDesc.Overlaps map) :
    efiMemCarveOut callocOk map carveDesc overlapConventional = (.noOverlap, [map]) := by
  rw [not_overlaps_iff] at apart
  simp [efiMemCarveOut, apart]

theorem efiMemCarveOut_nonram (overlaps : carveDesc.Overlaps map)
    (nonram : ¬ map.Carvable overlapConventional) :
    efiMemCarveOut callocOk map carveDesc overlapConventional = (.overlapsNonram, [map]) := by
  rw [← not_not (a := carveDesc.Overlaps map), not_overlaps_iff] at overlaps
  rw [not_carvable_iff] at nonram
  simp [efiMemCarveOut, overlaps, nonram]

theorem efiMemCarveOut_start (overlaps : carveDesc.Overlaps map)
    (carvable : map.Carvable overlapConventional)
    (inside : carveDesc.physicalStart ≤ map.physicalStart) :
    efiMemCarveOut callocOk map carveDesc overlapConventional =
      if descGetEnd carveDesc < descGetEnd map then
        (.carved ((descGetEnd carveDesc - map.physicalStart) >>> EFI_PAGE_SHIFT),
          [map.fromAddr (descGetEnd carveDesc)])
      else
        (.carved ((descGetEnd map - map.physicalStart) >>> EFI_PAGE_SHIFT), []) := by
  rw [← not_not (a := carveDesc.Overlaps map), not_overlaps_iff] at overlaps
  rw [← not_not (a := map.Carvable _), not_carvable_iff] at carvable
  simp only [efiMemCarveOut, if_neg overlaps, if_neg carvable,
    if_neg (BitVec.not_lt.2 inside), if_true]
  by_cases shorter : descGetEnd carveDesc < descGetEnd map
  · simp [shorter, if_neg (BitVec.ne_of_lt shorter).symm, EfiMemDesc.fromAddr]
  · simp [shorter]

theorem efiMemCarveOut_split (overlaps : carveDesc.Overlaps map)
    (carvable : map.Carvable overlapConventional)
    (before : map.physicalStart < carveDesc.physicalStart) :
    efiMemCarveOut callocOk map carveDesc overlapConventional =
      if callocOk then
        (.loopAgain, [map.fromAddr carveDesc.physicalStart, map.upToAddr carveDesc.physicalStart])
      else (.outOfResources, [map]) := by
  rw [← not_not (a := carveDesc.Overlaps map), not_overlaps_iff] at overlaps
  rw [← not_not (a := map.Carvable _), not_carvable_iff] at carvable
  simp [efiMemCarveOut, overlaps, carvable, before, if_neg (BitVec.ne_of_lt before).symm,
    EfiMemDesc.fromAddr, EfiMemDesc.upToAddr]

section Walk

variable {before after : List EfiMemDesc}

section Apart

variable (apart : ∀ map ∈ before, ¬ carveDesc.Overlaps map)

include apart

theorem carveWalk_append (after : List EfiMemDesc) :
    carveWalk callocOk carveDesc overlapConventional (before ++ after) =
      ((carveWalk callocOk carveDesc overlapConventional after).1,
        before ++ (carveWalk callocOk carveDesc overlapConventional after).2) := by
  induction before with
  | nil => rfl
  | cons map before ih =>
    rw [cons_append, carveWalk, efiMemCarveOut_apart (apart map mem_cons_self),
      ih (fun other otherMem => apart other (mem_cons_of_mem _ otherMem))]
    rfl

theorem carveWalk_apart :
    carveWalk callocOk carveDesc overlapConventional before = (.noOverlap, before) := by
  simpa [carveWalk] using carveWalk_append apart []

theorem carveWalk_hit (overlaps : carveDesc.Overlaps map) :
    carveWalk callocOk carveDesc overlapConventional (before ++ map :: after) =
      ((efiMemCarveOut callocOk map carveDesc overlapConventional).1, before ++
          ((efiMemCarveOut callocOk map carveDesc overlapConventional).2 ++ after)) := by
  rw [carveWalk_append apart _, carveWalk]
  by_cases carvable : map.Carvable overlapConventional
  · by_cases inside : carveDesc.physicalStart ≤ map.physicalStart
    · rw [efiMemCarveOut_start overlaps carvable inside]
      split_ifs <;> rfl
    · rw [efiMemCarveOut_split overlaps carvable (BitVec.not_le.1 inside)]
      split_ifs <;> rfl
  · rw [efiMemCarveOut_nonram overlaps carvable]

end Apart

theorem apart_or_exists_overlap (carveDesc : EfiMemDesc) (efiMem : List EfiMemDesc) :
    (∀ map ∈ efiMem, ¬ carveDesc.Overlaps map) ∨
      ∃ before map after, efiMem = before ++ map :: after ∧
        (∀ other ∈ before, ¬ carveDesc.Overlaps other) ∧
        carveDesc.Overlaps map := by
  cases found : efiMem.find? fun map => decide (carveDesc.Overlaps map) with
  | none =>
    left
    simpa using found
  | some map =>
    right
    obtain ⟨hit, before, after, split, apart⟩ := List.find?_eq_some_iff_append.1 found
    exact ⟨before, map, after, split, by simpa using apart, by simpa using hit⟩

end Walk

section Termination

variable {calloc : Nat → Bool}

/-- Walks that an entry can still cost: none if it does not overlap the carved
range, one if it begins inside the range and two if it has to be split. -/
def carveWeight (carveDesc map : EfiMemDesc) : Nat :=
  if carveDesc.Overlaps map then
    if carveDesc.physicalStart ≤ map.physicalStart then 1 else 2
  else 0

def carveBound (carveDesc : EfiMemDesc) (efiMem : List EfiMemDesc) : Nat :=
  (efiMem.map (carveWeight carveDesc)).sum

theorem toNat_shiftRight_shiftLeft (x : BitVec 64) :
    ((x >>> EFI_PAGE_SHIFT) <<< EFI_PAGE_SHIFT).toNat = x.toNat / 4096 * 4096 := by
  simp only [EFI_PAGE_SHIFT, BitVec.toNat_shiftLeft, BitVec.toNat_ushiftRight,
    shiftLeft_eq, shiftRight_eq_div_pow]
  omega

theorem descGetEnd_split_le {start : BitVec 64} (low : map.physicalStart < start) :
    descGetEnd (map.upToAddr start) ≤ start := by
  rw [BitVec.lt_def] at low
  have difference := BitVec.toNat_sub_of_le (x := start)
    (y := map.physicalStart) (by rw [BitVec.le_def]; omega)
  simp only [BitVec.le_def, descGetEnd, EfiMemDesc.upToAddr, BitVec.toNat_add,
    toNat_shiftRight_shiftLeft, difference]
  omega

theorem carveWeight_of_end_le (low : descGetEnd map ≤ carveDesc.physicalStart) :
    carveWeight carveDesc map = 0 :=
  if_neg (not_overlaps_iff.2 (Or.inr low))

theorem carveWeight_of_le_start (high : descGetEnd carveDesc ≤ map.physicalStart) :
    carveWeight carveDesc map = 0 :=
  if_neg (not_overlaps_iff.2 (Or.inl high))

theorem carveBound_efiMemCarveOut {callocOk : Bool} (overlaps : carveDesc.Overlaps map)
    (carvable : map.Carvable overlapConventional)
    (served : callocOk = true ∨ carveDesc.physicalStart ≤ map.physicalStart) :
    carveBound carveDesc (efiMemCarveOut callocOk map carveDesc overlapConventional).2 <
      carveWeight carveDesc map := by
  by_cases inside : carveDesc.physicalStart ≤ map.physicalStart
  · rw [efiMemCarveOut_start overlaps carvable inside, carveWeight, if_pos overlaps, if_pos inside]
    split_ifs with shorter
    · have moved : carveWeight carveDesc (map.fromAddr (descGetEnd carveDesc)) = 0 :=
        carveWeight_of_le_start (BitVec.le_refl (descGetEnd carveDesc))
      simp only [carveBound, map_cons, map_nil, sum_cons, sum_nil, moved]
      exact Nat.zero_lt_one
    · exact Nat.zero_lt_one
  have before := BitVec.not_le.1 inside
  rw [efiMemCarveOut_split overlaps carvable before,
    if_pos (served.resolve_right inside), carveWeight, if_pos overlaps,
    if_neg inside]
  have upper : carveWeight carveDesc (map.fromAddr carveDesc.physicalStart) ≤ 1 := by
    have starts : carveDesc.physicalStart ≤ (map.fromAddr carveDesc.physicalStart).physicalStart :=
      BitVec.le_refl _
    rw [carveWeight, if_pos starts]
    split_ifs <;> omega
  simp only [carveBound, map_cons, map_nil, sum_cons,
    sum_nil, carveWeight_of_end_le (descGetEnd_split_le before)]
  omega

theorem carveBound_append (first second : List EfiMemDesc) :
    carveBound carveDesc (first ++ second) =
      carveBound carveDesc first + carveBound carveDesc second := by simp [carveBound]

theorem carveLoop_isSome {fuel calls : Nat} {carvedPages : BitVec 64}
    {efiMem : List EfiMemDesc} (enough : carveBound carveDesc efiMem < fuel) :
    (carveLoop calloc carveDesc overlapConventional fuel calls carvedPages
      efiMem).isSome = true := by
  induction fuel generalizing calls carvedPages efiMem with
  | zero => omega
  | succ fuel ih =>
    rcases apart_or_exists_overlap carveDesc efiMem with
        apart | ⟨before, map, after, rfl, apart, overlaps⟩
    · rw [carveLoop, carveWalk_apart apart]
      rfl
    have total : carveBound carveDesc (map :: after) =
        carveWeight carveDesc map + carveBound carveDesc after := by
      simp [carveBound]
    rw [carveBound_append, total] at enough
    have smaller : map.Carvable overlapConventional →
        (calloc calls = true ∨ carveDesc.physicalStart ≤ map.physicalStart) →
        carveBound carveDesc (before ++ ((efiMemCarveOut (calloc calls) map carveDesc
            overlapConventional).2 ++ after)) < fuel := by
      intro carvable served
      have less := carveBound_efiMemCarveOut overlaps carvable served
      rw [carveBound_append, carveBound_append]
      omega
    rw [carveLoop, carveWalk_hit apart overlaps]
    by_cases carvable : map.Carvable overlapConventional
    · by_cases inside : carveDesc.physicalStart ≤ map.physicalStart
      · have next := smaller carvable (Or.inr inside)
        rw [efiMemCarveOut_start overlaps carvable inside] at next ⊢
        split_ifs at next ⊢ <;> exact ih next
      have beforeRange := BitVec.not_le.1 inside
      by_cases served : calloc calls = true
      · have next := smaller carvable (Or.inl served)
        rw [efiMemCarveOut_split overlaps carvable beforeRange, if_pos served] at next ⊢
        exact ih next
      · rw [efiMemCarveOut_split overlaps carvable beforeRange, if_neg served]
        rfl
    · rw [efiMemCarveOut_nonram overlaps carvable]
      rfl

end Termination

/-- What one pass of `efi_mem_sort` over the list does: nothing, or one merge
and the position of the entry that `prevmem` then points to. -/
inductive MergePass
  | done
  | merged (efiMem : List EfiMemDesc) (prevmem : Nat)
  deriving DecidableEq, Repr

/-- One pass of the merge loop of `efi_mem_sort`, with `rest` the entries from
position `i` on and `prevmem` the position of the entry to compare with. -/
def mergePass (efiMem : List EfiMemDesc) :
    (rest : List EfiMemDesc) → (i : Nat) → (prevmem : Option Nat) → MergePass
  | [], _, _ => .done
  | _ :: rest, i, none => mergePass efiMem rest (i + 1) (some i)
  | cur :: rest, i, some prevmem =>
    match efiMem[prevmem]? with
    | none => .done
    | some prev =>
      if descGetEnd cur = prev.physicalStart ∧ prev.type = cur.type ∧ prev.attrib = cur.attrib then
        let pages := cur.numPages
        let grown := { prev with
          numPages := prev.numPages + pages
          physicalStart := prev.physicalStart - pages <<< EFI_PAGE_SHIFT
          virtualStart := prev.virtualStart - pages <<< EFI_PAGE_SHIFT }
        .merged ((efiMem.set prevmem grown).eraseIdx i)
          (if i < prevmem then prevmem - 1 else prevmem)
      else mergePass efiMem rest (i + 1) (some i)

/-- The `while (merge_again)` loop of `efi_mem_sort`.  Every merge removes an
entry, so that as many merges as entries are enough. -/
def mergeLoop : (fuel : Nat) → List EfiMemDesc → (prevmem : Option Nat) → List EfiMemDesc
  | 0, efiMem, _ => efiMem
  | fuel + 1, efiMem, prevmem =>
    match mergePass efiMem efiMem 0 prevmem with
    | .done => efiMem
    | .merged efiMem prevmem => mergeLoop fuel efiMem (some prevmem)

/-- The order of `efi_mem_cmp`: `list_sort` keeps `a` before `b`. -/
def efiMemBefore (a b : EfiMemDesc) : Prop := b.physicalStart ≤ a.physicalStart

instance : DecidableRel efiMemBefore :=
  fun a b => inferInstanceAs (Decidable (b.physicalStart ≤ a.physicalStart))

def efiMemSort (efiMem : List EfiMemDesc) : List EfiMemDesc :=
  mergeLoop efiMem.length (efiMem.insertionSort efiMemBefore) none

/-- The attribute `efi_update_memory_map` gives to a memory type. -/
def efiMemAttribute (memoryType : Int) : BitVec 64 :=
  if memoryType = EFI_RUNTIME_SERVICES_CODE ∨ memoryType = EFI_RUNTIME_SERVICES_DATA then
    EFI_MEMORY_WB ||| EFI_MEMORY_RUNTIME
  else if memoryType = EFI_MMAP_IO then EFI_MEMORY_RUNTIME
  else EFI_MEMORY_WB

/-- The carve loop run to its end.  The first call of `calloc` has served the
new list entry. -/
def carveOverlaps (calloc : Nat → Bool) (carveDesc : EfiMemDesc)
    (overlapConventional : Bool) (efiMem : List EfiMemDesc) :
    Except EfiStatus (BitVec 64) × List EfiMemDesc :=
  (carveLoop calloc carveDesc overlapConventional (carveBound carveDesc efiMem + 1) 1 0 efiMem).get
    (carveLoop_isSome (Nat.lt_succ_self _))

structure EfiMemory where
  efiMem : List EfiMemDesc
  efiMemoryMapKey : BitVec 64
  deriving DecidableEq, Repr

/-- The descriptor of the entry that `efi_update_memory_map` allocates for a
request. -/
def newlistDesc (start pages : BitVec 64) (memoryType : Int) : EfiMemDesc :=
  ⟨BitVec.ofInt 32 memoryType, start, start, pages, efiMemAttribute memoryType⟩

/-- `efi_update_memory_map` with the memory map as it is on return. -/
def efiUpdateMemoryMap (calloc : Nat → Bool) (efi : EfiMemory)
    (start pages : BitVec 64) (memoryType : Int)
    (overlapConventional remove : Bool) : EfiStatus × EfiMemory :=
  if EFI_MAX_MEMORY_TYPE ≤ memoryType then (.invalidParameter, efi)
  else if pages = 0 then (.success, efi)
  else
    let key := efi.efiMemoryMapKey + 1
    if ¬ calloc 0 then (.outOfResources, ⟨efi.efiMem, key⟩)
    else
      let newlist := newlistDesc start pages memoryType
      match carveOverlaps calloc newlist overlapConventional efi.efiMem with
      | (.error status, efiMem) => (status, ⟨efiMem, key⟩)
      | (.ok carvedPages, efiMem) =>
        if overlapConventional ∧ carvedPages ≠ pages then
          (.noMapping, ⟨efiMem, key⟩)
        else if remove then (.success, ⟨efiMemSort efiMem, key⟩)
        else (.success, ⟨efiMemSort (efiMem ++ [newlist]), key⟩)

end UBoot
