import UBoot.HashTableSize

/-!
# Searching the environment hash table

The search of `hsearch_r` follows the probe sequence of its key until it meets
the key, a free slot or the slot it began with.  This file reads the table as
the slots of an open addressing scheme, states its invariant and shows where
the search ends.
-/

namespace UBoot

open OpenAddressing Nat EnvEntryNode List

def EnvEntryNode.slot (node : EnvEntryNode) : Slot CString CString :=
  if node.used = USED_FREE then .free
  else if node.used = USED_DELETED then .deleted
  else
    match node.entry.key, node.entry.data with
    | some key, some data => .live key data
    | _, _ => .deleted

def probeOrder (size : Nat) (key : CString) (count : Nat) : Nat :=
  probe size (secondHash size (firstHash size key)) (firstHash size key) count

namespace HsearchData

def slots (htab : HsearchData) (idx : Nat) : Slot CString CString := (htab.node idx).slot

/-- The invariant of the hash table. -/
structure Valid (htab : HsearchData) : Prop where
  prime : htab.size.Prime
  large : 5 ≤ htab.size
  length : htab.table.length = htab.size + 1
  nodes : ∀ idx, (htab.node idx).used = USED_FREE ∨ (htab.node idx).used = USED_DELETED ∨
    ∃ key data, htab.node idx = ⟨firstHash htab.size key, ⟨some key, some data⟩⟩
  searchable : Searchable (probeOrder htab.size) htab.size htab.slots
  filled : htab.filled = (liveSlots htab.size htab.slots).card

end HsearchData

variable {key : CString}

section Hashes

variable {size : Nat}

theorem firstHash_mem (key : CString) (large : 5 ≤ size) :
    firstHash size key ∈ Finset.Icc 1 size := by
  have bound := mod_lt (hashValue key).toNat (show 0 < size by omega)
  rw [Finset.mem_Icc]
  unfold firstHash
  simp only
  split_ifs <;> omega

variable {hval : Nat}

theorem secondHash_pos : 0 < secondHash size hval := by
  unfold secondHash
  omega

theorem secondHash_lt (large : 5 ≤ size) : secondHash size hval < size := by
  have bound := mod_lt hval (show 0 < size - 2 by omega)
  unfold secondHash
  omega

theorem coprime_secondHash (prime : size.Prime) (large : 5 ≤ size) :
    Nat.Coprime size (secondHash size hval) :=
  (Nat.Prime.coprime_iff_not_dvd prime).2
    (not_dvd_of_pos_of_lt secondHash_pos (secondHash_lt large))

theorem probeOrder_succ (count : Nat) : probeOrder size key (count + 1) =
      nextIndex size (secondHash size (firstHash size key)) (probeOrder size key count) :=
  probe_succ count

theorem probeOrder_mem (key : CString) (large : 5 ≤ size) (count : Nat) :
    probeOrder size key count ∈ Finset.Icc 1 size :=
  probe_mem (secondHash_lt large) secondHash_pos (firstHash_mem key large) count

theorem probeOrder_injective (prime : size.Prime) (large : 5 ≤ size)
    {first second : Nat} (firstLt : first < size) (secondLt : second < size)
    (same : probeOrder size key first = probeOrder size key second) :
    first = second :=
  probe_injective (secondHash_lt large) (coprime_secondHash prime large) firstLt secondLt same

theorem exists_probeOrder_eq (key : CString) (prime : size.Prime) (large : 5 ≤ size) {idx : Nat}
    (idxMem : idx ∈ Finset.Icc 1 size) :
    ∃ count < size, probeOrder size key count = idx :=
  exists_probe_eq (secondHash_lt large) secondHash_pos
    (coprime_secondHash prime large) (firstHash_mem key large) idxMem

theorem probeOrder_eq_firstHash_iff (prime : size.Prime) (large : 5 ≤ size)
    {count : Nat} (pos : 0 < count) (le : count ≤ size) :
    probeOrder size key count = firstHash size key ↔ count = size := by
  constructor
  · intro back
    by_contra notAll
    have start : probeOrder size key count = probeOrder size key 0 := back
    have zero := probeOrder_injective prime large (by omega) (by omega) start
    omega
  · rintro rfl
    exact probe_size (secondHash_lt large) secondHash_pos
      (coprime_secondHash prime large) (firstHash_mem key large)

end Hashes

variable {htab : HsearchData}

section Slots

variable {idx : Nat}

theorem slots_eq_free_iff : htab.slots idx = .free ↔ (htab.node idx).used = USED_FREE := by
  unfold HsearchData.slots slot
  split_ifs with free deleted
  · simp [free]
  · simp [free]
  · split <;> simp [free]

theorem slot_live (size : Nat) (key data : CString) :
    slot ⟨firstHash size key, ⟨some key, some data⟩⟩ = .live key data := by
  have pos : firstHash size key ≠ 0 := by
    unfold firstHash
    simp only
    split_ifs <;> omega
  have notFree : (firstHash size key : Int) ≠ USED_FREE := by
    unfold USED_FREE
    omega
  have notDeleted : (firstHash size key : Int) ≠ USED_DELETED := by
    unfold USED_DELETED
    omega
  simp [slot, notFree, notDeleted]

namespace HsearchData.Valid

variable (valid : htab.Valid)

include valid

theorem node_of_live {data : CString} (live : htab.slots idx = .live key data) :
    htab.node idx = ⟨firstHash htab.size key, ⟨some key, some data⟩⟩ := by
  rcases valid.nodes idx with free | deleted | ⟨other, value, node⟩
  · rw [slots_eq_free_iff.2 free] at live
    cases live
  · have slot : htab.slots idx = .deleted := by simp [slots, slot, deleted, USED_FREE, USED_DELETED]
    rw [slot] at live
    cases live
  have slot : htab.slots idx = .live other value := by
    rw [slots, node]
    exact slot_live _ _ _
  rw [slot] at live
  cases live
  exact node

theorem live_of_used (used : 0 < (htab.node idx).used) : ∃ key data,
    htab.node idx = ⟨firstHash htab.size key, ⟨some key, some data⟩⟩ ∧
      htab.slots idx = .live key data := by
  rcases valid.nodes idx with free | deleted | ⟨key, data, node⟩
  · rw [free] at used
    cases used
  · rw [deleted] at used
    cases used
  · exact ⟨key, data, node, by rw [slots, node, slot_live]⟩

theorem slots_eq_deleted_iff : htab.slots idx = .deleted ↔ (htab.node idx).used = USED_DELETED := by
  constructor
  · intro slot
    rcases valid.nodes idx with free | deleted | ⟨other, value, node⟩
    · rw [slots_eq_free_iff.2 free] at slot
      cases slot
    · exact deleted
    · rw [slots, node, slot_live] at slot
      cases slot
  · intro deleted
    simp [slots, slot, deleted, USED_FREE, USED_DELETED]

theorem matchesKey_iff : htab.matchesKey key (firstHash htab.size key) idx = true ↔
      ∃ data, htab.slots idx = .live key data := by
  constructor
  · intro matched
    have both : (htab.node idx).used = firstHash htab.size key ∧
        (htab.node idx).entry.key = some key := by
      simpa [matchesKey] using matched
    rcases valid.nodes idx with free | deleted | ⟨other, value, node⟩
    · have pos := (Finset.mem_Icc.1 (firstHash_mem key valid.large)).1
      unfold USED_FREE at free
      omega
    · rw [both.1] at deleted
      unfold USED_DELETED at deleted
      omega
    rw [node] at both
    have same : other = key := Option.some.inj both.2
    refine ⟨value, ?_⟩
    rw [slots, node, slot_live, same]
  · rintro ⟨data, live⟩
    simp [matchesKey, valid.node_of_live live]

end HsearchData.Valid

end Slots

section Search

/-- The search has passed over the first `count` slots for the key, and
`firstDeleted` is a deleted one among them, or zero. -/
structure PassedOver (htab : HsearchData) (key : CString)
    (count firstDeleted : Nat) : Prop where
  unbroken : Unbroken (probeOrder htab.size) htab.slots key count
  passed : ∀ earlier < count, ∀ data, htab.slots (probeOrder htab.size key earlier) ≠ .live key data
  noneDeleted : firstDeleted = 0 → ∀ earlier < count,
    htab.slots (probeOrder htab.size key earlier) ≠ .deleted
  someDeleted : firstDeleted ≠ 0 → ∃ earlier < count,
    probeOrder htab.size key earlier = firstDeleted ∧ htab.slots firstDeleted = .deleted

theorem PassedOver.zero : PassedOver htab key 0 0 where
  unbroken := by simp [Unbroken]
  passed := by simp
  noneDeleted := by simp
  someDeleted := by simp

variable {count firstDeleted : Nat}

theorem PassedOver.next (valid : htab.Valid)
    (passedOver : PassedOver htab key count firstDeleted) {idx : Nat}
    (located : probeOrder htab.size key count = idx)
    (occupied : (htab.node idx).used ≠ USED_FREE)
    (other : ¬ htab.matchesKey key (firstHash htab.size key) idx = true) :
    PassedOver htab key (count + 1)
      (if (htab.node idx).used = USED_DELETED ∧ firstDeleted = 0 then idx
        else firstDeleted) := by
  subst located
  have pos := (Finset.mem_Icc.1 (probeOrder_mem key valid.large count)).1
  constructor
  · intro earlier earlierLt
    rcases Nat.lt_succ_iff_lt_or_eq.1 earlierLt with before | rfl
    · exact passedOver.unbroken earlier before
    · rwa [Ne, slots_eq_free_iff]
  · intro earlier earlierLt data live
    rcases Nat.lt_succ_iff_lt_or_eq.1 earlierLt with before | rfl
    · exact passedOver.passed earlier before data live
    · exact other (valid.matchesKey_iff.2 ⟨data, live⟩)
  · intro zero earlier earlierLt
    split_ifs at zero with deleted
    · omega
    rcases Nat.lt_succ_iff_lt_or_eq.1 earlierLt with before | rfl
    · exact passedOver.noneDeleted zero earlier before
    · rw [Ne, valid.slots_eq_deleted_iff]
      intro here
      exact deleted ⟨here, zero⟩
  · intro nonzero
    split_ifs at nonzero ⊢ with deleted
    · exact ⟨count, lt_succ_self count, rfl, valid.slots_eq_deleted_iff.2 deleted.1⟩
    · obtain ⟨earlier, before, at_, slot⟩ := passedOver.someDeleted nonzero
      exact ⟨earlier, lt_succ_of_lt before, at_, slot⟩

structure SearchEnds (htab : HsearchData) (key : CString) (exit : SearchExit) :
    Prop where
  visited : ∃ count ≤ htab.size, exit.visited = (List.range count).map (probeOrder htab.size key)
  found : exit.found = true → ∃ data, htab.slots exit.idx = .live key data
  missing : exit.found = false → ∃ count, PassedOver htab key count exit.firstDeleted ∧
      (count = htab.size ∨ count < htab.size ∧
        exit.idx = probeOrder htab.size key count ∧ htab.slots exit.idx = .free)

theorem map_range_succ {α : Type*} (f : Nat → α) (count : Nat) :
    (range count).map f ++ [f count] = (range (count + 1)).map f := by
  rw [range_succ, map_append, map_singleton]

theorem SearchEnds.atKey (valid : htab.Valid) (countLt : count < htab.size) (firstDeleted : Nat)
    (matched : htab.matchesKey key (firstHash htab.size key)
      (probeOrder htab.size key count) = true) :
    SearchEnds htab key ⟨probeOrder htab.size key count, true, firstDeleted,
      (range (count + 1)).map (probeOrder htab.size key)⟩ where
  visited := ⟨count + 1, countLt, rfl⟩
  found _ := valid.matchesKey_iff.1 matched
  missing := by simp

theorem SearchEnds.atFree (passedOver : PassedOver htab key count firstDeleted)
    (countLt : count < htab.size)
    (free : (htab.node (probeOrder htab.size key count)).used = USED_FREE) :
    SearchEnds htab key ⟨probeOrder htab.size key count, false, firstDeleted,
      (range (count + 1)).map (probeOrder htab.size key)⟩ where
  visited := ⟨count + 1, countLt, rfl⟩
  found := by simp
  missing _ := ⟨count, passedOver, Or.inr ⟨countLt, rfl, slots_eq_free_iff.2 free⟩⟩

theorem SearchEnds.afterAll (idx : Nat) (passedOver : PassedOver htab key htab.size firstDeleted) :
    SearchEnds htab key ⟨idx, false, firstDeleted,
      (range htab.size).map (probeOrder htab.size key)⟩ where
  visited := ⟨htab.size, Nat.le_refl _, rfl⟩
  found := by simp
  missing _ := ⟨htab.size, passedOver, Or.inl rfl⟩

theorem exists_searchLoop (valid : htab.Valid) (fuel count firstDeleted)
    (passedOver : PassedOver htab key (count + 1) firstDeleted) (countLe : count + 1 ≤ htab.size)
    (enough : htab.size ≤ count + fuel) :
    ∃ exit, searchLoop htab key (firstHash htab.size key)
        (secondHash htab.size (firstHash htab.size key)) fuel (probeOrder htab.size key count)
        firstDeleted ((range (count + 1)).map (probeOrder htab.size key)) = some exit ∧
      SearchEnds htab key exit := by
  induction fuel generalizing count firstDeleted with
  | zero => omega
  | succ fuel ih =>
    have back : probeOrder htab.size key (count + 1) = firstHash htab.size key ↔
        count + 1 = htab.size :=
      probeOrder_eq_firstHash_iff valid.prime valid.large (by omega) countLe
    unfold searchLoop
    simp only [← probeOrder_succ, map_range_succ]
    by_cases all : count + 1 = htab.size
    · rw [if_pos (back.2 all), all]
      exact ⟨_, rfl, SearchEnds.afterAll _ (all ▸ passedOver)⟩
    rw [if_neg (mt back.1 all)]
    have countLt : count + 1 < htab.size := by omega
    by_cases matched : htab.matchesKey key (firstHash htab.size key)
        (probeOrder htab.size key (count + 1)) = true
    · rw [if_pos matched]
      exact ⟨_, rfl, SearchEnds.atKey valid countLt _ matched⟩
    rw [if_neg matched]
    by_cases free : (htab.node (probeOrder htab.size key (count + 1))).used = USED_FREE
    · have notDeleted : USED_FREE ≠ USED_DELETED := by decide
      simp only [free, notDeleted, ne_eq, not_true_eq_false, false_and, if_false]
      exact ⟨_, rfl, SearchEnds.atFree passedOver countLt free⟩
    · rw [if_pos free]
      exact ih (count + 1) _ (passedOver.next valid rfl free matched) countLt (by omega)

theorem exists_searchSlot (valid : htab.Valid) (key : CString) :
    ∃ exit, searchSlot htab key = some exit ∧ SearchEnds htab key exit := by
  have large := valid.large
  have pos : 0 < htab.size := by omega
  have first : probeOrder htab.size key 0 = firstHash htab.size key := rfl
  unfold searchSlot
  by_cases free : (htab.node (firstHash htab.size key)).used = USED_FREE
  · rw [if_neg (not_not.2 free)]
    exact ⟨_, rfl, SearchEnds.atFree PassedOver.zero pos free⟩
  rw [if_pos free]
  by_cases matched : htab.matchesKey key (firstHash htab.size key) (firstHash htab.size key) = true
  · rw [if_pos matched]
    exact ⟨_, rfl, SearchEnds.atKey valid pos _ matched⟩
  rw [if_neg matched]
  have passedOver := PassedOver.zero.next valid first free matched
  simp only [and_true] at passedOver
  exact exists_searchLoop valid htab.size 0 _ passedOver (by omega) (by omega)

end Search

section Consequences

variable {exit : SearchExit} (valid : htab.Valid)

include valid

theorem SearchEnds.visited_nodup (ends : SearchEnds htab key exit) : exit.visited.Nodup := by
  obtain ⟨count, countLe, visited⟩ := ends.visited
  rw [visited]
  apply List.Nodup.map_on _ nodup_range
  intro first firstMem second secondMem same
  rw [mem_range] at firstMem secondMem
  exact probeOrder_injective valid.prime valid.large (by omega) (by omega) same

theorem SearchEnds.visited_mem (ends : SearchEnds htab key exit) :
    ∀ idx ∈ exit.visited, idx ∈ Finset.Icc 1 htab.size := by
  obtain ⟨count, -, visited⟩ := ends.visited
  intro idx idxMem
  rw [visited] at idxMem
  obtain ⟨earlier, -, rfl⟩ := mem_map.1 idxMem
  exact probeOrder_mem key valid.large earlier

theorem SearchEnds.absent (ends : SearchEnds htab key exit)
    (missing : exit.found = false) :
    ∀ idx data, htab.slots idx ≠ .live key data := by
  obtain ⟨count, passedOver, stopped⟩ := ends.missing missing
  apply valid.searchable.absent passedOver.passed
  rcases stopped with all | ⟨-, located, free⟩
  · exact Or.inl all
  · exact Or.inr (located ▸ free)

theorem filled_eq_size (key : CString) (live : ∀ count < htab.size,
      (htab.slots (probeOrder htab.size key count)).isLive = true) :
    htab.filled = htab.size := by
  have all : liveSlots htab.size htab.slots = Finset.Icc 1 htab.size := by
    ext idx
    rw [mem_liveSlots]
    constructor
    · exact And.left
    · intro idxMem
      obtain ⟨count, countLt, located⟩ := exists_probeOrder_eq key valid.prime valid.large idxMem
      exact ⟨idxMem, located ▸ live count countLt⟩
  rw [valid.filled, all]
  simp

/-- After an unsuccessful search of a table that is not full, a new entry can be
placed in the slot that `hsearch_r` chooses. -/
theorem SearchEnds.exists_place (ends : SearchEnds htab key exit) (missing : exit.found = false)
    (room : htab.filled ≠ htab.size) :
    ∃ count < htab.size, (if exit.firstDeleted ≠ 0 then exit.firstDeleted else exit.idx) =
        probeOrder htab.size key count ∧
      Unbroken (probeOrder htab.size) htab.slots key count ∧
      (htab.slots (probeOrder htab.size key count)).isLive = false := by
  obtain ⟨count, passedOver, stopped⟩ := ends.missing missing
  by_cases none : exit.firstDeleted = 0
  · rw [if_neg (not_not.2 none)]
    rcases stopped with all | ⟨countLt, located, free⟩
    · exfalso
      apply room
      apply filled_eq_size valid key
      intro earlier earlierLt
      have notFree := passedOver.unbroken earlier (all ▸ earlierLt)
      have notDeleted := passedOver.noneDeleted none earlier (all ▸ earlierLt)
      cases slot : htab.slots (probeOrder htab.size key earlier) with
      | free => exact absurd slot notFree
      | deleted => exact absurd slot notDeleted
      | live other data => rfl
    · refine ⟨count, countLt, located, passedOver.unbroken, ?_⟩
      rw [← located, free]
      rfl
  · rw [if_pos none]
    obtain ⟨earlier, before, located, deleted⟩ := passedOver.someDeleted none
    refine ⟨earlier, by omega, located.symm, ?_, ?_⟩
    · intro index indexLt
      exact passedOver.unbroken index (by omega)
    · rw [located, deleted]
      rfl

end Consequences

end UBoot
