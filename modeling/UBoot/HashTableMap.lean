import Mathlib.Data.Finmap
import UBoot.HashTableSearch

/-!
# The environment hash table is a finite map

The table stands for the finite map of its live entries.  This file gives the
effect of `hsearch_r` and `hdelete_r` on the table in each case, shows that
they keep its invariant, and relates them to operations on the finite map.
-/

namespace UBoot

open OpenAddressing Function HsearchData Finmap Finset

variable {htab : HsearchData} {key data : CString} {idx : Nat}

theorem node_setNode (inside : idx < htab.table.length) (node : EnvEntryNode) :
    (htab.setNode idx node).node = update htab.node idx node := by
  ext1 other
  by_cases here : other = idx
  · subst here
    simp [HsearchData.node, HsearchData.setNode, inside]
  · rw [update_of_ne here]
    simp [HsearchData.node, HsearchData.setNode, List.getD_eq_getElem?_getD, Ne.symm here]

theorem slots_setNode (inside : idx < htab.table.length) (node : EnvEntryNode) :
    (htab.setNode idx node).slots = update htab.slots idx node.slot := by
  ext1 other
  unfold slots
  rw [node_setNode inside]
  by_cases here : other = idx
  · subst here
    simp
  · simp [here]

namespace HsearchData.Valid

variable (valid : htab.Valid)

include valid

theorem mem_of_live (live : htab.slots idx = .live key data) : idx ∈ Finset.Icc 1 htab.size := by
  obtain ⟨count, -, located, -⟩ := valid.searchable.reachable idx key data live
  rw [← located]
  exact probeOrder_mem key valid.large count

theorem mem_liveSlots_of_live (live : htab.slots idx = .live key data) :
    idx ∈ liveSlots htab.size htab.slots := by
  rw [mem_liveSlots, live]
  exact ⟨valid.mem_of_live live, rfl⟩

theorem inside_of_mem (idxMem : idx ∈ Finset.Icc 1 htab.size) : idx < htab.table.length := by
  have length := valid.length
  have bounds := mem_Icc.1 idxMem
  omega

/-- Writing a node keeps the invariant if the node is deleted or has an entry
with its hash value, and the slots stay searchable. -/
theorem setNode (idxMem : idx ∈ Finset.Icc 1 htab.size) {node : EnvEntryNode}
    (nodeOk : node.used = USED_DELETED ∨
      ∃ key data, node = ⟨firstHash htab.size key, ⟨some key, some data⟩⟩)
    (searchable : Searchable (probeOrder htab.size) htab.size
      (update htab.slots idx node.slot)) {filled : Nat}
    (filledEq : filled = (liveSlots htab.size (update htab.slots idx node.slot)).card) :
    ({ htab.setNode idx node with filled } : HsearchData).Valid := by
  have inside := valid.inside_of_mem idxMem
  have nodes : ({ htab.setNode idx node with filled } : HsearchData).node =
      update htab.node idx node := node_setNode inside node
  have slots : ({ htab.setNode idx node with filled } : HsearchData).slots =
      update htab.slots idx node.slot := slots_setNode inside node
  constructor
  · exact valid.prime
  · exact valid.large
  · simpa [HsearchData.setNode] using valid.length
  · intro other
    rw [nodes]
    by_cases here : other = idx
    · subst here
      rw [update_self]
      exact Or.inr nodeOk
    · rw [update_of_ne here]
      exact valid.nodes other
  · rw [slots]
    exact searchable
  · rw [slots]
    exact filledEq

theorem create (data : CString) {count : Nat} (countLt : count < htab.size)
    (unbroken : Unbroken (probeOrder htab.size) htab.slots key count)
    (absent : ∀ idx data, htab.slots idx ≠ .live key data)
    (vacant : (htab.slots (probeOrder htab.size key count)).isLive = false) :
    ({ htab.setNode (probeOrder htab.size key count)
        ⟨firstHash htab.size key, ⟨some key, some data⟩⟩ with
        filled := htab.filled + 1 } : HsearchData).Valid := by
  have idxMem := probeOrder_mem key valid.large count
  apply valid.setNode idxMem (Or.inr ⟨key, data, rfl⟩)
  · rw [slot_live]
    exact valid.searchable.insert countLt unbroken absent data
  · rw [slot_live, liveSlots_update_live idxMem, valid.filled, card_insert_of_notMem]
    simp [mem_liveSlots, vacant]

theorem overwrite {old : CString} (live : htab.slots idx = .live key old) (data : CString) :
    (htab.setNode idx ⟨firstHash htab.size key, ⟨some key, some data⟩⟩).Valid := by
  have idxMem := valid.mem_of_live live
  apply valid.setNode idxMem (Or.inr ⟨key, data, rfl⟩)
  · rw [slot_live]
    exact valid.searchable.overwrite live data
  · have present := valid.mem_liveSlots_of_live live
    rw [slot_live, liveSlots_update_live idxMem, insert_eq_of_mem present]
    exact valid.filled

theorem hdeleteSlot (live : htab.slots idx = .live key data) : (hdeleteSlot htab idx).Valid := by
  have idxMem := valid.mem_of_live live
  have present := valid.mem_liveSlots_of_live live
  have slot : EnvEntryNode.slot ⟨USED_DELETED, ⟨none, none⟩⟩ = .deleted := rfl
  apply valid.setNode idxMem (Or.inl rfl)
  · rw [slot]
    exact valid.searchable.delete idx
  · rw [slot, liveSlots_update_deleted, card_erase_of_mem present, valid.filled]

end HsearchData.Valid

theorem valid_of_free {htab : HsearchData} (prime : htab.size.Prime) (large : 5 ≤ htab.size)
    (filled : htab.filled = 0)
    (table : htab.table = List.replicate (htab.size + 1) ⟨USED_FREE, ⟨none, none⟩⟩) :
    htab.Valid ∧ ∀ idx, htab.slots idx = .free := by
  have used : ∀ idx, (htab.node idx).used = USED_FREE := by
    intro idx
    rw [node, table, List.getD_eq_getElem?_getD, List.getElem?_replicate]
    split_ifs <;> rfl
  have free : ∀ idx, htab.slots idx = .free := fun idx =>
    slots_eq_free_iff.2 (used idx)
  refine ⟨?_, free⟩
  constructor
  · exact prime
  · exact large
  · simp [table]
  · exact fun idx => Or.inl (used idx)
  · exact Searchable.of_free free
  · have none : liveSlots htab.size htab.slots = ∅ := by simp [liveSlots, free, Slot.isLive]
    simp [filled, none]

theorem valid_hcreateR {nel : Nat} (large : 2 ≤ nel) (bound : nel < 2 ^ 31) :
    ∃ htab, hcreateR nel = some htab ∧ htab.Valid ∧ ∀ idx, htab.slots idx = .free := by
  obtain ⟨htab, result, prime, sizeLarge, -, filled, table⟩ := exists_hcreateR large bound
  exact ⟨htab, result, valid_of_free prime sizeLarge filled table⟩

section Calls

variable (valid : htab.Valid) (hooks : HashHooks) (item : Option CString) (flag : Nat)

include valid

section Live

variable (live : htab.slots idx = .live key data)

include live

theorem searchSlot_of_live :
    ∃ exit, searchSlot htab key = some exit ∧ exit.found = true ∧ exit.idx = idx := by
  obtain ⟨exit, result, ends⟩ := exists_searchSlot valid key
  cases found : exit.found with
  | false => exact absurd live (ends.absent valid found idx data)
  | true =>
    obtain ⟨other, otherLive⟩ := ends.found found
    exact ⟨exit, result, found, valid.searchable.unique exit.idx idx key other data otherLive live⟩

theorem hsearchR_find_of_live :
    hsearchR hooks htab key item .find flag = some (⟨idx, some idx, none⟩, htab) := by
  obtain ⟨exit, result, found, located⟩ := searchSlot_of_live valid live
  simp [hsearchR, result, found, located, overwriteEntry]

theorem hsearchR_enter_of_live : hsearchR hooks htab key item .enter flag =
      some (overwriteEntry hooks htab key item .enter flag idx) := by
  obtain ⟨exit, result, found, located⟩ := searchSlot_of_live valid live
  simp [hsearchR, result, found, located]

theorem hdeleteR_of_live :
    hdeleteR .permissive htab key flag = some (.ok, hdeleteSlot htab idx) := by
  have pos := (mem_Icc.1 (valid.mem_of_live live)).1
  have notZero : idx ≠ 0 := by omega
  simp [hdeleteR, hsearchR_find_of_live valid _ _ _ live, notZero, HashHooks.permissive]

end Live

section Absent

variable (absent : ∀ idx data, htab.slots idx ≠ .live key data)

include absent

theorem searchSlot_of_absent :
    ∃ exit, searchSlot htab key = some exit ∧ exit.found = false ∧ SearchEnds htab key exit := by
  obtain ⟨exit, result, ends⟩ := exists_searchSlot valid key
  cases found : exit.found with
  | false => exact ⟨exit, result, found, ends⟩
  | true =>
    obtain ⟨other, otherLive⟩ := ends.found found
    exact absurd otherLive (absent exit.idx other)

theorem hsearchR_find_of_absent :
    hsearchR hooks htab key item .find flag = some (.fail .ESRCH, htab) := by
  obtain ⟨exit, result, missing, -⟩ := searchSlot_of_absent valid absent
  simp [hsearchR, result, missing]

theorem hsearchR_enter_of_full (full : htab.filled = htab.size) :
    hsearchR hooks htab key item .enter flag = some (.fail .ENOMEM, htab) := by
  obtain ⟨exit, result, missing, -⟩ := searchSlot_of_absent valid absent
  simp [hsearchR, result, missing, full]

theorem hsearchR_enter_of_room (room : htab.filled ≠ htab.size) :
    ∃ count < htab.size, Unbroken (probeOrder htab.size) htab.slots key count ∧
      (htab.slots (probeOrder htab.size key count)).isLive = false ∧
      hsearchR hooks htab key item .enter flag = some (createEntry hooks htab key item flag
        (firstHash htab.size key) (probeOrder htab.size key count)) := by
  obtain ⟨exit, result, missing, ends⟩ := searchSlot_of_absent valid absent
  obtain ⟨count, countLt, place, unbroken, vacant⟩ := ends.exists_place valid missing room
  refine ⟨count, countLt, unbroken, vacant, ?_⟩
  unfold hsearchR
  simp only [result, Option.bind_eq_bind, Option.bind_some, missing, Bool.false_eq_true,
    if_false, if_true, room, place]
  rfl

theorem hdeleteR_of_absent : hdeleteR hooks htab key flag = some (.notFound, htab) := by
  simp [hdeleteR, hsearchR_find_of_absent valid _ _ _ absent, HsearchResult.fail]


end Absent

end Calls

abbrev EnvMap := Finmap fun _ : CString => CString

structure HsearchData.Refines (htab : HsearchData) (entries : EnvMap) : Prop where
  valid : htab.Valid
  stores : Stores htab.slots fun key => entries.lookup key

namespace HsearchData.Refines

variable {entries : EnvMap}

theorem lookup_insert_eq (entries : EnvMap) (key data : CString) :
    (fun other => (entries.insert key data).lookup other) =
      update (fun other => entries.lookup other) key (some data) := by
  ext1 other
  by_cases same : other = key
  · subst same
    rw [update_self, lookup_insert]
  · rw [update_of_ne same, lookup_insert_of_ne entries same]

theorem lookup_erase_eq (entries : EnvMap) (key : CString) :
    (fun other => (entries.erase key).lookup other) =
      update (fun other => entries.lookup other) key none := by
  ext1 other
  by_cases same : other = key
  · subst same
    rw [update_self, lookup_erase]
  · rw [update_of_ne same, lookup_erase_ne same]

section

variable (refines : htab.Refines entries)

include refines

theorem exists_live (present : entries.lookup key = some data) :
    ∃ idx, htab.slots idx = .live key data :=
  (refines.stores key data).1 present

theorem absent (missing : key ∉ entries) : ∀ idx data, htab.slots idx ≠ .live key data :=
  refines.stores.absent (lookup_eq_none.2 missing)

theorem filled_eq : htab.filled = entries.keys.card := by
  rw [refines.valid.filled]
  apply refines.stores.card_liveSlots refines.valid.searchable
  · intro idx key data live
    exact refines.valid.mem_of_live live
  · intro key
    rw [mem_keys, mem_iff]

theorem overwrite {idx : Nat} (live : htab.slots idx = .live key data) (item : CString) :
    (htab.setNode idx ⟨firstHash htab.size key, ⟨some key, some item⟩⟩).Refines
      (entries.insert key item) where
  valid := refines.valid.overwrite live item
  stores := by
    have inside := refines.valid.inside_of_mem (refines.valid.mem_of_live live)
    rw [lookup_insert_eq, slots_setNode inside, slot_live]
    exact refines.stores.overwrite refines.valid.searchable live item

theorem create {count : Nat} (countLt : count < htab.size)
    (unbroken : Unbroken (probeOrder htab.size) htab.slots key count)
    (vacant : (htab.slots (probeOrder htab.size key count)).isLive = false)
    (missing : key ∉ entries) (item : CString) :
    ({ htab.setNode (probeOrder htab.size key count)
        ⟨firstHash htab.size key, ⟨some key, some item⟩⟩ with
        filled := htab.filled + 1 } : HsearchData).Refines
      (entries.insert key item) where
  valid := refines.valid.create item countLt unbroken (refines.absent missing) vacant
  stores := by
    have inside := refines.valid.inside_of_mem (probeOrder_mem key refines.valid.large count)
    rw [lookup_insert_eq]
    have slots := slots_setNode inside ⟨firstHash htab.size key, ⟨some key, some item⟩⟩
    rw [slot_live] at slots
    exact slots ▸ refines.stores.insert vacant (refines.absent missing) item

theorem hdeleteSlot {idx : Nat} (live : htab.slots idx = .live key data) :
    (hdeleteSlot htab idx).Refines (entries.erase key) where
  valid := refines.valid.hdeleteSlot live
  stores := by
    have inside := refines.valid.inside_of_mem (refines.valid.mem_of_live live)
    have slots := slots_setNode inside ⟨USED_DELETED, ⟨none, none⟩⟩
    rw [lookup_erase_eq]
    exact slots ▸ refines.stores.delete refines.valid.searchable live

theorem hsearchR_find (hooks : HashHooks) (key : CString) (item : Option CString) (flag : Nat) :
    ∃ result, hsearchR hooks htab key item .find flag = some (result, htab) ∧
      (result.retval.bind fun idx => (htab.node idx).entry.data) = entries.lookup key := by
  cases found : entries.lookup key with
  | none =>
    have absent := refines.absent (lookup_eq_none.1 found)
    exact ⟨_, hsearchR_find_of_absent refines.valid hooks item flag absent, rfl⟩
  | some data =>
    obtain ⟨idx, live⟩ := refines.exists_live found
    refine ⟨_, hsearchR_find_of_live refines.valid hooks item flag live, ?_⟩
    simp [refines.valid.node_of_live live]

theorem hsearchR_enter (flag : Nat) (item : CString)
    (fits : key ∈ entries ∨ entries.keys.card < htab.size) :
    ∃ result written, hsearchR .permissive htab key (some item) .enter flag =
        some (result, written) ∧ result.ret ≠ 0 ∧ written.size = htab.size ∧
      written.Refines (entries.insert key item) := by
  by_cases present : key ∈ entries
  · obtain ⟨old, oldPresent⟩ := mem_iff.1 present
    obtain ⟨idx, live⟩ := refines.exists_live oldPresent
    have pos := (mem_Icc.1 (refines.valid.mem_of_live live)).1
    have search := hsearchR_enter_of_live refines.valid .permissive (some item) flag live
    simp only [overwriteEntry, refines.valid.node_of_live live] at search
    exact ⟨_, _, search, Nat.ne_of_gt pos, rfl, refines.overwrite live item⟩
  have room : htab.filled ≠ htab.size := by
    have few := fits.resolve_left present
    rw [refines.filled_eq]
    omega
  obtain ⟨count, countLt, unbroken, vacant, result⟩ :=
    hsearchR_enter_of_room refines.valid .permissive (some item) flag (refines.absent present)
      room
  exact ⟨_, _, result, Nat.one_ne_zero, rfl, refines.create countLt unbroken vacant present item⟩

theorem hsearchR_enter_full (flag : Nat) (item : CString)
    (full : ¬ (key ∈ entries ∨ entries.keys.card < htab.size)) :
    hsearchR .permissive htab key (some item) .enter flag = some (.fail .ENOMEM, htab) := by
  rw [not_or] at full
  apply hsearchR_enter_of_full refines.valid _ _ _ (refines.absent full.1)
  have filled := refines.filled_eq
  have atMost : htab.filled ≤ htab.size := by
    rw [refines.valid.filled]
    exact card_liveSlots_le
  omega

end

end HsearchData.Refines

theorem refines_hcreateR {nel : Nat} (large : 2 ≤ nel) (bound : nel < 2 ^ 31) :
    ∃ htab, hcreateR nel = some htab ∧ htab.Refines ∅ := by
  obtain ⟨htab, result, valid, free⟩ := valid_hcreateR large bound
  refine ⟨htab, result, valid, ?_⟩
  intro key data
  simp [free]

end UBoot
