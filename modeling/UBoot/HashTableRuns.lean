import UBoot.HashTableMap

/-!
# Runs of the environment hash table

Calls of `hsearch_r` and `hdelete_r` on a table are compared with calls on a
finite map that has as many places as the table has slots.  Every run of calls
on a new table gives the replies of the finite map.
-/

namespace UBoot

open OpenAddressing

inductive HtabCall
  | enter (key data : CString) (flag : Nat)
  | find (key : CString) (data : Option CString) (flag : Nat)
  | delete (key : CString) (flag : Nat)

inductive HtabReply
  | entered (ok : Bool)
  | found (data : Option CString)
  | deleted (ok : Bool)
  deriving DecidableEq, Repr

/-- A call without `change_ok` function and callbacks, with enough memory. -/
def htabCall (htab : HsearchData) : HtabCall → Option (HtabReply × HsearchData)
  | .enter key data flag => do
      let (result, htab) ← hsearchR .permissive htab key (some data) .enter flag
      return (.entered (result.ret ≠ 0), htab)
  | .find key data flag => do
      let (result, htab) ← hsearchR .permissive htab key data .find flag
      return (.found (result.retval.bind fun idx => (htab.node idx).entry.data), htab)
  | .delete key flag => do
      let (result, htab) ← hdeleteR .permissive htab key flag
      return (.deleted (result = .ok), htab)

def htabRun : List HtabCall → HsearchData → Option (List HtabReply × HsearchData)
  | [], htab => some ([], htab)
  | call :: calls, htab => do
      let (reply, htab) ← htabCall htab call
      let (replies, htab) ← htabRun calls htab
      return (reply :: replies, htab)

def mapCall (places : Nat) (entries : EnvMap) : HtabCall → HtabReply × EnvMap
  | .enter key data _ =>
    if key ∈ entries ∨ entries.keys.card < places then
      (.entered true, entries.insert key data)
    else (.entered false, entries)
  | .find key _ _ => (.found (entries.lookup key), entries)
  | .delete key _ =>
    if key ∈ entries then (.deleted true, entries.erase key)
    else (.deleted false, entries)

def mapRun (places : Nat) : List HtabCall → EnvMap → List HtabReply × EnvMap
  | [], entries => ([], entries)
  | call :: calls, entries =>
    let (reply, entries) := mapCall places entries call
    let (replies, entries) := mapRun places calls entries
    (reply :: replies, entries)

/-- The call replies as on the map and leaves a table that refines what it leaves there. -/
def HtabCall.Simulates (call : HtabCall) (htab : HsearchData) (entries : EnvMap) : Prop :=
  ∃ called, htabCall htab call = some ((mapCall htab.size entries call).1, called) ∧
    called.size = htab.size ∧ called.Refines (mapCall htab.size entries call).2

section Runs

variable {htab : HsearchData} {entries : EnvMap}

theorem htabCall_enter (refines : htab.Refines entries) (key data : CString) (flag : Nat) :
    (HtabCall.enter key data flag).Simulates htab entries := by
  unfold HtabCall.Simulates mapCall
  by_cases fits : key ∈ entries ∨ entries.keys.card < htab.size
  · obtain ⟨result, written, search, success, size, refined⟩ :=
      refines.hsearchR_enter flag data fits
    simp only [if_pos fits]
    exact ⟨written, by simp [htabCall, search, success], size, refined⟩
  · have search := refines.hsearchR_enter_full flag data fits
    simp only [if_neg fits]
    exact ⟨htab, by simp [htabCall, search, HsearchResult.fail], rfl, refines⟩

theorem htabCall_find (refines : htab.Refines entries) (key : CString)
    (data : Option CString) (flag : Nat) :
    htabCall htab (.find key data flag) = some (.found (entries.lookup key), htab) := by
  obtain ⟨result, search, found⟩ := refines.hsearchR_find .permissive key data flag
  simp [htabCall, search, found]

theorem htabCall_delete (refines : htab.Refines entries) (key : CString) (flag : Nat) :
    (HtabCall.delete key flag).Simulates htab entries := by
  unfold HtabCall.Simulates mapCall
  by_cases present : key ∈ entries
  · obtain ⟨value, found⟩ := Finmap.mem_iff.1 present
    obtain ⟨idx, live⟩ := refines.exists_live found
    have result := hdeleteR_of_live refines.valid flag live
    simp only [if_pos present]
    exact ⟨hdeleteSlot htab idx, by simp [htabCall, result], rfl, refines.hdeleteSlot live⟩
  · have result := hdeleteR_of_absent refines.valid .permissive flag (refines.absent present)
    simp only [if_neg present]
    exact ⟨htab, by simp [htabCall, result], rfl, refines⟩

theorem htabCall_refines (refines : htab.Refines entries) (call : HtabCall) :
    call.Simulates htab entries := by
  cases call with
  | enter key data flag => exact htabCall_enter refines key data flag
  | find key data flag => exact ⟨htab, htabCall_find refines key data flag, rfl, refines⟩
  | delete key flag => exact htabCall_delete refines key flag

theorem htabRun_refines (calls : List HtabCall) : ∀ {htab entries}, htab.Refines entries →
      ∃ last, htabRun calls htab = some ((mapRun htab.size calls entries).1, last) ∧
        last.Refines (mapRun htab.size calls entries).2 := by
  induction calls with
  | nil =>
    intro htab entries refines
    exact ⟨htab, rfl, refines⟩
  | cons call calls ih =>
    intro htab entries refines
    obtain ⟨called, result, size, refined⟩ := htabCall_refines refines call
    obtain ⟨last, results, lastRefined⟩ := ih refined
    rw [size] at results lastRefined
    exact ⟨last, by simp [htabRun, mapRun, result, results], lastRefined⟩

theorem HsearchData.Valid.one_slot (valid : htab.Valid) {first second : Nat}
    (firstUsed : 0 < (htab.node first).used) (secondUsed : 0 < (htab.node second).used)
    (sameKey : (htab.node first).entry.key = (htab.node second).entry.key) :
    first = second := by
  obtain ⟨key, data, firstNode, firstLive⟩ := valid.live_of_used firstUsed
  obtain ⟨other, value, secondNode, secondLive⟩ := valid.live_of_used secondUsed
  rw [firstNode, secondNode] at sameKey
  cases sameKey
  exact valid.searchable.unique first second key data value firstLive secondLive

/-- Every run of calls on a new table replies as a finite map with as many places
as the table has slots; the table holds each key at most once and counts its
keys, and every search ends without visiting a slot twice. -/
theorem htabRun_hcreateR {nel : Nat} (large : 2 ≤ nel) (bound : nel < 2 ^ 31) :
    ∃ created, hcreateR nel = some created ∧ ∀ calls, ∃ htab,
      htabRun calls created = some ((mapRun created.size calls ∅).1, htab) ∧
      htab.filled = (mapRun created.size calls ∅).2.keys.card ∧
      (∀ first second, 0 < (htab.node first).used → 0 < (htab.node second).used →
        (htab.node first).entry.key = (htab.node second).entry.key →
        first = second) ∧
      ∀ key, ∃ exit, searchSlot htab key = some exit ∧ exit.visited.Nodup ∧
        ∀ idx ∈ exit.visited, 1 ≤ idx ∧ idx ≤ htab.size := by
  obtain ⟨created, result, refines⟩ := refines_hcreateR large bound
  refine ⟨created, result, fun calls => ?_⟩
  obtain ⟨htab, results, refined⟩ := htabRun_refines calls refines
  refine ⟨htab, results, refined.filled_eq, fun first second => refined.valid.one_slot,
    fun key => ?_⟩
  obtain ⟨exit, search, ends⟩ := exists_searchSlot refined.valid key
  exact ⟨exit, search, ends.visited_nodup refined.valid, fun idx idxMem =>
    Finset.mem_Icc.1 (ends.visited_mem refined.valid idx idxMem)⟩

/-- A table for two elements, with a key entered twice and deleted. -/
theorem htabRun_hcreateR_two : ∃ created, hcreateR 2 = some created ∧ ∃ htab,
      htabRun [.enter [97] [49] 0, .enter [97] [50] 0, .find [97] none 0,
        .delete [97] 0, .find [97] none 0] created =
        some ([.entered true, .entered true, .found (some [50]), .deleted true,
          .found none], htab) ∧
      htab.filled = 0 := by
  obtain ⟨created, result, run⟩ := htabRun_hcreateR (by decide : 2 ≤ 2) (by norm_num)
  have size : created.size = 5 := by
    have known : hcreateR 2 = some ⟨List.replicate 6 ⟨USED_FREE, ⟨none, none⟩⟩, 5, 0⟩ := by decide
    cases result
    rfl
  obtain ⟨htab, results, filled, -⟩ := run [.enter [97] [49] 0, .enter [97] [50] 0,
    .find [97] none 0, .delete [97] 0, .find [97] none 0]
  rw [size] at results filled
  exact ⟨created, result, htab, results, filled⟩

end Runs

end UBoot
