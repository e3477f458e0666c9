import Mathlib.Data.Nat.ModEq
import Mathlib.Order.Interval.Finset.Nat
import Mathlib.Tactic.Ring

/-!
# Open addressing with double hashing

A hash table with open addressing keeps its entries in numbered slots and looks
for a key along a sequence of slots that the key determines.  Walking
backwards around the slots `1 .. size` in steps coprime to `size` visits every
slot once, and entries stay reachable along their sequences
when slots are filled, overwritten or marked as deleted.
-/

namespace UBoot

open Function Finset

namespace OpenAddressing

section Walk

variable {size step start : Nat}

/-- The slot after `index` on a walk around `1 .. size` backwards. -/
def nextIndex (size step index : Nat) : Nat :=
  if index ≤ step then size + index - step else index - step

/-- The slot that a walk from `start` reaches after `count` steps. -/
def probe (size step start count : Nat) : Nat := (nextIndex size step)^[count] start

@[simp]
theorem probe_zero : probe size step start 0 = start := rfl

theorem probe_succ (count : Nat) : probe size step start (count + 1) =
      nextIndex size step (probe size step start count) :=
  iterate_succ_apply' _ _ _

variable (stepLt : step < size)

include stepLt

theorem nextIndex_mem (stepPos : 0 < step) {index : Nat} (indexMem : index ∈ Finset.Icc 1 size) :
    nextIndex size step index ∈ Finset.Icc 1 size := by
  rw [mem_Icc] at indexMem ⊢
  unfold nextIndex
  split_ifs <;> omega

theorem nextIndex_modEq (index : Nat) : nextIndex size step index + step ≡ index [MOD size] := by
  unfold nextIndex
  split_ifs with wraps
  · have sum : size + index - step + step = size + index := by omega
    rw [sum]
    exact Nat.add_modEq_left
  · have sum : index - step + step = index := by omega
    rw [sum]

theorem probe_mem (stepPos : 0 < step) (startMem : start ∈ Finset.Icc 1 size) (count : Nat) :
    probe size step start count ∈ Finset.Icc 1 size := by
  induction count with
  | zero => exact startMem
  | succ count ih =>
    rw [probe_succ]
    exact nextIndex_mem stepLt stepPos ih

theorem probe_modEq (start : Nat) (count : Nat) :
    probe size step start count + count * step ≡ start [MOD size] := by
  induction count with
  | zero => simp [Nat.ModEq]
  | succ count ih =>
    have next := nextIndex_modEq stepLt (probe size step start count)
    have sum : probe size step start (count + 1) + (count + 1) * step =
        nextIndex size step (probe size step start count) + step + count * step := by
      rw [probe_succ]
      ring
    rw [sum]
    exact (next.add_right _).trans ih

theorem probe_injective (coprime : Nat.Coprime size step) {first second : Nat}
    (firstLt : first < size) (secondLt : second < size)
    (same : probe size step start first = probe size step start second) : first = second := by
  have firstSum := probe_modEq stepLt start first
  have secondSum := probe_modEq stepLt start second
  rw [same] at firstSum
  have products : first * step ≡ second * step [MOD size] :=
    Nat.ModEq.add_left_cancel' _ (firstSum.trans secondSum.symm)
  have residues := Nat.ModEq.cancel_right_of_coprime coprime products
  exact residues.eq_of_lt_of_lt firstLt secondLt

theorem exists_probe_eq (stepPos : 0 < step) (coprime : Nat.Coprime size step)
    (startMem : start ∈ Finset.Icc 1 size) {index : Nat} (indexMem : index ∈ Finset.Icc 1 size) :
    ∃ count < size, probe size step start count = index := by
  have inside : (range size).image (probe size step start) ⊆ Finset.Icc 1 size := by
    intro slot slotMem
    obtain ⟨count, -, rfl⟩ := mem_image.1 slotMem
    exact probe_mem stepLt stepPos startMem count
  have distinct : Set.InjOn (probe size step start) (range size) := by
    intro first firstMem second secondMem same
    exact probe_injective stepLt coprime (by simpa using firstMem) (by simpa using secondMem) same
  have full : (range size).image (probe size step start) = Finset.Icc 1 size := by
    apply eq_of_subset_of_card_le inside
    rw [card_image_of_injOn distinct]
    simp
  rw [← full] at indexMem
  obtain ⟨count, countMem, reached⟩ := mem_image.1 indexMem
  exact ⟨count, mem_range.1 countMem, reached⟩

theorem probe_size (stepPos : 0 < step) (coprime : Nat.Coprime size step)
    (startMem : start ∈ Finset.Icc 1 size) : probe size step start size = start := by
  obtain ⟨count, countLt, reached⟩ := exists_probe_eq stepLt stepPos coprime
    startMem (probe_mem stepLt stepPos startMem size)
  have countSum := probe_modEq stepLt start count
  have sizeSum := probe_modEq stepLt start size
  rw [reached] at countSum
  have products : count * step ≡ size * step [MOD size] :=
    Nat.ModEq.add_left_cancel' _ (countSum.trans sizeSum.symm)
  have residues : count ≡ size [MOD size] := Nat.ModEq.cancel_right_of_coprime coprime products
  have zero : count ≡ 0 [MOD size] := residues.trans (by simp [Nat.ModEq])
  have countZero : count = 0 := zero.eq_of_lt_of_lt countLt (by omega)
  rw [← reached, countZero, probe_zero]

end Walk

inductive Slot (Key Value : Type*)
  | free
  | deleted
  | live (key : Key) (value : Value)

section Slots

variable {Key Value : Type*} {order : Key → Nat → Nat} {size : Nat}
  {slots : Nat → Slot Key Value} {key : Key} {value : Value} {index count : Nat}

/-- A search for the key passes over the first `count` slots of its order
without meeting a free one. -/
def Unbroken (order : Key → Nat → Nat) (slots : Nat → Slot Key Value) (key : Key)
    (count : Nat) : Prop :=
  ∀ earlier < count, slots (order key earlier) ≠ .free

/-- Every entry can be reached along the order of its key, and no key has two
entries. -/
structure Searchable (order : Key → Nat → Nat) (size : Nat)
    (slots : Nat → Slot Key Value) : Prop where
  reachable : ∀ index key value, slots index = .live key value →
    ∃ count < size, order key count = index ∧ Unbroken order slots key count
  unique : ∀ first second key value other, slots first = .live key value →
    slots second = .live key other → first = second

theorem Searchable.of_free (allFree : ∀ index, slots index = .free) : Searchable order size slots :=
  ⟨by simp [allFree], by simp [allFree]⟩

section Searchable

variable (searchable : Searchable order size slots)

include searchable

theorem Searchable.absent
    (passed : ∀ earlier < count, ∀ value, slots (order key earlier) ≠ .live key value)
    (stopped : count = size ∨ slots (order key count) = .free) :
    ∀ index value, slots index ≠ .live key value := by
  intro index value entry
  obtain ⟨reached, reachedLt, located, unbroken⟩ := searchable.reachable index key value entry
  rcases Nat.lt_trichotomy reached count with before | same | after
  · exact passed reached before value (located ▸ entry)
  · subst same
    rcases stopped with all | free
    · omega
    · rw [located, entry] at free
      cases free
  · rcases stopped with all | free
    · omega
    · exact unbroken count after free

/-- Writing a slot keeps a table searchable if the slot does not become free
and an entry that it receives is reachable and new. -/
theorem Searchable.update {slot : Slot Key Value} (occupied : slot ≠ .free)
    (placed : ∀ key value, slot = .live key value →
      (∃ count < size, order key count = index ∧ Unbroken order slots key count) ∧
        ∀ other value, slots other = .live key value → other = index) :
    Searchable order size (Function.update slots index slot) := by
  have keeps : ∀ key count, Unbroken order slots key count →
      Unbroken order (Function.update slots index slot) key count := by
    intro key count unbroken earlier earlierLt
    by_cases here : order key earlier = index
    · rw [here, update_self]
      exact occupied
    · rw [update_of_ne here]
      exact unbroken earlier earlierLt
  constructor
  · intro other key value entry
    by_cases here : other = index
    · subst here
      rw [update_self] at entry
      obtain ⟨⟨count, countLt, located, unbroken⟩, -⟩ := placed key value entry
      exact ⟨count, countLt, located, keeps key count unbroken⟩
    · rw [update_of_ne here] at entry
      obtain ⟨count, countLt, located, unbroken⟩ := searchable.reachable other key value entry
      exact ⟨count, countLt, located, keeps key count unbroken⟩
  intro first second key value other firstEntry secondEntry
  by_cases firstHere : first = index
  · by_cases secondHere : second = index
    · rw [firstHere, secondHere]
    · rw [firstHere, update_self] at firstEntry
      rw [update_of_ne secondHere] at secondEntry
      exact absurd ((placed key value firstEntry).2 second other secondEntry) secondHere
  rw [update_of_ne firstHere] at firstEntry
  by_cases secondHere : second = index
  · rw [secondHere, update_self] at secondEntry
    exact absurd ((placed key other secondEntry).2 first value firstEntry)
      firstHere
  · rw [update_of_ne secondHere] at secondEntry
    exact searchable.unique first second key value other firstEntry secondEntry

theorem Searchable.insert (countLt : count < size) (unbroken : Unbroken order slots key count)
    (absent : ∀ index value, slots index ≠ .live key value) (value : Value) : Searchable order size
      (Function.update slots (order key count) (.live key value)) := by
  apply searchable.update (by simp)
  intro other _ entry
  cases entry
  exact ⟨⟨count, countLt, rfl, unbroken⟩,
    fun other value entry => absurd entry (absent other value)⟩

theorem Searchable.overwrite {old : Value} (entry : slots index = .live key old) (value : Value) :
    Searchable order size (Function.update slots index (.live key value)) := by
  apply searchable.update (by simp)
  intro other _ written
  cases written
  exact ⟨searchable.reachable index key old entry, fun other value found =>
    searchable.unique other index key value old found entry⟩

theorem Searchable.delete (index : Nat) :
    Searchable order size (Function.update slots index .deleted) :=
  searchable.update (by simp) (by simp)

end Searchable

def Slot.isLive : Slot Key Value → Bool
  | .live _ _ => true
  | _ => false

theorem Slot.isLive_iff {slot : Slot Key Value} :
    slot.isLive = true ↔ ∃ key value, slot = .live key value := by cases slot <;> simp [Slot.isLive]

/-- The slots of `1 .. size` that hold an entry. -/
def liveSlots (size : Nat) (slots : Nat → Slot Key Value) : Finset Nat :=
  {index ∈ Finset.Icc 1 size | (slots index).isLive}

theorem mem_liveSlots {size : Nat} : index ∈ liveSlots size slots ↔
      index ∈ Finset.Icc 1 size ∧ (slots index).isLive = true := by simp [liveSlots]

theorem card_liveSlots_le : (liveSlots size slots).card ≤ size := by
  have bound := card_filter_le (Finset.Icc 1 size)
    fun index => (slots index).isLive = true
  simpa [liveSlots] using bound

theorem liveSlots_update_live (indexMem : index ∈ Finset.Icc 1 size) (key : Key) (value : Value) :
    liveSlots size (update slots index (.live key value)) =
      insert index (liveSlots size slots) := by
  ext other
  by_cases here : other = index
  · subst here
    simpa [mem_liveSlots, Slot.isLive] using indexMem
  · simp [mem_liveSlots, here]

theorem liveSlots_update_deleted (index : Nat) :
    liveSlots size (update slots index .deleted) = (liveSlots size slots).erase index := by
  ext other
  by_cases here : other = index
  · subst here
    simp [mem_liveSlots, Slot.isLive]
  · simp [mem_liveSlots, here]

def Stores (slots : Nat → Slot Key Value) (entries : Key → Option Value) : Prop :=
  ∀ key value, entries key = some value ↔ ∃ index, slots index = .live key value

variable {entries : Key → Option Value} (stores : Stores slots entries)

include stores

theorem Stores.absent (none : entries key = none) :
    ∀ index value, slots index ≠ .live key value := by
  intro index value live
  have present := (stores key value).2 ⟨index, live⟩
  rw [none] at present
  cases present

theorem Stores.card_liveSlots (searchable : Searchable order size slots)
    (inside : ∀ index key value, slots index = .live key value → index ∈ Finset.Icc 1 size)
    {keys : Finset Key} (keysEq : ∀ key, key ∈ keys ↔ ∃ value, entries key = some value) :
    (liveSlots size slots).card = keys.card := by
  have keyOf : ∀ key, key ∈ keys → ∃ index value, slots index = .live key value := by
    intro key keyMem
    obtain ⟨value, present⟩ := (keysEq key).1 keyMem
    obtain ⟨index, live⟩ := (stores key value).1 present
    exact ⟨index, value, live⟩
  choose! slotOf valueOf live using keyOf
  symm
  apply card_nbij slotOf
  · intro key keyMem
    rw [mem_coe, mem_liveSlots, live key keyMem]
    exact ⟨inside _ _ _ (live key keyMem), rfl⟩
  · intro first firstMem second secondMem same
    have firstLive := live first firstMem
    rw [show slotOf first = slotOf second from same, live second secondMem] at firstLive
    exact (Slot.live.inj firstLive).1.symm
  intro index indexMem
  obtain ⟨-, isLive⟩ := mem_liveSlots.1 indexMem
  obtain ⟨key, value, here⟩ := Slot.isLive_iff.1 isLive
  have keyMem : key ∈ keys := (keysEq key).2 ⟨value, (stores key value).2 ⟨index, here⟩⟩
  exact ⟨key, keyMem, searchable.unique _ _ key _ value (live key keyMem) here⟩

variable [DecidableEq Key]

/-- Writing a slot changes the entry of one key, if no other slot has an entry of
the key and the slot had no entry of another key. -/
theorem Stores.update {slot : Slot Key Value} {written : Option Value}
    (slotEq : ∀ other value, slot = .live other value ↔ other = key ∧ written = some value)
    (onlyHere : ∀ other value, slots other = .live key value → other = index)
    (noOther : ∀ other value, slots index = .live other value → other = key) :
    Stores (update slots index slot) (update entries key written) := by
  intro other value
  by_cases same : other = key
  · subst same
    rw [update_self]
    constructor
    · intro present
      exact ⟨index, by rw [update_self]; exact (slotEq _ _).2 ⟨rfl, present⟩⟩
    rintro ⟨found, live⟩
    by_cases here : found = index
    · rw [here, update_self] at live
      exact ((slotEq _ _).1 live).2
    · rw [update_of_ne here] at live
      exact absurd (onlyHere found value live) here
  rw [update_of_ne same, stores other value]
  constructor
  · rintro ⟨found, live⟩
    have elsewhere : found ≠ index := by
      rintro rfl
      exact same (noOther other value live)
    exact ⟨found, by rw [update_of_ne elsewhere, live]⟩
  rintro ⟨found, live⟩
  by_cases here : found = index
  · rw [here, update_self] at live
    exact absurd ((slotEq _ _).1 live).1 same
  · rw [update_of_ne here] at live
    exact ⟨found, live⟩

theorem Stores.insert (vacant : (slots index).isLive = false)
    (absent : ∀ index value, slots index ≠ .live key value) (value : Value) :
    Stores (Function.update slots index (.live key value))
      (Function.update entries key (some value)) := by
  apply stores.update
  · intro other found
    simp [eq_comm]
  · intro other found live
    exact absurd live (absent other found)
  · intro other found live
    rw [live] at vacant
    cases vacant

theorem Stores.overwrite (searchable : Searchable order size slots) {old : Value}
    (entry : slots index = .live key old) (value : Value) :
    Stores (Function.update slots index (.live key value))
      (Function.update entries key (some value)) := by
  apply stores.update
  · intro other found
    simp [eq_comm]
  · intro other found live
    exact searchable.unique other index key found old live entry
  · intro other found live
    rw [entry] at live
    exact (Slot.live.inj live).1.symm

theorem Stores.delete (searchable : Searchable order size slots)
    (entry : slots index = .live key value) :
    Stores (Function.update slots index .deleted) (Function.update entries key none) := by
  apply stores.update
  · intro other found
    simp
  · intro other found live
    exact searchable.unique other index key found value live entry
  · intro other found live
    rw [entry] at live
    exact (Slot.live.inj live).1.symm

end Slots

end OpenAddressing

end UBoot
