import Mathlib.Data.Set.Lattice
import Mathlib.Order.CompletePartialOrder
import UBoot.ArmMmu

/-!
# Table walks

The translation of addresses by tables with a granule of 4 KiB, as the architecture has
it, and a predicate that says what a table means: its entries are faults, blocks or
pages, or lead to tables of the next level, each of which belongs to one entry only.
-/

namespace UBoot

open Nat

/-! ## The walk -/

/-- The size of what an entry maps in a table with `rest` levels below it. -/
def blockSize (rest : Nat) : Nat := 2 ^ (12 + 9 * rest)

def ATTRIBUTE_MASK : Nat := 2 ^ 64 - 1 - ADDRESS_MASK - PTE_TYPE_MASK

/-- The output address and the attributes of a block or a page; an entry without the access flag
or with an address that is too large gives a fault. -/
def leafOutput (limit rest pte va : Nat) : Option (Nat × Nat) :=
  if pte &&& PTE_BLOCK_AF = 0 ∨ limit ≤ pte &&& ADDRESS_MASK then none
  else some ((pte &&& ADDRESS_MASK) / blockSize rest * blockSize rest + va % blockSize rest,
    pte &&& ATTRIBUTE_MASK)

/-- The walk from a table with `rest` levels below it, with addresses of tables and outputs
below a limit.  There are no blocks at level 0. -/
def tableWalk (entry : Nat → Nat → Nat) (limit : Nat) :
    (rest table va : Nat) → Option (Nat × Nat)
  | 0, table, va =>
    let pte := entry table (va / blockSize 0 % 512)
    if limit ≤ table then none
    else if pte &&& 3 = 3 then leafOutput limit 0 pte va else none
  | rest + 1, table, va =>
    let pte := entry table (va / blockSize (rest + 1) % 512)
    if limit ≤ table then none
    else if pte &&& 3 = 3 then tableWalk entry limit rest (pte &&& ADDRESS_MASK) va
    else if pte &&& 3 = 1 ∧ rest + 1 ≤ 2 then leafOutput limit (rest + 1) pte va
    else none

/-- The bits of an output address for the field `IPS` or `PS` of `TCR`. -/
def outputBits : (ps : Nat) → Nat
  | 0 => 32
  | 1 => 36
  | 2 => 40
  | 3 => 42
  | 4 => 44
  | _ => 48

/-- The translation of an address at an exception level, with a value of `TCR` and a table
address.  The walk starts at level `4 - ⌈(vaBits - 12) / 9⌉`. -/
def translate (el tcr ttbr : Nat) (entry : Nat → Nat → Nat) (va : Nat) : Option (Nat × Nat) :=
  let vaBits := 64 - (tcr &&& 63)
  let ps := tcr >>> (if el = 1 then 32 else 16) &&& 7
  if 2 ^ vaBits ≤ va then none
  else tableWalk entry (2 ^ outputBits ps) ((vaBits - 12 + 8) / 9 - 1) ttbr va

/-! ## Bits of entries -/

theorem blockSize_pos (rest : Nat) : 0 < blockSize rest := Nat.two_pow_pos _

theorem blockSize_succ (rest : Nat) : blockSize (rest + 1) = 512 * blockSize rest := by
  have exponent : 12 + 9 * (rest + 1) = 9 + (12 + 9 * rest) := by omega
  rw [blockSize, blockSize, exponent, Nat.pow_add]

theorem index_lt {rest i offset : Nat} (inTable : i < 512) (below : offset < blockSize rest) :
    i * blockSize rest + offset < blockSize (rest + 1) := by
  have next : (i + 1) * blockSize rest ≤ 512 * blockSize rest := mul_le_mul_right _ inTable
  rw [Nat.add_mul, Nat.one_mul] at next
  rw [blockSize_succ]
  omega

theorem mod_blockSize_succ (va rest : Nat) : va % blockSize (rest + 1) =
      va / blockSize rest % 512 * blockSize rest + va % blockSize rest := by
  rw [blockSize_succ, Nat.mul_comm 512, mod_mul, Nat.add_comm, Nat.mul_comm]

theorem page_dvd_blockSize (rest : Nat) : 4096 ∣ blockSize rest :=
  Nat.pow_dvd_pow 2 (le_add_right 12 _)

structure PageAddress (addr : Nat) : Prop where
  aligned : 4096 ∣ addr
  below : addr < 2 ^ 48

theorem PageAddress.and_mask {addr : Nat} (page : PageAddress addr) :
    addr &&& ADDRESS_MASK = addr := by
  obtain ⟨number, rfl⟩ := page.aligned
  have below := page.below
  have shifted : 4096 * number = number <<< 12 := by rw [shiftLeft_eq, Nat.mul_comm]
  rw [shifted, ADDRESS_MASK, ← shiftLeft_and_distrib, and_two_pow_sub_one_eq_mod,
    mod_eq_of_lt (by omega)]

theorem PageAddress.and_other {addr mask : Nat} (page : PageAddress addr)
    (apart : ADDRESS_MASK &&& mask = 0) : addr &&& mask = 0 := by
  rw [← page.and_mask, Nat.and_assoc, apart, and_zero]

structure LeafAttrs (attrs : Nat) : Prop where
  address : attrs &&& ADDRESS_MASK = 0
  type : attrs &&& 3 = 1
  access : attrs &&& PTE_BLOCK_AF ≠ 0

def leafEntry (rest phys attrs : Nat) : Nat :=
  if rest = 0 then phys ||| attrs ||| PTE_TYPE_PAGE else phys ||| attrs

section Leaf

variable {rest phys attrs : Nat} (page : PageAddress phys) (proper : LeafAttrs attrs)

include page

theorem leafEntry_attributes :
    leafEntry rest phys attrs &&& ATTRIBUTE_MASK = attrs &&& ATTRIBUTE_MASK := by
  have type : PTE_TYPE_PAGE &&& ATTRIBUTE_MASK = 0 := rfl
  have addr : phys &&& ATTRIBUTE_MASK = 0 := page.and_other rfl
  unfold leafEntry
  split
  · rw [and_or_distrib_right, and_or_distrib_right, addr, type, zero_or, or_zero]
  · rw [and_or_distrib_right, addr, zero_or]

include proper

theorem leafEntry_type : leafEntry rest phys attrs &&& 3 = if rest = 0 then 3 else 1 := by
  have low : phys &&& 3 = 0 := page.and_other rfl
  unfold leafEntry
  split
  · rw [and_or_distrib_right, and_or_distrib_right, low, proper.type]
    rfl
  · rw [and_or_distrib_right, low, proper.type]
    rfl

theorem leafEntry_address : leafEntry rest phys attrs &&& ADDRESS_MASK = phys := by
  have type : PTE_TYPE_PAGE &&& ADDRESS_MASK = 0 := rfl
  unfold leafEntry
  split
  · rw [and_or_distrib_right, and_or_distrib_right, page.and_mask, proper.address, type,
      or_zero, or_zero]
  · rw [and_or_distrib_right, page.and_mask, proper.address, or_zero]

theorem leafEntry_access : leafEntry rest phys attrs &&& PTE_BLOCK_AF ≠ 0 := by
  have type : PTE_TYPE_PAGE &&& PTE_BLOCK_AF = 0 := rfl
  have addr : phys &&& PTE_BLOCK_AF = 0 := page.and_other rfl
  have access := proper.access
  unfold leafEntry
  split
  · rw [and_or_distrib_right, and_or_distrib_right, addr, type, zero_or, or_zero]
    exact access
  · rw [and_or_distrib_right, addr, zero_or]
    exact access

theorem leafOutput_leafEntry (aligned : blockSize rest ∣ phys) {limit : Nat}
    (whole : blockSize rest ∣ limit) (va : Nat) :
    leafOutput limit rest (leafEntry rest phys attrs) va =
      (some (phys + va % blockSize rest, attrs &&& ATTRIBUTE_MASK)).filter (·.1 < limit) := by
  have access : leafEntry rest phys attrs &&& PTE_BLOCK_AF ≠ 0 := leafEntry_access page proper
  have same : phys + va % blockSize rest < limit ↔ phys < limit := by
    have offset : va % blockSize rest < blockSize rest := mod_lt _ (blockSize_pos _)
    obtain ⟨k, rfl⟩ := aligned
    obtain ⟨l, rfl⟩ := whole
    refine ⟨fun lt => by omega, fun lt => ?_⟩
    have next := Nat.mul_le_mul_left (blockSize rest) (Nat.lt_of_mul_lt_mul_left lt)
    rw [Nat.mul_succ] at next
    omega
  rw [leafOutput, leafEntry_address page proper, leafEntry_attributes page,
    Nat.div_mul_cancel aligned, Option.filter_some]
  by_cases below : phys < limit
  · rw [if_neg (by simp [access, below]), if_pos (by simpa [same] using below)]
  · rw [if_pos (.inr (by omega)), if_neg (by simpa [same] using below)]

end Leaf

theorem tableEntry_type {table : Nat} (page : PageAddress table) :
    (PTE_TYPE_TABLE ||| table) &&& 3 = 3 := by
  rw [and_or_distrib_right, page.and_other rfl]
  rfl

theorem tableEntry_address {table : Nat} (page : PageAddress table) :
    (PTE_TYPE_TABLE ||| table) &&& ADDRESS_MASK = table := by
  have type : PTE_TYPE_TABLE &&& ADDRESS_MASK = 0 := rfl
  rw [and_or_distrib_right, page.and_mask, type, zero_or]

/-! ## What tables mean -/

abbrev AddressMap := Nat → Option (Nat × Nat)

/-- The map with a fault for each output address that is too large. -/
def AddressMap.within (f : AddressMap) (limit : Nat) : AddressMap := fun va =>
  (f va).filter (·.1 < limit)

def LeafMeans (rest pte : Nat) (f : AddressMap) : Prop :=
  (pte &&& 3 = 0 ∧ ∀ offset < blockSize rest, f offset = none) ∨
    ∃ phys attrs, rest ≤ 2 ∧ PageAddress phys ∧ blockSize rest ∣ phys ∧
      phys + blockSize rest ≤ 2 ^ 48 ∧ LeafAttrs attrs ∧ pte = leafEntry rest phys attrs ∧
      ∀ offset < blockSize rest, f offset = some (phys + offset, attrs &&& ATTRIBUTE_MASK)

structure Children (means : Nat → Set Nat → AddressMap → Prop) (size : Nat) (entries : Nat → Nat)
    (table : Nat) (tables : Set Nat) (f : AddressMap) (child : Nat → Set Nat) : Prop where
  self : table ∈ tables
  inside : ∀ i, child i ⊆ tables
  notSelf : ∀ i, table ∉ child i
  apart : ∀ i j, i ≠ j → Disjoint (child i) (child j)
  means : ∀ i < 512, means (entries i) (child i) fun offset => f (i * size + offset)

/-- What an entry of a table with `rest` levels below it means. -/
def EntryMeans (entry : Nat → Nat → Nat) : (rest pte : Nat) → Set Nat → AddressMap → Prop
  | 0, pte, _, f => LeafMeans 0 pte f
  | rest + 1, pte, tables, f =>
    LeafMeans (rest + 1) pte f ∨
      ∃ table child, PageAddress table ∧ pte = (PTE_TYPE_TABLE ||| table) ∧
        Children (EntryMeans entry rest) (blockSize rest) (entry table) table tables f child

/-- What a table means. -/
def TableMeans (entry : Nat → Nat → Nat) (rest table : Nat) (tables : Set Nat) (f : AddressMap) :
    Prop :=
  ∃ child, Children (EntryMeans entry rest) (blockSize rest) (entry table) table tables f child

section Meaning

variable {entry entry' : Nat → Nat → Nat} {rest pte table : Nat} {tables : Set Nat}
  {f g : AddressMap}

theorem LeafMeans.congr (means : LeafMeans rest pte f)
    (same : ∀ offset < blockSize rest, f offset = g offset) : LeafMeans rest pte g := by
  rcases means with ⟨fault, nothing⟩ | ⟨phys, attrs, level, page, aligned, fits, proper, eq, maps⟩
  · exact .inl ⟨fault, fun offset below => (same offset below).symm.trans (nothing offset below)⟩
  · exact .inr ⟨phys, attrs, level, page, aligned, fits, proper, eq, fun offset below =>
      (same offset below).symm.trans (maps offset below)⟩

theorem EntryMeans.congr (sameTables : ∀ x ∈ tables, entry' x = entry x) {rest pte : Nat}
    {tables' : Set Nat} {f g : AddressMap} (subset : tables' ⊆ tables)
    (means : EntryMeans entry rest pte tables' f)
    (same : ∀ offset < blockSize rest, f offset = g offset) :
    EntryMeans entry' rest pte tables' g := by
  induction rest generalizing pte tables' f g with
  | zero => exact LeafMeans.congr means same
  | succ rest ih =>
    rcases means with leaf | ⟨table, child, page, isTable, children⟩
    · exact .inl (leaf.congr same)
    refine .inr ⟨table, child, page, isTable, children.self, children.inside, children.notSelf,
      children.apart, ?_⟩
    intro i inTable
    rw [sameTables table (subset children.self)]
    apply ih ((children.inside i).trans subset) (children.means i inTable)
    intro offset below
    exact same _ (index_lt inTable below)

theorem TableMeans.congr (means : TableMeans entry rest table tables f)
    (sameTables : ∀ x ∈ tables, entry' x = entry x)
    (same : ∀ offset < blockSize (rest + 1), f offset = g offset) :
    TableMeans entry' rest table tables g := by
  obtain ⟨child, children⟩ := means
  refine ⟨child, children.self, children.inside, children.notSelf, children.apart, ?_⟩
  intro i inTable
  rw [sameTables table children.self]
  apply EntryMeans.congr sameTables (children.inside i) (children.means i inTable)
  intro offset below
  exact same _ (index_lt inTable below)

variable {limit : Nat} (whole : blockSize 2 ∣ limit)

include whole

theorem LeafMeans.output (means : LeafMeans rest pte f) (va : Nat) :
    (pte &&& 3 = 0 ∧ none = f.within limit (va % blockSize rest)) ∨
      (rest ≤ 2 ∧ (pte &&& 3 = if rest = 0 then 3 else 1) ∧
        leafOutput limit rest pte va = f.within limit (va % blockSize rest)) := by
  have below : va % blockSize rest < blockSize rest := mod_lt _ (blockSize_pos _)
  unfold AddressMap.within
  rcases means with ⟨fault, nothing⟩ | ⟨phys, attrs, level, page, aligned, -, proper, rfl, maps⟩
  · exact .inl ⟨fault, by rw [nothing _ below, Option.filter_none]⟩
  · refine .inr ⟨level, leafEntry_type page proper, ?_⟩
    have part : blockSize rest ∣ blockSize 2 := Nat.pow_dvd_pow 2 (by omega)
    rw [leafOutput_leafEntry page proper aligned (part.trans whole), maps _ below]

theorem TableMeans.tableWalk_eq (va : Nat) {rest table : Nat} {tables : Set Nat} {f : AddressMap}
    (means : TableMeans entry rest table tables f) (inReach : ∀ x ∈ tables, x < limit) :
    tableWalk entry limit rest table va = f.within limit (va % blockSize (rest + 1)) := by
  induction rest generalizing table tables f with
  | zero =>
    obtain ⟨child, children⟩ := means
    rw [tableWalk, mod_blockSize_succ, if_neg (Nat.not_le.2 (inReach _ children.self))]
    rcases LeafMeans.output whole (children.means _ (mod_lt _ (by decide))) va with
      ⟨fault, output⟩ | ⟨-, type, output⟩
    · rw [if_neg (by rw [fault]; decide)]
      exact output
    · rw [if_pos rfl] at type
      rw [if_pos type]
      exact output
  | succ rest ih =>
    obtain ⟨child, children⟩ := means
    rw [tableWalk, mod_blockSize_succ va (rest + 1),
      if_neg (Nat.not_le.2 (inReach _ children.self))]
    rcases children.means _ (mod_lt _ (by decide)) with
      leaf | ⟨next, nextChild, page, pte, nextMeans⟩
    · rcases leaf.output whole va with ⟨fault, output⟩ | ⟨level, type, output⟩
      · rw [if_neg (by rw [fault]; decide), if_neg (by rw [fault]; simp)]
        exact output
      · rw [if_neg (succ_ne_zero rest)] at type
        rw [if_neg (by rw [type]; decide), if_pos ⟨type, level⟩]
        exact output
    · rw [pte, tableEntry_type page, if_pos rfl, tableEntry_address page,
        ih ⟨nextChild, nextMeans⟩ fun x inside => inReach x (children.inside _ inside)]
      rfl

end Meaning

end UBoot
