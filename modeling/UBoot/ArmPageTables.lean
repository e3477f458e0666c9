import Mathlib.Order.Interval.Set.LinearOrder
import UBoot.ArmTableWalk

/-!
# Page tables that implement a memory map

Each step of `map_range` changes what a table means in the range that it maps, and keeps
the rest.  Splitting a block and making a table for a fault change nothing.  New tables
come from the end of the used area, so that they belong to no entry yet.
-/

namespace UBoot

open List Nat Function Set Option MmRegion

/-! ## Maps with a range laid over them -/

variable (f : AddressMap)

def overlay (start size phys attrs : Nat) : AddressMap := fun x =>
  if start ≤ x ∧ x < start + size then some (phys + (x - start), attrs) else f x

theorem overlay_zero (start phys attrs : Nat) : overlay f start 0 phys attrs = f := by
  funext x
  rw [overlay, if_neg (by omega)]

theorem overlay_overlay (start size more phys attrs : Nat) :
    overlay (overlay f start size phys attrs) (start + size) more (phys + size) attrs =
      overlay f start (size + more) phys attrs := by
  funext x
  unfold overlay
  by_cases first : start ≤ x ∧ x < start + size
  · rw [if_neg (by omega), if_pos first, if_pos (by omega)]
  rw [if_neg first]
  by_cases second : start + size ≤ x ∧ x < start + size + more
  · rw [if_pos second, if_pos (by omega)]
    congr 2
    omega
  · rw [if_neg second, if_neg (by omega)]

def replaced (size i : Nat) (g : AddressMap) : AddressMap := fun x =>
  if x / size = i then g (x % size) else f x

theorem replaced_overlay {f : AddressMap} {size i offset length phys attrs : Nat}
    (fits : offset + length ≤ size) (pos : 0 < size) (x : Nat) :
    replaced f size i (overlay (fun y => f (i * size + y)) offset length phys attrs) x =
      overlay f (i * size + offset) length phys attrs x := by
  have split : x / size * size + x % size = x := div_add_mod' x size
  unfold replaced overlay
  by_cases inside : x / size = i
  · rw [if_pos inside]
    rw [inside] at split
    by_cases covered : offset ≤ x % size ∧ x % size < offset + length
    · rw [if_pos covered, if_pos (by omega)]
      congr 2
      omega
    · rw [if_neg covered, if_neg (by omega)]
      exact congrArg f split
  have outside : ¬(i * size + offset ≤ x ∧ x < i * size + offset + length) := by
    rintro ⟨lower, upper⟩
    apply inside
    rw [Nat.div_eq_iff pos]
    constructor
    · omega
    · omega
  rw [if_neg inside, if_neg outside]

theorem replaced_self (size i x : Nat) : replaced f size i (fun y => f (i * size + y)) x = f x := by
  unfold replaced
  split
  case isTrue inside =>
    have split : x / size * size + x % size = x := div_add_mod' x size
    rw [inside] at split
    exact congrArg f split
  case isFalse => rfl

/-! ## Changing an entry -/

variable {f g : AddressMap}

section Replace

variable {entry entry' : Nat → Nat → Nat} {rest table : Nat} {tables own : Set Nat}
  {child : Nat → Set Nat}

theorem Children.replace
    (children : Children (EntryMeans entry rest) (blockSize rest) (entry table) table tables f
    child)
    {i pte : Nat} (changed : entry' table = update (entry table) i pte)
    (kept : ∀ x ∈ tables, x ≠ table → x ∉ child i → entry' x = entry x)
    (means : EntryMeans entry' rest pte own g) (notSelf : table ∉ own)
    (new : ∀ x ∈ own, x ∈ tables → x ∈ child i) :
    Children (EntryMeans entry' rest) (blockSize rest) (entry' table) table (tables ∪ own)
      (replaced f (blockSize rest) i g) (update child i own) := by
  have others : ∀ j, j ≠ i → update child i own j = child j := fun j differs =>
    update_of_ne differs ..
  have disjointOwn : ∀ j, j ≠ i → Disjoint own (child j) := by
    intro j differs
    rw [Set.disjoint_left]
    intro x inOwn inChild
    exact disjoint_left.1 (children.apart i j (Ne.symm differs))
      (new x inOwn (children.inside j inChild)) inChild
  constructor
  case self => exact .inl children.self
  case inside =>
    rw [forall_update_iff child fun _ own' => own' ⊆ tables ∪ own]
    exact ⟨subset_union_right, fun j _ => (children.inside j).trans subset_union_left⟩
  case notSelf =>
    rw [forall_update_iff child fun _ own' => table ∉ own']
    exact ⟨notSelf, fun j _ => children.notSelf j⟩
  case apart =>
    intro j k differ
    by_cases jSame : j = i
    · rw [jSame, update_self, others k (by omega)]
      exact disjointOwn k (by omega)
    rw [others j jSame]
    by_cases kSame : k = i
    · rw [kSame, update_self]
      exact (disjointOwn j jSame).symm
    · rw [others k kSame]
      exact children.apart j k differ
  case means =>
    intro j inTable
    have quotient : ∀ offset < blockSize rest, (j * blockSize rest + offset) / blockSize rest = j ∧
        (j * blockSize rest + offset) % blockSize rest = offset := by
      intro offset below
      rw [mul_comm, mul_add_div (blockSize_pos rest), div_eq_of_lt below,
        mul_add_mod, mod_eq_of_lt below]
      exact ⟨rfl, rfl⟩
    rw [changed]
    by_cases same : j = i
    · subst same
      rw [update_self, update_self]
      apply means.congr (fun _ _ => rfl) subset_rfl
      intro offset below
      rw [replaced, if_pos (quotient offset below).1, (quotient offset below).2]
    rw [update_of_ne same, others j same]
    have keptChild : ∀ x ∈ child j, entry' x = entry x := by
      intro x inChild
      apply kept x (children.inside j inChild)
      · rintro rfl
        exact children.notSelf j inChild
      · exact disjoint_left.1 (children.apart j i same) inChild
    apply (children.means j inTable).congr keptChild subset_rfl
    intro offset below
    rw [replaced, if_neg]
    rw [(quotient offset below).1]
    exact same

theorem TableMeans.mono {more : Set Nat} (means : TableMeans entry rest table tables f)
    (subset : tables ⊆ more) : TableMeans entry rest table more f := by
  obtain ⟨child, children⟩ := means
  exact ⟨child, subset children.self, fun i => (children.inside i).trans subset,
    children.notSelf, children.apart, children.means⟩

theorem TableMeans.entryMeans (means : TableMeans entry rest table tables f)
    (page : PageAddress table) :
    EntryMeans entry (rest + 1) (PTE_TYPE_TABLE ||| table) tables f := by
  obtain ⟨child, children⟩ := means
  exact .inr ⟨table, child, page, rfl, children⟩

theorem TableMeans.setLeaf {s : PgTables} {i pte : Nat}
    (means : TableMeans s.entry rest table tables f) (leaf : LeafMeans rest pte g) :
    TableMeans (s.set table i pte).entry rest table tables (replaced f (blockSize rest) i g) := by
  obtain ⟨child, children⟩ := means
  have entryMeans : EntryMeans (s.set table i pte).entry rest pte ∅ g := by
    cases rest with
    | zero => exact leaf
    | succ rest => exact .inl leaf
  have changed : (s.set table i pte).entry table = update (s.entry table) i pte := update_self ..
  have kept : ∀ x ∈ tables, x ≠ table → x ∉ child i → (s.set table i pte).entry x = s.entry x :=
    fun x _ differs _ => update_of_ne differs ..
  have result := children.replace changed kept entryMeans (notMem_empty _) (by simp)
  rw [union_empty] at result
  exact ⟨_, result⟩

theorem TableMeans.setTable {s s' : PgTables} {i new : Nat}
    (means : TableMeans s.entry (rest + 1) table tables f) (page : PageAddress new)
    (isNew : new ∉ tables)
    (changed : s'.entry table = update (s.entry table) i (PTE_TYPE_TABLE ||| new))
    (kept : ∀ x ∈ tables, x ≠ table → s'.entry x = s.entry x)
    (leaves : ∀ j < 512, LeafMeans rest (s'.entry new j)
      fun offset => f (i * blockSize (rest + 1) + (j * blockSize rest + offset))) :
    TableMeans s'.entry (rest + 1) table (tables ∪ {new}) f := by
  obtain ⟨child, children⟩ := means
  have newMeans : TableMeans s'.entry rest new {new}
      fun offset => f (i * blockSize (rest + 1) + offset) := by
    refine ⟨fun _ => ∅, rfl, by simp, by simp, by simp, ?_⟩
    intro j inTable
    cases rest with
    | zero => exact leaves j inTable
    | succ rest => exact .inl (leaves j inTable)
  have notSelf : table ∉ ({new} : Set Nat) := by
    rintro rfl
    exact isNew children.self
  have result := children.replace changed (fun x inTables differs _ => kept x inTables differs)
    (newMeans.entryMeans page) notSelf (fun x isX inTables => absurd (isX ▸ inTables) isNew)
  exact TableMeans.congr ⟨_, result⟩ (fun _ _ => rfl)
    fun offset _ => replaced_self f (blockSize (rest + 1)) i offset

end Replace

/-! ## New tables -/

structure Grows (s s' : PgTables) (tables : Set Nat) (count : Nat) : Prop where
  atLeast : s.tlbFillptr ≤ s'.tlbFillptr
  atMost : s'.tlbFillptr ≤ s.tlbFillptr + 4096 * count
  aligned : 4096 ∣ s'.tlbFillptr
  kept : ∀ x, x ∉ tables → x < s.tlbFillptr → s'.entry x = s.entry x

def made (s s' : PgTables) : Set Nat := Set.Ico s.tlbFillptr s'.tlbFillptr

theorem Grows.trans {s s' s'' : PgTables} {tables : Set Nat} {count more : Nat}
    (first : Grows s s' tables count) (second : Grows s' s'' (tables ∪ made s s') more) :
    Grows s s'' tables (count + more) := by
  have atLeast := first.atLeast
  have atMost := first.atMost
  have atLeast' := second.atLeast
  have atMost' := second.atMost
  refine ⟨by omega, by omega, second.aligned, ?_⟩
  intro x notIn below
  rw [second.kept x _ (by omega), first.kept x notIn below]
  rintro (inTables | isMade)
  · exact notIn inTables
  · exact absurd isMade.1 (by omega)

theorem made_union {s s' s'' : PgTables} (first : s.tlbFillptr ≤ s'.tlbFillptr)
    (second : s'.tlbFillptr ≤ s''.tlbFillptr) (tables : Set Nat) :
    tables ∪ made s s' ∪ made s' s'' = tables ∪ made s s'' := by
  rw [union_assoc, made, made, made, Set.Ico_union_Ico_eq_Ico first second]

structure TlbArea.Proper (area : TlbArea) : Prop where
  nonzero : area.tlbAddr ≠ 0
  aligned : 4096 ∣ area.tlbAddr
  below : area.tlbAddr + area.tlbSize ≤ 2 ^ 48

structure Room (area : TlbArea) (s : PgTables) (tables : Set Nat) (count : Nat) : Prop where
  aligned : 4096 ∣ s.tlbFillptr
  atLeast : area.tlbAddr ≤ s.tlbFillptr
  fits : s.tlbFillptr + 4096 * count ≤ area.tlbAddr + area.tlbSize
  below : ∀ x ∈ tables, x < s.tlbFillptr

variable {area : TlbArea} {s : PgTables} {tables : Set Nat}

section Down

variable {count rest table i : Nat} {f : AddressMap}

theorem Room.less (room : Room area s tables count) {fewer : Nat} (le : fewer ≤ count) :
    Room area s tables fewer :=
  ⟨room.aligned, room.atLeast, by have fits := room.fits; omega, room.below⟩

theorem Room.after {s' : PgTables} {used : Nat} (room : Room area s tables (used + count))
    (grows : Grows s s' tables used) : Room area s' (tables ∪ made s s') count := by
  have fits := room.fits
  have atMost := grows.atMost
  refine ⟨grows.aligned, room.atLeast.trans grows.atLeast, by omega, ?_⟩
  rintro x (inTables | isMade)
  · exact lt_of_lt_of_le (room.below x inTables) grows.atLeast
  · exact isMade.2

theorem createTable_eq (room : Room area s tables (count + 1)) :
    createTable area s = some (s.tlbFillptr,
      ⟨update s.entry s.tlbFillptr fun _ => 0, s.tlbFillptr + 4096⟩) := by
  have fits := room.fits
  have atLeast := room.atLeast
  have size : MAX_PTE_ENTRIES * 8 = 4096 := rfl
  rw [createTable, size, if_neg (by omega)]

theorem Room.pageAddress (room : Room area s tables (count + 1)) (proper : area.Proper) :
    PageAddress s.tlbFillptr := by
  have fits := room.fits
  have below := proper.below
  exact ⟨room.aligned, by omega⟩

theorem splitPte_leafEntry {phys attrs : Nat} (level : rest + 1 ≤ 2)
    (aligned : blockSize (rest + 1) ∣ phys) (inTable : i < 512) :
    splitPte (leafEntry (rest + 1) phys attrs) (3 - (rest + 1)) i =
      leafEntry rest (phys + i * blockSize rest) attrs := by
  have shift : level2shift (3 - (rest + 1) + 1) = 12 + 9 * rest := by
    unfold level2shift
    omega
  have position : i <<< (12 + 9 * rest) = i * blockSize rest := shiftLeft_eq ..
  have below : i * blockSize rest < blockSize (rest + 1) := by
    have inside : i * blockSize rest + 0 < blockSize (rest + 1) :=
      index_lt inTable (blockSize_pos rest)
    omega
  have sum : phys ||| i * blockSize rest = phys + i * blockSize rest := by
    obtain ⟨number, rfl⟩ := aligned
    exact (two_pow_add_eq_or_of_lt below number).symm
  have both : phys ||| attrs ||| i * blockSize rest = phys + i * blockSize rest ||| attrs := by
    rw [Nat.or_assoc, Nat.or_comm attrs, ← Nat.or_assoc, sum]
  have last : 3 - (rest + 1) + 1 = 3 ↔ rest = 0 := by omega
  unfold splitPte leafEntry
  simp only [shift, position, last, if_neg (succ_ne_zero rest), both]
  rfl

def withTable (s : PgTables) (table i : Nat) (entries : Nat → Nat) : PgTables :=
  setPteTable table i s.tlbFillptr
    ⟨update s.entry s.tlbFillptr entries, s.tlbFillptr + 4096⟩

variable {entries : Nat → Nat}

theorem withTable_parent (differs : table ≠ s.tlbFillptr) :
    (withTable s table i entries).entry table =
      update (s.entry table) i (PTE_TYPE_TABLE ||| s.tlbFillptr) := by
  rw [withTable, setPteTable, PgTables.set]
  simp only [update_self]
  rw [update_of_ne differs]

theorem withTable_new (differs : table ≠ s.tlbFillptr) :
    (withTable s table i entries).entry s.tlbFillptr = entries := by
  rw [withTable, setPteTable, PgTables.set]
  simp only
  rw [update_of_ne differs.symm, update_self]

theorem withTable_other {x : Nat} (notTable : x ≠ table)
    (notNew : x ≠ s.tlbFillptr) : (withTable s table i entries).entry x = s.entry x := by
  rw [withTable, setPteTable, PgTables.set]
  simp only
  rw [update_of_ne notTable, update_of_ne notNew]

variable (proper : area.Proper) (room : Room area s tables (count + 1))
  (means : TableMeans s.entry (rest + 1) table tables f)

include proper room means

theorem withTable_spec (leaves : ∀ j < 512, LeafMeans rest (entries j)
      fun offset => f (i * blockSize (rest + 1) + (j * blockSize rest + offset))) :
    let s' := withTable s table i entries
    TableMeans s'.entry (rest + 1) table (tables ∪ made s s') f ∧
      s'.entry table i &&& 3 = 3 ∧ Grows s s' tables 1 := by
  intro s'
  have page := room.pageAddress proper
  have isNew : s.tlbFillptr ∉ tables := fun inTables => absurd (room.below _ inTables) (by omega)
  have self : table ∈ tables := by
    obtain ⟨child, children⟩ := means
    exact children.self
  have notNew : ∀ x ∈ tables, x ≠ s.tlbFillptr := by
    rintro x inTables rfl
    exact isNew inTables
  have parent : s'.entry table = _ := withTable_parent (notNew table self)
  have fill : s'.tlbFillptr = s.tlbFillptr + 4096 := rfl
  refine ⟨?_, ?_, ?_⟩
  · have result := means.setTable page isNew parent
      (fun x inTables differs => withTable_other differs (notNew x inTables))
      (by rw [withTable_new (notNew table self)]; exact leaves)
    apply result.mono
    apply union_subset_union_right
    rw [singleton_subset_iff]
    exact ⟨le_rfl, by omega⟩
  · rw [parent, update_self, tableEntry_type page]
  · refine ⟨by omega, by omega, ?_, ?_⟩
    · rw [fill]
      exact Nat.dvd_add room.aligned (Nat.dvd_refl 4096)
    · intro x notIn below
      exact withTable_other (fun isTable => notIn (isTable ▸ self)) (by omega)

/-- After `goDown` an entry leads to a table, and the table means what it has meant. -/
theorem goDown_spec (inTable : i < 512) : ∃ s', goDown area table i (3 - (rest + 1)) s = some s' ∧
      TableMeans s'.entry (rest + 1) table (tables ∪ made s s') f ∧
      s'.entry table i &&& 3 = 3 ∧ Grows s s' tables 1 := by
  obtain ⟨child, children⟩ := id means
  rcases children.means i inTable with leaf | ⟨next, nextChild, page, pte, -⟩
  · rcases leaf with
      ⟨fault, nothing⟩ | ⟨phys, attrs, level, page, aligned, fits, proper', pte, maps⟩
    · have isFault : pteType (s.entry table i) = PTE_TYPE_FAULT := fault
      refine ⟨withTable s table i fun _ => 0, ?_, withTable_spec proper room means ?_⟩
      · rw [goDown, if_pos isFault, createTable_eq room]
        rfl
      · intro j inNew
        exact .inl ⟨rfl, fun offset below => nothing _ (index_lt inNew below)⟩
    · have isBlock : pteType (s.entry table i) = PTE_TYPE_BLOCK := by
        rw [pte]
        exact (leafEntry_type page proper').trans (if_neg (succ_ne_zero rest))
      refine ⟨withTable s table i (splitPte (s.entry table i) (3 - (rest + 1))), ?_,
        withTable_spec proper room means ?_⟩
      · rw [goDown, if_neg (by rw [isBlock]; decide), if_pos (by rw [isBlock]; decide), splitBlock,
          if_neg (not_not_intro isBlock), createTable_eq room]
        dsimp only
        rw [update_idem]
        rfl
      intro j inNew
      have inside : j * blockSize rest + blockSize rest ≤ blockSize (rest + 1) := by
        rw [← succ_mul, blockSize_succ]
        exact mul_le_mul_right _ inNew
      have pos := blockSize_pos rest
      rw [pte, splitPte_leafEntry level aligned inNew]
      refine .inr ⟨phys + j * blockSize rest, attrs, by omega, ⟨?_, by omega⟩, ?_, by omega,
        proper', rfl, ?_⟩
      · exact Nat.dvd_add page.aligned (Nat.dvd_trans (page_dvd_blockSize rest)
          (dvd_mul_left _ j))
      · apply Nat.dvd_add _ (Nat.dvd_mul_left _ j)
        rw [blockSize_succ] at aligned
        exact dvd_trans (dvd_mul_left _ 512) aligned
      · intro offset below
        rw [add_assoc]
        exact maps _ (index_lt inNew below)
  · have isTable : pteType (s.entry table i) = PTE_TYPE_TABLE := by
      rw [pte]
      exact tableEntry_type page
    refine ⟨s, ?_, ?_, isTable, le_rfl, by omega, room.aligned, fun _ _ _ => rfl⟩
    · rw [goDown, if_neg (by rw [isTable]; decide), if_neg (not_not_intro isTable)]
    · exact means.mono subset_union_left

end Down

/-! ## Mapping a range -/

structure RangeArgs (virt phys size : Nat) : Prop where
  virtAligned : 4096 ∣ virt
  physAligned : 4096 ∣ phys
  sizeAligned : 4096 ∣ size
  below : phys + size ≤ 2 ^ 48
  congruent : virt % 2 ^ 30 = phys % 2 ^ 30

structure Mapped (s s' : PgTables) (rest table : Nat) (tables : Set Nat) (f : AddressMap)
    (count : Nat) : Prop where
  means : TableMeans s'.entry rest table (tables ∪ made s s') f
  grows : Grows s s' tables count

section Range

variable {s s' s'' : PgTables} {virt phys size rest table i attrs count more start' : Nat}
  {length : Nat}

theorem RangeArgs.shrink (args : RangeArgs virt phys size) (le : length ≤ size)
    (aligned : 4096 ∣ length) : RangeArgs virt phys length :=
  ⟨args.virtAligned, args.physAligned, aligned, by have below := args.below; omega, args.congruent⟩

theorem RangeArgs.advance (args : RangeArgs virt phys size) (le : length ≤ size)
    (aligned : 4096 ∣ length) :
    RangeArgs (virt + length) (phys + length) (size - length) := by
  have below := args.below
  have congruent := args.congruent
  refine ⟨Nat.dvd_add args.virtAligned aligned, Nat.dvd_add args.physAligned aligned,
    dvd_sub args.sizeAligned aligned, by omega, by omega⟩

theorem RangeArgs.phys_dvd (args : RangeArgs virt phys size) (level : rest ≤ 2)
    (aligned : blockSize rest ∣ virt) : blockSize rest ∣ phys := by
  have large : blockSize rest ∣ 2 ^ 30 := pow_dvd_pow 2 (by omega)
  have remainder : blockSize rest ∣ virt % 2 ^ 30 := (dvd_mod_iff large).2 aligned
  rw [args.congruent] at remainder
  exact (dvd_mod_iff large).1 remainder

theorem mapSize_eq (levels : rest ≤ 3) : 2 ^ level2shift (3 - rest) = blockSize rest := by
  have shift : level2shift (3 - rest) = 12 + 9 * rest := by
    unfold level2shift
    omega
  rw [shift, blockSize]

theorem and_blockSize (rest x : Nat) : x &&& (blockSize rest - 1) = x % blockSize rest :=
  and_two_pow_sub_one_eq_mod ..

theorem Mapped.trans (first : Mapped s s' rest table tables f count)
    (second : Mapped s' s'' rest table (tables ∪ made s s') g more) :
    Mapped s s'' rest table tables g (count + more) := by
  have means := second.means
  rw [made_union first.grows.atLeast second.grows.atLeast] at means
  exact ⟨means, first.grows.trans second.grows⟩

theorem mapped_leaf (room : Room area s tables count)
    (means : TableMeans s.entry rest table tables f) (args : RangeArgs virt phys size)
    (proper : LeafAttrs attrs) (level : rest ≤ 2) (large : blockSize rest ≤ size)
    (aligned : blockSize rest ∣ virt) :
    Mapped s (s.set table i (leafEntry rest phys attrs)) rest table tables
      (overlay f (i * blockSize rest) (blockSize rest) phys (attrs &&& ATTRIBUTE_MASK)) 0 := by
  have pos := blockSize_pos rest
  have below := args.below
  have leaf : LeafMeans rest (leafEntry rest phys attrs) (overlay
      (fun y => f (i * blockSize rest + y)) 0 (blockSize rest) phys
      (attrs &&& ATTRIBUTE_MASK)) := by
    refine .inr ⟨phys, attrs, level, ⟨args.physAligned, by omega⟩, args.phys_dvd level aligned,
      by omega, proper, rfl, ?_⟩
    intro offset inside
    rw [overlay, if_pos (by omega), Nat.sub_zero]
  constructor
  · apply TableMeans.mono _ subset_union_left
    apply (means.setLeaf leaf).congr (fun _ _ => rfl)
    intro offset _
    rw [replaced_overlay (by omega) pos, add_zero]
  have self : table ∈ tables := by
    obtain ⟨child, children⟩ := means
    exact children.self
  refine ⟨le_rfl, le_rfl, room.aligned, ?_⟩
  intro x notIn _
  have differs : x ≠ table := by
    rintro rfl
    exact notIn self
  exact update_of_ne differs ..

/-- `map_range` maps a range that lies in one table. -/
def MapSpec (area : TlbArea) (attrs rest : Nat) : Prop :=
  ∀ (virt phys size table : Nat) (s : PgTables) (tables : Set Nat) (f : AddressMap),
    RangeArgs virt phys size → TableMeans s.entry rest table tables f →
    Room area s tables (countRange rest virt size) →
    virt % blockSize (rest + 1) + size ≤ blockSize (rest + 1) →
    ∃ s', mapRange area attrs rest virt phys size table s = some s' ∧ Mapped s s' rest table tables
        (overlay f (virt % blockSize (rest + 1)) size phys (attrs &&& ATTRIBUTE_MASK))
        (countRange rest virt size)

theorem mapped_down (proper : area.Proper) (spec : MapSpec area attrs rest)
    (room : Room area s tables (1 + countRange rest virt size))
    (means : TableMeans s.entry (rest + 1) table tables f) (args : RangeArgs virt phys size)
    (inTable : i < 512)
    (fits : virt % blockSize (rest + 1) + size ≤ blockSize (rest + 1)) :
    ∃ s₁ s₂, goDown area table i (3 - (rest + 1)) s = some s₁ ∧
      mapRange area attrs rest virt phys size (s₁.entry table i &&& ADDRESS_MASK) s₁ = some s₂ ∧
      Mapped s s₂ (rest + 1) table tables
        (overlay f (i * blockSize (rest + 1) + virt % blockSize (rest + 1)) size phys
          (attrs &&& ATTRIBUTE_MASK)) (1 + countRange rest virt size) := by
  obtain ⟨s₁, wentDown, means₁, type, grows₁⟩ :=
    goDown_spec proper (room.less (by omega : 0 + 1 ≤ _)) means inTable
  have room₁ := room.after grows₁
  obtain ⟨child, children⟩ := means₁
  have entryMeans := children.means i inTable
  rcases entryMeans with leaf | ⟨next, nextChild, page, pte, nextChildren⟩
  · exfalso
    rcases leaf.output (dvd_refl _) 0 with ⟨fault, -⟩ | ⟨-, isBlock, -⟩
    · omega
    · rw [if_neg (succ_ne_zero rest)] at isBlock
      omega
  have nextRoom : Room area s₁ (child i) (countRange rest virt size) :=
    ⟨room₁.aligned, room₁.atLeast, room₁.fits, fun x inChild =>
      room₁.below x (children.inside i inChild)⟩
  obtain ⟨s₂, mapped, nextMapped⟩ :=
    spec virt phys size next s₁ (child i) _ args ⟨nextChild, nextChildren⟩ nextRoom fits
  refine ⟨s₁, s₂, wentDown, by rw [pte, tableEntry_address page]; exact mapped, ?_⟩
  have grows₂ := nextMapped.grows
  have sameParent : s₂.entry table = s₁.entry table :=
    grows₂.kept table (children.notSelf i) (room₁.below table children.self)
  have changed : s₂.entry table = update (s₁.entry table) i (PTE_TYPE_TABLE ||| next) := by
    rw [sameParent, ← pte, update_eq_self]
  have notSelf : table ∉ child i ∪ made s₁ s₂ := by
    rintro (inChild | isMade)
    · exact children.notSelf i inChild
    · exact absurd (room₁.below table children.self) (by have lower := isMade.1; omega)
  have result := children.replace changed
    (fun x inTables _ notChild => grows₂.kept x notChild (room₁.below x inTables))
    (nextMapped.means.entryMeans page) notSelf (by
      rintro x (inChild | isMade) inTables
      · exact inChild
      · exact absurd (room₁.below x inTables) (by have lower := isMade.1; omega))
  have grows : Grows s₁ s₂ (tables ∪ made s s₁) (countRange rest virt size) :=
    ⟨grows₂.atLeast, grows₂.atMost, grows₂.aligned, fun x notIn below =>
      grows₂.kept x (fun inChild => notIn (children.inside i inChild)) below⟩
  refine ⟨?_, grows₁.trans grows⟩
  rw [← made_union grows₁.atLeast grows₂.atLeast]
  have merged := TableMeans.congr ⟨_, result⟩ (fun _ _ => rfl) fun offset _ =>
    replaced_overlay fits (blockSize_pos (rest + 1)) offset
  apply merged.mono
  rintro x (inTables | inChild | isMade)
  · exact .inl inTables
  · exact .inl (children.inside i inChild)
  · exact .inr isMade

theorem mapped_nothing (room : Room area s tables count)
    (means : TableMeans s.entry rest table tables f) (start phys attrs : Nat) :
    Mapped s s rest table tables (overlay f start 0 phys attrs) 0 := by
  rw [overlay_zero]
  exact ⟨means.mono subset_union_left, le_rfl, le_rfl, room.aligned, fun _ _ _ => rfl⟩

theorem Mapped.append {start bits : Nat} (le : length ≤ size)
    (next : start' = start + length ∨ size - length = 0)
    (first : Mapped s s' rest table tables (overlay f start length phys bits) count)
    (second : Mapped s' s'' rest table (tables ∪ made s s')
      (overlay (overlay f start length phys bits) start' (size - length) (phys + length)
        bits) more) :
    Mapped s s'' rest table tables (overlay f start size phys bits) (count + more) := by
  have whole := first.trans second
  rcases next with rfl | last
  · rw [overlay_overlay, Nat.add_sub_cancel' le] at whole
    exact whole
  · obtain rfl : length = size := by omega
    rw [last, overlay_zero] at whole
    exact whole

theorem RangeArgs.part (args : RangeArgs virt phys size) (rest : Nat) :
    4096 ∣ min (blockSize rest - virt % blockSize rest) size := by
  have whole := page_dvd_blockSize rest
  have remainder : 4096 ∣ virt % blockSize rest := (dvd_mod_iff whole).2 args.virtAligned
  rcases le_total (blockSize rest - virt % blockSize rest) size with le | le
  · rw [min_eq_left le]
    exact dvd_sub whole remainder
  · rw [min_eq_right le]
    exact args.sizeAligned

theorem RangeArgs.isPage (args : RangeArgs virt phys size) (some : size ≠ 0) :
    1 ≤ 3 ∧ blockSize 0 ≤ size ∧ virt % blockSize 0 = 0 := by
  refine ⟨by decide, le_of_dvd (by omega) args.sizeAligned, ?_⟩
  exact mod_eq_zero_of_dvd args.virtAligned

theorem mapLoop_spec (levels : rest ≤ 3) (leafAttrs : LeafAttrs attrs)
    {down : (virt phys size table : Nat) → PgTables → Option PgTables}
    {countDown : (virt size : Nat) → Nat}
    (descend : ∀ {virt phys size i : Nat} {s : PgTables} {tables : Set Nat} {f : AddressMap},
      rest ≠ 0 → Room area s tables (1 + countDown virt size) →
      TableMeans s.entry rest table tables f → RangeArgs virt phys size → i < 512 →
      virt % blockSize rest + size ≤ blockSize rest →
      ∃ s₁ s₂, goDown area table i (3 - rest) s = some s₁ ∧
        down virt phys size (s₁.entry table i &&& ADDRESS_MASK) s₁ = some s₂ ∧
        Mapped s s₂ rest table tables
          (overlay f (i * blockSize rest + virt % blockSize rest) size phys
            (attrs &&& ATTRIBUTE_MASK)) (1 + countDown virt size)) :
    ∀ (rounds i virt phys size : Nat) (s : PgTables) (tables : Set Nat) (f : AddressMap),
      size ≤ rounds → RangeArgs virt phys size → TableMeans s.entry rest table tables f →
      Room area s tables (countLoop (3 - rest) countDown rounds virt size) →
      (size ≠ 0 → i * blockSize rest + virt % blockSize rest + size ≤ blockSize (rest + 1)) →
      ∃ s', mapLoop area attrs (3 - rest) table down rounds i virt phys size s = some s' ∧
        Mapped s s' rest table tables
          (overlay f (i * blockSize rest + virt % blockSize rest) size phys
            (attrs &&& ATTRIBUTE_MASK)) (countLoop (3 - rest) countDown rounds virt size) := by
  have pos := blockSize_pos rest
  intro rounds
  induction rounds with
  | zero =>
    intro i virt phys size s tables f enough args means room _
    obtain rfl : size = 0 := by omega
    exact ⟨s, rfl, mapped_nothing room means ..⟩
  | succ rounds ih =>
    intro i virt phys size s tables f enough args means room inside
    rw [mapLoop]
    rw [countLoop] at room ⊢
    simp only [mapSize_eq levels, and_blockSize] at room ⊢
    by_cases done : size = 0
    · subst done
      exact ⟨s, rfl, mapped_nothing room means ..⟩
    rw [if_neg done, if_neg done]
    rw [if_neg done] at room
    have fits := inside done
    rw [blockSize_succ] at fits
    have inTable : i < 512 := by
      by_contra outside
      have large : 512 * blockSize rest ≤ i * blockSize rest := mul_le_mul_right _ (by omega)
      omega
    rw [if_neg (by rw [MAX_PTE_ENTRIES]; omega)]
    have next : (i + 1) * blockSize rest = i * blockSize rest + blockSize rest := by
      rw [add_mul, one_mul]
    by_cases isLeaf : 1 ≤ 3 - rest ∧ blockSize rest ≤ size ∧ virt % blockSize rest = 0
    · rw [if_pos isLeaf, if_pos isLeaf]
      rw [if_pos isLeaf] at room
      obtain ⟨level, large, aligned⟩ := isLeaf
      have pte : (if 3 - rest = 3 then phys ||| attrs ||| PTE_TYPE_PAGE else phys ||| attrs) =
          leafEntry rest phys attrs := by
        congr 1
        simp only [eq_iff_iff]
        omega
      have first := mapped_leaf (i := i) room means args leafAttrs (by omega) large
        (dvd_of_mod_eq_zero aligned)
      have aligned' : (virt + blockSize rest) % blockSize rest = 0 := by rw [add_mod_right, aligned]
      have room' := (room.less (le_of_eq (zero_add _))).after first.grows
      obtain ⟨s', result, second⟩ := ih (i + 1) (virt + blockSize rest)
        (phys + blockSize rest) (size - blockSize rest) _ _ _ (by omega)
        (args.advance large (page_dvd_blockSize rest)) first.means room'
        (by rw [blockSize_succ, aligned']; omega)
      refine ⟨s', by rw [pte]; exact result, ?_⟩
      have whole := Mapped.append large (.inl (by rw [aligned']; omega)) first second
      rw [zero_add] at whole
      rw [aligned, add_zero]
      exact whole
    rw [if_neg isLeaf, if_neg isLeaf]
    rw [if_neg isLeaf] at room
    have notLast : rest ≠ 0 := by
      rintro rfl
      exact isLeaf (args.isPage done)
    have remainder := mod_lt virt pos
    have partAligned := args.part rest
    generalize partEq : min (blockSize rest - virt % blockSize rest) size = part
      at room partAligned ⊢
    have partLe : part ≤ size ∧ virt % blockSize rest + part ≤ blockSize rest ∧ 0 < part := by omega
    obtain ⟨s₁, s₂, wentDown, mapped, first⟩ := descend notLast
      (room.less (le_add_right _ _)) means (args.shrink partLe.1 partAligned) inTable
      partLe.2.1
    have start : (i + 1) * blockSize rest + (virt + part) % blockSize rest =
        i * blockSize rest + virt % blockSize rest + part ∨ size - part = 0 := by
      by_cases last : size - part = 0
      · exact .inr last
      have full : virt % blockSize rest + part = blockSize rest := by omega
      have aligned : (virt + part) % blockSize rest = 0 := by rw [← mod_add_mod, full, mod_self]
      omega
    obtain ⟨s', result, second⟩ := ih (i + 1) (virt + part) (phys + part)
      (size - part) s₂ _ _ (by omega) (args.advance partLe.1 partAligned) first.means
      (room.after first.grows) (by rw [blockSize_succ]; omega)
    refine ⟨s', ?_, Mapped.append partLe.1 start first second⟩
    rw [wentDown]
    dsimp only
    rw [mapped]
    exact result

theorem index_eq (levels : rest ≤ 3) (virt : Nat) :
    virt >>> level2shift (3 - rest) &&& (MAX_PTE_ENTRIES - 1) = virt / blockSize rest % 512 := by
  rw [shiftRight_eq_div_pow, mapSize_eq levels]
  exact and_two_pow_sub_one_eq_mod _ 9

theorem mapRange_spec (proper : area.Proper) (leafAttrs : LeafAttrs attrs) :
    ∀ rest ≤ 3, MapSpec area attrs rest := by
  intro rest
  induction rest with
  | zero =>
    intro levels virt phys size table s tables f args means room fits
    rw [mod_blockSize_succ] at fits ⊢
    rw [mapRange, index_eq levels]
    exact mapLoop_spec levels leafAttrs (fun impossible => absurd rfl impossible) size _ virt phys
      size s tables f le_rfl args means room fun _ => fits
  | succ rest ih =>
    intro levels virt phys size table s tables f args means room fits
    rw [mod_blockSize_succ] at fits ⊢
    rw [mapRange, index_eq levels]
    exact mapLoop_spec levels leafAttrs (fun _ room means args inTable fits =>
        mapped_down proper (ih (by omega)) room means args inTable fits)
      size _ virt phys size s tables f le_rfl args means room fun _ => fits

end Range

/-! ## The memory map -/

/-- A region of a memory map: whole pages below 2^48, congruent modulo 1 GiB, with attributes
that leave the address and the type of an entry alone. -/
structure MmRegion.Proper (region : MmRegion) : Prop where
  virtAligned : 4096 ∣ region.virt
  physAligned : 4096 ∣ region.phys
  sizeAligned : 4096 ∣ region.size
  virtBelow : region.virt + region.size ≤ 2 ^ 48
  physBelow : region.phys + region.size ≤ 2 ^ 48
  congruent : region.virt % 2 ^ 30 = region.phys % 2 ^ 30
  attributes : region.attrs &&& (ADDRESS_MASK ||| 2) = 0

def MmRegion.attributes (region : MmRegion) : Nat :=
  (region.attrs ||| PTE_TYPE_BLOCK ||| PTE_BLOCK_AF) &&& ATTRIBUTE_MASK

def MmRegion.covers (region : MmRegion) (va : Nat) : Bool :=
  region.virt ≤ va ∧ va < region.virt + region.size

def memoryMap (regions : List MmRegion) : AddressMap := fun va =>
  (regions.reverse.find? fun region => region.covers va).map fun region =>
    (region.phys + (va - region.virt), region.attributes)

section MemoryMap

variable {memMap regions : List MmRegion} {region : MmRegion}

theorem MmRegion.Proper.rangeArgs (proper : region.Proper) :
    RangeArgs region.virt region.phys region.size :=
  ⟨proper.virtAligned, proper.physAligned, proper.sizeAligned, proper.physBelow, proper.congruent⟩

theorem MmRegion.Proper.leafAttrs (proper : region.Proper) :
    LeafAttrs (region.attrs ||| PTE_TYPE_BLOCK ||| PTE_BLOCK_AF) := by
  have attributes := proper.attributes
  rw [and_or_distrib_left, or_eq_zero_iff] at attributes
  obtain ⟨address, second⟩ := attributes
  have low : region.attrs &&& 3 = region.attrs % 2 := by
    rw [show (3 : Nat) = 2 ||| 1 from rfl, and_or_distrib_left, second, zero_or, and_one_is_mod]
  constructor
  · rw [and_or_distrib_right, and_or_distrib_right, address]
    rfl
  · rw [and_or_distrib_right, and_or_distrib_right, low]
    rcases mod_two_eq_zero_or_one region.attrs with even | odd
    · rw [even]
      rfl
    · rw [odd]
      rfl
  · rw [and_or_distrib_right]
    intro none
    cases (or_eq_zero_iff.1 none).2

theorem foldl_overlay (regions : List MmRegion) (f : AddressMap) (va : Nat) :
    regions.foldl (fun f region =>
        overlay f region.virt region.size region.phys region.attributes) f va =
      (memoryMap regions va).or (f va) := by
  induction regions generalizing f with
  | nil => rfl
  | cons region regions ih =>
    rw [foldl_cons, ih, memoryMap, memoryMap, reverse_cons, find?_append, map_or, Option.or_assoc]
    congr 1
    unfold overlay covers
    by_cases covered : region.virt ≤ va ∧ va < region.virt + region.size
    · simp [covered]
    · simp [covered]

theorem le_mapMaxAddr (member : region ∈ listedRegions memMap) :
    region.virt + region.size ≤ mapMaxAddr memMap := by
  have general : ∀ (regions : List MmRegion) (addr : Nat),
      addr ≤ regions.foldl (fun addr region => max addr (region.virt + region.size)) addr ∧
        ∀ region ∈ regions, region.virt + region.size ≤
          regions.foldl (fun addr region => max addr (region.virt + region.size)) addr := by
    intro regions
    induction regions with
    | nil =>
      intro addr
      exact ⟨le_rfl, by simp⟩
    | cons first regions ih =>
      intro addr
      obtain ⟨base, others⟩ := ih (max addr (first.virt + first.size))
      rw [foldl_cons, forall_mem_cons]
      exact ⟨by omega, by omega, others⟩
  exact (general _ 0).2 region member

theorem mapMaxAddr_le (proper : ∀ region ∈ listedRegions memMap, region.Proper) :
    mapMaxAddr memMap ≤ 2 ^ 48 := by
  have general : ∀ (regions : List MmRegion) (addr : Nat), addr ≤ 2 ^ 48 →
      (∀ region ∈ regions, region.Proper) →
      regions.foldl (fun addr region => max addr (region.virt + region.size)) addr ≤ 2 ^ 48 := by
    intro regions
    induction regions with
    | nil =>
      intro addr below _
      exact below
    | cons first regions ih =>
      intro addr below proper
      rw [forall_mem_cons] at proper
      have virtBelow := proper.1.virtBelow
      exact ih (max addr (first.virt + first.size)) (by omega) proper.2
  exact general _ 0 (by omega) proper

theorem ipsVaBits_cases {addr : Nat} (below : addr ≤ 2 ^ 48) :
    ipsVaBits addr ∈ [(5, 48), (4, 44), (3, 42), (2, 40), (1, 36), (0, 32)] ∧
      addr ≤ 2 ^ (ipsVaBits addr).2 := by
  unfold ipsVaBits
  split_ifs
  all_goals exact ⟨by decide, by dsimp only; omega⟩

theorem vaBits_cases (proper : ∀ region ∈ listedRegions memMap, region.Proper) (el : Nat) :
    64 - (getTcr el memMap &&& 63) = vaBits memMap ∧
      outputBits (getTcr el memMap >>> (if el = 1 then 32 else 16) &&& 7) = vaBits memMap ∧
      mapMaxAddr memMap ≤ 2 ^ vaBits memMap ∧ 30 ≤ vaBits memMap ∧ startRest memMap ≤ 3 ∧
      (vaBits memMap - 12 + 8) / 9 - 1 = startRest memMap ∧
      2 ^ vaBits memMap ≤ blockSize (startRest memMap + 1) := by
  obtain ⟨cases, below⟩ := ipsVaBits_cases (mapMaxAddr_le proper)
  unfold getTcr startRest vaBits
  generalize ipsVaBits (mapMaxAddr memMap) = sizes at cases below ⊢
  simp only [mem_cons, not_mem_nil, or_false] at cases
  refine ⟨?_, ?_, below, ?_⟩
  · split_ifs <;> rcases cases with rfl | rfl | rfl | rfl | rfl | rfl <;> rfl
  · split_ifs <;> rcases cases with rfl | rfl | rfl | rfl | rfl | rfl <;> rfl
  · rcases cases with rfl | rfl | rfl | rfl | rfl | rfl <;> decide

theorem addMaps_spec (proper : area.Proper) (levels : startRest memMap ≤ 3) (maps : List MmRegion)
    (s : PgTables) (tables : Set Nat) (f : AddressMap)
    (regions : ∀ map ∈ maps, map.Proper ∧ map.virt + map.size ≤ blockSize (startRest memMap + 1))
    (means : TableMeans s.entry (startRest memMap) area.tlbAddr tables f)
    (room : Room area s tables
      (maps.map fun map => countRange (startRest memMap) map.virt map.size).sum) :
    ∃ s', addMaps area memMap maps s = some s' ∧ Mapped s s' (startRest memMap) area.tlbAddr tables
      (maps.foldl (fun f map => overlay f map.virt map.size map.phys map.attributes) f)
      (maps.map fun map => countRange (startRest memMap) map.virt map.size).sum := by
  induction maps generalizing s tables f with
  | nil =>
    have nothing := mapped_nothing room means 0 0 0
    exact ⟨s, rfl, nothing⟩
  | cons map maps ih =>
    rw [forall_mem_cons] at regions
    rw [map_cons, sum_cons] at room ⊢
    obtain ⟨⟨mapProper, inside⟩, others⟩ := regions
    have fits : map.virt % blockSize (startRest memMap + 1) + map.size ≤
        blockSize (startRest memMap + 1) := by
      have le := mod_le map.virt (blockSize (startRest memMap + 1))
      omega
    obtain ⟨s₁, result, first⟩ := mapRange_spec proper mapProper.leafAttrs _ levels map.virt
      map.phys map.size area.tlbAddr s tables f mapProper.rangeArgs means
      (room.less (le_add_right _ _)) fits
    have start : overlay f (map.virt % blockSize (startRest memMap + 1)) map.size map.phys
        map.attributes = overlay f map.virt map.size map.phys map.attributes := by
      by_cases empty : map.size = 0
      · rw [empty, overlay_zero, overlay_zero]
      · rw [mod_eq_of_lt (by omega)]
    rw [attributes] at start
    rw [start] at first
    obtain ⟨s₂, rest, second⟩ := ih s₁ _ _ others first.means (room.after first.grows)
    refine ⟨s₂, ?_, first.trans second⟩
    rw [addMaps, addMap, result]
    exact rest

theorem tableMeans_root (entry : Nat → Nat → Nat) (rest table : Nat) :
    TableMeans (update entry table fun _ => 0) rest table {table} fun _ => none := by
  refine ⟨fun _ => ∅, rfl, by simp, by simp, by simp, ?_⟩
  intro i _
  rw [update_self]
  have leaf : LeafMeans rest 0 fun _ => none := .inl ⟨rfl, fun _ _ => rfl⟩
  cases rest with
  | zero => exact leaf
  | succ rest => exact .inl leaf

end MemoryMap

/-- After `setup_pgtables`, which returns if the area has the size of `get_page_table_size`, a
table walk maps each address as the last region that covers it asks for, and gives a fault for
an address that no region covers, exactly if the addresses that the regions ask for are below
the largest one that `TCR` allows; the area has to be as well. -/
theorem setupPgtables_implements {area : TlbArea} (proper : area.Proper) {memMap : List MmRegion}
    (regions : ∀ region ∈ listedRegions memMap, region.Proper)
    (large : getPageTableSize memMap ≤ area.tlbSize)
    (inReach : area.tlbAddr + area.tlbSize ≤ 2 ^ vaBits memMap) {s : PgTables}
    (reset : s.tlbFillptr = area.tlbAddr) :
    ∃ s', setupPgtables area memMap s = some s' ∧
      ((∀ el va, translate el (getTcr el memMap) area.tlbAddr s'.entry va =
          memoryMap (listedRegions memMap) va) ↔
        ∀ va output, memoryMap (listedRegions memMap) va = some output →
          output.1 < 2 ^ vaBits memMap) := by
  have nonzero := proper.nonzero
  have size : getPageTableSize memMap = 4096 * countRanges memMap * 2 + 4096 * 4 := rfl
  have room : Room area s ∅ (countRanges memMap + 1) :=
    ⟨reset ▸ proper.aligned, by omega, by omega, by simp⟩
  let first : PgTables :=
    ⟨update s.entry s.tlbFillptr fun _ => 0, s.tlbFillptr + 4096⟩
  have firstRoom : Room area first {area.tlbAddr} (countRanges memMap) := by
    have fill : first.tlbFillptr = area.tlbAddr + 4096 := congrArg (· + 4096) reset
    refine ⟨?_, by omega, by omega, ?_⟩
    · rw [fill]
      exact Nat.dvd_add proper.aligned (Nat.dvd_refl 4096)
    · rintro x rfl
      omega
  obtain ⟨-, -, below, wide, levels, -, large⟩ := vaBits_cases regions 0
  obtain ⟨s', result, mapped⟩ := addMaps_spec proper levels (listedRegions memMap) first
    {area.tlbAddr} (fun _ => none)
    (fun region member => ⟨regions region member, by have le := le_mapMaxAddr member; omega⟩)
    (reset ▸ tableMeans_root s.entry (startRest memMap) s.tlbFillptr) firstRoom
  refine ⟨s', ?_, ?_⟩
  · rw [setupPgtables, if_neg (by omega), createTable_eq room]
    exact result
  have reach : ∀ x ∈ {area.tlbAddr} ∪ made first s', x < 2 ^ vaBits memMap := by
    intro x isTable
    have grown : Room area _ _ 0 := firstRoom.after mapped.grows
    have before := grown.below x isTable
    have fits := grown.fits
    omega
  have walks : ∀ el va, translate el (getTcr el memMap) area.tlbAddr s'.entry va =
      (memoryMap (listedRegions memMap)).within (2 ^ vaBits memMap) va := by
    intro el va
    obtain ⟨bits, outputs, -, -, -, start, -⟩ := vaBits_cases regions el
    rw [translate, bits, outputs, start]
    by_cases outside : 2 ^ vaBits memMap ≤ va
    · have uncovered : (listedRegions memMap).reverse.find? (fun region => region.covers va) =
          none := by
        rw [find?_eq_none]
        intro region member
        have le := le_mapMaxAddr (mem_reverse.1 member)
        simp only [covers, decide_eq_true_eq]
        omega
      rw [if_pos outside, AddressMap.within, memoryMap, uncovered, map_none, filter_none]
    · rw [if_neg outside, mapped.means.tableWalk_eq (Nat.pow_dvd_pow 2 wide) va reach,
        AddressMap.within, mod_eq_of_lt (by omega), foldl_overlay, or_none, AddressMap.within]
  constructor
  · intro implements va output asked
    have allowed := (implements 0 va).symm.trans (walks 0 va)
    rw [AddressMap.within, asked] at allowed
    simpa using (Option.filter_eq_some_iff.1 allowed.symm).2
  · intro allowed el va
    rw [walks, AddressMap.within]
    cases asked : memoryMap (listedRegions memMap) va with
    | none => rfl
    | some output => simp [allowed va output asked]

def sampleMemMap : List MmRegion :=
  [⟨0x40000000, 0x40000000, 0x40000000, 0x710⟩, ⟨0x40201000, 0x80201000, 0x1000, 0x300⟩,
    ⟨0, 0, 0, 0⟩]

theorem memoryMap_lt {regions : List MmRegion} {limit : Nat}
    (below : ∀ region ∈ regions, region.phys + region.size ≤ limit) {va : Nat}
    {output : Nat × Nat} (asked : memoryMap regions va = some output) : output.1 < limit := by
  obtain ⟨region, found, rfl⟩ := Option.map_eq_some_iff.1 asked
  have covers := find?_some found
  have fits := below region (mem_reverse.1 (mem_of_find?_eq_some found))
  simp only [MmRegion.covers, decide_eq_true_eq] at covers
  dsimp only
  omega

/-- The page is split off the block of the region. -/
theorem setupPgtables_implements_sample :
    ∃ s', setupPgtables ⟨0x10000, 0x20000⟩ sampleMemMap ⟨fun _ _ => 0, 0x10000⟩ = some s' ∧
      translate 2 (getTcr 2 sampleMemMap) 0x10000 s'.entry 0x40200fff = some (0x40200fff, 0x710) ∧
      translate 2 (getTcr 2 sampleMemMap) 0x10000 s'.entry 0x40201004 = some (0x80201004, 0x700) ∧
      translate 2 (getTcr 2 sampleMemMap) 0x10000 s'.entry 0x80000000 = none := by
  have listed : listedRegions sampleMemMap = [⟨0x40000000, 0x40000000, 0x40000000, 0x710⟩,
      ⟨0x40201000, 0x80201000, 0x1000, 0x300⟩] := by decide
  have regions : ∀ region ∈ listedRegions sampleMemMap, region.Proper := by
    rw [listed, forall_mem_cons, forall_mem_singleton]
    refine ⟨⟨?_, ?_, ?_, ?_, ?_, ?_, ?_⟩, ⟨?_, ?_, ?_, ?_, ?_, ?_, ?_⟩⟩
    all_goals decide
  have area : (⟨0x10000, 0x20000⟩ : TlbArea).Proper := ⟨by decide, by decide, by decide⟩
  obtain ⟨s', result, implements⟩ := setupPgtables_implements area regions (by decide) (by decide)
    (s := ⟨fun _ _ => 0, 0x10000⟩) rfl
  have translates := implements.2 fun va output => memoryMap_lt (by rw [listed]; decide)
  refine ⟨s', result, ?_, ?_, ?_⟩
  · rw [translates]
    decide
  · rw [translates]
    decide
  · rw [translates]
    decide

/-- A page at 64 GiB is asked for at an address below 4 GiB, and every access to it is a
fault. -/
theorem setupPgtables_output_size :
    let memMap : List MmRegion := [⟨0x40000000, 0x1000000000, 0x1000, 0x700⟩, ⟨0, 0, 0, 0⟩]
    memoryMap (listedRegions memMap) 0x40000000 = some (0x1000000000, 0x700) ∧
      (setupPgtables ⟨0x10000, 0x20000⟩ memMap ⟨fun _ _ => 0, 0x10000⟩).map
        (fun s' => translate 1 (getTcr 1 memMap) 0x10000 s'.entry 0x40000000) = some none := by
  decide +kernel

end UBoot
