import Mathlib.Data.Nat.Bitwise
import UBoot.Common

/-!
# Page tables of 64-bit ARM

The functions of `arch/arm/cpu/armv8/cache_v8.c` that build the page tables from the
memory map of a board.  A table is a page of 512 entries and is named by its address; its
entries are named by their index.  An access outside of a table and a call of `panic` have
no result.  The numbers of a memory map are below 2^48, so that no sum wraps.
-/

namespace UBoot

structure MmRegion where
  virt : Nat
  phys : Nat
  size : Nat
  attrs : Nat
  deriving DecidableEq, Repr

def PTE_TYPE_MASK : Nat := 3
def PTE_TYPE_FAULT : Nat := 0
def PTE_TYPE_TABLE : Nat := 3
def PTE_TYPE_PAGE : Nat := 3
def PTE_TYPE_BLOCK : Nat := 1
def PTE_BLOCK_AF : Nat := 1 <<< 10

def TCR_T0SZ (vaBits : Nat) : Nat := 64 - vaBits
def TCR_IRGN_WBWA : Nat := 1 <<< 8
def TCR_ORGN_WBWA : Nat := 1 <<< 10
def TCR_SHARED_INNER : Nat := 3 <<< 12
def TCR_TG0_4K : Nat := 0 <<< 14
def TCR_EPD1_DISABLE : Nat := 1 <<< 23
def TCR_EL1_RSVD : Nat := 1 <<< 31
def TCR_EL2_RSVD : Nat := 1 <<< 31 ||| 1 <<< 23
def TCR_EL3_RSVD : Nat := 1 <<< 31 ||| 1 <<< 23

def MAX_PTE_ENTRIES : Nat := 512

/-- The bits `GENMASK_ULL(47, PAGE_SHIFT)` of an address of a page. -/
def ADDRESS_MASK : Nat := (2 ^ 36 - 1) <<< 12

/-! ## The size of the address space -/

def listedRegions (memMap : List MmRegion) : List MmRegion :=
  memMap.takeWhile fun region => region.size ≠ 0 ∨ region.attrs ≠ 0

def mapMaxAddr (memMap : List MmRegion) : Nat :=
  (listedRegions memMap).foldl (fun addr region => max addr (region.virt + region.size)) 0

def ipsVaBits (maxAddr : Nat) : Nat × Nat :=
  if 2 ^ 44 < maxAddr then (5, 48)
  else if 2 ^ 42 < maxAddr then (4, 44)
  else if 2 ^ 40 < maxAddr then (3, 42)
  else if 2 ^ 36 < maxAddr then (2, 40)
  else if 2 ^ 32 < maxAddr then (1, 36)
  else (0, 32)

def vaBits (memMap : List MmRegion) : Nat := (ipsVaBits (mapMaxAddr memMap)).2

def getTcr (el : Nat) (memMap : List MmRegion) : Nat :=
  let ips := (ipsVaBits (mapMaxAddr memMap)).1
  let tcr :=
    if el = 1 then TCR_EL1_RSVD ||| ips <<< 32 ||| TCR_EPD1_DISABLE
    else if el = 2 then TCR_EL2_RSVD ||| ips <<< 16
    else TCR_EL3_RSVD ||| ips <<< 16
  tcr ||| (TCR_TG0_4K ||| TCR_SHARED_INNER ||| TCR_ORGN_WBWA ||| TCR_IRGN_WBWA) |||
    TCR_T0SZ (vaBits memMap)

/-! ## Entries and tables -/

def pteType (pte : Nat) : Nat := pte &&& PTE_TYPE_MASK

def level2shift (level : Nat) : Nat := 12 + 9 * (3 - level)

structure TlbArea where
  tlbAddr : Nat
  tlbSize : Nat

structure PgTables where
  entry : Nat → Nat → Nat
  tlbFillptr : Nat

def PgTables.set (s : PgTables) (table i pte : Nat) : PgTables :=
  { s with entry := Function.update s.entry table (Function.update (s.entry table) i pte) }

section Tables

variable (area : TlbArea)

def createTable (s : PgTables) : Option (Nat × PgTables) :=
  let fillptr := s.tlbFillptr + MAX_PTE_ENTRIES * 8
  if area.tlbSize < fillptr - area.tlbAddr then none
  else some (s.tlbFillptr, ⟨Function.update s.entry s.tlbFillptr fun _ => 0, fillptr⟩)

def setPteTable (table i newTable : Nat) (s : PgTables) : PgTables :=
  s.set table i (PTE_TYPE_TABLE ||| newTable)

def splitPte (oldPte level i : Nat) : Nat :=
  let pte := oldPte ||| i <<< level2shift (level + 1)
  if level + 1 = 3 then pte ||| PTE_TYPE_TABLE else pte

def splitBlock (table i level : Nat) (s : PgTables) : Option PgTables :=
  let oldPte := s.entry table i
  if pteType oldPte ≠ PTE_TYPE_BLOCK then none
  else
    match createTable area s with
    | none => none
    | some (newTable, s) =>
      some (setPteTable table i newTable
        { s with entry := Function.update s.entry newTable (splitPte oldPte level) })

def goDown (table i level : Nat) (s : PgTables) : Option PgTables :=
  if pteType (s.entry table i) = PTE_TYPE_FAULT then
    match createTable area s with
    | none => none
    | some (newTable, s) => some (setPteTable table i newTable s)
  else if pteType (s.entry table i) ≠ PTE_TYPE_TABLE then splitBlock area table i level s
  else some s

/-- The loop of `map_range` over the entries of a table; `down` maps a range in a table of the
next level. -/
def mapLoop (attrs level table : Nat)
    (down : (virt phys size table : Nat) → PgTables → Option PgTables) :
    (rounds i virt phys size : Nat) → PgTables → Option PgTables
  | 0, _, _, _, size, s => if size = 0 then some s else none
  | rounds + 1, i, virt, phys, size, s =>
    let mapSize := 2 ^ level2shift level
    if size = 0 then some s
    else if MAX_PTE_ENTRIES ≤ i then none
    else if 1 ≤ level ∧ mapSize ≤ size ∧ virt &&& (mapSize - 1) = 0 then
      let pte := if level = 3 then phys ||| attrs ||| PTE_TYPE_PAGE else phys ||| attrs
      mapLoop attrs level table down rounds (i + 1) (virt + mapSize) (phys + mapSize)
        (size - mapSize) (s.set table i pte)
    else
      match goDown area table i level s with
      | none => none
      | some s =>
        let nextTable := s.entry table i &&& ADDRESS_MASK
        let nextSize := min (mapSize - (virt &&& (mapSize - 1))) size
        match down virt phys nextSize nextTable s with
        | none => none
        | some s =>
          mapLoop attrs level table down rounds (i + 1) (virt + nextSize) (phys + nextSize)
            (size - nextSize) s

/-- `map_range` at the level `3 - rest`.  A page is never mapped at a lower level. -/
def mapRange (attrs : Nat) : (rest virt phys size table : Nat) → PgTables → Option PgTables
  | 0, virt, phys, size, table, s =>
    mapLoop area attrs 3 table (fun _ _ _ _ _ => none) size
      (virt >>> level2shift 3 &&& (MAX_PTE_ENTRIES - 1)) virt phys size s
  | rest + 1, virt, phys, size, table, s =>
    let level := 3 - (rest + 1)
    mapLoop area attrs level table (mapRange attrs rest) size
      (virt >>> level2shift level &&& (MAX_PTE_ENTRIES - 1)) virt phys size s

def startRest (memMap : List MmRegion) : Nat := 3 - if vaBits memMap < 39 then 1 else 0

def addMap (memMap : List MmRegion) (map : MmRegion) (s : PgTables) : Option PgTables :=
  let attrs := map.attrs ||| PTE_TYPE_BLOCK ||| PTE_BLOCK_AF
  mapRange area attrs (startRest memMap) map.virt map.phys map.size area.tlbAddr s

def addMaps (memMap : List MmRegion) : List MmRegion → PgTables → Option PgTables
  | [], s => some s
  | map :: maps, s =>
    match addMap area memMap map s with
    | none => none
    | some s => addMaps memMap maps s

def setupPgtables (memMap : List MmRegion) (s : PgTables) : Option PgTables :=
  if s.tlbFillptr = 0 ∨ area.tlbAddr = 0 then none
  else
    match createTable area s with
    | none => none
    | some (_, s) => addMaps area memMap (listedRegions memMap) s

end Tables

/-! ## The size of the tables -/

def countLoop (level : Nat) (down : (virt size : Nat) → Nat) : (rounds virt size : Nat) → Nat
  | 0, _, _ => 0
  | rounds + 1, virt, size =>
    let mapSize := 2 ^ level2shift level
    if size = 0 then 0
    else if 1 ≤ level ∧ mapSize ≤ size ∧ virt &&& (mapSize - 1) = 0 then
      countLoop level down rounds (virt + mapSize) (size - mapSize)
    else
      let nextSize := min (mapSize - (virt &&& (mapSize - 1))) size
      1 + down virt nextSize + countLoop level down rounds (virt + nextSize) (size - nextSize)

def countRange : (rest virt size : Nat) → Nat
  | 0, virt, size => countLoop 3 (fun _ _ => 0) size virt size
  | rest + 1, virt, size => countLoop (3 - (rest + 1)) (countRange rest) size virt size

def countRanges (memMap : List MmRegion) : Nat :=
  ((listedRegions memMap).map fun map =>
    countRange (startRest memMap) map.virt map.size).sum

def getPageTableSize (memMap : List MmRegion) : Nat :=
  let onePt := MAX_PTE_ENTRIES * 8
  onePt * countRanges memMap * 2 + onePt * 4

end UBoot
