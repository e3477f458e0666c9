import UBoot.ByteMemory

/-!
# Reading flattened device trees

The read-only part of `libfdt` that walks the structure block, built without any
assumption about the tree.  A blob is a memory that starts with the header.  The
length of a property can lead a walk back to the same property, so the functions
that walk from property to property or from node to node take a number of rounds
and have no answer if that number is not enough.
-/

namespace UBoot

def FDT_ERR_NOTFOUND : Int := 1

def FDT_ERR_NOSPACE : Int := 3

def FDT_ERR_BADOFFSET : Int := 4

def FDT_ERR_BADSTATE : Int := 7

def FDT_ERR_TRUNCATED : Int := 8

def FDT_ERR_BADMAGIC : Int := 9

def FDT_ERR_BADVERSION : Int := 10

def FDT_ERR_BADSTRUCTURE : Int := 11

def FDT_ERR_BADLAYOUT : Int := 12

def FDT_ERR_INTERNAL : Int := 13

/-! ## The header -/

def FDT_MAGIC : Nat := 0xd00dfeed

def FDT_SW_MAGIC : Nat := 0x2ff20112

def FDT_FIRST_SUPPORTED_VERSION : Nat := 0x02

def FDT_LAST_SUPPORTED_VERSION : Nat := 0x11

def FDT_TAGSIZE : Nat := 4

section Header

variable (fdt : Memory)

def fdtMagic : Nat := fdt.readBE 0 4

def fdtTotalsize : Nat := fdt.readBE 4 4

def fdtOffDtStruct : Nat := fdt.readBE 8 4

def fdtOffDtStrings : Nat := fdt.readBE 12 4

def fdtVersion : Nat := fdt.readBE 20 4

def fdtLastCompVersion : Nat := fdt.readBE 24 4

def fdtSizeDtStrings : Nat := fdt.readBE 32 4

def fdtSizeDtStruct : Nat := fdt.readBE 36 4

def fdtRoProbe : Int :=
  let totalsize : Int :=
    if fdtTotalsize fdt < 2 ^ 31 - 1 then (fdtTotalsize fdt : Int) else -FDT_ERR_TRUNCATED
  if fdtMagic fdt = FDT_MAGIC then
    if fdtVersion fdt < FDT_FIRST_SUPPORTED_VERSION then
      -FDT_ERR_BADVERSION
    else if fdtLastCompVersion fdt > FDT_LAST_SUPPORTED_VERSION then
      -FDT_ERR_BADVERSION
    else
      totalsize
  else if fdtMagic fdt = FDT_SW_MAGIC then
    if fdtSizeDtStruct fdt = 0 then -FDT_ERR_BADSTATE else totalsize
  else
    -FDT_ERR_BADMAGIC

/-! ## Tags -/

def structAddress (offset : Int) : Nat := (fdtOffDtStruct fdt + offset).toNat

/-- Whether `fdt_offset_ptr` gives a pointer to `len` bytes of the structure block. -/
def fdtOffsetPtr (offset : Int) (len : Nat) : Bool :=
  let uoffset := uint32 offset
  let absoffset := uint32 (offset + fdtOffDtStruct fdt)
  if offset < 0 then
    false
  else if absoffset < uoffset ∨ uint32 (absoffset + len) < absoffset ∨
      uint32 (absoffset + len) > fdtTotalsize fdt then
    false
  else if fdtVersion fdt ≥ 0x11 ∧ (uint32 (uoffset + len) < uoffset ∨
      uint32 (offset + len) > fdtSizeDtStruct fdt) then
    false
  else
    true

def structWord (offset : Int) : Nat := fdt.readBE (structAddress fdt offset) 4

inductive FdtTag
  | beginNode
  | endNode
  | prop
  | nop
  | «end»
  deriving DecidableEq, Repr

/-- The loop over the name of a node: the offset behind the terminating byte.  A blob
has no more bytes than its total size, so the loop ends within that many rounds. -/
def nameLoop : Nat → Int → Option Int
  | 0, _ => none
  | rounds + 1, offset =>
    if fdtOffsetPtr fdt offset 1 then
      if fdt (structAddress fdt offset) = 0 then some (offset + 1)
      else nameLoop rounds (offset + 1)
    else
      none

def propEnd (offset : Int) : Int :=
  let len := structWord fdt offset
  let behind := int32 (offset + 8 + len)
  if fdtVersion fdt < 0x10 ∧ len ≥ 8 ∧ uint32 (behind - len) % 8 ≠ 0 then
    int32 (behind + 4)
  else
    behind

def tagEnd (offset : Int) : Option (FdtTag × Int) :=
  let behind := offset + FDT_TAGSIZE
  match structWord fdt offset with
  | 1 => (nameLoop fdt (fdtTotalsize fdt) behind).map fun last => (.beginNode, last)
  | 2 => some (.endNode, behind)
  | 3 => if fdtOffsetPtr fdt behind 4 then some (.prop, propEnd fdt behind) else none
  | 4 => some (.nop, behind)
  | 9 => some (.end, behind)
  | _ => none

def fdtNextTag (startoffset : Int) : FdtTag × Int :=
  if fdtOffsetPtr fdt startoffset FDT_TAGSIZE then
    match tagEnd fdt startoffset with
    | none => (.end, -FDT_ERR_BADSTRUCTURE)
    | some (tag, offset) =>
      if fdtOffsetPtr fdt startoffset (uint32 (offset - startoffset)) then
        (tag, int32 ((offset + 3) / 4 * 4))
      else
        (.end, -FDT_ERR_BADSTRUCTURE)
  else
    (.end, -FDT_ERR_TRUNCATED)

def fdtCheckTagOffset (tag : FdtTag) (offset : Int) : Int :=
  if offset < 0 ∨ offset % FDT_TAGSIZE ≠ 0 then
    -FDT_ERR_BADOFFSET
  else if (fdtNextTag fdt offset).1 = tag then
    (fdtNextTag fdt offset).2
  else
    -FDT_ERR_BADOFFSET

def fdtCheckNodeOffset (offset : Int) : Int := fdtCheckTagOffset fdt .beginNode offset

def fdtCheckPropOffset (offset : Int) : Int := fdtCheckTagOffset fdt .prop offset

/-! ## Nodes -/

/-- The loop of `fdt_next_node`; the answer has the new depth. -/
def nextNodeLoop : (rounds : Nat) → (offset depth : Int) → Option (Int × Int)
  | 0, _, _ => none
  | rounds + 1, offset, depth =>
    let nextoffset := (fdtNextTag fdt offset).2
    match (fdtNextTag fdt offset).1 with
    | .prop | .nop => nextNodeLoop rounds nextoffset depth
    | .beginNode => some (offset, depth + 1)
    | .endNode =>
      if depth - 1 < 0 then some (nextoffset, depth - 1)
      else nextNodeLoop rounds nextoffset (depth - 1)
    | .end => some (if nextoffset ≥ 0 then -FDT_ERR_NOTFOUND else nextoffset, depth)

/-- The function `fdt_next_node`, called with a depth. -/
def fdtNextNode (rounds : Nat) (offset depth : Int) : Option (Int × Int) :=
  if offset ≥ 0 then
    let nextoffset := fdtCheckNodeOffset fdt offset
    if nextoffset < 0 then some (nextoffset, depth) else nextNodeLoop fdt rounds nextoffset depth
  else
    nextNodeLoop fdt rounds 0 depth

def fdtFirstSubnode (rounds : Nat) (offset : Int) : Option Int :=
  (fdtNextNode fdt rounds offset 0).map fun node =>
    if node.1 < 0 ∨ node.2 ≠ 1 then -FDT_ERR_NOTFOUND else node.1

/-- The loop of `fdt_next_subnode`. -/
def nextSubnodeLoop (rounds : Nat) : Nat → (offset depth : Int) → Option Int
  | 0, _, _ => none
  | steps + 1, offset, depth =>
    match fdtNextNode fdt rounds offset depth with
    | none => none
    | some (offset, depth) =>
      if offset < 0 ∨ depth < 1 then some (-FDT_ERR_NOTFOUND)
      else if depth > 1 then nextSubnodeLoop rounds steps offset depth
      else some offset

def fdtNextSubnode (rounds : Nat) (offset : Int) : Option Int :=
  nextSubnodeLoop fdt rounds rounds offset 1

def cString (address bound : Nat) : List UInt8 := (fdt.read address bound).takeWhile (· ≠ 0)

def leafName (name : List UInt8) : Option (List UInt8) :=
  if (0x2f : UInt8) ∈ name then some (name.reverse.takeWhile (· ≠ 0x2f)).reverse else none

def fdtGetName (nodeoffset : Int) : Option (List UInt8) :=
  if fdtRoProbe fdt < 0 ∨ fdtCheckNodeOffset fdt nodeoffset < 0 then
    none
  else
    let name := cString fdt (structAddress fdt (nodeoffset + FDT_TAGSIZE)) (fdtTotalsize fdt)
    if fdtVersion fdt < 0x10 then leafName name else some name

def fdtNodenameEq (offset : Int) (s : List UInt8) : Bool :=
  match fdtGetName fdt offset with
  | none => false
  | some name =>
    name.take s.length = s ∧ (name.length = s.length ∨ (0x40 ∉ s ∧ name[s.length]? = some 0x40))

/-- The loop of `fdt_subnode_offset_namelen`. -/
def subnodeOffsetLoop (rounds : Nat) (name : List UInt8) : Nat → (offset depth : Int) → Option Int
  | 0, _, _ => none
  | steps + 1, offset, depth =>
    if offset ≥ 0 ∧ depth ≥ 0 then
      if depth = 1 ∧ fdtNodenameEq fdt offset name then
        some offset
      else
        match fdtNextNode fdt rounds offset depth with
        | none => none
        | some (offset, depth) => subnodeOffsetLoop rounds name steps offset depth
    else
      some (if depth < 0 then -FDT_ERR_NOTFOUND else offset)

def fdtSubnodeOffset (rounds : Nat) (parentoffset : Int) (name : List UInt8) : Option Int :=
  if fdtRoProbe fdt < 0 then some (fdtRoProbe fdt)
  else subnodeOffsetLoop fdt rounds name rounds parentoffset 0

/-! ## Strings and properties -/

def stringBound (stroffset : Int) : Option Nat :=
  let absoffset := uint32 (stroffset + fdtOffDtStrings fdt)
  let len := fdtTotalsize fdt - absoffset
  if fdtRoProbe fdt < 0 ∨ absoffset ≥ fdtTotalsize fdt then
    none
  else if fdtMagic fdt = FDT_MAGIC then
    if stroffset < 0 then
      none
    else if fdtVersion fdt ≥ 17 then
      if uint32 stroffset ≥ fdtSizeDtStrings fdt then none
      else some (min len (fdtSizeDtStrings fdt - uint32 stroffset))
    else
      some len
  else if stroffset ≥ 0 ∨ uint32 (-stroffset) > fdtSizeDtStrings fdt then
    none
  else
    some (min len (uint32 (-stroffset)))

def fdtGetString (stroffset : Int) : Option (List UInt8) :=
  match stringBound fdt stroffset with
  | none => none
  | some len =>
    let bytes := fdt.read (uint32 (stroffset + fdtOffDtStrings fdt)) len
    if (0 : UInt8) ∈ bytes then some (bytes.takeWhile (· ≠ 0)) else none

/-- The function `nextprop_`.  Only no-operation tags keep the loop going; behind as many
of them as the blob has bytes the structure block has ended. -/
def nextprop : (rounds : Nat) → (offset : Int) → Int
  | 0, _ => -FDT_ERR_TRUNCATED
  | rounds + 1, offset =>
    let nextoffset := (fdtNextTag fdt offset).2
    match (fdtNextTag fdt offset).1 with
    | .end => if nextoffset ≥ 0 then -FDT_ERR_BADSTRUCTURE else nextoffset
    | .prop => offset
    | .nop => nextprop rounds nextoffset
    | .beginNode | .endNode => -FDT_ERR_NOTFOUND

def fdtFirstPropertyOffset (nodeoffset : Int) : Int :=
  let offset := fdtCheckNodeOffset fdt nodeoffset
  if offset < 0 then offset else nextprop fdt (fdtTotalsize fdt) offset

def fdtNextPropertyOffset (offset : Int) : Int :=
  let offset := fdtCheckPropOffset fdt offset
  if offset < 0 then offset else nextprop fdt (fdtTotalsize fdt) offset

def propNameoff (offset : Int) : Int := int32 (structWord fdt (offset + 8))

/-- The loop of `fdt_get_property_namelen_`: the offset of a property, or an error. -/
def getPropertyLoop (name : List UInt8) : (rounds : Nat) → (offset : Int) → Option Int
  | 0, _ => none
  | rounds + 1, offset =>
    if offset ≥ 0 then
      if fdtCheckPropOffset fdt offset < 0 then
        some (-FDT_ERR_INTERNAL)
      else if fdtGetString fdt (propNameoff fdt offset) = some name then
        some offset
      else
        getPropertyLoop name rounds (fdtNextPropertyOffset fdt offset)
    else
      some offset

structure FdtProp where
  data : Nat
  len : Int
  deriving DecidableEq

def propAt (offset : Int) : FdtProp :=
  let len := structWord fdt (offset + 4)
  { data := structAddress fdt (offset + 12) +
      if fdtVersion fdt < 0x10 ∧ (offset + 12) % 8 ≠ 0 ∧ len ≥ 8 then 4 else 0
    len := int32 len }

def fdtGetprop (rounds : Nat) (nodeoffset : Int) (name : List UInt8) : Option (Option FdtProp) :=
  (getPropertyLoop fdt name rounds (fdtFirstPropertyOffset fdt nodeoffset)).map fun offset =>
    if offset < 0 then none else some (propAt fdt offset)

def strEq (address : Nat) (s : List UInt8) : Bool := fdt.read address (s.length + 1) = s ++ [0]

end Header

def chars (s : String) : List UInt8 := s.toList.map fun c => UInt8.ofNat c.toNat

end UBoot
