import UBoot.LibFdt

/-!
# Finding the regions to hash

`fdt_find_regions` of `boot/fdt_region.c`: one pass over the tags of the structure
block, which collects the regions of the nodes and properties that go into a hash.
The stack of the function is a list, whose length is one more than the depth, and
the buffer for the path is the string that is in it.
-/

namespace UBoot

def FDT_MAX_DEPTH : Nat := 32

structure FdtRegion where
  offset : Int
  size : Int
  deriving DecidableEq

instance instLawfulBEqBytes : LawfulBEq (List UInt8) := inferInstance

structure RegionQuery where
  inc : List (List UInt8)
  excProp : List (List UInt8)
  maxRegions : Nat
  pathLen : Nat
  addStringTab : Bool

structure TreePosition where
  stack : List Nat
  want : Nat
  path : List UInt8
  expectEnd : Bool

structure TagChoice where
  position : TreePosition
  «include» : Bool
  stopAt : Int

structure RegionList where
  count : Nat
  regions : List FdtRegion
  start : Int
  deriving DecidableEq

inductive RegionStop
  | error (code : Int)
  | crash
  deriving DecidableEq

def pushPath (path name : List UInt8) : List UInt8 :=
  (if path.length ≠ 1 then path ++ [0x2f] else path) ++ name

def popPath (path : List UInt8) : List UInt8 := ((path.reverse.dropWhile (· ≠ 0x2f)).drop 1).reverse

section Find

variable (fdt : Memory) (query : RegionQuery) (p : TreePosition)

def propTag (offset : Int) : Except RegionStop TagChoice :=
  if fdtVersion fdt < 0x10 then
    .error .crash
  else
    match fdtGetString fdt (propNameoff fdt offset) with
    | none => .error (.error (-FDT_ERR_BADSTRUCTURE))
    | some name =>
      .ok { position := p, «include» := 2 ≤ p.want ∧ name ∉ query.excProp, stopAt := offset }

def nopTag (offset : Int) : TagChoice :=
  { position := p, «include» := 2 ≤ p.want, stopAt := offset }

def beginNodeTag (offset nextoffset : Int) : Except RegionStop TagChoice :=
  if p.stack.length = FDT_MAX_DEPTH then
    .error (.error (-FDT_ERR_BADSTRUCTURE))
  else
    match fdtGetName fdt offset with
    | none => .error .crash
    | some name =>
      if p.stack.length = 0 ∧ name ≠ [] then
        .error (.error (-FDT_ERR_BADLAYOUT))
      else if p.path.length + 2 + name.length ≥ query.pathLen then
        .error (.error (-FDT_ERR_NOSPACE))
      else
        let path := pushPath p.path name
        let want := if path ∈ query.inc then 2 else p.want - 1
        .ok
          { position := { p with stack := p.want :: p.stack, want := want, path := path }
            «include» := want ≠ 0
            stopAt :=
              if p.want = 1 ∨ (path ∉ query.inc ∧ p.want = 0) then offset else nextoffset }

def endNodeTag (nextoffset : Int) : Except RegionStop TagChoice :=
  match p.stack with
  | [] => .error (.error (-FDT_ERR_BADSTRUCTURE))
  | want :: stack =>
    .ok
      { position :=
          { stack := stack
            want := want
            path := popPath p.path
            expectEnd := p.expectEnd || stack.isEmpty }
        «include» := p.want ≠ 0
        stopAt := nextoffset }

def chooseTag (offset : Int) : Except RegionStop TagChoice :=
  let nextoffset := (fdtNextTag fdt offset).2
  if p.expectEnd ∧ (fdtNextTag fdt offset).1 ≠ .end then
    .error (.error (-FDT_ERR_BADLAYOUT))
  else
    match (fdtNextTag fdt offset).1 with
    | .prop => propTag fdt query p offset
    | .nop => .ok (nopTag p offset)
    | .beginNode => beginNodeTag fdt query p offset nextoffset
    | .endNode => endNodeTag p nextoffset
    | .end => .ok { position := p, «include» := true, stopAt := nextoffset }

/-- The offset of the structure block, as the `int` the function keeps. -/
def regionBase : Int := int32 (fdtOffDtStruct fdt)

def openRegion (maxRegions : Nat) (base : Int) (l : RegionList) (offset : Int) : RegionList :=
  match l.regions.getLast? with
  | some last =>
    if l.count ≤ maxRegions ∧ offset = last.offset + last.size - base then
      { count := l.count - 1, regions := l.regions.dropLast, start := last.offset - base }
    else
      { l with start := offset }
  | none => { l with start := offset }

def closeRegion (maxRegions : Nat) (base : Int) (l : RegionList) (stopAt : Int) : RegionList :=
  { count := l.count + 1
    regions :=
      if l.count < maxRegions then
        l.regions ++ [{ offset := base + l.start, size := stopAt - l.start }]
      else
        l.regions
    start := -1 }

def updateRegions (maxRegions : Nat) (base : Int) (l : RegionList) (offset : Int)
    («include» : Bool) (stopAt : Int) : RegionList :=
  if «include» then
    if l.start = -1 then openRegion maxRegions base l offset else l
  else
    if l.start ≠ -1 then closeRegion maxRegions base l stopAt else l

def findRegionsLoop : (rounds : Nat) → TreePosition → RegionList → (offset : Int) →
    Option (Except RegionStop (RegionList × Int))
  | 0, _, _, _ => none
  | rounds + 1, p, l, offset =>
    match chooseTag fdt query p offset with
    | .error stop => some (.error stop)
    | .ok choice =>
      let nextoffset := (fdtNextTag fdt offset).2
      let l := updateRegions query.maxRegions (regionBase fdt) l offset choice.include choice.stopAt
      if (fdtNextTag fdt offset).1 = .end then some (.ok (l, nextoffset))
      else findRegionsLoop rounds choice.position l nextoffset

def lastRegion (l : RegionList) (nextoffset : Int) : Except RegionStop RegionList :=
  if uint32 nextoffset ≠ fdtSizeDtStruct fdt then
    .error (.error (-FDT_ERR_BADLAYOUT))
  else
    .ok
      { count := l.count + 1
        regions :=
          if l.count < query.maxRegions then
            l.regions ++
              [{ offset := regionBase fdt + l.start
                 size := nextoffset - l.start +
                   if query.addStringTab then (fdtSizeDtStrings fdt : Int) else 0 }]
          else
            l.regions
        start := l.start }

/-- The regions and their number, which may be larger than the number of those stored. -/
def fdtFindRegions (rounds : Nat) : Option (Except RegionStop RegionList) :=
  match findRegionsLoop fdt query rounds { stack := [], want := 0, path := [], expectEnd := false }
      { count := 0, regions := [], start := -1 } 0 with
  | none => none
  | some (.error stop) => some (.error stop)
  | some (.ok (l, nextoffset)) => some (lastRegion fdt query l nextoffset)

end Find

end UBoot
