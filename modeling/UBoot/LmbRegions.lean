import UBoot.SpanList
import Mathlib.Data.BitVec

/-!
# Region lists of the logical memory block allocator

The allocator in `lib/lmb.c` keeps available and reserved memory as two lists
of regions.  This file translates the functions that work on one such list.
Addresses and sizes are machine words of an arbitrary width `w`, so that every
sum and difference wraps as `phys_addr_t` does, and a list always has room for
one more region.
-/

namespace UBoot

def LMB_NONE : BitVec 32 := 0
def LMB_NOMAP : BitVec 32 := 2
def LMB_NONOTIFY : BitVec 32 := 8

/-- `struct lmb_region`. -/
structure LmbRegion (w : Nat) where
  base : BitVec w
  size : BitVec w
  flags : BitVec 32
  deriving DecidableEq, Repr, Inhabited

variable {w : Nat}

def lmbAddrsOverlap (base1 size1 base2 size2 : BitVec w) : Bool :=
  let base1End := base1 + size1 - 1
  let base2End := base2 + size2 - 1
  base1 ≤ base2End && base2 ≤ base1End

def lmbAddrsAdjacent (base1 size1 base2 size2 : BitVec w) : Int :=
  if base2 = base1 + size1 then 1
  else if base1 = base2 + size2 then -1
  else 0

/-- Result of `lmb_regions_check`. -/
inductive LmbRgnCheck
  | overlap
  | adjacent
  | neither
  deriving DecidableEq, Repr

def rgnAt (rgn : List (LmbRegion w)) (i : Nat) : LmbRegion w := rgn.getD i default

def lmbRegionsCheck (rgn : List (LmbRegion w)) (r1 r2 : Nat) : LmbRgnCheck :=
  let rgn1 := rgnAt rgn r1
  let rgn2 := rgnAt rgn r2
  if rgn1.flags ≠ rgn2.flags then .neither
  else if lmbAddrsOverlap rgn1.base rgn1.size rgn2.base rgn2.size then .overlap
  else if lmbAddrsAdjacent rgn1.base rgn1.size rgn2.base rgn2.size ≠ 0 then
    .adjacent
  else .neither

def lmbRemoveRegion (rgn : List (LmbRegion w)) (r : Nat) : List (LmbRegion w) := rgn.eraseIdx r

def lmbCoalesceRegions (rgn : List (LmbRegion w)) (r1 r2 : Nat) : List (LmbRegion w) :=
  let rgn1 := rgnAt rgn r1
  let rgn2 := rgnAt rgn r2
  lmbRemoveRegion (rgn.set r1 { rgn1 with size := rgn1.size + rgn2.size }) r2

/-- The counting loop of `lmb_resize_regions`: how many regions from `idx` on
the request overlaps, and the index of the last of them.  An overlap with a
region that carries flags is the error return. -/
def countOverlaps (base size : BitVec w) :
    List (LmbRegion w) → (idx rgnCnt idxEnd : Nat) → Option (Nat × Nat)
  | [], _, rgnCnt, idxEnd => some (rgnCnt, idxEnd)
  | rgn :: rest, idx, rgnCnt, idxEnd =>
    if lmbAddrsOverlap base size rgn.base rgn.size then
      if rgn.flags ≠ LMB_NONE then none
      else countOverlaps base size rest (idx + 1) (rgnCnt + 1) idx
    else countOverlaps base size rest (idx + 1) rgnCnt idxEnd

/-- `min` of two addresses. -/
def minAddr (x y : BitVec w) : BitVec w := if x < y then x else y

/-- `max` of two addresses. -/
def maxAddr (x y : BitVec w) : BitVec w := if y < x then x else y

/-- `lmb_resize_regions`; `none` is the return value -1.  Both callers pass an
index whose region overlaps the request, so that the count the removal loop
runs down from is positive. -/
def lmbResizeRegions (rgn : List (LmbRegion w)) (idxStart : Nat)
    (base size : BitVec w) : Option (List (LmbRegion w)) := do
  let (rgnCnt, idxEnd) ← countOverlaps base size (rgn.drop idxStart) idxStart 0 idxStart
  let first := rgnAt rgn idxStart
  let last := rgnAt rgn idxEnd
  let mergebase := minAddr base first.base
  let rgnend := last.base + last.size
  let mergeend := maxAddr rgnend (base + size)
  let merged :=
    rgn.set idxStart { first with base := mergebase, size := mergeend - mergebase }
  return (fun rgn => lmbRemoveRegion rgn (idxStart + 1))^[rgnCnt - 1] merged

/-- What the first loop of `lmb_add_region_flags` leaves behind: the list, the
index at which it stopped and the number of regions it grew. -/
structure CoalesceExit (w : Nat) where
  rgn : List (LmbRegion w)
  i : Nat
  coalesced : Nat

/-- The first loop of `lmb_add_region_flags`, with `rest` the regions of `rgn`
from index `i` on. -/
def coalesceLoop (rgn : List (LmbRegion w)) (base size : BitVec w) (flags : BitVec 32) :
    (rest : List (LmbRegion w)) → (i : Nat) → Option (CoalesceExit w)
  | [], i => some ⟨rgn, i, 0⟩
  | cur :: rest, i =>
    let ret := lmbAddrsAdjacent base size cur.base cur.size
    if ret > 0 then
      if flags ≠ cur.flags then some ⟨rgn, i, 0⟩
      else
        some ⟨rgn.set i { cur with base := cur.base - size, size := cur.size + size }, i, 1⟩
    else if ret < 0 then
      if flags ≠ cur.flags then coalesceLoop rgn base size flags rest (i + 1)
      else some ⟨rgn.set i { cur with size := cur.size + size }, i, 1⟩
    else if lmbAddrsOverlap base size cur.base cur.size then do
      let resized ← lmbResizeRegions rgn i base size
      some ⟨resized, i, 1⟩
    else coalesceLoop rgn base size flags rest (i + 1)

/-- The second step of `lmb_add_region_flags`: merge the region at the index
the loop stopped at with the following one. -/
def coalesceNext (exit : CoalesceExit w) : Option (CoalesceExit w) :=
  if exit.rgn.length ≠ 0 ∧ exit.i < exit.rgn.length - 1 then
    match lmbRegionsCheck exit.rgn exit.i (exit.i + 1) with
    | .adjacent =>
      some ⟨lmbCoalesceRegions exit.rgn exit.i (exit.i + 1), exit.i, exit.coalesced + 1⟩
    | .overlap => do
        let cur := rgnAt exit.rgn exit.i
        let resized ← lmbResizeRegions exit.rgn exit.i cur.base cur.size
        some ⟨resized, exit.i, exit.coalesced + 1⟩
    | .neither => some exit
  else some exit

/-- The index at which the final loop of `lmb_add_region_flags`, running down
from `i`, stores the new region. -/
def insertIndex (rgn : List (LmbRegion w)) (base : BitVec w) : Nat → Nat
  | 0 => 0
  | i + 1 => if base < (rgnAt rgn i).base then insertIndex rgn base i else i + 1

/-- `lmb_add_region_flags`; `none` is the return value -1. -/
def lmbAddRegionFlags (rgn : List (LmbRegion w)) (base size : BitVec w)
    (flags : BitVec 32) : Option (List (LmbRegion w)) := do
  let exit ← coalesceLoop rgn base size flags rgn 0
  let exit ← coalesceNext exit
  if exit.coalesced ≠ 0 then return exit.rgn
  return exit.rgn.insertIdx (insertIndex exit.rgn base exit.rgn.length) ⟨base, size, flags⟩

/-- The loop of `_lmb_free` that looks for the region `(base, size)` belongs
to. -/
def findEnclosing (base endAddr : BitVec w) : List (LmbRegion w) → (i : Nat) → Option Nat
  | [], _ => none
  | rgn :: rest, i =>
    let rgnend := rgn.base + rgn.size - 1
    if rgn.base ≤ base ∧ endAddr ≤ rgnend then some i
    else findEnclosing base endAddr rest (i + 1)

/-- `_lmb_free`; `none` is the return value -1. -/
def lmbFreeRegion (rgn : List (LmbRegion w)) (base size : BitVec w) :
    Option (List (LmbRegion w)) := do
  let endAddr := base + size - 1
  let i ← findEnclosing base endAddr rgn 0
  let cur := rgnAt rgn i
  let rgnbegin := cur.base
  let rgnend := rgnbegin + cur.size - 1
  if rgnbegin = base ∧ rgnend = endAddr then
    return lmbRemoveRegion rgn i
  if rgnbegin = base then
    return rgn.set i { cur with base := endAddr + 1, size := cur.size - size }
  if rgnend = endAddr then
    return rgn.set i { cur with size := cur.size - size }
  lmbAddRegionFlags (rgn.set i { cur with size := base - cur.base })
    (endAddr + 1) (rgnend - endAddr) cur.flags

/-- `lmb_overlaps_region`; `none` is the return value -1. -/
def lmbOverlapsRegion (rgn : List (LmbRegion w)) (base size : BitVec w) : Option Nat :=
  rgn.findIdx? fun cur => lmbAddrsOverlap base size cur.base cur.size

end UBoot
