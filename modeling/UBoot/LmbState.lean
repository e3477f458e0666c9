import UBoot.Common
import UBoot.LmbFreeRegion
import UBoot.EfiMemoryUpdate

/-!
# The logical memory block allocator

`lib/lmb.c` keeps one global pair of region lists, the available and the
reserved memory, and tells the EFI memory map about every change.  The functions
of the allocator work on a state that holds both.  The
search loop of an allocation returns `none` if it does not end within the
given number of rounds.
-/

namespace UBoot

/-- `enum lmb_map_op`. -/
inductive LmbMapOp
  | reserve
  | free
  | add
  deriving DecidableEq, Repr

def efiSizeInPages (size : BitVec 64) : BitVec 64 := (size + EFI_PAGE_MASK) >>> EFI_PAGE_SHIFT

variable {w : Nat}

/-- `efi_map_update_notify` on a machine that maps physical memory one to
one. -/
def efiMapUpdateNotify (calloc : Nat → Bool) (efi : EfiMemory)
    (addr size : BitVec w) (op : LmbMapOp) : Int × EfiMemory :=
  let efiAddr := addr.setWidth 64
  let pages := efiSizeInPages (size.setWidth 64 + (efiAddr &&& EFI_PAGE_MASK))
  let efiAddr := efiAddr &&& ~~~EFI_PAGE_MASK
  let (status, efi) := efiUpdateMemoryMap calloc efi efiAddr pages
    (if op = .reserve then EFI_BOOT_SERVICES_DATA else EFI_CONVENTIONAL_MEMORY)
    false false
  if status ≠ .success then (-1, efi) else (0, efi)

/-- `struct lmb`. -/
structure Lmb (w : Nat) where
  availableMem : List (LmbRegion w)
  usedMem : List (LmbRegion w)
  test : Bool
  deriving DecidableEq, Repr

structure LmbSystem (w : Nat) where
  lmb : Lmb w
  efi : EfiMemory
  deriving DecidableEq, Repr

/-- What a call finds outside the allocator: whether `CONFIG_EFI_LOADER` is
set and which calls of `calloc` succeed. -/
structure LmbEnv where
  efiLoader : Bool
  calloc : Nat → Bool

namespace LmbSystem

variable (sys : LmbSystem w)

def setUsed (usedMem : List (LmbRegion w)) : LmbSystem w :=
  { sys with lmb := { sys.lmb with usedMem } }

def setAvailable (availableMem : List (LmbRegion w)) : LmbSystem w :=
  { sys with lmb := { sys.lmb with availableMem } }

@[simp]
theorem setUsed_lmb (usedMem : List (LmbRegion w)) :
    (sys.setUsed usedMem).lmb = { sys.lmb with usedMem } :=
  rfl

@[simp]
theorem setAvailable_lmb (availableMem : List (LmbRegion w)) :
    (sys.setAvailable availableMem).lmb = { sys.lmb with availableMem } :=
  rfl

end LmbSystem

variable (env : LmbEnv) (sys : LmbSystem w)

def lmbMapUpdateNotify (addr size : BitVec w) (op : LmbMapOp) (flags : BitVec 32) :
    Int × LmbSystem w :=
  if env.efiLoader ∧ ¬ sys.lmb.test ∧ flags &&& LMB_NONOTIFY = 0 then
    let (ret, efi) := efiMapUpdateNotify env.calloc sys.efi addr size op
    (ret, { sys with efi })
  else (0, sys)

def lmbCanReserveRegion (usedMem : List (LmbRegion w)) (base size : BitVec w)
    (flags : BitVec 32) : Bool :=
  usedMem.all fun rgn =>
    !(lmbAddrsOverlap base size rgn.base rgn.size && (flags ≠ LMB_NONE || flags ≠ rgn.flags))

def lmbAdd (base size : BitVec w) : Int × LmbSystem w :=
  match lmbAddRegionFlags sys.lmb.availableMem base size LMB_NONE with
  | none => (-1, sys)
  | some availableMem =>
    lmbMapUpdateNotify env (sys.setAvailable availableMem) base size .add LMB_NONE

def lmbFreeFlags (base size : BitVec w) (flags : BitVec 32) : Int × LmbSystem w :=
  match lmbFreeRegion sys.lmb.usedMem base size with
  | none => (-1, sys)
  | some usedMem => lmbMapUpdateNotify env (sys.setUsed usedMem) base size .free flags

def lmbFree (base size : BitVec w) : Int × LmbSystem w := lmbFreeFlags env sys base size LMB_NONE

def lmbReserve (base size : BitVec w) (flags : BitVec 32) : Int × LmbSystem w :=
  if ¬ lmbCanReserveRegion sys.lmb.usedMem base size flags then (-EEXIST, sys)
  else
    match lmbAddRegionFlags sys.lmb.usedMem base size flags with
    | none => (-1, sys)
    | some usedMem => lmbMapUpdateNotify env (sys.setUsed usedMem) base size .reserve flags

def LMB_ALLOC_ANYWHERE : BitVec w := 0

/-- `ALIGN_DOWN`. -/
def alignDown (x align : BitVec w) : BitVec w := x - (align - 1) + (align - 1) &&& ~~~(align - 1)

/-- The inner loop of `_lmb_alloc_base`: an area of one available region that
overlaps nothing reserved.  The outer `none` means that `fuel` rounds were not
enough. -/
def allocSearch (used : List (LmbRegion w)) (size align lmbbase : BitVec w) :
    (fuel : Nat) → (base : BitVec w) → Option (Option (BitVec w))
  | 0, _ => none
  | fuel + 1, base =>
    if base = 0 ∨ base < lmbbase then some none
    else
      match lmbOverlapsRegion used base size with
      | none => some (some base)
      | some rgn =>
        let resBase := (rgnAt used rgn).base
        if resBase < size then some none
        else
          allocSearch used size align lmbbase fuel (alignDown (resBase - size) align)

/-- The address at which the search in an available region begins, unless the
region lies above `maxAddr`. -/
def allocStart (rgn : LmbRegion w) (size align maxAddr : BitVec w) : Option (BitVec w) :=
  if maxAddr = LMB_ALLOC_ANYWHERE then
    some (alignDown (rgn.base + rgn.size - size) align)
  else if rgn.base < maxAddr then
    let base := rgn.base + rgn.size
    let base := if base < rgn.base then -1 else base
    some (alignDown (minAddr base maxAddr - size) align)
  else none

/-- The outer loop of `_lmb_alloc_base` over the available regions, given from
the last to the first. -/
def allocFind (used : List (LmbRegion w)) (size align maxAddr : BitVec w) :
    (available : List (LmbRegion w)) → Option (Option (BitVec w))
  | [] => some none
  | rgn :: rest =>
    if rgn.size < size then allocFind used size align maxAddr rest
    else
      match allocStart rgn size align maxAddr with
      | none => allocFind used size align maxAddr rest
      | some base =>
        match allocSearch used size align rgn.base (used.length + 1) base with
        | none => none
        | some (some base) => some (some base)
        | some none => allocFind used size align maxAddr rest

/-- `_lmb_alloc_base`; `none` if the search does not end. -/
def lmbAllocBase (size align maxAddr : BitVec w) (flags : BitVec 32) :
    Option (BitVec w × LmbSystem w) := do
  match ← allocFind sys.lmb.usedMem size align maxAddr sys.lmb.availableMem.reverse with
  | none => return (0, sys)
  | some base =>
    match lmbAddRegionFlags sys.lmb.usedMem base size flags with
    | none => return (0, sys)
    | some usedMem =>
      let (ret, sys) := lmbMapUpdateNotify env (sys.setUsed usedMem) base size .reserve flags
      if ret ≠ 0 then return (BitVec.ofInt w ret, sys)
      return (base, sys)

def lmbAlloc (size align : BitVec w) : Option (BitVec w × LmbSystem w) :=
  lmbAllocBase env sys size align LMB_ALLOC_ANYWHERE LMB_NONE

/-- `lmb_alloc_addr`: reserve a range if the first available region that it overlaps contains
its last byte. -/
def lmbAllocAddr (base size : BitVec w) (flags : BitVec 32) : Int × LmbSystem w :=
  match lmbOverlapsRegion sys.lmb.availableMem base size with
  | none => (-1, sys)
  | some rgn =>
    let bank := rgnAt sys.lmb.availableMem rgn
    if lmbAddrsOverlap bank.base bank.size (base + size - 1) 1 then
      let (ret, sys) := lmbReserve env sys base size flags
      if ret = 0 then (0, sys) else (-1, sys)
    else (-1, sys)

/-- The loop of `lmb_get_free_size` over the reserved regions; without a region above the
address it is free up to the end of the last bank. -/
def freeSizeLoop (addr : BitVec w) (last : LmbRegion w) : List (LmbRegion w) → BitVec w
  | [] => last.base + last.size - addr
  | rgn :: rest =>
    if addr < rgn.base then rgn.base - addr
    else if addr < rgn.base + rgn.size then 0
    else freeSizeLoop addr last rest

def lmbGetFreeSize (lmb : Lmb w) (addr : BitVec w) : BitVec w :=
  match lmbOverlapsRegion lmb.availableMem addr 1 with
  | none => 0
  | some _ => freeSizeLoop addr (rgnAt lmb.availableMem (lmb.availableMem.length - 1)) lmb.usedMem

end UBoot
