import UBoot.LmbRuns

/-!
# Agreement of the allocator and the EFI memory map

The allocator tracks bytes and the EFI memory map tracks pages.  Every change
is passed on as the pages that the range touches.  For a reservation this is
safe.  A release reports whole pages as free, so that it is safe only if no
other byte of these pages is reserved.
-/

namespace UBoot

open Option BitVec Nat

variable {w : Nat}

def pageOf (address : Nat) : Nat := address / 4096

def pageEnd (base size : BitVec w) : Nat := (base.toNat + size.toNat + 4095) / 4096

def TouchesPage (base size : BitVec w) (page : Nat) : Prop :=
  pageOf base.toNat ≤ page ∧ page < pageEnd base size

instance (base size : BitVec w) (page : Nat) : Decidable (TouchesPage base size page) :=
  inferInstanceAs (Decidable (_ ∧ _))

def LmbSystem.Agrees (sys : LmbSystem w) : Prop :=
  ∀ address, flagsAt sys.lmb.usedMem address ≠ none →
    ∀ desc ∈ sys.efi.efiMem, efiView.Covers desc (pageOf address) →
      desc.type ≠ BitVec.ofInt 32 EFI_CONVENTIONAL_MEMORY

def LmbMapOp.memoryType (op : LmbMapOp) : Int :=
  if op = .reserve then EFI_BOOT_SERVICES_DATA else EFI_CONVENTIONAL_MEMORY

theorem toNat_and_pageMask (x : BitVec 64) : (x &&& EFI_PAGE_MASK).toNat = x.toNat % 4096 := by
  have mask : EFI_PAGE_MASK.toNat = 2 ^ 12 - 1 := rfl
  rw [toNat_and, mask, and_two_pow_sub_one_eq_mod]

theorem toNat_and_not_pageMask (x : BitVec 64) :
    (x &&& ~~~EFI_PAGE_MASK).toNat = x.toNat / 4096 * 4096 := by
  have aligned : x &&& ~~~EFI_PAGE_MASK = alignDown x 4096 := by
    rw [alignDown, sub_add_cancel]
    rfl
  exact (congrArg BitVec.toNat aligned).trans (toNat_alignDown (k := 12) rfl)

section Notify

variable {calloc : Nat → Bool} {efi : EfiMemory} {addr size : BitVec w}

theorem toNat_notifiedPages (narrow : w ≤ 64) (inside : 4096 * pageEnd addr size < 2 ^ 64) :
    (addr.setWidth 64 &&& ~~~EFI_PAGE_MASK).toNat = addr.toNat / 4096 * 4096 ∧
      (efiSizeInPages (size.setWidth 64 + (addr.setWidth 64 &&& EFI_PAGE_MASK))).toNat =
          (size.toNat + addr.toNat % 4096 + 4095) / 4096 := by
  have wide : 2 ^ w ≤ 2 ^ 64 := Nat.pow_le_pow_right (by decide) narrow
  have addrWide : (addr.setWidth 64).toNat = addr.toNat := by
    rw [toNat_setWidth]
    omega
  have sizeWide : (size.setWidth 64).toNat = size.toNat := by
    rw [toNat_setWidth]
    omega
  have mask : EFI_PAGE_MASK.toNat = 4095 := rfl
  rw [pageEnd] at inside
  constructor
  · rw [toNat_and_not_pageMask, addrWide]
  simp only [efiSizeInPages, EFI_PAGE_SHIFT, toNat_ushiftRight,
    toNat_add, toNat_and_pageMask, addrWide, sizeWide, mask,
    shiftRight_eq_div_pow]
  omega

theorem efiMapUpdateNotify_spec (narrow : w ≤ 64)
    (served : ∀ i, calloc i = true) (wellFormed : EfiWellFormed efi.efiMem)
    (fits : Fits addr size) (inside : 4096 * pageEnd addr size < 2 ^ 64)
    (op : LmbMapOp) :
    EfiWellFormed (efiMapUpdateNotify calloc efi addr size op).2.efiMem ∧
      ∀ page, pageAt (efiMapUpdateNotify calloc efi addr size op).2.efiMem page =
        if TouchesPage addr size page then
          some (BitVec.ofInt 32 op.memoryType, efiMemAttribute op.memoryType)
        else pageAt efi.efiMem page := by
  have pos := fits.pos
  obtain ⟨start, pages⟩ := toNat_notifiedPages narrow inside
  rw [pageEnd] at inside
  have valid : op.memoryType < EFI_MAX_MEMORY_TYPE := by cases op <;> decide
  rcases updated : efiUpdateMemoryMap calloc efi (addr.setWidth 64 &&& ~~~EFI_PAGE_MASK)
    (efiSizeInPages (size.setWidth 64 + (addr.setWidth 64 &&& EFI_PAGE_MASK)))
    op.memoryType false false with ⟨status, result⟩
  have success := efiUpdateMemoryMap_served served efi (addr.setWidth 64 &&& ~~~EFI_PAGE_MASK)
    (efiSizeInPages (size.setWidth 64 + (addr.setWidth 64 &&& EFI_PAGE_MASK)))
    valid false
  rw [updated] at success
  obtain rfl : status = .success := success
  have notified : efiMapUpdateNotify calloc efi addr size op = (0, result) := by
    rw [LmbMapOp.memoryType] at updated
    simp [efiMapUpdateNotify, updated]
  have nonempty : efiSizeInPages (size.setWidth 64 + (addr.setWidth 64 &&& EFI_PAGE_MASK)) ≠ 0 := by
    intro empty
    rw [empty] at pages
    have zero : (0 : BitVec 64).toNat = 0 := rfl
    omega
  obtain ⟨resultWellFormed, -, mapped⟩ := pageAt_efiUpdateMemoryMap wellFormed
    (by omega) nonempty (by omega) updated
  rw [notified]
  refine ⟨resultWellFormed, fun page => ?_⟩
  rw [mapped, start, pages]
  simp only [Bool.false_eq_true, if_false, TouchesPage, pageOf, pageEnd]
  congr 1
  rw [eq_iff_iff]
  omega

end Notify

/-- The calls of a run: banks of whole pages before anything is reserved, then
reservations that are passed on and releases. -/
def LmbCall.Notified (reserving : Bool) : LmbCall w → Prop
  | .add base size => reserving = false ∧ Fits base size ∧ 4096 ∣ base.toNat ∧ 4096 ∣ size.toNat
  | .reserve base size flags => Fits base size ∧ flags &&& LMB_NONOTIFY = 0
  | .alloc _ _ => False
  | .free base size => Fits base size

instance (reserving : Bool) (call : LmbCall w) : Decidable (call.Notified reserving) :=
  match call with
  | .add _ _ => inferInstanceAs (Decidable (_ ∧ _ ∧ _ ∧ _))
  | .reserve _ _ _ => inferInstanceAs (Decidable (_ ∧ _))
  | .alloc _ _ => inferInstanceAs (Decidable False)
  | .free base size => inferInstanceAs (Decidable (Fits base size))

def LmbCall.endsSetup : LmbCall w → Bool
  | .add _ _ => false
  | _ => true

/-- Runs from an empty allocator and an empty memory map with the EFI loader
enabled, each of whose calls is allowed. -/
inductive LmbEfiRun (allowed : LmbEnv → LmbSystem w → LmbCall w → Prop) :
    (reserving : Bool) → LmbSystem w → Prop
  | start : LmbEfiRun allowed false ⟨⟨[], [], false⟩, ⟨[], 0⟩⟩
  | call {reserving : Bool} {sys next : LmbSystem w} {ret : LmbReturn w}
      (run : LmbEfiRun allowed reserving sys) (env : LmbEnv) (call : LmbCall w)
      (enabled : env.efiLoader = true) (notified : call.Notified reserving)
      (isAllowed : allowed env sys call)
      (returned : lmbCall env sys call = some (ret, next)) :
      LmbEfiRun allowed (reserving || call.endsSetup) next

theorem LmbEfiRun.step {allowed : LmbEnv → LmbSystem w → LmbCall w → Prop} {reserving : Bool}
    {sys : LmbSystem w} (run : LmbEfiRun allowed reserving sys) (env : LmbEnv) (call : LmbCall w)
    (enabled : env.efiLoader = true) (notified : call.Notified reserving)
    (isAllowed : allowed env sys call) (returns : (lmbCall env sys call).isSome = true) :
    LmbEfiRun allowed (reserving || call.endsSetup) ((lmbCall env sys call).get returns).2 :=
  run.call env call enabled notified isAllowed (some_get returns).symm

/-- A call that keeps allocator and memory map in agreement: the memory map can
allocate its entries, and if the call is not refused the pages end below `2 ^ 64`
and a release leaves no reserved byte in the pages it touches. -/
def PageSafe (env : LmbEnv) (sys : LmbSystem w) (call : LmbCall w) : Prop :=
  (∀ i, env.calloc i = true) ∧
    match call with
    | .add _ _ => True
    | .reserve base size flags => Compatible sys.lmb.usedMem base size flags →
        4096 * pageEnd base size < 2 ^ 64
    | .alloc _ _ => True
    | .free base size => (∃ region ∈ sys.lmb.usedMem, Encloses base size region) →
        4096 * pageEnd base size < 2 ^ 64 ∧
        ∀ address, flagsAt sys.lmb.usedMem address ≠ none → TouchesPage base size (pageOf address) →
          base.toNat ≤ address ∧ address < base.toNat + size.toNat

/-- What holds along a run of page-safe calls. -/
structure LmbEfiInvariant (reserving : Bool) (sys : LmbSystem w) : Prop where
  lists : LmbInvariant sys.lmb
  live : sys.lmb.test = false
  efi : EfiWellFormed sys.efi.efiMem
  setup : reserving = false → sys.lmb.usedMem = []
  agrees : ∀ address, flagsAt sys.lmb.usedMem address ≠ none →
    ∀ attrib, pageAt sys.efi.efiMem (pageOf address) ≠
      some (BitVec.ofInt 32 EFI_CONVENTIONAL_MEMORY, attrib)

theorem LmbEfiInvariant.agreement {reserving : Bool} {sys : LmbSystem w}
    (invariant : LmbEfiInvariant reserving sys) : sys.Agrees := by
  intro address reserved desc descMem covers conventional
  apply invariant.agrees address reserved desc.attrib
  rw [← conventional]
  exact invariant.efi.apart.labelAt_of_mem descMem covers

section Steps

variable {env : LmbEnv} {sys : LmbSystem w} {reserving : Bool}
  {base size : BitVec w} {flags : BitVec 32}

theorem lmbMapUpdateNotify_passed (enabled : env.efiLoader = true)
    (live : sys.lmb.test = false) (notified : flags &&& LMB_NONOTIFY = 0)
    (op : LmbMapOp) :
    (lmbMapUpdateNotify env sys base size op flags).2 =
      ⟨sys.lmb, (efiMapUpdateNotify env.calloc sys.efi base size op).2⟩ := by
  rw [lmbMapUpdateNotify, if_pos ⟨enabled, by simp [live], notified⟩]

theorem touchesPage_of_mem {address : Nat} (low : base.toNat ≤ address)
    (high : address < base.toNat + size.toNat) :
    TouchesPage base size (pageOf address) := by
  simp only [TouchesPage, pageOf, pageEnd]
  omega

theorem pageEnd_of_aligned (narrow : w ≤ 64) (fits : Fits base size)
    (baseAligned : 4096 ∣ base.toNat) (sizeAligned : 4096 ∣ size.toNat) :
    4096 * pageEnd base size < 2 ^ 64 := by
  have noWrap := fits.noWrap
  have wide : 2 ^ w ≤ 2 ^ 64 := Nat.pow_le_pow_right (by decide) narrow
  rw [pageEnd]
  omega

section Kept

variable (narrow : w ≤ 64) (invariant : LmbEfiInvariant reserving sys)
  (enabled : env.efiLoader = true) (served : ∀ i, env.calloc i = true) (fits : Fits base size)

include narrow invariant enabled served fits

theorem LmbEfiInvariant.add (setup : reserving = false) (baseAligned : 4096 ∣ base.toNat)
    (sizeAligned : 4096 ∣ size.toNat) :
    LmbEfiInvariant false (lmbAdd env sys base size).2 := by
  obtain ⟨availableMem, equality, wellFormed, unflagged⟩ := lmbAdd_eq env invariant.lists fits
  obtain ⟨efiWellFormed, -⟩ := efiMapUpdateNotify_spec narrow served invariant.efi
    fits (pageEnd_of_aligned narrow fits baseAligned sizeAligned) .add
  have live : (sys.setAvailable availableMem).lmb.test = false := invariant.live
  have noneUsed := invariant.setup setup
  rw [equality, lmbMapUpdateNotify_passed enabled live rfl]
  refine ⟨⟨wellFormed, invariant.lists.used, unflagged⟩, live, efiWellFormed,
    fun _ => noneUsed, fun address reserved => ?_⟩
  exact absurd (by rw [LmbSystem.setAvailable_lmb, noneUsed]; rfl) reserved

theorem LmbEfiInvariant.reserve (notified : flags &&& LMB_NONOTIFY = 0)
    (inside : Compatible sys.lmb.usedMem base size flags → 4096 * pageEnd base size < 2 ^ 64) :
    LmbEfiInvariant true (lmbReserve env sys base size flags).2 := by
  rcases lmbReserve_eq env flags invariant.lists.used fits with
      ⟨-, equality⟩ | ⟨usedMem, compatible, added, equality, wellFormed⟩
  · rw [equality]
    exact ⟨invariant.lists, invariant.live, invariant.efi, by simp, invariant.agrees⟩
  obtain ⟨efiWellFormed, mapped⟩ := efiMapUpdateNotify_spec narrow served
    invariant.efi fits (inside compatible) .reserve
  have live : (sys.setUsed usedMem).lmb.test = false := invariant.live
  have recorded := flagsAt_lmbAddRegionFlags invariant.lists.used fits compatible added
  rw [equality, lmbMapUpdateNotify_passed enabled live notified]
  refine ⟨invariant.lists.setUsed wellFormed, live, efiWellFormed, by simp, ?_⟩
  intro address reserved attrib
  have reserved : flagsAt usedMem address ≠ none := reserved
  apply ne_of_eq_of_ne (mapped (pageOf address))
  split_ifs with touches
  · intro same
    have sameType : BitVec.ofInt 32 LmbMapOp.reserve.memoryType =
        BitVec.ofInt 32 EFI_CONVENTIONAL_MEMORY :=
      congrArg Prod.fst (some.inj same)
    cases sameType
  · apply invariant.agrees address _ attrib
    rw [recorded] at reserved
    rwa [if_neg fun inRequest =>
      touches (touchesPage_of_mem inRequest.1.1 inRequest.1.2)] at reserved

/-- A release is passed on safely if nothing else is reserved in the pages it
touches. -/
theorem LmbEfiInvariant.free (safe : (∃ region ∈ sys.lmb.usedMem, Encloses base size region) →
      4096 * pageEnd base size < 2 ^ 64 ∧
      ∀ address, flagsAt sys.lmb.usedMem address ≠ none → TouchesPage base size (pageOf address) →
        base.toNat ≤ address ∧ address < base.toNat + size.toNat) :
    LmbEfiInvariant true (lmbFree env sys base size).2 := by
  rcases lmbFree_eq env invariant.lists.used fits with
      equality | ⟨usedMem, enclosed, equality, wellFormed, -, stop, high, -, recorded⟩
  · rw [equality]
    exact ⟨invariant.lists, invariant.live, invariant.efi, by simp, invariant.agrees⟩
  obtain ⟨inside, alone⟩ := safe enclosed
  obtain ⟨efiWellFormed, mapped⟩ := efiMapUpdateNotify_spec narrow served
    invariant.efi fits inside .free
  have live : (sys.setUsed usedMem).lmb.test = false := invariant.live
  rw [equality, lmbMapUpdateNotify_passed enabled live rfl]
  refine ⟨invariant.lists.setUsed wellFormed, live, efiWellFormed, by simp, ?_⟩
  intro address reserved attrib
  have reserved : flagsAt usedMem address ≠ none := reserved
  rw [recorded] at reserved
  split_ifs at reserved with released
  · exact absurd rfl reserved
  apply ne_of_eq_of_ne (mapped (pageOf address))
  rw [if_neg]
  · exact invariant.agrees address reserved attrib
  · intro touches
    obtain ⟨low, below⟩ := alone address reserved touches
    exact released ⟨low, by omega⟩

end Kept

theorem LmbEfiRun.invariant (narrow : w ≤ 64) (run : LmbEfiRun PageSafe reserving sys) :
    LmbEfiInvariant reserving sys := by
  induction run with
  | start =>
    exact ⟨⟨WellFormed.nil, WellFormed.nil, by simp⟩, rfl,
      ⟨by simp, List.Pairwise.nil⟩, fun _ => rfl, by simp⟩
  | @call reserving sys next ret _ env call enabled notified safe returned ih =>
    obtain ⟨served, safe⟩ := safe
    cases call with
    | add base size =>
      obtain ⟨rfl, fits, baseAligned, sizeAligned⟩ := notified
      cases returned
      exact ih.add narrow enabled served fits rfl baseAligned sizeAligned
    | reserve base size flags =>
      cases returned
      change LmbEfiInvariant (reserving || true) _
      rw [Bool.or_true]
      exact ih.reserve narrow enabled served notified.1 notified.2 safe
    | alloc size align => exact notified.elim
    | free base size =>
      cases returned
      change LmbEfiInvariant (reserving || true) _
      rw [Bool.or_true]
      exact ih.free narrow enabled served notified safe

/-- Along a run of page-safe calls no page with a reserved byte is ever
reported as conventional memory. -/
theorem lmbEfiRun_agrees (narrow : w ≤ 64) (run : LmbEfiRun PageSafe reserving sys) : sys.Agrees :=
  (run.invariant narrow).agreement

end Steps

/-- Releasing the first page of a reservation that reaches into a second
one. -/
theorem lmbEfiRun_agrees_page : ∃ sys : LmbSystem 32, LmbEfiRun PageSafe true sys ∧ sys.Agrees ∧
      sys.lmb.usedMem = [⟨0x2000, 0x800, LMB_NONE⟩] := by
  let env : LmbEnv := ⟨true, fun _ => true⟩
  have bank := (@LmbEfiRun.start 32 PageSafe).step env (.add 0 0x10000) rfl
    (by decide) ⟨fun _ => rfl, trivial⟩ (by decide)
  have reserved := bank.step env (.reserve 0x1000 0x1800 LMB_NONE) rfl (by decide)
    ⟨fun _ => rfl, fun _ => by decide⟩ (by decide)
  have released := by
    refine reserved.step env (.free 0x1000 0x1000) rfl (by decide)
      ⟨fun _ => rfl, fun _ => ⟨by decide, ?_⟩⟩ (by decide)
    intro address isReserved touches
    obtain ⟨flags, found⟩ := ne_none_iff_exists'.mp isReserved
    obtain ⟨region, regionMem, covers, -⟩ := SpanView.exists_of_labelAt_eq_some found
    simp [lmbView_covers, LmbRegion.top, TouchesPage, pageOf, pageEnd] at covers touches ⊢
    omega
  exact ⟨_, released, lmbEfiRun_agrees (by decide) released, by decide⟩

/-- Releasing one half of a page whose other half is reserved as well reports
the page as conventional memory. -/
theorem lmbFree_not_agrees : let env : LmbEnv := ⟨true, fun _ => true⟩
    let calls : List (LmbCall 32) :=
      [.add 0 0x10000, .reserve 0x1000 0x800 LMB_NONE,
        .reserve 0x1800 0x800 LMB_NOMAP, .free 0x1800 0x800]
    ∃ sys, lmbRun env ⟨⟨[], [], false⟩, ⟨[], 0⟩⟩ calls = some sys ∧
      LmbEfiRun (fun _ _ _ => True) true sys ∧ ¬ sys.Agrees := by
  intro env calls
  have bank := (@LmbEfiRun.start 32 fun _ _ _ => True).step env (.add 0 0x10000) rfl
    (by decide) trivial (by decide)
  have lower := bank.step env (.reserve 0x1000 0x800 LMB_NONE) rfl (by decide) trivial (by decide)
  have upper := lower.step env (.reserve 0x1800 0x800 LMB_NOMAP) rfl (by decide) trivial (by decide)
  have released := upper.step env (.free 0x1800 0x800) rfl (by decide) trivial (by decide)
  refine ⟨_, by decide, released, fun agrees => ?_⟩
  exact agrees 0x1000 (by decide) ⟨7, 0, 0, 16, EFI_MEMORY_WB⟩ (by decide) (by decide) rfl

end UBoot
