import Mathlib.Data.Fintype.Pi
import UBoot.AndroidAb

/-!
# The boot control block across power cuts

The block is kept twice on the disk.  A call of `ab_select_slot` works on the first copy
whose checksum is right, and writes the primary copy before the backup.  As long as no
primary write fails unnoticed or is torn while the backup is behind, the two copies are as
good as one block that every call updates at once.
-/

namespace UBoot

deriving instance DecidableEq for BootloaderControl

/-- A copy of the block: the fields that are read, the other bytes, and whether the checksum
is right. -/
structure AbCopy (Rest : Type) where
  block : BootloaderControl
  rest : Rest
  good : Bool
  deriving DecidableEq

/-- What becomes of a write: a copy that is torn has a wrong checksum.  A write that fails is
noticed if it ends the call, by a power cut or by an error value of the driver; some drivers
answer a failure with the number of blocks 0, which `ab_control_store` takes for success. -/
inductive AbWrite (Rest : Type)
  | stored
  | refused (noticed : Bool)
  | torn (block : BootloaderControl) (rest : Rest) (noticed : Bool)

structure AbDisk (Rest : Type) where
  (primary backup : AbCopy Rest)

/-- A call, with what becomes of its two writes. -/
structure AbCall (Rest : Type) where
  decTries : Bool
  (first second : AbWrite Rest)

def abControlDefault (abc : BootloaderControl) : BootloaderControl where
  slotSuffix := [0x5f, 0x61, 0, 0]
  magic := BOOT_CTRL_MAGIC
  version := BOOT_CTRL_VERSION
  nbSlot := 2
  slotInfo i := if i.val < 2 then ⟨15, 7, false, false⟩ else abc.slotInfo i

section Store

variable {Rest : Type}

def AbWrite.isStored : AbWrite Rest → Bool
  | stored => true
  | _ => false

def AbWrite.isTorn : AbWrite Rest → Bool
  | torn _ _ _ => true
  | _ => false

def AbWrite.endsCall : AbWrite Rest → Bool
  | stored => false
  | refused noticed => noticed
  | torn _ _ noticed => noticed

/-- A write that is completed or cut off. -/
def AbWrite.isCut (write : AbWrite Rest) : Bool :=
  write.isStored || write.isTorn && write.endsCall

def abControlStore (old new : AbCopy Rest) : AbWrite Rest → AbCopy Rest
  | .stored => new
  | .refused _ => old
  | .torn block rest _ => ⟨block, rest, false⟩

variable (clear : Rest → Rest)

/-- The block in memory, whose checksum is right when it is written. -/
def AbDisk.load (d : AbDisk Rest) : AbCopy Rest :=
  if d.primary.good then d.primary
  else if d.backup.good then d.backup
  else ⟨abControlDefault d.primary.block, clear d.primary.rest, true⟩

def BootloaderControl.Known (abc : BootloaderControl) : Prop :=
  abc.magic = BOOT_CTRL_MAGIC ∧ abc.version ≤ BOOT_CTRL_VERSION

instance (abc : BootloaderControl) : Decidable abc.Known := inferInstanceAs (Decidable (_ ∧ _))

/-- The block after a call that is not disturbed. -/
def AbCopy.select (m : AbCopy Rest) (decTries : Bool) : AbCopy Rest :=
  { m with block := (abSelectSlot m.block decTries).2.1 }

variable [DecidableEq Rest]

/-- `ab_select_slot` with the copies on the disk. -/
def AbDisk.abSelectSlot (d : AbDisk Rest) (call : AbCall Rest) :
    Except Int (Fin 4) × AbDisk Rest :=
  let abc := d.load clear
  let (slot, _, storeNeeded) := UBoot.abSelectSlot abc.block call.decTries
  if ¬abc.block.Known then (slot, d)
  else
    let new := abc.select call.decTries
    let writes := storeNeeded || !d.primary.good
    let primary := if writes then abControlStore d.primary new call.first else d.primary
    if writes && call.first.endsCall then (.error (-eio), { d with primary })
    else if d.backup = new then (slot, { d with primary })
    else (if call.second.endsCall then .error (-eio) else slot,
      ⟨primary, abControlStore d.backup new call.second⟩)

/-- The slots that the calls of a run return, and the disk behind it. -/
def AbDisk.run (d : AbDisk Rest) : List (AbCall Rest) → List (Fin 4) × AbDisk Rest
  | [] => ([], d)
  | call :: calls =>
    let (slot, d) := d.abSelectSlot clear call
    let (slots, d) := d.run calls
    (slot.toOption.toList ++ slots, d)

end Store

section Select

variable {abc : BootloaderControl} {decTries : Bool}

/-- What a call does to a block that it knows. -/
structure Selected (abc : BootloaderControl) (decTries : Bool)
    (slot : Except Int (Fin 4)) (after : BootloaderControl) (storeNeeded : Bool) : Prop where
  known : after.Known
  same : storeNeeded = false → after = abc
  attempted : ∀ i, slot = .ok i → (abc.slotInfo i).successfulBoot = false → decTries = true →
    (abc.slotInfo i).triesRemaining ≠ 0 ∧ after.slotInfo = Function.update abc.slotInfo i
      { abc.slotInfo i with triesRemaining := (abc.slotInfo i).triesRemaining - 1 }
  spared : ∀ i, slot ≠ .ok i → after.slotInfo i = abc.slotInfo i

theorem selected_abSelectSlot (known : abc.Known) (decTries : Bool) :
    Selected abc decTries (abSelectSlot abc decTries).1 (abSelectSlot abc decTries).2.1
      (abSelectSlot abc decTries).2.2 := by
  rw [abSelectSlot, if_neg (by simp [known.1, known.2])]
  have inArray : (if abc.nbSlot.toNat > 4 then 4 else abc.nbSlot).toNat ≤ 4 := by
    split
    · decide
    · omega
  have chosen := (bestSlot_selectLoop abc.slotInfo inArray).passes
  dsimp only
  generalize selectLoop abc.slotInfo _ = slot at chosen
  cases slot with
  | none =>
    refine ⟨known, fun fits => ?_, by simp, fun _ _ => rfl⟩
    rw [if_neg (of_decide_eq_false fits)]
  | some slot =>
    have left := ((abc.slotInfo slot).bootable_iff.1 (chosen slot rfl).2).2
    refine ⟨known, fun same => ?_, fun i isSlot fresh dec => ?_, fun i other => ?_⟩
    · simp only [Bool.or_eq_false_iff, decide_eq_false_iff_not, not_not] at same
      simp only [if_neg same.1.1, same.1.2, ← same.2, Bool.false_eq_true, if_false]
    · cases isSlot
      simpa [fresh, dec] using left
    · dsimp only
      split
      · rw [Function.update_of_ne (fun isSlot => other (by rw [isSlot]))]
      · rfl

theorem Selected.tries {slot : Except Int (Fin 4)} {after : BootloaderControl}
    {storeNeeded : Bool} {i : Fin 4} (selected : Selected abc decTries slot after storeNeeded)
    (dec : decTries = true) (fresh : (abc.slotInfo i).successfulBoot = false) :
    (after.slotInfo i).successfulBoot = false ∧ slot.toOption.toList.count i +
      (after.slotInfo i).triesRemaining.toNat = (abc.slotInfo i).triesRemaining.toNat := by
  by_cases isSlot : slot = .ok i
  · obtain ⟨left, info⟩ := selected.attempted i isSlot fresh dec
    rw [info, Function.update_self, isSlot]
    refine ⟨fresh, ?_⟩
    simp only [Except.toOption, Option.toList, List.count_singleton_self]
    bv_omega
  · rw [selected.spared i isSlot]
    refine ⟨fresh, ?_⟩
    rw [List.count_eq_zero_of_not_mem, zero_add]
    rintro listed
    cases slot with
    | error => simp [Except.toOption] at listed
    | ok j => simp_all [Except.toOption]

end Select

section Run

variable {Rest : Type} {clear : Rest → Rest} {d : AbDisk Rest} {m : AbCopy Rest}
  {call : AbCall Rest} {behind : Bool}

/-- The copies stand for one block, and the backup may be behind. -/
structure AbDisk.Holds (d : AbDisk Rest) (m : AbCopy Rest) (behind : Bool) : Prop where
  good : m.good = true
  known : m.block.Known
  primary : d.primary.good = true ∨ behind = true → d.primary = m
  backup : behind = false → d.backup = m

/-- The block behind a call, if the two writes of the call were one. -/
def AbCall.atomic (m : AbCopy Rest) (call : AbCall Rest) : AbCopy Rest :=
  if call.first.isStored then m.select call.decTries else m

def AbCall.leavesBehind (behind : Bool) (call : AbCall Rest) : Bool :=
  if call.first.isStored then !call.second.isStored else behind

/-- The slots that the calls of a run on one block return, and the block behind it. -/
def atomicRun (m : AbCopy Rest) : List (AbCall Rest) → List (Fin 4) × AbCopy Rest
  | [] => ([], m)
  | call :: calls =>
    let (slots, last) := atomicRun (call.atomic m) calls
    let (slot, _, storeNeeded) := abSelectSlot m.block call.decTries
    ((if storeNeeded && !call.first.isStored then [] else slot.toOption.toList) ++ slots, last)

/-- No primary write fails without being noticed, or is torn while the backup may be behind. -/
def Spared : Bool → List (AbCall Rest) → Prop
  | _, [] => True
  | behind, call :: calls => (call.first.isStored = false → call.first.endsCall = true) ∧
    (behind = true → call.first.isTorn = false) ∧ Spared (call.leavesBehind behind) calls

theorem atomicRun_snd (m : AbCopy Rest) (calls : List (AbCall Rest)) :
    (atomicRun m calls).2 = calls.foldl AbCall.atomic m := by
  induction calls generalizing m with
  | nil => rfl
  | cons call calls ih => exact ih (call.atomic m)

theorem AbDisk.Holds.survives (holds : d.Holds m behind) :
    d.primary.good = true ∨ d.backup.good = true := by
  cases behind with
  | true => exact .inl (holds.primary (.inr rfl) ▸ holds.good)
  | false => exact .inr (holds.backup rfl ▸ holds.good)

theorem AbDisk.Holds.load_eq (holds : d.Holds m behind) : d.load clear = m := by
  unfold load
  split
  next isGood => exact holds.primary (.inl isGood)
  next bad =>
    have current : behind = false := by
      by_contra isBehind
      rw [holds.primary (.inr (Bool.eq_true_of_not_eq_false isBehind)), holds.good] at bad
      exact bad rfl
    rw [holds.backup current, if_pos holds.good]

theorem AbDisk.holds_twice (good : m.good = true) (known : m.block.Known) :
    (AbDisk.mk m m).Holds m false := ⟨good, known, fun _ => rfl, fun _ => rfl⟩

theorem atomicRun_attempts {i : Fin 4} (calls : List (AbCall Rest))
    (dec : ∀ call ∈ calls, call.decTries = true) (known : m.block.Known)
    (fresh : (m.block.slotInfo i).successfulBoot = false) :
    (atomicRun m calls).1.count i + ((atomicRun m calls).2.block.slotInfo i).triesRemaining.toNat =
      (m.block.slotInfo i).triesRemaining.toNat := by
  induction calls generalizing m with
  | nil => simp [atomicRun]
  | cons call calls ih =>
    rw [List.forall_mem_cons] at dec
    have selected := selected_abSelectSlot known call.decTries
    obtain ⟨stays, tries⟩ := selected.tries dec.1 fresh
    simp only [atomicRun, AbCall.atomic, List.count_append]
    cases call.first.isStored with
    | true =>
      have later := ih (m := m.select call.decTries) dec.2 selected.known stays
      rw [← tries, Bool.not_true, Bool.and_false, if_neg Bool.false_ne_true, if_pos rfl]
      simp only [AbCopy.select] at later ⊢
      omega
    | false =>
      have later := ih dec.2 known fresh
      rw [if_neg Bool.false_ne_true]
      split
      next => simpa using later
      next unneeded =>
        rw [selected.same (by simpa using unneeded)] at tries
        omega

variable [DecidableEq Rest] (clear)

theorem AbDisk.Holds.step (holds : d.Holds m behind)
    (noticed : call.first.isStored = false → call.first.endsCall = true)
    (spared : behind = true → call.first.isTorn = false) :
    (d.abSelectSlot clear call).2.Holds (call.atomic m) (call.leavesBehind behind) := by
  have selected := selected_abSelectSlot holds.known call.decTries
  unfold AbDisk.abSelectSlot AbCall.atomic AbCall.leavesBehind
  simp only [holds.load_eq, if_neg (not_not.2 holds.known)]
  generalize isNew : m.select call.decTries = new
  have newGood : new.good = true := by
    rw [← isNew]
    exact holds.good
  have newKnown : new.block.Known := by
    rw [← isNew]
    exact selected.known
  generalize needed : ((UBoot.abSelectSlot m.block call.decTries).2.2 || !d.primary.good) = writes
  have kept : writes = false → new = m ∧ d.primary = m := by
    rintro rfl
    rw [Bool.or_eq_false_iff, Bool.not_eq_false'] at needed
    rw [← isNew, AbCopy.select, selected.same needed.1]
    exact ⟨rfl, holds.primary (.inl needed.2)⟩
  have idle : ∀ backup, writes = false → backup = d.backup ∨ d.backup ≠ new →
      AbDisk.Holds ⟨d.primary, backup⟩ m behind := by
    intro backup unneeded lags
    refine ⟨holds.good, holds.known, fun _ => (kept unneeded).2, fun current => ?_⟩
    rcases lags with rfl | other
    · exact holds.backup current
    · exact absurd ((holds.backup current).trans (kept unneeded).1.symm) other
  by_cases stops : writes = false ∧ call.first.isStored = false
  · obtain ⟨rfl, unstored⟩ := stops
    simp only [unstored, Bool.false_and, Bool.false_eq_true, if_false]
    split
    next => exact idle _ rfl (.inl rfl)
    next other => exact idle _ rfl (.inr other)
  cases first : call.first with
  | stored =>
    have primary : (if writes = true then abControlStore d.primary new .stored else d.primary) =
        new := by
      cases writes
      · exact (kept rfl).2.trans (kept rfl).1.symm
      · rfl
    simp only [primary, AbWrite.isStored, AbWrite.endsCall, Bool.and_false, Bool.false_eq_true,
      if_false, if_true]
    split
    next same => exact ⟨newGood, newKnown, fun _ => rfl, fun _ => same⟩
    next =>
      refine ⟨newGood, newKnown, fun _ => rfl, fun current => ?_⟩
      cases second : call.second <;> simp_all [abControlStore]
  | refused =>
    obtain rfl : writes = true := by simpa [first, AbWrite.isStored] using stops
    rw [first] at noticed
    obtain rfl := noticed rfl
    exact holds
  | torn block rest =>
    obtain rfl : writes = true := by simpa [first, AbWrite.isStored] using stops
    rw [first] at noticed
    obtain rfl := noticed rfl
    refine ⟨holds.good, holds.known, fun untorn => ?_, holds.backup⟩
    rw [first] at spared
    rcases untorn with isGood | isBehind
    · cases isGood
    · cases spared isBehind

theorem AbDisk.Holds.slots_sublist (holds : d.Holds m behind)
    (noticed : call.first.isStored = false → call.first.endsCall = true) :
    (d.abSelectSlot clear call).1.toOption.toList.Sublist
      (if (UBoot.abSelectSlot m.block call.decTries).2.2 && !call.first.isStored then []
        else (UBoot.abSelectSlot m.block call.decTries).1.toOption.toList) := by
  unfold AbDisk.abSelectSlot
  simp only [holds.load_eq, if_neg (not_not.2 holds.known)]
  split_ifs <;> simp_all [Except.toOption]

theorem AbDisk.Holds.run (holds : d.Holds m behind) (calls : List (AbCall Rest))
    (spared : Spared behind calls) :
    (d.run clear calls).1.Sublist (atomicRun m calls).1 ∧
      ∃ behind, (d.run clear calls).2.Holds (atomicRun m calls).2 behind := by
  induction calls generalizing d m behind with
  | nil => exact ⟨.slnil, behind, holds⟩
  | cons call calls ih =>
    obtain ⟨slots, last⟩ := ih (holds.step clear spared.1 spared.2.1) spared.2.2
    exact ⟨(holds.slots_sublist clear spared.1).append slots, last⟩

/-- As long as no primary write fails unnoticed or is torn while the backup may be behind, power
cuts and write errors are as if they met one block that is updated at once: the next call finds
that block, and the slots returned are slots of that block. -/
theorem abRun_atomic (clear : Rest → Rest) (m : AbCopy Rest) (calls : List (AbCall Rest))
    (good : m.good = true) (known : m.block.Known) (spared : Spared false calls) :
    ((AbDisk.mk m m).run clear calls).1.Sublist (atomicRun m calls).1 ∧
      ((AbDisk.mk m m).run clear calls).2.load clear = (atomicRun m calls).2 := by
  obtain ⟨slots, _, last⟩ := (AbDisk.holds_twice good known).run clear calls spared
  exact ⟨slots, last.load_eq⟩

/-- In such a run a slot that has not booted is returned at most as often as it has tries, and
each time costs one of them. -/
theorem abRun_attempts (clear : Rest → Rest) (m : AbCopy Rest) (calls : List (AbCall Rest))
    (i : Fin 4) (good : m.good = true) (known : m.block.Known) (spared : Spared false calls)
    (dec : ∀ call ∈ calls, call.decTries = true)
    (fresh : (m.block.slotInfo i).successfulBoot = false) :
    ((AbDisk.mk m m).run clear calls).1.count i +
        ((((AbDisk.mk m m).run clear calls).2.load clear).block.slotInfo i).triesRemaining.toNat ≤
      (m.block.slotInfo i).triesRemaining.toNat := by
  obtain ⟨slots, _, last⟩ := (AbDisk.holds_twice good known).run clear calls spared
  rw [last.load_eq, ← atomicRun_attempts calls dec known fresh]
  exact Nat.add_le_add_right (slots.count_le i) _

/-- Where calls are only cut off in a write, and none in its primary write while the backup may
be behind, a good copy is left that is the last block completely stored, and a slot that does
not boot is returned at most as often as it had tries. -/
theorem abRun_survives (clear : Rest → Rest) (m : AbCopy Rest) (calls : List (AbCall Rest))
    (good : m.good = true) (known : m.block.Known) (spared : Spared false calls)
    (cut : ∀ call ∈ calls, call.decTries = true ∧ call.first.isCut ∧ call.second.isCut) :
    let (slots, d) := (AbDisk.mk m m).run clear calls
    (d.primary.good = true ∨ d.backup.good = true) ∧
      d.load clear = calls.foldl AbCall.atomic m ∧
      ∀ i, (m.block.slotInfo i).successfulBoot = false →
        slots.count i ≤ (m.block.slotInfo i).triesRemaining.toNat := by
  obtain ⟨slots, _, last⟩ := (AbDisk.holds_twice good known).run clear calls spared
  rw [atomicRun_snd] at last
  refine ⟨last.survives, last.load_eq, fun i fresh => ?_⟩
  have attempts := atomicRun_attempts calls (fun call mem => (cut call mem).1) known fresh
  have count := slots.count_le i
  omega

/-- A backup write that is torn, a call that repairs the backup, and a torn primary write. -/
def tornCalls : List (AbCall Unit) :=
  [⟨true, .stored, .torn (bootedSlots 15) () true⟩, ⟨true, .stored, .stored⟩,
    ⟨true, .torn (bootedSlots 0) () true, .stored⟩]

theorem spared_tornCalls : Spared false tornCalls := by
  simp [tornCalls, Spared]
  decide

def bootedCopy : AbCopy Unit := ⟨bootedSlots 15, (), true⟩

theorem abRun_atomic_torn :
    ((AbDisk.mk bootedCopy bootedCopy).run id tornCalls).2.load id =
      (atomicRun bootedCopy tornCalls).2 :=
  (abRun_atomic id bootedCopy tornCalls rfl (by decide) spared_tornCalls).2

theorem abRun_attempts_torn : ((AbDisk.mk bootedCopy bootedCopy).run id tornCalls).1.count 1 ≤ 7 :=
  (Nat.le_add_right _ _).trans (abRun_attempts id bootedCopy tornCalls 1 rfl (by decide)
    spared_tornCalls (by simp [tornCalls]) rfl)

theorem abRun_survives_torn :
    ((AbDisk.mk bootedCopy bootedCopy).run id tornCalls).2.load id =
      tornCalls.foldl AbCall.atomic bootedCopy :=
  (abRun_survives id bootedCopy tornCalls rfl (by decide) spared_tornCalls (by decide)).2.1

/-- A backup write and then a primary write that are cut off: the tries are as at the start. -/
theorem abRun_reinitialised :
    let calls : List (AbCall Unit) := [⟨true, .stored, .torn (bootedSlots 15) () true⟩,
      ⟨true, .torn (bootedSlots 15) () true, .stored⟩]
    let d := ((AbDisk.mk bootedCopy bootedCopy).run id calls).2
    (∀ call ∈ calls, call.decTries = true ∧ call.first.isCut ∧ call.second.isCut) ∧
      ¬(d.primary.good = true ∨ d.backup.good = true) ∧
      d.load id = ⟨abControlDefault (bootedSlots 15), (), true⟩ ∧
      d.load id ≠ calls.foldl AbCall.atomic bootedCopy := by decide

end Run

end UBoot
