import Mathlib.Data.Fin.Basic
import UBoot.Common

/-!
# The choice of an A/B slot

`ab_select_slot` on the boot control block that it has loaded.  A slot that has booted
successfully may be chosen without tries left by the comment in the source, but the
loop passes over every slot that has none.
-/

namespace UBoot

def ENODATA : Int := 61

def BOOT_CTRL_MAGIC : UInt32 := 0x42414342

def BOOT_CTRL_VERSION : UInt8 := 1

structure SlotMetadata where
  priority : BitVec 4
  triesRemaining : BitVec 3
  successfulBoot : Bool
  verityCorrupted : Bool
  deriving DecidableEq

structure BootloaderControl where
  slotSuffix : List UInt8
  magic : UInt32
  version : UInt8
  nbSlot : BitVec 3
  slotInfo : Fin 4 → SlotMetadata

/-- Negative if the first slot is better. -/
def abCompareSlots (a b : SlotMetadata) : Int :=
  if a.priority ≠ b.priority then (b.priority.toNat : Int) - a.priority.toNat
  else if a.successfulBoot ≠ b.successfulBoot then
    (b.successfulBoot.toNat : Int) - a.successfulBoot.toNat
  else if a.triesRemaining ≠ b.triesRemaining then
    (b.triesRemaining.toNat : Int) - a.triesRemaining.toNat
  else 0

variable (s : SlotMetadata)

def SlotMetadata.bootable : Bool := !s.verityCorrupted && s.triesRemaining ≠ 0

def selectRound (info : Fin 4 → SlotMetadata) (slot : Option (Fin 4)) (i : Fin 4) :
    Option (Fin 4) :=
  if (info i).bootable then
    match slot with
    | none => some i
    | some best => if abCompareSlots (info i) (info best) < 0 then some i else slot
  else slot

def selectLoop (info : Fin 4 → SlotMetadata) : Nat → Option (Fin 4)
  | 0 => none
  | i + 1 => if inArray : i < 4 then selectRound info (selectLoop info i) ⟨i, inArray⟩
    else selectLoop info i

def abSelectSlot (abc : BootloaderControl) (decTries : Bool) :
    Except Int (Fin 4) × BootloaderControl × Bool :=
  if abc.magic ≠ BOOT_CTRL_MAGIC ∨ abc.version > BOOT_CTRL_VERSION then
    (.error (-ENODATA), abc, false)
  else
    let limited := { abc with nbSlot := if abc.nbSlot.toNat > 4 then 4 else abc.nbSlot }
    let storeNeeded := decide (abc.nbSlot.toNat > 4)
    match selectLoop limited.slotInfo limited.nbSlot.toNat with
    | none => (.error (-EINVAL), limited, storeNeeded)
    | some slot =>
      let metadata := limited.slotInfo slot
      let attempt := !metadata.successfulBoot && decTries
      let info := if attempt then Function.update limited.slotInfo slot
          { metadata with triesRemaining := metadata.triesRemaining - 1 }
        else limited.slotInfo
      let suffix : List UInt8 := [0x5f, UInt8.ofNat (0x61 + slot), 0, 0]
      (.ok slot, { limited with slotSuffix := suffix, slotInfo := info },
        storeNeeded || attempt || decide (limited.slotSuffix ≠ suffix))

/-- A slot that may be chosen: it is not corrupted, and it has tries left or has booted. -/
def SlotMetadata.eligible : Bool := !s.verityCorrupted && (s.triesRemaining ≠ 0 || s.successfulBoot)

/-- The slot is the best of the first ones that pass a test, the lowest one on ties, and there
is one if any of them passes. -/
structure BestSlot (info : Fin 4 → SlotMetadata) (test : SlotMetadata → Bool) (count : Nat)
    (slot : Option (Fin 4)) : Prop where
  passes : ∀ i ∈ slot, i < count ∧ test (info i) = true
  best : ∀ j : Fin 4, j < count → test (info j) = true →
    ∃ i ∈ slot, 0 ≤ abCompareSlots (info j) (info i) ∧
      (abCompareSlots (info j) (info i) = 0 → i ≤ j)

section Select

variable {info : Fin 4 → SlotMetadata} {slot : Option (Fin 4)} {count : Nat} {i : Fin 4}

def SlotMetadata.rank : Nat :=
  s.priority.toNat * 16 + s.successfulBoot.toNat * 8 + s.triesRemaining.toNat

theorem abCompareSlots_rank (a b : SlotMetadata) :
    (0 ≤ abCompareSlots a b ↔ a.rank ≤ b.rank) ∧ (abCompareSlots a b = 0 ↔ a.rank = b.rank) := by
  have tries := a.triesRemaining.isLt
  have tries' := b.triesRemaining.isLt
  unfold abCompareSlots SlotMetadata.rank
  cases a.successfulBoot <;> cases b.successfulBoot <;>
    simp only [ne_eq, ← BitVec.toNat_inj, Bool.toNat_true, Bool.toNat_false, reduceCtorEq,
      not_true_eq_false, not_false_eq_true, if_true, if_false] <;> split_ifs <;> omega

theorem selectRound_cases : (selectRound info slot i = slot ∧ ((info i).bootable = true →
        ∃ b ∈ slot, 0 ≤ abCompareSlots (info i) (info b))) ∨
      (selectRound info slot i = some i ∧ (info i).bootable = true ∧
        ∀ b ∈ slot, abCompareSlots (info i) (info b) < 0) := by
  unfold selectRound
  by_cases boots : (info i).bootable = true
  · cases slot with
    | none => simp [boots]
    | some b =>
      by_cases better : abCompareSlots (info i) (info b) < 0
      · simp [boots, better]
      · simp [boots, better, Int.not_lt.1 better]
  · simp [boots]

theorem BestSlot.round (before : BestSlot info SlotMetadata.bootable i slot) :
    BestSlot info SlotMetadata.bootable (i + 1) (selectRound info slot i) := by
  have upTo : ∀ j : Fin 4, (j : Nat) < i + 1 → (j : Nat) < i ∨ j = i := by
    intro j below
    omega
  rcases @selectRound_cases info slot i with ⟨same, loses⟩ | ⟨same, boots, beats⟩ <;> rw [same]
  · refine ⟨fun b chosen => ⟨?_, (before.passes b chosen).2⟩, fun j below jBoots => ?_⟩
    · have := (before.passes b chosen).1
      omega
    rcases upTo j below with earlier | rfl
    · exact before.best j earlier jBoots
    · obtain ⟨b, chosen, atLeast⟩ := loses jBoots
      exact ⟨b, chosen, atLeast, fun _ => Fin.le_def.2 (before.passes b chosen).1.le⟩
  refine ⟨by simpa using boots, fun j below jBoots => ⟨i, rfl, ?_⟩⟩
  rcases upTo j below with earlier | rfl
  · obtain ⟨b, chosen, atLeast, -⟩ := before.best j earlier jBoots
    have worse := (beats b chosen).not_ge
    simp only [abCompareSlots_rank] at atLeast worse ⊢
    omega
  · simp [abCompareSlots_rank]

theorem bestSlot_selectLoop (info : Fin 4 → SlotMetadata) (inArray : count ≤ 4) :
    BestSlot info SlotMetadata.bootable count (selectLoop info count) := by
  induction count with
  | zero => exact ⟨by simp [selectLoop], by simp⟩
  | succ i ih =>
    have less : i < 4 := inArray
    rw [selectLoop, dif_pos less]
    exact BestSlot.round (i := ⟨i, less⟩) (ih less.le)

theorem SlotMetadata.bootable_iff :
    s.bootable = true ↔ s.eligible = true ∧ s.triesRemaining ≠ 0 := by
  unfold bootable eligible
  by_cases spent : s.triesRemaining = 0#3 <;> simp [spent]

theorem SlotMetadata.rank_mod : s.rank % 8 = s.triesRemaining.toNat := by
  have := s.triesRemaining.isLt
  unfold rank
  omega

/-- The best slot with tries is the best eligible one if it beats those without tries. -/
theorem bestSlot_eligible_iff (chosen : BestSlot info SlotMetadata.bootable count slot) :
    BestSlot info SlotMetadata.eligible count slot ↔
      ∀ i : Fin 4, i < count → (info i).eligible = true → (info i).triesRemaining = 0 →
        ∃ j : Fin 4, j < count ∧ (info j).bootable = true ∧
          abCompareSlots (info j) (info i) < 0 := by
  constructor
  · intro rule i listed eligible spent
    obtain ⟨b, isSlot, atLeast, -⟩ := rule.best i listed eligible
    obtain ⟨bListed, boots⟩ := chosen.passes b isSlot
    refine ⟨b, bListed, boots, ?_⟩
    -- the ranks differ, since only one of the two slots has tries left
    have triesB := (info b).rank_mod
    have triesI := (info i).rank_mod
    have left : (info b).triesRemaining.toNat ≠ (0 : BitVec 3).toNat :=
      fun same => ((info b).bootable_iff.1 boots).2 (BitVec.eq_of_toNat_eq same)
    rw [← spent] at left
    rw [← Int.not_le]
    simp only [abCompareSlots_rank] at atLeast ⊢
    omega
  · intro beaten
    refine ⟨fun i isSlot => ?_, fun j listed eligible => ?_⟩
    · obtain ⟨listed, boots⟩ := chosen.passes i isSlot
      exact ⟨listed, ((info i).bootable_iff.1 boots).1⟩
    by_cases spent : (info j).triesRemaining = 0
    · obtain ⟨k, kListed, boots, better⟩ := beaten j listed eligible spent
      obtain ⟨b, isSlot, atLeast, -⟩ := chosen.best k kListed boots
      refine ⟨b, isSlot, ?_⟩
      rw [← Int.not_le] at better
      simp only [abCompareSlots_rank] at better atLeast ⊢
      omega
    · exact chosen.best j listed ((info j).bootable_iff.2 ⟨eligible, spent⟩)

/-- The slot of a valid block is chosen by the rule exactly if each eligible slot without tries
is beaten by one that has some. -/
theorem abSelectSlot_rule_iff {abc : BootloaderControl} (magic : abc.magic = BOOT_CTRL_MAGIC)
    (version : abc.version ≤ BOOT_CTRL_VERSION) (slots : abc.nbSlot.toNat ≤ 4) (decTries : Bool) :
    BestSlot abc.slotInfo SlotMetadata.eligible abc.nbSlot.toNat
        (abSelectSlot abc decTries).1.toOption ↔
      ∀ i : Fin 4, i < abc.nbSlot.toNat → (abc.slotInfo i).eligible = true →
        (abc.slotInfo i).triesRemaining = 0 → ∃ j : Fin 4, j < abc.nbSlot.toNat ∧
          (abc.slotInfo j).bootable = true ∧
          abCompareSlots (abc.slotInfo j) (abc.slotInfo i) < 0 := by
  have result : (abSelectSlot abc decTries).1.toOption =
      selectLoop abc.slotInfo abc.nbSlot.toNat := by
    rw [abSelectSlot, if_neg (by simp [magic, version])]
    simp only [if_neg slots.not_gt]
    cases selectLoop abc.slotInfo abc.nbSlot.toNat <;> rfl
  rw [result]
  exact bestSlot_eligible_iff (bestSlot_selectLoop abc.slotInfo slots)

end Select

def bootedSlots (priority : BitVec 4) : BootloaderControl where
  slotSuffix := [0x5f, 0x61, 0, 0]
  magic := BOOT_CTRL_MAGIC
  version := BOOT_CTRL_VERSION
  nbSlot := 2
  slotInfo i := if i = 0 then ⟨14, 0, true, false⟩ else ⟨priority, 7, false, false⟩

/-- The second slot has the higher priority and is chosen. -/
theorem abSelectSlot_rule_iff_second : BestSlot (bootedSlots 15).slotInfo SlotMetadata.eligible 2
      (abSelectSlot (bootedSlots 15) true).1.toOption :=
  (@abSelectSlot_rule_iff (bootedSlots 15) rfl (by decide) (by decide) true).2 (by decide)

/-- The slot that has booted has the higher priority, and the other one is chosen. -/
theorem abSelectSlot_passes_over : (abSelectSlot (bootedSlots 13) true).1.toOption = some 1 ∧
    ¬ BestSlot (bootedSlots 13).slotInfo SlotMetadata.eligible 2
      (abSelectSlot (bootedSlots 13) true).1.toOption := by
  refine ⟨rfl, fun rule => ?_⟩
  obtain ⟨i, chosen, atLeast, -⟩ := rule.best 0 (by decide) (by decide)
  cases chosen
  cases atLeast

end UBoot
