import Mathlib.Data.List.Forall2
import UBoot.PartEfi

/-!
# Layouts of partitions

A table whose entries `gpt_fill_pte` accepts is sound if its entries are in order,
inside of the usable blocks, apart from each other and apart from the header and the
entries themselves.  The function tests only a part of this, so a layout is sound
just when what was asked for is sound in the points it leaves open.
-/

namespace UBoot

open List Nat GptConfig UInt64

section Lists

variable {α β : Type*} {R : α → β → Prop}

theorem forall_mem_iff_of_forall₂ {P : α → Prop} {Q : β → Prop} {as : List α} {bs : List β}
    (related : List.Forall₂ R as bs) (same : ∀ a b, R a b → (P a ↔ Q b)) :
    (∀ a ∈ as, P a) ↔ ∀ b ∈ bs, Q b := by
  induction related with
  | nil => simp
  | cons first _ ih => rw [forall_mem_cons, forall_mem_cons, same _ _ first, ih]

theorem pairwise_iff_of_forall₂ {P : α → α → Prop} {Q : β → β → Prop} {as : List α} {bs : List β}
    (related : List.Forall₂ R as bs)
    (same : ∀ a b, R a b → ∀ a' b', R a' b' → (P a a' ↔ Q b b')) :
    as.Pairwise P ↔ bs.Pairwise Q := by
  induction related with
  | nil => simp
  | cons first rest ih =>
    rw [pairwise_cons, pairwise_cons, ih, forall_mem_iff_of_forall₂ rest (same _ _ first)]

end Lists

variable {c : GptConfig} (d : DiskDesc c)

/-! ## Block numbers -/

namespace GptConfig

theorem two_pow_lbaBits_le (c : GptConfig) : 2 ^ c.lbaBits ≤ 2 ^ 64 := by
  have width := c.lbaBits_eq
  exact Nat.pow_le_pow_right (by decide) (by omega)

theorem le_two_pow_lbaBits (c : GptConfig) : 2 ^ 32 ≤ 2 ^ c.lbaBits := by
  have width := c.lbaBits_eq
  exact Nat.pow_le_pow_right (by decide) (by omega)

theorem lbaint_lt (c : GptConfig) (n : Nat) : c.lbaint n < 2 ^ c.lbaBits :=
  mod_lt _ (Nat.two_pow_pos _)

theorem lbaint_of_lt {n : Nat} (small : n < 2 ^ c.lbaBits) : c.lbaint n = n := mod_eq_of_lt small

theorem lbaint_le (c : GptConfig) (n : Nat) : c.lbaint n ≤ n := mod_le _ _

theorem lbaint_of_ge {n : Nat} (large : 2 ^ c.lbaBits ≤ n) (small : n < 2 * 2 ^ c.lbaBits) :
    c.lbaint n = n - 2 ^ c.lbaBits := by rw [lbaint, mod_eq_sub_mod large, mod_eq_of_lt (by omega)]

theorem lbaSub_of_le {a b : Nat} (order : b ≤ a) (small : a < 2 ^ c.lbaBits) :
    c.lbaSub a b = a - b := by
  rw [lbaSub, lbaint_of_ge (by omega) (by omega)]
  omega

theorem lbaSub_lt (c : GptConfig) (a b : Nat) : c.lbaSub a b < 2 ^ c.lbaBits := c.lbaint_lt _

theorem toNat_ofNat {n : Nat} (small : n < 2 ^ c.lbaBits) : (ofNat n).toNat = n := by
  exact mod_eq_of_lt (lt_of_lt_of_le small c.two_pow_lbaBits_le)

end GptConfig

/-! ## The header of a new table -/

theorem partitionEntriesOffset_ge : 2 ≤ partitionEntriesOffset d := by
  unfold partitionEntriesOffset
  split <;> omega

theorem configuredOffset_lt : configuredOffset d < 2 ^ 23 := by
  unfold configuredOffset
  split
  case h_1 => decide
  case h_2 offset _ =>
    have wide := mul_le_mul_right (2 ^ 23) d.blksz_ge
    have bounded := mod_lt (d.blockCnt offset * d.blksz) (show 2 ^ 32 > 0 by decide)
    exact Nat.div_lt_of_lt_mul (by omega)

theorem partitionEntriesOffset_lt : partitionEntriesOffset d < 2 ^ 23 := by
  have bound := configuredOffset_lt d
  unfold partitionEntriesOffset
  split
  · decide
  · exact bound

structure NewHeader (h : GptHeader) : Prop where
  signature : h.signature = GPT_HEADER_SIGNATURE_UBOOT
  headerCrc : h.headerCrc32 = 0
  myLba : h.myLba = 1
  alternate : h.alternateLba.toNat = c.lbaSub d.lba 1
  lastUsable : h.lastUsableLba.toNat = c.lbaSub d.lba 34
  entryLba : h.partitionEntryLba.toNat = partitionEntriesOffset d
  firstUsable : h.firstUsableLba.toNat = partitionEntriesOffset d + 32
  count : h.numPartitionEntries.toNat = c.entryNumbers
  entriesSize : h.entriesSize = c.entryNumbers * GPT_ENTRY_SIZE

theorem gptFillHeader_new {strGuid : List UInt8} {h : GptHeader}
    (made : gptFillHeader d strGuid = some h) : NewHeader d h := by
  have offsetBound := partitionEntriesOffset_lt d
  have countBound := c.entryNumbers_le
  unfold gptFillHeader at made
  split at made
  · cases made
  cases made
  have entryLba : (ofNat (partitionEntriesOffset d)).toNat = partitionEntriesOffset d := by
    rw [toNat_ofNat', mod_eq_of_lt (by omega)]
  constructor
  · rfl
  · rfl
  · rfl
  · exact toNat_ofNat (c.lbaSub_lt _ _)
  · exact toNat_ofNat (c.lbaSub_lt _ _)
  · exact entryLba
  · rw [UInt64.toNat_add, entryLba]
    exact mod_eq_of_lt (by
      have : (32 : UInt64).toNat = 32 := rfl
      omega)
  · rw [UInt32.toNat_ofNat', mod_eq_of_lt (by omega)]
  · rw [GptHeader.entriesSize, UInt32.toNat_mul, UInt32.toNat_ofNat', UInt32.toNat_ofNat',
      GPT_ENTRY_SIZE]
    omega

/-! ## One entry -/

variable {p : DiskPartition c} {offset : Nat}

theorem askedStart_lt (bound : offset < 2 ^ c.lbaBits) : askedStart offset p < 2 ^ c.lbaBits := by
  have startBound := p.start_lt
  unfold askedStart
  split <;> assumption

theorem askedStart_pos (positive : 0 < offset) : 0 < askedStart offset p := by
  unfold askedStart
  split <;> omega

/-- The first block behind the entries as `gpt_fill_pte` counts them. -/
def GptHeader.pteEnd (h : GptHeader) : Nat := h.partitionEntryLba.toNat + h.entriesSize / d.blksz

/-- What `gpt_fill_pte` has tested of a partition and put into its entry, where `last` says
whether it is the last one. -/
structure Filled (h : GptHeader) (offset : Nat) (p : DiskPartition c) (last : Prop)
    (e : GptEntry) : Prop where
  headerClear : ¬(askedStart offset p < h.myLba.toNat + 1 ∧
    h.myLba.toNat < c.lbaint (askedStart offset p + p.size))
  entriesClear : ¬(askedStart offset p < h.pteEnd d ∧
    h.partitionEntryLba.toNat < c.lbaint (askedStart offset p + p.size))
  fits : c.lbaint (askedStart offset p + p.size) ≤ c.lbaint (c.lbaint h.lastUsableLba.toNat + 1)
  starting : e.startingLba = ofNat (askedStart offset p)
  extended : last → p.size = 0 → e.endingLba = h.lastUsableLba
  ending : ¬(last ∧ p.size = 0) →
    e.endingLba = ofNat (c.lbaSub (c.lbaint (askedStart offset p + p.size)) 1)
  typeGuid : fillTypeGuid p = some e.partitionTypeGuid
  name : e.partitionName = fillName p

theorem gptFillLoop_cons {h : GptHeader} {rest : List (DiskPartition c)} {es : List GptEntry}
    (filled : gptFillLoop d h offset (p :: rest) = .ok es) :
    ∃ e tail, es = e :: tail ∧ Filled d h offset p (rest = []) e ∧
      gptFillLoop d h (c.lbaint (askedStart offset p + p.size)) rest = .ok tail := by
  rw [gptFillLoop] at filled
  dsimp only at filled
  split at filled
  case isTrue => cases filled
  case isFalse clear =>
    split at filled
    case isTrue => cases filled
    case isFalse fits =>
      split at filled
      case h_1 => cases filled
      case h_2 typeGuid typeFound =>
        split at filled
        case h_1 => cases filled
        case h_2 uniqueGuid _ =>
          split at filled
          case h_1 => cases filled
          case h_2 tail tailFilled =>
            cases filled
            refine ⟨_, tail, rfl, ?_, tailFilled⟩
            rw [not_or] at clear
            exact
              { headerClear := clear.1
                entriesClear := clear.2
                fits := not_lt.1 fits
                starting := rfl
                extended := fun last empty => if_pos ⟨last, empty⟩
                ending := fun sized => if_neg sized
                typeGuid := typeFound
                name := rfl }

/-! ## Sound layouts -/

def GptEntry.Covers (e : GptEntry) (block : Nat) : Prop :=
  e.startingLba.toNat ≤ block ∧ block ≤ e.endingLba.toNat

def GptHeader.InEntries (h : GptHeader) (block : Nat) : Prop :=
  h.partitionEntryLba.toNat ≤ block ∧ block < h.partitionEntryLba.toNat + d.blockCnt h.entriesSize

structure SoundLayout (h : GptHeader) (entries : List GptEntry) : Prop where
  ordered : ∀ e ∈ entries, e.startingLba.toNat ≤ e.endingLba.toNat + 1 ∧
    e.endingLba.toNat + 1 < 2 ^ c.lbaBits
  usable : ∀ e ∈ entries, e.endingLba.toNat ≤ h.lastUsableLba.toNat
  apart : entries.Pairwise fun e f => ∀ block, ¬(e.Covers block ∧ f.Covers block)
  clear : ∀ e ∈ entries, ∀ block, e.Covers block → block ≠ h.myLba.toNat ∧ ¬h.InEntries d block

/-- The blocks a partition is asked to have, from `start` up to `stop`.  The last partition is
extended to the end of the disk if it has no size. -/
structure AskedExtent where
  start : Nat
  stop : Nat
  extended : Bool

def AskedExtent.Covers (r : AskedExtent) (block : Nat) : Prop := r.start ≤ block ∧ block < r.stop

def askedExtents (lastUsable : Nat) : (offset : Nat) → List (DiskPartition c) → List AskedExtent
  | _, [] => []
  | offset, p :: rest =>
    { start := askedStart offset p
      stop := if rest = [] ∧ p.size = 0 then lastUsable + 1 else askedStart offset p + p.size
      extended := decide (rest = [] ∧ p.size = 0) } ::
      askedExtents lastUsable (askedStart offset p + p.size) rest

/-- A list of extents that is sound where `gpt_fill_pte` does not look. -/
structure SoundRequest (h : GptHeader) (asked : List AskedExtent) : Prop where
  ends : ∀ r ∈ asked, r.stop < 2 ^ c.lbaBits ∧ r.stop ≤ h.lastUsableLba.toNat + 1
  apart : asked.Pairwise fun r s => ∀ block, ¬(r.Covers block ∧ s.Covers block)
  extended : ∀ r ∈ asked, r.extended = true → ∀ block, r.Covers block →
    block ≠ h.myLba.toNat ∧ ¬h.InEntries d block
  remainder : ∀ r ∈ asked, r.Covers (h.pteEnd d) → ¬h.InEntries d (h.pteEnd d)

/-! ## What is filled in against what is asked for -/

structure LaidOut (h : GptHeader) (e : GptEntry) (r : AskedExtent) : Prop where
  start : e.startingLba.toNat = r.start
  stop : e.endingLba.toNat + 1 = r.stop
  order : r.start ≤ r.stop
  headerClear : r.extended = false → ¬(r.start < h.myLba.toNat + 1 ∧ h.myLba.toNat < r.stop)
  entriesClear : r.extended = false → ¬(r.start < h.pteEnd d ∧ h.partitionEntryLba.toNat < r.stop)

variable {d} {h : GptHeader}

theorem LaidOut.covers_iff {e : GptEntry} {r : AskedExtent} (laid : LaidOut d h e r) (block : Nat) :
    e.Covers block ↔ r.Covers block := by
  have start := laid.start
  have stop := laid.stop
  unfold GptEntry.Covers AskedExtent.Covers
  omega

theorem blockCnt_eq_or (size : Nat) (positive : 0 < size) :
    d.blockCnt size = size / d.blksz ∨ d.blockCnt size = size / d.blksz + 1 := by
  obtain ⟨pred, rfl⟩ := exists_eq_succ_of_ne_zero positive.ne'
  have divided : (pred + 1) / d.blksz = _ := Nat.succ_div
  unfold DiskDesc.blockCnt
  rw [succ_sub_one, succ_eq_add_one]
  split at divided <;> omega

theorem inEntries_cases {block : Nat} (positive : 0 < h.entriesSize)
    (inside : h.InEntries d block) : block < h.pteEnd d ∨ block = h.pteEnd d := by
  have counts := blockCnt_eq_or (d := d) h.entriesSize positive
  unfold GptHeader.InEntries at inside
  unfold GptHeader.pteEnd
  omega

theorem LaidOut.clear_iff {e : GptEntry} {r : AskedExtent} (laid : LaidOut d h e r)
    (positive : 0 < h.entriesSize) :
    (∀ block, e.Covers block → block ≠ h.myLba.toNat ∧ ¬h.InEntries d block) ↔
      (r.extended = true → ∀ block, r.Covers block → block ≠ h.myLba.toNat ∧ ¬h.InEntries d block) ∧
      (r.Covers (h.pteEnd d) → ¬h.InEntries d (h.pteEnd d)) := by
  constructor
  · intro clear
    constructor
    · intro _ block covered
      exact clear block ((laid.covers_iff block).2 covered)
    · intro covered
      exact (clear _ ((laid.covers_iff _).2 covered)).2
  intro asked block covered
  have extent := (laid.covers_iff block).1 covered
  cases kind : r.extended with
  | true => exact asked.1 kind block extent
  | false =>
    have headerClear := laid.headerClear kind
    have entriesClear := laid.entriesClear kind
    unfold AskedExtent.Covers at extent
    constructor
    · intro atHeader
      omega
    intro inside
    rcases inEntries_cases positive inside with before | atEnd
    · unfold GptHeader.InEntries at inside
      omega
    · rw [atEnd] at inside extent
      exact asked.2 extent inside

section Step

variable {last : Prop} {e : GptEntry}

variable (filled : Filled d h offset p last e) (offsetBound : offset < 2 ^ c.lbaBits)

include filled offsetBound

/-- An entry that is in order and inside of the usable blocks is asked for without a sum that
wraps around. -/
theorem Filled.asked_le (sized : ¬(last ∧ p.size = 0))
    (ordered : e.startingLba.toNat ≤ e.endingLba.toNat + 1 ∧
      e.endingLba.toNat + 1 < 2 ^ c.lbaBits) :
    askedStart offset p + p.size < 2 ^ c.lbaBits ∧
      askedStart offset p + p.size ≤ h.lastUsableLba.toNat + 1 := by
  have startBound := askedStart_lt (p := p) offsetBound
  have sizeBound := p.size_lt
  have fits := filled.fits
  have lastBound := c.lbaint_le h.lastUsableLba.toNat
  have nextBound := c.lbaint_le (c.lbaint h.lastUsableLba.toNat + 1)
  rw [filled.starting, filled.ending sized, toNat_ofNat startBound,
    toNat_ofNat (c.lbaSub_lt _ _)] at ordered
  by_cases wraps : askedStart offset p + p.size < 2 ^ c.lbaBits
  · rw [lbaint_of_lt wraps] at fits
    omega
  exfalso
  rw [lbaint_of_ge (by omega) (by omega)] at ordered
  by_cases whole : askedStart offset p + p.size = 2 ^ c.lbaBits
  · rw [whole, Nat.sub_self, lbaSub, lbaint_of_lt (by omega)] at ordered
    omega
  · rw [lbaSub_of_le (by omega) (by omega)] at ordered
    omega

theorem Filled.laid (positive : 0 < offset) (sized : ¬(last ∧ p.size = 0))
    (ends : askedStart offset p + p.size < 2 ^ c.lbaBits) :
    LaidOut d h e ⟨askedStart offset p, askedStart offset p + p.size, false⟩ := by
  have startBound := askedStart_lt (p := p) offsetBound
  have startPositive := askedStart_pos (p := p) positive
  have headerClear := filled.headerClear
  have entriesClear := filled.entriesClear
  rw [lbaint_of_lt ends] at headerClear entriesClear
  constructor
  · rw [filled.starting, toNat_ofNat startBound]
  · rw [filled.ending sized, lbaint_of_lt ends, toNat_ofNat (c.lbaSub_lt _ _),
      lbaSub_of_le (by omega) ends]
    dsimp only
    omega
  · exact le_add_right _ _
  · exact fun _ => headerClear
  · exact fun _ => entriesClear

theorem Filled.laid_extended (extended : last ∧ p.size = 0) :
    LaidOut d h e ⟨askedStart offset p, h.lastUsableLba.toNat + 1, true⟩ := by
  have startBound := askedStart_lt (p := p) offsetBound
  have fits := filled.fits
  have lastBound := c.lbaint_le h.lastUsableLba.toNat
  have nextBound := c.lbaint_le (c.lbaint h.lastUsableLba.toNat + 1)
  rw [extended.2, add_zero, lbaint_of_lt startBound] at fits
  constructor
  · rw [filled.starting, toNat_ofNat startBound]
  · rw [filled.extended extended.1 extended.2]
  · dsimp only
    omega
  · nofun
  · nofun

end Step

theorem gptFillLoop_laid (ps : List (DiskPartition c)) (offset : Nat) (es : List GptEntry)
    (positive : 0 < offset) (offsetBound : offset < 2 ^ c.lbaBits)
    (filled : gptFillLoop d h offset ps = .ok es)
    (ends : ∀ r ∈ askedExtents h.lastUsableLba.toNat offset ps, r.stop < 2 ^ c.lbaBits) :
    List.Forall₂ (LaidOut d h) es (askedExtents h.lastUsableLba.toNat offset ps) := by
  induction ps generalizing offset es with
  | nil =>
    cases filled
    exact .nil
  | cons p rest ih =>
    obtain ⟨e, tail, rfl, head, tailFilled⟩ := gptFillLoop_cons d filled
    rw [askedExtents, forall_mem_cons] at ends
    rw [askedExtents]
    by_cases extended : rest = [] ∧ p.size = 0
    · obtain ⟨rfl, empty⟩ := extended
      cases tailFilled
      rw [if_pos ⟨rfl, empty⟩, decide_eq_true ⟨rfl, empty⟩]
      exact .cons (head.laid_extended offsetBound ⟨rfl, empty⟩) .nil
    have headEnds := ends.1
    rw [if_neg extended] at headEnds
    rw [if_neg extended, decide_eq_false extended]
    rw [lbaint_of_lt headEnds] at tailFilled
    have startPositive := askedStart_pos (p := p) positive
    exact .cons (head.laid offsetBound positive extended headEnds)
      (ih _ tail (by omega) headEnds tailFilled ends.2)

theorem gptFillLoop_ends (ps : List (DiskPartition c)) (offset : Nat) (es : List GptEntry)
    (offsetBound : offset < 2 ^ c.lbaBits) (filled : gptFillLoop d h offset ps = .ok es)
    (ordered : ∀ e ∈ es, e.startingLba.toNat ≤ e.endingLba.toNat + 1 ∧
      e.endingLba.toNat + 1 < 2 ^ c.lbaBits) :
    ∀ r ∈ askedExtents h.lastUsableLba.toNat offset ps,
      r.stop < 2 ^ c.lbaBits ∧ r.stop ≤ h.lastUsableLba.toNat + 1 := by
  induction ps generalizing offset es with
  | nil => simp [askedExtents]
  | cons p rest ih =>
    obtain ⟨e, tail, rfl, head, tailFilled⟩ := gptFillLoop_cons d filled
    rw [forall_mem_cons] at ordered
    rw [askedExtents, forall_mem_cons]
    by_cases extended : rest = [] ∧ p.size = 0
    · obtain ⟨rfl, empty⟩ := extended
      have headOrdered := ordered.1.2
      rw [head.extended rfl empty] at headOrdered
      rw [if_pos ⟨rfl, empty⟩]
      exact ⟨⟨headOrdered, le_rfl⟩, by simp [askedExtents]⟩
    · have headEnds := head.asked_le offsetBound extended ordered.1
      rw [lbaint_of_lt headEnds.1] at tailFilled
      rw [if_neg extended]
      exact ⟨headEnds, ih _ tail headEnds.1 tailFilled ordered.2⟩

theorem gptFillLoop_sound_iff {ps : List (DiskPartition c)} {es : List GptEntry}
    (positive : 0 < offset) (offsetBound : offset < 2 ^ c.lbaBits) (nonempty : 0 < h.entriesSize)
    (filled : gptFillLoop d h offset ps = .ok es) :
    SoundLayout d h es ↔ SoundRequest d h (askedExtents h.lastUsableLba.toNat offset ps) := by
  have transfer : (∀ r ∈ askedExtents h.lastUsableLba.toNat offset ps,
        r.stop < 2 ^ c.lbaBits ∧ r.stop ≤ h.lastUsableLba.toNat + 1) →
      List.Forall₂ (LaidOut d h) es (askedExtents h.lastUsableLba.toNat offset ps) := by
    intro ends
    exact gptFillLoop_laid ps offset es positive offsetBound filled fun r member =>
      (ends r member).1
  have apartIff (related : List.Forall₂ (LaidOut d h) es
      (askedExtents h.lastUsableLba.toNat offset ps)) :=
    pairwise_iff_of_forall₂ (P := fun e f => ∀ block, ¬(e.Covers block ∧ f.Covers block))
      (Q := fun r s => ∀ block, ¬(r.Covers block ∧ s.Covers block)) related
      (fun e r laid f s laid' => by simp only [laid.covers_iff, laid'.covers_iff])
  have clearIff (related : List.Forall₂ (LaidOut d h) es
      (askedExtents h.lastUsableLba.toNat offset ps)) :=
    forall_mem_iff_of_forall₂ related fun e r laid => laid.clear_iff nonempty
  have orderedIff (related : List.Forall₂ (LaidOut d h) es
      (askedExtents h.lastUsableLba.toNat offset ps)) :=
    forall_mem_iff_of_forall₂ (P := fun e => (e.startingLba.toNat ≤ e.endingLba.toNat + 1 ∧
        e.endingLba.toNat + 1 < 2 ^ c.lbaBits) ∧ e.endingLba.toNat ≤ h.lastUsableLba.toNat)
      (Q := fun r => r.stop < 2 ^ c.lbaBits ∧ r.stop ≤ h.lastUsableLba.toNat + 1) related
      (fun e r laid => by
        have start := laid.start
        have stop := laid.stop
        have order := laid.order
        omega)
  constructor
  · intro sound
    have ends := gptFillLoop_ends ps offset es offsetBound filled sound.ordered
    have related := transfer ends
    have clear := (clearIff related).1 sound.clear
    exact
      { ends := ends
        apart := (apartIff related).1 sound.apart
        extended := fun r member => (clear r member).1
        remainder := fun r member => (clear r member).2 }
  intro sound
  have related := transfer sound.ends
  have ordered := (orderedIff related).2 sound.ends
  have clear := (clearIff related).2 fun r member =>
    ⟨sound.extended r member, sound.remainder r member⟩
  exact
    { ordered := fun e member => (ordered e member).1
      usable := fun e member => (ordered e member).2
      apart := (apartIff related).2 sound.apart
      clear := clear }

/-- A layout that `gpt_fill_pte` accepts is sound just when no extent asked for wraps around or
meets another one, and an extended partition or one that starts in the last, partly used block
of the entry array is clear of the header and the entries. -/
theorem gptFillPte_sound_iff {strGuid : List UInt8} {ps : List (DiskPartition c)}
    {es : List GptEntry} (made : gptFillHeader d strGuid = some h)
    (filled : gptFillPte d h ps = .ok es) :
    SoundLayout d h es ↔
      SoundRequest d h (askedExtents h.lastUsableLba.toNat h.firstUsableLba.toNat ps) := by
  have new := gptFillHeader_new d made
  have offsetBound := partitionEntriesOffset_lt d
  have width := c.le_two_pow_lbaBits
  have firstBound : h.firstUsableLba.toNat < 2 ^ c.lbaBits := by
    rw [new.firstUsable]
    omega
  have positive : 0 < h.firstUsableLba.toNat := by
    rw [new.firstUsable]
    omega
  have nonempty : 0 < h.entriesSize := by
    rw [new.entriesSize]
    exact mul_pos c.entryNumbers_pos (by decide)
  rw [gptFillPte, lbaint_of_lt firstBound] at filled
  exact gptFillLoop_sound_iff positive firstBound nonempty filled

/-- A configuration with 64-bit block numbers that takes every text for the zero GUID. -/
def sampleGptConfig : GptConfig where
  lbaBits := 64
  entryNumbers := 128
  entriesOff := none
  partitionTypeGuid := false
  partitionUuids := false
  uuidStrToBin := fun _ => some zeroGuid
  crc32 := fun _ => 0
  lbaBits_eq := .inr rfl
  entryNumbers_pos := by decide
  entryNumbers_le := by decide

def sampleDisk : DiskDesc sampleGptConfig where
  lba := 2 ^ 20
  blksz := 512
  lba_lt := by decide
  blksz_ge := by decide

def samplePartition (start size : UInt64) : DiskPartition sampleGptConfig where
  start := start.toNat
  size := size.toNat
  name := ⟨replicate 32 0, length_replicate⟩
  bootable := false
  uuid := []
  typeGuid := []
  start_lt := start.toNat_lt
  size_lt := size.toNat_lt

def sampleHeader : GptHeader where
  signature := GPT_HEADER_SIGNATURE_UBOOT
  revision := GPT_HEADER_REVISION_V1
  headerSize := 92
  headerCrc32 := 0
  reserved1 := 0
  myLba := 1
  alternateLba := 1048575
  firstUsableLba := 34
  lastUsableLba := 1048542
  diskGuid := zeroGuid
  partitionEntryLba := 2
  numPartitionEntries := 128
  sizeofPartitionEntry := 128
  partitionEntryArrayCrc32 := 0

def sampleEntry (starting ending : UInt64) : GptEntry where
  partitionTypeGuid := PARTITION_BASIC_DATA_GUID
  uniquePartitionGuid := zeroGuid
  startingLba := starting
  endingLba := ending
  attributes := 0
  partitionName := GptEntry.zero.partitionName

theorem gptFillPte_sound_iff_sample : gptFillHeader sampleDisk [] = some sampleHeader ∧
    gptFillPte sampleDisk sampleHeader [samplePartition 0 100, samplePartition 0 0] =
      .ok [sampleEntry 34 133, sampleEntry 134 1048542] ∧
    (SoundLayout sampleDisk sampleHeader [sampleEntry 34 133, sampleEntry 134 1048542] ↔
      SoundRequest sampleDisk sampleHeader
        (askedExtents sampleHeader.lastUsableLba.toNat sampleHeader.firstUsableLba.toNat
          [samplePartition 0 100, samplePartition 0 0])) :=
  have made : gptFillHeader sampleDisk [] = some sampleHeader := rfl
  ⟨made, rfl, gptFillPte_sound_iff made rfl⟩

/-- A sum that wraps around and two partitions that overlap are both accepted. -/
theorem gptFillPte_unsound : gptFillHeader sampleDisk [] = some sampleHeader ∧
    (gptFillPte sampleDisk sampleHeader [samplePartition 100 0xffffffffffffffce] =
        .ok [sampleEntry 100 49] ∧
      ¬SoundLayout sampleDisk sampleHeader [sampleEntry 100 49]) ∧
    gptFillPte sampleDisk sampleHeader [samplePartition 100 100, samplePartition 150 100] =
        .ok [sampleEntry 100 199, sampleEntry 150 249] ∧
      ¬SoundLayout sampleDisk sampleHeader [sampleEntry 100 199, sampleEntry 150 249] := by
  refine ⟨rfl, ⟨rfl, ?_⟩, rfl, ?_⟩
  · intro sound
    have ordered := sound.ordered _ (mem_singleton_self _)
    exact absurd ordered.1 (by decide)
  intro sound
  have apart := sound.apart
  rw [pairwise_cons] at apart
  have shared := apart.1 _ (mem_singleton_self _) 150
  exact shared ⟨⟨by decide, by decide⟩, by decide, by decide⟩

end UBoot
