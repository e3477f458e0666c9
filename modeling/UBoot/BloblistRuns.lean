import UBoot.BloblistRecords

/-!
# Filling a bloblist

Any sequence of `bloblist_add` calls on a new list.  As long as every call asks for an
alignment that leaves the record the space that a walk gives to it, the walk visits
the padding and the records in the order in which they were added, and a search finds
the first record with its tag.  An alignment that leaves more space behind a record
makes the walk read that space as a record.
-/

namespace UBoot

open List Bloblist Option BitVec

/-- The arguments of `bloblist_add`. -/
structure BlobRequest where
  tag : BitVec 32
  size : BitVec 32
  alignLog2 : Nat
  deriving DecidableEq

def BlobRequest.alignment (request : BlobRequest) : Nat :=
  if request.alignLog2 = 0 then BLOBLIST_BLOB_ALIGN_LOG2 else request.alignLog2

/-- The tag has 24 bits, the size is not negative, and the walk agrees with the alignment. -/
def BlobRequest.Walkable (request : BlobRequest) : Prop :=
  Bloblist.Walkable request.tag request.size request.alignment

structure Filling where
  list : Bloblist
  added : List (BlobRequest × Nat)

namespace Filling

def step (c : Filling) (request : BlobRequest) : Option Filling :=
  (c.list.bloblistAdd request.tag request.size request.alignLog2).map fun result =>
    ⟨result.1, c.added ++ (result.2.map (request, ·)).toList⟩

def run (c : Filling) (requests : List BlobRequest) : Option Filling := requests.foldlM step c

structure Sound (c : Filling) (blobs : List Blob) : Prop where
  laid : Laid c.list blobs
  pads : ∀ blob ∈ blobs, blob.padding = true → blob.tag = 0
  entries : (blobs.filter (!·.padding)).map
      (fun blob => (blob.tag, blob.size, c.list.hdr + blob.ofs + BLOBLIST_REC_HDR_SIZE)) =
    c.added.map (fun entry => (entry.1.tag.toNat, entry.1.size.toNat, entry.2))
  aligned : ∀ entry ∈ c.added, 2 ^ entry.1.alignment ∣ entry.2

variable {c : Filling} {blobs padding : List Blob} {request : BlobRequest}

theorem filter_append_pads (pads : ∀ blob ∈ padding, blob.padding = true ∧ blob.tag = 0) :
    (blobs ++ padding).filter (!·.padding) = blobs.filter (!·.padding) := by
  have onlyPads : padding.filter (!·.padding) = [] := by
    rw [filter_eq_nil_iff]
    intro blob inside
    simp [(pads blob inside).1]
  rw [filter_append, onlyPads, append_nil]

theorem Sound.pads_append (sound : c.Sound blobs)
    (pads : ∀ blob ∈ padding, blob.padding = true ∧ blob.tag = 0) :
    ∀ blob ∈ blobs ++ padding, blob.padding = true → blob.tag = 0 := by
  intro blob inside isPadding
  rcases mem_append.1 inside with old | pad
  · exact sound.pads blob old isPadding
  · exact (pads blob pad).2

theorem Sound.step (sound : c.Sound blobs) (walkable : request.Walkable) :
    ∃ next blobs', c.step request = some next ∧ next.Sound blobs' := by
  obtain ⟨result, returned, added⟩ := sound.laid.bloblistAddrec rfl walkable 0
  unfold Filling.step bloblistAdd
  rw [returned]
  cases added with
  | placed added padding ofs pads sameHdr laid aligned =>
    have held := laid.holds _ (mem_append_right _ (mem_singleton_self _))
    refine ⟨_, _, rfl, laid, ?_, ?_, ?_⟩
    · intro blob inside isPadding
      rcases mem_append.1 inside with old | new
      · exact sound.pads_append pads blob old isPadding
      · rw [mem_singleton.1 new] at isPadding
        cases isPadding
    · dsimp only [blobAddress]
      rw [held.hdrSize, sameHdr, filter_append, filter_append_pads pads]
      simp [sound.entries]
    intro entry inside
    rcases mem_append.1 inside with old | new
    · exact sound.aligned entry old
    dsimp only [blobAddress] at new
    rw [held.hdrSize, sameHdr] at new
    obtain rfl : entry = _ := by simpa using new
    exact aligned
  | refused padded padding pads sameHdr laid =>
    refine ⟨_, _, rfl, laid, sound.pads_append pads, ?_, ?_⟩
    · dsimp only [blobAddress]
      rw [sameHdr, filter_append_pads pads]
      simp [sound.entries]
    · simpa [blobAddress] using sound.aligned

theorem Sound.run (sound : c.Sound blobs) {requests : List BlobRequest}
    (walkable : ∀ request ∈ requests, request.Walkable) :
    ∃ last blobs', c.run requests = some last ∧ last.Sound blobs' := by
  induction requests generalizing c blobs with
  | nil => exact ⟨c, blobs, rfl, sound⟩
  | cons request requests ih =>
    obtain ⟨next, blobs', stepped, sound'⟩ := sound.step (walkable request (mem_cons_self ..))
    obtain ⟨last, blobs'', ran, sound''⟩ :=
      ih sound' fun other inside => walkable other (mem_cons_of_mem _ inside)
    refine ⟨last, blobs'', ?_, sound''⟩
    unfold run at ran ⊢
    rw [foldlM_cons, stepped]
    exact ran

theorem find_entries {hdr : Nat} {records : List Blob} {added : List (BlobRequest × Nat)}
    (entries : records.map
        (fun blob => (blob.tag, blob.size, hdr + blob.ofs + BLOBLIST_REC_HDR_SIZE)) =
      added.map (fun entry => (entry.1.tag.toNat, entry.1.size.toNat, entry.2)))
    (tag : BitVec 32) :
    (records.find? (·.tag = tag.toNat)).map
        (fun blob => (hdr + blob.ofs + BLOBLIST_REC_HDR_SIZE, blob.size)) =
      (added.find? (·.1.tag = tag)).map fun entry => (entry.2, entry.1.size.toNat) := by
  have same := congrArg (List.find? fun entry : Nat × Nat × Nat => entry.1 = tag.toNat) entries
  rw [find?_map, find?_map] at same
  have mapped := congrArg (Option.map fun entry : Nat × Nat × Nat => (entry.2.2, entry.2.1)) same
  rw [Option.map_map, Option.map_map] at mapped
  refine mapped.trans ?_
  congr 1
  apply find?_congr
  intro entry _
  simp only [Function.comp, toNat_inj]

theorem Sound.find_eq (sound : c.Sound blobs) {tag : BitVec 32} (named : tag ≠ BLOBLISTT_VOID) :
    (blobs.find? (·.tag = tag.toNat)).map
        (fun blob => (c.list.hdr + blob.ofs + BLOBLIST_REC_HDR_SIZE, blob.size)) =
      (c.added.find? (·.1.tag = tag)).map fun entry => (entry.2, entry.1.size.toNat) := by
  have nonzero : tag.toNat ≠ 0 := fun zero => named (eq_of_toNat_eq zero)
  have notPadding : blobs.find? (·.tag = tag.toNat) =
      (blobs.filter (!·.padding)).find? (·.tag = tag.toNat) := by
    rw [find?_filter]
    apply find?_congr
    intro blob inside
    cases isPadding : blob.padding with
    | false => simp
    | true => simp [sound.pads blob inside isPadding, nonzero.symm]
  rw [notPadding]
  exact find_entries sound.entries tag

/-- After any calls on a new list, a walk ends at the used size and visits the added
records in order and padding between them, a search returns the address of the first
record that was added with its tag, and every address is aligned as requested. -/
theorem walk_visits_added {machine b : Bloblist} {addr : Nat} {size flags : BitVec 32}
    (made : bloblistNew machine addr size flags 0 = .ok b) (small : size.toNat < 2 ^ 31 - 8)
    (requests : List BlobRequest) (walkable : ∀ request ∈ requests, request.Walkable) :
    ∃ c, run ⟨b, []⟩ requests = some c ∧ ∃ blobs : List Blob,
      (∀ steps, blobs.length < steps → c.list.foreachRec steps = some (blobs.map Blob.ofs)) ∧
      Consecutive c.list.blobEndOfs c.list.hdrSize (blobs.map Blob.ofs) c.list.usedSize ∧
      (∀ blob ∈ blobs, blob.padding = true → c.list.recTag blob.ofs = BLOBLISTT_VOID.toNat) ∧
      (blobs.filter (!·.padding)).map (fun blob => (c.list.recTag blob.ofs,
          c.list.recSize blob.ofs, c.list.hdr + blob.ofs + c.list.recHdrSize blob.ofs)) =
        c.added.map (fun entry => (entry.1.tag.toNat, entry.1.size.toNat, entry.2)) ∧
      (∀ tag expected, tag ≠ BLOBLISTT_VOID → c.list.bloblistFind tag expected =
        some ((c.added.find? (·.1.tag = tag)).bind fun entry =>
          if expected ≠ 0 ∧ expected ≠ entry.1.size then none else some entry.2)) ∧
      ∀ entry ∈ c.added, 2 ^ entry.1.alignment ∣ entry.2 := by
  have start : Sound ⟨b, []⟩ [] := ⟨(laid_bloblistNew made small).1, nofun, rfl, nofun⟩
  obtain ⟨c, blobs, ran, sound⟩ := start.run walkable
  have laid := sound.laid
  refine ⟨c, ran, blobs, fun steps enough => laid.foreachRec_eq enough, laid.consecutive,
    ?_, ?_, ?_,
    sound.aligned⟩
  · intro blob inside isPadding
    rw [(laid.holds blob inside).tag]
    exact sound.pads blob inside isPadding
  · rw [← sound.entries]
    apply map_congr_left
    intro blob inside
    have held := laid.holds blob (mem_of_mem_filter inside)
    rw [held.tag, held.size, held.hdrSize]
  intro tag expected named
  unfold bloblistFind
  rw [laid.bloblistGetBlob_eq, sound.find_eq named, map_some, bind_map]
  congr 1
  apply congrArg
  funext entry
  simp [Function.comp, toNat_inj]

theorem exists_of_new {α β : Type} (size : BitVec 32) (follow : Bloblist → Option α)
    (f : Bloblist → α → β) (value : β)
    (result : ((bloblistNew machine 0x100 size 0 0).toOption.bind fun b =>
      (follow b).map (f b)) = some value) :
    ∃ b c, bloblistNew machine 0x100 size 0 0 = .ok b ∧ follow b = some c ∧ f b c = value := by
  obtain ⟨b, made, filled⟩ := bind_eq_some_iff.1 result
  obtain ⟨c, ran, values⟩ := map_eq_some_iff.1 filled
  refine ⟨b, c, ?_, ran, values⟩
  cases new : bloblistNew machine 0x100 size 0 0 with
  | error e =>
    rw [new] at made
    cases made
  | ok list =>
    rw [new] at made
    rw [some.inj made]

theorem walk_visits_added_after_padding : ∃ b c, bloblistNew machine 0x100 0x400 0 0 = .ok b ∧
      run ⟨b, []⟩ [⟨1, 5, 0⟩, ⟨2, 64, 6⟩] = some c ∧
      c.added = [(⟨1, 5, 0⟩, 0x120), (⟨2, 64, 6⟩, 0x140)] ∧
      c.list.bloblistFind 2 0 = some (some 0x140) := by
  obtain ⟨b, c, made, ran, added⟩ :=
    exists_of_new 0x400 (fun b => run ⟨b, []⟩ [⟨1, 5, 0⟩, ⟨2, 64, 6⟩]) (fun _ => added)
      [(⟨1, 5, 0⟩, 0x120), (⟨2, 64, 6⟩, 0x140)] (by decide)
  have walkable : ∀ request ∈ [⟨1, 5, 0⟩, ⟨2, 64, 6⟩], BlobRequest.Walkable request := by
    rw [forall_mem_cons, forall_mem_singleton]
    exact ⟨⟨by decide, by decide, by decide, by decide, by decide⟩,
      ⟨by decide, by decide, by decide, by decide, by decide⟩⟩
  obtain ⟨c', ran', -, -, -, -, -, find, -⟩ := walk_visits_added made (by decide) _ walkable
  rw [ran] at ran'
  obtain rfl := some.inj ran'
  refine ⟨b, c, made, ran, added, ?_⟩
  rw [find 2 0 (by decide), added]
  rfl

/-- A blob of five bytes that is aligned to 16: the walk comes to the eight bytes behind it
that are not a record, and does not end. -/
theorem exists_walk_without_end : ∃ b c, bloblistNew machine 0x100 0x400 0 0 = .ok b ∧
      run ⟨b, []⟩ [⟨1, 5, 4⟩, ⟨2, 8, 0⟩] = some c ∧
      c.added = [(⟨1, 5, 4⟩, 0x120), (⟨2, 8, 0⟩, 0x138)] ∧
      ∀ steps, c.list.foreachRec steps = none ∧ c.list.findrecWithin steps 2 = none := by
  obtain ⟨b, c, made, ran, values⟩ :=
    exists_of_new 0x400 (fun b => run ⟨b, []⟩ [⟨1, 5, 4⟩, ⟨2, 8, 0⟩])
      (fun _ c => (c.added, [c.list.usedSize, c.list.hdrSize, c.list.blobEndOfs 24,
        c.list.blobEndOfs 40, c.list.recTag 24, c.list.recTag 40]))
      ([(⟨1, 5, 4⟩, 0x120), (⟨2, 8, 0⟩, 0x138)], [64, 24, 40, 40, 1, 0])
      (by decide)
  simp only [Prod.mk.injEq, cons.injEq, and_true] at values
  obtain ⟨added, used, hdrSize, firstEnd, gapEnd, firstTag, gapTag⟩ := values
  refine ⟨b, c, made, ran, added, ?_⟩
  intro steps
  unfold foreachRec findrecWithin
  rw [used, hdrSize]
  cases steps with
  | zero => exact ⟨rfl, rfl⟩
  | succ steps =>
    rw [recordWalk, recordSearch, firstEnd, recordWalk_stuck (by decide) gapEnd,
      recordSearch_stuck (by decide) gapEnd (by simp [gapTag])]
    simp [firstTag]

end Filling

/-! ## A record that does not fit -/

namespace Bloblist

def newAlloced (b : Bloblist) (size : BitVec 32) (alignLog2 : Nat) : BitVec 32 :=
  b.dataStart - BitVec.ofNat 32 b.hdr + alignInt size alignLog2

def alignedStart (b : Bloblist) (alignLog2 : Nat) : BitVec 32 :=
  alignInt b.dataStart alignLog2 - b.dataStart

def Unpadded (b : Bloblist) (alignLog2 : Nat) : Prop :=
  b.alignedStart alignLog2 = 0 ∨ b.totalSize < (b.newAlloced
    (b.alignedStart alignLog2 - BitVec.ofNat 32 BLOBLIST_REC_HDR_SIZE)
    BLOBLIST_BLOB_ALIGN_LOG2).toNat

variable {b b' : Bloblist} {tag size : BitVec 32} {alignLog2 : Nat}

theorem placeRec_cases (b : Bloblist) (tag size : BitVec 32) (alignLog2 : Nat) :
    b.totalSize < (b.newAlloced size alignLog2).toNat ∧
        b.placeRec tag size alignLog2 = (b, .error .ENOSPC) ∨
      ¬ b.totalSize < (b.newAlloced size alignLog2).toNat ∧
        ∃ added, b.placeRec tag size alignLog2 = (added, .ok b.usedSize) ∧
          added.usedSize = (b.newAlloced size alignLog2).toNat := by
  unfold placeRec
  dsimp only
  split
  · next full => exact .inl ⟨full, rfl⟩
  · next fits =>
    refine .inr ⟨fits, _, rfl, ?_⟩
    exact (u32_putU32_same _ _ _).trans (Nat.mod_eq_of_lt (isLt _))

theorem alignedStart_near (multiple : b.alignedStart BLOBLIST_BLOB_ALIGN_LOG2 = 0)
    (alignLog2 : Nat) :
    (b.alignedStart alignLog2).toNat < 2 ^ 31 ∨ 8 ∣ (b.alignedStart alignLog2).toNat := by
  unfold alignedStart at *
  rcases Nat.lt_or_ge 31 alignLog2 with many | few
  · have zero : alignInt b.dataStart alignLog2 = 0 := by simp [alignInt, shiftLeft_eq_zero many]
    have rounded := dvd_roundUp b.dataStart.toNat 8
    have same := congrArg BitVec.toNat multiple
    rw [toNat_sub, toNat_alignInt (by decide)] at same
    change (2 ^ 32 - _ + roundUp _ 8 % 2 ^ 32) % 2 ^ 32 = 0 at same
    rw [zero, toNat_sub]
    right
    change 8 ∣ (2 ^ 32 - _ + 0) % 2 ^ 32
    omega
  · have near := roundUp_lt (n := b.hdr + b.usedSize + 8) (Nat.two_pow_pos alignLog2)
    have power : 2 ^ alignLog2 ≤ 2 ^ 31 := Nat.pow_le_pow_right (by decide) few
    rw [toNat_alignedStart few]
    omega

theorem newAlloced_ne (b : Bloblist) {start : BitVec 32} (padding : start ≠ 0)
    (close : start.toNat < 2 ^ 31 ∨ 8 ∣ start.toNat) :
    (b.newAlloced (start - BitVec.ofNat 32 BLOBLIST_REC_HDR_SIZE)
      BLOBLIST_BLOB_ALIGN_LOG2).toNat ≠ b.usedSize := by
  intro same
  have nonzero : start.toNat ≠ 0 := fun zero => padding (eq_of_toNat_eq zero)
  have size : (start - BitVec.ofNat 32 BLOBLIST_REC_HDR_SIZE).toNat =
      (2 ^ 32 - 8 + start.toNat) % 2 ^ 32 := toNat_sub _ _
  rw [newAlloced, dataStart_sub_hdr, toNat_add, toNat_ofNat, toNat_alignInt (by decide)] at same
  change ((b.usedSize + 8) % 2 ^ 32 + roundUp _ 8 % 2 ^ 32) % 2 ^ 32 = _ at same
  generalize (start - BitVec.ofNat 32 BLOBLIST_REC_HDR_SIZE).toNat = padded at *
  have above := le_roundUp (n := padded) (a := 8) (by decide)
  have near := roundUp_lt (n := padded) (a := 8) (by decide)
  omega

end Bloblist

/-- A `bloblist_add` that finds no room leaves the used size and the records exactly if no
padding has been put in front of the record. -/
theorem bloblistAdd_unchanged_iff {b b' : Bloblist} {tag size : BitVec 32} {alignLog2 : Nat}
    (failed : b.bloblistAdd tag size alignLog2 = some (b', none)) :
    (b'.usedSize = b.usedSize ∧ ∀ steps, b'.foreachRec steps = b.foreachRec steps) ↔
      b.Unpadded (if alignLog2 = 0 then BLOBLIST_BLOB_ALIGN_LOG2 else alignLog2) := by
  obtain ⟨result, run, address⟩ := map_eq_some_iff.1 failed
  simp only [bloblistAddrec, if_true] at run
  generalize (if alignLog2 = 0 then BLOBLIST_BLOB_ALIGN_LOG2 else alignLog2) = effective at *
  split at run
  · next aligned =>
    cases run
    rcases placeRec_cases b tag size _ with ⟨-, refused⟩ | ⟨-, added, placed, -⟩
    · rw [refused] at address
      cases address
      exact iff_of_true ⟨rfl, fun _ => rfl⟩ (.inl aligned)
    · rw [placed] at address
      cases address
  next padding =>
  split_ifs at run with multiple
  · rcases placeRec_cases b BLOBLISTT_VOID
        (b.alignedStart effective - BitVec.ofNat 32 BLOBLIST_REC_HDR_SIZE)
        BLOBLIST_BLOB_ALIGN_LOG2 with ⟨full, refused⟩ | ⟨fits, padded, placed, used⟩
    · unfold alignedStart at refused
      rw [refused] at run
      cases run
      cases address
      exact iff_of_true ⟨rfl, fun _ => rfl⟩ (.inr full)
    · have grown := newAlloced_ne b padding (alignedStart_near multiple effective)
      unfold alignedStart at placed
      rw [placed] at run
      cases run
      rcases placeRec_cases padded tag size effective with ⟨-, refused⟩ | ⟨-, added, placed, -⟩
      · rw [refused] at address
        cases address
        exact iff_of_false (fun same => grown (used.symm.trans same.1))
          (fun unpadded => unpadded.elim padding fits)
      · rw [placed] at address
        cases address

theorem bloblistAdd_unchanged_aligned :
    ∃ b c, bloblistNew machine 0x100 64 0 0 = .ok b ∧ b.bloblistAdd 1 64 0 = some (c, none) ∧
      c.usedSize = b.usedSize ∧ ∀ steps, c.foreachRec steps = b.foreachRec steps := by
  obtain ⟨b, ⟨c, address⟩, made, failed, values⟩ :=
    Filling.exists_of_new 64 (fun b => b.bloblistAdd 1 64 0)
      (fun b c => (c.2, b.alignedStart 3)) (none, 0) (by decide)
  obtain ⟨rfl, aligned⟩ := Prod.mk.inj values
  exact ⟨b, c, made, failed, (bloblistAdd_unchanged_iff failed).2 (.inl aligned)⟩

/-- A blob of 64 bytes that is aligned to 64 does not fit, and 32 bytes of padding stay. -/
theorem exists_padding_left :
    ∃ b c, bloblistNew machine 0x100 64 0 0 = .ok b ∧ b.bloblistAdd 1 64 6 = some (c, none) ∧
      b.usedSize = 24 ∧ c.usedSize = 56 := by
  obtain ⟨b, ⟨c, address⟩, made, failed, values⟩ :=
    Filling.exists_of_new 64 (fun b => b.bloblistAdd 1 64 6)
      (fun b c => (c.2, b.usedSize, c.1.usedSize)) (none, 24, 56) (by decide)
  simp only [Prod.mk.injEq] at values
  obtain ⟨rfl, sizes⟩ := values
  exact ⟨b, c, made, failed, sizes⟩

end UBoot
