import Mathlib.Algebra.BigOperators.Group.List.Basic
import Mathlib.Data.UInt
import Mathlib.Tactic.Abel
import UBoot.BloblistRuns

/-!
# Handing a bloblist over

One stage fills a list with the default alignment, writes what it likes into the
blobs and finishes the list; the next stage checks it and may move it to a larger area.
The check accepts a finished list, a list that was moved and finished again is accepted
and has the same blobs, and a changed byte behind the header is noticed.  The checksum
takes the size of the list as an `int`, so that nothing is noticed in a list of two GiB.
-/

namespace UBoot

open List Bloblist Option Memory Nat

variable {blobs : List Blob}

namespace Bloblist

/-! ## The checksum -/

theorem foldl_sub (bytes : List UInt8) (start : UInt8) :
    bytes.foldl (· - ·) start = start - bytes.sum := by
  induction bytes generalizing start with
  | nil => simp
  | cons byte bytes ih => rw [foldl_cons, ih, sum_cons, sub_sub]

variable {b : Bloblist}

def summed (b : Bloblist) : List UInt8 := b.mem.read b.hdr b.usedSize

theorem bloblistCalcChksum_eq (bounded : b.usedSize < 2 ^ 31) :
    b.bloblistCalcChksum = b.chksum - b.summed.sum := by
  have word : (BitVec.ofNat 32 b.usedSize).toNat = b.usedSize := by
    rw [BitVec.toNat_ofNat, mod_eq_of_lt (by omega)]
  have length : (BitVec.ofNat 32 b.usedSize).toInt.toNat = b.usedSize := by
    rw [BitVec.toInt_eq_toNat_of_lt (by omega), word, Int.toNat_natCast]
  unfold bloblistCalcChksum tableComputeChecksum summed
  rw [length, foldl_sub, zero_sub, neg_add_eq_sub]

theorem sum_summed_putU8 {ofs : Nat} {value : UInt8} (inside : ofs < b.usedSize)
    (other : ofs < 8 ∨ 12 ≤ ofs) :
    (b.putU8 ofs value).summed.sum = b.summed.sum - b.u8 ofs + value := by
  have sameUsed : (b.putU8 ofs value).usedSize = b.usedSize := u32_putU8 (by omega)
  have bytes : (b.putU8 ofs value).summed = b.summed.set ofs value := by
    unfold summed
    rw [sameUsed]
    exact read_write_singleton value
  have within : ofs < b.summed.length := by
    unfold summed
    rwa [length_read]
  have old : b.summed[ofs] = b.u8 ofs := getElem_read within
  rw [bytes, sum_set', dif_pos within, old]
  abel

theorem Listed.calcChksum_putU8 (listed : Listed b blobs) (value : UInt8) :
    (b.putU8 4 value).bloblistCalcChksum = b.bloblistCalcChksum := by
  have header := listed.hdrSize_le_usedSize
  have bounded := listed.bounded
  have sameUsed : (b.putU8 4 value).usedSize = b.usedSize := u32_putU8 (by decide)
  have same : (b.putU8 4 value).chksum = value := u8_putU8_same b 4 value
  rw [bloblistCalcChksum_eq (by omega), bloblistCalcChksum_eq (by omega),
    sum_summed_putU8 (by omega) (by decide), same]
  abel

theorem Listed.finish (listed : Listed b blobs) : Listed b.bloblistFinish blobs := by
  apply listed.congr
  · intro x _ notChksum _
    exact u8_putU8_of_ne notChksum
  · intro blob inside x atLeast less
    obtain ⟨above, -, -⟩ := listed.placed.bounds (by decide) inside
    unfold BLOBLIST_HDR_SIZE at above
    exact u8_putU8_of_ne (by omega)
  · have sameTotal : b.bloblistFinish.totalSize = b.totalSize := u32_putU8 (by decide)
    rw [sameTotal]
    exact listed.within

theorem Listed.chksum_finish (listed : Listed b blobs) :
    b.bloblistFinish.chksum = b.bloblistFinish.bloblistCalcChksum := by
  unfold bloblistFinish
  rw [listed.calcChksum_putU8]
  exact u8_putU8_same b 4 _

theorem exists_bloblistCheck_error (wrong : b.chksum ≠ b.bloblistCalcChksum) (size : BitVec 32) :
    ∃ e, bloblistCheck b b.hdr size = .error e := by
  unfold bloblistCheck
  dsimp only
  split_ifs <;> exact ⟨_, rfl⟩

theorem Listed.bloblistCheck_eq (listed : Listed b blobs) {size : BitVec 32}
    (room : size = 0 ∨ b.totalSize ≤ size.toNat) :
    bloblistCheck b b.hdr size =
      if b.chksum ≠ b.bloblistCalcChksum then .error .badChecksum else .ok b := by
  have header := listed.hdrSize_le_usedSize
  have within := listed.within
  have fits : ¬ (b.totalSize = 0 ∨ size ≠ 0 ∧ size.toNat < b.totalSize) := by
    rintro (empty | ⟨given, short⟩)
    · omega
    · rcases room with none | enough
      · exact given none
      · omega
  unfold bloblistCheck
  rw [if_neg (not_not_intro listed.magic), if_neg (not_not_intro listed.version), if_neg fits,
    if_neg (not_lt.2 within), if_neg (not_not_intro listed.hdrSize)]

theorem Listed.bloblistCheck_finish (listed : Listed b blobs) {size : BitVec 32}
    (room : size = 0 ∨ b.totalSize ≤ size.toNat) :
    bloblistCheck b.bloblistFinish b.hdr size = .ok b.bloblistFinish := by
  have sameTotal : b.bloblistFinish.totalSize = b.totalSize := u32_putU8 (by decide)
  rw [← sameTotal] at room
  have checked := listed.finish.bloblistCheck_eq room
  rw [if_neg (not_not_intro listed.chksum_finish)] at checked
  exact checked

/-- The check refuses a finished list of which a byte behind the header was changed. -/
theorem Listed.bloblistCheck_tampered (listed : Listed b blobs) {ofs : Nat} {value : UInt8}
    (behind : BLOBLIST_HDR_SIZE ≤ ofs) (inside : ofs < b.usedSize)
    (changed : value ≠ b.bloblistFinish.u8 ofs) (size : BitVec 32) :
    ∃ e, bloblistCheck (b.bloblistFinish.putU8 ofs value) b.hdr size = .error e := by
  have bounded := listed.finish.bounded
  have sum := listed.chksum_finish
  have sameUsed : b.bloblistFinish.usedSize = b.usedSize := u32_putU8 (by decide)
  rw [← sameUsed] at inside
  change 24 ≤ ofs at behind
  change ∃ e, bloblistCheck (b.bloblistFinish.putU8 ofs value) b.bloblistFinish.hdr size = .error e
  generalize b.bloblistFinish = f at *
  apply exists_bloblistCheck_error
  have sameUsed' : (f.putU8 ofs value).usedSize = f.usedSize := u32_putU8 (by omega)
  have sameChksum : (f.putU8 ofs value).chksum = f.chksum := u8_putU8_of_ne (by omega)
  rw [bloblistCalcChksum_eq (by omega)] at sum ⊢
  rw [sum_summed_putU8 inside (by omega), sameChksum]
  intro same
  apply changed
  calc
    value = f.chksum - (f.chksum - (f.summed.sum - f.u8 ofs + value)) - f.summed.sum +
      f.u8 ofs := by
      abel
    _ = f.chksum - f.chksum - f.summed.sum + f.u8 ofs := by rw [← same]
    _ = f.chksum - (f.chksum - f.summed.sum) - f.summed.sum + f.u8 ofs := by rw [← sum]
    _ = f.u8 ofs := by abel

/-! ## Moving a list -/

def contents (b : Bloblist) (tag : BitVec 32) : Option (Option (Nat × List UInt8)) :=
  (b.bloblistGetBlob tag).map fun found =>
    found.map fun blob => (blob.2, b.mem.read blob.1 blob.2)

/-- Lists with the same records and the same bytes behind the header have the same
contents. -/
theorem Listed.contents_congr {b' : Bloblist} (listed : Listed b blobs) (listed' : Listed b' blobs)
    (agree : ∀ x < b.usedSize, BLOBLIST_HDR_SIZE ≤ x → b'.u8 x = b.u8 x) (tag : BitVec 32) :
    b'.contents tag = b.contents tag := by
  unfold contents
  rw [listed.bloblistGetBlob_eq, listed'.bloblistGetBlob_eq]
  simp only [map_some, Option.map_map]
  congr 1
  cases found : blobs.find? (·.tag = tag.toNat) with
  | none => rfl
  | some blob =>
    obtain ⟨above, below, -⟩ := listed.placed.bounds (by decide) (mem_of_find?_eq_some found)
    have room := size_lt_extent blob
    simp only [map_some, Function.comp, some.injEq, Prod.mk.injEq, true_and]
    apply ext_getElem (by simp)
    intro i inside inside'
    rw [length_read] at inside
    rw [getElem_read, getElem_read, add_assoc, add_assoc, add_assoc, add_assoc]
    unfold BLOBLIST_HDR_SIZE at *
    unfold BLOBLIST_REC_HDR_SIZE
    exact agree _ (by omega) (by omega)

theorem Listed.bloblistReloc (listed : Listed b blobs) {dest : Nat} {toSize : BitVec 32}
    (apart : dest + b.totalSize ≤ b.hdr ∨ b.hdr + b.totalSize ≤ dest)
    (enough : b.totalSize ≤ toSize.toNat) :
    ∃ moved, b.bloblistReloc dest toSize = .ok moved ∧ moved.hdr = dest ∧
      moved.totalSize = toSize.toNat ∧ Listed moved blobs ∧
      ∀ x < b.usedSize, BLOBLIST_HDR_SIZE ≤ x → moved.u8 x = b.u8 x := by
  have header := listed.hdrSize_le_usedSize
  have within := listed.within
  have given : toSize ≠ 0 := by
    rintro rfl
    change b.totalSize ≤ 0 at enough
    omega
  have copied : ∀ x < b.usedSize, x < 12 ∨ 16 ≤ x →
      ({ b with mem := b.mem.copy dest b.hdr b.totalSize, hdr := dest }.putU32 12
        toSize.toNat).u8 x = b.u8 x := by
    intro x inside other
    rw [u8_putU32 (by omega)]
    exact copy_inside (by omega) (by omega)
  have total : ({ b with mem := b.mem.copy dest b.hdr b.totalSize, hdr := dest }.putU32 12
      toSize.toNat).totalSize = toSize.toNat := by
    unfold totalSize
    rw [u32_putU32_same, mod_eq_of_lt toSize.isLt]
  unfold Bloblist.bloblistReloc
  rw [if_neg given, if_neg (not_lt.2 enough)]
  refine ⟨_, rfl, rfl, total, ?_, ?_⟩
  · apply listed.congr
    · intro x inside _ other
      unfold BLOBLIST_HDR_SIZE at inside
      exact copied x (by omega) other
    · intro blob inside x atLeast less
      obtain ⟨above, below, -⟩ := listed.placed.bounds (by decide) inside
      have room := size_lt_extent blob
      unfold BLOBLIST_HDR_SIZE at above
      exact copied x (by omega) (by omega)
    · rw [total]
      omega
  · intro x inside behind
    unfold BLOBLIST_HDR_SIZE at behind
    exact copied x inside (by omega)

theorem Laid.write {blob : Blob} (laid : Laid b blobs) (inside : blob ∈ blobs) {start : Nat}
    {bytes : List UInt8} (fits : start + bytes.length ≤ blob.size) :
    Laid { b with mem := b.mem.write (b.hdr + blob.ofs + BLOBLIST_REC_HDR_SIZE + start) bytes }
      blobs := by
  obtain ⟨above, -, -⟩ := laid.placed.bounds (by decide) inside
  have room := size_lt_extent blob
  have outside : ∀ x, x < blob.ofs + 8 ∨ blob.ofs + blob.extent ≤ x →
      u8 { b with mem := b.mem.write (b.hdr + blob.ofs + BLOBLIST_REC_HDR_SIZE + start) bytes } x =
        b.u8 x := by
    intro x other
    apply write_of_disjoint
    unfold BLOBLIST_REC_HDR_SIZE
    dsimp only
    omega
  unfold BLOBLIST_HDR_SIZE at above
  have sameTotal : totalSize
      { b with mem := b.mem.write (b.hdr + blob.ofs + BLOBLIST_REC_HDR_SIZE + start) bytes } =
        b.totalSize := u32_congr fun i small => outside _ (by omega)
  refine ⟨?_, laid.aligned, sameTotal.trans_lt laid.small⟩
  apply laid.toListed.congr
  · intro x small _ _
    unfold BLOBLIST_HDR_SIZE at small
    exact outside x (by omega)
  · intro other inside' x atLeast less
    have apart := laid.placed.apart (by decide) inside inside'
    exact outside x (by omega)
  · rw [sameTotal]
    exact laid.within

theorem Laid.bloblistAddrec_default (laid : Laid b blobs) (tag size : BitVec 32) (depth : Nat) :
    Bloblist.bloblistAddrec (depth + 1) b tag size 0 =
      some (b.placeRec tag size BLOBLIST_BLOB_ALIGN_LOG2) := by
  rw [Bloblist.bloblistAddrec]
  rw [if_pos rfl, if_pos laid.alignedStart_default]

end Bloblist

/-! ## A stage -/

/-- What a stage does with its list: it adds a blob, makes sure that there is one, or writes
into the `k`-th blob that was added. -/
inductive HandoffEvent where
  | add (tag size : BitVec 32)
  | ensure (tag size : BitVec 32)
  | write (k start : Nat) (bytes : List UInt8)

def HandoffEvent.Safe : HandoffEvent → Prop
  | .add tag size => tag.toNat < 2 ^ 24 ∧ size.toNat < 2 ^ 31
  | .ensure tag size => tag.toNat < 2 ^ 24 ∧ size.toNat < 2 ^ 31
  | .write _ _ _ => True

namespace Filling

def withBlob (c : Filling) (tag size : BitVec 32) (result : Bloblist × Option Nat) : Filling :=
  ⟨result.1, c.added ++ (result.2.map (⟨tag, size, 0⟩, ·)).toList⟩

def handle (c : Filling) : HandoffEvent → Option Filling
  | .add tag size => (c.list.bloblistAdd tag size 0).map (c.withBlob tag size)
  | .ensure tag size =>
    (c.list.bloblistEnsure tag size).map fun result =>
      if c.list.bloblistFindrec tag = some none then c.withBlob tag size result
      else ⟨result.1, c.added⟩
  | .write k start bytes =>
    match c.added[k]? with
    | some entry =>
      if start + bytes.length ≤ entry.1.size.toNat then
        some ⟨{ c.list with mem := c.list.mem.write (entry.2 + start) bytes }, c.added⟩
      else some c
    | none => some c

def runStage (c : Filling) (events : List HandoffEvent) : Option Filling := events.foldlM handle c

structure Stocked (c : Filling) (blobs : List Blob) : Prop where
  laid : Laid c.list blobs
  entries : blobs.map
      (fun blob => (blob.tag, blob.size, c.list.hdr + blob.ofs + BLOBLIST_REC_HDR_SIZE)) =
    c.added.map (fun entry => (entry.1.tag.toNat, entry.1.size.toNat, entry.2))

variable {c : Filling} {tag size : BitVec 32}

theorem Stocked.withBlob (stocked : c.Stocked blobs) (tagFits : tag.toNat < 2 ^ 24)
    (nonneg : size.toNat < 2 ^ 31) :
    ∃ blobs', (c.withBlob tag size
      (blobAddress (c.list.placeRec tag size BLOBLIST_BLOB_ALIGN_LOG2))).Stocked blobs' := by
  have sameSpace : SameSpace size BLOBLIST_BLOB_ALIGN_LOG2 := rfl
  rcases stocked.laid.placeRec tagFits nonneg (by decide) sameSpace false with
    refused | ⟨added, placed, sameHdr, laid⟩
  · rw [refused]
    refine ⟨blobs, stocked.laid, ?_⟩
    simpa [Filling.withBlob, blobAddress] using stocked.entries
  have held := laid.holds _ (mem_append_right _ (mem_singleton_self _))
  rw [placed]
  refine ⟨_, laid, ?_⟩
  unfold Filling.withBlob blobAddress
  dsimp only
  rw [held.hdrSize, sameHdr, map_append, stocked.entries]
  simp

theorem Stocked.handle (stocked : c.Stocked blobs) {event : HandoffEvent} (safe : event.Safe) :
    ∃ next blobs', c.handle event = some next ∧ next.Stocked blobs' := by
  have laid := stocked.laid
  cases event with
  | add tag size =>
    obtain ⟨blobs', next⟩ := stocked.withBlob safe.1 safe.2
    refine ⟨_, blobs', ?_, next⟩
    rw [Filling.handle, bloblistAdd, laid.bloblistAddrec_default]
    rfl
  | ensure tag size =>
    have search := laid.bloblistFindrec_eq tag
    rw [Filling.handle, bloblistEnsure, bloblistEnsurerec, search]
    cases found : blobs.find? (·.tag = tag.toNat) with
    | none =>
      obtain ⟨blobs', next⟩ := stocked.withBlob safe.1 safe.2
      refine ⟨_, blobs', ?_, next⟩
      rw [laid.bloblistAddrec_default]
      rfl
    | some blob =>
      refine ⟨c, blobs, ?_, stocked⟩
      dsimp only [map_some]
      have isFound : some (some blob.ofs) ≠ some none := by simp
      simp only [if_neg isFound]
      split
      · rfl
      · rfl
  | write k start bytes =>
    rw [Filling.handle]
    cases found : c.added[k]? with
    | none => exact ⟨c, blobs, rfl, stocked⟩
    | some entry =>
      dsimp only
      split
      · next fits =>
        have added : (entry.1.tag.toNat, entry.1.size.toNat, entry.2) ∈
            c.added.map fun entry => (entry.1.tag.toNat, entry.1.size.toNat, entry.2) :=
          mem_map_of_mem (mem_of_getElem? found)
        rw [← stocked.entries] at added
        obtain ⟨blob, inside, same⟩ := mem_map.1 added
        simp only [Prod.mk.injEq] at same
        obtain ⟨-, sameSize, sameAddress⟩ := same
        rw [← sameSize] at fits
        rw [← sameAddress]
        exact ⟨_, blobs, rfl, laid.write inside fits, stocked.entries⟩
      · exact ⟨c, blobs, rfl, stocked⟩

theorem Stocked.runStage (stocked : c.Stocked blobs) {events : List HandoffEvent}
    (safe : ∀ event ∈ events, event.Safe) :
    ∃ last blobs', c.runStage events = some last ∧ last.Stocked blobs' := by
  induction events generalizing c blobs with
  | nil => exact ⟨c, blobs, rfl, stocked⟩
  | cons event events ih =>
    obtain ⟨next, blobs', handled, stocked'⟩ := stocked.handle (safe event (mem_cons_self ..))
    obtain ⟨last, blobs'', ran, stocked''⟩ :=
      ih stocked' fun other inside => safe other (mem_cons_of_mem _ inside)
    refine ⟨last, blobs'', ?_, stocked''⟩
    unfold runStage at ran ⊢
    rw [foldlM_cons, handled]
    exact ran

theorem Stocked.getBlob_eq (stocked : c.Stocked blobs) (tag : BitVec 32) :
    c.list.bloblistGetBlob tag =
      some ((c.added.find? (·.1.tag = tag)).map fun entry => (entry.2, entry.1.size.toNat)) := by
  rw [stocked.laid.bloblistGetBlob_eq]
  exact congrArg some (find_entries stocked.entries tag)

/-- A stage that fills a new list hands it over: every blob that was added is found, the next
stage accepts the finished list, a list that was moved and finished again is accepted and
has the same contents, and a changed byte behind the header is noticed. -/
theorem handed_over {machine b : Bloblist} {addr : Nat} {size flags : BitVec 32}
    (made : bloblistNew machine addr size flags 0 = .ok b) (small : size.toNat < 2 ^ 31 - 8)
    (events : List HandoffEvent) (safe : ∀ event ∈ events, event.Safe) :
    ∃ c, runStage ⟨b, []⟩ events = some c ∧ (∀ tag, c.list.bloblistGetBlob tag =
        some ((c.added.find? (·.1.tag = tag)).map fun entry => (entry.2, entry.1.size.toNat))) ∧
      (∀ limit, limit = 0 ∨ c.list.totalSize ≤ limit.toNat →
        bloblistCheck c.list.bloblistFinish c.list.hdr limit = .ok c.list.bloblistFinish) ∧
      (∀ (dest : Nat) (toSize : BitVec 32),
        dest + c.list.totalSize ≤ c.list.hdr ∨ c.list.hdr + c.list.totalSize ≤ dest →
        c.list.totalSize ≤ toSize.toNat →
        ∃ moved, c.list.bloblistReloc dest toSize = .ok moved ∧
          (∀ limit, limit = 0 ∨ toSize.toNat ≤ limit.toNat →
            bloblistCheck moved.bloblistFinish dest limit = .ok moved.bloblistFinish) ∧
          ∀ tag, moved.bloblistFinish.contents tag = c.list.contents tag) ∧
      ∀ ofs value, c.list.hdrSize ≤ ofs → ofs < c.list.usedSize →
        value ≠ c.list.bloblistFinish.u8 ofs → ∀ limit, ∃ e,
          bloblistCheck (c.list.bloblistFinish.putU8 ofs value) c.list.hdr limit = .error e := by
  have start : Stocked ⟨b, []⟩ [] := ⟨(laid_bloblistNew made small).1, rfl⟩
  obtain ⟨c, blobs, ran, stocked⟩ := start.runStage safe
  have listed := stocked.laid.toListed
  refine ⟨c, ran, stocked.getBlob_eq, fun limit room => listed.bloblistCheck_finish room, ?_, ?_⟩
  · intro dest toSize apart enough
    obtain ⟨moved, relocated, sameHdr, total, listed', agree⟩ := listed.bloblistReloc apart enough
    refine ⟨moved, relocated, ?_, ?_⟩
    · intro limit room
      rw [← total] at room
      rw [← sameHdr]
      exact listed'.bloblistCheck_finish room
    intro tag
    apply listed.contents_congr listed'.finish
    intro x inside behind
    unfold BLOBLIST_HDR_SIZE at behind
    rw [bloblistFinish, u8_putU8_of_ne (by omega)]
    exact agree x inside behind
  · intro ofs value behind inside changed limit
    rw [listed.hdrSize] at behind
    exact listed.bloblistCheck_tampered behind inside changed limit

theorem handed_over_two_blobs : ∃ b c, bloblistNew machine 0x100 0x400 0 0 = .ok b ∧
      runStage ⟨b, []⟩ [.add 1 5, .write 0 1 [7, 8], .ensure 2 12, .ensure 1 5] = some c ∧
      c.list.contents 1 = some (some (5, [0, 7, 8, 0, 0])) ∧
      ∃ moved, c.list.bloblistReloc 0x1000 0x800 = .ok moved ∧
        bloblistCheck moved.bloblistFinish 0x1000 0 = .ok moved.bloblistFinish ∧
        moved.bloblistFinish.contents 1 = some (some (5, [0, 7, 8, 0, 0])) := by
  obtain ⟨b, c, made, ran, values⟩ :=
    exists_of_new 0x400
      (fun b => runStage ⟨b, []⟩ [.add 1 5, .write 0 1 [7, 8], .ensure 2 12, .ensure 1 5])
      (fun _ c => (c.list.contents 1, [c.list.hdr, c.list.totalSize]))
      (some (some (5, [0, 7, 8, 0, 0])), [0x100, 0x400]) (by decide)
  simp only [Prod.mk.injEq, cons.injEq, and_true] at values
  obtain ⟨contents, hdr, total⟩ := values
  have safe : ∀ event ∈ [.add 1 5, .write 0 1 [7, 8], .ensure 2 12, .ensure 1 5],
      HandoffEvent.Safe event := by
    simp [HandoffEvent.Safe]
  obtain ⟨c', ran', -, -, relocated, -⟩ := handed_over made (by decide) _ safe
  rw [ran] at ran'
  obtain rfl := some.inj ran'
  obtain ⟨moved, isMoved, checked, same⟩ :=
    relocated 0x1000 0x800 (.inr (by rw [hdr, total]; decide)) (by rw [total]; decide)
  exact ⟨b, c, made, ran, contents, moved, isMoved, checked 0 (.inl rfl), (same 1).trans contents⟩

/-- A finished list of two GiB in which a byte of the blob was changed is accepted. -/
theorem exists_tampered_accepted : ∃ b c, bloblistNew machine 0x100 0xffffffff 0 0 = .ok b ∧
      runStage ⟨b, []⟩ [.add 1 0x7ffffff8] = some c ∧
      c.list.hdrSize ≤ 32 ∧ 32 < c.list.usedSize ∧ c.list.bloblistFinish.u8 32 ≠ 1 ∧
      ∃ list, bloblistCheck (c.list.bloblistFinish.putU8 32 1) c.list.hdr 0 = .ok list := by
  obtain ⟨b, c, made, ran, values⟩ :=
    exists_of_new 0xffffffff (fun b => runStage ⟨b, []⟩ [.add 1 0x7ffffff8])
      (fun _ c => ([c.list.hdrSize, c.list.usedSize], c.list.bloblistFinish.u8 32,
        (bloblistCheck (c.list.bloblistFinish.putU8 32 1) c.list.hdr 0).toOption.isSome))
      ([24, 0x80000018], 0, true) (by decide)
  simp only [Prod.mk.injEq, cons.injEq, and_true] at values
  obtain ⟨⟨hdrSize, used⟩, byte, accepted⟩ := values
  refine ⟨b, c, made, ran, by omega, by omega, by rw [byte]; decide, ?_⟩
  cases checked : bloblistCheck (c.list.bloblistFinish.putU8 32 1) c.list.hdr 0 with
  | error e =>
    rw [checked] at accepted
    cases accepted
  | ok list => exact ⟨list, rfl⟩

end Filling

end UBoot
