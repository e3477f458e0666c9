import UBoot.BlkCache

/-!
# Reads through the cache

In every run of reads, writes and erases on any number of devices, with the cache
configured anew at any time, each node of the cache holds what its device holds.
A read that succeeds therefore gives what the device holds, and what it would
give without the cache.
-/

namespace UBoot

open List Option Nat BlkConfig BlockCacheNode

structure BlkWorld where
  cache : BlockCache
  disk : Int → Int → Memory

def BlkRange.bytes (disk : Int → Int → Memory) (range : BlkRange) : List UInt8 :=
  (disk range.iftype range.devnum).read (range.start * range.blksz) (range.blkcnt * range.blksz)

structure ReadCall where
  desc : BlkDesc
  ops : BlkOps
  malloc : Malloc
  start : Nat
  blkcnt : Nat
  buf : List UInt8
  driver : DriverRead

namespace ReadCall

def range (call : ReadCall) : BlkRange := call.desc.range call.start call.blkcnt

def size (call : ReadCall) : Nat := call.blkcnt * call.desc.blksz

/-- The blocks do not wrap around, the buffer has room for them, and a driver that returns their
number has read them. -/
structure Valid (c : BlkConfig) (disk : Int → Int → Memory) (call : ReadCall) : Prop where
  noWrap : call.start + call.blkcnt < 2 ^ c.lbaBits
  room : call.size ≤ call.buf.length
  object : call.buf.length < 2 ^ c.ulongBits
  number : call.driver.blksRead < 2 ^ c.ulongBits
  sameBuffer : call.driver.data.length = call.buf.length
  faithful : call.driver.blksRead = call.blkcnt →
    call.driver.data.take call.size = call.range.bytes disk

def run (c : BlkConfig) (s : BlockCache) (call : ReadCall) :
    Option (Int × List UInt8 × BlockCache) :=
  blkRead c s call.desc call.ops call.malloc call.start call.blkcnt call.buf call.driver

end ReadCall

inductive BlkCall
  | read (call : ReadCall)
  | write (desc : BlkDesc) (ops : BlkOps) (driver : DriverWrite)
  | erase (desc : BlkDesc) (ops : BlkOps) (driver : DriverWrite)
  | configure (blocks entries : Nat)
  | invalidate (iftype devnum : Int)
  | stats
  | free

namespace BlkWorld

def setDisk (w : BlkWorld) (desc : BlkDesc) (result : Int × BlockCache × Option Memory) :
    BlkWorld where
  cache := result.2.1
  disk := fun iftype devnum =>
    if iftype = desc.uclassId ∧ devnum = desc.devnum then
      result.2.2.getD (w.disk iftype devnum)
    else w.disk iftype devnum

def step (c : BlkConfig) (w : BlkWorld) : BlkCall → Option BlkWorld
  | .read call => (call.run c w.cache).map fun result => { w with cache := result.2.2 }
  | .write desc ops driver => some (w.setDisk desc (blkWrite w.cache desc ops driver))
  | .erase desc ops driver => some (w.setDisk desc (blkErase w.cache desc ops driver))
  | .configure blocks entries => some { w with cache := blkcacheConfigure w.cache blocks entries }
  | .invalidate iftype devnum => some { w with cache := blkcacheInvalidate w.cache iftype devnum }
  | .stats => some { w with cache := blkcacheStats w.cache }
  | .free => some { w with cache := blkcacheFree w.cache }

def ValidCall (c : BlkConfig) (w : BlkWorld) : BlkCall → Prop
  | .read call => call.Valid c w.disk
  | _ => True

inductive Reachable (c : BlkConfig) : BlkWorld → Prop
  | init (disk : Int → Int → Memory) : Reachable c ⟨.init, disk⟩
  | step {w w' : BlkWorld} {call : BlkCall} (before : Reachable c w)
      (valid : w.ValidCall c call) (run : w.step c call = some w') : Reachable c w'

end BlkWorld

/-! ## What the nodes hold -/

def BlockCacheNode.range (node : BlockCacheNode) : BlkRange where
  iftype := node.iftype
  devnum := node.devnum
  start := node.start
  blkcnt := node.blkcnt
  blksz := node.blksz

structure BlockCacheNode.Current (c : BlkConfig) (disk : Int → Int → Memory)
    (node : BlockCacheNode) : Prop where
  noWrap : node.start + node.blkcnt < 2 ^ c.lbaBits
  object : node.blkcnt * node.blksz < 2 ^ c.ulongBits
  room : node.blkcnt * node.blksz ≤ node.cache.length
  bytes : node.cache.take (node.blkcnt * node.blksz) = node.range.bytes disk

structure BlockCache.Current (c : BlkConfig) (disk : Int → Int → Memory) (s : BlockCache) :
    Prop where
  entries : s.entries = s.nodes.length
  atMost : s.nodes.length ≤ s.maxEntries
  nodes : ∀ node ∈ s.nodes, node.Current c disk

section Nodes

variable {c : BlkConfig} {disk : Int → Int → Memory} {s : BlockCache} {range : BlkRange}
  {node : BlockCacheNode}

theorem lbaMul_eq {x y : Nat} (less : x * y < 2 ^ c.ulongBits) : c.lbaMul x y = x * y :=
  mod_eq_of_lt (less.trans_le (Nat.pow_le_pow_right (by omega) c.narrow))

theorem sizeT_lbaMul {x y : Nat} (less : x * y < 2 ^ c.ulongBits) :
    c.sizeT (c.lbaMul x y) = x * y := by
  rw [lbaMul_eq less]
  exact mod_eq_of_lt less

@[simp] theorem BlkRange.length_bytes (range : BlkRange) :
    (range.bytes disk).length = range.blkcnt * range.blksz :=
  Memory.length_read _ _ _

theorem BlkRange.bytes_inside {inner outer : BlkRange} (sameType : outer.iftype = inner.iftype)
    (sameNum : outer.devnum = inner.devnum) (sameSize : outer.blksz = inner.blksz)
    (above : outer.start ≤ inner.start)
    (below : inner.start + inner.blkcnt ≤ outer.start + outer.blkcnt) :
    inner.bytes disk = ((outer.bytes disk).drop ((inner.start - outer.start) * inner.blksz)).take
        (inner.blkcnt * inner.blksz) := by
  obtain ⟨skip, startEq⟩ := Nat.exists_eq_add_of_le above
  have inside : skip * inner.blksz + inner.blkcnt * inner.blksz ≤ outer.blkcnt * inner.blksz := by
    rw [← add_mul]
    exact mul_le_mul_right _ (by omega)
  unfold BlkRange.bytes
  rw [sameType, sameNum, sameSize, startEq, Nat.add_sub_cancel_left,
    Memory.take_drop_read _ inside, add_mul]

theorem covers_eq_true : node.covers c range = true ↔
    node.iftype = range.iftype ∧ node.devnum = range.devnum ∧ node.blksz = range.blksz ∧
      node.start ≤ range.start ∧
      c.lbaAdd range.start range.blkcnt ≤ c.lbaAdd node.start node.blkcnt := by
  exact decide_eq_true_iff

theorem BlockCacheNode.Current.copy_eq (current : node.Current c disk)
    (noWrap : range.start + range.blkcnt < 2 ^ c.lbaBits)
    (object : range.blkcnt * range.blksz < 2 ^ c.ulongBits)
    (covers : node.covers c range = true) :
    node.copy c range = some (range.bytes disk) := by
  obtain ⟨sameType, sameNum, sameSize, above, below⟩ := covers_eq_true.1 covers
  unfold lbaAdd at below
  rw [mod_eq_of_lt noWrap, mod_eq_of_lt current.noWrap] at below
  have inside : (range.start - node.start) * range.blksz + range.blkcnt * range.blksz ≤
      node.blkcnt * node.blksz := by
    rw [← Nat.add_mul, sameSize]
    exact Nat.mul_le_mul_right _ (by omega)
  have atNode := current.object
  have room := current.room
  rw [Nat.mul_comm] at object
  unfold copy
  rw [lbaMul_eq (by omega), sizeT_lbaMul object, Nat.mul_comm range.blksz]
  have bytes : range.bytes disk = _ :=
    BlkRange.bytes_inside (show node.range.iftype = range.iftype from sameType) sameNum sameSize
      above below
  rw [if_pos (by omega), bytes, ← current.bytes, drop_take, take_take, Nat.min_eq_left]
  · rfl
  · exact le_sub_of_add_le (by rw [Nat.add_comm]; exact inside)

/-! ## One call -/

theorem mem_of_cacheFind {nodes nodes' : List BlockCacheNode}
    (found : cacheFind c range nodes = some (node, nodes')) :
    node ∈ nodes ∧ node.covers c range = true ∧ nodes'.length = nodes.length ∧
      ∀ other ∈ nodes', other ∈ nodes := by
  obtain ⟨first, isFirst, same⟩ := map_eq_some_iff.1 found
  obtain ⟨rfl, rfl⟩ := Prod.mk.inj same
  have member := mem_of_find?_eq_some isFirst
  have covers : first.covers c range = true := find?_some isFirst
  refine ⟨member, covers, ?_, ?_⟩
  · have positive := length_pos_of_mem member
    rw [length_cons, length_eraseP_of_mem member covers]
    omega
  intro other inside
  rcases mem_cons.1 inside with rfl | inside
  · exact member
  · exact mem_of_mem_eraseP inside

theorem BlockCache.Current.blkcacheRead (current : s.Current c disk)
    (noWrap : range.start + range.blkcnt < 2 ^ c.lbaBits)
    (object : range.blkcnt * range.blksz < 2 ^ c.ulongBits) :
    ∃ hit s', UBoot.blkcacheRead c s range = some (hit, s') ∧ s'.Current c disk ∧
      s'.maxEntries = s.maxEntries ∧ ∀ bytes, hit = some bytes → bytes = range.bytes disk := by
  unfold UBoot.blkcacheRead
  cases find : cacheFind c range s.nodes with
  | none => exact ⟨none, _, rfl, ⟨current.entries, current.atMost, current.nodes⟩, rfl, by simp⟩
  | some found =>
    obtain ⟨node, nodes⟩ := found
    obtain ⟨member, covers, sameLength, fromNodes⟩ := mem_of_cacheFind find
    have copied := (current.nodes node member).copy_eq noWrap object covers
    refine ⟨some (range.bytes disk), { s with nodes := nodes, hits := (s.hits + 1) % 2 ^ 32 },
      by simp [copied], ⟨?_, ?_, ?_⟩, rfl, by simp⟩
    · exact current.entries.trans sameLength.symm
    · exact sameLength.trans_le current.atMost
    · exact fun other inside => current.nodes other (fromNodes other inside)

theorem storeNode_current {block buffer : List UInt8} (entries : s.entries = s.nodes.length)
    (nodes : ∀ node ∈ s.nodes, node.Current c disk) (fewer : s.nodes.length < s.maxEntries)
    (noWrap : range.start + range.blkcnt < 2 ^ c.lbaBits)
    (object : range.blkcnt * range.blksz < 2 ^ c.ulongBits)
    (roomBlock : range.blkcnt * range.blksz ≤ block.length)
    (roomBuffer : range.blkcnt * range.blksz ≤ buffer.length)
    (bytes : buffer.take (range.blkcnt * range.blksz) = range.bytes disk) :
    ∃ s', storeNode c s range block buffer = some s' ∧ s'.Current c disk := by
  have size : c.sizeT (c.lbaMul range.blksz range.blkcnt) = range.blkcnt * range.blksz := by
    rw [mul_comm] at object
    rw [sizeT_lbaMul object, mul_comm]
  unfold storeNode
  rw [size, if_neg (by omega)]
  refine ⟨_, rfl, ?_, ?_, ?_⟩
  · exact congrArg (· + 1) entries
  · exact fewer
  intro node inside
  rcases mem_cons.1 inside with rfl | inside
  · refine ⟨noWrap, object, ?_, ?_⟩
    · simp only [length_append, length_take]
      omega
    · rw [take_left' (by simp [roomBuffer]), bytes]
      rfl
  · exact nodes node inside

theorem BlockCache.Current.blkcacheFill (current : s.Current c disk) (malloc : Malloc)
    {buffer : List UInt8} (noWrap : range.start + range.blkcnt < 2 ^ c.lbaBits)
    (object : range.blkcnt * range.blksz < 2 ^ c.ulongBits)
    (roomBuffer : range.blkcnt * range.blksz ≤ buffer.length)
    (bytes : buffer.take (range.blkcnt * range.blksz) = range.bytes disk) :
    ∃ s', UBoot.blkcacheFill c s range malloc buffer = some s' ∧ s'.Current c disk := by
  have size : c.sizeT (c.lbaMul range.blksz range.blkcnt) = range.blkcnt * range.blksz := by
    rw [mul_comm] at object
    rw [sizeT_lbaMul object, mul_comm]
  have noBlock : ∀ t : BlockCache, t.Current c disk → t.nodes.length < t.maxEntries →
      ∃ s', fillNode c t range malloc none buffer = some s' ∧ s'.Current c disk := by
    intro t currentT fewer
    unfold fillNode
    by_cases noCache : malloc.cache = false
    · exact ⟨t, by simp [noCache], currentT⟩
    · simp only [noCache]
      exact storeNode_current currentT.entries currentT.nodes fewer noWrap object
        (by simp [size]) roomBuffer bytes
  unfold UBoot.blkcacheFill
  split
  · exact ⟨s, rfl, current⟩
  split
  · exact ⟨s, rfl, current⟩
  rename_i notZero
  split
  · rename_i full
    have entries := current.entries
    have atMost := current.atMost
    cases last : s.nodes.getLast? with
    | none =>
      rw [getLast?_eq_none_iff] at last
      rw [last, length_nil] at entries
      omega
    | some node =>
      have isLast := current.nodes node (mem_of_getLast? last)
      have currentRest : BlockCache.Current c disk
          { s with nodes := s.nodes.dropLast, entries := s.entries - 1 } := by
        refine ⟨?_, ?_, ?_⟩
        · simp [entries]
        · simp only [length_dropLast]
          omega
        · exact fun other inside => current.nodes other (dropLast_subset _ inside)
      have fewer : s.nodes.dropLast.length < s.maxEntries := by
        simp only [length_dropLast]
        omega
      simp only
      split
      · exact noBlock _ currentRest fewer
      rename_i large
      have room := isLast.room
      rw [lbaMul_eq isLast.object, lbaMul_eq (by rwa [mul_comm]), mul_comm range.blksz] at large
      exact storeNode_current currentRest.entries currentRest.nodes fewer noWrap object
        (by omega) roomBuffer bytes
  · rename_i notFull
    split
    · exact ⟨s, rfl, current⟩
    · exact noBlock s current (by rw [← current.entries]; omega)

theorem BlockCache.Current.blkcacheInvalidate {disk' : Int → Int → Memory} {iftype devnum : Int}
    (current : s.Current c disk)
    (others : ∀ iftype' devnum', ¬(iftype' = iftype ∧ devnum' = devnum) →
      disk' iftype' devnum' = disk iftype' devnum') :
    (UBoot.blkcacheInvalidate s iftype devnum).Current c disk' := by
  have shorter := length_filter_le (fun node : BlockCacheNode =>
    decide ¬(iftype = -1 ∨ (node.iftype = iftype ∧ node.devnum = devnum))) s.nodes
  have entries := current.entries
  have atMost := current.atMost
  unfold UBoot.blkcacheInvalidate
  refine ⟨?_, ?_, ?_⟩
  · dsimp only
    omega
  · dsimp only
    omega
  intro node inside
  obtain ⟨member, kept⟩ := mem_filter.1 inside
  have other : ¬(node.iftype = iftype ∧ node.devnum = devnum) := by
    intro same
    simp [same] at kept
  have held := current.nodes node member
  refine ⟨held.noWrap, held.object, held.room, held.bytes.trans ?_⟩
  unfold BlkRange.bytes
  rw [show disk' node.range.iftype node.range.devnum = disk node.iftype node.devnum from
    others _ _ other]
  rfl

theorem BlockCache.Current.blkcacheConfigure (current : s.Current c disk) (blocks entries : Nat) :
    (UBoot.blkcacheConfigure s blocks entries).Current c disk := by
  have dropped : (UBoot.blkcacheInvalidate s (-1) 0).nodes = [] := by
    simp [UBoot.blkcacheInvalidate]
  have currentDropped : (UBoot.blkcacheInvalidate s (-1) 0).Current c disk :=
    current.blkcacheInvalidate fun _ _ _ => rfl
  unfold UBoot.blkcacheConfigure
  split
  · refine ⟨currentDropped.entries, ?_, currentDropped.nodes⟩
    simp [dropped]
  · rename_i same
    obtain ⟨-, rfl⟩ : blocks = s.maxBlocksPerEntry ∧ entries = s.maxEntries := by omega
    exact ⟨current.entries, current.atMost, current.nodes⟩

theorem eq_of_long {x y : Nat} (lessX : x < 2 ^ c.ulongBits) (same : c.long x = y) :
    x = y := by
  unfold long at same
  rw [Int.bmod_def] at same
  have reduced : (x : Int) % (2 ^ c.ulongBits : Nat) = x := by
    rw [← Int.natCast_mod, mod_eq_of_lt lessX]
  rw [reduced] at same
  split at same
  · exact Int.ofNat.inj same
  · omega

variable {call : ReadCall}

theorem ReadCall.Valid.bytes_of_long (valid : call.Valid c disk)
    (same : c.long call.driver.blksRead = call.blkcnt) :
    call.driver.data.take call.size = call.range.bytes disk :=
  valid.faithful (eq_of_long valid.number same)

theorem ReadCall.Valid.size_lt (valid : call.Valid c disk) : call.size < 2 ^ c.ulongBits :=
  lt_of_le_of_lt valid.room valid.object

theorem BlockCache.Current.readCall (current : s.Current c disk) (valid : call.Valid c disk) :
    ∃ ret buf s', call.run c s = some (ret, buf, s') ∧ s'.Current c disk ∧
      (ret = call.blkcnt → buf.take call.size = call.range.bytes disk) ∧
      ((blkReadDirect c call.desc call.ops call.buf call.driver).1 = call.blkcnt →
        ret = call.blkcnt) := by
  have object := valid.size_lt
  obtain ⟨hit, s', reads, current', -, isHit⟩ :=
    current.blkcacheRead (show call.range.start + call.range.blkcnt < _ from valid.noWrap) object
  unfold ReadCall.run blkRead blkReadDirect
  by_cases noRead : call.ops.read = false
  · exact ⟨-ENOSYS, call.buf, s, by simp [noRead], current, by simp [ENOSYS], by simp [noRead]⟩
  rw [if_neg noRead, if_neg noRead,
    show UBoot.blkcacheRead c s (call.desc.range call.start call.blkcnt) = some (hit, s') from
    reads]
  cases hit with
  | some bytes =>
    obtain rfl := isHit bytes rfl
    refine ⟨_, _, _, rfl, current', ?_, ?_⟩
    · intro _
      exact take_left' (BlkRange.length_bytes _)
    intro direct
    split at direct
    · simp [ENOMEM] at direct
    · rw [← show c.long call.driver.blksRead = call.blkcnt from direct]
      exact Int.bmod_bmod
  | none =>
    by_cases noBounce : call.desc.bb = true ∧ call.driver.noBounce = true
    · exact ⟨-ENOMEM, call.buf, s', by simp [noBounce], current', by simp [ENOMEM],
        by simp [noBounce]⟩
    simp only [noBounce, if_false]
    by_cases all : call.driver.blksRead = call.blkcnt
    · have read := valid.faithful all
      obtain ⟨filled, fills, currentFilled⟩ := current'.blkcacheFill call.malloc
        (show call.range.start + call.range.blkcnt < _ from valid.noWrap) object
        (by rw [valid.sameBuffer]; exact valid.room) read
      refine ⟨_, _, filled, ?_, currentFilled, fun _ => read, id⟩
      rw [if_pos all, show UBoot.blkcacheFill c s' (call.desc.range call.start call.blkcnt)
        call.malloc call.driver.data = some filled from fills]
      rfl
    · exact ⟨_, _, s', by rw [if_neg all], current', valid.bytes_of_long, id⟩

/-! ## Runs -/

variable {w : BlkWorld}

theorem BlkWorld.setDisk_current {desc : BlkDesc}
    {result : Int × BlockCache × Option Memory} (current : w.cache.Current c w.disk)
    (cached : result.2.1 = w.cache ∧ result.2.2 = none ∨
      result.2.1 = UBoot.blkcacheInvalidate w.cache desc.uclassId desc.devnum) :
    (w.setDisk desc result).cache.Current c (w.setDisk desc result).disk := by
  rcases cached with ⟨sameCache, noContents⟩ | dropped
  · have sameDisk : (w.setDisk desc result).disk = w.disk := by
      unfold BlkWorld.setDisk
      simp [noContents]
    rw [sameDisk]
    show BlockCache.Current c w.disk result.2.1
    rw [sameCache]
    exact current
  · unfold BlkWorld.setDisk
    rw [dropped]
    exact current.blkcacheInvalidate fun iftype devnum other => if_neg other

theorem BlkWorld.step_current {w' : BlkWorld} {call : BlkCall}
    (current : w.cache.Current c w.disk) (valid : w.ValidCall c call)
    (run : w.step c call = some w') : w'.cache.Current c w'.disk := by
  cases call with
  | read call =>
    obtain ⟨ret, buf, s', ran, current', -⟩ := current.readCall valid
    rw [BlkWorld.step, ran] at run
    cases run
    exact current'
  | write desc ops driver =>
    cases run
    apply BlkWorld.setDisk_current current
    unfold blkWrite
    split
    · exact .inl ⟨rfl, rfl⟩
    · split
      · exact .inr rfl
      · exact .inr rfl
  | erase desc ops driver =>
    cases run
    apply BlkWorld.setDisk_current current
    unfold blkErase
    split
    · exact .inl ⟨rfl, rfl⟩
    · exact .inr rfl
  | configure blocks entries =>
    cases run
    exact current.blkcacheConfigure blocks entries
  | invalidate iftype devnum =>
    cases run
    exact current.blkcacheInvalidate fun _ _ _ => rfl
  | stats =>
    cases run
    exact ⟨current.entries, current.atMost, current.nodes⟩
  | free =>
    cases run
    exact current.blkcacheInvalidate fun _ _ _ => rfl

theorem BlkWorld.Reachable.current (reachable : BlkWorld.Reachable c w) :
    w.cache.Current c w.disk := by
  induction reachable with
  | init disk => exact ⟨rfl, by simp [BlockCache.init], by simp [BlockCache.init]⟩
  | step _ valid run current => exact BlkWorld.step_current current valid run

end Nodes

/-- In every run the cache keeps to its limit, and every read returns; one that succeeds gives
what the device holds, and one that would succeed without the cache succeeds with the same
bytes. -/
theorem blkRead_transparent (c : BlkConfig) (w : BlkWorld) (reachable : BlkWorld.Reachable c w) :
    w.cache.nodes.length ≤ w.cache.maxEntries ∧ ∀ call : ReadCall, call.Valid c w.disk →
        ∃ ret buf s', call.run c w.cache = some (ret, buf, s') ∧
          (ret = call.blkcnt → buf.take call.size = call.range.bytes w.disk) ∧
          ∀ ret' buf', blkReadDirect c call.desc call.ops call.buf call.driver = (ret', buf') →
            ret' = call.blkcnt → ret = ret' ∧ buf.take call.size = buf'.take call.size := by
  refine ⟨reachable.current.atMost, ?_⟩
  intro call valid
  obtain ⟨ret, buf, s', ran, -, bytes, sameNumber⟩ := reachable.current.readCall valid
  refine ⟨ret, buf, s', ran, bytes, ?_⟩
  intro ret' buf' direct succeeds
  have number := sameNumber (by rw [direct]; exact succeeds)
  refine ⟨number.trans succeeds.symm, (bytes number).trans ?_⟩
  unfold blkReadDirect at direct
  split at direct
  · cases direct
    simp [ENOSYS] at succeeds
  split at direct
  · cases direct
    simp [ENOMEM] at succeeds
  · cases direct
    exact (valid.bytes_of_long succeeds).symm

def smallBlkConfig : BlkConfig where
  lbaBits := 32
  ulongBits := 32
  narrow := le_refl 32

def sampleRead : ReadCall where
  desc := { uclassId := 1, devnum := 0, blksz := 2, bb := false }
  ops := { read := true, write := true, erase := true }
  malloc := { node := true, cache := true }
  start := 3
  blkcnt := 1
  buf := [0, 0]
  driver := { noBounce := false, blksRead := 1, data := [7, 7] }

theorem sampleRead_valid : sampleRead.Valid smallBlkConfig fun _ _ _ => 7 where
  noWrap := by decide
  room := by decide
  object := by decide
  number := by decide
  sameBuffer := rfl
  faithful := fun _ => rfl

/-- After a first read the second is answered by the cache. -/
theorem blkRead_transparent_sample : ∃ w, BlkWorld.Reachable smallBlkConfig w ∧
    w.cache.nodes.length = 1 ∧
    ∃ ret buf s', sampleRead.run smallBlkConfig w.cache = some (ret, buf, s') ∧
      (ret = sampleRead.blkcnt → buf.take sampleRead.size = sampleRead.range.bytes w.disk) := by
  have before : BlkWorld.Reachable smallBlkConfig ⟨.init, fun _ _ _ => 7⟩ := .init _
  obtain ⟨ret, buf, s', ran, -⟩ :=
    (blkRead_transparent smallBlkConfig _ before).2 sampleRead sampleRead_valid
  have oneNode : (sampleRead.run smallBlkConfig .init).map (fun result =>
      result.2.2.nodes.length) = some 1 := by decide
  have reachable : BlkWorld.Reachable smallBlkConfig ⟨s', fun _ _ _ => 7⟩ :=
    BlkWorld.Reachable.step before (show BlkWorld.ValidCall _ _ (.read sampleRead) from
      sampleRead_valid)
      (by rw [BlkWorld.step, ran]; rfl)
  obtain ⟨ret', buf', s'', ran', bytes, -⟩ :=
    (blkRead_transparent smallBlkConfig _ reachable).2 sampleRead sampleRead_valid
  refine ⟨_, reachable, ?_, ret', buf', s'', ran', bytes⟩
  rw [show sampleRead.run smallBlkConfig BlockCache.init = some (ret, buf, s') from ran] at oneNode
  exact some.inj oneNode

end UBoot
