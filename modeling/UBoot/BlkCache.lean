import UBoot.ByteMemory
import UBoot.Common

/-!
# Block devices and their cache

The cache of `drivers/block/blkcache.c` and the three operations of
`blk-uclass.c` that go through it.  The nodes of the cache are a list with the
one used last in front; the memory block of a node keeps its size when the node
is taken for other blocks, and an access outside of such a block has no result.
What the driver of a device and the allocator answer in a call is given with the
call.
-/

namespace UBoot

/-- The widths of `lbaint_t` and of `unsigned long`. -/
structure BlkConfig where
  lbaBits : Nat
  ulongBits : Nat
  narrow : ulongBits ≤ lbaBits

variable (c : BlkConfig)

/-- A product in `lbaint_t`. -/
def BlkConfig.lbaMul (x y : Nat) : Nat := x * y % 2 ^ c.lbaBits

/-- A sum in `lbaint_t`. -/
def BlkConfig.lbaAdd (x y : Nat) : Nat := (x + y) % 2 ^ c.lbaBits

/-- The size that `malloc` and `memcpy` are given. -/
def BlkConfig.sizeT (x : Nat) : Nat := x % 2 ^ c.ulongBits

/-- The value of a `long` that is assigned a number. -/
def BlkConfig.long (x : Int) : Int := x.bmod (2 ^ c.ulongBits)

/-! ## The cache -/

structure BlockCacheNode where
  iftype : Int
  devnum : Int
  start : Nat
  blkcnt : Nat
  blksz : Nat
  cache : List UInt8

structure BlockCache where
  nodes : List BlockCacheNode
  hits : Nat
  misses : Nat
  entries : Nat
  maxBlocksPerEntry : Nat
  maxEntries : Nat

def BlockCache.init : BlockCache where
  nodes := []
  hits := 0
  misses := 0
  entries := 0
  maxBlocksPerEntry := 8
  maxEntries := 32

structure BlkRange where
  iftype : Int
  devnum : Int
  start : Nat
  blkcnt : Nat
  blksz : Nat

/-- Whether the two allocations of a call succeed. -/
structure Malloc where
  node : Bool
  cache : Bool

section Cache

variable (c : BlkConfig) (s : BlockCache) (range : BlkRange)

def BlockCacheNode.covers (node : BlockCacheNode) : Bool :=
  node.iftype = range.iftype ∧ node.devnum = range.devnum ∧ node.blksz = range.blksz ∧
    node.start ≤ range.start ∧
    c.lbaAdd range.start range.blkcnt ≤ c.lbaAdd node.start node.blkcnt

def cacheFind (nodes : List BlockCacheNode) : Option (BlockCacheNode × List BlockCacheNode) :=
  (nodes.find? fun node => node.covers c range).map fun node =>
    (node, node :: nodes.eraseP fun node => node.covers c range)

def BlockCacheNode.copy (node : BlockCacheNode) : Option (List UInt8) :=
  let src := c.lbaMul (range.start - node.start) range.blksz
  let size := c.sizeT (c.lbaMul range.blksz range.blkcnt)
  if src + size ≤ node.cache.length then some ((node.cache.drop src).take size) else none

def blkcacheRead : Option (Option (List UInt8) × BlockCache) :=
  match cacheFind c range s.nodes with
  | some (node, nodes) =>
    (node.copy c range).map fun bytes =>
      (some bytes, { s with nodes := nodes, hits := (s.hits + 1) % 2 ^ 32 })
  | none => some (none, { s with misses := (s.misses + 1) % 2 ^ 32 })

def storeNode (block buffer : List UInt8) : Option BlockCache :=
  let size := c.sizeT (c.lbaMul range.blksz range.blkcnt)
  if buffer.length < size ∨ block.length < size then none
  else
    some { s with
      nodes := { iftype := range.iftype, devnum := range.devnum, start := range.start
                 blkcnt := range.blkcnt, blksz := range.blksz
                 cache := buffer.take size ++ block.drop size } :: s.nodes
      entries := s.entries + 1 }

def fillNode (malloc : Malloc) (block : Option (List UInt8)) (buffer : List UInt8) :
    Option BlockCache :=
  match block with
  | some block => storeNode c s range block buffer
  | none =>
    if malloc.cache = false then some s
    else
      storeNode c s range (List.replicate (c.sizeT (c.lbaMul range.blksz range.blkcnt)) 0) buffer

def blkcacheFill (malloc : Malloc) (buffer : List UInt8) : Option BlockCache :=
  if s.maxBlocksPerEntry < range.blkcnt then some s
  else if s.maxEntries = 0 then some s
  else if s.maxEntries ≤ s.entries then
    match s.nodes.getLast? with
    | none => none
    | some node =>
      fillNode c { s with nodes := s.nodes.dropLast, entries := s.entries - 1 } range malloc
        (if c.lbaMul node.blkcnt node.blksz < c.lbaMul range.blksz range.blkcnt then none
          else some node.cache) buffer
  else if malloc.node = false then some s
  else fillNode c s range malloc none buffer

def blkcacheInvalidate (iftype devnum : Int) : BlockCache :=
  let nodes := s.nodes.filter fun node =>
    ¬(iftype = -1 ∨ (node.iftype = iftype ∧ node.devnum = devnum))
  { s with nodes := nodes, entries := s.entries - (s.nodes.length - nodes.length) }

def blkcacheConfigure (blocks entries : Nat) : BlockCache :=
  let s := if blocks ≠ s.maxBlocksPerEntry ∨ entries ≠ s.maxEntries then
    blkcacheInvalidate s (-1) 0 else s
  { s with maxBlocksPerEntry := blocks, maxEntries := entries, hits := 0, misses := 0 }

def blkcacheStats : BlockCache := { s with hits := 0, misses := 0 }

def blkcacheFree : BlockCache := blkcacheInvalidate s (-1) 0

end Cache

/-! ## The operations on a device -/

structure BlkDesc where
  uclassId : Int
  devnum : Int
  blksz : Nat
  bb : Bool

/-- The operations that a driver has. -/
structure BlkOps where
  read : Bool
  write : Bool
  erase : Bool

/-- What a driver makes of a read: the number it returns and the bytes that are then in the
buffer.  A bounce buffer may not be had. -/
structure DriverRead where
  noBounce : Bool
  blksRead : Nat
  data : List UInt8

/-- What a driver makes of a write or an erase: the number it returns and what the device then
holds. -/
structure DriverWrite where
  noBounce : Bool
  blks : Int
  contents : Memory

def BlkDesc.range (desc : BlkDesc) (start blkcnt : Nat) : BlkRange where
  iftype := desc.uclassId
  devnum := desc.devnum
  start := start
  blkcnt := blkcnt
  blksz := desc.blksz

section Operations

variable (c : BlkConfig) (s : BlockCache) (desc : BlkDesc) (ops : BlkOps)

def blkRead (malloc : Malloc) (start blkcnt : Nat) (buf : List UInt8) (driver : DriverRead) :
    Option (Int × List UInt8 × BlockCache) :=
  if ops.read = false then some (-ENOSYS, buf, s)
  else
    match blkcacheRead c s (desc.range start blkcnt) with
    | none => none
    | some (some bytes, s) => some (c.long blkcnt, bytes ++ buf.drop bytes.length, s)
    | some (none, s) =>
      if desc.bb ∧ driver.noBounce then some (-ENOMEM, buf, s)
      else if driver.blksRead = blkcnt then
        (blkcacheFill c s (desc.range start blkcnt) malloc driver.data).map fun s =>
          (c.long driver.blksRead, driver.data, s)
      else some (c.long driver.blksRead, driver.data, s)

def blkReadDirect (buf : List UInt8) (driver : DriverRead) : Int × List UInt8 :=
  if ops.read = false then (-ENOSYS, buf)
  else if desc.bb ∧ driver.noBounce then (-ENOMEM, buf)
  else (c.long driver.blksRead, driver.data)

/-- The number that is returned, the cache, and what the device holds if the driver is asked. -/
def blkWrite (driver : DriverWrite) : Int × BlockCache × Option Memory :=
  if ops.write = false then (-ENOSYS, s, none)
  else
    let s := blkcacheInvalidate s desc.uclassId desc.devnum
    if desc.bb ∧ driver.noBounce then (-ENOMEM, s, none)
    else (driver.blks, s, some driver.contents)

def blkErase (driver : DriverWrite) : Int × BlockCache × Option Memory :=
  if ops.erase = false then (-ENOSYS, s, none)
  else (driver.blks, blkcacheInvalidate s desc.uclassId desc.devnum, some driver.contents)

end Operations

end UBoot
