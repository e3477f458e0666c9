import Mathlib.Data.Set.Finite.Range
import Mathlib.Order.Preorder.Finite
import Mathlib.Logic.Relation
import UBoot.ByteMemory

/-!
# The extent block of a file block

The walk of `ext4_common.c` down the index blocks of an extent tree, through the cache
of one block of `ext4fs.c`.  Nothing bounds the entries that a block declares, so the walk
may read behind the buffer of a block; it is not followed further there.
-/

namespace UBoot

open Relation

/-- The bytes of a block, and how many of them are in its buffer. -/
structure ExtentBlock where
  bytes : Memory
  size : Nat

section Block

variable (block : ExtentBlock)

def extentIdx (i ofs n : Nat) : Nat := block.bytes.readLE (12 + 12 * i + ofs) n

def ehMagic : Nat := block.bytes.readLE 0 2

def ehEntries : Nat := block.bytes.readLE 2 2

def ehDepth : Nat := block.bytes.readLE 6 2

/-- The first entry behind the file block, of those that are left, or `none` if an entry lies
behind the buffer. -/
def indexLoop (fileblock : Nat) : (left i : Nat) → Option Nat
  | 0, i => some i
  | left + 1, i =>
    if block.size < 24 + 12 * i then none
    else if extentIdx block i 0 4 ≤ fileblock then indexLoop fileblock left (i + 1) else some i

/-- The block that the entry for a file block leads to, in sectors of type `lbaint_t`. -/
def indexLeaf (fileblock log2Blksz lbaBits : Nat) : Option Nat := do
  let i ← indexLoop block fileblock (ehEntries block) 0
  let i := i - 1
  if block.size < 24 + 12 * i then none
  else some ((extentIdx block i 8 2 * 2 ^ 32 + extentIdx block i 4 4) * 2 ^ log2Blksz % 2 ^ 64 %
    2 ^ lbaBits)

end Block

structure ExtBlockCache where
  block : Nat
  size : Nat
  buf : Option Memory

/-- The device and the file system, and the file block that is looked up. -/
structure ExtentLookup where
  devread : (block size : Nat) → Option Memory
  blksz : Nat
  fileblock : Nat
  log2Blksz : Nat
  lbaBits : Nat

/-- How a walk ends: with `NULL`, with a block, or with a read behind a buffer. -/
inductive ExtentEnd
  | null
  | found (block : ExtentBlock)
  | overrun

/-- The cache, and the block if it could be read. -/
def extCacheRead (devread : (block size : Nat) → Option Memory) (cache : ExtBlockCache)
    (block size : Nat) : ExtBlockCache × Option Memory :=
  match cache.buf with
  | some buf => if cache.block = block ∧ cache.size = size then (cache, some buf) else reload
  | none => reload
where
  reload := match devread block size with
    | some buf => (⟨block, size, some buf⟩, some buf)
    | none => (⟨0, 0, none⟩, none)

namespace ExtentLookup

variable (l : ExtentLookup)

/-- One round of the loop: a result, or the block that the next round looks at. -/
def step (s : ExtBlockCache × ExtentBlock) :
    Except (ExtentEnd × ExtBlockCache) (ExtBlockCache × ExtentBlock) :=
  if ehMagic s.2 ≠ 0xf30a then .error (.null, s.1)
  else if ehDepth s.2 = 0 then .error (.found s.2, s.1)
  else match indexLeaf s.2 l.fileblock l.log2Blksz l.lbaBits with
    | none => .error (.overrun, s.1)
    | some leaf =>
      match extCacheRead l.devread s.1 leaf l.blksz with
      | (cache, none) => .error (.null, cache)
      | (cache, some buf) => .ok (cache, ⟨buf, l.blksz⟩)

/-- How the walk ends and what it leaves in the cache, if it ends in so many rounds. -/
def ext4fsGetExtentBlock : (rounds : Nat) → ExtBlockCache × ExtentBlock →
    Option (ExtentEnd × ExtBlockCache)
  | 0, _ => none
  | rounds + 1, s =>
    match l.step s with
    | .error result => some result
    | .ok next => ext4fsGetExtentBlock rounds next

variable {l} {s : ExtBlockCache × ExtentBlock}

/-- The states of a walk, which stays where it ends. -/
def walk (l : ExtentLookup) (s : ExtBlockCache × ExtentBlock) : Nat → ExtBlockCache × ExtentBlock
  | 0 => s
  | n + 1 => ((l.step (l.walk s n)).toOption).getD (l.walk s n)

/-- The walk without a cache. -/
def plainLookup (l : ExtentLookup) : (rounds : Nat) → ExtentBlock → Option ExtentEnd
  | 0, _ => none
  | rounds + 1, block =>
    if ehMagic block ≠ 0xf30a then some .null
    else if ehDepth block = 0 then some (.found block)
    else match indexLeaf block l.fileblock l.log2Blksz l.lbaBits with
      | none => some .overrun
      | some leaf => match l.devread leaf l.blksz with
        | none => some .null
        | some next => l.plainLookup rounds ⟨next, l.blksz⟩

/-- The cache holds what the device holds. -/
def Current (l : ExtentLookup) (cache : ExtBlockCache) : Prop :=
  ∀ buf ∈ cache.buf, l.devread cache.block cache.size = some buf

theorem extCacheRead_eq {cache : ExtBlockCache} (current : l.Current cache) (block size : Nat) :
    (extCacheRead l.devread cache block size).2 = l.devread block size ∧
      l.Current (extCacheRead l.devread cache block size).1 := by
  have reloaded : (extCacheRead.reload l.devread block size).2 = l.devread block size ∧
      l.Current (extCacheRead.reload l.devread block size).1 := by
    unfold extCacheRead.reload Current
    cases read : l.devread block size <;> simp [read]
  unfold extCacheRead
  split
  next buf holds =>
    split
    next same =>
      obtain ⟨rfl, rfl⟩ := same
      exact ⟨(current buf holds).symm, current⟩
    next => exact reloaded
  next => exact reloaded

theorem ext4fsGetExtentBlock_plain {cache : ExtBlockCache} (current : l.Current cache)
    (root : ExtentBlock) (rounds : Nat) :
    (l.ext4fsGetExtentBlock rounds (cache, root)).map Prod.fst = l.plainLookup rounds root ∧
      ∀ result ∈ l.ext4fsGetExtentBlock rounds (cache, root), l.Current result.2 := by
  induction rounds generalizing cache root with
  | zero => simp [ext4fsGetExtentBlock, plainLookup]
  | succ rounds ih =>
    unfold ext4fsGetExtentBlock plainLookup step
    split_ifs
    · simpa using current
    · simpa using current
    cases found : indexLeaf root l.fileblock l.log2Blksz l.lbaBits with
    | none => simpa using current
    | some leaf =>
      obtain ⟨same, stays⟩ := extCacheRead_eq current leaf l.blksz
      simp only
      rw [← same]
      generalize extCacheRead l.devread cache leaf l.blksz = read at stays
      obtain ⟨next, _ | buf⟩ := read
      · simpa using stays
      · exact ih stays ⟨buf, l.blksz⟩

/-- The lookups of a file's blocks, one after the other with one cache, each in so many rounds. -/
def lookups (l : ExtentLookup) (root : ExtentBlock) (rounds : Nat) :
    List Nat → ExtBlockCache → Option (List ExtentEnd)
  | [], _ => some []
  | fileblock :: rest, cache => do
    let result ← { l with fileblock := fileblock }.ext4fsGetExtentBlock rounds (cache, root)
    let results ← l.lookups root rounds rest result.2
    return result.1 :: results

/-- Lookups with one cache, which starts empty, find what lookups without a cache find. -/
theorem lookups_transparent (l : ExtentLookup) (root : ExtentBlock) (rounds : Nat)
    (fileblocks : List Nat) :
    l.lookups root rounds fileblocks ⟨0, 0, none⟩ =
      fileblocks.mapM fun fileblock =>
        { l with fileblock := fileblock }.plainLookup rounds root := by
  have run : ∀ cache, l.Current cache → l.lookups root rounds fileblocks cache =
      fileblocks.mapM fun fileblock =>
        { l with fileblock := fileblock }.plainLookup rounds root := by
    induction fileblocks with
    | nil => exact fun _ _ => rfl
    | cons fileblock rest ih =>
      intro cache current
      obtain ⟨same, stays⟩ := ext4fsGetExtentBlock_plain (l := { l with fileblock := fileblock })
        current root rounds
      rw [lookups, List.mapM_cons, ← same]
      cases found : { l with fileblock := fileblock }.ext4fsGetExtentBlock rounds (cache, root) with
      | none => rfl
      | some result => simp [ih result.2 (stays result found)]
  exact run _ (by simp [Current])

end ExtentLookup

end UBoot
