import UBoot.LibFdt

/-!
# Device trees and their tokens

What a structure block stands for: a sequence of tokens, where they lie in a blob,
and the tree whose tokens they are.  On a token `fdt_next_tag` gives the tag and the
offset behind it, and the names of nodes and properties are read back.
-/

namespace UBoot

open List Nat

/-! ## Tokens -/

inductive FdtToken
  | beginNode (name : List UInt8)
  | endNode
  | prop (nameoff : Nat) (value : List UInt8)
  | nop
  | «end»
  deriving DecidableEq

def tagAlign (n : Nat) : Nat := (n + 3) / 4 * 4

namespace FdtToken

def tag : FdtToken → FdtTag
  | beginNode _ => .beginNode
  | endNode => .endNode
  | prop _ _ => .prop
  | nop => .nop
  | «end» => .end

def length : FdtToken → Nat
  | beginNode name => 4 + name.length + 1
  | prop _ value => 12 + value.length
  | endNode | nop | «end» => 4

def size (token : FdtToken) : Nat := tagAlign token.length

end FdtToken

theorem le_tagAlign (n : Nat) : n ≤ tagAlign n := by
  unfold tagAlign
  omega

theorem dvd_tagAlign (n : Nat) : 4 ∣ tagAlign n := dvd_mul_left 4 _

variable (token : FdtToken)

theorem FdtToken.length_le_size : token.length ≤ token.size := le_tagAlign _

theorem FdtToken.four_le_size : 4 ≤ token.size := by
  have atLeast := token.length_le_size
  cases token <;> simp only [FdtToken.length] at atLeast <;> omega

def TokenAt (fdt : Memory) (offset : Nat) : FdtToken → Prop
  | .beginNode name =>
    structWord fdt offset = 1 ∧ 0 ∉ name ∧
      fdt.read (structAddress fdt (offset + 4)) (name.length + 1) = name ++ [0]
  | .endNode => structWord fdt offset = 2
  | .prop nameoff value =>
    structWord fdt offset = 3 ∧ structWord fdt (offset + 4) = value.length ∧
      structWord fdt (offset + 8) = nameoff ∧
        fdt.read (structAddress fdt (offset + 12)) value.length = value
  | .nop => structWord fdt offset = 4
  | .end => structWord fdt offset = 9

def TokensAt (fdt : Memory) : Nat → List FdtToken → Prop
  | _, [] => True
  | offset, token :: tokens => TokenAt fdt offset token ∧ TokensAt fdt (offset + token.size) tokens

def tokensSize (tokens : List FdtToken) : Nat := (tokens.map FdtToken.size).sum

@[simp]
theorem tokensSize_nil : tokensSize [] = 0 := rfl

@[simp]
theorem tokensSize_cons (tokens : List FdtToken) :
    tokensSize (token :: tokens) = token.size + tokensSize tokens := by simp [tokensSize]

@[simp]
theorem tokensSize_append (first second : List FdtToken) :
    tokensSize (first ++ second) = tokensSize first + tokensSize second := by simp [tokensSize]

theorem dvd_tokensSize (tokens : List FdtToken) : 4 ∣ tokensSize tokens := by
  induction tokens with
  | nil => exact dvd_zero 4
  | cons token tokens ih => exact Nat.dvd_add (dvd_tagAlign _) ih

theorem TokensAt.append {fdt : Memory} {offset : Nat} {first second : List FdtToken} :
    TokensAt fdt offset (first ++ second) ↔
      TokensAt fdt offset first ∧ TokensAt fdt (offset + tokensSize first) second := by
  induction first generalizing offset with
  | nil => simp [TokensAt]
  | cons token tokens ih => simp [TokensAt, tokensSize_cons, ih, add_assoc, and_assoc]

/-! ## Blobs -/

/-- The header of a blob whose names are not paths, with its blocks inside the blob. -/
structure FdtLayout (fdt : Memory) : Prop where
  magic : fdtMagic fdt = FDT_MAGIC
  version : 0x10 ≤ fdtVersion fdt
  lastCompVersion : fdtLastCompVersion fdt ≤ FDT_LAST_SUPPORTED_VERSION
  totalsize : fdtTotalsize fdt < 2 ^ 31 - 1
  structBlock : fdtOffDtStruct fdt + fdtSizeDtStruct fdt ≤ fdtTotalsize fdt
  stringsBlock : fdtOffDtStrings fdt + fdtSizeDtStrings fdt ≤ fdtTotalsize fdt

namespace FdtLayout

variable {fdt : Memory} (layout : FdtLayout fdt)

include layout

theorem probe : fdtRoProbe fdt = fdtTotalsize fdt := by
  have version := layout.version
  have comp := layout.lastCompVersion
  unfold fdtRoProbe
  rw [if_pos layout.magic, if_neg (by unfold FDT_FIRST_SUPPORTED_VERSION; omega),
    if_neg (by omega), if_pos layout.totalsize]

variable {offset : Nat}

theorem offsetPtr {len : Nat} (inside : offset + len ≤ fdtSizeDtStruct fdt) :
    fdtOffsetPtr fdt offset len = true := by
  have total := layout.totalsize
  have block := layout.structBlock
  unfold fdtOffsetPtr
  simp only
  rw [← cast_add, uint32_of_nat (by omega), uint32_of_nat (by omega), ← cast_add,
    uint32_of_nat (by omega), ← cast_add, uint32_of_nat (by omega), if_neg (by omega),
    if_neg (by omega), if_neg (by omega)]

theorem nameLoop_eq {name : List UInt8} (rounds : Nat) (plain : (0 : UInt8) ∉ name)
    (stored : fdt.read (structAddress fdt offset) (name.length + 1) = name ++ [0])
    (inside : offset + name.length + 1 ≤ fdtSizeDtStruct fdt) (enough : name.length < rounds) :
    nameLoop fdt rounds offset = some ((offset + name.length + 1 : Nat) : Int) := by
  induction name generalizing offset rounds with
  | nil =>
    obtain ⟨rounds, rfl⟩ : ∃ k, rounds = k + 1 := ⟨rounds - 1, by simp at enough; omega⟩
    have last : fdt (structAddress fdt offset) = 0 := by simpa [Memory.read] using stored
    rw [nameLoop, layout.offsetPtr (by simpa using inside), if_pos rfl, if_pos last]
    rfl
  | cons char name ih =>
    obtain _ | rounds := rounds
    · omega
    rw [length_cons] at inside enough
    have next : structAddress fdt offset + 1 = structAddress fdt ((offset + 1 : Nat) : Int) := by
      unfold structAddress
      omega
    rw [length_cons, Memory.read, cons_append, cons_eq_cons, next] at stored
    rw [nameLoop, layout.offsetPtr (by omega), if_pos rfl, if_neg, ← cast_succ,
      ih rounds (fun zero => plain (mem_cons_of_mem char zero)) stored.2 (by omega)
        (by omega), length_cons]
    · congr 2
      omega
    · rw [stored.1]
      rintro rfl
      exact plain mem_cons_self

theorem propEnd_eq {len : Nat} (lengthWord : structWord fdt (offset + 4) = len)
    (inside : offset + (12 + len) ≤ fdtSizeDtStruct fdt) :
    propEnd fdt (offset + FDT_TAGSIZE) = ((offset + (12 + len) : Nat) : Int) := by
  have total := layout.totalsize
  have block := layout.structBlock
  have version := layout.version
  have behind : (offset : Int) + FDT_TAGSIZE + 8 + len = ((offset + (12 + len) : Nat) : Int) := by
    unfold FDT_TAGSIZE
    omega
  unfold propEnd
  change structWord fdt ((offset : Int) + FDT_TAGSIZE) = len at lengthWord
  simp only [lengthWord, behind]
  rw [if_neg (by omega), int32_of_nat (by omega)]

section TokenAt

variable {token : FdtToken} (tokenAt : TokenAt fdt offset token)
  (inside : offset + token.size ≤ fdtSizeDtStruct fdt)

include tokenAt inside

theorem tagEnd_eq :
    tagEnd fdt offset = some (token.tag, ((offset + token.length : Nat) : Int)) := by
  have block := layout.structBlock
  have short := token.length_le_size
  unfold tagEnd
  cases token with
  | beginNode name =>
    simp only [FdtToken.length] at short
    have loop := layout.nameLoop_eq (fdtTotalsize fdt) tokenAt.2.1
      (by exact_mod_cast tokenAt.2.2) (by omega) (by omega)
    simp only [tokenAt.1, FDT_TAGSIZE]
    rw [← cast_add, loop]
    simp only [Option.map_some, FdtToken.tag, FdtToken.length]
    congr 3
    omega
  | prop nameoff value =>
    simp only [FdtToken.length] at short
    have ptr : fdtOffsetPtr fdt ((offset : Int) + FDT_TAGSIZE) 4 = true := by
      exact layout.offsetPtr (by unfold FDT_TAGSIZE; omega)
    simp only [tokenAt.1, ptr, if_true]
    rw [layout.propEnd_eq tokenAt.2.1 (by omega)]
    rfl
  | endNode | nop | «end» =>
    simp only [TokenAt] at tokenAt
    simp [tokenAt, FDT_TAGSIZE, FdtToken.tag, FdtToken.length]

theorem nextTag (aligned : 4 ∣ offset) :
    fdtNextTag fdt offset = (token.tag, ((offset + token.size : Nat) : Int)) := by
  have total := layout.totalsize
  have block := layout.structBlock
  have short := token.length_le_size
  have large := token.four_le_size
  unfold fdtNextTag
  rw [layout.offsetPtr (by unfold FDT_TAGSIZE; omega), if_pos rfl, layout.tagEnd_eq tokenAt inside]
  simp only
  have distance : uint32 (((offset + token.length : Nat) : Int) - offset) = token.length := by
    rw [cast_add, add_sub_cancel_left, uint32_of_nat (by omega)]
  have next : (((offset + token.length : Nat) : Int) + 3) / 4 * 4 =
      ((offset + token.size : Nat) : Int) := by
    unfold FdtToken.size tagAlign
    omega
  rw [distance, layout.offsetPtr (by omega), if_pos rfl, next, int32_of_nat (by omega)]

theorem checkTagOffset (aligned : 4 ∣ offset) :
    fdtCheckTagOffset fdt token.tag offset = ((offset + token.size : Nat) : Int) := by
  unfold fdtCheckTagOffset
  rw [if_neg (by unfold FDT_TAGSIZE; omega), layout.nextTag tokenAt inside aligned, if_pos rfl]

end TokenAt

theorem getName {name : List UInt8} (tokenAt : TokenAt fdt offset (.beginNode name))
    (inside : offset + (FdtToken.beginNode name).size ≤ fdtSizeDtStruct fdt)
    (aligned : 4 ∣ offset) : fdtGetName fdt offset = some name := by
  have total := layout.totalsize
  have block := layout.structBlock
  have short := (FdtToken.beginNode name).length_le_size
  simp only [FdtToken.length] at short
  have version := layout.version
  have check : fdtCheckNodeOffset fdt offset = _ := layout.checkTagOffset tokenAt inside aligned
  unfold fdtGetName
  rw [layout.probe, check, if_neg (by omega)]
  simp only [FDT_TAGSIZE]
  rw [if_neg (by omega), cString]
  have parts : fdtTotalsize fdt = name.length + 1 + (fdtTotalsize fdt - (name.length + 1)) := by
    omega
  rw [parts, Memory.read_add]
  have stored : fdt.read (structAddress fdt ((offset : Int) + (4 : Nat))) (name.length + 1) =
      name ++ [0] := tokenAt.2.2
  rw [stored, append_assoc, takeWhile_append_of_pos]
  · simp
  intro char inName
  have plain : (0 : UInt8) ∉ name := tokenAt.2.1
  simp only [ne_eq, decide_not, Bool.not_eq_true', decide_eq_false_iff_not]
  rintro rfl
  exact plain inName

end FdtLayout

/-! ## Trees -/

inductive FdtItems
  | nil
  | prop (nameoff : Nat) (value : List UInt8) (rest : FdtItems)
  | nop (rest : FdtItems)
  | node (name : List UInt8) (children rest : FdtItems)

namespace FdtItems

def tokens : FdtItems → List FdtToken
  | nil => []
  | prop nameoff value rest => .prop nameoff value :: rest.tokens
  | nop rest => .nop :: rest.tokens
  | node name children rest => .beginNode name :: (children.tokens ++ .endNode :: rest.tokens)

def PlainNames : FdtItems → Prop
  | nil => True
  | prop _ _ rest => rest.PlainNames
  | nop rest => rest.PlainNames
  | node name children rest => (0x2f : UInt8) ∉ name ∧ children.PlainNames ∧ rest.PlainNames

def Named (fdt : Memory) : FdtItems → Prop
  | nil => True
  | prop nameoff _ rest => (fdtGetString fdt (int32 nameoff)).isSome ∧ rest.Named fdt
  | nop rest => rest.Named fdt
  | node _ children rest => children.Named fdt ∧ rest.Named fdt

end FdtItems

def fdtTokens (root : FdtItems) : List FdtToken :=
  .beginNode [] :: (root.tokens ++ [.endNode, .end])

structure FdtHolds (fdt : Memory) (root : FdtItems) : Prop extends FdtLayout fdt where
  tokens : TokensAt fdt 0 (fdtTokens root)
  size : tokensSize (fdtTokens root) = fdtSizeDtStruct fdt
  plainNames : root.PlainNames
  named : root.Named fdt

/-! ## Blobs from tokens -/

def be32 (n : Nat) : List UInt8 := (leBytes 4 n).reverse

def FdtToken.bytes : List UInt8 :=
  let plain :=
    match token with
    | beginNode name => be32 1 ++ name ++ [0]
    | endNode => be32 2
    | prop nameoff value => be32 3 ++ be32 value.length ++ be32 nameoff ++ value
    | nop => be32 4
    | «end» => be32 9
  plain ++ replicate (token.size - token.length) 0

def fdtBlob (structBlock strings : List UInt8) : Memory := fun a =>
  (be32 FDT_MAGIC ++ be32 (40 + structBlock.length + strings.length) ++ be32 40 ++
    be32 (40 + structBlock.length) ++ be32 40 ++ be32 17 ++ be32 16 ++ be32 0 ++
    be32 strings.length ++ be32 structBlock.length ++ structBlock ++ strings).getD a 0

end UBoot
