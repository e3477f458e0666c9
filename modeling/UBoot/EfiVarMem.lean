import UBoot.Alignment
import UBoot.ByteMemory
import UBoot.Common

/-!
# The memory of EFI variables

The variables lie one behind the other in a buffer: a header with the length that is
used, and for each variable its length, attributes, time, GUID, name and data, filled
up to a multiple of eight bytes.  A pointer to the variable that was found last is kept
from call to call.  Addresses are offsets into the buffer, which starts at a page.

A loop over a name or over the variables and a copy have no result when they leave the
buffer.
-/

namespace UBoot

abbrev U16String := { units : List UInt16 // 0 ∉ units }

inductive EfiVarStatus
  | SUCCESS
  | INVALID_PARAMETER
  | UNSUPPORTED
  | BUFFER_TOO_SMALL
  | WRITE_PROTECTED
  | OUT_OF_RESOURCES
  | NOT_FOUND
  | SECURITY_VIOLATION
  deriving DecidableEq

/-- The configuration: the size of the buffer, the width of addresses and sizes, the
checksum, and the options that the functions for variables look at. -/
structure EfiVarConfig where
  bufSize : Nat
  addressBits : Nat
  crc32 : List UInt8 → BitVec 32
  secureBoot : Bool
  preseed : Bool
  rtVolatileStore : Bool
  bufSize_ge : 4096 ≤ bufSize
  bufSize_lt : bufSize < 2 ^ 31
  addressBits_ge : 32 ≤ addressBits

def EFI_VARIABLE_NON_VOLATILE : BitVec 32 := 0x00000001
def EFI_VARIABLE_BOOTSERVICE_ACCESS : BitVec 32 := 0x00000002
def EFI_VARIABLE_RUNTIME_ACCESS : BitVec 32 := 0x00000004
def EFI_VARIABLE_HARDWARE_ERROR_RECORD : BitVec 32 := 0x00000008
def EFI_VARIABLE_AUTHENTICATED_WRITE_ACCESS : BitVec 32 := 0x00000010
def EFI_VARIABLE_TIME_BASED_AUTHENTICATED_WRITE_ACCESS : BitVec 32 := 0x00000020
def EFI_VARIABLE_APPEND_WRITE : BitVec 32 := 0x00000040
def EFI_VARIABLE_ENHANCED_AUTHENTICATED_ACCESS : BitVec 32 := 0x00000080
def EFI_VARIABLE_MASK : BitVec 32 := 0x000000ff
def EFI_VARIABLE_READ_ONLY : BitVec 32 := 0x80000000

def EFI_VAR_FILE_MAGIC : Nat := 0x0161566966456255

/-- The size of `struct efi_var_file`, where the variables start. -/
def sizeofEfiVarFile : Nat := 24

/-- The size of `struct efi_var_entry`, where the name starts. -/
def sizeofEfiVarEntry : Nat := 32

/-! ## Strings of 16-bit units -/

def u16At (m : Memory) (a : Nat) : UInt16 := UInt16.ofNat (m.readLE a 2)

def u16Bytes (units : List UInt16) : List UInt8 := units.flatMap fun unit => leBytes 2 unit.toNat

def u16Strlen (m : Memory) : (rounds a : Nat) → Option Nat
  | 0, _ => none
  | rounds + 1, a => if u16At m a = 0 then some 0 else (u16Strlen m rounds (a + 2)).map (· + 1)

/-- The units before a zero, at most `count`. -/
def u16Units (m : Memory) : (count a : Nat) → List UInt16
  | 0, _ => []
  | count + 1, a => if u16At m a = 0 then [] else u16At m a :: u16Units m count (a + 2)

theorem zero_notMem_u16Units (m : Memory) (count a : Nat) : 0 ∉ u16Units m count a := by
  induction count generalizing a with
  | zero => simp [u16Units]
  | succ count ih =>
    unfold u16Units
    split
    · simp
    · next nonzero =>
      rw [List.mem_cons, not_or]
      exact ⟨Ne.symm nonzero, ih (a + 2)⟩

def u16Strnlen (m : Memory) (a count : Nat) : Nat := (u16Units m count a).length

/-! ## Fields of a variable -/

def varLength (m : Memory) (var : Nat) : Nat := m.readLE var 4

def varAttr (m : Memory) (var : Nat) : BitVec 32 := BitVec.ofNat 32 (m.readLE (var + 4) 4)

def varTime (m : Memory) (var : Nat) : BitVec 64 := BitVec.ofNat 64 (m.readLE (var + 8) 8)

def varGuid (m : Memory) (var : Nat) : EfiGuid := ⟨m.read (var + 16) 16, Memory.length_read _ _ _⟩

def varName (var : Nat) : Nat := var + sizeofEfiVarEntry

/-- `efi_var_buf->length`. -/
def bufLength (m : Memory) : Nat := m.readLE 16 4

/-- The buffer `efi_var_buf` and the offset `efi_current_var`. -/
structure EfiVarStore where
  buf : Memory
  current : Option Nat

/-! ## Looking for a variable -/

/-- The loop over the name of a variable: whether it is the other name, and the address
behind it. -/
def compareLoop (m : Memory) : (rounds data : Nat) → (name : List UInt16) → (match_ : Bool) →
    Option (Bool × Nat)
  | 0, _, _, _ => none
  | rounds + 1, data, name, match_ =>
    let match_ := match_ && u16At m data == name.headD 0
    if u16At m data = 0 then some (match_, data + 2)
    else compareLoop m rounds (data + 2) name.tail match_

variable (c : EfiVarConfig)

/-- Whether a variable has a GUID and a name, and the address of the next variable. -/
def efiVarMemCompare (m : Memory) (var : Nat) (guid : EfiGuid)
    (name : U16String) : Option (Bool × Nat) := do
  let (match_, data) ← compareLoop m c.bufSize (varName var) name.val (varGuid m var == guid)
  return (match_, roundUp (data + varLength m var) 8)

def efiVarEntryLen (m : Memory) (var : Nat) : Option Nat := do
  let length ← u16Strlen m c.bufSize (varName var)
  return roundUp (2 * (length + 1) + varLength m var + sizeofEfiVarEntry) 8

def beforeLast (last pos : Nat) : Option Nat := if last ≤ pos then none else some pos

def findLoop (c : EfiVarConfig) (m : Memory) (guid : EfiGuid) (name : U16String) :
    (rounds var : Nat) → Option (Option Nat × Option Nat)
  | 0, _ => none
  | rounds + 1, var => do
      let (match_, pos) ← efiVarMemCompare c m var guid name
      if match_ then return (some var, beforeLast (bufLength m) pos)
      else if bufLength m ≤ pos then return (none, none)
      else findLoop c m guid name rounds pos

def scanVariables (m : Memory) (guid : EfiGuid) (name : U16String) :
    Option (Option Nat × Option Nat) :=
  if sizeofEfiVarFile < bufLength m then findLoop c m guid name c.bufSize sizeofEfiVarFile
  else some (none, none)

/-- A variable that was found, the next one, and the store with the pointer to it. -/
structure EfiVarFound where
  var : Option Nat
  next : Option Nat
  store : EfiVarStore

variable (s : EfiVarStore)

def EfiVarFound.scanned (answer : Option Nat × Option Nat) : EfiVarFound where
  var := answer.1
  next := answer.2
  store := { s with current := answer.1.or s.current }

def efiVarMemFind (guid : EfiGuid) (name : U16String) : Option EfiVarFound :=
  if name.val = [] then
    some ⟨none, beforeLast (bufLength s.buf) sizeofEfiVarFile, s⟩
  else
    match s.current with
    | none => (scanVariables c s.buf guid name).map (EfiVarFound.scanned s)
    | some current => do
        let (match_, next) ← efiVarMemCompare c s.buf current guid name
        if match_ then return ⟨some current, beforeLast (bufLength s.buf) next, s⟩
        else (scanVariables c s.buf guid name).map (EfiVarFound.scanned s)

/-! ## Changing the buffer -/

/-- Set `efi_var_buf->crc32`. -/
def updateCrc (m : Memory) : Memory :=
  m.writeLE 20 4 (c.crc32 (m.read sizeofEfiVarFile (bufLength m - sizeofEfiVarFile))).toNat

/-- Set `efi_var_buf->length`. -/
def setBufLength (m : Memory) (length : Int) : Memory := m.writeLE 16 4 (uint32 length)

def efiVarMemDel : (var : Option Nat) → Option EfiVarStore
  | none => some s
  | some var => do
      let last := bufLength s.buf
      let current := s.current.filter fun current => !decide (var ≤ current)
      let nameLength ← u16Strlen s.buf c.bufSize (varName var)
      let next := roundUp (varName var + 2 * (nameLength + 1) + varLength s.buf var) 8
      if last < next then none
      else
        let shortened := setBufLength s.buf (bufLength s.buf - (next - var : Nat))
        return ⟨updateCrc c (shortened.copy var next (last - next)), current⟩

/-- Put a variable behind the others.  The sum of the sizes may wrap, and the copies then
leave the buffer. -/
def efiVarMemIns (name : U16String) (vendor : EfiGuid)
    (attributes : BitVec 32) (data1 data2 : List UInt8) (time : BitVec 64) :
    Option (EfiVarStatus × EfiVarStore) :=
  let var := bufLength s.buf
  let data := varName var + 2 * (name.val.length + 1)
  let size := data1.length + data2.length
  if c.bufSize < (data + size) % 2 ^ c.addressBits then some (.OUT_OF_RESOURCES, s)
  else if c.bufSize < data + size then none
  else
    let m := s.buf.writeLE (var + 4) 4 attributes.toNat
    let m := m.writeLE var 4 size
    let m := m.writeLE (var + 8) 8 time.toNat
    let m := m.write (var + 16) vendor.val
    let m := m.write (varName var) (u16Bytes name.val ++ [0, 0])
    let m := m.write data data1
    let m := m.write (data + data1.length) data2
    let m := setBufLength m (roundUp (data + size) 8)
    some (.SUCCESS, ⟨updateCrc c m, s.current⟩)

def efiVarMemInit (pages : Memory) : EfiVarStore where
  buf := setBufLength ((pages.zero 0 c.bufSize).writeLE 8 8 EFI_VAR_FILE_MAGIC) sizeofEfiVarFile
  current := none

/-- The buffer is mapped elsewhere. -/
def efiVarMemNotifyVirtualAddressMap : EfiVarStore := { s with current := none }

/-! ## Collecting variables -/

/-- The loop over the variables: the length with the variables that match, the buffer
and where its next variable goes. -/
def collectLoop (c : EfiVarConfig) (m : Memory) (lenp : Nat) (mask : BitVec 32) :
    (rounds var length varTo : Nat) → (buf : Option Memory) → Option (Nat × Option Memory)
  | 0, _, _, _, _ => none
  | rounds + 1, var, length, varTo, buf =>
    if bufLength m ≤ var then some (length, buf)
    else do
      let len ← efiVarEntryLen c m var
      if varAttr m var &&& mask ≠ mask then
        collectLoop c m lenp mask rounds (var + len) length varTo buf
      else if length + len ≤ lenp then
        collectLoop c m lenp mask rounds (var + len) (length + len) (varTo + len)
          (buf.map fun buf => buf.write varTo (m.read var len))
      else collectLoop c m lenp mask rounds (var + len) (length + len) varTo buf

/-- The bytes of a `struct efi_var_file`. -/
def fileHeader (length : Nat) (crc32 : BitVec 32) : List UInt8 :=
  leBytes 8 0 ++ leBytes 8 EFI_VAR_FILE_MAGIC ++ leBytes 4 length ++ leBytes 4 crc32.toNat

/-- The status, the length and the buffer after collecting the variables that match. -/
def efiVarCollectMem (m : Memory) (buf : Option Memory) (lenp : Nat)
    (mask : BitVec 32) : Option (EfiVarStatus × Nat × Option Memory) := do
  let (length, buf) ← collectLoop c m lenp mask c.bufSize sizeofEfiVarFile sizeofEfiVarFile
    sizeofEfiVarFile buf
  match buf with
  | none =>
    if length ≤ lenp then return (.INVALID_PARAMETER, length, none)
    else return (.BUFFER_TOO_SMALL, length, none)
  | some buf =>
    if lenp < length then return (.BUFFER_TOO_SMALL, length, some buf)
    else
      let crc32 := c.crc32 (buf.read sizeofEfiVarFile (length - sizeofEfiVarFile))
      return (.SUCCESS, length, some (buf.write 0 (fileHeader length crc32)))

/-! ## Reading variables -/

def vtf : U16String := ⟨[0x56, 0x61, 0x72, 0x54, 0x6f, 0x46, 0x69, 0x6c, 0x65], by decide⟩

structure EfiVarRead where
  status : EfiVarStatus
  attributes : Option (BitVec 32)
  time : Option (BitVec 64)
  dataSize : Nat
  data : Option Memory
  store : EfiVarStore

/-- Read a variable into a buffer of `dataSize` bytes; `data` is NULL or the bytes there. -/
def efiGetVariableMem (name : U16String)
    (vendor : EfiGuid) (dataSize : Nat) (data : Option Memory) (mask : BitVec 32) :
    Option EfiVarRead := do
  let found ← efiVarMemFind c s vendor name
  match found.var with
  | none => return ⟨.NOT_FOUND, none, none, dataSize, data, found.store⟩
  | some var =>
    let m := found.store.buf
    if mask ≠ 0 ∧ varAttr m var &&& mask ≠ mask then
      return ⟨.NOT_FOUND, none, none, dataSize, data, found.store⟩
    else if name = vtf then
      let (status, size, data) ← efiVarCollectMem c m data dataSize EFI_VARIABLE_NON_VOLATILE
      return ⟨status, some (varAttr m var), some (varTime m var), size, data, found.store⟩
    else if dataSize < varLength m var then
      return ⟨.BUFFER_TOO_SMALL, some (varAttr m var), some (varTime m var), varLength m var,
        data, found.store⟩
    else
      match data with
      | none =>
        return ⟨.INVALID_PARAMETER, some (varAttr m var), some (varTime m var),
          varLength m var, none, found.store⟩
      | some buf =>
        let nameLength ← u16Strlen m c.bufSize (varName var)
        let pdata := varName var + 2 * (nameLength + 1)
        return ⟨.SUCCESS, some (varAttr m var), some (varTime m var), varLength m var,
          some (buf.write 0 (m.read pdata (varLength m var))), found.store⟩

structure EfiNextName where
  status : EfiVarStatus
  size : Nat
  name : Memory
  vendor : EfiGuid
  store : EfiVarStore

/-- The rounds from the label `skip` on. -/
def nextNameLoop (c : EfiVarConfig) (mask : BitVec 32) (size : Nat) :
    (rounds : Nat) → (s : EfiVarStore) → (name : Memory) → (vendor : EfiGuid) → Option EfiNextName
  | 0, _, _, _ => none
  | rounds + 1, s, name, vendor =>
    if u16Strnlen name 0 (size / 2) = size / 2 then
      some ⟨.INVALID_PARAMETER, size, name, vendor, s⟩
    else do
      let found ← efiVarMemFind c s vendor ⟨u16Units name (size / 2) 0, zero_notMem_u16Units _ _ _⟩
      if found.var = none ∧ u16At name 0 ≠ 0 then
        return ⟨.INVALID_PARAMETER, size, name, vendor, found.store⟩
      else
        match found.next with
        | none => return ⟨.NOT_FOUND, size, name, vendor, found.store⟩
        | some var =>
          let m := found.store.buf
          let nameLength ← u16Strlen m c.bufSize (varName var)
          let needed := 2 * (nameLength + 1)
          if size < needed then
            return ⟨.BUFFER_TOO_SMALL, needed, name, vendor, found.store⟩
          else
            let name := name.write 0 (m.read (varName var) needed)
            if mask ≠ 0 ∧ varAttr m var &&& mask ≠ mask then
              nextNameLoop c mask size rounds found.store name (varGuid m var)
            else return ⟨.SUCCESS, needed, name, varGuid m var, found.store⟩

def efiGetNextVariableNameMem (size : Nat) (name : Memory)
    (vendor : EfiGuid) (mask : BitVec 32) : Option EfiNextName :=
  nextNameLoop c mask size (c.bufSize + 1) s name vendor

end UBoot
