import UBoot.EfiVarMem

/-!
# Setting EFI variables

The functions that set a variable at boot time and at runtime, the variables for the
state of secure boot, and the restoring of variables from a file.  What the check of a
signature looks up and answers is a parameter of the calls.
-/

namespace UBoot

inductive EfiAuthVarType
  | NONE
  | MODE
  | PK
  | KEK
  | DB
  | DBX
  | DBT
  | DBR
  deriving DecidableEq

def efiGlobalVariableGuid : EfiGuid :=
  ⟨[0x61, 0xdf, 0xe4, 0x8b, 0xca, 0x93, 0xd2, 0x11, 0xaa, 0x0d, 0x00, 0xe0, 0x98, 0x03, 0x2b,
    0x8c], rfl⟩

def efiGuidImageSecurityDatabase : EfiGuid :=
  ⟨[0xcb, 0xb2, 0x19, 0xd7, 0x3a, 0x3d, 0x96, 0x45, 0xa3, 0xbc, 0xda, 0xd0, 0x0e, 0x67, 0x65,
    0x6f], rfl⟩

def shimLockGuid : EfiGuid :=
  ⟨[0x50, 0xab, 0x5d, 0x60, 0x46, 0xe0, 0x00, 0x43, 0xab, 0xb6, 0x3d, 0xd8, 0x10, 0xdd, 0x8b,
    0x23], rfl⟩

def u16String (s : String) : U16String :=
  ⟨(s.toList.map fun c => UInt16.ofNat c.toNat).filter (· ≠ 0), by simp⟩

def nameType : List (U16String × EfiGuid × EfiAuthVarType) :=
  [(u16String "PK", efiGlobalVariableGuid, .PK), (u16String "KEK", efiGlobalVariableGuid, .KEK),
    (u16String "db", efiGuidImageSecurityDatabase, .DB),
    (u16String "dbx", efiGuidImageSecurityDatabase, .DBX),
    (u16String "dbt", efiGuidImageSecurityDatabase, .DBT),
    (u16String "dbr", efiGuidImageSecurityDatabase, .DBR),
    (u16String "AuditMode", efiGlobalVariableGuid, .MODE),
    (u16String "DeployedMode", efiGlobalVariableGuid, .MODE)]

def efiAuthVarGetType (name : U16String) (guid : EfiGuid) : EfiAuthVarType :=
  match nameType.find? fun entry => entry.1 = name ∧ entry.2.1 = guid with
  | some entry => entry.2.2
  | none => .NONE

/-- `var_type >= EFI_AUTH_VAR_PK`. -/
def EfiAuthVarType.mandatory : EfiAuthVarType → Bool
  | .NONE | .MODE => false
  | _ => true

def hasAttribute (attributes bit : BitVec 32) : Bool := attributes &&& bit != 0

/-- The arguments of a call that sets a variable; a pointer is NULL or what it points to. -/
structure SetVariableArgs where
  name : Option U16String
  vendor : Option EfiGuid
  attributes : BitVec 32
  dataSize : Nat
  data : Option Memory

def SetVariableArgs.bytes (args : SetVariableArgs) : List UInt8 :=
  match args.data with
  | some data => data.read 0 args.dataSize
  | none => []

/-- The checks of the arguments that the specification of UEFI asks for; a name and a
vendor if they pass. -/
def setvariableAllowed (args : SetVariableArgs) : Except EfiVarStatus (U16String × EfiGuid) :=
  match args.name, args.vendor with
  | some name, some vendor =>
    if name.val = [] then .error .INVALID_PARAMETER
    else if args.dataSize ≠ 0 ∧ args.data.isNone then .error .INVALID_PARAMETER
    else if hasAttribute args.attributes (EFI_VARIABLE_AUTHENTICATED_WRITE_ACCESS |||
        EFI_VARIABLE_ENHANCED_AUTHENTICATED_ACCESS) then .error .UNSUPPORTED
    else if args.attributes &&& (EFI_VARIABLE_RUNTIME_ACCESS |||
        EFI_VARIABLE_BOOTSERVICE_ACCESS) = EFI_VARIABLE_RUNTIME_ACCESS then
      .error .INVALID_PARAMETER
    else if args.attributes &&& EFI_VARIABLE_MASK = EFI_VARIABLE_NON_VOLATILE then
      .error .INVALID_PARAMETER
    else if hasAttribute args.attributes EFI_VARIABLE_HARDWARE_ERROR_RECORD &&
        (!hasAttribute args.attributes EFI_VARIABLE_NON_VOLATILE ||
          !hasAttribute args.attributes EFI_VARIABLE_RUNTIME_ACCESS ||
          !hasAttribute args.attributes EFI_VARIABLE_BOOTSERVICE_ACCESS) then
      .error .INVALID_PARAMETER
    else .ok (name, vendor)
  | _, _ => .error .INVALID_PARAMETER

/-- What `efi_variable_authenticate` looks up in a call, and its answer: a status, or the
data without the signature and the signed time. -/
structure EfiAuthentication where
  reads : List (EfiGuid × U16String)
  verdict : Except EfiVarStatus (List UInt8 × BitVec 64)

def lookUpAll (c : EfiVarConfig) : (s : EfiVarStore) → List (EfiGuid × U16String) →
    Option EfiVarStore
  | s, [] => some s
  | s, (guid, name) :: rest => do
      let found ← efiVarMemFind c s guid name
      lookUpAll c found.store rest

structure VariableWrite where
  delete : Bool
  data : List UInt8
  time : BitVec 64

def isDelete (append : Bool) (dataSize : Nat) (attributes : BitVec 32) : Bool :=
  !append && (dataSize == 0 || attributes == 0)

variable (c : EfiVarConfig)

/-- The checks against a variable that exists or does not: a status to return with, or the
time of the variable. -/
def checkAttributes (m : Memory) (var : Option Nat) (varType : EfiAuthVarType)
    (attributes : BitVec 32) (dataSize : Nat) (append delete roCheck : Bool) :
    Except EfiVarStatus (BitVec 64) :=
  match var with
  | some var =>
    if roCheck && hasAttribute (varAttr m var) EFI_VARIABLE_READ_ONLY then
      .error .WRITE_PROTECTED
    else if c.preseed && varType.mandatory then .error .WRITE_PROTECTED
    else if !delete && (roCheck && varAttr m var != attributes &&& ~~~EFI_VARIABLE_APPEND_WRITE ||
          !roCheck && varAttr m var &&& ~~~EFI_VARIABLE_READ_ONLY !=
            attributes &&& ~~~EFI_VARIABLE_READ_ONLY) then
      .error .INVALID_PARAMETER
    else .ok (varTime m var)
  | none =>
    if append && dataSize = 0 then .error .SUCCESS
    else if delete then .error .NOT_FOUND
    else .ok 0

variable (s : EfiVarStore) (auth : EfiAuthentication)

def authenticate (varType : EfiAuthVarType) (attributes : BitVec 32) (write : VariableWrite) :
    Option (Except EfiVarStatus VariableWrite × EfiVarStore) :=
  let timeBased := hasAttribute attributes EFI_VARIABLE_TIME_BASED_AUTHENTICATED_WRITE_ACCESS
  if varType.mandatory && !timeBased then some (.error .INVALID_PARAMETER, s)
  else if !timeBased then some (.ok write, s)
  else if !c.secureBoot then some (.error .INVALID_PARAMETER, s)
  else do
    let s ← lookUpAll c s auth.reads
    match auth.verdict with
    | .error status => return (.error status, s)
    | .ok (data, time) => return (.ok ⟨write.delete || data.isEmpty, data, time⟩, s)

def oldData (m : Memory) (var : Nat) : Option (List UInt8) := do
  let nameLength ← u16Strlen m c.bufSize (varName var)
  return m.read (varName var + 2 * (nameLength + 1)) (varLength m var)

def insertVariable (var : Option Nat) (name : U16String)
    (vendor : EfiGuid) (attributes : BitVec 32) (append : Bool) (write : VariableWrite) :
    Option (EfiVarStatus × EfiVarStore) :=
  match var with
  | none =>
    -- To delete a variable the source reads its attributes, so it has to exist.
    if write.delete then none
    else efiVarMemIns c s name vendor attributes write.data [] write.time
  | some var =>
    if write.delete then some (.SUCCESS, s)
    else if append then do
      let old ← oldData c s.buf var
      efiVarMemIns c s name vendor (attributes &&& ~~~EFI_VARIABLE_APPEND_WRITE) old
        write.data write.time
    else efiVarMemIns c s name vendor attributes write.data [] write.time

def writeVariable (var : Option Nat) (name : U16String)
    (vendor : EfiGuid) (attributes : BitVec 32) (append : Bool) (write : VariableWrite) :
    Option (EfiVarStatus × EfiVarStore) := do
  let (status, s) ← insertVariable c s var name vendor attributes append write
  if status ≠ .SUCCESS then return (status, s)
  else
    let s ← efiVarMemDel c s var
    return (.SUCCESS, s)

/-- Set a variable, where `initSecureState` is done after a change of the platform key. -/
def setVariableUsing (initSecureState : EfiVarStore → Option (EfiVarStatus × EfiVarStore))
    (c : EfiVarConfig) (s : EfiVarStore) (auth : EfiAuthentication) (args : SetVariableArgs)
    (roCheck : Bool) : Option (EfiVarStatus × EfiVarStore) :=
  match setvariableAllowed args with
  | .error status => some (status, s)
  | .ok (name, vendor) => do
      let found ← efiVarMemFind c s vendor name
      let append := hasAttribute args.attributes EFI_VARIABLE_APPEND_WRITE
      let delete := isDelete append args.dataSize args.attributes
      let varType := efiAuthVarGetType name vendor
      match checkAttributes c s.buf found.var varType args.attributes args.dataSize append delete
          roCheck with
      | .error status => return (status, found.store)
      | .ok time =>
        let (checked, s) ← authenticate c found.store auth varType args.attributes
          ⟨delete, args.bytes, time⟩
        match checked with
        | .error status => return (status, s)
        | .ok write =>
          let (status, s) ← writeVariable c s found.var name vendor args.attributes append write
          if status ≠ .SUCCESS then return (status, s)
          else if varType = .PK then
            let (_, s) ← initSecureState s
            return (.SUCCESS, s)
          else return (.SUCCESS, s)

/-! ## The state of secure boot -/

inductive EfiSecureMode
  | SETUP
  | USER
  | AUDIT
  | DEPLOYED
  deriving DecidableEq

/-- A call for a variable of the state of secure boot.  Its attributes ask for no
authentication, and no such call comes to the state of secure boot again. -/
def setStateVariable (name : String)
    (attributes : BitVec 32) (data : List UInt8) : Option (EfiVarStatus × EfiVarStore) :=
  setVariableUsing (fun _ => none) c s ⟨[], .error .SECURITY_VIOLATION⟩
    ⟨some (u16String name), some efiGlobalVariableGuid, attributes, data.length,
      if data = [] then none else some fun a => data.getD a 0⟩ false

def setStateVariables (c : EfiVarConfig) : (s : EfiVarStore) →
    List (String × BitVec 32 × List UInt8) → Option (EfiVarStatus × EfiVarStore)
  | s, [] => some (.SUCCESS, s)
  | s, (name, attributes, data) :: rest => do
      let (status, s) ← setStateVariable c s name attributes data
      if status ≠ .SUCCESS then return (status, s) else setStateVariables c s rest

def attributesRw : BitVec 32 := EFI_VARIABLE_BOOTSERVICE_ACCESS ||| EFI_VARIABLE_RUNTIME_ACCESS

def attributesRo : BitVec 32 := attributesRw ||| EFI_VARIABLE_READ_ONLY

/-- The calls of `efi_set_secure_state`. -/
def secureState (secureBoot setupMode auditMode deployedMode : UInt8) :
    List (String × BitVec 32 × List UInt8) :=
  [("SecureBoot", attributesRo, [secureBoot]), ("SetupMode", attributesRo, [setupMode]),
    ("AuditMode", if auditMode ≠ 0 ∨ setupMode ≠ 0 then attributesRo else attributesRw,
      [auditMode]),
    ("DeployedMode",
      if auditMode ≠ 0 ∨ deployedMode ≠ 0 ∨ setupMode ≠ 0 then attributesRo else attributesRw,
      [deployedMode])]

/-- The calls of `efi_transfer_secure_state`. -/
def efiTransferSecureState : EfiSecureMode → List (String × BitVec 32 × List UInt8)
  | .DEPLOYED => secureState 1 0 0 1
  | .AUDIT => ("PK", attributesRw, []) :: secureState 0 1 1 0
  | .USER => secureState 1 0 0 0
  | .SETUP => secureState 0 1 0 0

def readMode (name : String) : Option (UInt8 × EfiVarStore) := do
  let read ← efiGetVariableMem c s (u16String name) efiGlobalVariableGuid 1 (some fun _ => 0) 0
  return (((read.data.map fun data => data 0).getD 0), read.store)

def secureMode : Option (EfiSecureMode × EfiVarStore) :=
  if c.secureBoot then do
    let (deployedMode, s) ← readMode c s "DeployedMode"
    let (auditMode, s) ← readMode c s "AuditMode"
    let pk ← efiGetVariableMem c s (u16String "PK") efiGlobalVariableGuid 0 none 0
    -- With a platform key the audit mode is left, without one the deployed mode.
    if pk.status = .BUFFER_TOO_SMALL then
      return (if deployedMode ≠ 0 then .DEPLOYED else .USER, pk.store)
    else return (if auditMode ≠ 0 then .AUDIT else .SETUP, pk.store)
  else some (.SETUP, s)

def efiInitSecureState (s : EfiVarStore) : Option (EfiVarStatus × EfiVarStore) := do
  let (mode, s) ← secureMode c s
  setStateVariables c s (efiTransferSecureState mode ++ [("VendorKeys", attributesRo, [0])])

/-! ## The services -/

def efiSetVariableInt
    (args : SetVariableArgs) (roCheck : Bool) : Option (EfiVarStatus × EfiVarStore) :=
  setVariableUsing (efiInitSecureState c) c s auth args roCheck

def efiSetVariable (args : SetVariableArgs) : Option (EfiVarStatus × EfiVarStore) :=
  if hasAttribute args.attributes (~~~EFI_VARIABLE_MASK) then some (.INVALID_PARAMETER, s)
  else efiSetVariableInt c s auth args true

/-- The checks of `efi_set_variable_runtime` against a variable that exists or does not. -/
def checkAttributesRuntime (m : Memory) (var : Option Nat) (attributes : BitVec 32)
    (dataSize : Nat) (append delete : Bool) : Except EfiVarStatus (BitVec 64) :=
  if !delete && !hasAttribute attributes EFI_VARIABLE_RUNTIME_ACCESS then
    .error .INVALID_PARAMETER
  else
    match var with
    | some var =>
      if hasAttribute (varAttr m var) EFI_VARIABLE_READ_ONLY ||
          !hasAttribute (varAttr m var) EFI_VARIABLE_NON_VOLATILE then .error .WRITE_PROTECTED
      else if !delete && varAttr m var &&& ~~~EFI_VARIABLE_READ_ONLY !=
          attributes &&& ~~~EFI_VARIABLE_READ_ONLY then .error .INVALID_PARAMETER
      else .ok (varTime m var)
    | none =>
      if !hasAttribute attributes EFI_VARIABLE_NON_VOLATILE then .error .INVALID_PARAMETER
      else if append && dataSize = 0 then .error .SUCCESS
      else if delete then .error .NOT_FOUND
      else .ok 0

def efiSetVariableRuntime (args : SetVariableArgs) : Option (EfiVarStatus × EfiVarStore) :=
  if !c.rtVolatileStore then some (.UNSUPPORTED, s)
  else if hasAttribute args.attributes EFI_VARIABLE_TIME_BASED_AUTHENTICATED_WRITE_ACCESS then
    some (.INVALID_PARAMETER, s)
  else
    match setvariableAllowed args with
    | .error status => some (status, s)
    | .ok (name, vendor) => do
        let found ← efiVarMemFind c s vendor name
        let append := hasAttribute args.attributes EFI_VARIABLE_APPEND_WRITE
        let attributes := args.attributes &&& ~~~EFI_VARIABLE_APPEND_WRITE
        let delete := isDelete append args.dataSize attributes
        match checkAttributesRuntime s.buf found.var attributes args.dataSize append delete with
        | .error status => return (status, found.store)
        | .ok time =>
          writeVariable c found.store found.var name vendor attributes append
            ⟨delete, args.bytes, time⟩

/-! ## Restoring variables from a file -/

def restoreSkips (file : Memory) (var : Nat) (name : U16String) (safe : Bool) : Bool :=
  !safe && (efiAuthVarGetType name (varGuid file var) != .NONE ||
    varGuid file var == shimLockGuid ||
    !hasAttribute (varAttr file var) EFI_VARIABLE_NON_VOLATILE) ||
  varLength file var == 0

def restoreLoop (c : EfiVarConfig) (file : Memory) (safe : Bool) :
    (rounds var : Nat) → (s : EfiVarStore) → Option EfiVarStore
  | 0, _, _ => none
  | rounds + 1, var, s =>
    if bufLength file ≤ var then some s
    else do
      let nameLength ← u16Strlen file (bufLength file) (varName var)
      let name : U16String :=
        ⟨u16Units file nameLength (varName var), zero_notMem_u16Units _ _ _⟩
      let data := varName var + 2 * (nameLength + 1)
      let next := roundUp (data + varLength file var) 8
      if restoreSkips file var name safe then restoreLoop c file safe rounds next s
      else
        let found ← efiVarMemFind c s (varGuid file var) name
        if found.var.isSome then restoreLoop c file safe rounds next found.store
        else
          let (_, s) ← efiVarMemIns c found.store name (varGuid file var) (varAttr file var)
            (file.read data (varLength file var)) [] (varTime file var)
          restoreLoop c file safe rounds next s

def fileAccepted (file : Memory) : Bool :=
  file.readLE 0 8 == 0 && file.readLE 8 8 == EFI_VAR_FILE_MAGIC && file.readLE 20 4 ==
      (c.crc32 (file.read sizeofEfiVarFile (bufLength file - sizeofEfiVarFile))).toNat

def efiVarRestore (file : Memory) (safe : Bool) : Option (EfiVarStatus × EfiVarStore) :=
  if !fileAccepted c file then some (.INVALID_PARAMETER, s)
  else do
    let s ← restoreLoop c file safe (bufLength file) sizeofEfiVarFile s
    return (.SUCCESS, s)

end UBoot
