import UBoot.EnvText

/-!
# Looking up, exporting and importing the environment

This file translates functions of `env/common.c`: the lookup of a variable in
the hash table and in the exported data, the export with a checksum and a
serial number, and the choice between two copies of the environment.  The
checksum is an arbitrary function of the data.
-/

namespace UBoot

/-- The part of `env_get` after the environment has been imported. -/
def envGet (hooks : HashHooks) (htab : HsearchData) (name : CString) : Option (Option CString) := do
  let (result, htab) ← hsearchR hooks htab name none .find 0
  return result.retval.bind fun ep => (htab.node ep).entry.data

section Linear

/-- The string at a position, up to its NUL, and what follows the NUL; the
search gives up beyond `CONFIG_ENV_SIZE`. -/
def findEnd (configEnvSize : Nat) :
    (offset : Nat) → List UInt8 → Option (Option (CString × List UInt8))
  | _, [] => none
  | offset, c :: rest =>
    if c = 0 then some (some ([], rest))
    else if configEnvSize ≤ offset then some none
    else do
      let found ← findEnd configEnvSize (offset + 1) rest
      return found.map fun (s, rest) => (c :: s, rest)

/-- What `env_get_from_linear` returns: -1, or the length of the value and the
bytes written to the buffer. -/
inductive LinearResult
  | notFound
  | found (res : Nat) (buf : List UInt8)
  deriving DecidableEq, Repr

/-- The bytes that `env_get_from_linear` leaves in a buffer of `len` bytes, which
is not zero. -/
def copyValue (value : CString) (len : Nat) : List UInt8 :=
  let buf := (value ++ [0]).take (min len (value.length + 1))
  if len ≤ value.length then buf.set (len - 1) 0 else buf

/-- The loop of `env_get_from_linear`; `none` means that it reads beyond the
memory it was given. -/
def linearLoop (configEnvSize : Nat) (name : CString) (len : Nat) :
    (fuel offset : Nat) → (p : List UInt8) → Option LinearResult
  | 0, _, _ => none
  | _ + 1, _, [] => none
  | fuel + 1, offset, c :: rest =>
    if c = 0 then some .notFound
    else do
      let found ← findEnd configEnvSize offset (c :: rest)
      match found with
      | none => return .notFound
      | some (s, next) =>
        if !name.isPrefixOf s ∨ (s.drop name.length).headD 0 ≠ EQUALS_SIGN then
          linearLoop configEnvSize name len fuel (offset + s.length + 1) next
        else
          let value := s.drop (name.length + 1)
          return .found value.length (copyValue value len)

def envGetFromLinear (configEnvSize : Nat) (env : List UInt8) (name : CString)
    (len : Nat) : Option LinearResult :=
  if name = [] then some .notFound
  else linearLoop configEnvSize name len (env.length + 1) 0 env

end Linear

/-- `env_t`. -/
structure EnvT where
  crc : BitVec 32
  flags : BitVec 8
  data : List UInt8
  deriving DecidableEq, Repr

/-- `enum env_valid`. -/
inductive EnvValid
  | INVALID
  | VALID
  | REDUND
  deriving DecidableEq, Repr

section Redundant

variable (crc32 : List UInt8 → BitVec 32)

/-- `env_export` with the new serial number; the array `data` of `env_t` has
`ENV_SIZE` bytes. -/
def envExport (config : EnvConfig) (hooks : HashHooks) (envSize : Nat)
    (htab : HsearchData) (envFlags : BitVec 8) : Except HashErrno (EnvT × BitVec 8) := do
  let res ← hexportR config hooks htab 0 0 true envSize []
  let data := res.bytes.take envSize
  let envFlags := envFlags + 1
  return (⟨crc32 data, envFlags, data⟩, envFlags)

/-- The return values 0, `-EIO` and `-ENOMSG` of `env_check_redund`. -/
inductive CheckResult
  | ok
  | badEnvArea
  | badCrc
  deriving DecidableEq, Repr

/-- The choice of `env_check_redund` between two good copies. -/
def checkSerial (flags1 flags2 : BitVec 8) : EnvValid :=
  if flags1 = 255 ∧ flags2 = 0 then .REDUND
  else if flags2 = 255 ∧ flags1 = 0 then .VALID
  else if flags1 > flags2 then .VALID
  else if flags2 > flags1 then .REDUND
  else .VALID

def envCheckRedund (buf1 : EnvT) (buf1ReadFail : Bool) (buf2 : EnvT)
    (buf2ReadFail : Bool) (envValid : EnvValid) : CheckResult × EnvValid :=
  if buf1ReadFail && buf2ReadFail then (.badEnvArea, envValid)
  else
    let crc1Ok := !buf1ReadFail && crc32 buf1.data = buf1.crc
    let crc2Ok := !buf2ReadFail && crc32 buf2.data = buf2.crc
    if !crc1Ok && !crc2Ok then (.badCrc, .INVALID)
    else if crc1Ok && !crc2Ok then (.ok, .VALID)
    else if !crc1Ok && crc2Ok then (.ok, .REDUND)
    else (.ok, checkSerial buf1.flags buf2.flags)

/-- What `env_import_redund` does: the state of the environment, the serial number
and the copy that it passes to `env_import`; without a good copy the default
environment is set. -/
structure ImportRedund where
  envValid : EnvValid
  envFlags : BitVec 8
  ep : Option EnvT
  deriving DecidableEq, Repr

def envImportRedund (buf1 : EnvT) (buf1ReadFail : Bool) (buf2 : EnvT)
    (buf2ReadFail : Bool) (envValid : EnvValid) (envFlags : BitVec 8) : ImportRedund :=
  match envCheckRedund crc32 buf1 buf1ReadFail buf2 buf2ReadFail envValid with
  | (.ok, envValid) =>
    let ep := if envValid = .VALID then buf1 else buf2
    ⟨envValid, ep.flags, some ep⟩
  | (_, envValid) => ⟨envValid, envFlags, none⟩

end Redundant

end UBoot
