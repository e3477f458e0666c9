import UBoot.Common
import UBoot.FwEnv

/-!
# The redundant environment of the Linux tool

`fw_env_open_selected` reads two copies of an environment and selects one of them,
`fw_env_flush` writes the edited environment to the other one.  Here the environment is
redundant.  The device `0` is `false`, the device `1` is `true`.  Reads of the devices
succeed; a write can be interrupted.
-/

namespace UBoot

/-- `struct env_image_redundant`. -/
structure EnvImageRedundant where
  crc : BitVec 32
  flags : BitVec 8
  data : Memory

/-- `enum flag_scheme` of a redundant environment. -/
inductive FlagScheme
  | BOOLEAN
  | INCREMENTAL
  deriving DecidableEq, Repr

inductive MtdType
  | ABSENT
  | NORFLASH
  | NANDFLASH
  | DATAFLASH
  | UBIVOLUME
  | other
  deriving DecidableEq, Repr

structure EnvDevice where
  devtype : MtdType
  isUbi : Bool
  deriving DecidableEq, Repr

def EnvDevice.typeRead (dev : EnvDevice) : MtdType :=
  if dev.isUbi then .ABSENT else dev.devtype

structure FwEnvConfig where
  envSize : Nat
  device : Bool → EnvDevice
  defaultEnvironment : List UInt8
  crc32 : List UInt8 → BitVec 32

def ENV_REDUND_ACTIVE : BitVec 8 := 1

def ENV_REDUND_OBSOLETE : BitVec 8 := 0

namespace FwEnvConfig

variable (c : FwEnvConfig)

def flagScheme : Option FlagScheme :=
  let type0 := (c.device false).typeRead
  let type1 := (c.device true).typeRead
  if type1 = .NORFLASH ∧ type0 = .NORFLASH then some .BOOLEAN
  else if type1 = .NANDFLASH ∧ type0 = .NANDFLASH then some .INCREMENTAL
  else if type1 = .DATAFLASH ∧ type0 = .DATAFLASH then some .BOOLEAN
  else if type1 = .UBIVOLUME ∧ type0 = .UBIVOLUME then some .INCREMENTAL
  else if type1 = .ABSENT ∧ type0 = .ABSENT ∧ (c.device true).isUbi = (c.device false).isUbi then
    some .INCREMENTAL
  else none

def crcOk (image : EnvImageRedundant) : Bool := c.crc32 (image.data.read 0 c.envSize) = image.crc

end FwEnvConfig

def selectByFlags : FlagScheme → (flag0 flag1 : BitVec 8) → Bool
  | .BOOLEAN, flag0, flag1 =>
    if flag0 = ENV_REDUND_ACTIVE ∧ flag1 = ENV_REDUND_OBSOLETE then false
    else if flag0 = ENV_REDUND_OBSOLETE ∧ flag1 = ENV_REDUND_ACTIVE then true
    else if flag0 = flag1 then false
    else if flag0 = 0xff then false
    else if flag1 = 0xff then true
    else false
  | .INCREMENTAL, flag0, flag1 =>
    if flag0 = 255 ∧ flag1 = 0 then true
    else if (flag1 = 255 ∧ flag0 = 0) ∨ flag1 ≤ flag0 then false
    else true

/-- The choice of `dev_current`. -/
def selectDev (scheme : FlagScheme) (crc0Ok crc1Ok : Bool) (flag0 flag1 : BitVec 8) : Bool :=
  if crc0Ok ∧ !crc1Ok then false
  else if !crc0Ok ∧ crc1Ok then true
  else if !crc0Ok ∧ !crc1Ok then false
  else selectByFlags scheme flag0 flag1

structure FwEnvState where
  copies : Bool → EnvImageRedundant
  devCurrent : Bool
  dirty : Bool
  image : Option EnvImageRedundant

section Open

variable (c : FwEnvConfig) (useFallback metadataOnly : Bool)

def openDirty (s : FwEnvState) : Bool :=
  let differ : Bool :=
    (s.copies false).data.read 0 c.envSize ≠ (s.copies true).data.read 0 c.envSize
  s.dirty || differ || !c.crcOk (s.copies false) || !c.crcOk (s.copies true)

/-- The end of `fw_env_open_selected`, after the choice of a device. -/
def openDev (image : EnvImageRedundant) (good : Bool) (s : FwEnvState) : Int × FwEnvState :=
  if useFallback ∧ !metadataOnly ∧ !good then (-EINVAL, s)
  else if !metadataOnly ∧ (fwEnvDataEnd c.envSize image.data).isNone then (-EINVAL, s)
  else (0, { s with image := some image })

def fwEnvOpenSelected (s : FwEnvState) : Int × FwEnvState :=
  match c.flagScheme with
  | none => (-EINVAL, { s with devCurrent := true })
  | some scheme =>
    let redundant0 := s.copies false
    let redundant1 := s.copies true
    let crc0Ok := c.crcOk redundant0
    let crc1Ok := c.crcOk redundant1
    let buf0 :=
      if !crc0Ok ∧ !crc1Ok then
        { redundant0 with data := redundant0.data.write 0 c.defaultEnvironment }
      else redundant0
    let dev := selectDev scheme crc0Ok crc1Ok redundant0.flags redundant1.flags
    let dev := if useFallback then !dev else dev
    openDev c useFallback metadataOnly (if dev then redundant1 else buf0)
      (if dev then crc1Ok else crc0Ok) { s with devCurrent := dev, dirty := openDirty c s }

def fwEnvOpen (s : FwEnvState) : Int × FwEnvState := fwEnvOpenSelected c false false s

end Open

inductive FlushOutcome (c : FwEnvConfig)
  | completed
  | interrupted (left : EnvImageRedundant) (bad : c.crcOk left = false)

/-- The flags that `flash_write` gives to the copy that it writes. -/
def FlagScheme.nextFlags : FlagScheme → BitVec 8 → BitVec 8
  | .BOOLEAN, _ => ENV_REDUND_ACTIVE
  | .INCREMENTAL, flags => flags + 1

section Flush

variable (c : FwEnvConfig)

/-- The copies after `flash_write` to the device that is not current. -/
def flashWrite (scheme : FlagScheme) (s : FwEnvState) (image : EnvImageRedundant) :
    FlushOutcome c → Int × (Bool → EnvImageRedundant)
  | .interrupted left _ => (-1, Function.update s.copies (!s.devCurrent) left)
  | .completed =>
    let copies := Function.update s.copies (!s.devCurrent) image
    match scheme with
    | .INCREMENTAL => (0, copies)
    | .BOOLEAN =>
      (0, Function.update copies s.devCurrent
        { copies s.devCurrent with flags := ENV_REDUND_OBSOLETE })

/-- `fw_env_flush`; without an open environment it has no result. -/
def fwEnvFlush (outcome : FlushOutcome c) (s : FwEnvState) : Option (Int × FwEnvState) :=
  match s.image with
  | none => none
  | some image =>
    match c.flagScheme with
    | none => none
    | some scheme =>
      if s.dirty then
        let image : EnvImageRedundant :=
          ⟨c.crc32 (image.data.read 0 c.envSize), scheme.nextFlags image.flags, image.data⟩
        let result := flashWrite c scheme s image outcome
        some (result.1, { s with copies := result.2, image := some image })
      else some (0, s)

/-- `fw_env_write` on the open environment. -/
def FwEnvState.write (access : FwEnvAccess) (name value : CString) (s : FwEnvState) :
    Option (Int × FwEnvState) :=
  match s.image with
  | none => none
  | some image =>
    match fwEnvWrite c.envSize access ⟨image.data, s.dirty⟩ name value with
    | none => none
    | some (ret, e) =>
      some (ret, { s with image := some { image with data := e.data }, dirty := e.dirty })

end Flush

end UBoot
