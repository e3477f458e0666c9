import UBoot.Common
import UBoot.LibFdt

/-!
# Signatures of a FIT

The checks of `boot/image-fit-sig.c` for images: the signatures of an image, and the
keys of the key blob that are marked as required.  Whether a key accepts a signature is
left to an oracle; which keys are asked is `rsa_verify_hash` of `lib/rsa/rsa-verify.c`.
A call has no answer if it uses a null pointer or a walk does not end.
-/

namespace UBoot

structure FitConfig where
  fitSignatureMaxSize : Nat
  checksumAlgos : List (List UInt8)
  cryptoAlgos : List (List UInt8)

/-- Whether the key at a node accepts a signature of some regions.  The signature node is
given for the algorithm and the padding. -/
abbrev KeyOracle :=
  (keynode sigNode : Int) → (regions : List (List UInt8)) → (value : List UInt8) → Bool

def FIT_SIG_NODENAME : List UInt8 := chars "signature"

/-- The loop `fdt_for_each_subnode` from a node on, with a body that may leave it; the
answer has the last value of the loop variable. -/
def forEachSubnode {State : Type} (fdt : Memory) (rounds : Nat)
    (body : Int → State → Option (ForInStep State)) : Nat → Int → State → Option (Int × State)
  | 0, _, _ => none
  | steps + 1, node, s =>
    if node ≥ 0 then
      match body node s with
      | none => none
      | some (.done s) => some (node, s)
      | some (.yield s) =>
        match fdtNextSubnode fdt rounds node with
        | none => none
        | some next => forEachSubnode fdt rounds body steps next s
    else
      some (node, s)

def eachSubnode {State : Type} (fdt : Memory) (rounds : Nat) (parent : Int)
    (body : Int → State → Option (ForInStep State)) (s : State) : Option (Int × State) :=
  match fdtFirstSubnode fdt rounds parent with
  | none => none
  | some first => forEachSubnode fdt rounds body rounds first s

def propIs (fdt : Memory) (rounds : Nat) (node : Int) (name value : List UInt8) : Option Bool :=
  (fdtGetprop fdt rounds node name).map fun prop =>
    match prop with
    | none => false
    | some prop => strEq fdt prop.data value

def propBytes (fdt : Memory) (prop : FdtProp) : List UInt8 := fdt.read prop.data (uint32 prop.len)

def eachKeyLoop (keyBlob : Memory) (rounds : Nat) (node : Int) (accepts : Int → Bool) :
    Nat → (offset depth : Int) → Option Bool
  | 0, _, _ => none
  | steps + 1, offset, depth =>
    if offset ≥ 0 ∧ depth > 0 then
      if depth = 1 ∧ offset ≠ node ∧ accepts offset then
        some true
      else
        match fdtNextNode keyBlob rounds offset depth with
        | none => none
        | some (offset, depth) => eachKeyLoop keyBlob rounds node accepts steps offset depth
    else
      some false

/-- The name of the key that a signature node hints at, as printed into the buffer. -/
def hintName (fit : Memory) (keyname : Option FdtProp) : List UInt8 :=
  chars "key-" ++
    match keyname with
    | none => chars "<NULL>"
    | some prop => cString fit prop.data 95

/-- Whether some key is accepted: the required one if there is one, or else the one of the
hint or any other. -/
def rsaVerifyHash (rounds : Nat) (keyBlob : Memory) (requiredKeynode : Int)
    (name : List UInt8) (accepts : Int → Bool) : Option Bool :=
  match fdtSubnodeOffset keyBlob rounds 0 FIT_SIG_NODENAME with
  | none => none
  | some sigNode =>
    if sigNode < 0 then
      some false
    else if requiredKeynode ≠ -1 then
      some (0 ≤ requiredKeynode ∧ accepts requiredKeynode)
    else
      match fdtSubnodeOffset keyBlob rounds sigNode name with
      | none => none
      | some node =>
        if 0 ≤ node ∧ accepts node then
          some true
        else
          match fdtNextNode keyBlob rounds sigNode 0 with
          | none => none
          | some (offset, depth) => eachKeyLoop keyBlob rounds node accepts rounds offset depth

section Fit

variable (config : FitConfig) (ok : KeyOracle) (rounds : Nat) (fit keyBlob : Memory)

/-- The algorithm of a signature is known: a checksum, a comma and a crypto algorithm. -/
def knownAlgo (algoName : Nat) : Bool :=
  config.checksumAlgos.any fun checksum =>
    fit.read algoName (checksum.length + 1) = checksum ++ [0x2c] ∧
      config.cryptoAlgos.any fun crypto => strEq fit (algoName + checksum.length + 1) crypto

def fitImageSetupVerify (noffset : Int) : Option (Except String (Option FdtProp)) :=
  if fdtTotalsize fit > config.fitSignatureMaxSize then
    some (.error "Total size too large")
  else
    match fdtGetprop fit rounds noffset (chars "algo") with
    | none => none
    | some none => some (.error "Can't get hash algo property")
    | some (some algo) =>
      match fdtGetprop fit rounds noffset (chars "padding"),
        fdtGetprop fit rounds noffset (chars "key-name-hint") with
      | some _, some keyname =>
        if knownAlgo config fit algo.data then some (.ok keyname)
        else some (.error "Unknown signature algorithm")
      | _, _ => none

def fitImageHashGetValue (noffset : Int) : Option (Except String (List UInt8)) :=
  (fdtGetprop fit rounds noffset (chars "value")).map fun value =>
    match value with
    | none => .error "Can't get hash value property"
    | some value => .ok (propBytes fit value)

def verifyRegions (noffset requiredKeynode : Int) (keyname : Option FdtProp)
    (regions : List (List UInt8)) (value : List UInt8) : Option (Except String Unit) :=
  (rsaVerifyHash rounds keyBlob requiredKeynode (hintName fit keyname)
    fun keynode => ok keynode noffset regions value).map fun accepted =>
      if accepted then .ok () else .error "Verification failed"

def fitImageCheckSig (noffset : Int) (data : List UInt8) (requiredKeynode : Int) :
    Option (Except String Unit) :=
  match fitImageSetupVerify config rounds fit noffset with
  | none => none
  | some (.error message) => some (.error message)
  | some (.ok keyname) =>
    match fitImageHashGetValue rounds fit noffset with
    | none => none
    | some (.error message) => some (.error message)
    | some (.ok value) =>
      verifyRegions ok rounds fit keyBlob noffset requiredKeynode keyname [data] value

inductive SigSearch
  | unverified
  | verified
  | badName
  deriving DecidableEq

def imageSigBody (data : List UInt8) (noffset : Int) (s : SigSearch) :
    Option (ForInStep SigSearch) :=
  match fdtGetName fit noffset with
  | none => none
  | some name =>
    if (0x40 : UInt8) ∈ name then
      some (.done .badName)
    else if name.take FIT_SIG_NODENAME.length = FIT_SIG_NODENAME then
      match fitImageCheckSig config ok rounds fit keyBlob noffset data (-1) with
      | none => none
      | some (.error _) => some (.yield s)
      | some (.ok _) => some (.done .verified)
    else
      some (.yield s)

def fitImageVerifySig (imageNoffset : Int) (data : List UInt8) (_keyOffset : Int) : Option Int :=
  match eachSubnode fit rounds imageNoffset
      (imageSigBody config ok rounds fit keyBlob data) .unverified with
  | none => none
  | some (_, .badName) => some (-1)
  | some (noffset, s) =>
    if noffset = -FDT_ERR_TRUNCATED ∨ noffset = -FDT_ERR_BADSTRUCTURE then some (-1)
    else some (if s = .verified then 0 else -EPERM)

abbrev KeySearch := Except Int Nat

def requiredSigBody (imageNoffset : Int) (data : List UInt8) (noffset : Int) (s : KeySearch) :
    Option (ForInStep KeySearch) :=
  match propIs keyBlob rounds noffset (chars "required") (chars "image") with
  | none => none
  | some false => some (.yield s)
  | some true =>
    match fitImageVerifySig config ok rounds fit keyBlob imageNoffset data noffset with
    | none => none
    | some ret => if ret ≠ 0 then some (.done (.error ret)) else some (.yield (s.map (· + 1)))

/-- The result and `no_sigs`. -/
def fitImageVerifyRequiredSigs (imageNoffset : Int) (data : List UInt8) : Option (Int × Bool) :=
  match fdtSubnodeOffset keyBlob rounds 0 FIT_SIG_NODENAME with
  | none => none
  | some keyNode =>
    if keyNode < 0 then
      some (0, true)
    else
      match eachSubnode keyBlob rounds keyNode
          (requiredSigBody config ok rounds fit keyBlob imageNoffset data) (.ok 0) with
      | none => none
      | some (_, .error ret) => some (ret, true)
      | some (_, .ok verifyCount) => some (0, verifyCount = 0)

end Fit

end UBoot
