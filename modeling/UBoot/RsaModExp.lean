import UBoot.ByteMemory

/-!
# Modular exponentiation for RSA

The software exponentiation of `lib/rsa/rsa-mod-exp.c`.  Numbers are arrays of
`key->len` words, the lowest word first; accumulators are 64 bits wide.  Beside
its words each function tells whether all sums it put into an accumulator fitted
there.
-/

namespace UBoot

def RSA_MAX_KEY_BITS : Nat := 4096

structure RsaPublicKey where
  len : Nat
  n0inv : UInt32
  modulus : List UInt32
  rr : List UInt32
  exponent : UInt64
  length_modulus : modulus.length = len
  length_rr : rr.length = len

structure WordArray where
  words : List UInt32
  fits : Bool
  deriving DecidableEq

/-- A sum that a `uint64_t` can hold. -/
def fits64 (sum : Nat) : Bool := sum < 2 ^ 64

/-- The value of an `int64_t` that is assigned a number. -/
def int64 (x : Int) : Int := x.bmod (2 ^ 64)

def subtractLoop : List UInt32 → List UInt32 → Int → WordArray
  | num :: nums, m :: modulus, acc =>
    let sum := acc + (num.toNat - m.toNat)
    let acc := int64 sum
    let rest := subtractLoop nums modulus (acc >>> (32 : Nat))
    { words := UInt32.ofInt acc :: rest.words
      fits := int64 sum == sum && rest.fits }
  | nums, _, _ => { words := nums, fits := true }

variable (key : RsaPublicKey)

def subtractModulus (num : List UInt32) : WordArray := subtractLoop num key.modulus 0

def greaterEqualLoop : List UInt32 → List UInt32 → Bool
  | num :: nums, m :: modulus =>
    if num < m then false
    else if m < num then true
    else greaterEqualLoop nums modulus
  | _, _ => true

def greaterEqualModulus (num : List UInt32) : Bool :=
  greaterEqualLoop num.reverse key.modulus.reverse

/-- What the loop of `montgomery_mul_add_step` leaves: the words written and the
accumulators. -/
structure MulAdd where
  words : List UInt32
  accA : Nat
  accB : Nat
  fits : Bool

/-- The loop of `montgomery_mul_add_step` over the words from the second on. -/
def mulAddLoop (a d0 : UInt32) : List UInt32 → List UInt32 → List UInt32 → Nat → Nat → MulAdd
  | b :: bs, r :: result, m :: modulus, accA, accB =>
    let sumA := accA >>> 32 + a.toNat * b.toNat + r.toNat
    let accA := sumA % 2 ^ 64
    let sumB := accB >>> 32 + d0.toNat * m.toNat + (UInt32.ofNat accA).toNat
    let accB := sumB % 2 ^ 64
    let rest := mulAddLoop a d0 bs result modulus accA accB
    { rest with
      words := UInt32.ofNat accB :: rest.words
      fits := fits64 sumA && fits64 sumB && rest.fits }
  | _, _, _, accA, accB => { words := [], accA := accA, accB := accB, fits := true }

/-- The part of `montgomery_mul_add_step` up to the end of its loop. -/
def mulAddWords (result : List UInt32) (a : UInt32) (b : List UInt32) : MulAdd :=
  let sumA := a.toNat * (b.headD 0).toNat + (result.headD 0).toNat
  let accA := sumA % 2 ^ 64
  let d0 := UInt32.ofNat accA * key.n0inv
  let sumB := d0.toNat * (key.modulus.headD 0).toNat + (UInt32.ofNat accA).toNat
  let accB := sumB % 2 ^ 64
  let loop := mulAddLoop a d0 b.tail result.tail key.modulus.tail accA accB
  { loop with fits := fits64 sumA && fits64 sumB && loop.fits }

def montgomeryMulAddStep (result : List UInt32) (a : UInt32) (b : List UInt32) : WordArray :=
  let loop := mulAddWords key result a b
  let sum := loop.accA >>> 32 + loop.accB >>> 32
  let accA := sum % 2 ^ 64
  let words := loop.words ++ [UInt32.ofNat accA]
  let fits := loop.fits && fits64 sum
  if accA >>> 32 ≠ 0 then
    let reduced := subtractModulus key words
    { reduced with fits := fits && reduced.fits }
  else
    { words := words, fits := fits }

def montgomeryMul (a b : List UInt32) : WordArray :=
  a.foldl (fun result a =>
      let next := montgomeryMulAddStep key result.words a b
      { next with fits := result.fits && next.fits })
    { words := List.replicate key.len 0, fits := true }

/-- The loop of `num_public_exponent_bits`, with the number of rounds that remain. -/
def exponentBitsLoop : Nat → Nat → Nat → Option Nat
  | 0, _, _ => none
  | rounds + 1, exponentBits, exponent =>
    if exponent >>> 1 = 0 then
      some exponentBits
    else
      exponentBitsLoop rounds (exponentBits + 1) (exponent >>> 1)

def numPublicExponentBits : Option Nat :=
  if key.exponent = 0 then some 0
  else exponentBitsLoop 64 1 key.exponent.toNat

/-- The masked exponent is returned as an `int`, which keeps its low 32 bits. -/
def isPublicExponentBitSet (pos : Nat) : Bool := (key.exponent.toNat &&& 1 <<< pos) % 2 ^ 32 ≠ 0

/-- The loop of `pow_mod` over the exponent bits from `j` down to 1. -/
def powLoop (key : RsaPublicKey) (aScaled : List UInt32) : Nat → WordArray → WordArray
  | 0, acc => acc
  | j + 1, acc =>
    let tmp := montgomeryMul key acc.words acc.words
    let fits := acc.fits && tmp.fits
    if isPublicExponentBitSet key (j + 1) then
      let next := montgomeryMul key tmp.words aScaled
      powLoop key aScaled j { next with fits := fits && next.fits }
    else
      powLoop key aScaled j { tmp with fits := fits }

def wordsOfBytes : List UInt8 → List UInt32
  | a :: b :: c :: d :: bytes => UInt32.ofNat (leNat [d, c, b, a]) :: wordsOfBytes bytes
  | _ => []

def bytesOfWords (words : List UInt32) : List UInt8 :=
  words.flatMap fun word => (leBytes 4 word.toNat).reverse

/-- What `pow_mod` leaves in its buffer of bytes, and whether no accumulator
overflowed; `none` is the error `-EINVAL`. -/
def powMod (inout : List UInt8) : Option (List UInt8 × Bool) :=
  if key.len > RSA_MAX_KEY_BITS / 32 then
    none
  else
    let val := (wordsOfBytes (inout.take (4 * key.len))).reverse
    match numPublicExponentBits key with
    | none => none
    | some k =>
      if k < 2 then
        none
      else if !isPublicExponentBitSet key 0 then
        none
      else
        let scaled := montgomeryMul key val key.rr
        let acc := powLoop key scaled.words (k - 2) scaled
        let tmp := montgomeryMul key acc.words acc.words
        let result := montgomeryMul key tmp.words val
        let fits := acc.fits && tmp.fits && result.fits
        if greaterEqualModulus key result.words then
          let reduced := subtractModulus key result.words
          some (bytesOfWords reduced.words.reverse ++ inout.drop (4 * key.len),
            fits && reduced.fits)
        else
          some (bytesOfWords result.words.reverse ++ inout.drop (4 * key.len), fits)

end UBoot
