import Mathlib.Data.Nat.Bitwise
import UBoot.RsaModExpCorrect

/-!
# The public exponentiation

`pow_mod` squares and multiplies over the bits of the exponent from the top.  It
asks for a bit through a function that returns an `int`, which loses the bits from
32 on, so the power that it computes is the one for the exponent without them,
its highest bit apart.
-/

namespace UBoot

open List Nat RsaPublicKey

theorem wordsOfBytes_spec {bytes : List UInt8} {length : Nat} (size : bytes.length = 4 * length) :
    (wordsOfBytes bytes).length = length ∧
      wordsNat (wordsOfBytes bytes).reverse = leNat bytes.reverse := by
  induction length generalizing bytes with
  | zero =>
    rw [mul_zero, length_eq_zero_iff] at size
    subst size
    exact ⟨rfl, rfl⟩
  | succ length ih =>
    match bytes, size with
    | a :: b :: c :: d :: bytes, size =>
      have restSize : bytes.length = 4 * length := by
        simp only [length_cons] at size
        omega
      obtain ⟨wordsSize, value⟩ := ih restSize
      have wordLt : leNat [d, c, b, a] < 2 ^ 32 := by
        have bound := leNat_lt [d, c, b, a]
        rwa [show 256 ^ [d, c, b, a].length = 2 ^ 32 by norm_num] at bound
      rw [wordsOfBytes]
      constructor
      · rw [length_cons, wordsSize]
      have bytesEq : (a :: b :: c :: d :: bytes).reverse = bytes.reverse ++ [d, c, b, a] := by simp
      have powers : (2 ^ 32) ^ length = 256 ^ (4 * length) := by
        rw [pow_mul]
        norm_num
      rw [reverse_cons, wordsNat_append, value, bytesEq, leNat_append, wordsNat_cons,
        wordsNat_nil, toNat_ofNat_u32, length_reverse, length_reverse, wordsSize,
        restSize, powers, mod_eq_of_lt wordLt]
      rfl

theorem length_bytesOfWords (words : List UInt32) :
    (bytesOfWords words).length = 4 * words.length := by
  induction words with
  | nil => rfl
  | cons word words ih =>
    rw [bytesOfWords, flatMap_cons, ← bytesOfWords, length_append, ih,
      length_reverse, length_leBytes, length_cons]
    omega

theorem leNat_bytesOfWords (words : List UInt32) :
    leNat (bytesOfWords words).reverse = wordsNat words.reverse := by
  induction words with
  | nil => rfl
  | cons word words ih =>
    have powers : (2 ^ 32) ^ words.length = 256 ^ (4 * words.length) := by
      rw [pow_mul]
      norm_num
    have wordLt : word.toNat < 256 ^ 4 := word.toNat_lt
    rw [bytesOfWords, flatMap_cons, ← bytesOfWords, reverse_append, reverse_reverse,
      leNat_append, ih, leNat_leBytes, mod_eq_of_lt wordLt, length_reverse,
      length_bytesOfWords, reverse_cons, wordsNat_append, wordsNat_cons, wordsNat_nil,
      length_reverse, powers]
    rfl

theorem exponentBitsLoop_eq {rounds exponent : Nat} (exponentBits : Nat) (positive : 0 < exponent)
    (small : exponent < 2 ^ rounds) :
    exponentBitsLoop rounds exponentBits exponent = some (exponentBits + log2 exponent) := by
  induction rounds generalizing exponentBits exponent with
  | zero => omega
  | succ rounds ih =>
    rw [exponentBitsLoop, log2_def, shiftRight_one]
    by_cases last : exponent / 2 = 0
    · rw [if_pos last, if_neg (by omega)]
      rfl
    · rw [if_neg last, if_pos (by omega), ih (exponentBits + 1) (by omega) (by omega)]
      congr 1
      omega

theorem isPublicExponentBitSet_eq (key : RsaPublicKey) (pos : Nat) :
    isPublicExponentBitSet key pos = (decide (pos < 32) && key.exponent.toNat.testBit pos) := by
  unfold isPublicExponentBitSet
  rw [one_shiftLeft, and_two_pow]
  by_cases low : pos < 32
  · have powerLt : 2 ^ pos < 2 ^ 32 := Nat.pow_lt_pow_right (by norm_num) low
    cases key.exponent.toNat.testBit pos with
    | false => simp
    | true =>
      rw [Bool.toNat_true, one_mul, mod_eq_of_lt powerLt]
      simp [low]
  · obtain ⟨more, rfl⟩ := Nat.exists_eq_add_of_le (Nat.le_of_not_lt low)
    rw [pow_add, ← mul_assoc, mul_comm _ (2 ^ 32), mul_assoc, mul_mod_right]
    simp

/-- The exponent that `pow_mod` reads: the highest bit and the low 32 bits below it. -/
def effectiveExponent (e : Nat) : Nat := 2 ^ log2 e + e % 2 ^ log2 e % 2 ^ 32

variable {e : Nat}

theorem two_pow_log2_add_mod (positive : 0 < e) : 2 ^ log2 e + e % 2 ^ log2 e = e := by
  have low := log2_self_le positive.ne'
  have high := lt_log2_self (n := e)
  have quotient : e / 2 ^ log2 e = 1 := by
    apply Nat.div_eq_of_lt_le
    · omega
    · rw [pow_succ] at high
      omega
  have parts := div_add_mod e (2 ^ log2 e)
  rw [quotient] at parts
  omega

theorem effectiveExponent_of_lt (positive : 0 < e) (small : e < 2 ^ 33) :
    effectiveExponent e = e := by
  have bits : log2 e ≤ 32 := le_of_lt_succ ((log2_lt positive.ne').2 small)
  have powers : 2 ^ log2 e ≤ 2 ^ 32 := Nat.pow_le_pow_right (by norm_num) bits
  have rest := mod_lt e (Nat.two_pow_pos (log2 e))
  rw [effectiveExponent, mod_eq_of_lt (by omega), two_pow_log2_add_mod positive]

section EffectiveExponent

variable {e : Nat}

theorem effectiveExponent_shift : effectiveExponent e / 2 ^ log2 e = 1 := by
  have rest : e % 2 ^ log2 e % 2 ^ 32 < 2 ^ log2 e :=
    lt_of_le_of_lt (mod_le _ _) (mod_lt e (Nat.two_pow_pos _))
  unfold effectiveExponent
  rw [Nat.add_div_of_dvd_right (Nat.dvd_refl _), Nat.div_self (Nat.two_pow_pos _),
    div_eq_of_lt rest]

theorem testBit_effectiveExponent {pos : Nat} (below : pos < log2 e) :
    (effectiveExponent e).testBit pos = (decide (pos < 32) && e.testBit pos) := by
  unfold effectiveExponent
  rw [testBit_two_pow_add_gt below, testBit_mod_two_pow, testBit_mod_two_pow]
  simp [below]

theorem shift_step (f pos : Nat) :
    f / 2 ^ pos = 2 * (f / 2 ^ (pos + 1)) + (f.testBit pos).toNat := by
  rw [pow_succ, ← Nat.div_div_eq_div_mul, testBit_eq_decide_div_mod_eq]
  have bit : (decide (f / 2 ^ pos % 2 = 1)).toNat = f / 2 ^ pos % 2 := by
    rcases mod_two_eq_zero_or_one (f / 2 ^ pos) with even | odd
    · rw [even]
      rfl
    · rw [odd]
      rfl
  omega

end EffectiveExponent

namespace RsaPublicKey

/-- A key as the tools make it, for a modulus that uses all its words. -/
structure Valid (key : RsaPublicKey) : Prop where
  len_le : key.len ≤ RSA_MAX_KEY_BITS / 32
  odd : key.n % 2 = 1
  n_gt : 2 ^ (32 * key.len - 1) < key.n
  n0inv_eq : (key.n0inv.toNat * key.n + 1) % 2 ^ 32 = 0
  rr_eq : wordsNat key.rr = 2 ^ (64 * key.len) % key.n
  exponent_odd : key.exponent.toNat % 2 = 1
  exponent_ge : 3 ≤ key.exponent.toNat

namespace Valid

variable {key : RsaPublicKey}

theorem len_pos (valid : key.Valid) : 0 < key.len := by
  by_contra empty
  have small := key.n_lt_limit
  have odd := valid.odd
  rw [limit, show key.len = 0 by omega, pow_zero] at small
  omega

theorem isInverse (valid : key.Valid) : 2 ^ 32 ∣ key.n0inv.toNat * key.n + 1 :=
  dvd_of_mod_eq_zero valid.n0inv_eq

theorem limit_eq (key : RsaPublicKey) : key.limit = 2 ^ (32 * key.len) := by rw [limit, ← pow_mul]

theorem limit_lt (valid : key.Valid) : key.limit < 2 * key.n := by
  have half := valid.n_gt
  have positive := valid.len_pos
  rw [limit_eq, show 32 * key.len = (32 * key.len - 1) + 1 by omega, pow_succ]
  omega

theorem isUnit_limit (valid : key.Valid) : IsUnit (key.limit : ZMod key.n) := by
  rw [ZMod.isUnit_iff_coprime, limit_eq]
  apply Nat.Coprime.pow_left
  rw [coprime_two_left, odd_iff]
  exact valid.odd

theorem rr_cast (valid : key.Valid) : (wordsNat key.rr : ZMod key.n) = key.limit * key.limit := by
  rw [valid.rr_eq, ZMod.natCast_mod, limit_eq, ← cast_mul, ← pow_add]
  congr 2
  omega

theorem montgomeryMul_cast (valid : key.Valid) {a b : List UInt32} (aSize : a.length = key.len)
    (bSize : b.length = key.len) :
    (key.limit : ZMod key.n) * wordsNat (montgomeryMul key a b).words =
      wordsNat a * wordsNat b := by
  have holds := montgomeryMul_holds valid.len_pos a bSize valid.isInverse
  have product := Montgomery.product_cast valid.isInverse key.n_lt_limit.le (wordsNat b)
    (a.map UInt32.toNat) 0
  rw [length_map, aSize, cast_zero, zero_add] at product
  rw [holds.value, limit, cast_pow]
  exact product

end Valid

structure Scaled (key : RsaPublicKey) (v : ZMod key.n) (x : Nat) (acc : WordArray) : Prop where
  fits : acc.fits = true
  length_words : acc.words.length = key.len
  value : (wordsNat acc.words : ZMod key.n) = v ^ x * key.limit

namespace Scaled

variable {key : RsaPublicKey} {v : ZMod key.n} {x y : Nat} {acc factor : WordArray}

theorem mul (valid : key.Valid) (scaled : key.Scaled v x acc)
    (scaledFactor : key.Scaled v y factor) :
    key.Scaled v (x + y) (montgomeryMul key acc.words factor.words) := by
  have holds := montgomeryMul_holds valid.len_pos acc.words scaledFactor.length_words
    valid.isInverse
  have product := valid.montgomeryMul_cast scaled.length_words scaledFactor.length_words
  constructor
  · exact holds.fits
  · exact holds.length_words
  · apply valid.isUnit_limit.mul_left_cancel
    rw [product, scaled.value, scaledFactor.value, pow_add]
    ring

theorem of_fits (scaled : key.Scaled v x acc) (fits : Bool) (allFit : fits = true) :
    key.Scaled v x { acc with fits := fits } :=
  ⟨allFit, scaled.length_words, scaled.value⟩

theorem powLoop (valid : key.Valid) (scaledFactor : key.Scaled v 1 factor) {j : Nat}
    (below : j < log2 key.exponent.toNat)
    (scaled : key.Scaled v (effectiveExponent key.exponent.toNat / 2 ^ (j + 1)) acc) :
    key.Scaled v (effectiveExponent key.exponent.toNat / 2 ^ 1)
      (UBoot.powLoop key factor.words j acc) := by
  induction j generalizing acc with
  | zero => exact scaled
  | succ j ih =>
    have squared := scaled.mul valid scaled
    have bit := testBit_effectiveExponent below
    have exponent := shift_step (effectiveExponent key.exponent.toNat) (j + 1)
    rw [bit, ← isPublicExponentBitSet_eq] at exponent
    rw [UBoot.powLoop]
    cases isSet : isPublicExponentBitSet key (j + 1) with
    | true =>
      have multiplied := squared.mul valid scaledFactor
      rw [isSet, Bool.toNat_true, two_mul] at exponent
      apply ih (by omega)
      rw [exponent]
      apply multiplied.of_fits
      rw [scaled.fits, squared.fits, multiplied.fits]
      rfl
    | false =>
      rw [isSet, Bool.toNat_false, two_mul, add_zero] at exponent
      apply ih (by omega)
      rw [exponent]
      apply squared.of_fits
      rw [scaled.fits, squared.fits]
      rfl

end Scaled
end RsaPublicKey

variable {key : RsaPublicKey}

theorem numPublicExponentBits_eq (valid : key.Valid) :
    numPublicExponentBits key = some (1 + log2 key.exponent.toNat) := by
  have atLeast := valid.exponent_ge
  unfold numPublicExponentBits
  rw [if_neg]
  · exact exponentBitsLoop_eq 1 (by omega) key.exponent.toNat_lt
  · intro isZero
    rw [isZero] at atLeast
    simp at atLeast

theorem log2_pos (atLeast : 3 ≤ e) : 0 < log2 e := by
  rw [log2_def, if_pos (by omega)]
  exact succ_pos _

theorem effectiveExponent_odd (odd : e % 2 = 1) (atLeast : 3 ≤ e) :
    effectiveExponent e = effectiveExponent e / 2 ^ 1 + effectiveExponent e / 2 ^ 1 + 1 := by
  have bit := testBit_effectiveExponent (log2_pos atLeast)
  have last := shift_step (effectiveExponent e) 0
  have oddBit : e.testBit 0 = true := by
    rw [testBit_zero]
    exact decide_eq_true odd
  rw [bit, oddBit] at last
  simp only [pow_zero, zero_add, show (0 : Nat) < 32 by norm_num, decide_true, Bool.and_self,
    Bool.toNat_true] at last
  omega

structure RsaPublicKey.Result (key : RsaPublicKey) (v : Nat) (result : WordArray) : Prop where
  fits : result.fits = true
  length_words : result.words.length = key.len
  value : wordsNat result.words % key.n = v ^ effectiveExponent key.exponent.toNat % key.n

theorem powLoop_result (valid : key.Valid) {val : List UInt32}
    (size : val.length = key.len) {scaled acc tmp : WordArray}
    (scaledEq : scaled = montgomeryMul key val key.rr)
    (accEq : acc = powLoop key scaled.words (1 + log2 key.exponent.toNat - 2) scaled)
    (tmpEq : tmp = montgomeryMul key acc.words acc.words) :
    acc.fits = true ∧ tmp.fits = true ∧
      key.Result (wordsNat val) (montgomeryMul key tmp.words val) := by
  have positive := log2_pos valid.exponent_ge
  have scaledHolds := montgomeryMul_holds valid.len_pos val key.length_rr valid.isInverse
  have isScaled : key.Scaled (wordsNat val) 1 scaled := by
    subst scaledEq
    constructor
    · exact scaledHolds.fits
    · exact scaledHolds.length_words
    · apply valid.isUnit_limit.mul_left_cancel
      rw [valid.montgomeryMul_cast size key.length_rr, valid.rr_cast]
      ring
  have accScaled :
      key.Scaled (wordsNat val) (effectiveExponent key.exponent.toNat / 2 ^ 1) acc := by
    subst accEq
    apply isScaled.powLoop valid
    · omega
    · rw [show 1 + log2 key.exponent.toNat - 2 + 1 = log2 key.exponent.toNat by omega,
        effectiveExponent_shift]
      exact isScaled
  have tmpScaled := accScaled.mul valid accScaled
  rw [← tmpEq] at tmpScaled
  have holds := montgomeryMul_holds valid.len_pos tmp.words size valid.isInverse
  refine ⟨accScaled.fits, tmpScaled.fits, holds.fits, holds.length_words, ?_⟩
  apply (ZMod.natCast_eq_natCast_iff' _ _ _).1
  apply valid.isUnit_limit.mul_left_cancel
  have exponentOdd := effectiveExponent_odd valid.exponent_odd valid.exponent_ge
  rw [valid.montgomeryMul_cast tmpScaled.length_words size, tmpScaled.value, cast_pow]
  generalize effectiveExponent key.exponent.toNat / 2 ^ 1 = half at exponentOdd ⊢
  rw [exponentOdd, pow_succ]
  ring

/-- What `pow_mod` leaves in a buffer of the key's length. -/
theorem powMod_eq (valid : key.Valid) {inout : List UInt8} (size : inout.length = 4 * key.len) :
    ∃ out, powMod key inout = some (out, true) ∧ out.length = inout.length ∧ leNat out.reverse =
        leNat inout.reverse ^ effectiveExponent key.exponent.toNat % key.n := by
  obtain ⟨valSize, valEq⟩ := wordsOfBytes_spec size
  have positive := log2_pos valid.exponent_ge
  have bitZero : isPublicExponentBitSet key 0 = true := by
    rw [isPublicExponentBitSet_eq, testBit_zero, decide_eq_true valid.exponent_odd]
    rfl
  have written {reduced : List UInt32} (reducedSize : reduced.length = key.len) :
      (bytesOfWords reduced.reverse).length = inout.length ∧
        leNat (bytesOfWords reduced.reverse).reverse = wordsNat reduced := by
    constructor
    · rw [length_bytesOfWords, length_reverse, reducedSize, size]
    · rw [leNat_bytesOfWords, reverse_reverse]
  unfold powMod
  rw [if_neg (by have := valid.len_le; omega), numPublicExponentBits_eq valid]
  simp only
  rw [if_neg (by omega), bitZero, if_neg (by simp), take_of_length_le size.le,
    drop_of_length_le size.le]
  obtain ⟨accFits, tmpFits, result⟩ := powLoop_result valid
    (show (wordsOfBytes inout).reverse.length = key.len by rw [length_reverse, valSize])
    rfl rfl rfl
  simp only [accFits, tmpFits, result.fits, greaterEqualModulus_eq result.length_words,
    Bool.and_self, Bool.true_and, append_nil, decide_eq_true_eq]
  rw [valEq] at result
  generalize montgomeryMul key _ (wordsOfBytes inout).reverse = out at result ⊢
  have outLt := wordsNat_lt out.words
  have limitLt := valid.limit_lt
  rw [result.length_words, ← limit] at outLt
  rw [← result.value]
  by_cases large : key.n ≤ wordsNat out.words
  · obtain ⟨subtractFits, subtractSize⟩ := subtractModulus_fits key result.length_words
    have difference := wordsNat_subtractModulus result.length_words
    rw [← n, if_neg (by omega)] at difference
    rw [if_pos large, subtractFits]
    refine ⟨_, rfl, (written subtractSize).1, ?_⟩
    rw [(written subtractSize).2, mod_eq_sub_mod large, mod_eq_of_lt (by omega)]
    omega
  · rw [if_neg large]
    refine ⟨_, rfl, (written result.length_words).1, ?_⟩
    rw [(written result.length_words).2, mod_eq_of_lt (by omega)]

/-- `pow_mod` succeeds without an overflow and leaves the power below the modulus. -/
def PowModExact (key : RsaPublicKey) (inout : List UInt8) : Prop :=
  ∃ out, powMod key inout = some (out, true) ∧ out.length = inout.length ∧
    leNat out.reverse = leNat inout.reverse ^ key.exponent.toNat % key.n

/-- The exponentiation is exact if and only if the exponent without its bits from
32 up to the one below the highest gives the same power. -/
theorem powModExact_iff (key : RsaPublicKey) (valid : key.Valid) (inout : List UInt8)
    (size : inout.length = 4 * key.len) :
    PowModExact key inout ↔ leNat inout.reverse ^ effectiveExponent key.exponent.toNat % key.n =
        leNat inout.reverse ^ key.exponent.toNat % key.n := by
  obtain ⟨out, computed, outSize, value⟩ := powMod_eq valid size
  constructor
  · intro exact
    obtain ⟨out', computed', -, value'⟩ := exact
    rw [computed] at computed'
    cases computed'
    rw [← value, value']
  · intro same
    exact ⟨out, computed, outSize, value.trans same⟩

/-- The key of 2048 bits with the modulus `2 ^ 2047 + 1`. -/
def RsaPublicKey.powerPlusOne (exponent : UInt64) : RsaPublicKey where
  len := 64
  n0inv := 0xffffffff
  modulus := 1 :: (replicate 62 0 ++ [0x80000000])
  rr := 4 :: replicate 63 0
  exponent := exponent
  length_modulus := rfl
  length_rr := rfl

theorem n_powerPlusOne (exponent : UInt64) :
    (powerPlusOne exponent).n = 2 ^ 2047 + 1 := by
  change wordsNat (1 :: (replicate 62 0 ++ [0x80000000])) = 2 ^ 2047 + 1
  decide +kernel

theorem two_pow_mod_powerPlusOne (rounds rest : Nat) :
    2 ^ (4094 * rounds + rest) % (2 ^ 2047 + 1) = 2 ^ rest % (2 ^ 2047 + 1) := by
  have period : 2 ^ 4094 ≡ 1 [MOD 2 ^ 2047 + 1] := by decide +kernel
  have repeated := (period.pow rounds).mul_right (2 ^ rest)
  rw [one_pow, one_mul, ← pow_mul, ← pow_add] at repeated
  exact repeated

theorem valid_powerPlusOne {exponent : UInt64} (odd : exponent.toNat % 2 = 1)
    (atLeast : 3 ≤ exponent.toNat) : (powerPlusOne exponent).Valid where
  len_le := show 64 ≤ RSA_MAX_KEY_BITS / 32 by decide
  odd := by
    rw [n_powerPlusOne]
    decide +kernel
  n_gt := by
    have bits : 32 * (powerPlusOne exponent).len - 1 = 2047 := rfl
    rw [n_powerPlusOne, bits]
    generalize 2 ^ 2047 = power
    exact lt_add_one power
  n0inv_eq := by
    rw [n_powerPlusOne]
    change ((0xffffffff : UInt32).toNat * (2 ^ 2047 + 1) + 1) % 2 ^ 32 = 0
    decide +kernel
  rr_eq := by
    have four : wordsNat (4 :: replicate 63 0) = 2 ^ 2 % (2 ^ 2047 + 1) := by decide +kernel
    have bits : 64 * (powerPlusOne exponent).len = 4094 * 1 + 2 := rfl
    rw [n_powerPlusOne, bits, two_pow_mod_powerPlusOne]
    exact four
  exponent_odd := odd
  exponent_ge := atLeast

def bufferOfTwo : List UInt8 := replicate 255 0 ++ [2]

theorem powModExact_iff_65537 : PowModExact (powerPlusOne 65537) bufferOfTwo :=
  (powModExact_iff (powerPlusOne 65537) (valid_powerPlusOne (by decide) (by decide))
    bufferOfTwo (by decide +kernel)).2
      (congrArg (fun e => leNat bufferOfTwo.reverse ^ e % (powerPlusOne 65537).n)
        (effectiveExponent_of_lt (by decide) (by decide)))

/-- With the exponent `2 ^ 33 + 2 ^ 32 + 1` the bit 32 is lost. -/
theorem not_powModExact_large_exponent :
    ¬ PowModExact (powerPlusOne 12884901889) bufferOfTwo := by
  intro exact
  obtain ⟨out', computed', -, value'⟩ := exact
  have valid : (powerPlusOne 12884901889).Valid := valid_powerPlusOne (by decide) (by decide)
  have size : bufferOfTwo.length = 4 * 64 := by decide +kernel
  obtain ⟨out, computed, -, value⟩ := powMod_eq valid size
  rw [computed] at computed'
  cases computed'
  rw [value', n_powerPlusOne] at value
  have two : leNat bufferOfTwo.reverse = 2 := by decide +kernel
  have full : (powerPlusOne 12884901889).exponent.toNat = 4094 * 3147264 + 3073 := by decide +kernel
  have kept : effectiveExponent (powerPlusOne 12884901889).exponent.toNat =
      4094 * 2098176 + 2049 := by
    decide
  rw [two, kept, full, two_pow_mod_powerPlusOne, two_pow_mod_powerPlusOne] at value
  revert value
  decide +kernel

end UBoot
