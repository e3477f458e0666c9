import UBoot.Montgomery
import UBoot.RsaModExp

/-!
# The exponentiation computes a power

The words of an array are the digits of a number in base `2 ^ 32`.  Each function
on arrays computes a function on these numbers: the add step is a Montgomery step
with the lazy reduction, so a whole multiplication is a Montgomery product.
-/

namespace UBoot

open List Nat RsaPublicKey Montgomery UInt32

def wordsNat (words : List UInt32) : Nat := ofDigits (2 ^ 32) (words.map toNat)

@[simp]
theorem wordsNat_nil : wordsNat [] = 0 := rfl

theorem wordsNat_cons (word : UInt32) (words : List UInt32) :
    wordsNat (word :: words) = word.toNat + 2 ^ 32 * wordsNat words := by
  unfold wordsNat
  rw [map_cons, ofDigits_cons]

theorem wordsNat_append (low high : List UInt32) :
    wordsNat (low ++ high) = wordsNat low + (2 ^ 32) ^ low.length * wordsNat high := by
  unfold wordsNat
  rw [map_append, ofDigits_append, length_map]

theorem wordsNat_lt (words : List UInt32) : wordsNat words < (2 ^ 32) ^ words.length := by
  have bound : wordsNat words < (2 ^ 32) ^ (words.map toNat).length := by
    apply ofDigits_lt_base_pow_length (by norm_num)
    intro digit inWords
    obtain ⟨word, -, rfl⟩ := mem_map.1 inWords
    exact word.toNat_lt
  rwa [length_map] at bound

theorem wordsNat_replicate_zero (n : Nat) : wordsNat (replicate n 0) = 0 := by
  induction n with
  | zero => rfl
  | succ n ih =>
    rw [replicate_succ, wordsNat_cons, ih]
    rfl

theorem mulAdd_lt (a b : UInt32) {carry addend : Nat} (carryLt : carry < 2 ^ 32)
    (addendLt : addend < 2 ^ 32) : carry + a.toNat * b.toNat + addend < 2 ^ 64 := by
  have aLt := a.toNat_lt
  have bLt := b.toNat_lt
  have product : a.toNat * b.toNat ≤ (2 ^ 32 - 1) * (2 ^ 32 - 1) :=
    Nat.mul_le_mul (by omega) (by omega)
  omega

theorem toNat_ofNat_u32 (n : Nat) : (ofNat n).toNat = n % 2 ^ 32 := toNat_ofNat'

theorem fits64_of_lt {sum : Nat} (less : sum < 2 ^ 64) : fits64 sum = true := decide_eq_true less

structure MulAdd.Sums (out : MulAdd) (length sum : Nat) : Prop where
  fits : out.fits = true
  length_words : out.words.length = length
  accA_lt : out.accA < 2 ^ 64
  accB_lt : out.accB < 2 ^ 64
  total : wordsNat out.words + (2 ^ 32) ^ length * (out.accA / 2 ^ 32 + out.accB / 2 ^ 32) = sum

theorem mulAddLoop_cons (a d0 b r m : UInt32) (bs result modulus : List UInt32) {accA accB : Nat}
    (accALt : accA < 2 ^ 64) (accBLt : accB < 2 ^ 64) :
    ∃ sumA sumB, sumA = accA / 2 ^ 32 + a.toNat * b.toNat + r.toNat ∧
      sumB = accB / 2 ^ 32 + d0.toNat * m.toNat + sumA % 2 ^ 32 ∧
      sumA < 2 ^ 64 ∧ sumB < 2 ^ 64 ∧
      mulAddLoop a d0 (b :: bs) (r :: result) (m :: modulus) accA accB =
        { mulAddLoop a d0 bs result modulus sumA sumB with
          words := ofNat sumB :: (mulAddLoop a d0 bs result modulus sumA sumB).words } := by
  have fitsA : accA / 2 ^ 32 + a.toNat * b.toNat + r.toNat < 2 ^ 64 :=
    mulAdd_lt a b (by omega) r.toNat_lt
  have fitsB : accB / 2 ^ 32 + d0.toNat * m.toNat +
      (accA / 2 ^ 32 + a.toNat * b.toNat + r.toNat) % 2 ^ 32 < 2 ^ 64 :=
    mulAdd_lt d0 m (by omega) (mod_lt _ (by norm_num))
  refine ⟨_, _, rfl, rfl, fitsA, fitsB, ?_⟩
  rw [mulAddLoop]
  simp only [shiftRight_eq_div_pow, toNat_ofNat_u32, mod_eq_of_lt fitsA,
    mod_eq_of_lt fitsB, fits64_of_lt fitsA, fits64_of_lt fitsB, Bool.true_and]

theorem round_total {base w high a d0 b bs r rs m ms carryA carryB sumA sumB : Nat}
    (total : w + high = sumA / base + sumB / base + a * bs + rs + d0 * ms)
    (sumAEq : sumA = carryA + a * b + r) (sumBEq : sumB = carryB + d0 * m + sumA % base) :
    sumB % base + base * w + base * high =
      carryA + carryB + a * (b + base * bs) + (r + base * rs) + d0 * (m + base * ms) := by
  have divA := div_add_mod sumA base
  have divB := div_add_mod sumB base
  calc sumB % base + base * w + base * high
      = sumB % base + base * (w + high) := by ring
    _ = (base * (sumB / base) + sumB % base) + base * (sumA / base) +
          base * (a * bs + rs + d0 * ms) := by
        rw [total]
        ring
    _ = carryB + d0 * m + (base * (sumA / base) + sumA % base) +
          base * (a * bs + rs + d0 * ms) := by
        linarith
    _ = _ := by
        rw [divA, sumAEq]
        ring

variable {result modulus : List UInt32}

theorem mulAddLoop_sums (a d0 : UInt32) {bs : List UInt32}
    (resultLength : result.length = bs.length) (modulusLength : modulus.length = bs.length)
    {accA accB : Nat} (accALt : accA < 2 ^ 64) (accBLt : accB < 2 ^ 64) :
    (mulAddLoop a d0 bs result modulus accA accB).Sums bs.length
      (accA / 2 ^ 32 + accB / 2 ^ 32 + a.toNat * wordsNat bs + wordsNat result +
        d0.toNat * wordsNat modulus) := by
  induction bs generalizing result modulus accA accB with
  | nil =>
    rw [length_nil, length_eq_zero_iff] at resultLength modulusLength
    subst resultLength modulusLength
    constructor
    · rfl
    · rfl
    · exact accALt
    · exact accBLt
    · simp [mulAddLoop]
  | cons b bs ih =>
    cases result with
    | nil => simp at resultLength
    | cons r result =>
      cases modulus with
      | nil => simp at modulusLength
      | cons m modulus =>
        obtain ⟨sumA, sumB, sumAEq, sumBEq, fitsA, fitsB, round⟩ :=
          mulAddLoop_cons a d0 b r m bs result modulus accALt accBLt
        have rest := ih (succ.inj resultLength) (succ.inj modulusLength) fitsA fitsB
        rw [round]
        constructor
        · exact rest.fits
        · exact congrArg succ rest.length_words
        · exact rest.accA_lt
        · exact rest.accB_lt
        · rw [wordsNat_cons, wordsNat_cons, wordsNat_cons, wordsNat_cons, toNat_ofNat_u32,
            length_cons, pow_succ' (2 ^ 32), mul_assoc]
          exact round_total rest.total sumAEq sumBEq

theorem toNat_ofInt_u32 (x : Int) : ((ofInt x).toNat : Int) = x % 2 ^ 32 := by
  rw [ofInt, toNat_ofNat_u32]
  omega

theorem int64_eq {x : Int} (low : -(2 ^ 32) ≤ x) (high : x < 2 ^ 32) : int64 x = x := by
  apply Int.bmod_eq_of_le
  · norm_num
    omega
  · norm_num
    omega

/-- The words of a difference are those of the numbers' difference, with a borrow
from above. -/
structure WordArray.Differs (out : WordArray) (length : Nat) (difference : Int) : Prop where
  fits : out.fits = true
  length_words : out.words.length = length
  total : ∃ borrow : Int, (borrow = 0 ∨ borrow = -1) ∧
    wordsNat out.words + ((2 ^ 32) ^ length : Nat) * borrow = difference

theorem borrow_total {base w high num nums m ms acc sum : Int}
    (total : w + high = nums - ms + sum / base) (sumEq : acc + (num - m) = sum) :
    sum % base + base * w + base * high = num + base * nums - (m + base * ms) + acc := by
  have parts := Int.mul_ediv_add_emod sum base
  linear_combination base * total + parts - sumEq

theorem subtractLoop_differs {nums : List UInt32} (sameLength : modulus.length = nums.length)
    {acc : Int} (borrows : acc = 0 ∨ acc = -1) :
    (subtractLoop nums modulus acc).Differs nums.length
      (wordsNat nums - wordsNat modulus + acc) := by
  induction nums generalizing modulus acc with
  | nil =>
    rw [length_nil, length_eq_zero_iff] at sameLength
    subst sameLength
    constructor
    · rfl
    · rfl
    · exact ⟨acc, borrows, by simp [subtractLoop]⟩
  | cons num nums ih =>
    cases modulus with
    | nil => simp at sameLength
    | cons m modulus =>
      have numLt := num.toNat_lt
      have mLt := m.toNat_lt
      have exact : int64 (acc + (num.toNat - m.toNat)) = acc + (num.toNat - m.toNat) :=
        int64_eq (by omega) (by omega)
      generalize sumEq : acc + ((num.toNat : Int) - m.toNat) = sum at *
      have carry : sum >>> (32 : Nat) = 0 ∨ sum >>> (32 : Nat) = -1 := by
        rw [Int.shiftRight_eq_div_pow]
        omega
      have rest := ih (succ.inj sameLength) carry
      have round : subtractLoop (num :: nums) (m :: modulus) acc =
          { words := ofInt sum :: (subtractLoop nums modulus (sum >>> (32 : Nat))).words
            fits := (subtractLoop nums modulus (sum >>> (32 : Nat))).fits } := by
        rw [subtractLoop]
        simp [sumEq, exact]
      rw [round]
      constructor
      · exact rest.fits
      · exact congrArg succ rest.length_words
      obtain ⟨borrow, isBorrow, total⟩ := rest.total
      refine ⟨borrow, isBorrow, ?_⟩
      rw [wordsNat_cons, wordsNat_cons, wordsNat_cons, length_cons,
        pow_succ' (2 ^ 32), cast_mul, mul_assoc, cast_add, cast_mul,
        cast_add, cast_mul, cast_add, cast_mul, toNat_ofInt_u32]
      apply borrow_total _ sumEq
      rw [total, Int.shiftRight_eq_div_pow]
      rfl

variable {num : List UInt32} (key : RsaPublicKey)

theorem subtractModulus_fits (size : num.length = key.len) :
    (subtractModulus key num).fits = true ∧ (subtractModulus key num).words.length = key.len := by
  have differs := subtractLoop_differs (key.length_modulus.trans size.symm) (Or.inl rfl)
  exact ⟨differs.fits, differs.length_words.trans size⟩

variable {key : RsaPublicKey}

theorem wordsNat_subtractModulus (size : num.length = key.len) :
    wordsNat (subtractModulus key num).words + wordsNat key.modulus =
      wordsNat num + if wordsNat num < wordsNat key.modulus then (2 ^ 32) ^ key.len else 0 := by
  have differs := subtractLoop_differs (key.length_modulus.trans size.symm) (Or.inl rfl)
  obtain ⟨borrow, isBorrow, total⟩ := differs.total
  have outLt := wordsNat_lt (subtractModulus key num).words
  rw [(subtractModulus_fits key size).2] at outLt
  rw [size] at total
  unfold subtractModulus at *
  generalize (2 ^ 32) ^ key.len = limit at *
  rcases isBorrow with rfl | rfl <;> split <;> omega

namespace RsaPublicKey

def n : Nat := wordsNat key.modulus

def limit : Nat := (2 ^ 32) ^ key.len

theorem n_lt_limit : key.n < key.limit := by
  have bound := wordsNat_lt key.modulus
  rwa [key.length_modulus] at bound

def stepNat (factor result digit : Nat) : Nat :=
  reduce key.n key.limit (step (2 ^ 32) key.n key.n0inv.toNat factor result digit)

end RsaPublicKey

structure WordArray.Holds (out : WordArray) (length value : Nat) : Prop where
  fits : out.fits = true
  length_words : out.words.length = length
  value : wordsNat out.words = value

theorem exists_cons_of_length {α : Type} {list : List α} {length : Nat}
    (size : list.length = length + 1) :
    ∃ first rest, list = first :: rest ∧ rest.length = length := by
  cases list with
  | nil => simp at size
  | cons first rest => exact ⟨first, rest, rfl, succ.inj size⟩

variable {b : List UInt32}

theorem mulAddWords_sums {length : Nat} (size : key.len = length + 1)
    (resultSize : result.length = key.len) (bSize : b.length = key.len)
    (a : UInt32) (isInverse : 2 ^ 32 ∣ key.n0inv.toNat * key.n + 1) :
    (mulAddWords key result a b).Sums length
      (step (2 ^ 32) key.n key.n0inv.toNat (wordsNat b) (wordsNat result) a.toNat) := by
  obtain ⟨b0, bs, rfl, bsSize⟩ := exists_cons_of_length (bSize.trans size)
  obtain ⟨r0, rs, rfl, rsSize⟩ := exists_cons_of_length (resultSize.trans size)
  obtain ⟨m0, ms, modulusEq, msSize⟩ := exists_cons_of_length (key.length_modulus.trans size)
  have fitsA : a.toNat * b0.toNat + r0.toNat < 2 ^ 64 := by
    have := mulAdd_lt a b0 (show 0 < 2 ^ 32 by norm_num) r0.toNat_lt
    omega
  unfold mulAddWords
  simp only [modulusEq, headD_cons, tail_cons, mod_eq_of_lt fitsA,
    fits64_of_lt fitsA, Bool.true_and, toNat_ofNat_u32]
  generalize sumAEq : a.toNat * b0.toNat + r0.toNat = sumA at *
  have d0Eq : (ofNat sumA * key.n0inv).toNat = quotient (2 ^ 32) key.n0inv.toNat
      (wordsNat (r0 :: rs) + a.toNat * wordsNat (b0 :: bs)) := by
    have lowest : wordsNat (r0 :: rs) + a.toNat * wordsNat (b0 :: bs) =
        sumA + 2 ^ 32 * (wordsNat rs + a.toNat * wordsNat bs) := by
      rw [wordsNat_cons, wordsNat_cons, ← sumAEq]
      ring
    rw [quotient, lowest, add_mul_mod_self_left, UInt32.toNat_mul, toNat_ofNat_u32]
  generalize ofNat sumA * key.n0inv = d0 at *
  have fitsB : d0.toNat * m0.toNat + sumA % 2 ^ 32 < 2 ^ 64 := by
    have := mulAdd_lt d0 m0 (show 0 < 2 ^ 32 by norm_num)
      (mod_lt sumA (show 0 < 2 ^ 32 by norm_num))
    omega
  simp only [mod_eq_of_lt fitsB, fits64_of_lt fitsB, Bool.true_and]
  generalize sumBEq : d0.toNat * m0.toNat + sumA % 2 ^ 32 = sumB at *
  have sums := mulAddLoop_sums a d0 (rsSize.trans bsSize.symm) (msSize.trans bsSize.symm) fitsA
    fitsB
  rw [bsSize] at sums
  generalize mulAddLoop a d0 bs rs ms sumA sumB = loop at *
  change loop.Sums length _
  constructor
  · exact sums.fits
  · exact sums.length_words
  · exact sums.accA_lt
  · exact sums.accB_lt
  have sumAZero : sumA = 0 + a.toNat * b0.toNat + r0.toNat := by omega
  have sumBZero : sumB = 0 + d0.toNat * m0.toNat + sumA % 2 ^ 32 := by omega
  have total := round_total sums.total sumAZero sumBZero
  have whole := base_mul_step isInverse (wordsNat (b0 :: bs)) (wordsNat (r0 :: rs)) a.toNat
  generalize step (2 ^ 32) key.n key.n0inv.toNat (wordsNat (b0 :: bs))
    (wordsNat (r0 :: rs)) a.toNat = value at *
  rw [← d0Eq, n, modulusEq, wordsNat_cons, wordsNat_cons, wordsNat_cons] at whole
  omega

theorem montgomeryMulAddStep_holds (positive : 0 < key.len)
    (resultSize : result.length = key.len) (bSize : b.length = key.len)
    (a : UInt32) (isInverse : 2 ^ 32 ∣ key.n0inv.toNat * key.n + 1) :
    (montgomeryMulAddStep key result a b).Holds key.len
      (key.stepNat (wordsNat b) (wordsNat result) a.toNat) := by
  obtain ⟨length, size⟩ : ∃ length, key.len = length + 1 := ⟨key.len - 1, by omega⟩
  have sums := mulAddWords_sums size resultSize bSize a isInverse
  have bLt := wordsNat_lt b
  have resultLt := wordsNat_lt result
  rw [bSize] at bLt
  rw [resultSize] at resultLt
  have stepLt := step_lt isInverse (show 0 < 2 ^ 32 by norm_num) resultLt a.toNat_lt bLt
  rw [← limit] at stepLt
  have nLt := key.n_lt_limit
  unfold stepNat
  generalize step (2 ^ 32) key.n key.n0inv.toNat (wordsNat b) (wordsNat result) a.toNat = total at *
  unfold montgomeryMulAddStep
  generalize mulAddWords key result a b = loop at *
  have accALt := sums.accA_lt
  have accBLt := sums.accB_lt
  have fits : loop.accA / 2 ^ 32 + loop.accB / 2 ^ 32 < 2 ^ 64 := by omega
  have totalEq := sums.total
  simp only [shiftRight_eq_div_pow, mod_eq_of_lt fits, fits64_of_lt fits, sums.fits, Bool.true_and]
  generalize loop.accA / 2 ^ 32 + loop.accB / 2 ^ 32 = sum at *
  have wordsSize : (loop.words ++ [ofNat sum]).length = key.len := by
    rw [length_append, sums.length_words, size]
    rfl
  have value : wordsNat (loop.words ++ [ofNat sum]) + key.limit * (sum / 2 ^ 32) = total := by
    have parts := div_add_mod sum (2 ^ 32)
    rw [wordsNat_append, wordsNat_cons, wordsNat_nil, toNat_ofNat_u32, sums.length_words,
      limit, size, pow_succ (2 ^ 32) length, ← totalEq]
    calc _ = wordsNat loop.words +
          (2 ^ 32) ^ length * (2 ^ 32 * (sum / 2 ^ 32) + sum % 2 ^ 32) := by ring
      _ = _ := by rw [parts]
  have wordsLt := wordsNat_lt (loop.words ++ [ofNat sum])
  rw [wordsSize, ← limit] at wordsLt
  generalize loop.words ++ [ofNat sum] = words at *
  unfold reduce
  by_cases carried : sum / 2 ^ 32 = 0
  · rw [if_neg (not_not_intro carried)]
    rw [carried, Nat.mul_zero, Nat.add_zero] at value
    exact ⟨rfl, wordsSize, by rw [if_neg (by omega), value]⟩
  rw [if_pos carried]
  have once : sum / 2 ^ 32 = 1 := by
    by_contra more
    have twice : key.limit * 2 ≤ key.limit * (sum / 2 ^ 32) :=
      Nat.mul_le_mul_left key.limit (by omega)
    omega
  rw [once, Nat.mul_one] at value
  have difference := wordsNat_subtractModulus wordsSize
  rw [← limit, ← n, if_pos (by omega)] at difference
  obtain ⟨subtractFits, subtractSize⟩ := subtractModulus_fits key wordsSize
  refine ⟨subtractFits, subtractSize, ?_⟩
  change wordsNat (subtractModulus key words).words = _
  rw [if_pos (by omega)]
  omega

theorem montgomeryMul_holds (positive : 0 < key.len) (a : List UInt32) (bSize : b.length = key.len)
    (isInverse : 2 ^ 32 ∣ key.n0inv.toNat * key.n + 1) :
    (montgomeryMul key a b).Holds key.len
      (product (2 ^ 32) key.n key.n0inv.toNat key.limit (wordsNat b) 0 (a.map toNat)) := by
  unfold montgomeryMul
  have start : WordArray.Holds { words := replicate key.len 0, fits := true } key.len 0 :=
    ⟨rfl, length_replicate, wordsNat_replicate_zero key.len⟩
  generalize (0 : Nat) = value at start ⊢
  generalize { words := replicate key.len 0, fits := true : WordArray } = result at start ⊢
  induction a generalizing value result with
  | nil => exact start
  | cons digit a ih =>
    apply ih
    have next := montgomeryMulAddStep_holds positive start.length_words bSize digit isInverse
    rw [start.value] at next
    exact ⟨by simp [start.fits, next.fits], next.length_words, next.value⟩

theorem greaterEqualLoop_eq {nums : List UInt32} (size : modulus.length = nums.length) :
    greaterEqualLoop nums modulus = decide (wordsNat modulus.reverse ≤ wordsNat nums.reverse) := by
  induction nums generalizing modulus with
  | nil =>
    rw [length_nil, length_eq_zero_iff] at size
    subst size
    rfl
  | cons num nums ih =>
    cases modulus with
    | nil => simp at size
    | cons m modulus =>
      have numsLt := wordsNat_lt nums.reverse
      have modulusLt := wordsNat_lt modulus.reverse
      have tailSize : modulus.length = nums.length := succ.inj size
      rw [length_reverse] at numsLt modulusLt
      rw [greaterEqualLoop, reverse_cons, reverse_cons, wordsNat_append,
        wordsNat_append, wordsNat_cons, wordsNat_cons, wordsNat_nil, length_reverse,
        length_reverse, ih tailSize, tailSize]
      rw [tailSize] at modulusLt
      generalize (2 ^ 32) ^ nums.length = power at *
      simp only [lt_iff_toNat_lt, Nat.mul_zero, Nat.add_zero]
      split
      case isTrue less =>
        have products : power * (num.toNat + 1) ≤ power * m.toNat := Nat.mul_le_mul_left power less
        rw [Nat.mul_add] at products
        symm
        apply decide_eq_false
        omega
      case isFalse notLess =>
        split
        case isTrue more =>
          have products : power * (m.toNat + 1) ≤ power * num.toNat :=
            Nat.mul_le_mul_left power more
          rw [Nat.mul_add] at products
          symm
          apply decide_eq_true
          omega
        case isFalse notMore =>
          have same : num.toNat = m.toNat := by omega
          rw [same]
          simp

theorem greaterEqualModulus_eq (size : num.length = key.len) :
    greaterEqualModulus key num = decide (key.n ≤ wordsNat num) := by
  unfold greaterEqualModulus n
  rw [greaterEqualLoop_eq (by rw [length_reverse, length_reverse, size, key.length_modulus]),
    reverse_reverse, reverse_reverse]

end UBoot
