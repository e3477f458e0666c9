import Mathlib.NumberTheory.LucasLehmer
import UBoot.HashTable

/-!
# The size of the environment hash table

`hcreate_r` takes the first number accepted by `isprime` as the size of a new
table.  As long as slot numbers fit an `int`, `isprime` is a correct primality
test of odd numbers, except for 3, and the search for a size ends: the largest
number below `2 ^ 31` is a prime.
-/

namespace UBoot

open Nat

section Isprime

variable {number : Nat}

/-- The divisors tried so far: odd numbers whose squares are below the number
and that do not divide it. -/
structure DivisorsTried (number div : Nat) : Prop where
  odd : div % 2 = 1
  large : 3 ≤ div
  below : div = 3 ∨ (div - 2) * (div - 2) < number
  none : ∀ d, 3 ≤ d → d % 2 = 1 → d < div → number % d ≠ 0

theorem DivisorsTried.start : DivisorsTried number 3 where
  odd := rfl
  large := Nat.le_refl 3
  below := Or.inl rfl
  none := by
    intro d large _ below
    omega

variable {div : Nat}

theorem DivisorsTried.next (tried : DivisorsTried number div)
    (small : div * div < number) (notDivisor : number % div ≠ 0) :
    DivisorsTried number (div + 2) where
  odd := by
    have odd := tried.odd
    omega
  large := by
    have large := tried.large
    omega
  below := Or.inr small
  none := by
    intro d large odd below
    have divOdd := tried.odd
    by_cases earlier : d < div
    · exact tried.none d large odd earlier
    · have last : d = div := by omega
      rw [last]
      exact notDivisor

theorem DivisorsTried.div_le (tried : DivisorsTried number div)
    (bound : number < 2 ^ 31) : div ≤ 46342 := by
  rcases tried.below with first | square
  · omega
  by_contra large
  have side : 46341 ≤ div - 2 := by omega
  have product := Nat.mul_le_mul side side
  omega

theorem DivisorsTried.square_mod (tried : DivisorsTried number div)
    (bound : number < 2 ^ 31) : div * div % 2 ^ 32 = div * div := by
  have le := tried.div_le bound
  have product := Nat.mul_le_mul le le
  exact mod_eq_of_lt (by omega)

theorem exists_isprimeLoop (bound : number < 2 ^ 31) (fuel div) (tried : DivisorsTried number div)
    (enough : 46344 ≤ div + 2 * fuel) :
    ∃ last, isprimeLoop number fuel div = some last ∧ DivisorsTried number last ∧
      (number ≤ last * last ∨ number % last = 0) := by
  induction fuel generalizing div with
  | zero =>
    have le := tried.div_le bound
    omega
  | succ fuel ih =>
    unfold isprimeLoop
    rw [tried.square_mod bound]
    split_ifs with more
    · exact ih (div + 2) (tried.next more.1 more.2) (by omega)
    · refine ⟨div, rfl, tried, ?_⟩
      rw [not_and_or, not_lt, not_not] at more
      exact more

theorem prime_of_divisorsTried (tried : DivisorsTried number div)
    (odd : number % 2 = 1) (large : 5 ≤ number) (square : number ≤ div * div)
    (notDivisor : number % div ≠ 0) : number.Prime := by
  by_contra composite
  have factorPrime : number.minFac.Prime := minFac_prime (by omega)
  have factorDvd := number.minFac_dvd
  have factorOdd : number.minFac % 2 = 1 := by
    rcases factorPrime.eq_two_or_odd with two | isOdd
    · rw [two] at factorDvd
      omega
    · exact isOdd
  have factorLarge := factorPrime.two_le
  have factorSquare : number.minFac ^ 2 ≤ number := minFac_sq_le_self (by omega) composite
  have factorLe : number.minFac ≤ div := by
    rw [← Nat.mul_self_le_mul_self_iff, ← pow_two]
    exact factorSquare.trans square
  rcases Nat.eq_or_lt_of_le factorLe with same | before
  · rw [same] at factorDvd
    exact notDivisor (mod_eq_zero_of_dvd factorDvd)
  · exact tried.none _ (by omega) factorOdd before (mod_eq_zero_of_dvd factorDvd)

theorem not_prime_of_divisorsTried (tried : DivisorsTried number div)
    (large : 5 ≤ number) (divisor : number % div = 0) : ¬ number.Prime := by
  intro prime
  have divLarge := tried.large
  have divides := dvd_of_mod_eq_zero divisor
  rcases (dvd_prime prime).1 divides with one | same
  · omega
  rcases tried.below with three | square
  · omega
  · have product : 3 * (div - 2) ≤ (div - 2) * (div - 2) := Nat.mul_le_mul_right _ (by omega)
    omega

theorem isprime_eq (odd : number % 2 = 1) (large : 5 ≤ number)
    (bound : number < 2 ^ 31) : isprime number = some (decide number.Prime) := by
  obtain ⟨last, result, tried, ended⟩ :=
    exists_isprimeLoop bound (2 ^ 16) 3 DivisorsTried.start (by norm_num)
  unfold isprime
  rw [result]
  by_cases divisor : number % last = 0
  · have composite := not_prime_of_divisorsTried tried large divisor
    simp [divisor, composite]
  · have square : number ≤ last * last := ended.resolve_right divisor
    have prime := prime_of_divisorsTried tried odd large square divisor
    simp [divisor, prime]

end Isprime

section Size

theorem prime_int_max : Nat.Prime 2147483647 := by
  have lucasLehmer := lucas_lehmer_sufficiency 31 (by norm_num) (by norm_num)
  simpa [mersenne] using lucasLehmer

theorem exists_primeSearch (fuel nel) (odd : nel % 2 = 1) (large : 5 ≤ nel) (bound : nel < 2 ^ 31)
    (enough : 2 ^ 31 ≤ nel + 2 * fuel) :
    ∃ size, primeSearch fuel nel = some size ∧ size.Prime ∧ nel ≤ size := by
  induction fuel generalizing nel with
  | zero => omega
  | succ fuel ih =>
    unfold primeSearch
    rw [isprime_eq odd large bound]
    by_cases prime : nel.Prime
    · exact ⟨nel, by simp [prime], prime, Nat.le_refl nel⟩
    have notMax : nel ≠ 2147483647 := by
      intro same
      exact prime (same ▸ prime_int_max)
    obtain ⟨size, result, sizePrime, le⟩ := ih (nel + 2) (by omega) (by omega) (by omega) (by omega)
    exact ⟨size, by simpa [prime] using result, sizePrime, by omega⟩

theorem primeSearch_three (fuel : Nat) : primeSearch (fuel + 1) 3 = primeSearch fuel 5 := by rfl

/-- `hcreate_r` creates an empty table of prime size, large enough for the
elements. -/
theorem exists_hcreateR {nel : Nat} (large : 2 ≤ nel) (bound : nel < 2 ^ 31) :
    ∃ htab, hcreateR nel = some htab ∧ htab.size.Prime ∧ 5 ≤ htab.size ∧
      nel ≤ htab.size ∧ htab.filled = 0 ∧
      htab.table = List.replicate (htab.size + 1) ⟨USED_FREE, ⟨none, none⟩⟩ := by
  have odd : (nel ||| 1) % 2 = 1 := by simp [or_mod_two_eq_one]
  have le : nel ≤ nel ||| 1 := left_le_or
  have oddBound : nel ||| 1 < 2 ^ 31 := or_lt_two_pow bound (by norm_num)
  have search : ∃ size, primeSearch (2 ^ 31) (nel ||| 1) = some size ∧
      size.Prime ∧ 5 ≤ size ∧ nel ≤ size := by
    by_cases three : nel ||| 1 = 3
    · obtain ⟨size, result, prime, sizeLe⟩ :=
        exists_primeSearch (2 ^ 31 - 1) 5 rfl (by omega) (by norm_num) (by omega)
      refine ⟨size, ?_, prime, by omega, by omega⟩
      rw [three]
      exact (primeSearch_three (2 ^ 31 - 1)).trans result
    · obtain ⟨size, result, prime, sizeLe⟩ :=
        exists_primeSearch (2 ^ 31) (nel ||| 1) odd (by omega) oddBound (by omega)
      exact ⟨size, result, prime, by omega, by omega⟩
  obtain ⟨size, result, prime, sizeLarge, sizeLe⟩ := search
  refine ⟨⟨List.replicate (size + 1) ⟨USED_FREE, ⟨none, none⟩⟩, size, 0⟩, ?_, prime,
    sizeLarge, sizeLe, rfl, rfl⟩
  unfold hcreateR
  rw [result]
  rfl

theorem le_size_of_hcreateR {nel : Nat} (large : 2 ≤ nel) (bound : nel < 2 ^ 31)
    {htab : HsearchData} (result : hcreateR nel = some htab) : nel ≤ htab.size := by
  obtain ⟨created, creation, -, -, le, -⟩ := exists_hcreateR large bound
  rw [creation] at result
  cases result
  exact le

end Size

end UBoot
