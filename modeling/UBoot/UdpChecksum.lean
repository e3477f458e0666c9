import Mathlib.Algebra.BigOperators.Group.List.Basic
import Mathlib.Algebra.GroupWithZero.Nat
import UBoot.Common

/-!
# The UDP checksum

`net_process_received_packet` adds the pseudo header and the words of a UDP datagram,
folds the carries and passes the datagram on if the sum is zero in one's complement.
A last odd byte is not padded with zero, as RFC 768 has it, but with itself.
-/

namespace UBoot

open List

/-- A UDP datagram that has passed the check of its length: the addresses, and the bytes from
`udp_src` on, of which there are `udp_len`. -/
structure UdpDatagram where
  src : BitVec 32
  dst : BitVec 32
  bytes : List UInt8
  header : 8 ≤ bytes.length
  udpLen : (bytes.getD 4 0).toNat * 256 + (bytes.getD 5 0).toNat = bytes.length

def IPPROTO_UDP : Nat := 17

variable (d : UdpDatagram)

/-- The field `udp_xsum` in network order. -/
def UdpDatagram.udpXsum : List UInt8 := (d.bytes.drop 6).take 2

/-- The loop over the bytes, and the last one behind it.  The sum stays below `2 ^ 32`. -/
def addWords : (xsum : Nat) → List UInt8 → Nat
  | xsum, [] => xsum
  | xsum, [last] => xsum + (last.toNat * 256 + last.toNat)
  | xsum, high :: low :: bytes => addWords (xsum + (high.toNat * 256 + low.toNat)) bytes

def UdpDatagram.pseudoHeader : List Nat :=
  [IPPROTO_UDP, d.bytes.length, d.src.toNat / 2 ^ 16, d.src.toNat % 2 ^ 16,
    d.dst.toNat / 2 ^ 16, d.dst.toNat % 2 ^ 16]

def foldCarries : (rounds xsum : Nat) → Option Nat
  | 0, _ => none
  | rounds + 1, xsum =>
    if xsum / 2 ^ 16 ≠ 0 then foldCarries rounds (xsum % 2 ^ 16 + xsum / 2 ^ 16 % 2 ^ 16)
    else some xsum

def UdpDatagram.passedOn (rounds : Nat) : Option Bool :=
  if d.udpXsum = [0, 0] then some true
  else (foldCarries rounds (addWords d.pseudoHeader.sum d.bytes)).map fun xsum =>
    xsum = 0 ∨ xsum = 0xffff

/-! ## One's complement -/

def onesAdd (a b : Nat) : Nat := (a + b) % 2 ^ 16 + (a + b) / 2 ^ 16

def words : List UInt8 → List Nat
  | [] => []
  | [last] => [last.toNat * 256]
  | high :: low :: bytes => (high.toNat * 256 + low.toNat) :: words bytes

def UdpDatagram.onesSum : Nat := (d.pseudoHeader ++ words d.bytes).foldl onesAdd 0

def oddByte : List UInt8 → Nat
  | [] => 0
  | [last] => last.toNat
  | _ :: _ :: bytes => oddByte bytes

theorem addWords_eq (xsum : Nat) (bytes : List UInt8) :
    addWords xsum bytes = xsum + (words bytes).sum + oddByte bytes := by
  fun_induction addWords xsum bytes with
  | case1 xsum => simp [words, oddByte]
  | case2 xsum last =>
    simp only [words, oddByte, sum_singleton]
    omega
  | case3 xsum high low bytes ih =>
    simp only [words, oddByte, sum_cons]
    omega

theorem UdpDatagram.length_lt : d.bytes.length < 2 ^ 16 := by
  have high := (d.bytes.getD 4 0).toNat_lt
  have low := (d.bytes.getD 5 0).toNat_lt
  have told := d.udpLen
  omega

theorem words_bounds (bytes : List UInt8) : (∀ word ∈ words bytes, word < 2 ^ 16) ∧
    2 * (words bytes).sum ≤ 65535 * (bytes.length + 1) ∧ oddByte bytes < 2 ^ 8 := by
  fun_induction words bytes with
  | case1 => simp [oddByte]
  | case2 last =>
    have bound := last.toNat_lt
    simp only [forall_mem_singleton, sum_singleton, length_singleton, oddByte]
    omega
  | case3 high low bytes ih =>
    have bound := high.toNat_lt
    have bound' := low.toNat_lt
    rw [forall_mem_cons, sum_cons, length_cons, length_cons, oddByte]
    refine ⟨⟨by omega, ih.1⟩, by omega, ih.2.2⟩

/-- One round keeps the sum modulo `65535`, and a second one leaves no carry. -/
theorem carry_round {xsum : Nat} (small : xsum < 2 ^ 32) :
    (xsum % 2 ^ 16 + xsum / 2 ^ 16 % 2 ^ 16) % 65535 = xsum % 65535 ∧
      xsum % 2 ^ 16 + xsum / 2 ^ 16 % 2 ^ 16 ≤ 2 * 65535 ∧
      (xsum ≤ 2 * 65535 → xsum % 2 ^ 16 + xsum / 2 ^ 16 % 2 ^ 16 < 2 ^ 16) ∧
      (0 < xsum → 0 < xsum % 2 ^ 16 + xsum / 2 ^ 16 % 2 ^ 16) := by
  rw [Nat.mod_eq_of_lt (by omega : xsum / 2 ^ 16 < 2 ^ 16)]
  omega

theorem foldCarries_spec {xsum rounds : Nat} (small : xsum < 2 ^ 32) (enough : 3 ≤ rounds) :
    ∃ folded, foldCarries rounds xsum = some folded ∧ folded < 2 ^ 16 ∧
      folded % 65535 = xsum % 65535 ∧ (0 < xsum → 0 < folded) := by
  obtain ⟨rounds, rfl⟩ : ∃ k, rounds = k + 3 := ⟨rounds - 3, by omega⟩
  have first := carry_round small
  have second := carry_round (by omega)
  rw [foldCarries]
  split
  · rw [foldCarries]
    split
    · rw [foldCarries, if_neg (by omega)]
      exact ⟨_, rfl, by omega, by omega, by omega⟩
    · exact ⟨_, rfl, by omega, by omega, by omega⟩
  · exact ⟨_, rfl, by omega, rfl, id⟩

theorem foldl_onesAdd {start : Nat} {terms : List Nat} (less : start < 2 ^ 16)
    (small : ∀ term ∈ terms, term < 2 ^ 16) :
    terms.foldl onesAdd start < 2 ^ 16 ∧
      terms.foldl onesAdd start % 65535 = (start + terms.sum) % 65535 ∧
      (0 < start + terms.sum → 0 < terms.foldl onesAdd start) := by
  induction terms generalizing start with
  | nil => exact ⟨less, rfl, id⟩
  | cons term terms ih =>
    obtain ⟨first, rest⟩ := forall_mem_cons.1 small
    have carry : onesAdd start term < 2 ^ 16 ∧ onesAdd start term % 65535 = (start + term) % 65535 ∧
        (0 < start + term → 0 < onesAdd start term) := by
      unfold onesAdd
      omega
    have folded := ih carry.1 rest
    rw [foldl_cons, sum_cons]
    omega

/-- A datagram with a checksum is passed on exactly if its one's complement sum is zero, if
and only if it has no odd byte, the odd byte is zero, or the sum is not zero with and
without it. -/
theorem passedOn_iff_onesSum_iff (checked : d.udpXsum ≠ [0, 0]) :
    ∃ passed, (∀ rounds, 3 ≤ rounds → d.passedOn rounds = some passed) ∧
      ((passed = true ↔ d.onesSum = 0 ∨ d.onesSum = 0xffff) ↔
        oddByte d.bytes = 0 ∨ d.onesSum % 65535 ≠ 0 ∧
          (d.onesSum + oddByte d.bytes) % 65535 ≠ 0) := by
  have short := d.length_lt
  obtain ⟨small, bound, odd⟩ := words_bounds d.bytes
  have pseudo : (∀ word ∈ d.pseudoHeader, word < 2 ^ 16) ∧ 0 < d.pseudoHeader.sum ∧
      d.pseudoHeader.sum ≤ 6 * 65535 := by
    have src := d.src.isLt
    have dst := d.dst.isLt
    simp only [UdpDatagram.pseudoHeader, IPPROTO_UDP, forall_mem_cons, sum_cons, sum_nil]
    refine ⟨⟨by omega, by omega, by omega, by omega, by omega, by omega, nofun⟩, by omega, by omega⟩
  obtain ⟨less, modulo, positive⟩ := foldl_onesAdd (Nat.two_pow_pos 16)
    (forall_mem_append.2 ⟨pseudo.1, small⟩)
  rw [sum_append, Nat.zero_add] at modulo positive
  change d.onesSum < 2 ^ 16 at less
  change d.onesSum % 65535 = _ at modulo
  refine ⟨(d.onesSum + oddByte d.bytes) % 65535 = 0, fun rounds enough => ?_, ?_⟩
  · unfold UdpDatagram.passedOn
    rw [if_neg checked, addWords_eq]
    obtain ⟨folded, run, foldedLess, same, -⟩ :=
      foldCarries_spec (show d.pseudoHeader.sum + (words d.bytes).sum + oddByte d.bytes < 2 ^ 32 by
        omega) enough
    rw [run, Option.map_some]
    congr 2
    apply propext
    omega
  · rw [decide_eq_true_eq]
    omega

def damagedDatagram : UdpDatagram where
  src := 0
  dst := 0
  bytes := [0, 0, 0, 0, 0, 9, 1, 2, 7]
  header := by decide
  udpLen := by decide

theorem passedOn_damagedDatagram : ∃ passed, damagedDatagram.passedOn 3 = some passed ∧
    (passed = true ↔ damagedDatagram.onesSum = 0 ∨ damagedDatagram.onesSum = 0xffff) := by
  obtain ⟨passed, run, exact⟩ := passedOn_iff_onesSum_iff damagedDatagram (by decide)
  exact ⟨passed, run 3 (Nat.le_refl 3), exact.2 (.inr (by decide))⟩

def oddDatagram : UdpDatagram where
  src := 0
  dst := 0
  bytes := [0, 0, 0, 0, 0, 9, 0xfe, 0xdc, 1]
  header := by decide
  udpLen := by decide

theorem oddDatagram_rejected :
    oddDatagram.onesSum = 0xffff ∧ oddDatagram.passedOn 3 = some false := by decide

end UBoot
