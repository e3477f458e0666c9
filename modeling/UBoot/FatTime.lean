import Mathlib.Data.Nat.Bitwise

/-!
# Time stamps of FAT directory entries

`fs/fat/fat_write.c` packs the time of the clock into the date and time words of
a directory entry and `fs/fat/fat.c` unpacks them. The day of the week and of
the year and the summer time flag have no place in the words and are left out.
-/

namespace UBoot

open Nat

structure RtcTime where
  sec : Nat
  min : Nat
  hour : Nat
  mday : Nat
  mon : Nat
  year : Nat
deriving DecidableEq

structure FatStamp where
  date : UInt16
  time : UInt16

def dentrySetTime : Option RtcTime → FatStamp
  | none => ⟨0x2821, 0⟩
  | some tm =>
    if tm.year < 1980 ∨ tm.year > 2107 then ⟨0x2821, 0⟩
    else
      { date := .ofNat ((tm.mday &&& 0x1f) ||| ((tm.mon &&& 0xf) <<< 5) |||
          ((tm.year - 1980) <<< 9))
        -- the source compares where it means to shift: `tm.tm_sec > 1`
        time := .ofNat ((decide (tm.sec > 1)).toNat ||| ((tm.min &&& 0x3f) <<< 5) |||
          (tm.hour <<< 11)) }

def fat2rtc (stamp : FatStamp) : RtcTime where
  mday := stamp.date.toNat &&& 0x1f
  mon := (stamp.date.toNat &&& 0x1e0) >>> 5
  year := (stamp.date.toNat >>> 9) + 1980
  sec := (stamp.time.toNat &&& 0x1f) <<< 1
  min := (stamp.time.toNat &&& 0x7e0) >>> 5
  hour := stamp.time.toNat >>> 11

/-- The fields of a time of day, and a day of the month that some month has. -/
structure RtcTime.Valid (tm : RtcTime) : Prop where
  sec : tm.sec < 60
  min : tm.min < 60
  hour : tm.hour < 24
  mday : 1 ≤ tm.mday ∧ tm.mday ≤ 31
  mon : 1 ≤ tm.mon ∧ tm.mon ≤ 12

theorem or_shiftLeft_eq_add {low width : Nat} (high : Nat) (fits : low < 2 ^ width) :
    low ||| high <<< width = high * 2 ^ width + low := by
  rw [Nat.or_comm, ← shiftLeft_add_eq_or_of_lt fits, shiftLeft_eq]

/-- A mask of `width` bits from bit 5 on, as the reader applies it. -/
theorem and_shiftRight_eq (word width : Nat) :
    (word &&& (2 ^ width - 1) <<< 5) >>> 5 = word / 2 ^ 5 % 2 ^ width := by
  rw [shiftRight_and_distrib, shiftLeft_shiftRight, and_two_pow_sub_one_eq_mod,
    shiftRight_eq_div_pow]

theorem fat2rtc_dentrySetTime {tm : RtcTime} (valid : tm.Valid)
    (early : 1980 ≤ tm.year) (late : tm.year ≤ 2107) :
    fat2rtc (dentrySetTime (some tm)) = { tm with sec := 2 * (decide (tm.sec > 1)).toNat } := by
  obtain ⟨-, minute, hour, day, month⟩ := valid
  have inRange : ¬ (tm.year < 1980 ∨ tm.year > 2107) := by omega
  have bit := Bool.toNat_lt (decide (tm.sec > 1))
  have low (n : Nat) : n &&& 0x1f = n % 2 ^ 5 := and_two_pow_sub_one_eq_mod n 5
  have four (n : Nat) : n &&& 0xf = n % 2 ^ 4 := and_two_pow_sub_one_eq_mod n 4
  have six (n : Nat) : n &&& 0x3f = n % 2 ^ 6 := and_two_pow_sub_one_eq_mod n 6
  have readMon (n : Nat) : (n &&& 0x1e0) >>> 5 = n / 2 ^ 5 % 2 ^ 4 := and_shiftRight_eq n 4
  have readMin (n : Nat) : (n &&& 0x7e0) >>> 5 = n / 2 ^ 5 % 2 ^ 6 := and_shiftRight_eq n 6
  rw [dentrySetTime, if_neg inRange]
  simp (disch := omega) only [fat2rtc, UInt16.toNat_ofNat', low, four, six, or_shiftLeft_eq_add,
    readMon, readMin]
  simp only [shiftRight_eq_div_pow, shiftLeft_eq, RtcTime.mk.injEq]
  omega

/-- The stamp reads back with its second rounded down to an even number exactly
in the first four seconds of a minute. -/
theorem fat2rtc_dentrySetTime_iff (tm : RtcTime) (valid : tm.Valid)
    (early : 1980 ≤ tm.year) (late : tm.year ≤ 2107) :
    fat2rtc (dentrySetTime (some tm)) = { tm with sec := tm.sec / 2 * 2 } ↔ tm.sec < 4 := by
  rw [fat2rtc_dentrySetTime valid early late, RtcTime.mk.injEq]
  by_cases above : tm.sec > 1 <;> simp [above] <;> omega

theorem fat2rtc_dentrySetTime_iff_second_three :
    fat2rtc (dentrySetTime (some ⟨3, 59, 23, 31, 12, 2107⟩)) = ⟨2, 59, 23, 31, 12, 2107⟩ :=
  (fat2rtc_dentrySetTime_iff ⟨3, 59, 23, 31, 12, 2107⟩
    ⟨by decide, by decide, by decide, by decide, by decide⟩ (by decide) (by decide)).2 (by decide)

/-- Noon and thirty seconds is read back as noon and two seconds. -/
theorem fat2rtc_loses_seconds :
    fat2rtc (dentrySetTime (some ⟨30, 0, 12, 1, 1, 2024⟩)) = ⟨2, 0, 12, 1, 1, 2024⟩ ∧
      RtcTime.Valid ⟨30, 0, 12, 1, 1, 2024⟩ :=
  ⟨by decide, by decide, by decide, by decide, by decide, by decide⟩

end UBoot
