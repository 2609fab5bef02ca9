/-
# Deadlines of the timed operations

`Synchronized::wait(long)` and `Synchronized::lock(unsigned long)` compute the absolute
time they pass on to the thread library by two copies of the same lines. The copy in
`lock` divides the timeout as a signed number and takes its remainder as an unsigned one.
`long` and `time_t` have 64 bits here, and the clock is read by `clock_gettime`.
-/

import Mathlib

namespace ThreadPools.Posix

/-- `struct timespec` -/
structure Timespec where
  sec : Int64
  nsec : Int64
  deriving DecidableEq

/-- The time in nanoseconds. -/
def Timespec.nanos (ts : Timespec) : Int :=
  ts.sec.toInt * 10 ^ 9 + ts.nsec.toInt

/-- What `clock_gettime` returns, as long as the clock is so far from the end of `time_t`
that no timeout leads beyond it. -/
structure ClockReading extends Timespec where
  sec_nonneg : 0 ≤ sec.toInt
  sec_far : sec.toInt + 2 ^ 63 / 1000 + 1 < 2 ^ 63
  nsec_nonneg : 0 ≤ nsec.toInt
  nsec_lt : nsec.toInt < 10 ^ 9

namespace Synchronized

/-- The deadline of `Synchronized::wait(long timeout)`. -/
def waitDeadline (now : Timespec) (timeout : Int64) : Timespec :=
  let sec := now.sec + timeout / 1000
  let millis := now.nsec / 1000000 + timeout % 1000
  { sec := if 1000 ≤ millis then sec + 1 else sec
    nsec := millis % 1000 * 1000000 }

/-- The deadline of `Synchronized::lock(unsigned long timeout)`. -/
def lockDeadline (now : Timespec) (timeout : UInt64) : Timespec :=
  -- the cast to `time_t` binds stronger than the division
  let sec := now.sec + timeout.toInt64 / 1000
  let millis := ((now.nsec / 1000000).toUInt64 + timeout % 1000).toInt64
  { sec := if 1000 ≤ millis then sec + 1 else sec
    nsec := millis % 1000 * 1000000 }

/-- The deadline of `Lock::wait(long timeout)`; a negative timeout means to wait forever. -/
def lockedWaitDeadline (now : Timespec) (timeout : Int64) : Option Timespec :=
  if timeout < 0 then none else some (waitDeadline now timeout)

end Synchronized

/-- The deadline is a valid time, and it lies at most a millisecond before the end of the
timeout, and not behind it. -/
structure Timespec.MeetsTimeout (deadline : Timespec) (now : Timespec) (millis : Int) :
    Prop where
  nsec_nonneg : 0 ≤ deadline.nsec.toInt
  nsec_lt : deadline.nsec.toInt < 10 ^ 9
  late : now.nanos + millis * 10 ^ 6 - 10 ^ 6 < deadline.nanos
  early : deadline.nanos ≤ now.nanos + millis * 10 ^ 6

/-! ## Arithmetic of 64 bits -/

theorem toInt_add_of_bounds {first second : Int64}
    (hlower : -2 ^ 63 ≤ first.toInt + second.toInt)
    (hupper : first.toInt + second.toInt < 2 ^ 63) :
    (first + second).toInt = first.toInt + second.toInt := by
  rw [Int64.toInt_add]
  exact Int.bmod_eq_of_le hlower hupper

theorem toInt_div_thousand (number : Int64) :
    (number / 1000).toInt = number.toInt.tdiv 1000 :=
  Int64.toInt_div_of_ne_right number 1000 (by decide)

theorem tdiv_thousand_of_neg {number : Int} (hneg : number < 0) :
    number.tdiv 1000 = -(-number / 1000) := by
  rw [← Int.tdiv_eq_ediv_of_nonneg (by omega : 0 ≤ -number), Int.neg_tdiv, Int.neg_neg]

theorem toInt_mod_thousand (number : Int64) :
    (number % 1000).toInt = number.toInt.tmod 1000 :=
  Int64.toInt_mod number 1000

/-- An unsigned number below `2 ^ 63` is the same number when it is signed. -/
theorem toInt_toInt64_of_lt {number : UInt64} (hlt : number.toNat < 2 ^ 63) :
    number.toInt64.toInt = number.toNat := by
  change number.toBitVec.toInt = number.toBitVec.toNat
  exact BitVec.toInt_eq_toNat_of_lt (by change 2 * number.toNat < 2 ^ 64; omega)

/-- The others are negative when they are signed. -/
theorem toInt_toInt64_of_le {number : UInt64} (hle : 2 ^ 63 ≤ number.toNat) :
    number.toInt64.toInt < 0 := by
  have hlt : number.toNat < 2 ^ 64 := number.toNat_lt
  change number.toBitVec.toInt < 0
  rw [BitVec.toInt_eq_toNat_cond, if_neg (by change ¬ 2 * number.toNat < 2 ^ 64; omega)]
  change (number.toNat : Int) - 2 ^ 64 < 0
  omega

/-- The remainder of an unsigned number stays the same when it is signed. -/
theorem toInt_toInt64_mod_thousand (number : UInt64) :
    (number % 1000).toInt64.toInt = number.toNat % 1000 := by
  have hmod : (number % 1000).toNat = number.toNat % 1000 := UInt64.toNat_mod number 1000
  rw [toInt_toInt64_of_lt (by omega), hmod]
  omega

/-- The carry of the milliseconds into the seconds. -/
theorem carry (sec millis : Int64) (hlower : -2 ^ 63 ≤ sec.toInt)
    (hupper : sec.toInt + 1 < 2 ^ 63)
    (hnonneg : 0 ≤ millis.toInt) (hlt : millis.toInt < 2000) :
    (millis % 1000 * 1000000).toInt = millis.toInt % 1000 * 1000000 ∧
      (if 1000 ≤ millis then sec + 1 else sec).toInt = sec.toInt + millis.toInt / 1000 := by
  constructor
  · rw [Int64.toInt_mul, toInt_mod_thousand, Int.tmod_eq_emod_of_nonneg hnonneg]
    change (millis.toInt % 1000 * 1000000).bmod (2 ^ 64) = _
    apply Int.bmod_eq_of_le <;> omega
  · have hone : (1 : Int64).toInt = 1 := rfl
    have hle : 1000 ≤ millis ↔ 1000 ≤ millis.toInt := Int64.le_iff_toInt_le
    split
    · next hcarry =>
        rw [hle] at hcarry
        rw [toInt_add_of_bounds (by omega) (by omega)]
        omega
    · next hcarry =>
        rw [hle] at hcarry
        omega

namespace Synchronized

/-! ## The two deadlines -/

/-- Whole seconds and milliseconds are added to the clock correctly when they are split. -/
theorem meetsTimeout_of_split (now : ClockReading) (seconds : Int64) {sec millis : Int64}
    {rest : Int}
    (hsec : sec = now.sec + seconds) (hmillis : millis.toInt = now.nsec.toInt / 1000000 + rest)
    (hseconds : 0 ≤ seconds.toInt) (hfar : seconds.toInt ≤ 2 ^ 63 / 1000)
    (hrest : 0 ≤ rest) (hlt : rest < 1000) :
    Timespec.MeetsTimeout
      { sec := if 1000 ≤ millis then sec + 1 else sec, nsec := millis % 1000 * 1000000 }
      now.toTimespec (seconds.toInt * 1000 + rest) := by
  have hnonneg := now.sec_nonneg
  have hroom := now.sec_far
  have hnsec := now.nsec_nonneg
  have hnanos := now.nsec_lt
  have hsum : sec.toInt = now.sec.toInt + seconds.toInt := by
    rw [hsec]
    apply toInt_add_of_bounds <;> omega
  obtain ⟨hrem, hcarried⟩ :=
    carry sec millis (by omega) (by omega) (by omega) (by omega)
  refine ⟨?_, ?_, ?_, ?_⟩
  · rw [hrem]
    omega
  · rw [hrem]
    omega
  · simp only [Timespec.nanos, hrem, hcarried]
    omega
  · simp only [Timespec.nanos, hrem, hcarried]
    omega

theorem toInt_millis (now : ClockReading) :
    (now.nsec / 1000000).toInt = now.nsec.toInt / 1000000 := by
  rw [Int64.toInt_div_of_ne_right now.nsec 1000000 (by decide)]
  exact Int.tdiv_eq_ediv_of_nonneg now.nsec_nonneg

/-- `wait(long)` computes a correct deadline for every timeout it is called with. -/
theorem waitDeadline_meetsTimeout (now : ClockReading) (timeout : Int64)
    (hnonneg : 0 ≤ timeout.toInt) :
    (waitDeadline now.toTimespec timeout).MeetsTimeout now.toTimespec timeout.toInt := by
  have hrange := timeout.toInt_lt
  have hnsec := now.nsec_nonneg
  have hnanos := now.nsec_lt
  have hquotient : (timeout / 1000).toInt = timeout.toInt / 1000 := by
    rw [toInt_div_thousand]
    exact Int.tdiv_eq_ediv_of_nonneg hnonneg
  have hremainder : (timeout % 1000).toInt = timeout.toInt % 1000 := by
    rw [toInt_mod_thousand]
    exact Int.tmod_eq_emod_of_nonneg hnonneg
  have hmillis : (now.nsec / 1000000 + timeout % 1000).toInt =
      now.nsec.toInt / 1000000 + timeout.toInt % 1000 := by
    rw [← toInt_millis, ← hremainder]
    apply toInt_add_of_bounds <;> rw [toInt_millis, hremainder] <;> omega
  have hmeets := meetsTimeout_of_split now (timeout / 1000) rfl hmillis
    (by omega) (by omega) (by omega) (by omega)
  rwa [hquotient, show timeout.toInt / 1000 * 1000 + timeout.toInt % 1000 = timeout.toInt by
    omega] at hmeets

/-- The two functions agree on the timeouts that both of them can be called with. -/
theorem lockDeadline_eq_waitDeadline (now : Timespec) {timeout : UInt64}
    (hlt : timeout.toNat < 2 ^ 63) :
    lockDeadline now timeout = waitDeadline now timeout.toInt64 := by
  have hmod : (timeout % 1000).toInt64 = timeout.toInt64 % 1000 := by
    apply Int64.toInt.inj
    rw [toInt_toInt64_mod_thousand, toInt_mod_thousand, toInt_toInt64_of_lt hlt]
    exact (Int.tmod_eq_emod_of_nonneg (by omega)).symm
  have hmillis : ((now.nsec / 1000000).toUInt64 + timeout % 1000).toInt64 =
      now.nsec / 1000000 + timeout.toInt64 % 1000 := by
    rw [UInt64.toInt64_add, hmod]
    rfl
  simp only [lockDeadline, waitDeadline, hmillis]

/-- A timeout that is negative when it is signed gives a deadline in the past. -/
theorem lockDeadline_lt (now : ClockReading) {timeout : UInt64} (hle : 2 ^ 63 ≤ timeout.toNat) :
    (lockDeadline now.toTimespec timeout).nanos <
      now.toTimespec.nanos + timeout.toNat * 10 ^ 6 - 10 ^ 6 := by
  have hnonneg := now.sec_nonneg
  have hroom := now.sec_far
  have hnsec := now.nsec_nonneg
  have hnanos := now.nsec_lt
  have hnegative := toInt_toInt64_of_le hle
  have hrange := timeout.toInt64.le_toInt
  have hquotient : (timeout.toInt64 / 1000).toInt = -(-timeout.toInt64.toInt / 1000) := by
    rw [toInt_div_thousand]
    exact tdiv_thousand_of_neg hnegative
  have hsec : (now.sec + timeout.toInt64 / 1000).toInt =
      now.sec.toInt - -timeout.toInt64.toInt / 1000 := by
    rw [toInt_add_of_bounds] <;> rw [hquotient] <;> omega
  have hmillis : ((now.nsec / 1000000).toUInt64 + timeout % 1000).toInt64.toInt =
      now.nsec.toInt / 1000000 + timeout.toNat % 1000 := by
    have hsum : ((now.nsec / 1000000).toUInt64 + timeout % 1000).toInt64 =
        now.nsec / 1000000 + (timeout % 1000).toInt64 := rfl
    rw [hsum, ← toInt_millis, ← toInt_toInt64_mod_thousand]
    apply toInt_add_of_bounds <;> rw [toInt_millis, toInt_toInt64_mod_thousand] <;> omega
  obtain ⟨hrem, hcarried⟩ := carry (now.sec + timeout.toInt64 / 1000)
    ((now.nsec / 1000000).toUInt64 + timeout % 1000).toInt64
    (by omega) (by omega) (by omega) (by omega)
  simp only [Timespec.nanos, lockDeadline, hrem, hcarried]
  omega

/-- The deadlines for one timeout are correct, and the same in all functions that can be
called with it. -/
structure DeadlinesMeet (now : ClockReading) (timeout : UInt64) : Prop where
  lock : (lockDeadline now.toTimespec timeout).MeetsTimeout now.toTimespec timeout.toNat
  wait : ∀ millis : Int64, millis.toInt = timeout.toNat →
    (waitDeadline now.toTimespec millis).MeetsTimeout now.toTimespec timeout.toNat
  same : ∀ millis : Int64, millis.toInt = timeout.toNat →
    lockedWaitDeadline now.toTimespec millis = some (lockDeadline now.toTimespec timeout)

/-- The deadlines are correct for the timeouts that are not negative as signed numbers. -/
theorem deadlinesMeet_iff (now : ClockReading) (timeout : UInt64) :
    DeadlinesMeet now timeout ↔ timeout.toNat < 2 ^ 63 := by
  constructor
  · intro hmeet
    by_contra hnot
    have hpast := lockDeadline_lt now (Nat.not_lt.mp hnot)
    have hlate := hmeet.lock.late
    omega
  · intro hlt
    have heq := lockDeadline_eq_waitDeadline now.toTimespec hlt
    have hsigned := toInt_toInt64_of_lt hlt
    have hsame : ∀ millis : Int64, millis.toInt = timeout.toNat → millis = timeout.toInt64 := by
      intro millis hmillis
      exact Int64.toInt.inj (hmillis.trans hsigned.symm)
    have hmeets := waitDeadline_meetsTimeout now timeout.toInt64 (by omega)
    rw [hsigned] at hmeets
    refine ⟨?_, ?_, ?_⟩
    · rwa [heq]
    · intro millis hmillis
      rwa [hsame millis hmillis]
    · intro millis hmillis
      have hnot : ¬ timeout.toInt64 < 0 := by
        rw [Int64.lt_iff_toInt_lt, hsigned]
        change ¬ (timeout.toNat : Int) < 0
        omega
      rw [hsame millis hmillis, lockedWaitDeadline, if_neg hnot, heq]

/-- The largest timeout of `lock` is taken for a short time that has passed already. -/
theorem deadline_in_the_past : ¬ ∀ now timeout, DeadlinesMeet now timeout := by
  intro hmeet
  have hlate := (hmeet ⟨⟨1700000000, 0⟩, by decide, by decide, by decide, by decide⟩
    18446744073709551615).lock.late
  revert hlate
  decide +kernel

end Synchronized

end ThreadPools.Posix
