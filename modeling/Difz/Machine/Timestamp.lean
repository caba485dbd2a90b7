import Difz.Restore.Object
import Difz.Wire.Checked

/-!
# Timestamps on the machine

The conversions between the seconds and nanoseconds of a record, the nanoseconds of the standard
library (`timeFromTimestamp` and `timestampFromTime` of `src/directory_fs.zig`) and the ticks of
Windows (`timeFromWindows` and `timeToWindows` of `src/native_stat.zig`), with the integer types of
the source. All of them are exact on the instant that a time stands for, up to the precision of the
target.
-/

namespace Difz

open Wire
open Metadata (Time)

namespace Machine

open Zig (Timestamp)

variable {ε : Type}

def timestampFromTime (time : Time) : Checked ε Timestamp := do
  let product ← Checked.signed 96 (time.sec.toInt * 1000000000)
  let sum ← Checked.signed 96 (product + time.nsec.toNat)
  .ok ⟨sum⟩

def timeFromTimestamp (timestamp : Timestamp) : Checked ε Time := do
  let seconds ← Checked.signed 96 (timestamp.nanoseconds / 1000000000)
  let product ← Checked.signed 96 (seconds * 1000000000)
  let nanoseconds ← Checked.signed 96 (timestamp.nanoseconds - product)
  let sec ← Checked.signed 64 seconds
  let nsec ← Checked.unsigned 32 nanoseconds
  .ok ⟨Int64.ofInt sec, UInt32.ofNat nsec⟩

/-- The ticks between the epochs of 1601 and 1970. -/
def windowsEpochTicks : Int := 116444736000000000

def timeFromWindows (ticks : UInt64) : Checked ε Time := do
  let shifted ← Checked.signed 128 (ticks.toNat - windowsEpochTicks)
  let ns ← Checked.signed 128 (shifted * 100)
  let sec ← Checked.signed 64 (ns / 1000000000)
  let nsec ← Checked.unsigned 32 (ns % 1000000000)
  .ok ⟨Int64.ofInt sec, UInt32.ofNat nsec⟩

def timeToWindows (time : Time) : Checked ε (Option UInt64) := do
  let product ← Checked.signed 128 (time.sec.toInt * 1000000000)
  let ns ← Checked.signed 128 (product + time.nsec.toNat)
  let ticks ← Checked.signed 128 (ns / 100 + windowsEpochTicks)
  .ok (if 0 ≤ ticks ∧ ticks < 2 ^ 64 then some (UInt64.ofNat ticks.toNat) else none)

/-! ### Instants -/

/-- The nanoseconds since 1970. -/
def instant (time : Time) : Int := time.sec.toInt * 1000000000 + time.nsec.toNat

/-- The ticks since 1601, rounded down. -/
def ticksSince1601 (time : Time) : Int := (instant time + 11644473600 * 1000000000) / 100

/-- The time of an instant. -/
def timeAt (ns : Int) : Time :=
  ⟨Int64.ofInt (ns / 1000000000), UInt32.ofNat (ns % 1000000000).toNat⟩

lemma nsec_timeAt (ns : Int) : (timeAt ns).nsec < 1000000000 := by
  have hlt : (ns % 1000000000).toNat < 1000000000 := by omega
  have hsmall : (ns % 1000000000).toNat < 2 ^ 32 := by omega
  rw [timeAt, UInt32.lt_iff_toNat_lt, UInt32.toNat_ofNat_of_lt' hsmall]
  exact hlt

lemma instant_timeAt {ns : Int} (hlow : -2 ^ 63 ≤ ns / 1000000000)
    (hhigh : ns / 1000000000 < 2 ^ 63) : instant (timeAt ns) = ns := by
  have hsmall : (ns % 1000000000).toNat < 2 ^ 32 := by omega
  rw [instant, timeAt, Int64.toInt_ofInt_of_le hlow hhigh, UInt32.toNat_ofNat_of_lt' hsmall]
  omega

lemma timeAt_instant {time : Time} (h : time.nsec < 1000000000) : timeAt (instant time) = time := by
  obtain ⟨sec, nsec⟩ := time
  have hnsec : nsec.toNat < 1000000000 := UInt32.lt_iff_toNat_lt.mp h
  have hdiv : (sec.toInt * 1000000000 + nsec.toNat) / 1000000000 = sec.toInt := by omega
  have hmod : ((sec.toInt * 1000000000 + nsec.toNat) % 1000000000).toNat = nsec.toNat := by omega
  rw [timeAt, instant]
  dsimp only
  rw [hdiv, hmod, Int64.ofInt_toInt, UInt32.ofNat_toNat]

/-! ### The conversions -/

/-- Nothing overflows, so this is the conversion that was used before. -/
lemma timestampFromTime_eq (time : Time) :
    (timestampFromTime time : Checked ε Timestamp) = .ok (Zig.timestampFromTime time) := by
  have hlow := time.sec.le_toInt
  have hhigh := time.sec.toInt_lt
  have hnsec := time.nsec.toNat_lt
  rw [timestampFromTime, Checked.signed_of_mem (by omega) (by omega), ok_bind,
    Checked.signed_of_mem (by omega) (by omega), ok_bind, Zig.timestampFromTime]

lemma timeFromTimestamp_eq {timestamp : Timestamp}
    (hlow : -2 ^ 63 ≤ timestamp.nanoseconds / 1000000000)
    (hhigh : timestamp.nanoseconds / 1000000000 < 2 ^ 63) :
    (timeFromTimestamp timestamp : Checked ε Time) = .ok (timeAt timestamp.nanoseconds) := by
  have hrest : timestamp.nanoseconds - timestamp.nanoseconds / 1000000000 * 1000000000
      = timestamp.nanoseconds % 1000000000 := by omega
  rw [timeFromTimestamp, Checked.signed_of_mem (by omega) (by omega), ok_bind,
    Checked.signed_of_mem (by omega) (by omega), ok_bind,
    Checked.signed_of_mem (by omega) (by omega), ok_bind,
    Checked.signed_of_mem (by omega) (by omega), ok_bind, hrest,
    Checked.unsigned_of_mem (by omega) (by omega), ok_bind, timeAt]

lemma timeFromWindows_eq (ticks : UInt64) : (timeFromWindows ticks : Checked ε Time)
    = .ok (timeAt ((ticks.toNat - windowsEpochTicks) * 100)) := by
  have hticks := ticks.toNat_lt
  have hepoch : windowsEpochTicks = 116444736000000000 := rfl
  rw [timeFromWindows, Checked.signed_of_mem (by omega) (by omega), ok_bind,
    Checked.signed_of_mem (by omega) (by omega), ok_bind,
    Checked.signed_of_mem (by omega) (by omega), ok_bind,
    Checked.unsigned_of_mem (by omega) (by omega), ok_bind, timeAt]

lemma timeToWindows_eq (time : Time) : (timeToWindows time : Checked ε (Option UInt64))
    = .ok (if 0 ≤ ticksSince1601 time ∧ ticksSince1601 time < 2 ^ 64 then
        some (UInt64.ofNat (ticksSince1601 time).toNat) else none) := by
  have hlow := time.sec.le_toInt
  have hhigh := time.sec.toInt_lt
  have hnsec := time.nsec.toNat_lt
  have hepoch : windowsEpochTicks = 116444736000000000 := rfl
  have hticks : (time.sec.toInt * 1000000000 + time.nsec.toNat) / 100 + windowsEpochTicks
      = ticksSince1601 time := by
    rw [ticksSince1601, instant]
    omega
  rw [timeToWindows, Checked.signed_of_mem (by omega) (by omega), ok_bind,
    Checked.signed_of_mem (by omega) (by omega), ok_bind,
    Checked.signed_of_mem (by omega) (by omega), ok_bind, hticks]

lemma timeToWindows_eq_some {time : Time} {ticks : UInt64} :
    (timeToWindows time : Checked ε (Option UInt64)) = .ok (some ticks) ↔
      (ticks.toNat : Int) = ticksSince1601 time := by
  have hlt := ticks.toNat_lt
  rw [timeToWindows_eq]
  split_ifs with h
  · have hsmall : (ticksSince1601 time).toNat < 2 ^ 64 := by omega
    rw [Except.ok.injEq, Option.some.injEq, ← UInt64.toNat_inj,
      UInt64.toNat_ofNat_of_lt' hsmall]
    omega
  · refine iff_of_false (by simp) fun heq => h ?_
    omega

/-- Times survive the way through nanoseconds, and ticks the way through times. A time is refused
when its ticks do not fit 64 bits, and is otherwise rounded down to a tick; so the order of times is
kept and none moves forward. -/
theorem timestamps_exact (ε : Type) :
    (∀ time : Time, time.nsec < 1000000000 → ∃ stamp,
      (timestampFromTime time : Checked ε Timestamp) = .ok stamp ∧
      (timeFromTimestamp stamp : Checked ε Time) = .ok time) ∧
    (∀ ticks : UInt64, ∃ time, (timeFromWindows ticks : Checked ε Time) = .ok time ∧
      time.nsec < 1000000000 ∧
      (timeToWindows time : Checked ε (Option UInt64)) = .ok (some ticks)) ∧
    (∀ time : Time, time.nsec < 1000000000 →
      ((timeToWindows time : Checked ε (Option UInt64)) = .ok none ↔
        ¬(0 ≤ ticksSince1601 time ∧ ticksSince1601 time < 2 ^ 64)) ∧
      (0 ≤ ticksSince1601 time ∧ ticksSince1601 time < 2 ^ 64 →
        ∃ ticks, (timeToWindows time : Checked ε (Option UInt64)) = .ok (some ticks)) ∧
      ∀ ticks, (timeToWindows time : Checked ε (Option UInt64)) = .ok (some ticks) →
        ∃ rounded, (timeFromWindows ticks : Checked ε Time) = .ok rounded ∧
          instant rounded = instant time / 100 * 100 ∧ instant rounded ≤ instant time) ∧
    (∀ time time' : Time, instant time ≤ instant time' → ∀ ticks ticks',
      (timeToWindows time : Checked ε (Option UInt64)) = .ok (some ticks) →
      (timeToWindows time' : Checked ε (Option UInt64)) = .ok (some ticks') → ticks ≤ ticks') := by
  have hepoch : windowsEpochTicks = 116444736000000000 := rfl
  refine ⟨fun time h => ?_, fun ticks => ?_,
    fun time h => ⟨?_, fun hfits => ?_, fun ticks hticks => ?_⟩,
    fun time time' hle ticks ticks' hticks hticks' => ?_⟩
  · refine ⟨_, timestampFromTime_eq time, ?_⟩
    have hsame : (Zig.timestampFromTime time).nanoseconds = instant time := rfl
    have hlow := time.sec.le_toInt
    have hhigh := time.sec.toInt_lt
    have hnsec : time.nsec.toNat < 1000000000 := UInt32.lt_iff_toNat_lt.mp h
    have hdiv : instant time / 1000000000 = time.sec.toInt := by
      rw [instant]
      omega
    rw [timeFromTimestamp_eq (by omega) (by omega), hsame, timeAt_instant h]
  · have hlt := ticks.toNat_lt
    refine ⟨_, timeFromWindows_eq ticks, nsec_timeAt _, timeToWindows_eq_some.mpr ?_⟩
    rw [ticksSince1601, instant_timeAt (by omega) (by omega)]
    omega
  · rw [timeToWindows_eq]
    split_ifs with hfits
    · exact iff_of_false (by simp) (not_not.mpr hfits)
    · exact iff_of_true rfl hfits
  · exact ⟨_, by rw [timeToWindows_eq, if_pos hfits]⟩
  · have hlt := ticks.toNat_lt
    have hsame := timeToWindows_eq_some.mp hticks
    rw [ticksSince1601] at hsame
    refine ⟨_, timeFromWindows_eq ticks, ?_, ?_⟩
    · rw [instant_timeAt (by omega) (by omega)]
      omega
    · rw [instant_timeAt (by omega) (by omega)]
      omega
  · have hsame := timeToWindows_eq_some.mp hticks
    have hsame' := timeToWindows_eq_some.mp hticks'
    rw [ticksSince1601] at hsame hsame'
    rw [UInt64.le_iff_toNat_le]
    omega

end Machine

end Difz
