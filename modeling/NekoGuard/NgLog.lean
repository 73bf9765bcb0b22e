/-
ng_log.rs: the dates of the log lines. The two loops of `epoch_days_to_ymd`
find the year and the month a day lies in, so what comes back is the date of
that day (`epochDaysToYmd_gregorian`).
-/
import NekoGuard.Lib.Gregorian

namespace NekoGuard.NgLog

open Lib Lib.Spans Lib.Gregorian

def isLeap (y : Nat) : Bool := y % 4 == 0 && !(y % 100 == 0) || y % 400 == 0

def yearDays (y : Nat) : Nat := if isLeap y then 366 else 365

theorem le_yearDays (y : Nat) : 365 ≤ yearDays y := by
  unfold yearDays
  split <;> omega

/-- A round of the loop over the years; `none` is its `break`. -/
def yearRound : Nat × Nat → Option (Nat × Nat)
  | (y, remaining) => if remaining < yearDays y then none else some (y + 1, remaining - yearDays y)

theorem yearRound_lt {s s' : Nat × Nat} (h : yearRound s = some s') : s'.2 < s.2 := by
  obtain ⟨y, remaining⟩ := s
  simp only [yearRound] at h
  have hy := le_yearDays y
  split at h
  · cases h
  · cases h
    simp only []
    omega

def yearLoop (s : Nat × Nat) : Nat × Nat :=
  match _h : yearRound s with
  | none => s
  | some s' => yearLoop s'
termination_by s.2
decreasing_by exact yearRound_lt _h

def monthDays (leap : Bool) : List Nat := [31, if leap then 29 else 28, 31, 30, 31, 30, 31, 31, 30, 31, 30, 31]

def monthLoop (m remaining : Nat) : List Nat → Nat × Nat
  | [] => (m, remaining)
  | md :: mds => if remaining < md then (m, remaining) else monthLoop (m + 1) (remaining - md) mds

def epochDaysToYmd (days : Nat) : Nat × Nat × Nat :=
  let (y, remaining) := yearLoop (1970, days)
  let (m, remaining) := monthLoop 1 remaining (monthDays (isLeap y))
  (y, m, remaining + 1)

/-! ## The lengths -/

theorem isLeap_iff (y : Nat) : isLeap y = true ↔ Leap y := by
  simp only [isLeap, Leap, Bool.or_eq_true, Bool.and_eq_true, Bool.not_eq_true', beq_iff_eq, beq_eq_false_iff_ne,
    Nat.dvd_iff_mod_eq_zero]
  omega

theorem monthDays_eq (y : Nat) : monthDays (isLeap y) = (List.range' 1 12).map (monthLength y) := by
  by_cases h : Leap y
  · have hleap := (isLeap_iff y).mpr h
    simp [monthDays, List.range', monthLength, hleap, h]
  · have hleap : isLeap y = false := Bool.eq_false_iff.mpr (mt (isLeap_iff y).mp h)
    simp [monthDays, List.range', monthLength, hleap, h]

theorem yearDays_eq (y : Nat) : yearDays y = yearLength y := by
  by_cases h : Leap y
  · have hleap := (isLeap_iff y).mpr h
    simp [yearDays, yearLength, start, Finset.sum_Ico_succ_top, monthLength, hleap, h]
  · have hleap : isLeap y = false := Bool.eq_false_iff.mpr (mt (isLeap_iff y).mp h)
    simp [yearDays, yearLength, start, Finset.sum_Ico_succ_top, monthLength, hleap, h]

/-! ## The loops -/

/-- `n` rounds of the loop over the years. -/
inductive Rounds : Nat → Nat × Nat → Nat × Nat → Prop where
  | nil {s} : Rounds 0 s s
  | cons {n s s' t} : yearRound s = some s' → Rounds n s' t → Rounds (n + 1) s t

/-- **The loop ends** after finitely many rounds, at its `break`. -/
theorem yearLoop_rounds (s : Nat × Nat) : ∃ n, Rounds n s (yearLoop s) ∧ yearRound (yearLoop s) = none := by
  fun_induction yearLoop s with
  | case1 s h => exact ⟨0, .nil, h⟩
  | case2 s s' h ih =>
    obtain ⟨n, hrounds, hend⟩ := ih
    exact ⟨n + 1, .cons h hrounds, hend⟩

/-- What a round keeps: which day the offset into the year is. -/
theorem start_of_yearRound {s s' : Nat × Nat} (hy : 1970 ≤ s.1) (h : yearRound s = some s') :
    s'.1 = s.1 + 1 ∧ start yearLength 1970 s'.1 + s'.2 = start yearLength 1970 s.1 + s.2 := by
  obtain ⟨y, remaining⟩ := s
  simp only [yearRound, yearDays_eq] at h
  split at h
  · cases h
  · next hlen =>
    cases h
    exact ⟨rfl, start_skip hy (Nat.le_of_not_lt hlen)⟩

theorem Rounds.start_eq {n : Nat} {s t : Nat × Nat} (h : Rounds n s t) (hy : 1970 ≤ s.1) :
    t.1 = s.1 + n ∧ start yearLength 1970 t.1 + t.2 = start yearLength 1970 s.1 + s.2 := by
  induction h with
  | nil => exact ⟨rfl, rfl⟩
  | cons hround _ ih =>
    obtain ⟨hyear, hkept⟩ := start_of_yearRound hy hround
    obtain ⟨hlast, hday⟩ := ih (by omega)
    exact ⟨by omega, hday.trans hkept⟩

theorem lt_of_yearRound {s : Nat × Nat} (h : yearRound s = none) : s.2 < yearLength s.1 := by
  simpa [yearRound, yearDays_eq] using h

/-- The month an offset lies in, for months of any lengths. -/
theorem start_of_monthLoop {len : Nat → Nat} {n m remaining : Nat} (hm : 1 ≤ m)
    (h : start len 1 m + remaining < start len 1 (m + n)) :
    ∃ m' r, monthLoop m remaining ((List.range' m n).map len) = (m', r) ∧ m ≤ m' ∧ m' < m + n ∧ r < len m' ∧
      start len 1 m' + r = start len 1 m + remaining := by
  induction n generalizing m remaining with
  | zero =>
    rw [Nat.add_zero] at h
    omega
  | succ n ih =>
    rw [List.range'_succ, List.map_cons]
    unfold monthLoop
    split
    · next hlt => exact ⟨m, remaining, rfl, Nat.le_refl m, by omega, hlt, rfl⟩
    · next hlen =>
      have hskip := start_skip hm (Nat.le_of_not_lt hlen)
      have hnext : start len 1 (m + 1) + (remaining - len m) < start len 1 (m + 1 + n) := by
        rw [hskip, Nat.add_right_comm]
        exact h
      obtain ⟨m', r, hloop, hle, hlt, hr, hstart⟩ := ih (by omega) hnext
      exact ⟨m', r, hloop, by omega, by omega, hr, hstart.trans hskip⟩

/-! ## The date of a day -/

/-- The date `epoch_days_to_ymd` returns, and how the loop over the years
gets to its year. -/
theorem exists_date (days : Nat) :
    ∃ (date : Date) (n r : Nat), epochDaysToYmd days = (date.year, date.month, date.day) ∧
      date.daysFrom 1970 = days ∧ Rounds n (1970, days) (date.year, r) ∧ yearRound (date.year, r) = none ∧
      date.year = 1970 + n ∧ 365 * n ≤ days := by
  obtain ⟨n, hrounds, hend⟩ := yearLoop_rounds (1970, days)
  obtain ⟨hyear, hstart⟩ := hrounds.start_eq (Nat.le_refl 1970)
  have hlt := lt_of_yearRound hend
  cases hloop : yearLoop (1970, days) with
  | mk y r =>
    rw [hloop] at hrounds hend hyear hstart hlt
    simp only [start_self, Nat.zero_add] at hyear hstart hlt
    have hmonths : start (monthLength y) 1 1 + r < start (monthLength y) 1 (1 + 12) := by
      rw [start_self, Nat.zero_add]
      exact hlt
    obtain ⟨m, d, hm, hle, hm12, hd, hday⟩ := start_of_monthLoop (Nat.le_refl 1) hmonths
    rw [start_self, Nat.zero_add] at hday
    have hymd : epochDaysToYmd days = (y, m, d + 1) := by simp only [epochDaysToYmd, hloop, monthDays_eq, hm]
    have hfar : 365 * (y - 1970) ≤ start yearLength 1970 y :=
      mul_sub_le_start (fun k => yearDays_eq k ▸ le_yearDays k) (by omega)
    have hn : y - 1970 = n := by omega
    rw [hn] at hfar
    refine ⟨⟨y, m, d + 1, ⟨hle, by omega⟩, ⟨by omega, hd⟩⟩, n, r, hymd, ?_, hrounds, hend, hyear, by omega⟩
    simp only [Date.daysFrom, Date.dayOfYear, Nat.add_sub_cancel, hday]
    exact hstart

/-- **`epoch_days_to_ymd` is the proleptic Gregorian calendar from
1970-01-01 on**, in the order of the dates; its loop over the years ends,
a round for each year. -/
theorem epochDaysToYmd_gregorian :
    (∀ days, ∃ date : Date, epochDaysToYmd days = (date.year, date.month, date.day) ∧ 1970 ≤ date.year ∧
      date.daysFrom 1970 = days) ∧
    Function.Injective epochDaysToYmd ∧
    (StrictMono fun days => (toLex ((epochDaysToYmd days).1, toLex (epochDaysToYmd days).2) : Nat ×ₗ Nat ×ₗ Nat)) ∧
    ∀ days, ∃ n r, Rounds n (1970, days) ((epochDaysToYmd days).1, r) ∧
      yearRound ((epochDaysToYmd days).1, r) = none ∧ 365 * n ≤ days := by
  have hdate : ∀ days, ∃ date : Date, epochDaysToYmd days = (date.year, date.month, date.day) ∧ 1970 ≤ date.year ∧
      date.daysFrom 1970 = days := by
    intro days
    obtain ⟨date, n, r, hymd, hdays, -, -, hyear, -⟩ := exists_date days
    exact ⟨date, hymd, by omega, hdays⟩
  have hmono : StrictMono fun days =>
      (toLex ((epochDaysToYmd days).1, toLex (epochDaysToYmd days).2) : Nat ×ₗ Nat ×ₗ Nat) := by
    intro days days' hlt
    obtain ⟨d, hd, hfrom, hdays⟩ := hdate days
    obtain ⟨e, he, hfrom', hdays'⟩ := hdate days'
    simp only [hd, he]
    refine (Date.daysFrom_lt_iff hfrom hfrom').mp ?_
    rw [hdays, hdays']
    exact hlt
  refine ⟨hdate, fun days days' heq => ?_, hmono, fun days => ?_⟩
  · refine hmono.injective ?_
    simp only [heq]
  · obtain ⟨date, n, r, hymd, -, hrounds, hend, -, hn⟩ := exists_date days
    rw [hymd]
    exact ⟨n, r, hrounds, hend, hn⟩

end NekoGuard.NgLog
