/-
The proleptic Gregorian calendar: its dates, and the number of days from the
first of January of a year on to a date, which orders the dates
(`Date.daysFrom_lt_iff`).
-/
import Mathlib.Data.Prod.Lex
import NekoGuard.Lib.Spans

namespace NekoGuard.Lib.Gregorian

open Spans

/-- Every fourth year, but of the centuries every fourth only. -/
def Leap (y : Nat) : Prop := 4 ∣ y ∧ (100 ∣ y → 400 ∣ y)

instance (y : Nat) : Decidable (Leap y) := inferInstanceAs (Decidable (_ ∧ _))

def monthLength (y m : Nat) : Nat :=
  match m with
  | 2 => if Leap y then 29 else 28
  | 4 | 6 | 9 | 11 => 30
  | _ => 31

/-- The days of the twelve months. -/
def yearLength (y : Nat) : Nat := start (monthLength y) 1 13

structure Date where
  year : Nat
  month : Nat
  day : Nat
  month_mem : 1 ≤ month ∧ month ≤ 12
  day_mem : 1 ≤ day ∧ day ≤ monthLength year month

variable {a : Nat} {d e : Date}

namespace Date

/-- The date without its proofs, to be compared lexicographically. -/
def lex (d : Date) : Nat ×ₗ Nat ×ₗ Nat := toLex (d.year, toLex (d.month, d.day))

theorem lex_lt_iff : d.lex < e.lex ↔
    d.year < e.year ∨ d.year = e.year ∧ (d.month < e.month ∨ d.month = e.month ∧ d.day < e.day) := by
  simp [lex, Prod.Lex.toLex_lt_toLex]

/-- The day of the year, from 0. -/
def dayOfYear (d : Date) : Nat := start (monthLength d.year) 1 d.month + (d.day - 1)

/-- How many days after the first of January of the year `a` it is. -/
def daysFrom (a : Nat) (d : Date) : Nat := start yearLength a d.year + d.dayOfYear

theorem dayOfYear_lt (d : Date) : d.dayOfYear < yearLength d.year := by
  have hmonth : start (monthLength d.year) 1 (d.month + 1) ≤ yearLength d.year :=
    start_mono (Nat.succ_le_succ d.month_mem.2)
  rw [start_succ d.month_mem.1] at hmonth
  have hday := d.day_mem
  unfold dayOfYear
  omega

theorem dayOfYear_lt_iff (hyear : d.year = e.year) :
    d.dayOfYear < e.dayOfYear ↔ d.month < e.month ∨ d.month = e.month ∧ d.day < e.day := by
  have hd := d.day_mem
  have he := e.day_mem
  have hday : d.day - 1 < monthLength e.year d.month := by
    rw [← hyear]
    omega
  unfold dayOfYear
  rw [hyear, start_add_lt_iff d.month_mem.1 e.month_mem.1 hday (by omega)]
  have hsub : d.day - 1 < e.day - 1 ↔ d.day < e.day := by omega
  rw [hsub]

/-- **Days are counted in the order of their dates.** -/
theorem daysFrom_lt_iff (hd : a ≤ d.year) (he : a ≤ e.year) : d.daysFrom a < e.daysFrom a ↔ d.lex < e.lex := by
  unfold daysFrom
  rw [start_add_lt_iff hd he d.dayOfYear_lt e.dayOfYear_lt, lex_lt_iff]
  refine or_congr_right (and_congr_right fun hyear => ?_)
  exact dayOfYear_lt_iff hyear

end Date

end NekoGuard.Lib.Gregorian
