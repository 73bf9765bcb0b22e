/-
A job with a date, and someone who looks at it from time to time. Before
the date a look does nothing; from then on it calls for an attempt, which
succeeds, and brings the next date, or fails. Where looks are at most
`every` apart and an attempt takes at most `takes`, the clock is past the
date by no more than one round for each failure in a row, and one
(`InTime.late`).
-/
import Mathlib.Logic.Relation

namespace NekoGuard.Lib

namespace Watch

/-- The time between looks, the time of an attempt, and how many attempts
in a row may fail. -/
structure Terms where
  every : Nat
  takes : Nat
  retries : Nat
deriving DecidableEq, Repr

/-- A round for each failure, and one. -/
def Terms.slack (c : Terms) : Nat := (c.retries + 1) * (c.every + c.takes)

inductive Stage where
  | idle
  /-- An attempt is called for, and about to start. -/
  | called
  | busy
deriving DecidableEq, Repr

end Watch

structure Watch where
  clock : Nat
  due : Nat
  stage : Watch.Stage
  /-- When the next look has been, or the attempt has ended. -/
  limit : Nat
  /-- How many attempts in a row have failed. -/
  failures : Nat
deriving DecidableEq, Repr

namespace Watch

variable {c : Terms} {v w : Watch}

inductive Move (c : Terms) (w : Watch) : Watch → Prop where
  | wait (d : Nat) (hs : w.stage ≠ .called) (hlimit : w.clock + d ≤ w.limit) :
      Move c w { w with clock := w.clock + d }
  | look (limit : Nat) (hs : w.stage = .idle) (hdue : w.clock < w.due) (hnow : w.clock ≤ limit)
      (hlimit : limit ≤ w.clock + c.every) : Move c w { w with limit }
  | call (limit : Nat) (hs : w.stage = .idle) : Move c w { w with stage := .called, limit }
  | start (hs : w.stage = .called) :
      Move c w { w with stage := .busy, limit := w.clock + c.takes }
  | fail (limit : Nat) (hs : w.stage = .busy) (hnow : w.clock ≤ limit) (hlimit : limit ≤ w.clock + c.every) :
      Move c w { w with stage := .idle, limit, failures := w.failures + 1 }
  | finish (due limit : Nat) (hs : w.stage ≠ .called) (hdue : w.clock ≤ due) (hnow : w.clock ≤ limit)
      (hlimit : limit ≤ w.clock + c.every) : Move c w { w with due, stage := .idle, limit, failures := 0 }

/-- Where the clock is by what is to come next. -/
def InTime (c : Terms) (w : Watch) : Prop :=
  match w.stage with
  | .idle => w.clock ≤ w.limit ∧ w.limit ≤ w.due + w.failures * (c.every + c.takes) + c.every
  | .called => w.clock ≤ w.due + w.failures * (c.every + c.takes) + c.every
  | .busy => w.clock ≤ w.limit ∧ w.limit ≤ w.due + (w.failures + 1) * (c.every + c.takes)

theorem InTime.move (h : InTime c w) (hm : Move c w v) : InTime c v := by
  cases hm with
  | wait d hs hlimit =>
    unfold InTime at h ⊢
    cases hstage : w.stage with
    | idle => simp only [hstage] at h ⊢; exact ⟨hlimit, h.2⟩
    | called => exact absurd hstage hs
    | busy => simp only [hstage] at h ⊢; exact ⟨hlimit, h.2⟩
  | look limit hs hdue hnow hlimit =>
    simp only [InTime, hs] at h ⊢
    exact ⟨hnow, by omega⟩
  | call limit hs =>
    simp only [InTime, hs] at h ⊢
    omega
  | start hs =>
    simp only [InTime, hs] at h ⊢
    rw [Nat.add_mul, Nat.one_mul]
    omega
  | fail limit hs hnow hlimit =>
    simp only [InTime, hs] at h ⊢
    omega
  | finish due limit hs hdue hnow hlimit =>
    simp only [InTime] at h ⊢
    omega

theorem InTime.moves (h : InTime c w) (hm : Relation.ReflTransGen (Move c) w v) : InTime c v := by
  induction hm with
  | refl => exact h
  | tail _ hlast ih => exact ih.move hlast

/-- **How late it can be.** -/
theorem InTime.late (h : InTime c w) (hfew : w.failures ≤ c.retries) : w.clock ≤ w.due + c.slack := by
  have hrounds : (w.failures + 1) * (c.every + c.takes) ≤ c.slack :=
    Nat.mul_le_mul_right _ (Nat.succ_le_succ hfew)
  rw [Nat.add_mul, Nat.one_mul] at hrounds
  unfold InTime at h
  split at h
  · omega
  · omega
  · rw [Nat.add_mul, Nat.one_mul] at h
    omega

end Watch

end NekoGuard.Lib
