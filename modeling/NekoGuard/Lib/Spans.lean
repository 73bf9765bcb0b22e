/-
Spans of any lengths, laid end to end: the years of a calendar, the months of
a year. A position is an offset into one of them, and positions are ordered
by their spans first (`start_add_lt_iff`).
-/
import Mathlib.Algebra.BigOperators.Intervals
import Mathlib.Algebra.Order.BigOperators.Group.Finset
import Mathlib.Algebra.Order.Group.Nat

namespace NekoGuard.Lib.Spans

variable {len : Nat → Nat} {a i j r s : Nat}

/-- Where span `i` begins, counted from the beginning of span `a`. -/
def start (len : Nat → Nat) (a i : Nat) : Nat := ∑ k ∈ Finset.Ico a i, len k

@[simp] theorem start_self : start len a a = 0 := by simp [start]

theorem start_succ (h : a ≤ i) : start len a (i + 1) = start len a i + len i := Finset.sum_Ico_succ_top h len

theorem start_mono (h : i ≤ j) : start len a i ≤ start len a j :=
  Finset.sum_le_sum_of_subset (Finset.Ico_subset_Ico_right h)

/-- What is past the end of a span is as far past the beginning of the next. -/
theorem start_skip (h : a ≤ i) (hr : len i ≤ r) : start len a (i + 1) + (r - len i) = start len a i + r := by
  rw [start_succ h]
  omega

theorem start_add_lt (hi : a ≤ i) (hij : i < j) (hr : r < len i) : start len a i + r < start len a j + s := by
  have hnext : start len a (i + 1) ≤ start len a j := start_mono hij
  rw [start_succ hi] at hnext
  omega

/-- **Positions come in the order of their spans**, and within a span in that
of their offsets. -/
theorem start_add_lt_iff (hi : a ≤ i) (hj : a ≤ j) (hr : r < len i) (hs : s < len j) :
    start len a i + r < start len a j + s ↔ i < j ∨ i = j ∧ r < s := by
  rcases Nat.lt_trichotomy i j with hij | rfl | hji
  · have hlt : start len a i + r < start len a j + s := start_add_lt hi hij hr
    simp [hij, hlt]
  · simp
  · have hlt : start len a j + s < start len a i + r := start_add_lt hj hji hs
    omega

/-- Spans of at least `d` each begin at least that far apart. -/
theorem mul_sub_le_start {d : Nat} (hd : ∀ k, d ≤ len k) (h : a ≤ i) : d * (i - a) ≤ start len a i := by
  induction i, h using Nat.le_induction with
  | base => simp
  | succ i h ih =>
    have hsub : i + 1 - a = (i - a) + 1 := by omega
    have hlen := hd i
    rw [start_succ h, hsub, Nat.mul_succ]
    omega

end NekoGuard.Lib.Spans
