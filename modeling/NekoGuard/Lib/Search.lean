/-
Linear search by a loop: test a number, move on to the next one. However
the loop is cut into chunks, it finds the least number that passes
(`scan_least`, `scanChunks_least`).
-/
import Mathlib.Order.Bounds.Basic

namespace NekoGuard.Lib.Search

variable {next : Nat → Nat} {test : Nat → Bool}

/-- What a loop of at most `fuel` rounds from `n` on finds. -/
def scan (next : Nat → Nat) (test : Nat → Bool) : Nat → Nat → Option Nat
  | 0, _ => none
  | fuel + 1, n => if test n then some n else scan next test fuel (next n)

/-- A chunk of `k` rounds: what it finds, or where it gets to. -/
def chunk (next : Nat → Nat) (test : Nat → Bool) : Nat → Nat → Nat ⊕ Nat
  | 0, n => .inr n
  | k + 1, n => if test n then .inl n else chunk next test k (next n)

/-- Chunks of `k` rounds, at most `fuel` of them. -/
def scanChunks (next : Nat → Nat) (test : Nat → Bool) (k : Nat) : Nat → Nat → Option Nat
  | 0, _ => none
  | fuel + 1, n =>
    match chunk next test k n with
    | .inl found => some found
    | .inr n => scanChunks next test k fuel n

/-- A search may be cut after any number of rounds. -/
theorem scan_add (k fuel n : Nat) :
    scan next test (k + fuel) n =
      match chunk next test k n with
      | .inl found => some found
      | .inr n => scan next test fuel n := by
  induction k generalizing n with
  | zero => rw [Nat.zero_add]; rfl
  | succ k ih =>
    rw [Nat.succ_add]
    simp only [scan, chunk]
    by_cases h : test n
    · rw [if_pos h, if_pos h]
    · rw [if_neg h, if_neg h]
      exact ih (next n)

theorem scanChunks_eq (k fuel n : Nat) :
    scanChunks next test k fuel n = scan next test (fuel * k) n := by
  induction fuel generalizing n with
  | zero => rw [Nat.zero_mul]; rfl
  | succ fuel ih =>
    rw [Nat.succ_mul, Nat.add_comm (fuel * k) k, scan_add]
    simp only [scanChunks]
    cases chunk next test k n with
    | inl found => rfl
    | inr n => exact ih n

/-- **The least number is found**, as long as counting up to it works. -/
theorem scan_least {n : Nat} (hleast : IsLeast {n | test n = true} n) (hnext : ∀ m < n, next m = m + 1)
    {fuel : Nat} (hfuel : n < fuel) : scan next test fuel 0 = some n := by
  have from_le : ∀ d m, m + d = n → ∀ fuel, d < fuel → scan next test fuel m = some n := by
    intro d
    induction d with
    | zero =>
      intro m hm fuel hfuel
      obtain ⟨f, rfl⟩ : ∃ f, fuel = f + 1 := ⟨fuel - 1, by omega⟩
      rw [Nat.add_zero] at hm
      subst hm
      exact if_pos hleast.1
    | succ d ih =>
      intro m hm fuel hfuel
      obtain ⟨f, rfl⟩ : ∃ f, fuel = f + 1 := ⟨fuel - 1, by omega⟩
      have hm' : ¬test m = true := fun h => by
        have := hleast.2 h
        omega
      unfold scan
      rw [if_neg hm', hnext m (by omega)]
      exact ih (m + 1) (by omega) f (by omega)
  exact from_le n 0 (by omega) fuel hfuel

theorem scanChunks_least {n k : Nat} (hleast : IsLeast {n | test n = true} n)
    (hnext : ∀ m < n, next m = m + 1) (hk : 0 < k) {fuel : Nat} (hfuel : n < fuel) :
    scanChunks next test k fuel 0 = some n := by
  rw [scanChunks_eq]
  exact scan_least hleast hnext (Nat.lt_of_lt_of_le hfuel (Nat.le_mul_of_pos_right fuel hk))

end NekoGuard.Lib.Search
