/-
Token buckets: `cap` tokens at most, `rate` of them coming back in each
`period` of time, one spent for each grant. A bucket that is refilled and
spent in one go, at times that never go back, lets at most
`cap + rate * (b - a) / period` grants through between `a` and `b`
(`Paced.window`).
-/
import Mathlib.Algebra.Order.Ring.Nat

namespace NekoGuard.Lib.TokenBucket

variable {cap rate period : Nat}

/-- The grants, by their times, that fall between `a` and `b`. -/
def within (grants : List Nat) (a b : Nat) : Nat := grants.countP fun t => a ≤ t && t ≤ b

@[simp] theorem within_nil (a b : Nat) : within [] a b = 0 := rfl

theorem within_cons_of_mem {grants : List Nat} {t a b : Nat} (h : a ≤ t ∧ t ≤ b) :
    within (t :: grants) a b = within grants a b + 1 :=
  List.countP_cons_of_pos (by simp [h])

theorem within_cons_of_not_mem {grants : List Nat} {t a b : Nat} (h : ¬(a ≤ t ∧ t ≤ b)) :
    within (t :: grants) a b = within grants a b :=
  List.countP_cons_of_neg (by simpa using h)

/-- Past the last grant nothing more is counted. -/
theorem within_of_le {grants : List Nat} {a b c : Nat} (hlast : ∀ t ∈ grants, t ≤ b) (h : b ≤ c) :
    within grants a c = within grants a b :=
  List.countP_congr fun t ht => by
    have := hlast t ht
    simp only [Bool.and_eq_true, decide_eq_true_eq]
    omega

theorem within_eq_zero {grants : List Nat} {a b : Nat} (h : ∀ t ∈ grants, t < a) :
    within grants a b = 0 :=
  List.countP_eq_zero.mpr fun t ht => by
    have := h t ht
    simp only [Bool.and_eq_true, decide_eq_true_eq]
    omega

/-- What a bucket of `tokens`, last touched at `last`, holds at `now`. -/
def refilled (cap rate period tokens last now : Nat) : Nat :=
  min (tokens + (now - last) * rate / period) cap

theorem refilled_le_cap {tokens last now : Nat} : refilled cap rate period tokens last now ≤ cap :=
  Nat.min_le_right _ _

/-- Refilling is monotone in the tokens and in time. -/
theorem refilled_mono {tokens tokens' last now now' : Nat} (htokens : tokens ≤ tokens') (hnow : now ≤ now') :
    refilled cap rate period tokens last now ≤ refilled cap rate period tokens' last now' := by
  have htime : (now - last) * rate / period ≤ (now' - last) * rate / period :=
    Nat.div_le_div_right (Nat.mul_le_mul_right _ (by omega))
  unfold refilled
  omega

/-- Nothing comes back in no time. -/
theorem refilled_self {tokens now : Nat} (h : tokens ≤ cap) :
    refilled cap rate period tokens now now = tokens := by
  simp [refilled, h]

/-- After `cap` periods the bucket is full, whatever comes back in each. -/
theorem refilled_full {tokens last now : Nat} (hrate : 0 < rate) (hperiod : 0 < period)
    (h : last + period * cap ≤ now) : refilled cap rate period tokens last now = cap := by
  have hlong : period * cap ≤ now - last := by omega
  have hback : cap ≤ (now - last) * rate / period := by
    rw [Nat.le_div_iff_mul_le hperiod, Nat.mul_comm]
    exact Nat.le_trans hlong (Nat.le_mul_of_pos_right _ hrate)
  unfold refilled
  omega

/-! ## Waits -/

/-- What comes back, at most, when the bucket is looked at after each of
these waits. -/
def comesBack (cap rate period : Nat) (waits : List Nat) : Nat :=
  (waits.map fun k => min (k * rate / period) cap).sum

@[simp] theorem comesBack_nil : comesBack cap rate period [] = 0 := rfl

@[simp] theorem comesBack_cons (k : Nat) (waits : List Nat) :
    comesBack cap rate period (k :: waits) = min (k * rate / period) cap + comesBack cap rate period waits := by
  simp [comesBack]

theorem refilled_le (tokens last now : Nat) :
    refilled cap rate period tokens last now ≤ tokens + min ((now - last) * rate / period) cap := by
  unfold refilled
  omega

theorem le_refilled {tokens last now k : Nat} (hk : k ≤ now - last) :
    min (k * rate / period) cap ≤ refilled cap rate period tokens last now := by
  have htime : k * rate / period ≤ (now - last) * rate / period :=
    Nat.div_le_div_right (Nat.mul_le_mul_right _ hk)
  unfold refilled
  omega

/-- Dividing the time brings nothing more back. -/
theorem comesBack_le (waits : List Nat) : period * comesBack cap rate period waits ≤ rate * waits.sum := by
  induction waits with
  | nil => simp
  | cons k waits ih =>
    have hone : period * min (k * rate / period) cap ≤ rate * k :=
      Nat.le_trans (Nat.mul_le_mul_left _ (Nat.min_le_left _ _))
        (Nat.mul_comm k rate ▸ Nat.mul_div_le (k * rate) period)
    rw [comesBack_cons, List.sum_cons, Nat.mul_add, Nat.mul_add]
    exact Nat.add_le_add hone ih

/-! ## Grants -/

/-- The grants so far and the bucket they leave: what was spent since any
moment, and what is left, came in since then or was there at the start. -/
structure Paced (cap rate period : Nat) (grants : List Nat) (tokens last : Nat) : Prop where
  past : ∀ t ∈ grants, t ≤ last
  spent : ∀ a ≤ last, period * (within grants a last + tokens) ≤ period * cap + rate * (last - a)
  window : ∀ a b, a ≤ b → period * within grants a b ≤ period * cap + rate * (b - a)

theorem paced_nil {tokens last : Nat} (h : tokens ≤ cap) : Paced cap rate period [] tokens last where
  past := nofun
  spent := fun a _ => by
    have := Nat.mul_le_mul_left period h
    simp only [within_nil, Nat.zero_add]
    omega
  window := fun a b _ => by simp

variable {grants : List Nat} {tokens last now : Nat}

/-- The tokens at hand obey the law also before they are spent. -/
theorem Paced.refilled (hp : Paced cap rate period grants tokens last) (h : last ≤ now) :
    ∀ a ≤ now, period * (within grants a now + refilled cap rate period tokens last now) ≤
      period * cap + rate * (now - a) := by
  intro a ha
  rw [within_of_le hp.past h]
  by_cases hal : a ≤ last
  · have hback := Nat.mul_div_le ((now - last) * rate) period
    have hspent := hp.spent a hal
    have hsplit : rate * (now - a) = rate * (last - a) + rate * (now - last) := by
      rw [← Nat.mul_add]
      congr 1
      omega
    have hle : period * (within grants a last + TokenBucket.refilled cap rate period tokens last now) ≤
        period * (within grants a last + tokens) + period * ((now - last) * rate / period) := by
      rw [← Nat.mul_add, Nat.add_assoc]
      exact Nat.mul_le_mul_left _ (Nat.add_le_add_left (Nat.min_le_left _ _) _)
    rw [Nat.mul_comm (now - last) rate] at hback
    rw [Nat.mul_comm (now - last) rate] at hle
    omega
  · have hzero : within grants a last = 0 :=
      within_eq_zero fun t ht => Nat.lt_of_le_of_lt (hp.past t ht) (by omega)
    have hcap : TokenBucket.refilled cap rate period tokens last now ≤ cap := Nat.min_le_right _ _
    rw [hzero, Nat.zero_add]
    exact Nat.le_trans (Nat.mul_le_mul_left period hcap) (Nat.le_add_right _ _)

/-- A grant spends one of the tokens at hand. -/
theorem Paced.grant (hp : Paced cap rate period grants tokens last) (h : last ≤ now)
    (hone : 1 ≤ TokenBucket.refilled cap rate period tokens last now) :
    Paced cap rate period (now :: grants) (TokenBucket.refilled cap rate period tokens last now - 1) now := by
  have hpast : ∀ t ∈ grants, t ≤ now := fun t ht => Nat.le_trans (hp.past t ht) h
  have hspent : ∀ a ≤ now, period * (within (now :: grants) a now +
      (TokenBucket.refilled cap rate period tokens last now - 1)) ≤ period * cap + rate * (now - a) := by
    intro a ha
    have hlaw := hp.refilled h a ha
    rw [within_cons_of_mem ⟨ha, Nat.le_refl _⟩]
    have heq : within grants a now + 1 + (TokenBucket.refilled cap rate period tokens last now - 1) =
        within grants a now + TokenBucket.refilled cap rate period tokens last now := by omega
    rw [heq]
    exact hlaw
  refine ⟨?_, hspent, ?_⟩
  · intro t ht
    cases ht with
    | head => exact Nat.le_refl _
    | tail _ ht => exact hpast t ht
  · intro a b hab
    by_cases hmem : a ≤ now ∧ now ≤ b
    · have hall : ∀ t ∈ now :: grants, t ≤ now := by
        intro t ht
        cases ht with
        | head => exact Nat.le_refl _
        | tail _ ht => exact hpast t ht
      rw [within_of_le hall hmem.2]
      have hlaw := hspent a hmem.1
      have hgrow : rate * (now - a) ≤ rate * (b - a) := Nat.mul_le_mul_left _ (by omega)
      rw [Nat.mul_add] at hlaw
      omega
    · rw [within_cons_of_not_mem hmem]
      exact hp.window a b hab

/-- Without a grant the bucket may keep any part of what is at hand. -/
theorem Paced.skip (hp : Paced cap rate period grants tokens last) (h : last ≤ now) {left : Nat}
    (hleft : left ≤ TokenBucket.refilled cap rate period tokens last now) :
    Paced cap rate period grants left now where
  past := fun t ht => Nat.le_trans (hp.past t ht) h
  spent := fun a ha => Nat.le_trans
    (Nat.mul_le_mul_left _ (Nat.add_le_add_left hleft _)) (hp.refilled h a ha)
  window := hp.window

end NekoGuard.Lib.TokenBucket
