/-
`hex::encode`, and the bits of a byte string counted from the most
significant bit of its first byte.
-/
import Mathlib.Data.Nat.Bitwise
import NekoGuard.Std.Text

namespace NekoGuard.Hex

/-- The lower-case digit of a nibble. -/
def digit (n : Nat) : Char := Nat.digitChar n

def encodeByte (b : UInt8) : Str := [digit (b.toNat / 16), digit (b.toNat % 16)]

/-- `hex::encode`. -/
def encode (bs : Bytes) : Str := bs.flatMap encodeByte

/-- Bit `i` of a byte string, most significant first. -/
def bit (bs : Bytes) (i : Nat) : Bool := (bs.getD (i / 8) 0).toNat.testBit (7 - i % 8)

theorem length_encode (bs : Bytes) : (encode bs).length = 2 * bs.length := by
  induction bs with
  | nil => rfl
  | cons b bs ih =>
    simp only [encode, List.flatMap_cons, List.length_append, List.length_cons] at ih ⊢
    simp only [encodeByte, List.length_cons, List.length_nil]
    omega

/-! ## Nibbles -/

/-- The nibble digit `i` of the encoding stands for. -/
def nibble (bs : Bytes) (i : Nat) : Nat :=
  let b := (bs.getD (i / 2) 0).toNat
  if i % 2 = 0 then b / 16 else b % 16

theorem nibble_lt (bs : Bytes) (i : Nat) : nibble bs i < 16 := by
  have hb := (bs.getD (i / 2) 0).toNat_lt
  simp only [nibble]
  split <;> omega

theorem encode_getElem? {bs : Bytes} {i : Nat} (hi : i < 2 * bs.length) :
    (encode bs)[i]? = some (digit (nibble bs i)) := by
  induction bs generalizing i with
  | nil => cases hi
  | cons b bs ih =>
    match i, hi with
    | 0, _ => rfl
    | 1, _ => rfl
    | i + 2, hi =>
      have hdiv : (i + 2) / 2 = i / 2 + 1 := by omega
      have hmod : (i + 2) % 2 = i % 2 := by omega
      have hnib : nibble (b :: bs) (i + 2) = nibble bs i := by
        simp [nibble, hdiv]
      rw [hnib, ← ih (by simp at hi; omega)]
      rfl

/-- A bit of the bytes is a bit of the digit it falls in. -/
theorem bit_eq_testBit (bs : Bytes) (i : Nat) : bit bs i = (nibble bs (i / 4)).testBit (3 - i % 4) := by
  have hdiv : i / 4 / 2 = i / 8 := by omega
  unfold bit nibble
  simp only [hdiv]
  split
  · next heven =>
    have hidx : 7 - i % 8 = 3 - i % 4 + 4 := by omega
    rw [hidx, show 16 = 2 ^ 4 from rfl, Nat.testBit_div_two_pow]
  · next hodd =>
    have hidx : 7 - i % 8 = 3 - i % 4 := by omega
    have hlt : 3 - i % 4 < 4 := by omega
    rw [hidx, show 16 = 2 ^ 4 from rfl, Nat.testBit_mod_two_pow]
    simp [hlt]

theorem lt_two_pow_iff : ∀ {n r : Nat}, n < 16 → r < 4 →
    (n < 2 ^ (4 - r) ↔ ∀ k < r, n.testBit (3 - k) = false) := by
  have all : ∀ n < 16, ∀ r < 4, (n < 2 ^ (4 - r) ↔ ∀ k < r, n.testBit (3 - k) = false) := by decide
  intro n r hn hr
  exact all n hn r hr

theorem eq_zero_iff : ∀ {n : Nat}, n < 16 → (n = 0 ↔ ∀ k < 4, n.testBit (3 - k) = false) := by
  decide

/-- **Leading zero bits, by digits**: the full digits are zero and the next
one is small enough. -/
theorem zeros_iff {b : Bytes} {f r : Nat} (hr : r < 4) :
    (∀ j < 4 * f + r, bit b j = false) ↔
      (∀ i < f, nibble b i = 0) ∧ nibble b f < 2 ^ (4 - r) := by
  have at_digit : ∀ i k, k < 4 → bit b (4 * i + k) = (nibble b i).testBit (3 - k) := by
    intro i k hk
    rw [bit_eq_testBit]
    have hdiv : (4 * i + k) / 4 = i := by omega
    have hmod : (4 * i + k) % 4 = k := by omega
    rw [hdiv, hmod]
  rw [lt_two_pow_iff (nibble_lt b f) hr]
  constructor
  · intro h
    refine ⟨fun i hi => (eq_zero_iff (nibble_lt b i)).mpr fun k hk => ?_, fun k hk => ?_⟩
    · rw [← at_digit i k hk]
      exact h _ (by omega)
    · rw [← at_digit f k (by omega)]
      exact h _ (by omega)
  · intro ⟨hfull, hrem⟩ j hj
    rw [bit_eq_testBit]
    by_cases hlt : j / 4 < f
    · rw [hfull _ hlt]
      exact Nat.zero_testBit _
    · have heq : j / 4 = f := by omega
      rw [heq]
      exact hrem _ (by omega)

end NekoGuard.Hex
