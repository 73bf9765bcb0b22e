/-
pow.rs: the target test, and the three operations on the map of live
challenges, cut where another thread can run in between.
-/
import NekoGuard.Std.Hex

namespace NekoGuard.Pow

/-- `DIFFICULTY`. -/
def difficulty : Nat := 14

abbrev Hash := Vector UInt8 32

/-- SHA-256. -/
abbrev Sha256 := Bytes → Hash

/-! ## The target -/

/-- The loop of `meets_target`, with `n` bits to go from bit `i` on. -/
def meetsTargetFrom (hash : Hash) : Nat → Nat → Rust Bool
  | 0, _ => .ok true
  | n + 1, i =>
    match hash[i / 8]? with
    | none => .error ⟨"index out of bounds"⟩
    | some b =>
      if (b >>> UInt8.ofNat (7 - i % 8)) &&& 1 ≠ 0 then .ok false else meetsTargetFrom hash n (i + 1)

def meetsTarget (hash : Hash) (bits : Nat) : Rust Bool := meetsTargetFrom hash bits 0

theorem shift_and_one (b : UInt8) {k : Nat} (hk : k < 8) :
    (b >>> UInt8.ofNat k) &&& 1 ≠ 0 ↔ b.toNat.testBit k = true := by
  have hk' : (UInt8.ofNat k).toNat % 8 = k := by simp; omega
  rw [Ne, ← UInt8.toNat_inj]
  simp only [UInt8.toNat_and, UInt8.toNat_shiftRight, hk', Nat.testBit]
  simp [Nat.land_comm]

theorem meetsTargetFrom_ok {hash : Hash} {n i : Nat} (h : i + n ≤ 256) :
    meetsTargetFrom hash n i =
      .ok (decide (∀ j < n, Hex.bit hash.toList (i + j) = false)) := by
  induction n generalizing i with
  | zero => simp [meetsTargetFrom]
  | succ n ih =>
    have hi : i / 8 < 32 := by omega
    have hget : hash[i / 8]? = some hash[i / 8] := Vector.getElem?_eq_getElem hi
    have hbit : Hex.bit hash.toList i = hash[i / 8].toNat.testBit (7 - i % 8) := by
      simp [Hex.bit, hi]
    unfold meetsTargetFrom
    simp only [hget, shift_and_one _ (show 7 - i % 8 < 8 by omega), ← hbit]
    by_cases hb : Hex.bit hash.toList i = true
    · rw [if_pos hb]
      have hnot : ¬∀ j < n + 1, Hex.bit hash.toList (i + j) = false := fun hall => by
        have := hall 0 (by omega)
        rw [Nat.add_zero, hb] at this
        cases this
      rw [decide_eq_false hnot]
    · rw [if_neg hb, ih (by omega)]
      simp only [Bool.not_eq_true] at hb
      congr 2
      apply propext
      constructor
      · intro hall j hj
        cases j with
        | zero => exact hb
        | succ j => rw [← hall j (by omega)]; congr 1; omega
      · intro hall j hj
        rw [← hall (j + 1) (by omega)]
        congr 1
        omega

/-- **What `meets_target` tests**: the first `bits` bits are zero. It runs
past the hash only from 257 bits on. -/
theorem meetsTarget_ok {hash : Hash} {bits : Nat} (h : bits ≤ 256) :
    meetsTarget hash bits = .ok (decide (∀ j < bits, Hex.bit hash.toList j = false)) := by
  unfold meetsTarget
  rw [meetsTargetFrom_ok (by omega)]
  simp only [Nat.zero_add]

/-- The hash of `challenge||nonce` that `check_pow` tests. -/
def hashOf (sha256 : Sha256) (challenge nonce : Str) : Hash :=
  sha256 (Text.bytes challenge ++ Text.bytes nonce)

/-- The nonce solves the challenge at the server's difficulty. -/
def Solves (sha256 : Sha256) (challenge nonce : Str) : Prop :=
  meetsTarget (hashOf sha256 challenge nonce) difficulty = .ok true

instance (sha256 : Sha256) (challenge nonce : Str) : Decidable (Solves sha256 challenge nonce) :=
  inferInstanceAs (Decidable (_ = _))

/-! ## The map of live challenges -/

/-- `MAP`: the expiry of each live challenge. -/
abbrev ChallengeMap := Str → Option Nat

/-- `hex::encode(bytes)` of 16 random bytes. -/
def challengeOf (bytes : Vector UInt8 16) : Str := Hex.encode bytes.toList

def insert (map : ChallengeMap) (challenge : Str) (expiry : Nat) : ChallengeMap :=
  Function.update map challenge (some expiry)

def remove (map : ChallengeMap) (challenge : Str) : ChallengeMap :=
  Function.update map challenge none

/-- `MAP.retain(|_, exp| now < *exp)`. -/
def sweep (map : ChallengeMap) (now : Nat) : ChallengeMap := fun c => (map c).filter (now < ·)

/-- What `check_pow` answers once it holds the expiry of the challenge and
has read the clock. -/
def judge (sha256 : Sha256) (challenge nonce : Str) (expiry now : Nat) : Rust Bool :=
  if expiry < now then .ok false
  else meetsTarget (hashOf sha256 challenge nonce) difficulty

theorem judge_ok (sha256 : Sha256) (challenge nonce : Str) (expiry now : Nat) :
    judge sha256 challenge nonce expiry now =
      .ok (decide (now ≤ expiry ∧ Solves sha256 challenge nonce)) := by
  obtain ⟨v, hv⟩ : ∃ v, meetsTarget (hashOf sha256 challenge nonce) difficulty = .ok v :=
    ⟨_, meetsTarget_ok (by decide)⟩
  have hs : Solves sha256 challenge nonce ↔ v = true := by
    show meetsTarget _ _ = .ok true ↔ _
    rw [hv, Except.ok.injEq]
  have hd : decide (now ≤ expiry ∧ Solves sha256 challenge nonce) = decide (now ≤ expiry ∧ v = true) :=
    decide_eq_decide.mpr (and_congr_right' hs)
  rw [hd]
  unfold judge
  by_cases h : expiry < now
  · have hle : ¬now ≤ expiry := by omega
    simp [h, hle]
  · have hle : now ≤ expiry := by omega
    simp [h, hle, hv]

end NekoGuard.Pow
