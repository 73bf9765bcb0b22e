/-
ratelimit.rs: `allow` on any number of replicas over one Redis, cut at its
clock read, its HMGET and its HMSET. The bucket is the one of a single
address, and its key does not expire; `f64` is read as exact arithmetic.
-/
import Mathlib.Algebra.Order.Floor.Semifield
import Mathlib.Data.Rat.Floor
import Mathlib.Tactic.Linarith
import Mathlib.Tactic.NormNum
import NekoGuard.Config
import NekoGuard.Lib.Cluster
import NekoGuard.Lib.TokenBucket

namespace NekoGuard.RateLimit

open Lib Config

/-- The fields `tokens` and `last_refill_ms` of a key. -/
structure Bucket where
  tokens : Nat
  lastRefillMs : Nat
deriving DecidableEq, Repr

/-- `bucket.unwrap_or((config.burst, now_ms))`. -/
def bucketOr (cfg : RateLimitConfig) (bucket : Option Bucket) (nowMs : Nat) : Bucket :=
  bucket.getD { tokens := cfg.burst, lastRefillMs := nowMs }

/-- The bucket refilled by the time elapsed, rounded down. -/
def newTokens (cfg : RateLimitConfig) (b : Bucket) (nowMs : Nat) : Nat :=
  let elapsedMs := nowMs - b.lastRefillMs
  let refill : ℚ := (elapsedMs : ℚ) / 1000 * cfg.rps
  ⌊min ((b.tokens : ℚ) + refill) cfg.burst⌋₊

def maxRpmTokens (cfg : RateLimitConfig) : Nat := if 0 < cfg.rpm then cfg.rpm else 2 ^ 64 - 1

/-- The answer of `allow`, and the bucket its HMSET writes. -/
def verdict (cfg : RateLimitConfig) (bucket : Option Bucket) (nowMs : Nat) : Bool × Bucket :=
  let tokens := newTokens cfg (bucketOr cfg bucket nowMs) nowMs
  if 1 ≤ tokens ∧ tokens ≤ maxRpmTokens cfg then
    (true, { tokens := tokens - 1, lastRefillMs := nowMs })
  else (false, { tokens := min tokens (maxRpmTokens cfg), lastRefillMs := nowMs })

/-! ## Replicas -/

/-- One finished call: the clock it read, and its answer. -/
structure Call where
  nowMs : Nat
  allowed : Bool
deriving DecidableEq, Repr

/-- The key of the address, and the calls so far, newest first. -/
structure Store where
  bucket : Option Bucket
  calls : List Call
deriving DecidableEq, Repr

/-- The call a replica is in the middle of: the mutex of `redis_conn` lets
in one at a time. -/
inductive Task where
  | idle
  | clocked (nowMs : Nat)
  | fetched (nowMs : Nat) (bucket : Option Bucket)
deriving DecidableEq, Repr

inductive Step where
  | call
  | hmget
  | hmset
deriving DecidableEq, Repr

def act {ρ : Type} (cfg : RateLimitConfig) (_ : ρ) (clock : Nat) (st : Store) :
    Task → Step → Option (Store × Task)
  | .idle, .call =>
    if !cfg.enabled || cfg.rps == 0 then some ({ st with calls := ⟨clock, true⟩ :: st.calls }, .idle)
    else some (st, .clocked clock)
  | .clocked nowMs, .hmget => some (st, .fetched nowMs st.bucket)
  | .fetched nowMs bucket, .hmset =>
    let (allowed, b) := verdict cfg bucket nowMs
    some ({ bucket := some b, calls := ⟨nowMs, allowed⟩ :: st.calls }, .idle)
  | _, _ => none

/-- Nobody has called yet. -/
def start (ρ : Type) (clock : Nat) : Cluster ρ Store Task where
  clock := clock
  shared := { bucket := none, calls := [] }
  proc := fun _ => .idle

/-- A call writes back onto the bucket it read, which was last refilled no
later than the clock the call read. -/
def Undisturbed {ρ : Type} (_ : ρ) (_ : Nat) (st : Store) : Task → Step → Prop
  | .fetched nowMs bucket, .hmset => st.bucket = bucket ∧ ∀ b ∈ bucket, b.lastRefillMs ≤ nowMs
  | _, _ => True

/-- The times of the calls that were allowed. -/
def grants (calls : List Call) : List Nat := (calls.filter (·.allowed)).map (·.nowMs)

/-- How many calls of the interval were allowed. -/
def allowedIn (st : Store) (a b : Nat) : Nat :=
  st.calls.countP fun c => c.allowed && a ≤ c.nowMs && c.nowMs ≤ b

/-! ## The law of the bucket -/

/-- Exact refilling is a token bucket in milliseconds. -/
theorem newTokens_eq (cfg : RateLimitConfig) (b : Bucket) (nowMs : Nat) :
    newTokens cfg b nowMs =
      TokenBucket.refilled cfg.burst cfg.rps 1000 b.tokens b.lastRefillMs nowMs := by
  have hrefill : ((nowMs - b.lastRefillMs : ℕ) : ℚ) / 1000 * cfg.rps =
      (((nowMs - b.lastRefillMs) * cfg.rps : ℕ) : ℚ) / (1000 : ℕ) := by
    push_cast
    rw [div_mul_eq_mul_div]
  unfold newTokens TokenBucket.refilled
  simp only []
  rw [hrefill, Nat.floor_mono.map_min, Nat.floor_natCast, add_comm, Nat.floor_add_natCast (by positivity),
    Nat.floor_div_natCast, Nat.floor_natCast, Nat.add_comm]

variable {cfg : RateLimitConfig}

/-- What the store says of the calls so far. -/
def Lawful (cfg : RateLimitConfig) (_ : Nat) (st : Store) : Prop :=
  match st.bucket with
  | none => grants st.calls = []
  | some b => TokenBucket.Paced cfg.burst cfg.rps 1000 (grants st.calls) b.tokens b.lastRefillMs

theorem grants_cons (c : Call) (calls : List Call) :
    grants (c :: calls) = if c.allowed then c.nowMs :: grants calls else grants calls := by
  unfold grants
  by_cases h : c.allowed <;> simp [h]

theorem allowedIn_eq (st : Store) (a b : Nat) :
    allowedIn st a b = TokenBucket.within (grants st.calls) a b := by
  unfold allowedIn TokenBucket.within grants
  rw [List.countP_map, List.countP_filter]
  refine List.countP_congr fun c _ => ?_
  simp [and_comm, and_assoc]

/-- An undisturbed call keeps the law. -/
theorem lawful_hmset {clock : Nat} {st : Store} {nowMs : Nat} {b : Option Bucket}
    (hst : st.bucket = b) (hlast : ∀ x ∈ b, x.lastRefillMs ≤ nowMs) (hl : Lawful cfg clock st) :
    Lawful cfg clock
      { bucket := some (verdict cfg b nowMs).2, calls := ⟨nowMs, (verdict cfg b nowMs).1⟩ :: st.calls } := by
  -- An absent bucket counts as a full one, filled now.
  have hp : TokenBucket.Paced cfg.burst cfg.rps 1000 (grants st.calls) (bucketOr cfg b nowMs).tokens
      (bucketOr cfg b nowMs).lastRefillMs ∧ (bucketOr cfg b nowMs).lastRefillMs ≤ nowMs := by
    unfold Lawful at hl
    rw [hst] at hl
    cases b with
    | none =>
      have hl : grants st.calls = [] := hl
      rw [hl]
      exact ⟨TokenBucket.paced_nil (Nat.le_refl _), Nat.le_refl _⟩
    | some x => exact ⟨hl, hlast x rfl⟩
  obtain ⟨hp, hle⟩ := hp
  have htokens := newTokens_eq cfg (bucketOr cfg b nowMs) nowMs
  unfold Lawful
  simp only [verdict]
  split
  · next h =>
    rw [htokens] at h
    rw [grants_cons, htokens]
    exact hp.grant hle h.1
  · next h =>
    rw [grants_cons, htokens]
    exact hp.skip hle (Nat.min_le_left _ _)

theorem limits (hon : cfg.enabled = true) (hrps : 0 < cfg.rps) : (!cfg.enabled || cfg.rps == 0) = false := by
  simp [hon]
  omega

variable {ρ : Type}

theorem keeps (hon : cfg.enabled = true) (hrps : 0 < cfg.rps) :
    Cluster.Keeps (act (ρ := ρ) cfg) Undisturbed (Lawful cfg) (fun _ _ _ _ => True) where
  tick := fun _ _ _ hl => ⟨hl, fun _ _ _ => trivial⟩
  own := by
    intro r c st t e st' t' hund hl _ h
    refine ⟨?_, trivial⟩
    unfold act at h
    split at h
    · rw [if_neg (by simp [limits hon hrps])] at h
      cases h
      exact hl
    · cases h
      exact hl
    · cases h
      exact lawful_hmset hund.1 hund.2 hl
    · cases h
  other := by
    intros
    trivial

theorem Lawful.window {clock : Nat} {st : Store} (hl : Lawful cfg clock st) {a b : Nat} (hab : a ≤ b) :
    1000 * allowedIn st a b ≤ 1000 * cfg.burst + cfg.rps * (b - a) := by
  rw [allowedIn_eq]
  unfold Lawful at hl
  cases hb : st.bucket with
  | none =>
    rw [hb] at hl
    have hl : grants st.calls = [] := hl
    rw [hl]
    simp
  | some x =>
    rw [hb] at hl
    exact hl.window a b hab

variable [DecidableEq ρ]

/-- **The limit holds where calls do not overlap.** When every call writes
back onto the very bucket it read, and that was not refilled after the
clock the call read, then of the calls of any interval at most
`burst + rps * (b - a) / 1000` are allowed. -/
theorem allowed_within {s : Cluster ρ Store Task} {clock : Nat} {es : List (Cluster.Event ρ Step)}
    {a b : Nat} (hon : cfg.enabled = true) (hrps : 0 < cfg.rps)
    (hund : Machine.Along (Cluster.step (act cfg)) (Cluster.On Undisturbed) (start ρ clock) es)
    (hrun : Machine.run (Cluster.step (act cfg)) (start ρ clock) es = some s) (hab : a ≤ b) :
    (allowedIn s.shared a b : ℚ) ≤ cfg.burst + cfg.rps * ((b : ℚ) - a) / 1000 := by
  have hinv := (keeps hon hrps).run_along hund ⟨rfl, fun _ => trivial⟩ hrun
  have hnat := hinv.shared.window hab
  have hcast : (1000 : ℚ) * allowedIn s.shared a b ≤ 1000 * cfg.burst + cfg.rps * ((b : ℚ) - a) := by
    have h : ((1000 * allowedIn s.shared a b : ℕ) : ℚ) ≤ ((1000 * cfg.burst + cfg.rps * (b - a) : ℕ) : ℚ) :=
      Nat.cast_le.mpr hnat
    push_cast [Nat.cast_sub hab] at h
    exact h
  linarith

/-- One call after the other, from one replica. -/
def oneAfterOther : List (Cluster.Event Bool Step) :=
  [.on false .call, .on false .hmget, .on false .hmset, .tick 1000, .on true .call, .on true .hmget,
    .on true .hmset]

def oneToken : RateLimitConfig := { enabled := true, rps := 1, rpm := 0, burst := 1 }

instance decidableUndisturbed (r : ρ) (c : Nat) (st : Store) :
    ∀ t e, Decidable (Undisturbed r c st t e)
  | .idle, _ => isTrue trivial
  | .clocked _, _ => isTrue trivial
  | .fetched _ _, .call => isTrue trivial
  | .fetched _ _, .hmget => isTrue trivial
  | .fetched _ _, .hmset => inferInstanceAs (Decidable (_ ∧ _))

instance decidableOn : ∀ (s : Cluster ρ Store Task) (e : Cluster.Event ρ Step),
    Decidable (Cluster.On Undisturbed s e)
  | _, .tick _ => isTrue trivial
  | s, .on r e => decidableUndisturbed r s.clock s.shared (s.proc r) e

theorem oneAfterOther_within : ∃ s,
    Machine.run (Cluster.step (act oneToken)) (start Bool 0) oneAfterOther = some s ∧
      (allowedIn s.shared 0 1000 : ℚ) ≤ oneToken.burst + oneToken.rps * (((1000 : ℕ) : ℚ) - (0 : ℕ)) / 1000 := by
  obtain ⟨s, hs⟩ := Option.isSome_iff_exists.mp
    (show (Machine.run (Cluster.step (act oneToken)) (start Bool 0) oneAfterOther).isSome = true by decide +kernel)
  exact ⟨s, hs, allowed_within rfl (by decide) (by decide +kernel) hs (by decide)⟩

/-- Two replicas read the full bucket before either writes it back. -/
def overlapping : List (Cluster.Event Bool Step) :=
  [.on false .call, .on false .hmget, .on true .call, .on true .hmget, .on false .hmset, .on true .hmset]

theorem overlapping_exceeds : oneToken.enabled = true ∧ 0 < oneToken.rps ∧ ∃ s,
    Machine.run (Cluster.step (act oneToken)) (start Bool 0) overlapping = some s ∧
      ¬(allowedIn s.shared 0 0 : ℚ) ≤ oneToken.burst + oneToken.rps * (((0 : ℕ) : ℚ) - (0 : ℕ)) / 1000 := by
  refine ⟨rfl, by decide, ?_⟩
  have htwo : (Machine.run (Cluster.step (act oneToken)) (start Bool 0) overlapping).map
      (fun s => allowedIn s.shared 0 0) = some 2 := by decide +kernel
  obtain ⟨s, hs, hcount⟩ := Option.map_eq_some_iff.mp htwo
  refine ⟨s, hs, ?_⟩
  rw [hcount]
  norm_num [oneToken]

end NekoGuard.RateLimit
