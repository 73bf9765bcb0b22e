/-
ratelimit.rs: what `allow` answers one address where calls do not overlap,
as the replicas then run (`calling_run`). When more tokens and more time
never hurt (`monotone_iff`), when a denied call leaves no trace
(`denials_erasable_iff`), and when the calls allowed in a minute stay within
`rpm` (`minute_within_iff`).
-/
import NekoGuard.RateLimit

namespace NekoGuard.RateLimit

open Lib Config

/-! ## One call -/

/-- `allow`, on what its HMGET finds: its answer, and what it leaves under
the key. -/
def allow (cfg : RateLimitConfig) (bucket : Option Bucket) (nowMs : Nat) : Bool × Option Bucket :=
  if !cfg.enabled || cfg.rps == 0 then (true, bucket)
  else ((verdict cfg bucket nowMs).1, some (verdict cfg bucket nowMs).2)

/-- The tokens `allow` decides by. -/
def available (cfg : RateLimitConfig) (bucket : Option Bucket) (nowMs : Nat) : Nat :=
  newTokens cfg (bucketOr cfg bucket nowMs) nowMs

variable {cfg : RateLimitConfig} {bucket : Option Bucket} {b : Bucket} {nowMs : Nat}

/-- The commands of a call that nobody disturbs come to `allow`. -/
theorem call_run {ρ : Type} [DecidableEq ρ] {s : Cluster ρ Store Task} {r : ρ} (hon : cfg.enabled = true)
    (hrps : 0 < cfg.rps) (hidle : s.proc r = .idle) :
    ∃ t, Machine.run (Cluster.step (act cfg)) s [.on r .call, .on r .hmget, .on r .hmset] = some t ∧
      t.clock = s.clock ∧ t.shared.bucket = (allow cfg s.shared.bucket s.clock).2 ∧
      t.shared.calls = ⟨s.clock, (allow cfg s.shared.bucket s.clock).1⟩ :: s.shared.calls ∧
      t.proc = s.proc := by
  have hback : Function.update s.proc r .idle = s.proc := by rw [← hidle, Function.update_eq_self]
  simp [Machine.run, Cluster.step, act, allow, hidle, limits hon hrps, hback]

theorem available_some : available cfg (some b) nowMs =
    TokenBucket.refilled cfg.burst cfg.rps 1000 b.tokens b.lastRefillMs nowMs :=
  newTokens_eq cfg b nowMs

/-- A missing bucket is a full one. -/
theorem available_none : available cfg none nowMs = cfg.burst := by
  show newTokens cfg { tokens := cfg.burst, lastRefillMs := nowMs } nowMs = cfg.burst
  rw [newTokens_eq, TokenBucket.refilled_self (Nat.le_refl _)]

theorem available_le : available cfg bucket nowMs ≤ cfg.burst := by
  unfold available
  rw [newTokens_eq]
  exact TokenBucket.refilled_le_cap

theorem maxRpmTokens_pos (cfg : RateLimitConfig) : 1 ≤ maxRpmTokens cfg := by
  unfold maxRpmTokens
  split <;> omega

/-- For a `u32` the ceiling is only there when `rpm` is set. -/
theorem burst_le_maxRpmTokens_iff (h : cfg.burst < 2 ^ 32) :
    cfg.burst ≤ maxRpmTokens cfg ↔ cfg.rpm = 0 ∨ cfg.burst ≤ cfg.rpm := by
  unfold maxRpmTokens
  split <;> omega

/-- Everything a limiting `allow` does. -/
theorem allow_cases (hon : cfg.enabled = true) (hrps : 0 < cfg.rps) (bucket : Option Bucket) (nowMs : Nat) :
    (1 ≤ available cfg bucket nowMs ∧ available cfg bucket nowMs ≤ maxRpmTokens cfg ∧
      allow cfg bucket nowMs = (true, some ⟨available cfg bucket nowMs - 1, nowMs⟩)) ∨
    (¬(1 ≤ available cfg bucket nowMs ∧ available cfg bucket nowMs ≤ maxRpmTokens cfg) ∧
      allow cfg bucket nowMs = (false, some ⟨min (available cfg bucket nowMs) (maxRpmTokens cfg), nowMs⟩)) := by
  unfold allow
  rw [if_neg (by simp [limits hon hrps])]
  by_cases h : 1 ≤ available cfg bucket nowMs ∧ available cfg bucket nowMs ≤ maxRpmTokens cfg
  · refine .inl ⟨h.1, h.2, ?_⟩
    unfold available at h ⊢
    simp [verdict, h]
  · refine .inr ⟨h, ?_⟩
    unfold available at h ⊢
    simp [verdict, h]

theorem allow_iff (hon : cfg.enabled = true) (hrps : 0 < cfg.rps) :
    (allow cfg bucket nowMs).1 = true ↔
      1 ≤ available cfg bucket nowMs ∧ available cfg bucket nowMs ≤ maxRpmTokens cfg := by
  rcases allow_cases hon hrps bucket nowMs with ⟨hone, hmax, heq⟩ | ⟨hnot, heq⟩
  · rw [heq]
    exact ⟨fun _ => ⟨hone, hmax⟩, fun _ => rfl⟩
  · rw [heq]
    exact ⟨nofun, fun h => absurd h hnot⟩

/-! ## More tokens, more time -/

/-- What is allowed stays so with more tokens, at a later time, and when the
bucket is missing. -/
structure Monotone (cfg : RateLimitConfig) : Prop where
  tokens : ∀ (b c : Bucket) (t : Nat), b.tokens ≤ c.tokens → c.tokens ≤ cfg.burst →
    b.lastRefillMs = c.lastRefillMs → c.lastRefillMs ≤ t →
      (allow cfg (some b) t).1 = true → (allow cfg (some c) t).1 = true
  time : ∀ (b : Bucket) (t₁ t₂ : Nat), b.tokens ≤ cfg.burst → b.lastRefillMs ≤ t₁ → t₁ ≤ t₂ →
    (allow cfg (some b) t₁).1 = true → (allow cfg (some b) t₂).1 = true
  absent : ∀ (b : Bucket) (t : Nat), b.tokens < cfg.burst → b.lastRefillMs ≤ t →
    (allow cfg (some b) t).1 = true → (allow cfg none t).1 = true

/-- With no more tokens than the ceiling lets through, one is enough. -/
theorem allow_iff_of_le (hon : cfg.enabled = true) (hrps : 0 < cfg.rps) (hle : cfg.burst ≤ maxRpmTokens cfg) :
    (allow cfg bucket nowMs).1 = true ↔ 1 ≤ available cfg bucket nowMs := by
  rw [allow_iff hon hrps]
  exact ⟨And.left, fun h => ⟨h, Nat.le_trans available_le hle⟩⟩

/-- **When `allow` is monotone.** A bucket fuller than the ceiling is denied,
so that is exactly when there can be none. -/
theorem monotone_iff (hon : cfg.enabled = true) (hrps : 0 < cfg.rps) :
    Monotone cfg ↔ cfg.burst ≤ maxRpmTokens cfg := by
  constructor
  · intro h
    by_contra hover
    have hmax := maxRpmTokens_pos cfg
    -- One token is let through, but not what it has grown to after a while.
    have hnow : (allow cfg (some ⟨1, 0⟩) 0).1 = true := by
      have hone : 1 ≤ cfg.burst := by omega
      rw [allow_iff hon hrps, available_some, TokenBucket.refilled_self hone]
      exact ⟨Nat.le_refl _, hmax⟩
    have hlater := h.time ⟨1, 0⟩ 0 (1000 * cfg.burst) (show 1 ≤ cfg.burst by omega) (Nat.le_refl _)
      (Nat.zero_le _) hnow
    rw [allow_iff hon hrps, available_some] at hlater
    rw [TokenBucket.refilled_full hrps (by decide) (Nat.le_of_eq (Nat.zero_add _))] at hlater
    exact hover hlater.2
  · intro hle
    refine ⟨fun b c t htokens _ hlast _ hb => ?_, fun b t₁ t₂ _ _ ht hb => ?_, fun b t hb _ ha => ?_⟩
    · rw [allow_iff_of_le hon hrps hle, available_some] at hb ⊢
      rw [hlast] at hb
      exact Nat.le_trans hb (TokenBucket.refilled_mono htokens (Nat.le_refl _))
    · rw [allow_iff_of_le hon hrps hle, available_some] at hb ⊢
      exact Nat.le_trans hb (TokenBucket.refilled_mono (Nat.le_refl _) ht)
    · rw [allow_iff_of_le hon hrps hle, available_none]
      omega

theorem oneToken_monotone : Monotone oneToken :=
  (monotone_iff rfl (by decide)).mpr ((burst_le_maxRpmTokens_iff (by decide)).mpr (.inl rfl))

/-- Two tokens at most, but a ceiling of one. -/
def lowCeiling : RateLimitConfig := { enabled := true, rps := 1, rpm := 1, burst := 2 }

theorem lowCeiling_not_monotone : (allow lowCeiling (some ⟨1, 0⟩) 0).1 = true ∧
    (allow lowCeiling (some ⟨1, 0⟩) 1000).1 = false ∧ (allow lowCeiling none 0).1 = false ∧
    ¬Monotone lowCeiling := by
  have hnow : (allow lowCeiling (some ⟨1, 0⟩) 0).1 = true := by decide +kernel
  have hlater : (allow lowCeiling (some ⟨1, 0⟩) 1000).1 = false := by decide +kernel
  refine ⟨hnow, hlater, by decide +kernel, fun h => ?_⟩
  have hallowed := h.time ⟨1, 0⟩ 0 1000 (by decide) (by decide) (by decide) hnow
  rw [hlater] at hallowed
  cases hallowed

/-! ## Calls in a row -/

/-- EXPIRE: a key is gone so long after it was last written, if ever. -/
def kept (ttlMs : Option Nat) (bucket : Option Bucket) (nowMs : Nat) : Option Bucket :=
  bucket.filter fun b => ttlMs.all fun ttl => nowMs < b.lastRefillMs + ttl

/-- The key after calls at these times. -/
def after (cfg : RateLimitConfig) (ttlMs : Option Nat) : Option Bucket → List Nat → Option Bucket
  | bucket, [] => bucket
  | bucket, t :: ts => after cfg ttlMs (allow cfg (kept ttlMs bucket t) t).2 ts

/-- The calls at these times, with their answers. -/
def answered (cfg : RateLimitConfig) (ttlMs : Option Nat) : Option Bucket → List Nat → List Call
  | _, [] => []
  | bucket, t :: ts =>
    ⟨t, (allow cfg (kept ttlMs bucket t) t).1⟩ :: answered cfg ttlMs (allow cfg (kept ttlMs bucket t) t).2 ts

variable {ttlMs : Option Nat} {ts us : List Nat}

theorem answered_append : answered cfg ttlMs bucket (ts ++ us) =
    answered cfg ttlMs bucket ts ++ answered cfg ttlMs (after cfg ttlMs bucket ts) us := by
  induction ts generalizing bucket with
  | nil => rfl
  | cons t ts ih => simp [answered, after, ih]

theorem after_append : after cfg ttlMs bucket (ts ++ us) = after cfg ttlMs (after cfg ttlMs bucket ts) us := by
  induction ts generalizing bucket with
  | nil => rfl
  | cons t ts ih => simp [after, ih]

@[simp] theorem length_answered : (answered cfg ttlMs bucket ts).length = ts.length := by
  induction ts generalizing bucket with
  | nil => rfl
  | cons t ts ih => simp [answered, ih]

@[simp] theorem kept_none : kept none bucket nowMs = bucket := by
  cases bucket <;> rfl

theorem kept_some {ttl : Nat} (h : nowMs < b.lastRefillMs + ttl) : kept (some ttl) (some b) nowMs = some b := by
  simp [kept, Option.filter_some, h]

/-- Each of these replicas calls at its time, one after the other. -/
def calling {ρ : Type} : Nat → List (ρ × Nat) → List (Cluster.Event ρ Step)
  | _, [] => []
  | now, (r, t) :: callers =>
    [.tick (t - now)] ++ [.on r .call, .on r .hmget, .on r .hmset] ++ calling t callers

/-- Calls one after the other, from whatever replicas, are a run of them in
which `answered` are the calls and `after` is what is left. -/
theorem calling_run {ρ : Type} [DecidableEq ρ] {s : Cluster ρ Store Task} {callers : List (ρ × Nat)}
    (hon : cfg.enabled = true) (hrps : 0 < cfg.rps) (hidle : ∀ r, s.proc r = .idle)
    (hts : (s.clock :: callers.map (·.2)).Pairwise (· ≤ ·)) :
    ∃ t, Machine.run (Cluster.step (act cfg)) s (calling s.clock callers) = some t ∧
      t.shared.bucket = after cfg none s.shared.bucket (callers.map (·.2)) ∧
      t.shared.calls = (answered cfg none s.shared.bucket (callers.map (·.2))).reverse ++ s.shared.calls := by
  induction callers generalizing s with
  | nil => exact ⟨s, rfl, rfl, rfl⟩
  | cons caller callers ih =>
    obtain ⟨r, t⟩ := caller
    obtain ⟨hfirst, hrest⟩ := List.pairwise_cons.mp hts
    have hclock : s.clock + (t - s.clock) = t := Nat.add_sub_cancel' (hfirst t List.mem_cons_self)
    obtain ⟨u, hu, huclock, hubucket, hucalls, huproc⟩ :=
      @call_run cfg ρ _ { s with clock := s.clock + (t - s.clock) } r hon hrps (hidle r)
    simp only [hclock] at huclock hubucket hucalls
    obtain ⟨v, hv, hvbucket, hvcalls⟩ := @ih u (fun r' => by rw [huproc]; exact hidle r') (by rw [huclock]; exact hrest)
    rw [huclock] at hv
    refine ⟨v, ?_, ?_, ?_⟩
    · rw [calling, List.append_assoc, List.singleton_append]
      exact Machine.run_cons_eq_some.mpr ⟨_, rfl, Machine.run_append_eq_some.mpr ⟨u, hu, hv⟩⟩
    · rw [hvbucket, hubucket, List.map_cons, after, kept_none]
    · rw [hvcalls, hubucket, hucalls, List.map_cons, answered, kept_none]
      simp

/-- The key was last written at one of the calls. -/
theorem mem_of_after (hon : cfg.enabled = true) (hrps : 0 < cfg.rps)
    (h : after cfg ttlMs bucket ts = some b) : bucket = some b ∨ b.lastRefillMs ∈ ts := by
  induction ts generalizing bucket with
  | nil => exact .inl h
  | cons t ts ih =>
    refine .inr ?_
    rcases ih h with hb | hmem
    · have hlast : b.lastRefillMs = t := by
        rcases allow_cases hon hrps (kept ttlMs bucket t) t with ⟨-, -, heq⟩ | ⟨-, heq⟩ <;>
          (rw [heq] at hb; cases hb; rfl)
      rw [hlast]
      exact List.mem_cons_self
    · exact List.mem_cons_of_mem _ hmem

/-- As many calls at one moment as there are tokens are all allowed. -/
theorem spend (hon : cfg.enabled = true) (hrps : 0 < cfg.rps) {n t : Nat} (hkept : kept ttlMs bucket t = bucket)
    (hfresh : ∀ ttl ∈ ttlMs, 0 < ttl) (hn : n ≤ available cfg bucket t)
    (hmax : available cfg bucket t ≤ maxRpmTokens cfg) :
    answered cfg ttlMs bucket (List.replicate n t) = List.replicate n ⟨t, true⟩ ∧
      after cfg ttlMs bucket (List.replicate n t) =
        if n = 0 then bucket else some ⟨available cfg bucket t - n, t⟩ := by
  induction n generalizing bucket with
  | zero => exact ⟨rfl, rfl⟩
  | succ n ih =>
    rcases allow_cases hon hrps bucket t with ⟨-, -, heq⟩ | ⟨hnot, -⟩
    · have hless : available cfg (some ⟨available cfg bucket t - 1, t⟩) t = available cfg bucket t - 1 := by
        rw [available_some]
        exact TokenBucket.refilled_self (Nat.le_trans (Nat.sub_le _ _) available_le)
      have hstill : kept ttlMs (some ⟨available cfg bucket t - 1, t⟩) t = some ⟨available cfg bucket t - 1, t⟩ := by
        cases ttlMs with
        | none => exact kept_none
        | some ttl => exact kept_some (Nat.lt_add_of_pos_right (hfresh ttl rfl))
      obtain ⟨hrest, hafter⟩ := ih hstill (by rw [hless]; omega) (by rw [hless]; omega)
      rw [List.replicate_succ, List.replicate_succ, answered, after, hkept, heq, hrest, hafter, hless]
      refine ⟨rfl, ?_⟩
      rw [if_neg (Nat.succ_ne_zero n)]
      split
      · next h0 => rw [h0]
      · rw [Nat.sub_sub, Nat.add_comm 1 n]
    · exact absurd ⟨by omega, hmax⟩ hnot

/-! ## Denied calls -/

/-- Where keys do not expire, taking a denied call out of a sequence of
calls leaves the answers to the others as they were. -/
def DenialsErasable (cfg : RateLimitConfig) : Prop :=
  ∀ (ts : List Nat) (i t : Nat), ts.Pairwise (· ≤ ·) → (answered cfg none none ts)[i]? = some ⟨t, false⟩ →
    answered cfg none none (ts.eraseIdx i) = (answered cfg none none ts).eraseIdx i

theorem getElem?_answered (pre post : List Nat) (t : Nat) :
    (answered cfg none bucket (pre ++ t :: post))[pre.length]? =
      some ⟨t, (allow cfg (after cfg none bucket pre) t).1⟩ := by
  rw [answered_append, List.getElem?_append_right (by simp)]
  simp [answered]

/-- A thousand tokens a second come back with every millisecond, so a call
is only denied in the millisecond of the call before. -/
theorem allow_denied (hon : cfg.enabled = true) (hrps : 1000 ≤ cfg.rps) (hburst : 1 ≤ cfg.burst)
    (hle : cfg.burst ≤ maxRpmTokens cfg) (hdenied : (allow cfg bucket nowMs).1 = false)
    (hlast : ∀ b ∈ bucket, b.lastRefillMs ≤ nowMs) : (allow cfg bucket nowMs).2 = bucket := by
  rcases allow_cases hon (by omega) bucket nowMs with ⟨-, -, heq⟩ | ⟨hnot, heq⟩
  · rw [heq] at hdenied
    cases hdenied
  · have hnone : available cfg bucket nowMs = 0 := by
      have hmax : available cfg bucket nowMs ≤ maxRpmTokens cfg := Nat.le_trans available_le hle
      by_contra h
      exact hnot ⟨by omega, hmax⟩
    rw [heq, hnone, Nat.zero_min]
    cases bucket with
    | none =>
      rw [available_none] at hnone
      omega
    | some b =>
      have hle := hlast b rfl
      rw [available_some] at hnone
      unfold TokenBucket.refilled at hnone
      have hback : (nowMs - b.lastRefillMs) * cfg.rps < 1000 := by omega
      have hstill : nowMs = b.lastRefillMs := by
        by_contra hne
        have hgrow : cfg.rps ≤ (nowMs - b.lastRefillMs) * cfg.rps := Nat.le_mul_of_pos_left _ (by omega)
        omega
      have htokens : b.tokens = 0 := by omega
      obtain ⟨tokens, last⟩ := b
      simp only at hstill htokens
      rw [hstill, htokens]

/-- An empty bucket to which not even one token has come back. -/
theorem allow_of_dry (hon : cfg.enabled = true) (hrps : 0 < cfg.rps) {last : Nat}
    (hdry : (nowMs - last) * cfg.rps < 1000) : allow cfg (some ⟨0, last⟩) nowMs = (false, some ⟨0, nowMs⟩) := by
  have hnone : available cfg (some ⟨0, last⟩) nowMs = 0 := by
    rw [available_some]
    unfold TokenBucket.refilled
    simp only
    omega
  rcases allow_cases hon hrps (some ⟨0, last⟩) nowMs with ⟨hone, -, -⟩ | ⟨-, heq⟩
  · omega
  · rw [heq, hnone, Nat.zero_min]

/-- The call after an emptied bucket that puts off the token that was due. -/
theorem put_off (hon : cfg.enabled = true) (hrps : 0 < cfg.rps) (hburst : 1 ≤ cfg.burst)
    (hle : cfg.burst ≤ maxRpmTokens cfg) (hslow : cfg.rps < 1000) :
    (allow cfg (some ⟨0, 0⟩) (999 / cfg.rps + 1)).1 = true ∧
    allow cfg (some ⟨0, 0⟩) 1 = (false, some ⟨0, 1⟩) ∧
    (allow cfg (some ⟨0, 1⟩) (999 / cfg.rps + 1)).1 = false := by
  have hq := Nat.div_add_mod 999 cfg.rps
  have hmod : 999 % cfg.rps < cfg.rps := Nat.mod_lt _ hrps
  generalize 999 / cfg.rps = q at hq
  refine ⟨?_, allow_of_dry hon hrps (by omega), ?_⟩
  · rw [allow_iff_of_le hon hrps hle, available_some]
    have hback : 1 ≤ (q + 1) * cfg.rps / 1000 := by
      rw [Nat.le_div_iff_mul_le (by decide), Nat.add_mul, Nat.mul_comm q]
      omega
    unfold TokenBucket.refilled
    rw [Nat.sub_zero]
    omega
  · rw [allow_of_dry hon hrps]
    rw [Nat.add_sub_cancel, Nat.mul_comm]
    omega

/-- At a thousand tokens a second a denied call leaves the key as it was. -/
theorem after_denied (hon : cfg.enabled = true) (hrps : 1000 ≤ cfg.rps) (hburst : 1 ≤ cfg.burst)
    (hle : cfg.burst ≤ maxRpmTokens cfg) {t : Nat} (hsorted : ∀ u ∈ ts, u ≤ t)
    (hdenied : (allow cfg (after cfg none none ts) t).1 = false) :
    (allow cfg (after cfg none none ts) t).2 = after cfg none none ts := by
  refine allow_denied hon hrps hburst hle hdenied fun b hb => ?_
  rcases mem_of_after hon (by omega) hb with hnone | hmem
  · cases hnone
  · exact hsorted _ hmem

/-- **When denied calls leave no trace.** -/
theorem denials_erasable_iff (hon : cfg.enabled = true) (hrps : 0 < cfg.rps) (hburst : 1 ≤ cfg.burst)
    (hle : cfg.burst ≤ maxRpmTokens cfg) : DenialsErasable cfg ↔ 1000 ≤ cfg.rps := by
  constructor
  · intro h
    by_contra hslow
    obtain ⟨hbefore, hsoon, hafter⟩ := put_off hon hrps hburst hle (by omega)
    generalize 999 / cfg.rps = q at hbefore hafter
    have hempty : after cfg none none (List.replicate cfg.burst 0) = some ⟨0, 0⟩ := by
      obtain ⟨-, hafter⟩ := @spend cfg none none hon hrps cfg.burst 0 rfl nofun (by rw [available_none])
        (Nat.le_trans available_le hle)
      rwa [available_none, if_neg (by omega), Nat.sub_self] at hafter
    have hsorted : (List.replicate cfg.burst 0 ++ [1, q + 1]).Pairwise (· ≤ ·) := by
      simp [List.pairwise_append, List.pairwise_replicate]
    have hdenied : (answered cfg none none (List.replicate cfg.burst 0 ++ [1, q + 1]))[cfg.burst]? =
        some ⟨1, false⟩ := by
      have hget := @getElem?_answered cfg none (List.replicate cfg.burst 0) [q + 1] 1
      rwa [List.length_replicate, hempty, hsoon] at hget
    have hsame := h _ cfg.burst 1 hsorted hdenied
    rw [List.eraseIdx_append_of_length_le (by simp), answered_append, answered_append,
      List.eraseIdx_append_of_length_le (by simp), hempty] at hsame
    simp [answered, hsoon, hafter, hbefore] at hsame
  · intro hfast ts i t hsorted hdenied
    have hi : i < ts.length := by
      obtain ⟨hi, -⟩ := List.getElem?_eq_some_iff.mp hdenied
      simpa using hi
    obtain ⟨pre, u, post, rfl, rfl⟩ : ∃ pre u post, ts = pre ++ u :: post ∧ pre.length = i :=
      ⟨ts.take i, ts[i], ts.drop (i + 1), by simp, by simp; omega⟩
    rw [getElem?_answered, Option.some.injEq, Call.mk.injEq] at hdenied
    obtain ⟨rfl, hdenied⟩ := hdenied
    have hsame : (allow cfg (after cfg none none pre) u).2 = after cfg none none pre :=
      after_denied hon hfast hburst hle
        (fun v hv => (List.pairwise_append.mp hsorted).2.2 v hv u List.mem_cons_self) hdenied
    rw [List.eraseIdx_append_of_length_le (Nat.le_refl _), Nat.sub_self, List.eraseIdx_zero, List.tail_cons,
      answered_append, answered_append, List.eraseIdx_append_of_length_le (by simp), length_answered, Nat.sub_self,
      List.eraseIdx_zero, answered, List.tail_cons, kept_none, hsame]

/-- A token a millisecond. -/
def fast : RateLimitConfig := { enabled := true, rps := 1000, rpm := 0, burst := 1 }

theorem fast_denialsErasable : DenialsErasable fast :=
  (denials_erasable_iff rfl (by decide) (by decide) (by decide)).mpr (by decide)

/-- At one token a second, who tries again every half second is denied for
good. -/
theorem retry_starves : ([0, 500, 1000] : List Nat).Pairwise (· ≤ ·) ∧
    (answered oneToken none none [0, 500, 1000])[1]? = some ⟨500, false⟩ ∧
    answered oneToken none none ([0, 500, 1000].eraseIdx 1) ≠ (answered oneToken none none [0, 500, 1000]).eraseIdx 1 := by
  decide +kernel

/-! ## A minute -/

/-- EXPIRE's hour. -/
def hourMs : Nat := 3600 * 1000

/-- How many calls of the sixty seconds from `a` on were allowed. -/
def allowedInMinute (calls : List Call) (a : Nat) : Nat :=
  calls.countP fun c => c.allowed && a ≤ c.nowMs && c.nowMs < a + 60000

/-- In no minute of any sequence of calls more than `rpm` are allowed. -/
def MinuteWithin (cfg : RateLimitConfig) : Prop :=
  ∀ (ts : List Nat) (a : Nat), ts.Pairwise (· ≤ ·) →
    allowedInMinute (answered cfg (some hourMs) none ts) a ≤ cfg.rpm

theorem allowedInMinute_cons (c : Call) (calls : List Call) (a : Nat) : allowedInMinute (c :: calls) a =
    allowedInMinute calls a + if c.allowed ∧ a ≤ c.nowMs ∧ c.nowMs < a + 60000 then 1 else 0 := by
  simp [allowedInMinute, List.countP_cons, and_assoc]

theorem allowedInMinute_append (calls calls' : List Call) (a : Nat) :
    allowedInMinute (calls ++ calls') a = allowedInMinute calls a + allowedInMinute calls' a :=
  List.countP_append

theorem map_nowMs_answered : (answered cfg ttlMs bucket ts).map (·.nowMs) = ts := by
  induction ts generalizing bucket with
  | nil => rfl
  | cons t ts ih => simp [answered, ih]

theorem allowedInMinute_eq_zero {a : Nat} (h : ∀ t ∈ ts, a + 60000 ≤ t) :
    allowedInMinute (answered cfg ttlMs bucket ts) a = 0 := by
  refine List.countP_eq_zero.mpr fun c hc => ?_
  have hmem : c.nowMs ∈ ts := by
    have hmem := List.mem_map_of_mem (f := (·.nowMs)) hc
    rwa [map_nowMs_answered] at hmem
  have hlate := h _ hmem
  simp only [Bool.and_eq_true, decide_eq_true_eq]
  omega

/-- A call that is allowed is paid from what there is. -/
theorem allow_pays (hon : cfg.enabled = true) (hrps : 0 < cfg.rps) (bucket : Option Bucket) (t : Nat) :
    ∃ ok left, allow cfg bucket t = (ok, some ⟨left, t⟩) ∧ left + (if ok then 1 else 0) ≤ available cfg bucket t := by
  rcases allow_cases hon hrps bucket t with ⟨hone, -, heq⟩ | ⟨-, heq⟩
  · exact ⟨true, _, heq, by simp; omega⟩
  · exact ⟨false, _, heq, by simp⟩

/-- Inside the minute: what is allowed is paid from the bucket, and from
what comes back between the calls. -/
theorem minute_from (hon : cfg.enabled = true) (hrps : 0 < cfg.rps) {a tokens last : Nat} (ha : a ≤ last)
    (hlast : last < a + 60000) (hts : (last :: ts).Pairwise (· ≤ ·)) :
    ∃ waits, last + waits.sum < a + 60000 ∧
      allowedInMinute (answered cfg (some hourMs) (some ⟨tokens, last⟩) ts) a ≤
        tokens + TokenBucket.comesBack cfg.burst cfg.rps 1000 waits := by
  induction ts generalizing tokens last with
  | nil => exact ⟨[], hlast, Nat.zero_le _⟩
  | cons t ts ih =>
    obtain ⟨hfirst, hrest⟩ := List.pairwise_cons.mp hts
    have hle := hfirst t List.mem_cons_self
    by_cases ht : t < a + 60000
    · have hkept : kept (some hourMs) (some ⟨tokens, last⟩) t = some ⟨tokens, last⟩ :=
        kept_some (show t < last + hourMs by unfold hourMs; omega)
      have htokens : available cfg (some ⟨tokens, last⟩) t ≤ tokens + min ((t - last) * cfg.rps / 1000) cfg.burst := by
        rw [available_some]
        exact TokenBucket.refilled_le _ _ _
      obtain ⟨ok, left, heq, hpaid⟩ := allow_pays hon hrps (some ⟨tokens, last⟩) t
      obtain ⟨waits, hsum, hcount⟩ := @ih left t (by omega) ht hrest
      refine ⟨(t - last) :: waits, ?_, ?_⟩
      · rw [List.sum_cons]
        omega
      · rw [answered, hkept, allowedInMinute_cons, heq, TokenBucket.comesBack_cons]
        cases ok <;> simp only [Bool.false_eq_true, if_false, if_true, false_and, true_and] at hpaid hcount ⊢
        · omega
        · split <;> omega
    · refine ⟨[], hlast, ?_⟩
      have hzero : allowedInMinute (answered cfg (some hourMs) (some ⟨tokens, last⟩) (t :: ts)) a = 0 :=
        allowedInMinute_eq_zero fun u hu => by
          rcases List.mem_cons.mp hu with rfl | hu
          · omega
          · have htu := (List.pairwise_cons.mp hrest).1 u hu
            omega
      rw [hzero]
      exact Nat.zero_le _

/-- A minute begins with a full bucket at best. -/
theorem minute_le (hon : cfg.enabled = true) (hrps : 0 < cfg.rps) {a : Nat} (hts : ts.Pairwise (· ≤ ·)) :
    ∃ waits, waits.sum ≤ 59999 ∧ allowedInMinute (answered cfg (some hourMs) bucket ts) a ≤
      cfg.burst + TokenBucket.comesBack cfg.burst cfg.rps 1000 waits := by
  induction ts generalizing bucket with
  | nil => exact ⟨[], Nat.zero_le _, Nat.zero_le _⟩
  | cons t ts ih =>
    obtain ⟨ok, left, heq, hpaid⟩ := allow_pays hon hrps (kept (some hourMs) bucket t) t
    have htokens := @available_le cfg (kept (some hourMs) bucket t) t
    rw [answered, allowedInMinute_cons, heq]
    by_cases hin : a ≤ t ∧ t < a + 60000
    · obtain ⟨waits, hsum, hcount⟩ := @minute_from cfg ts hon hrps a left t hin.1 hin.2 hts
      refine ⟨waits, by omega, ?_⟩
      cases ok <;> simp only [Bool.false_eq_true, if_false, if_true, false_and, true_and] at hpaid hcount ⊢
      · omega
      · split <;> omega
    · obtain ⟨waits, hsum, hcount⟩ := @ih (some ⟨left, t⟩) (List.pairwise_cons.mp hts).2
      refine ⟨waits, hsum, ?_⟩
      rw [if_neg fun h => hin h.2]
      exact hcount

/-! ## The most in a minute -/

/-- After each of these waits as many calls as tokens have come back. -/
def spree (cfg : RateLimitConfig) : Nat → List Nat → List Nat
  | _, [] => []
  | now, k :: waits =>
    List.replicate (min (k * cfg.rps / 1000) cfg.burst) (now + k) ++ spree cfg (now + k) waits

theorem length_spree (now : Nat) (waits : List Nat) :
    (spree cfg now waits).length = TokenBucket.comesBack cfg.burst cfg.rps 1000 waits := by
  induction waits generalizing now with
  | nil => rfl
  | cons k waits ih => simp [spree, ih]

theorem mem_spree {now t : Nat} {waits : List Nat} (h : t ∈ spree cfg now waits) :
    now ≤ t ∧ t ≤ now + waits.sum := by
  induction waits generalizing now with
  | nil => cases h
  | cons k waits ih =>
    rw [List.sum_cons]
    rcases List.mem_append.mp h with h | h
    · have heq := List.eq_of_mem_replicate h
      omega
    · have hrest := ih h
      omega

theorem spree_sorted (now : Nat) (waits : List Nat) : (spree cfg now waits).Pairwise (· ≤ ·) := by
  induction waits generalizing now with
  | nil => exact .nil
  | cons k waits ih =>
    refine List.pairwise_append.mpr ⟨List.pairwise_replicate.mpr (.inr (Nat.le_refl _)), ih _, ?_⟩
    intro t ht u hu
    rw [List.eq_of_mem_replicate ht]
    exact (mem_spree hu).1

/-- All of these calls are allowed. -/
theorem answered_spree (hon : cfg.enabled = true) (hrps : 0 < cfg.rps) (hle : cfg.burst ≤ maxRpmTokens cfg)
    {now : Nat} {waits : List Nat} (hlast : ∀ b ∈ bucket, b.lastRefillMs ≤ now) (hsum : now + waits.sum < hourMs) :
    answered cfg (some hourMs) bucket (spree cfg now waits) =
      (spree cfg now waits).map fun t => ⟨t, true⟩ := by
  induction waits generalizing now bucket with
  | nil => rfl
  | cons k waits ih =>
    rw [List.sum_cons] at hsum
    have hkept : kept (some hourMs) bucket (now + k) = bucket := by
      cases bucket with
      | none => rfl
      | some b => exact kept_some (by omega)
    have hback : min (k * cfg.rps / 1000) cfg.burst ≤ available cfg bucket (now + k) := by
      cases bucket with
      | none =>
        rw [available_none]
        exact Nat.min_le_right _ _
      | some b =>
        have hb := hlast b rfl
        rw [available_some]
        exact TokenBucket.le_refilled (by omega)
    obtain ⟨hspent, hafter⟩ := spend hon hrps hkept (by simp [hourMs]) hback (Nat.le_trans available_le hle)
    rw [spree, answered_append, List.map_append, hspent, hafter, List.map_replicate, ih ?_ (by omega)]
    intro b hb
    split at hb
    · have := hlast b hb
      omega
    · cases hb
      exact Nat.le_refl _

theorem allowedInMinute_eq_length {calls : List Call} {a : Nat}
    (h : ∀ c ∈ calls, c.allowed = true ∧ a ≤ c.nowMs ∧ c.nowMs < a + 60000) :
    allowedInMinute calls a = calls.length :=
  List.countP_eq_length.mpr fun c hc => by simpa [and_assoc] using h c hc

/-- A bucket drained at once and then after each of these waits. -/
theorem spree_allowed (hon : cfg.enabled = true) (hrps : 0 < cfg.rps) (hle : cfg.burst ≤ maxRpmTokens cfg)
    {waits : List Nat} (hsum : waits.sum ≤ 59999) : ∃ ts : List Nat, ts.Pairwise (· ≤ ·) ∧
      allowedInMinute (answered cfg (some hourMs) none ts) 0 =
        cfg.burst + TokenBucket.comesBack cfg.burst cfg.rps 1000 waits := by
  refine ⟨List.replicate cfg.burst 0 ++ spree cfg 0 waits, ?_, ?_⟩
  · refine List.pairwise_append.mpr ⟨List.pairwise_replicate.mpr (.inr (Nat.le_refl _)), spree_sorted _ _, ?_⟩
    intro t ht u _
    rw [List.eq_of_mem_replicate ht]
    exact Nat.zero_le _
  · obtain ⟨hspent, hafter⟩ := @spend cfg none (some hourMs) hon hrps cfg.burst 0 rfl (by simp [hourMs])
      (by rw [available_none]) (Nat.le_trans available_le hle)
    have hlast : ∀ b ∈ after cfg (some hourMs) none (List.replicate cfg.burst 0), b.lastRefillMs ≤ 0 := by
      intro b hb
      rw [hafter] at hb
      split at hb
      · cases hb
      · cases hb
        exact Nat.le_refl _
    rw [answered_append, hspent, answered_spree hon hrps hle hlast (by unfold hourMs; omega),
      allowedInMinute_eq_length]
    · simp [length_spree]
    · intro c hc
      rcases List.mem_append.mp hc with hc | hc
      · rw [List.eq_of_mem_replicate hc]
        exact ⟨rfl, Nat.le_refl _, by decide⟩
      · obtain ⟨t, ht, rfl⟩ := List.mem_map.mp hc
        have hlate := (mem_spree ht).2
        exact ⟨rfl, Nat.zero_le _, by show t < 0 + 60000; omega⟩

/-- What a bucket fuller than the ceiling, once cut down, refills to. -/
theorem available_cut (hover : cfg.rpm < cfg.burst) (t : Nat) : available cfg (some ⟨cfg.rpm, t⟩) t = cfg.rpm := by
  rw [available_some]
  exact TokenBucket.refilled_self (Nat.le_of_lt hover)

/-- Of two calls a second after the bucket was emptied one is allowed. -/
theorem second_later (hon : cfg.enabled = true) (hrps : 0 < cfg.rps) (hrpm : 0 < cfg.rpm)
    (hover : cfg.rpm < cfg.burst) :
    1 ≤ allowedInMinute (answered cfg (some hourMs) (some ⟨0, 0⟩) [1000, 1000]) 0 := by
  have hmax : maxRpmTokens cfg = cfg.rpm := if_pos hrpm
  have hback : 1 ≤ available cfg (some ⟨0, 0⟩) 1000 := by
    have hle : min (1000 * cfg.rps / 1000) cfg.burst ≤ available cfg (some ⟨0, 0⟩) 1000 := by
      rw [available_some]
      exact TokenBucket.le_refilled (Nat.le_refl _)
    omega
  have hkept : kept (some hourMs) (some ⟨0, 0⟩) 1000 = some ⟨0, 0⟩ := kept_some (by decide)
  rw [answered, hkept, allowedInMinute_cons]
  rcases allow_cases hon hrps (some ⟨0, 0⟩) 1000 with ⟨-, -, heq⟩ | ⟨hnot, heq⟩
  · rw [heq]
    simp
  · -- More came back than the ceiling: denied, and cut down to it.
    have hcut : min (available cfg (some ⟨0, 0⟩) 1000) cfg.rpm = cfg.rpm := by omega
    have hkept' : kept (some hourMs) (some ⟨cfg.rpm, 1000⟩) 1000 = some ⟨cfg.rpm, 1000⟩ :=
      kept_some (show 1000 < 1000 + hourMs by decide)
    have hsecond : (allow cfg (some ⟨cfg.rpm, 1000⟩) 1000).1 = true := by
      rw [allow_iff hon hrps, available_cut hover, hmax]
      omega
    rw [heq, hmax, hcut, answered, hkept', allowedInMinute_cons, hsecond]
    simp

/-- Over a bucket fuller than the ceiling the first call is denied and cuts
it down to `rpm`; that many are allowed, and one more a second later. -/
theorem overfull_allowed (hon : cfg.enabled = true) (hrps : 0 < cfg.rps) (hrpm : 0 < cfg.rpm)
    (hover : maxRpmTokens cfg < cfg.burst) : ∃ ts : List Nat, ts.Pairwise (· ≤ ·) ∧
      cfg.rpm < allowedInMinute (answered cfg (some hourMs) none ts) 0 := by
  have hmax : maxRpmTokens cfg = cfg.rpm := if_pos hrpm
  rw [hmax] at hover
  have hfirst : allow cfg none 0 = (false, some ⟨cfg.rpm, 0⟩) := by
    rcases allow_cases hon hrps none 0 with ⟨-, hle, -⟩ | ⟨-, heq⟩
    · rw [available_none, hmax] at hle
      omega
    · rw [heq, available_none, hmax, Nat.min_eq_right (Nat.le_of_lt hover)]
  obtain ⟨hspent, hafter⟩ := @spend cfg (some ⟨cfg.rpm, 0⟩) (some hourMs) hon hrps cfg.rpm 0
    (kept_some (show 0 < 0 + hourMs by decide)) (by simp [hourMs]) (by rw [available_cut hover])
    (by rw [available_cut hover, hmax])
  rw [available_cut hover, if_neg (by omega), Nat.sub_self] at hafter
  have hlater := second_later hon hrps hrpm hover
  refine ⟨0 :: (List.replicate cfg.rpm 0 ++ [1000, 1000]), ?_, ?_⟩
  · simp [List.pairwise_append, List.pairwise_replicate]
  · have hnone : kept (some hourMs) none 0 = none := rfl
    have hall : allowedInMinute (List.replicate cfg.rpm ⟨0, true⟩) 0 = cfg.rpm := by
      rw [allowedInMinute_eq_length (by simp), List.length_replicate]
    rw [answered, hnone, hfirst, allowedInMinute_cons, answered_append, allowedInMinute_append, hspent, hafter, hall]
    omega

/-- **When `rpm` is a ceiling.** No minute of any sequence of calls has more
than `rpm` that are allowed, if and only if the bucket and what comes back
in a minute, however it is divided, are no more than that. -/
theorem minute_within_iff (hon : cfg.enabled = true) (hrps : 0 < cfg.rps) (hrpm : 0 < cfg.rpm) :
    MinuteWithin cfg ↔ ∀ waits : List Nat, waits.sum ≤ 59999 →
      cfg.burst + (waits.map fun k => min (k * cfg.rps / 1000) cfg.burst).sum ≤ cfg.rpm := by
  constructor
  · intro h waits hsum
    by_cases hle : cfg.burst ≤ maxRpmTokens cfg
    · obtain ⟨ts, hts, hcount⟩ := spree_allowed hon hrps hle hsum
      have hwithin := h ts 0 hts
      rw [hcount] at hwithin
      exact hwithin
    · obtain ⟨ts, hts, hcount⟩ := overfull_allowed hon hrps hrpm (by omega)
      have hwithin := h ts 0 hts
      omega
  · intro h ts a hts
    obtain ⟨waits, hsum, hcount⟩ := @minute_le cfg none ts hon hrps a hts
    exact Nat.le_trans hcount (h waits hsum)

/-- In particular when the bucket and a minute at full rate fit. -/
theorem waits_le_of_le (h : cfg.burst + 60 * cfg.rps ≤ cfg.rpm) {waits : List Nat} (hsum : waits.sum ≤ 59999) :
    cfg.burst + (waits.map fun k => min (k * cfg.rps / 1000) cfg.burst).sum ≤ cfg.rpm := by
  have hback := @TokenBucket.comesBack_le cfg.burst cfg.rps 1000 waits
  have hfull : cfg.rps * waits.sum ≤ cfg.rps * 59999 := Nat.mul_le_mul_left _ hsum
  unfold TokenBucket.comesBack at hback
  omega

def roomy : RateLimitConfig := { enabled := true, rps := 1, rpm := 61, burst := 1 }

theorem roomy_minuteWithin : MinuteWithin roomy :=
  (minute_within_iff rfl (by decide) (by decide)).mpr fun _ hsum => waits_le_of_le (by decide) hsum

/-- One request a minute, of which two are allowed within a second. -/
def onePerMinute : RateLimitConfig := { enabled := true, rps := 1, rpm := 1, burst := 1 }

theorem onePerMinute_exceeded : onePerMinute.enabled = true ∧ 0 < onePerMinute.rps ∧ 0 < onePerMinute.rpm ∧
    ([0, 1000] : List Nat).Pairwise (· ≤ ·) ∧
    onePerMinute.rpm < allowedInMinute (answered onePerMinute (some hourMs) none [0, 1000]) 0 := by
  decide +kernel

end NekoGuard.RateLimit
