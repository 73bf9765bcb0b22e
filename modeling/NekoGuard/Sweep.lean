/-
pow.rs: `new_challenge`, `check_pow` and `sweep`, call after call, at
instants that never go back. A sweep is only seen at the very instant a
challenge expires (`sweeps_unseen_iff`).
-/
import NekoGuard.Samples

namespace NekoGuard.Pow

/-! ## Calls -/

inductive Call where
  | newChallenge (challenge : Str) (ttl : Nat)
  | checkPow (challenge nonce : Str)
  | sweep
deriving DecidableEq, Repr

/-- A call, and what `Instant::now()` gives it. -/
structure TimedCall where
  now : Nat
  call : Call
deriving DecidableEq, Repr

/-- What a call does to the map. -/
def apply (map : ChallengeMap) (x : TimedCall) : ChallengeMap :=
  match x.call with
  | .newChallenge c ttl => insert map c (x.now + ttl)
  | .checkPow c _ => remove map c
  | .sweep => sweep map x.now

def after (map : ChallengeMap) (xs : List TimedCall) : ChallengeMap := xs.foldl apply map

variable (sha256 : Sha256)

/-- `check_pow`, by what it removes from the map. -/
def checkPow (expiry : Option Nat) (challenge nonce : Str) (now : Nat) : Rust Bool :=
  match expiry with
  | none => .ok false
  | some expiry => judge sha256 challenge nonce expiry now

/-- The answers of the `check_pow` calls. -/
def answers (map : ChallengeMap) : List TimedCall → List (Rust Bool)
  | [] => []
  | x :: xs =>
    match x.call with
    | .checkPow c nonce => checkPow sha256 (map c) c nonce x.now :: answers (apply map x) xs
    | _ => answers (apply map x) xs

def notSweep (x : TimedCall) : Bool := x.call != .sweep

/-- The challenge a call makes. -/
def TimedCall.made (x : TimedCall) : Option Str :=
  match x.call with
  | .newChallenge c _ => some c
  | _ => none

/-- The sweeps can be left out. -/
def SweepsUnseen (xs : List TimedCall) : Prop :=
  answers sha256 (fun _ => none) xs = answers sha256 (fun _ => none) (xs.filter notSweep)

/-! ## What is in the map -/

variable {sha256} {map map' : ChallengeMap} {xs : List TimedCall} {c : Str} {e : Nat}

theorem after_snoc (x : TimedCall) : after map (xs ++ [x]) = apply (after map xs) x := by
  simp [after]

/-- A list with one more at its end, taken apart. -/
theorem snoc_eq_append_cons {α : Type} {xs pre mid : List α} {x y : α} :
    xs ++ [x] = pre ++ y :: mid ↔
      (xs = pre ∧ x = y ∧ mid = []) ∨ ∃ mid', mid = mid' ++ [x] ∧ xs = pre ++ y :: mid' := by
  constructor
  · intro h
    rcases List.eq_nil_or_concat' mid with rfl | ⟨mid', z, rfl⟩
    · obtain ⟨rfl, hx⟩ := List.append_inj' h rfl
      exact .inl ⟨rfl, by simpa using hx, rfl⟩
    · rw [← List.cons_append, ← List.append_assoc] at h
      obtain ⟨rfl, hx⟩ := List.append_inj' h rfl
      exact .inr ⟨mid', by simpa using hx.symm, rfl⟩
  · rintro (⟨rfl, rfl, rfl⟩ | ⟨mid', rfl, rfl⟩)
    · rfl
    · simp

/-- The challenge was made, with that expiry, and neither checked since nor
swept once it had expired. -/
def Held (xs : List TimedCall) (c : Str) (e : Nat) : Prop :=
  ∃ pre t ttl mid, xs = pre ++ ⟨t, .newChallenge c ttl⟩ :: mid ∧ e = t + ttl ∧
    (∀ u nonce, ⟨u, .checkPow c nonce⟩ ∉ mid) ∧ ∀ u, ⟨u, .sweep⟩ ∈ mid → u < e

/-- A call that has nothing to do with a challenge. -/
theorem held_snoc {x : TimedCall} (hmade : x.made ≠ some c) : Held (xs ++ [x]) c e ↔
    Held xs c e ∧ (∀ nonce, x.call ≠ .checkPow c nonce) ∧ (x.call = .sweep → x.now < e) := by
  constructor
  · intro ⟨pre, t, ttl, mid, hxs, he, hcheck, hsweep⟩
    rcases snoc_eq_append_cons.mp hxs with ⟨-, rfl, -⟩ | ⟨mid', rfl, rfl⟩
    · exact absurd rfl hmade
    · refine ⟨⟨pre, t, ttl, mid', rfl, he, fun u n hm => hcheck u n (List.mem_append_left _ hm),
        fun u hm => hsweep u (List.mem_append_left _ hm)⟩, fun nonce hx => ?_, fun hx => ?_⟩
      · exact hcheck x.now nonce (List.mem_append_right _ (by simp [← hx]))
      · exact hsweep x.now (List.mem_append_right _ (by simp [← hx]))
  · rintro ⟨⟨pre, t, ttl, mid, rfl, he, hcheck, hsweep⟩, hnot, hlate⟩
    refine ⟨pre, t, ttl, mid ++ [x], by simp, he, fun u nonce hm => ?_, fun u hm => ?_⟩
    · rcases List.mem_append.mp hm with hm | hm
      · exact hcheck u nonce hm
      · rw [List.mem_singleton] at hm
        exact hnot nonce (by rw [← hm])
    · rcases List.mem_append.mp hm with hm | hm
      · exact hsweep u hm
      · rw [List.mem_singleton] at hm
        have hnow := hlate (by rw [← hm])
        rwa [← hm] at hnow

theorem nodup_made_snoc {x : TimedCall} (h : ((xs ++ [x]).filterMap TimedCall.made).Nodup) :
    (xs.filterMap TimedCall.made).Nodup ∧ ∀ c ∈ x.made, c ∉ xs.filterMap TimedCall.made := by
  rw [List.filterMap_append] at h
  obtain ⟨hxs, -, hdisjoint⟩ := List.nodup_append.mp h
  refine ⟨hxs, fun c hc hmem => hdisjoint c hmem c ?_ rfl⟩
  simp only [List.filterMap_cons, List.filterMap_nil, Option.mem_def.mp hc, List.mem_singleton]

/-- **What the map holds**, when no challenge is made twice. -/
theorem after_eq_some_iff (hnodup : (xs.filterMap TimedCall.made).Nodup) :
    after (fun _ => none) xs c = some e ↔ Held xs c e := by
  induction xs using List.reverseRecOn with
  | nil =>
    refine ⟨nofun, ?_⟩
    rintro ⟨pre, t, ttl, mid, h, -⟩
    simp at h
  | append_singleton xs x ih =>
    obtain ⟨hxs, hfresh⟩ := nodup_made_snoc hnodup
    have ih := ih hxs
    obtain ⟨now, call⟩ := x
    rw [after_snoc]
    cases call with
    | newChallenge d ttl =>
      by_cases hd : c = d
      · subst hd
        have hnone : ¬Held xs c e := by
          rintro ⟨pre, t, ttl', mid, rfl, -⟩
          exact hfresh c rfl (by simp [TimedCall.made])
        simp only [apply, insert, Function.update_self, Option.some.injEq]
        constructor
        · rintro rfl
          exact ⟨xs, now, ttl, [], rfl, rfl, nofun, nofun⟩
        · intro ⟨pre, t, ttl', mid, h, he, hcheck, hsweep⟩
          rcases snoc_eq_append_cons.mp h with ⟨-, heq, -⟩ | ⟨mid', rfl, rfl⟩
          · cases heq
            exact he.symm
          · exact absurd ⟨pre, t, ttl', mid', rfl, he, fun u n hm => hcheck u n (List.mem_append_left _ hm),
              fun u hm => hsweep u (List.mem_append_left _ hm)⟩ hnone
      · simp only [apply, insert, Function.update_of_ne hd, ih]
        rw [held_snoc (by simpa [TimedCall.made] using Ne.symm hd)]
        simp
    | checkPow d nonce =>
      rw [held_snoc (by simp [TimedCall.made])]
      by_cases hd : c = d
      · subst hd
        simp [apply, remove]
      · simp only [apply, remove, Function.update_of_ne hd, ih]
        simp [Ne.symm hd]
    | sweep =>
      rw [held_snoc (by simp [TimedCall.made]), ← ih]
      simp [apply, sweep, Option.filter_eq_some_iff]

/-- A challenge is made at one place only. -/
theorem made_once {pre pre' mid mid' : List TimedCall} {x x' : TimedCall}
    (hnodup : ((pre ++ x :: mid).filterMap TimedCall.made).Nodup) (hx : x.made = some c) (hx' : x'.made = some c)
    (h : pre ++ x :: mid = pre' ++ x' :: mid') : x = x' ∧ mid = mid' := by
  have hlater : ∀ {a b m : List TimedCall} {y y' : TimedCall}, y.made = some c → y'.made = some c →
      ((a ++ y :: (b ++ y' :: m)).filterMap TimedCall.made).Nodup → False := by
    intro a b m y y' hy hy' hn
    simp only [List.filterMap_append, List.filterMap_cons, hy, hy'] at hn
    have hn := (List.nodup_append.mp hn).2.1
    exact (List.nodup_cons.mp hn).1 (by simp)
  rcases List.append_eq_append_iff.mp h with ⟨a, rfl, ha⟩ | ⟨a, rfl, ha⟩
  · cases a with
    | nil => exact List.cons.inj ha
    | cons y a =>
      obtain ⟨rfl, rfl⟩ := List.cons.inj ha
      exact (hlater hx hx' hnodup).elim
  · cases a with
    | nil =>
      obtain ⟨rfl, rfl⟩ := List.cons.inj ha
      exact ⟨rfl, rfl⟩
    | cons y a =>
      obtain ⟨rfl, rfl⟩ := List.cons.inj ha
      rw [h] at hnodup
      exact (hlater hx' hx hnodup).elim

/-- A sweep once it has expired takes a challenge away. -/
theorem after_swept {pre mid : List TimedCall} {t ttl u : Nat}
    (hnodup : ((pre ++ ⟨t, .newChallenge c ttl⟩ :: mid).filterMap TimedCall.made).Nodup)
    (hsweep : ⟨u, .sweep⟩ ∈ mid) (hexp : t + ttl ≤ u) :
    after (fun _ => none) (pre ++ ⟨t, .newChallenge c ttl⟩ :: mid) c = none := by
  rw [Option.eq_none_iff_forall_ne_some]
  intro e he
  obtain ⟨pre', t', ttl', mid', heq, rfl, -, hlate⟩ := (after_eq_some_iff hnodup).mp he
  obtain ⟨hx, rfl⟩ := made_once hnodup rfl rfl heq
  cases hx
  have hbefore := hlate u hsweep
  omega

/-- Without the sweeps only the expiry of a check decides. -/
theorem held_filter : Held (xs.filter notSweep) c e ↔ ∃ pre t ttl mid,
    xs = pre ++ ⟨t, .newChallenge c ttl⟩ :: mid ∧ e = t + ttl ∧ ∀ u nonce, ⟨u, .checkPow c nonce⟩ ∉ mid := by
  constructor
  · rintro ⟨pre, t, ttl, mid, h, he, hcheck, -⟩
    obtain ⟨front, back, rfl, rfl, hback⟩ := List.filter_eq_append_iff.mp h
    obtain ⟨skipped, mid', rfl, -, -, rfl⟩ := List.filter_eq_cons_iff.mp hback
    exact ⟨front ++ skipped, t, ttl, mid', by simp, he, fun u nonce hm =>
      hcheck u nonce (List.mem_filter.mpr ⟨hm, rfl⟩)⟩
  · rintro ⟨pre, t, ttl, mid, rfl, he, hcheck⟩
    refine ⟨pre.filter notSweep, t, ttl, mid.filter notSweep, ?_, he,
      fun u nonce hm => hcheck u nonce (List.mem_filter.mp hm).1, fun u hm => ?_⟩
    · simp [List.filter_append, List.filter_cons, notSweep]
    · have hnot := (List.mem_filter.mp hm).2
      simp [notSweep] at hnot

/-! ## Answers -/

/-- The answers agree when they do call by call. -/
theorem answers_filter_iff : answers sha256 map xs = answers sha256 map' (xs.filter notSweep) ↔
    ∀ pre now c nonce post, xs = pre ++ ⟨now, .checkPow c nonce⟩ :: post →
      checkPow sha256 (after map pre c) c nonce now =
        checkPow sha256 (after map' (pre.filter notSweep) c) c nonce now := by
  induction xs generalizing map map' with
  | nil => simp [answers]
  | cons x xs ih =>
    have hsplit : ∀ P : List TimedCall → Nat → Str → Str → Prop,
        (∀ pre now c nonce post, x :: xs = pre ++ ⟨now, .checkPow c nonce⟩ :: post → P pre now c nonce) ↔
          (∀ c nonce, x.call = .checkPow c nonce → P [] x.now c nonce) ∧
            ∀ pre now c nonce post, xs = pre ++ ⟨now, .checkPow c nonce⟩ :: post → P (x :: pre) now c nonce := by
      intro P
      constructor
      · intro h
        exact ⟨fun c nonce hx => h [] x.now c nonce xs (by simp [← hx]),
          fun pre now c nonce post hxs => h (x :: pre) now c nonce post (by simp [hxs])⟩
      · intro ⟨hhead, htail⟩ pre now c nonce post h
        cases pre with
        | nil =>
          simp only [List.nil_append, List.cons.injEq] at h
          obtain ⟨rfl, -⟩ := h
          exact hhead c nonce rfl
        | cons y pre =>
          simp only [List.cons_append, List.cons.injEq] at h
          obtain ⟨rfl, hxs⟩ := h
          exact htail pre now c nonce post hxs
    rw [hsplit]
    obtain ⟨now, call⟩ := x
    cases call with
    | newChallenge d ttl =>
      simp only [answers, List.filter_cons, notSweep, reduceCtorEq, bne_iff_ne, ne_eq, not_false_eq_true, if_true,
        false_implies, implies_true, true_and]
      exact ih
    | checkPow d nonce =>
      simp only [answers, List.filter_cons, notSweep, reduceCtorEq, bne_iff_ne, ne_eq, not_false_eq_true, if_true,
        List.cons.injEq, Call.checkPow.injEq, and_imp]
      refine and_congr ?_ ih
      constructor
      · rintro h c nonce rfl rfl
        exact h
      · intro h
        exact h d nonce rfl rfl
    | sweep =>
      simp only [answers, List.filter_cons, notSweep, reduceCtorEq, bne_self_eq_false, Bool.false_eq_true, if_false,
        false_implies, implies_true, true_and]
      exact ih

/-- **When sweeps are not seen.** Leaving out all sweeps changes no answer, if
and only if no challenge is first checked at the very instant it expires, with
a nonce that solves it and after a sweep at that instant. -/
theorem sweeps_unseen_iff (hts : (xs.map TimedCall.now).Pairwise (· ≤ ·))
    (hnodup : (xs.filterMap TimedCall.made).Nodup) :
    SweepsUnseen sha256 xs ↔ ∀ pre t c ttl mid nonce post,
      xs = pre ++ ⟨t, .newChallenge c ttl⟩ :: (mid ++ ⟨t + ttl, .checkPow c nonce⟩ :: post) →
        (∀ u n, ⟨u, .checkPow c n⟩ ∉ mid) → ⟨t + ttl, .sweep⟩ ∈ mid → ¬Solves sha256 c nonce := by
  unfold SweepsUnseen
  rw [answers_filter_iff]
  have hpre : ∀ {pre post}, xs = pre ++ post → (pre.filterMap TimedCall.made).Nodup ∧
      ((pre.filter notSweep).filterMap TimedCall.made).Nodup := by
    rintro pre post rfl
    rw [List.filterMap_append] at hnodup
    have hn := (List.nodup_append.mp hnodup).1
    exact ⟨hn, hn.sublist ((List.filter_sublist).filterMap _)⟩
  constructor
  · intro h pre t c ttl mid nonce post hxs hcheck hsweep
    have hxs' : xs = (pre ++ ⟨t, .newChallenge c ttl⟩ :: mid) ++ ⟨t + ttl, .checkPow c nonce⟩ :: post := by
      rw [hxs, List.append_assoc, List.cons_append]
    obtain ⟨hn, hnf⟩ := hpre hxs'
    have hkept := (after_eq_some_iff hnf).mpr (held_filter.mpr ⟨pre, t, ttl, mid, rfl, rfl, hcheck⟩)
    have hswept := after_swept hn hsweep (Nat.le_refl _)
    have hsame := h _ _ _ _ _ hxs'
    rw [hkept, hswept] at hsame
    intro hsolves
    simp [checkPow, judge_ok, hsolves] at hsame
  · intro h pre now c nonce post hxs
    obtain ⟨hn, hnf⟩ := hpre hxs
    cases hN : after (fun _ => none) (pre.filter notSweep) c with
    | none =>
      cases hM : after (fun _ => none) pre c with
      | none => rfl
      | some e =>
        obtain ⟨p, t, ttl, mid, hp, he, hcheck, -⟩ := (after_eq_some_iff hn).mp hM
        rw [(after_eq_some_iff hnf).mpr (held_filter.mpr ⟨p, t, ttl, mid, hp, he, hcheck⟩)] at hN
        cases hN
    | some e =>
      obtain ⟨p, t, ttl, mid, rfl, rfl, hcheck⟩ := held_filter.mp ((after_eq_some_iff hnf).mp hN)
      by_cases hlate : ∀ u, (⟨u, .sweep⟩ : TimedCall) ∈ mid → u < t + ttl
      · rw [(after_eq_some_iff hn).mpr ⟨p, t, ttl, mid, rfl, rfl, hcheck, hlate⟩]
      · -- It was swept, so it has expired by now, or is about to.
        push Not at hlate
        obtain ⟨u, hu, hexp⟩ := hlate
        have hunow : u ≤ now := by
          rw [hxs, List.map_append] at hts
          exact (List.pairwise_append.mp hts).2.2 u (List.mem_map.mpr ⟨⟨u, .sweep⟩, by simp [hu], rfl⟩) now
            (by simp)
        have hrefused : ¬(now ≤ t + ttl ∧ Solves sha256 c nonce) := by
          intro ⟨hle, hsolves⟩
          obtain rfl : u = t + ttl := by omega
          obtain rfl : now = t + ttl := by omega
          exact h p t c ttl mid nonce post (by rw [hxs, List.append_assoc, List.cons_append]) hcheck hu hsolves
        rw [after_swept hn hu hexp]
        simp only [checkPow, judge_ok, hrefused, decide_false]

/-- Swept before it expires, and checked in time. -/
def sweptEarly : List TimedCall :=
  [⟨0, .newChallenge ['c'] 5⟩, ⟨3, .sweep⟩, ⟨5, .checkPow ['c'] ['0']⟩, ⟨9, .sweep⟩]

theorem sweptEarly_unseen : SweepsUnseen Sample.sha256 sweptEarly := by
  refine (sweeps_unseen_iff (by decide) (by decide)).mpr ?_
  intro pre t c ttl mid nonce post h _ hmem _
  have hnew : (⟨t, .newChallenge c ttl⟩ : TimedCall) ∈ sweptEarly := by simp [h]
  have hsweep : (⟨t + ttl, .sweep⟩ : TimedCall) ∈ sweptEarly := by simp [h, hmem]
  simp only [sweptEarly, List.mem_cons, TimedCall.mk.injEq, Call.newChallenge.injEq, reduceCtorEq, and_true,
    and_false, List.not_mem_nil, or_false, false_or] at hnew hsweep
  omega

/-- Swept and checked at the instant it expires. -/
def sweptLate : List TimedCall :=
  [⟨0, .newChallenge ['c'] 5⟩, ⟨5, .sweep⟩, ⟨5, .checkPow ['c'] ['0']⟩]

theorem sweptLate_seen : (sweptLate.map TimedCall.now).Pairwise (· ≤ ·) ∧
    (sweptLate.filterMap TimedCall.made).Nodup ∧ ¬SweepsUnseen Sample.sha256 sweptLate := by
  unfold SweepsUnseen
  decide +kernel

end NekoGuard.Pow
