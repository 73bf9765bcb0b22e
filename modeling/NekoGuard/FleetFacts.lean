/-
What a fleet of processes guarantees of the challenges it mints: each is
accepted once at most, in time and for a solution (`challenges_are_one_time`),
and only by the process that minted it (`verify_accepts_iff`).
-/
import NekoGuard.Fleet
import NekoGuard.Samples

namespace NekoGuard.Fleet

open Lib Lib.Ticket

variable {ι θ : Type} {sha256 : Pow.Sha256} {lc : LocalCrates} {cr : SealingCrates} {sm : SessionManager}
variable {st : Store ι θ} {now : Nat}

/-! ## Challenges are one-time -/

/-- The challenges whose solutions were answered with a session cookie. -/
def cookieChallenges {π : Type} (h : List (Entry π)) : List Str :=
  h.filterMap fun
    | .cookie _ c _ _ _ => some c
    | _ => none

/-- What each answer of `check_pow`, and each session cookie, rests on. -/
structure OneTime (sha256 : Pow.Sha256) (st : Store ι θ) : Prop where
  /-- A challenge is judged after it was minted and taken out, by its own
  process; the judgement is good exactly in time and for a solution. -/
  judged : ∀ later p c n now ok earlier, st.history = later ++ .judged p c n now ok :: earlier →
    .took p c n ∈ earlier ∧
      ∃ t e, .minted (p.1, t) c e ∈ earlier ∧ (ok = true ↔ now ≤ e ∧ Pow.Solves sha256 c n)
  /-- No challenge is judged twice. -/
  once : ∀ later p c n now ok earlier, st.history = later ++ .judged p c n now ok :: earlier →
    ∀ q n' now' ok', .judged q c n' now' ok' ∉ earlier
  /-- Whatever came of it, a challenge that was taken is gone. -/
  consumed : ∀ p c n, .took p c n ∈ st.history → ∀ i, st.map i c = none
  cookies_nodup : (cookieChallenges st.history).Nodup
  cookies_solved : ∀ p c n ip resp, .cookie p c n ip resp ∈ st.history →
    ∃ t e now, .minted (p.1, t) c e ∈ st.history ∧ .judged p c n now true ∈ st.history ∧ now ≤ e ∧
      Pow.Solves sha256 c n

/-- An entry of a sound history is justified by the entries before it. -/
theorem Sound.justified {later earlier : List (Entry (ι × θ))} {x : Entry (ι × θ)}
    (hs : Sound sha256 (later ++ x :: earlier)) : Justified sha256 earlier x :=
  hs.of_append.1

theorem Sound.of_mem {h : List (Entry (ι × θ))} {x : Entry (ι × θ)} (hs : Sound sha256 h) (hx : x ∈ h) :
    ∃ earlier, Justified sha256 earlier x ∧ (∀ y ∈ earlier, y ∈ h) ∧ Sound sha256 earlier := by
  obtain ⟨later, earlier, heq⟩ := List.append_of_mem hx
  subst heq
  exact ⟨earlier, hs.justified, fun y hy => by simp [hy], hs.of_append.2⟩

theorem cookieChallenges_nodup {h : List (Entry (ι × θ))} (ho : Orderly (ledger h)) :
    (cookieChallenges h).Nodup := by
  induction h with
  | nil => exact List.nodup_nil
  | cons x h ih =>
    have hrest := ih (orderly_of_append (l := [x]) ho)
    cases x with
    | cookie p c n ip resp =>
      refine List.nodup_cons.mpr ⟨fun hmem => ?_, hrest⟩
      obtain ⟨y, hy, hc⟩ := List.mem_filterMap.mp hmem
      cases y with
      | cookie q c' n' ip' resp' =>
        simp only [Option.some.injEq] at hc
        subst hc
        have := ho.rank_lt (n := ⟨q, .cash⟩) (List.mem_filterMap.mpr ⟨_, hy, rfl⟩)
        exact absurd this (Nat.lt_irrefl _)
      | _ => cases hc
    | _ => exact hrest

theorem Good.oneTime (hg : Good sha256 now st) : OneTime sha256 st where
  judged := fun later p c n t ok earlier h => by
    have hs := hg.sound
    rw [h] at hs
    obtain ⟨htook, s, e, hmint, hok⟩ := hs.justified
    refine ⟨htook, s, e, hmint, ?_⟩
    rw [hok]
    exact decide_eq_true_iff
  once := fun later p c n t ok earlier h q n' t' ok' hmem => by
    have ho := hg.orderly
    rw [h] at ho
    have := (orderly_of_append ho).rank_lt (n := ⟨q, .judge ok'⟩) (List.mem_filterMap.mpr ⟨_, hmem, rfl⟩)
    exact absurd this (Nat.lt_irrefl _)
  consumed := fun p c n h i => by
    cases hmap : st.map i c with
    | none => rfl
    | some e =>
      have hrank := hg.orderly.rank_le (m := ⟨p, .take⟩) (List.mem_filterMap.mpr ⟨_, h, rfl⟩)
      have hlive : stage (ledger st.history) c = .live := (hg.live i c e hmap).1
      rw [hlive] at hrank
      exact absurd hrank (Nat.not_succ_le_self 2)
  cookies_nodup := cookieChallenges_nodup hg.orderly
  cookies_solved := fun p c n ip resp h => by
    obtain ⟨h₁, ⟨t, hj⟩, hsub₁, hs₁⟩ := hg.sound.of_mem h
    obtain ⟨h₂, ⟨-, s, e, hmint, hok⟩, hsub₂, -⟩ := hs₁.of_mem hj
    obtain ⟨hle, hsolves⟩ := decide_eq_true_iff.mp hok.symm
    exact ⟨s, e, t, hsub₁ _ (hsub₂ _ hmint), hsub₁ _ hj, hle, hsolves⟩

/-! ## Where an untried challenge is -/

/-- A challenge that was minted, has not expired, and was presented nowhere yet. -/
structure Untried (s : Cluster (ι × θ) (Store ι θ) Task) (i : ι) (c : Str) (e : Nat) : Prop where
  minted : ∃ t, .minted (i, t) c e ∈ s.shared.history
  inTime : s.clock < e
  notTaken : ∀ q n, .took q c n ∉ s.shared.history
  notRefused : ∀ q n, .refused q c n ∉ s.shared.history

theorem Untried.live {s : Cluster (ι × θ) (Store ι θ) Task} {i : ι} {c : Str} {e : Nat}
    (hg : Good sha256 s.clock s.shared) (h : Untried s i c e) : s.shared.map i c = some e := by
  obtain ⟨t, ht⟩ := h.minted
  refine hg.kept i t c e ht ?_ h.inTime
  have hlow := rank_of_minted hg.orderly ht
  have hhigh : ¬2 < (stageOf s.shared.history c).rank := by
    intro hlt
    obtain ⟨m, hm, hact⟩ := hg.orderly.exists_take hlt
    obtain ⟨x, hx, hmove⟩ := List.mem_filterMap.mp hm
    cases x with
    | took q c' n =>
      simp only [Entry.move, Option.some.injEq, Prod.mk.injEq] at hmove
      exact h.notTaken q n (hmove.1 ▸ hx)
    | refused q c' n => cases hmove
    | _ =>
      simp only [Entry.move, Option.some.injEq, Prod.mk.injEq] at hmove
      rw [← hmove.2] at hact
      cases hact
  cases hs : stageOf s.shared.history c with
  | live => rfl
  | unborn => rw [hs] at hlow; exact absurd hlow (Nat.not_succ_le_zero 1)
  | drawn r => rw [hs] at hlow; exact absurd hlow (Nat.not_succ_le_self 1)
  | _ => rw [hs] at hhigh; exact absurd (by simp [Stage.rank]) hhigh

theorem Untried.ne_nil {s : Cluster (ι × θ) (Store ι θ) Task} {i : ι} {c : Str} {e : Nat}
    (hg : Good sha256 s.clock s.shared) (h : Untried s i c e) : c ≠ [] := by
  obtain ⟨t, ht⟩ := h.minted
  obtain ⟨h₁, hdrew, -, hs₁⟩ := hg.sound.of_mem ht
  obtain ⟨h₂, ⟨bytes, hc⟩, -, -⟩ := hs₁.of_mem hdrew
  intro hnil
  have hlen : c.length = 32 := by
    rw [hc, Pow.challengeOf, Hex.length_encode]
    simp
  rw [hnil] at hlen
  cases hlen

/-- The map of any other process does not have it. -/
theorem Untried.elsewhere {s : Cluster (ι × θ) (Store ι θ) Task} {i j : ι} {c : Str} {e : Nat}
    (hg : Good sha256 s.clock s.shared) (h : Untried s i c e) (hj : j ≠ i) :
    s.shared.map j c = none := by
  cases hmap : s.shared.map j c with
  | none => rfl
  | some x =>
    obtain ⟨-, t', ht'⟩ := hg.live j c x hmap
    obtain ⟨t, ht⟩ := h.minted
    have hq := (minted_unique hg.orderly ht ht').1
    simp only [Prod.mk.injEq] at hq
    exact absurd hq.1.symm hj

/-! ## The fleet -/

theorem inv_start (clock : Nat) : Cluster.Inv (Good sha256) Held (start (ι := ι) (θ := θ) clock) where
  shared := ⟨trivial, trivial, nofun, nofun⟩
  proc := fun _ => trivial

variable [DecidableEq ι]

/-- The interleaving obligations of the invariant. -/
theorem keeps : Cluster.Keeps (act (ι := ι) (θ := θ) sha256 lc cr sm) Fresh (Good sha256) Held where
  tick := fun c d st hg => by
    refine ⟨⟨hg.orderly, hg.sound, hg.live, fun i t c' e h hlive hlt => ?_⟩, fun q t ht => ?_⟩
    · exact hg.kept i t c' e h hlive (by omega)
    · cases t with
      | sweeping s => exact Nat.le_add_right_of_le ht
      | _ => exact ht
  own := fun _ _ _ _ _ _ _ hfresh hg hh ha => (act_trans ha).own hfresh hg hh
  other := fun _ _ _ _ _ _ _ hfresh hg hh ha _ _ hq hu => (act_trans ha).other hfresh hg hh hq hu

variable [DecidableEq θ]

/-- The states the fleet can reach when no challenge string is drawn twice. -/
def Reachable (sha256 : Pow.Sha256) (lc : LocalCrates) (cr : SealingCrates) (sm : SessionManager)
    (s : Cluster (ι × θ) (Store ι θ) Task) : Prop :=
  ∃ clock es, Machine.Along (Cluster.step (act sha256 lc cr sm)) (Cluster.On Fresh) (start clock) es ∧
    Machine.run (Cluster.step (act sha256 lc cr sm)) (start clock) es = some s

theorem Reachable.inv {s : Cluster (ι × θ) (Store ι θ) Task} (h : Reachable sha256 lc cr sm s) :
    Cluster.Inv (Good sha256) Held s := by
  obtain ⟨clock, es, hfresh, hrun⟩ := h
  exact keeps.run_along hfresh (inv_start clock) hrun

/-- Runs go on from reachable states. -/
theorem Reachable.run {s t : Cluster (ι × θ) (Store ι θ) Task} {es : List (Cluster.Event (ι × θ) Step)}
    (h : Reachable sha256 lc cr sm s)
    (hfresh : Machine.Along (Cluster.step (act sha256 lc cr sm)) (Cluster.On Fresh) s es)
    (hrun : Machine.run (Cluster.step (act sha256 lc cr sm)) s es = some t) :
    Reachable sha256 lc cr sm t := by
  obtain ⟨clock, es₀, hfresh₀, hrun₀⟩ := h
  refine ⟨clock, es₀ ++ es, Machine.along_append.mpr ⟨hfresh₀, ?_⟩, Machine.run_append_eq_some.mpr ⟨s, hrun₀, hrun⟩⟩
  intro u hu
  rw [Option.mem_def, hrun₀, Option.some.injEq] at hu
  exact hu ▸ hfresh

/-- **Challenges are one-time.** In every run of every number of calls, on
every process, a challenge is accepted at most once, after it was minted, in
time and for a solution; any call that takes it uses it up; and the session
cookies belong to distinct minted and solved challenges. -/
theorem challenges_are_one_time {s : Cluster (ι × θ) (Store ι θ) Task}
    (h : Reachable sha256 lc cr sm s) : OneTime sha256 s.shared :=
  h.inv.shared.oneTime

/-- A fresh draw, then steps that draw nothing. -/
theorem along_of_draw {s : Cluster (ι × θ) (Store ι θ) Task} {p : ι × θ} {bytes : Vector UInt8 16}
    {ttl : Nat} {es : List (Cluster.Event (ι × θ) Step)}
    (hnew : ∀ q, .drew q (Pow.challengeOf bytes) ∉ s.shared.history)
    (hes : ∀ q b t, .on q (.draw b t) ∉ es) :
    Machine.Along (Cluster.step (act sha256 lc cr sm)) (Cluster.On Fresh) s
      (.on p (.draw bytes ttl) :: es) := by
  refine ⟨hnew, fun _ _ => Machine.along_of_forall fun e he t => ?_⟩
  cases e with
  | tick d => trivial
  | on q x =>
    cases x with
    | draw b t => exact absurd he (hes q b t)
    | _ => trivial

/-- One process mints a challenge, accepts its solution and answers with a
session cookie. -/
def acceptRun : List (Cluster.Event (Unit × Bool) Step) :=
  [.on ((), false) (.draw (Vector.replicate 16 0) Local.challengeTtl), .on ((), false) .insert, .tick 5,
    .on ((), true) (.post (.v4 10 0 0 1) ⟨[Sample.verifyBody], false⟩), .on ((), true) .judge,
    .on ((), true) (.respond 100 (Vector.replicate 12 0))]

theorem acceptRun_one_time : ∃ s,
    Machine.run (Cluster.step (act Sample.sha256 Sample.locals Sample.crates Sample.oneMinute)) (start 0)
      acceptRun = some s ∧
    cookieChallenges s.shared.history = [Pow.challengeOf (Vector.replicate 16 0)] ∧
    OneTime Sample.sha256 s.shared := by
  obtain ⟨s, hs, hcookies⟩ := Option.map_eq_some_iff.mp (show (Machine.run (Cluster.step (act Sample.sha256
    Sample.locals Sample.crates Sample.oneMinute)) (start 0) acceptRun).map
      (fun s => cookieChallenges s.shared.history) = some [Pow.challengeOf (Vector.replicate 16 0)] by decide +kernel)
  exact ⟨s, hs, hcookies, challenges_are_one_time
    ⟨0, acceptRun, along_of_draw (fun _ => List.not_mem_nil) (by simp), hs⟩⟩

/-! ## A challenge is accepted where it was minted -/

/-- The verify request of task `p` is answered with a session: whatever the
others do until `p` goes on, and as long as the challenge has not expired
by then, `check_pow` returns true. -/
def Accepted (sha256 : Pow.Sha256) (lc : LocalCrates) (cr : SealingCrates) (sm : SessionManager)
    (s : Cluster (ι × θ) (Store ι θ) Task) (p : ι × θ) (ip : IpAddr) (body : Http.Incoming)
    (c n : Str) (e : Nat) : Prop :=
  ∀ es u, (∀ x, .on p x ∉ es) →
    Machine.run (Cluster.step (act sha256 lc cr sm)) s (.on p (.post ip body) :: es) = some u →
    u.clock ≤ e →
    ∃ v, Cluster.step (act sha256 lc cr sm) u (.on p .judge) = some v ∧ v.proc p = .sealing c n ip

/-- No run from here accepts the challenge twice. -/
def NeverTwice (sha256 : Pow.Sha256) (lc : LocalCrates) (cr : SealingCrates) (sm : SessionManager)
    (s : Cluster (ι × θ) (Store ι θ) Task) (c : Str) : Prop :=
  ∀ es u, Machine.Along (Cluster.step (act sha256 lc cr sm)) (Cluster.On Fresh) s es →
    Machine.run (Cluster.step (act sha256 lc cr sm)) s es = some u →
    ∀ later p n now earlier, u.shared.history = later ++ .judged p c n now true :: earlier →
      ∀ q n' now', .judged q c n' now' true ∉ later ++ earlier


/-- The answer that comes after the challenge was judged is in time. -/
theorem accepted_of_checking {s u : Cluster (ι × θ) (Store ι θ) Task} {p : ι × θ} {c n : Str} {e : Nat}
    {ip : IpAddr} {es : List (Cluster.Event (ι × θ) Step)} (hp : s.proc p = .checking c n e (.verify ip))
    (hes : ∀ x, .on p x ∉ es) (hrun : Machine.run (Cluster.step (act sha256 lc cr sm)) s es = some u)
    (hle : u.clock ≤ e) (hsolves : Pow.Solves sha256 c n) :
    ∃ v, Cluster.step (act sha256 lc cr sm) u (.on p .judge) = some v ∧ v.proc p = .sealing c n ip := by
  have hup : u.proc p = .checking c n e (.verify ip) := (Cluster.run_proc_of_not_on hes hrun).trans hp
  have hact : act sha256 lc cr sm p u.clock u.shared (u.proc p) .judge =
      some (u.shared.log (.judged p c n u.clock true), .sealing c n ip) := by
    rw [hup]
    simp [act, Pow.judge_ok, hle, hsolves, answered]
  exact ⟨_, Cluster.step_on_eq_some.mpr ⟨_, _, hact, rfl⟩, Function.update_self _ _ _⟩

theorem never_twice {s : Cluster (ι × θ) (Store ι θ) Task} (h : Reachable sha256 lc cr sm s) (c : Str) :
    NeverTwice sha256 lc cr sm s c := by
  intro es u hfresh hrun later p n now earlier heq q n' now' hmem
  have hone := (h.run hfresh hrun).inv.shared.oneTime
  rcases List.mem_append.mp hmem with hmem | hmem
  · obtain ⟨l₁, l₂, rfl⟩ := List.append_of_mem hmem
    rw [List.append_assoc, List.cons_append] at heq
    exact hone.once _ _ _ _ _ _ _ heq p n now true (by simp)
  · exact hone.once _ _ _ _ _ _ _ heq q n' now' true hmem

/-- **Where a challenge is accepted.** An untried challenge and a solution of
it, presented in a verify body to a process that is free, are accepted if and
only if that process is the one that minted the challenge and the body is
one `handle` reads: at most 512 bytes, with a non-empty nonce. It is never
accepted twice anywhere. -/
theorem verify_accepts_iff {s : Cluster (ι × θ) (Store ι θ) Task} {i : ι} {p : ι × θ} {ip : IpAddr}
    {body : Http.Incoming} {c n : Str} {e : Nat} (h : Reachable sha256 lc cr sm s)
    (hu : Untried s i c e) (hidle : s.proc p = .idle) (hbody : body.fails = false)
    (hjson : lc.verifyPayload body.data = some ⟨c, n⟩) (hsolves : Pow.Solves sha256 c n) :
    Accepted sha256 lc cr sm s p ip body c n e ∧ NeverTwice sha256 lc cr sm s c ↔
      p.1 = i ∧ n ≠ [] ∧ body.data.length ≤ Local.maxVerifyBody := by
  have hg := h.inv.shared
  have hc := hu.ne_nil hg
  have hpay : Local.verifyPayload lc body = some ⟨c, n⟩ ↔
      n ≠ [] ∧ body.data.length ≤ Local.maxVerifyBody := by
    rw [Local.verifyPayload_eq_some]
    simp [hbody, hjson, hc, and_comm]
  constructor
  · intro h'
    have hacc := h'.1
    by_contra hnot
    -- The request ends at once, with a 400 or a 403.
    have hact : ∃ st', act sha256 lc cr sm p s.clock s.shared (s.proc p) (.post ip body) =
        some (st', .idle) := by
      rw [hidle]
      simp only [act]
      cases hv : Local.verifyPayload lc body with
      | none => exact ⟨_, rfl⟩
      | some pl =>
        have hpl : pl = ⟨c, n⟩ := by
          have hj := (Local.verifyPayload_eq_some.mp hv).2.1
          rw [hjson, Option.some.injEq] at hj
          exact hj.symm
        subst hpl
        have hi : p.1 ≠ i := fun hi => hnot ⟨hi, hpay.mp hv⟩
        simp [take, hu.elsewhere hg hi]
    obtain ⟨st', hact⟩ := hact
    have hstep := Cluster.step_on_eq_some.mpr ⟨_, _, hact, rfl⟩
    obtain ⟨v, hv, -⟩ := hacc [] _ (fun _ => List.not_mem_nil)
      (Machine.run_cons_eq_some.mpr ⟨_, hstep, rfl⟩) (Nat.le_of_lt hu.inTime)
    obtain ⟨sh, q, ha, -⟩ := Cluster.step_on_eq_some.mp hv
    simp [act] at ha
  · intro h'
    obtain ⟨hi, hbody⟩ := h'
    refine ⟨?_, never_twice h c⟩
    intro es u hes hrun hle
    obtain ⟨s₁, hstep, hrun⟩ := Machine.run_cons_eq_some.mp hrun
    obtain ⟨sh, q, ha, rfl⟩ := Cluster.step_on_eq_some.mp hstep
    have hmap : s.shared.map p.1 c = some e := by
      rw [hi]
      exact hu.live hg
    have hq : q = .checking c n e (.verify ip) := by
      rw [hidle] at ha
      simp only [act, hpay.mpr hbody, take, hmap, Option.some.injEq, Prod.mk.injEq] at ha
      exact ha.2.symm
    subst hq
    exact accepted_of_checking (Function.update_self _ _ _) hes hrun hle hsolves

/-- The first of two processes has minted a challenge. -/
def mintedOnFirst : Cluster (Bool × Unit) (Store Bool Unit) Task where
  clock := 0
  shared :=
    { map := Function.update (fun _ _ => none) false
        (Pow.insert (fun _ => none) Sample.challenge (10 ^ 9 * Local.challengeTtl))
      history := [.minted (false, ()) Sample.challenge (10 ^ 9 * Local.challengeTtl),
        .drew (false, ()) Sample.challenge] }
  proc := fun _ => .idle

theorem mintedOnFirst_reachable :
    Reachable Sample.sha256 Sample.locals Sample.crates Sample.manager mintedOnFirst := by
  refine ⟨0, [.on (false, ()) (.draw (Vector.replicate 16 0) Local.challengeTtl), .on (false, ()) .insert],
    along_of_draw (fun _ => List.not_mem_nil) (by simp), ?_⟩
  have hproc : Function.update (Function.update (fun _ => Task.idle) (false, ())
      (.minting Sample.challenge (10 ^ 9 * Local.challengeTtl))) (false, ()) .idle =
      fun _ : Bool × Unit => Task.idle := by
    rw [Function.update_idem]
    exact Function.update_eq_self (false, ()) (fun _ : Bool × Unit => Task.idle)
  show some _ = some mintedOnFirst
  unfold mintedOnFirst
  rw [← hproc]
  rfl

theorem mintedOnFirst_untried :
    Untried mintedOnFirst false Sample.challenge (10 ^ 9 * Local.challengeTtl) where
  minted := ⟨(), List.mem_cons_self⟩
  inTime := by decide
  notTaken := by simp [mintedOnFirst]
  notRefused := by simp [mintedOnFirst]

theorem verify_accepts_here :
    Accepted Sample.sha256 Sample.locals Sample.crates Sample.manager mintedOnFirst (false, ())
        (.v4 10 0 0 1) ⟨[Sample.verifyBody], false⟩ Sample.challenge "7".toList
        (10 ^ 9 * Local.challengeTtl) ∧
      NeverTwice Sample.sha256 Sample.locals Sample.crates Sample.manager mintedOnFirst Sample.challenge :=
  (verify_accepts_iff mintedOnFirst_reachable mintedOnFirst_untried rfl rfl (by decide)
    (Sample.solves _ _)).mpr (by decide)

/-- The other process refuses the same solution. -/
theorem verify_refused_elsewhere :
    Reachable Sample.sha256 Sample.locals Sample.crates Sample.manager mintedOnFirst ∧
      Untried mintedOnFirst false Sample.challenge (10 ^ 9 * Local.challengeTtl) ∧
      Local.verifyPayload Sample.locals ⟨[Sample.verifyBody], false⟩ =
        some ⟨Sample.challenge, "7".toList⟩ ∧
      Pow.Solves Sample.sha256 Sample.challenge "7".toList ∧
      ¬Accepted Sample.sha256 Sample.locals Sample.crates Sample.manager mintedOnFirst (true, ())
        (.v4 10 0 0 1) ⟨[Sample.verifyBody], false⟩ Sample.challenge "7".toList
        (10 ^ 9 * Local.challengeTtl) := by
  refine ⟨mintedOnFirst_reachable, mintedOnFirst_untried, by decide +kernel, Sample.solves _ _, ?_⟩
  intro hacc
  let m := Cluster.step (act (ι := Bool) (θ := Unit) Sample.sha256 Sample.locals Sample.crates Sample.manager)
  let post : Cluster.Event (Bool × Unit) Step :=
    .on (true, ()) (.post (.v4 10 0 0 1) ⟨[Sample.verifyBody], false⟩)
  -- The request is over once the map has no such challenge.
  have hsome : (m mintedOnFirst post).isSome = true := by decide +kernel
  have hnone : (Machine.run m mintedOnFirst [post, .on (true, ()) .judge]).isNone = true := by
    decide +kernel
  obtain ⟨u, hu⟩ := Option.isSome_iff_exists.mp hsome
  have hclock : u.clock = 0 := by
    obtain ⟨sh, q, -, rfl⟩ := Cluster.step_on_eq_some.mp hu
    rfl
  obtain ⟨v, hv, -⟩ := hacc [] u (fun _ => List.not_mem_nil)
    (Machine.run_cons_eq_some.mpr ⟨u, hu, rfl⟩) (hclock ▸ Nat.zero_le _)
  have hrun : Machine.run m mintedOnFirst [post, .on (true, ()) .judge] = some v :=
    Machine.run_cons_eq_some.mpr ⟨u, hu, Machine.run_cons_eq_some.mpr ⟨v, hv, rfl⟩⟩
  rw [hrun] at hnone
  cases hnone

end NekoGuard.Fleet
