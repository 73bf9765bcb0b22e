/-
certd over time. A certificate it keeps in Redis does not run out there:
a turn of its domain renews it from thirty days before it ends, and where
turns and orders take what they may, and no more of them fail in a row than
the thirty days have room for, a new one is stored in time. What the first
pass stores on top of it only lasts longer.
-/
import NekoGuard.CertdFacts
import NekoGuard.Lib.Watch
import NekoGuard.TlsFacts

namespace NekoGuard.Certd

open Lib

/-- What the times of one domain are measured from. -/
structure Tally where
  /-- When its turn was last, or the order it called for ended. -/
  turned : Nat
  /-- How many renewals have failed in a row. -/
  failures : Nat
deriving DecidableEq, Repr

/-- A renewal of `d` is under way. -/
def Task.renews (d : Str) : Task → Bool
  | .renewing _ d' _ | .storing .renewal d' _ _ => d' == d
  | _ => false

def note (d : Str) (s : State) (n : Tally) (ev : Event) : Tally :=
  match s.task, ev with
  | .checking d' _, .get true => if d' = d then { n with turned := s.clock.toNat } else n
  | .renewing _ d' _, .issue none =>
    if d' = d then { turned := s.clock.toNat, failures := n.failures + 1 } else n
  | .storing .renewal d' _ _, .set false =>
    if d' = d then { turned := s.clock.toNat, failures := n.failures + 1 } else n
  | .storing _ d' _ _, .set true => if d' = d then { turned := s.clock.toNat, failures := 0 } else n
  | _, _ => n

variable {js : CertJson} {d : Str} {c : Watch.Terms}

/-- The clock goes on, and renewals of `d` fail, as the terms allow; no one
else writes its key, and no connection fails that the loop needs. -/
def Timely (d : Str) (c : Watch.Terms) (p : State × Tally) : Event → Prop
  | .clock t => p.1.clock ≤ t ∧ t ≤ p.2.turned + if p.1.task.renews d then c.takes else c.every
  | .foreign redis => redis.lookup (certKey d) = p.1.redis.lookup (certKey d)
  | .client ok | .connect ok => ok = true
  | .issue pems => pems = none → p.1.task.renews d = true → p.2.failures < c.retries
  | .set ok => ok = false → p.1.task.renews d = true → p.2.failures < c.retries
  | _ => True

instance decidableTimely (d : Str) (c : Watch.Terms) : ∀ p ev, Decidable (Timely d c p ev)
  | p, .clock t => inferInstanceAs (Decidable
      (p.1.clock ≤ t ∧ t ≤ p.2.turned + if p.1.task.renews d then c.takes else c.every))
  | p, .foreign redis => inferInstanceAs (Decidable (redis.lookup (certKey d) = p.1.redis.lookup (certKey d)))
  | _, .client ok | _, .connect ok => inferInstanceAs (Decidable (ok = true))
  | p, .issue pems => inferInstanceAs (Decidable
      (pems = none → p.1.task.renews d = true → p.2.failures < c.retries))
  | p, .set ok => inferInstanceAs (Decidable (ok = false → p.1.task.renews d = true → p.2.failures < c.retries))
  | _, .publish _ | _, .wake | _, .get _ => inferInstanceAs (Decidable True)

/-! ## A domain is a watch -/

/-- From when on a turn renews it. -/
def dueOf (cert : CertData) : Nat := cert.expiresAt + 1 - renewBefore

theorem needsRenewal_iff {cert : CertData} (hlong : renewBefore ≤ cert.expiresAt) (now : Nat) :
    needsRenewal cert now = true ↔ dueOf cert ≤ now := by
  have hpos : 0 < renewBefore := by decide
  simp only [needsRenewal, dueOf, Bool.and_eq_true, decide_eq_true_eq]
  omega

def watch (c : Watch.Terms) (d : Str) (cert : CertData) (p : State × Tally) : Watch where
  clock := p.1.clock.toNat
  due := dueOf cert
  stage := if p.1.task.renews d then .busy else .idle
  limit := p.2.turned + if p.1.task.renews d then c.takes else c.every
  failures := p.2.failures

/-- What an order under way for `d` is to store. -/
def Pending (d : Str) (n : Tally) : Task → Prop
  | .connecting d' cert _ | .storing _ d' cert _ => d' = d → n.turned + certLifetime ≤ cert.expiresAt
  | .renewing now d' _ => d' = d → n.turned ≤ now
  | .returned => False
  | _ => True

/-- Redis holds `cert` for `d`, and there is time to renew it. -/
structure Kept (js : CertJson) (d : Str) (c : Watch.Terms) (cert : CertData) (p : State × Tally) : Prop where
  held : loadCert js p.1.redis d = some cert
  long : renewBefore ≤ cert.expiresAt
  since : 0 ≤ p.1.clock
  turned : p.2.turned ≤ p.1.clock.toNat
  pending : Pending d p.2 p.1.task
  inTime : (watch c d cert p).InTime c
  few : p.2.failures ≤ c.retries

/-- The thirty days have room for a round for each failure, and one. -/
def Roomy (c : Watch.Terms) : Prop := c.slack + 1 < renewBefore

variable {cert : CertData} {s t : State} {n : Tally} {ev : Event}

theorem Kept.lasts {p : State × Tally} (hc : Roomy c) (h : Kept js d c cert p) : p.1.clock < cert.expiresAt := by
  have hlate : p.1.clock.toNat ≤ dueOf cert + c.slack := h.inTime.late h.few
  have hlong := h.long
  unfold Roomy at hc
  unfold dueOf at hlate
  omega

/-- What is not about `d` leaves it as it is. -/
theorem Kept.keep (h : Kept js d c cert (s, n)) (hredis : loadCert js t.redis d = some cert)
    (hclock : t.clock = s.clock) (hrenews : t.task.renews d = s.task.renews d) (hp : Pending d n t.task) :
    Kept js d c cert (t, n) where
  held := hredis
  long := h.long
  since := by
    have hsince : 0 ≤ s.clock := h.since
    rw [hclock]
    exact hsince
  turned := by
    have hturned : n.turned ≤ s.clock.toNat := h.turned
    rw [hclock]
    exact hturned
  pending := hp
  inTime := by
    have hsame : watch c d cert (t, n) = watch c d cert (s, n) := by simp only [watch, hclock, hrenews]
    rw [hsame]
    exact h.inTime
  few := h.few

@[simp] theorem next_redis (s : State) (pass : Pass) (todo : List Str) : (s.next pass todo).redis = s.redis := by
  cases pass <;> cases todo <;> rfl

@[simp] theorem next_clock (s : State) (pass : Pass) (todo : List Str) : (s.next pass todo).clock = s.clock := by
  cases pass <;> cases todo <;> rfl

@[simp] theorem next_renews (s : State) (pass : Pass) (todo : List Str) :
    (s.next pass todo).task.renews d = false := by
  cases pass <;> cases todo <;> rfl

theorem next_pending (s : State) (pass : Pass) (todo : List Str) : Pending d n (s.next pass todo).task := by
  cases pass <;> cases todo <;> trivial

/-- On to the next domain, with nothing done for `d`. -/
theorem Kept.next (h : Kept js d c cert (s, n)) (hrenews : s.task.renews d = false) (pass : Pass) (todo : List Str) :
    Kept js d c cert (s.next pass todo, n) :=
  h.keep (by rw [next_redis]; exact h.held) (next_clock s pass todo) (by rw [next_renews, hrenews])
    (next_pending s pass todo)

/-! ## What a step does to it -/

/-- Another domain has its turn, or GET fails. -/
theorem Kept.visit_other (h : Kept js d c cert (s, n)) {d' : Str} {todo : List Str} {ok : Bool}
    (ht : s.task = .checking d' todo) (hother : ok = false ∨ d' ≠ d) :
    Kept js d c cert (s.visit js d' todo ok, n) := by
  have hidle : s.task.renews d = false := by rw [ht]; rfl
  have hturn : Kept js d c cert (s.turn js d' false, n) := h.keep h.held rfl rfl h.pending
  have hsince : 0 ≤ s.clock := h.since
  unfold State.visit
  split
  · exact hturn.next hidle .renewal todo
  · next c' hc' =>
    have hne : d' ≠ d := hother.resolve_left fun hok => by simp [hok] at hc'
    simp only [State.now, hsince, if_true]
    split
    · refine h.keep h.held rfl ?_ (fun heq => absurd heq hne)
      rw [hidle]
      exact beq_eq_false_iff_ne.mpr hne
    · exact hturn.next hidle .renewal todo

/-- The turn of `d` itself. -/
theorem Kept.visit_self (h : Kept js d c cert (s, n)) {todo : List Str} (ht : s.task = .checking d todo) :
    Kept js d c cert (s.visit js d todo true, { n with turned := s.clock.toNat }) := by
  have hidle : s.task.renews d = false := by rw [ht]; rfl
  have hheld : loadCert js s.redis d = some cert := h.held
  have hsince : 0 ≤ s.clock := h.since
  have hstage : (watch c d cert (s, n)).stage = .idle := by simp [watch, hidle]
  unfold State.visit
  simp only [if_true, hheld, State.now, hsince]
  split
  · -- It is due: the look calls for an order, which starts at once.
    refine ⟨hheld, h.long, hsince, Nat.le_refl _, fun _ => Nat.le_refl _, ?_, h.few⟩
    have hrenews : (Task.renewing s.clock.toNat d todo).renews d = true := beq_self_eq_true d
    have hcall : Watch.Move c (watch c d cert (s, n)) { watch c d cert (s, n) with stage := .called } :=
      .call _ hstage
    have hstart := Watch.Move.start (c := c) (w := { watch c d cert (s, n) with stage := .called }) rfl
    have hbusy := (h.inTime.move hcall).move hstart
    simp only [watch, hrenews, if_true]
    exact hbusy
  · next hfresh =>
    have hearly : s.clock.toNat < dueOf cert := by
      rw [needsRenewal_iff h.long] at hfresh
      omega
    have hlook : Watch.Move c (watch c d cert (s, n))
        { watch c d cert (s, n) with limit := s.clock.toNat + c.every } :=
      .look _ hstage hearly (Nat.le_add_right _ _) (Nat.le_refl _)
    refine ⟨?_, h.long, ?_, ?_, next_pending _ _ _, ?_, h.few⟩
    · rw [next_redis]
      exact hheld
    · rw [next_clock]
      exact hsince
    · rw [next_clock]
      exact Nat.le_refl _
    · have hin := h.inTime.move hlook
      simp only [watch, hidle] at hin
      simpa [watch, State.turn] using hin

/-- A renewal of `d` fails. -/
theorem Kept.fail (h : Kept js d c cert (s, n)) (hrenews : s.task.renews d = true) (hfew : n.failures < c.retries)
    (hredis : t.redis = s.redis) (hclock : t.clock = s.clock) (hidle : t.task.renews d = false)
    (hp : Pending d { turned := s.clock.toNat, failures := n.failures + 1 } t.task) :
    Kept js d c cert (t, { turned := s.clock.toNat, failures := n.failures + 1 }) := by
  have hfail : Watch.Move c (watch c d cert (s, n)) { watch c d cert (s, n) with
      stage := .idle, limit := s.clock.toNat + c.every, failures := n.failures + 1 } :=
    .fail _ (by simp [watch, hrenews]) (Nat.le_add_right _ _) (Nat.le_refl _)
  have hheld : loadCert js t.redis d = some cert := by
    rw [hredis]
    exact h.held
  have hsince : 0 ≤ t.clock := by
    rw [hclock]
    exact h.since
  refine ⟨hheld, h.long, hsince, by rw [hclock], hp, ?_, hfew⟩
  have hin := h.inTime.move hfail
  simpa [watch, hclock, hidle] using hin

/-- What was got for `d` is stored; it lasts eighty days from its turn. -/
theorem Kept.stored (hc : Roomy c) (h : Kept js d c cert (s, n)) (hjs : js.Lawful) {pass : Pass} {cert' : CertData}
    {todo : List Str} (ht : s.task = .storing pass d cert' todo) :
    Kept js d c cert' ({ s with redis := storeCert js s.redis d cert', task := .publishing pass d todo },
      { turned := s.clock.toNat, failures := 0 }) := by
  have hlast : n.turned + certLifetime ≤ cert'.expiresAt := by
    have hp : Pending d n s.task := h.pending
    rw [ht] at hp
    exact hp rfl
  have hnear : s.clock.toNat ≤ n.turned + (c.every + c.takes) := by
    have hin := h.inTime
    simp only [Watch.InTime, watch, ht] at hin
    cases pass with
    | initial =>
      simp only [Task.renews, Bool.false_eq_true, if_false] at hin
      omega
    | renewal =>
      simp only [Task.renews, beq_self_eq_true, if_true] at hin
      omega
  have hround : c.every + c.takes ≤ c.slack := Nat.le_mul_of_pos_left _ (Nat.succ_pos _)
  have hdays : certLifetime = 6912000 ∧ renewBefore = 2592000 := ⟨rfl, rfl⟩
  unfold Roomy at hc
  have hdue : s.clock.toNat ≤ dueOf cert' := by
    unfold dueOf
    omega
  have hfinish : Watch.Move c (watch c d cert (s, n)) { watch c d cert (s, n) with
      due := dueOf cert', stage := .idle, limit := s.clock.toNat + c.every, failures := 0 } :=
    .finish _ _ (by simp [watch]; split <;> simp) hdue (Nat.le_add_right _ _) (Nat.le_refl _)
  refine ⟨loadCert_storeCert_self hjs _ _ _, by omega, h.since, Nat.le_refl _, trivial, ?_, Nat.zero_le _⟩
  exact h.inTime.move hfinish

theorem note_clock (s : State) (n : Tally) (u : Int) : note d s n (.clock u) = n := by
  unfold note
  split <;> simp_all

theorem note_foreign (s : State) (n : Tally) (redis : Redis) : note d s n (.foreign redis) = n := by
  unfold note
  split <;> simp_all

theorem Kept.tick (h : Kept js d c cert (s, n)) {u : Int} (hC : Timely d c (s, n) (.clock u)) :
    Kept js d c cert ({ s with clock := u }, n) := by
  have hmono : s.clock ≤ u := hC.1
  have hlimit : u ≤ n.turned + (if s.task.renews d then c.takes else c.every : Nat) := hC.2
  have hsince : 0 ≤ s.clock := h.since
  have hturned : n.turned ≤ s.clock.toNat := h.turned
  have hstage : (watch c d cert (s, n)).stage ≠ .called := by
    simp only [watch]
    split <;> simp
  have hpast : s.clock.toNat + (u.toNat - s.clock.toNat) = u.toNat := by omega
  have hwait : Watch.Move c (watch c d cert (s, n)) { watch c d cert (s, n) with clock := u.toNat } := by
    rw [← hpast]
    refine .wait _ hstage ?_
    show s.clock.toNat + (u.toNat - s.clock.toNat) ≤ n.turned + if s.task.renews d then c.takes else c.every
    omega
  exact ⟨h.held, h.long, Int.le_trans hsince hmono, by simp only; omega, h.pending, h.inTime.move hwait, h.few⟩

theorem step_kept (hc : Roomy c) (hjs : js.Lawful) (hC : Timely d c (s, n) ev) (h : Kept js d c cert (s, n))
    (hstep : step js s ev = some t) : ∃ cert', Kept js d c cert' (t, note d s n ev) := by
  have hp : Pending d n s.task := h.pending
  cases step_move hstep with
  | clock u =>
    rw [note_clock]
    exact ⟨cert, h.tick hC⟩
  | foreign redis =>
    have hheld : loadCert js redis d = some cert := by
      have hsame : redis.lookup (certKey d) = s.redis.lookup (certKey d) := hC
      have hheld : loadCert js s.redis d = some cert := h.held
      rw [loadCert, hsame]
      exact hheld
    rw [note_foreign]
    exact ⟨cert, h.keep hheld rfl rfl hp⟩
  | client ok ht =>
    obtain rfl : ok = true := hC
    have hsame : note d s n (.client true) = n := by simp [note, ht]
    rw [hsame]
    exact ⟨cert, h.next (by rw [ht]; rfl) .initial _⟩
  | @issued d' todo pems ht hnow =>
    have hsame : note d s n (.issue (some pems)) = n := by simp [note, ht]
    have hturned : n.turned ≤ s.clock.toNat := h.turned
    rw [hsame]
    exact ⟨cert, h.keep h.held rfl (by rw [ht]; rfl) fun _ => Nat.add_le_add_right hturned _⟩
  | unstamped pems ht hnow =>
    have hsince : 0 ≤ s.clock := h.since
    omega
  | refused ht =>
    have hsame : note d s n (.issue none) = n := by simp [note, ht]
    rw [hsame]
    exact ⟨cert, h.next (by rw [ht]; rfl) .initial _⟩
  | connect ok ht =>
    obtain rfl : ok = true := hC
    have hsame : note d s n (.connect true) = n := by simp [note, ht]
    rw [hsame]
    rw [ht] at hp
    exact ⟨cert, h.keep h.held rfl (by rw [ht]; rfl) hp⟩
  | @set pass d' cert' todo ok ht =>
    by_cases hd : d' = d
    · subst hd
      cases ok with
      | true =>
        have hnote : note d' s n (.set true) = { turned := s.clock.toNat, failures := 0 } := by
          cases pass <;> simp [note, ht]
        rw [hnote]
        exact ⟨cert', h.stored hc hjs ht⟩
      | false =>
        cases pass with
        | initial =>
          have hsame : note d' s n (.set false) = n := by simp [note, ht]
          rw [hsame]
          exact ⟨cert, h.keep h.held rfl (by rw [ht]; rfl) trivial⟩
        | renewal =>
          have hrenews : s.task.renews d' = true := by simp [ht, Task.renews]
          have hnote : note d' s n (.set false) = { turned := s.clock.toNat, failures := n.failures + 1 } := by
            simp [note, ht]
          rw [hnote]
          exact ⟨cert, h.fail hrenews (hC rfl hrenews) rfl rfl rfl trivial⟩
    · have hsame : note d s n (.set ok) = n := by
        cases ok <;> cases pass <;> simp [note, ht, hd]
      have hidle : s.task.renews d = false := by
        rw [ht]
        cases pass
        · rfl
        · exact beq_eq_false_iff_ne.mpr hd
      have hheld : loadCert js (if ok then storeCert js s.redis d' cert' else s.redis) d = some cert := by
        split
        · rw [loadCert_storeCert_of_ne (Ne.symm hd)]
          exact h.held
        · exact h.held
      rw [hsame]
      exact ⟨cert, h.keep hheld rfl hidle.symm trivial⟩
  | publish ok ht =>
    have hsame : note d s n (.publish ok) = n := by simp [note, ht]
    rw [hsame]
    exact ⟨cert, h.next (by rw [ht]; rfl) _ _⟩
  | wake ht =>
    have hsame : note d s n .wake = n := by simp [note, ht]
    rw [hsame]
    exact ⟨cert, h.keep h.held rfl (by rw [ht]; rfl) trivial⟩
  | opened ok ht =>
    obtain rfl : ok = true := hC
    have hsame : note d s n (.connect true) = n := by simp [note, ht]
    rw [hsame]
    exact ⟨cert, h.next (by rw [ht]; rfl) .renewal _⟩
  | @get d' todo ok ht =>
    by_cases hself : ok = true ∧ d' = d
    · obtain ⟨rfl, rfl⟩ := hself
      have hnote : note d' s n (.get true) = { n with turned := s.clock.toNat } := by simp [note, ht]
      rw [hnote]
      exact ⟨cert, h.visit_self ht⟩
    · have hother : ok = false ∨ d' ≠ d := by
        cases ok with
        | false => exact .inl rfl
        | true => exact .inr fun hd => hself ⟨rfl, hd⟩
      have hsame : note d s n (.get ok) = n := by
        cases ok with
        | false => simp [note, ht]
        | true => simp [note, ht, hother.resolve_left (by simp)]
      rw [hsame]
      exact ⟨cert, h.visit_other ht hother⟩
  | @renewed now d' todo pems ht =>
    have hsame : note d s n (.issue (some pems)) = n := by simp [note, ht]
    rw [hsame]
    rw [ht] at hp
    exact ⟨cert, h.keep h.held rfl (by rw [ht]; rfl) fun hd => Nat.add_le_add_right (hp hd) _⟩
  | @failed now d' todo ht =>
    by_cases hd : d' = d
    · subst hd
      have hrenews : s.task.renews d' = true := by simp [ht, Task.renews]
      have hnote : note d' s n (.issue none) = { turned := s.clock.toNat, failures := n.failures + 1 } := by
        simp [note, ht]
      rw [hnote]
      exact ⟨cert, h.fail hrenews (hC rfl hrenews) (next_redis _ _ _) (next_clock _ _ _) (next_renews _ _ _)
        (next_pending _ _ _)⟩
    · have hsame : note d s n (.issue none) = n := by simp [note, ht, hd]
      have hidle : s.task.renews d = false := by
        rw [ht]
        exact beq_eq_false_iff_ne.mpr hd
      rw [hsame]
      exact ⟨cert, h.next hidle .renewal _⟩

/-! ## Runs -/

theorem start_kept {domains : List Str} {redis : Redis} {clock : Int} (hclock : 0 ≤ clock)
    (hheld : loadCert js redis d = some cert) (hlong : clock + renewBefore ≤ cert.expiresAt) :
    Kept js d c cert (start domains redis clock, { turned := clock.toNat, failures := 0 }) := by
  refine ⟨hheld, by omega, hclock, Nat.le_refl _, trivial, ?_, Nat.zero_le _⟩
  have hdue : clock.toNat ≤ dueOf cert := by
    unfold dueOf
    omega
  simp only [Watch.InTime, watch, start, Task.renews, Bool.false_eq_true, if_false]
  omega

/-- **Certificates do not run out in Redis.** certd starts over a Redis
that holds for `d` a certificate not yet due; where its turns come and its
orders end in time, and no more renewals in a row fail than the thirty days
have room for, at every moment Redis holds one for `d` that still lasts. -/
theorem certs_kept_fresh (hc : Roomy c) (hjs : js.Lawful) {domains : List Str} {redis : Redis} {clock : Int}
    {evs : List Event} (hclock : 0 ≤ clock) (hheld : loadCert js redis d = some cert)
    (hlong : clock + renewBefore ≤ cert.expiresAt)
    (hC : Machine.Along (Machine.observe (step js) (note d)) (Timely d c)
      (start domains redis clock, { turned := clock.toNat, failures := 0 }) evs)
    (h : Machine.run (step js) (start domains redis clock) evs = some t) :
    ∃ cert', loadCert js t.redis d = some cert' ∧ t.clock < cert'.expiresAt := by
  obtain ⟨n, hrun⟩ := Machine.run_observe (note d) { turned := clock.toNat, failures := 0 } h
  obtain ⟨cert', hkept⟩ : ∃ cert', Kept js d c cert' (t, n) := by
    refine Machine.run_invariant_along (I := fun p => ∃ cert', Kept js d c cert' p) ?_ hC
      ⟨cert, start_kept hclock hheld hlong⟩ hrun
    intro p ev q hev ⟨cert', hp⟩ hq
    obtain ⟨hstep, hnote⟩ := Machine.observe_eq_some.mp hq
    obtain ⟨cert'', hkept⟩ := step_kept hc hjs hev hp hstep
    exact ⟨cert'', by rw [hnote] at hkept; exact hkept⟩
  exact ⟨cert', hkept.held, hkept.lasts hc⟩

def dayOf (n : Nat) : Nat := n * 86400

def keptCert : CertData := CertData.make (Sample.certPem, Sample.keyPem) 0

def nextCert : CertData := CertData.make (Sample.certPem, Sample.keyPem) (dayOf 70)

/-- A pass over the one domain. -/
def passOn (day : Nat) : List Event := [.clock (dayOf day), .wake, .connect true, .get true]

/-- The order of the first pass fails, and so does the first renewal. -/
def keptRun : List Event :=
  [.client true, .issue none] ++ passOn 14 ++ passOn 28 ++ passOn 42 ++ passOn 56 ++ [.issue none] ++ passOn 70 ++
    [.clock (dayOf 70 + 3600), .issue (some (Sample.certPem, Sample.keyPem)), .set true, .publish true] ++ passOn 84

def keptJson : CertJson := Sample.certJson [keptCert, nextCert]

theorem keptRun_fresh : ∃ t, Machine.run (step keptJson)
      (start [exampleCom] (storeCert keptJson ∅ exampleCom keptCert) 0) keptRun = some t ∧
    ∃ cert', loadCert keptJson t.redis exampleCom = some cert' ∧ t.clock < cert'.expiresAt := by
  obtain ⟨t, ht⟩ := Option.isSome_iff_exists.mp
    (show (Machine.run (step keptJson) (start [exampleCom] (storeCert keptJson ∅ exampleCom keptCert) 0)
      keptRun).isSome = true by decide +kernel)
  have hjs : keptJson.Lawful := Sample.certJson_lawful (by decide +kernel)
  exact ⟨t, ht, certs_kept_fresh (c := ⟨dayOf 14, 3600, 1⟩) (by unfold Roomy; decide) hjs
    (by decide) (loadCert_storeCert_self hjs _ _ keptCert) (by decide) (by decide +kernel) ht⟩

end NekoGuard.Certd
