/-
How long `run_acme_loop` lasts, and which renewals it attempts.
-/
import NekoGuard.Certd

namespace NekoGuard.Certd

open Lib

variable {js : CertJson}

/-! ## Redis -/

theorem certKey_inj {d d' : Str} (h : certKey d = certKey d') : d = d' := List.append_cancel_left h

theorem loadCert_storeCert_self (hjs : js.Lawful) (redis : Redis) (d : Str) (c : CertData) :
    loadCert js (storeCert js redis d c) d = some c := by
  simp [loadCert, storeCert, hjs.fromSlice_toVec]

theorem loadCert_storeCert_of_ne {d d' : Str} (hne : d' ≠ d) (redis : Redis) (c : CertData) :
    loadCert js (storeCert js redis d c) d' = loadCert js redis d' := by
  have hkey : certKey d' ≠ certKey d := fun heq => hne (certKey_inj heq)
  simp [loadCert, storeCert, AList.lookup_insert_ne hkey]

/-! ## What a step can do -/

inductive Move (js : CertJson) (s : State) : Event → State → Prop where
  | clock (t : Int) : Move js s (.clock t) { s with clock := t }
  | foreign (redis : Redis) : Move js s (.foreign redis) { s with redis }
  | client (ok : Bool) (ht : s.task = .starting) :
      Move js s (.client ok)
        (if ok then s.next .initial (baseDomains s.domains) else { s with task := .returned })
  | issued {d : Str} {todo : List Str} (pems : Str × Str) (ht : s.task = .issuing d todo) (hnow : 0 ≤ s.clock) :
      Move js s (.issue (some pems)) { s with task := .connecting d (CertData.make pems s.clock.toNat) todo }
  | unstamped {d : Str} {todo : List Str} (pems : Str × Str) (ht : s.task = .issuing d todo) (hnow : s.clock < 0) :
      Move js s (.issue (some pems)) { s with task := .returned }
  | refused {d : Str} {todo : List Str} (ht : s.task = .issuing d todo) :
      Move js s (.issue none) (s.next .initial todo)
  | connect {d : Str} {c : CertData} {todo : List Str} (ok : Bool) (ht : s.task = .connecting d c todo) :
      Move js s (.connect ok) { s with task := if ok then .storing .initial d c todo else .returned }
  | set {pass : Pass} {d : Str} {c : CertData} {todo : List Str} (ok : Bool) (ht : s.task = .storing pass d c todo) :
      Move js s (.set ok)
        { s with redis := if ok then storeCert js s.redis d c else s.redis, task := .publishing pass d todo }
  | publish {pass : Pass} {d : Str} {todo : List Str} (ok : Bool) (ht : s.task = .publishing pass d todo) :
      Move js s (.publish ok) (s.next pass todo)
  | wake (ht : s.task = .sleeping) : Move js s .wake { s with task := .opening }
  | opened (ok : Bool) (ht : s.task = .opening) :
      Move js s (.connect ok) (if ok then s.next .renewal s.domains else { s with task := .returned })
  | get {d : Str} {todo : List Str} (ok : Bool) (ht : s.task = .checking d todo) :
      Move js s (.get ok) (s.visit js d todo ok)
  | renewed {now : Nat} {d : Str} {todo : List Str} (pems : Str × Str) (ht : s.task = .renewing now d todo) :
      Move js s (.issue (some pems)) { s with task := .storing .renewal d (CertData.make pems now) todo }
  | failed {now : Nat} {d : Str} {todo : List Str} (ht : s.task = .renewing now d todo) :
      Move js s (.issue none) (s.next .renewal todo)

theorem step_move {s t : State} {ev : Event} (h : step js s ev = some t) : Move js s ev t := by
  unfold step at h
  split at h
  case h_1 => cases h; exact .clock _
  case h_2 => cases h; exact .foreign _
  case h_3 ht => cases h; exact .client _ ht
  case h_4 ht =>
    unfold State.now at h
    by_cases hnow : 0 ≤ s.clock
    · simp only [hnow, if_true, Option.some.injEq] at h
      subst h
      exact .issued _ ht hnow
    · simp only [hnow, if_false, Option.some.injEq] at h
      subst h
      exact .unstamped _ ht (by omega)
  case h_5 ht => cases h; exact .refused ht
  case h_6 ht => cases h; exact .connect _ ht
  case h_7 ht => cases h; exact .set _ ht
  case h_8 ht => cases h; exact .publish _ ht
  case h_9 ht => cases h; exact .wake ht
  case h_10 ht => cases h; exact .opened _ ht
  case h_11 ht => cases h; exact .get _ ht
  case h_12 ht => cases h; exact .renewed _ ht
  case h_13 ht => cases h; exact .failed ht
  case h_14 => cases h

/-! ## A pass visits every domain -/

/-- The domains whose turn has been. -/
def State.visited (s : State) : List Str := (s.visits.map Visit.domain).reverse

/-- The turns that were and the turns to come are the whole list. -/
def Progress (s : State) : Prop :=
  match s.task with
  | .checking d todo => s.visited ++ d :: todo = s.domains
  | .renewing _ _ todo | .storing .renewal _ _ todo | .publishing .renewal _ todo =>
    s.visited ++ todo = s.domains
  | .returned => True
  | _ => s.visits = []

structure Covers (domains : List Str) (s : State) : Prop where
  list : s.domains = domains
  progress : Progress s
  passes : ∀ p ∈ s.passes, (p.map Visit.domain).reverse = domains

theorem Covers.next_initial {domains : List Str} {s : State} (h : Covers domains s) (hv : s.visits = [])
    (todo : List Str) : Covers domains (s.next .initial todo) := by
  cases todo <;> exact ⟨h.list, hv, h.passes⟩

theorem Covers.next_renewal {domains : List Str} {s : State} (hd : s.domains = domains)
    (hp : ∀ p ∈ s.passes, (p.map Visit.domain).reverse = domains) {todo : List Str}
    (hv : s.visited ++ todo = domains) : Covers domains (s.next .renewal todo) := by
  cases todo with
  | nil =>
    refine ⟨hd, rfl, fun p hmem => ?_⟩
    rcases List.mem_cons.mp hmem with rfl | hmem
    · simpa [State.visited] using hv
    · exact hp p hmem
  | cons d todo => exact ⟨hd, hv.trans hd.symm, hp⟩

theorem Covers.visit {domains : List Str} {s : State} {d : Str} {todo : List Str} (h : Covers domains s)
    (ht : s.task = .checking d todo) (ok : Bool) : Covers domains (s.visit js d todo ok) := by
  have hv : s.visited ++ d :: todo = domains := by
    have hprog := h.progress
    simp only [Progress, ht] at hprog
    rw [hprog, h.list]
  have hturn : ∀ attempted, (s.turn js d attempted).visited ++ todo = domains := by
    simpa [State.visited, State.turn] using hv
  have hnext : Covers domains ((s.turn js d false).next .renewal todo) :=
    Covers.next_renewal (s := s.turn js d false) h.list h.passes (hturn false)
  unfold State.visit
  split
  · exact hnext
  · split
    · exact ⟨h.list, trivial, h.passes⟩
    · split
      · exact ⟨h.list, (hturn true).trans h.list.symm, h.passes⟩
      · exact hnext

theorem step_covers {domains : List Str} {s t : State} {ev : Event} (h : Covers domains s)
    (hstep : step js s ev = some t) : Covers domains t := by
  have hprog := h.progress
  cases step_move hstep with
  | clock => exact ⟨h.list, h.progress, h.passes⟩
  | foreign => exact ⟨h.list, h.progress, h.passes⟩
  | client ok ht =>
    simp only [Progress, ht] at hprog
    cases ok with
    | true => exact h.next_initial hprog _
    | false => exact ⟨h.list, trivial, h.passes⟩
  | issued pems ht =>
    simp only [Progress, ht] at hprog
    exact ⟨h.list, hprog, h.passes⟩
  | unstamped => exact ⟨h.list, trivial, h.passes⟩
  | refused ht =>
    simp only [Progress, ht] at hprog
    exact h.next_initial hprog _
  | connect ok ht =>
    simp only [Progress, ht] at hprog
    cases ok with
    | true => exact ⟨h.list, hprog, h.passes⟩
    | false => exact ⟨h.list, trivial, h.passes⟩
  | @set pass d c todo ok ht =>
    simp only [Progress, ht] at hprog
    cases pass <;> exact ⟨h.list, hprog, h.passes⟩
  | @publish pass d todo ok ht =>
    simp only [Progress, ht] at hprog
    cases pass with
    | initial => exact h.next_initial hprog _
    | renewal => exact Covers.next_renewal h.list h.passes (hprog.trans h.list)
  | wake ht =>
    simp only [Progress, ht] at hprog
    exact ⟨h.list, hprog, h.passes⟩
  | opened ok ht =>
    simp only [Progress, ht] at hprog
    cases ok with
    | true => exact Covers.next_renewal h.list h.passes (by simp [State.visited, hprog, h.list])
    | false => exact ⟨h.list, trivial, h.passes⟩
  | get ok ht => exact h.visit ht ok
  | renewed pems ht =>
    simp only [Progress, ht] at hprog
    exact ⟨h.list, hprog, h.passes⟩
  | failed ht =>
    simp only [Progress, ht] at hprog
    exact Covers.next_renewal h.list h.passes (hprog.trans h.list)

theorem start_covers (domains : List Str) (redis : Redis) (clock : Int) :
    Covers domains (start domains redis clock) where
  list := rfl
  progress := rfl
  passes := nofun

theorem run_covers {domains : List Str} {redis : Redis} {clock : Int} {evs : List Event} {t : State}
    (h : Machine.run (step js) (start domains redis clock) evs = some t) : Covers domains t :=
  Machine.run_invariant (fun _ _ _ => step_covers) (start_covers domains redis clock) h

/-! ## The loop goes on, and renews what is due -/

/-- Nothing readable was held, or it expires in less than thirty days. -/
def Visit.Due (v : Visit) : Prop := ∀ c, v.held = some c → (c.expiresAt : Int) < v.clock + renewBefore

/-- A base domain that is due has its order placed. -/
def Visit.Tended (v : Visit) : Prop := isWildcard v.domain = false → v.Due → v.attempted = true

/-- Every turn of every pass so far. -/
def State.turns (s : State) : List Visit := s.visits ++ s.passes.flatten

structure Alive (s : State) : Prop where
  running : s.task ≠ .returned
  tended : ∀ v ∈ s.turns, v.Tended

/-- A turn the loop does right: the clock is past the epoch if it is read,
and for a base domain Redis holds a certificate with an expiry, which GET
gets to see when it is due. -/
def TurnSound (js : CertJson) (s : State) (d : Str) (ok : Bool) : Prop :=
  (ok = true → (loadCert js s.redis d).isSome → 0 ≤ s.clock) ∧
    (isWildcard d = false → ∃ c, loadCert js s.redis d = some c ∧
      ((c.expiresAt : Int) < s.clock + renewBefore → ok = true ∧ 0 < c.expiresAt))

/-- The ACME account and each connection to Redis are there, the clock is
past the epoch when a first certificate is stamped, and each turn of a
renewal pass is sound. -/
def Sound (js : CertJson) (s : State) (ev : Event) : Prop :=
  match s.task, ev with
  | .starting, .client ok | .connecting _ _ _, .connect ok | .opening, .connect ok => ok = true
  | .issuing _ _, .issue (some _) => 0 ≤ s.clock
  | .checking d _, .get ok => TurnSound js s d ok
  | _, _ => True

theorem alive_next {s : State} {pass : Pass} {todo : List Str} :
    Alive (s.next pass todo) ↔ ∀ v ∈ s.turns, v.Tended := by
  cases pass <;> cases todo <;> exact ⟨fun h => h.tended, fun h => ⟨nofun, h⟩⟩

theorem turn_turns (js : CertJson) (s : State) (d : Str) (attempted : Bool) :
    (s.turn js d attempted).turns = ⟨d, loadCert js s.redis d, s.clock, attempted⟩ :: s.turns := rfl

/-- A turn without an order is right for what is not due. -/
theorem tended_skipped {d : Str} {held : Option CertData} {clock : Int} :
    (Visit.mk d held clock false).Tended ↔
      (isWildcard d = false → ∃ c, held = some c ∧ ¬(c.expiresAt : Int) < clock + renewBefore) := by
  simp [Visit.Tended, Visit.Due]

theorem alive_skip {s : State} {d : Str} {todo : List Str} (h : Alive s) :
    Alive ((s.turn js d false).next .renewal todo) ↔ (isWildcard d = false →
      ∃ c, loadCert js s.redis d = some c ∧ ¬(c.expiresAt : Int) < s.clock + renewBefore) := by
  rw [alive_next, turn_turns, List.forall_mem_cons, tended_skipped]
  exact and_iff_left h.tended

/-- **A turn is taken right exactly when it is sound.** -/
theorem alive_visit {s : State} {d : Str} {todo : List Str} {ok : Bool} (h : Alive s) :
    Alive (s.visit js d todo ok) ↔ TurnSound js s d ok := by
  unfold State.visit TurnSound
  cases ok with
  | false => simp [alive_skip h]
  | true =>
    cases hc : loadCert js s.redis d with
    | none => simp [alive_skip h, hc]
    | some c =>
      by_cases hnow : 0 ≤ s.clock
      · simp only [if_true, State.now, hnow]
        split
        · next hdue =>
          simp only [needsRenewal, Bool.and_eq_true, decide_eq_true_eq] at hdue
          have halive : Alive { s.turn js d true with task := .renewing s.clock.toNat d todo } :=
            ⟨nofun, List.forall_mem_cons.mpr ⟨fun _ _ => rfl, h.tended⟩⟩
          simp [halive, hdue.1]
        · next hdue =>
          simp only [needsRenewal, Bool.and_eq_true, decide_eq_true_eq] at hdue
          have hsoon : ¬(c.expiresAt : Int) < s.clock + renewBefore ↔
              ((c.expiresAt : Int) < s.clock + renewBefore → 0 < c.expiresAt) := by omega
          simp only [alive_skip h, hc, Option.some.injEq, exists_eq_left', hsoon]
          simp
      · have hdead : ¬Alive { s with task := .returned } := fun hu => hu.running rfl
        simp [State.now, hnow, hdead]

theorem step_alive {s t : State} {ev : Event} (hstep : step js s ev = some t) (h : Alive s) :
    Sound js s ev ↔ Alive t := by
  have hkept : ∀ {u : State}, u.task ≠ .returned → u.turns = s.turns → Alive u := fun htask hturns =>
    ⟨htask, hturns ▸ h.tended⟩
  have hdead : ∀ {u : State}, u.task = .returned → ¬Alive u := fun htask hu => hu.running htask
  have hnext : ∀ {pass todo}, Alive (s.next pass todo) := alive_next.mpr h.tended
  have hfree : (∀ ok, ev ≠ .client ok) → (∀ ok, ev ≠ .connect ok) → (∀ pems, ev ≠ .issue (some pems)) →
      (∀ ok, ev ≠ .get ok) → Sound js s ev := by
    intro h₁ h₂ h₃ h₄
    unfold Sound
    split <;> simp_all
  cases step_move hstep with
  | clock => exact iff_of_true (hfree nofun nofun nofun nofun) (hkept h.running rfl)
  | foreign => exact iff_of_true (hfree nofun nofun nofun nofun) (hkept h.running rfl)
  | client ok ht =>
    simp only [Sound, ht]
    cases ok with
    | true => exact iff_of_true rfl hnext
    | false => exact iff_of_false nofun (hdead rfl)
  | issued pems ht hnow =>
    simp only [Sound, ht]
    exact iff_of_true hnow (hkept nofun rfl)
  | unstamped pems ht hnow =>
    simp only [Sound, ht]
    exact iff_of_false (by omega) (hdead rfl)
  | refused ht => exact iff_of_true (hfree nofun nofun nofun nofun) hnext
  | connect ok ht =>
    simp only [Sound, ht]
    cases ok with
    | true => exact iff_of_true rfl (hkept nofun rfl)
    | false => exact iff_of_false nofun (hdead rfl)
  | set => exact iff_of_true (hfree nofun nofun nofun nofun) (hkept nofun rfl)
  | publish => exact iff_of_true (hfree nofun nofun nofun nofun) hnext
  | wake => exact iff_of_true (hfree nofun nofun nofun nofun) (hkept nofun rfl)
  | opened ok ht =>
    simp only [Sound, ht]
    cases ok with
    | true => exact iff_of_true rfl hnext
    | false => exact iff_of_false nofun (hdead rfl)
  | get ok ht =>
    simp only [Sound, ht]
    exact (alive_visit h).symm
  | renewed pems ht =>
    simp only [Sound, ht]
    exact iff_of_true trivial (hkept nofun rfl)
  | failed => exact iff_of_true (hfree nofun nofun nofun nofun) hnext

theorem next_turns (s : State) (pass : Pass) (todo : List Str) : (s.next pass todo).turns = s.turns := by
  cases pass <;> cases todo <;> rfl

theorem visit_turns_subset (s : State) (d : Str) (todo : List Str) (ok : Bool) :
    s.turns ⊆ (s.visit js d todo ok).turns := by
  have hturn : ∀ attempted, s.turns ⊆ (s.turn js d attempted).turns := fun attempted =>
    turn_turns js s d attempted ▸ List.subset_cons_self _ _
  have hnext : s.turns ⊆ ((s.turn js d false).next .renewal todo).turns := by
    rw [next_turns]
    exact hturn false
  unfold State.visit
  split
  · exact hnext
  · split
    · exact List.Subset.refl _
    · split
      · exact hturn true
      · exact hnext

/-- Neither the error of the loop nor a turn it missed is undone. -/
theorem alive_of_step {s t : State} {ev : Event} (hstep : step js s ev = some t) (h : Alive t) : Alive s := by
  have hrunning : ∀ {task}, s.task = task → task ≠ .returned → s.task ≠ .returned := fun ht hne => ht ▸ hne
  have hback : s.task ≠ .returned → s.turns ⊆ t.turns → Alive s := fun hrun hsub =>
    ⟨hrun, fun v hv => h.tended v (hsub hv)⟩
  cases step_move hstep with
  | clock => exact ⟨h.running, h.tended⟩
  | foreign => exact ⟨h.running, h.tended⟩
  | client ok ht =>
    refine hback (hrunning ht nofun) ?_
    cases ok
    · exact List.Subset.refl _
    · exact (next_turns s _ _).symm ▸ List.Subset.refl _
  | issued _ ht => exact hback (hrunning ht nofun) (List.Subset.refl _)
  | unstamped _ ht => exact hback (hrunning ht nofun) (List.Subset.refl _)
  | refused ht => exact hback (hrunning ht nofun) (next_turns s _ _ ▸ List.Subset.refl _)
  | connect _ ht => exact hback (hrunning ht nofun) (List.Subset.refl _)
  | set _ ht => exact hback (hrunning ht nofun) (List.Subset.refl _)
  | publish _ ht => exact hback (hrunning ht nofun) (next_turns s _ _ ▸ List.Subset.refl _)
  | wake ht => exact hback (hrunning ht nofun) (List.Subset.refl _)
  | opened ok ht =>
    refine hback (hrunning ht nofun) ?_
    cases ok
    · exact List.Subset.refl _
    · exact (next_turns s _ _).symm ▸ List.Subset.refl _
  | get _ ht => exact hback (hrunning ht nofun) (visit_turns_subset s _ _ _)
  | renewed _ ht => exact hback (hrunning ht nofun) (List.Subset.refl _)
  | failed ht => exact hback (hrunning ht nofun) (next_turns s _ _ ▸ List.Subset.refl _)

/-- **The loop goes on, and renews what is due, exactly when every step is
sound.** -/
theorem renewals_attempted_iff {domains : List Str} {redis : Redis} {clock : Int} {evs : List Event} {t : State}
    (h : Machine.run (step js) (start domains redis clock) evs = some t) :
    (t.task ≠ .returned ∧ (∀ v ∈ t.turns, isWildcard v.domain = false → v.Due → v.attempted = true) ∧
      ∀ p ∈ t.passes, ∀ d ∈ baseDomains domains, ∃ v ∈ p, v.domain = d) ↔
    Machine.Along (step js) (Sound js) (start domains redis clock) evs := by
  have hcovers := run_covers h
  have hiff := Machine.along_iff (fun _ _ _ => alive_of_step) (fun _ _ _ => step_alive) h
    (⟨nofun, nofun⟩ : Alive (start domains redis clock))
  rw [hiff]
  constructor
  · rintro ⟨hrun, htended, -⟩
    exact ⟨hrun, htended⟩
  · intro halive
    refine ⟨halive.running, halive.tended, fun p hp d hd => ?_⟩
    have hmem : d ∈ (p.map Visit.domain).reverse := (hcovers.passes p hp).symm ▸ List.mem_of_mem_filter hd
    obtain ⟨v, hv, hvd⟩ := List.mem_map.mp (List.mem_reverse.mp hmem)
    exact ⟨v, hv, hvd⟩

def exampleCom : Str := "example.com".toList

/-- The first order fails, and a renewal pass follows. -/
def firstOrderFails : List Event := [.client true, .issue none, .wake, .connect true, .get true]

/-- Redis is away when the first renewal pass starts. -/
def redisAway : List Event := [.client true, .issue none, .wake, .connect false]

/-- No certificate is written or read in these runs. -/
def unusedJson : CertJson where
  toVec _ := []
  fromSlice _ := none

def dueCert : CertData := CertData.make ("c".toList, "k".toList) 0

/-- What is stored 60 days later. -/
def freshCert : CertData := CertData.make ("c".toList, "k".toList) (60 * 86400)

/-- Two certificates, told apart by one byte. -/
def dueJson : CertJson where
  toVec cert := if cert = dueCert then [0] else [1]
  fromSlice bytes := if bytes = [0] then some dueCert else if bytes = [1] then some freshCert else none

def dueRedis : Redis := storeCert dueJson ∅ exampleCom dueCert

/-- It is due after 60 days, and renewed. -/
def dueRenewed : List Event :=
  [.client true, .issue none, .clock (60 * 86400), .wake, .connect true, .get true,
    .issue (some ("c".toList, "k".toList)), .set true, .publish true]

theorem dueRenewed_iff : ∃ t, Machine.run (step dueJson) (start [exampleCom] dueRedis 0) dueRenewed = some t ∧
    t.passes = [[⟨exampleCom, some dueCert, 60 * 86400, true⟩]] ∧
    ((t.task ≠ .returned ∧ (∀ v ∈ t.turns, isWildcard v.domain = false → v.Due → v.attempted = true) ∧
      ∀ p ∈ t.passes, ∀ d ∈ baseDomains [exampleCom], ∃ v ∈ p, v.domain = d) ↔
    Machine.Along (step dueJson) (Sound dueJson) (start [exampleCom] dueRedis 0) dueRenewed) := by
  obtain ⟨t, ht, hpasses⟩ := Option.map_eq_some_iff.mp
    (show (Machine.run (step dueJson) (start [exampleCom] dueRedis 0) dueRenewed).map State.passes =
      some [[⟨exampleCom, some dueCert, 60 * 86400, true⟩]] by decide +kernel)
  exact ⟨t, ht, hpasses, renewals_attempted_iff ht⟩

theorem first_order_not_retried :
    (∃ t, Machine.run (step unusedJson) (start [exampleCom] ∅ 0) firstOrderFails = some t ∧
      ∃ v ∈ t.turns, isWildcard v.domain = false ∧ v.held = none ∧ v.attempted = false) ∧
    ∃ t, Machine.run (step unusedJson) (start [exampleCom] ∅ 0) redisAway = some t ∧ t.task = .returned :=
  ⟨⟨_, rfl, ⟨exampleCom, none, 0, false⟩, List.mem_singleton_self _, rfl, rfl, rfl⟩, _, rfl, rfl⟩

end NekoGuard.Certd
