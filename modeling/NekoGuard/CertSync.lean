/-
certd and one proxy over one Redis: certd stores certificates and announces
them, the proxy loads them at startup, subscribes, and loads them all again
for each message it gets. Redis delivers an announcement to whoever is
subscribed at that moment; the proxy reads its keys one by one, each of its
commands may fail, and its connection may break and come back at any time.
-/
import NekoGuard.CertdFacts
import NekoGuard.TlsFacts

namespace NekoGuard.CertSync

open Lib Certd Tls

inductive Phase (pki : PkiCrates) where
  /-- `load_tls_config_raw` is about to open a connection of its own. -/
  | connecting
  /-- A load is about to ask for the keys. -/
  | opening
  /-- A load with these keys still to get. -/
  | loading (todo : List Str) (map : CertMap pki)
  | idle
  /-- A load has panicked. -/
  | dead

def Phase.isIdle {pki : PkiCrates} : Phase pki → Bool
  | .idle => true
  | _ => false

structure Proxy (pki : PkiCrates) where
  phase : Phase pki
  /-- The map handshakes are served from. -/
  tls : CertMap pki
  subscribed : Bool
  /-- Messages that were delivered and not taken yet. -/
  pending : List Str

structure Joint (pki : PkiCrates) where
  certd : Certd.State
  proxy : Proxy pki
  /-- The certificates stored for a domain since it was last announced, the
  announced one included, newest first; none before its first
  announcement. -/
  since : Str → List CertData

inductive Event where
  | certd (e : Certd.Event)
  /-- The subscriber takes a message. -/
  | receive
  | connect (ok : Bool)
  | keys (ok : Bool)
  | get (ok : Bool)
  /-- The load is done, and its map replaces the old one. -/
  | install
  | subscribe
  /-- The connection breaks; of the messages under way `kept` still arrive. -/
  | disconnect (kept : Nat)

variable (js : CertJson) (pki : PkiCrates)

/-- What storing a certificate, or announcing one, adds to the record. -/
def noted (c : Certd.State) (e : Certd.Event) (since : Str → List CertData) : Str → List CertData :=
  match c.task, e with
  | .storing _ d cert _, .set true =>
    Function.update since d (if since d = [] then [] else cert :: since d)
  | .publishing _ d _, .publish true => Function.update since d (loadCert js c.redis d).toList
  | _, _ => since

/-- Redis delivers to a client that is subscribed. -/
def delivered {pki : PkiCrates} (c : Certd.State) (e : Certd.Event) (p : Proxy pki) : Proxy pki :=
  match c.task, e with
  | .publishing _ d _, .publish true => if p.subscribed then { p with pending := p.pending ++ [d] } else p
  | _, _ => p

/-- Redis answers a GET, or does not. -/
def answering (ok : Bool) : Answers := { Answers.every with get := fun _ => ok }

def step : Machine (Joint pki) Event
  -- Nobody else writes certificates.
  | _, .certd (.foreign _) => none
  | s, .certd e => (Certd.step js s.certd e).map fun c =>
    { certd := c, proxy := delivered s.certd e s.proxy, since := noted js s.certd e s.since }
  | s, .receive =>
    match s.proxy.phase, s.proxy.pending with
    | .idle, _ :: pending => some { s with proxy := { s.proxy with phase := .connecting, pending } }
    | _, _ => none
  | s, .connect ok =>
    match s.proxy.phase with
    | .connecting => some { s with proxy := { s.proxy with phase := if ok then .opening else .dead } }
    | _ => none
  -- A KEYS that fails is an empty reply.
  | s, .keys ok =>
    match s.proxy.phase with
    | .opening =>
      some { s with proxy := { s.proxy with phase := .loading (if ok then certKeys s.certd.redis else []) ∅ } }
    | _ => none
  | s, .get ok =>
    match s.proxy.phase with
    | .loading (k :: todo) map =>
      match loadEntry js pki (answering ok) s.certd.redis map k with
      | .ok map => some { s with proxy := { s.proxy with phase := .loading todo map } }
      | .error _ => some { s with proxy := { s.proxy with phase := .dead } }
    | _ => none
  | s, .install =>
    match s.proxy.phase with
    | .loading [] map => some { s with proxy := { s.proxy with phase := .idle, tls := map } }
    | _ => none
  -- The stream of an old connection is read to its end first.
  | s, .subscribe =>
    match s.proxy.phase, s.proxy.pending with
    | .idle, [] => some { s with proxy := { s.proxy with subscribed := true } }
    | _, _ => none
  | s, .disconnect kept =>
    if s.proxy.subscribed then
      some { s with proxy := { s.proxy with subscribed := false, pending := s.proxy.pending.take kept } }
    else none

/-- Both start, the proxy with a connection; what Redis holds was announced
before. -/
def start (domains : List Str) (redis : Redis) (clock : Int) : Joint pki where
  certd := Certd.start domains redis clock
  proxy := { phase := .opening, tls := ∅, subscribed := false, pending := [] }
  since d := (loadCert js redis d).toList

/-! ## What the proxy knows -/

variable {js pki}

/-- This entry was made from this certificate. -/
def Sees (e : Option (Entry pki)) (c : CertData) : Prop := ∃ x, parseEntry pki c = .ok x ∧ e = some x

/-- The proxy will read the domain, or its last read gave one of these
certificates. -/
def Informed (p : Proxy pki) (d : Str) (cs : List CertData) : Prop :=
  match p.phase with
  | .connecting | .opening => True
  | .loading todo map => certKey d ∈ todo ∨ ∃ c ∈ cs, Sees (map.lookup d) c
  | .idle => ∃ c ∈ cs, Sees (p.tls.lookup d) c
  | .dead => True

variable (js) in
/-- An announcement finds the proxy subscribed, with a message waiting, or
informed of the certificate already; the messages that a broken connection
takes with it leave one waiting, or a proxy that is informed anyway; and a
KEYS or a GET that fails does so while a message is waiting, or misses no
domain that was announced. -/
def Heard (s : Joint pki) : Event → Prop
  | .certd (.publish true) =>
    match s.certd.task with
    | .publishing _ d _ => s.proxy.subscribed ∨ s.proxy.pending ≠ [] ∨
      Informed s.proxy d (loadCert js s.certd.redis d).toList
    | _ => True
  | .disconnect kept => s.proxy.pending = [] ∨ s.proxy.pending.take kept ≠ [] ∨
    ∀ d, s.since d ≠ [] → Informed s.proxy d (s.since d)
  | .keys false => s.proxy.pending ≠ [] ∨ ∀ d, s.since d = []
  | .get false =>
    match s.proxy.phase with
    | .loading (k :: _) _ => s.proxy.pending ≠ [] ∨ ∀ d, k = certKey d → s.since d = []
    | _ => True
  | _ => True

/-- Subscribed, and every message processed. -/
structure Proxy.Settled (p : Proxy pki) : Prop where
  idle : p.phase = .idle
  subscribed : p.subscribed = true
  pending : p.pending = []

/-! ## certd, seen from outside -/

theorem next_redis (c : Certd.State) (pass : Pass) (todo : List Str) : (c.next pass todo).redis = c.redis := by
  cases pass <;> cases todo <;> rfl

theorem visit_redis (c : Certd.State) (d : Str) (todo : List Str) (ok : Bool) :
    (c.visit js d todo ok).redis = c.redis := by
  unfold State.visit
  split
  · exact next_redis _ _ _
  · split
    · rfl
    · split
      · rfl
      · exact next_redis _ _ _

/-- Only a SET and a PUBLISH of certd matter to others. -/
theorem certd_effect {c c' : Certd.State} {e : Certd.Event} (he : ∀ redis, e ≠ .foreign redis)
    (h : Certd.step js c e = some c') :
    (c'.redis = c.redis ∧ (∀ since, noted js c e since = since) ∧ ∀ p : Proxy pki, delivered c e p = p) ∨
    (∃ pass d cert todo, c.task = .storing pass d cert todo ∧ e = .set true ∧
      c'.redis = storeCert js c.redis d cert) ∨
    ∃ pass d todo, c.task = .publishing pass d todo ∧ e = .publish true ∧ c'.redis = c.redis := by
  have hquiet : e ≠ .set true → e ≠ .publish true → c'.redis = c.redis →
      c'.redis = c.redis ∧ (∀ since, noted js c e since = since) ∧ ∀ p : Proxy pki, delivered c e p = p := by
    intro hset hpublish hredis
    refine ⟨hredis, fun since => ?_, fun p => ?_⟩
    · unfold noted
      split
      · exact absurd rfl hset
      · exact absurd rfl hpublish
      · rfl
    · unfold delivered
      split
      · exact absurd rfl hpublish
      · rfl
  cases step_move h with
  | clock t => exact .inl (hquiet nofun nofun rfl)
  | foreign redis => exact absurd rfl (he redis)
  | client ok ht =>
    refine .inl (hquiet nofun nofun ?_)
    cases ok
    · rfl
    · exact next_redis _ _ _
  | issued pems ht => exact .inl (hquiet nofun nofun rfl)
  | unstamped pems ht => exact .inl (hquiet nofun nofun rfl)
  | refused ht => exact .inl (hquiet nofun nofun (next_redis _ _ _))
  | connect ok ht => exact .inl (hquiet nofun nofun rfl)
  | @set pass d cert todo ok ht =>
    cases ok with
    | false => exact .inl (hquiet nofun nofun rfl)
    | true => exact .inr (.inl ⟨pass, d, cert, todo, ht, rfl, rfl⟩)
  | @publish pass d todo ok ht =>
    cases ok with
    | false => exact .inl (hquiet nofun nofun (next_redis _ _ _))
    | true => exact .inr (.inr ⟨pass, d, todo, ht, rfl, next_redis _ _ _⟩)
  | wake ht => exact .inl (hquiet nofun nofun rfl)
  | opened ok ht =>
    refine .inl (hquiet nofun nofun ?_)
    cases ok
    · rfl
    · exact next_redis _ _ _
  | get ok ht => exact .inl (hquiet nofun nofun (visit_redis _ _ _ _))
  | renewed pems ht => exact .inl (hquiet nofun nofun rfl)
  | failed ht => exact .inl (hquiet nofun nofun (next_redis _ _ _))

/-! ## No announcement is lost -/

/-- Redis holds the newest certificate of each domain, the keys a load has
left are keys of certificates, and the proxy is informed or about to be. -/
structure Inv (js : CertJson) (s : Joint pki) : Prop where
  stored : ∀ d, s.since d ≠ [] → ∃ c ∈ s.since d, loadCert js s.certd.redis d = some c
  keyed : ∀ todo map, s.proxy.phase = .loading todo map → ∀ k ∈ todo, ∃ d, k = certKey d
  informed : ∀ d, s.since d ≠ [] → s.proxy.pending ≠ [] ∨ Informed s.proxy d (s.since d)

theorem Informed.mono {p : Proxy pki} {d : Str} {cs cs' : List CertData} (h : Informed p d cs) (hsub : cs ⊆ cs') :
    Informed p d cs' := by
  unfold Informed at h ⊢
  cases hp : p.phase with
  | connecting => trivial
  | opening => trivial
  | dead => trivial
  | idle =>
    simp only [hp] at h
    obtain ⟨c, hc, hsees⟩ := h
    exact ⟨c, hsub hc, hsees⟩
  | loading todo map =>
    simp only [hp] at h
    exact h.imp id fun ⟨c, hc, hsees⟩ => ⟨c, hsub hc, hsees⟩

/-- A store keeps the proxy as informed as it was. -/
theorem Inv.set {s : Joint pki} {c' : Certd.State} (h : Inv js s) (hjs : js.Lawful) {d : Str} {cert : CertData}
    (hredis : c'.redis = storeCert js s.certd.redis d cert) :
    Inv js { certd := c', proxy := s.proxy,
             since := Function.update s.since d (if s.since d = [] then [] else cert :: s.since d) } where
  stored d' hd' := by
    by_cases heq : d' = d
    · subst heq
      by_cases hnil : s.since d' = []
      · simp [hnil] at hd'
      · exact ⟨cert, by simp [hnil], by rw [hredis]; exact loadCert_storeCert_self hjs _ _ _⟩
    · simp only [Function.update_of_ne heq] at hd' ⊢
      rw [hredis, loadCert_storeCert_of_ne heq]
      exact h.stored d' hd'
  keyed := h.keyed
  informed d' hd' := by
    by_cases heq : d' = d
    · subst heq
      by_cases hnil : s.since d' = []
      · simp [hnil] at hd'
      · simp only [Function.update_self, hnil, if_false]
        exact (h.informed d' hnil).imp id fun hinf => hinf.mono (List.subset_cons_self _ _)
    · simp only [Function.update_of_ne heq] at hd' ⊢
      exact h.informed d' hd'

/-- An announcement leaves the proxy a message, or finds it informed. -/
theorem Inv.publish {s : Joint pki} {c' : Certd.State} (h : Inv js s) {d : Str} {p : Proxy pki}
    (hredis : c'.redis = s.certd.redis)
    (hp : p = if s.proxy.subscribed then { s.proxy with pending := s.proxy.pending ++ [d] } else s.proxy)
    (hheard : s.proxy.subscribed ∨ s.proxy.pending ≠ [] ∨
      Informed s.proxy d (loadCert js s.certd.redis d).toList) :
    Inv js { certd := c', proxy := p, since := Function.update s.since d (loadCert js s.certd.redis d).toList } := by
  have hstored : ∀ {c}, c ∈ (loadCert js s.certd.redis d).toList → loadCert js s.certd.redis d = some c := by simp
  refine ⟨fun d' hd' => ?_, ?_, fun d' hd' => ?_⟩
  · simp only [hredis]
    by_cases heq : d' = d
    · subst heq
      simp only [Function.update_self] at hd' ⊢
      obtain ⟨c, hc⟩ := List.exists_mem_of_ne_nil _ hd'
      exact ⟨c, hc, hstored hc⟩
    · simp only [Function.update_of_ne heq] at hd' ⊢
      exact h.stored d' hd'
  · subst hp
    split
    · exact h.keyed
    · exact h.keyed
  · subst hp
    cases hsub : s.proxy.subscribed with
    | true => exact .inl (by simp)
    | false =>
      simp only [Bool.false_eq_true, if_false]
      by_cases heq : d' = d
      · subst heq
        simp only [Function.update_self]
        exact hheard.resolve_left (by simp [hsub])
      · simp only [Function.update_of_ne heq] at hd' ⊢
        exact h.informed d' hd'

/-- A load gets one more key, or misses it. -/
theorem Inv.get {s : Joint pki} {k : Str} {todo : List Str} {map map' : CertMap pki} {ok : Bool} (h : Inv js s)
    (hphase : s.proxy.phase = .loading (k :: todo) map) (hC : Heard js s (.get ok))
    (hload : loadEntry js pki (answering ok) s.certd.redis map k = .ok map') :
    Inv js { s with proxy := { s.proxy with phase := .loading todo map' } } := by
  obtain ⟨dk, rfl⟩ := h.keyed _ _ hphase k List.mem_cons_self
  have hkeyed : ∀ todo' map'', Phase.loading todo map' = .loading todo' map'' → ∀ k ∈ todo', ∃ d, k = certKey d := by
    intro todo' map'' heq k hk
    cases heq
    exact h.keyed _ _ hphase k (List.mem_cons_of_mem _ hk)
  refine ⟨h.stored, hkeyed, fun d hd => ?_⟩
  have hother : d ≠ dk → map'.lookup d = map.lookup d → s.proxy.pending ≠ [] ∨
      Informed { s.proxy with phase := .loading todo map' } d (s.since d) := by
    intro hdk hlookup
    refine (h.informed d hd).imp id fun hinf => ?_
    simp only [Informed, hphase] at hinf ⊢
    rw [hlookup]
    refine hinf.imp (fun hmem => ?_) id
    exact (List.mem_cons.mp hmem).resolve_left fun heq => hdk (certKey_inj heq)
  rw [loadEntry_certKey] at hload
  cases ok with
  | false =>
    cases hload
    simp only [Heard, hphase] at hC
    rcases hC with hpending | hquiet
    · exact .inl hpending
    · exact hother (fun hdk => hd (hquiet d (by rw [hdk]))) rfl
  | true =>
    have hread : readable js (answering true) s.certd.redis dk = loadCert js s.certd.redis dk := rfl
    rw [hread] at hload
    by_cases hdk : d = dk
    · -- The key is the domain's own: the proxy now sees what Redis holds.
      subst hdk
      obtain ⟨c, hc, hstored⟩ := h.stored d hd
      simp only [hstored] at hload
      cases hparse : parseEntry pki c with
      | error e =>
        rw [hparse] at hload
        cases hload
      | ok e =>
        rw [hparse] at hload
        cases hload
        exact .inr (.inr ⟨c, hc, e, hparse, AList.lookup_insert _⟩)
    · have hlookup : map'.lookup d = map.lookup d := by
        cases hc : loadCert js s.certd.redis dk with
        | none =>
          rw [hc] at hload
          cases hload
          rfl
        | some c =>
          simp only [hc] at hload
          cases hparse : parseEntry pki c with
          | error e =>
            rw [hparse] at hload
            cases hload
          | ok e =>
            rw [hparse] at hload
            cases hload
            exact AList.lookup_insert_ne hdk
      exact hother hdk hlookup

theorem step_certd {s : Joint pki} {e : Certd.Event} (he : ∀ redis, e ≠ .foreign redis) :
    step js pki s (.certd e) = (Certd.step js s.certd e).map fun c =>
      { certd := c, proxy := delivered s.certd e s.proxy, since := noted js s.certd e s.since } := by
  cases e with
  | foreign redis => exact absurd rfl (he redis)
  | _ => rfl

theorem Inv.certd (hjs : js.Lawful) {s t : Joint pki} {e : Certd.Event} (hC : Heard js s (.certd e))
    (h : Inv js s) (hstep : step js pki s (.certd e) = some t) : Inv js t := by
  have he : ∀ redis, e ≠ .foreign redis := by
    intro redis hforeign
    subst hforeign
    cases hstep
  rw [step_certd he] at hstep
  obtain ⟨c', hc', rfl⟩ := Option.map_eq_some_iff.mp hstep
  rcases certd_effect he hc' with ⟨hredis, hnoted, hdelivered⟩ | ⟨pass, d, cert, todo, ht, rfl, hredis⟩ |
    ⟨pass, d, todo, ht, rfl, hredis⟩
  · rw [hnoted, hdelivered]
    exact ⟨fun d hd => hredis ▸ h.stored d hd, h.keyed, h.informed⟩
  · simp only [noted, delivered, ht]
    exact h.set hjs hredis
  · simp only [Heard, ht] at hC
    simp only [noted, delivered, ht]
    exact h.publish hredis rfl hC

/-- A load that has listed the keys will come to every domain stored. -/
theorem Inv.keys {s : Joint pki} {ok : Bool} (h : Inv js s) (hC : Heard js s (.keys ok)) :
    Inv js { s with proxy := { s.proxy with phase := .loading (if ok then certKeys s.certd.redis else []) ∅ } } := by
  cases ok with
  | false =>
    refine ⟨h.stored, fun todo map heq k hk => ?_, fun d hd => hC.imp id fun hquiet => absurd (hquiet d) hd⟩
    cases heq
    cases hk
  | true =>
    obtain ⟨ds, hds, hmem⟩ := certKeys_eq s.certd.redis
    refine ⟨h.stored, fun todo map heq k hk => ?_, fun d hd => .inr (.inl ?_)⟩
    · cases heq
      rw [if_pos rfl, hds] at hk
      obtain ⟨d, -, rfl⟩ := List.mem_map.mp hk
      exact ⟨d, rfl⟩
    · obtain ⟨c, -, hc⟩ := h.stored d hd
      have hread : readable js .every s.certd.redis d = some c := hc
      rw [if_pos rfl, hds]
      exact List.mem_map_of_mem ((hmem d).mpr (mem_of_readable hread))

theorem step_inv (hjs : js.Lawful) {s t : Joint pki} {ev : Event} (hC : Heard js s ev) (h : Inv js s)
    (hstep : step js pki s ev = some t) : Inv js t := by
  cases ev with
  | certd e => exact h.certd hjs hC hstep
  | receive =>
    simp only [step] at hstep
    split at hstep
    · cases hstep
      exact ⟨h.stored, nofun, fun _ _ => .inr trivial⟩
    · cases hstep
  | connect ok =>
    simp only [step] at hstep
    split at hstep
    · cases hstep
      cases ok <;> exact ⟨h.stored, nofun, fun _ _ => .inr trivial⟩
    · cases hstep
  | keys ok =>
    simp only [step] at hstep
    split at hstep
    · cases hstep
      exact h.keys hC
    · cases hstep
  | get ok =>
    simp only [step] at hstep
    split at hstep
    · next hphase =>
      split at hstep
      · next hload =>
        cases hstep
        exact h.get hphase hC hload
      · cases hstep
        exact ⟨h.stored, nofun, fun _ _ => .inr trivial⟩
    · cases hstep
  | install =>
    simp only [step] at hstep
    split at hstep
    · next hphase =>
      cases hstep
      refine ⟨h.stored, nofun, fun d hd => (h.informed d hd).imp id fun hinf => ?_⟩
      simp only [Informed, hphase, List.not_mem_nil, false_or] at hinf
      exact hinf
    · cases hstep
  | subscribe =>
    simp only [step] at hstep
    split at hstep
    · cases hstep
      exact ⟨h.stored, h.keyed, h.informed⟩
    · cases hstep
  | disconnect kept =>
    simp only [step] at hstep
    split at hstep
    · cases hstep
      refine ⟨h.stored, h.keyed, fun d hd => ?_⟩
      rcases hC with hnil | htake | hall
      · exact .inr ((h.informed d hd).resolve_left (· hnil))
      · exact .inl htake
      · exact .inr (hall d hd)
    · cases hstep

theorem start_inv (domains : List Str) (redis : Redis) (clock : Int) :
    Inv js (start js pki domains redis clock) where
  stored d hd := by
    obtain ⟨c, hc⟩ := List.exists_mem_of_ne_nil _ hd
    have hload : loadCert js redis d = some c := by simpa [start] using hc
    exact ⟨c, hc, hload⟩
  keyed := nofun
  informed _ _ := .inr trivial

/-- **No update is lost.** Where every announcement is heard, and no load that
counts misses a domain, a proxy that is subscribed and has processed its
messages serves for each domain the certificate that was announced last, or
one stored since then. -/
theorem updates_reach_proxy (hjs : js.Lawful) {domains : List Str} {redis : Redis} {clock : Int}
    {evs : List Event} {t : Joint pki}
    (hC : Machine.Along (step js pki) (Heard js) (start js pki domains redis clock) evs)
    (h : Machine.run (step js pki) (start js pki domains redis clock) evs = some t) (hp : t.proxy.Settled) :
    (∀ d c, t.since d = [c] → Sees (t.proxy.tls.lookup d) c) ∧
      ∀ d, t.since d ≠ [] → ∃ c ∈ t.since d, Sees (t.proxy.tls.lookup d) c := by
  have hinv := Machine.run_invariant_along (fun _ _ _ => step_inv hjs) hC (start_inv domains redis clock) h
  have hall : ∀ d, t.since d ≠ [] → ∃ c ∈ t.since d, Sees (t.proxy.tls.lookup d) c := fun d hd => by
    have hinf := (hinv.informed d hd).resolve_left (· hp.pending)
    simpa only [Informed, hp.idle] using hinf
  refine ⟨fun d c hd => ?_, hall⟩
  obtain ⟨c', hc', hsees⟩ := hall d (by simp [hd])
  rw [hd, List.mem_singleton] at hc'
  exact hc' ▸ hsees

def firstCert : CertData := CertData.make (Sample.certPem, Sample.keyPem) 0

def certJson : CertJson := Sample.certJson [firstCert]

/-- certd gets and stores its first certificate. -/
def storeFirst : List Event :=
  [.certd (.client true), .certd (.issue (some (Sample.certPem, Sample.keyPem))), .certd (.connect true),
    .certd (.set true)]

def reload : List Event := [.receive, .connect true, .keys true, .get true, .install]

/-- The proxy is subscribed when the first certificate is announced. -/
def subscribedRun : List Event :=
  [.keys true, .install, .subscribe] ++ storeFirst ++ .certd (.publish true) :: reload

theorem subscribedRun_heard : Machine.Along (step certJson Sample.pki) (Heard certJson)
    (start certJson Sample.pki [exampleCom] ∅ 0) subscribedRun := by
  have hquiet : ∀ evs : List Event, (∀ e ∈ evs, e ≠ .certd (.publish true) ∧ (∀ kept, e ≠ .disconnect kept) ∧
      e ≠ .keys false ∧ e ≠ .get false) → ∀ s, Machine.Along (step certJson Sample.pki) (Heard certJson) s evs := by
    intro evs hevs s
    refine Machine.along_of_forall fun e he s => ?_
    obtain ⟨hpub, hdisc, hkeys, hget⟩ := hevs e he
    unfold Heard
    split
    · exact absurd rfl hpub
    · exact absurd rfl (hdisc _)
    · exact absurd rfl hkeys
    · exact absurd rfl hget
    · trivial
  refine Machine.along_append.mpr ⟨hquiet _ (by simp [storeFirst]) _, fun s hs => ?_⟩
  cases hs
  exact ⟨.inl rfl, fun s _ => hquiet _ (by simp [reload]) s⟩

theorem subscribed_update : ∃ t, Machine.run (step certJson Sample.pki) (start certJson Sample.pki [exampleCom] ∅ 0)
      subscribedRun = some t ∧
    (∀ d c, t.since d = [c] → Sees (t.proxy.tls.lookup d) c) ∧
      ∀ d, t.since d ≠ [] → ∃ c ∈ t.since d, Sees (t.proxy.tls.lookup d) c := by
  obtain ⟨t, ht, hp⟩ := Option.map_eq_some_iff.mp
    (show (Machine.run (step certJson Sample.pki) (start certJson Sample.pki [exampleCom] ∅ 0) subscribedRun).map
      (fun t => (t.proxy.phase.isIdle, t.proxy.subscribed, t.proxy.pending)) = some (true, true, []) by
        decide +kernel)
  simp only [Prod.mk.injEq] at hp
  obtain ⟨hidle, hsub, hpending⟩ := hp
  have hphase : t.proxy.phase = .idle := by
    cases hphase : t.proxy.phase <;> simp [hphase, Phase.isIdle] at hidle ⊢
  exact ⟨t, ht, updates_reach_proxy (Sample.certJson_lawful (by simp)) subscribedRun_heard ht
    ⟨hphase, hsub, hpending⟩⟩

/-- The proxy loads before the first certificate is there, and subscribes
after its announcement. -/
theorem announcement_missed : ∃ t, Machine.run (step certJson Sample.pki) (start certJson Sample.pki [exampleCom] ∅ 0)
      ([.keys true, .install] ++ storeFirst ++ [.certd (.publish true), .subscribe]) = some t ∧
    t.proxy.Settled ∧ t.since exampleCom = [firstCert] ∧ ¬Sees (t.proxy.tls.lookup exampleCom) firstCert := by
  refine ⟨_, rfl, ⟨rfl, rfl, rfl⟩, by decide +kernel, ?_⟩
  rintro ⟨x, -, hx⟩
  cases hx

end NekoGuard.CertSync
