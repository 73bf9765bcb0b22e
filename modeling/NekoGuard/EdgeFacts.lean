/-
What reaches an upstream, over every run of the two listeners. hyper's
requests are all let through by `handle`; a WebSocket upgrade is by nothing,
so what is forwarded was to be let through if and only if each upgrade
happened to be (`forwarded_admitted_iff`).
-/
import NekoGuard.Edge
import NekoGuard.Samples

namespace NekoGuard.Edge

open Lib

variable {rx : RegexCrate} {cfg : Config rx} {lc : LocalCrates} {cr : SealingCrates} {sm : SessionManager}
  {clockAt : Nat → Clock} {κ : Type}

/-- **`handle` passes on only what it is to let through.** -/
theorem handle_admits {calls : Calls} {peerIp : IpAddr} {req : Request} {h : Handled} {u : Str}
    {document bypassed : Bool} (hh : Handle.handle cfg lc cr sm calls peerIp req = .ok h)
    (hreply : h.reply = .proxy u document bypassed) : Admitted cfg cr sm peerIp req calls.clock := by
  unfold Handle.handle at hh
  cases hng : Handle.ngRoute cfg lc cr sm calls peerIp req with
  | some resp =>
    rw [hng] at hh
    cases resp with
    | error e => cases hh
    | ok resp =>
      cases hh
      cases hreply
  | none =>
    rw [hng] at hh
    unfold Handle.access at hh
    cases hs : Handle.sessionValid cr sm calls peerIp req with
    | error e =>
      rw [hs] at hh
      cases hh
    | ok valid =>
      rw [hs] at hh
      cases hh
      by_contra hno
      unfold Admitted at hno
      simp only [not_or] at hno
      obtain ⟨hcookie, hwhite, hby⟩ := hno
      have hvalid : valid = false := by
        cases valid with
        | false => rfl
        | true => exact absurd (Handle.sessionValid_iff.mp hs) hcookie
      simp [Handle.decided, Access.admits, hvalid, hwhite, hby] at hreply

/-! ## What a step forwards -/

/-- The task goes on for a request that was to be let through. -/
def Holds (cfg : Config rx) (cr : SealingCrates) (sm : SessionManager) (clockAt : Nat → Clock)
    (_ : Conn κ) (_ : Nat) (_ : List (Forward κ)) : Task κ → Prop
  | .waiting f => f.Admitted cfg cr sm clockAt
  | .piping f => f.Admitted cfg cr sm clockAt
  | _ => True

theorem holds_afterHead {c : Conn κ} {now : Nat} {log : List (Forward κ)} (head : Bytes) :
    Holds cfg cr sm clockAt c now log (afterHead cfg head) := by
  unfold afterHead
  split
  · split <;> trivial
  · trivial

theorem holds_afterPeek {c : Conn κ} {now : Nat} {log : List (Forward κ)} (bytes : Bytes) :
    Holds cfg cr sm clockAt c now log (afterPeek cfg bytes) := by
  unfold afterPeek
  split
  · split <;> trivial
  · trivial

/-- **What a step does to the log.** It grows by one entry at most: the
upgrade that is connected, or what follows on one, or a request `handle`
passes on. -/
theorem act_log {c : Conn κ} {now : Nat} {log log' : List (Forward κ)} {t t' : Task κ} {e : Step}
    (h : act cfg lc cr sm clockAt c now log t e = some (log', t')) :
    (log' = log ∧ (Holds cfg cr sm clockAt c now log t → Holds cfg cr sm clockAt c now log' t')) ∨
    (∃ u buf text, t = .connecting u buf ∧ e = .connect true ∧
      log' = ⟨c, headRequest buf, now, u, .upgrade text⟩ :: log ∧
      t' = .waiting ⟨c, headRequest buf, now, u, .upgrade text⟩) ∨
    (∃ f bytes, t = .piping f ∧ log' = { f with sent := .piped bytes } :: log ∧ t' = .piping f) ∨
    (∃ f, t = .serving ∧ f.Admitted cfg cr sm clockAt ∧ log' = f :: log ∧ t' = .serving) := by
  cases t <;> cases e <;> simp only [act, reduceCtorEq, Option.some.injEq, Prod.mk.injEq] at h
  case accepted.hello alpnChallenge serverName =>
    split at h
    · cases h
      refine .inl ⟨rfl, fun _ => ?_⟩
      split <;> trivial
    · cases h
  case accepted.peek bytes =>
    split at h
    · cases h
      exact .inl ⟨rfl, fun _ => holds_afterPeek bytes⟩
    · cases h
  case reading.byte head b =>
    obtain ⟨rfl, rfl⟩ := h
    refine .inl ⟨rfl, fun _ => ?_⟩
    split
    · exact holds_afterHead _
    · trivial
  case reading.eof head =>
    obtain ⟨rfl, rfl⟩ := h
    exact .inl ⟨rfl, fun _ => holds_afterHead head⟩
  case buffering.chunk u buf bytes =>
    split at h
    · cases h
      refine .inl ⟨rfl, fun _ => ?_⟩
      split <;> trivial
    · cases h
  case connecting.connect u buf ok =>
    cases ok with
    | false =>
      cases h
      exact .inl ⟨rfl, fun _ => trivial⟩
    | true =>
      simp only [] at h
      split at h
      · next text htext =>
        cases h
        exact .inr (.inl ⟨u, buf, text, rfl, rfl, rfl, rfl⟩)
      · cases h
  case waiting.reply f resp =>
    obtain ⟨rfl, rfl⟩ := h
    refine .inl ⟨rfl, fun hf => ?_⟩
    split
    · exact hf
    · trivial
  case piping.chunk f bytes =>
    obtain ⟨rfl, rfl⟩ := h
    exact .inr (.inr (.inl ⟨f, bytes, rfl, rfl, rfl⟩))
  case serving.request req calls =>
    split at h
    · next hd hhd =>
      split at h
      · cases h
        exact .inl ⟨rfl, fun _ => trivial⟩
      · next u document bypassed hreply =>
        cases h
        have hadm := handle_admits hhd hreply
        exact .inr (.inr (.inr ⟨⟨c, req, now, u, .proxied⟩, rfl, hadm, rfl, rfl⟩))
    · cases h
  all_goals
    obtain ⟨rfl, rfl⟩ := h
    exact .inl ⟨rfl, fun _ => trivial⟩

/-- An upgrade is in the log as soon as it is connected. -/
theorem gated_of_good {c : Conn κ} {now : Nat} {log log' : List (Forward κ)} {t t' : Task κ} {e : Step}
    (h : act cfg lc cr sm clockAt c now log t e = some (log', t'))
    (hgood : ∀ f ∈ log', f.Admitted cfg cr sm clockAt) : Gated cfg cr sm clockAt c now log t e := by
  cases t with
  | connecting u buf =>
    cases e with
    | connect ok =>
      cases ok with
      | false => trivial
      | true =>
        simp only [act] at h
        split at h
        · next text htext =>
          cases h
          have hadm : Admitted cfg cr sm c.peerIp (headRequest buf) (clockAt now) :=
            hgood ⟨c, headRequest buf, now, u, .upgrade text⟩ List.mem_cons_self
          exact hadm
        · cases h
    | _ => trivial
  | _ => trivial

/-! ## Runs -/

theorem keeps : Cluster.Keeps (act (κ := κ) cfg lc cr sm clockAt) (Gated cfg cr sm clockAt)
    (fun _ log => ∀ f ∈ log, f.Admitted cfg cr sm clockAt) (Holds cfg cr sm clockAt) where
  tick := fun _ _ _ h => ⟨h, fun _ t ht => by cases t <;> exact ht⟩
  own := fun c now log t e log' t' hgated hlog hold h => by
    rcases act_log h with ⟨rfl, hnext⟩ | ⟨u, buf, text, rfl, rfl, rfl, rfl⟩ | ⟨f, bytes, rfl, rfl, rfl⟩ |
      ⟨f, rfl, hf, rfl, rfl⟩
    · exact ⟨hlog, hnext hold⟩
    · have hadm : Admitted cfg cr sm c.peerIp (headRequest buf) (clockAt now) := hgated
      exact ⟨List.forall_mem_cons.mpr ⟨hadm, hlog⟩, hadm⟩
    · exact ⟨List.forall_mem_cons.mpr ⟨hold, hlog⟩, hold⟩
    · exact ⟨List.forall_mem_cons.mpr ⟨hf, hlog⟩, trivial⟩
  other := fun _ _ _ _ _ _ _ _ _ _ _ _ t _ ht => by
    cases t <;> exact ht

variable [DecidableEq κ]

/-- What was forwarded stays on record. -/
theorem step_shared_subset (s : Cluster (Conn κ) (List (Forward κ)) (Task κ)) (e : Cluster.Event (Conn κ) Step)
    (t : Cluster (Conn κ) (List (Forward κ)) (Task κ))
    (h : Cluster.step (act cfg lc cr sm clockAt) s e = some t) : s.shared ⊆ t.shared := by
  cases e with
  | tick d =>
    cases h
    exact List.Subset.refl _
  | on c e =>
    obtain ⟨log, q, ha, rfl⟩ := Cluster.step_on_eq_some.mp h
    rcases act_log ha with ⟨rfl, -⟩ | ⟨u, buf, text, -, -, rfl, -⟩ | ⟨f, bytes, -, rfl, -⟩ |
      ⟨f, -, -, rfl, -⟩
    · exact List.Subset.refl _
    · exact List.subset_cons_self _ _
    · exact List.subset_cons_self _ _
    · exact List.subset_cons_self _ _

/-- **When only admitted requests reach an upstream.** At the end of a run
everything forwarded belongs to a request with an accepted cookie, from a
whitelisted address or for a bypassed path, if and only if that is so of
the header block of each WebSocket upgrade that was connected. -/
theorem forwarded_admitted_iff {clock : Nat} {es : List (Cluster.Event (Conn κ) Step)}
    {s : Cluster (Conn κ) (List (Forward κ)) (Task κ)}
    (hrun : Machine.run (Cluster.step (act cfg lc cr sm clockAt)) (start clock) es = some s) :
    (∀ f ∈ s.shared, f.Admitted cfg cr sm clockAt) ↔
      Machine.Along (Cluster.step (act cfg lc cr sm clockAt)) (Cluster.On (Gated cfg cr sm clockAt))
        (start clock) es := by
  constructor
  · refine Machine.along_of_log step_shared_subset (fun s e t h hgood => ?_) hrun
    cases e with
    | tick d => trivial
    | on c e =>
      obtain ⟨log, q, ha, rfl⟩ := Cluster.step_on_eq_some.mp h
      exact gated_of_good ha hgood
  · intro hgated
    exact (keeps.run_along hgated ⟨nofun, fun _ => trivial⟩ hrun).shared

/-- A whitelisted visit over port_http. -/
def visitRun (c : Conn Unit) : List (Cluster.Event (Conn Unit) Step) :=
  [.on c (.peek (Text.bytes "GET / HTTP/1.1\r\n".toList)), .on c (.request (Sample.visit "/" []) Sample.calls)]

def epoch (now : Nat) : Clock := { unixSecs := now, instant := 10 ^ 9 * now }

theorem visitRun_admitted : ∃ s,
    Machine.run (Cluster.step (act (Sample.server [.v4 10 0 0 1]) Sample.locals Sample.crates Sample.manager epoch))
        (start 0) (visitRun ⟨(), .http, .v4 10 0 0 1⟩) = some s ∧
      ∀ f ∈ s.shared, f.Admitted (Sample.server [.v4 10 0 0 1]) Sample.crates Sample.manager epoch := by
  obtain ⟨s, hs⟩ := Option.isSome_iff_exists.mp (show (Machine.run (Cluster.step (act
    (Sample.server [.v4 10 0 0 1]) Sample.locals Sample.crates Sample.manager epoch)) (start 0)
    (visitRun ⟨(), .http, .v4 10 0 0 1⟩)).isSome = true by decide +kernel)
  refine ⟨s, hs, (forwarded_admitted_iff hs).mpr (Machine.along_of_forall fun e he t => ?_)⟩
  -- Nothing is upgraded.
  simp only [visitRun, List.mem_cons, List.not_mem_nil, or_false] at he
  rcases he with rfl | rfl
  · show Gated _ _ _ _ _ t.clock t.shared (t.proc _) _
    cases t.proc ⟨(), .http, .v4 10 0 0 1⟩ <;> trivial
  · show Gated _ _ _ _ _ t.clock t.shared (t.proc _) _
    cases t.proc ⟨(), .http, .v4 10 0 0 1⟩ <;> trivial

/-- A stranger asks for a WebSocket over TLS. -/
def upgradeRun (c : Conn Unit) : List (Cluster.Event (Conn Unit) Step) :=
  .on c (.hello false (some "a.example".toList)) ::
    (Text.bytes "GET / HTTP/1.1\r\nHost: a.example\r\nUpgrade: websocket\r\n\r\n".toList).map (.on c <| .byte ·) ++
      [.on c (.connect true)]

theorem upgradeRun_not_admitted : ∃ s,
    Machine.run (Cluster.step (act (Sample.server []) Sample.locals Sample.crates Sample.manager epoch)) (start 0)
        (upgradeRun ⟨(), .tls, .v4 10 0 0 1⟩) = some s ∧
      ∃ f ∈ s.shared, ¬f.Admitted (Sample.server []) Sample.crates Sample.manager epoch := by
  have hlog : (Machine.run (Cluster.step (act (Sample.server []) Sample.locals Sample.crates Sample.manager epoch))
      (start 0) (upgradeRun ⟨(), .tls, .v4 10 0 0 1⟩)).map (fun s => s.shared.map fun f =>
        (Handle.sessionCookie Sample.manager f.request, Handle.bypassMatch (Sample.server []) f.request)) =
      some [(none, false)] := by decide +kernel
  obtain ⟨s, hs, hlog⟩ := Option.map_eq_some_iff.mp hlog
  obtain ⟨f, hf, hno⟩ := List.mem_map.mp (hlog ▸ List.mem_cons_self)
  simp only [Prod.mk.injEq] at hno
  refine ⟨s, hs, f, hf, ?_⟩
  rintro (⟨cookie, hcookie, -⟩ | hwhite | hby)
  · rw [hno.1] at hcookie
    cases hcookie
  · exact absurd hwhite List.not_mem_nil
  · rw [hno.2] at hby
    cases hby

end NekoGuard.Edge
