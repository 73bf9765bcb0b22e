/-
guard.js on a page that stays awake. Its heartbeats come on time, and the
renewal that one starts when the session nears its end has the buffer to
end in. So long as its renewals take no longer than they may, and no more
of them fail in a row than the buffer has room for, the page never finds
its session expired, and `gate` lets every request through at once.
-/
import NekoGuard.Lib.Watch
import NekoGuard.Spacing

namespace NekoGuard.Guard

open Lib Clearance

/-- What the times of a run are measured from. -/
structure Tally where
  /-- When the last body started. -/
  since : Nat
  /-- How many have failed in a row. -/
  failures : Nat
deriving DecidableEq, Repr

def note (s : State) (n : Tally) : Event → Tally
  | .renew _ => if s.solver = none then { n with since := s.clock } else n
  | .failed _ => { n with failures := n.failures + 1 }
  | .verified _ => { n with failures := 0 }
  | _ => n

variable {ttl : Nat} {c : Watch.Terms}

/-- The clock goes on, and renewals fail, as the terms allow. -/
def Awake (ttl : Nat) (c : Watch.Terms) (p : State × Tally) : Event → Prop
  | .tick d => p.1.clock + d ≤ p.1.lastTick + c.every ∧
      (p.1.running ≠ [] → p.1.clock + d ≤ p.2.since + c.takes)
  | .challenge r ttl' => Configured ttl p.1 (.challenge r ttl')
  | .failed _ => p.2.failures < c.retries
  | .renew fetched => fetched = true
  | _ => True

instance decidableAwake (ttl : Nat) (c : Watch.Terms) : ∀ p ev, Decidable (Awake ttl c p ev)
  | p, .tick d => inferInstanceAs (Decidable (p.1.clock + d ≤ p.1.lastTick + c.every ∧
      (p.1.running ≠ [] → p.1.clock + d ≤ p.2.since + c.takes)))
  | p, .challenge r ttl' => inferInstanceAs (Decidable (Configured ttl p.1 (.challenge r ttl')))
  | p, .failed _ => inferInstanceAs (Decidable (p.2.failures < c.retries))
  | _, .renew fetched => inferInstanceAs (Decidable (fetched = true))
  | _, .send _ | _, .timer _ _ | _, .heartbeat | _, .solved _ | _, .verified _ | _, .go | _, .ret
  | _, .throw => inferInstanceAs (Decidable True)

/-- The buffer has room for a round for each failure, and one. -/
def Roomy (ttl : Nat) (c : Watch.Terms) : Prop := c.slack < min bufferMs (ttl * 1000)

/-! ## A page is a watch -/

/-- From when on the session needs a renewal. -/
def State.due (s : State) : Nat := s.anchor.loadedAt + (s.anchor.ttl * 1000 - bufferMs)

/-- A renewal that is about to end is no longer waited for. -/
def State.watchStage (s : State) : Watch.Stage :=
  match s.solver with
  | none => if s.stack.head? = some .renew then .called else .idle
  | some _ => if ends s.stack then .idle else .busy

def watch (c : Watch.Terms) (p : State × Tally) : Watch where
  clock := p.1.clock
  due := p.1.due
  stage := p.1.watchStage
  limit := if p.1.watchStage = .busy then p.2.since + c.takes else p.1.lastTick + c.every
  failures := p.2.failures

variable {s t : State} {n : Tally} {ev : Event}

theorem watchStage_of_none (h : s.solver = none) :
    s.watchStage = if s.stack.head? = some .renew then .called else .idle := by
  rw [State.watchStage, h]

theorem watchStage_of_some {r : Nat} (h : s.solver = some r) :
    s.watchStage = if ends s.stack then .idle else .busy := by
  rw [State.watchStage, h]

theorem watchStage_ne_busy (h : s.solver = none) : s.watchStage ≠ .busy := by
  rw [watchStage_of_none h]
  split <;> simp

/-- No request waits, and none was aborted or sent with an expired session. -/
structure Unheld (s : State) : Prop where
  queue : s.queue = []
  calls : ∀ c ∈ s.calls, c.err = false ∧ c.anchor.isExpired c.now = false

/-- What holds of a page that stays awake. -/
structure Punctual (ttl : Nat) (c : Watch.Terms) (p : State × Tally) : Prop where
  ledger : Ledger [] p.1
  single : Single p.1
  timed : Timed ttl p.1
  unheld : Unheld p.1
  ticked : p.1.lastTick ≤ p.1.clock
  near : p.1.clock ≤ p.1.lastTick + c.every
  inTime : (watch c p).InTime c
  few : p.2.failures ≤ c.retries

theorem Punctual.not_expired {p : State × Tally} (hc : Roomy ttl c) (h : Punctual ttl c p) : p.1.isExpired = false := by
  have hlate : p.1.clock ≤ p.1.due + c.slack := h.inTime.late h.few
  have hlasts := h.timed.lasts
  rw [Bool.eq_false_iff, ne_eq, isExpired_iff]
  unfold Roomy at hc
  unfold State.due at hlate
  omega

theorem needsRenewal_iff_due (h : s.anchor.loadedAt ≤ s.clock) : s.needsRenewal = true ↔ s.due ≤ s.clock := by
  rw [needsRenewal_iff, State.due]
  omega

/-- So nothing happens that would leave a renewal behind. -/
theorem Punctual.orderly {p : State × Tally} (hc : Roomy ttl c) (h : Punctual ttl c p) (hev : Awake ttl c p ev) :
    Orderly p.1 ev := by
  cases ev with
  | renew fetched => exact fun _ => hev
  | send kind =>
    intro hexp
    rw [h.not_expired hc] at hexp
    cases hexp
  | throw => exact fun _ => h.unheld.queue
  | _ => trivial

/-! ## What a step does to the requests -/

theorem releaseOne_of_nil (h : s.queue = []) (e : Entry) (aborted : Bool) : s.releaseOne e aborted = s := by
  rw [State.releaseOne, if_neg (by simp [h])]

theorem submit_of_not_expired (h : s.isExpired = false) (kind : Kind) :
    ∃ e, s.submit kind = (if s.needsRenewal then
      State.push { s with submitted := e :: s.submitted } [.renew, .send e]
    else State.done { s with submitted := e :: s.submitted } e false) := by
  refine ⟨⟨s.submitted.length, kind⟩, ?_⟩
  have hexp : State.isExpired { s with submitted := ⟨s.submitted.length, kind⟩ :: s.submitted } = false := h
  simp only [State.submit, State.gate, hexp, Bool.false_eq_true, if_false]
  rfl

theorem Unheld.done (h : Unheld s) (hexp : s.isExpired = false) (e : Entry) : Unheld (s.done e false) where
  queue := h.queue
  calls := by
    intro c hc
    rcases List.mem_cons.mp hc with rfl | hc
    · exact ⟨rfl, hexp⟩
    · exact h.calls c hc

theorem Unheld.unwind (h : Unheld s) (fs : List Frame) : Unheld (s.unwind fs) := by
  fun_induction State.unwind s fs with
  | case1 _ _ fs ih => exact ih
  | case2 => exact ⟨h.queue, h.calls⟩
  | case3 => exact ⟨h.queue, h.calls⟩

theorem Unheld.heartbeat (h : Unheld s) : Unheld s.heartbeat := by
  unfold State.heartbeat
  simp only
  split_ifs <;> exact ⟨h.queue, h.calls⟩

theorem Unheld.submit (h : Unheld s) (hexp : s.isExpired = false) (kind : Kind) : Unheld (s.submit kind) := by
  obtain ⟨e, hsubmit⟩ := submit_of_not_expired hexp kind
  rw [hsubmit]
  split
  · exact ⟨h.queue, h.calls⟩
  · exact Unheld.done (s := { s with submitted := e :: s.submitted }) ⟨h.queue, h.calls⟩ hexp e

theorem Unheld.renew (h : Unheld s) : Unheld (s.renew true) := by
  unfold State.renew
  split
  · exact h
  · exact ⟨h.queue, h.calls⟩

theorem step_unheld {p : State × Tally} (hexp : p.1.isExpired = false) (h : Unheld p.1) (hev : Awake ttl c p ev)
    (hstep : step p.1 ev = some t) : Unheld t := by
  cases step_move hstep with
  | send kind hs => exact h.submit hexp kind
  | heartbeat hs => exact h.heartbeat
  | renew fetched hs =>
    obtain rfl : fetched = true := hev
    exact Unheld.renew ⟨h.queue, h.calls⟩
  | timer hs =>
    rw [releaseOne_of_nil (by exact h.queue)]
    exact ⟨h.queue, h.calls⟩
  | next hs =>
    rw [releaseOne_of_nil (by exact h.queue)]
    exact ⟨h.queue, h.calls⟩
  | @done e fs hs => exact Unheld.done (s := { p.1 with stack := fs }) ⟨h.queue, h.calls⟩ hexp e
  | throw hs => exact h.unwind _
  | _ => exact ⟨h.queue, h.calls⟩

/-! ## What a step does to the watch -/

theorem ends_mem : ∀ {fs : List Frame}, ends fs = true → ∃ f ∈ fs, f.isRenewal = true
  | [f], h => ⟨f, List.mem_singleton_self f, h⟩
  | _ :: f :: fs, h => by
    obtain ⟨g, hg, hrenewal⟩ := @ends_mem (f :: fs) h
    exact ⟨g, List.mem_cons_of_mem _ hg, hrenewal⟩

/-- Where solver, clock, anchor and heartbeat are what they were, a page
without a renewal may at most have come to call for one. -/
theorem watch_stack (hclock : t.clock = s.clock) (hanchor : t.anchor = s.anchor) (htick : t.lastTick = s.lastTick)
    (hsolver : t.solver = s.solver) (hends : ends t.stack = ends s.stack) (hs : s.stack.head? ≠ some .renew) :
    watch c (t, n) = watch c (s, n) ∨
      Watch.Move c (watch c (s, n)) (watch c (t, n)) := by
  have hdue : t.due = s.due := by rw [State.due, hanchor, State.due]
  cases hr : s.solver with
  | some r =>
    left
    have hstage : t.watchStage = s.watchStage := by
      rw [watchStage_of_some (hsolver.trans hr), watchStage_of_some hr, hends]
    simp only [watch, hclock, hdue, hstage, htick]
  | none =>
    have hidle : s.watchStage = .idle := by rw [watchStage_of_none hr, if_neg hs]
    by_cases hcall : t.stack.head? = some .renew
    · right
      have hcalled : t.watchStage = .called := by rw [watchStage_of_none (hsolver.trans hr), if_pos hcall]
      have hmove : Watch.Move c (watch c (s, n)) { watch c (s, n) with stage := .called } :=
        .call (watch c (s, n)).limit hidle
      simpa [watch, hclock, hdue, hcalled, hidle, htick] using hmove
    · left
      have hidle' : t.watchStage = .idle := by rw [watchStage_of_none (hsolver.trans hr), if_neg hcall]
      simp only [watch, hclock, hdue, hidle, hidle', htick]

/-- A heartbeat looks, and calls for a renewal where one is due. -/
theorem heartbeat_eq (s : State) : s.heartbeat =
    if s.needsRenewal then State.push { s with lastTick := s.clock } [.renew] else { s with lastTick := s.clock } := by
  have hexp : s.isExpired = true → s.needsRenewal = true := needsRenewal_of_isExpired
  have hexp' : State.isExpired { s with lastTick := s.clock } = s.isExpired := rfl
  have hneeds' : State.needsRenewal { s with lastTick := s.clock } = s.needsRenewal := rfl
  unfold State.heartbeat
  simp only [hexp', hneeds']
  cases hn : s.needsRenewal with
  | true => simp
  | false =>
    have hfresh : s.isExpired = false := by
      rw [Bool.eq_false_iff]
      intro h
      simp [hexp h] at hn
    simp [hfresh]

theorem Punctual.tick_watch (h : Punctual ttl c (s, n)) (hs : s.stack = []) {d : Nat}
    (hev : Awake ttl c (s, n) (.tick d)) :
    Watch.Move c (watch c (s, n)) (watch c ({ s with clock := s.clock + d }, n)) := by
  refine .wait d ?_ ?_
  · show s.watchStage ≠ .called
    cases hr : s.solver with
    | none => simp [watchStage_of_none hr, hs]
    | some r => simp [watchStage_of_some hr, hs, ends]
  · show s.clock + d ≤ if s.watchStage = .busy then n.since + c.takes else s.lastTick + c.every
    split
    · next hbusy =>
      refine hev.2 fun hnil => watchStage_ne_busy ?_ hbusy
      have hrun : s.running.map Prod.fst = s.solver.toList := h.single.running
      simpa [show s.running = [] from hnil] using hrun.symm
    · exact hev.1

theorem Punctual.heartbeat_watch (h : Punctual ttl c (s, n)) (hs : s.stack = []) :
    watch c (s.heartbeat, n) = watch c (s, n) ∨
      Watch.Move c (watch c (s, n)) (watch c (s.heartbeat, n)) := by
  cases hr : s.solver with
  | some r =>
    -- The renewal under way goes on, and a call for another changes nothing.
    rw [heartbeat_eq]
    left
    have hbusy : s.watchStage = .busy := by simp [watchStage_of_some hr, hs, ends]
    split
    · have hbusy' : (State.push { s with lastTick := s.clock } [.renew]).watchStage = .busy := by
        rw [watchStage_of_some (s := State.push { s with lastTick := s.clock } [.renew]) hr]
        simp [State.push, hs, ends, Frame.isRenewal]
      simp only [watch, hbusy, hbusy', if_true]
      rfl
    · have hbusy' : State.watchStage { s with lastTick := s.clock } = .busy := hbusy
      simp only [watch, hbusy, hbusy', if_true]
      rfl
  | none =>
    rw [heartbeat_eq]
    right
    have hidle : s.watchStage = .idle := by simp [watchStage_of_none hr, hs]
    split
    · have hcalled : (State.push { s with lastTick := s.clock } [.renew]).watchStage = .called := by
        rw [watchStage_of_none (s := State.push { s with lastTick := s.clock } [.renew]) hr]
        rfl
      have hmove : Watch.Move c (watch c (s, n))
          { watch c (s, n) with stage := .called, limit := s.clock + c.every } := .call _ hidle
      simp only [watch, hidle, hcalled] at hmove ⊢
      exact hmove
    · next hneeds =>
      have hidle' : State.watchStage { s with lastTick := s.clock } = .idle := hidle
      rw [needsRenewal_iff_due h.timed.past, not_le] at hneeds
      have hmove : Watch.Move c (watch c (s, n))
          { watch c (s, n) with limit := s.clock + c.every } :=
        .look _ hidle hneeds (Nat.le_add_right _ _) (Nat.le_refl _)
      simp only [watch, hidle, hidle'] at hmove ⊢
      exact hmove

/-- A renewal that starts is the first of its round. -/
theorem Punctual.renew_watch (h : Punctual ttl c (s, n)) {fs : List Frame} (hs : s.stack = .renew :: fs) :
    watch c ({ s with stack := fs }.renew true, note s n (.renew true)) = watch c (s, n) ∨
      Watch.Move c (watch c (s, n))
        (watch c ({ s with stack := fs }.renew true, note s n (.renew true))) := by
  rcases Option.eq_none_or_eq_some s.solver with hr | ⟨r, hr⟩
  · have hbased : Based none s.queue s.stack := hr ▸ h.single.stack
    have hnot : ends fs = false := by
      refine Bool.eq_false_iff.mpr fun hends => ?_
      obtain ⟨f, hf, hrenewal⟩ := ends_mem hends
      have hfree := hbased.not_renewal f (by rw [hs]; exact List.mem_cons_of_mem _ hf)
      rw [hfree] at hrenewal
      cases hrenewal
    have hcalled : s.watchStage = .called := by simp [watchStage_of_none hr, hs]
    have hrenew : State.renew { s with stack := fs } true = { s with
        stack := fs, started := s.started + 1, running := (s.started, .challenge) :: s.running,
        solver := some s.started } := by simp [State.renew, hr]
    have hbusy : (State.renew { s with stack := fs } true).watchStage = .busy := by
      simp [hrenew, State.watchStage, hnot]
    have hnote : note s n (.renew true) = { n with since := s.clock } := by simp [note, hr]
    rw [hrenew] at hbusy ⊢
    rw [hnote]
    right
    have hmove : Watch.Move c (watch c (s, n))
        { watch c (s, n) with stage := .busy, limit := s.clock + c.takes } := .start hcalled
    simp only [watch, hcalled, hbusy, if_true] at hmove ⊢
    exact hmove
  · have hrenew : State.renew { s with stack := fs } true = { s with stack := fs } := by simp [State.renew, hr]
    have hends : ends fs = ends s.stack := by rw [hs, ends_cons rfl]
    have hstage : State.watchStage { s with stack := fs } = s.watchStage := by
      rw [watchStage_of_some (s := { s with stack := fs }) hr, watchStage_of_some hr, hends]
    have hnote : note s n (.renew true) = n := by simp [note, hr]
    left
    rw [hrenew, hnote]
    simp only [watch, hstage]
    rfl

/-- The renewal that ends is the one the page waits for. -/
theorem Punctual.ending (h : Punctual ttl c (s, n)) (hs : s.stack = []) {r : Nat} {phase : Phase}
    (hr : (r, phase) ∈ s.running) {u : State} {f : Nat} {caught aborted : Bool} (hu : u.stack = [])
    (hsolver : u.solver = s.solver) (hclock : u.clock = s.clock) (htick : u.lastTick = s.lastTick)
    (hend : (f = n.failures + 1 ∧ u.anchor = s.anchor) ∨ (f = 0 ∧ u.anchor.loadedAt = s.clock)) :
    Watch.Move c (watch c (s, n))
      (watch c ((u.push [.renewal r caught]).release aborted, { n with failures := f })) := by
  have hr := h.single.solver_of_mem hr
  have hbusy : s.watchStage = .busy := by simp [watchStage_of_some hr, hs, ends]
  have hidle : ((u.push [.renewal r caught]).release aborted).watchStage = .idle := by
    rw [watchStage_of_some (s := (u.push [.renewal r caught]).release aborted) (hsolver.trans hr)]
    simp [State.release, State.push, hu, ends, Frame.isRenewal]
  have hnear : s.clock ≤ s.lastTick + c.every := h.near
  have hticked : s.lastTick ≤ s.clock := h.ticked
  rcases hend with ⟨rfl, hanchor⟩ | ⟨rfl, hanchor⟩
  · have hdue : ((u.push [.renewal r caught]).release aborted).due = s.due := by
      show u.anchor.loadedAt + (u.anchor.ttl * 1000 - bufferMs) = s.due
      rw [hanchor, State.due]
    have hmove : Watch.Move c (watch c (s, n)) { watch c (s, n) with
        stage := .idle, limit := s.lastTick + c.every, failures := n.failures + 1 } :=
      .fail _ hbusy hnear (Nat.add_le_add_right hticked _)
    simp only [watch, hbusy, hidle, hdue] at hmove ⊢
    simpa [State.release, State.push, hclock, htick] using hmove
  · have hdue : s.clock ≤ ((u.push [.renewal r caught]).release aborted).due := by
      show s.clock ≤ u.anchor.loadedAt + (u.anchor.ttl * 1000 - bufferMs)
      omega
    have hmove : Watch.Move c (watch c (s, n)) { watch c (s, n) with
        due := ((u.push [.renewal r caught]).release aborted).due, stage := .idle,
        limit := s.lastTick + c.every, failures := 0 } :=
      .finish _ _ (by simp [watch, hbusy]) hdue hnear (Nat.add_le_add_right hticked _)
    simp only [watch, hbusy, hidle] at hmove ⊢
    simpa [State.release, State.push, hclock, htick] using hmove

theorem lastTick_unwind (s : State) (fs : List Frame) : (s.unwind fs).lastTick = s.lastTick := by
  fun_induction State.unwind s fs with
  | case1 _ _ fs ih => exact ih
  | case2 => rfl
  | case3 => rfl

/-- **Each step is a move of the watch**, or the watch does not see it. -/
theorem Punctual.watch_step (hc : Roomy ttl c) (h : Punctual ttl c (s, n)) (hev : Awake ttl c (s, n) ev)
    (hstep : step s ev = some t) : watch c (t, note s n ev) = watch c (s, n) ∨
      Watch.Move c (watch c (s, n)) (watch c (t, note s n ev)) := by
  cases step_move hstep with
  | tick d hs => exact .inr (h.tick_watch hs hev)
  | send kind hs =>
    obtain ⟨e, hsubmit⟩ := submit_of_not_expired (h.not_expired hc) kind
    have hhead : s.stack.head? ≠ some .renew := by
      rcases hs with hs | ⟨e, err, fs, hs, -⟩ <;> simp [hs]
    have hends : ends (s.submit kind).stack = ends s.stack := by
      rw [hsubmit]
      split
      · exact (ends_cons rfl _).trans (ends_cons rfl _)
      · exact ends_cons rfl _
    have hkeep : (s.submit kind).solver = s.solver ∧ (s.submit kind).lastTick = s.lastTick := by
      rw [hsubmit]
      split <;> exact ⟨rfl, rfl⟩
    obtain ⟨hclock, hanchor, -⟩ := submit_pace s kind
    exact watch_stack hclock hanchor hkeep.2 hkeep.1 hends hhead
  | timer hs =>
    rw [releaseOne_of_nil (by exact h.unheld.queue)]
    exact .inl rfl
  | heartbeat hs => exact h.heartbeat_watch hs
  | challenge hs hr => exact .inl rfl
  | solved hs hr => exact .inl rfl
  | @verified r ttl hs hr =>
    exact .inr (h.ending (u := { s with anchor := { loadedAt := s.clock, ttl } }) hs hr hs rfl rfl rfl
      (.inr ⟨rfl, rfl⟩))
  | failed hs hr => exact .inr (h.ending hs hr hs rfl rfl rfl (.inl ⟨rfl, rfl⟩))
  | renew fetched hs =>
    obtain rfl : fetched = true := hev
    exact h.renew_watch hs
  | @next e pending aborted fs hs =>
    rw [releaseOne_of_nil (by exact h.unheld.queue)]
    have hends : ends (.release pending aborted :: fs) = ends s.stack := by rw [hs, ends_cons rfl, ends_cons rfl]
    exact watch_stack rfl rfl rfl rfl hends (by simp [hs])
  | @last aborted fs hs =>
    have hends : ends fs = ends s.stack := by rw [hs, ends_cons rfl]
    exact watch_stack rfl rfl rfl rfl hends (by simp [hs])
  | @ended r caught fs hs =>
    have hbased : Based s.solver s.queue (.renewal r caught :: fs) := hs ▸ h.single.stack
    obtain ⟨rfl, hr, -⟩ := hbased.renewal_inv
    have hidle : s.watchStage = .idle := by simp [watchStage_of_some hr, hs, ends, Frame.isRenewal]
    have hidle' : (State.ended { s with stack := [] } r).watchStage = .idle := rfl
    left
    simp only [watch, hidle, hidle']
    rfl
  | assign hs => cases (hs ▸ h.single.stack : Based s.solver s.queue _)
  | @done e fs hs =>
    have hends : ends (.done e false :: fs) = ends s.stack := by rw [hs, ends_cons rfl, ends_cons rfl]
    exact watch_stack rfl rfl rfl rfl hends (by simp [hs])
  | @ret e err fs hs =>
    have hends : ends fs = ends s.stack := by rw [hs, ends_cons rfl]
    exact watch_stack rfl rfl rfl rfl hends (by simp [hs])
  | @throw e err fs hs =>
    have hends : ends (s.unwind fs).stack = ends s.stack := by rw [ends_unwind, hs, ends_cons rfl]
    have hstill := still_unwind s fs
    have hsolver : (s.unwind fs).solver = s.solver := (unwind_bodies s fs).2.2
    exact watch_stack hstill.clock hstill.anchor (lastTick_unwind s fs) hsolver hends (by simp [hs])

/-! ## Runs -/

/-- Where the last heartbeat is. -/
theorem Punctual.step_tick (h : Punctual ttl c (s, n)) (hev : Awake ttl c (s, n) ev) (hstep : step s ev = some t) :
    t.lastTick ≤ t.clock ∧ t.clock ≤ t.lastTick + c.every := by
  have hticked : s.lastTick ≤ s.clock := h.ticked
  have hnear : s.clock ≤ s.lastTick + c.every := h.near
  have hone : ∀ (u : State) e aborted, (u.releaseOne e aborted).lastTick = u.lastTick ∧
      (u.releaseOne e aborted).clock = u.clock := by
    intro u e aborted
    unfold State.releaseOne
    split <;> exact ⟨rfl, rfl⟩
  cases step_move hstep with
  | tick d hs => exact ⟨Nat.le_trans hticked (Nat.le_add_right _ d), hev.1⟩
  | send kind hs =>
    unfold State.submit State.gate
    simp only
    split
    · exact ⟨hticked, hnear⟩
    · split <;> exact ⟨hticked, hnear⟩
  | timer hs =>
    rw [(hone _ _ _).1, (hone _ _ _).2]
    exact ⟨hticked, hnear⟩
  | heartbeat hs =>
    rw [heartbeat_eq]
    split <;> exact ⟨Nat.le_refl _, Nat.le_add_right _ _⟩
  | renew fetched hs =>
    unfold State.renew
    split
    · exact ⟨hticked, hnear⟩
    · simp only
      split <;> exact ⟨hticked, hnear⟩
  | next hs =>
    rw [(hone _ _ _).1, (hone _ _ _).2]
    exact ⟨hticked, hnear⟩
  | throw hs =>
    rw [lastTick_unwind, (still_unwind _ _).clock]
    exact ⟨hticked, hnear⟩
  | _ => exact ⟨hticked, hnear⟩

theorem Punctual.configured {p : State × Tally} (hev : Awake ttl c p ev) : Configured ttl p.1 ev := by
  cases ev with
  | challenge r ttl => exact hev
  | _ => trivial

theorem note_failures (hev : Awake ttl c (s, n) ev) (h : n.failures ≤ c.retries) :
    (note s n ev).failures ≤ c.retries := by
  cases ev with
  | failed r => exact Nat.succ_le_of_lt hev
  | verified r => exact Nat.zero_le _
  | renew fetched =>
    unfold note
    simp only
    split <;> exact h
  | _ => exact h

theorem step_punctual (hc : Roomy ttl c) {p q : State × Tally} (hev : Awake ttl c p ev) (h : Punctual ttl c p)
    (hstep : Machine.observe step note p ev = some q) : Punctual ttl c q := by
  obtain ⟨s, n⟩ := p
  obtain ⟨t, n'⟩ := q
  obtain ⟨hstep, rfl⟩ := Machine.observe_eq_some.mp hstep
  have htick := h.step_tick hev hstep
  exact {
    ledger := step_ledger h.ledger hstep
    single := step_single (h.orderly hc hev) h.ledger h.single hstep
    timed := step_timed (Punctual.configured hev) h.timed hstep
    unheld := step_unheld (h.not_expired hc) h.unheld hev hstep
    ticked := htick.1
    near := htick.2
    inTime := by
      rcases h.watch_step hc hev hstep with heq | hmove
      · rw [heq]
        exact h.inTime
      · exact h.inTime.move hmove
    few := note_failures hev h.few }

theorem start_eq (clock ttl : Nat) : ∃ fs, start clock ttl =
    { clock, anchor := { loadedAt := clock, ttl }, lastTick := clock, solver := none, running := [], started := 0,
      queue := [], timers := [], fired := [], submitted := [], calls := [], stack := fs } := by
  unfold start
  simp only
  split
  · exact ⟨[.renew], rfl⟩
  · exact ⟨[], rfl⟩

theorem start_punctual (clock ttl : Nat) (c : Watch.Terms) :
    Punctual ttl c (start clock ttl, { since := clock, failures := 0 }) := by
  obtain ⟨fs, hstart⟩ := start_eq clock ttl
  have hledger := start_ledger clock ttl
  have hsingle := start_single clock ttl
  have htimed := start_timed clock ttl
  rw [hstart] at hledger hsingle htimed ⊢
  refine ⟨hledger, hsingle, htimed, ⟨rfl, by simp⟩, Nat.le_refl _, Nat.le_add_right _ _, ?_, Nat.zero_le _⟩
  simp only [Watch.InTime, watch, State.due, State.watchStage]
  generalize ttl * 1000 - bufferMs = left
  by_cases hs : fs.head? = some .renew
  · simp only [if_pos hs]
    omega
  · simp only [if_neg hs, reduceCtorEq, if_false]
    omega

/-- **A page that stays awake never waits.** Where heartbeats come on time,
no challenge names a TTL below the configured one, and the buffer has room
for the renewals that fail in a row and one more: the page never finds its
session expired, holds no request, aborts none, and hands each one over at
once and with a session that still lasts. -/
theorem awake_never_waits {clock : Nat} {evs : List Event} {t : State} (hc : Roomy ttl c)
    (hC : Machine.Along (Machine.observe step note) (Awake ttl c)
      (start clock ttl, { since := clock, failures := 0 }) evs)
    (h : Machine.run step (start clock ttl) evs = some t) :
    t.isExpired = false ∧ t.queue = [] ∧ (∀ c ∈ t.calls, c.err = false ∧ c.anchor.isExpired c.now = false) ∧
      (t.stack = [] → (t.calls.map Call.entry).Perm t.submitted) := by
  obtain ⟨n, hrun⟩ := Machine.run_observe note { since := clock, failures := 0 } h
  have hp : Punctual ttl c (t, n) :=
    Machine.run_invariant_along (fun p ev q hev hp hq => step_punctual hc hev hp hq) hC
      (start_punctual clock ttl c) hrun
  refine ⟨hp.not_expired hc, hp.unheld.queue, hp.unheld.calls, fun hs => ?_⟩
  have honce := hp.ledger.once
  have hqueue : t.queue = [] := hp.unheld.queue
  simpa [State.entries, State.inHand, hs, hqueue] using honce

/-- The session is renewed at the second try, and requests go through. -/
def secondTry : List Event :=
  (List.replicate 50 [.tick 30000, .heartbeat]).flatten ++
    [.renew true, .send .xhr, .renew true, .go, .ret, .challenge 0 none, .tick 20000, .failed 0, .go, .go,
      .tick 10000, .heartbeat, .renew true, .challenge 1 (some 1800), .tick 25000, .solved 1, .verified 1, .go, .go,
      .send .fetch, .ret]

theorem secondTry_never_waits : ∃ t, Machine.run step (start 0 1800) secondTry = some t ∧ t.isExpired = false ∧
    t.queue = [] ∧ (∀ c ∈ t.calls, c.err = false ∧ c.anchor.isExpired c.now = false) ∧
      (t.stack = [] → (t.calls.map Call.entry).Perm t.submitted) := by
  obtain ⟨t, ht⟩ := Option.isSome_iff_exists.mp
    (show (Machine.run step (start 0 1800) secondTry).isSome = true by decide +kernel)
  exact ⟨t, ht, awake_never_waits (c := ⟨30000, 60000, 2⟩) (by unfold Roomy; decide) (by decide +kernel) ht⟩

end NekoGuard.Guard
