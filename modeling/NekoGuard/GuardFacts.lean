/-
What guard.js keeps through every run. `Move` says once what a step can do;
each invariant is a case analysis of it.
-/
import Mathlib.Data.List.Nodup
import Mathlib.Data.List.Perm.Lattice
import NekoGuard.Guard

namespace NekoGuard.Guard

open Lib Clearance

/-! ## What a step can do -/

inductive Move (s : State) : Event → State → Prop where
  | tick (d : Nat) (hs : s.stack = []) : Move s (.tick d) { s with clock := s.clock + d }
  | send (kind : Kind) (hs : s.stack = [] ∨ ∃ e err fs, s.stack = .done e err :: fs ∧ e.runsPage err) :
      Move s (.send kind) (s.submit kind)
  | timer {e : Entry} {due : Nat} (hs : s.stack = []) (hmem : (e, due) ∈ s.timers) (hdue : due ≤ s.clock) :
      Move s (.timer e due)
        ({ s with timers := s.timers.erase (e, due), fired := e :: s.fired }.releaseOne e true)
  | heartbeat (hs : s.stack = []) : Move s .heartbeat s.heartbeat
  | challenge {r : Nat} {ttl : Option Nat} (hs : s.stack = []) (hr : (r, .challenge) ∈ s.running) :
      Move s (.challenge r ttl) (s.await r (.solution (ttl.getD s.anchor.ttl)))
  | solved {r ttl : Nat} (hs : s.stack = []) (hr : (r, .solution ttl) ∈ s.running) :
      Move s (.solved r) (s.await r (.verify ttl))
  | verified {r ttl : Nat} (hs : s.stack = []) (hr : (r, .verify ttl) ∈ s.running) :
      Move s (.verified r)
        (({ s with anchor := { loadedAt := s.clock, ttl } }.push [.renewal r false]).release false)
  | failed {r : Nat} {phase : Phase} (hs : s.stack = []) (hr : (r, phase) ∈ s.running) :
      Move s (.failed r) ((s.push [.renewal r true]).release true)
  | renew {fs : List Frame} (fetched : Bool) (hs : s.stack = .renew :: fs) :
      Move s (.renew fetched) ({ s with stack := fs }.renew fetched)
  | next {e : Entry} {pending : List Entry} {aborted : Bool} {fs : List Frame}
      (hs : s.stack = .release (e :: pending) aborted :: fs) :
      Move s .go ({ s with stack := .release pending aborted :: fs }.releaseOne e aborted)
  | last {aborted : Bool} {fs : List Frame} (hs : s.stack = .release [] aborted :: fs) :
      Move s .go { s with stack := fs }
  | ended {r : Nat} {caught : Bool} {fs : List Frame} (hs : s.stack = .renewal r caught :: fs) :
      Move s .go ({ s with stack := fs }.ended r)
  | assign {r : Nat} {fs : List Frame} (hs : s.stack = .assign r :: fs) :
      Move s .go { s with solver := some r, stack := fs }
  | done {e : Entry} {fs : List Frame} (hs : s.stack = .send e :: fs) :
      Move s .go ({ s with stack := fs }.done e false)
  | ret {e : Entry} {err : Bool} {fs : List Frame} (hs : s.stack = .done e err :: fs) :
      Move s .ret { s with stack := fs }
  | throw {e : Entry} {err : Bool} {fs : List Frame} (hs : s.stack = .done e err :: fs)
      (hpage : e.runsPage err) : Move s .throw (s.unwind fs)

theorem mem_of_lookup {r : Nat} {phase : Phase} {l : List (Nat × Phase)} (h : l.lookup r = some phase) :
    (r, phase) ∈ l := by
  obtain ⟨l₁, l₂, rfl, -⟩ := List.lookup_eq_some_iff.mp h
  simp

theorem step_move {s t : State} {ev : Event} (h : step s ev = some t) : Move s ev t := by
  unfold step at h
  split at h
  case h_1 hs => cases h; exact .tick _ hs
  case h_2 hs => cases h; exact .send _ (.inl hs)
  case h_3 hs =>
    split at h
    · next hc => cases h; exact .timer hs hc.1 hc.2
    · cases h
  case h_4 hs => cases h; exact .heartbeat hs
  case h_5 hs =>
    split at h
    · next hr => cases h; exact .challenge hs (mem_of_lookup hr)
    · cases h
  case h_6 hs =>
    split at h
    · next hr => cases h; exact .solved hs (mem_of_lookup hr)
    · cases h
  case h_7 hs =>
    split at h
    · next hr => cases h; exact .verified hs (mem_of_lookup hr)
    · cases h
  case h_8 hs =>
    split at h
    · next hr => cases h; exact .failed hs (mem_of_lookup hr)
    · cases h
  case h_9 hs => cases h; exact .renew _ hs
  case h_10 hs => cases h; exact .next hs
  case h_11 hs => cases h; exact .last hs
  case h_12 hs => cases h; exact .ended hs
  case h_13 hs => cases h; exact .assign hs
  case h_14 hs => cases h; exact .done hs
  case h_15 hs =>
    split at h
    · next hc => cases h; exact .send _ (.inr ⟨_, _, _, hs, hc⟩)
    · cases h
  case h_16 hs => cases h; exact .ret hs
  case h_17 hs =>
    split at h
    · next hc => cases h; exact .throw hs hc
    · cases h
  case h_18 => cases h

/-! ## Every request is somewhere once -/

/-- The request that `gate` still has in its hands. -/
def Frame.held : Frame → Option Entry
  | .send e => some e
  | _ => none

def State.inHand (s : State) : List Entry := s.stack.filterMap Frame.held

def State.entries (s : State) : List Entry := s.queue ++ (s.inHand ++ s.calls.map Call.entry)

/-- Each request of the page is in the queue, or in the hands of `gate`, or
its `done` was called, or it is one of `es`, which the step is about. -/
structure Ledger (es : List Entry) (s : State) : Prop where
  once : (es ++ s.entries).Perm s.submitted
  nodup : s.submitted.Nodup
  fresh : ∀ e ∈ s.submitted, e.id < s.submitted.length
  fired : ∀ e ∈ s.fired, e ∈ s.submitted ∧ e ∉ s.queue
  timers : ∀ p ∈ s.timers, p.1 ∈ s.submitted
  armed : ∀ e ∈ s.queue, ∃ due, (e, due) ∈ s.timers

theorem Ledger.queue_nodup {es : List Entry} {s : State} (h : Ledger es s) : s.queue.Nodup := by
  have hn := h.once.nodup_iff.mpr h.nodup
  exact (List.nodup_append.mp (List.nodup_append.mp hn).2.1).1

theorem Ledger.done {s : State} {e : Entry} (h : Ledger [e] s) (err : Bool) : Ledger [] (s.done e err) where
  __ := h
  once := by
    refine .trans ?_ h.once
    simp only [State.entries, State.inHand, State.done, Frame.held, List.filterMap_cons, List.map_cons,
      List.nil_append, List.singleton_append]
    rw [← List.append_assoc, ← List.append_assoc]
    exact List.perm_middle

theorem Ledger.erase {s : State} {e : Entry} (h : Ledger [] s) (he : e ∈ s.queue) :
    Ledger [e] { s with queue := s.queue.erase e } where
  __ := h
  once := .trans ((List.perm_cons_erase he).append_right _).symm h.once
  fired e' he' := ⟨(h.fired e' he').1, fun hm => (h.fired e' he').2 (List.mem_of_mem_erase hm)⟩
  armed e' he' := h.armed e' (List.mem_of_mem_erase he')

theorem Ledger.releaseOne {s : State} (h : Ledger [] s) (e : Entry) (aborted : Bool) :
    Ledger [] (s.releaseOne e aborted) := by
  unfold State.releaseOne
  split
  · next he => exact (h.erase he).done aborted
  · exact h

/-- When its timer fires, a request leaves the queue. -/
theorem Ledger.timer {s : State} {e : Entry} {due : Nat} (h : Ledger [] s) (he : (e, due) ∈ s.timers) :
    Ledger [] ({ s with timers := s.timers.erase (e, due), fired := e :: s.fired }.releaseOne e true) := by
  have htimers : ∀ p ∈ s.timers.erase (e, due), p.1 ∈ s.submitted :=
    fun p hp => h.timers p (List.mem_of_mem_erase hp)
  have harmed : ∀ e' ∈ s.queue, e' ≠ e → ∃ due', (e', due') ∈ s.timers.erase (e, due) := by
    intro e' hq hne
    obtain ⟨due', hdue⟩ := h.armed e' hq
    exact ⟨due', (List.mem_erase_of_ne fun heq => hne (congrArg Prod.fst heq)).mpr hdue⟩
  have hfired : ∀ {q : List Entry}, e ∉ q → (∀ e' ∈ q, e' ∈ s.queue) →
      ∀ e' ∈ e :: s.fired, e' ∈ s.submitted ∧ e' ∉ q := by
    intro q heq hsub e' he'
    rcases List.mem_cons.mp he' with rfl | he'
    · exact ⟨h.timers _ he, heq⟩
    · exact ⟨(h.fired e' he').1, fun hm => (h.fired e' he').2 (hsub e' hm)⟩
  unfold State.releaseOne
  split
  · next hq =>
    have hq : e ∈ s.queue := hq
    have hnot : e ∉ s.queue.erase e := fun hm => (h.queue_nodup.mem_erase_iff.mp hm).1 rfl
    have hout : Ledger [e] { s with
        queue := s.queue.erase e, timers := s.timers.erase (e, due), fired := e :: s.fired } :=
      { h.erase hq with
        fired := hfired hnot fun _ => List.mem_of_mem_erase
        timers := htimers
        armed := fun e' he' =>
          have ⟨hne, hq'⟩ := h.queue_nodup.mem_erase_iff.mp he'
          harmed e' hq' hne }
    exact hout.done true
  · next hq =>
    have hq : e ∉ s.queue := hq
    exact { h with
      fired := hfired hq fun _ hm => hm
      timers := htimers
      armed := fun e' he' => harmed e' he' fun heq => hq (heq ▸ he') }

theorem Ledger.push {s : State} {es : List Entry} (h : Ledger es s) (fs : List Frame)
    (hfs : fs.filterMap Frame.held = []) : Ledger es (s.push fs) where
  __ := h
  once := by simpa [State.entries, State.inHand, State.push, hfs] using h.once

theorem Ledger.release {s : State} (h : Ledger [] s) (aborted : Bool) : Ledger [] (s.release aborted) :=
  h.push _ rfl

theorem Ledger.pop {s : State} {es : List Entry} (h : Ledger es s) {f : Frame} {fs : List Frame}
    (hs : s.stack = f :: fs) (hf : f.held = none) : Ledger es { s with stack := fs } where
  __ := h
  once := by simpa [State.entries, State.inHand, hs, hf] using h.once

theorem Ledger.enqueue {s : State} {e : Entry} (h : Ledger [e] s) (hsub : e ∈ s.submitted)
    (he : e ∉ s.fired) : Ledger [] (s.enqueue e) where
  nodup := h.nodup
  fresh := h.fresh
  once := .trans (by simp [State.entries, State.enqueue, State.inHand]) h.once
  fired e' he' := by
    refine ⟨(h.fired e' he').1, fun hm => ?_⟩
    rcases List.mem_append.mp hm with hm | hm
    · exact (h.fired e' he').2 hm
    · simp only [List.mem_singleton] at hm
      exact he (hm ▸ he')
  timers p hp := by
    rcases List.mem_append.mp hp with hp | hp
    · exact h.timers p hp
    · simp only [List.mem_singleton] at hp
      exact hp ▸ hsub
  armed e' he' := by
    rcases List.mem_append.mp he' with he' | he'
    · obtain ⟨due, hdue⟩ := h.armed e' he'
      exact ⟨due, List.mem_append_left _ hdue⟩
    · simp only [List.mem_singleton] at he'
      exact ⟨_, List.mem_append_right _ (by rw [he']; exact List.mem_singleton_self _)⟩

theorem Ledger.gate {s : State} {e : Entry} (h : Ledger [e] s) (hsub : e ∈ s.submitted)
    (he : e ∉ s.fired) : Ledger [] (s.gate e) := by
  unfold State.gate
  split
  · exact (h.enqueue hsub he).push _ rfl
  · split
    · refine { h with once := .trans ?_ h.once }
      simp only [State.entries, State.push, State.inHand, Frame.held, List.cons_append, List.nil_append,
        List.filterMap_cons]
      exact List.perm_middle
    · exact h.done false

theorem Ledger.submit {s : State} (h : Ledger [] s) (kind : Kind) : Ledger [] (s.submit kind) := by
  have hnew : ({ id := s.submitted.length, kind } : Entry) ∉ s.submitted := fun hm =>
    Nat.lt_irrefl _ (h.fresh _ hm)
  have hmore : Ledger [{ id := s.submitted.length, kind }]
      { s with submitted := { id := s.submitted.length, kind } :: s.submitted } :=
    { once := h.once.cons _
      nodup := List.nodup_cons.mpr ⟨hnew, h.nodup⟩
      fresh := by
        intro e he
        rcases List.mem_cons.mp he with rfl | he
        · simp
        · have := h.fresh e he
          simp only [List.length_cons]
          omega
      fired := fun e he => ⟨List.mem_cons_of_mem _ (h.fired e he).1, (h.fired e he).2⟩
      timers := fun p hp => List.mem_cons_of_mem _ (h.timers p hp)
      armed := h.armed }
  exact hmore.gate List.mem_cons_self fun hm => hnew (h.fired _ hm).1

theorem Ledger.renew {s : State} (h : Ledger [] s) (fetched : Bool) : Ledger [] (s.renew fetched) := by
  unfold State.renew
  split
  · exact h
  · have h' : Ledger [] { s with
        started := s.started + 1, running := (s.started, .challenge) :: s.running } := { h with }
    simp only
    split
    · exact { h with }
    · exact (h'.push [_, _] rfl).release true

theorem Ledger.heartbeat {s : State} (h : Ledger [] s) : Ledger [] s.heartbeat := by
  have h' : Ledger [] { s with lastTick := s.clock } := { h with }
  unfold State.heartbeat
  simp only
  split_ifs
  · exact h'.push _ rfl
  · exact h'
  · exact h'.push _ rfl
  · exact h'.push _ rfl
  · exact h'

theorem Ledger.unwind {s : State} {fs : List Frame} (h : Ledger [] { s with stack := fs }) :
    Ledger [] (s.unwind fs) := by
  fun_induction State.unwind s fs with
  | case1 _ _ fs ih => exact ih (h.pop rfl rfl)
  | case2 r fs => exact ((h.pop rfl rfl).push [.renewal r true] rfl).release true
  | case3 => exact h

theorem step_ledger {s t : State} {ev : Event} (h : Ledger [] s) (hstep : step s ev = some t) :
    Ledger [] t := by
  cases step_move hstep with
  | tick => exact { h with }
  | send => exact h.submit _
  | timer _ hmem => exact h.timer hmem
  | heartbeat => exact h.heartbeat
  | challenge => exact { h with }
  | solved => exact { h with }
  | @verified r ttl =>
    have h' : Ledger [] { s with anchor := { loadedAt := s.clock, ttl } } := { h with }
    exact (h'.push [.renewal r false] rfl).release false
  | @failed r => exact (h.push [.renewal r true] rfl).release true
  | renew fetched hs => exact (h.pop hs rfl).renew fetched
  | @next e pending aborted fs hs => exact ((h.pop hs rfl).push [.release pending aborted] rfl).releaseOne e _
  | last hs => exact h.pop hs rfl
  | ended hs => exact { h.pop hs rfl with }
  | assign hs => exact { h.pop hs rfl with }
  | @done e fs hs =>
    have h' : Ledger [e] { s with stack := fs } := { h with
      once := .trans (by simpa [State.entries, State.inHand, hs, Frame.held] using List.perm_middle.symm) h.once }
    exact h'.done false
  | ret hs => exact h.pop hs rfl
  | throw hs => exact (h.pop hs rfl).unwind

/-! ## Nothing is sent on a session that has expired -/

def Phase.Positive : Phase → Prop
  | .challenge => True
  | .solution ttl | .verify ttl => 0 < ttl

/-- What this frame does next is `entry.done(null)`. -/
def Frame.sends : Frame → Bool
  | .send _ => true
  | .release _ aborted => !aborted
  | _ => false

structure Fresh (s : State) : Prop where
  ttl : 0 < s.anchor.ttl
  running : ∀ b ∈ s.running, b.2.Positive
  stack : ∀ f ∈ s.stack, f.sends → s.isExpired = false
  calls : ∀ c ∈ s.calls, c.err = false → c.anchor.isExpired c.now = false

theorem Fresh.push {s : State} (h : Fresh s) (fs : List Frame)
    (hfs : ∀ f ∈ fs, f.sends → s.isExpired = false) : Fresh (s.push fs) where
  __ := h
  stack := fun f hf => (List.mem_append.mp hf).elim (hfs f) (h.stack f)

theorem Fresh.release {s : State} (h : Fresh s) {aborted : Bool}
    (ha : aborted = false → s.isExpired = false) : Fresh (s.release aborted) :=
  h.push _ (by simpa [Frame.sends] using ha)

theorem Fresh.pop {s : State} (h : Fresh s) {f : Frame} {fs : List Frame} (hs : s.stack = f :: fs) :
    Fresh { s with stack := fs } where
  __ := h
  stack f hf := h.stack f (hs ▸ List.mem_cons_of_mem _ hf)

theorem Fresh.done {s : State} (h : Fresh s) {e : Entry} {err : Bool}
    (he : err = false → s.isExpired = false) : Fresh (s.done e err) where
  ttl := h.ttl
  running := h.running
  stack f hf := by
    rcases List.mem_cons.mp hf with rfl | hf
    · simp [Frame.sends]
    · exact h.stack f hf
  calls c hc := by
    rcases List.mem_cons.mp hc with rfl | hc
    · exact he
    · exact h.calls c hc

theorem Fresh.releaseOne {s : State} (h : Fresh s) {e : Entry} {aborted : Bool}
    (ha : aborted = false → s.isExpired = false) : Fresh (s.releaseOne e aborted) := by
  have h' : Fresh { s with queue := s.queue.erase e } := { h with }
  unfold State.releaseOne
  split
  · exact h'.done ha
  · exact h

theorem Fresh.gate {s : State} (h : Fresh s) {e : Entry} : Fresh (s.gate e) := by
  have h' : Fresh (s.enqueue e) := { h with }
  unfold State.gate
  split
  · exact h'.push _ (by simp [Frame.sends])
  · next hexp =>
    have hexp : s.isExpired = false := by simpa using hexp
    split
    · exact h.push _ (by simp [Frame.sends, hexp])
    · exact h.done fun _ => hexp

theorem Fresh.renew {s : State} (h : Fresh s) {fetched : Bool} : Fresh (s.renew fetched) := by
  unfold State.renew
  split
  · exact h
  · have hr : ∀ b ∈ (s.started, Phase.challenge) :: s.running, b.2.Positive := by
      simpa [Phase.Positive] using h.running
    have h' : Fresh { s with
        started := s.started + 1, running := (s.started, .challenge) :: s.running } := { h with running := hr }
    simp only
    split
    · exact { h' with }
    · exact (h'.push _ (by simp [Frame.sends])).release (by simp)

theorem Fresh.heartbeat {s : State} (h : Fresh s) : Fresh s.heartbeat := by
  have h' : Fresh { s with lastTick := s.clock } := { h with }
  have hpush := h'.push [.renew] (by simp [Frame.sends])
  unfold State.heartbeat
  simp only
  split_ifs
  · exact hpush
  · exact h'
  · exact hpush
  · exact hpush
  · exact h'

theorem Fresh.unwind {s : State} {fs : List Frame} (h : Fresh { s with stack := fs }) : Fresh (s.unwind fs) := by
  fun_induction State.unwind s fs with
  | case1 _ _ fs ih => exact ih (h.pop rfl)
  | case2 r fs => exact ((h.pop rfl).push [.renewal r true] (by simp [Frame.sends])).release (by simp)
  | case3 => exact h

theorem Fresh.await {s : State} (h : Fresh s) {r : Nat} {phase : Phase} (hp : phase.Positive) :
    Fresh (s.await r phase) where
  __ := h
  running b hb := by
    obtain ⟨b', hb', rfl⟩ := List.mem_map.mp hb
    split
    · exact hp
    · exact h.running b' hb'

/-- The server's TTL is not zero. -/
def PositiveTtl (_ : State) : Event → Prop
  | .challenge _ ttl => ∀ n ∈ ttl, 0 < n
  | _ => True

instance decidablePositiveTtl : ∀ s ev, Decidable (PositiveTtl s ev)
  | _, .challenge _ ttl => inferInstanceAs (Decidable (∀ n ∈ ttl, 0 < n))
  | _, .tick _ | _, .send _ | _, .timer _ _ | _, .heartbeat | _, .solved _ | _, .verified _ | _, .failed _
  | _, .renew _ | _, .go | _, .ret | _, .throw => inferInstanceAs (Decidable True)

theorem step_fresh {s t : State} {ev : Event} (httl : PositiveTtl s ev) (h : Fresh s)
    (hstep : step s ev = some t) : Fresh t := by
  cases step_move hstep with
  | tick d hs => exact { h with stack := by simp [hs] }
  | send =>
    have h' : ∀ kind, Fresh { s with submitted := { id := s.submitted.length, kind } :: s.submitted } :=
      fun _ => { h with }
    exact (h' _).gate
  | @timer e due =>
    have h' : Fresh { s with timers := s.timers.erase (e, due), fired := e :: s.fired } := { h with }
    exact h'.releaseOne (by simp)
  | heartbeat => exact h.heartbeat
  | @challenge r ttl hs hr =>
    refine h.await ?_
    cases ttl with
    | none => exact h.ttl
    | some ttl => exact httl ttl rfl
  | solved hs hr => exact h.await (h.running _ hr)
  | @verified r ttl hs hr =>
    have hpos : 0 < ttl := h.running _ hr
    have hexp : (Anchor.mk s.clock ttl).isExpired s.clock = false := by
      have hlt : ¬s.clock + ttl * 1000 ≤ s.clock := by omega
      exact decide_eq_false hlt
    have h' : Fresh { s with anchor := { loadedAt := s.clock, ttl } } :=
      { h with ttl := hpos, stack := by simp [hs] }
    exact (h'.push [.renewal r false] (by simp [Frame.sends])).release fun _ => hexp
  | @failed r => exact (h.push [.renewal r true] (by simp [Frame.sends])).release (by simp)
  | renew fetched hs => exact (h.pop hs).renew
  | @next e pending aborted fs hs =>
    have hexp : aborted = false → s.isExpired = false := fun ha =>
      h.stack (.release (e :: pending) aborted) (by simp [hs]) (by simp [Frame.sends, ha])
    have h' : Fresh { s with stack := .release pending aborted :: fs } := { h.pop hs with
      stack := by
        intro f hf hsends
        rcases List.mem_cons.mp hf with rfl | hf
        · exact hexp (by simpa [Frame.sends] using hsends)
        · exact (h.pop hs).stack f hf hsends }
    exact h'.releaseOne hexp
  | last hs => exact h.pop hs
  | ended hs => exact { h.pop hs with running := fun b hb => h.running b (List.mem_of_mem_filter hb) }
  | assign hs => exact { h.pop hs with }
  | @done e fs hs =>
    have hexp : s.isExpired = false := h.stack (.send e) (by simp [hs]) rfl
    exact (h.pop hs).done fun _ => hexp
  | ret hs => exact h.pop hs
  | throw hs => exact (h.pop hs).unwind

/-! ## Runs -/

theorem start_ledger (clock ttl : Nat) : Ledger [] (start clock ttl) := by
  unfold start
  simp only
  split
  · exact ⟨by simp [State.entries, State.inHand, State.push, Frame.held, List.filterMap_cons],
      List.nodup_nil, nofun, nofun, nofun, nofun⟩
  · exact ⟨by simp [State.entries, State.inHand], List.nodup_nil, nofun, nofun, nofun, nofun⟩

theorem start_fresh {clock ttl : Nat} (h : 0 < ttl) : Fresh (start clock ttl) := by
  unfold start
  simp only
  split
  · exact ⟨h, nofun, by simp [State.push, Frame.sends], nofun⟩
  · exact ⟨h, nofun, nofun, nofun⟩

theorem run_ledger {clock ttl : Nat} {evs : List Event} {t : State}
    (h : Machine.run step (start clock ttl) evs = some t) : Ledger [] t :=
  Machine.run_invariant (fun _ _ _ => step_ledger) (start_ledger clock ttl) h

theorem run_fresh {clock ttl : Nat} {evs : List Event} {t : State} (hpos : 0 < ttl)
    (httl : Machine.Along step PositiveTtl (start clock ttl) evs)
    (h : Machine.run step (start clock ttl) evs = some t) : Fresh t :=
  Machine.run_invariant_along (fun _ _ _ => step_fresh) httl (start_fresh hpos) h

/-- Between handlers a request is held once, or its `done` was called once. -/
theorem Ledger.count_eq_one {s : State} (h : Ledger [] s) (hidle : s.stack = []) {e : Entry}
    (he : e ∈ s.submitted) : s.queue.count e + (s.calls.map Call.entry).count e = 1 := by
  have hcount : s.entries.count e = 1 := by
    have hperm : s.entries.Perm s.submitted := h.once
    rw [hperm.count_eq]
    exact List.count_eq_one_of_mem h.nodup he
  simpa [State.entries, State.inHand, hidle] using hcount

theorem Ledger.calls_nodup {s : State} (h : Ledger [] s) : (s.calls.map Call.entry).Nodup := by
  have hn : s.entries.Nodup := h.once.nodup_iff.mpr h.nodup
  exact (List.nodup_append.mp (List.nodup_append.mp hn).2.1).2.1

/-- **No request is sent twice, lost, or sent on an expired session.** In
every run under positive TTLs, `done` is called at most once for each
request; between handlers each request is in the queue once or done; none
is queued whose timer has fired; and `done(null)` finds `isExpired()`
false. -/
theorem requests_settled_once {clock ttl : Nat} {evs : List Event} {t : State} (hpos : 0 < ttl)
    (httl : Machine.Along step PositiveTtl (start clock ttl) evs)
    (h : Machine.run step (start clock ttl) evs = some t) :
    (t.calls.map Call.entry).Nodup ∧
      (t.stack = [] → ∀ e ∈ t.submitted, t.queue.count e + (t.calls.map Call.entry).count e = 1) ∧
      (∀ e ∈ t.fired, e ∉ t.queue) ∧
      ∀ c ∈ t.calls, c.err = false → c.anchor.isExpired c.now = false := by
  have hl := run_ledger h
  have hf := run_fresh hpos httl h
  exact ⟨hl.calls_nodup, fun hidle e he => hl.count_eq_one hidle he, fun e he => (hl.fired e he).2, hf.calls⟩

/-- A request held past expiry, and another that its timer gives up on. -/
def heldRun : List Event :=
  [.tick 1800000, .send .xhr, .renew true, .tick 20000, .send .fetch, .renew true, .tick 10000,
    .timer ⟨0, .xhr⟩ 1830000, .ret, .challenge 0 (some 60), .solved 0, .verified 0, .go, .ret, .go, .go]

theorem heldRun_settled_once : ∃ t, Machine.run step (start 0 1800) heldRun = some t ∧
    (t.calls.map Call.entry).Nodup ∧
      (t.stack = [] → ∀ e ∈ t.submitted, t.queue.count e + (t.calls.map Call.entry).count e = 1) ∧
      (∀ e ∈ t.fired, e ∉ t.queue) ∧
      ∀ c ∈ t.calls, c.err = false → c.anchor.isExpired c.now = false := by
  obtain ⟨t, ht⟩ := Option.isSome_iff_exists.mp
    (show (Machine.run step (start 0 1800) heldRun).isSome = true by decide +kernel)
  exact ⟨t, ht, requests_settled_once (by decide) (by decide +kernel) ht⟩

/-! ## One renewal at a time -/

def Frame.isRelease : Frame → Bool
  | .release _ _ => true
  | _ => false

def Frame.isRenewal : Frame → Bool
  | .renewal _ _ => true
  | _ => false

def Frame.isCatch : Frame → Bool
  | .renewal _ caught => caught
  | _ => false

/-- `nativeFetch` neither is missing nor throws when a renewal starts; no
request meets an expired session from inside a renewal that is ending; and
no exception of the page leaves the `catch` of a renewal while requests are
held. -/
def Orderly (s : State) : Event → Prop
  | .renew fetched => s.solver = none → fetched = true
  | .send _ => s.isExpired → ∀ f ∈ s.stack, f.isRenewal = false
  | .throw => (s.stack.tail.dropWhile Frame.isRelease).head?.any Frame.isCatch → s.queue = []
  | _ => True

instance decidableOrderly : ∀ s ev, Decidable (Orderly s ev)
  | s, .renew fetched => inferInstanceAs (Decidable (s.solver = none → fetched = true))
  | s, .send _ => inferInstanceAs (Decidable (s.isExpired → ∀ f ∈ s.stack, f.isRenewal = false))
  | s, .throw => inferInstanceAs (Decidable
      ((s.stack.tail.dropWhile Frame.isRelease).head?.any Frame.isCatch → s.queue = []))
  | _, .tick _ | _, .timer _ _ | _, .heartbeat | _, .challenge _ _ | _, .solved _ | _, .verified _
  | _, .failed _ | _, .go | _, .ret => inferInstanceAs (Decidable True)

/-- Under the code of the page there is nothing, or the renewal that ends,
with every held request ahead of its loop. -/
def Based (solver : Option Nat) (queue : List Entry) : List Frame → Prop
  | [] => True
  | .done _ _ :: fs | .send _ :: fs | .renew :: fs => Based solver queue fs
  | [.release pending _, .renewal r _] => solver = some r ∧ queue ⊆ pending
  | [.renewal r _] => solver = some r ∧ queue = []
  | _ => False

theorem Based.subset {solver : Option Nat} {queue queue' : List Entry} (hq : queue' ⊆ queue) {fs : List Frame}
    (h : Based solver queue fs) : Based solver queue' fs := by
  fun_induction Based solver queue fs with
  | case1 => trivial
  | case2 _ _ fs ih => exact ih h
  | case3 _ fs ih => exact ih h
  | case4 fs ih => exact ih h
  | case5 => exact ⟨h.1, List.Subset.trans hq h.2⟩
  | case6 => exact ⟨h.1, List.subset_nil.mp (h.2 ▸ hq)⟩
  | case7 => cases h

/-- Where no renewal is ending the solver and the queue are free. -/
theorem Based.of_not_renewal {solver solver' : Option Nat} {queue queue' : List Entry} {fs : List Frame}
    (hfs : ∀ f ∈ fs, f.isRenewal = false) (h : Based solver queue fs) : Based solver' queue' fs := by
  fun_induction Based solver queue fs with
  | case1 => trivial
  | case2 _ _ fs ih => exact ih (fun f hf => hfs f (List.mem_cons_of_mem _ hf)) h
  | case3 _ fs ih => exact ih (fun f hf => hfs f (List.mem_cons_of_mem _ hf)) h
  | case4 fs ih => exact ih (fun f hf => hfs f (List.mem_cons_of_mem _ hf)) h
  | case5 _ _ r caught =>
    have := hfs (.renewal r caught) (by simp)
    cases this
  | case6 r caught =>
    have := hfs (.renewal r caught) (by simp)
    cases this
  | case7 => cases h

theorem Based.not_renewal {queue : List Entry} {fs : List Frame} (h : Based none queue fs) :
    ∀ f ∈ fs, f.isRenewal = false := by
  fun_induction Based none queue fs with
  | case1 => simp
  | case2 _ _ fs ih => simpa [Frame.isRenewal] using ih h
  | case3 _ fs ih => simpa [Frame.isRenewal] using ih h
  | case4 fs ih => simpa [Frame.isRenewal] using ih h
  | case5 => cases h.1
  | case6 => cases h.1
  | case7 => cases h

theorem Based.release_inv {solver : Option Nat} {queue pending : List Entry} {aborted : Bool} {fs : List Frame}
    (h : Based solver queue (.release pending aborted :: fs)) :
    ∃ r caught, fs = [.renewal r caught] ∧ solver = some r ∧ queue ⊆ pending := by
  cases fs with
  | nil => cases h
  | cons f fs =>
    cases f with
    | renewal r caught =>
      cases fs with
      | nil => exact ⟨r, caught, rfl, h⟩
      | cons => cases h
    | _ => cases h

theorem Based.renewal_inv {solver : Option Nat} {queue : List Entry} {r : Nat} {caught : Bool} {fs : List Frame}
    (h : Based solver queue (.renewal r caught :: fs)) : fs = [] ∧ solver = some r ∧ queue = [] := by
  cases fs with
  | nil => exact ⟨rfl, h⟩
  | cons => cases h

structure Single (s : State) : Prop where
  running : s.running.map Prod.fst = s.solver.toList
  held : s.queue ≠ [] → s.solver ≠ none ∨ s.stack.head? = some .renew
  stack : Based s.solver s.queue s.stack

theorem Single.solver_of_mem {s : State} (h : Single s) {r : Nat} {phase : Phase}
    (hr : (r, phase) ∈ s.running) : s.solver = some r := by
  have hmem : r ∈ s.running.map Prod.fst := List.mem_map_of_mem hr
  rw [h.running] at hmem
  simpa using hmem

/-- Unless a call of `renew` is next, held requests have a renewal. -/
theorem Single.solver_ne_none {s : State} (h : Single s) (hs : s.stack.head? ≠ some .renew)
    (hq : s.queue ≠ []) : s.solver ≠ none :=
  (h.held hq).resolve_right hs

theorem Single.done {s : State} (h : Single s) (hs : s.stack.head? ≠ some .renew) (e : Entry) (err : Bool) :
    Single (s.done e err) where
  running := h.running
  held hq := .inl (h.solver_ne_none hs hq)
  stack := h.stack

theorem Single.push_renew {s : State} (h : Single s) : Single (s.push [.renew]) where
  running := h.running
  held _ := .inr rfl
  stack := h.stack

theorem Single.submit {s : State} (h : Single s) (kind : Kind) (hC : Orderly s (.send kind))
    (hs : s.stack.head? ≠ some .renew) : Single (s.submit kind) := by
  have h' : Single { s with submitted := { id := s.submitted.length, kind } :: s.submitted } := { h with }
  unfold State.submit State.gate
  simp only
  split
  · next hexp =>
    have hbase : ∀ queue, Based s.solver queue s.stack := fun _ => Based.of_not_renewal (hC hexp) h.stack
    exact ⟨h.running, fun _ => .inr rfl, hbase _⟩
  · split
    · exact ⟨h.running, fun _ => .inr rfl, h.stack⟩
    · exact h'.done hs _ _

theorem Single.heartbeat {s : State} (h : Single s) : Single s.heartbeat := by
  have h' : Single { s with lastTick := s.clock } := { h with }
  unfold State.heartbeat
  simp only
  split_ifs
  · exact h'.push_renew
  · exact h'
  · exact h'.push_renew
  · exact h'.push_renew
  · exact h'

/-- A body that got its promise is the one renewal there is. -/
theorem Single.renew {s : State} {fs : List Frame} (h : Single s) (hs : s.stack = .renew :: fs)
    {fetched : Bool} (hC : s.solver = none → fetched = true) :
    Single ({ s with stack := fs }.renew fetched) := by
  have hbase : Based s.solver s.queue fs := by simpa [hs, Based] using h.stack
  unfold State.renew
  split
  · next r hr =>
    have hr : s.solver = some r := hr
    exact ⟨h.running, fun _ => .inl (by simp [hr]), hbase⟩
  · next hr =>
    have hr : s.solver = none := hr
    have hrun : s.running = [] := by simpa [hr] using h.running
    simp only [hC hr, if_true]
    refine ⟨by simp [hrun], fun _ => .inl (by simp), ?_⟩
    rw [hr] at hbase
    exact hbase.of_not_renewal hbase.not_renewal

/-- A renewal that is about to end releases the whole queue. -/
theorem Single.ending {s : State} (h : Single s) {r : Nat} {phase : Phase} (hs : s.stack = [])
    (hr : (r, phase) ∈ s.running) (caught aborted : Bool) :
    Single ((s.push [.renewal r caught]).release aborted) where
  running := h.running
  held _ := .inl (by simp [State.release, State.push, h.solver_of_mem hr])
  stack := by
    simp only [State.release, State.push, hs, List.cons_append, List.nil_append, Based]
    exact ⟨h.solver_of_mem hr, List.Subset.refl _⟩

/-- The loop goes on to its next request. -/
theorem Single.next {s : State} {e : Entry} {pending : List Entry} {aborted : Bool} {fs : List Frame}
    (h : Single s) (hn : s.queue.Nodup) (hs : s.stack = .release (e :: pending) aborted :: fs) :
    Single ({ s with stack := .release pending aborted :: fs }.releaseOne e aborted) := by
  obtain ⟨r, caught, rfl, hr, hsub⟩ := Based.release_inv (hs ▸ h.stack)
  unfold State.releaseOne
  split
  · refine ⟨h.running, fun _ => .inl (by simp [State.done, hr]), hr, fun e' he' => ?_⟩
    obtain ⟨hne, hq⟩ := hn.mem_erase_iff.mp he'
    exact (List.mem_cons.mp (hsub hq)).resolve_left hne
  · next hq =>
    refine ⟨h.running, fun _ => .inl (by simp [hr]), hr, fun e' he' => ?_⟩
    exact (List.mem_cons.mp (hsub he')).resolve_left fun heq => hq (heq ▸ he')

theorem Single.unwind {s : State} {fs : List Frame} (hrun : s.running.map Prod.fst = s.solver.toList)
    (hsolver : s.queue ≠ [] → s.solver ≠ none) (hbase : Based s.solver s.queue fs)
    (hC : (fs.dropWhile Frame.isRelease).head?.any Frame.isCatch → s.queue = []) : Single (s.unwind fs) := by
  have hcatch : ∀ {r}, s.solver = some r → Single ({ s with stack := [.renewal r true] }.release true) :=
    fun hr => ⟨hrun, fun _ => .inl (by simp [State.release, State.push, hr]), hr, List.Subset.refl _⟩
  have hlast : ∀ {r}, s.solver = some r → s.queue = [] → Single { s with stack := [.renewal r true] } :=
    fun hr hq => ⟨hrun, fun hne => absurd hq hne, hr, hq⟩
  cases fs with
  | nil => exact ⟨hrun, fun hq => .inl (hsolver hq), hbase⟩
  | cons f fs =>
    cases f with
    | release pending aborted =>
      obtain ⟨r, caught, rfl, hr, -⟩ := hbase.release_inv
      cases caught with
      | false => exact hcatch hr
      | true => exact hlast hr (hC rfl)
    | renewal r caught =>
      obtain ⟨rfl, hr, hq⟩ := hbase.renewal_inv
      cases caught with
      | false => exact hcatch hr
      | true => exact hlast hr hq
    | _ => exact ⟨hrun, fun hq => .inl (hsolver hq), hbase⟩

/-- What a body waits for is no matter. -/
theorem Single.await {s : State} (h : Single s) {r : Nat} {phase : Phase} : Single (s.await r phase) where
  __ := h
  running := by
    have hrun : s.running.map Prod.fst = s.solver.toList := h.running
    refine .trans ?_ hrun
    rw [State.await, List.map_map]
    refine List.map_congr_left fun b _ => ?_
    simp only [Function.comp_apply]
    split
    · next hb => exact hb.symm
    · rfl

theorem step_single {s t : State} {ev : Event} (hC : Orderly s ev) (hl : Ledger [] s) (h : Single s)
    (hstep : step s ev = some t) : Single t := by
  have hpop : ∀ {f : Frame} {fs : List Frame}, s.stack = f :: fs → f ≠ .renew →
      Based s.solver s.queue fs → Single { s with stack := fs } := fun hs hf hbase =>
    { h with held := fun hq => .inl (h.solver_ne_none (by simpa [hs] using hf) hq), stack := hbase }
  cases step_move hstep with
  | tick => exact { h with }
  | send kind hs =>
    refine h.submit kind hC ?_
    rcases hs with hs | ⟨e, err, fs, hs, -⟩ <;> simp [hs]
  | @timer e due hs =>
    have h' : Single { s with
        timers := s.timers.erase (e, due), fired := e :: s.fired, queue := s.queue.erase e } :=
      { h with
        held := fun hq => h.held fun hnil => hq (by simp [hnil])
        stack := h.stack.subset List.erase_subset }
    unfold State.releaseOne
    split
    · exact h'.done (by simp [hs]) e true
    · exact { h with }
  | heartbeat => exact h.heartbeat
  | challenge => exact h.await
  | solved => exact h.await
  | @verified r ttl hs hr =>
    have h' : Single { s with anchor := { loadedAt := s.clock, ttl } } := { h with }
    exact h'.ending hs hr _ _
  | failed hs hr => exact h.ending hs hr _ _
  | renew fetched hs => exact h.renew hs hC
  | next hs => exact h.next hl.queue_nodup hs
  | last hs =>
    obtain ⟨r, caught, rfl, hr, hsub⟩ := Based.release_inv (hs ▸ h.stack)
    exact hpop hs nofun ⟨hr, List.subset_nil.mp hsub⟩
  | @ended r caught fs hs =>
    obtain ⟨rfl, hr, hq⟩ := Based.renewal_inv (hs ▸ h.stack)
    have hrun : s.running.map Prod.fst = [r] := by simp [h.running, hr]
    refine ⟨?_, fun hne => absurd hq hne, trivial⟩
    simp only [State.ended, Option.toList_none, List.map_eq_nil_iff, List.filter_eq_nil_iff]
    intro b hb
    have hb : b.1 ∈ s.running.map Prod.fst := List.mem_map_of_mem hb
    simpa [hrun] using hb
  | assign hs => cases (hs ▸ h.stack : Based s.solver s.queue _)
  | done hs =>
    have hbase : Based s.solver s.queue _ := hs ▸ h.stack
    exact ⟨h.running, fun hq => .inl (h.solver_ne_none (by simp [hs]) hq), hbase⟩
  | ret hs =>
    have hbase : Based s.solver s.queue (.done _ _ :: _) := hs ▸ h.stack
    exact hpop hs nofun hbase
  | throw hs =>
    have hbase : Based s.solver s.queue _ := hs ▸ h.stack
    exact .unwind h.running (h.solver_ne_none (by simp [hs])) hbase (by simpa [Orderly, hs] using hC)

theorem start_single (clock ttl : Nat) : Single (start clock ttl) := by
  unfold start
  simp only
  split
  · exact ⟨rfl, fun _ => .inr rfl, trivial⟩
  · exact ⟨rfl, fun hq => absurd rfl hq, trivial⟩

/-- The page has no `fetch`, and a heartbeat finds the session expired. -/
def missingFetch : List Event :=
  [.tick 1800000, .heartbeat, .renew false, .go, .go, .go]

/-- A renewal fails, and the error handler of the request it releases sends
another. -/
def reentrantSend : List Event :=
  [.tick 1800000, .send .xhr, .renew true, .failed 0, .go, .send .xhr, .renew true, .ret, .go, .go]

end NekoGuard.Guard
