/-
guard.js: the requests that are sent are sent in the order the page made
them (`sent_in_order`), as long as no native send throws or calls back. A
queue that is not empty means an expired session, so nothing overtakes it.
-/
import Mathlib.Data.List.Sort
import NekoGuard.GuardFacts

namespace NekoGuard.Guard

open Lib Clearance

/-- The native send is running. -/
def Frame.sending : Frame → Bool
  | .done _ err => !err
  | _ => false

/-- No native send throws or calls back. -/
def Calm (s : State) : Event → Prop
  | .send _ | .throw => s.stack.head?.any Frame.sending = false
  | _ => True

instance decidableCalm : ∀ s ev, Decidable (Calm s ev)
  | s, .send _ | s, .throw => inferInstanceAs (Decidable (s.stack.head?.any Frame.sending = false))
  | _, .tick _ | _, .timer _ _ | _, .heartbeat | _, .challenge _ _ | _, .solved _ | _, .verified _
  | _, .failed _ | _, .renew _ | _, .go | _, .ret => inferInstanceAs (Decidable True)

/-- The requests that were sent, the newest one first. -/
def State.sent (s : State) : List Entry := (s.calls.filter fun c => !c.err).map Call.entry

variable {s t : State} {e : Entry}

theorem Ledger.mem_of_queue (h : Ledger [] s) (he : e ∈ s.queue) : e ∈ s.submitted :=
  h.once.subset (by simp [State.entries, he])

theorem Ledger.mem_of_sent (h : Ledger [] s) (he : e ∈ s.sent) : e ∈ s.submitted := by
  obtain ⟨c, hc, rfl⟩ := List.mem_map.mp he
  have hcall : c.entry ∈ s.calls.map Call.entry := List.mem_map_of_mem (List.mem_of_mem_filter hc)
  exact h.once.subset (by simp [State.entries, hcall])

/-! ## Order -/

/-- All that is sent is in order, and before all that is held. -/
structure InOrder (s : State) : Prop where
  submitted : s.submitted.Pairwise fun e f => f.id < e.id
  queue : s.queue.Pairwise fun e f => e.id < f.id
  sent : s.sent.Pairwise fun e f => f.id < e.id
  below : ∀ e ∈ s.sent, ∀ f ∈ s.queue, e.id < f.id

theorem InOrder.fail (h : InOrder s) (e : Entry) : InOrder (s.done e true) :=
  ⟨h.submitted, h.queue, h.sent, h.below⟩

theorem InOrder.done (h : InOrder s) (hsent : ∀ f ∈ s.sent, f.id < e.id) (hqueue : ∀ f ∈ s.queue, e.id < f.id) :
    InOrder (s.done e false) where
  submitted := h.submitted
  queue := h.queue
  sent := List.pairwise_cons.mpr ⟨hsent, h.sent⟩
  below f hf := by
    rcases List.mem_cons.mp hf with rfl | hf
    · exact hqueue
    · exact h.below f hf

theorem InOrder.enqueue (h : InOrder s) (hsent : ∀ f ∈ s.sent, f.id < e.id)
    (hqueue : ∀ f ∈ s.queue, f.id < e.id) : InOrder (s.enqueue e) where
  submitted := h.submitted
  queue := List.pairwise_append.mpr ⟨h.queue, List.pairwise_singleton _ _, by simpa using hqueue⟩
  sent := h.sent
  below f hf g hg := by
    rcases List.mem_append.mp hg with hg | hg
    · exact h.below f hf g hg
    · obtain rfl := List.mem_singleton.mp hg
      exact hsent f hf

theorem InOrder.erase (h : InOrder s) (e : Entry) : InOrder { s with queue := s.queue.erase e } where
  submitted := h.submitted
  queue := h.queue.sublist List.erase_sublist
  sent := h.sent
  below f hf g hg := h.below f hf g (List.mem_of_mem_erase hg)

/-- Where the order is looked at, nothing else counts. -/
theorem InOrder.congr (h : InOrder s) (hsub : t.submitted = s.submitted) (hqueue : t.queue = s.queue)
    (hcalls : t.calls = s.calls) : InOrder t := by
  have hsent : t.sent = s.sent := by rw [State.sent, hcalls, State.sent]
  exact ⟨hsub ▸ h.submitted, hqueue ▸ h.queue, hsent ▸ h.sent, hsent ▸ hqueue ▸ h.below⟩

/-! ## What the handler under way may still send -/

/-- The page code that is told of an error. -/
def Frame.failing : Frame → Bool
  | .done _ err => err
  | _ => false

/-- Nothing is to be sent; and where requests are held, or were given up on,
the session is expired. -/
structure Quiet (s : State) : Prop where
  stack : ∀ f ∈ s.stack, f.sends = false
  expired : s.queue ≠ [] ∨ (∃ f ∈ s.stack, f.failing = true) → s.isExpired = true

/-- `gate` lets a request through when its call of `renew` is over. -/
structure Direct (s : State) (e : Entry) : Prop where
  stack : ∃ fs, s.stack = fs ++ [.send e] ∧
    ∀ f ∈ fs, f.sends = false ∧ f.sending = false ∧ f.failing = false
  queue : s.queue = []
  newest : ∀ f ∈ s.sent, f.id < e.id

/-- A renewal that succeeded releases the queue. -/
def Releasing (s : State) : Prop :=
  ∃ r, s.stack = [.release s.queue false, .renewal r false] ∨
    ∃ e, s.stack = [.done e false, .release s.queue false, .renewal r false]

inductive Mode (s : State) : Prop where
  | quiet (h : Quiet s)
  | direct (e : Entry) (h : Direct s e)
  | releasing (h : Releasing s)

theorem Quiet.push (h : Quiet s) {fs : List Frame} (hsends : ∀ f ∈ fs, f.sends = false)
    (hfailing : ∀ f ∈ fs, f.failing = false) : Quiet (s.push fs) where
  stack := fun f hf => (List.mem_append.mp hf).elim (hsends f) (h.stack f)
  expired := by
    rintro (hq | ⟨f, hf, hfail⟩)
    · exact h.expired (.inl hq)
    · rcases List.mem_append.mp hf with hf | hf
      · rw [hfailing f hf] at hfail
        cases hfail
      · exact h.expired (.inr ⟨f, hf, hfail⟩)

theorem Quiet.pop (h : Quiet s) {f : Frame} {fs : List Frame} (hs : s.stack = f :: fs) :
    Quiet { s with stack := fs } where
  stack := fun g hg => h.stack g (hs ▸ List.mem_cons_of_mem f hg)
  expired := by
    rintro (hq | ⟨g, hg, hfail⟩)
    · exact h.expired (.inl hq)
    · exact h.expired (.inr ⟨g, hs ▸ List.mem_cons_of_mem f hg, hfail⟩)

theorem Quiet.release (h : Quiet s) : Quiet (s.release true) :=
  h.push (by simp [Frame.sends]) (by simp [Frame.failing])

/-- A request that is given up on was held. -/
theorem Quiet.releaseOne (h : Quiet s) (e : Entry) : Quiet (s.releaseOne e true) := by
  unfold State.releaseOne
  split
  · next he =>
    have hexp := h.expired (.inl (List.ne_nil_of_mem he))
    refine ⟨fun f hf => ?_, fun _ => hexp⟩
    rcases List.mem_cons.mp hf with rfl | hf
    · rfl
    · exact h.stack f hf
  · exact h

theorem Quiet.renew (h : Quiet s) (fetched : Bool) : Quiet (s.renew fetched) := by
  unfold State.renew
  split
  · exact h
  · have h' : Quiet { s with
        started := s.started + 1, running := (s.started, .challenge) :: s.running } := ⟨h.stack, h.expired⟩
    simp only
    split
    · exact ⟨h.stack, h.expired⟩
    · exact (h'.push (by simp [Frame.sends]) (by simp [Frame.failing])).release

theorem Quiet.heartbeat (h : Quiet s) : Quiet s.heartbeat := by
  have h' : Quiet { s with lastTick := s.clock } := ⟨h.stack, h.expired⟩
  have hpush : Quiet (State.push { s with lastTick := s.clock } [.renew]) :=
    h'.push (by simp [Frame.sends]) (by simp [Frame.failing])
  unfold State.heartbeat
  simp only
  split_ifs
  · exact hpush
  · exact h'
  · exact hpush
  · exact hpush
  · exact h'

theorem Quiet.unwind {fs : List Frame} (h : Quiet { s with stack := fs }) : Quiet (s.unwind fs) := by
  fun_induction State.unwind s fs with
  | case1 _ _ fs ih => exact ih (h.pop rfl)
  | case2 r fs =>
    have hpop : Quiet { s with stack := fs } := h.pop rfl
    have hcatch : Quiet (State.push { s with stack := fs } [.renewal r true]) :=
      hpop.push (by simp [Frame.sends]) (by simp [Frame.failing])
    exact hcatch.release
  | case3 => exact h

/-! ## Steps -/

theorem InOrder.releaseOne (h : InOrder s) (e : Entry) : InOrder (s.releaseOne e true) := by
  unfold State.releaseOne
  split
  · exact (h.erase e).fail e
  · exact h

theorem InOrder.renew (h : InOrder s) (fetched : Bool) : InOrder (s.renew fetched) := by
  unfold State.renew
  split
  · exact h
  · simp only
    split <;> exact h.congr rfl rfl rfl

theorem InOrder.heartbeat (h : InOrder s) : InOrder s.heartbeat := by
  unfold State.heartbeat
  simp only
  split_ifs <;> exact h.congr rfl rfl rfl

theorem InOrder.unwind (h : InOrder s) (fs : List Frame) : InOrder (s.unwind fs) := by
  fun_induction State.unwind s fs with
  | case1 _ _ fs ih => exact ih
  | case2 r fs => exact h.congr rfl rfl rfl
  | case3 => exact h.congr rfl rfl rfl

/-- A new request waits behind all that are held, or is the newest one to be
sent. -/
theorem submit_inOrder (hl : Ledger [] s) (ho : InOrder s) (hq : Quiet s) (hidle : s.isExpired = false → s.stack = [])
    (kind : Kind) : InOrder (s.submit kind) ∧ Mode (s.submit kind) := by
  have hsent : ∀ f ∈ s.sent, f.id < s.submitted.length := fun f hf => hl.fresh f (hl.mem_of_sent hf)
  have hqueue : ∀ f ∈ s.queue, f.id < s.submitted.length := fun f hf => hl.fresh f (hl.mem_of_queue hf)
  have ho' : InOrder { s with submitted := { id := s.submitted.length, kind } :: s.submitted } :=
    ⟨List.pairwise_cons.mpr ⟨hl.fresh, ho.submitted⟩, ho.queue, ho.sent, ho.below⟩
  unfold State.submit State.gate
  simp only
  split
  · next hexp =>
    have hexp : s.isExpired = true := hexp
    have hheld := @InOrder.enqueue _ { id := s.submitted.length, kind } ho' hsent hqueue
    refine ⟨hheld.congr rfl rfl rfl, .quiet ⟨fun f hf => ?_, fun _ => hexp⟩⟩
    rcases List.mem_cons.mp hf with rfl | hf
    · rfl
    · exact hq.stack f hf
  · next hexp =>
    have hexp : ¬s.isExpired = true := hexp
    rw [Bool.not_eq_true] at hexp
    have hstack := hidle hexp
    have hnone : s.queue = [] := by
      by_contra hne
      rw [hq.expired (.inl hne)] at hexp
      cases hexp
    split
    · refine ⟨ho'.congr rfl rfl rfl,
        .direct { id := s.submitted.length, kind } ⟨⟨[.renew], ?_, ?_⟩, hnone, hsent⟩⟩
      · simp [State.push, hstack]
      · simp [Frame.sends, Frame.sending, Frame.failing]
    · refine ⟨ho'.done hsent (by simp [hnone]), .quiet ⟨?_, ?_⟩⟩
      · simp [State.done, hstack, Frame.sends]
      · simp [State.done, hstack, Frame.failing, hnone]

/-- Outside a release nothing is sent that is not the newest. -/
theorem Quiet.step {ev : Event} (hq : Quiet s) (hC : Calm s ev) (hl : Ledger [] s) (ho : InOrder s) (hm : Move s ev t) :
    InOrder t ∧ Mode t := by
  have hrelease : ∀ {e pending aborted fs}, s.stack = .release (e :: pending) aborted :: fs → aborted = true := by
    intro e pending aborted fs hs
    have hsends := hq.stack (.release (e :: pending) aborted) (by simp [hs])
    simpa [Frame.sends] using hsends
  have hfailing : ∀ {e err fs}, s.stack = .done e err :: fs →
      s.stack.head?.any Frame.sending = false → err = true := by
    intro e err fs hs hcalm
    simpa [hs, Frame.sending] using hcalm
  cases hm with
  | tick d hs =>
    refine ⟨ho.congr rfl rfl rfl, .quiet ⟨hq.stack, fun hheld => ?_⟩⟩
    have hexp : s.anchor.expiresAt ≤ s.clock := of_decide_eq_true (hq.expired hheld)
    exact decide_eq_true (Nat.le_add_right_of_le hexp)
  | send kind hs =>
    refine submit_inOrder hl ho hq (fun hexp => ?_) kind
    rcases hs with hs | ⟨e, err, fs, hs, -⟩
    · exact hs
    · obtain rfl := hfailing hs hC
      rw [hq.expired (.inr ⟨.done e true, by simp [hs], rfl⟩)] at hexp
      cases hexp
  | @timer e due hs =>
    have hq' : Quiet { s with timers := s.timers.erase (e, due), fired := e :: s.fired } := ⟨hq.stack, hq.expired⟩
    have ho' : InOrder { s with timers := s.timers.erase (e, due), fired := e :: s.fired } := ho.congr rfl rfl rfl
    exact ⟨ho'.releaseOne e, .quiet (hq'.releaseOne e)⟩
  | heartbeat => exact ⟨ho.heartbeat, .quiet hq.heartbeat⟩
  | challenge => exact ⟨ho.congr rfl rfl rfl, .quiet ⟨hq.stack, hq.expired⟩⟩
  | solved => exact ⟨ho.congr rfl rfl rfl, .quiet ⟨hq.stack, hq.expired⟩⟩
  | @verified r ttl hs =>
    refine ⟨ho.congr rfl rfl rfl, .releasing ⟨r, .inl ?_⟩⟩
    simp [State.release, State.push, hs]
  | @failed r phase hs =>
    have hcatch : Quiet (s.push [.renewal r true]) := hq.push (by simp [Frame.sends]) (by simp [Frame.failing])
    exact ⟨ho.congr rfl rfl rfl, .quiet hcatch.release⟩
  | @renew fs fetched hs =>
    have ho' : InOrder { s with stack := fs } := ho.congr rfl rfl rfl
    exact ⟨ho'.renew fetched, .quiet ((hq.pop hs).renew fetched)⟩
  | @next e pending aborted fs hs =>
    obtain rfl := hrelease hs
    have hq' : Quiet (State.push { s with stack := fs } [.release pending true]) :=
      (hq.pop hs).push (by simp [Frame.sends]) (by simp [Frame.failing])
    have ho' : InOrder { s with stack := .release pending true :: fs } := ho.congr rfl rfl rfl
    exact ⟨ho'.releaseOne e, .quiet (hq'.releaseOne e)⟩
  | last hs => exact ⟨ho.congr rfl rfl rfl, .quiet (hq.pop hs)⟩
  | ended hs =>
    have hpop := hq.pop hs
    exact ⟨ho.congr rfl rfl rfl, .quiet ⟨hpop.stack, hpop.expired⟩⟩
  | assign hs =>
    have hpop := hq.pop hs
    exact ⟨ho.congr rfl rfl rfl, .quiet ⟨hpop.stack, hpop.expired⟩⟩
  | @done e fs hs =>
    have hsends := hq.stack (.send e) (by simp [hs])
    cases hsends
  | ret hs => exact ⟨ho.congr rfl rfl rfl, .quiet (hq.pop hs)⟩
  | throw hs => exact ⟨ho.unwind _, .quiet (hq.pop hs).unwind⟩

theorem Direct.pop (h : Direct s e) {f : Frame} {fs : List Frame} (hs : s.stack = f :: fs) :
    (f = .send e ∧ fs = []) ∨ (f.sends = false ∧ f.sending = false ∧ f.failing = false) ∧
      Direct { s with stack := fs } e := by
  obtain ⟨⟨gs, hgs, hall⟩, hqueue, hnewest⟩ := h
  rw [hs] at hgs
  cases gs with
  | nil => exact .inl (by simpa using hgs)
  | cons g gs =>
    obtain ⟨rfl, rfl⟩ := List.cons.inj hgs
    exact .inr ⟨hall f (by simp), ⟨gs, rfl, fun g hg => hall g (by simp [hg])⟩, hqueue, hnewest⟩

theorem Direct.push (h : Direct s e) {fs : List Frame}
    (hfs : ∀ f ∈ fs, f.sends = false ∧ f.sending = false ∧ f.failing = false) : Direct (s.push fs) e := by
  obtain ⟨⟨gs, hgs, hall⟩, hqueue, hnewest⟩ := h
  refine ⟨⟨fs ++ gs, by simp [State.push, hgs], fun f hf => ?_⟩, hqueue, hnewest⟩
  exact (List.mem_append.mp hf).elim (hfs f) (hall f)

/-- Before the request goes out there is only the call of `renew`. -/
theorem Direct.step {ev : Event} (h : Direct s e) (ho : InOrder s) (hm : Move s ev t) : InOrder t ∧ Mode t := by
  have hbusy : s.stack ≠ [] := by
    obtain ⟨⟨fs, hfs, -⟩, -⟩ := h
    simp [hfs]
  have hpage : ∀ {e' err fs}, s.stack ≠ .done e' err :: fs := by
    intro e' err fs hs
    rcases h.pop hs with hsend | ⟨⟨-, hsending, hfailing⟩, -⟩
    · simp at hsend
    · cases err <;> simp [Frame.sending, Frame.failing] at hsending hfailing
  have hpop : ∀ {f fs}, s.stack = f :: fs → f ≠ .send e → Direct { s with stack := fs } e := by
    intro f fs hs hne
    rcases h.pop hs with hsend | hrest
    · exact absurd hsend.1 hne
    · exact hrest.2
  cases hm with
  | tick _ hs => exact absurd hs hbusy
  | send _ hs =>
    rcases hs with hs | ⟨e', err, fs, hs, -⟩
    · exact absurd hs hbusy
    · exact absurd hs hpage
  | timer hs => exact absurd hs hbusy
  | heartbeat hs => exact absurd hs hbusy
  | challenge hs => exact absurd hs hbusy
  | solved hs => exact absurd hs hbusy
  | verified hs => exact absurd hs hbusy
  | failed hs => exact absurd hs hbusy
  | @renew fs fetched hs =>
    have ho' : InOrder { s with stack := fs } := ho.congr rfl rfl rfl
    refine ⟨ho'.renew fetched, .direct e ?_⟩
    have hrest := hpop hs (by simp)
    unfold State.renew
    split
    · exact hrest
    · have hstart : Direct { s with
          stack := fs, started := s.started + 1, running := (s.started, .challenge) :: s.running } e :=
        ⟨hrest.stack, hrest.queue, hrest.newest⟩
      simp only
      split
      · exact ⟨hstart.stack, hstart.queue, hstart.newest⟩
      · have hbody := @Direct.push _ _ hstart [.renewal s.started true, .assign s.started]
          (by simp [Frame.sends, Frame.sending, Frame.failing])
        exact hbody.push (by simp [Frame.sends, Frame.sending, Frame.failing])
  | @next e' pending aborted fs hs =>
    have hnot : e' ∉ s.queue := by simp [h.queue]
    have haborted : aborted = true := by
      rcases h.pop hs with hsend | hrest
      · simp at hsend
      · simpa [Frame.sends] using hrest.1.1
    have hrest := @Direct.push _ _ (hpop hs (by simp)) [.release pending aborted]
      (by simp [haborted, Frame.sends, Frame.sending, Frame.failing])
    have hsame : State.releaseOne { s with stack := .release pending aborted :: fs } e' aborted =
        { s with stack := .release pending aborted :: fs } := if_neg hnot
    rw [hsame]
    exact ⟨ho.congr rfl rfl rfl, .direct e hrest⟩
  | last hs => exact ⟨ho.congr rfl rfl rfl, .direct e (hpop hs (by simp))⟩
  | ended hs =>
    have hrest := hpop hs (by simp)
    exact ⟨ho.congr rfl rfl rfl, .direct e ⟨hrest.stack, hrest.queue, hrest.newest⟩⟩
  | assign hs =>
    have hrest := hpop hs (by simp)
    exact ⟨ho.congr rfl rfl rfl, .direct e ⟨hrest.stack, hrest.queue, hrest.newest⟩⟩
  | @done e' fs hs =>
    rcases h.pop hs with ⟨hsend, rfl⟩ | hrest
    · cases hsend
      have ho' : InOrder { s with stack := [] } := ho.congr rfl rfl rfl
      have hqueue := h.queue
      refine ⟨ho'.done h.newest (by simp [hqueue]), .quiet ⟨?_, ?_⟩⟩
      · simp [State.done, Frame.sends]
      · simp [State.done, Frame.failing, hqueue]
    · simp [Frame.sends] at hrest
  | ret hs => exact absurd hs hpage
  | throw hs => exact absurd hs hpage

/-- The loop sends the oldest request that is held, comes back from it, or is
over. -/
theorem Releasing.cases {ev : Event} (h : Releasing s) (hC : Calm s ev) (hm : Move s ev t) :
    (∃ e pending r, s.queue = e :: pending ∧ t = { s with
      queue := pending, calls := ⟨e, false, s.anchor, s.clock⟩ :: s.calls,
      stack := [.done e false, .release pending false, .renewal r false] }) ∨
    (∃ r, t = { s with stack := [.release s.queue false, .renewal r false] }) ∨
    ∃ r, s.queue = [] ∧ t = { s with stack := [.renewal r false] } := by
  obtain ⟨r, hstack | ⟨e, hstack⟩⟩ := h
  · cases hm with
    | @next e pending aborted fs hs =>
      rw [hstack] at hs
      simp only [List.cons.injEq, Frame.release.injEq] at hs
      obtain ⟨⟨hqueue, rfl⟩, rfl⟩ := hs
      refine .inl ⟨e, pending, r, hqueue, ?_⟩
      have hin : e ∈ s.queue := by simp [hqueue]
      have hrest : s.queue.erase e = pending := by simp [hqueue]
      refine (if_pos hin).trans ?_
      simp only [State.done, hrest]
    | @last aborted fs hs =>
      rw [hstack] at hs
      simp only [List.cons.injEq, Frame.release.injEq] at hs
      obtain ⟨⟨hqueue, rfl⟩, rfl⟩ := hs
      exact .inr (.inr ⟨r, hqueue, rfl⟩)
    | _ => simp_all
  · cases hm with
    | ret hs =>
      rw [hstack] at hs
      obtain ⟨-, rfl⟩ := List.cons.inj hs
      exact .inr (.inl ⟨r, rfl⟩)
    | _ => simp_all [Calm, Frame.sending]

theorem Releasing.step {ev : Event} (h : Releasing s) (hC : Calm s ev) (ho : InOrder s) (hm : Move s ev t) :
    InOrder t ∧ Mode t := by
  rcases h.cases hC hm with ⟨e, pending, r, hqueue, rfl⟩ | ⟨r, rfl⟩ | ⟨r, hqueue, rfl⟩
  · have hpair := ho.queue
    have hbelow := ho.below
    rw [hqueue] at hpair hbelow
    rw [List.pairwise_cons] at hpair
    have ho' : InOrder { s with queue := pending } :=
      ⟨ho.submitted, hpair.2, ho.sent, fun f hf g hg => hbelow f hf g (List.mem_cons_of_mem e hg)⟩
    have hdone := ho'.done (fun f hf => hbelow f hf e List.mem_cons_self) hpair.1
    exact ⟨hdone.congr rfl rfl rfl, .releasing ⟨r, .inr ⟨e, rfl⟩⟩⟩
  · exact ⟨ho.congr rfl rfl rfl, .releasing ⟨r, .inl rfl⟩⟩
  · refine ⟨ho.congr rfl rfl rfl, .quiet ⟨?_, ?_⟩⟩
    · simp [Frame.sends]
    · simp [Frame.failing, hqueue]

theorem step_inOrder {ev : Event} (hC : Calm s ev) (hl : Ledger [] s) (h : InOrder s ∧ Mode s)
    (hstep : step s ev = some t) : InOrder t ∧ Mode t := by
  have hm := step_move hstep
  cases h.2 with
  | quiet hq => exact hq.step hC hl h.1 hm
  | direct e hd => exact hd.step h.1 hm
  | releasing hr => exact hr.step hC h.1 hm

/-! ## Runs -/

theorem start_inOrder (clock ttl : Nat) : InOrder (start clock ttl) ∧ Mode (start clock ttl) := by
  unfold start
  simp only
  split
  · refine ⟨⟨.nil, .nil, .nil, by simp [State.push]⟩, .quiet ⟨?_, ?_⟩⟩
    · simp [State.push, Frame.sends]
    · simp [State.push, Frame.failing]
  · exact ⟨⟨.nil, .nil, .nil, by simp⟩, .quiet ⟨by simp, by simp⟩⟩

theorem run_inOrder {clock ttl : Nat} {evs : List Event} (hC : Machine.Along step Calm (start clock ttl) evs)
    (h : Machine.run step (start clock ttl) evs = some t) : InOrder t := by
  have hinv : Ledger [] t ∧ InOrder t ∧ Mode t :=
    Machine.run_invariant_along (I := fun s => Ledger [] s ∧ InOrder s ∧ Mode s)
      (fun s ev u hc hs hu => ⟨step_ledger hs.1 hu, step_inOrder hc hs.1 hs.2 hu⟩) hC
      ⟨start_ledger clock ttl, start_inOrder clock ttl⟩ h
  exact hinv.2.1

/-- Requests by their age are a part of all requests by their age. -/
theorem sublist_submitted {es : List Entry} (ho : InOrder s) (hes : es.Pairwise fun e f => f.id < e.id)
    (hsub : ∀ e ∈ es, e ∈ s.submitted) : es.Sublist s.submitted := by
  have hirrefl : ∀ {es : List Entry}, (es.Pairwise fun e f => f.id < e.id) → es.Nodup := fun h =>
    h.imp fun hlt heq => by simp [heq] at hlt
  have hanti : Std.Antisymm fun e f : Entry => f.id < e.id := ⟨fun e f hef hfe => by omega⟩
  exact List.sublist_of_subperm_of_pairwise (List.subperm_of_subset (hirrefl hes) hsub) hes ho.submitted

/-- The loop of a renewal that succeeded, up to the moment it is over. -/
def Draining (out : List Entry) (s : State) : Prop :=
  (Releasing s ∧ s.queue.reverse ++ s.sent = out) ∨
    (∃ r, s.stack = [.renewal r false]) ∧ s.sent = out ∨ s.stack = []

theorem Draining.step {out : List Entry} {ev : Event} (h : Draining out s) (hC : Calm s ev ∧ s.stack ≠ [])
    (hstep : step s ev = some t) : Draining out t := by
  rcases h with ⟨hrel, rfl⟩ | ⟨⟨r, hstack⟩, rfl⟩ | hnil
  · rcases hrel.cases hC.1 (step_move hstep) with
      ⟨e, pending, r, hqueue, rfl⟩ | ⟨r, rfl⟩ | ⟨r, hqueue, rfl⟩
    · refine .inl ⟨⟨r, .inr ⟨e, rfl⟩⟩, ?_⟩
      simp [State.sent, hqueue]
    · exact .inl ⟨⟨r, .inl rfl⟩, rfl⟩
    · refine .inr (.inl ⟨⟨r, rfl⟩, ?_⟩)
      simp [State.sent, hqueue]
  · cases step_move hstep with
    | ended hs =>
      rw [hstack] at hs
      obtain ⟨-, rfl⟩ := List.cons.inj hs
      exact .inr (.inr rfl)
    | _ => simp_all
  · exact absurd hnil hC.2

/-- **Requests are sent in the order they were made.** Where no native send
throws or calls back: what was sent is, in its order, a part of what the page
submitted, and so is the queue; and a renewal that succeeds sends the whole
queue in its order. -/
theorem sent_in_order {clock ttl : Nat} {evs : List Event} (hC : Machine.Along step Calm (start clock ttl) evs)
    (h : Machine.run step (start clock ttl) evs = some t) :
    t.sent.Sublist t.submitted ∧ t.queue.reverse.Sublist t.submitted ∧
      ∀ r u gs v, step t (.verified r) = some u →
        Machine.Along step (fun s ev => Calm s ev ∧ s.stack ≠ []) u gs →
        Machine.run step u gs = some v → v.stack = [.renewal r false] → v.sent = t.queue.reverse ++ t.sent := by
  have ho := run_inOrder hC h
  have hl := run_ledger h
  refine ⟨sublist_submitted ho ho.sent fun e => hl.mem_of_sent, sublist_submitted ho ?_ ?_, ?_⟩
  · exact List.pairwise_reverse.mpr ho.queue
  · intro e he
    exact hl.mem_of_queue (List.mem_reverse.mp he)
  · intro r u gs v hu hgs hv hend
    have hstart : Draining (t.queue.reverse ++ t.sent) u := by
      cases step_move hu with
      | verified hs _ => exact .inl ⟨⟨r, .inl (by simp [State.release, State.push, hs])⟩, rfl⟩
    have hdrain := Machine.run_invariant_along (fun s ev t hc hs ht => Draining.step hs hc ht) hgs hstart hv
    rcases hdrain with ⟨⟨r', hrel | ⟨e, hrel⟩⟩, -⟩ | ⟨-, hout⟩ | hnil
    · simp [hend] at hrel
    · simp [hend] at hrel
    · exact hout
    · simp [hend] at hnil

/-- One request at once, two that are held past expiry, and one while the
next renewal is under way. -/
def orderedRun : List Event :=
  [.send .fetch, .ret, .tick 1800000, .send .xhr, .renew true, .send .fetch, .renew true, .challenge 0 (some 60),
    .solved 0, .verified 0, .go, .ret, .go, .ret, .go, .go, .send .xhr, .renew true, .go, .ret]

theorem orderedRun_sent : ∃ t, Machine.run step (start 0 1800) orderedRun = some t ∧
    t.sent.map Entry.id = [3, 2, 1, 0] ∧ t.sent.Sublist t.submitted := by
  have hsent : (Machine.run step (start 0 1800) orderedRun).map (fun t => t.sent.map Entry.id) = some [3, 2, 1, 0] := by
    decide +kernel
  obtain ⟨t, ht, hids⟩ := Option.map_eq_some_iff.mp hsent
  exact ⟨t, ht, hids, (sent_in_order (by decide +kernel) ht).1⟩

end NekoGuard.Guard
