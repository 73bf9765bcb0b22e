/-
guard.js: what a renewal that the server has accepted does with the requests
it holds. They are all sent, and it succeeds, unless a native send throws
out of the loop; then the session is renewed and the rest of them fail
(`released_iff`).
-/
import NekoGuard.Bodies
import NekoGuard.SendOrder

namespace NekoGuard.Guard

open Lib Clearance

/-- No native send throws out of the loop of `release`. -/
def Contained (s : State) : Event → Prop
  | .throw => s.stack.head?.any Frame.sending = true → s.stack.tail.head?.any Frame.isRelease = false
  | _ => True

instance decidableContained : ∀ s ev, Decidable (Contained s ev)
  | s, .throw => inferInstanceAs (Decidable
      (s.stack.head?.any Frame.sending = true → s.stack.tail.head?.any Frame.isRelease = false))
  | _, .send _ | _, .tick _ | _, .timer _ _ | _, .heartbeat | _, .challenge _ _ | _, .solved _ | _, .verified _
  | _, .failed _ | _, .renew _ | _, .go | _, .ret => inferInstanceAs (Decidable True)

/-- `done(null)` was called for it. -/
def Sent (s : State) (e : Entry) : Prop := ∃ c ∈ s.calls, c.entry = e ∧ c.err = false

/-- `done` was called with an error. -/
def Failed (s : State) (e : Entry) : Prop := ∃ c ∈ s.calls, c.entry = e ∧ c.err = true

/-- A handler is under way. -/
def Busy (s : State) (_ : Event) : Prop := s.stack ≠ []

instance decidableBusy (s : State) (ev : Event) : Decidable (Busy s ev) := inferInstanceAs (Decidable (_ ≠ _))

instance decidableSent (s : State) (e : Entry) : Decidable (Sent s e) :=
  inferInstanceAs (Decidable (∃ c ∈ s.calls, c.entry = e ∧ c.err = false))

instance decidableFailed (s : State) (e : Entry) : Decidable (Failed s e) :=
  inferInstanceAs (Decidable (∃ c ∈ s.calls, c.entry = e ∧ c.err = true))

/-! ## The loop -/

/-- What may run while a request is sent. -/
def Frame.inPage : Frame → Bool
  | .done _ err => !err
  | .send _ | .renew => true
  | _ => false

/-- The requests `held` are still in the loop, or were sent. -/
structure Looping (held : List Entry) (r : Nat) (fs : List Frame) (pending : List Entry) (s : State) : Prop where
  stack : s.stack = fs ++ [.release pending false, .renewal r false]
  page : ∀ f ∈ fs, f.inPage = true
  kept : ∀ e ∈ held, (e ∈ pending ∧ e ∈ s.queue) ∨ Sent s e
  unfailed : ∀ e ∈ held, ¬Failed s e
  solver : s.solver ≠ none

/-- The loop is over. -/
structure Drained (held : List Entry) (r : Nat) (s : State) : Prop where
  stack : s.stack = [.renewal r false]
  sent : ∀ e ∈ held, Sent s e ∧ ¬Failed s e

/-- The body is in its `catch`. -/
def Caught (r : Nat) (s : State) : Prop := ∃ fs, s.stack = fs ++ [.renewal r true]

variable {s t : State} {held pending : List Entry} {r : Nat} {ev : Event} {e : Entry} {f : Frame} {fs gs : List Frame}

theorem Sent.done (h : Sent s e) (e' : Entry) (err : Bool) : Sent (s.done e' err) e := by
  obtain ⟨c, hc, heq⟩ := h
  exact ⟨c, List.mem_cons_of_mem _ hc, heq⟩

theorem sent_done (s : State) (e : Entry) : Sent (s.done e false) e := ⟨_, List.mem_cons_self, rfl, rfl⟩

theorem not_failed_done (h : ¬Failed s e) (e' : Entry) : ¬Failed (s.done e' false) e := by
  intro ⟨c, hc, heq, herr⟩
  rcases List.mem_cons.mp hc with rfl | hc
  · cases herr
  · exact h ⟨c, hc, heq, herr⟩

/-- The loop is on top, or page code it called. -/
theorem Looping.top (h : Looping held r fs pending s) (hs : s.stack = f :: gs) :
    (fs = [] ∧ f = .release pending false ∧ gs = [.renewal r false]) ∨
      ∃ fs', fs = f :: fs' ∧ f.inPage = true ∧ Looping held r fs' pending { s with stack := gs } := by
  have hstack := h.stack
  rw [hs] at hstack
  cases fs with
  | nil =>
    obtain ⟨rfl, rfl⟩ := List.cons.inj hstack
    exact .inl ⟨rfl, rfl, rfl⟩
  | cons f' fs' =>
    obtain ⟨rfl, rfl⟩ := List.cons.inj hstack
    exact .inr ⟨fs', rfl, h.page f (by simp),
      ⟨rfl, fun g hg => h.page g (by simp [hg]), h.kept, h.unfailed, h.solver⟩⟩

theorem Looping.push (h : Looping held r fs pending s) (hfs : ∀ f ∈ gs, f.inPage = true) :
    Looping held r (gs ++ fs) pending (s.push gs) where
  stack := by simp [State.push, h.stack]
  page := fun f hf => (List.mem_append.mp hf).elim (hfs f) (h.page f)
  kept := h.kept
  unfailed := h.unfailed
  solver := h.solver

theorem Looping.done (h : Looping held r fs pending s) (e : Entry) :
    Looping held r (.done e false :: fs) pending (s.done e false) where
  stack := by simp [State.done, h.stack]
  page := fun f hf => by
    rcases List.mem_cons.mp hf with rfl | hf
    · rfl
    · exact h.page f hf
  kept := fun e' he => (h.kept e' he).imp_right fun hsent => hsent.done e false
  unfailed := fun e' he => not_failed_done (h.unfailed e' he) e
  solver := h.solver

/-- What the page submits is none of the loop's. -/
theorem Looping.submit (h : Looping held r fs pending s) (kind : Kind) :
    ∃ gs, Looping held r gs pending (s.submit kind) := by
  have h' : Looping held r fs pending { s with submitted := { id := s.submitted.length, kind } :: s.submitted } :=
    ⟨h.stack, h.page, h.kept, h.unfailed, h.solver⟩
  unfold State.submit State.gate
  simp only
  split
  · have hheld : ∀ e : Entry, Looping held r fs pending
        (State.enqueue { s with submitted := { id := s.submitted.length, kind } :: s.submitted } e) :=
      fun e => ⟨h.stack, h.page,
        fun e' he => (h.kept e' he).imp_left fun hin => ⟨hin.1, List.mem_append_left _ hin.2⟩, h.unfailed, h.solver⟩
    exact ⟨_, (hheld _).push (by simp [Frame.inPage])⟩
  · split
    · exact ⟨_, h'.push (by simp [Frame.inPage])⟩
    · exact ⟨_, h'.done _⟩

/-- The next request is sent, if it still is to be. -/
theorem Looping.next {pending : List Entry} (h : Looping held r [] (e :: pending) s) :
    ∃ gs, Looping held r gs pending
      (State.releaseOne { s with stack := [.release pending false, .renewal r false] } e false) := by
  unfold State.releaseOne
  split
  · next hin =>
    refine ⟨[.done e false], rfl, by simp [Frame.inPage], fun e' he => ?_, fun e' he => ?_, h.solver⟩
    · by_cases heq : e' = e
      · subst heq
        exact .inr (sent_done _ _)
      · refine (h.kept e' he).imp (fun hkept => ⟨?_, ?_⟩) fun hsent => Sent.done hsent e false
        · exact (List.mem_cons.mp hkept.1).resolve_left heq
        · exact (List.mem_erase_of_ne heq).mpr hkept.2
    · exact not_failed_done (h.unfailed e' he) e
  · next hout =>
    refine ⟨[], rfl, nofun, fun e' he => ?_, h.unfailed, h.solver⟩
    refine (h.kept e' he).imp (fun hkept => ⟨?_, hkept.2⟩) id
    exact (List.mem_cons.mp hkept.1).resolve_left fun heq => hout (heq ▸ hkept.2)

/-- **One step of the loop.** It goes on, or is over, or is left for the
`catch`. -/
theorem Looping.step (h : Looping held r fs pending s) (hm : Move s ev t) :
    (Contained s ev ∧ ((∃ gs pending', Looping held r gs pending' t) ∨ Drained held r t)) ∨
      (¬Contained s ev ∧ Caught r t) := by
  have hbusy : s.stack ≠ [] := by simp [h.stack]
  cases hm with
  | tick _ hs => exact absurd hs hbusy
  | timer hs => exact absurd hs hbusy
  | heartbeat hs => exact absurd hs hbusy
  | challenge hs => exact absurd hs hbusy
  | solved hs => exact absurd hs hbusy
  | verified hs => exact absurd hs hbusy
  | failed hs => exact absurd hs hbusy
  | send kind _ =>
    obtain ⟨gs, hgs⟩ := h.submit kind
    exact .inl ⟨trivial, .inl ⟨gs, pending, hgs⟩⟩
  | @renew gs fetched hs =>
    rcases h.top hs with ⟨-, hf, -⟩ | ⟨fs', -, -, hrest⟩
    · cases hf
    · obtain ⟨r', hr'⟩ := Option.ne_none_iff_exists'.mp h.solver
      have hsame : State.renew { s with stack := gs } fetched = { s with stack := gs } := by
        simp only [State.renew, hr']
      rw [hsame]
      exact .inl ⟨trivial, .inl ⟨fs', pending, hrest⟩⟩
  | @next e pending' aborted gs hs =>
    rcases h.top hs with ⟨rfl, hf, rfl⟩ | ⟨fs', -, hpage, -⟩
    · cases hf
      obtain ⟨gs, hgs⟩ := h.next
      exact .inl ⟨trivial, .inl ⟨gs, pending', hgs⟩⟩
    · cases hpage
  | @last aborted gs hs =>
    rcases h.top hs with ⟨rfl, hf, rfl⟩ | ⟨fs', -, hpage, -⟩
    · cases hf
      refine .inl ⟨trivial, .inr ⟨rfl, fun e he => ⟨?_, h.unfailed e he⟩⟩⟩
      exact (h.kept e he).resolve_left fun hkept => by simp at hkept
    · cases hpage
  | ended hs =>
    rcases h.top hs with ⟨-, hf, -⟩ | ⟨fs', -, hpage, -⟩
    · cases hf
    · cases hpage
  | assign hs =>
    rcases h.top hs with ⟨-, hf, -⟩ | ⟨fs', -, hpage, -⟩
    · cases hf
    · cases hpage
  | @done e gs hs =>
    rcases h.top hs with ⟨-, hf, -⟩ | ⟨fs', -, -, hrest⟩
    · cases hf
    · exact .inl ⟨trivial, .inl ⟨_, pending, hrest.done e⟩⟩
  | ret hs =>
    rcases h.top hs with ⟨-, hf, -⟩ | ⟨fs', -, -, hrest⟩
    · cases hf
    · exact .inl ⟨trivial, .inl ⟨fs', pending, hrest⟩⟩
  | @throw e err gs hs hpage =>
    rcases h.top hs with ⟨-, hf, -⟩ | ⟨fs', -, hin, hrest⟩
    · cases hf
    · have herr : err = false := by simpa [Frame.inPage] using hin
      have hgs : gs = fs' ++ [.release pending false, .renewal r false] := hrest.stack
      subst herr hgs
      cases fs' with
      | nil =>
        -- Out of the loop, and out of the `try` around it.
        refine .inr ⟨?_, [.release s.queue true], rfl⟩
        simp [Contained, hs, Frame.sending, Frame.isRelease]
      | cons g fs' =>
        have hg : g.inPage = true := hrest.page g (by simp)
        have hunwind : s.unwind (g :: fs' ++ [.release pending false, .renewal r false]) =
            { s with stack := g :: fs' ++ [.release pending false, .renewal r false] } := by
          cases g with
          | release => cases hg
          | renewal => cases hg
          | _ => rfl
        have hcontained : Contained s .throw := by
          intro _
          rw [hs]
          cases g with
          | release => cases hg
          | _ => rfl
        rw [hunwind]
        exact .inl ⟨hcontained, .inl ⟨g :: fs', pending, hrest⟩⟩

theorem Drained.step (h : Drained held r s) (hm : Move s ev t) : t.stack = [] := by
  have hstack := h.stack
  cases hm with
  | ended hs =>
    rw [hstack] at hs
    exact (List.cons.inj hs).2.symm
  | _ => simp_all

/-- Only frames on top of the body's are pushed and dropped. -/
theorem unwind_append (s : State) (fs : List Frame) (r : Nat) : Caught r (s.unwind (fs ++ [.renewal r true])) := by
  induction fs with
  | nil => exact ⟨[], rfl⟩
  | cons f fs ih =>
    cases f with
    | release => exact ih
    | renewal r' caught =>
      cases caught with
      | false => exact ⟨.release s.queue true :: .renewal r' true :: fs, rfl⟩
      | true => exact ⟨.renewal r' true :: fs, rfl⟩
    | _ => exact ⟨_ :: fs, rfl⟩

theorem Caught.push (h : Caught r s) (gs : List Frame) : Caught r (s.push gs) := by
  obtain ⟨fs, hfs⟩ := h
  exact ⟨gs ++ fs, by simp [State.push, hfs]⟩

theorem Caught.top (h : Caught r s) (hs : s.stack = f :: gs) :
    (f = .renewal r true ∧ gs = []) ∨ ∃ fs, gs = fs ++ [.renewal r true] := by
  obtain ⟨fs, hfs⟩ := h
  rw [hs] at hfs
  cases fs with
  | nil => exact .inl (List.cons.inj hfs)
  | cons f' fs => exact .inr ⟨fs, (List.cons.inj hfs).2⟩

theorem Caught.releaseOne (h : Caught r s) (e : Entry) (aborted : Bool) : Caught r (s.releaseOne e aborted) := by
  unfold State.releaseOne
  split
  · exact Caught.push (s := { s with queue := s.queue.erase e }) h [.done e aborted]
  · exact h

/-- A body in its `catch` stays there until it ends. -/
theorem Caught.step (h : Caught r s) (hm : Move s ev t) : Caught r t ∨ t.stack = [] := by
  have hbusy : s.stack ≠ [] := by
    obtain ⟨fs, hfs⟩ := h
    simp [hfs]
  have hpop : ∀ {f gs}, s.stack = f :: gs → f ≠ .renewal r true → ∃ fs, gs = fs ++ [.renewal r true] :=
    fun hs hf => (h.top hs).resolve_left fun heq => hf heq.1
  cases hm with
  | tick _ hs => exact absurd hs hbusy
  | timer hs => exact absurd hs hbusy
  | heartbeat hs => exact absurd hs hbusy
  | challenge hs => exact absurd hs hbusy
  | solved hs => exact absurd hs hbusy
  | verified hs => exact absurd hs hbusy
  | failed hs => exact absurd hs hbusy
  | send kind _ =>
    left
    unfold State.submit State.gate
    simp only
    split
    · exact h.push [.renew]
    · split
      · exact h.push [.renew, .send _]
      · exact h.push [.done _ false]
  | @renew gs fetched hs =>
    left
    have hrest : Caught r { s with stack := gs } := hpop hs nofun
    unfold State.renew
    split
    · exact hrest
    · simp only
      split
      · exact hrest
      · exact hrest.push [.release s.queue true, .renewal s.started true, .assign s.started]
  | @next e pending aborted gs hs =>
    have hrest : Caught r { s with stack := gs } := hpop hs nofun
    exact .inl ((hrest.push [.release pending aborted]).releaseOne e aborted)
  | last hs => exact .inl (hpop hs nofun)
  | ended hs =>
    rcases h.top hs with ⟨-, hnil⟩ | hrest
    · exact .inr hnil
    · exact .inl hrest
  | assign hs => exact .inl (hpop hs nofun)
  | @done e gs hs =>
    have hrest : Caught r { s with stack := gs } := hpop hs nofun
    exact .inl (hrest.push [.done e false])
  | ret hs => exact .inl (hpop hs nofun)
  | @throw e err gs hs =>
    obtain ⟨fs, rfl⟩ := hpop hs nofun
    exact .inl (unwind_append s fs r)

/-! ## Handlers -/

/-- The body ends in its `catch`, or the handler is over. -/
theorem caught_run {v : State} {evs : List Event} (h : Caught r s) (hbusy : Machine.Along step Busy s evs)
    (hv : Machine.run step s evs = some v) : Caught r v ∨ v.stack = [] :=
  Machine.run_invariant_along (I := fun s => Caught r s ∨ s.stack = [])
    (fun _ _ _ hne hs hu => hs.elim (fun hc => hc.step (step_move hu)) fun hnil => absurd hnil hne)
    hbusy (.inl h) hv

/-- **The loop, up to the end of its body.** -/
theorem looping_run {v : State} {evs : List Event} {caught : Bool} (h : Looping held r fs pending s)
    (hbusy : Machine.Along step Busy s evs) (hv : Machine.run step s evs = some v)
    (hend : v.stack = [.renewal r caught]) :
    (Machine.Along step Contained s evs ∧ caught = false ∧ ∀ e ∈ held, Sent v e ∧ ¬Failed v e) ∨
      (¬Machine.Along step Contained s evs ∧ caught = true) := by
  induction evs generalizing s fs pending with
  | nil =>
    simp only [Machine.run_nil, Option.some.injEq] at hv
    subst hv
    have hlen := congrArg List.length (hend.symm.trans h.stack)
    simp at hlen
  | cons ev evs ih =>
    obtain ⟨t, ht, hv⟩ := Machine.run_cons_eq_some.mp hv
    have hrest := hbusy.2 t ht
    have hall : Machine.Along step Contained s (ev :: evs) ↔
        Contained s ev ∧ Machine.Along step Contained t evs := by
      simp [Machine.Along, ht]
    rcases h.step (step_move ht) with ⟨hc, ⟨gs, pending', hloop⟩ | hover⟩ | ⟨hc, hcaught⟩
    · rw [hall]
      simpa [hc] using ih hloop hrest hv
    · cases evs with
      | nil =>
        simp only [Machine.run_nil, Option.some.injEq] at hv
        subst hv
        obtain rfl : false = caught := by simpa [hover.stack] using hend
        exact .inl ⟨hall.mpr ⟨hc, trivial⟩, rfl, hover.sent⟩
      | cons ev' evs =>
        -- The next step ends the handler.
        obtain ⟨u, hu, hv⟩ := Machine.run_cons_eq_some.mp hv
        have hnil := hover.step (step_move hu)
        cases evs with
        | nil =>
          simp only [Machine.run_nil, Option.some.injEq] at hv
          rw [← hv, hnil] at hend
          cases hend
        | cons ev'' evs => exact absurd hnil (hrest.2 u hu).1
    · refine .inr ⟨fun hcontained => hc (hall.mp hcontained).1, ?_⟩
      rcases caught_run hcaught hrest hv with ⟨gs, hgs⟩ | hnil
      · rw [hend] at hgs
        cases gs with
        | nil => simpa using hgs
        | cons g gs => simp at hgs
      · simp [hend] at hnil

/-- The handler of a renewal whose solution was accepted. -/
theorem verified_looping {u : State} (hl : Ledger [] t) (hb : Sound t) (hu : step t (.verified r) = some u) :
    Looping t.queue r [] t.queue u := by
  cases step_move hu with
  | @verified r ttl hs hr =>
    have hsolver := (hb.idle hs).2 (List.ne_nil_of_mem hr)
    refine ⟨by simp [State.release, State.push, hs], nofun, fun e he => .inl ⟨he, he⟩, fun e he => ?_, hsolver⟩
    -- None of them was done before.
    rintro ⟨c, hc, rfl, -⟩
    have hc : c ∈ t.calls := hc
    have hn : t.entries.Nodup := hl.once.nodup_iff.mpr hl.nodup
    have hcalled : c.entry ∈ t.inHand ++ t.calls.map Call.entry :=
      List.mem_append_right _ (List.mem_map_of_mem hc)
    exact (List.nodup_append.mp hn).2.2 c.entry he c.entry hcalled rfl

/-- **All held requests are sent, none is failed and the renewal reports
success** if and only if no native send throws out of the loop that sends
them. -/
theorem released_iff {clock ttl : Nat} {evs gs : List Event} {u v : State} {caught : Bool}
    (h : Machine.run step (start clock ttl) evs = some t) (hu : step t (.verified r) = some u)
    (hbusy : Machine.Along step Busy u gs) (hv : Machine.run step u gs = some v)
    (hend : v.stack = [.renewal r caught]) :
    (caught = false ∧ ∀ e ∈ t.queue, Sent v e ∧ ¬Failed v e) ↔ Machine.Along step Contained u gs := by
  have hloop := verified_looping (run_ledger h) (run_sound h) hu
  rcases looping_run hloop hbusy hv hend with ⟨hall, hcaught, hsent⟩ | ⟨hnot, hcaught⟩
  · exact iff_of_true ⟨hcaught, hsent⟩ hall
  · refine iff_of_false (fun hok => ?_) hnot
    rw [hcaught] at hok
    cases hok.1

/-- Two requests are held when the solution is accepted. -/
def twoHeld : List Event :=
  [.tick 1800000, .send .xhr, .renew true, .send .fetch, .renew true, .challenge 0 none, .solved 0]

/-- Both are sent. -/
theorem twoHeld_released : ∃ t u v, Machine.run step (start 0 1800) twoHeld = some t ∧
    step t (.verified 0) = some u ∧ Machine.run step u [.go, .ret, .go, .ret, .go] = some v ∧
    v.stack = [.renewal 0 false] ∧ t.queue = [⟨0, .xhr⟩, ⟨1, .fetch⟩] ∧
    ∀ e ∈ t.queue, Sent v e ∧ ¬Failed v e := by
  obtain ⟨t, ht, u, hu, hbusy, hcontained, v, hv, hend, hqueue⟩ : ∃ t,
      Machine.run step (start 0 1800) twoHeld = some t ∧ ∃ u, step t (.verified 0) = some u ∧
      Machine.Along step Busy u [.go, .ret, .go, .ret, .go] ∧
      Machine.Along step Contained u [.go, .ret, .go, .ret, .go] ∧ ∃ v,
      Machine.run step u [.go, .ret, .go, .ret, .go] = some v ∧ v.stack = [.renewal 0 false] ∧
      t.queue = [⟨0, .xhr⟩, ⟨1, .fetch⟩] :=
    ⟨_, rfl, _, rfl, by decide, by decide, _, rfl, rfl, rfl⟩
  exact ⟨t, u, v, ht, hu, hv, hend, hqueue, ((released_iff ht hu hbusy hv hend).mpr hcontained).2⟩

/-- The native send of the first one throws, and the second one fails. -/
theorem twoHeld_thrown : ∃ t u v, Machine.run step (start 0 1800) twoHeld = some t ∧
    step t (.verified 0) = some u ∧ Machine.Along step Busy u [.go, .throw, .go, .ret, .go] ∧
    Machine.run step u [.go, .throw, .go, .ret, .go] = some v ∧ v.stack = [.renewal 0 true] ∧
    ∃ e ∈ t.queue, ¬Sent v e ∧ Failed v e :=
  ⟨_, _, _, rfl, rfl, by decide, rfl, rfl, ⟨1, .fetch⟩, by decide, by decide, by decide⟩

end NekoGuard.Guard
