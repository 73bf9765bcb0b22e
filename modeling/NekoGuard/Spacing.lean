/-
guard.js: how often it renews. What triggers a renewal is the clock alone:
after one that succeeds there is none until the TTL less the buffer is
over. A renewal that fails has not moved the clock, and the next trigger
starts another; so over an interval the solves are as many as such windows
and failures (`renewals_spaced`), whatever the page sends.
-/
import NekoGuard.Bodies

namespace NekoGuard.Guard

open Lib Clearance

/-- From a success to the next renewal, in milliseconds. -/
def gap (ttl : Nat) : Nat := ttl * 1000 - bufferMs

/-- No challenge names a TTL below the configured one. -/
def Configured (ttl : Nat) (_ : State) : Event → Prop
  | .challenge _ ttl' => ∀ n ∈ ttl', ttl ≤ n
  | _ => True

instance decidableConfigured (ttl : Nat) : ∀ s ev, Decidable (Configured ttl s ev)
  | _, .challenge _ none => .isTrue nofun
  | _, .challenge _ (some n) => decidable_of_iff (ttl ≤ n) (by simp [Configured])
  | _, .tick _ | _, .send _ | _, .timer _ _ | _, .heartbeat | _, .solved _ | _, .verified _
  | _, .failed _ | _, .renew _ | _, .go | _, .ret | _, .throw => inferInstanceAs (Decidable True)

/-- A solve starts while the clock is between `a` and `b`. -/
def solvesIn (a b : Nat) (s : State) : Event → Bool
  | .challenge _ _ => a ≤ s.clock && s.clock ≤ b
  | _ => false

/-- A renewal fails while the clock is between `a` and `b`. -/
def failsIn (a b : Nat) (s : State) : Event → Bool
  | .failed _ => a ≤ s.clock && s.clock ≤ b
  | _ => false

/-- The TTL a body is to anchor on. -/
def Phase.AtLeast (ttl : Nat) : Phase → Prop
  | .challenge => True
  | .solution n | .verify n => ttl ≤ n

/-- The page was anchored in the past, and `renew` is called for a reason. -/
structure Timed (ttl : Nat) (s : State) : Prop where
  past : s.anchor.loadedAt ≤ s.clock
  lasts : ttl ≤ s.anchor.ttl
  phases : ∀ b ∈ s.running, b.2.AtLeast ttl
  due : .renew ∈ s.stack → s.needsRenewal = true

variable {s t : State} {ttl : Nat} {ev : Event} {f : Frame} {fs : List Frame}

theorem isExpired_iff : s.isExpired = true ↔ s.anchor.loadedAt + s.anchor.ttl * 1000 ≤ s.clock := by
  unfold State.isExpired Anchor.isExpired Anchor.expiresAt
  rw [decide_eq_true_iff]

theorem needsRenewal_iff :
    s.needsRenewal = true ↔ s.anchor.loadedAt + s.anchor.ttl * 1000 - bufferMs ≤ s.clock := by
  unfold State.needsRenewal Anchor.needsRenewal Anchor.renewDeadline Anchor.expiresAt
  rw [decide_eq_true_iff, Nat.max_eq_left (Nat.zero_le _)]

theorem needsRenewal_of_isExpired (h : s.isExpired = true) : s.needsRenewal = true := by
  rw [isExpired_iff] at h
  rw [needsRenewal_iff]
  omega

theorem Timed.gap_le (h : Timed ttl s) (hdue : s.needsRenewal = true) : s.anchor.loadedAt + gap ttl ≤ s.clock := by
  have hlasts := h.lasts
  have hpast := h.past
  rw [needsRenewal_iff] at hdue
  unfold gap
  omega

/-! ## What a step does to the clock, the anchor and the bodies -/

/-- Neither the clock nor the anchor moves, and no body gets a TTL. -/
structure Still (s t : State) : Prop where
  clock : t.clock = s.clock
  anchor : t.anchor = s.anchor
  running : ∀ b ∈ t.running, b ∈ s.running ∨ b.2 = .challenge

theorem Timed.still (h : Timed ttl s) (hst : Still s t) (hdue : .renew ∈ t.stack → s.needsRenewal = true) :
    Timed ttl t where
  past := by
    rw [hst.anchor, hst.clock]
    exact h.past
  lasts := by
    rw [hst.anchor]
    exact h.lasts
  phases b hb := by
    rcases hst.running b hb with hb | hb
    · exact h.phases b hb
    · rw [hb]
      trivial
  due hmem := by
    rw [State.needsRenewal, hst.anchor, hst.clock]
    exact hdue hmem

/-- The frames are part of what they were. -/
theorem Timed.restack (h : Timed ttl s) (hst : Still s t) (hstack : .renew ∈ t.stack → .renew ∈ s.stack) :
    Timed ttl t := h.still hst fun hmem => h.due (hstack hmem)

theorem still_push (s : State) (fs : List Frame) : Still s (s.push fs) := ⟨rfl, rfl, fun _ hb => .inl hb⟩

theorem Timed.submit (h : Timed ttl s) (kind : Kind) : Timed ttl (s.submit kind) := by
  unfold State.submit State.gate
  simp only
  split
  · next hexp => exact h.still ⟨rfl, rfl, fun _ hb => .inl hb⟩ fun _ => needsRenewal_of_isExpired hexp
  · split
    · next hdue => exact h.still ⟨rfl, rfl, fun _ hb => .inl hb⟩ fun _ => hdue
    · refine h.restack ⟨rfl, rfl, fun _ hb => .inl hb⟩ fun hmem => ?_
      simpa [State.done] using hmem

theorem Timed.heartbeat (h : Timed ttl s) : Timed ttl s.heartbeat := by
  have h' : Timed ttl { s with lastTick := s.clock } := ⟨h.past, h.lasts, h.phases, h.due⟩
  have hpush : s.needsRenewal = true → Timed ttl (State.push { s with lastTick := s.clock } [.renew]) :=
    fun hdue => h'.still (still_push _ _) fun _ => hdue
  unfold State.heartbeat
  simp only
  split_ifs with hslept hneeds hexp hdue
  · refine hpush ?_
    rcases Bool.or_eq_true_iff.mp hneeds with hexp | hdue
    · exact needsRenewal_of_isExpired (s := s) hexp
    · exact hdue
  · exact h'
  · exact hpush (needsRenewal_of_isExpired (s := s) hexp)
  · exact hpush hdue
  · exact h'

theorem Timed.releaseOne (h : Timed ttl s) (e : Entry) (aborted : Bool) : Timed ttl (s.releaseOne e aborted) := by
  unfold State.releaseOne
  split
  · refine h.restack ⟨rfl, rfl, fun _ hb => .inl hb⟩ fun hmem => ?_
    simpa [State.done] using hmem
  · exact h

theorem Timed.renew (h : Timed ttl s) (fetched : Bool) : Timed ttl (s.renew fetched) := by
  have hrunning : ∀ b ∈ (s.started, Phase.challenge) :: s.running, b ∈ s.running ∨ b.2 = .challenge := by
    intro b hb
    rcases List.mem_cons.mp hb with rfl | hb
    · exact .inr rfl
    · exact .inl hb
  unfold State.renew
  split
  · exact h
  · simp only
    split
    · exact h.restack ⟨rfl, rfl, hrunning⟩ id
    · refine h.restack ⟨rfl, rfl, hrunning⟩ fun hmem => ?_
      simpa [State.release, State.push] using hmem

theorem Timed.await (h : Timed ttl s) (hs : s.stack = []) (r : Nat) {phase : Phase} (hphase : phase.AtLeast ttl) :
    Timed ttl (s.await r phase) where
  past := h.past
  lasts := h.lasts
  phases b hb := by
    obtain ⟨b', hb', rfl⟩ := List.mem_map.mp hb
    split
    · exact hphase
    · exact h.phases b' hb'
  due hmem := by
    have hmem : Frame.renew ∈ s.stack := hmem
    simp [hs] at hmem

theorem renew_mem_unwind (s : State) (fs : List Frame) : .renew ∈ (s.unwind fs).stack → .renew ∈ fs := by
  fun_induction State.unwind s fs with
  | case1 _ _ fs ih => exact fun hmem => List.mem_cons_of_mem _ (ih hmem)
  | case2 r fs => simp [State.release, State.push]
  | case3 => exact id

theorem still_unwind (s : State) (fs : List Frame) : Still s (s.unwind fs) := by
  fun_induction State.unwind s fs with
  | case1 _ _ fs ih => exact ih
  | case2 => exact ⟨rfl, rfl, fun _ hb => .inl hb⟩
  | case3 => exact ⟨rfl, rfl, fun _ hb => .inl hb⟩

theorem step_timed (hC : Configured ttl s ev) (h : Timed ttl s) (hstep : step s ev = some t) : Timed ttl t := by
  have hpop : ∀ {f : Frame} {fs : List Frame}, s.stack = f :: fs → Timed ttl { s with stack := fs } :=
    fun hs => h.restack ⟨rfl, rfl, fun _ hb => .inl hb⟩ fun hmem => by
      rw [hs]
      exact List.mem_cons_of_mem _ hmem
  cases step_move hstep with
  | tick d hs =>
    have hpast := h.past
    exact ⟨Nat.le_trans hpast (Nat.le_add_right _ d), h.lasts, h.phases, fun hmem => by simp [hs] at hmem⟩
  | send kind hs => exact h.submit kind
  | @timer e due hs =>
    have h' : Timed ttl { s with timers := s.timers.erase (e, due), fired := e :: s.fired } :=
      ⟨h.past, h.lasts, h.phases, h.due⟩
    exact h'.releaseOne e true
  | heartbeat hs => exact h.heartbeat
  | @challenge r ttl' hs hr =>
    refine h.await hs r ?_
    cases ttl' with
    | none => exact h.lasts
    | some n => exact hC n rfl
  | solved hs hr => exact h.await hs _ (h.phases _ hr)
  | verified hs hr =>
    exact ⟨Nat.le_refl _, h.phases _ hr, h.phases, fun hmem => by simp [State.release, State.push, hs] at hmem⟩
  | failed hs hr =>
    refine h.restack ⟨rfl, rfl, fun _ hb => .inl hb⟩ fun hmem => ?_
    simp [State.release, State.push, hs] at hmem
  | renew fetched hs => exact (hpop hs).renew fetched
  | @next e pending aborted fs hs =>
    have h' : Timed ttl { s with stack := .release pending aborted :: fs } :=
      h.restack ⟨rfl, rfl, fun _ hb => .inl hb⟩ fun hmem => by simpa [hs] using hmem
    exact h'.releaseOne e aborted
  | last hs => exact hpop hs
  | @ended r caught fs hs =>
    exact (hpop hs).restack ⟨rfl, rfl, fun b hb => .inl (List.mem_of_mem_filter hb)⟩ id
  | assign hs => exact (hpop hs).restack ⟨rfl, rfl, fun _ hb => .inl hb⟩ id
  | done hs =>
    refine (hpop hs).restack ⟨rfl, rfl, fun _ hb => .inl hb⟩ fun hmem => ?_
    simpa [State.done] using hmem
  | ret hs => exact hpop hs
  | @throw e err fs hs =>
    refine h.restack (still_unwind s fs) fun hmem => ?_
    rw [hs]
    exact List.mem_cons_of_mem _ (renew_mem_unwind s fs hmem)

theorem start_timed (clock ttl : Nat) : Timed ttl (start clock ttl) := by
  unfold start
  simp only
  split
  · next hdue => exact ⟨Nat.le_refl _, Nat.le_refl _, nofun, fun _ => hdue⟩
  · exact ⟨Nat.le_refl _, Nat.le_refl _, nofun, nofun⟩


/-! ## The next renewal -/

theorem started_unwind (s : State) (fs : List Frame) : (s.unwind fs).started = s.started :=
  (unwind_bodies s fs).2.1

/-- A renewal starts only where `renew` is called. -/
theorem renew_of_started (hstep : step s ev = some t) (hne : t.started ≠ s.started) : .renew ∈ s.stack := by
  have hsubmit : ∀ kind, (s.submit kind).started = s.started := by
    intro kind
    unfold State.submit State.gate
    simp only
    split
    · rfl
    · split <;> rfl
  have hone : ∀ (u : State) e aborted, (u.releaseOne e aborted).started = u.started := by
    intro u e aborted
    unfold State.releaseOne
    split <;> rfl
  cases step_move hstep with
  | send kind hs => exact absurd (hsubmit kind) hne
  | timer hs => exact absurd (hone _ _ _) hne
  | heartbeat hs =>
    refine absurd ?_ hne
    unfold State.heartbeat
    simp only
    split_ifs <;> rfl
  | renew fetched hs => simp [hs]
  | next hs => exact absurd (hone _ _ _) hne
  | throw hs => exact absurd (started_unwind s _) hne
  | _ => exact absurd rfl hne


/-! ## Where the one renewal is -/

/-- What a page may do next: start a renewal, start a solve, or end one. -/
inductive Stage where
  | rest
  | asking
  | solving
deriving DecidableEq, Repr

def Phase.stage : Phase → Stage
  | .challenge => .asking
  | .solution _ | .verify _ => .solving

/-- The one body that goes on has its last frame at the bottom. -/
def ends : List Frame → Bool
  | [] => false
  | [f] => f.isRenewal
  | _ :: fs => ends fs

def State.stage (s : State) : Stage :=
  if ends s.stack then .rest else (s.live.head?.map fun b => b.2.stage).getD .rest

theorem ends_cons (hf : f.isRenewal = false) (fs : List Frame) : ends (f :: fs) = ends fs := by
  cases fs with
  | nil => exact hf
  | cons f' fs => rfl

theorem Nested.not_ends {P : Nat → Prop} (hP : ∀ r, ¬P r) (h : Nested P fs) : ends fs = false := by
  fun_induction Nested P fs with
  | case1 => rfl
  | case2 _ _ fs ih => rw [ends_cons rfl]; exact ih h
  | case3 _ fs ih => rw [ends_cons rfl]; exact ih h
  | case4 fs ih => rw [ends_cons rfl]; exact ih h
  | case5 _ _ r caught fs ih => rw [ends_cons rfl]; exact ih h
  | case6 r _ r' fs ih =>
    have hfs : ends fs = false := ih h.2
    rw [← ends_cons (f := .assign r') rfl fs] at hfs
    exact hfs
  | case7 r _ => exact absurd h (hP r)
  | case8 => cases h

theorem ends_unwind (s : State) (fs : List Frame) : ends (s.unwind fs).stack = ends fs := by
  fun_induction State.unwind s fs with
  | case1 _ _ fs ih => rw [ih, ends_cons rfl]
  | case2 r fs =>
    cases fs with
    | nil => rfl
    | cons f fs => rfl
  | case3 => rfl

/-- Where the bodies and the frame at the bottom are what they were. -/
theorem stage_restack (hrunning : t.running = s.running)
    (hassign : t.stack.filterMap Frame.assigning = s.stack.filterMap Frame.assigning)
    (hends : ends t.stack = ends s.stack) : t.stage = s.stage := by
  have hlive : t.live = s.live := by rw [State.live, hrunning, hassign, State.live]
  rw [State.stage, hends, hlive, State.stage]

theorem stage_of_live_eq_nil (h : s.live = []) : s.stage = .rest := by
  unfold State.stage
  split
  · rfl
  · simp [h]

theorem stage_idle (hs : s.stack = []) : s.stage = (s.running.head?.map fun b => b.2.stage).getD .rest := by
  unfold State.stage
  rw [live_of_idle hs, hs]
  rfl

theorem Sound.running_eq (h : Sound s) (hs : s.stack = []) {b : Nat × Phase} (hb : b ∈ s.running) :
    s.running = [b] := by
  obtain ⟨c, hc⟩ : ∃ c, s.running = [c] :=
    List.length_eq_one_iff.mp (Nat.le_antisymm (h.idle hs).1 (List.length_pos_of_mem hb))
  rw [hc, List.mem_singleton] at hb
  rw [hc, hb]

theorem Sound.stage_eq (h : Sound s) (hs : s.stack = []) {r : Nat} {phase : Phase} (hr : (r, phase) ∈ s.running) :
    s.stage = phase.stage := by
  rw [stage_idle hs, h.running_eq hs hr]
  rfl

theorem Sound.stage_await (h : Sound s) (hs : s.stack = []) {r : Nat} {phase : Phase} (hr : (r, phase) ∈ s.running)
    (phase' : Phase) : (s.await r phase').stage = phase'.stage := by
  rw [stage_idle (s := s.await r phase') hs, State.await, h.running_eq hs hr]
  simp

/-- What a step does to the clock, the anchor and the stage. -/
inductive Pace (s t : State) : Event → Prop where
  | tick {d : Nat} (hclock : t.clock = s.clock + d) (hanchor : t.anchor = s.anchor) (hstage : t.stage = s.stage) :
      Pace s t (.tick d)
  | challenge {r : Nat} {ttl : Option Nat} (hclock : t.clock = s.clock) (hanchor : t.anchor = s.anchor)
      (hs : s.stage = .asking) (ht : t.stage = .solving) : Pace s t (.challenge r ttl)
  | verified {r : Nat} (hclock : t.clock = s.clock) (hanchor : t.anchor.loadedAt = s.clock)
      (hs : s.stage = .solving) (ht : t.stage = .rest) : Pace s t (.verified r)
  | failed {r : Nat} (hclock : t.clock = s.clock) (hanchor : t.anchor = s.anchor) (ht : t.stage = .rest) :
      Pace s t (.failed r)
  | renew {fetched : Bool} (hclock : t.clock = s.clock) (hanchor : t.anchor = s.anchor)
      (hneeds : s.needsRenewal = true) (hs : s.stage = .rest) (ht : t.stage = .asking) : Pace s t (.renew fetched)
  | still {ev : Event} (hclock : t.clock = s.clock) (hanchor : t.anchor = s.anchor) (hstage : t.stage = s.stage)
      (hev : ∀ r ttl, ev ≠ .challenge r ttl) : Pace s t ev


/-- The body that goes on is about to end. -/
theorem stage_of_ends (h : ends s.stack = true) : s.stage = .rest := by
  rw [State.stage, if_pos h]

theorem stage_of_ending (hs : s.stack = []) (r : Nat) (caught aborted : Bool) :
    ((s.push [.renewal r caught]).release aborted).stage = .rest :=
  stage_of_ends (by simp [State.release, State.push, hs, ends, Frame.isRenewal])

theorem submit_pace (s : State) (kind : Kind) : (s.submit kind).clock = s.clock ∧
    (s.submit kind).anchor = s.anchor ∧ (s.submit kind).stage = s.stage := by
  unfold State.submit State.gate
  simp only
  split
  · exact ⟨rfl, rfl, stage_restack rfl rfl (ends_cons rfl _)⟩
  · split
    · exact ⟨rfl, rfl, stage_restack rfl rfl ((ends_cons rfl _).trans (ends_cons rfl _))⟩
    · exact ⟨rfl, rfl, stage_restack rfl rfl (ends_cons rfl _)⟩

theorem releaseOne_pace (s : State) (e : Entry) (aborted : Bool) : (s.releaseOne e aborted).clock = s.clock ∧
    (s.releaseOne e aborted).anchor = s.anchor ∧ (s.releaseOne e aborted).stage = s.stage := by
  unfold State.releaseOne
  split
  · exact ⟨rfl, rfl, stage_restack rfl rfl (ends_cons rfl _)⟩
  · exact ⟨rfl, rfl, rfl⟩

theorem heartbeat_pace (s : State) : s.heartbeat.clock = s.clock ∧ s.heartbeat.anchor = s.anchor ∧
    s.heartbeat.stage = s.stage := by
  have hpush : (State.push { s with lastTick := s.clock } [.renew]).stage = s.stage :=
    stage_restack rfl rfl (ends_cons rfl _)
  unfold State.heartbeat
  simp only
  split_ifs
  · exact ⟨rfl, rfl, hpush⟩
  · exact ⟨rfl, rfl, rfl⟩
  · exact ⟨rfl, rfl, hpush⟩
  · exact ⟨rfl, rfl, hpush⟩
  · exact ⟨rfl, rfl, rfl⟩

/-- A body is asked for only where there is none. -/
theorem Sound.renew_pace (h : Sound s) (hT : Timed ttl s) (hs : s.stack = .renew :: fs) (fetched : Bool) :
    Pace s ({ s with stack := fs }.renew fetched) (.renew fetched) := by
  have hassign : fs.filterMap Frame.assigning = s.stack.filterMap Frame.assigning := by rw [hs]; rfl
  have hends : ends fs = ends s.stack := by rw [hs, ends_cons rfl]
  unfold State.renew
  split
  · exact .still rfl rfl (stage_restack rfl hassign hends) nofun
  · next hnone =>
    have hrest := stage_of_live_eq_nil (h.live_eq_nil hs hnone)
    simp only
    split
    · have hneeds : s.needsRenewal = true := hT.due (by simp [hs])
      have hnot : ends fs = false := by
        have hnested : Nested s.Live (.renew :: fs) := hs ▸ h.stack.nested (by simp [hs])
        refine Nested.not_ends (P := s.Live) (fun r ⟨b, hb, _⟩ => ?_) hnested
        simp [h.live_eq_nil hs hnone] at hb
      have hlive : ((s.started, Phase.challenge) :: s.running).filter
          (fun b => b.1 ∉ fs.filterMap Frame.assigning) =
          if s.started ∉ fs.filterMap Frame.assigning then [(s.started, .challenge)] else [] := by
        rw [List.filter_cons, h.filter_eq_nil hs hnone]
        simp
      by_cases hin : s.started ∈ fs.filterMap Frame.assigning
      · refine .still rfl rfl ?_ nofun
        rw [hrest]
        refine stage_of_live_eq_nil ?_
        rw [State.live, hlive, if_neg (not_not.mpr hin)]
      · refine .renew rfl rfl hneeds hrest ?_
        rw [State.stage, hnot, State.live, hlive, if_pos hin]
        rfl
    · refine .still rfl rfl ?_ nofun
      rw [hrest]
      exact stage_of_live_eq_nil (h.thrown_live hs hnone)

theorem Sound.ended_stage {r : Nat} {caught : Bool} (h : Sound s) (hs : s.stack = .renewal r caught :: fs) :
    ({ s with stack := fs }.ended r).stage = s.stage := by
  have hnested : Nested s.Live (.renewal r caught :: fs) := hs ▸ h.stack.nested (by simp [hs])
  rcases hnested.renewal_inv with ⟨gs, rfl, -⟩ | ⟨rfl, -⟩
  · have hends : ends s.stack = ends (.assign r :: gs) := by
      rw [hs]
      rfl
    rw [State.stage, State.stage, ended_live hs, hends]
    rfl
  · rw [stage_of_ends (s := s) (by rw [hs]; rfl)]
    exact stage_of_live_eq_nil (h.last_live hs)

theorem step_pace (h : Sound s) (hT : Timed ttl s) (hstep : step s ev = some t) : Pace s t ev := by
  have hpop : ∀ {f : Frame} {fs : List Frame}, s.stack = f :: fs → f.assigning = none → f.isRenewal = false →
      State.stage { s with stack := fs } = s.stage := by
    intro f fs hs hassign hrenewal
    refine stage_restack rfl ?_ ?_
    · rw [hs, List.filterMap_cons, hassign]
    · rw [hs, ends_cons hrenewal]
  cases step_move hstep with
  | tick d hs => exact .tick rfl rfl rfl
  | send kind hs =>
    obtain ⟨hclock, hanchor, hstage⟩ := submit_pace s kind
    exact .still hclock hanchor hstage nofun
  | timer hs => exact .still (releaseOne_pace _ _ _).1 (releaseOne_pace _ _ _).2.1 (releaseOne_pace _ _ _).2.2 nofun
  | heartbeat hs =>
    obtain ⟨hclock, hanchor, hstage⟩ := heartbeat_pace s
    exact .still hclock hanchor hstage nofun
  | challenge hs hr => exact .challenge rfl rfl (h.stage_eq hs hr) (h.stage_await hs hr _)
  | solved hs hr => exact .still rfl rfl ((h.stage_await hs hr _).trans (h.stage_eq hs hr).symm) nofun
  | @verified r ttl' hs hr =>
    have hrest := stage_of_ending (s := { s with anchor := { loadedAt := s.clock, ttl := ttl' } }) hs r false false
    exact .verified rfl rfl (h.stage_eq hs hr) hrest
  | @failed r phase hs hr => exact .failed rfl rfl (stage_of_ending hs r true true)
  | renew fetched hs => exact h.renew_pace hT hs fetched
  | @next e pending aborted fs hs =>
    obtain ⟨hclock, hanchor, hstage⟩ := releaseOne_pace { s with stack := .release pending aborted :: fs } e aborted
    refine .still hclock hanchor (hstage.trans (stage_restack rfl ?_ ?_)) nofun
    · rw [hs]
      rfl
    · rw [hs, ends_cons rfl, ends_cons rfl]
  | last hs => exact .still rfl rfl (hpop hs rfl rfl) nofun
  | ended hs => exact .still rfl rfl (h.ended_stage hs) nofun
  | @assign r fs hs =>
    refine .still rfl rfl ?_ nofun
    rw [State.stage, State.stage, h.assign_live hs, hs, ends_cons rfl]
  | @done e fs hs =>
    refine .still rfl rfl (.trans ?_ (hpop hs rfl rfl)) nofun
    exact stage_restack rfl rfl (ends_cons rfl fs)
  | ret hs => exact .still rfl rfl (hpop hs rfl rfl) nofun
  | @throw e err fs hs =>
    have hnested : Nested s.Live fs := (hs ▸ h.stack.nested (by simp [hs]) : Nested s.Live (.done e err :: fs))
    have hunwind := still_unwind s fs
    refine .still hunwind.clock hunwind.anchor (.trans ?_ (hpop hs rfl rfl)) nofun
    exact stage_restack (unwind_bodies s fs).1 (unwind_nested hnested).2 (ends_unwind s fs)


/-! ## How many solves there are -/

/-- How many solves fit from `x` to `b`, one in each window of `g`. -/
def slots (g b x : Nat) : Nat := if x ≤ b then (b - x) / g + 1 else 0

/-- The solves a page still has before `b`, of those that count from `a`. -/
def potential (g a b : Nat) (s : State) : Nat :=
  match s.stage with
  | .rest => slots g b (max (max s.clock a) (s.anchor.loadedAt + g))
  | .asking => slots g b (max s.clock a)
  | .solving => if s.clock < a then slots g b a else slots g b s.clock - 1

variable {g a b x y : Nat}

theorem slots_anti (h : x ≤ y) : slots g b y ≤ slots g b x := by
  unfold slots
  split
  · rw [if_pos (by omega)]
    exact Nat.succ_le_succ (Nat.div_le_div_right (by omega))
  · exact Nat.zero_le _

theorem slots_add (hg : 0 < g) (x : Nat) : slots g b (x + g) ≤ slots g b x - 1 := by
  unfold slots
  split
  · next hle =>
    have hdiv : (b - x) / g = (b - x - g) / g + 1 := Nat.div_eq_sub_div hg (by omega)
    rw [if_pos (by omega), hdiv, Nat.sub_sub]
    exact Nat.le_refl _
  · exact Nat.zero_le _

theorem slots_le (x : Nat) : slots g b x ≤ (b - x) / g + 1 := by
  unfold slots
  split
  · exact Nat.le_refl _
  · exact Nat.zero_le _

/-- **Each solve is paid for** out of the windows that are left; what a
failure gives back is one. -/
theorem Pace.paid (hg : 0 < gap ttl) (hT : Timed ttl s) (h : Pace s t ev) (a b : Nat) :
    (solvesIn a b s ev).toNat + potential (gap ttl) a b t ≤
      potential (gap ttl) a b s + (failsIn a b s ev).toNat := by
  cases h with
  | @tick d hclock hanchor hstage =>
    have hle : potential (gap ttl) a b t ≤ potential (gap ttl) a b s := by
      unfold potential
      rw [hstage, hclock, hanchor]
      split
      · exact slots_anti (by omega)
      · exact slots_anti (by omega)
      · have hrest := @slots_anti (gap ttl) b a (s.clock + d)
        have hlate := @slots_anti (gap ttl) b s.clock (s.clock + d) (by omega)
        split_ifs <;> omega
    simpa [solvesIn, failsIn] using hle
  | challenge hclock hanchor hs ht =>
    unfold potential
    simp only [hs, ht, hclock, solvesIn, failsIn, Bool.toNat_false, Nat.add_zero]
    by_cases hlt : s.clock < a
    · rw [if_pos hlt, Nat.max_eq_right (Nat.le_of_lt hlt)]
      have hout : (decide (a ≤ s.clock) && decide (s.clock ≤ b)) = false := by simp; omega
      simp [hout]
    · rw [if_neg hlt, Nat.max_eq_left (by omega)]
      by_cases hb : s.clock ≤ b
      · have hpos : 1 ≤ slots (gap ttl) b s.clock := by
          rw [slots, if_pos hb]
          exact Nat.le_add_left 1 _
        have hone := Bool.toNat_le (decide (a ≤ s.clock) && decide (s.clock ≤ b))
        omega
      · simp [hb]
  | verified hclock hanchor hs ht =>
    unfold potential
    simp only [hs, ht, hclock, hanchor, solvesIn, failsIn, Bool.toNat_false, Nat.add_zero, Nat.zero_add]
    have hnext := @slots_add (gap ttl) b hg s.clock
    have hearly : slots (gap ttl) b (max (max s.clock a) (s.clock + gap ttl)) ≤ slots (gap ttl) b a :=
      slots_anti (by omega)
    have hlate : slots (gap ttl) b (max (max s.clock a) (s.clock + gap ttl)) ≤
        slots (gap ttl) b (s.clock + gap ttl) := slots_anti (by omega)
    split <;> omega
  | @failed r hclock hanchor ht =>
    unfold potential
    simp only [ht, hclock, hanchor, solvesIn, Bool.toNat_false, Nat.zero_add]
    have hmax : slots (gap ttl) b (max (max s.clock a) (s.anchor.loadedAt + gap ttl)) ≤
        slots (gap ttl) b (max s.clock a) := slots_anti (by omega)
    split
    · omega
    · omega
    · split
      · next hlt =>
        rw [Nat.max_eq_right (Nat.le_of_lt hlt)] at hmax
        rw [Nat.max_eq_right (Nat.le_of_lt hlt)]
        omega
      · next hge =>
        have hge : max s.clock a = s.clock := by omega
        rw [hge] at hmax ⊢
        by_cases hb : s.clock ≤ b
        · have hin : failsIn a b s (.failed r) = true := by simp [failsIn]; omega
          simp only [hin, Bool.toNat_true]
          omega
        · have hzero : slots (gap ttl) b s.clock = 0 := by rw [slots, if_neg hb]
          omega
  | renew hclock hanchor hneeds hs ht =>
    have hgap := hT.gap_le hneeds
    unfold potential
    simp only [hs, ht, hclock, solvesIn, failsIn, Bool.toNat_false, Nat.add_zero, Nat.zero_add]
    exact slots_anti (by omega)
  | still hclock hanchor hstage hev =>
    have hsame : potential (gap ttl) a b t = potential (gap ttl) a b s := by
      unfold potential
      rw [hstage, hclock, hanchor]
    have hnone : solvesIn a b s ev = false := by
      cases ev with
      | challenge r ttl => exact absurd rfl (hev r ttl)
      | _ => rfl
    rw [hsame, hnone]
    simp

/-- What a page is anchored on does not get older. -/
theorem Pace.anchored {n : Nat} (h : Pace s t ev) (hT : Timed ttl s) (hn : n ≤ s.anchor.loadedAt) :
    n ≤ t.anchor.loadedAt := by
  have hpast := hT.past
  cases h with
  | verified hclock hanchor => omega
  | tick hclock hanchor | challenge hclock hanchor | failed hclock hanchor | renew hclock hanchor
  | still hclock hanchor =>
    rw [hanchor]
    exact hn

/-- The state a renewal that succeeds leaves. -/
theorem anchored_of_verified {r : Nat} (hstep : step s (.verified r) = some t) : t.anchor.loadedAt = s.clock := by
  cases step_move hstep
  rfl

theorem potential_le (h : s.stage = .rest) (g a b : Nat) : potential g a b s ≤ (b - a) / g + 1 := by
  unfold potential
  rw [h]
  exact Nat.le_trans (slots_anti (by omega)) (slots_le a)

theorem start_stage (clock ttl : Nat) : (start clock ttl).stage = .rest := by
  refine stage_of_live_eq_nil ?_
  unfold start
  simp only
  split <;> simp [State.live, State.push]

/-- A page is renewed at twenty-five minutes of its half hour, and again. -/
def renewedTwice : List Event :=
  [.tick 1500000, .heartbeat, .renew true, .challenge 0 none, .solved 0, .verified 0, .go, .go,
    .tick 1500000, .heartbeat, .renew true, .challenge 1 none, .solved 1, .verified 1, .go, .go]

/-- The page sends a request, and the renewal it starts fails once solved. -/
def failing (r : Nat) : List Event :=
  [.send .xhr, .renew true, .go, .ret, .challenge r none, .solved r, .failed r, .go, .go]

/-- Between handlers, with the session in its last minutes and no renewal. -/
structure Due (n : Nat) (s : State) : Prop where
  clock : s.clock = 1500000
  anchor : s.anchor = { loadedAt := 0, ttl := 1800 }
  stack : s.stack = []
  solver : s.solver = none
  running : s.running = []
  queue : s.queue = []
  started : s.started = n

/-- The same, with one body that waits for its challenge. -/
structure Asking (n : Nat) (s : State) : Prop where
  clock : s.clock = 1500000
  anchor : s.anchor = { loadedAt := 0, ttl := 1800 }
  stack : s.stack = []
  solver : s.solver = some n
  running : s.running = [(n, .challenge)]
  queue : s.queue = []
  started : s.started = n + 1

theorem Due.asks {n : Nat} (h : Due n s) : ∃ t, Machine.run step s [.send .xhr, .renew true, .go, .ret] = some t ∧
    Asking n t ∧ Machine.count step (solvesIn 1500000 1500000) s [.send .xhr, .renew true, .go, .ret] = 0 := by
  obtain ⟨clock, anchor, lastTick, solver, running, started, queue, timers, fired, submitted, calls, stack⟩ := s
  obtain ⟨rfl, rfl, rfl, rfl, rfl, rfl, rfl⟩ := h
  have hexp : (⟨0, 1800⟩ : Anchor).isExpired 1500000 = false := by decide
  have hneeds : (⟨0, 1800⟩ : Anchor).needsRenewal 1500000 = true := by decide
  simp only [Machine.run, Machine.count, step, State.submit, State.gate, State.isExpired, State.needsRenewal, hexp,
    hneeds, State.push, State.renew, State.done, Option.bind_some, Option.elim_some, solvesIn, if_true,
    Bool.false_eq_true, if_false, List.cons_append, List.nil_append]
  exact ⟨_, rfl, ⟨rfl, rfl, rfl, rfl, rfl, rfl, rfl⟩, rfl⟩

theorem Asking.fails {n : Nat} (h : Asking n s) : ∃ t,
    Machine.run step s [.challenge n none, .solved n, .failed n, .go, .go] = some t ∧ Due (n + 1) t ∧
      Machine.count step (solvesIn 1500000 1500000) s [.challenge n none, .solved n, .failed n, .go, .go] = 1 := by
  obtain ⟨clock, anchor, lastTick, solver, running, started, queue, timers, fired, submitted, calls, stack⟩ := s
  obtain ⟨rfl, rfl, rfl, rfl, rfl, rfl, rfl⟩ := h
  simp only [Machine.run, Machine.count, step, State.push, State.await, State.release, State.ended, List.lookup_cons,
    beq_self_eq_true, Option.bind_some, Option.elim_some, solvesIn, if_true, List.map_cons, List.map_nil,
    List.cons_append, List.nil_append]
  exact ⟨_, rfl, ⟨rfl, rfl, rfl, rfl, by simp, rfl, rfl⟩, rfl⟩

theorem Due.failing {n : Nat} (h : Due n s) : ∃ t, Machine.run step s (failing n) = some t ∧ Due (n + 1) t ∧
    Machine.Along step (Configured 1800) s (failing n) ∧
    Machine.count step (solvesIn 1500000 1500000) s (failing n) = 1 := by
  have hC : ∀ ev ∈ Guard.failing n, ∀ u, Configured 1800 u ev := by simp [Guard.failing, Configured]
  have hsplit : Guard.failing n = [.send .xhr, .renew true, .go, .ret] ++
      [.challenge n none, .solved n, .failed n, .go, .go] := rfl
  obtain ⟨u, hu, hasking, hnone⟩ := h.asks
  obtain ⟨t, ht, hdue, hone⟩ := hasking.fails
  refine ⟨t, ?_, hdue, Machine.along_of_forall hC, ?_⟩
  · rw [hsplit]
    exact Machine.run_append_eq_some.mpr ⟨u, hu, ht⟩
  · rw [hsplit, Machine.count_append hu, hnone, hone]

/-- Every request starts another solve. -/
theorem Due.failing_again (n : Nat) : ∀ {m : Nat} {s : State}, Due m s → ∃ evs t,
    Machine.run step s evs = some t ∧ Machine.Along step (Configured 1800) s evs ∧
      Machine.count step (solvesIn 1500000 1500000) s evs = n := by
  induction n with
  | zero => exact fun _ => ⟨[], _, rfl, trivial, rfl⟩
  | succ n ih =>
    intro m s h
    obtain ⟨u, hu, hdue, hC, hcount⟩ := h.failing
    obtain ⟨evs, t, ht, hCs, hcounts⟩ := ih hdue
    refine ⟨Guard.failing m ++ evs, t, Machine.run_append_eq_some.mpr ⟨u, hu, ht⟩, ?_, ?_⟩
    · refine Machine.along_append.mpr ⟨hC, fun v hv => ?_⟩
      obtain rfl : u = v := Option.some.inj (hu.symm.trans hv)
      exact hCs
    · rw [Machine.count_append hu, hcount, hcounts, Nat.add_comm]

end NekoGuard.Guard
