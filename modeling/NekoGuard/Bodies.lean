/-
guard.js: the bodies of `renew` in any run, whatever the page does and
however a renewal fails. A body that throws before its first wait ends
inside the call that started it; of all others at most one is running, and
while it is `solver` is set, if not to it (`run_sound`).
-/
import NekoGuard.GuardFacts

namespace NekoGuard.Guard

open Lib Clearance

/-- The body whose promise is still to be assigned. -/
def Frame.assigning : Frame → Option Nat
  | .assign r => some r
  | _ => none

/-- The bodies that are past their first wait, or wait for it. -/
def State.live (s : State) : List (Nat × Phase) :=
  s.running.filter fun b => b.1 ∉ s.stack.filterMap Frame.assigning

def State.Live (s : State) (r : Nat) : Prop := ∃ b ∈ s.live, b.1 = r

/-- The frames below the one on top: a loop runs for a body that ends, and
such a body has its `solver =` below it, or is one of `P` and there is
nothing. -/
def Nested (P : Nat → Prop) : List Frame → Prop
  | [] => True
  | .done _ _ :: fs | .send _ :: fs | .renew :: fs => Nested P fs
  | .release _ _ :: .renewal r caught :: fs => Nested P (.renewal r caught :: fs)
  | .renewal r _ :: .assign r' :: fs => r = r' ∧ Nested P fs
  | [.renewal r _] => P r
  | _ => False

/-- A body has ended by the time its promise is assigned. -/
def Stacked (s : State) : Prop :=
  (∃ r fs, s.stack = .assign r :: fs ∧ (∀ b ∈ s.running, b.1 ≠ r) ∧ Nested s.Live fs) ∨
    Nested s.Live s.stack

structure Sound (s : State) : Prop where
  fresh : ∀ b ∈ s.running, b.1 < s.started
  one : s.live.length ≤ 1
  solver : s.live ≠ [] → s.solver ≠ none ∨ ∃ r fs, s.stack = .assign r :: fs
  stack : Stacked s

variable {s t : State} {P Q : Nat → Prop} {f : Frame} {fs : List Frame}

theorem Nested.mono (hPQ : ∀ r, P r → Q r) (h : Nested P fs) : Nested Q fs := by
  fun_induction Nested P fs with
  | case1 => trivial
  | case2 _ _ fs ih => exact ih h
  | case3 _ fs ih => exact ih h
  | case4 fs ih => exact ih h
  | case5 _ _ r caught fs ih => exact ih h
  | case6 r _ r' fs ih => exact ⟨h.1, ih h.2⟩
  | case7 r _ => exact hPQ r h
  | case8 => cases h

theorem Nested.release_inv {pending : List Entry} {aborted : Bool} (h : Nested P (.release pending aborted :: fs)) :
    Nested P fs ∧ ∃ r caught gs, fs = .renewal r caught :: gs := by
  cases fs with
  | nil => cases h
  | cons f fs =>
    cases f with
    | renewal r caught => exact ⟨h, r, caught, fs, rfl⟩
    | _ => cases h

theorem Nested.renewal_inv {r : Nat} {caught : Bool} (h : Nested P (.renewal r caught :: fs)) :
    (∃ gs, fs = .assign r :: gs ∧ Nested P gs) ∨ (fs = [] ∧ P r) := by
  cases fs with
  | nil => exact .inr ⟨rfl, h⟩
  | cons f fs =>
    cases f with
    | assign r' =>
      obtain ⟨rfl, hfs⟩ := h
      exact .inl ⟨fs, rfl, hfs⟩
    | _ => cases h

/-- How a body ends is no matter. -/
theorem Nested.caught {r : Nat} {caught : Bool} (caught' : Bool) (h : Nested P (.renewal r caught :: fs)) :
    Nested P (.renewal r caught' :: fs) := by
  rcases h.renewal_inv with ⟨gs, rfl, hgs⟩ | ⟨rfl, hP⟩
  · exact ⟨rfl, hgs⟩
  · exact hP

theorem Nested.not_assign {r : Nat} : ¬Nested P (.assign r :: fs) := by
  cases fs <;> exact id

theorem Stacked.nested (h : Stacked s) (hs : ∀ r gs, s.stack ≠ .assign r :: gs) : Nested s.Live s.stack := by
  rcases h with ⟨r, gs, hstack, -⟩ | hnested
  · exact absurd hstack (hs r gs)
  · exact hnested

/-! ## Steps -/

/-- Where the bodies stay what they are, only the frames count. -/
theorem Sound.restack (h : Sound s) (hrunning : t.running = s.running) (hstarted : t.started = s.started)
    (hsolver : t.solver = s.solver) (hs : ∀ r gs, s.stack ≠ .assign r :: gs)
    (hassign : t.stack.filterMap Frame.assigning = s.stack.filterMap Frame.assigning)
    (hnested : Nested s.Live t.stack) : Sound t := by
  have hlive : t.live = s.live := by rw [State.live, hrunning, hassign, State.live]
  have hsame : ∀ r, s.Live r → t.Live r := by
    intro r hr
    rw [State.Live, hlive]
    exact hr
  refine ⟨?_, ?_, ?_, .inr (hnested.mono hsame)⟩
  · rw [hrunning, hstarted]
    exact h.fresh
  · rw [hlive]
    exact h.one
  · intro hne
    rw [hlive] at hne
    rw [hsolver]
    exact .inl ((h.solver hne).resolve_right fun ⟨r, gs, hstack⟩ => hs r gs hstack)

theorem live_of_idle (hs : s.stack = []) : s.live = s.running := by
  simp [State.live, hs]

theorem Sound.idle (h : Sound s) (hs : s.stack = []) :
    s.running.length ≤ 1 ∧ (s.running ≠ [] → s.solver ≠ none) := by
  have hone := h.one
  have hsolver := h.solver
  rw [live_of_idle hs] at hone hsolver
  exact ⟨hone, fun hne => (hsolver hne).resolve_right fun ⟨r, gs, hstack⟩ => by simp [hs] at hstack⟩

/-- A new handler runs from here. -/
theorem Sound.push_idle (h : Sound s) (hs : s.stack = []) {fs : List Frame}
    (hassign : fs.filterMap Frame.assigning = []) (hnested : Nested s.Live fs) : Sound (s.push fs) :=
  h.restack rfl rfl rfl (by simp [hs]) (by simp [State.push, hs, hassign]) (by simpa [State.push, hs] using hnested)

theorem Sound.heartbeat (h : Sound s) (hs : s.stack = []) : Sound s.heartbeat := by
  have h' : Sound { s with lastTick := s.clock } :=
    h.restack rfl rfl rfl (by simp [hs]) rfl (h.stack.nested (by simp [hs]))
  have hpush : Sound (State.push { s with lastTick := s.clock } [.renew]) := h'.push_idle hs rfl trivial
  unfold State.heartbeat
  simp only
  split_ifs
  · exact hpush
  · exact h'
  · exact hpush
  · exact hpush
  · exact h'

theorem Sound.submit (h : Sound s) (hs : ∀ r gs, s.stack ≠ .assign r :: gs) (kind : Kind) :
    Sound (s.submit kind) := by
  have hnested := h.stack.nested hs
  unfold State.submit State.gate
  simp only
  split
  · exact h.restack rfl rfl rfl hs rfl hnested
  · split
    · exact h.restack rfl rfl rfl hs rfl hnested
    · exact h.restack rfl rfl rfl hs rfl hnested

/-- A body goes on to its next wait. -/
theorem Sound.await (h : Sound s) (hs : s.stack = []) (r : Nat) (phase : Phase) : Sound (s.await r phase) := by
  have hids : ∀ b ∈ (s.await r phase).running, ∃ b' ∈ s.running, b'.1 = b.1 := by
    intro b hb
    obtain ⟨b', hb', rfl⟩ := List.mem_map.mp hb
    refine ⟨b', hb', ?_⟩
    split
    · assumption
    · rfl
  have hidle := h.idle hs
  have hlive : (s.await r phase).live = (s.await r phase).running := live_of_idle hs
  refine ⟨fun b hb => ?_, ?_, fun hne => .inl ?_, .inr ?_⟩
  · obtain ⟨b', hb', heq⟩ := hids b hb
    exact heq ▸ h.fresh b' hb'
  · rw [hlive, State.await, List.length_map]
    exact hidle.1
  · rw [hlive, State.await, List.map_eq_nil_iff.ne] at hne
    exact hidle.2 hne
  · have hstack : (s.await r phase).stack = [] := hs
    rw [hstack]
    trivial

/-- A body starts only where none is running that will go on. -/
theorem Sound.live_eq_nil (h : Sound s) (hs : s.stack = .renew :: fs) (hnone : s.solver = none) : s.live = [] := by
  by_contra hne
  rcases h.solver hne with hsome | ⟨r, gs, hstack⟩
  · exact hsome hnone
  · simp [hs] at hstack

theorem Sound.filter_eq_nil (h : Sound s) (hs : s.stack = .renew :: fs) (hnone : s.solver = none) :
    (s.running.filter fun b => b.1 ∉ fs.filterMap Frame.assigning) = [] := by
  have hassign : s.stack.filterMap Frame.assigning = fs.filterMap Frame.assigning := by rw [hs]; rfl
  rw [← hassign]
  exact h.live_eq_nil hs hnone

/-- A body that throws before its first wait is none of them. -/
theorem Sound.thrown_live (h : Sound s) (hs : s.stack = .renew :: fs) (hnone : s.solver = none) :
    State.live ((State.push { s with
      stack := fs, started := s.started + 1, running := (s.started, .challenge) :: s.running }
        [.renewal s.started true, .assign s.started]).release true) = [] := by
  have hsub : ∀ b ∈ s.running, b.1 ∈ fs.filterMap Frame.assigning := by
    simpa using List.filter_eq_nil_iff.mp (h.filter_eq_nil hs hnone)
  refine List.filter_eq_nil_iff.mpr fun b hb => ?_
  rcases List.mem_cons.mp hb with rfl | hb
  · simp [State.release, State.push, Frame.assigning]
  · have hmem := hsub b hb
    simp only [State.release, State.push, List.cons_append, List.nil_append, List.filterMap_cons,
      Frame.assigning, List.mem_cons, decide_eq_true_eq, not_not]
    exact .inr hmem

theorem Sound.renew (h : Sound s) (hs : s.stack = .renew :: fs) (fetched : Bool) :
    Sound ({ s with stack := fs }.renew fetched) := by
  have hnested : Nested s.Live (.renew :: fs) := hs ▸ h.stack.nested (by simp [hs])
  have hassign : s.stack.filterMap Frame.assigning = fs.filterMap Frame.assigning := by rw [hs]; rfl
  unfold State.renew
  split
  · exact h.restack rfl rfl rfl (by simp [hs]) hassign.symm hnested
  · next hnone =>
    have hlive := h.live_eq_nil hs hnone
    have hfree : ∀ Q, Nested Q fs := fun Q => Nested.mono (fun r ⟨b, hb, _⟩ => by simp [hlive] at hb) hnested
    have hrest := h.filter_eq_nil hs hnone
    have hfresh : ∀ b ∈ (s.started, Phase.challenge) :: s.running, b.1 < s.started + 1 := by
      intro b hb
      rcases List.mem_cons.mp hb with rfl | hb
      · exact Nat.lt_succ_self _
      · exact Nat.lt_succ_of_lt (h.fresh b hb)
    simp only
    split
    · refine ⟨hfresh, ?_, fun _ => .inl nofun, .inr (hfree _)⟩
      simp only [State.live, List.filter_cons, hrest]
      split <;> simp
    · have hnil := h.thrown_live hs hnone
      refine ⟨hfresh, by rw [hnil]; simp, fun hne => absurd hnil hne, .inr ⟨rfl, hfree _⟩⟩

/-- A body that ends in the call that started it was not among them. -/
theorem ended_live {r : Nat} {caught : Bool} {gs : List Frame} (hs : s.stack = .renewal r caught :: .assign r :: gs) :
    State.live (State.ended { s with stack := .assign r :: gs } r) = s.live := by
  unfold State.live State.ended
  rw [List.filter_filter, hs]
  refine List.filter_congr fun b _ => ?_
  by_cases hb : b.1 = r
  · simp [hb, Frame.assigning]
  · simp [hb, Ne.symm hb, Frame.assigning]

theorem Sound.last_live {r : Nat} {caught : Bool} (h : Sound s) (hs : s.stack = [.renewal r caught]) :
    State.live (State.ended { s with stack := [] } r) = [] := by
  obtain ⟨b, hb, rfl⟩ : s.Live r := by
    have hnested : Nested s.Live [.renewal r caught] := hs ▸ h.stack.nested (by simp [hs])
    exact hnested
  have hrunning : s.live = s.running := by simp [State.live, hs, Frame.assigning]
  have hone := h.one
  rw [hrunning] at hone hb
  rw [live_of_idle rfl]
  refine List.filter_eq_nil_iff.mpr fun b' hb' => ?_
  obtain ⟨c, hc⟩ : ∃ c, s.running = [c] :=
    List.length_eq_one_iff.mp (Nat.le_antisymm hone (List.length_pos_of_mem hb))
  rw [hc, List.mem_singleton] at hb hb'
  simp [hb, hb']

/-- A body ends inside the call that started it, or it was the one. -/
theorem Sound.ended {r : Nat} {caught : Bool} (h : Sound s) (hs : s.stack = .renewal r caught :: fs) :
    Sound ({ s with stack := fs }.ended r) := by
  have hnested : Nested s.Live (.renewal r caught :: fs) := hs ▸ h.stack.nested (by simp [hs])
  have hfresh : ∀ b ∈ s.running.filter (fun b => b.1 ≠ r), b.1 < s.started :=
    fun b hb => h.fresh b (List.mem_of_mem_filter hb)
  rcases hnested.renewal_inv with ⟨gs, rfl, hgs⟩ | ⟨rfl, -⟩
  · have hlive := ended_live hs
    have hsame : ∀ r', s.Live r' → State.Live (State.ended { s with stack := .assign r :: gs } r) r' := by
      intro r' hr
      rw [State.Live, hlive]
      exact hr
    refine ⟨hfresh, by rw [hlive]; exact h.one, fun _ => .inr ⟨r, gs, rfl⟩,
      .inl ⟨r, gs, rfl, ?_, hgs.mono hsame⟩⟩
    intro b hb
    simpa using (List.mem_filter.mp hb).2
  · have hnil := h.last_live hs
    refine ⟨hfresh, by rw [hnil]; simp, fun hne => absurd hnil hne, .inr trivial⟩

theorem Sound.assign_inv {r : Nat} (h : Sound s) (hs : s.stack = .assign r :: fs) :
    (∀ b ∈ s.running, b.1 ≠ r) ∧ Nested s.Live fs := by
  rcases h.stack with ⟨r', gs, hgs, hrunning, hnested⟩ | hnested
  · rw [hs] at hgs
    cases hgs
    exact ⟨hrunning, hnested⟩
  · rw [hs] at hnested
    exact absurd hnested Nested.not_assign

theorem Sound.assign_live {r : Nat} (h : Sound s) (hs : s.stack = .assign r :: fs) :
    State.live { s with solver := some r, stack := fs } = s.live := by
  unfold State.live
  refine List.filter_congr fun b hb => ?_
  have hne := (h.assign_inv hs).1 b hb
  simp [hs, Frame.assigning, hne]

theorem Sound.assign {r : Nat} (h : Sound s) (hs : s.stack = .assign r :: fs) :
    Sound { s with solver := some r, stack := fs } := by
  have hlive := h.assign_live hs
  have hsame : ∀ r', s.Live r' → State.Live { s with solver := some r, stack := fs } r' := by
    intro r' hr
    rw [State.Live, hlive]
    exact hr
  exact ⟨h.fresh, by rw [hlive]; exact h.one, fun _ => .inl nofun, .inr ((h.assign_inv hs).2.mono hsame)⟩

theorem unwind_nested (h : Nested P fs) : Nested P (s.unwind fs).stack ∧
    (s.unwind fs).stack.filterMap Frame.assigning = fs.filterMap Frame.assigning := by
  fun_induction State.unwind s fs with
  | case1 _ _ fs ih => exact ih h.release_inv.1
  | case2 r fs => exact ⟨h.caught true, rfl⟩
  | case3 => exact ⟨h, rfl⟩

theorem unwind_bodies (s : State) (fs : List Frame) : (s.unwind fs).running = s.running ∧
    (s.unwind fs).started = s.started ∧ (s.unwind fs).solver = s.solver := by
  fun_induction State.unwind s fs with
  | case1 _ _ fs ih => exact ih
  | case2 => exact ⟨rfl, rfl, rfl⟩
  | case3 => exact ⟨rfl, rfl, rfl⟩

theorem step_sound {ev : Event} (h : Sound s) (hstep : step s ev = some t) : Sound t := by
  have hrest : ∀ {f gs}, s.stack = f :: gs → f.assigning = none →
      Nested s.Live (f :: gs) ∧ s.stack.filterMap Frame.assigning = gs.filterMap Frame.assigning := by
    intro f gs hs hf
    have hnot : ∀ r fs, s.stack ≠ .assign r :: fs := by
      intro r fs hassign
      rw [hs] at hassign
      cases hassign
      cases hf
    exact ⟨hs ▸ h.stack.nested hnot, by rw [hs, List.filterMap_cons, hf]⟩
  have hlive : ∀ {r phase}, s.stack = [] → (r, phase) ∈ s.running → s.Live r :=
    fun hs hr => ⟨_, live_of_idle hs ▸ hr, rfl⟩
  cases step_move hstep with
  | tick _ hs => exact h.restack rfl rfl rfl (by simp [hs]) rfl (h.stack.nested (by simp [hs]))
  | send kind hs =>
    refine h.submit (fun r gs hassign => ?_) kind
    rcases hs with hs | ⟨e, err, fs, hs, -⟩ <;> simp [hs] at hassign
  | @timer e due hs =>
    have hnested := h.stack.nested (by simp [hs])
    unfold State.releaseOne
    split
    · exact h.restack rfl rfl rfl (by simp [hs]) rfl hnested
    · exact h.restack rfl rfl rfl (by simp [hs]) rfl hnested
  | heartbeat hs => exact h.heartbeat hs
  | challenge hs => exact h.await hs _ _
  | solved hs => exact h.await hs _ _
  | @verified r ttl hs hr =>
    have h' : Sound { s with anchor := { loadedAt := s.clock, ttl } } :=
      h.restack rfl rfl rfl (by simp [hs]) rfl (h.stack.nested (by simp [hs]))
    exact @Sound.push_idle _ h' hs [.release s.queue false, .renewal r false] rfl (hlive hs hr)
  | @failed r phase hs hr =>
    exact @Sound.push_idle _ h hs [.release s.queue true, .renewal r true] rfl (hlive hs hr)
  | renew fetched hs => exact h.renew hs fetched
  | @next e pending aborted fs hs =>
    obtain ⟨hnested, hassign⟩ := hrest hs rfl
    obtain ⟨-, r, caught, gs, rfl⟩ := hnested.release_inv
    unfold State.releaseOne
    split
    · exact h.restack rfl rfl rfl (by simp [hs]) hassign.symm hnested
    · exact h.restack rfl rfl rfl (by simp [hs]) hassign.symm hnested
  | last hs =>
    obtain ⟨hnested, hassign⟩ := hrest hs rfl
    exact h.restack rfl rfl rfl (by simp [hs]) hassign.symm hnested.release_inv.1
  | ended hs => exact h.ended hs
  | assign hs => exact h.assign hs
  | done hs =>
    obtain ⟨hnested, hassign⟩ := hrest hs rfl
    exact h.restack rfl rfl rfl (by simp [hs]) hassign.symm hnested
  | ret hs =>
    obtain ⟨hnested, hassign⟩ := hrest hs rfl
    exact h.restack rfl rfl rfl (by simp [hs]) hassign.symm hnested
  | @throw e err fs hs =>
    obtain ⟨hnested, hassign⟩ := hrest hs rfl
    have hfs : Nested s.Live fs := hnested
    obtain ⟨hunwind, hassign'⟩ := @unwind_nested s _ fs hfs
    obtain ⟨hrunning, hstarted, hsolver⟩ := unwind_bodies s fs
    exact h.restack hrunning hstarted hsolver (by simp [hs]) (hassign'.trans hassign.symm) hunwind

theorem start_sound (clock ttl : Nat) : Sound (start clock ttl) := by
  unfold start
  simp only
  split
  · exact ⟨by simp [State.push], by simp [State.live, State.push], by simp [State.live, State.push], .inr trivial⟩
  · exact ⟨by simp, by simp [State.live], by simp [State.live], .inr trivial⟩

/-- **At most one renewal goes on**, in every run; and while one does,
between handlers, `solver` is set. -/
theorem run_sound {clock ttl : Nat} {evs : List Event} (h : Machine.run step (start clock ttl) evs = some t) :
    Sound t :=
  Machine.run_invariant (fun _ _ _ => step_sound) (start_sound clock ttl) h

end NekoGuard.Guard
