/-
When guard.js lets a request through that the server would refuse. The
cookie is good from the second it was sealed in, and in the jar from the
moment it was stored; the window of a page lasts from the moment it is
anchored. They agree exactly when each anchor falls before the end of that
second and not behind that moment (`passes_accepted`).
-/
import Mathlib.Data.Fintype.Basic
import NekoGuard.Clearance
import NekoGuard.Samples

namespace NekoGuard.Clearance

open Lib

variable {π : Type} {cr : SealingCrates} {sm : SessionManager} {ip : IpAddr} {instantAt : Nat → Nat}

/-! ## Pages -/

theorem not_isExpired {a : Anchor} {now : Nat} : ¬a.isExpired now = true ↔ now < a.expiresAt := by
  unfold Anchor.isExpired
  rw [decide_eq_true_iff, Nat.not_le]

section Pages

variable [DecidableEq π]

@[simp] theorem setPage_clock (s : Joint π) (p : π) (pg : Page) : (s.setPage p pg).clock = s.clock := rfl

@[simp] theorem setPage_jar (s : Joint π) (p : π) (pg : Page) : (s.setPage p pg).jar = s.jar := rfl

@[simp] theorem setPage_passes (s : Joint π) (p : π) (pg : Page) : (s.setPage p pg).passes = s.passes := rfl

@[simp] theorem setPage_page_self (s : Joint π) (p : π) (pg : Page) : (s.setPage p pg).page p = pg :=
  Function.update_self _ _ _

/-- What another page is, or this one has been made. -/
theorem setPage_page (s : Joint π) (p q : π) (pg : Page) :
    (q = p ∧ (s.setPage p pg).page q = pg) ∨ (s.setPage p pg).page q = s.page q := by
  by_cases h : q = p
  · subst h
    exact .inl ⟨rfl, Function.update_self _ _ _⟩
  · exact .inr (Function.update_of_ne h _ _)

@[simp] theorem tend_guard (pg : Page) (now : Nat) : (pg.tend now).guard = pg.guard := by
  unfold Page.tend
  split
  · split <;> rfl
  · rfl

theorem renew_arriving (r : Renewal) : r.renew.arriving = r.arriving := by
  cases r <;> rfl

@[simp] theorem tend_arriving (pg : Page) (now : Nat) :
    (pg.tend now).renewal.arriving = pg.renewal.arriving := by
  unfold Page.tend
  split
  · split
    · exact renew_arriving _
    · rfl
  · exact renew_arriving _

end Pages

/-! ## What an event can do -/

/-- A window is anchored at a load or after a renewal, now; a cookie is
sealed now, and gets into the jar from the page it was sealed for; a request
goes through within a window. -/
structure Effect (sm : SessionManager) (s : Joint π) (e : Event π) (t : Joint π) : Prop where
  clock : s.clock ≤ t.clock
  guard : ∀ q, ∀ a ∈ (t.page q).guard, a ∈ (s.page q).guard ∨
    (a = ⟨s.clock, sm.ttl⟩ ∧ t.clock = s.clock ∧ t.jar = s.jar) ∧
      (e = .load q ∨ e = .resume q ∧ (s.page q).guard ≠ none)
  arriving : ∀ q, ∀ c ∈ (t.page q).renewal.arriving,
    c ∈ (s.page q).renewal.arriving ∨ c.sealedAt = s.clock
  jar : t.jar = s.jar ∨ ∃ p, e = .store p ∧ t.clock = s.clock ∧
    ∃ c ∈ (s.page p).renewal.arriving, t.jar = some ⟨c, s.clock⟩
  passes : t.passes = s.passes ∨ ∃ p, e = .gate p ∧ ∃ a ∈ (s.page p).guard,
    s.clock < a.expiresAt ∧ t.passes = ⟨p, s.clock, s.cookie sm.ttl⟩ :: s.passes

section Step

variable [DecidableEq π]

/-- A page whose window stays, and which brings no new cookie. -/
theorem effect_setPage {s : Joint π} {e : Event π} {p : π} {pg : Page} (hguard : pg.guard = (s.page p).guard)
    (harr : ∀ c ∈ pg.renewal.arriving, c ∈ (s.page p).renewal.arriving ∨ c.sealedAt = s.clock) :
    Effect sm s e (s.setPage p pg) where
  clock := Nat.le_refl _
  guard := fun q a ha => by
    rcases setPage_page s p q pg with ⟨rfl, hpg⟩ | hpg
    · rw [hpg, hguard] at ha
      exact .inl ha
    · rw [hpg] at ha
      exact .inl ha
  arriving := fun q c hc => by
    rcases setPage_page s p q pg with ⟨rfl, hpg⟩ | hpg
    · rw [hpg] at hc
      exact harr c hc
    · rw [hpg] at hc
      exact .inl hc
  jar := .inl rfl
  passes := .inl rfl

/-- A page that anchors its window now. -/
theorem effect_anchor {s : Joint π} {e : Event π} {p : π} {pg : Page}
    (hguard : ∀ a ∈ pg.guard, a = ⟨s.clock, sm.ttl⟩ ∧ (e = .load p ∨ e = .resume p ∧ (s.page p).guard ≠ none))
    (harr : pg.renewal.arriving = none) : Effect sm s e (s.setPage p pg) where
  clock := Nat.le_refl _
  guard := fun q a ha => by
    rcases setPage_page s p q pg with ⟨rfl, hpg⟩ | hpg
    · rw [hpg] at ha
      obtain ⟨hnow, hevent⟩ := hguard a ha
      exact .inr ⟨⟨hnow, rfl, rfl⟩, hevent⟩
    · rw [hpg] at ha
      exact .inl ha
  arriving := fun q c hc => by
    rcases setPage_page s p q pg with ⟨rfl, hpg⟩ | hpg
    · rw [hpg, harr] at hc
      cases hc
    · rw [hpg] at hc
      exact .inl hc
  jar := .inl rfl
  passes := .inl rfl

/-- **What an event can do.** -/
theorem step_effect {s t : Joint π} {e : Event π} (h : step sm s e = some t) : Effect sm s e t := by
  cases e with
  | tick d =>
    cases h
    exact ⟨Nat.le_add_right _ _, fun _ _ ha => .inl ha, fun _ _ hc => .inl hc, .inl rfl, .inl rfl⟩
  | load p =>
    cases h
    refine effect_anchor (fun a ha => ?_) ?_
    · rw [tend_guard] at ha
      cases ha
      exact ⟨rfl, .inl rfl⟩
    · rw [tend_arriving]
      rfl
  | renew p =>
    cases h
    refine effect_setPage (tend_guard _ _) (fun c hc => .inl ?_)
    rwa [tend_arriving] at hc
  | challenge p =>
    simp only [step] at h
    split at h
    · cases h
      exact effect_setPage rfl nofun
    · cases h
  | verify p nonce =>
    simp only [step] at h
    split at h
    · cases h
      refine effect_setPage rfl fun c hc => .inr ?_
      cases hc
      rfl
    · cases h
  | store p =>
    simp only [step] at h
    split at h
    · next c hc =>
      cases h
      have harr : (s.page p).renewal.arriving = some c := by rw [hc]; rfl
      have hpage : Effect sm s (.store p) (s.setPage p { s.page p with renewal := .stored }) :=
        effect_setPage rfl nofun
      exact {
        clock := hpage.clock
        guard := fun q a ha => .inl ((hpage.guard q a ha).resolve_right fun h => by simp at h)
        arriving := hpage.arriving
        jar := .inr ⟨p, rfl, rfl, c, harr, rfl⟩
        passes := .inl rfl }
    · cases h
  | resume p =>
    simp only [step] at h
    split at h
    · cases h
      refine effect_anchor (fun a ha => ?_) rfl
      obtain ⟨b, hb, rfl⟩ := Option.map_eq_some_iff.mp ha
      exact ⟨rfl, .inr ⟨rfl, by simp [hb]⟩⟩
    · cases h
  | fail p =>
    cases h
    exact effect_setPage rfl nofun
  | gate p =>
    simp only [step] at h
    split at h
    · next a ha =>
      have hpage : Effect sm s (.gate p) (s.setPage p ((s.page p).tend s.clock)) :=
        effect_setPage (tend_guard _ _) fun c hc => .inl (by rwa [tend_arriving] at hc)
      split at h
      · cases h
        exact hpage
      · next hexp =>
        cases h
        have hopen : s.clock < a.expiresAt := not_isExpired.mp hexp
        exact ⟨hpage.clock, hpage.guard, hpage.arriving, .inl rfl, .inr ⟨p, rfl, a, ha, hopen, rfl⟩⟩
    · cases h

end Step

/-! ## What is accepted -/

theorem accepted_iff (hcr : cr.Lawful) {v : Pass π} : v.Accepted cr sm ip instantAt ↔
    ∃ c ∈ v.cookie, v.now / 1000 ≤ (c.sealedAt / 1000 + sm.ttl) % 2 ^ 64 ∧
      instantAt v.now + 10 ^ 9 * sm.ttl < 2 ^ 63 * 10 ^ 9 := by
  unfold Pass.Accepted Issued.cookie
  simp only [SessionManager.accepts_createCookie hcr, clockAt, true_and, Option.mem_def]

theorem isLive_iff {c : Stored} {ttl now : Nat} : c.isLive ttl now = true ↔ now < c.storedAt + ttl * 1000 :=
  decide_eq_true_iff

/-- The cookie the browser has is the one in the jar. -/
theorem cookie_eq_some {s : Joint π} {ttl : Nat} {c : Issued} :
    s.cookie ttl = some c ↔ ∃ k ∈ s.jar, s.clock < k.storedAt + ttl * 1000 ∧ k.cookie = c := by
  simp only [Joint.cookie, Option.map_eq_some_iff, Option.filter_eq_some_iff, isLive_iff, Option.mem_def, and_assoc]

/-- Within the window of an anchor it covers, a cookie is there and accepted. -/
theorem Covers.in_time {c : Stored} {a : Anchor} {now : Nat} (h : Covers sm c a.loadedAt) (hsm : a.ttl = sm.ttl)
    (hopen : now < a.expiresAt) :
    now < c.storedAt + sm.ttl * 1000 ∧ now / 1000 ≤ (c.cookie.sealedAt / 1000 + sm.ttl) % 2 ^ 64 := by
  rw [Nat.mod_eq_of_lt h.fits]
  have hkept := h.kept
  have hanchored := h.anchored
  unfold Anchor.expiresAt at hopen
  rw [hsm] at hopen
  omega

/-- At the end of the window of an anchor it does not cover, it is gone or
not accepted. -/
theorem late_of_not_covers {c : Stored} {a : Anchor} {now : Nat} (h : ¬Covers sm c a.loadedAt) (hsm : a.ttl = sm.ttl)
    (hu64 : sm.ttl < 2 ^ 64) (hpast : c.cookie.sealedAt ≤ now) (hend : now + 1 = a.expiresAt)
    (hlive : now < c.storedAt + sm.ttl * 1000) :
    ¬now / 1000 ≤ (c.cookie.sealedAt / 1000 + sm.ttl) % 2 ^ 64 := by
  unfold Anchor.expiresAt at hend
  rw [hsm] at hend
  by_cases hfits : c.cookie.sealedAt / 1000 + sm.ttl < 2 ^ 64
  · rw [Nat.mod_eq_of_lt hfits]
    have hanchored : ¬a.loadedAt ≤ (c.cookie.sealedAt / 1000 + 1) * 1000 := fun h' => h ⟨by omega, h', hfits⟩
    omega
  · -- The expiry has wrapped to before the cookie was sealed.
    omega

/-! ## Runs -/

/-- Windows are as long as the server says, and no cookie is from the future. -/
structure Sound (sm : SessionManager) (s : Joint π) : Prop where
  ttl : ∀ p, ∀ a ∈ (s.page p).guard, a.ttl = sm.ttl
  arriving : ∀ p, ∀ c ∈ (s.page p).renewal.arriving, c.sealedAt ≤ s.clock
  jar : ∀ c ∈ s.jar, c.cookie.sealedAt ≤ s.clock

theorem Effect.sound {s t : Joint π} {e : Event π} (h : Effect sm s e t) (hs : Sound sm s) : Sound sm t where
  ttl := fun q a ha => by
    rcases h.guard q a ha with ha | ⟨⟨rfl, -, -⟩, -⟩
    · exact hs.ttl q a ha
    · rfl
  arriving := fun q c hc => by
    rcases h.arriving q c hc with hc | hc
    · exact Nat.le_trans (hs.arriving q c hc) h.clock
    · exact Nat.le_trans (Nat.le_of_eq hc) h.clock
  jar := fun c hc => by
    rcases h.jar with hjar | ⟨p, -, -, c', hc', hjar⟩
    · exact Nat.le_trans (hs.jar c (hjar ▸ hc)) h.clock
    · rw [hjar] at hc
      cases hc
      exact Nat.le_trans (hs.arriving p c' hc') h.clock

/-- Every open window is covered by the cookie, and so was every request
that went through. -/
structure Covered (cr : SealingCrates) (sm : SessionManager) (ip : IpAddr) (instantAt : Nat → Nat)
    (s : Joint π) : Prop where
  windows : ∀ p, ∀ a ∈ (s.page p).guard, s.clock < a.expiresAt → ∃ c ∈ s.jar, Covers sm c a.loadedAt
  passes : ∀ v ∈ s.passes, v.Accepted cr sm ip instantAt

theorem Effect.covered (hcr : cr.Lawful) {s t : Joint π} {e : Event π} (h : Effect sm s e t)
    (htimely : Timely sm instantAt s e) (hs : Sound sm s) (hcov : Covered cr sm ip instantAt s) :
    Covered cr sm ip instantAt t where
  windows := fun q a ha hopen => by
    rcases h.guard q a ha with ha | ⟨⟨rfl, hclock, hjar⟩, rfl | ⟨rfl, hguard⟩⟩
    · have hopen' := Nat.lt_of_le_of_lt h.clock hopen
      rcases h.jar with hjar | ⟨p, rfl, hclock, c, hc, hjar⟩
      · rw [hjar]
        exact hcov.windows q a ha hopen'
      · exact ⟨_, hjar, htimely c hc q a ha hopen'⟩
    · rw [hjar]
      exact htimely
    · rw [hjar]
      exact htimely hguard
  passes := fun v hv => by
    rcases h.passes with hpasses | ⟨p, rfl, a, ha, hopen, hpasses⟩
    · exact hcov.passes v (hpasses ▸ hv)
    · rw [hpasses] at hv
      rcases List.mem_cons.mp hv with rfl | hv
      · obtain ⟨c, hc, hcovers⟩ := hcov.windows p a ha hopen
        obtain ⟨hlive, hgood⟩ := hcovers.in_time (hs.ttl p a ha) hopen
        exact (accepted_iff hcr).mpr
          ⟨c.cookie, cookie_eq_some.mpr ⟨c, hc, hlive, rfl⟩, hgood, htimely a ha hopen⟩
      · exact hcov.passes v hv

theorem sound_start (clock : Nat) : Sound sm (start (π := π) clock) := ⟨nofun, nofun, nofun⟩

theorem covered_start (clock : Nat) : Covered cr sm ip instantAt (start (π := π) clock) := ⟨nofun, nofun⟩

/-! ## Windows that are not covered -/

variable [DecidableEq π]

/-- At the very end of a window the cookie does not cover, a request goes
through. -/
theorem pass_late (hcr : cr.Lawful) (hu64 : sm.ttl < 2 ^ 64) {t : Joint π} {q : π} {a : Anchor} (ht : Sound sm t)
    (ha : a ∈ (t.page q).guard) (hopen : t.clock < a.expiresAt) (hbad : ∀ c ∈ t.jar, ¬Covers sm c a.loadedAt) :
    ∃ fs u v, Machine.run (step sm) t fs = some u ∧ v ∈ u.passes ∧ ¬v.Accepted cr sm ip instantAt := by
  let d := a.expiresAt - 1 - t.clock
  have hend : t.clock + d + 1 = a.expiresAt := by omega
  let v : Pass π := ⟨q, t.clock + d, Joint.cookie { t with clock := t.clock + d } sm.ttl⟩
  have hgate : ∃ u, step sm { t with clock := t.clock + d } (.gate q) = some u ∧ v ∈ u.passes := by
    have hexp : ¬a.isExpired (t.clock + d) = true := not_isExpired.mpr (by omega)
    have hguard : (t.page q).guard = some a := ha
    simp only [step, hguard, setPage_clock, hexp]
    exact ⟨_, rfl, List.mem_cons_self⟩
  obtain ⟨u, hu, hv⟩ := hgate
  refine ⟨[.tick d, .gate q], u, v,
    Machine.run_cons_eq_some.mpr ⟨_, rfl, Machine.run_cons_eq_some.mpr ⟨u, hu, rfl⟩⟩, hv, ?_⟩
  intro hacc
  obtain ⟨_, hcookie, hle, -⟩ := (accepted_iff hcr).mp hacc
  obtain ⟨c, hc, hlive, rfl⟩ := cookie_eq_some.mp hcookie
  have hpast : c.cookie.sealedAt ≤ t.clock + d := Nat.le_trans (ht.jar c hc) (Nat.le_add_right _ _)
  exact late_of_not_covers (hbad c hc) (ht.ttl q a ha) hu64 hpast hend hlive hle

/-! ### What follows on an untimely event -/

/-- The run can go on to let a request through that the server refuses. -/
def Breaks (cr : SealingCrates) (sm : SessionManager) (ip : IpAddr) (instantAt : Nat → Nat) (t : Joint π) : Prop :=
  ∃ fs u v, Machine.run (step sm) t fs = some u ∧ v ∈ u.passes ∧ ¬v.Accepted cr sm ip instantAt

/-- A page that starts its window now lets requests through to its end. -/
theorem breaks_of_loaded (hcr : cr.Lawful) (hpos : 0 < sm.ttl) (hu64 : sm.ttl < 2 ^ 64) {t : Joint π} {q : π}
    (ht : Sound sm t) (ha : ⟨t.clock, sm.ttl⟩ ∈ (t.page q).guard) (hbad : ∀ c ∈ t.jar, ¬Covers sm c t.clock) :
    Breaks cr sm ip instantAt t := by
  have hnow : t.clock < (Anchor.mk t.clock sm.ttl).expiresAt := by
    show t.clock < t.clock + sm.ttl * 1000
    omega
  exact pass_late hcr hu64 ht ha hnow hbad

/-- A page that is open keeps letting requests through when its cookie is
replaced by one that does not last as long. -/
theorem breaks_of_stored (hcr : cr.Lawful) (hu64 : sm.ttl < 2 ^ 64) {s t : Joint π} {p : π} (ht : Sound sm t)
    (h : step sm s (.store p) = some t) (hbad : ¬Timely sm instantAt s (.store p)) :
    Breaks cr sm ip instantAt t := by
  unfold Timely at hbad
  push Not at hbad
  obtain ⟨c, hc, q, a, ha, hopen, hnot⟩ := hbad
  simp only [step] at h
  split at h
  · next c' hc' =>
    rw [hc'] at hc
    cases hc
    cases h
    have hguard : a ∈ ((s.setPage p { s.page p with renewal := .stored }).page q).guard := by
      rcases setPage_page s p q { s.page p with renewal := .stored } with ⟨rfl, hpg⟩ | hpg
      · rwa [hpg]
      · rwa [hpg]
    refine pass_late hcr hu64 ht hguard hopen ?_
    intro c' hc'
    cases hc'
    exact hnot
  · cases h

/-- A request let through is refused where the server's clock cannot hold
its cookie. -/
theorem breaks_of_gate (hcr : cr.Lawful) {s t : Joint π} {p : π} (h : step sm s (.gate p) = some t)
    (hbad : ¬Timely sm instantAt s (.gate p)) : Breaks cr sm ip instantAt t := by
  unfold Timely at hbad
  push Not at hbad
  obtain ⟨a, ha, hopen, hover⟩ := hbad
  have hguard : (s.page p).guard = some a := ha
  have hexp : ¬a.isExpired s.clock = true := not_isExpired.mpr hopen
  simp only [step, hguard, setPage_clock, hexp] at h
  cases h
  refine ⟨[], _, ⟨p, s.clock, _⟩, rfl, List.mem_cons_self, ?_⟩
  intro hacc
  obtain ⟨c, -, -, hfits⟩ := (accepted_iff hcr).mp hacc
  exact absurd hfits (Nat.not_lt.mpr hover)

/-- **When guard.js and the server agree.** In a run in which each window is
anchored, and kept, on a cookie that covers it, `verify_cookie` accepts the
cookie of every request that goes through; and after any other step a
request goes through, then or later, whose cookie it does not accept. -/
theorem passes_accepted (hcr : cr.Lawful) (hpos : 0 < sm.ttl) (hu64 : sm.ttl < 2 ^ 64) (clock : Nat) :
    (∀ es s, Machine.Along (step sm) (Timely sm instantAt) (start (π := π) clock) es →
      Machine.run (step sm) (start clock) es = some s → ∀ v ∈ s.passes, v.Accepted cr sm ip instantAt) ∧
    ∀ es (s t : Joint π) e, Machine.run (step sm) (start clock) es = some s → step sm s e = some t →
      ¬Timely sm instantAt s e →
      ∃ fs u v, Machine.run (step sm) t fs = some u ∧ v ∈ u.passes ∧ ¬v.Accepted cr sm ip instantAt := by
  refine ⟨fun es s htimely hrun => ?_, fun es s t e hrun h hbad => ?_⟩
  · have hboth : Sound sm s ∧ Covered cr sm ip instantAt s :=
      Machine.run_invariant_along (I := fun s => Sound sm s ∧ Covered cr sm ip instantAt s)
        (fun _ _ _ ht hs h => ⟨(step_effect h).sound hs.1, (step_effect h).covered hcr ht hs.1 hs.2⟩)
        htimely ⟨sound_start clock, covered_start clock⟩ hrun
    exact hboth.2.passes
  · have hs : Sound sm s :=
      Machine.run_invariant (fun _ _ _ hs h => (step_effect h).sound hs) (sound_start clock) hrun
    have ht : Sound sm t := (step_effect h).sound hs
    cases e with
    | load p =>
      cases h
      exact breaks_of_loaded hcr hpos hu64 (q := p) ht (by simp) fun c hc hcovers => hbad ⟨c, hc, hcovers⟩
    | resume p =>
      have hguard : (s.page p).guard ≠ none := fun hn => hbad fun h => absurd hn h
      obtain ⟨b, hb⟩ := Option.ne_none_iff_exists'.mp hguard
      simp only [step] at h
      split at h
      · cases h
        exact breaks_of_loaded hcr hpos hu64 (q := p) ht (by simp [hb]) fun c hc hcovers =>
          hbad fun _ => ⟨c, hc, hcovers⟩
      · cases h
    | store p => exact breaks_of_stored hcr hu64 ht h hbad
    | gate p => exact breaks_of_gate hcr h hbad
    | _ => exact absurd trivial hbad

instance decidableCovers (c : Stored) (loadedAt : Nat) : Decidable (Covers sm c loadedAt) :=
  decidable_of_iff (loadedAt ≤ c.storedAt ∧ loadedAt ≤ (c.cookie.sealedAt / 1000 + 1) * 1000 ∧
      c.cookie.sealedAt / 1000 + sm.ttl < 2 ^ 64)
    ⟨fun h => ⟨h.1, h.2.1, h.2.2⟩, fun h => ⟨h.kept, h.anchored, h.fits⟩⟩

instance decidableTimely [Fintype π] (s : Joint π) : ∀ e, Decidable (Timely sm instantAt s e)
  | .load _ => inferInstanceAs (Decidable (∃ c ∈ s.jar, _))
  | .resume _ => inferInstanceAs (Decidable (_ → ∃ c ∈ s.jar, _))
  | .store p => inferInstanceAs (Decidable (∀ c ∈ (s.page p).renewal.arriving, ∀ q, ∀ a ∈ (s.page q).guard,
      s.clock < a.expiresAt → Covers sm ⟨c, s.clock⟩ a.loadedAt))
  | .gate p => inferInstanceAs (Decidable (∀ a ∈ (s.page p).guard, _ → _))
  | .tick _ | .renew _ | .challenge _ | .verify _ _ | .fail _ => isTrue trivial

/-- A challenge is solved, the page is opened `idleMs` later, and asks for
something `laterMs` after that. -/
def visit (idleMs laterMs : Nat) : List (Event Unit) :=
  [.renew (), .challenge (), .verify () (Vector.replicate 12 0), .store (), .resume (), .tick idleMs, .load (),
    .tick laterMs, .gate ()]

/-- An `Instant` that counts from the epoch. -/
def sinceEpoch (now : Nat) : Nat := 10 ^ 6 * now

theorem visit_accepted : ∃ s, Machine.run (step Sample.manager) (start 0) (visit 0 1799999) = some s ∧
    ∀ v ∈ s.passes, v.Accepted Sample.crates Sample.manager (.v4 10 0 0 1) sinceEpoch := by
  obtain ⟨s, hs⟩ := Option.isSome_iff_exists.mp
    (show (Machine.run (step Sample.manager) (start 0) (visit 0 1799999)).isSome = true by decide +kernel)
  exact ⟨s, hs, (passes_accepted Sample.crates_lawful (by decide) (by decide) 0).1 _ s (by decide +kernel) hs⟩

/-- Opened at 1000 seconds, the page trusts the cookie at 2000, which the
browser has dropped and the server would refuse: it was good until 1800. -/
theorem visit_late_not_accepted : ∃ s v,
    Machine.run (step Sample.manager) (start 0) (visit 1000000 1000000) = some s ∧ v ∈ s.passes ∧
      ¬v.Accepted Sample.crates Sample.manager (.v4 10 0 0 1) sinceEpoch ∧
      ∀ c ∈ s.jar, ¬Sample.manager.Accepts Sample.crates
        (c.cookie.cookie Sample.crates Sample.manager (.v4 10 0 0 1) sinceEpoch) (.v4 10 0 0 1)
        (clockAt sinceEpoch v.now) := by
  have hend : (Machine.run (step Sample.manager) (start 0) (visit 1000000 1000000)).map (fun s => (s.passes, s.jar)) =
      some ([⟨(), 2000000, none⟩], some ⟨⟨0, Vector.replicate 12 0⟩, 0⟩) := by decide +kernel
  obtain ⟨s, hs, hp⟩ := Option.map_eq_some_iff.mp hend
  rw [Prod.mk.injEq] at hp
  obtain ⟨hpasses, hjar⟩ := hp
  refine ⟨s, _, hs, hpasses ▸ List.mem_cons_self, ?_, ?_⟩
  · rintro ⟨c, hc, -⟩
    cases hc
  · intro c hc hacc
    rw [hjar] at hc
    cases hc
    obtain ⟨-, hle, -⟩ := (SessionManager.accepts_createCookie Sample.crates_lawful).mp hacc
    revert hle
    decide

end NekoGuard.Clearance
