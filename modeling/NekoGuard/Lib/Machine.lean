/-
Machines and their runs: a partial step function on states, driven by a
list of events. An invariant of one step is an invariant of every run
(`run_invariant`), also when each step is only promised under a condition
on its event and the state it is taken in (`run_invariant_along`); and what
a state is can be told from the events that led to it (`run_since`).
-/
import Mathlib.Data.Option.Basic

namespace NekoGuard.Lib

/-- What one event does to a state; `none` where the event cannot happen. -/
abbrev Machine (σ ε : Type*) := σ → ε → Option σ

namespace Machine

variable {σ ε : Type*} {m : Machine σ ε}

/-- The state a list of events leads to, when each of them can happen. -/
def run (m : Machine σ ε) : σ → List ε → Option σ
  | s, [] => some s
  | s, e :: es => (m s e).bind fun t => run m t es

/-- `C` holds of every event of a run, at the state it is taken in. -/
def Along (m : Machine σ ε) (C : σ → ε → Prop) : σ → List ε → Prop
  | _, [] => True
  | s, e :: es => C s e ∧ ∀ t ∈ m s e, Along m C t es

instance decidableAlong {C : σ → ε → Prop} [∀ s e, Decidable (C s e)] :
    ∀ s es, Decidable (Along m C s es)
  | _, [] => inferInstanceAs (Decidable True)
  | s, e :: es =>
    have : ∀ t, Decidable (Along m C t es) := fun t => decidableAlong t es
    inferInstanceAs (Decidable (C s e ∧ ∀ t ∈ m s e, Along m C t es))

@[simp] theorem run_nil (s : σ) : run m s [] = some s := rfl

theorem run_cons_eq_some {s u : σ} {e : ε} {es : List ε} :
    run m s (e :: es) = some u ↔ ∃ t, m s e = some t ∧ run m t es = some u := by
  simp [run, Option.bind_eq_some_iff]

theorem run_append_eq_some {s u : σ} {es fs : List ε} :
    run m s (es ++ fs) = some u ↔ ∃ t, run m s es = some t ∧ run m t fs = some u := by
  induction es generalizing s with
  | nil => simp
  | cons e es ih =>
    simp only [List.cons_append, run_cons_eq_some, ih]
    constructor
    · intro ⟨t, he, v, hv, hu⟩
      exact ⟨v, ⟨t, he, hv⟩, hu⟩
    · intro ⟨v, ⟨t, he, hv⟩, hu⟩
      exact ⟨t, he, v, hv, hu⟩

theorem run_snoc_eq_some {s u : σ} {es : List ε} {e : ε} :
    run m s (es ++ [e]) = some u ↔ ∃ t, run m s es = some t ∧ m t e = some u := by
  simp [run_append_eq_some, run_cons_eq_some]

/-- **Invariants under a condition.** What each step preserves when its
event meets `C` holds at the end of every run whose events all meet `C`. -/
theorem run_invariant_along {C : σ → ε → Prop} {I : σ → Prop}
    (hstep : ∀ s e t, C s e → I s → m s e = some t → I t) {s t : σ} {es : List ε}
    (hC : Along m C s es) (hI : I s) (h : run m s es = some t) : I t := by
  induction es generalizing s with
  | nil => simp only [run_nil, Option.some.injEq] at h; exact h ▸ hI
  | cons e es ih =>
    obtain ⟨u, hu, h⟩ := run_cons_eq_some.mp h
    obtain ⟨hc, hC⟩ := hC
    exact ih (hC u hu) (hstep s e u hc hI hu) h

/-- What each step preserves, each run preserves. -/
theorem run_invariant {I : σ → Prop} (hstep : ∀ s e t, I s → m s e = some t → I t) {s t : σ}
    {es : List ε} (hI : I s) (h : run m s es = some t) : I t := by
  induction es generalizing s with
  | nil => simp only [run_nil, Option.some.injEq] at h; exact h ▸ hI
  | cons e es ih =>
    obtain ⟨u, hu, h⟩ := run_cons_eq_some.mp h
    exact ih (hstep s e u hI hu) h

theorem along_append {C : σ → ε → Prop} {s : σ} {es fs : List ε} :
    Along m C s (es ++ fs) ↔ Along m C s es ∧ ∀ t ∈ run m s es, Along m C t fs := by
  induction es generalizing s with
  | nil => simp [Along]
  | cons e es ih =>
    simp only [List.cons_append, Along, ih, Option.mem_def, run_cons_eq_some]
    constructor
    · intro ⟨hc, h⟩
      exact ⟨⟨hc, fun t ht => (h t ht).1⟩, fun u ⟨t, ht, hu⟩ => (h t ht).2 u hu⟩
    · intro ⟨⟨hc, h₁⟩, h₂⟩
      exact ⟨hc, fun t ht => ⟨h₁ t ht, fun u hu => h₂ u ⟨t, ht, hu⟩⟩⟩

theorem along_of_forall {C : σ → ε → Prop} {s : σ} {es : List ε} (h : ∀ e ∈ es, ∀ t, C t e) :
    Along m C s es := by
  induction es generalizing s with
  | nil => trivial
  | cons e es ih =>
    exact ⟨h e List.mem_cons_self s, fun t _ => ih fun e' he' => h e' (List.mem_cons_of_mem _ he')⟩

/-- A condition that may look at how a run came to each of its events. -/
theorem along_of_split {C : σ → ε → Prop} {s : σ} {es : List ε}
    (h : ∀ fs e gs t, es = fs ++ e :: gs → run m s fs = some t → C t e) : Along m C s es := by
  induction es generalizing s with
  | nil => trivial
  | cons e es ih =>
    refine ⟨h [] e es s rfl rfl, fun t ht => ih fun fs e' gs u hes hu => ?_⟩
    exact h (e :: fs) e' gs u (by rw [hes, List.cons_append]) (run_cons_eq_some.mpr ⟨t, ht, hu⟩)

/-- What no step takes from a log, no run does. -/
theorem run_log_subset {ο : Type*} {log : σ → List ο} (hgrow : ∀ s e t, m s e = some t → log s ⊆ log t)
    {s t : σ} {es : List ε} (h : run m s es = some t) : log s ⊆ log t :=
  run_invariant (I := fun u => log s ⊆ log u) (fun _ _ _ hs ht => List.Subset.trans hs (hgrow _ _ _ ht))
    (List.Subset.refl _) h

/-- Where each step that breaks `C` leaves a bad entry in such a log, a run
whose log is good at its end meets `C` throughout. -/
theorem along_of_log {ο : Type*} {log : σ → List ο} {C : σ → ε → Prop} {good : ο → Prop}
    (hgrow : ∀ s e t, m s e = some t → log s ⊆ log t)
    (hstep : ∀ s e t, m s e = some t → (∀ x ∈ log t, good x) → C s e) {s t : σ} {es : List ε}
    (h : run m s es = some t) (hgood : ∀ x ∈ log t, good x) : Along m C s es := by
  induction es generalizing s with
  | nil => trivial
  | cons e es ih =>
    obtain ⟨u, hu, h⟩ := run_cons_eq_some.mp h
    refine ⟨hstep s e u hu fun x hx => hgood x (run_log_subset hgrow h hx), fun v hv => ?_⟩
    rw [Option.mem_def, hu, Option.some.injEq] at hv
    exact hv ▸ ih h

/-- Where a step keeps `G` exactly when it meets `C`, and nothing brings `G`
back, a run meets `C` throughout exactly when it ends in `G`. -/
theorem along_iff {C : σ → ε → Prop} {G : σ → Prop} (hback : ∀ s e t, m s e = some t → G t → G s)
    (hstep : ∀ s e t, m s e = some t → G s → (C s e ↔ G t)) {s t : σ} {es : List ε}
    (h : run m s es = some t) (hs : G s) : Along m C s es ↔ G t := by
  have hback' : ∀ {u : σ} {es : List ε}, run m u es = some t → G t → G u := fun {u es} h hG => by
    induction es generalizing u with
    | nil =>
      simp only [run_nil, Option.some.injEq] at h
      exact h ▸ hG
    | cons e es ih =>
      obtain ⟨v, hv, h⟩ := run_cons_eq_some.mp h
      exact hback u e v hv (ih h)
  induction es generalizing s with
  | nil =>
    simp only [run_nil, Option.some.injEq] at h
    subst h
    exact ⟨fun _ => hs, fun _ => trivial⟩
  | cons e es ih =>
    obtain ⟨u, hu, h⟩ := run_cons_eq_some.mp h
    simp only [Along, Option.mem_def, hu, Option.some.injEq, forall_eq']
    constructor
    · intro ⟨hc, hrest⟩
      exact (ih h ((hstep s e u hu hs).mp hc)).mp hrest
    · intro hG
      have hGu := hback' h hG
      exact ⟨(hstep s e u hu hs).mpr hGu, (ih h hGu).mpr hG⟩

/-- Where a step meets `C` exactly when it keeps `I`, a run meets `C`
throughout exactly when `I` holds of every state on its way. -/
theorem along_iff_prefixes {C : σ → ε → Prop} {I J : σ → Prop} (hinv : ∀ s e t, J s → m s e = some t → J t)
    (hstep : ∀ s e, J s → I s → (C s e ↔ ∀ t ∈ m s e, I t)) {s : σ} {es : List ε} (hJ : J s) (hI : I s) :
    Along m C s es ↔ ∀ fs, fs <+: es → ∀ t, run m s fs = some t → I t := by
  induction es generalizing s with
  | nil =>
    refine ⟨fun _ fs hfs t h => ?_, fun _ => trivial⟩
    rw [List.prefix_nil.mp hfs, run_nil, Option.some.injEq] at h
    exact h ▸ hI
  | cons e es ih =>
    constructor
    · intro ⟨hc, hrest⟩ fs hfs t h
      rcases List.prefix_cons_iff.mp hfs with rfl | ⟨gs, rfl, hgs⟩
      · rw [run_nil, Option.some.injEq] at h
        exact h ▸ hI
      · obtain ⟨u, hu, h⟩ := run_cons_eq_some.mp h
        have hIu : I u := (hstep s e hJ hI).mp hc u hu
        exact (ih (hinv s e u hJ hu) hIu).mp (hrest u hu) gs hgs t h
    · intro hall
      have hnext : ∀ u ∈ m s e, I u := fun u hu =>
        hall [e] ⟨es, rfl⟩ u (run_cons_eq_some.mpr ⟨u, hu, rfl⟩)
      refine ⟨(hstep s e hJ hI).mpr hnext, fun u hu => ?_⟩
      refine (ih (hinv s e u hJ hu) (hnext u hu)).mpr fun gs hgs t h => ?_
      exact hall (e :: gs) (List.cons_prefix_cons.mpr ⟨rfl, hgs⟩) t (run_cons_eq_some.mpr ⟨u, hu, h⟩)

/-! ## What a run has taken -/

/-- The events of a run, each with the state it is taken in. -/
def trace (m : Machine σ ε) : σ → List ε → List (σ × ε)
  | _, [] => []
  | s, e :: es => (s, e) :: (m s e).elim [] fun t => trace m t es

/-- One of them meets `C`, and all after it meet `D`. -/
def Since {α : Type*} (C D : α → Prop) (l : List α) : Prop :=
  ∃ before x after, l = before ++ x :: after ∧ C x ∧ ∀ y ∈ after, D y

theorem not_since_nil {α : Type*} {C D : α → Prop} : ¬Since C D [] := by
  intro ⟨before, x, after, h, _⟩
  simp at h

theorem since_cons {α : Type*} {C D : α → Prop} {x : α} {l : List α} :
    Since C D (x :: l) ↔ Since C D l ∨ C x ∧ ∀ y ∈ l, D y := by
  constructor
  · intro ⟨before, y, after, hl, hy, hafter⟩
    cases before with
    | nil =>
      simp only [List.nil_append, List.cons.injEq] at hl
      obtain ⟨rfl, rfl⟩ := hl
      exact .inr ⟨hy, hafter⟩
    | cons b before =>
      simp only [List.cons_append, List.cons.injEq] at hl
      exact .inl ⟨before, y, after, hl.2, hy, hafter⟩
  · intro h
    rcases h with ⟨before, y, after, rfl, hy, hafter⟩ | ⟨hx, hl⟩
    · exact ⟨x :: before, y, after, rfl, hy, hafter⟩
    · exact ⟨[], x, l, rfl, hx, hl⟩

theorem since_true {α : Type*} {C : α → Prop} {l : List α} :
    Since C (fun _ => True) l ↔ ∃ x ∈ l, C x := by
  induction l with
  | nil => simp [not_since_nil]
  | cons x l ih => simp [since_cons, ih, or_comm]

/-- **The history of a state.** What a step brings about when it meets `C`,
and else leaves as it was when it meets `D`, holds after a run when one of
its events brought it about and those after it left it. -/
theorem run_since {C D : σ × ε → Prop} {P : σ → Prop}
    (hstep : ∀ s e t, m s e = some t → (P t ↔ C (s, e) ∨ P s ∧ D (s, e))) {s t : σ} {es : List ε}
    (hs : ¬P s) (h : run m s es = some t) : P t ↔ Since C D (trace m s es) := by
  suffices P t ↔ Since C D (trace m s es) ∨ P s ∧ ∀ x ∈ trace m s es, D x by simpa [hs] using this
  clear hs
  induction es generalizing s with
  | nil =>
    simp only [run_nil, Option.some.injEq] at h
    simp [trace, not_since_nil, h]
  | cons e es ih =>
    obtain ⟨u, hu, h⟩ := run_cons_eq_some.mp h
    rw [ih h, hstep s e u hu]
    simp only [trace, hu, Option.elim_some, since_cons, List.forall_mem_cons, or_and_right, or_assoc, and_assoc]

/-! ## Counting events -/

/-- How many events of a run meet `C`, at the state they are taken in. -/
def count (m : Machine σ ε) (C : σ → ε → Bool) : σ → List ε → Nat
  | _, [] => 0
  | s, e :: es => (C s e).toNat + ((m s e).elim 0 fun t => count m C t es)

theorem count_append {C : σ → ε → Bool} {s t : σ} {es fs : List ε} (h : run m s es = some t) :
    count m C s (es ++ fs) = count m C s es + count m C t fs := by
  induction es generalizing s with
  | nil =>
    simp only [run_nil, Option.some.injEq] at h
    simp [count, h]
  | cons e es ih =>
    obtain ⟨u, hu, h⟩ := run_cons_eq_some.mp h
    simp only [List.cons_append, count, hu, Option.elim_some, ih h, Nat.add_assoc]

/-- **Counting with a potential.** Where each event that meets `C` is paid
for by the potential, and only one that meets `D` brings some back, there
are no more of the first than there is potential and of the second. -/
theorem count_le {A : σ → ε → Prop} {I : σ → Prop} {C D : σ → ε → Bool} {Φ : σ → Nat}
    (hstep : ∀ s e t, A s e → I s → m s e = some t → I t)
    (hpaid : ∀ s e t, A s e → I s → m s e = some t → (C s e).toNat + Φ t ≤ Φ s + (D s e).toNat) {s t : σ}
    {es : List ε} (hA : Along m A s es) (hI : I s) (h : run m s es = some t) :
    count m C s es + Φ t ≤ Φ s + count m D s es := by
  induction es generalizing s with
  | nil =>
    simp only [run_nil, Option.some.injEq] at h
    simp [count, h]
  | cons e es ih =>
    obtain ⟨u, hu, h⟩ := run_cons_eq_some.mp h
    obtain ⟨ha, hA⟩ := hA
    have hhead := hpaid s e u ha hI hu
    have htail := ih (hA u hu) (hstep s e u ha hI hu) h
    simp only [count, hu, Option.elim_some]
    omega

/-! ## A machine and an observer -/

/-- A machine with a note beside its state, which stops no step. -/
def observe {ω : Type*} (m : Machine σ ε) (note : σ → ω → ε → ω) : Machine (σ × ω) ε :=
  fun p e => (m p.1 e).map fun t => (t, note p.1 p.2 e)

variable {ω : Type*} {note : σ → ω → ε → ω}

theorem observe_eq_some {p q : σ × ω} {e : ε} :
    observe m note p e = some q ↔ m p.1 e = some q.1 ∧ note p.1 p.2 e = q.2 := by
  simp only [observe, Option.map_eq_some_iff]
  refine ⟨fun h => ?_, fun h => ?_⟩
  · obtain ⟨t, ht, rfl⟩ := h
    exact ⟨ht, rfl⟩
  · obtain ⟨ht, hnote⟩ := h
    exact ⟨q.1, ht, by rw [hnote]⟩

variable (note) in
/-- Every run of the machine is observed. -/
theorem run_observe {s t : σ} {es : List ε} (o : ω) (h : run m s es = some t) :
    ∃ o', run (observe m note) (s, o) es = some (t, o') := by
  induction es generalizing s o with
  | nil =>
    simp only [run_nil, Option.some.injEq] at h
    exact ⟨o, by rw [run_nil, h]⟩
  | cons e es ih =>
    obtain ⟨u, hu, h⟩ := run_cons_eq_some.mp h
    obtain ⟨o', ho'⟩ := ih (note s o e) h
    exact ⟨o', run_cons_eq_some.mpr ⟨(u, note s o e), observe_eq_some.mpr ⟨hu, rfl⟩, ho'⟩⟩

end Machine

end NekoGuard.Lib
