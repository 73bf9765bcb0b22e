/-
Processes that share a store and a clock, interleaved one action at a time.
An assertion about the clock and the store together with one assertion for
each process is an invariant of every run when the clock does not disturb
it, an action establishes it for the process that acts, and an action of
one process does not disturb the assertion of another (`Keeps.run`).
-/
import Mathlib.Logic.Function.Basic
import NekoGuard.Lib.Machine

namespace NekoGuard.Lib

/-- A clock, a shared store and the private state of each process. -/
structure Cluster (ρ τ σ : Type*) where
  clock : Nat
  shared : τ
  proc : ρ → σ

namespace Cluster

/-- Time passes, or one process takes one action. -/
inductive Event (ρ ε : Type*) where
  | tick (d : Nat)
  | on (r : ρ) (e : ε)
deriving DecidableEq

/-- What one action of process `r` does to the store and to its own state,
at the clock it is taken. -/
abbrev Action (ρ τ σ ε : Type*) := ρ → Nat → τ → σ → ε → Option (τ × σ)

variable {ρ τ σ ε : Type*} [DecidableEq ρ] {act : Action ρ τ σ ε}

/-- The interleaving machine of `act`. -/
def step (act : Action ρ τ σ ε) : Machine (Cluster ρ τ σ) (Event ρ ε)
  | s, .tick d => some { s with clock := s.clock + d }
  | s, .on r e => (act r s.clock s.shared (s.proc r) e).map fun o =>
      { s with shared := o.1, proc := Function.update s.proc r o.2 }

@[simp] theorem step_tick (s : Cluster ρ τ σ) (d : Nat) :
    step act s (.tick d) = some { s with clock := s.clock + d } := rfl

theorem step_on_eq_some {s t : Cluster ρ τ σ} {r : ρ} {e : ε} :
    step act s (.on r e) = some t ↔ ∃ sh p, act r s.clock s.shared (s.proc r) e = some (sh, p) ∧
      t = { s with shared := sh, proc := Function.update s.proc r p } := by
  simp only [step, Option.map_eq_some_iff, Prod.exists]
  constructor
  · rintro ⟨sh, p, h, rfl⟩
    exact ⟨sh, p, h, rfl⟩
  · rintro ⟨sh, p, h, rfl⟩
    exact ⟨sh, p, h, rfl⟩

/-- What the others do leaves a process where it is. -/
theorem run_proc_of_not_on {s t : Cluster ρ τ σ} {r : ρ} {es : List (Event ρ ε)}
    (hes : ∀ e, .on r e ∉ es) (h : Machine.run (step act) s es = some t) : t.proc r = s.proc r := by
  induction es generalizing s with
  | nil =>
    cases h
    rfl
  | cons e es ih =>
    obtain ⟨u, hu, h⟩ := Machine.run_cons_eq_some.mp h
    rw [ih (fun e' he' => hes e' (List.mem_cons_of_mem _ he')) h]
    cases e with
    | tick d =>
      cases hu
      rfl
    | on r' e' =>
      obtain ⟨sh, p, -, rfl⟩ := step_on_eq_some.mp hu
      have hr : r ≠ r' := fun hr => hes e' (hr ▸ List.mem_cons_self)
      exact Function.update_of_ne hr _ _

/-- `I` holds of the clock and the store, and `J r` of each process `r`
besides. -/
structure Inv (I : Nat → τ → Prop) (J : ρ → Nat → τ → σ → Prop) (s : Cluster ρ τ σ) : Prop where
  shared : I s.clock s.shared
  proc : ∀ r, J r s.clock s.shared (s.proc r)

/-- The three obligations of an interleaving invariant, where the actions
taken meet `C`. -/
structure Keeps (act : Action ρ τ σ ε) (C : ρ → Nat → τ → σ → ε → Prop) (I : Nat → τ → Prop)
    (J : ρ → Nat → τ → σ → Prop) : Prop where
  tick : ∀ c d sh, I c sh → I (c + d) sh ∧ ∀ r p, J r c sh p → J r (c + d) sh p
  own : ∀ r c sh p e sh' p', C r c sh p e → I c sh → J r c sh p → act r c sh p e = some (sh', p') →
    I c sh' ∧ J r c sh' p'
  other : ∀ r c sh p e sh' p', C r c sh p e → I c sh → J r c sh p → act r c sh p e = some (sh', p') →
    ∀ r' q, r' ≠ r → J r' c sh q → J r' c sh' q

/-- `C` as a condition on the events of the interleaving. -/
def On (C : ρ → Nat → τ → σ → ε → Prop) (s : Cluster ρ τ σ) : Event ρ ε → Prop
  | .tick _ => True
  | .on r e => C r s.clock s.shared (s.proc r) e

variable {C : ρ → Nat → τ → σ → ε → Prop} {I : Nat → τ → Prop} {J : ρ → Nat → τ → σ → Prop}

theorem Keeps.step (hk : Keeps act C I J) {s t : Cluster ρ τ σ} {e : Event ρ ε} (hC : On C s e)
    (hs : Inv I J s) (h : Cluster.step act s e = some t) : Inv I J t := by
  cases e with
  | tick d =>
    simp only [step_tick, Option.some.injEq] at h
    subst h
    obtain ⟨hI, hJ⟩ := hk.tick s.clock d s.shared hs.shared
    exact ⟨hI, fun r => hJ r _ (hs.proc r)⟩
  | on r e =>
    obtain ⟨sh, p, ha, rfl⟩ := step_on_eq_some.mp h
    obtain ⟨hI, hJ⟩ := hk.own r _ _ _ _ _ _ hC hs.shared (hs.proc r) ha
    refine ⟨hI, fun r' => ?_⟩
    by_cases hr : r' = r
    · subst hr
      simpa using hJ
    · simpa [Function.update_of_ne hr] using
        hk.other r _ _ _ _ _ _ hC hs.shared (hs.proc r) ha r' _ hr (hs.proc r')

/-- **The interleaving rule**, for runs whose actions all meet `C`. -/
theorem Keeps.run_along (hk : Keeps act C I J) {s t : Cluster ρ τ σ} {es : List (Event ρ ε)}
    (hC : Machine.Along (Cluster.step act) (On C) s es) (hs : Inv I J s)
    (h : Machine.run (Cluster.step act) s es = some t) : Inv I J t :=
  Machine.run_invariant_along (fun _ _ _ hc hi ht => hk.step hc hi ht) hC hs h

omit [DecidableEq ρ] in
theorem on_true {s : Cluster ρ τ σ} {e : Event ρ ε} :
    On (fun _ _ _ _ _ => True) s e := by
  cases e <;> trivial

/-- **The interleaving rule**, for every run. -/
theorem Keeps.run (hk : Keeps act (fun _ _ _ _ _ => True) I J) {s t : Cluster ρ τ σ}
    {es : List (Event ρ ε)} (hs : Inv I J s)
    (h : Machine.run (Cluster.step act) s es = some t) : Inv I J t :=
  Machine.run_invariant (fun _ _ _ hi ht => hk.step on_true hi ht) hs h

end Cluster

end NekoGuard.Lib
