/-
A machine seen by an observer that only knows a part of it. Where each of its
steps shows as some steps of a smaller machine, or as none, each of its runs
shows as a run of the smaller one (`run_shown`).
-/
import NekoGuard.Lib.Machine

namespace NekoGuard.Lib.Machine

variable {σ τ ε η : Type*} {m : Machine σ ε} {small : Machine τ η}

/-- What shows of a run, when `tr` tells what shows of each event. -/
def shown (m : Machine σ ε) (tr : σ → ε → List η) (s : σ) (es : List ε) : List η :=
  (trace m s es).flatMap fun x => tr x.1 x.2

theorem run_singleton {s t : τ} {e : η} : run small s [e] = some t ↔ small s e = some t := by
  simp [run_cons_eq_some]

/-- **A run seen through a view is a run.** -/
theorem run_shown {view : σ → τ} {tr : σ → ε → List η} {C : σ → ε → Prop} {I : σ → Prop}
    (hinv : ∀ s e t, I s → m s e = some t → I t)
    (hstep : ∀ s e t, C s e → I s → m s e = some t → run small (view s) (tr s e) = some (view t)) {s t : σ}
    {es : List ε} (hC : Along m C s es) (hI : I s) (h : run m s es = some t) :
    run small (view s) (shown m tr s es) = some (view t) := by
  induction es generalizing s with
  | nil =>
    simp only [run_nil, Option.some.injEq] at h
    rw [h]
    rfl
  | cons e es ih =>
    obtain ⟨u, hu, h⟩ := run_cons_eq_some.mp h
    obtain ⟨hc, hC⟩ := hC
    have hrest := ih (hC u hu) (hinv s e u hI hu) h
    rw [shown, trace, hu, Option.elim_some, List.flatMap_cons]
    exact run_append_eq_some.mpr ⟨view u, hstep s e u hc hI hu, hrest⟩

end NekoGuard.Lib.Machine
