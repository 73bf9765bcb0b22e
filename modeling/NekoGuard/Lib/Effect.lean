/-
Programs that keep a state and may fail. What each of their steps does to the
state, all of them do (`Steps.bind`, `Steps.forM`), and a program that
succeeds has succeeded in each of its steps (`bind_eq_ok`).
-/
import Mathlib.Order.Defs.Unbundled

namespace NekoGuard.Lib

/-- A program returns or fails, and leaves a state either way. -/
def Effect (σ ε α : Type) : Type := σ → Except ε α × σ

namespace Effect

variable {σ ε α β : Type}

protected def pure (a : α) : Effect σ ε α := fun s => (.ok a, s)

protected def bind (x : Effect σ ε α) (f : α → Effect σ ε β) : Effect σ ε β := fun s =>
  match x s with
  | (.ok a, t) => f a t
  | (.error e, t) => (.error e, t)

instance : Monad (Effect σ ε) where
  pure := Effect.pure
  bind := Effect.bind

def fail (e : ε) : Effect σ ε α := fun s => (.error e, s)

def read : Effect σ ε σ := fun s => (.ok s, s)

def modify (f : σ → σ) : Effect σ ε Unit := fun s => (.ok (), f s)

/-- Nothing is an error. -/
def orFail (e : ε) : Option α → Effect σ ε α
  | some a => Effect.pure a
  | none => fail e

/-! ## What a program returns -/

variable {x : Effect σ ε α} {f : α → Effect σ ε β} {s t u : σ} {a : α} {b : β} {e : ε}

@[simp] theorem fail_apply : (fail e : Effect σ ε α) s = (.error e, s) := rfl

@[simp] theorem read_apply : (read : Effect σ ε σ) s = (.ok s, s) := rfl

theorem bind_of_ok (h : x s = (.ok a, t)) : (x >>= f) s = f a t := by
  show (match x s with | (.ok a, t) => f a t | (.error e, t) => (.error e, t)) = _
  rw [h]

theorem bind_of_error (h : x s = (.error e, t)) : (x >>= f) s = (.error e, t) := by
  show (match x s with | (.ok a, t) => f a t | (.error e, t) => (.error e, t)) = _
  rw [h]

/-- **A program that succeeds has succeeded step by step.** -/
theorem bind_eq_ok : (x >>= f) s = (.ok b, u) ↔ ∃ a t, x s = (.ok a, t) ∧ f a t = (.ok b, u) := by
  rcases hx : x s with ⟨_ | a, t⟩
  · rw [bind_of_error hx]
    simp
  · rw [bind_of_ok hx]
    constructor
    · intro h
      exact ⟨a, t, rfl, h⟩
    · intro ⟨a', t', ha, h⟩
      cases ha
      exact h

@[simp] theorem orFail_eq_ok {o : Option α} : (orFail e o : Effect σ ε α) s = (.ok a, t) ↔ o = some a ∧ s = t := by
  cases o with
  | none => simp [orFail]
  | some a' => simp [orFail, Effect.pure]

theorem orFail_world (o : Option α) : ((orFail e o : Effect σ ε α) s).2 = s := by
  cases o with
  | none => rfl
  | some a => rfl

/-! ## What a program does to the state -/

/-- Whatever comes of it, the state it leaves is so related to the one it
finds. -/
def Steps (R : σ → σ → Prop) (x : Effect σ ε α) : Prop := ∀ s, R s (x s).2

variable {R : σ → σ → Prop}

theorem Steps.mono {R' : σ → σ → Prop} (h : ∀ s t, R s t → R' s t) (hx : Steps R x) : Steps R' x :=
  fun s => h _ _ (hx s)

section
variable [Std.Refl R]

theorem Steps.pure (a : α) : Steps R (pure a : Effect σ ε α) := fun s => Std.Refl.refl s

theorem Steps.fail (e : ε) : Steps R (fail e : Effect σ ε α) := fun s => Std.Refl.refl s

theorem Steps.read : Steps R (read : Effect σ ε σ) := fun s => Std.Refl.refl s

theorem Steps.orFail (e : ε) (o : Option α) : Steps R (orFail e o : Effect σ ε α) := by
  cases o with
  | none => exact Steps.fail e
  | some a => exact Steps.pure a

end

/-- What comes after `x` does to the state `x` leaves. -/
theorem Steps.after [Std.Refl R] (hf : ∀ a, Steps R (f a)) : R (x s).2 ((x >>= f) s).2 := by
  rcases h : x s with ⟨_ | a, t⟩
  · rw [bind_of_error h]
    exact Std.Refl.refl t
  · rw [bind_of_ok h]
    exact hf a t

theorem Steps.bind [Std.Refl R] [IsTrans σ R] (hx : Steps R x) (hf : ∀ a, Steps R (f a)) : Steps R (x >>= f) :=
  fun s => trans_of R (hx s) (Steps.after hf)

section
variable [Std.Refl R] [IsTrans σ R] {l : List α}

theorem Steps.forM {g : α → Effect σ ε PUnit} (hg : ∀ a ∈ l, Steps R (g a)) : Steps R (l.forM g) := by
  induction l with
  | nil => exact Steps.pure _
  | cons a l ih => exact Steps.bind (hg a List.mem_cons_self) fun _ => ih fun b hb => hg b (List.mem_cons_of_mem _ hb)

theorem Steps.foldlM {g : β → α → Effect σ ε β} (hg : ∀ b a, Steps R (g b a)) (b : β) :
    Steps R (l.foldlM g b) := by
  induction l generalizing b with
  | nil => exact Steps.pure _
  | cons a l ih => exact Steps.bind (hg b a) fun b => ih b

end

/-! ## What a program ends in -/

/-- From `s`, `x` does `R`, and `Q` holds of what it returns if it does. -/
def Ends (R : σ → σ → Prop) (Q : α → σ → Prop) (x : Effect σ ε α) (s : σ) : Prop :=
  R s (x s).2 ∧ ∀ a t, x s = (.ok a, t) → Q a t

section
variable {Q Q' : α → σ → Prop} {P : β → σ → Prop}

theorem Ends.mono (h : ∀ a t, Q a t → Q' a t) (hx : Ends R Q x s) : Ends R Q' x s :=
  ⟨hx.1, fun a t ht => h a t (hx.2 a t ht)⟩

theorem Ends.pure [Std.Refl R] {a : α} (h : Q a s) : Ends R Q (pure a : Effect σ ε α) s :=
  ⟨Std.Refl.refl s, fun _ _ heq => by cases heq; exact h⟩

theorem Ends.fail [Std.Refl R] (e : ε) : Ends R Q (fail e : Effect σ ε α) s :=
  ⟨Std.Refl.refl s, fun _ _ heq => by cases heq⟩

/-- What comes after `x` starts from what `x` ends in. -/
theorem Ends.bind [Std.Refl R] [IsTrans σ R] (hx : Ends R Q x s) (hf : ∀ a t, Q a t → Ends R P (f a) t) :
    Ends R P (x >>= f) s := by
  rcases h : x s with ⟨_ | a, t⟩
  · rw [Ends, bind_of_error h]
    refine ⟨?_, fun _ _ heq => by cases heq⟩
    have hstep := hx.1
    rwa [h] at hstep
  · rw [Ends, bind_of_ok h]
    obtain ⟨hrest, hend⟩ := hf a t (hx.2 a t h)
    have hstep := hx.1
    rw [h] at hstep
    exact ⟨trans_of R hstep hrest, hend⟩

theorem Ends.orFail_bind [Std.Refl R] {o : Option α} (h : ∀ a, o = some a → Ends R P (f a) s) :
    Ends R P (orFail e o >>= f) s := by
  cases o with
  | none => exact Ends.fail e
  | some a => exact h a rfl

theorem Ends.read_bind {g : σ → Effect σ ε β} (h : Ends R P (g s) s) : Ends R P (read >>= g) s := h

theorem Ends.modify_bind [IsTrans σ R] {m : σ → σ} {g : Unit → Effect σ ε β} (hm : R s (m s))
    (h : Ends R P (g ()) (m s)) : Ends R P (modify m >>= g) s :=
  ⟨trans_of R hm h.1, h.2⟩

theorem Ends.modify {m : σ → σ} {Q : Unit → σ → Prop} (hm : R s (m s)) (h : Q () (m s)) :
    Ends R Q (modify m : Effect σ ε Unit) s :=
  ⟨hm, fun _ _ heq => by cases heq; exact h⟩

/-- What each turn of a loop keeps, the loop keeps. -/
theorem Ends.forM [Std.Refl R] [IsTrans σ R] {I : σ → Prop} {g : β → Effect σ ε PUnit} {l : List β}
    (hg : ∀ b ∈ l, ∀ s, I s → Ends R (fun _ => I) (g b) s) (hs : I s) : Ends R (fun _ => I) (l.forM g) s := by
  induction l generalizing s with
  | nil => exact Ends.pure hs
  | cons b l ih =>
    refine (hg b List.mem_cons_self s hs).bind fun _ t ht => ?_
    exact ih (fun c hc => hg c (List.mem_cons_of_mem _ hc)) ht

end

/-! ## Programs over two states -/

section
variable {τ : Type} {view : σ → τ}

/-- `y` does to the view of a state what `x` does to the state. -/
def Agree (view : σ → τ) (x : Effect σ ε α) (y : Effect τ ε α) : Prop :=
  ∀ s, y (view s) = ((x s).1, view (x s).2)

variable {x : Effect σ ε α} {y : Effect τ ε α}

theorem Agree.pure (a : α) : Agree view (pure a : Effect σ ε α) (pure a) := fun _ => rfl

theorem Agree.orFail (e : ε) (o : Option α) : Agree view (orFail e o : Effect σ ε α) (orFail e o) := by
  cases o with
  | none => exact fun _ => rfl
  | some a => exact Agree.pure a

theorem Agree.modify {m : σ → σ} {n : τ → τ} (h : ∀ s, n (view s) = view (m s)) :
    Agree view (modify m : Effect σ ε Unit) (modify n) := fun s => Prod.ext rfl (h s)

theorem Agree.bind {f : α → Effect σ ε β} {g : α → Effect τ ε β} (hx : Agree view x y)
    (hf : ∀ a, Agree view (f a) (g a)) : Agree view (x >>= f) (y >>= g) := by
  intro s
  have hstep := hx s
  rcases h : x s with ⟨_ | a, t⟩
  · rw [h] at hstep
    rw [bind_of_error hstep, bind_of_error h]
  · rw [h] at hstep
    rw [bind_of_ok hstep, bind_of_ok h]
    exact hf a t

theorem Agree.read_bind {f : σ → Effect σ ε β} {g : τ → Effect τ ε β} (h : ∀ s, Agree view (f s) (g (view s))) :
    Agree view (read >>= f) (read >>= g) := fun s => h s s

end

/-! ## What a program writes -/

section
variable {γ : Type} (log : σ → List γ)

/-- The log, newest first, has only grown, by entries that are each so related
to the log they found. -/
def Writes (P : γ → List γ → Prop) (s t : σ) : Prop :=
  log s <:+ log t ∧ ∀ c before, c :: before <:+ log t → (log s).length ≤ before.length → P c before

variable {log} {P Q : γ → List γ → Prop}

instance : Std.Refl (Writes log P) where
  refl s := by
    refine ⟨List.suffix_refl _, fun c before hsuffix hlen => absurd hsuffix.length_le ?_⟩
    rw [List.length_cons]
    omega

instance : IsTrans σ (Writes log P) where
  trans s t u hst htu := by
    refine ⟨hst.1.trans htu.1, fun c before hsuffix hlen => ?_⟩
    rcases Nat.lt_or_ge before.length (log t).length with hold | hnew
    · have holder : c :: before <:+ log t := List.suffix_of_suffix_length_le hsuffix htu.1 hold
      exact hst.2 c before holder hlen
    · exact htu.2 c before hsuffix hnew

theorem Writes.mono (h : ∀ c before, P c before → Q c before) (hw : Writes log P s t) : Writes log Q s t :=
  ⟨hw.1, fun c before hsuffix hlen => h c before (hw.2 c before hsuffix hlen)⟩

theorem Writes.of_cons {c : γ} (h : log t = c :: log s) (hc : P c (log s)) : Writes log P s t := by
  refine ⟨h ▸ List.suffix_cons _ _, fun c' before hsuffix hlen => ?_⟩
  rw [h] at hsuffix
  rcases List.suffix_cons_iff.mp hsuffix with heq | hold
  · cases heq
    exact hc
  · have hle := hold.length_le
    rw [List.length_cons] at hle
    omega

end

end Effect

end NekoGuard.Lib
