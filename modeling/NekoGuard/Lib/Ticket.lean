/-
One-time tickets. A ticket is drawn by someone, issued, taken by someone,
judged by whoever took it, and cashed by them if the judgement was good. A
ledger of such moves is orderly when each of them is legal where the moves
before it leave the ticket; in an orderly ledger no ticket goes through any
of them twice (`Orderly.rank_lt`), and what someone holds is out of everyone
else's reach (`stage_cons_of_holder`).
-/
import Mathlib.Data.List.Basic

namespace NekoGuard.Lib.Ticket

variable {κ ρ : Type*}

/-- Where a ticket is in its life. -/
inductive Stage (ρ : Type*) where
  | unborn
  | drawn (r : ρ)
  | live
  | taken (r : ρ)
  | judged (r : ρ) (good : Bool)
  | cashed
deriving DecidableEq

inductive Act where
  | draw
  | issue
  | take
  | judge (good : Bool)
  | cash
deriving DecidableEq

/-- One move: who does what. -/
structure Move (ρ : Type*) where
  who : ρ
  act : Act

namespace Stage

def rank : Stage ρ → Nat
  | .unborn => 0
  | .drawn _ => 1
  | .live => 2
  | .taken _ => 3
  | .judged _ _ => 4
  | .cashed => 5

/-- Who has the ticket in hand. -/
def holder : Stage ρ → Option ρ
  | .drawn r => some r
  | .taken r => some r
  | .judged r true => some r
  | _ => none

end Stage

/-- Where a move leaves its ticket. -/
def Move.after (m : Move ρ) : Stage ρ :=
  match m.act with
  | .draw => .drawn m.who
  | .issue => .live
  | .take => .taken m.who
  | .judge good => .judged m.who good
  | .cash => .cashed

/-- The stage a move is legal in. -/
def Move.before (m : Move ρ) : Stage ρ :=
  match m.act with
  | .draw => .unborn
  | .issue => .drawn m.who
  | .take => .live
  | .judge _ => .taken m.who
  | .cash => .judged m.who true

theorem Move.rank_after (m : Move ρ) : m.after.rank = m.before.rank + 1 := by
  obtain ⟨r, a⟩ := m
  cases a <;> rfl

/-- Whoever has the ticket a move starts from is the one who moves. -/
theorem Move.who_of_holder {m : Move ρ} {q : ρ} (h : m.before.holder = some q) : m.who = q := by
  obtain ⟨r, a⟩ := m
  cases a <;> simp_all [Move.before, Stage.holder]

/-! ## Ledgers, newest move first -/

variable [DecidableEq κ]

/-- The stage the moves of a ledger leave a ticket in. -/
def stage : List (κ × Move ρ) → κ → Stage ρ
  | [], _ => .unborn
  | (k', m) :: l, k => if k' = k then m.after else stage l k

/-- Every move is legal where the moves before it leave its ticket. -/
def Orderly : List (κ × Move ρ) → Prop
  | [] => True
  | (k, m) :: l => stage l k = m.before ∧ Orderly l

variable {l : List (κ × Move ρ)} {k k' : κ} {m : Move ρ}

@[simp] theorem stage_cons_self : stage ((k, m) :: l) k = m.after := if_pos rfl

theorem stage_cons_of_ne (h : k' ≠ k) : stage ((k', m) :: l) k = stage l k := if_neg h

/-- A ticket in someone's hand stays there whatever the others do. -/
theorem stage_cons_of_holder {q : ρ} (hlegal : stage l k' = m.before)
    (hheld : (stage l k).holder = some q) (hq : m.who ≠ q) :
    stage ((k', m) :: l) k = stage l k := by
  apply stage_cons_of_ne
  intro hk
  subst hk
  rw [hlegal] at hheld
  exact hq (Move.who_of_holder hheld)

/-- A ticket is at least as far as each of its moves took it. -/
theorem Orderly.rank_le (ho : Orderly l) (hm : (k, m) ∈ l) : m.after.rank ≤ (stage l k).rank := by
  induction l with
  | nil => cases hm
  | cons e l ih =>
    obtain ⟨k', m'⟩ := e
    obtain ⟨hlegal, ho⟩ := ho
    by_cases hk : k' = k
    · subst hk
      rw [stage_cons_self]
      cases hm with
      | head => exact Nat.le_refl _
      | tail _ hm =>
        have h := ih ho hm
        rw [hlegal] at h
        rw [Move.rank_after m']
        omega
    · rw [stage_cons_of_ne hk]
      cases hm with
      | head => exact absurd rfl hk
      | tail _ hm => exact ih ho hm

/-- **No ticket goes back.** The moves of a ticket before its latest one all
left it in an earlier stage. -/
theorem Orderly.rank_lt {n : Move ρ} (ho : Orderly ((k, m) :: l)) (hn : (k, n) ∈ l) :
    n.after.rank < m.after.rank := by
  obtain ⟨hlegal, ho⟩ := ho
  have h := ho.rank_le hn
  rw [hlegal] at h
  rw [Move.rank_after m]
  omega

/-- In a log of which the ledger is a view, the entries that took a ticket
to a stage are one. -/
theorem Orderly.entry_unique {α : Type*} {move : α → Option (κ × Move ρ)} {log : List α} {a b : α}
    {ma mb : Move ρ} (ho : Orderly (log.filterMap move)) (ha : a ∈ log) (hb : b ∈ log)
    (hma : move a = some (k, ma)) (hmb : move b = some (k, mb))
    (hrank : ma.after.rank = mb.after.rank) : a = b := by
  induction log with
  | nil => cases ha
  | cons x log ih =>
    have later : ∀ {y : α} {m m' : Move ρ}, y ∈ log → move x = some (k, m) → move y = some (k, m') →
        m'.after.rank < m.after.rank := by
      intro y m m' hy hx hmy
      rw [List.filterMap_cons_some hx] at ho
      exact ho.rank_lt (List.mem_filterMap.mpr ⟨y, hy, hmy⟩)
    have hlog : Orderly (log.filterMap move) := by
      cases hx : move x with
      | none => rwa [List.filterMap_cons_none hx] at ho
      | some e =>
        rw [List.filterMap_cons_some hx] at ho
        exact ho.2
    cases ha with
    | head =>
      cases hb with
      | head => rfl
      | tail _ hb => have := later hb hma hmb; omega
    | tail _ ha =>
      cases hb with
      | head => have := later ha hmb hma; omega
      | tail _ hb => exact ih hlog ha hb

/-- A ticket past the live stage was taken. -/
theorem Orderly.exists_take (ho : Orderly l) (hk : 2 < (stage l k).rank) :
    ∃ m, (k, m) ∈ l ∧ m.act = .take := by
  induction l with
  | nil => cases hk
  | cons e l ih =>
    obtain ⟨k', m⟩ := e
    obtain ⟨hlegal, ho⟩ := ho
    by_cases h : k' = k
    · subst h
      rw [stage_cons_self, Move.rank_after, ← hlegal] at hk
      by_cases hact : m.act = .take
      · exact ⟨m, List.mem_cons_self, hact⟩
      · have hrank : 2 < (stage l k').rank := by
          have hne : (stage l k').rank ≠ 2 := by
            rw [hlegal]
            obtain ⟨r, a⟩ := m
            cases a with
            | take => exact absurd rfl hact
            | _ => exact nofun
          omega
        obtain ⟨m', hm', htake⟩ := ih ho hrank
        exact ⟨m', List.mem_cons_of_mem _ hm', htake⟩
    · rw [stage_cons_of_ne h] at hk
      obtain ⟨m', hm', htake⟩ := ih ho hk
      exact ⟨m', List.mem_cons_of_mem _ hm', htake⟩

/-- A ticket nobody drew is unborn. -/
theorem Orderly.unborn (ho : Orderly l) (hk : ∀ m, (k, m) ∈ l → m.act ≠ .draw) :
    stage l k = .unborn := by
  induction l with
  | nil => rfl
  | cons e l ih =>
    obtain ⟨k', m⟩ := e
    obtain ⟨hlegal, ho⟩ := ho
    have hrest := ih ho fun m' hm' => hk m' (List.mem_cons_of_mem _ hm')
    by_cases h : k' = k
    · subst h
      rw [hrest] at hlegal
      have hact := hk m List.mem_cons_self
      obtain ⟨r, a⟩ := m
      cases a with
      | draw => exact absurd rfl hact
      | _ => cases hlegal
    · rw [stage_cons_of_ne h]
      exact hrest

end NekoGuard.Lib.Ticket
