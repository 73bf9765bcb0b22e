/-
Leftmost search for a pattern in a text, and all its matches from left to
right without overlap. A pattern is what it matches at the start of a text;
what it captures may depend on all of that.
-/
import Mathlib.Data.List.Basic

namespace NekoGuard.Lib.Scan

/-- What is captured at the start of a text, and the text after the match,
which is never empty. -/
abbrev Pattern (α γ : Type*) := List α → Option (γ × List α)

variable {α γ : Type*}

/-- The leftmost match: the text before it, what it captures, and the text
after it. -/
def first (p : Pattern α γ) : List α → Option (List α × γ × List α)
  | [] => none
  | x :: s =>
    match p (x :: s) with
    | some m => some ([], m)
    | none => (first p s).map fun m => (x :: m.1, m.2)

/-- The first `n` places after a match or a character passed over. -/
def allFrom (p : Pattern α γ) : Nat → List α → List γ
  | 0, _ => []
  | _, [] => []
  | n + 1, x :: s =>
    match p (x :: s) with
    | some (c, rest) => c :: allFrom p n rest
    | none => allFrom p n s

/-- What all the matches capture. -/
def all (p : Pattern α γ) (s : List α) : List γ := allFrom p s.length s

/-- The leftmost match is a match where the text before it ends. -/
theorem first_eq_some {p : Pattern α γ} {s before after : List α} {c : γ} (h : first p s = some (before, c, after)) :
    ∃ t, s = before ++ t ∧ p t = some (c, after) := by
  induction s generalizing before with
  | nil => cases h
  | cons x s ih =>
    simp only [first] at h
    split at h
    · next m hm =>
      simp only [Option.some.injEq, Prod.mk.injEq] at h
      obtain ⟨rfl, rfl⟩ := h
      exact ⟨x :: s, rfl, hm⟩
    · obtain ⟨m, hm, heq⟩ := Option.map_eq_some_iff.mp h
      simp only [Prod.mk.injEq] at heq
      obtain ⟨rfl, hrest⟩ := heq
      obtain ⟨t, rfl, ht⟩ := @ih m.1 (by rw [hm, ← hrest])
      exact ⟨t, rfl, ht⟩

/-! ## Stretches without a match -/

variable {t : List α → Bool} {p : Pattern α γ} {front mid back s : List α} {x : α}

/-- `t` fails wherever a text begins in `front`, with `back` behind it. -/
def Clear (t : List α → Bool) (front back : List α) : Prop :=
  ∀ a b, front = a ++ b → b ≠ [] → t (b ++ back) = false

@[simp] theorem clear_nil : Clear t [] back := by
  intro a b h hb
  simp_all

theorem clear_cons : Clear t (x :: front) back ↔ t (x :: (front ++ back)) = false ∧ Clear t front back := by
  constructor
  · intro h
    exact ⟨h [] (x :: front) rfl (by simp), fun a b hab hb => h (x :: a) b (by simp [hab]) hb⟩
  · intro ⟨hx, h⟩ a b hab hb
    cases a with
    | nil =>
      obtain rfl : x :: front = b := by simpa using hab
      exact hx
    | cons y a =>
      simp only [List.cons_append, List.cons.injEq] at hab
      exact h a b hab.2 hb

instance decidableClear (t : List α → Bool) (back : List α) : (front : List α) → Decidable (Clear t front back)
  | [] => .isTrue clear_nil
  | _ :: front => @decidable_of_iff _ _ clear_cons.symm (@instDecidableAnd _ _ _ (decidableClear t back front))

theorem clear_append : Clear t (front ++ mid) back ↔ Clear t front (mid ++ back) ∧ Clear t mid back := by
  induction front with
  | nil => simp
  | cons y front ih => rw [List.cons_append, clear_cons, clear_cons, ih, List.append_assoc, and_assoc]

/-- The leftmost match is behind such a stretch. -/
theorem first_append (h : Clear (fun s => (p s).isSome) front back) :
    first p (front ++ back) = (first p back).map fun m => (front ++ m.1, m.2) := by
  induction front with
  | nil => simp
  | cons y front ih =>
    obtain ⟨hy, h⟩ := clear_cons.mp h
    have hy : p (y :: (front ++ back)) = none := by simpa using hy
    rw [List.cons_append, first, hy, ih h, Option.map_map]
    rfl

theorem first_of_match {m : γ × List α} (hs : s ≠ []) (h : p s = some m) : first p s = some ([], m) := by
  obtain ⟨y, s, rfl⟩ := List.exists_cons_of_ne_nil hs
  simp only [first, h]

/-- Where there is a match, there is a leftmost one. -/
theorem first_ne_none (hs : s ≠ []) (h : (p s).isSome) (front : List α) : first p (front ++ s) ≠ none := by
  induction front with
  | nil =>
    obtain ⟨m, hm⟩ := Option.isSome_iff_exists.mp h
    rw [List.nil_append, first_of_match hs hm]
    nofun
  | cons y front ih =>
    rw [List.cons_append, first]
    split
    · nofun
    · simpa using ih

/-! ## All matches -/

/-- A match is never empty. -/
def Consumes (p : Pattern α γ) : Prop := ∀ {s c rest}, p s = some (c, rest) → ∃ w, w ≠ [] ∧ s = w ++ rest

theorem Consumes.length_lt (hp : Consumes p) {c : γ} {rest : List α} (h : p s = some (c, rest)) :
    rest.length < s.length := by
  obtain ⟨w, hw, rfl⟩ := hp h
  have hpos := List.length_pos_of_ne_nil hw
  rw [List.length_append]
  omega

theorem allFrom_eq (hp : Consumes p) {n : Nat} (hn : s.length ≤ n) : allFrom p n s = all p s := by
  have hmore : ∀ {k n : Nat} {s : List α}, s.length ≤ k → s.length ≤ n → allFrom p n s = allFrom p k s := by
    intro k
    induction k with
    | zero =>
      intro n s hk _
      obtain rfl : s = [] := List.length_eq_zero_iff.mp (by omega)
      cases n <;> rfl
    | succ k ih =>
      intro n s hk hn
      cases s with
      | nil => cases n <;> rfl
      | cons y s =>
        simp only [List.length_cons] at hk hn
        obtain ⟨n, rfl⟩ : ∃ m, n = m + 1 := ⟨n - 1, by omega⟩
        simp only [allFrom]
        split
        · next c rest hc =>
          have hlt := hp.length_lt hc
          rw [List.length_cons] at hlt
          rw [ih (by omega) (by omega)]
        · exact ih (by omega) (by omega)
  exact hmore (Nat.le_refl _) hn

theorem all_append (h : Clear (fun s => (p s).isSome) front back) : all p (front ++ back) = all p back := by
  induction front with
  | nil => simp
  | cons y front ih =>
    obtain ⟨hy, h⟩ := clear_cons.mp h
    have hy : p (y :: (front ++ back)) = none := by simpa using hy
    rw [← ih h]
    simp only [all, List.cons_append, List.length_cons, allFrom, hy]

theorem all_of_match (hp : Consumes p) {c : γ} {rest : List α} (h : p s = some (c, rest)) :
    all p s = c :: all p rest := by
  have hlt := hp.length_lt h
  cases s with
  | nil => simp at hlt
  | cons y s =>
    simp only [all, List.length_cons, allFrom, h]
    rw [List.length_cons] at hlt
    rw [allFrom_eq hp (by omega)]
    rfl

theorem length_all_le (p : Pattern α γ) (s : List α) : (all p s).length ≤ s.length := by
  have hfrom : ∀ (n : Nat) (s : List α), (allFrom p n s).length ≤ n := by
    intro n
    induction n with
    | zero => intro s; simp [allFrom]
    | succ n ih =>
      intro s
      cases s with
      | nil => simp [allFrom]
      | cons y s =>
        simp only [allFrom]
        split
        · next c rest _ =>
          have hrest := ih rest
          rw [List.length_cons]
          omega
        · have hrest := ih s
          omega
  exact hfrom s.length s

/-- What is captured was matched somewhere. -/
theorem exists_of_mem_all (hp : Consumes p) {c : γ} (h : c ∈ all p s) :
    ∃ front t rest, s = front ++ t ∧ p t = some (c, rest) := by
  have hfrom : ∀ (n : Nat) (s : List α), c ∈ allFrom p n s → ∃ front t rest, s = front ++ t ∧ p t = some (c, rest) := by
    intro n
    induction n with
    | zero => intro s h; cases h
    | succ n ih =>
      intro s h
      cases s with
      | nil => cases h
      | cons y s =>
        simp only [allFrom] at h
        split at h
        · next d rest hd =>
          rcases List.mem_cons.mp h with rfl | h
          · exact ⟨[], y :: s, rest, rfl, hd⟩
          · obtain ⟨front, t, rest', rfl, ht⟩ := ih rest h
            obtain ⟨w, -, hw⟩ := hp hd
            exact ⟨w ++ front, t, rest', by rw [hw, List.append_assoc], ht⟩
        · obtain ⟨front, t, rest, rfl, ht⟩ := ih s h
          exact ⟨y :: front, t, rest, rfl, ht⟩
  exact hfrom s.length s h

theorem all_of_none (h : p (x :: s) = none) : all p (x :: s) = all p s := by
  simp only [all, List.length_cons, allFrom, h]

/-- What begins in `front` ends there, whatever is behind it. -/
def Splits (p : Pattern α γ) (front back : List α) : Prop :=
  ∀ a b, front = a ++ b → b ≠ [] → p (b ++ back) = (p b).map fun m => (m.1, m.2 ++ back)

theorem Splits.suffix (h : Splits p (front ++ mid) back) : Splits p mid back :=
  fun a b hab hb => h (front ++ a) b (by simp [hab]) hb

theorem all_append_of_splits (hp : Consumes p) (h : Splits p front back) :
    all p (front ++ back) = all p front ++ all p back := by
  induction hn : front.length using Nat.strongRecOn generalizing front with
  | ind n ih =>
    cases front with
    | nil => rfl
    | cons y f =>
      have hy := h [] (y :: f) rfl (by simp)
      cases hm : p (y :: f) with
      | none =>
        have hy : p (y :: (f ++ back)) = none := by rw [← List.cons_append, hy, hm, Option.map_none]
        have hf : Splits p f back := @Splits.suffix _ _ _ [y] f _ h
        rw [all_of_none hm, List.cons_append, all_of_none hy]
        exact ih f.length (by simp [← hn]) hf rfl
      | some m =>
        obtain ⟨c, rest⟩ := m
        obtain ⟨w, -, hw⟩ := hp hm
        have hrest : Splits p rest back := @Splits.suffix _ _ _ w rest _ (hw ▸ h)
        rw [hm] at hy
        rw [all_of_match hp hm, all_of_match hp hy]
        simp only [List.cons_append, ih rest.length (hn ▸ hp.length_lt hm) hrest rfl]

/-! ## Places in a text -/

/-- A place in an append is in one of its parts. -/
theorem append_eq_append_cons {t a rest : List α} (h : s ++ t = a ++ x :: rest) :
    (∃ u, s = a ++ x :: u ∧ rest = u ++ t) ∨ ∃ u, a = s ++ u ∧ t = u ++ x :: rest := by
  rcases List.append_eq_append_iff.mp h with ⟨u, ha, ht⟩ | ⟨u, hs, ht⟩
  · exact .inr ⟨u, ha, ht⟩
  · cases u with
    | nil => exact .inr ⟨[], by simp [hs], by simp [ht]⟩
    | cons y u =>
      obtain ⟨rfl, hrest⟩ := List.cons.inj ht
      exact .inl ⟨u, hs, hrest⟩

/-- Two lists are the same up to the first separator. -/
theorem append_cons_cancel {a b r : List α} (ha : x ∉ a) (hb : x ∉ b) :
    a ++ x :: r = b ++ x :: s ↔ a = b ∧ r = s := by
  constructor
  · intro h
    induction a generalizing b with
    | nil =>
      cases b with
      | nil => exact ⟨rfl, (List.cons.inj h).2⟩
      | cons y b =>
        obtain ⟨rfl, -⟩ := List.cons.inj h
        exact absurd List.mem_cons_self hb
    | cons y a ih =>
      cases b with
      | nil =>
        obtain ⟨rfl, -⟩ := List.cons.inj h
        exact absurd List.mem_cons_self ha
      | cons z b =>
        obtain ⟨rfl, htail⟩ := List.cons.inj h
        obtain ⟨rfl, hr⟩ := ih (fun hx => ha (List.mem_cons_of_mem y hx))
          (fun hx => hb (List.mem_cons_of_mem y hx)) htail
        exact ⟨rfl, hr⟩
  · rintro ⟨rfl, rfl⟩
    rfl

/-! ## Words -/

/-- A word does not go on across a character it can only end with. -/
theorem not_infix_append_of_last {w : List α} (hx : x ∉ w.dropLast) (hfront : ¬w <:+: front ++ [x]) (hback : ¬w <:+: back) :
    ¬w <:+: front ++ x :: back := by
  intro ⟨a, b, h⟩
  have hsplit : (a ++ w) ++ b = (front ++ [x]) ++ back := by simpa using h
  rcases List.append_eq_append_iff.mp hsplit with ⟨u, hu, -⟩ | ⟨u, hu, hrest⟩
  · exact hfront ⟨a, u, by rw [hu]⟩
  · rcases List.append_eq_append_iff.mp hu with ⟨v, hv, rfl⟩ | ⟨v, -, rfl⟩
    · -- It ends at the character, or has it inside.
      cases u with
      | nil =>
        rw [List.append_nil] at hfront
        exact hfront ⟨a, [], by rw [List.append_nil, hv]⟩
      | cons y u =>
        rcases List.eq_nil_or_concat' v with rfl | ⟨v, z, rfl⟩
        · exact hback ⟨[], b, by simp [hrest]⟩
        · have hz : [x] = [z] := (List.append_inj' (show front ++ [x] = (a ++ v) ++ [z] by simpa using hv) rfl).2
          obtain rfl : x = z := by simpa using hz
          rw [List.dropLast_append_of_ne_nil (by simp)] at hx
          simp at hx
    · exact hback ⟨v, b, by rw [hrest]⟩

variable [BEq α] [LawfulBEq α] {w : List α}

theorem isPrefixOf_append_cons (hs : s ≠ []) (hx : x ∉ w.tail) :
    w.isPrefixOf (s ++ x :: back) = w.isPrefixOf s := by
  rw [Bool.eq_iff_iff, List.isPrefixOf_iff_prefix, List.isPrefixOf_iff_prefix]
  constructor
  · intro h
    rcases Nat.lt_or_ge s.length w.length with hlt | hge
    · obtain ⟨u, rfl⟩ := List.prefix_of_prefix_length_le (List.prefix_append s (x :: back)) h (by omega)
      have hrest := (List.prefix_append_right_inj s).mp h
      cases u with
      | nil => simp at hlt
      | cons y u =>
        obtain ⟨rfl, -⟩ := List.cons_prefix_cons.mp hrest
        rw [List.tail_append_of_ne_nil hs] at hx
        exact absurd (by simp) hx
    · exact List.prefix_of_prefix_length_le h (List.prefix_append s _) hge
  · intro h
    exact h.trans (List.prefix_append _ _)

/-- A word is nowhere in a stretch that ends before a character it does not
go on with. -/
theorem clear_word (hx : x ∉ w.tail) (hw : w ≠ []) : Clear w.isPrefixOf front (x :: back) ↔ ¬w <:+: front := by
  constructor
  · rintro h ⟨a, b, rfl⟩
    have hclear := h a (w ++ b) (by simp) (by simp [hw])
    rw [isPrefixOf_append_cons (by simp [hw]) hx, ← Bool.not_eq_true, List.isPrefixOf_iff_prefix] at hclear
    exact hclear (List.prefix_append w b)
  · rintro h a b rfl hb
    rw [isPrefixOf_append_cons hb hx, ← Bool.not_eq_true, List.isPrefixOf_iff_prefix]
    rintro ⟨c, rfl⟩
    exact h ⟨a, c, by simp⟩

/-- What is parted by such a character has it in neither part. -/
theorem not_infix_append (hx : x ∉ w.tail) (hw : w ≠ []) (hfront : ¬w <:+: front) (hback : ¬w <:+: x :: back) :
    ¬w <:+: front ++ x :: back := by
  intro ⟨a, b, h⟩
  have hwhole : Clear w.isPrefixOf (front ++ x :: back) [] := by
    refine clear_append.mpr ⟨(clear_word hx hw).mpr hfront, ?_⟩
    rintro c d hcd -
    rw [List.append_nil, ← Bool.not_eq_true, List.isPrefixOf_iff_prefix]
    rintro ⟨e, rfl⟩
    exact hback ⟨c, e, by simp [hcd]⟩
  have hclear := hwhole a (w ++ b) (by simp [← h]) (by simp [hw])
  rw [List.append_nil, ← Bool.not_eq_true, List.isPrefixOf_iff_prefix] at hclear
  exact hclear (List.prefix_append w b)

/-- Neither has any of many. -/
theorem not_infix_flatten {parts : List (List α)} (hx : x ∉ w.tail) (hw : w ≠ [])
    (h : ∀ part ∈ parts, part.head? = some x ∧ ¬w <:+: part) : ¬w <:+: parts.flatten := by
  induction parts with
  | nil => simpa using hw
  | cons part parts ih =>
    have hfront := (h part (by simp)).2
    have hback := ih fun l hl => h l (by simp [hl])
    rw [List.flatten_cons]
    cases parts with
    | nil => simpa using hfront
    | cons next parts =>
      obtain ⟨t, ht⟩ := List.head?_eq_some_iff.mp (h next (by simp)).1
      rw [List.flatten_cons, ht, List.cons_append] at hback ⊢
      exact not_infix_append hx hw hfront hback

/-- It begins with its first character. -/
theorem clear_of_not_mem {y : α} (hy : y ∉ front) : Clear (y :: w).isPrefixOf front back := by
  rintro a b rfl hb
  obtain ⟨z, b, rfl⟩ := List.exists_cons_of_ne_nil hb
  have hne : y ≠ z := by
    rintro rfl
    simp at hy
  simp [List.isPrefixOf, hne]

/-- A word that occurs occurs first somewhere. -/
theorem exists_first_word (h : w <:+: s) :
    ∃ a b, s = a ++ (w ++ b) ∧ ∀ back, Clear w.isPrefixOf a (w ++ (b ++ back)) := by
  induction s with
  | nil =>
    obtain rfl : w = [] := by simpa using h
    exact ⟨[], [], rfl, fun _ => clear_nil⟩
  | cons y s ih =>
    by_cases hstart : w <+: y :: s
    · obtain ⟨b, hb⟩ := hstart
      exact ⟨[], b, hb.symm, fun _ => clear_nil⟩
    · have hlater := (List.infix_cons_iff.mp h).resolve_left hstart
      obtain ⟨a, b, rfl, hclear⟩ := ih hlater
      refine ⟨y :: a, b, rfl, fun back => clear_cons.mpr ⟨?_, hclear back⟩⟩
      rw [← Bool.not_eq_true, List.isPrefixOf_iff_prefix]
      intro hlong
      refine hstart (List.prefix_of_prefix_length_le hlong ?_ ?_)
      · exact ⟨back, by simp⟩
      · simp only [List.length_cons, List.length_append]
        omega

/-! ## Pieces between separators -/

/-- No piece has the separator. -/
theorem not_mem_of_mem_splitOn {c : α} {piece : List α} (h : piece ∈ s.splitOn c) : c ∉ piece := by
  induction s generalizing piece with
  | nil =>
    have hnil : piece = [] := by simpa using h
    simp [hnil]
  | cons d s ih =>
    obtain ⟨first, rest, hrest⟩ := List.exists_cons_of_ne_nil (List.splitOn_ne_nil c s)
    rw [hrest] at ih
    rw [List.splitOn_cons_eq_if_modifyHead, hrest] at h
    split at h
    · rcases List.mem_cons.mp h with rfl | h
      · exact nofun
      · exact ih h
    · next hd =>
      rw [List.modifyHead_cons] at h
      rcases List.mem_cons.mp h with rfl | h
      · have hfirst := ih List.mem_cons_self
        simp only [List.mem_cons, not_or]
        exact ⟨fun heq => hd (beq_iff_eq.mpr heq.symm), hfirst⟩
      · exact ih (List.mem_cons_of_mem _ h)

end NekoGuard.Lib.Scan
