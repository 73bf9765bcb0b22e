/-
Replacing the tokens of a text from the left: what a token stands for comes in
its place, and every other character is copied. Tokens that lie apart leave
one result (`Replaced.unique`), and fewer tokens leave the same one exactly
where none of the others occurs (`Replaced.iff_of_le`). Text between an
opening and a closing mark makes such tokens (`Delimited.apart`).
-/
import Mathlib.Data.List.Infix
import NekoGuard.Lib.Scan

namespace NekoGuard.Lib.Replacement

open Scan (append_eq_append_cons append_cons_cancel)

variable {α : Type*} {T U : List α → α → Prop} {s t u rest out out' before after : List α} {c d : α}

/-- `out` is `s` with its tokens replaced: at each character a token is taken
if one begins there. -/
inductive Replaced (T : List α → α → Prop) : List α → List α → Prop
  | nil : Replaced T [] []
  | token {t rest out : List α} {c : α} : T t c → Replaced T rest out → Replaced T (t ++ rest) (c :: out)
  | copy {c : α} {rest out : List α} : (∀ t d, T t d → ¬t <+: c :: rest) → Replaced T rest out →
      Replaced T (c :: rest) (c :: out)

/-- Tokens longer than what they stand for, each for one character, and none
beginning within another. -/
structure Apart (T : List α → α → Prop) : Prop where
  value {t : List α} {c d : α} : T t c → T t d → c = d
  long {t : List α} {c : α} : T t c → 1 < t.length
  next {t u rest before after : List α} {c d : α} : T t c → T u d → t ++ rest = before ++ (u ++ after) →
    before = [] ∧ u = t ∨ ∃ m, before = t ++ m

theorem Apart.mono (hU : Apart U) (hle : ∀ t c, T t c → U t c) : Apart T where
  value h h' := hU.value (hle _ _ h) (hle _ _ h')
  long h := hU.long (hle _ _ h)
  next h h' := hU.next (hle _ _ h) (hle _ _ h')

theorem Apart.ne_nil (hT : Apart T) (ht : T t c) : t ≠ [] := by
  rintro rfl
  have hlong := hT.long ht
  simp at hlong

/-- At most one token begins a text. -/
theorem Apart.eq_of_prefix (hT : Apart T) (ht : T t c) (hu : T u d) (hpre : u <+: t ++ rest) : u = t := by
  obtain ⟨after, hafter⟩ := hpre
  have heq : t ++ rest = [] ++ (u ++ after) := hafter.symm
  rcases hT.next ht hu heq with ⟨-, rfl⟩ | ⟨m, hm⟩
  · rfl
  · exact absurd (List.append_eq_nil_iff.mp hm.symm).1 (hT.ne_nil ht)

/-- Past the first of them, the tokens of a text are those of the rest. -/
theorem Apart.infix_of_ne (hT : Apart T) (ht : T t c) (hu : T u d) (hne : u ≠ t) (hin : u <:+: t ++ rest) :
    u <:+: rest := by
  obtain ⟨before, after, heq⟩ := hin
  rw [List.append_assoc] at heq
  rcases hT.next ht hu heq.symm with ⟨-, rfl⟩ | ⟨m, rfl⟩
  · exact absurd rfl hne
  · rw [List.append_assoc, List.append_cancel_left_eq] at heq
    exact ⟨m, after, by rw [List.append_assoc, heq]⟩

namespace Replaced

/-! ## One step -/

theorem token_inv (hT : Apart T) (ht : T t c) (h : Replaced T (t ++ rest) out) :
    ∃ out', out = c :: out' ∧ Replaced T rest out' := by
  generalize hs : t ++ rest = s at h
  cases h with
  | nil => exact absurd (List.append_eq_nil_iff.mp hs).1 (hT.ne_nil ht)
  | @token u rest' out' d hu hrest =>
    obtain rfl : u = t := hT.eq_of_prefix ht hu ⟨rest', hs.symm⟩
    obtain rfl := List.append_cancel_left hs
    exact ⟨out', by rw [hT.value ht hu], hrest⟩
  | copy hnone => exact absurd ⟨rest, hs⟩ (hnone t c ht)

theorem copy_inv (hnone : ∀ t d, T t d → ¬t <+: c :: rest) (h : Replaced T (c :: rest) out) :
    ∃ out', out = c :: out' ∧ Replaced T rest out' := by
  generalize hs : c :: rest = s at h
  cases h with
  | nil => cases hs
  | @token t rest' _ _ ht => exact absurd ⟨rest', hs.symm⟩ (hnone t _ ht)
  | @copy c' rest' out' _ hrest =>
    cases hs
    exact ⟨out', rfl, hrest⟩

/-- A stretch in which no token begins. -/
theorem stretch_inv (hnone : ∀ a x b, s = a ++ x :: b → ∀ t d, T t d → ¬t <+: x :: (b ++ rest))
    (h : Replaced T (s ++ rest) out) : ∃ out', out = s ++ out' ∧ Replaced T rest out' := by
  induction s generalizing out with
  | nil => exact ⟨out, rfl, h⟩
  | cons c s ih =>
    obtain ⟨out', rfl, hrest⟩ := copy_inv (hnone [] c s rfl) h
    obtain ⟨out'', rfl, hrest'⟩ := ih (fun a x b hs => hnone (c :: a) x b (by rw [hs]; rfl)) hrest
    exact ⟨out'', rfl, hrest'⟩

/-! ## Whole texts -/

/-- **A text has one result.** -/
theorem unique (hT : Apart T) (h : Replaced T s out) (h' : Replaced T s out') : out' = out := by
  induction h generalizing out' with
  | nil =>
    generalize hs : ([] : List α) = s at h'
    cases h' with
    | nil => rfl
    | token ht => exact absurd (List.append_eq_nil_iff.mp hs.symm).1 (hT.ne_nil ht)
    | copy => cases hs
  | token ht _ ih =>
    obtain ⟨out'', rfl, hrest⟩ := token_inv hT ht h'
    rw [ih hrest]
  | copy hnone _ ih =>
    obtain ⟨out'', rfl, hrest⟩ := copy_inv hnone h'
    rw [ih hrest]

theorem total (hT : Apart T) (s : List α) : ∃ out, Replaced T s out := by
  induction hn : s.length using Nat.strongRecOn generalizing s with
  | ind n ih =>
    cases s with
    | nil => exact ⟨[], .nil⟩
    | cons c s =>
      by_cases htoken : ∃ t d, T t d ∧ t <+: c :: s
      · obtain ⟨t, d, ht, rest, heq⟩ := htoken
        have hlong := hT.long ht
        have hlen := congrArg List.length heq
        rw [List.length_append] at hlen
        obtain ⟨out, hout⟩ := ih rest.length (by omega) rest rfl
        exact ⟨d :: out, heq ▸ .token ht hout⟩
      · obtain ⟨out, hout⟩ := ih s.length (by simp [← hn]) s rfl
        exact ⟨c :: out, .copy (fun t d ht hpre => htoken ⟨t, d, ht, hpre⟩) hout⟩

/-- With the tokens that occur, the others do not matter. -/
theorem of_le (hle : ∀ t c, T t c → U t c) (h : Replaced U s out) (hall : ∀ t c, U t c → t <:+: s → T t c) :
    Replaced T s out := by
  induction h with
  | nil => exact .nil
  | @token t rest _ c ht _ ih =>
    have hrest : rest <:+: t ++ rest := (List.suffix_append t rest).isInfix
    exact .token (hall t c ht (List.prefix_append t rest).isInfix) (ih fun u d hu hin => hall u d hu (hin.trans hrest))
  | @copy c rest _ hnone _ ih =>
    have hrest : rest <:+: c :: rest := (List.suffix_cons c rest).isInfix
    exact .copy (fun t d ht => hnone t d (hle t d ht)) (ih fun u d hu hin => hall u d hu (hin.trans hrest))

/-- The more tokens, the shorter the result: it is the one of fewer tokens
only when no other occurs. -/
theorem length_le (hU : Apart U) (hle : ∀ t c, T t c → U t c) (h : Replaced U s out) (h' : Replaced T s out') :
    out.length ≤ out'.length ∧ ((∃ t c, U t c ∧ ¬T t c ∧ t <:+: s) → out.length < out'.length) := by
  have hT : Apart T := hU.mono hle
  induction h generalizing out' with
  | nil =>
    refine ⟨Nat.zero_le _, fun hmore => ?_⟩
    obtain ⟨t, c, ht, -, hin⟩ := hmore
    exact absurd (List.infix_nil.mp hin) (hU.ne_nil ht)
  | @token t rest out c ht _ ih =>
    by_cases hfew : T t c
    · obtain ⟨out'', rfl, hrest⟩ := token_inv hT hfew h'
      obtain ⟨hlen, hlt⟩ := ih hrest
      refine ⟨by simpa using hlen, fun hmore => ?_⟩
      obtain ⟨u, d, hu, hnot, hin⟩ := hmore
      have hne : u ≠ t := by
        rintro rfl
        exact hnot (hU.value ht hu ▸ hfew)
      simpa using hlt ⟨u, d, hu, hnot, hU.infix_of_ne ht hu hne hin⟩
    · -- The token stays as it is, which is longer than what it stands for.
      have hnone : ∀ a x b, t = a ++ x :: b → ∀ u d, T u d → ¬u <+: x :: (b ++ rest) := by
        rintro a x b rfl u d hu ⟨after, heq⟩
        have hsplit : a ++ x :: b ++ rest = a ++ (u ++ after) := by rw [heq, List.append_assoc, List.cons_append]
        rcases hU.next ht (hle u d hu) hsplit with ⟨-, rfl⟩ | ⟨m, hm⟩
        · exact hfew (hU.value ht (hle _ d hu) ▸ hu)
        · have hlen := congrArg List.length hm
          simp only [List.length_append, List.length_cons] at hlen
          omega
      obtain ⟨out'', rfl, hrest⟩ := stretch_inv hnone h'
      have hlen := (ih hrest).1
      have hlong := hU.long ht
      rw [List.length_cons, List.length_append]
      exact ⟨by omega, fun _ => by omega⟩
  | @copy c rest out hnone _ ih =>
    obtain ⟨out'', rfl, hrest⟩ := copy_inv (fun t d ht => hnone t d (hle t d ht)) h'
    obtain ⟨hlen, hlt⟩ := ih hrest
    refine ⟨by simpa using hlen, fun hmore => ?_⟩
    obtain ⟨u, d, hu, hnot, hin⟩ := hmore
    have hin' : u <:+: rest := (List.infix_cons_iff.mp hin).resolve_left (hnone u d hu)
    simpa using hlt ⟨u, d, hu, hnot, hin'⟩

/-- **Fewer tokens leave the same result** exactly where no other token
occurs. -/
theorem iff_of_le (hU : Apart U) (hle : ∀ t c, T t c → U t c) (h : Replaced U s out) :
    Replaced T s out ↔ ∀ t c, U t c → t <:+: s → T t c := by
  refine ⟨fun h' t c ht hin => ?_, of_le hle h⟩
  by_contra hnot
  exact Nat.lt_irrefl _ ((length_le hU hle h h').2 ⟨t, c, ht, hnot, hin⟩)

end Replaced

/-! ## Marks -/

variable {o z : α} {R : List α → α → Prop} {e tail : List α}

/-- What stands between an opening and a closing mark. -/
def Delimited (o z : α) (R : List α → α → Prop) (t : List α) (c : α) : Prop := ∃ e, t = o :: (e ++ [z]) ∧ R e c

theorem Delimited.mono {R' : List α → α → Prop} (hle : ∀ e c, R e c → R' e c) :
    ∀ t c, Delimited o z R t c → Delimited o z R' t c := by
  rintro t c ⟨e, rfl, he⟩
  exact ⟨e, rfl, hle e c he⟩

/-- **Tokens between marks that they do not contain lie apart.** -/
theorem Delimited.apart (hmarks : o ≠ z) (hvalue : ∀ e c d, R e c → R e d → c = d)
    (hfree : ∀ e c, R e c → o ∉ e ∧ z ∉ e) : Apart (Delimited o z R) where
  value := by
    rintro t c d ⟨e, rfl, hc⟩ ⟨e', heq, hd⟩
    obtain rfl : e = e' := by simpa using heq
    exact hvalue e c d hc hd
  long := by
    rintro t c ⟨e, rfl, -⟩
    simp
  next := by
    rintro t u rest before after c d ⟨e, rfl, he⟩ ⟨e', rfl, he'⟩ heq
    simp only [List.cons_append, List.append_assoc, List.nil_append] at heq
    cases before with
    | nil =>
      have hends : e ++ z :: rest = e' ++ z :: after := (List.cons.inj heq).2
      obtain ⟨rfl, -⟩ := (append_cons_cancel (hfree e c he).2 (hfree e' d he').2).mp hends
      exact .inl ⟨rfl, rfl⟩
    | cons x b =>
      obtain ⟨rfl, hrest⟩ := List.cons.inj heq
      rcases append_eq_append_cons hrest with ⟨m, rfl, -⟩ | ⟨m, rfl, hm⟩
      · exact absurd (by simp) (hfree _ c he).1
      · cases m with
        | nil => exact absurd (List.cons.inj hm).1.symm hmarks
        | cons y m =>
          obtain ⟨rfl, -⟩ := List.cons.inj hm
          exact .inr ⟨m, by simp⟩

theorem Delimited.prefix_iff : (∃ t, Delimited o z R t d ∧ t <+: c :: tail) ↔
    c = o ∧ ∃ e after, tail = e ++ z :: after ∧ R e d := by
  refine ⟨fun h => ?_, fun h => ?_⟩
  · obtain ⟨t, ⟨e, rfl, he⟩, after, heq⟩ := h
    obtain ⟨rfl, rfl⟩ := List.cons.inj heq
    exact ⟨rfl, e, after, by simp, he⟩
  · obtain ⟨rfl, e, after, rfl, he⟩ := h
    exact ⟨c :: (e ++ [z]), ⟨e, rfl, he⟩, after, by simp⟩

end NekoGuard.Lib.Replacement
