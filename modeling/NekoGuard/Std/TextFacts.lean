/-
Rust's `rfind` and `replace`, on any text: the last occurrence is where
`rfind` says, and what `replace` leaves alone.
-/
import NekoGuard.Lib.Scan
import NekoGuard.Std.Text

namespace NekoGuard.Text

open Lib

variable {s t p pat new a b : Str}

theorem bytes_append (s t : Str) : bytes (s ++ t) = bytes s ++ bytes t := List.flatMap_append

theorem length_bytes (s : Str) : (bytes s).length = byteLen s := by
  induction s with
  | nil => rfl
  | cons c s ih =>
    rw [byteLen_cons, ← ih]
    simp [bytes]

theorem byteLen_le_of_prefix (h : p <+: s) : byteLen p ≤ byteLen s := by
  obtain ⟨t, rfl⟩ := h
  rw [byteLen_append]
  exact Nat.le_add_right _ _

/-- A slice begins at a whole number of characters. -/
theorem sliceFrom_isOk {n : Nat} : (∃ t, sliceFrom s n = .ok t) ↔ ∃ p t, s = p ++ t ∧ byteLen p = n := by
  constructor
  · rintro ⟨t, h⟩
    induction s generalizing n with
    | nil =>
      cases n with
      | zero => exact ⟨[], [], rfl, rfl⟩
      | succ n => cases h
    | cons c s ih =>
      cases n with
      | zero => exact ⟨[], c :: s, rfl, rfl⟩
      | succ n =>
        unfold sliceFrom at h
        split at h
        · next hle =>
          obtain ⟨p, t, rfl, hlen⟩ := ih h
          exact ⟨c :: p, t, rfl, by rw [byteLen_cons]; omega⟩
        · cases h
  · rintro ⟨p, t, hs, hlen⟩
    rw [hs, ← hlen]
    exact ⟨t, sliceFrom_append p t⟩

/-- Only whitespace has no words. -/
theorem splitWhitespace_eq_nil : splitWhitespace s = [] ↔ ∀ c ∈ s, isWhitespace c = true := by
  unfold splitWhitespace
  induction s with
  | nil => simp
  | cons c s ih =>
    rw [List.splitOnP_cons_eq_if_modifyHead, List.forall_mem_cons]
    cases hc : isWhitespace c with
    | true => simpa using ih
    | false =>
      obtain ⟨w, ws, hws⟩ := List.exists_cons_of_ne_nil (List.splitOnP_ne_nil isWhitespace s)
      simp [hws]

theorem splitWhitespace_of_word (hs : s ≠ []) (h : ∀ c ∈ s, isWhitespace c = false) : splitWhitespace s = [s] := by
  simp [splitWhitespace, List.splitOnP_eq_singleton h, hs]

theorem splitWhitespace_word {c : Char} (hs : s ≠ []) (h : ∀ c ∈ s, isWhitespace c = false)
    (hc : isWhitespace c = true) (t : Str) : splitWhitespace (s ++ c :: t) = s :: splitWhitespace t := by
  simp [splitWhitespace, List.splitOnP_append_cons_of_forall_mem h c hc t, hs]

theorem splitFirst_append {c : Char} (hs : c ∉ s) (t : Str) : splitFirst (s ++ c :: t) c = s := by
  simp [splitFirst, List.splitOn_append_cons_self_of_not_mem hs]

theorem stripPrefix_append (s t : Str) : stripPrefix (s ++ t) s = some t := by
  unfold stripPrefix startsWith
  rw [if_pos (List.isPrefixOf_iff_prefix.mpr (List.prefix_append s t)), List.drop_left]

/-! ## Lines -/

@[simp] theorem stripCr_cr (l : Str) : stripCr (l ++ ['\r']) = l := by simp [stripCr]

theorem lines_append {l : Str} (hl : '\n' ∉ l) (rest : Str) : lines (l ++ '\n' :: rest) = stripCr l :: lines rest := by
  have hne := List.splitOn_ne_nil '\n' rest
  simp only [lines, List.splitOn_append_cons_self_of_not_mem hl, List.dropLast_cons_of_ne_nil hne,
    List.getLast?_cons_of_ne_nil hne, List.map_cons, List.cons_append]

theorem lines_crlf {l : Str} (hl : '\n' ∉ l) (rest : Str) : lines (l ++ '\r' :: '\n' :: rest) = l :: lines rest := by
  have hcr : '\n' ∉ l ++ ['\r'] := by simpa using hl
  rw [List.append_cons, lines_append hcr, stripCr_cr]

/-! ## The last occurrence -/

theorem beforeLast_eq_none (hpat : pat ≠ []) (h : beforeLast pat s = none) : ¬pat <:+: s := by
  induction s with
  | nil => simpa using hpat
  | cons c s ih =>
    unfold beforeLast at h
    split at h
    · cases h
    · next hlater =>
      split at h
      · cases h
      · next hstart =>
        intro hin
        rcases List.infix_cons_iff.mp hin with hhere | hthere
        · exact hstart (List.isPrefixOf_iff_prefix.mpr hhere)
        · exact ih hlater hthere

theorem beforeLast_eq_some (hpat : pat ≠ []) (h : beforeLast pat s = some p) :
    (∃ t, s = p ++ (pat ++ t)) ∧ ∀ q t, s = q ++ (pat ++ t) → q.length ≤ p.length := by
  induction s generalizing p with
  | nil =>
    unfold beforeLast at h
    rw [if_neg hpat] at h
    cases h
  | cons c s ih =>
    unfold beforeLast at h
    split at h
    · next p' hlater =>
      cases h
      obtain ⟨⟨t, ht⟩, hlast⟩ := ih hlater
      refine ⟨⟨t, by rw [ht]; rfl⟩, fun q t hq => ?_⟩
      cases q with
      | nil => exact Nat.zero_le _
      | cons d q =>
        have hq : s = q ++ (pat ++ t) := (List.cons.inj hq).2
        exact Nat.succ_le_succ (hlast q t hq)
    · next hlater =>
      split at h
      · next hstart =>
        cases h
        obtain ⟨t, ht⟩ := List.isPrefixOf_iff_prefix.mp hstart
        refine ⟨⟨t, ht.symm⟩, fun q t hq => ?_⟩
        cases q with
        | nil => exact Nat.le_refl _
        | cons d q =>
          have hq : s = q ++ (pat ++ t) := (List.cons.inj hq).2
          exact absurd ⟨q, t, by rw [hq, List.append_assoc]⟩ (beforeLast_eq_none hpat hlater)
      · cases h

/-! ## Replacing -/

theorem replacenFrom_eq (hpat : pat ≠ []) {n k : Nat} (hn : s.length ≤ n) (hk : s.length ≤ k) :
    replacenFrom pat new n k s = replace s pat new := by
  have hlen : 0 < pat.length := List.length_pos_iff.mpr hpat
  have hall : ∀ (m : Nat) (s : Str) (n k n' k' : Nat), s.length ≤ m → s.length ≤ n → s.length ≤ k → s.length ≤ n' →
      s.length ≤ k' → replacenFrom pat new n k s = replacenFrom pat new n' k' s := by
    intro m
    induction m with
    | zero =>
      intro s n k n' k' hm hn hk hn' hk'
      obtain rfl : s = [] := List.length_eq_zero_iff.mp (Nat.le_zero.mp hm)
      cases n <;> cases k <;> cases n' <;> cases k' <;> rfl
    | succ m ih =>
      intro s n k n' k' hm hn hk hn' hk'
      cases s with
      | nil => cases n <;> cases k <;> cases n' <;> cases k' <;> rfl
      | cons c s =>
        simp only [List.length_cons] at hm hn hk hn' hk'
        obtain ⟨n, rfl⟩ := Nat.exists_eq_succ_of_ne_zero (show n ≠ 0 by omega)
        obtain ⟨k, rfl⟩ := Nat.exists_eq_succ_of_ne_zero (show k ≠ 0 by omega)
        obtain ⟨n', rfl⟩ := Nat.exists_eq_succ_of_ne_zero (show n' ≠ 0 by omega)
        obtain ⟨k', rfl⟩ := Nat.exists_eq_succ_of_ne_zero (show k' ≠ 0 by omega)
        simp only [replacenFrom]
        split
        · have hdrop : ((c :: s).drop pat.length).length ≤ s.length := by simp; omega
          rw [ih _ n k n' k' (by omega) (by omega) (by omega) (by omega) (by omega)]
        · rw [ih s n (k + 1) n' (k' + 1) (by omega) (by omega) (by omega) (by omega) (by omega)]
  exact hall s.length s n k _ _ (Nat.le_refl _) hn hk (Nat.le_refl _) (Nat.le_refl _)

@[simp] theorem replace_nil (pat new : Str) : replace [] pat new = [] := rfl

theorem replace_cons_of_not {c : Char} (hpat : pat ≠ []) (h : startsWith (c :: s) pat = false) :
    replace (c :: s) pat new = c :: replace s pat new := by
  unfold replace
  rw [List.length_cons, replacenFrom, h, if_neg Bool.false_ne_true]
  exact congrArg (c :: ·) (replacenFrom_eq hpat (Nat.le_refl _) (Nat.le_succ _))

theorem replacenFrom_zero (n : Nat) (s : Str) : replacenFrom pat new n 0 s = s := by
  cases n <;> rfl

theorem replacenFrom_match (hpat : pat ≠ []) (n k : Nat) (b : Str) :
    replacenFrom pat new (n + 1) (k + 1) (pat ++ b) = new ++ replacenFrom pat new n k b := by
  obtain ⟨c, w, rfl⟩ := List.exists_cons_of_ne_nil hpat
  have hstart : startsWith (c :: (w ++ b)) (c :: w) = true :=
    List.isPrefixOf_iff_prefix.mpr (List.prefix_append (c :: w) b)
  have hdrop : (c :: (w ++ b)).drop (c :: w).length = b := by
    rw [← List.cons_append]
    exact List.drop_left
  rw [List.cons_append, replacenFrom, if_pos hstart, hdrop]

/-- What is before the first occurrence stays. -/
theorem replacenFrom_append (h : Scan.Clear pat.isPrefixOf a b) (n k : Nat) :
    replacenFrom pat new (a.length + n) (k + 1) (a ++ b) = a ++ replacenFrom pat new n (k + 1) b := by
  induction a with
  | nil => simp
  | cons c a ih =>
    obtain ⟨hc, h⟩ := Scan.clear_cons.mp h
    rw [List.length_cons, Nat.add_right_comm, List.cons_append]
    conv_lhs => unfold replacenFrom
    rw [if_neg (by simp [startsWith, hc]), ih h]
    rfl

theorem replacen_one (h : Scan.Clear pat.isPrefixOf a (pat ++ b)) (hpat : pat ≠ []) :
    replacen (a ++ (pat ++ b)) pat new 1 = a ++ (new ++ b) := by
  have hpos : 0 < pat.length := List.length_pos_iff.mpr hpat
  obtain ⟨n, hn⟩ := Nat.exists_eq_add_of_lt (show 0 < (pat ++ b).length by rw [List.length_append]; omega)
  unfold replacen
  rw [List.length_append, replacenFrom_append h, hn, replacenFrom_match hpat, replacenFrom_zero]

/-- Also when nothing is known of what follows. -/
theorem exists_replacen_one (h : Scan.Clear pat.isPrefixOf a b) : ∃ c, replacen (a ++ b) pat new 1 = a ++ c := by
  unfold replacen
  rw [List.length_append, replacenFrom_append h]
  exact ⟨_, rfl⟩

theorem replace_match (hpat : pat ≠ []) (b : Str) : replace (pat ++ b) pat new = new ++ replace b pat new := by
  have hpos : 0 < pat.length := List.length_pos_iff.mpr hpat
  have hlen : (pat ++ b).length = pat.length + b.length := List.length_append
  obtain ⟨n, hn⟩ := Nat.exists_eq_succ_of_ne_zero (show (pat ++ b).length ≠ 0 by omega)
  unfold replace
  rw [hn, replacenFrom_match hpat]
  exact congrArg (new ++ ·) (replacenFrom_eq hpat (by omega) (by omega))

theorem replace_append (hpat : pat ≠ []) (h : Scan.Clear pat.isPrefixOf a b) :
    replace (a ++ b) pat new = a ++ replace b pat new := by
  have hlen : (a ++ b).length = a.length + b.length := List.length_append
  calc replace (a ++ b) pat new
      = replacenFrom pat new (a.length + b.length) ((a ++ b).length + 1) (a ++ b) :=
        (replacenFrom_eq hpat (by omega) (by omega)).symm
    _ = a ++ replacenFrom pat new b.length ((a ++ b).length + 1) b := replacenFrom_append h _ _
    _ = a ++ replace b pat new := congrArg (a ++ ·) (replacenFrom_eq hpat (Nat.le_refl _) (by omega))

theorem clear_of_absent (h : ¬pat <:+: s) : Scan.Clear pat.isPrefixOf s [] := by
  rintro a b rfl -
  rw [List.append_nil, ← Bool.not_eq_true, List.isPrefixOf_iff_prefix]
  rintro ⟨c, rfl⟩
  exact h ⟨a, c, by simp⟩

theorem replace_of_absent (hpat : pat ≠ []) (h : ¬pat <:+: s) : replace s pat new = s := by
  have happend : replace (s ++ []) pat new = s ++ replace [] pat new := replace_append hpat (clear_of_absent h)
  simpa using happend

/-- Where the text has the pattern, it is replaced at its first place. -/
theorem exists_replace (new : Str) (hpat : pat ≠ []) (h : pat <:+: s) : ∃ a b, s = a ++ (pat ++ b) ∧
    Scan.Clear pat.isPrefixOf a (pat ++ b) ∧ replace s pat new = a ++ (new ++ replace b pat new) := by
  obtain ⟨a, b, rfl, hclear⟩ := Scan.exists_first_word h
  have hclear : Scan.Clear pat.isPrefixOf a (pat ++ b) := by simpa using hclear []
  exact ⟨a, b, rfl, hclear, by rw [replace_append hpat hclear, replace_match hpat]⟩

theorem length_replace_le (hpat : pat ≠ []) (hlen : new.length ≤ pat.length) (s : Str) :
    (replace s pat new).length ≤ s.length := by
  have hpos : 0 < pat.length := List.length_pos_iff.mpr hpat
  induction hn : s.length using Nat.strong_induction_on generalizing s with
  | _ n ih =>
    by_cases hin : pat <:+: s
    · obtain ⟨a, b, rfl, -, hreplace⟩ := exists_replace new hpat hin
      have hb := ih b.length (by simp at hn; omega) b rfl
      rw [hreplace]
      simp only [List.length_append] at hn ⊢
      omega
    · rw [replace_of_absent hpat hin, hn]

theorem length_le_replace (hpat : pat ≠ []) (hlen : pat.length ≤ new.length) (s : Str) :
    s.length ≤ (replace s pat new).length := by
  have hpos : 0 < pat.length := List.length_pos_iff.mpr hpat
  induction hn : s.length using Nat.strong_induction_on generalizing s with
  | _ n ih =>
    by_cases hin : pat <:+: s
    · obtain ⟨a, b, rfl, -, hreplace⟩ := exists_replace new hpat hin
      have hb := ih b.length (by simp at hn; omega) b rfl
      rw [hreplace]
      simp only [List.length_append] at hn ⊢
      omega
    · rw [replace_of_absent hpat hin, hn]

/-- The pattern for itself. -/
theorem replace_self (hpat : pat ≠ []) (s : Str) : replace s pat pat = s := by
  have hpos : 0 < pat.length := List.length_pos_iff.mpr hpat
  induction hn : s.length using Nat.strong_induction_on generalizing s with
  | _ n ih =>
    by_cases hin : pat <:+: s
    · obtain ⟨a, b, rfl, -, hreplace⟩ := exists_replace pat hpat hin
      rw [hreplace, ih b.length (by simp at hn; omega) b rfl]
    · exact replace_of_absent hpat hin

/-- **When `replace` changes nothing**: the pattern is not there, or is
replaced by itself. -/
theorem replace_eq_self_iff (hpat : pat ≠ []) : replace s pat new = s ↔ ¬pat <:+: s ∨ new = pat := by
  constructor
  · intro h
    by_contra hnot
    obtain ⟨hin, hne⟩ := not_or.mp hnot
    obtain ⟨a, b, rfl, -, hreplace⟩ := exists_replace new hpat (not_not.mp hin)
    have hrest : new ++ replace b pat new = pat ++ b := List.append_cancel_left (hreplace.symm.trans h)
    rcases Nat.lt_trichotomy new.length pat.length with hlt | heq | hgt
    · have hle := length_replace_le hpat (Nat.le_of_lt hlt) b
      have hlen := congrArg List.length hrest
      simp only [List.length_append] at hlen
      omega
    · exact hne (List.append_inj hrest heq).1
    · have hle := length_le_replace hpat (Nat.le_of_lt hgt) b
      have hlen := congrArg List.length hrest
      simp only [List.length_append] at hlen
      omega
  · rintro (h | rfl)
    · exact replace_of_absent hpat h
    · exact replace_self hpat s

theorem mem_of_mem_replace {c : Char} (hpat : pat ≠ []) (h : c ∈ replace s pat new) : c ∈ s ∨ c ∈ new := by
  have hpos : 0 < pat.length := List.length_pos_iff.mpr hpat
  induction hn : s.length using Nat.strong_induction_on generalizing s with
  | _ n ih =>
    by_cases hin : pat <:+: s
    · obtain ⟨a, b, rfl, -, hreplace⟩ := exists_replace new hpat hin
      rw [hreplace] at h
      simp only [List.mem_append] at h ⊢
      rcases h with h | h | h
      · exact .inl (.inl h)
      · exact .inr h
      · exact (ih b.length (by simp at hn; omega) h rfl).imp_left fun hb => .inr (.inr hb)
    · rw [replace_of_absent hpat hin] at h
      exact .inl h

/-- One replacement at least, by something longer. -/
theorem add_length_le_replace (hpat : pat ≠ []) (hlen : pat.length ≤ new.length) (h : pat <:+: s) :
    s.length + new.length ≤ (replace s pat new).length + pat.length := by
  obtain ⟨a, b, rfl, -, hreplace⟩ := exists_replace new hpat h
  have hb := length_le_replace hpat hlen b
  rw [hreplace]
  simp only [List.length_append]
  omega

theorem replace_length_add_le (hpat : pat ≠ []) (hlen : new.length ≤ pat.length) (h : pat <:+: s) :
    (replace s pat new).length + pat.length ≤ s.length + new.length := by
  obtain ⟨a, b, rfl, -, hreplace⟩ := exists_replace new hpat h
  have hb := length_replace_le hpat hlen b
  rw [hreplace]
  simp only [List.length_append]
  omega

/-- **When two replacements change nothing**, one pattern being a character
longer than the other: no length makes up for the first. -/
theorem replace_replace_eq_iff {q u : Str} (hpat : pat ≠ []) (hlen : q.length = pat.length + 1) (hnew : new ≠ pat) :
    replace (u ++ replace s pat new) q new = u ++ s ↔ ¬pat <:+: s ∧ (¬q <:+: u ++ s ∨ new = q) := by
  have hq : q ≠ [] := by
    rintro rfl
    cases hlen
  by_cases hin : pat <:+: s
  · simp only [hin, not_true_eq_false, false_and, iff_false]
    intro h
    have hall := congrArg List.length h
    by_cases hle : new.length ≤ pat.length
    · -- Neither replacement gives back what the other takes.
      have hfirst := length_replace_le hpat hle s
      by_cases hagain : q <:+: u ++ replace s pat new
      · have hsecond := replace_length_add_le hq (show new.length ≤ q.length by omega) hagain
        simp only [List.length_append] at hall hsecond
        omega
      · rw [replace_of_absent hq hagain] at h
        have hself := (replace_eq_self_iff hpat).mp (List.append_cancel_left h)
        exact hself.elim (fun habsent => habsent hin) hnew
    · have hfirst := add_length_le_replace hpat (show pat.length ≤ new.length by omega) hin
      have hlong : q.length ≤ new.length := by omega
      have hsecond := length_le_replace hq hlong (u ++ replace s pat new)
      simp only [List.length_append] at hall hsecond
      omega
  · rw [replace_of_absent hpat hin, replace_eq_self_iff hq]
    simp [hin]

end NekoGuard.Text
