/-
What `decode` takes for a character reference: the six names and the numbers
of the grammar, and numbers after a plus sign, as the parser of an integer
takes them. It replaces the references of the grammar and copies the rest of
the text exactly where no number with a sign occurs (`decode_replaces_iff`).
-/
import NekoGuard.EntitiesFacts
import NekoGuard.Lib.Replacement
import NekoGuard.Std.Utf8

namespace NekoGuard.Embed

open Lib.Replacement

/-! ## The grammar -/

/-- The characters that have a name. -/
def names : List (Str × Char) :=
  [("amp".toList, '&'), ("lt".toList, '<'), ("gt".toList, '>'), ("quot".toList, '\"'), ("apos".toList, '\''),
    ("nbsp".toList, '\u00a0')]

/-- Digits, one at least, that number the character. -/
def Number (radix : Nat) (ds : Str) (c : Char) : Prop :=
  ds ≠ [] ∧ (∀ d ∈ ds, IpAddr.isRadixDigit radix d) ∧ c.toNat = IpAddr.value radix ds

/-- What stands between the `&` and the `;` of a reference: a name, or `#` and
a number, with an `x` in between if it is hexadecimal. -/
inductive CharReference : Str → Char → Prop
  | named {name : Str} {c : Char} : (name, c) ∈ names → CharReference name c
  | decimal {ds : Str} {c : Char} : Number 10 ds c → CharReference ('#' :: ds) c
  | hex {x : Char} {ds : Str} {c : Char} : x = 'x' ∨ x = 'X' → Number 16 ds c → CharReference ('#' :: x :: ds) c

/-- A number with a plus sign before its digits. -/
inductive Signed : Str → Char → Prop
  | decimal {ds : Str} {c : Char} : Number 10 ds c → Signed ('#' :: '+' :: ds) c
  | hex {x : Char} {ds : Str} {c : Char} : x = 'x' ∨ x = 'X' → Number 16 ds c → Signed ('#' :: x :: '+' :: ds) c

/-- At most eight bytes between `&` and `;`. -/
def Token (R : Str → Char → Prop) : Str → Char → Prop :=
  Delimited '&' ';' fun e c => Text.byteLen e ≤ 8 ∧ R e c

variable {e ds rest tail html : Str} {c d : Char} {radix : Nat}

/-! ## Numbers -/

theorem toDigit_plus (radix : Nat) : IpAddr.toDigit radix '+' = none := by
  have hrange : ¬('0' ≤ '+' ∧ '+' ≤ '9') ∧ ¬('a' ≤ '+' ∧ '+' ≤ 'z') ∧ ¬('A' ≤ '+' ∧ '+' ≤ 'Z') := by decide
  unfold IpAddr.toDigit
  simp only [hrange, if_false, Nat.lt_irrefl]

theorem not_mem_of_toDigit (hds : ∀ d ∈ ds, IpAddr.isRadixDigit radix d) (hd : IpAddr.toDigit radix d = none) :
    d ∉ ds := by
  intro hmem
  have hdigit := hds d hmem
  unfold IpAddr.isRadixDigit at hdigit
  rw [hd] at hdigit
  cases hdigit

/-- Of digits only, the parser makes their value. -/
theorem foldlM_digits (hds : ∀ d ∈ ds, IpAddr.isRadixDigit radix d) (n : Nat) :
    ds.foldlM (fun n c => (IpAddr.toDigit radix c).map (n * radix + ·)) n =
      some (ds.foldl (fun n c => n * radix + (IpAddr.toDigit radix c).getD 0) n) := by
  induction ds generalizing n with
  | nil => rfl
  | cons c ds ih =>
    rw [List.forall_mem_cons] at hds
    obtain ⟨m, hm⟩ := Option.isSome_iff_exists.mp hds.1
    rw [List.foldlM_cons, List.foldl_cons, hm, Option.map_some, Option.bind_eq_bind, Option.bind_some, Option.getD_some]
    exact ih hds.2 _

/-- What `from_str_radix` makes of the digits. -/
theorem parseDigits_eq_some {n : Nat} : (ds.foldlM (fun n c => (IpAddr.toDigit radix c).map (n * radix + ·)) 0).filter
      (· < 2 ^ 32) = some n ↔ (∀ d ∈ ds, IpAddr.isRadixDigit radix d) ∧ IpAddr.value radix ds = n ∧ n < 2 ^ 32 := by
  by_cases hds : ∀ d ∈ ds, IpAddr.isRadixDigit radix d
  · rw [foldlM_digits hds, Option.filter_eq_some_iff, Option.some_inj, decide_eq_true_iff]
    exact ⟨fun ⟨hvalue, hn⟩ => ⟨hds, hvalue, hn⟩, fun ⟨_, hvalue, hn⟩ => ⟨hvalue, hn⟩⟩
  · have hbad := hds
    push Not at hbad
    obtain ⟨d, hmem, hd⟩ := hbad
    rw [foldlM_toDigit (Option.not_isSome_iff_eq_none.mp hd) hmem]
    simp only [Option.filter_none, hds, false_and, reduceCtorEq]

/-- `from_str_radix` takes digits, and digits after a plus sign. -/
theorem fromStrRadix_eq_some {s : Str} {n : Nat} : fromStrRadix radix s = some n ↔ ∃ ds, (s = ds ∨ s = '+' :: ds) ∧
    ds ≠ [] ∧ (∀ d ∈ ds, IpAddr.isRadixDigit radix d) ∧ IpAddr.value radix ds = n ∧ n < 2 ^ 32 := by
  have hdigits : ∀ ds : Str, (if ds = [] then none else
      (ds.foldlM (fun n c => (IpAddr.toDigit radix c).map (n * radix + ·)) 0).filter (· < 2 ^ 32)) = some n ↔
      ds ≠ [] ∧ (∀ d ∈ ds, IpAddr.isRadixDigit radix d) ∧ IpAddr.value radix ds = n ∧ n < 2 ^ 32 := by
    intro ds
    split
    · next hds => simp [hds]
    · next hds => rw [parseDigits_eq_some, and_iff_right hds]
  unfold fromStrRadix
  simp only [hdigits]
  by_cases hplus : Text.startsWith s ['+']
  · obtain ⟨t, rfl⟩ := List.isPrefixOf_iff_prefix.mp hplus
    rw [if_pos hplus, List.singleton_append, List.drop_succ_cons, List.drop_zero]
    refine ⟨fun ht => ⟨t, .inr rfl, ht⟩, fun h => ?_⟩
    obtain ⟨ds, rfl | heq, hds⟩ := h
    · exact absurd List.mem_cons_self (not_mem_of_toDigit hds.2.1 (toDigit_plus radix))
    · obtain ⟨-, rfl⟩ := List.cons.inj heq
      exact hds
  · rw [if_neg hplus]
    refine ⟨fun hs => ⟨s, .inl rfl, hs⟩, fun h => ?_⟩
    obtain ⟨ds, rfl | rfl, hds⟩ := h
    · exact hds
    · exact absurd rfl hplus

theorem fromU32_eq_some {n : Nat} : fromU32 n = some c ↔ c.toNat = n := by
  unfold fromU32
  refine ⟨fun h => ?_, fun h => ?_⟩
  · split at h
    · next hn =>
      cases h
      exact Utf8.toNat_ofNat_valid hn
    · cases h
  · subst h
    have hvalid : c.toNat.isValidChar := c.valid
    rw [if_pos hvalid, Char.ofNat_toNat]

/-- The characters that the parser reads. -/
theorem number_eq_some {s : Str} : (fromStrRadix radix s).bind fromU32 = some c ↔
    ∃ ds, (s = ds ∨ s = '+' :: ds) ∧ Number radix ds c := by
  have hscalar : c.toNat < 2 ^ 32 := c.val.toNat_lt
  rw [Option.bind_eq_some_iff]
  refine ⟨fun h => ?_, fun h => ?_⟩
  · obtain ⟨n, hn, hc⟩ := h
    obtain ⟨ds, hs, hne, hds, hvalue, -⟩ := fromStrRadix_eq_some.mp hn
    exact ⟨ds, hs, hne, hds, (fromU32_eq_some.mp hc).trans hvalue.symm⟩
  · obtain ⟨ds, hs, hne, hds, hvalue⟩ := h
    exact ⟨c.toNat, fromStrRadix_eq_some.mpr ⟨ds, hs, hne, hds, hvalue.symm, hscalar⟩, fromU32_eq_some.mpr rfl⟩

/-! ## Entities -/

/-- After `#x`, no other parse comes to anything. -/
theorem decodeEntity_hex {x : Char} (hx : x = 'x' ∨ x = 'X') (s : Str) :
    decodeEntity ('#' :: x :: s) = (fromStrRadix 16 s).bind fromU32 := by
  have hdec : fromStrRadix 10 (x :: s) = none := by
    rcases hx with rfl | rfl
    · exact fromStrRadix_eq_none (by decide) (by decide) List.mem_cons_self
    · exact fromStrRadix_eq_none (by decide) (by decide) List.mem_cons_self
  rcases hx with rfl | rfl <;> simp [decodeEntity, Text.stripPrefix, Text.startsWith, hdec]

theorem decodeEntity_decimal {s : Str} (hs : ∀ x ∈ s.head?, x ≠ 'x' ∧ x ≠ 'X') :
    decodeEntity ('#' :: s) = (fromStrRadix 10 s).bind fromU32 := by
  cases s with
  | nil => rfl
  | cons x s =>
    obtain ⟨hlower, hupper⟩ := hs x rfl
    simp [decodeEntity, Text.stripPrefix, Text.startsWith, Ne.symm hlower, Ne.symm hupper]

/-- Each name is that of its character, and begins with no `#`. -/
theorem decodeEntity_of_mem_names : ∀ p ∈ names, decodeEntity p.1 = some p.2 ∧ p.1.head? ≠ some '#' := by
  decide +kernel

theorem decodeEntity_name (he : e.head? ≠ some '#') : decodeEntity e = some c ↔ (e, c) ∈ names := by
  refine ⟨fun h => ?_, fun hname => (decodeEntity_of_mem_names _ hname).1⟩
  have hstrip : ∀ pat : Str, Text.stripPrefix e ('#' :: pat) = none := by
    intro pat
    refine if_neg fun hstart => he ?_
    obtain ⟨t, rfl⟩ := List.isPrefixOf_iff_prefix.mp hstart
    rfl
  have hx : Text.stripPrefix e "#x".toList = none := hstrip ['x']
  have hX : Text.stripPrefix e "#X".toList = none := hstrip ['X']
  have hd : Text.stripPrefix e ['#'] = none := hstrip []
  unfold decodeEntity at h
  simp only [hx, hX, hd, Option.or_none, Option.bind_none] at h
  split_ifs at h with hamp hlt hgt hquot hapos hnbsp <;> cases h
  · exact hamp ▸ by decide
  · exact hlt ▸ by decide
  · exact hgt ▸ by decide
  · exact hquot ▸ by decide
  · exact hapos ▸ by decide
  · exact hnbsp ▸ by decide

theorem reference_name_iff (he : e.head? ≠ some '#') : CharReference e c ∨ Signed e c ↔ (e, c) ∈ names := by
  refine ⟨fun h => ?_, fun hname => .inl (.named hname)⟩
  rcases h with href | hsigned
  · cases href with
    | named hname => exact hname
    | decimal => exact absurd rfl he
    | hex => exact absurd rfl he
  · cases hsigned with
    | decimal => exact absurd rfl he
    | hex => exact absurd rfl he

theorem reference_decimal_iff {s : Str} (hs : ∀ x ∈ s.head?, x ≠ 'x' ∧ x ≠ 'X') :
    CharReference ('#' :: s) c ∨ Signed ('#' :: s) c ↔ ∃ ds, (s = ds ∨ s = '+' :: ds) ∧ Number 10 ds c := by
  refine ⟨fun h => ?_, fun h => ?_⟩
  · rcases h with href | hsigned
    · cases href with
      | named hname => exact absurd rfl (decodeEntity_of_mem_names _ hname).2
      | decimal hnumber => exact ⟨s, .inl rfl, hnumber⟩
      | @hex x _ _ hx => exact absurd hx (not_or.mpr (hs x rfl))
    · cases hsigned with
      | decimal hnumber => exact ⟨_, .inr rfl, hnumber⟩
      | @hex x _ _ hx => exact absurd hx (not_or.mpr (hs x rfl))
  · obtain ⟨ds, rfl | rfl, hnumber⟩ := h
    · exact .inl (.decimal hnumber)
    · exact .inr (.decimal hnumber)

theorem reference_hex_iff {x : Char} {s : Str} (hx : x = 'x' ∨ x = 'X') :
    CharReference ('#' :: x :: s) c ∨ Signed ('#' :: x :: s) c ↔
      ∃ ds, (s = ds ∨ s = '+' :: ds) ∧ Number 16 ds c := by
  -- Either letter is no decimal digit.
  have hletter : IpAddr.toDigit 10 x = none := by
    rcases hx with rfl | rfl
    · decide
    · decide
  refine ⟨fun h => ?_, fun h => ?_⟩
  · rcases h with href | hsigned
    · cases href with
      | named hname => exact absurd rfl (decodeEntity_of_mem_names _ hname).2
      | decimal hnumber => exact absurd List.mem_cons_self (not_mem_of_toDigit hnumber.2.1 hletter)
      | hex _ hnumber => exact ⟨s, .inl rfl, hnumber⟩
    · cases hsigned with
      | decimal => exact absurd hx (by decide)
      | hex _ hnumber => exact ⟨_, .inr rfl, hnumber⟩
  · obtain ⟨ds, rfl | rfl, hnumber⟩ := h
    · exact .inl (.hex hx hnumber)
    · exact .inr (.hex hx hnumber)

/-- **What `decode_entity` takes** is a reference of the grammar, or one with
a sign. -/
theorem decodeEntity_eq_some : decodeEntity e = some c ↔ CharReference e c ∨ Signed e c := by
  by_cases he : e.head? = some '#'
  · obtain ⟨s, rfl⟩ : ∃ s, e = '#' :: s := ⟨e.tail, List.eq_cons_of_mem_head? he⟩
    by_cases hs : ∀ x ∈ s.head?, x ≠ 'x' ∧ x ≠ 'X'
    · rw [decodeEntity_decimal hs, number_eq_some, reference_decimal_iff hs]
    · obtain ⟨x, s, rfl, hx⟩ : ∃ x t, s = x :: t ∧ (x = 'x' ∨ x = 'X') := by
        cases s with
        | nil => exact absurd (by simp) hs
        | cons x t =>
          refine ⟨x, t, rfl, ?_⟩
          by_contra hnot
          exact hs (by simpa using hnot)
      rw [decodeEntity_hex hx, number_eq_some, reference_hex_iff hx]
  · rw [decodeEntity_name he, reference_name_iff he]

/-- An entity has neither mark of a reference. -/
theorem decodeEntity_free (h : decodeEntity e = some c) : '&' ∉ e ∧ ';' ∉ e :=
  ⟨not_mem_of_decodeEntity (by decide) (by decide) (by decide) h,
    not_mem_of_decodeEntity (by decide) (by decide) (by decide) h⟩

/-- A reference of the grammar has no sign. -/
theorem CharReference.not_signed (h : CharReference e c) : ¬Signed e d := by
  have hnames : ∀ p ∈ names, '+' ∉ p.1 := by decide +kernel
  have hplus : '+' ∉ e := by
    cases h with
    | named hname => exact hnames _ hname
    | decimal hnum => simpa using not_mem_of_toDigit hnum.2.1 (toDigit_plus 10)
    | hex hx hnum => rcases hx with rfl | rfl <;> simpa using not_mem_of_toDigit hnum.2.1 (toDigit_plus 16)
  intro hsigned
  cases hsigned with
  | decimal => simp at hplus
  | hex => simp at hplus

/-! ## The text -/

theorem token_prefix_iff {R : Str → Char → Prop} : (∃ t, Token R t d ∧ t <+: c :: rest) ↔
    c = '&' ∧ ∃ e after, rest = e ++ ';' :: after ∧ Text.byteLen e ≤ 8 ∧ R e d := Delimited.prefix_iff

/-- The entities that `decode` replaces. -/
def Accepted (e : Str) (c : Char) : Prop := decodeEntity e = some c

theorem accepted_apart : Apart (Token Accepted) := by
  refine Delimited.apart (by decide) ?_ fun e c h => decodeEntity_free h.2
  rintro e c d ⟨-, hc⟩ ⟨-, hd⟩
  exact Option.some_inj.mp (hc.symm.trans hd)

theorem token_le_accepted : ∀ t c, Token CharReference t c → Token Accepted t c :=
  Delimited.mono fun _ _ h => ⟨h.1, decodeEntity_eq_some.mpr (.inl h.2)⟩

/-- Every text has one with the references of the grammar replaced. -/
theorem existsUnique_replaced (html : Str) : ∃! out, Replaced (Token CharReference) html out := by
  have hapart : Apart (Token CharReference) := accepted_apart.mono token_le_accepted
  obtain ⟨out, hout⟩ := Replaced.total hapart html
  exact ⟨out, hout, fun _ h => hout.unique hapart h⟩

/-- Where no token begins, `decode` reads no entity. -/
theorem entityOf_of_not_accepted (hnone : ∀ t d, Token Accepted t d → ¬t <+: '&' :: tail) :
    ∃ found, entityOf tail = .ok found ∧ found.bind decodeEntity = none := by
  by_cases hsemi : ';' ∈ tail
  · obtain ⟨e, rest, rfl, hfirst⟩ := List.eq_append_cons_of_mem hsemi
    refine ⟨_, entityOf_eq hfirst rest, ?_⟩
    split
    · next hlen =>
      rw [Option.bind_some, Option.eq_none_iff_forall_ne_some]
      intro c hc
      obtain ⟨t, ht, hpre⟩ := (token_prefix_iff (R := Accepted)).mpr ⟨rfl, e, rest, rfl, hlen, hc⟩
      exact hnone t c ht hpre
    · rfl
  · exact ⟨none, entityOf_of_not_mem hsemi, rfl⟩

/-- **`decode` replaces the tokens it accepts**, from the left, and copies
every other character. -/
theorem replaced_decoded (html : Str) : Replaced (Token Accepted) html (decoded html) := by
  induction hn : html.length using Nat.strongRecOn generalizing html with
  | ind n ih =>
    cases html with
    | nil => exact .nil
    | cons c rest =>
      have hlen : rest.length < n := by simp [← hn]
      have hempty : '&' ∉ ([] : Str) := by simp
      by_cases htoken : ∃ d t, Token Accepted t d ∧ t <+: c :: rest
      · obtain ⟨d, htoken⟩ := htoken
        obtain ⟨rfl, e, after, rfl, hshort, hd⟩ := token_prefix_iff.mp htoken
        have hafter : after.length < n := by
          simp only [List.length_append, List.length_cons] at hlen
          omega
        have hdecoded := decoded_entity hempty (entityOf_short (decodeEntity_free hd).2 hshort after) hd
        have hsplit : '&' :: (e ++ ';' :: after) = '&' :: (e ++ [';']) ++ after := by simp
        rw [List.nil_append, List.nil_append] at hdecoded
        rw [hdecoded, hsplit]
        exact .token ⟨e, rfl, hshort, hd⟩ (ih _ hafter after rfl)
      · have hnone : ∀ t d, Token Accepted t d → ¬t <+: c :: rest := fun t d ht hpre => htoken ⟨d, t, ht, hpre⟩
        have hdecoded : decoded (c :: rest) = c :: decoded rest := by
          by_cases hc : c = '&'
          · subst hc
            obtain ⟨found, hfound, hbind⟩ := entityOf_of_not_accepted hnone
            exact decoded_ampersand hempty hfound hbind
          · exact decoded_cons hc rest
        rw [hdecoded]
        exact .copy hnone (ih _ hlen rest rfl)

/-- The tokens of the grammar leave the same text where no number with a sign
occurs. -/
theorem replaced_decoded_iff (html : Str) : Replaced (Token CharReference) html (decoded html) ↔
    ¬∃ before e c after, html = before ++ '&' :: (e ++ ';' :: after) ∧ Text.byteLen e ≤ 8 ∧ Signed e c := by
  rw [Replaced.iff_of_le accepted_apart token_le_accepted (replaced_decoded html)]
  refine ⟨fun hall h => ?_, fun hnone => ?_⟩
  · obtain ⟨before, e, c, after, rfl, hlen, hsigned⟩ := h
    have haccepted : Accepted e c := decodeEntity_eq_some.mpr (.inr hsigned)
    obtain ⟨e', heq, -, href⟩ := hall ('&' :: (e ++ [';'])) c ⟨e, rfl, hlen, haccepted⟩ ⟨before, after, by simp⟩
    obtain rfl : e = e' := by simpa using heq
    exact href.not_signed hsigned
  · intro t c ht hin
    obtain ⟨e, rfl, hlen, haccepted⟩ := ht
    obtain ⟨before, after, rfl⟩ := hin
    rcases decodeEntity_eq_some.mp haccepted with href | hsigned
    · exact ⟨e, rfl, hlen, href⟩
    · exact absurd ⟨before, e, c, after, by simp, hlen, hsigned⟩ hnone

/-- **References are replaced, and the rest is copied**, exactly where no
number with a sign stands for one. -/
theorem decode_replaces_iff (html : Str) : (∃ out, decode html = .ok out ∧ Replaced (Token CharReference) html out) ↔
    ¬∃ before e c after, html = before ++ '&' :: (e ++ ';' :: after) ∧ Text.byteLen e ≤ 8 ∧ Signed e c := by
  rw [← replaced_decoded_iff]
  refine ⟨fun h => ?_, fun hout => ⟨decoded html, decode_eq html, hout⟩⟩
  obtain ⟨out, hok, hout⟩ := h
  rw [decode_eq html] at hok
  cases hok
  exact hout

/-- A plus sign is read over. -/
theorem plus_replaced : decode "&#+39;".toList = .ok ['\''] ∧
    ¬Replaced (Token CharReference) "&#+39;".toList ['\''] := by
  have hdecode : decode "&#+39;".toList = .ok ['\''] := by decide +kernel
  have hdecoded : decoded "&#+39;".toList = ['\''] := by
    rw [decoded, hdecode]
    rfl
  have hnumber : Number 10 ['3', '9'] '\'' := ⟨by decide, by decide, by decide⟩
  have hsigned : Signed "#+39".toList '\'' := .decimal hnumber
  refine ⟨hdecode, fun hout => ?_⟩
  rw [← hdecoded] at hout
  exact (replaced_decoded_iff _).mp hout ⟨[], _, _, [], rfl, by decide, hsigned⟩

end NekoGuard.Embed
