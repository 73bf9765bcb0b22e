/-
Every address is read back from its own text (`parse_display`), in both
families and in every form the text can take: dotted octets, eight groups,
groups around a `::`, and the v4-mapped form. So equal texts are equal
addresses.
-/
import Mathlib.Data.List.Induction
import NekoGuard.Std.IpAddr

namespace NekoGuard.IpAddr

open Text

/-! ## Digits -/

theorem toDigit_digitChar : ∀ {d : Nat}, d < 16 → toDigit 16 d.digitChar = some d := by
  decide

theorem toDigit_ten {d : Nat} (h : d < 10) : toDigit 10 d.digitChar = some d := by
  revert d; decide

theorem value_append (radix : Nat) (ds : Str) (c : Char) :
    value radix (ds ++ [c]) = value radix ds * radix + (toDigit radix c).getD 0 := by
  simp [value, List.foldl_append]

/-- Printed digits are digits, and stand for the number printed. -/
theorem toDigits_value (radix : Nat) (h1 : 1 < radix)
    (hd : ∀ d < radix, toDigit radix d.digitChar = some d) (n : Nat) :
    (∀ c ∈ Nat.toDigits radix n, isRadixDigit radix c = true) ∧
      value radix (Nat.toDigits radix n) = n := by
  induction n using Nat.strongRecOn with
  | ind n ih =>
    rcases Nat.lt_or_ge n radix with hlt | hge
    · rw [Nat.toDigits_of_lt_base hlt]
      simp [isRadixDigit, value, hd n hlt]
    · rw [Nat.toDigits_of_base_le h1 hge]
      have hmod : n % radix < radix := Nat.mod_lt _ (by omega)
      obtain ⟨hall, hval⟩ := ih (n / radix) (Nat.div_lt_self (by omega) h1)
      refine ⟨fun c hc => ?_, ?_⟩
      · rcases List.mem_append.mp hc with hc | hc
        · exact hall c hc
        · simp only [List.mem_singleton] at hc
          simp [hc, isRadixDigit, hd _ hmod]
      · rw [value_append, hval, hd _ hmod]
        simpa [Nat.mul_comm] using Nat.div_add_mod n radix

/-- The text that follows does not continue a number. -/
def Stops (radix : Nat) (rest : Str) : Prop := ∀ c ∈ rest.head?, isRadixDigit radix c = false

theorem takeWhile_digits {radix : Nat} {ds rest : Str}
    (hds : ∀ c ∈ ds, isRadixDigit radix c = true) (hrest : Stops radix rest) :
    (ds ++ rest).takeWhile (isRadixDigit radix) = ds := by
  rw [List.takeWhile_append_of_pos hds]
  cases rest with
  | nil => simp
  | cons c rest => simp [hrest c (by simp)]

/-- What `readNumber` makes of a run of digits it admits. -/
theorem readNumber_of {radix maxDigits bound n : Nat} {zero : Bool} {ds rest : Str}
    (hds : ∀ c ∈ ds, isRadixDigit radix c = true) (hrest : Stops radix rest) (hne : ds ≠ [])
    (hlen : ds.length ≤ maxDigits) (hval : value radix ds = n) (hbound : n ≤ bound)
    (hzero : zero = false → ds.head? = some '0' → ds.length ≤ 1) :
    readNumber radix maxDigits bound zero (ds ++ rest) = some (n, rest) := by
  have hz : (!zero && (ds ++ rest).head? == some '0' && decide (1 < ds.length)) = false := by
    cases zero with
    | true => simp
    | false =>
      cases ds with
      | nil => exact absurd rfl hne
      | cons c ds =>
        have := hzero rfl
        by_cases hc : c = '0' <;> simp_all
  simp only [readNumber, takeWhile_digits hds hrest]
  rw [if_neg (by simp only [hne, false_or]; omega), hz, hval]
  simp [hbound]

theorem readNumber_hex {g : UInt16} {rest : Str} (hrest : Stops 16 rest) :
    readNumber 16 4 65535 true (hex g ++ rest) = some (g.toNat, rest) := by
  obtain ⟨hall, hval⟩ := toDigits_value 16 (by omega) (fun d => toDigit_digitChar) g.toNat
  have hg := g.toNat_lt
  refine readNumber_of hall hrest Nat.toDigits_ne_nil ?_ hval (by omega) (by simp)
  exact (Nat.length_toDigits_le_iff (by omega) (by omega)).mpr (by omega)

theorem decimal_shape : ∀ n < 256, (decimal n).length ≤ 3 ∧
    ((decimal n).head? = some '0' → (decimal n).length ≤ 1) := by
  decide +kernel

theorem readNumber_decimal {n : Nat} {rest : Str} (hn : n < 256) (hrest : Stops 10 rest) :
    readNumber 10 3 255 false (decimal n ++ rest) = some (n, rest) := by
  obtain ⟨hall, hval⟩ := toDigits_value 10 (by omega) (fun d => toDigit_ten) n
  obtain ⟨hlen, hzero⟩ := decimal_shape n hn
  exact readNumber_of hall hrest Nat.toDigits_ne_nil hlen hval (by omega) fun _ => hzero

/-! ## Separators -/

@[simp] theorem readSeparator_zero {α : Type} (sep : Char) (read : Str → Option (α × Str)) (s : Str) :
    readSeparator sep 0 read s = read s := rfl

@[simp] theorem readSeparator_succ {α : Type} (sep : Char) (i : Nat) (read : Str → Option (α × Str))
    (s : Str) : readSeparator sep (i + 1) read s = (readGivenChar sep s).bind read := rfl

@[simp] theorem readGivenChar_self (c : Char) (s : Str) : readGivenChar c (c :: s) = some s := by
  simp [readGivenChar]

theorem readGivenChar_eq_some {c : Char} {s t : Str} : readGivenChar c s = some t ↔ s = c :: t := by
  cases s with
  | nil => simp [readGivenChar]
  | cons d s => simp [readGivenChar]

/-! ## Four octets -/

theorem readIpv4_displayV4 {a b c d : Nat} {t : Str} (ha : a < 256) (hb : b < 256) (hc : c < 256)
    (hd : d < 256) (ht : Stops 10 t) :
    readIpv4 (displayV4 a b c d ++ t) = some ((a, b, c, d), t) := by
  have dot : ∀ s : Str, Stops 10 ('.' :: s) := fun s x hx => by
    simp only [List.head?_cons, Option.mem_def, Option.some.injEq] at hx
    subst hx
    decide
  simp only [readIpv4, displayV4, List.append_assoc, List.cons_append, Option.bind_eq_bind,
    readSeparator_zero, readSeparator_succ]
  rw [readNumber_decimal ha (dot _)]
  simp only [Option.bind_some, readGivenChar_self]
  rw [readNumber_decimal hb (dot _)]
  simp only [Option.bind_some, readGivenChar_self]
  rw [readNumber_decimal hc (dot _)]
  simp only [Option.bind_some, readGivenChar_self]
  rw [readNumber_decimal hd ht]
  rfl

/-- What `readNumber` leaves is what stands after the digits it read. -/
theorem readNumber_split {radix maxDigits bound n : Nat} {zero : Bool} {s rest : Str}
    (h : readNumber radix maxDigits bound zero s = some (n, rest)) :
    ∃ ds, (∀ c ∈ ds, isRadixDigit radix c = true) ∧ s = ds ++ rest := by
  simp only [readNumber] at h
  split at h
  · cases h
  split at h
  · cases h
  split at h
  · simp only [Option.some.injEq, Prod.mk.injEq] at h
    refine ⟨s.takeWhile (isRadixDigit radix), ?_, ?_⟩
    · exact List.all_eq_true.mp List.all_takeWhile
    · rw [← h.2]
      exact (List.prefix_iff_eq_append.mp (List.takeWhile_prefix _)).symm
  · cases h

/-- No v4 address starts where a group is followed by a colon or the end. -/
theorem readIpv4_none {h rest : Str} (hh : '.' ∉ h) (hrest : rest = [] ∨ ∃ r, rest = ':' :: r) :
    readIpv4 (h ++ rest) = none := by
  rw [Option.eq_none_iff_forall_not_mem]
  intro ⟨q, r⟩ hq
  simp only [readIpv4, readSeparator_zero, readSeparator_succ, Option.bind_eq_bind, Option.mem_def,
    Option.bind_eq_some_iff] at hq
  obtain ⟨⟨a, s⟩, ha, ⟨b, t⟩, ⟨u, hu, -⟩, -⟩ := hq
  obtain ⟨ds, hds, hs⟩ := readNumber_split ha
  -- The digits of the first octet are followed by a dot.
  obtain rfl : s = '.' :: u := readGivenChar_eq_some.mp hu
  rcases List.append_eq_append_iff.mp hs with ⟨k, hk, hr⟩ | ⟨k, hk, hr⟩
  · cases k with
    | nil => rcases hrest with hrest | ⟨r, hrest⟩ <;> simp [hrest] at hr
    | cons x k =>
      rcases hrest with hrest | ⟨r, hrest⟩
      · simp [hrest] at hr
      · have hx : x = ':' := by rw [hrest] at hr; simp at hr; exact hr.1.symm
        have := hds x (by rw [hk]; simp)
        rw [hx] at this
        exact absurd this (by decide)
  · cases k with
    | nil =>
      rcases hrest with hrest | ⟨r, hrest⟩
      · simp [hrest] at hr
      · simp [hrest] at hr
    | cons x k =>
      have hx : x = '.' := by simp at hr; exact hr.1.symm
      exact hh (by rw [hk, hx]; simp)

theorem readIpv4_colon (r : Str) : readIpv4 (':' :: r) = none :=
  readIpv4_none (h := []) (by simp) (.inr ⟨r, rfl⟩)

/-! ## Groups -/

/-- The text of the groups after the first. -/
def tailText (gs : List UInt16) : Str := gs.flatMap fun g => ':' :: hex g

/-- The text ends the groups: nothing more, or the `::`. -/
def Ends (rest : Str) : Prop := rest = [] ∨ ∃ r, rest = ':' :: ':' :: r

theorem fmtSubslice_cons (g : UInt16) (gs : List UInt16) :
    fmtSubslice (g :: gs) = hex g ++ tailText gs := rfl

theorem tailText_cons (g : UInt16) (gs : List UInt16) :
    tailText (g :: gs) = ':' :: (hex g ++ tailText gs) := by
  simp [tailText]

theorem dot_not_mem_hex (g : UInt16) : '.' ∉ hex g := by
  intro h
  have := (toDigits_value 16 (by omega) (fun d => toDigit_digitChar) g.toNat).1 _ h
  exact absurd this (by decide)

/-- After a group comes the end or a colon. -/
theorem after_group (gs : List UInt16) {rest : Str} (hrest : Ends rest) :
    tailText gs ++ rest = [] ∨ ∃ r, tailText gs ++ rest = ':' :: r := by
  cases gs with
  | nil =>
    rcases hrest with rfl | ⟨r, rfl⟩
    · exact .inl rfl
    · exact .inr ⟨':' :: r, rfl⟩
  | cons g gs => exact .inr ⟨_, by rw [tailText_cons]; rfl⟩

theorem stops_of_colon {s : Str} (h : s = [] ∨ ∃ r, s = ':' :: r) : Stops 16 s := by
  intro c hc
  rcases h with rfl | ⟨r, rfl⟩
  · simp at hc
  · simp only [List.head?_cons, Option.mem_def, Option.some.injEq] at hc
    subst hc
    decide

theorem readNumber_colon {r : Str} : readNumber 16 4 65535 true (':' :: r) = none := by
  have : isRadixDigit 16 ':' = false := by decide
  simp [readNumber, this]

/-- Nothing is read where the groups end. -/
theorem readGroups_ends {limit slots i : Nat} {rest : Str} (hrest : Ends rest) :
    readGroups limit slots i rest = ([], false, rest) := by
  cases slots with
  | zero => rfl
  | succ k =>
    have hv4 : readSeparator ':' i readIpv4 rest = none := by
      have nil : readIpv4 [] = none := by simp [readIpv4, readNumber]
      cases i <;> rcases hrest with rfl | ⟨r, rfl⟩ <;> simp [readGivenChar, nil, readIpv4_colon]
    have hnum : readSeparator ':' i (readNumber 16 4 65535 true) rest = none := by
      cases i <;> rcases hrest with rfl | ⟨r, rfl⟩ <;> simp [readGivenChar, readNumber_colon]
      simp [readNumber]
    simp [readGroups, hv4, hnum]

/-- One group is read, and no v4 address in its place. -/
theorem readGroups_group (limit slots i : Nat) (g : UInt16) {s : Str}
    (hs : s = [] ∨ ∃ r, s = ':' :: r) :
    readGroups limit (slots + 1) i ((if i = 0 then [] else [':']) ++ (hex g ++ s)) =
      (g.toNat :: (readGroups limit slots (i + 1) s).1, (readGroups limit slots (i + 1) s).2) := by
  have hv4 : readIpv4 (hex g ++ s) = none := readIpv4_none (dot_not_mem_hex g) hs
  have hnum : readNumber 16 4 65535 true (hex g ++ s) = some (g.toNat, s) :=
    readNumber_hex (stops_of_colon hs)
  cases i <;> simp [readGroups, hv4, hnum]

theorem readGroups_tail {limit : Nat} {rest : Str} (hrest : Ends rest) :
    ∀ {gs : List UInt16} {slots i : Nat}, gs.length ≤ slots → 0 < i →
      readGroups limit slots i (tailText gs ++ rest) = (gs.map (·.toNat), false, rest)
  | [], _, _, _, _ => readGroups_ends hrest
  | g :: gs, slots + 1, i, hlen, hi => by
    have h := readGroups_group limit slots i g (after_group gs hrest)
    rw [if_neg (by omega)] at h
    rw [tailText_cons, List.cons_append, List.append_assoc]
    rw [readGroups_tail hrest (by simpa using hlen) (by omega)] at h
    exact h

/-- **Groups are read back** from their text. -/
theorem readGroups_fmtSubslice (limit slots : Nat) {l : List UInt16} {t : Str}
    (hlen : l.length ≤ slots) (ht : Ends t) :
    readGroups limit slots 0 (fmtSubslice l ++ t) = (l.map (·.toNat), false, t) := by
  cases l with
  | nil => exact readGroups_ends ht
  | cons g gs =>
    obtain ⟨slots, rfl⟩ : ∃ k, slots = k + 1 := ⟨slots - 1, by simp at hlen; omega⟩
    have h := readGroups_group limit slots 0 g (after_group gs ht)
    rw [readGroups_tail ht (by simpa using hlen) (by omega)] at h
    rw [fmtSubslice_cons, List.append_assoc]
    exact h

/-! ## The run of zeros -/

/-- The groups of the span are zeros. -/
def Zeros (gs : List UInt16) (z : Span) : Prop :=
  ∀ j, z.start ≤ j → j < z.start + z.len → gs[j]? = some 0

theorem Zeros.append {gs : List UInt16} {z : Span} (h : Zeros gs z) (g : UInt16) :
    Zeros (gs ++ [g]) z := by
  intro j h1 h2
  have hj := h j h1 h2
  have hlt : j < gs.length := (List.getElem?_eq_some_iff.mp hj).1
  rw [List.getElem?_append_left hlt, hj]

/-- What `spanStep` keeps: both runs are zeros, and the current one ends
where the search stands. -/
def SpanOK (gs : List UInt16) : Span × Span × Nat → Prop
  | (longest, current, i) => i = gs.length ∧ Zeros gs longest ∧ Zeros gs current ∧
      (current.len ≠ 0 → current.start + current.len = i)

theorem spanStep_ok {gs : List UInt16} {st : Span × Span × Nat} (h : SpanOK gs st) (g : UInt16) :
    SpanOK (gs ++ [g]) (spanStep st g) := by
  obtain ⟨longest, current, i⟩ := st
  obtain ⟨rfl, hl, hc, hend⟩ := h
  simp only [spanStep]
  split
  · next hg =>
    subst hg
    generalize hcur : (if current.len = 0 then (⟨gs.length, 1⟩ : Span)
      else { current with len := current.len + 1 }) = cur
    -- The current run reaches one group further.
    have hcur' : Zeros (gs ++ [0]) cur ∧ cur.start + cur.len = gs.length + 1 := by
      subst hcur
      split
      · refine ⟨fun j h1 h2 => ?_, rfl⟩
        obtain rfl : j = gs.length := by simp only at h1 h2; omega
        simp
      · next hne =>
        have hstart := hend hne
        refine ⟨fun j h1 h2 => ?_, by simp only; omega⟩
        simp only at h1 h2
        by_cases hj : j < current.start + current.len
        · exact hc.append 0 j h1 hj
        · obtain rfl : j = gs.length := by omega
          simp
    refine ⟨by simp, ?_, hcur'.1, fun _ => hcur'.2⟩
    split
    · exact hcur'.1
    · exact hl.append 0
  · exact ⟨by simp, hl.append g, fun j h1 h2 => by simp at h2, fun h => absurd rfl h⟩

theorem zeroes_zeros (gs : List UInt16) : Zeros gs (zeroes gs) := by
  have key : SpanOK gs (gs.foldl spanStep (⟨0, 0⟩, ⟨0, 0⟩, 0)) := by
    induction gs using List.reverseRecOn with
    | nil =>
      refine ⟨rfl, ?_, ?_, fun h => absurd rfl h⟩ <;> intro j h1 h2 <;> simp at h2
    | append_singleton gs g ih =>
      rw [List.foldl_append]
      exact spanStep_ok ih g
  exact key.2.1

/-- The groups around a span of zeros and the zeros put back between them. -/
theorem Zeros.split {gs : List UInt16} {z : Span} (h : Zeros gs z) (hpos : 0 < z.len) :
    z.start + z.len ≤ gs.length ∧
      gs = gs.take z.start ++ List.replicate z.len 0 ++ gs.drop (z.start + z.len) := by
  have hlast := h (z.start + z.len - 1) (by omega) (by omega)
  have hle : z.start + z.len ≤ gs.length := by
    have := (List.getElem?_eq_some_iff.mp hlast).1
    omega
  refine ⟨hle, List.ext_getElem? fun j => ?_⟩
  rw [List.append_assoc]
  rcases Nat.lt_or_ge j z.start with h1 | h1
  · rw [List.getElem?_append_left (by simp; omega), List.getElem?_take_of_lt h1]
  rw [List.getElem?_append_right (by simp; omega)]
  have hs : (gs.take z.start).length = z.start := by simp; omega
  rcases Nat.lt_or_ge j (z.start + z.len) with h2 | h2
  · rw [List.getElem?_append_left (by simp; omega), h j h1 h2]
    simp only [hs, List.getElem?_replicate]
    rw [if_pos (by omega)]
  · rw [List.getElem?_append_right (by simp; omega), List.getElem?_drop]
    congr 1
    simp only [hs, List.length_replicate]
    omega

/-! ## The two families -/

theorem readIpAddr_v4 (a b c d : UInt8) : parse (v4 a b c d).display = some (v4 a b c d) := by
  have h := readIpv4_displayV4 (t := []) a.toNat_lt b.toNat_lt c.toNat_lt d.toNat_lt
    (fun x hx => by simp at hx)
  rw [List.append_nil] at h
  simp [parse, readIpAddr, display, h]

/-- Eight groups, as an address and back. -/
theorem ofGroups_toNat (a b c d e f g h : UInt16) :
    ofGroups ([a, b, c, d, e, f, g, h].map (·.toNat)) = some (v6 a b c d e f g h) := by
  simp [ofGroups]

/-- The text of eight groups around a `::`. -/
theorem readIpv6_compressed {gs : List UInt16} {z : Span} (hlen : gs.length = 8) (hz : Zeros gs z)
    (hpos : 1 < z.len) :
    readIpv6 (fmtSubslice (gs.take z.start) ++ "::".toList ++ fmtSubslice (gs.drop (z.start + z.len))) =
      (ofGroups (gs.map (·.toNat))).map (·, []) := by
  obtain ⟨hle, hsplit⟩ := hz.split (by omega)
  have hhead := readGroups_fmtSubslice 8 8 (l := gs.take z.start)
    (t := "::".toList ++ fmtSubslice (gs.drop (z.start + z.len))) (by simp; omega)
    (.inr ⟨_, rfl⟩)
  have htail := readGroups_fmtSubslice (8 - (z.start + 1)) (8 - (z.start + 1))
    (l := gs.drop (z.start + z.len)) (t := []) (by simp; omega) (.inl rfl)
  rw [List.append_nil] at htail
  have hstart : (gs.take z.start).length = z.start := by simp; omega
  have hgap : 8 - (gs.drop (z.start + z.len)).length - z.start = z.len := by simp; omega
  have hback : (gs.take z.start).map (·.toNat) ++ List.replicate z.len 0 ++
      (gs.drop (z.start + z.len)).map (·.toNat) = gs.map (·.toNat) := by
    conv_rhs => rw [hsplit]
    simp
  rw [List.append_assoc]
  simp only [readIpv6, hhead, List.length_map, hstart]
  rw [if_neg (by omega)]
  simp only [show "::".toList = [':', ':'] from rfl, List.cons_append, List.nil_append,
    readGivenChar_self, Option.bind_eq_bind, Option.bind_some, htail, List.length_map, hgap, hback]
  cases ofGroups (gs.map (·.toNat)) <;> rfl

theorem readIpv6_plain {gs : List UInt16} (hlen : gs.length = 8) :
    readIpv6 (fmtSubslice gs) = (ofGroups (gs.map (·.toNat))).map (·, []) := by
  have h := readGroups_fmtSubslice 8 8 (l := gs) (t := []) (by omega) (.inl rfl)
  rw [List.append_nil] at h
  simp only [readIpv6, h, List.length_map, hlen, if_true]

/-- A text of groups is no v4 address. -/
theorem readIpv4_displayV6 (gs : List UInt16) (rest : Str) (hrest : Ends rest) :
    readIpv4 (fmtSubslice gs ++ rest) = none := by
  cases gs with
  | nil => exact readIpv4_none (h := []) (by simp) (hrest.imp id fun ⟨r, h⟩ => ⟨_, h⟩)
  | cons g gs =>
    rw [fmtSubslice_cons, List.append_assoc]
    exact readIpv4_none (dot_not_mem_hex g) (after_group _ hrest)

theorem readIpAddr_v6 {s : Str} {ip : IpAddr} (h4 : readIpv4 s = none)
    (h6 : readIpv6 s = some (ip, [])) : parse s = some ip := by
  simp [parse, readIpAddr, h4, h6]

/-- The v4-mapped form. -/
theorem parse_displayMapped (g h : UInt16) :
    parse (displayMapped g h) = some (v6 0 0 0 0 0 0xffff g h) := by
  unfold displayMapped
  have hg := g.toNat_lt
  have hh := h.toNat_lt
  set q := displayV4 (g.toNat / 256) (g.toNat % 256) (h.toNat / 256) (h.toNat % 256) with hq
  have hv4 : readIpv4 q = some ((g.toNat / 256, g.toNat % 256, h.toNat / 256, h.toNat % 256), []) := by
    have := readIpv4_displayV4 (t := []) (a := g.toNat / 256) (b := g.toNat % 256)
      (c := h.toNat / 256) (d := h.toNat % 256) (by omega) (by omega) (by omega) (by omega)
      (fun x hx => by simp at hx)
    rwa [List.append_nil] at this
  -- `ffff` is read as a group, and after its colon the embedded address.
  have hgroup := readGroups_group 7 6 0 0xffff (s := ':' :: q)
    (.inr ⟨q, rfl⟩)
  have hrest : readGroups 7 6 1 (':' :: q) = ([g.toNat, h.toNat], true, []) := by
    simp [readGroups, hv4]
    omega
  rw [hrest] at hgroup
  have htext : "::ffff:".toList ++ q = ':' :: ':' :: (hex 0xffff ++ ':' :: q) := rfl
  rw [htext]
  refine readIpAddr_v6 (readIpv4_colon _) ?_
  · have hend : readGroups 8 8 0 (':' :: ':' :: (hex 0xffff ++ ':' :: q)) =
        ([], false, ':' :: ':' :: (hex 0xffff ++ ':' :: q)) := readGroups_ends (.inr ⟨_, rfl⟩)
    simp only [if_true, List.nil_append] at hgroup
    simp [readIpv6, hend, hgroup, ofGroups]

/-- The forms of eight groups. -/
theorem parse_displayGroups {gs : List UInt16} (hlen : gs.length = 8) {ip : IpAddr}
    (hof : ofGroups (gs.map (·.toNat)) = some ip) : parse (displayGroups gs) = some ip := by
  simp only [displayGroups]
  split
  · next hz =>
    refine readIpAddr_v6 ?_ ?_
    · rw [List.append_assoc]
      exact readIpv4_displayV6 _ _ (.inr ⟨_, rfl⟩)
    · rw [readIpv6_compressed hlen (zeroes_zeros _) hz, hof]
      rfl
  · refine readIpAddr_v6 ?_ ?_
    · have := readIpv4_displayV6 gs [] (.inl rfl)
      rwa [List.append_nil] at this
    · rw [readIpv6_plain hlen, hof]
      rfl

/-- **Every address is read back from its own text.** -/
theorem parse_display (ip : IpAddr) : parse ip.display = some ip := by
  cases ip with
  | v4 a b c d => exact readIpAddr_v4 a b c d
  | v6 a b c d e f g h =>
    simp only [display]
    split
    · next heq =>
      simp only [List.cons.injEq, and_true] at heq
      obtain ⟨rfl, rfl, rfl, rfl, rfl, rfl⟩ := heq
      exact parse_displayMapped g h
    · exact parse_displayGroups rfl (ofGroups_toNat a b c d e f g h)

/-- Addresses with one text are one address. -/
theorem display_inj {a b : IpAddr} (h : a.display = b.display) : a = b := by
  have ha := parse_display a
  rw [h, parse_display b] at ha
  exact (Option.some.inj ha).symm

end NekoGuard.IpAddr
