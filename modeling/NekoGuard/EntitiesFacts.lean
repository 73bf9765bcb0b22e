/-
`decode` undoes `html_escape` (`decode_htmlEscape`), and its loop comes to an
end on every text, without a slice inside a character (`decode_settled`).
-/
import NekoGuard.Entities

namespace NekoGuard.Embed

/-! ## The loop -/

/-- The rounds of `decode` from `rest` to the end, with `out` already
written. -/
inductive Decodes : Str → Str → Str → Prop
  | done {rest out : Str} : Text.find rest ['&'] = none → Decodes rest out (out ++ rest)
  | entity {rest out decoded head tail entity left : Str} {amp : Nat} {c : Char} :
      Text.find rest ['&'] = some amp → Text.sliceTo rest amp = .ok head → Text.sliceFrom rest (amp + 1) = .ok tail →
      entityOf tail = .ok (some entity) → decodeEntity entity = some c →
      Text.sliceFrom tail (Text.byteLen entity + 1) = .ok left →
      Decodes left (out ++ head ++ [c]) decoded → Decodes rest out decoded
  | ampersand {rest out decoded head tail : Str} {amp : Nat} {entity : Option Str} :
      Text.find rest ['&'] = some amp → Text.sliceTo rest amp = .ok head → Text.sliceFrom rest (amp + 1) = .ok tail →
      entityOf tail = .ok entity → entity.bind decodeEntity = none →
      Decodes tail (out ++ head ++ ['&']) decoded → Decodes rest out decoded

variable {rest out head tail entity : Str} {c : Char} {n : Nat}

/-- **The loop ends**: a text of at most `n` characters takes at most `n`
rounds. -/
theorem decodeFrom_settled (hn : rest.length ≤ n) (out : Str) :
    ∃ decoded, decodeFrom n rest out = .ok decoded ∧ Decodes rest out decoded := by
  induction n generalizing rest out with
  | zero =>
    obtain rfl : rest = [] := List.length_eq_zero_iff.mp (by omega)
    exact ⟨out ++ [], rfl, .done rfl⟩
  | succ n ih =>
    cases round_of rest with
    | text hamp =>
      rw [decodeFrom_text _ _ hamp]
      exact ⟨_, rfl, .done (Text.find_char_eq_none hamp)⟩
    | @entity head entity left c hhead hentity hc =>
      have hleft : left.length ≤ n := by
        simp only [List.length_append, List.length_cons] at hn
        omega
      obtain ⟨decoded, hok, hdecodes⟩ := ih hleft (out ++ head ++ [c])
      rw [decodeFrom_entity hhead hentity hc]
      exact ⟨decoded, hok, .entity (Text.find_char hhead _) (Text.sliceTo_append _ _) (Text.sliceFrom_past head _ rfl)
        hentity hc (Text.sliceFrom_past _ _ rfl) hdecodes⟩
    | @ampersand head tail found hhead hfound hc =>
      have htail : tail.length ≤ n := by
        simp only [List.length_append, List.length_cons] at hn
        omega
      obtain ⟨decoded, hok, hdecodes⟩ := ih htail (out ++ head ++ ['&'])
      rw [decodeFrom_ampersand hhead hfound hc]
      exact ⟨decoded, hok, .ampersand (Text.find_char hhead _) (Text.sliceTo_append _ _)
        (Text.sliceFrom_past head _ rfl) hfound hc hdecodes⟩

theorem decode_settled (html : Str) : ∃ decoded, decode html = .ok decoded ∧ Decodes html [] decoded :=
  decodeFrom_settled (Nat.le_refl _) []

/-! ## What is escaped -/

/-- What `html_escape` makes of a character. -/
def escapeChar (c : Char) : Str :=
  if c = '&' then "&amp;".toList
  else if c = '<' then "&lt;".toList
  else if c = '>' then "&gt;".toList
  else if c = '\"' then "&quot;".toList
  else [c]

/-- The four replacements, one character after the other. -/
theorem htmlEscape_eq (value : Str) : htmlEscape value = value.flatMap escapeChar := by
  have hquote : "\"".toList = ['\"'] := rfl
  unfold htmlEscape
  rw [hquote, Text.replace_char, Text.replace_char, Text.replace_char, Text.replace_char, List.flatMap_assoc,
    List.flatMap_assoc, List.flatMap_assoc]
  refine List.flatMap_congr fun c _ => ?_
  unfold escapeChar
  by_cases hamp : c = '&'
  · subst hamp
    decide
  by_cases hlt : c = '<'
  · subst hlt
    decide
  by_cases hgt : c = '>'
  · subst hgt
    decide
  by_cases hquot : c = '\"'
  · subst hquot
    decide
  simp only [hamp, hlt, hgt, hquot, if_false, List.flatMap_singleton]

theorem decodeFrom_cons_of_ne (n : Nat) (hc : c ≠ '&') (rest out : Str) :
    decodeFrom n (c :: rest) out = decodeFrom n rest (out ++ [c]) := by
  have happend : ∀ s : Str, out ++ c :: s = out ++ [c] ++ s := by simp
  cases n with
  | zero => exact congrArg Except.ok (happend rest)
  | succ n =>
    have hhead' : ∀ {head : Str}, '&' ∉ head → '&' ∉ c :: head := fun h => by simp [Ne.symm hc, h]
    cases round_of rest with
    | text hamp => rw [decodeFrom_text _ _ hamp, decodeFrom_text _ _ (hhead' hamp), happend]
    | entity hhead hentity hd =>
      rw [← List.cons_append, decodeFrom_entity (hhead' hhead) hentity hd, decodeFrom_entity hhead hentity hd, happend]
    | ampersand hhead hentity hd =>
      rw [← List.cons_append, decodeFrom_ampersand (hhead' hhead) hentity hd, decodeFrom_ampersand hhead hentity hd,
        happend]

/-- A short entity is read to its `;`. -/
theorem entityOf_eq (hsemi : ';' ∉ entity) (rest : Str) :
    entityOf (entity ++ ';' :: rest) = .ok (if Text.byteLen entity ≤ 8 then some entity else none) := by
  unfold entityOf
  rw [Text.find_char hsemi, Option.filter_some]
  by_cases hlen : Text.byteLen entity ≤ 8
  · simp only [hlen, decide_true, if_true, Text.sliceTo_append]
    rfl
  · simp only [hlen, decide_false, Bool.false_eq_true, if_false]

theorem entityOf_short (hsemi : ';' ∉ entity) (hlen : Text.byteLen entity ≤ 8) (rest : Str) :
    entityOf (entity ++ ';' :: rest) = .ok (some entity) := by
  rw [entityOf_eq hsemi, if_pos hlen]

theorem decodeFrom_escapeChar (n : Nat) (c : Char) (rest out : Str) :
    decodeFrom (n + 1) (escapeChar c ++ rest) out = decodeFrom n rest (out ++ [c]) ∨
      decodeFrom (n + 1) (escapeChar c ++ rest) out = decodeFrom (n + 1) rest (out ++ [c]) := by
  have hentity : ∀ {entity : Str}, ';' ∉ entity → Text.byteLen entity ≤ 8 → decodeEntity entity = some c →
      decodeFrom (n + 1) (([] : Str) ++ '&' :: (entity ++ ';' :: rest)) out = decodeFrom n rest (out ++ [] ++ [c]) :=
    fun hsemi hlen hc => decodeFrom_entity (by simp) (entityOf_short hsemi hlen rest) hc
  unfold escapeChar
  split_ifs with hamp hlt hgt hquot
  · subst hamp
    exact .inl (by simpa using @hentity "amp".toList (by decide) (by decide) rfl)
  · subst hlt
    exact .inl (by simpa using @hentity "lt".toList (by decide) (by decide) rfl)
  · subst hgt
    exact .inl (by simpa using @hentity "gt".toList (by decide) (by decide) rfl)
  · subst hquot
    exact .inl (by simpa using @hentity "quot".toList (by decide) (by decide) rfl)
  · exact .inr (decodeFrom_cons_of_ne _ hamp _ _)

theorem decodeFrom_htmlEscape {s : Str} (hn : s.length ≤ n) (out : Str) :
    decodeFrom n (s.flatMap escapeChar) out = .ok (out ++ s) := by
  induction s generalizing n out with
  | nil => exact decodeFrom_text n out (by simp)
  | cons c s ih =>
    obtain ⟨n, rfl⟩ : ∃ k, n = k + 1 := ⟨n - 1, by simp only [List.length_cons] at hn; omega⟩
    have hs : s.length ≤ n := by simpa using hn
    rw [List.flatMap_cons]
    rcases decodeFrom_escapeChar n c (s.flatMap escapeChar) out with h | h
    · rw [h, ih hs]
      simp
    · rw [h, ih (by omega)]
      simp

theorem length_le_htmlEscape (s : Str) : s.length ≤ (htmlEscape s).length := by
  have hpos : ∀ c, 1 ≤ (escapeChar c).length := by
    intro c
    unfold escapeChar
    split_ifs <;> simp
  rw [htmlEscape_eq]
  induction s with
  | nil => simp
  | cons c s ih =>
    have hc := hpos c
    rw [List.flatMap_cons, List.length_append, List.length_cons]
    omega

theorem decode_htmlEscape (s : Str) : decode (htmlEscape s) = .ok s := by
  unfold decode
  have hlen := length_le_htmlEscape s
  rw [htmlEscape_eq] at hlen ⊢
  exact decodeFrom_htmlEscape hlen []

theorem htmlEscape_injective : Function.Injective htmlEscape := by
  intro s t h
  have hs := decode_htmlEscape s
  rw [h, decode_htmlEscape t] at hs
  cases hs
  rfl

/-- **What is escaped is decoded as it was.** Decoding undoes escaping; it
ends on every text without a slice inside a character; and a value that was
lifted out of a document stays as it is when it is lifted again. -/
theorem decode_undoes (s html : Str) : decode (htmlEscape s) = .ok s ∧
    (∃ decoded, decode html = .ok decoded ∧ Decodes html [] decoded) ∧
    ((decode html).bind fun d => (decode (htmlEscape d)).map htmlEscape) = (decode html).map htmlEscape := by
  refine ⟨decode_htmlEscape s, decode_settled html, ?_⟩
  obtain ⟨decoded, hdecoded⟩ := decode_ok html
  rw [hdecoded]
  simp [Except.bind, Except.map, decode_htmlEscape]

/-! ## Texts in parts -/

/-- What `decode` returns. -/
def decoded (html : Str) : Str := (decode html).toOption.getD []

theorem decode_eq (html : Str) : decode html = .ok (decoded html) := by
  obtain ⟨text, h⟩ := decode_ok html
  rw [decoded, h]
  rfl

/-- Every text has its decoded one, whatever is already written and however
many rounds are left over. -/
theorem exists_decodeFrom (k : Nat) (s : Str) (hs : s.length ≤ k) :
    ∃ text, ∀ n out, s.length ≤ n → decodeFrom n s out = .ok (out ++ text) := by
  induction k generalizing s with
  | zero =>
    obtain rfl : s = [] := List.length_eq_zero_iff.mp (by omega)
    exact ⟨[], fun n out _ => decodeFrom_text n out (by simp)⟩
  | succ k ih =>
    cases round_of s with
    | text hamp => exact ⟨s, fun n out _ => decodeFrom_text n out hamp⟩
    | @entity head entity left c hhead hentity hc =>
      simp only [List.length_append, List.length_cons] at hs ⊢
      obtain ⟨text, htext⟩ := ih left (by omega)
      refine ⟨head ++ c :: text, fun n out hn => ?_⟩
      obtain ⟨n, rfl⟩ : ∃ m, n = m + 1 := ⟨n - 1, by omega⟩
      rw [decodeFrom_entity hhead hentity hc, htext n _ (by omega)]
      simp
    | @ampersand head tail found hhead hfound hc =>
      simp only [List.length_append, List.length_cons] at hs ⊢
      obtain ⟨text, htext⟩ := ih tail (by omega)
      refine ⟨head ++ '&' :: text, fun n out hn => ?_⟩
      obtain ⟨n, rfl⟩ : ∃ m, n = m + 1 := ⟨n - 1, by omega⟩
      rw [decodeFrom_ampersand hhead hfound hc, htext n _ (by omega)]
      simp

theorem decodeFrom_eq {s : Str} (hn : s.length ≤ n) (out : Str) : decodeFrom n s out = .ok (out ++ decoded s) := by
  obtain ⟨text, htext⟩ := exists_decodeFrom s.length s (Nat.le_refl _)
  have hdecoded := decode_eq s
  rw [decode, htext s.length [] (Nat.le_refl _)] at hdecoded
  cases hdecoded
  exact htext n out hn

theorem decoded_cons (hc : c ≠ '&') (s : Str) : decoded (c :: s) = c :: decoded s := by
  have hcons := decodeFrom_eq (Nat.le_refl (c :: s).length) []
  rw [decodeFrom_cons_of_ne _ hc, decodeFrom_eq (by simp)] at hcons
  simpa using hcons.symm

theorem decoded_text {s : Str} (hs : '&' ∉ s) (t : Str) : decoded (s ++ t) = s ++ decoded t := by
  induction s with
  | nil => rfl
  | cons c s ih =>
    simp only [List.mem_cons, not_or] at hs
    rw [List.cons_append, decoded_cons (Ne.symm hs.1), ih hs.2, List.cons_append]

theorem decoded_entity (hhead : '&' ∉ head) (hentity : entityOf (entity ++ ';' :: rest) = .ok (some entity))
    (hc : decodeEntity entity = some c) :
    decoded (head ++ '&' :: (entity ++ ';' :: rest)) = head ++ c :: decoded rest := by
  have hall := decodeFrom_eq (Nat.le_succ (head ++ '&' :: (entity ++ ';' :: rest)).length) []
  rw [decodeFrom_entity hhead hentity hc, decodeFrom_eq (by simp; omega)] at hall
  simpa using hall.symm

theorem decoded_ampersand {found : Option Str} (hhead : '&' ∉ head) (hfound : entityOf tail = .ok found)
    (hc : found.bind decodeEntity = none) : decoded (head ++ '&' :: tail) = head ++ '&' :: decoded tail := by
  have hall := decodeFrom_eq (Nat.le_succ (head ++ '&' :: tail).length) []
  rw [decodeFrom_ampersand hhead hfound hc, decodeFrom_eq (by simp; omega)] at hall
  simpa using hall.symm

/-- A character no entity has. -/
def Foreign (d : Char) : Prop := d ≠ '&' ∧ d ≠ ';' ∧ ∀ e c, decodeEntity e = some c → d ∉ e

theorem entityOf_of_not_mem (htail : ';' ∉ tail) : entityOf tail = .ok none := by
  unfold entityOf
  rw [Text.find_char_eq_none htail]
  rfl

theorem foldlM_toDigit {radix : Nat} {s : Str} {d : Char} (hd : IpAddr.toDigit radix d = none) (hmem : d ∈ s)
    (n : Nat) : s.foldlM (fun n c => (IpAddr.toDigit radix c).map (n * radix + ·)) n = none := by
  induction s generalizing n with
  | nil => cases hmem
  | cons c s ih =>
    rw [List.foldlM_cons, Option.bind_eq_bind, Option.bind_eq_none_iff]
    intro m hm
    rcases List.mem_cons.mp hmem with rfl | hmem
    · simp [hd] at hm
    · exact ih hmem m

theorem fromStrRadix_eq_none {radix : Nat} {s : Str} {d : Char} (hplus : d ≠ '+')
    (hd : IpAddr.toDigit radix d = none) (hmem : d ∈ s) : fromStrRadix radix s = none := by
  have hdigits : d ∈ if Text.startsWith s ['+'] then s.drop 1 else s := by
    split
    · next hstart =>
      obtain ⟨t, rfl⟩ := List.isPrefixOf_iff_prefix.mp hstart
      simpa [hplus] using hmem
    · exact hmem
  unfold fromStrRadix
  simp only [foldlM_toDigit hd hdigits, Option.filter_none, ite_self]

/-- A character in an entity is one of its name or of its number. -/
theorem not_mem_of_decodeEntity {e : Str} {d : Char} (hnames : d ∉ "#+xXampltgtquotaposnbsp".toList)
    (hhex : IpAddr.toDigit 16 d = none) (hdec : IpAddr.toDigit 10 d = none) (hc : decodeEntity e = some c) : d ∉ e := by
  intro hmem
  have hstrip : ∀ {radix : Nat} {pat : Str}, IpAddr.toDigit radix d = none → d ∉ pat →
      (Text.stripPrefix e pat).bind (fromStrRadix radix) = none := by
    intro radix pat hradix hpat
    rw [Option.bind_eq_none_iff]
    intro t ht
    unfold Text.stripPrefix at ht
    split at ht
    · next hstart =>
      cases ht
      obtain ⟨t, rfl⟩ := List.isPrefixOf_iff_prefix.mp hstart
      have hplus : d ≠ '+' := by
        rintro rfl
        exact hnames (by decide)
      rw [List.drop_left]
      exact fromStrRadix_eq_none hplus hradix ((List.mem_append.mp hmem).resolve_left hpat)
    · cases ht
  have hname : ∀ {name : Str}, (∀ c ∈ name, c ∈ "#+xXampltgtquotaposnbsp".toList) → d ∉ name :=
    fun hsub hmem => hnames (hsub d hmem)
  unfold decodeEntity at hc
  split_ifs at hc with h h h h h h
  · exact hname (by decide) (h ▸ hmem)
  · exact hname (by decide) (h ▸ hmem)
  · exact hname (by decide) (h ▸ hmem)
  · exact hname (by decide) (h ▸ hmem)
  · exact hname (by decide) (h ▸ hmem)
  · exact hname (by decide) (h ▸ hmem)
  · have hx := @hstrip 16 "#x".toList hhex (hname (by decide))
    have hX := @hstrip 16 "#X".toList hhex (hname (by decide))
    have hd := @hstrip 10 ['#'] hdec (hname (by decide))
    simp only [hd, Option.or_none] at hc
    cases hs : Text.stripPrefix e "#x".toList with
    | none =>
      rw [hs, Option.none_or, hX] at hc
      cases hc
    | some t =>
      rw [hs] at hx hc
      rw [Option.some_or, hx] at hc
      cases hc

theorem apostrophe_foreign : Foreign '\'' :=
  ⟨by decide, by decide, fun _ _ => not_mem_of_decodeEntity (by decide) (by decide) (by decide)⟩

theorem gt_foreign : Foreign '>' :=
  ⟨by decide, by decide, fun _ _ => not_mem_of_decodeEntity (by decide) (by decide) (by decide)⟩

/-- **Such a character parts a text.** -/
theorem decoded_append_cons {d : Char} (hd : Foreign d) (a b : Str) :
    decoded (a ++ d :: b) = decoded a ++ d :: decoded b := by
  obtain ⟨hamp, hsemi, hentity⟩ := hd
  induction hn : a.length using Nat.strongRecOn generalizing a with
  | ind n ih =>
    by_cases ha : '&' ∈ a
    · obtain ⟨head, tail, rfl, hhead⟩ := List.eq_append_cons_of_mem ha
      have hlen : tail.length < n := by
        rw [← hn, List.length_append, List.length_cons]
        omega
      rw [List.append_assoc, List.cons_append]
      by_cases htail : ';' ∈ tail
      · obtain ⟨entity, left, rfl, hfirst⟩ := List.eq_append_cons_of_mem htail
        have hfound := entityOf_eq hfirst left
        have hfound' := entityOf_eq hfirst (left ++ d :: b)
        cases hc : (if Text.byteLen entity ≤ 8 then some entity else none).bind decodeEntity with
        | none =>
          have hrest := ih _ hlen (entity ++ ';' :: left) rfl
          rw [List.append_assoc, List.cons_append] at hrest ⊢
          rw [decoded_ampersand hhead hfound hc, decoded_ampersand hhead hfound' hc, hrest]
          simp
        | some c =>
          obtain ⟨e, he, hc⟩ := Option.bind_eq_some_iff.mp hc
          split at he
          · cases he
            have hleft : left.length < n := by
              simp only [List.length_append, List.length_cons] at hlen
              omega
            next hshort =>
            rw [if_pos hshort] at hfound hfound'
            rw [List.append_assoc, List.cons_append, decoded_entity hhead hfound hc, decoded_entity hhead hfound' hc,
              ih _ hleft left rfl]
            simp
          · cases he
      · -- An entity that goes on past the text has the character in it.
        have hnone : ∃ found, entityOf (tail ++ d :: b) = .ok found ∧ found.bind decodeEntity = none := by
          obtain ⟨found, hfound, hshape⟩ := entityOf_ok (tail ++ d :: b)
          refine ⟨found, hfound, ?_⟩
          rw [Option.bind_eq_none_iff]
          intro e he
          obtain ⟨rest, heq⟩ := hshape e he
          rw [Option.eq_none_iff_forall_ne_some]
          intro c hc
          refine hentity e c hc ?_
          rcases List.append_eq_append_iff.mp heq with ⟨t, rfl, ht⟩ | ⟨t, rfl, ht⟩
          · cases t with
            | nil => exact absurd (List.cons.inj ht).1 hsemi
            | cons x t => simp [(List.cons.inj ht).1]
          · cases t with
            | nil => exact absurd (List.cons.inj ht).1.symm hsemi
            | cons x t =>
              obtain ⟨rfl, -⟩ := List.cons.inj ht
              simp at htail
        obtain ⟨found, hfound, hc⟩ := hnone
        rw [decoded_ampersand hhead hfound hc, decoded_ampersand hhead (entityOf_of_not_mem htail) rfl,
          ih _ hlen tail rfl]
        simp
    · have hself := decoded_text ha []
      have hempty : decoded [] = [] := rfl
      rw [List.append_nil, hempty, List.append_nil] at hself
      rw [decoded_text ha, decoded_cons hamp, hself]

end NekoGuard.Embed
