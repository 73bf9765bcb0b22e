/-
The four patterns on what they are made for: elements written out in full,
with other text around them.
-/
import NekoGuard.ScrapeFacts

namespace NekoGuard.Embed

open Lib

variable {word s t rest : Str} {c : Char}

/-! ## Words -/

theorem afterWord_append (h : afterWord word s = some rest) (t : Str) : afterWord word (s ++ t) = some (rest ++ t) := by
  induction word generalizing s with
  | nil =>
    cases h
    rfl
  | cons p word ih =>
    cases s with
    | nil => cases h
    | cons c s =>
      unfold afterWord at h
      split at h
      · next hc =>
        rw [List.cons_append]
        unfold afterWord
        rw [if_pos hc]
        exact ih h
      · cases h

theorem foldEq_self {p : Char} (hp : p.toLower = p) : foldEq p p = true := by
  simp [foldEq, hp]

/-- Only letters fold. -/
theorem foldEq_eq {p : Char} (hp : ¬(97 ≤ p.toNat ∧ p.toNat ≤ 122)) (h : foldEq c p = true) : c = p := by
  have hk : p ≠ 'k' := by
    rintro rfl
    exact hp (by decide)
  have hs : p ≠ 's' := by
    rintro rfl
    exact hp (by decide)
  simp only [foldEq, beq_eq_false_iff_ne.mpr hk, beq_eq_false_iff_ne.mpr hs, Bool.false_and, Bool.or_false,
    beq_iff_eq] at h
  exact Text.eq_of_toLower hp h

theorem afterWord_self (hword : ∀ p ∈ word, p.toLower = p) (s : Str) : afterWord word (word ++ s) = some s := by
  induction word with
  | nil => rfl
  | cons p word ih =>
    rw [List.cons_append]
    unfold afterWord
    rw [if_pos (foldEq_self (hword p (by simp)))]
    exact ih fun q hq => hword q (by simp [hq])

/-- A tag begins with its `<`. -/
theorem exists_of_afterWord_lt (h : afterWord ('<' :: word) s = some rest) :
    ∃ t, s = '<' :: t ∧ afterWord word t = some rest := by
  cases s with
  | nil => cases h
  | cons c s =>
    unfold afterWord at h
    split at h
    · next hc => exact ⟨s, by rw [foldEq_eq (by decide) hc], h⟩
    · cases h

theorem length_of_afterWord (h : afterWord word s = some rest) : s.length = word.length + rest.length := by
  induction word generalizing s with
  | nil =>
    cases h
    simp
  | cons p word ih =>
    cases s with
    | nil => cases h
    | cons c s =>
      unfold afterWord at h
      split at h
      · simp only [List.length_cons, ih h]
        omega
      · cases h

theorem through_append_cons (hs : c ∉ s) (t : Str) : through c (s ++ c :: t) = some (s ++ [c], t) := by
  have htake : (s ++ c :: t).takeWhile (· ≠ c) = s := by
    rw [List.takeWhile_append_of_pos fun d hd => by
      have hne : d ≠ c := fun h => hs (h ▸ hd)
      simpa using hne]
    simp
  have hdrop := List.takeWhile_append_dropWhile (p := (· ≠ c)) (l := s ++ c :: t)
  rw [htake] at hdrop
  unfold through
  rw [if_pos (by simp), htake, List.append_cancel_left hdrop]
  rfl

/-! ## Titles -/

/-- `</title`, whitespace and `>`. -/
theorem titleEndRe_append {closing ws : Str} (h : afterWord "</title".toList closing = some (ws ++ ['>']))
    (hws : ∀ c ∈ ws, Text.isWhitespace c = true) (t : Str) : titleEndRe (closing ++ t) = some ((), t) := by
  have hdrop : (ws ++ ['>'] ++ t).dropWhile Text.isWhitespace = '>' :: t := by
    rw [List.append_assoc, List.dropWhile_append_of_pos hws]
    rfl
  unfold titleEndRe
  simp only [afterWord_append h, Option.map_some, hdrop]

theorem titleRe_eq {body m : Str} (hword : afterWord "<title".toList s = some rest)
    (hbody : through '>' rest = some (m, body)) :
    titleRe s = (Scan.first titleEndRe body).map fun x => (x.1, x.2.2) := by
  unfold titleRe
  rw [hword]
  simp only [hbody, Option.bind_eq_bind, Option.bind_some]
  cases Scan.first titleEndRe body <;> rfl

theorem titleRe_isSome (h : (titleRe s).isSome) : (afterWord "<title".toList s).isSome := by
  obtain ⟨m, hm⟩ := Option.isSome_iff_exists.mp h
  unfold titleRe at hm
  simp only [Option.bind_eq_bind, Option.bind_eq_some_iff] at hm
  obtain ⟨rest, hword, -⟩ := hm
  rw [hword]
  rfl

variable {before opening text closing tail attrs ws : Str}

theorem clear_titleRe (h : Scan.Clear (fun s => (afterWord "<title".toList s).isSome) before tail) :
    Scan.Clear (fun s => (titleRe s).isSome) before tail := by
  intro a b hab hb
  have hword := h a b hab hb
  simp only [Option.isSome_eq_false_iff, Option.isNone_iff_eq_none] at hword ⊢
  rw [Option.eq_none_iff_forall_ne_some]
  intro m hm
  have hsome := titleRe_isSome (Option.isSome_of_eq_some hm)
  rw [hword] at hsome
  cases hsome

theorem replaceTitle_of_first {old after : Str} (h : Scan.first titleRe s = some (before, old, after)) (title : Str) :
    replaceTitle s title = before ++ ("<title>".toList ++ htmlEscape title ++ "</title>".toList) ++ after := by
  unfold replaceTitle
  rw [h]

/-- Whatever the tag of a title, its element is the one that is swapped. -/
theorem exists_replaceTitle
    (hclear : Scan.Clear (fun s => (afterWord "<title".toList s).isSome) before (opening ++ (text ++ (closing ++ tail))))
    (hopening : afterWord "<title".toList opening = some (attrs ++ ['>']))
    (hclosing : afterWord "</title".toList closing = some (ws ++ ['>']))
    (hws : ∀ c ∈ ws, Text.isWhitespace c = true) (title : Str) :
    ∃ after, replaceTitle (before ++ (opening ++ (text ++ (closing ++ tail)))) title =
      before ++ ("<title>".toList ++ htmlEscape title ++ "</title>".toList) ++ after := by
  obtain ⟨front, back, hattrs, hfront⟩ := List.eq_append_cons_of_mem (show '>' ∈ attrs ++ ['>'] by simp)
  have hword := afterWord_append hopening (text ++ (closing ++ tail))
  rw [hattrs, List.append_assoc, List.cons_append] at hword
  have htitle := titleRe_eq hword (through_append_cons hfront _)
  have hne : closing ++ tail ≠ [] := by
    obtain ⟨t, rfl, -⟩ := exists_of_afterWord_lt hclosing
    simp
  have hend : (titleEndRe (closing ++ tail)).isSome := by
    rw [titleEndRe_append hclosing hws]
    rfl
  have hsome := Scan.first_ne_none hne hend (back ++ text)
  rw [List.append_assoc] at hsome
  obtain ⟨⟨text', u, after⟩, hfirst⟩ := Option.ne_none_iff_exists'.mp hsome
  have hmatch : titleRe (opening ++ (text ++ (closing ++ tail))) = some (text', after) := by
    rw [htitle, hfirst]
    rfl
  have hne' : opening ++ (text ++ (closing ++ tail)) ≠ [] := by simp_all
  refine ⟨after, @replaceTitle_of_first _ _ text' _ ?_ title⟩
  rw [Scan.first_append (clear_titleRe hclear), Scan.first_of_match hne' hmatch]
  simp

/-- A plain tag: what is swapped ends with the end tag. -/
theorem replaceTitle_plain
    (hclear : Scan.Clear (fun s => (afterWord "<title".toList s).isSome) before
      ("<title>".toList ++ (text ++ (closing ++ tail))))
    (hclosing : afterWord "</title".toList closing = some (ws ++ ['>']))
    (hws : ∀ c ∈ ws, Text.isWhitespace c = true)
    (hend : Scan.Clear (fun s => (titleEndRe s).isSome) text (closing ++ tail)) (title : Str) :
    replaceTitle (before ++ ("<title>".toList ++ (text ++ (closing ++ tail)))) title =
      before ++ ("<title>".toList ++ htmlEscape title ++ "</title>".toList) ++ tail := by
  have hword : afterWord "<title".toList ("<title>".toList ++ (text ++ (closing ++ tail))) =
      some ('>' :: (text ++ (closing ++ tail))) := afterWord_self (by decide) _
  have htitle := titleRe_eq hword (through_append_cons (s := []) (by simp) _)
  have hne : closing ++ tail ≠ [] := by
    obtain ⟨t, rfl, -⟩ := exists_of_afterWord_lt hclosing
    simp
  have hfirst : Scan.first titleEndRe (text ++ (closing ++ tail)) = some (text, (), tail) := by
    rw [Scan.first_append hend, Scan.first_of_match hne (titleEndRe_append hclosing hws tail)]
    simp
  have hmatch : titleRe ("<title>".toList ++ (text ++ (closing ++ tail))) = some (text, tail) := by
    rw [htitle, hfirst]
    rfl
  have hne' : "<title>".toList ++ (text ++ (closing ++ tail)) ≠ [] := by simp
  refine @replaceTitle_of_first _ _ text _ ?_ title
  rw [Scan.first_append (clear_titleRe hclear), Scan.first_of_match hne' hmatch]
  simp

/-! ## Meta tags -/

/-- `<meta\s`. -/
def metaStart (s : Str) : Bool :=
  match afterWord ('<' :: "meta".toList) s with
  | some (c :: _) => Text.isWhitespace c
  | _ => false

section Meta

variable {a b back : Str}

theorem metaTagRe_eq (s : Str) : metaTagRe s = if metaStart s then through '>' s else none := by
  unfold metaTagRe tagRe metaStart
  cases afterWord ('<' :: "meta".toList) s with
  | none => simp
  | some rest => cases rest <;> simp

/-- A word that `d` does not go on with is over before it. -/
theorem afterWord_append_cons {d : Char} (hd : ∀ p ∈ word, foldEq d p = false) (b back : Str) :
    afterWord word (b ++ d :: back) = (afterWord word b).map (· ++ d :: back) := by
  induction word generalizing b with
  | nil => rfl
  | cons p word ih =>
    cases b with
    | nil =>
      have hp := hd p (by simp)
      simp [afterWord, hp]
    | cons c b =>
      rw [List.cons_append]
      unfold afterWord
      split
      · exact ih (fun q hq => hd q (by simp [hq])) b
      · rfl

theorem metaStart_append {d : Char} (hd : ∀ p ∈ "meta".toList, foldEq d p = false) (hspace : Text.isWhitespace d = false)
    (hb : b ≠ []) (back : Str) : metaStart (b ++ d :: back) = metaStart b := by
  obtain ⟨c, b, rfl⟩ := List.exists_cons_of_ne_nil hb
  unfold metaStart
  rw [List.cons_append]
  unfold afterWord
  by_cases hc : foldEq c '<'
  · rw [if_pos hc, if_pos hc, afterWord_append_cons hd]
    cases afterWord "meta".toList b with
    | none => rfl
    | some rest =>
      cases rest with
      | nil => simp [hspace]
      | cons e rest => rfl
  · rw [if_neg hc, if_neg hc]

theorem metaStart_gt (back : Str) : metaStart (b ++ '>' :: back) = metaStart b := by
  cases b with
  | nil => rfl
  | cons c b => exact metaStart_append (by decide) (by decide) (by simp) back

theorem metaTagRe_gt (hb : '>' ∉ b) (back : Str) :
    metaTagRe (b ++ '>' :: back) = if metaStart b then some (b ++ ['>'], back) else none := by
  rw [metaTagRe_eq, metaStart_gt, through_append_cons hb]

theorem metaTagRe_eq_none (hs : '>' ∉ s) : metaTagRe s = none := by
  rw [metaTagRe_eq]
  unfold through
  simp [hs]

/-- What a match is. -/
theorem exists_of_metaTagRe {tag : Str} (h : metaTagRe s = some (tag, rest)) :
    ∃ b, s = b ++ '>' :: rest ∧ tag = b ++ ['>'] ∧ '>' ∉ b ∧ metaStart b = true := by
  by_cases hs : '>' ∈ s
  · obtain ⟨b, back, rfl, hb⟩ := List.eq_append_cons_of_mem hs
    rw [metaTagRe_gt hb] at h
    split at h
    · next hstart =>
      cases h
      exact ⟨b, rfl, rfl, hb, hstart⟩
    · cases h
  · rw [metaTagRe_eq_none hs] at h
    cases h

theorem metaTagRe_consumes : Scan.Consumes metaTagRe := by
  intro s tag rest h
  obtain ⟨b, rfl, -, -, -⟩ := exists_of_metaTagRe h
  exact ⟨b ++ ['>'], by simp, by simp⟩

/-- A tag ends at the first `>`, whatever is behind it. -/
theorem metaTagRe_append (hs : '>' ∈ s) (back : Str) :
    metaTagRe (s ++ back) = (metaTagRe s).map fun m => (m.1, m.2 ++ back) := by
  obtain ⟨b, t, rfl, hb⟩ := List.eq_append_cons_of_mem hs
  rw [List.append_assoc, List.cons_append, metaTagRe_gt hb, metaTagRe_gt hb]
  split <;> rfl

theorem splits_of_gt (a back : Str) : Scan.Splits metaTagRe (a ++ ['>']) back := by
  intro x b hab hb
  refine metaTagRe_append ?_ back
  obtain ⟨b, c, rfl⟩ := (List.eq_nil_or_concat' b).resolve_left hb
  rw [← List.append_assoc] at hab
  have hlast : '>' = c := by simpa using (List.append_inj' hab rfl).2
  simpa using Or.inr hlast

/-- No `<meta\s` is left open. -/
def MetaClosed (s : Str) : Prop := ∀ a b, s = a ++ b → '>' ∉ b → metaStart b = false

theorem splits_of_closed (h : MetaClosed s) (back : Str) : Scan.Splits metaTagRe s ('<' :: back) := by
  intro a b hab hb
  by_cases hgt : '>' ∈ b
  · exact metaTagRe_append hgt _
  · rw [metaTagRe_eq_none hgt, metaTagRe_eq, metaStart_append (by decide) (by decide) hb, h a b hab hgt]
    rfl

theorem all_metaTagRe_gt (a back : Str) :
    Scan.all metaTagRe (a ++ '>' :: back) = Scan.all metaTagRe (a ++ ['>']) ++ Scan.all metaTagRe back := by
  have hsplit := Scan.all_append_of_splits metaTagRe_consumes (splits_of_gt a back)
  rwa [List.append_assoc, List.singleton_append] at hsplit

theorem all_metaTagRe_eq_nil (hs : '>' ∉ s) : Scan.all metaTagRe s = [] := by
  induction s with
  | nil => rfl
  | cons c s ih =>
    rw [Scan.all_of_none (metaTagRe_eq_none hs)]
    exact ih fun h => hs (List.mem_cons_of_mem c h)

theorem exists_of_metaStart (h : metaStart s = true) : ∃ t, s = '<' :: t := by
  unfold metaStart at h
  cases hword : afterWord ('<' :: "meta".toList) s with
  | none =>
    rw [hword] at h
    cases h
  | some rest =>
    obtain ⟨t, rfl, -⟩ := exists_of_afterWord_lt hword
    exact ⟨t, rfl⟩

theorem all_metaTagRe_of_no_lt (hs : '<' ∉ s) : Scan.all metaTagRe s = [] := by
  induction s with
  | nil => rfl
  | cons c s ih =>
    have hnone : metaTagRe (c :: s) = none := by
      rw [metaTagRe_eq, if_neg]
      intro h
      obtain ⟨t, ht⟩ := exists_of_metaStart h
      exact hs (by simp [(List.cons.inj ht).1])
    rw [Scan.all_of_none hnone]
    exact ih fun h => hs (List.mem_cons_of_mem c h)

/-- What is cut off takes no match with it that is complete. -/
theorem all_metaTagRe_prefix (a back : Str) : Scan.all metaTagRe a <+: Scan.all metaTagRe (a ++ back) := by
  by_cases ha : '>' ∈ a
  · obtain ⟨b, t, rfl, ht⟩ : ∃ b t, a = b ++ '>' :: t ∧ '>' ∉ t := by
      obtain ⟨t, b, hrev, ht⟩ := List.eq_append_cons_of_mem (List.mem_reverse.mpr ha)
      refine ⟨b.reverse, t.reverse, ?_, by simpa using ht⟩
      rw [← List.reverse_inj, hrev]
      simp
    rw [List.append_assoc, List.cons_append, all_metaTagRe_gt, all_metaTagRe_gt b (t ++ back), all_metaTagRe_eq_nil ht]
    simp
  · rw [all_metaTagRe_eq_nil ha]
    exact List.nil_prefix

end Meta

/-! ## Attributes -/

/-- A value stands between two quotes of one kind. -/
theorem exists_of_attrRe {attr : Str × Str} (h : attrRe s = some (attr, rest)) :
    ∃ front q, s = front ++ q :: (attr.2 ++ q :: rest) ∧ (q = '\"' ∨ q = '\'') := by
  cases s with
  | nil => cases h
  | cons c s =>
    simp only [attrRe] at h
    split at h
    · split at h
      · next rest' hequals =>
        obtain ⟨m, hm, heq⟩ := Option.map_eq_some_iff.mp h
        cases heq
        cases hquote : rest'.dropWhile Text.isWhitespace with
        | nil => simp [hquote, quoted] at hm
        | cons q t =>
          simp only [hquote, quoted] at hm
          split at hm
          · next hq =>
            simp only [Bool.and_eq_true, Bool.or_eq_true, beq_iff_eq, List.contains_iff_mem] at hq
            cases hm
            refine ⟨c :: (s.takeWhile isNameChar ++ ((s.dropWhile isNameChar).takeWhile Text.isWhitespace ++
              '=' :: rest'.takeWhile Text.isWhitespace)), q, ?_, hq.1⟩
            have hvalue := List.takeWhile_append_dropWhile (p := (· ≠ q)) (l := t)
            rw [dropWhile_ne_of_mem hq.2] at hvalue
            have hspace := List.takeWhile_append_dropWhile (p := Text.isWhitespace) (l := rest')
            have hname := List.takeWhile_append_dropWhile (p := isNameChar) (l := s)
            have hbefore := List.takeWhile_append_dropWhile (p := Text.isWhitespace) (l := s.dropWhile isNameChar)
            rw [hequals] at hbefore
            rw [hquote, ← hvalue] at hspace
            rw [← hspace] at hbefore
            rw [← hbefore] at hname
            simpa using hname.symm
          · cases hm
      · cases h
    · cases h

theorem attrRe_consumes : Scan.Consumes attrRe := by
  intro s attr rest h
  obtain ⟨front, q, rfl, -⟩ := exists_of_attrRe h
  exact ⟨front ++ q :: (attr.2 ++ [q]), by simp, by simp⟩

theorem clear_attrRe (hs : ∀ c ∈ s, Text.isWhitespace c = false) (back : Str) :
    Scan.Clear (fun s => (attrRe s).isSome) s back := by
  intro a b hab hb
  obtain ⟨c, b, rfl⟩ := List.exists_cons_of_ne_nil hb
  have hc := hs c (by simp [hab])
  simp [attrRe, hc]

theorem quoted_eq {value : Str} (hvalue : '\"' ∉ value) (rest : Str) :
    quoted ('\"' :: (value ++ '\"' :: rest)) = some (value, rest) := by
  have hthrough := through_append_cons hvalue rest
  unfold through at hthrough
  rw [if_pos (by simp)] at hthrough
  simp only [Option.some.injEq, Prod.mk.injEq, List.append_cancel_right_eq] at hthrough
  unfold quoted
  simp only [hthrough]
  simp

/-- `name="value"`, after a blank. -/
theorem attrRe_eq {name value : Str} (hhead : name.head?.any isNameStart = true) (hname : ∀ c ∈ name, isNameChar c = true)
    (hvalue : '\"' ∉ value) (rest : Str) :
    attrRe (' ' :: (name ++ '=' :: '\"' :: (value ++ '\"' :: rest))) = some ((name, value), rest) := by
  have hstart : (name ++ '=' :: '\"' :: (value ++ '\"' :: rest)).head?.any isNameStart = true := by
    cases name with
    | nil => cases hhead
    | cons c name => exact hhead
  have htake : (name ++ '=' :: '\"' :: (value ++ '\"' :: rest)).takeWhile isNameChar = name := by
    rw [List.takeWhile_append_of_pos hname]
    simp [show isNameChar '=' = false by decide]
  have hdrop : (name ++ '=' :: '\"' :: (value ++ '\"' :: rest)).dropWhile isNameChar =
      '=' :: '\"' :: (value ++ '\"' :: rest) := by
    rw [List.dropWhile_append_of_pos hname]
    rfl
  have hequals : ('=' :: '\"' :: (value ++ '\"' :: rest)).dropWhile Text.isWhitespace =
      '=' :: '\"' :: (value ++ '\"' :: rest) := rfl
  have hquote : ('\"' :: (value ++ '\"' :: rest)).dropWhile Text.isWhitespace = '\"' :: (value ++ '\"' :: rest) := rfl
  unfold attrRe
  simp only [hstart, htake, hdrop, hequals, hquote, quoted_eq hvalue, show Text.isWhitespace ' ' = true by decide,
    Bool.and_self, if_true, Option.map_some]

end NekoGuard.Embed
