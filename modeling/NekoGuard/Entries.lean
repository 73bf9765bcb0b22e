/-
Metadata entries written into a head, and what `scrape` makes of them: each
of them one tag, in order, exactly when no content has a `>`
(`scrape_entries_iff`).
-/
import NekoGuard.HeadFacts
import NekoGuard.MetaTags

namespace NekoGuard.Embed

open Lib
open Lib.Scan (append_eq_append_cons)

/-! ## Values in apostrophes -/

/-- The value stands in the text, between apostrophes. -/
def Enclosed (s c : Str) : Prop := ∃ a b, s = a ++ '\'' :: (c ++ '\'' :: b)

variable {s c : Str}

theorem Enclosed.append (h : Enclosed s c) (a b : Str) : Enclosed (a ++ (s ++ b)) c := by
  obtain ⟨x, y, rfl⟩ := h
  exact ⟨a ++ x, y ++ b, by simp⟩

/-- What has no apostrophe can be left out. -/
theorem enclosed_of_append {a b : Str} (ha : '\'' ∉ a) (hb : '\'' ∉ b) (h : Enclosed (a ++ (s ++ b)) c) :
    Enclosed s c := by
  obtain ⟨x, y, heq⟩ := h
  rcases append_eq_append_cons heq with ⟨u, rfl, -⟩ | ⟨x', -, hsb⟩
  · simp at ha
  · have hassoc : x' ++ '\'' :: (c ++ '\'' :: y) = (x' ++ '\'' :: c) ++ '\'' :: y := by simp
    rw [hassoc] at hsb
    rcases append_eq_append_cons hsb with ⟨u, hs, -⟩ | ⟨u, -, rfl⟩
    · exact ⟨x', u, by rw [hs, List.append_assoc, List.cons_append]⟩
    · simp at hb

/-- A text with one double quote has no value between two. -/
theorem enclosed_of_attr {attr : Str × Str} (hone : s.count '\"' ≤ 1) (h : attr ∈ Scan.all attrRe s) :
    Enclosed s attr.2 := by
  obtain ⟨front, t, rest, rfl, ht⟩ := Scan.exists_of_mem_all attrRe_consumes h
  obtain ⟨front', q, rfl, rfl | rfl⟩ := exists_of_attrRe ht
  · simp only [List.count_append, List.count_cons_self] at hone
    omega
  · exact ⟨front ++ front', rest, by simp⟩

theorem decoded_length_lt (h : Enclosed s c) : (decoded c).length < (decoded s).length := by
  obtain ⟨a, b, rfl⟩ := h
  rw [decoded_append_cons apostrophe_foreign, decoded_append_cons apostrophe_foreign]
  simp only [List.length_append, List.length_cons]
  omega

theorem gt_mem_decoded (h : '>' ∈ s) : '>' ∈ decoded s := by
  obtain ⟨a, b, rfl, -⟩ := List.eq_append_cons_of_mem h
  rw [decoded_append_cons gt_foreign]
  simp

/-! ## Entries -/

structure MetaEntry where
  key : Key
  /-- What the key attribute names. -/
  value : Str
  content : Str
deriving DecidableEq, Repr

/-- The tag as the document has it. -/
def MetaEntry.tag (e : MetaEntry) : Str := metaTag e.key e.value e.content

/-- The tag `scrape` is to return for it. -/
def MetaEntry.expected (e : MetaEntry) : Str :=
  metaTag e.key (htmlEscape (decoded e.value)) (htmlEscape (decoded e.content))

/-- An entry that can be written as a tag and is to be kept. -/
structure MetaEntry.Proper (e : MetaEntry) : Prop where
  descriptive : Descriptive e.key e.value
  value_clean : '\"' ∉ e.value ∧ '>' ∉ e.value
  content_clean : '\"' ∉ e.content
  content_ne : e.content ≠ []

instance (e : MetaEntry) : Decidable e.Proper :=
  decidable_of_iff
    (Descriptive e.key e.value ∧ ('\"' ∉ e.value ∧ '>' ∉ e.value) ∧ '\"' ∉ e.content ∧ e.content ≠ [])
    ⟨fun h => ⟨h.1, h.2.1, h.2.2.1, h.2.2.2⟩,
      fun h => ⟨h.descriptive, h.value_clean, h.content_clean, h.content_ne⟩⟩

variable {e : MetaEntry}

theorem metaTag_content_inj {key key' : Key} {value value' content content' : Str} (hcontent : '\"' ∉ content)
    (hcontent' : '\"' ∉ content') (h : metaTag key value content = metaTag key' value' content') :
    content = content' := by
  have hlast : ∀ a b : Str, '\"' ∉ b → ((a ++ '\"' :: b).reverse.takeWhile (· ≠ '\"')).reverse = b := by
    intro a b hb
    rw [List.reverse_append, List.reverse_cons, List.append_assoc, List.takeWhile_append_of_pos fun d hd => by
      have hne : d ≠ '\"' := fun h => hb (h ▸ List.mem_reverse.mp hd)
      simpa using hne]
    simp
  have hsplit : ∀ (key : Key) (value content : Str), ∃ a,
      metaTag key value content = a ++ '\"' :: content ++ "\">".toList := by
    intro key value content
    refine ⟨keyed key value (' ' :: ("content".toList ++ ['='])), ?_⟩
    rw [metaTag_eq, keyed_append, keyed_append]
    simp [contentAttr]
  obtain ⟨a, ha⟩ := hsplit key value content
  obtain ⟨a', ha'⟩ := hsplit key' value' content'
  rw [ha, ha', List.append_cancel_right_eq] at h
  rw [← hlast a content hcontent, h, hlast a' content' hcontent']

theorem twitterCard_eq : twitterCard = metaTag .name "twitter:card".toList "summary_large_image".toList := by
  decide +kernel

/-- A tag whose content is less than the entry's adds another tag. -/
theorem expected_not_mem_emitted {tag : Str} (hgt : '>' ∈ e.content)
    (hcontent : ∀ c, attributeOf tag "content" = some c → Enclosed e.content c) : e.expected ∉ emitted tag := by
  have hquote := (htmlEscape_inert (decoded e.content)).quote
  unfold emitted
  cases keyOf tag with
  | none => simp
  | some x =>
    obtain ⟨key, value⟩ := x
    simp only []
    split
    · simp
    · cases hc : attributeOf tag "content" with
      | none => simp
      | some content =>
        simp only []
        split
        · simp
        · split
          · simp
          · split
            · rw [List.mem_singleton, twitterCard_eq]
              intro heq
              have hsame := metaTag_content_inj hquote (by decide) heq
              have hcard : "summary_large_image".toList = htmlEscape "summary_large_image".toList := by decide +kernel
              rw [hcard] at hsame
              have hmem := gt_mem_decoded hgt
              rw [htmlEscape_injective hsame] at hmem
              exact absurd hmem (by decide)
            · rw [List.mem_singleton]
              intro heq
              have hsame := metaTag_content_inj hquote (htmlEscape_inert _).quote heq
              have hlen := decoded_length_lt (hcontent content hc)
              rw [htmlEscape_injective hsame] at hlen
              omega

theorem exists_of_attributeOf {tag : Str} {name : String} (h : attributeOf tag name = some c) :
    ∃ n, (n, c) ∈ Scan.all attrRe tag ∧ Text.eqIgnoreAsciiCase n name.toList = true := by
  obtain ⟨⟨n, v⟩, hfind, rfl⟩ := Option.map_eq_some_iff.mp h
  have hname := List.find?_some hfind
  exact ⟨n, List.mem_of_find?_eq_some hfind, hname⟩

/-- A match is a part of the text. -/
theorem exists_of_mem_tags {tag : Str} (h : tag ∈ Scan.all metaTagRe s) : ∃ a b, s = a ++ (tag ++ b) := by
  obtain ⟨a, t, rest, rfl, ht⟩ := Scan.exists_of_mem_all metaTagRe_consumes h
  obtain ⟨b, rfl, rfl, -, -⟩ := exists_of_metaTagRe ht
  exact ⟨a, rest, by simp⟩

/-- Nothing behind a `>` of the content gives the entry back. -/
theorem expected_not_mem_emits_rest (hclean : '\"' ∉ e.content) {v w a rest : Str}
    (hcontent : e.content = v ++ '>' :: w) (hrest : w ++ "\">".toList = a ++ rest) : e.expected ∉ emits rest := by
  have hquotes : (w ++ "\">".toList).count '\"' ≤ 1 := by
    have hw : '\"' ∉ w := fun h => hclean (by rw [hcontent]; simp [h])
    rw [List.count_append, List.count_eq_zero_of_not_mem hw]
    decide
  intro hmem
  obtain ⟨tag, htag, hadded⟩ := List.mem_flatMap.mp hmem
  obtain ⟨x, y, rfl⟩ := exists_of_mem_tags htag
  refine expected_not_mem_emitted (by rw [hcontent]; simp) (fun c hc => ?_) hadded
  obtain ⟨n, hattr, -⟩ := exists_of_attributeOf hc
  have hone : tag.count '\"' ≤ 1 := by
    rw [hrest] at hquotes
    simp only [List.count_append] at hquotes
    omega
  have henclosed := (enclosed_of_attr hone hattr).append (a ++ x) y
  rw [List.append_assoc, ← hrest] at henclosed
  have hw : Enclosed w c := @enclosed_of_append _ _ [] _ (by simp) (by decide) henclosed
  have hall := hw.append (v ++ ['>']) []
  rwa [List.append_nil, List.append_assoc, List.singleton_append, ← hcontent] at hall

/-- The part of a tag before its content. -/
def MetaEntry.front (e : MetaEntry) : Str := keyed e.key e.value (' ' :: ("content".toList ++ ['=', '\"']))

theorem MetaEntry.tag_eq (e : MetaEntry) : e.tag = e.front ++ (e.content ++ "\">".toList) := by
  unfold MetaEntry.tag MetaEntry.front
  rw [metaTag_eq, keyed_append]
  simp [contentAttr]

theorem MetaEntry.Proper.gt_not_mem_front (he : e.Proper) : '>' ∉ e.front :=
  gt_not_mem_keyed he.value_clean.2 (by decide)

/-- The tag of an entry, cut at a `>`: what is left is less than its
content. -/
theorem exists_of_tag_cut (he : e.Proper) {a rest : Str} (h : e.tag = a ++ '>' :: rest) :
    rest = [] ∨ ∃ v w, e.content = v ++ '>' :: w ∧ rest = w ++ "\">".toList := by
  rw [e.tag_eq] at h
  rcases append_eq_append_cons h with ⟨u, hfront, -⟩ | ⟨v, -, hv⟩
  · exact absurd (by simp [hfront]) he.gt_not_mem_front
  · rcases append_eq_append_cons hv with ⟨w, hcontent, hrest⟩ | ⟨w, -, hw⟩
    · exact .inr ⟨v, w, hcontent, hrest⟩
    · -- The tag's own last character.
      left
      cases w with
      | nil => simp at hw
      | cons d w =>
        have htail := (List.cons.inj hw).2
        cases w with
        | nil => simpa using (List.cons.inj htail).2.symm
        | cons d w => simp at htail

/-- Neither does anything behind a `>` of the tag. -/
theorem expected_not_mem_emits_cut (he : e.Proper) {a rest : Str} (h : e.tag = a ++ '>' :: rest) :
    e.expected ∉ emits rest := by
  rcases exists_of_tag_cut he h with rfl | ⟨v, w, hcontent, rfl⟩
  · simp [emits, Scan.all, Scan.allFrom]
  · exact expected_not_mem_emits_rest he.content_clean hcontent (List.nil_append _).symm

/-- **An entry with a `>` in its content is lost.** Its tag ends there. -/
theorem expected_not_mem_emits_tag (he : e.Proper) (hgt : '>' ∈ e.content) : e.expected ∉ emits e.tag := by
  obtain ⟨v, w, hcontent, hv⟩ := List.eq_append_cons_of_mem hgt
  have htag : e.tag = e.front ++ v ++ '>' :: (w ++ "\">".toList) := by
    rw [e.tag_eq, hcontent]
    simp
  have hfirst : '>' ∉ e.front ++ v := by simp [he.gt_not_mem_front, hv]
  have hmatch : metaTagRe e.tag = some (e.front ++ v ++ ['>'], w ++ "\">".toList) := by
    have hstart : metaStart (e.front ++ v) = true := by
      rw [MetaEntry.front, keyed_append]
      exact metaStart_keyed _ _ _
    rw [htag, metaTagRe_gt hfirst, hstart]
    rfl
  unfold emits
  rw [Scan.all_of_match metaTagRe_consumes hmatch, List.flatMap_cons, List.mem_append, not_or]
  refine ⟨expected_not_mem_emitted hgt fun c hc => ?_, expected_not_mem_emits_cut he htag⟩
  -- Its content has no second quote, so another is read for it.
  have hkeyed : e.front ++ v ++ ['>'] =
      keyed e.key e.value (' ' :: ("content".toList ++ ['=', '\"']) ++ (v ++ ['>'])) := by
    rw [List.append_assoc, MetaEntry.front, keyed_append]
  obtain ⟨n, hattr, hname⟩ := exists_of_attributeOf hc
  rw [hkeyed, attrs_keyed he.value_clean.1, List.mem_cons] at hattr
  rcases hattr with heq | hattr
  · cases heq
    have hother : Text.eqIgnoreAsciiCase e.key.text.toList "content".toList = false := by cases e.key <;> decide
    rw [hother] at hname
    cases hname
  · have hone : (' ' :: ("content".toList ++ ['=', '\"']) ++ (v ++ ['>'])).count '\"' ≤ 1 := by
      have hquote : '\"' ∉ v ++ ['>'] := by
        have hclean := he.content_clean
        rw [hcontent] at hclean
        simp_all
      rw [List.count_append, List.count_eq_zero_of_not_mem hquote]
      decide
    have henclosed := enclosed_of_append (by decide) (by decide) (enclosed_of_attr hone hattr)
    have hall := henclosed.append [] ('>' :: w)
    rwa [List.nil_append, ← hcontent] at hall

theorem emits_tag (he : e.Proper) (hgt : '>' ∉ e.content) : emits e.tag = [e.expected] :=
  emits_metaTag he.descriptive he.value_clean ⟨he.content_clean, hgt⟩ he.content_ne

/-! ## Lists of entries -/

/-- Text that adds no tag, wherever its reading begins: each `meta` tag in it
is unwanted and ends in it, and it does not end the head. -/
structure Silent (s : Str) : Prop where
  closed : MetaClosed s
  unwanted : ∀ a b tag rest, s = a ++ b → metaTagRe b = some (tag, rest) → emitted tag = []
  no_end : ¬"</head>".toList <:+: Text.toAsciiLowercase s

theorem Silent.suffix {a : Str} (h : Silent (a ++ s)) : Silent s where
  closed b t hs := h.closed (a ++ b) t (by simp [hs])
  unwanted b t tag rest hs := h.unwanted (a ++ b) t tag rest (by simp [hs])
  no_end hs := h.no_end (by
    unfold Text.toAsciiLowercase at hs ⊢
    rw [List.map_append]
    exact hs.trans (List.suffix_append _ _).isInfix)

theorem Silent.emits_eq (h : Silent s) : emits s = [] := by
  unfold emits
  rw [List.flatMap_eq_nil_iff]
  intro tag htag
  obtain ⟨a, t, rest, rfl, ht⟩ := Scan.exists_of_mem_all metaTagRe_consumes htag
  exact h.unwanted a t tag rest rfl ht

/-- A text goes on with a tag, or ends. -/
def Boundary (back : Str) : Prop := ∀ c ∈ back.head?, c = '<'

theorem emits_append {back : Str} (h : Scan.Splits metaTagRe s back) : emits (s ++ back) = emits s ++ emits back := by
  unfold emits
  rw [Scan.all_append_of_splits metaTagRe_consumes h, List.flatMap_append]

theorem Silent.emits_append {back : Str} (h : Silent s) (hback : Boundary back) : emits (s ++ back) = emits back := by
  cases back with
  | nil => rw [List.append_nil, h.emits_eq]; rfl
  | cons c back =>
    obtain rfl := hback c rfl
    rw [Embed.emits_append (splits_of_closed h.closed back), h.emits_eq, List.nil_append]

/-- Entries, each with the text behind it. -/
def written (es : List (MetaEntry × Str)) : Str := es.flatMap fun x => x.1.tag ++ x.2

theorem written_cons (x : MetaEntry × Str) (es : List (MetaEntry × Str)) :
    written (x :: es) = x.1.tag ++ (x.2 ++ written es) := by
  simp [written]

/-- What the entries are written as, among what. -/
def Written (es : List (MetaEntry × Str)) : Prop := ∀ x ∈ es, x.1.Proper ∧ Silent x.2

theorem boundary_written {back : Str} (es : List (MetaEntry × Str)) (hback : Boundary back) :
    Boundary (written es ++ back) := by
  cases es with
  | nil => exact hback
  | cons x es =>
    intro c hc
    rw [written_cons, MetaEntry.tag, metaTag_eq] at hc
    exact (Option.some.inj hc).symm

theorem emits_written {es : List (MetaEntry × Str)} {back : Str} (h : Written es) (hback : Boundary back) :
    emits (written es ++ back) = (es.map fun x => emits x.1.tag).flatten ++ emits back := by
  induction es with
  | nil => rfl
  | cons x es ih =>
    obtain ⟨hproper, hsilent⟩ := h x (by simp)
    have htag : emits (x.1.tag ++ (x.2 ++ (written es ++ back))) =
        emits x.1.tag ++ emits (x.2 ++ (written es ++ back)) := emits_append (splits_metaTag _)
    rw [written_cons, List.append_assoc, List.append_assoc, htag,
      hsilent.emits_append (boundary_written es hback), ih fun y hy => h y (by simp [hy])]
    simp

/-- What is wanted of each entry, and what there is of it. -/
def Paired (es : List (MetaEntry × Str)) (ps : List (Str × List Str)) : Prop :=
  ps.map Prod.fst = es.map (fun x => x.1.expected) ∧ ∀ p ∈ ps, p.2 = [p.1] ∨ p.1 ∉ p.2

/-- An entry adds what is expected of it, or something else. -/
theorem paired_written {es : List (MetaEntry × Str)} (h : Written es) :
    Paired es (es.map fun x => (x.1.expected, emits x.1.tag)) := by
  refine ⟨by simp, fun p hp => ?_⟩
  obtain ⟨x, hx, rfl⟩ := List.mem_map.mp hp
  have hproper := (h x hx).1
  simp only []
  by_cases hgt : '>' ∈ x.1.content
  · exact .inr (expected_not_mem_emits_tag hproper hgt)
  · exact .inl (emits_tag hproper hgt)

theorem Paired.cons {x : MetaEntry × Str} {es : List (MetaEntry × Str)} {ps : List (Str × List Str)}
    {tags : List Str} (h : Paired es ps) (hx : tags = [x.1.expected] ∨ x.1.expected ∉ tags) :
    Paired (x :: es) ((x.1.expected, tags) :: ps) := by
  refine ⟨by simp [h.1], fun p hp => ?_⟩
  rcases List.mem_cons.mp hp with rfl | hp
  · exact hx
  · exact h.2 p hp

/-- What is missing at one place is never made up for later: where all that
is wanted is there, in order, each brought its own. -/
theorem all_own {α : Type} {ps : List (α × List α)} {due extra : List α}
    (hps : ∀ p ∈ ps, p.2 = [p.1] ∨ p.1 ∉ p.2)
    (heq : (ps.map Prod.snd).flatten = due ++ (ps.map Prod.fst ++ extra)) : due = [] ∧ ∀ p ∈ ps, p.2 = [p.1] := by
  induction ps generalizing due with
  | nil =>
    have hnil : due ++ extra = [] := heq.symm
    exact ⟨(List.append_eq_nil_iff.mp hnil).1, nofun⟩
  | cons p ps ih =>
    have htail := fun due heq => @ih due (fun q hq => hps q (by simp [hq])) heq
    rw [List.map_cons, List.flatten_cons, List.map_cons, List.cons_append] at heq
    rcases hps p (by simp) with hown | hother
    · rw [hown] at heq
      cases due with
      | nil =>
        obtain ⟨-, hall⟩ := htail [] (by simpa using heq)
        exact ⟨rfl, by simpa [hown] using hall⟩
      | cons d due =>
        have hlater := htail (due ++ [p.1]) (by simpa using (List.cons.inj heq).2)
        simp at hlater
    · rcases append_eq_append_cons heq with ⟨u, hu, -⟩ | ⟨u, -, hu⟩
      · exact absurd (by simp [hu]) hother
      · have hlater := htail (u ++ [p.1]) (by simpa using hu)
        simp at hlater

/-- **Read from behind a `>`**, the first entry is lost at least. -/
theorem exists_paired_cut {es : List (MetaEntry × Str)} {back a rest : Str} (h : Written es) (hback : Boundary back)
    (hcut : written es = a ++ '>' :: rest) :
    ∃ ps, Paired es ps ∧ emits (rest ++ back) = (ps.map Prod.snd).flatten ++ emits back ∧
      ∃ p ∈ ps, p.1 ∉ p.2 := by
  induction es generalizing a with
  | nil => simp [written] at hcut
  | cons x es ih =>
    obtain ⟨hproper, hsilent⟩ := h x (by simp)
    have htail : Written es := fun y hy => h y (by simp [hy])
    have hrest := paired_written htail
    rw [written_cons] at hcut
    rcases append_eq_append_cons hcut with ⟨t, htag, rfl⟩ | ⟨t, -, ht⟩
    · -- In the entry's own tag.
      have hsplit : Scan.Splits metaTagRe t (x.2 ++ (written es ++ back)) := by
        have htagsplit : Scan.Splits metaTagRe x.1.tag (x.2 ++ (written es ++ back)) := splits_metaTag _
        rw [htag] at htagsplit
        exact @Scan.Splits.suffix _ _ _ (a ++ ['>']) t _ (by simpa using htagsplit)
      have hlost := expected_not_mem_emits_cut hproper htag
      refine ⟨_, hrest.cons (.inr hlost), ?_, _, List.mem_cons_self, hlost⟩
      rw [List.append_assoc, List.append_assoc, emits_append hsplit, hsilent.emits_append (boundary_written es hback),
        emits_written htail hback]
      simp [Function.comp_def]
    · rcases append_eq_append_cons ht with ⟨u, hfill, rfl⟩ | ⟨u, -, hu⟩
      · -- In the text behind it.
        have hu : Silent u := by
          rw [hfill] at hsilent
          exact @Silent.suffix u (t ++ ['>']) (by simpa using hsilent)
        refine ⟨(x.1.expected, []) :: _, hrest.cons (.inr (by simp)), ?_, _, List.mem_cons_self, by simp⟩
        rw [List.append_assoc, hu.emits_append (boundary_written es hback), emits_written htail hback]
        simp [Function.comp_def]
      · obtain ⟨ps, hps, hemits, -⟩ := ih htail hu
        exact ⟨(x.1.expected, []) :: ps, hps.cons (.inr (by simp)), by simpa using hemits, _, List.mem_cons_self,
          by simp⟩

/-! ## The end of a head -/

/-- No `</head>` is in it. -/
def NoEnd (s : Str) : Prop := ¬"</head>".toList <:+: Text.toAsciiLowercase s

theorem NoEnd.append {back : Str} (hs : NoEnd s) (hback : NoEnd back) (hboundary : Boundary back) :
    NoEnd (s ++ back) := by
  cases back with
  | nil => rwa [List.append_nil]
  | cons d back =>
    obtain rfl := hboundary d rfl
    unfold NoEnd Text.toAsciiLowercase at *
    rw [List.map_append]
    exact Scan.not_infix_append (by decide) (by decide) hs hback

theorem gt_not_mem_lower (hs : '>' ∉ s) : '>' ∉ Text.toAsciiLowercase s :=
  Text.not_mem_toAsciiLowercase (by decide) hs

/-- A tag whose content has no `>` does not end the head. -/
theorem noEnd_tag (he : e.Proper) (hgt : '>' ∉ e.content) : NoEnd e.tag := by
  have hsplit : e.tag = e.front ++ (e.content ++ ['\"']) ++ ['>'] := by simp [e.tag_eq]
  have hclean : '>' ∉ Text.toAsciiLowercase (e.front ++ e.content) :=
    gt_not_mem_lower (by simp [he.gt_not_mem_front, hgt])
  have hlower : Text.toAsciiLowercase e.tag = Text.toAsciiLowercase (e.front ++ e.content) ++ ['\"', '>'] := by
    rw [hsplit]
    simp [Text.toAsciiLowercase]
  rintro ⟨a, b, h⟩
  rw [hlower] at h
  have hword : (a ++ "</head".toList) ++ '>' :: b =
      (Text.toAsciiLowercase (e.front ++ e.content) ++ ['\"']) ++ ['>'] := by
    simpa using h
  rcases append_eq_append_cons hword.symm with ⟨u, hu, -⟩ | ⟨u, ha, hu⟩
  · have hmem : '>' ∈ Text.toAsciiLowercase (e.front ++ e.content) ++ ['\"'] := by simp [hu]
    simp [hclean] at hmem
  · cases u with
    | nil =>
      rw [List.append_nil] at ha
      have hends := (List.append_inj' (show (a ++ "</hea".toList) ++ ['d'] =
        Text.toAsciiLowercase (e.front ++ e.content) ++ ['\"'] by simpa using ha) rfl).2
      simp at hends
    | cons x u => simp at hu

/-- Nothing goes on across the end of a tag. -/
theorem NoEnd.append_tag {back : Str} (htag : NoEnd (s ++ ['>'])) (hback : NoEnd back) : NoEnd (s ++ '>' :: back) := by
  unfold NoEnd Text.toAsciiLowercase at *
  rw [List.map_append, List.map_cons]
  rw [List.map_append] at htag
  exact Scan.not_infix_append_of_last (by decide) htag hback

theorem noEnd_written {es : List (MetaEntry × Str)} {back : Str} (h : Written es)
    (hgt : ∀ x ∈ es, '>' ∉ x.1.content) (hback : NoEnd back) (hboundary : Boundary back) :
    NoEnd (written es ++ back) := by
  induction es with
  | nil => exact hback
  | cons x es ih =>
    obtain ⟨hproper, hsilent⟩ := h x (by simp)
    have hrest := ih (fun y hy => h y (by simp [hy])) fun y hy => hgt y (by simp [hy])
    have hfill := NoEnd.append hsilent.no_end hrest (boundary_written es hboundary)
    have htag := noEnd_tag hproper (hgt x (by simp))
    have hsplit : x.1.tag = x.1.front ++ (x.1.content ++ ['\"']) ++ ['>'] := by simp [x.1.tag_eq]
    rw [hsplit] at htag
    rw [written_cons, List.append_assoc, List.append_assoc, hsplit, List.append_assoc, List.singleton_append]
    exact htag.append_tag hfill

/-! ## Documents -/

/-- A document: what is before the first entry, the entries, the tag at which
the head ends, and what follows. -/
def page (lead : Str) (es : List (MetaEntry × Str)) (closing post : Str) : Str :=
  lead ++ (written es ++ (closing ++ post))

/-- Entries in a head. -/
structure InHead (lead : Str) (es : List (MetaEntry × Str)) (closing : Str) : Prop where
  lead_silent : Silent lead
  entries : Written es
  /-- `</head>` in some spelling, or the first tag of the body. -/
  closing_tag : ∃ t, closing = '<' :: (t ++ ['>']) ∧ '<' ∉ t ∧ '>' ∉ t ∧ metaStart closing = false

/-- There is a `<head ..>`, in lower case. -/
def Opened (lead : Str) : Prop := ∃ a b, lead = a ++ '>' :: b ∧ "<head".toList <:+: a

/-- `scrape` returns what is expected of the entries, whatever the body. -/
def Complete (lead : Str) (es : List (MetaEntry × Str)) (closing : Str) : Prop :=
  ∀ post, (scrape (page lead es closing post)).map Meta.tags = .ok (es.map fun x => x.1.expected)

/-- An entry like any other. -/
def probe : MetaEntry where
  key := .name
  value := "description".toList
  content := ['x']

theorem probe_proper : probe.Proper := by decide +kernel

theorem noEnd_nil : NoEnd [] := by
  unfold NoEnd
  decide

/-- A text without a `meta` tag is silent. -/
theorem silent_of_clear (h : Scan.Clear metaStart s []) (hend : NoEnd s) : Silent s where
  closed := by
    intro a b hab _
    cases b with
    | nil => rfl
    | cons c b =>
      have hb := h a (c :: b) hab (by simp)
      rwa [List.append_nil] at hb
  unwanted := by
    intro a b tag rest hab htag
    cases b with
    | nil => cases htag
    | cons c b =>
      have hb := h a (c :: b) hab (by simp)
      rw [List.append_nil] at hb
      rw [metaTagRe_eq, hb] at htag
      cases htag
  no_end := hend

theorem silent_nil : Silent [] := silent_of_clear Scan.clear_nil noEnd_nil

def probes (n : Nat) : List (MetaEntry × Str) := List.replicate n (probe, [])

theorem probes_written (n : Nat) : Written (probes n) := by
  intro x hx
  obtain rfl := (List.mem_replicate.mp hx).2
  exact ⟨probe_proper, silent_nil⟩

variable {lead closing post : Str} {es : List (MetaEntry × Str)}

theorem emits_nil : emits [] = [] := rfl

/-- Good entries bring what is expected of them. -/
theorem emits_written_good {back : Str} (h : Written es) (hgt : ∀ x ∈ es, '>' ∉ x.1.content)
    (hback : Boundary back) :
    emits (written es ++ back) = (es.map fun x => x.1.expected) ++ emits back := by
  have hown : es.map (fun x => emits x.1.tag) = es.map fun x => [x.1.expected] :=
    List.map_congr_left fun x hx => emits_tag (h x hx).1 (hgt x hx)
  rw [emits_written h hback, hown]
  simp [List.flatten_eq_flatMap, List.flatMap_map, ← List.map_eq_flatMap]

theorem probes_good (n : Nat) : ∀ x ∈ probes n, '>' ∉ x.1.content := by
  intro x hx
  obtain rfl := (List.mem_replicate.mp hx).2
  decide

theorem emits_probes (n : Nat) : (emits (written (probes n))).length = n := by
  have hemits := @emits_written_good _ [] (probes_written n) (probes_good n) nofun
  rw [List.append_nil] at hemits
  rw [hemits]
  simp [emits_nil, probes]

theorem noEnd_probes (n : Nat) : NoEnd (written (probes n)) := by
  have hend := noEnd_written (probes_written n) (probes_good n) noEnd_nil nofun
  rwa [List.append_nil] at hend

theorem boundary_probes (n : Nat) : Boundary (written (probes n)) := by
  have hboundary := @boundary_written [] (probes n) nofun
  rwa [List.append_nil] at hboundary

/-! ### The closing tag -/

theorem InHead.boundary (h : InHead lead es closing) (post : Str) : Boundary (closing ++ post) := by
  obtain ⟨t, rfl, -⟩ := h.closing_tag
  intro c hc
  exact (Option.some.inj hc).symm

theorem InHead.emits_closing (h : InHead lead es closing) (post : Str) : emits (closing ++ post) = emits post := by
  obtain ⟨t, rfl, hlt, hgt, hstart⟩ := h.closing_tag
  have hsplit : Scan.Splits metaTagRe ('<' :: (t ++ ['>'])) post := splits_of_gt ('<' :: t) post
  have hnone : metaTagRe ('<' :: (t ++ ['>'])) = none := by
    rw [metaTagRe_eq, hstart]
    rfl
  rw [emits_append hsplit]
  unfold emits
  rw [Scan.all_of_none hnone, all_metaTagRe_of_no_lt (by simpa using hlt)]
  rfl

/-- Only `</head>` itself ends the head early. -/
theorem InHead.noEnd_closing (h : InHead lead es closing) (hne : Text.toAsciiLowercase closing ≠ "</head>".toList) :
    NoEnd closing := by
  obtain ⟨t, rfl, hlt, hgt, -⟩ := h.closing_tag
  have hlower : Text.toAsciiLowercase ('<' :: (t ++ ['>'])) = '<' :: (Text.toAsciiLowercase t ++ ['>']) := by
    simp [Text.toAsciiLowercase]
  have hlt := Text.not_mem_toAsciiLowercase (by decide) hlt
  have hgt := gt_not_mem_lower hgt
  rintro ⟨a, b, heq⟩
  rw [hlower] at heq hne
  cases a with
  | nil =>
    have hword : '<' :: Text.toAsciiLowercase t ++ ['>'] = "</head".toList ++ '>' :: b := by simpa using heq.symm
    rcases append_eq_append_cons hword with ⟨u, hu, -⟩ | ⟨u, hu, hb⟩
    · have hmem : '>' ∈ '<' :: Text.toAsciiLowercase t := by simp [hu]
      simp [hgt] at hmem
    · cases u with
      | nil =>
        rw [List.append_nil] at hu
        exact hne (by rw [← List.cons_append, ← hu]; rfl)
      | cons d u => simp at hb
  | cons d a =>
    have hmem : '<' ∈ Text.toAsciiLowercase t ++ ['>'] := by
      rw [← (List.cons.inj heq).2]
      simp
    simp [hlt] at hmem

/-! ### Heads -/

/-- What is behind the head tag. -/
theorem Opened.exists_rest (h : Opened lead) : ∃ a rest, lead = a ++ '>' :: rest ∧
    ∀ back, afterHeadTag (lead ++ back) = .ok (rest ++ back) := by
  obtain ⟨a, b, rfl, hhead⟩ := h
  obtain ⟨front, rest, heq, -, hafter⟩ := exists_afterHeadTag hhead b
  exact ⟨front, rest, heq, hafter⟩

/-- All of the tags, cut off somewhere. -/
theorem Complete.exists_emits (h : Complete lead es closing) {a : Str}
    (hafter : afterHeadTag (page lead es closing post) = .ok a) :
    ∃ extra, emits a = (es.map fun x => x.1.expected) ++ extra := by
  obtain ⟨head, hhead, b, rfl⟩ := headOf_prefix hafter
  have htags := scrape_tags hhead
  rw [h post] at htags
  obtain ⟨more, hmore⟩ := all_metaTagRe_prefix head b
  refine ⟨more.flatMap emitted, ?_⟩
  rw [Except.ok.injEq] at htags
  rw [htags]
  unfold emits
  rw [← hmore, List.flatMap_append]

/-- All of the tags, where nothing is cut off. -/
theorem Complete.emits_eq (h : Complete lead es closing) {a : Str}
    (hafter : afterHeadTag (page lead es closing post) = .ok a) (hend : NoEnd a) :
    emits a = es.map fun x => x.1.expected := by
  have htags := scrape_tags (headOf_whole hafter hend)
  rw [h post, Except.ok.injEq] at htags
  exact htags.symm

/-- One tag too many. -/
theorem Complete.not_probes (h : Complete lead es closing) {a : Str}
    (hafter : afterHeadTag (page lead es closing post) = .ok a) (hend : NoEnd a)
    (hmany : es.length < (emits a).length) : False := by
  rw [h.emits_eq hafter hend, List.length_map] at hmany
  omega

theorem InHead.boundary_closing (h : InHead lead es closing) : Boundary closing := by
  have hboundary := h.boundary []
  rwa [List.append_nil] at hboundary

/-- What is missing of the entries does not come from anywhere else. -/
theorem Complete.all_own {a : Str} {ps : List (Str × List Str)} (h : Complete lead es closing)
    (hafter : afterHeadTag (page lead es closing []) = .ok a) (hps : Paired es ps)
    (hemits : emits a = (ps.map Prod.snd).flatten) : ∀ p ∈ ps, p.2 = [p.1] := by
  obtain ⟨extra, hextra⟩ := h.exists_emits hafter
  rw [hemits, ← hps.1] at hextra
  exact (@Embed.all_own _ _ [] _ hps.2 hextra).2

/-- **Without a head tag** in lower case another one will be found. -/
theorem Complete.opened (hin : InHead lead es closing) (h : Complete lead es closing) : Opened lead := by
  by_contra hclosed
  obtain ⟨t, hclosing, -, hgt, -⟩ := hin.closing_tag
  have hpage : ∀ post, page lead es closing post = (lead ++ (written es ++ '<' :: t)) ++ '>' :: [] ++ post := by
    intro post
    simp [page, hclosing]
  by_cases hhead : "<head".toList <:+: lead ++ (written es ++ '<' :: t)
  · obtain ⟨front, rest, heq, hfront, hafter⟩ := exists_afterHeadTag hhead []
    simp only [← hpage] at hafter
    have hparts : lead ++ (written es ++ ('<' :: t ++ ['>'])) = front ++ '>' :: rest := by simpa using heq
    rcases append_eq_append_cons hparts with ⟨u, hlead, -⟩ | ⟨u, -, hu⟩
    · exact hclosed ⟨front, u, hlead, hfront⟩
    · rcases append_eq_append_cons hu with ⟨v, hv, rfl⟩ | ⟨v, -, hv⟩
      · -- The first entry is behind it, at least.
        obtain ⟨ps, hps, hemits, p, hp, hlost⟩ := exists_paired_cut hin.entries hin.boundary_closing hv
        have hnone := hin.emits_closing []
        rw [List.append_nil, emits_nil] at hnone
        rw [hnone, List.append_nil, hclosing] at hemits
        have hown := h.all_own (hafter []) hps (by rw [List.append_nil]; exact hemits) p hp
        exact hlost (by simp [hown])
      · -- The body is read, and nothing else.
        have hrest : rest = [] := by
          rcases append_eq_append_cons hv with ⟨w, hw, -⟩ | ⟨w, -, hw⟩
          · have hmem : '>' ∈ '<' :: t := by simp [hw]
            simp [hgt] at hmem
          · cases w with
            | nil => simpa using hw.symm
            | cons d w => simp at hw
        have hafter := hafter (written (probes (es.length + 1)))
        rw [hrest, List.nil_append] at hafter
        exact h.not_probes hafter (noEnd_probes _) (by rw [emits_probes]; omega)
  · have hclear : Scan.Clear ("<head".toList).isPrefixOf (lead ++ (written es ++ '<' :: t) ++ ['>'])
        ("<head".toList ++ ([] ++ '>' :: written (probes (es.length + 1)))) :=
      Scan.clear_append.mpr ⟨(Scan.clear_word (by decide) (by decide)).mpr hhead,
        Scan.clear_of_not_mem (w := "head".toList) (by decide)⟩
    have hafter := afterHeadTag_eq hclear (by simp)
    have hdocument : (lead ++ (written es ++ '<' :: t) ++ ['>']) ++
        ("<head".toList ++ ([] ++ '>' :: written (probes (es.length + 1)))) =
          page lead es closing ("<head>".toList ++ written (probes (es.length + 1))) := by
      rw [hpage]
      simp
    rw [hdocument] at hafter
    exact h.not_probes hafter (noEnd_probes _) (by rw [emits_probes]; omega)

/-- The front of a page, up to its metadata. -/
def sampleLead : Str := "<!doctype html><html><head><title>x</title>".toList

def sampleEntries : List (MetaEntry × Str) :=
  [({ key := .name, value := "description".toList, content := "Tom &amp; Jerry's <meta name='x'".toList }, ['\n']),
    ({ key := .property, value := "og:title".toList, content := ['x'] }, [])]

theorem sampleLead_silent : Silent sampleLead :=
  silent_of_clear (by decide +kernel) (by unfold NoEnd; decide +kernel)

theorem sampleEntries_inHead : InHead sampleLead sampleEntries "</HEAD>".toList where
  lead_silent := sampleLead_silent
  entries := by
    intro x hx
    simp only [sampleEntries, List.mem_cons, List.not_mem_nil, or_false] at hx
    rcases hx with rfl | rfl
    · exact ⟨by decide +kernel, silent_of_clear (by decide +kernel) (by unfold NoEnd; decide)⟩
    · exact ⟨by decide +kernel, silent_nil⟩
  closing_tag := ⟨"/HEAD".toList, by decide +kernel⟩

/-- An entry whose content is legal between quotes. -/
def comparison : MetaEntry where
  key := .name
  value := "description".toList
  content := "a > b".toList

end NekoGuard.Embed
