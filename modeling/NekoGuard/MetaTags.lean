/-
What the `meta` tags of a text come to, one after the other
(`scrape_tags`), and what a tag with one key and one content comes to.
-/
import NekoGuard.EntitiesFacts
import NekoGuard.PatternFacts

namespace NekoGuard.Embed

open Lib

/-! ## One tag -/

/-- What `render_tag` adds for a tag of the document. -/
def emitted (tag : Str) : List Str :=
  match keyOf tag with
  | none => []
  | some (key, value) =>
    let lower := Text.toAsciiLowercase value
    if !wanted key lower then []
    else
      match attributeOf tag "content" with
      | none => []
      | some content =>
        if content = [] then []
        else if lower = "og:url".toList ∨ lower = "twitter:url".toList then []
        else if lower = "twitter:card".toList then [twitterCard]
        else [metaTag key (htmlEscape (decoded value)) (htmlEscape (decoded content))]

theorem renderTag_eq (m : Meta) (tag : Str) : renderTag m tag = .ok { m with tags := m.tags ++ emitted tag } := by
  have hnone : (.ok m : Rust Meta) = .ok { m with tags := m.tags ++ [] } := by rw [List.append_nil]
  unfold renderTag emitted
  cases keyOf tag with
  | none => exact hnone
  | some x =>
    obtain ⟨key, value⟩ := x
    simp only []
    cases wanted key (Text.toAsciiLowercase value) with
    | false => exact hnone
    | true =>
      cases attributeOf tag "content" with
      | none => exact hnone
      | some content =>
        simp only [Bool.not_true, Bool.false_eq_true, if_false]
        split
        · exact hnone
        · split
          · exact hnone
          · split
            · rfl
            · rw [decode_eq, decode_eq]
              rfl

/-- What all of them add. -/
def emits (s : Str) : List Str := (Scan.all metaTagRe s).flatMap emitted

theorem foldlM_renderTag (tags : List Str) (m : Meta) :
    tags.foldlM renderTag m = .ok { m with tags := m.tags ++ tags.flatMap emitted } := by
  induction tags generalizing m with
  | nil => rw [List.flatMap_nil, List.append_nil]; rfl
  | cons tag tags ih =>
    rw [List.foldlM_cons, renderTag_eq, List.flatMap_cons, ← List.append_assoc]
    exact ih _

/-- **The tags of a document** are those of its head, in order. -/
theorem scrape_tags {document head : Str} (h : headOf document = .ok head) :
    (scrape document).map Meta.tags = .ok (emits head) := by
  obtain ⟨title, htitle⟩ := titleOf_ok head
  unfold scrape
  rw [h]
  simp only [bind, Except.bind, foldlM_renderTag, htitle]
  split
  · simp [Except.map, pure, Except.pure, foldl_noteIcon_tags, emits]
  · simp [Except.map, pure, Except.pure, foldl_noteIcon_tags, emits]

/-! ## Tags written out -/

variable {key : Key} {value content tail : Str}

/-- A tag up to the quote that ends its key. -/
def keyed (key : Key) (value tail : Str) : Str :=
  "<meta".toList ++ ' ' :: (key.text.toList ++ '=' :: '\"' :: (value ++ '\"' :: tail))

/-- The rest of it. -/
def contentAttr (content tail : Str) : Str := ' ' :: ("content".toList ++ '=' :: '\"' :: (content ++ '\"' :: tail))

theorem metaTag_eq (key : Key) (value content : Str) :
    metaTag key value content = keyed key value (contentAttr content ['>']) := by
  have hopen : "<meta ".toList = "<meta".toList ++ [' '] := rfl
  have hkey : "=\"".toList = ['=', '\"'] := rfl
  have hcontent : "\" content=\"".toList = '\"' :: ' ' :: ("content".toList ++ ['=', '\"']) := rfl
  have hclose : "\">".toList = ['\"', '>'] := rfl
  unfold metaTag keyed contentAttr
  rw [hopen, hkey, hcontent, hclose]
  simp only [List.append_assoc, List.cons_append, List.nil_append]

theorem keyed_append (key : Key) (value tail back : Str) :
    keyed key value tail ++ back = keyed key value (tail ++ back) := by
  unfold keyed
  simp only [List.append_assoc, List.cons_append]

theorem attrs_keyed (hvalue : '\"' ∉ value) (tail : Str) :
    Scan.all attrRe (keyed key value tail) = (key.text.toList, value) :: Scan.all attrRe tail := by
  have hhead : key.text.toList.head?.any isNameStart = true := by cases key <;> decide
  have hname : ∀ c ∈ key.text.toList, isNameChar c = true := by cases key <;> decide
  unfold keyed
  rw [Scan.all_append (clear_attrRe (by decide) _), Scan.all_of_match attrRe_consumes (attrRe_eq hhead hname hvalue tail)]

theorem attrs_contentAttr (hcontent : '\"' ∉ content) (tail : Str) :
    Scan.all attrRe (contentAttr content tail) = ("content".toList, content) :: Scan.all attrRe tail :=
  Scan.all_of_match attrRe_consumes (attrRe_eq (by decide) (by decide) hcontent tail)

theorem attrs_metaTag (hvalue : '\"' ∉ value) (hcontent : '\"' ∉ content) :
    Scan.all attrRe (metaTag key value content) = [(key.text.toList, value), ("content".toList, content)] := by
  have hend : Scan.all attrRe ['>'] = [] := by decide
  rw [metaTag_eq, attrs_keyed hvalue, attrs_contentAttr hcontent, hend]

theorem keyOf_of_attrs {tag : Str} {attrs : List (Str × Str)}
    (h : Scan.all attrRe tag = (key.text.toList, value) :: attrs)
    (hname : ∀ a ∈ attrs, Text.eqIgnoreAsciiCase a.1 "name".toList = false) : keyOf tag = some (key, value) := by
  unfold keyOf attributeOf
  rw [h]
  cases key with
  | name =>
    have heq : Text.eqIgnoreAsciiCase Key.name.text.toList "name".toList = true := by decide
    simp only [List.find?_cons, heq, Option.map_some]
  | property =>
    have hnone : attrs.find? (fun a => Text.eqIgnoreAsciiCase a.1 "name".toList) = none :=
      List.find?_eq_none.mpr fun a ha => by rw [hname a ha]; exact Bool.false_ne_true
    have hne : Text.eqIgnoreAsciiCase Key.property.text.toList "name".toList = false := by decide
    have heq : Text.eqIgnoreAsciiCase Key.property.text.toList "property".toList = true := by decide
    simp only [List.find?_cons, hne, heq, hnone, Option.map_none, Option.map_some]

/-- An entry that is wanted, under a key that is kept. -/
structure Descriptive (key : Key) (value : Str) : Prop where
  wanted : wanted key (Text.toAsciiLowercase value) = true
  not_url : Text.toAsciiLowercase value ≠ "og:url".toList ∧ Text.toAsciiLowercase value ≠ "twitter:url".toList
  not_card : Text.toAsciiLowercase value ≠ "twitter:card".toList

instance (key : Key) (value : Str) : Decidable (Descriptive key value) :=
  decidable_of_iff
    (Embed.wanted key (Text.toAsciiLowercase value) = true ∧
      (Text.toAsciiLowercase value ≠ "og:url".toList ∧ Text.toAsciiLowercase value ≠ "twitter:url".toList) ∧
      Text.toAsciiLowercase value ≠ "twitter:card".toList)
    ⟨fun h => ⟨h.1, h.2.1, h.2.2⟩, fun h => ⟨h.wanted, h.not_url, h.not_card⟩⟩

theorem emitted_metaTag (h : Descriptive key value) (hvalue : '\"' ∉ value) (hcontent : '\"' ∉ content)
    (hne : content ≠ []) :
    emitted (metaTag key value content) = [metaTag key (htmlEscape (decoded value)) (htmlEscape (decoded content))] := by
  have hattrs := @attrs_metaTag key _ _ hvalue hcontent
  have hkey := keyOf_of_attrs hattrs (by
    intro a ha
    rw [List.mem_singleton.mp ha]
    show Text.eqIgnoreAsciiCase "content".toList "name".toList = false
    decide)
  have hfound : attributeOf (metaTag key value content) "content" = some content := by
    have hother : Text.eqIgnoreAsciiCase key.text.toList "content".toList = false := by cases key <;> decide
    have hself : Text.eqIgnoreAsciiCase "content".toList "content".toList = true := by decide
    unfold attributeOf
    rw [hattrs]
    simp only [List.find?_cons, hother, hself, Option.map_some]
  unfold emitted
  rw [hkey]
  simp only [h.wanted, hfound, hne, h.not_url, h.not_card, Bool.not_true, Bool.false_eq_true, if_false, or_self]

theorem metaStart_keyed (key : Key) (value tail : Str) : metaStart (keyed key value tail) = true := by
  unfold metaStart keyed
  rw [show '<' :: "meta".toList = "<meta".toList from rfl, afterWord_self (by decide)]
  rfl

theorem gt_not_mem_keyed (hvalue : '>' ∉ value) (htail : '>' ∉ tail) : '>' ∉ keyed key value tail := by
  have hkey : '>' ∉ key.text.toList := by cases key <;> decide
  simp [keyed, hkey, hvalue, htail]

theorem gt_not_mem_contentAttr (hcontent : '>' ∉ content) (htail : '>' ∉ tail) : '>' ∉ contentAttr content tail := by
  simp [contentAttr, hcontent, htail]

theorem metaTag_eq_append (key : Key) (value content : Str) :
    metaTag key value content = keyed key value (contentAttr content []) ++ ['>'] := by
  rw [metaTag_eq, keyed_append]
  simp only [contentAttr, List.cons_append, List.append_assoc, List.nil_append]

/-- A tag without a `>` inside is one match. -/
theorem metaTagRe_metaTag (hvalue : '>' ∉ value) (hcontent : '>' ∉ content) (back : Str) :
    metaTagRe (metaTag key value content ++ back) = some (metaTag key value content, back) := by
  have hgt : '>' ∉ keyed key value (contentAttr content []) :=
    gt_not_mem_keyed hvalue (gt_not_mem_contentAttr hcontent (by simp))
  rw [metaTag_eq_append, List.append_assoc, List.singleton_append, metaTagRe_gt hgt, metaStart_keyed]
  rfl

theorem splits_metaTag (back : Str) : Scan.Splits metaTagRe (metaTag key value content) back := by
  rw [metaTag_eq_append]
  exact splits_of_gt _ _

/-- Such a tag adds itself, decoded and escaped. -/
theorem emits_metaTag (h : Descriptive key value) (hvalue : '\"' ∉ value ∧ '>' ∉ value)
    (hcontent : '\"' ∉ content ∧ '>' ∉ content) (hne : content ≠ []) :
    emits (metaTag key value content) = [metaTag key (htmlEscape (decoded value)) (htmlEscape (decoded content))] := by
  have hmatch := @metaTagRe_metaTag key _ _ hvalue.2 hcontent.2 []
  rw [List.append_nil] at hmatch
  unfold emits
  rw [Scan.all_of_match metaTagRe_consumes hmatch, List.flatMap_cons,
    emitted_metaTag h hvalue.1 hcontent.1 hne]
  rfl

end NekoGuard.Embed
