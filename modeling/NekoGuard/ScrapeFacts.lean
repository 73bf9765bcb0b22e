/-
Nothing of an origin's document gets out of the tag or the title it is put
into (`scrape_safe`), and lifting it out never panics (`scrape_ok`).
-/
import NekoGuard.Scrape

namespace NekoGuard.Embed

open Lib

/-! ## Tags -/

/-- A `meta` tag around two values, neither of which can end its own. -/
def Emitted (tag : Str) : Prop :=
  ∃ key value content, tag = metaTag key value content ∧ Inert value ∧ Inert content

theorem twitterCard_emitted : Emitted twitterCard := by
  have heq : twitterCard = metaTag .name "twitter:card".toList "summary_large_image".toList := by decide +kernel
  have hvalue : Inert "twitter:card".toList := ⟨by decide, by decide, by decide⟩
  have hcontent : Inert "summary_large_image".toList := ⟨by decide, by decide, by decide⟩
  exact ⟨.name, _, _, heq, hvalue, hcontent⟩

theorem count_around (a b d e key value content : Str) (c : Char) :
    (a ++ key ++ b ++ value ++ d ++ content ++ e).count c =
      (a ++ b ++ d ++ e).count c + key.count c + value.count c + content.count c := by
  simp only [List.count_append]
  omega

/-- What a tag has of its own. -/
def frame : Str := "<meta ".toList ++ "=\"".toList ++ "\" content=\"".toList ++ "\">".toList

theorem count_metaTag (key : Key) (value content : Str) (c : Char) :
    (metaTag key value content).count c =
      frame.count c + key.text.toList.count c + value.count c + content.count c :=
  count_around "<meta ".toList "=\"".toList "\" content=\"".toList "\">".toList key.text.toList value content c

/-- Such a tag is one element: the only `<` and `>` are its own, and the
only quotes are those around its two values. -/
theorem Emitted.one_element {tag : Str} (h : Emitted tag) :
    tag.count '<' = 1 ∧ tag.count '>' = 1 ∧ tag.count '\"' = 4 := by
  obtain ⟨key, value, content, rfl, hv, hc⟩ := h
  have hframe : frame.count '<' = 1 ∧ frame.count '>' = 1 ∧ frame.count '\"' = 4 := by decide +kernel
  have hkey : key.text.toList.count '<' = 0 ∧ key.text.toList.count '>' = 0 ∧ key.text.toList.count '\"' = 0 := by
    cases key <;> decide +kernel
  have hlt := List.count_eq_zero_of_not_mem hv.lt
  have hgt := List.count_eq_zero_of_not_mem hv.gt
  have hquote := List.count_eq_zero_of_not_mem hv.quote
  have hlt' := List.count_eq_zero_of_not_mem hc.lt
  have hgt' := List.count_eq_zero_of_not_mem hc.gt
  have hquote' := List.count_eq_zero_of_not_mem hc.quote
  simp only [count_metaTag]
  omega

/-- What one tag of the document adds. -/
theorem renderTag_ok (m : Meta) (tag : Str) : ∃ m', renderTag m tag = .ok m' ∧
    (m' = m ∨ ∃ t, m' = { m with tags := m.tags ++ [t] } ∧ Emitted t) := by
  unfold renderTag
  split
  · exact ⟨m, rfl, .inl rfl⟩
  · next key value hkey =>
    simp only []
    split
    · exact ⟨m, rfl, .inl rfl⟩
    · split
      · exact ⟨m, rfl, .inl rfl⟩
      · next content hcontent =>
        split
        · exact ⟨m, rfl, .inl rfl⟩
        · split
          · exact ⟨m, rfl, .inl rfl⟩
          · split
            · exact ⟨_, rfl, .inr ⟨_, rfl, twitterCard_emitted⟩⟩
            · obtain ⟨v, hv⟩ := decode_ok value
              obtain ⟨c, hc⟩ := decode_ok content
              rw [hv, hc]
              exact ⟨_, rfl, .inr ⟨_, rfl, key, _, _, rfl, htmlEscape_inert v, htmlEscape_inert c⟩⟩

theorem foldlM_renderTag_ok (tags : List Str) {m : Meta} (hm : ∀ t ∈ m.tags, Emitted t) :
    ∃ m', tags.foldlM renderTag m = .ok m' ∧ ∀ t ∈ m'.tags, Emitted t := by
  induction tags generalizing m with
  | nil => exact ⟨m, rfl, hm⟩
  | cons tag tags ih =>
    obtain ⟨m', hok, hadded⟩ := renderTag_ok m tag
    have hm' : ∀ t ∈ m'.tags, Emitted t := by
      rcases hadded with rfl | ⟨t, rfl, ht⟩
      · exact hm
      · intro u hu
        rcases List.mem_append.mp hu with hu | hu
        · exact hm u hu
        · rw [List.mem_singleton.mp hu]
          exact ht
    rw [List.foldlM_cons, hok]
    exact ih hm'

/-- A `link` tag sets the icon's URL, if anything. -/
theorem noteIcon_eq (m : Meta) (tag : Str) : ∃ url, noteIcon m tag = { m with iconUrl := url } := by
  unfold noteIcon
  split
  · exact ⟨m.iconUrl, rfl⟩
  · split
    · exact ⟨m.iconUrl, rfl⟩
    · split
      · exact ⟨m.iconUrl, rfl⟩
      · split
        · exact ⟨m.iconUrl, rfl⟩
        · split
          · exact ⟨_, rfl⟩
          · exact ⟨m.iconUrl, rfl⟩

theorem foldl_noteIcon_eq (tags : List Str) (m : Meta) : ∃ url, tags.foldl noteIcon m = { m with iconUrl := url } := by
  induction tags generalizing m with
  | nil => exact ⟨m.iconUrl, rfl⟩
  | cons tag tags ih =>
    obtain ⟨url, hurl⟩ := noteIcon_eq m tag
    obtain ⟨url', hurl'⟩ := ih (noteIcon m tag)
    exact ⟨url', by rw [List.foldl_cons, hurl', hurl]⟩

theorem foldl_noteIcon_tags (tags : List Str) (m : Meta) : (tags.foldl noteIcon m).tags = m.tags := by
  obtain ⟨url, hurl⟩ := foldl_noteIcon_eq tags m
  rw [hurl]

/-! ## Documents -/

/-- What is behind the head tag, or all of a document. -/
theorem afterHeadTag_ok (document : Str) : ∃ head, afterHeadTag document = .ok head ∧ head <:+ document := by
  unfold afterHeadTag
  cases hfind : Text.find document "<head".toList with
  | none => exact ⟨document, rfl, List.suffix_refl _⟩
  | some start =>
    obtain ⟨p, t, rfl, rfl⟩ := Text.exists_of_find hfind
    simp only [Text.sliceFrom_append, bind, Except.bind]
    cases hgt : Text.find ("<head".toList ++ t) ['>'] with
    | none => exact ⟨_, Text.sliceFrom_append _ _, List.suffix_append _ _⟩
    | some i =>
      obtain ⟨q, r, hq, rfl⟩ := Text.exists_of_find hgt
      have hlen : Text.byteLen p + Text.byteLen q + 1 = Text.byteLen (p ++ (q ++ ['>'])) := by
        rw [Text.byteLen_append, Text.byteLen_append]
        rfl
      rw [hq, Option.map_some, Option.getD_some, hlen, ← List.append_assoc q, ← List.append_assoc p]
      exact ⟨r, Text.sliceFrom_append _ _, List.suffix_append _ _⟩

theorem headOf_ok (document : Str) : ∃ head, headOf document = .ok head := by
  have hstop : ∀ head, ∃ out, Text.sliceTo head
      ((Text.find (Text.toAsciiLowercase head) "</head>".toList).getD (Text.byteLen head)) = .ok out := by
    intro head
    cases hfind : Text.find (Text.toAsciiLowercase head) "</head>".toList with
    | none =>
      have hwhole := Text.sliceTo_append head []
      rw [List.append_nil] at hwhole
      exact ⟨head, hwhole⟩
    | some n =>
      obtain ⟨p, t, rfl, rfl⟩ := Text.exists_of_find_lower hfind
      exact ⟨p, Text.sliceTo_append p t⟩
  obtain ⟨head, hhead, -⟩ := afterHeadTag_ok document
  obtain ⟨out, hout⟩ := hstop head
  refine ⟨out, ?_⟩
  unfold headOf
  rw [hhead]
  exact hout

theorem titleOf_ok (head : Str) : ∃ title, titleOf head = .ok title := by
  unfold titleOf
  split
  · exact ⟨none, rfl⟩
  · next text _ _ =>
    obtain ⟨decoded, hdecoded⟩ := decode_ok text
    rw [hdecoded]
    exact ⟨_, rfl⟩

theorem scrape_ok (document : Str) : ∃ m, scrape document = .ok m ∧ ∀ tag ∈ m.tags, Emitted tag := by
  obtain ⟨head, hhead⟩ := headOf_ok document
  obtain ⟨m, hm, htags⟩ := foldlM_renderTag_ok (Scan.all metaTagRe head)
    (m := { title := none, tags := [], iconUrl := none, icon := none }) nofun
  obtain ⟨title, htitle⟩ := titleOf_ok head
  unfold scrape
  rw [hhead]
  simp only [bind, Except.bind, hm, htitle]
  split
  · exact ⟨_, rfl, by rwa [foldl_noteIcon_tags]⟩
  · exact ⟨_, rfl, by rwa [foldl_noteIcon_tags]⟩

/-! ## Titles -/

theorem exists_of_afterWord {word s rest : Str} (h : afterWord word s = some rest) : ∃ w, s = w ++ rest := by
  induction word generalizing s with
  | nil =>
    cases h
    exact ⟨[], rfl⟩
  | cons p word ih =>
    cases s with
    | nil => cases h
    | cons c s =>
      unfold afterWord at h
      split at h
      · obtain ⟨w, rfl⟩ := ih h
        exact ⟨c :: w, rfl⟩
      · cases h

theorem dropWhile_ne_of_mem {c : Char} {s : Str} (h : c ∈ s) :
    s.dropWhile (· ≠ c) = c :: (s.dropWhile (· ≠ c)).tail := by
  induction s with
  | nil => cases h
  | cons d s ih =>
    by_cases hd : d = c
    · simp [hd]
    · have hmem := (List.mem_cons.mp h).resolve_left (Ne.symm hd)
      simpa [hd] using ih hmem

theorem exists_of_through {c : Char} {s m rest : Str} (h : through c s = some (m, rest)) : s = m ++ rest := by
  unfold through at h
  split at h
  · next hmem =>
    cases h
    rw [List.append_assoc, List.singleton_append, ← dropWhile_ne_of_mem hmem, List.takeWhile_append_dropWhile]
  · cases h

theorem exists_of_titleRe {s text after : Str} (h : titleRe s = some (text, after)) : ∃ w, s = w ++ after := by
  unfold titleRe at h
  simp only [Option.bind_eq_bind, Option.bind_eq_some_iff, Option.pure_def, Option.some.injEq, Prod.exists,
    Prod.mk.injEq] at h
  obtain ⟨rest, hword, m, body, hbody, text', u, after', hfirst, -, rfl⟩ := h
  obtain ⟨w, rfl⟩ := exists_of_afterWord hword
  obtain ⟨t, rfl, htail⟩ := Scan.first_eq_some hfirst
  have hclose : ∃ v, t = v ++ after' := by
    unfold titleEndRe at htail
    split at htail
    · next rest' hrest =>
      cases htail
      obtain ⟨y, hy, hdrop⟩ := Option.map_eq_some_iff.mp hrest
      obtain ⟨x, rfl⟩ := exists_of_afterWord hy
      refine ⟨x ++ (y.takeWhile Text.isWhitespace ++ ['>']), ?_⟩
      rw [List.append_assoc, List.append_assoc, List.singleton_append, ← hdrop, List.takeWhile_append_dropWhile]
    · cases htail
  obtain ⟨v, rfl⟩ := hclose
  rw [exists_of_through hbody]
  exact ⟨w ++ (m ++ (text' ++ v)), by simp⟩

/-- What becomes of a page: a stretch of it makes way for a title that
cannot be closed early. -/
theorem replaceTitle_eq (page title : Str) : replaceTitle page title = page ∨
    ∃ before old inserted after, page = before ++ (old ++ after) ∧ Inert inserted ∧
      replaceTitle page title = before ++ ("<title>".toList ++ inserted ++ "</title>".toList) ++ after := by
  unfold replaceTitle
  split
  · exact .inl rfl
  · next before text after hfirst =>
    obtain ⟨t, rfl, ht⟩ := Scan.first_eq_some hfirst
    obtain ⟨old, rfl⟩ := exists_of_titleRe ht
    exact .inr ⟨before, old, htmlEscape title, after, rfl, htmlEscape_inert title, rfl⟩

/-- **A document stays inside its tags.** Each tag that is lifted out of it
is one `meta` element around two inert values, and the title put into a page
is inert. -/
theorem scrape_safe (document page title : Str) :
    (∃ m, scrape document = .ok m ∧ ∀ tag ∈ m.tags, Emitted tag ∧
      tag.count '<' = 1 ∧ tag.count '>' = 1 ∧ tag.count '\"' = 4) ∧
    (replaceTitle page title = page ∨
      ∃ before old inserted after, page = before ++ (old ++ after) ∧ Inert inserted ∧
        replaceTitle page title = before ++ ("<title>".toList ++ inserted ++ "</title>".toList) ++ after) := by
  obtain ⟨m, hm, htags⟩ := scrape_ok document
  exact ⟨⟨m, hm, fun tag ht => ⟨htags tag ht, (htags tag ht).one_element⟩⟩, replaceTitle_eq page title⟩

end NekoGuard.Embed
