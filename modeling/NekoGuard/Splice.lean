/-
embed.rs: the origin's title and metadata put into the interstitial page,
and when all of them land where they belong (`inlineInto_iff`).
-/
import NekoGuard.EntitiesFacts
import NekoGuard.PatternFacts
import NekoGuard.Std.TextFacts

namespace NekoGuard.Embed

open Lib Config

/-- What the template holds the place of the tags with. -/
def marker : Str := "\x7b\x7bNG_META\x7d\x7d".toList

/-- `FAVICON_LINK`. -/
def faviconLink : Str := "<link rel=\"icon\" href=\"/__ng/favicon.ico\">".toList

/-- What `inline_into` puts in place of the marker. -/
def injected (m : Option Meta) : Str :=
  match m with
  | some m => m.tags.flatten ++ if m.icon.isSome then faviconLink else []
  | none => []

/-- The title of the origin, or its name. -/
def titleFor (title : Option Str) (host : Str) : Str := title.getD (normalizeHost host)

/-- `inline_into`, once `load` has returned. -/
def inlineInto (page : Str) (m : Option Meta) (host : Str) : Str :=
  Text.replacen (replaceTitle page (titleFor (m.bind Meta.title) host)) marker (injected m) 1

/-! ## Pages -/

/-- A page with one title element, and with the marker behind it. The
attributes of the title's tag may be anything that does not end it at once;
its text goes on to the first end tag. -/
structure Interstitial (page before opening text closing between rest : Str) : Prop where
  page_eq : page = before ++ (opening ++ (text ++ (closing ++ (between ++ (marker ++ rest)))))
  no_title_before : Scan.Clear (fun s => (afterWord "<title".toList s).isSome) before
    (opening ++ (text ++ (closing ++ (between ++ (marker ++ rest)))))
  opening_tag : ∃ attrs, afterWord "<title".toList opening = some (attrs ++ ['>']) ∧ attrs.head? ≠ some '>'
  closing_tag : ∃ ws, afterWord "</title".toList closing = some (ws ++ ['>']) ∧
    ∀ c ∈ ws, Text.isWhitespace c = true
  no_end_before : Scan.Clear (fun s => (titleEndRe s).isSome) text (closing ++ (between ++ (marker ++ rest)))
  no_marker_before : Scan.Clear (marker.isPrefixOf ·) (before ++ (opening ++ (text ++ (closing ++ between))))
    (marker ++ rest)

variable {page before opening text closing between rest title : Str}

/-! ## The marker -/

theorem marker_ne_nil : marker ≠ [] := by decide

theorem lt_not_mem_marker : '<' ∉ marker := by decide

/-- The marker has nothing in common with a tag. -/
theorem clear_of_no_brace {s : Str} (hs : '\x7b' ∉ s) (back : Str) : Scan.Clear marker.isPrefixOf s back :=
  Scan.clear_of_not_mem (w := marker.tail) hs

/-- No `<` continues it. -/
theorem clear_marker_iff {s back : Str} : Scan.Clear marker.isPrefixOf s ('<' :: back) ↔ ¬marker <:+: s :=
  Scan.clear_word (by decide) marker_ne_nil

/-- A character is escaped to itself, or to what a marker has nothing of. -/
theorem escapeChar_cases (c : Char) : escapeChar c = [c] ∨ ∀ d ∈ escapeChar c, d ∉ marker := by
  unfold escapeChar
  split_ifs
  · exact .inr (by decide)
  · exact .inr (by decide)
  · exact .inr (by decide)
  · exact .inr (by decide)
  · exact .inl rfl

theorem prefix_of_prefix_flatMap {w s : Str} (hw : w ⊆ marker) (h : w <+: s.flatMap escapeChar) : w <+: s := by
  induction s generalizing w with
  | nil => simpa using h
  | cons c s ih =>
    cases w with
    | nil => exact List.nil_prefix
    | cons d w =>
      rw [List.flatMap_cons] at h
      rcases escapeChar_cases c with hc | hc
      · rw [hc, List.singleton_append, List.cons_prefix_cons] at h
        obtain ⟨rfl, h⟩ := h
        exact List.cons_prefix_cons.mpr ⟨rfl, ih (fun _ hx => hw (List.mem_cons_of_mem _ hx)) h⟩
      · obtain ⟨e, es, he⟩ : ∃ e es, escapeChar c = e :: es :=
          List.exists_cons_of_ne_nil (by unfold escapeChar; split_ifs <;> simp)
        rw [he, List.cons_append, List.cons_prefix_cons] at h
        exact absurd (hw (by simp)) (h.1 ▸ hc e (by simp [he]))

theorem infix_of_infix_append {s t : Str} (hs : ∀ d ∈ s, d ∉ marker) (h : marker <:+: s ++ t) : marker <:+: t := by
  induction s with
  | nil => exact h
  | cons d s ih =>
    rw [List.cons_append, List.infix_cons_iff] at h
    rcases h with h | h
    · exact absurd ((List.cons_prefix_cons.mp h).1 ▸ List.mem_cons_self) (hs d (by simp))
    · exact ih (fun e he => hs e (by simp [he])) h

/-- Escaping neither makes a marker nor takes one apart. -/
theorem marker_infix_htmlEscape (s : Str) : marker <:+: htmlEscape s ↔ marker <:+: s := by
  rw [htmlEscape_eq]
  constructor
  · intro h
    induction s with
    | nil => simpa using h
    | cons c s ih =>
      rw [List.flatMap_cons] at h
      rcases escapeChar_cases c with hc | hc
      · rw [hc, List.singleton_append, List.infix_cons_iff] at h
        rcases h with h | h
        · refine (prefix_of_prefix_flatMap (List.Subset.refl _) ?_).isInfix
          rwa [List.flatMap_cons, hc]
        · exact List.infix_cons (ih h)
      · exact List.infix_cons (ih (infix_of_infix_append hc h))
  · rintro ⟨a, b, rfl⟩
    have hmarker : marker.flatMap escapeChar = marker := by decide
    rw [List.flatMap_append, List.flatMap_append, hmarker]
    exact ⟨_, _, rfl⟩

/-- A marker put in before a text moves its first `<`. -/
theorem marker_append_ne {s t t' : Str} (hs : '<' ∉ s) : s ++ '<' :: t ≠ marker ++ (s ++ '<' :: t') := by
  intro heq
  have hplain : ∀ u : Str, '<' ∉ u → ∀ v : Str, (u ++ '<' :: v).takeWhile (· ≠ '<') = u := by
    intro u hu v
    rw [List.takeWhile_append_of_pos fun d hd => by
      have hne : d ≠ '<' := fun h => hu (h ▸ hd)
      simpa using hne]
    simp
  have hcut := congrArg (fun u => (u.takeWhile (· ≠ '<')).length) heq
  rw [← List.append_assoc, hplain s hs, hplain (marker ++ s) (by simp [lt_not_mem_marker, hs]), List.length_append] at hcut
  have hlen : marker.length = 11 := by decide
  omega

/-! ## The page -/

variable (h : Interstitial page before opening text closing between rest)
include h

theorem Interstitial.clear_before (tail : Str) : Scan.Clear marker.isPrefixOf before ('<' :: tail) := by
  obtain ⟨attrs, hopening, -⟩ := h.opening_tag
  obtain ⟨t, rfl, -⟩ := exists_of_afterWord_lt hopening
  exact clear_marker_iff.mpr (clear_marker_iff.mp (Scan.clear_append.mp h.no_marker_before).1)

theorem Interstitial.clear_between : Scan.Clear marker.isPrefixOf between (marker ++ rest) := by
  have hclear := h.no_marker_before
  simp only [Scan.clear_append] at hclear
  exact hclear.2.2.2.2

/-- The tag starts like a plain one, or is one. -/
theorem Interstitial.plain_of_prefix {c d : Str} (heq : "<title>".toList ++ c = opening ++ d) :
    opening = "<title>".toList := by
  obtain ⟨attrs, hopening, hhead⟩ := h.opening_tag
  obtain ⟨tag, rfl⟩ := exists_of_afterWord hopening
  have hlen := length_of_afterWord hopening
  have htag : tag.length = "<title".toList.length := by simpa using hlen
  have hsplit : "<title".toList ++ ('>' :: c) = tag ++ (attrs ++ ['>'] ++ d) := by
    rw [← List.append_assoc]
    exact heq
  obtain ⟨rfl, hrest⟩ := List.append_inj hsplit htag.symm
  cases attrs with
  | nil => rfl
  | cons a attrs =>
    simp only [List.cons_append, List.cons.injEq] at hrest
    exact absurd (by simp [← hrest.1]) hhead

/-- What the title makes of the page, when its tag is a plain one. -/
theorem Interstitial.replaceTitle_eq (hopening : opening = "<title>".toList) (title : Str) :
    replaceTitle page title =
      before ++ ("<title>".toList ++ (htmlEscape title ++ ("</title>".toList ++ (between ++ (marker ++ rest))))) := by
  subst hopening
  obtain ⟨ws, hclosing, hws⟩ := h.closing_tag
  rw [h.page_eq, replaceTitle_plain h.no_title_before hclosing hws h.no_end_before]
  simp only [List.append_assoc]

/-- The marker of the page is the first, unless the title has one. -/
theorem Interstitial.replacen_of_not_infix (hopening : opening = "<title>".toList) {title : Str}
    (htitle : ¬marker <:+: title) (inject : Str) : Text.replacen (replaceTitle page title) marker inject 1 =
      before ++ ("<title>".toList ++ (htmlEscape title ++ ("</title>".toList ++ (between ++ (inject ++ rest))))) := by
  have hclear : Scan.Clear marker.isPrefixOf
      (before ++ ("<title>".toList ++ (htmlEscape title ++ ("</title>".toList ++ between)))) (marker ++ rest) := by
    simp only [Scan.clear_append, List.append_assoc]
    refine ⟨h.clear_before _, clear_of_no_brace (by decide) _, ?_, clear_of_no_brace (by decide) _, h.clear_between⟩
    exact clear_marker_iff.mpr fun hinfix => htitle ((marker_infix_htmlEscape title).mp hinfix)
  have hreplaced := @Text.replacen_one _ inject _ _ hclear marker_ne_nil
  simp only [List.append_assoc] at hreplaced
  rw [h.replaceTitle_eq hopening, hreplaced]

/-- The title's own marker is the first. -/
theorem Interstitial.replacen_of_infix (hopening : opening = "<title>".toList) {title : Str}
    (htitle : marker <:+: title) : ∃ head tail, htmlEscape title = head ++ (marker ++ tail) ∧
      Text.replacen (replaceTitle page title) marker [] 1 =
        before ++ ("<title>".toList ++ (head ++ (tail ++ ("</title>".toList ++ (between ++ (marker ++ rest)))))) := by
  obtain ⟨head, tail, hsplit, hfirst⟩ := Scan.exists_first_word ((marker_infix_htmlEscape title).mpr htitle)
  have hclear : Scan.Clear marker.isPrefixOf (before ++ ("<title>".toList ++ head))
      (marker ++ (tail ++ ("</title>".toList ++ (between ++ (marker ++ rest))))) := by
    simp only [Scan.clear_append, List.append_assoc]
    exact ⟨h.clear_before _, clear_of_no_brace (by decide) _, hfirst _⟩
  have hreplaced := @Text.replacen_one _ [] _ _ hclear marker_ne_nil
  simp only [List.append_assoc, List.nil_append] at hreplaced
  refine ⟨head, tail, hsplit, ?_⟩
  rw [h.replaceTitle_eq hopening, hsplit]
  simp only [List.append_assoc]
  exact hreplaced

/-- **When the splice is exact.** Whatever the metadata, the text of the title
is replaced by the origin's and the marker by the tags, and all else stays as
it is, if and only if the title's tags are plain and the origin's title has no
marker of its own. -/
theorem inlineInto_iff (title : Option Str) (host : Str) :
    (∀ m : Option Meta, m.bind Meta.title = title → inlineInto page m host =
      before ++ (opening ++ (htmlEscape (titleFor title host) ++ (closing ++ (between ++ (injected m ++ rest)))))) ↔
    opening = "<title>".toList ∧ closing = "</title>".toList ∧ ¬marker <:+: titleFor title host := by
  constructor
  · intro hexact
    have hbare := hexact (some ⟨title, [], none, none⟩) rfl
    unfold inlineInto at hbare
    simp only [Option.bind_some, injected, List.flatten_nil, Option.isSome_none, Bool.false_eq_true, if_false,
      List.nil_append] at hbare
    have hopening : opening = "<title>".toList := by
      obtain ⟨attrs, hattrs, -⟩ := h.opening_tag
      obtain ⟨ws, hclosing, hws⟩ := h.closing_tag
      obtain ⟨after, hafter⟩ := exists_replaceTitle h.no_title_before hattrs hclosing hws (titleFor title host)
      obtain ⟨c, hc⟩ := @Text.exists_replacen_one marker [] (before ++ "<title>".toList)
        (htmlEscape (titleFor title host) ++ ("</title>".toList ++ after))
        (Scan.clear_append.mpr ⟨h.clear_before _, clear_of_no_brace (by decide) _⟩)
      simp only [List.append_assoc] at hc
      rw [h.page_eq, hafter] at hbare
      simp only [List.append_assoc] at hbare
      rw [hc] at hbare
      exact h.plain_of_prefix (List.append_cancel_left hbare)
    have hmarker : ¬marker <:+: titleFor title host := by
      intro hinfix
      obtain ⟨head, tail, hsplit, heq⟩ := h.replacen_of_infix hopening hinfix
      obtain ⟨ws, hclosing, hws⟩ := h.closing_tag
      obtain ⟨t, rfl, -⟩ := exists_of_afterWord_lt hclosing
      have htail : '<' ∉ tail := by
        have hinert := (htmlEscape_inert (titleFor title host)).lt
        rw [hsplit] at hinert
        simp_all
      rw [heq, hsplit, hopening] at hbare
      simp only [List.append_assoc, List.append_cancel_left_eq] at hbare
      exact marker_append_ne htail hbare
    rw [h.replacen_of_not_infix hopening hmarker, hopening] at hbare
    simp only [List.append_cancel_left_eq, List.nil_append, ← List.append_assoc, List.append_cancel_right_eq] at hbare
    exact ⟨hopening, hbare.symm, hmarker⟩
  · rintro ⟨hopening, rfl, hmarker⟩ m rfl
    unfold inlineInto
    rw [h.replacen_of_not_infix hopening hmarker, hopening]

omit h

/-- The page of the tests. -/
def verifying : Str := "<html><head><title>Verifying your connection</title>\x7b\x7bNG_META\x7d\x7d</head></html>".toList

theorem verifying_interstitial : Interstitial verifying "<html><head>".toList "<title>".toList
    "Verifying your connection".toList "</title>".toList [] "</head></html>".toList where
  page_eq := by decide +kernel
  no_title_before := by decide +kernel
  opening_tag := ⟨[], by decide, by decide⟩
  closing_tag := ⟨[], by decide, by decide⟩
  no_end_before := by decide +kernel
  no_marker_before := by decide +kernel

theorem verifying_spliced :
    inlineInto verifying (some ⟨some "A & $1".toList, ["<meta>".toList], none, some ([0], "image/png")⟩) "a.example".toList =
      "<html><head><title>A &amp; $1</title><meta><link rel=\"icon\" href=\"/__ng/favicon.ico\"></head></html>".toList := by
  have hexact := (inlineInto_iff verifying_interstitial (some "A & $1".toList) "a.example".toList).mpr
    ⟨rfl, rfl, by decide +kernel⟩
  rw [hexact _ rfl]
  decide +kernel

/-- An origin whose title is the marker: the page's own is served. -/
def markerTitle : Meta where
  title := some marker
  tags := ["<meta>".toList]
  iconUrl := none
  icon := none

theorem verifying_leaked :
    Interstitial verifying "<html><head>".toList "<title>".toList "Verifying your connection".toList
      "</title>".toList [] "</head></html>".toList ∧
    inlineInto verifying (some markerTitle) "a.example".toList =
      "<html><head><title><meta></title>\x7b\x7bNG_META\x7d\x7d</head></html>".toList ∧
    inlineInto verifying (some markerTitle) "a.example".toList ≠
      "<html><head>".toList ++ ("<title>".toList ++ (htmlEscape (titleFor markerTitle.title "a.example".toList) ++
        ("</title>".toList ++ ([] ++ (injected (some markerTitle) ++ "</head></html>".toList))))) := by
  have hleaked : inlineInto verifying (some markerTitle) "a.example".toList =
      "<html><head><title><meta></title>\x7b\x7bNG_META\x7d\x7d</head></html>".toList := by decide +kernel
  refine ⟨verifying_interstitial, hleaked, ?_⟩
  rw [hleaked]
  decide +kernel

end NekoGuard.Embed
