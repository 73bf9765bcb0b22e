/-
The Location header through `proxy_to_upstream`: when two text replacements
come to the rewriting of a URL of the upstream (`location_rewritten_iff`).
-/
import NekoGuard.FetchFacts
import NekoGuard.Proxy

namespace NekoGuard.Proxy

open Lib UriCrate

def plainUrl (authority : Str) : Str := "http://".toList ++ authority

def secureUrl (authority : Str) : Str := "https://".toList ++ authority

/-- An absolute URL of the upstream: any spelling of the scheme, exactly the
authority, and what follows one. -/
structure UpstreamUrl (upAuthority url scheme rest : Str) : Prop where
  url_eq : url = scheme ++ ("://".toList ++ (upAuthority ++ rest))
  scheme_eq : Text.toAsciiLowercase scheme = "http".toList ∨ Text.toAsciiLowercase scheme = "https".toList
  rest_head : ∀ c ∈ rest.head?, isDelimiter c = true

/-- A Location as the browser should see it: such a URL under the public
host, anything else unchanged. -/
structure Rewritten (upAuthority publicHost url out : Str) : Prop where
  upstream : ∀ scheme rest, UpstreamUrl upAuthority url scheme rest → out = secureUrl publicHost ++ rest
  other : (¬∃ scheme rest, UpstreamUrl upAuthority url scheme rest) → out = url

variable {a b h rest url scheme s t u v : Str}

/-! ## Replacements -/

/-- Up to the first slash, and behind it. -/
theorem plainUrl_eq (a : Str) : plainUrl a = ['h', 't', 't', 'p', ':'] ++ '/' :: '/' :: a := rfl

theorem secureUrl_eq (a : Str) : secureUrl a = ['h', 't', 't', 'p', 's', ':'] ++ '/' :: '/' :: a := rfl

theorem plainUrl_ne_nil (a : Str) : plainUrl a ≠ [] := nofun

theorem secureUrl_ne_nil (a : Str) : secureUrl a ≠ [] := nofun

theorem length_secureUrl (a : Str) : (secureUrl a).length = (plainUrl a).length + 1 := rfl

theorem secureUrl_ne_plainUrl (a h : Str) : secureUrl h ≠ plainUrl a := by
  rw [plainUrl_eq, secureUrl_eq]
  simp

theorem secureUrl_inj : secureUrl h = secureUrl a ↔ h = a := List.append_right_inj _

theorem rewriteLocation_eq (a h loc : Str) :
    rewriteLocation a h loc =
      Text.replace (Text.replace loc (plainUrl a) (secureUrl h)) (secureUrl a) (secureUrl h) := rfl

/-- The replacements change nothing. -/
theorem rewriteLocation_self_iff (loc : Str) :
    rewriteLocation a h loc = loc ↔ ¬plainUrl a <:+: loc ∧ (¬secureUrl a <:+: loc ∨ h = a) := by
  have hiff := Text.replace_replace_eq_iff (s := loc) (u := []) (plainUrl_ne_nil a) (length_secureUrl a)
    (secureUrl_ne_plainUrl a h)
  rw [List.nil_append, List.nil_append, secureUrl_inj] at hiff
  exact hiff

/-- A URL of the upstream without TLS. -/
theorem rewriteLocation_plain_iff (rest : Str) :
    rewriteLocation a h (plainUrl a ++ rest) = secureUrl h ++ rest ↔
      ¬plainUrl a <:+: rest ∧ (¬secureUrl a <:+: secureUrl h ++ rest ∨ h = a) := by
  rw [rewriteLocation_eq, Text.replace_match (plainUrl_ne_nil a),
    Text.replace_replace_eq_iff (plainUrl_ne_nil a) (length_secureUrl a) (secureUrl_ne_plainUrl a h), secureUrl_inj]

/-! ## Overlaps -/

/-- What stands before the first slash, or colon. -/
theorem eq_of_prefix_cons {d : Char} (hu : d ∉ u) (hv : d ∉ v) (h : (u ++ d :: s) <+: v ++ d :: t) : u = v := by
  have htake : ∀ {w : Str}, d ∉ w → ∀ x, (w ++ d :: x).takeWhile (· ≠ d) = w := by
    intro w hw x
    rw [List.takeWhile_append_of_pos fun c hc => by simpa using fun heq : c = d => hw (heq ▸ hc)]
    simp
  obtain ⟨x, hx⟩ := h
  rw [List.append_assoc, List.cons_append] at hx
  rw [← htake hu (s ++ x), hx, htake hv]

/-- No URL begins inside the scheme of a URL with TLS. -/
theorem exists_of_secureUrl_eq {x word : Str} (hword : word.head? = some 'h') (hnot : ¬word <+: secureUrl x)
    (heq : secureUrl x = a ++ (word ++ b)) : ∃ z, a = secureUrl z ∧ x = z ++ (word ++ b) := by
  obtain ⟨tail, rfl⟩ := List.head?_eq_some_iff.mp hword
  have heq' : ['h', 't', 't', 'p', 's', ':', '/', '/'] ++ x = a ++ ('h' :: tail ++ b) := heq
  rcases List.append_eq_append_iff.mp heq' with ⟨z, rfl, hx⟩ | ⟨c, hsplit, hback⟩
  · exact ⟨z, rfl, hx⟩
  · cases c with
    | nil =>
      refine ⟨[], ?_, by simpa using hback.symm⟩
      rw [List.append_nil] at hsplit
      exact hsplit.symm
    | cons c cs =>
      exfalso
      obtain rfl : 'h' = c := (List.cons.inj hback).1
      cases a with
      | nil => exact hnot ⟨b, heq.symm⟩
      | cons d a =>
        have htail := (List.cons.inj hsplit).2
        have hmem : 'h' ∈ ['t', 't', 'p', 's', ':', '/', '/'] := by simp [htail]
        exact absurd hmem (by decide)

theorem secureUrl_begins_iff : secureUrl s <+: secureUrl t ↔ s <+: t := List.prefix_append_right_inj _

theorem secureUrl_append (a s : Str) : secureUrl (a ++ s) = secureUrl a ++ s := (List.append_assoc _ _ _).symm

theorem not_plainUrl_begins (a x : Str) : ¬plainUrl a <+: secureUrl x := by
  rw [plainUrl_eq, secureUrl_eq]
  simp [List.cons_prefix_cons]

theorem slash_not_mem (ha : ∀ c ∈ a, isDelimiter c = false) : '/' ∉ a := fun h => absurd (ha _ h) (by decide)

/-- An authority that a URL begins in ends with that URL's scheme. -/
theorem overlap_eq {w : Str} (hw : ∀ c ∈ w, isDelimiter c = false)
    (hrest : ∀ c ∈ rest.head?, isDelimiter c = true) (heq : plainUrl a ++ b = w ++ rest) :
    w = ['h', 't', 't', 'p', ':'] ∧ rest = '/' :: '/' :: (a ++ b) := by
  rw [plainUrl_eq, List.append_assoc] at heq
  rcases List.append_eq_append_iff.mp heq with ⟨v, rfl, hback⟩ | ⟨v, hscheme, rfl⟩
  · cases v with
    | nil => exact ⟨List.append_nil _, hback.symm⟩
    | cons c v =>
      obtain rfl : '/' = c := (List.cons.inj hback).1
      exact absurd (hw '/' (by simp)) (by decide)
  · cases v with
    | nil => exact ⟨by simpa using hscheme.symm, rfl⟩
    | cons c v =>
      have hplain : ∀ d ∈ ['h', 't', 't', 'p', ':'], isDelimiter d = false := by decide
      have hdelim := hrest c rfl
      rw [hplain c (by simp [hscheme])] at hdelim
      cases hdelim

/-- A URL put where one began in the authority leaves the text before it. -/
theorem exists_of_replace_overlap {z : Str} (hz : '/' ∉ z) (x : Str) :
    ∃ t, Text.replace (secureUrl (z ++ secureUrl x)) (secureUrl (z ++ ['h', 't', 't', 'p', ':'])) (secureUrl h) =
      secureUrl (z ++ (['h', 't', 't', 'p', 's', ':'] ++ t)) := by
  have hpat := secureUrl_ne_nil (z ++ ['h', 't', 't', 'p', ':'])
  -- The second URL begins with its scheme, whether or not it is replaced.
  have hscheme : ∃ t, Text.replace (secureUrl x) (secureUrl (z ++ ['h', 't', 't', 'p', ':'])) (secureUrl h) =
      ['h', 't', 't', 'p', 's', ':'] ++ t := by
    by_cases hstart : secureUrl (z ++ ['h', 't', 't', 'p', ':']) <+: secureUrl x
    · obtain ⟨y, hy⟩ := hstart
      refine ⟨'/' :: '/' :: h ++ Text.replace y (secureUrl (z ++ ['h', 't', 't', 'p', ':'])) (secureUrl h), ?_⟩
      rw [← hy, Text.replace_match hpat, secureUrl_eq, List.append_assoc]
    · have hno : Text.startsWith (secureUrl x) (secureUrl (z ++ ['h', 't', 't', 'p', ':'])) = false := by
        rw [← Bool.not_eq_true]
        exact fun hs => hstart (List.isPrefixOf_iff_prefix.mp hs)
      refine ⟨Text.replace ('/' :: '/' :: x) (secureUrl (z ++ ['h', 't', 't', 'p', ':'])) (secureUrl h), ?_⟩
      have htail : Text.replace (['t', 't', 'p', 's', ':'] ++ '/' :: '/' :: x)
          (secureUrl (z ++ ['h', 't', 't', 'p', ':'])) (secureUrl h) = ['t', 't', 'p', 's', ':'] ++
            Text.replace ('/' :: '/' :: x) (secureUrl (z ++ ['h', 't', 't', 'p', ':'])) (secureUrl h) :=
        Text.replace_append hpat (Scan.clear_of_not_mem (y := 'h') (by decide))
      exact (Text.replace_cons_of_not hpat hno).trans (congrArg ('h' :: ·) htail)
  obtain ⟨t, ht⟩ := hscheme
  refine ⟨t, ?_⟩
  -- Nor does a URL of that authority begin before.
  have hclear : Scan.Clear (secureUrl (z ++ ['h', 't', 't', 'p', ':'])).isPrefixOf (secureUrl z) (secureUrl x) := by
    intro front back hsplit hne
    rw [← Bool.not_eq_true, List.isPrefixOf_iff_prefix]
    intro ⟨y, hy⟩
    have hnot : ¬secureUrl (z ++ ['h', 't', 't', 'p', ':']) <+: secureUrl (z ++ secureUrl x) := by
      rw [secureUrl_begins_iff, List.prefix_append_right_inj, secureUrl_eq]
      simp [List.cons_prefix_cons]
    have hall : secureUrl (z ++ secureUrl x) = front ++ (secureUrl (z ++ ['h', 't', 't', 'p', ':']) ++ y) := by
      rw [secureUrl_append, hsplit, List.append_assoc, hy]
    obtain ⟨z', rfl, hz'⟩ := exists_of_secureUrl_eq rfl hnot hall
    obtain rfl : z = z' ++ back := by
      rw [← secureUrl_append] at hsplit
      exact secureUrl_inj.mp hsplit
    rw [List.append_assoc] at hz'
    have hback := List.append_cancel_left hz'
    have hslash : '/' ∉ back := fun hmem => hz (List.mem_append_right _ hmem)
    have hprefix : secureUrl (z' ++ back ++ ['h', 't', 't', 'p', ':']) <+: back ++ secureUrl x := ⟨y, hback.symm⟩
    rw [secureUrl_eq, secureUrl_eq x, ← List.append_assoc back] at hprefix
    have hword := eq_of_prefix_cons (by decide) (by simpa using hslash) hprefix
    exact hne (List.append_left_eq_self.mp hword.symm)
  rw [secureUrl_append, Text.replace_append hpat hclear, ht, secureUrl_append]

/-- **No URL without TLS in one with TLS.** Where the upstream's address
stands in the Location without TLS as well, the result is no rewriting. -/
theorem rewriteLocation_ne_of_plain (ha : ∀ c ∈ a, isDelimiter c = false)
    (hrest : ∀ c ∈ rest.head?, isDelimiter c = true) (hin : plainUrl a <:+: secureUrl a ++ rest) :
    rewriteLocation a h (secureUrl a ++ rest) ≠ secureUrl h ++ rest := by
  intro heq
  have hplain := plainUrl_ne_nil a
  have hsecure := secureUrl_ne_nil a
  have hlength := length_secureUrl a
  rw [rewriteLocation_eq] at heq
  by_cases hle : (secureUrl a).length ≤ (secureUrl h).length
  · -- The public host is as long: the result is too long.
    have hfirst := Text.add_length_le_replace hplain (show (plainUrl a).length ≤ (secureUrl h).length by omega) hin
    have hsecond := Text.length_le_replace hsecure hle
      (Text.replace (secureUrl a ++ rest) (plainUrl a) (secureUrl h))
    have hall := congrArg List.length heq
    simp only [List.length_append] at hfirst hall
    omega
  obtain ⟨pre, b, hsplit, hclear, hreplace⟩ := Text.exists_replace (secureUrl h) hplain hin
  rw [hreplace] at heq
  rw [← secureUrl_append] at hsplit
  obtain ⟨z, rfl, hz⟩ := exists_of_secureUrl_eq rfl (not_plainUrl_begins a _) hsplit
  rcases List.append_eq_append_iff.mp hz with ⟨t, rfl, hrest'⟩ | ⟨w, haw, hw⟩
  · -- It begins behind the authority.
    have hclear' : Scan.Clear (plainUrl a).isPrefixOf t (plainUrl a ++ b) := by
      rw [secureUrl_append, Scan.clear_append] at hclear
      exact hclear.2
    have hinner : Text.replace rest (plainUrl a) (secureUrl h) =
        t ++ (secureUrl h ++ Text.replace b (plainUrl a) (secureUrl h)) := by
      rw [hrest', Text.replace_append hplain hclear', Text.replace_match hplain]
    rw [secureUrl_append, List.append_assoc, ← hinner, Text.replace_match hsecure] at heq
    have hiff := Text.replace_replace_eq_iff (s := rest) (u := []) hplain hlength (secureUrl_ne_plainUrl a h)
    have habsent := (hiff.mp (List.append_cancel_left heq)).1
    exact habsent ⟨t, b, by rw [hrest', List.append_assoc]⟩
  · -- It begins in the authority.
    obtain ⟨rfl, rfl⟩ := overlap_eq (fun c hc => ha c (by simp [haw, hc])) hrest hw
    have hslash : '/' ∉ z := fun hmem => slash_not_mem ha (by simp [haw, hmem])
    obtain ⟨t, ht⟩ := exists_of_replace_overlap (h := h) hslash (h ++ Text.replace b (plainUrl a) (secureUrl h))
    rw [← haw] at ht
    rw [← secureUrl_append h, ← secureUrl_append z, ht, ← secureUrl_append] at heq
    -- The first slash behind `https://` is in the public host, or right after it.
    have hurl : z ++ (['h', 't', 't', 'p', 's', ':'] ++ t) = h ++ '/' :: '/' :: (a ++ b) := secureUrl_inj.mp heq
    have hshort : h.length < (z ++ ['h', 't', 't', 'p', 's', ':']).length := by
      rw [secureUrl_eq, secureUrl_eq, haw] at hle
      simp only [List.length_append, List.length_cons] at hle ⊢
      omega
    have hmem : '/' ∈ z ++ ['h', 't', 't', 'p', 's', ':'] := by
      rw [← List.append_assoc] at hurl
      rcases List.append_eq_append_iff.mp hurl with ⟨u, hu, -⟩ | ⟨u, hu, htail⟩
      · have hlong := congrArg List.length hu
        rw [List.length_append] at hlong
        omega
      · cases u with
        | nil =>
          have hlong := congrArg List.length hu
          rw [List.append_nil] at hlong
          omega
        | cons c u =>
          rw [hu, (List.cons.inj htail).1]
          simp
    rcases List.mem_append.mp hmem with hmem | hmem
    · exact hslash hmem
    · exact absurd hmem (by decide)

/-! ## URLs of the upstream -/

/-- A URL of the upstream with TLS. -/
theorem rewriteLocation_secure_iff (ha : ∀ c ∈ a, isDelimiter c = false)
    (hrest : ∀ c ∈ rest.head?, isDelimiter c = true) :
    rewriteLocation a h (secureUrl a ++ rest) = secureUrl h ++ rest ↔
      ¬plainUrl a <:+: secureUrl a ++ rest ∧ (¬secureUrl a <:+: rest ∨ h = a) := by
  by_cases hin : plainUrl a <:+: secureUrl a ++ rest
  · simp [hin, rewriteLocation_ne_of_plain ha hrest hin]
  · rw [rewriteLocation_eq, Text.replace_of_absent (plainUrl_ne_nil a) hin, Text.replace_match (secureUrl_ne_nil a),
      List.append_right_inj, Text.replace_eq_self_iff (secureUrl_ne_nil a), secureUrl_inj]
    simp [hin]

theorem not_mem_scheme {c : Char} (hc : c.toLower ∉ ['h', 't', 't', 'p', 's'])
    (hscheme : Text.toAsciiLowercase scheme = "http".toList ∨ Text.toAsciiLowercase scheme = "https".toList) :
    c ∉ scheme := by
  intro hmem
  have hlower : c.toLower ∈ Text.toAsciiLowercase scheme := List.mem_map_of_mem hmem
  rcases hscheme with hs | hs
  · rw [hs] at hlower
    have hsub : "http".toList ⊆ ['h', 't', 't', 'p', 's'] := by decide
    exact hc (hsub hlower)
  · rw [hs] at hlower
    exact hc hlower

/-- A scheme spelled in another way is no beginning of `word:`. -/
theorem clear_scheme {word tail : Str} (hword : word.head? = some 'h') (hcolon : ':' ∉ word) (hne : scheme ≠ word)
    (hscheme : Text.toAsciiLowercase scheme = "http".toList ∨ Text.toAsciiLowercase scheme = "https".toList)
    (back : Str) : Scan.Clear (word ++ ':' :: tail).isPrefixOf scheme (':' :: back) := by
  have hcolon' : ':' ∉ scheme := not_mem_scheme (by decide) hscheme
  cases scheme with
  | nil => exact Scan.clear_nil
  | cons c s =>
    refine Scan.clear_cons.mpr ⟨?_, ?_⟩
    · rw [← Bool.not_eq_true, List.isPrefixOf_iff_prefix]
      exact fun hprefix => hne (eq_of_prefix_cons hcolon hcolon' hprefix).symm
    · obtain ⟨w, rfl⟩ := List.head?_eq_some_iff.mp hword
      refine Scan.clear_of_not_mem (y := 'h') (w := w ++ ':' :: tail) fun hmem => ?_
      have hlower : 'h' ∈ s.map Char.toLower := List.mem_map.mpr ⟨'h', hmem, rfl⟩
      rcases hscheme with hs | hs
      · have htail : s.map Char.toLower = ['t', 't', 'p'] := (List.cons.inj hs).2
        rw [htail] at hlower
        exact absurd hlower (by decide)
      · have htail : s.map Char.toLower = ['t', 't', 'p', 's'] := (List.cons.inj hs).2
        rw [htail] at hlower
        exact absurd hlower (by decide)

/-- Neither replacement sees such a URL. -/
theorem rewriteLocation_ne_of_spelled (hplain : scheme ≠ "http".toList) (hsecure : scheme ≠ "https".toList)
    (hscheme : Text.toAsciiLowercase scheme = "http".toList ∨ Text.toAsciiLowercase scheme = "https".toList) :
    rewriteLocation a h (scheme ++ ("://".toList ++ (a ++ rest))) ≠ secureUrl h ++ rest := by
  intro heq
  have hfirst : ∀ {word tail : Str}, word.head? = some 'h' → ':' ∉ word → scheme ≠ word → ∀ back,
      Text.replace (scheme ++ ':' :: back) (word ++ ':' :: tail) (secureUrl h) =
        scheme ++ ':' :: Text.replace back (word ++ ':' :: tail) (secureUrl h) := by
    intro word tail hword hcolon hne back
    have hpat : word ++ ':' :: tail ≠ [] := by simp
    have hstart : Text.startsWith (':' :: back) (word ++ ':' :: tail) = false := by
      obtain ⟨w, rfl⟩ := List.head?_eq_some_iff.mp hword
      rfl
    rw [Text.replace_append hpat (clear_scheme hword hcolon hne hscheme back), Text.replace_cons_of_not hpat hstart]
  have hout : ∃ t, rewriteLocation a h (scheme ++ ("://".toList ++ (a ++ rest))) = scheme ++ ':' :: t :=
    ⟨_, (congrArg (Text.replace · (secureUrl a) (secureUrl h)) (hfirst rfl (by decide) hplain _)).trans
      (hfirst rfl (by decide) hsecure _)⟩
  obtain ⟨t, ht⟩ := hout
  have hcolon : ':' ∉ scheme := not_mem_scheme (by decide) hscheme
  have hprefix : (scheme ++ ':' :: t) <+: "https".toList ++ ':' :: ('/' :: '/' :: h ++ rest) :=
    ⟨[], by rw [List.append_nil, ← ht, heq]; rfl⟩
  exact hsecure (eq_of_prefix_cons hcolon (by decide) hprefix)

/-- The Locations that are text, and come out as they should: the address of
the upstream is not in what is to be kept. Two of these may be one text, when
the public host is the upstream's. -/
structure TextFits (upAuthority publicHost loc : Str) : Prop where
  upstream : ∀ scheme rest, UpstreamUrl upAuthority loc scheme rest →
    scheme = "http".toList ∧ ¬plainUrl upAuthority <:+: rest ∧
        (¬secureUrl upAuthority <:+: secureUrl publicHost ++ rest ∨ publicHost = upAuthority) ∨
      scheme = "https".toList ∧ ¬plainUrl upAuthority <:+: loc ∧
        (¬secureUrl upAuthority <:+: rest ∨ publicHost = upAuthority)
  other : (¬∃ scheme rest, UpstreamUrl upAuthority loc scheme rest) →
    ¬plainUrl upAuthority <:+: loc ∧ (¬secureUrl upAuthority <:+: loc ∨ publicHost = upAuthority)

/-- One URL of the upstream. -/
theorem UpstreamUrl.rewriteLocation_iff (ha : ∀ c ∈ a, isDelimiter c = false) (hu : UpstreamUrl a url scheme rest) :
    rewriteLocation a h url = secureUrl h ++ rest ↔
      scheme = "http".toList ∧ ¬plainUrl a <:+: rest ∧ (¬secureUrl a <:+: secureUrl h ++ rest ∨ h = a) ∨
        scheme = "https".toList ∧ ¬plainUrl a <:+: url ∧ (¬secureUrl a <:+: rest ∨ h = a) := by
  have hwords : "http".toList ≠ "https".toList := by decide
  obtain ⟨rfl, hscheme, hrest⟩ := hu
  by_cases hplain : scheme = "http".toList
  · subst hplain
    simp only [hwords, true_and, false_and, or_false]
    exact rewriteLocation_plain_iff rest
  · by_cases hsecure : scheme = "https".toList
    · subst hsecure
      simp only [hplain, true_and, false_and, false_or]
      exact rewriteLocation_secure_iff ha hrest
    · simp only [hplain, hsecure, false_and, or_self, iff_false]
      exact rewriteLocation_ne_of_spelled hplain hsecure hscheme

theorem rewritten_iff_textFits (ha : ∀ c ∈ a, isDelimiter c = false) (loc : Str) :
    Rewritten a h loc (rewriteLocation a h loc) ↔ TextFits a h loc := by
  constructor
  · intro ⟨hupstream, hother⟩
    exact ⟨fun scheme rest hu => (hu.rewriteLocation_iff ha).mp (hupstream scheme rest hu),
      fun hnone => (rewriteLocation_self_iff loc).mp (hother hnone)⟩
  · intro ⟨hupstream, hother⟩
    exact ⟨fun scheme rest hu => (hu.rewriteLocation_iff ha).mpr (hupstream scheme rest hu),
      fun hnone => (rewriteLocation_self_iff loc).mpr (hother hnone)⟩

/-- A Location that stays as it is. -/
theorem rewritten_self_iff (url : Str) :
    Rewritten a h url url ↔ ∀ scheme rest, UpstreamUrl a url scheme rest → scheme = "https".toList ∧ h = a := by
  have hone : ∀ scheme rest, UpstreamUrl a url scheme rest →
      (url = secureUrl h ++ rest ↔ scheme = "https".toList ∧ h = a) := by
    intro scheme rest hu
    have hcolon : ':' ∉ scheme := not_mem_scheme (by decide) hu.scheme_eq
    constructor
    · intro heq
      rw [hu.url_eq] at heq
      have hprefix : (scheme ++ ':' :: ('/' :: '/' :: (a ++ rest))) <+:
          "https".toList ++ ':' :: ('/' :: '/' :: h ++ rest) := ⟨[], (List.append_nil _).trans heq⟩
      obtain rfl := eq_of_prefix_cons hcolon (by decide) hprefix
      have hurl : secureUrl a ++ rest = secureUrl h ++ rest := heq
      exact ⟨rfl, (secureUrl_inj.mp (List.append_cancel_right hurl)).symm⟩
    · rintro ⟨rfl, rfl⟩
      exact hu.url_eq
  constructor
  · intro hr scheme rest hu
    exact (hone scheme rest hu).mp (hr.upstream scheme rest hu)
  · intro hall
    exact ⟨fun scheme rest hu => (hone scheme rest hu).mpr (hall scheme rest hu), fun _ => rfl⟩

/-! ## Responses -/

section Response

variable {uc : UriCrate} {req : Request} {upstream : Str} {out : Outgoing uc} {resp : Embed.OriginResponse}
  {headers : HeaderMap} {v : Bytes}

/-- Nothing but ASCII goes into the authority of a URI. -/
def VisibleAuthorities (uc : UriCrate) : Prop :=
  ∀ {text u authority}, uc.parse text = some u → uc.authority u = some authority →
    ∀ c ∈ authority, Http.visible c = true

theorem outgoing_eq (hout : outgoing uc req upstream = some out) : ∃ up, uc.parse upstream = some up ∧
    out.upAuthority = (uc.authority up).getD [] ∧
    out.publicHost = (Http.getStr req.headers "host".toList).getD out.upAuthority := by
  unfold outgoing at hout
  simp only [Option.bind_eq_bind, Option.bind_eq_some_iff, Option.pure_def, Option.some.injEq] at hout
  obtain ⟨up, hup, uri, -, rfl⟩ := hout
  exact ⟨up, hup, rfl, rfl⟩

theorem outgoing_clean (huc : uc.Lawful) (hout : outgoing uc req upstream = some out) :
    ∀ c ∈ out.upAuthority, isDelimiter c = false := by
  obtain ⟨up, hup, hauthority, -⟩ := outgoing_eq hout
  rw [hauthority]
  cases ha : uc.authority up with
  | none => exact nofun
  | some authority => exact huc.authority_clean hup ha

theorem outgoing_visible (hvisible : VisibleAuthorities uc) (hout : outgoing uc req upstream = some out) :
    ∀ c ∈ out.publicHost, Http.visible c = true := by
  obtain ⟨up, hup, hauthority, hhost⟩ := outgoing_eq hout
  rw [hhost]
  cases hh : Http.getStr req.headers "host".toList with
  | none =>
    rw [Option.getD_none, hauthority]
    cases ha : uc.authority up with
    | none => exact nofun
    | some authority => exact hvisible hup ha
  | some host =>
    obtain ⟨v, -, hv⟩ := Option.bind_eq_some_iff.mp hh
    exact (Http.toStr_eq_some.mp hv).2

/-- What becomes of a Location. -/
theorem get_patchLocation (hh : ∀ c ∈ h, Http.visible c = true) (hv : Http.get headers "location".toList = some v) :
    ∃ w, Http.get (patchLocation a h headers) "location".toList = some w ∧
      Http.text w = if Http.toStr v = none then Http.text v else rewriteLocation a h (Http.text v) := by
  unfold patchLocation Http.getStr
  rw [hv, Option.bind_some]
  cases hs : Http.toStr v with
  | none => exact ⟨v, hv, rfl⟩
  | some loc =>
    obtain ⟨hloc, hall⟩ := Http.toStr_eq_some.mp hs
    rw [if_neg (by simp), hloc]
    simp only []
    split
    · have hvisible : ∀ c ∈ rewriteLocation a h loc, Http.visible c = true := by
        have hurl : ∀ c ∈ secureUrl h, Http.visible c = true := by
          intro c hc
          rcases List.mem_append.mp hc with hc | hc
          · have hword : ∀ c ∈ "https://".toList, Http.visible c = true := by decide
            exact hword c hc
          · exact hh c hc
        intro c hc
        rcases Text.mem_of_mem_replace (secureUrl_ne_nil a) hc with hc | hc
        · exact (Text.mem_of_mem_replace (plainUrl_ne_nil a) hc).elim (hall c) (hurl c)
        · exact hurl c hc
      rw [Http.fromStr_visible hvisible]
      refine ⟨_, ?_, Http.text_bytes hvisible⟩
      rw [Http.get_eq_head?, Http.getAll_insert_self]
      rfl
    · next hsame => exact ⟨v, hv, hloc.trans (not_not.mp hsame).symm⟩

/-- The Locations that come out as they should. An upgrade's, and one that is
not text, stays as it is. -/
def LocationFits (upAuthority publicHost : Str) (status : Nat) (v : Bytes) : Prop :=
  if status = 101 ∨ Http.toStr v = none then
    ∀ scheme rest, UpstreamUrl upAuthority (Http.text v) scheme rest →
      scheme = "https".toList ∧ publicHost = upAuthority
  else TextFits upAuthority publicHost (Http.text v)

/-- **When a Location is rewritten as a URL.** Whatever the upstream answers,
its Location reaches the browser with the upstream's scheme and authority
replaced, if it has them, and as it was otherwise, exactly when it fits. -/
theorem location_rewritten_iff (cz : Inject.CodecCrates) (guardJs : Str) (client : Client uc) (huc : uc.Lawful)
    (hvisible : VisibleAuthorities uc) (hout : outgoing uc req upstream = some out)
    (hresp : client out.request = some resp) (hv : Http.get resp.headers "location".toList = some v)
    (documentRequest siteBypassed : Bool) (sessionTtl : Nat) : ∃ proxied w,
      proxyToUpstream cz guardJs client req upstream documentRequest siteBypassed sessionTtl = .ok proxied ∧
      Http.get proxied.headers "location".toList = some w ∧
      (Rewritten out.upAuthority out.publicHost (Http.text v) (Http.text w) ↔
        LocationFits out.upAuthority out.publicHost resp.status v) := by
  have ha := outgoing_clean huc hout
  have hh := outgoing_visible hvisible hout
  obtain ⟨proxied, hok, hheaders⟩ := respond_ok cz guardJs out.upAuthority out.publicHost documentRequest
    siteBypassed sessionTtl resp
  have hlocation := hheaders "location".toList (by decide)
  have hproxied : proxyToUpstream cz guardJs client req upstream documentRequest siteBypassed sessionTtl =
      .ok proxied := by
    unfold proxyToUpstream
    rw [hout]
    simp only [hresp, hok]
  unfold LocationFits
  by_cases hupgrade : resp.status = 101
  · rw [if_pos hupgrade] at hlocation
    rw [if_pos (.inl hupgrade)]
    refine ⟨proxied, v, hproxied, ?_, rewritten_self_iff _⟩
    rw [Http.get_eq_head?, hlocation, ← Http.get_eq_head?, hv]
  · rw [if_neg hupgrade] at hlocation
    obtain ⟨kept, hkept, hpatched⟩ := getAll_patchHeaders "location".toList (by decide) out.upAuthority
      out.publicHost resp.headers
    have hkv : Http.get kept "location".toList = some v := by
      rw [Http.get_eq_head?, hkept, ← Http.get_eq_head?, hv]
    obtain ⟨w, hw, htext⟩ := get_patchLocation (a := out.upAuthority) hh hkv
    refine ⟨proxied, w, hproxied, ?_, ?_⟩
    · rw [Http.get_eq_head?, hlocation, hpatched, getAll_patchCookies_of_ne (by decide), ← Http.get_eq_head?, hw]
    · rw [htext]
      by_cases hnone : Http.toStr v = none
      · rw [if_pos hnone, if_pos (.inr hnone)]
        exact rewritten_self_iff _
      · rw [if_neg hnone, if_neg (not_or.mpr ⟨hupgrade, hnone⟩)]
        exact rewritten_iff_textFits ha _

end Response

/-! ## Locations -/

/-- A URL is one of the upstream in one way. -/
theorem UpstreamUrl.unique {scheme' rest' : Str} (hu : UpstreamUrl a url scheme rest)
    (hu' : UpstreamUrl a url scheme' rest') : scheme' = scheme ∧ rest' = rest := by
  have heq := hu'.url_eq.symm.trans hu.url_eq
  have hprefix : (scheme' ++ ':' :: ('/' :: '/' :: (a ++ rest'))) <+: scheme ++ ':' :: ('/' :: '/' :: (a ++ rest)) :=
    ⟨[], (List.append_nil _).trans heq⟩
  obtain rfl := eq_of_prefix_cons (not_mem_scheme (by decide) hu'.scheme_eq) (not_mem_scheme (by decide) hu.scheme_eq)
    hprefix
  exact ⟨rfl, List.append_cancel_left (List.append_cancel_left (List.append_cancel_left heq))⟩

/-- The URIs of `plainUris` that are ASCII. -/
def visibleUris : UriCrate where
  Uri := Str × Str
  parse text := if text.all Http.visible then Embed.plainUris.parse text else none
  authority := Embed.plainUris.authority
  scheme := Embed.plainUris.scheme

theorem visibleUris_parse {text : Str} {u : Str × Str} (h : visibleUris.parse text = some u) :
    Embed.plainUris.parse text = some u ∧ ∀ c ∈ text, Http.visible c = true := by
  by_cases hall : text.all Http.visible = true
  · exact ⟨(if_pos hall).symm.trans h, List.all_eq_true.mp hall⟩
  · cases (if_neg hall).symm.trans h

theorem visibleUris_lawful : visibleUris.Lawful where
  authority_clean := fun hu ha => Embed.plainUris_lawful.authority_clean (visibleUris_parse hu).1 ha
  parse_absolute := by
    intro s rest u hs hu
    refine Embed.plainUris_lawful.parse_absolute (hs.imp_right ?_) (visibleUris_parse hu).1
    intro ⟨text, v, hv, hscheme⟩
    exact ⟨text, v, (visibleUris_parse hv).1, hscheme⟩

theorem visibleUris_visible : VisibleAuthorities visibleUris := by
  intro text u authority hu ha c hc
  obtain ⟨hparse, hall⟩ := visibleUris_parse hu
  refine hall c ?_
  have hauthority : c ∈ u.2 := by
    cases ha
    exact (List.takeWhile_prefix _).subset hc
  have hdrop : ∀ {pat rest : Str}, Text.stripPrefix text pat = some rest → rest ⊆ text := by
    intro pat rest h
    unfold Text.stripPrefix at h
    split at h
    · cases h
      exact List.drop_subset _ _
    · cases h
  unfold Embed.plainUris at hparse
  simp only at hparse
  split at hparse
  · next hrest =>
    cases hparse
    exact hdrop hrest hauthority
  · next hrest =>
    cases hparse
    exact hdrop hrest hauthority
  · cases hparse

def movedTo (location : String) : Client visibleUris := fun _ =>
  some { status := 302, headers := [("location".toList, Text.bytes location.toList)], body := ⟨[], false⟩ }

def getPage : Request where
  method := .get
  path := "/".toList
  query := none
  headers := [("host".toList, Text.bytes "a.example".toList)]
  body := ⟨[], false⟩

theorem location_rewritten : ∃ proxied w,
    proxyToUpstream Inject.identityOnly [] (movedTo "http://origin:80/x?y") getPage "http://origin:80".toList true false
      1800 = .ok proxied ∧
    Http.get proxied.headers "location".toList = some w ∧ Http.text w = "https://a.example/x?y".toList := by
  have hurl : UpstreamUrl "origin:80".toList "http://origin:80/x?y".toList "http".toList "/x?y".toList :=
    ⟨by decide, .inl (by decide), by decide⟩
  let out : Outgoing visibleUris := (outgoing visibleUris getPage "http://origin:80".toList).get (by decide +kernel)
  have hout : outgoing visibleUris getPage "http://origin:80".toList = some out := (Option.some_get _).symm
  have hauthority : out.upAuthority = "origin:80".toList := by decide +kernel
  have hhost : out.publicHost = "a.example".toList := by decide +kernel
  have htext : Http.text (Text.bytes "http://origin:80/x?y".toList) = "http://origin:80/x?y".toList := by decide +kernel
  obtain ⟨proxied, w, hok, hw, hiff⟩ := location_rewritten_iff Inject.identityOnly []
    (movedTo "http://origin:80/x?y") visibleUris_lawful visibleUris_visible hout rfl rfl true false 1800
  refine ⟨proxied, w, hok, hw, ?_⟩
  rw [hauthority, hhost, htext] at hiff
  have hfits : LocationFits "origin:80".toList "a.example".toList 302 (Text.bytes "http://origin:80/x?y".toList) := by
    unfold LocationFits
    rw [if_neg (by decide +kernel), htext]
    refine ⟨fun scheme rest hu => ?_, fun hnone => absurd ⟨_, _, hurl⟩ hnone⟩
    obtain ⟨rfl, rfl⟩ := hurl.unique hu
    exact .inl (by decide +kernel)
  exact (hiff.mpr hfits).upstream _ _ hurl

/-- Another port, whose authority begins with the upstream's. -/
theorem location_prefix_rewritten :
    ((proxyToUpstream Inject.identityOnly [] (movedTo "http://origin:8080/x") getPage "http://origin:80".toList true
        false 1800).map fun proxied => (Http.get proxied.headers "location".toList).map Http.text) =
      .ok (some "https://a.example80/x".toList) ∧
    ¬∃ scheme rest, UpstreamUrl "origin:80".toList "http://origin:8080/x".toList scheme rest := by
  refine ⟨by decide +kernel, ?_⟩
  intro ⟨scheme, rest, hu⟩
  have hcolon : ':' ∉ scheme := not_mem_scheme (by decide) hu.scheme_eq
  have hprefix : (scheme ++ ':' :: ('/' :: '/' :: ("origin:80".toList ++ rest))) <+:
      "http".toList ++ ':' :: "//origin:8080/x".toList := ⟨[], (List.append_nil _).trans hu.url_eq.symm⟩
  obtain rfl := eq_of_prefix_cons hcolon (by decide) hprefix
  have hurl : "http://origin:80".toList ++ "80/x".toList = "http://origin:80".toList ++ rest := hu.url_eq
  have hhead := hu.rest_head '8' (by rw [← List.append_cancel_left hurl]; rfl)
  exact absurd hhead (by decide)

end NekoGuard.Proxy
