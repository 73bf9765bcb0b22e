/-
embed.rs: the redirects `fetch_html` follows. How many of them
(`redirects_followed_iff`), and to which path each one leads
(`redirect_resolved_iff`).
-/
import NekoGuard.FetchFacts
import NekoGuard.Lib.Reference
import NekoGuard.SameOrigin

namespace NekoGuard.Embed

open Lib UriCrate

variable {fc : FetchCrates} {origin : Origin fc} {host upstream path location head p : Str}
  {sent : List (GetRequest fc)} {hops k : Nat} {req : GetRequest fc} {resp : OriginResponse} {r : Reference}

/-- The path a redirect leads to. -/
def nextPath (host : Str) (resp : OriginResponse) : Option Str :=
  (Http.getStr resp.headers "location".toList).bind fun location => sameOriginPath location host

theorem fetchHtmlFrom_redirect (hreq : buildGet fc host upstream path = some req)
    (hresp : origin (req :: sent) = some resp) (hstatus : isRedirection resp.status = true) (hops : Nat) :
    fetchHtmlFrom origin host upstream (hops + 1) path sent =
      match nextPath host resp with
      | none => (none, req :: sent)
      | some next => fetchHtmlFrom origin host upstream hops next (req :: sent) := by
  rw [fetchHtmlFrom, hreq]
  simp only [hresp, hstatus, if_true]
  rfl

theorem fetchHtmlFrom_document (hreq : buildGet fc host upstream path = some req)
    (hresp : origin (req :: sent) = some resp) (hstatus : resp.status = 200)
    (hhtml : isHtml (Http.get resp.headers "content-type".toList) = true) (hops : Nat) :
    fetchHtmlFrom origin host upstream (hops + 1) path sent = (readHead resp.body, req :: sent) := by
  have hnot : isRedirection 200 = false := rfl
  rw [fetchHtmlFrom, hreq]
  simp only [hresp, hstatus, hnot, hhtml, Bool.false_eq_true, if_false, ne_eq, not_true_eq_false, Bool.not_true]

/-! ## References on this origin -/

/-- A first colon that is behind a character no scheme has. -/
def DelimitedColon (location : Str) : Prop :=
  ':' ∈ location → ∃ c ∈ location.takeWhile (· ≠ ':'), isSchemeChar c.toLower = false

/-- A text whose first colon is behind a `/` or a `?` names no host. -/
theorem urlParts_relative (hslashes : ¬"//".toList <+: location) (hcolon : DelimitedColon location) :
    urlParts location = some ([], location) := by
  have hstrip : Text.stripPrefix location "//".toList = none := by
    have hnot : ¬Text.startsWith location "//".toList = true := fun h => hslashes (List.isPrefixOf_iff_prefix.mp h)
    rw [Text.stripPrefix, if_neg hnot]
  unfold urlParts
  rw [hstrip]
  unfold Text.splitOnce
  by_cases hmem : ':' ∈ location
  · obtain ⟨c, hc, hnot⟩ := hcolon hmem
    have hscheme : (Text.toAsciiLowercase (location.takeWhile (· ≠ ':'))).all isSchemeChar = false := by
      rw [List.all_eq_false]
      exact ⟨c.toLower, List.mem_map_of_mem hc, by simp [hnot]⟩
    simp only [if_pos hmem, hscheme, Bool.false_eq_true, and_false, if_false]
  · simp only [if_neg hmem]

/-- An absolute path, or a relative reference, is one on this origin. -/
theorem sameOriginPath_relative (hslashes : ¬"//".toList <+: location) (hcolon : DelimitedColon location)
    (host : Str) : sameOriginPath location host = some (rooted location) := by
  rw [sameOriginPath, urlParts_relative hslashes hcolon]
  simp

theorem sameOriginPath_absolute (habsolute : location.head? = some '/') (hslashes : ¬"//".toList <+: location)
    (host : Str) : sameOriginPath location host = some (Text.splitFirst location '#') := by
  obtain ⟨rest, rfl⟩ := List.head?_eq_some_iff.mp habsolute
  rw [sameOriginPath_relative hslashes fun _ => ⟨'/', by simp, by decide⟩]
  have hfirst : Text.splitFirst ('/' :: rest) '#' = '/' :: Text.splitFirst rest '#' := by
    simp [Text.splitFirst_eq]
  unfold rooted
  simp only [hfirst]
  cases Text.splitFirst rest '#' <;> simp [Text.startsWith, List.isPrefixOf]

theorem not_isSchemeChar_delimiter {c : Char} (hc : c = '/' ∨ c = '?' ∨ c = '#') :
    isSchemeChar c.toLower = false := by
  rcases hc with rfl | rfl | rfl <;> decide

/-- What comes behind the path of a reference. -/
theorem head_components (r : Reference) :
    ∀ c ∈ (Reference.component '?' r.query ++ Reference.component '#' r.fragment).head?, c = '?' ∨ c = '#' := by
  obtain ⟨path, query, fragment⟩ := r
  intro c hc
  cases query with
  | some q => exact .inl (by simpa [Reference.component] using hc.symm)
  | none =>
    cases fragment with
    | some f => exact .inr (by simpa [Reference.component] using hc.symm)
    | none => simp [Reference.component] at hc

theorem text_eq (r : Reference) :
    r.text = r.path ++ (Reference.component '?' r.query ++ Reference.component '#' r.fragment) :=
  List.append_assoc _ _ _

/-- No scheme is read into a relative reference. -/
theorem delimiter_before_colon (hr : r.Relative) : DelimitedColon r.text := by
  intro hmem
  have hsplit := List.takeWhile_append_dropWhile (p := (· ≠ ':')) (l := r.text)
  obtain ⟨rest, hrest⟩ : ∃ rest, r.text.dropWhile (· ≠ ':') = ':' :: rest := by
    obtain ⟨c, rest, hcons⟩ := List.exists_cons_of_ne_nil (fun hnil => by
      rw [hnil, List.append_nil] at hsplit
      rw [← hsplit] at hmem
      simpa using List.mem_takeWhile_imp hmem : r.text.dropWhile (· ≠ ':') ≠ [])
    have hhead := List.head?_dropWhile_not (· ≠ ':') r.text
    rw [hcons] at hhead
    obtain rfl : c = ':' := by simpa using hhead
    exact ⟨rest, hcons⟩
  rw [hrest] at hsplit
  by_contra hnone
  have hplain : ∀ c ∈ r.text.takeWhile (· ≠ ':'), c ≠ '/' ∧ c ≠ '?' ∧ c ≠ '#' := by
    intro c hc
    refine ⟨?_, ?_, ?_⟩ <;> rintro rfl <;> exact hnone ⟨_, hc, not_isSchemeChar_delimiter (by simp)⟩
  generalize r.text.takeWhile (· ≠ ':') = pre at hsplit hplain
  -- The colon is behind the path, or in its first segment.
  have htext := text_eq r
  rw [← hsplit, eq_comm] at htext
  have hhead := head_components r
  rcases List.append_eq_append_iff.mp htext with ⟨u, hpre, htail⟩ | ⟨u, hpath, hcolon⟩
  · rw [htail] at hhead
    cases u with
    | nil => rcases hhead ':' rfl with h | h <;> cases h
    | cons c u =>
      have hc := hplain c (by simp [hpre])
      rcases hhead c rfl with rfl | rfl
      · exact hc.2.1 rfl
      · exact hc.2.2 rfl
  · cases u with
    | nil =>
      rw [← List.nil_append (Reference.component '?' r.query ++ _), ← hcolon] at hhead
      rcases hhead ':' rfl with h | h <;> cases h
    | cons c u =>
      obtain rfl : ':' = c := (List.cons.inj hcolon).1
      refine hr.no_scheme ?_
      rw [hpath, List.takeWhile_append_of_pos fun c hc => by simpa using (hplain c hc).1]
      simp

/-- **A relative reference is one on this origin.** -/
theorem sameOriginPath_text (hr : r.Relative) (host : Str) : sameOriginPath r.text host = some (rooted r.text) := by
  refine sameOriginPath_relative ?_ (delimiter_before_colon hr) host
  have hhead := head_components r
  rw [text_eq]
  intro ⟨t, ht⟩
  rcases List.append_eq_append_iff.mp ht with ⟨u, hpath, -⟩ | ⟨u, hslashes, htail⟩
  · exact hr.no_authority ⟨u, hpath.symm⟩
  · cases u with
    | nil => exact hr.no_authority ⟨[], by rw [List.append_nil] at hslashes ⊢; exact hslashes⟩
    | cons c u =>
      obtain rfl : c = '/' := by
        have hmem : c ∈ "//".toList := by simp [hslashes]
        simpa using hmem
      rw [htail] at hhead
      rcases hhead '/' rfl with h | h <;> cases h

/-! ## How many redirects -/

/-- `k` redirects to absolute paths, one after the other, and a document behind
them. -/
inductive Redirects (origin : Origin fc) (host upstream head : Str) : Nat → Str → List (GetRequest fc) → Prop
  | document {path : Str} {sent : List (GetRequest fc)} {req : GetRequest fc} {resp : OriginResponse} :
      buildGet fc host upstream path = some req → origin (req :: sent) = some resp →
      resp.status = 200 → isHtml (Http.get resp.headers "content-type".toList) = true →
      readHead resp.body = some head → Redirects origin host upstream head 0 path sent
  | redirect {k : Nat} {path location : Str} {sent : List (GetRequest fc)} {req : GetRequest fc}
      {resp : OriginResponse} : buildGet fc host upstream path = some req →
      origin (req :: sent) = some resp → isRedirection resp.status = true →
      Http.getStr resp.headers "location".toList = some location →
      location.head? = some '/' → ¬"//".toList <+: location →
      Redirects origin host upstream head k (Text.splitFirst location '#') (req :: sent) →
      Redirects origin host upstream head (k + 1) path sent

/-- **A chain of redirects** is followed while there are rounds left for it and
for the document behind it. -/
theorem Redirects.fetchHtmlFrom_eq (h : Redirects origin host upstream head k path sent) (hops : Nat) :
    (fetchHtmlFrom origin host upstream hops path sent).1 = if k < hops then some head else none := by
  induction h generalizing hops with
  | document hreq hresp hstatus hhtml hhead =>
    cases hops with
    | zero => rfl
    | succ hops =>
      rw [fetchHtmlFrom_document hreq hresp hstatus hhtml, if_pos (by omega)]
      exact hhead
  | @redirect k path location sent req resp hreq hresp hstatus hlocation habsolute hslashes _ ih =>
    cases hops with
    | zero => rfl
    | succ hops =>
      have hnext : nextPath host resp = some (Text.splitFirst location '#') := by
        rw [nextPath, hlocation]
        exact sameOriginPath_absolute habsolute hslashes host
      rw [fetchHtmlFrom_redirect hreq hresp hstatus, hnext]
      simp only [ih hops, Nat.add_lt_add_iff_right]

/-- Every round sends one request at most. -/
theorem fetchHtmlFrom_sent (origin : Origin fc) (host upstream : Str) (hops : Nat) (path : Str)
    (sent : List (GetRequest fc)) :
    (fetchHtmlFrom origin host upstream hops path sent).2.length ≤ hops + sent.length := by
  induction hops generalizing path sent with
  | zero => simp [fetchHtmlFrom]
  | succ hops ih =>
    have hone : ∀ req : GetRequest fc, (req :: sent).length ≤ hops + 1 + sent.length := fun req => by
      simp only [List.length_cons]
      omega
    unfold fetchHtmlFrom
    split
    · exact Nat.le_add_left _ _
    · next req _ =>
      split
      · exact hone req
      · split
        · split
          · exact hone req
          · next next _ =>
            have hrest := ih next (req :: sent)
            simp only [List.length_cons] at hrest
            omega
        · split
          · exact hone req
          · split <;> exact hone req

/-- **How many redirects are followed.** Never more requests than one beyond
the hops, for any origin; and the document behind `k` redirects is returned
just when `k` is within the hops, but for the last of them. -/
theorem redirects_followed_iff (origin : Origin fc) (host upstream path : Str) :
    (fetchHtml origin host upstream path).2.length ≤ maxHops + 1 ∧
    ∀ k head, Redirects origin host upstream head k (normalizePath path) [] →
      (((fetchHtml origin host upstream path).1 = some head ↔ k ≤ maxHops) ↔ k ≠ maxHops) := by
  constructor
  · have hsent := fetchHtmlFrom_sent origin host upstream maxHops (normalizePath path) []
    exact Nat.le_succ_of_le hsent
  · intro k head h
    rw [fetchHtml, h.fetchHtmlFrom_eq]
    by_cases hk : k < maxHops
    · simp only [if_pos hk, true_iff]
      omega
    · simp only [if_neg hk, reduceCtorEq, false_iff]
      omega

def movedResponse (location : Str) : OriginResponse where
  status := 302
  headers := [("location".toList, Text.bytes location)]
  body := ⟨[], false⟩

def documentResponse : OriginResponse where
  status := 200
  headers := [("content-type".toList, Text.bytes "text/html".toList)]
  body := ⟨[Text.bytes "<head><title>x".toList], false⟩

/-- An origin that answers its first `k` requests with redirects, and the next
with a document. -/
def moved (k : Nat) : Origin plainCrates := fun sent =>
  some (if sent.length ≤ k then movedResponse "/en/".toList else documentResponse)

theorem redirects_moved {n : Nat} {path : Str} {sent : List (GetRequest plainCrates)} (h : sent.length + k = n) :
    Redirects (moved n) "a.example".toList "http://origin".toList "<head><title>x".toList k path sent := by
  induction k generalizing path sent with
  | zero =>
    have hresp : ∀ req, moved n (req :: sent) = some documentResponse := fun req => by
      rw [moved, if_neg (by simp only [List.length_cons]; omega)]
    exact .document rfl (hresp _) rfl (by decide +kernel) (by decide +kernel)
  | succ k ih =>
    have hresp : ∀ req, moved n (req :: sent) = some (movedResponse "/en/".toList) := fun req => by
      rw [moved, if_pos (by simp only [List.length_cons]; omega)]
    have hlocation : Http.getStr (movedResponse "/en/".toList).headers "location".toList = some "/en/".toList := by
      decide +kernel
    refine .redirect rfl (hresp _) rfl hlocation rfl (by decide) (ih ?_)
    simp only [List.length_cons]
    omega

theorem redirects_followed_one :
    (fetchHtml (moved 1) "a.example".toList "http://origin".toList "/".toList).1 =
      some "<head><title>x".toList :=
  (((redirects_followed_iff (moved 1) _ _ _).2 1 _ (redirects_moved rfl)).mpr (by decide)).mpr (by decide)

/-- The document behind a third redirect. -/
theorem redirects_followed_three :
    Redirects (moved 3) "a.example".toList "http://origin".toList "<head><title>x".toList 3
      (normalizePath "/".toList) [] ∧ 3 ≤ maxHops ∧
    (fetchHtml (moved 3) "a.example".toList "http://origin".toList "/".toList).1 = none := by
  have hchain : Redirects (moved 3) "a.example".toList "http://origin".toList "<head><title>x".toList 3
      (normalizePath "/".toList) [] := redirects_moved rfl
  refine ⟨hchain, by decide, ?_⟩
  rw [fetchHtml, hchain.fetchHtmlFrom_eq]
  rfl

/-! ## Where a redirect leads -/

/-- The Location names the same path for a document anywhere: it has no dot
segments, and is from the root, or the page is in the root; a query is of
the root itself. -/
def FromRoot (page : Str) (r : Reference) : Prop :=
  if r.path = [] then
    (Reference.basePath page = ['/'] ∧ r.query ≠ some []) ∨ (Reference.basePath page = [] ∧ r.query = some [])
  else
    (∀ s ∈ Reference.segments r.path, ¬Reference.IsDot s) ∧
      (r.path.head? = some '/' ∨ (Reference.basePath page ≠ [] →
        Reference.removeDots (Reference.directory (Reference.basePath page)) = ['/']))

instance (page : Str) (r : Reference) : Decidable (FromRoot page r) := by
  unfold FromRoot
  infer_instance

theorem splitFirst_text (hr : r.Relative) : Text.splitFirst r.text '#' = r.pathAndQuery := by
  have hclean : '#' ∉ r.pathAndQuery := by
    rw [Reference.pathAndQuery, List.mem_append, not_or]
    refine ⟨fun h => (hr.path_clean _ h).2 rfl, ?_⟩
    cases hq : r.query with
    | none => exact nofun
    | some q => simpa [Reference.component] using hr.query_clean q hq
  rw [Text.splitFirst_eq, Reference.text,
    List.takeWhile_append_of_pos fun c hc => by simpa using fun heq : c = '#' => hclean (heq ▸ hc)]
  cases r.fragment <;> simp [Reference.component]

/-- What is requested of a relative reference. -/
theorem rooted_text (hr : r.Relative) : rooted r.text =
    if r.path.head? = some '/' ∨ r.pathAndQuery = ['?'] then r.pathAndQuery else '/' :: r.pathAndQuery := by
  have hne := hr.nonempty
  have hhead : Text.startsWith r.pathAndQuery ['/'] = true ↔ r.path.head? = some '/' := by
    unfold Reference.pathAndQuery at hne ⊢
    obtain ⟨path, query, fragment⟩ := r
    cases path with
    | nil =>
      cases query with
      | none => exact absurd rfl hne
      | some q => simp [Reference.component, Text.startsWith, List.isPrefixOf]
    | cons c path =>
      have hc : '/' = c ↔ c = '/' := eq_comm
      simp [Text.startsWith, List.isPrefixOf, hc]
  unfold rooted
  simp only [splitFirst_text hr]
  by_cases hroot : r.pathAndQuery = ['/']
  · have hslash : r.path.head? = some '/' := hhead.mp (by rw [hroot]; rfl)
    rw [if_pos (.inr hroot), if_pos (.inl hslash), hroot]
  · rw [if_neg (not_or.mpr ⟨hne, hroot⟩)]
    simp only [hhead]

theorem segments_slash (path : Str) : Reference.segments ('/' :: path) = [] :: Reference.segments path := by
  rw [Reference.segments, List.splitOn_cons_eq_if_modifyHead, if_pos (by decide)]
  rfl

/-- A query alone names the page's own document. -/
theorem rooted_query_iff (hr : r.Relative) (hpath : r.path = []) (page : Str) :
    rooted r.text = r.resolve page ↔ FromRoot page r := by
  have hne := hr.nonempty
  rw [rooted_text hr]
  unfold FromRoot Reference.resolve
  unfold Reference.pathAndQuery at hne ⊢
  rw [hpath] at hne ⊢
  cases hq : r.query with
  | none => exact absurd (by rw [hq]; rfl) hne
  | some q =>
    simp only [if_true, List.head?_nil, reduceCtorEq, false_or, Reference.component, List.nil_append]
    generalize Reference.basePath page = base
    by_cases hempty : q = []
    · subst hempty
      have hself : ['?'] = base ++ ['?'] ↔ base = [] := by
        rw [eq_comm]
        exact List.append_left_eq_self
      simp [hself]
    · have hroot : ['/'] ++ '?' :: q = base ++ '?' :: q ↔ base = ['/'] := by
        rw [List.append_left_inj, eq_comm]
      rw [List.singleton_append] at hroot
      simp [hempty, hroot]

/-- A path names its own document. -/
theorem rooted_path_iff (hr : r.Relative) (hpath : r.path ≠ []) {page : Str}
    (hpage : Reference.basePath page = [] ∨ (Reference.basePath page).head? = some '/') :
    rooted r.text = r.resolve page ↔ FromRoot page r := by
  have hquery : r.pathAndQuery ≠ ['?'] := by
    obtain ⟨c, path, hcons⟩ := List.exists_cons_of_ne_nil hpath
    intro h
    rw [Reference.pathAndQuery, hcons, List.cons_append] at h
    exact (hr.path_clean c (by simp [hcons])).1 (List.cons.inj h).1
  rw [rooted_text hr]
  unfold FromRoot Reference.resolve
  rw [if_neg hpath, if_neg hpath]
  by_cases hroot : r.path.head? = some '/'
  · obtain ⟨rest, hrest⟩ := List.head?_eq_some_iff.mp hroot
    have hdot : ¬Reference.IsDot [] := by decide
    rw [if_pos (.inl hroot), if_pos hroot, Reference.pathAndQuery, List.append_left_inj, hrest, eq_comm,
      Reference.removeDots_eq_self_iff, segments_slash]
    simp [hdot]
  · rw [if_neg (not_or.mpr ⟨hroot, hquery⟩), if_neg hroot, Reference.pathAndQuery, ← List.cons_append,
      List.append_left_inj, Reference.eq_removeDots_merge_iff hpage]
    simp [hroot]

/-- **Where a redirect leads.** The path a relative Location gives, which the
next request is for, is what the Location names as seen from the page exactly
when that is what it names from the root. -/
theorem redirect_resolved_iff {page : Str} (hpage : page.head? = some '/' ∨ page = ['?']) (hr : r.Relative)
    (hreq : buildGet fc host upstream page = some req) (hresp : origin (req :: sent) = some resp)
    (hstatus : isRedirection resp.status = true)
    (hlocation : Http.getStr resp.headers "location".toList = some r.text) (hops : Nat) :
    ∃ next, nextPath host resp = some next ∧
      fetchHtmlFrom origin host upstream (hops + 1) page sent =
        fetchHtmlFrom origin host upstream hops next (req :: sent) ∧
      (next = r.resolve page ↔ FromRoot page r) := by
  have hnext : nextPath host resp = some (rooted r.text) := by
    rw [nextPath, hlocation]
    exact sameOriginPath_text hr host
  refine ⟨rooted r.text, hnext, ?_, ?_⟩
  · rw [fetchHtmlFrom_redirect hreq hresp hstatus, hnext]
  · by_cases hpath : r.path = []
    · exact rooted_query_iff hr hpath page
    · refine rooted_path_iff hr hpath ?_
      rcases hpage with hpage | rfl
      · obtain ⟨rest, rfl⟩ := List.head?_eq_some_iff.mp hpage
        exact .inr rfl
      · exact .inl rfl

/-- An origin that sends its first request on to `location`, and has a document
everywhere else. -/
def redirectsTo (location : Str) : Origin plainCrates := fun sent =>
  some (if sent.length = 1 then movedResponse location else documentResponse)

theorem relative_subdirectory : Reference.Relative ⟨"en/".toList, some "a=b".toList, some "top".toList⟩ where
  path_clean := by decide
  query_clean := by decide
  no_authority := by decide
  no_scheme := by decide
  nonempty := by decide

theorem redirect_resolved_subdirectory : ∃ req next,
    nextPath "a.example".toList (movedResponse "en/?a=b#top".toList) = some next ∧
    fetchHtmlFrom (redirectsTo "en/?a=b#top".toList) "a.example".toList "http://origin".toList 3 "/?x".toList [] =
      fetchHtmlFrom (redirectsTo "en/?a=b#top".toList) "a.example".toList "http://origin".toList 2 next [req] ∧
    next = "/en/?a=b".toList := by
  let req : GetRequest plainCrates :=
    (buildGet plainCrates "a.example".toList "http://origin".toList "/?x".toList).get (by rfl)
  have hreq : buildGet plainCrates "a.example".toList "http://origin".toList "/?x".toList = some req := rfl
  have hresp : redirectsTo "en/?a=b#top".toList [req] = some (movedResponse "en/?a=b#top".toList) := rfl
  obtain ⟨next, hlocation, hnext, hiff⟩ :=
    redirect_resolved_iff (.inl rfl) relative_subdirectory hreq hresp rfl (by decide +kernel) 2
  exact ⟨req, next, hlocation, hnext, (hiff.mpr (by decide)).trans (by decide)⟩

/-- The next part of a post, and of its listing. -/
theorem redirect_from_root :
    ((fetchHtml (redirectsTo "part-2".toList) "a.example".toList "http://origin".toList "/post/part-1".toList).2.map
        (·.uri.2) = ["origin/part-2".toList, "origin/post/part-1".toList] ∧
      Reference.resolve "/post/part-1".toList ⟨"part-2".toList, none, none⟩ = "/post/part-2".toList) ∧
    ((fetchHtml (redirectsTo "?page=2".toList) "a.example".toList "http://origin".toList "/posts".toList).2.map
        (·.uri.2) = ["origin/?page=2".toList, "origin/posts".toList] ∧
      Reference.resolve "/posts".toList ⟨[], some "page=2".toList, none⟩ = "/posts?page=2".toList) := by
  refine ⟨⟨by decide +kernel, by decide⟩, by decide +kernel, by decide⟩

end NekoGuard.Embed
