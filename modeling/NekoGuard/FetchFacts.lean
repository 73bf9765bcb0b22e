/-
Every request of a fetch goes to the configured upstream (`fetch_confined`):
whatever becomes of a URL begins with a delimiter, so nothing an origin
answers extends the authority of the next request.
-/
import NekoGuard.Fetch
import NekoGuard.ScrapeFacts

namespace NekoGuard.Embed

open UriCrate

variable {fc : FetchCrates} {origin : Origin fc} {host upstream : Str}

/-! ## Paths -/

/-- The path begins where an authority ends. -/
def Rooted (path : Str) : Prop := ∃ c rest, path = c :: rest ∧ isDelimiter c = true

theorem rooted_cons_slash (rest : Str) : Rooted ('/' :: rest) := ⟨'/', rest, rfl, rfl⟩

theorem rooted_of_startsWith {path : Str} (h : Text.startsWith path ['/'] = true) : Rooted path := by
  obtain ⟨t, rfl⟩ := List.isPrefixOf_iff_prefix.mp h
  exact rooted_cons_slash t

theorem normalizePath_rooted (path : Str) : Rooted (normalizePath path) := by
  obtain ⟨p, hp, -⟩ := normalizePath_shape path
  rw [hp]
  exact rooted_cons_slash p

/-- A bare query keeps its `?`, everything else gets a `/` or has one. -/
theorem rooted_rooted (rest : Str) : Rooted (rooted rest) := by
  unfold rooted
  simp only []
  split
  · exact rooted_cons_slash []
  · split
    · next h =>
      rcases h with h | h
      · exact rooted_of_startsWith h
      · rw [h]
        exact ⟨'?', [], rfl, rfl⟩
    · exact rooted_cons_slash _

theorem sameOriginPath_rooted {url path : Str} (h : sameOriginPath url host = some path) : Rooted path := by
  unfold sameOriginPath at h
  split at h
  · cases h
  · split at h
    · cases h
    · cases h
      exact rooted_rooted _

/-! ## Requests -/

/-- The request has the scheme and the authority of the upstream. -/
def ToUpstream (upstream : Str) (req : GetRequest fc) : Prop :=
  ∃ up authority, fc.parse upstream = some up ∧ fc.authority up = some authority ∧
    fc.authority req.uri = some authority ∧ fc.scheme req.uri = some ((fc.scheme up).getD "https".toList)

theorem buildGet_toUpstream (hfc : fc.Lawful) {path : Str} {req : GetRequest fc} (hpath : Rooted path)
    (h : buildGet fc host upstream path = some req) : ToUpstream upstream req := by
  unfold buildGet at h
  simp only [Option.bind_eq_bind, Option.bind_eq_some_iff, Option.pure_def, Option.some.injEq] at h
  obtain ⟨up, hup, authority, hauth, uri, huri, rfl⟩ := h
  have hscheme : fc.IsScheme ((fc.scheme up).getD "https".toList) := by
    cases hs : fc.scheme up with
    | none => exact .inl rfl
    | some s => exact .inr ⟨upstream, up, hup, hs⟩
  have hhead : ∀ c ∈ path.head?, isDelimiter c = true := by
    obtain ⟨d, rest, rfl, hd⟩ := hpath
    intro c hc
    cases hc
    exact hd
  obtain ⟨hs, ha⟩ := hfc.parse_absolute hscheme huri
  rw [takeWhile_authority (hfc.authority_clean hup hauth) hhead] at ha
  exact ⟨up, authority, hup, hauth, ha, hs⟩

/-! ## Fetches -/

theorem fetchHtmlFrom_toUpstream (hfc : fc.Lawful) (hops : Nat) {path : Str} {sent : List (GetRequest fc)}
    (hpath : Rooted path) (hsent : ∀ req ∈ sent, ToUpstream upstream req) :
    ∀ req ∈ (fetchHtmlFrom origin host upstream hops path sent).2, ToUpstream upstream req := by
  induction hops generalizing path sent with
  | zero => exact hsent
  | succ hops ih =>
    unfold fetchHtmlFrom
    split
    · exact hsent
    · next req hreq =>
      have hall : ∀ r ∈ req :: sent, ToUpstream upstream r := by
        intro r hr
        rcases List.mem_cons.mp hr with rfl | hr
        · exact buildGet_toUpstream hfc hpath hreq
        · exact hsent r hr
      split
      · exact hall
      · split
        · split
          · exact hall
          · next next hnext =>
            obtain ⟨location, -, hlocation⟩ := Option.bind_eq_some_iff.mp hnext
            exact ih (sameOriginPath_rooted hlocation) hall
        · split
          · exact hall
          · split <;> exact hall

theorem fetchHtml_toUpstream (hfc : fc.Lawful) (path : Str) :
    ∀ req ∈ (fetchHtml origin host upstream path).2, ToUpstream upstream req :=
  fetchHtmlFrom_toUpstream hfc maxHops (normalizePath_rooted path) nofun

theorem fetchIcon_toUpstream (hfc : fc.Lawful) (url : Str) {sent : List (GetRequest fc)}
    (hsent : ∀ req ∈ sent, ToUpstream upstream req) :
    ∀ req ∈ (fetchIcon origin host upstream url sent).2, ToUpstream upstream req := by
  unfold fetchIcon
  split
  · exact hsent
  · split
    · exact hsent
    · next req hreq =>
      obtain ⟨path, hpath, hbuild⟩ := Option.bind_eq_some_iff.mp hreq
      intro r hr
      rcases List.mem_cons.mp hr with rfl | hr
      · exact buildGet_toUpstream hfc (sameOriginPath_rooted hpath) hbuild
      · exact hsent r hr

/-- **No answer steers a fetch.** Whatever an origin answers, and whatever
icon its document declares, every request sent for it has the scheme and the
authority of the configured upstream. -/
theorem fetch_confined (hfc : fc.Lawful) (origin : Origin fc) (host upstream path : Str) :
    (∀ req ∈ (fetchHtml origin host upstream path).2, ToUpstream upstream req) ∧
    (∀ url, ∀ req ∈ (fetchIcon origin host upstream url []).2, ToUpstream upstream req) ∧
    ∃ found sent, fetch origin host upstream path = .ok (found, sent) ∧ ∀ req ∈ sent, ToUpstream upstream req := by
  refine ⟨fetchHtml_toUpstream hfc path, fun url => fetchIcon_toUpstream hfc url nofun, ?_⟩
  have hhtml := @fetchHtml_toUpstream fc origin host upstream hfc path
  unfold fetch
  split
  · next sent heq =>
    rw [heq] at hhtml
    exact ⟨_, _, rfl, hhtml⟩
  · next document sent heq =>
    rw [heq] at hhtml
    obtain ⟨m, hm, -⟩ := scrape_ok document
    rw [hm]
    simp only [bind, Except.bind]
    cases hurl : m.iconUrl with
    | none => exact ⟨_, _, rfl, hhtml⟩
    | some url => exact ⟨_, _, rfl, fetchIcon_toUpstream hfc url hhtml⟩

/-! ## A fetch -/

/-- URIs of the two schemes there are upstreams of. -/
def plainUris : UriCrate where
  Uri := Str × Str
  parse text :=
    match Text.stripPrefix text "http://".toList, Text.stripPrefix text "https://".toList with
    | some rest, _ => some ("http".toList, rest)
    | none, some rest => some ("https".toList, rest)
    | none, none => none
  authority u := some (u.2.takeWhile fun c => !isDelimiter c)
  scheme u := some u.1

theorem plainUris_lawful : plainUris.Lawful where
  authority_clean := by
    intro text u a _ hauth c hc
    cases hauth
    simpa using List.mem_takeWhile_imp hc
  parse_absolute := by
    intro s rest u hs hu
    have hplain : s = "https".toList ∨ s = "http".toList := by
      rcases hs with rfl | ⟨text, v, hv, hscheme⟩
      · exact .inl rfl
      · cases hscheme
        unfold plainUris at hv
        simp only at hv
        split at hv <;> cases hv
        · exact .inr rfl
        · exact .inl rfl
    rcases hplain with rfl | rfl
    · cases hu
      exact ⟨rfl, rfl⟩
    · cases hu
      exact ⟨rfl, rfl⟩

def plainCrates : FetchCrates := { plainUris with base64 := fun _ => none }

/-- An origin that sends every request on to an address of its own. -/
def elsewhere : Origin plainCrates := fun sent =>
  some { status := 302, body := ⟨[], false⟩,
         headers := [("location".toList, Text.bytes (if sent.length = 1 then "//a.example?x@b".toList
           else "http://10.0.0.5/".toList))] }

theorem elsewhere_confined : ∃ req,
    (fetchHtml elsewhere "a.example".toList "http://origin:8080/base".toList "/p".toList).2.head? = some req ∧
      ToUpstream "http://origin:8080/base".toList req := by
  have hsent : (fetchHtml elsewhere "a.example".toList "http://origin:8080/base".toList "/p".toList).2.head?.isSome =
      true := by decide +kernel
  obtain ⟨req, hreq⟩ := Option.isSome_iff_exists.mp hsent
  have hconfined := fetch_confined plainUris_lawful elsewhere "a.example".toList "http://origin:8080/base".toList
    "/p".toList
  exact ⟨req, hreq, hconfined.1 req (List.mem_of_mem_head? hreq)⟩

end NekoGuard.Embed
