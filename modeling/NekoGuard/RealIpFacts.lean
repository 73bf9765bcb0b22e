/-
Whose address a request is judged by. `handle` takes it from X-Real-IP,
whoever sends that; its decisions are about the TCP peer exactly when no
request names another address there (`bound_to_peer_iff`).
-/
import NekoGuard.Handle
import NekoGuard.Samples

namespace NekoGuard.Handle

open Config Local

/-- The X-Real-IP header of a request. -/
def xRealIp (req : Request) : Option Bytes := Http.get req.headers "x-real-ip".toList

def withoutRealIp (req : Request) : Request :=
  { req with headers := Http.remove req.headers "x-real-ip".toList }

/-- A header that names no address but the peer's. -/
def Harmless (peerIp : IpAddr) (value : Option Bytes) : Prop :=
  ∀ ip, (value.bind Http.toStr).bind IpAddr.parse = some ip → ip = peerIp

/-! ## What the header touches -/

section Header

variable {rx : RegexCrate} {cfg : Config rx} {lc : LocalCrates} {cr : SealingCrates} {sm : SessionManager}
  {calls : Calls} {peerIp : IpAddr} {req : Request}

theorem realIp_of_harmless (h : Harmless peerIp (xRealIp req)) : realIp peerIp req = peerIp := by
  unfold realIp Request.header Http.getStr
  cases hp : ((Http.get req.headers "x-real-ip".toList).bind Http.toStr).bind IpAddr.parse with
  | none => rfl
  | some ip => exact h ip hp

theorem xRealIp_withoutRealIp (req : Request) : xRealIp (withoutRealIp req) = none :=
  Http.get_remove_self _ _

theorem harmless_none : Harmless peerIp none := nofun

theorem header_withoutRealIp {name : String} (h : name.toList ≠ "x-real-ip".toList) :
    (withoutRealIp req).header name = req.header name :=
  Http.getStr_remove_of_ne h

/-- A header that is harmless makes no difference at all. -/
theorem handle_withoutRealIp (h : Harmless peerIp (xRealIp req)) :
    handle cfg lc cr sm calls peerIp (withoutRealIp req) = handle cfg lc cr sm calls peerIp req := by
  have hip : realIp peerIp (withoutRealIp req) = realIp peerIp req := by
    rw [realIp_of_harmless h, realIp_of_harmless]
    rw [xRealIp_withoutRealIp]
    exact harmless_none
  have hhost : (withoutRealIp req).header "host" = req.header "host" := header_withoutRealIp (by decide)
  have hcookie : (withoutRealIp req).header "cookie" = req.header "cookie" := header_withoutRealIp (by decide)
  have hdest : (withoutRealIp req).header "sec-fetch-dest" = req.header "sec-fetch-dest" :=
    header_withoutRealIp (by decide)
  have haccept : (withoutRealIp req).header "accept" = req.header "accept" := header_withoutRealIp (by decide)
  have hpath : (withoutRealIp req).path = req.path := rfl
  have hmethod : (withoutRealIp req).method = req.method := rfl
  have hbody : (withoutRealIp req).body = req.body := rfl
  have hpq : (withoutRealIp req).pathAndQuery = req.pathAndQuery := rfl
  unfold handle ngRoute access decided interstitial isDocumentRequest bypassMatch sessionValid sessionCookie
    verifyResp faviconResp canonical hostHeader upstream
  rw [hip, hhost, hcookie, hdest, haccept, hpath, hmethod, hbody, hpq]

/-- The request is answered with that session cookie. -/
def Seals (cfg : Config rx) (lc : LocalCrates) (cr : SealingCrates) (sm : SessionManager) (calls : Calls)
    (peerIp : IpAddr) (req : Request) (cookie : Str) : Prop :=
  ∃ resp acc, handle cfg lc cr sm calls peerIp req = .ok ⟨.answer resp, acc⟩ ∧
    Http.get resp.headers "set-cookie".toList = some (Text.bytes (cookieHeader sm cookie))

theorem cookieHeader_inj {c d : Str} (h : cookieHeader sm c = cookieHeader sm d) : c = d := by
  unfold cookieHeader at h
  simpa only [List.append_assoc, List.append_cancel_left_eq, List.append_cancel_right_eq] using h

/-! ### Answers without a cookie -/

def NoCookie (resp : Response) : Prop := Http.get resp.headers "set-cookie".toList = none

theorem noCookie_textResp (status : Nat) (body : String) : NoCookie (textResp status body) := rfl

theorem noCookie_localResp (status : Nat) (contentType : String) (body : Bytes) :
    NoCookie (localResp status contentType body) := rfl

theorem noCookie_asset (filePath : Str) : NoCookie (serveEmbeddedAsset lc filePath) := by
  unfold serveEmbeddedAsset
  simp only []
  split
  · rfl
  · exact noCookie_textResp _ _

theorem noCookie_favicon : NoCookie (faviconResp cfg calls req) := by
  unfold faviconResp
  split
  · split
    · exact noCookie_textResp _ _
    · split
      · exact noCookie_localResp _ _ _
      · exact noCookie_textResp _ _
  · exact noCookie_textResp _ _

theorem noCookie_interstitial : NoCookie (interstitial cfg lc calls req) := by
  unfold interstitial
  simp only []
  cases canonical req with
  | none => exact noCookie_localResp _ _ _
  | some link => rfl

theorem noCookie_decided {acc : Access} {resp : Response} (h : decided cfg lc calls req acc = .answer resp) :
    NoCookie resp := by
  unfold decided at h
  split at h
  · split at h
    · cases h
      exact noCookie_textResp _ _
    · split at h
      · cases h
      · cases h
        exact noCookie_textResp _ _
  · cases h
    exact noCookie_interstitial

theorem ngRoute_cookie {r : Rust Response} (h : ngRoute cfg lc cr sm calls peerIp req = some r) :
    (∃ resp, r = .ok resp ∧ NoCookie resp) ∨ r = verifyResp lc cr sm calls peerIp req := by
  unfold ngRoute at h
  split at h
  · cases h
    exact .inl ⟨_, rfl, noCookie_textResp _ _⟩
  · split at h
    · cases h
      exact .inl ⟨_, rfl, noCookie_asset _⟩
    · split at h
      · cases h
        exact .inl ⟨_, rfl, noCookie_favicon⟩
      · split at h
        · cases h
          exact .inl ⟨_, rfl, noCookie_localResp _ _ _⟩
        · split at h
          · cases h
            exact .inr rfl
          · cases h

theorem get_verifiedResp {resp : Response} {cookie : Str} (h : verifiedResp sm cookie = .ok resp) :
    Http.get resp.headers "set-cookie".toList = some (Text.bytes (cookieHeader sm cookie)) := by
  unfold verifiedResp Http.fromStr at h
  split at h
  · next value hvalue =>
    split at hvalue
    · cases hvalue
      cases h
      rfl
    · cases hvalue
  · cases h

/-- The one answer with a cookie has one for the address of the request. -/
theorem verifyResp_cookie {resp : Response} {cookie : Str} (h : verifyResp lc cr sm calls peerIp req = .ok resp)
    (hset : Http.get resp.headers "set-cookie".toList = some (Text.bytes (cookieHeader sm cookie))) :
    cookie = sm.createCookie cr (realIp peerIp req) calls.clock calls.nonce := by
  have hnone : ∀ resp', NoCookie resp' → resp ≠ resp' := by
    rintro _ hno rfl
    rw [hno] at hset
    cases hset
  unfold verifyResp at h
  split at h
  · cases h
    exact absurd rfl (hnone _ (noCookie_textResp _ _))
  · split at h
    · rw [get_verifiedResp h, Option.some.injEq] at hset
      exact (cookieHeader_inj (Text.bytes_inj hset)).symm
    · cases h
      exact absurd rfl (hnone _ (noCookie_textResp _ _))

/-- The only cookie `handle` sets is one sealed for the address it took. -/
theorem Seals.eq_createCookie {cookie : Str} (h : Seals cfg lc cr sm calls peerIp req cookie) :
    cookie = sm.createCookie cr (realIp peerIp req) calls.clock calls.nonce := by
  obtain ⟨resp, acc, hh, hset⟩ := h
  have hno : ¬NoCookie resp := by
    intro hno
    rw [hno] at hset
    cases hset
  unfold handle at hh
  cases hng : ngRoute cfg lc cr sm calls peerIp req with
  | some r =>
    rw [hng] at hh
    rcases ngRoute_cookie hng with ⟨resp', rfl, hno'⟩ | rfl
    · cases hh
      exact absurd hno' hno
    · cases hv : verifyResp lc cr sm calls peerIp req with
      | error e =>
        rw [hv] at hh
        cases hh
      | ok resp' =>
        rw [hv] at hh
        cases hh
        exact verifyResp_cookie hv hset
  | none =>
    rw [hng] at hh
    cases hacc : access cfg cr sm calls peerIp req with
    | error e =>
      rw [hacc] at hh
      cases hh
    | ok a =>
      rw [hacc] at hh
      simp only [bind, Except.bind, pure, Except.pure, Except.ok.injEq, Handled.mk.injEq] at hh
      exact absurd (noCookie_decided hh.1) hno

end Header

/-! ## Bound to the peer -/

/-- Which X-Real-IP headers the peers send. -/
abbrev Sent := IpAddr → Option Bytes → Prop

/-- Requests of one peer that differ in X-Real-IP only meet the same decision. -/
def SameDecision (sent : Sent) : Prop :=
  ∀ (rx : RegexCrate) (cfg : Config rx) lc cr sm calls peerIp req req', sent peerIp (xRealIp req) →
    sent peerIp (xRealIp req') → withoutRealIp req = withoutRealIp req' →
    (handle cfg lc cr sm calls peerIp req).map (·.access) =
      (handle cfg lc cr sm calls peerIp req').map (·.access)

/-- A cookie one peer got admits no other. -/
def CookieBound (sent : Sent) : Prop :=
  ∀ (rx : RegexCrate) (cfg : Config rx) lc (cr : SealingCrates) sm calls calls' a b req req' cookie, cr.Lawful →
    sent a (xRealIp req) → sent b (xRealIp req') → Seals cfg lc cr sm calls a req cookie →
    sessionCookie sm req' = some cookie → b ≠ a → sessionValid cr sm calls' b req' ≠ .ok true

/-- A peer that is not on the whitelist is never let through as one that is. -/
def WhitelistBound (sent : Sent) : Prop :=
  ∀ (rx : RegexCrate) (cfg : Config rx) lc cr sm calls peerIp req h acc, sent peerIp (xRealIp req) →
    handle cfg lc cr sm calls peerIp req = .ok h → h.access = some acc → peerIp ∉ cfg.whitelist →
    acc.whitelisted = false

theorem sameDecision_of_harmless {sent : Sent} (h : ∀ a v, sent a v → Harmless a v) : SameDecision sent := by
  intro rx cfg lc cr sm calls peerIp req req' hreq hreq' hsame
  rw [← handle_withoutRealIp (h _ _ hreq), ← handle_withoutRealIp (h _ _ hreq'), hsame]

theorem cookieBound_of_harmless {sent : Sent} (h : ∀ a v, sent a v → Harmless a v) : CookieBound sent := by
  intro rx cfg lc cr sm calls calls' a b req req' cookie hcr hreq hreq' hseals hcookie hne hvalid
  have hsealed := hseals.eq_createCookie
  rw [realIp_of_harmless (h _ _ hreq)] at hsealed
  obtain ⟨cookie', hcookie', hacc⟩ := sessionValid_iff.mp hvalid
  rw [hcookie, Option.some.injEq] at hcookie'
  rw [← hcookie', hsealed, realIp_of_harmless (h _ _ hreq'), SessionManager.accepts_createCookie hcr] at hacc
  exact hne hacc.1.symm

theorem whitelistBound_of_harmless {sent : Sent} (h : ∀ a v, sent a v → Harmless a v) : WhitelistBound sent := by
  intro rx cfg lc cr sm calls peerIp req hd acc hreq hh hacc hwhite
  unfold handle at hh
  cases hng : ngRoute cfg lc cr sm calls peerIp req with
  | some r =>
    rw [hng] at hh
    cases r with
    | error e => cases hh
    | ok resp =>
      cases hh
      cases hacc
  | none =>
    rw [hng] at hh
    unfold access at hh
    rw [realIp_of_harmless (h _ _ hreq)] at hh
    cases hs : sessionValid cr sm calls peerIp req with
    | error e =>
      rw [hs] at hh
      cases hh
    | ok valid =>
      rw [hs] at hh
      cases hh
      cases hacc
      exact decide_eq_false hwhite

/-- A server that lets that address in. -/
abbrev letsIn (ip : IpAddr) : Config Sample.regexes := Sample.server [ip]

/-- A visitor who says to be from somewhere. -/
def spoof (v : Bytes) : Request := Sample.visit "/" [("x-real-ip".toList, v)]

theorem xRealIp_spoof (v : Bytes) : xRealIp (spoof v) = some v := rfl

theorem realIp_spoof {peerIp ip : IpAddr} {v : Bytes} (hip : (Http.toStr v).bind IpAddr.parse = some ip) :
    realIp peerIp (spoof v) = ip := by
  have hget : Http.get (spoof v).headers "x-real-ip".toList = some v := xRealIp_spoof v
  unfold realIp Request.header Http.getStr
  rw [hget, Option.bind_some, hip]
  rfl

/-- Where that is whitelisted, they are let in. -/
theorem handle_spoof (peerIp : IpAddr) {ip : IpAddr} {v : Bytes} (hip : (Http.toStr v).bind IpAddr.parse = some ip) :
    ∃ h acc, handle (letsIn ip) Sample.locals Sample.crates Sample.manager Sample.calls peerIp (spoof v) = .ok h ∧
      h.access = some acc ∧ acc.whitelisted = true := by
  have hng : ngRoute (letsIn ip) Sample.locals Sample.crates Sample.manager Sample.calls peerIp (spoof v) = none :=
    ngRoute_eq_none.mpr (show ¬IsNgRoute (Sample.visit "/" []) by decide +kernel)
  have hcookie : (spoof v).header "cookie" = none := by
    simp [Request.header, Http.getStr, spoof, Sample.visit, Http.get]
  have hsession : sessionValid Sample.crates Sample.manager Sample.calls peerIp (spoof v) = .ok false := by
    unfold sessionValid sessionCookie
    rw [hcookie]
    rfl
  have hwhite : realIp peerIp (spoof v) ∈ (letsIn ip).whitelist := by
    rw [realIp_spoof hip]
    exact List.mem_singleton_self ip
  unfold handle access
  rw [hng, hsession]
  exact ⟨_, _, rfl, rfl, decide_eq_true hwhite⟩

/-- **When decisions are about the peer.** Requests of one peer that differ in
X-Real-IP only meet the same decision, a cookie one peer got admits no other,
and nobody is let in as whitelisted who is not, for whatever else is
requested of whatever server, if and only if no peer sends an X-Real-IP that
names another address. -/
theorem bound_to_peer_iff (sent : Sent) :
    SameDecision sent ∧ CookieBound sent ∧ WhitelistBound sent ↔
      ∀ peerIp value, sent peerIp value → Harmless peerIp value := by
  constructor
  · rintro ⟨-, -, hwhite⟩ peerIp value hsent ip hip
    by_contra hne
    cases value with
    | none => cases hip
    | some v =>
      obtain ⟨h, acc, hh, hacc, htrue⟩ := handle_spoof peerIp hip
      have hsent' : sent peerIp (xRealIp (spoof v)) := (xRealIp_spoof v).symm ▸ hsent
      have hnot : peerIp ∉ (letsIn ip).whitelist := fun hmem => hne (List.mem_singleton.mp hmem).symm
      rw [hwhite _ _ _ _ _ _ _ _ _ _ hsent' hh hacc hnot] at htrue
      cases htrue
  · intro h
    exact ⟨sameDecision_of_harmless h, cookieBound_of_harmless h, whitelistBound_of_harmless h⟩

/-- 203.0.113.9 is not let in, and is as 127.0.0.1. -/
theorem spoof_lets_in :
    withoutRealIp (spoof (Text.bytes "127.0.0.1".toList)) = withoutRealIp (Sample.visit "/" []) ∧
      (.v4 203 0 113 9 : IpAddr) ∉ (letsIn (.v4 127 0 0 1)).whitelist ∧
      (handle (letsIn (.v4 127 0 0 1)) Sample.locals Sample.crates Sample.manager Sample.calls (.v4 203 0 113 9)
        (spoof (Text.bytes "127.0.0.1".toList))).map (·.access) = .ok (some ⟨false, true, false,
          some (.v4 127 0 0 1, default)⟩) ∧
      (handle (letsIn (.v4 127 0 0 1)) Sample.locals Sample.crates Sample.manager Sample.calls (.v4 203 0 113 9)
        (Sample.visit "/" [])).map (·.access) = .ok (some ⟨false, false, false, none⟩) := by
  decide +kernel

end NekoGuard.Handle
