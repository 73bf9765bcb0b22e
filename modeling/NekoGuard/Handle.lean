/-
main.rs: `handle`, the request handler behind both listeners. What it gets
from the process, from Redis and from the origin on the way is `Calls`; what
it does with a request is answer it or pass it on (`Reply`). The decision it
takes on the way is kept beside that (`Access`).
-/
import NekoGuard.Config
import NekoGuard.Local

namespace NekoGuard

open Config Local

/-- `now()`, `new_challenge`, `check_pow`, a random nonce, `embed::favicon`,
`embed::inline_into` and `ratelimit::allow`, while one request is handled. -/
structure Calls where
  clock : Clock
  newChallenge : Str
  checkPow : Str → Str → Bool
  nonce : Nonce
  favicon : Str → Str → Str → Option (Bytes × String)
  inlineInto : Str → Str → Str → Str → Str
  allow : IpAddr → RateLimitConfig → Bool

/-- What is asked of a request, and the bucket it is charged to. -/
structure Access where
  sessionValid : Bool
  whitelisted : Bool
  bypassed : Bool
  bucket : Option (IpAddr × RateLimitConfig)
deriving DecidableEq, Repr

def Access.admits (acc : Access) : Bool := acc.sessionValid || acc.whitelisted || acc.bypassed

inductive Reply where
  | answer (resp : Response)
  | proxy (upstream : Str) (documentRequest siteBypassed : Bool)
deriving DecidableEq, Repr

structure Handled where
  reply : Reply
  access : Option Access
deriving DecidableEq, Repr

namespace Handle

variable {rx : RegexCrate} (cfg : Config rx) (lc : LocalCrates) (cr : SealingCrates) (sm : SessionManager)
  (calls : Calls) (peerIp : IpAddr) (req : Request)

/-- X-Real-IP when it is an address, else the TCP peer. -/
def realIp : IpAddr := ((req.header "x-real-ip").bind IpAddr.parse).getD peerIp

/-- The site's upstream, or the catchall's. -/
def upstream : Option Str :=
  (((req.header "host").bind cfg.siteForHost).map (·.upstream)).or (cfg.catchall.map (·.upstream))

/-! ## Local routes -/

/-- The Host header as the log has it. -/
def hostHeader : Str := (req.header "host").getD "-".toList

def canonical : Option Bytes :=
  if hostHeader req = "-".toList then none
  else Http.fromStr ("<https://".toList ++ normalizeHost (hostHeader req) ++ req.pathAndQuery ++
    ">; rel=\"canonical\"".toList)

def faviconResp : Response :=
  match upstream cfg req with
  | some u =>
    if hostHeader req = "-".toList then textResp 404 "Not found"
    else
      match calls.favicon (hostHeader req) u req.path with
      | some (icon, mime) => localResp 200 mime icon
      | none => textResp 404 "Not found"
  | none => textResp 404 "Not found"

def verifyResp : Rust Response :=
  match verifyPayload lc req.body with
  | none => .ok (textResp 400 "Bad request")
  | some payload =>
    if calls.checkPow payload.challenge payload.nonce then
      verifiedResp sm (sm.createCookie cr (realIp peerIp req) calls.clock calls.nonce)
    else .ok (textResp 403 "Invalid solution")

/-- The routes under /__ng/, answered before any other check. -/
def ngRoute : Option (Rust Response) :=
  if req.path = "/__ng/version".toList ∧ req.method = .get then some (.ok (textResp 200 pkgVersion))
  else if Text.startsWith req.path "/__ng/assets/".toList = true ∧ req.method = .get then
    some (.ok (serveEmbeddedAsset lc (req.path.drop 13)))
  else if req.path = "/__ng/favicon.ico".toList ∧ req.method = .get then
    some (.ok (faviconResp cfg calls req))
  else if req.path = "/__ng/challenge".toList ∧ req.method = .get then
    some (.ok (challengeResp sm calls.newChallenge))
  else if req.path = "/__ng/verify".toList ∧ req.method = .post then
    some (verifyResp lc cr sm calls peerIp req)
  else none

/-- The requests NekoGuard answers itself. -/
def IsNgRoute (req : Request) : Prop :=
  (req.path = "/__ng/version".toList ∧ req.method = .get) ∨
  (Text.startsWith req.path "/__ng/assets/".toList = true ∧ req.method = .get) ∨
  (req.path = "/__ng/favicon.ico".toList ∧ req.method = .get) ∨
  (req.path = "/__ng/challenge".toList ∧ req.method = .get) ∨
  (req.path = "/__ng/verify".toList ∧ req.method = .post)

instance : Decidable (IsNgRoute req) := inferInstanceAs (Decidable (_ ∨ _))

theorem ite_some_eq_none {α : Type} {c : Prop} [Decidable c] {a : α} {o : Option α} :
    (if c then some a else o) = none ↔ ¬c ∧ o = none := by
  by_cases h : c <;> simp [h]

variable {cfg lc cr sm calls peerIp req} in
theorem ngRoute_eq_none : ngRoute cfg lc cr sm calls peerIp req = none ↔ ¬IsNgRoute req := by
  unfold ngRoute IsNgRoute
  simp only [ite_some_eq_none, not_or, and_true]

/-! ## The decision -/

/-- The value of the first cookie that is called like the session's. -/
def sessionCookie : Option Str :=
  (req.header "cookie").bind fun c =>
    ((c.splitOn ';').find? fun part =>
      Text.startsWith (Text.trim part) (sm.cookieName ++ "=".toList)).map fun part =>
        ((Text.splitOnce (Text.trim part) '=').map (·.2)).getD []

def sessionValid : Rust Bool :=
  match sessionCookie sm req with
  | none => .ok false
  | some val => (sm.verifyCookie cr val (realIp peerIp req) calls.clock).map (·.isOk)

variable {cr sm calls peerIp req} in
theorem sessionValid_iff : sessionValid cr sm calls peerIp req = .ok true ↔
    ∃ cookie, sessionCookie sm req = some cookie ∧ sm.Accepts cr cookie (realIp peerIp req) calls.clock := by
  unfold sessionValid SessionManager.Accepts
  cases hc : sessionCookie sm req with
  | none => simp
  | some val =>
    simp only [Option.some.injEq, exists_eq_left']
    cases hv : sm.verifyCookie cr val (realIp peerIp req) calls.clock with
    | error e => simp [Except.map]
    | ok res => cases res <;> simp [Except.map, Except.isOk, Except.toBool]

/-- Whether the site's list has the path, or failing that the catchall's. -/
def bypassMatch : Bool :=
  let isMatch (re : Regex rx) : Bool := re.isMatch req.path
  (((req.header "host").bind cfg.siteForHost).any fun site => site.bypass.any isMatch) ||
    cfg.catchallBypass.any isMatch

/-- The limits of the catchall when it has some, else the global ones. -/
def siteRl : RateLimitConfig := (cfg.catchall.bind (·.rateLimit)).getD cfg.rateLimit

/-- A request a bypass lets through is not charged. -/
def access : Rust Access := do
  let sessionValid ← sessionValid cr sm calls peerIp req
  let whitelisted := decide (realIp peerIp req ∈ cfg.whitelist)
  let bypassed := bypassMatch cfg req
  let bucket := if (sessionValid || whitelisted) && !bypassed then some (realIp peerIp req, siteRl cfg) else none
  return { sessionValid, whitelisted, bypassed, bucket }

/-! ## The handler -/

/-- Only navigations get the renewal script. -/
def isDocumentRequest : Bool :=
  match req.header "sec-fetch-dest" with
  | some dest => Text.eqIgnoreAsciiCase (Text.trim dest) "document".toList
  | none => ((req.header "accept").map fun a => Text.contains a "text/html".toList).getD false

/-- The challenge page, for those who are not let through. -/
def interstitial : Response :=
  let page := challengeHtml lc calls.newChallenge
  let page :=
    match upstream cfg req with
    | some u =>
      if hostHeader req = "-".toList then Text.replace page "\x7b\x7bNG_META\x7d\x7d".toList []
      else calls.inlineInto page (hostHeader req) u req.path
    | none => Text.replace page "\x7b\x7bNG_META\x7d\x7d".toList []
  let resp := localResp 200 "text/html; charset=utf-8" (Text.bytes page)
  match canonical req with
  | some link => { resp with headers := resp.headers ++ [("link".toList, link)] }
  | none => resp

/-- What follows from the decision. -/
def decided (acc : Access) : Reply :=
  if acc.admits then
    if acc.bucket.any fun b => !calls.allow b.1 b.2 then .answer (textResp 429 "Rate limit exceeded")
    else
      match upstream cfg req with
      | some u => .proxy u (isDocumentRequest req) acc.bypassed
      | none => .answer (textResp 400 "No upstream configured for this Host")
  else .answer (interstitial cfg lc calls req)

def handle : Rust Handled :=
  match ngRoute cfg lc cr sm calls peerIp req with
  | some resp => do return { reply := .answer (← resp), access := none }
  | none => do
    let acc ← access cfg cr sm calls peerIp req
    return { reply := decided cfg lc calls req acc, access := some acc }

end Handle

end NekoGuard
