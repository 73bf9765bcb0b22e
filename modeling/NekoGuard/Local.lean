/-
main.rs: the responses NekoGuard makes itself, and the local routes under
/__ng/ they answer. What the build embeds and `serde_json` are parameters
(`LocalCrates`).
-/
import NekoGuard.Pow
import NekoGuard.Session
import NekoGuard.Std.Http

namespace NekoGuard

structure VerifyPayload where
  challenge : Str
  nonce : Str
deriving DecidableEq, Repr

/-- `EmbeddedAssets::get`, the minified interstitial, and the parser of
verify bodies. -/
structure LocalCrates where
  asset : Str → Option Bytes
  challengeHtml : Str
  verifyPayload : Bytes → Option VerifyPayload

namespace Local

/-- `MAX_VERIFY_BODY`. -/
def maxVerifyBody : Nat := 512

/-- `CHALLENGE_TTL`, in seconds. -/
def challengeTtl : Nat := 300

def pkgVersion : String := "1.0.0"

def field (name : String) (value : Str) : Str × Bytes := (name.toList, Text.bytes value)

def textResp (status : Nat) (body : String) : Response where
  status := status
  headers := []
  body := Text.bytes body.toList

def localResp (status : Nat) (contentType : String) (body : Bytes) : Response where
  status := status
  headers := [field "content-type" contentType.toList,
    field "x-content-type-options" "nosniff".toList,
    field "cache-control" "no-store, private".toList]
  body := body

variable (lc : LocalCrates)

/-- The interstitial with the challenge and the difficulty spliced in. -/
def challengeHtml (challenge : Str) : Str :=
  let page := Text.replace lc.challengeHtml "\x7b\x7bCHALLENGE\x7d\x7d".toList challenge
  Text.replace page "\x7b\x7bBITS\x7d\x7d".toList (Text.decimal Pow.difficulty)

def getMimeType (path : Str) : String :=
  -- Nothing outside ASCII has a lower case that ends one of these.
  let path := Text.toAsciiLowercase path
  if Text.endsWith path ".png".toList then "image/png"
  else if Text.endsWith path ".jpg".toList || Text.endsWith path ".jpeg".toList then "image/jpeg"
  else if Text.endsWith path ".gif".toList then "image/gif"
  else if Text.endsWith path ".svg".toList then "image/svg+xml"
  else if Text.endsWith path ".webp".toList then "image/webp"
  else if Text.endsWith path ".css".toList then "text/css; charset=utf-8"
  else if Text.endsWith path ".js".toList then "application/javascript; charset=utf-8"
  else "application/octet-stream"

def serveEmbeddedAsset (filePath : Str) : Response :=
  let safePath := Text.replace filePath "..".toList []
  let cleanPath := Text.trimStartMatches (· == '/') safePath
  match lc.asset cleanPath with
  | some data =>
    { status := 200, headers := [field "content-type" (getMimeType cleanPath).toList], body := data }
  | none => textResp 404 "Asset not found"

/-! ## Challenges and their solutions -/

/-- The body of /__ng/challenge: `json!` writes its keys in order. -/
def challengeJson (challenge : Str) (ttl : Nat) : Str :=
  "\x7b\"bits\":".toList ++ Text.decimal Pow.difficulty ++ ",\"challenge\":\"".toList ++ challenge ++
    "\",\"ttl\":".toList ++ Text.decimal ttl ++ "\x7d".toList

def challengeResp (sm : SessionManager) (challenge : Str) : Response :=
  localResp 200 "application/json" (Text.bytes (challengeJson challenge sm.ttl))

/-- The payload of a verify request, when its body is one. -/
def verifyPayload (body : Http.Incoming) : Option VerifyPayload :=
  (Http.collectLimited maxVerifyBody body).bind fun bytes =>
    (lc.verifyPayload bytes).filter fun p => p.challenge ≠ [] ∧ p.nonce ≠ []

def cookieHeader (sm : SessionManager) (cookie : Str) : Str :=
  sm.cookieName ++ "=".toList ++ cookie ++ "; Path=/; HttpOnly; SameSite=Lax; Max-Age=".toList ++
    Text.decimal sm.ttl

/-- The answer to a good solution; a cookie name that no header can hold panics. -/
def verifiedResp (sm : SessionManager) (cookie : Str) : Rust Response :=
  match Http.fromStr (cookieHeader sm cookie) with
  | some value => .ok { textResp 200 "OK" with headers := [("set-cookie".toList, value)] }
  | none => .error ⟨"called `Result::unwrap()` on an `Err` value: InvalidHeaderValue"⟩

variable {lc}

/-- What a verify body has to be. -/
theorem verifyPayload_eq_some {body : Http.Incoming} {p : VerifyPayload} :
    verifyPayload lc body = some p ↔
      (body.fails = false ∧ body.data.length ≤ maxVerifyBody) ∧ lc.verifyPayload body.data = some p ∧
        p.challenge ≠ [] ∧ p.nonce ≠ [] := by
  unfold verifyPayload
  rw [Http.collectLimited_eq]
  by_cases h : body.fails = false ∧ body.data.length ≤ maxVerifyBody
  · rw [if_pos h]
    simp [h, Option.filter_eq_some_iff]
  · rw [if_neg h]
    simp [h]

end Local

end NekoGuard
