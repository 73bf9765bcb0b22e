/-
main.rs: `proxy_to_upstream`, and what it patches in the headers of a
response. The connection to the upstream is a parameter (`Client`), and so
are the codecs and the script of inject.rs.
-/
import NekoGuard.Fetch
import NekoGuard.Inject
import NekoGuard.Local
import NekoGuard.Std.Headers

namespace NekoGuard.Proxy

open Inject

/-- A request as it goes to the upstream. -/
structure ProxiedRequest (uc : UriCrate) where
  method : Method
  uri : uc.Uri
  headers : HeaderMap
  body : Http.Incoming

/-- The answer of the upstream, unless the connection fails. -/
abbrev Client (uc : UriCrate) := ProxiedRequest uc → Option Embed.OriginResponse

/-- A response as the client of NekoGuard gets it. -/
structure Proxied where
  status : Nat
  headers : HeaderMap
  body : Http.Incoming

def Proxied.ofResponse (resp : Response) : Proxied where
  status := resp.status
  headers := resp.headers
  body := ⟨[resp.body], false⟩

/-! ## Headers of a response -/

def stripCookieDomain (cookie : Str) : Str :=
  -- Nothing outside ASCII has `domain=` as its lower case.
  [';'].intercalate (((cookie.splitOn ';').zipIdx.filter fun part =>
    part.2 == 0 || !Text.startsWith (Text.toAsciiLowercase (Text.trim part.1)) "domain=".toList).map (·.1))

/-- The Location with the upstream's address replaced by the public one. -/
def rewriteLocation (upAuthority publicHost loc : Str) : Str :=
  let public_ := "https://".toList ++ publicHost
  Text.replace (Text.replace loc ("http://".toList ++ upAuthority) public_) ("https://".toList ++ upAuthority) public_

def patchLocation (upAuthority publicHost : Str) (headers : HeaderMap) : HeaderMap :=
  match Http.getStr headers "location".toList with
  | none => headers
  | some loc =>
    let rewritten := rewriteLocation upAuthority publicHost loc
    if rewritten ≠ loc then
      match Http.fromStr rewritten with
      | some v => Http.insert headers "location".toList v
      | none => headers
    else headers

def patchCookies (headers : HeaderMap) : HeaderMap :=
  let patched := (Http.getAll headers "set-cookie".toList).filterMap fun v =>
    (Http.toStr v).bind fun cookie => Http.fromStr (stripCookieDomain cookie)
  if patched ≠ [] then
    patched.foldl (fun headers v => Http.append headers "set-cookie".toList v) (Http.remove headers "set-cookie".toList)
  else headers

def patchHeaders (upAuthority publicHost : Str) (headers : HeaderMap) : HeaderMap :=
  let headers := Http.remove headers "content-security-policy".toList
  let headers := Http.remove headers "content-security-policy-report-only".toList
  let headers := Http.remove headers "transfer-encoding".toList
  patchCookies (patchLocation upAuthority publicHost headers)

/-! ## Requests -/

section Outgoing

variable (uc : UriCrate)

/-- The request for the upstream, its authority, and the public host. -/
structure Outgoing where
  upAuthority : Str
  publicHost : Str
  request : ProxiedRequest uc

/-- The scheme the browser used, when a proxy in front says so. -/
def publicScheme (req : Request) : Str :=
  (((Http.getStr req.headers "x-forwarded-proto".toList).map fun v =>
    Text.trim (Text.splitFirst v ',')).filter fun s => s ≠ []).getD "https".toList

/-- Insert a header, if its value is one. -/
def insertText (headers : HeaderMap) (name : String) (value : Str) : HeaderMap :=
  match Http.fromStr value with
  | some v => Http.insert headers name.toList v
  | none => headers

def outgoing (req : Request) (upstream : Str) : Option (Outgoing uc) := do
  let up ← uc.parse upstream
  let upAuthority := (uc.authority up).getD []
  let upScheme := (uc.scheme up).getD "https".toList
  let publicHost := (Http.getStr req.headers "host".toList).getD upAuthority
  let uri ← uc.parse (upScheme ++ "://".toList ++ (upAuthority ++ req.pathAndQuery))
  let headers := insertText req.headers "host" publicHost
  let headers := insertText headers "x-forwarded-proto" (publicScheme req)
  let headers := insertText headers "x-forwarded-host" publicHost
  return { upAuthority, publicHost, request := { method := req.method, uri, headers, body := req.body } }

end Outgoing

/-! ## Responses -/

section Proxy

variable (cz : CodecCrates) (guardJs : Str)

/-- What becomes of an answer of the upstream. -/
def respond (upAuthority publicHost : Str) (documentRequest siteBypassed : Bool) (sessionTtl : Nat)
    (resp : Embed.OriginResponse) : Rust Proxied :=
  -- An upgrade is handed on as it is.
  if resp.status = 101 then
    let headers := Http.remove (Http.remove resp.headers "transfer-encoding".toList) "content-length".toList
    .ok { status := resp.status, headers, body := resp.body }
  else
    let headers := patchHeaders upAuthority publicHost resp.headers
    if shouldInjectResponse headers documentRequest siteBypassed then do
      let (body, length) ← injectRenewalScript cz guardJs headers resp.body sessionTtl
      let headers := insertText headers "content-length" (Text.decimal length)
      return { status := resp.status, headers, body := ⟨[body], false⟩ }
    else .ok { status := resp.status, headers, body := resp.body }

variable {uc : UriCrate} (client : Client uc)

def proxyToUpstream (req : Request) (upstream : Str) (documentRequest siteBypassed : Bool) (sessionTtl : Nat) :
    Rust Proxied :=
  match outgoing uc req upstream with
  | none => .ok (.ofResponse (Local.textResp 400 "Invalid upstream URL"))
  | some out =>
    match client out.request with
    | none => .ok (.ofResponse (Local.textResp 502 "Upstream error"))
    | some resp => respond cz guardJs out.upAuthority out.publicHost documentRequest siteBypassed sessionTtl resp

end Proxy

/-! ## Facts of the headers -/

variable {headers : HeaderMap} {name : Str}

theorem getAll_patchLocation_of_ne (hname : name ≠ "location".toList) (upAuthority publicHost : Str)
    (headers : HeaderMap) :
    Http.getAll (patchLocation upAuthority publicHost headers) name = Http.getAll headers name := by
  unfold patchLocation
  split
  · rfl
  · simp only []
    split
    · split
      · exact Http.getAll_insert_of_ne hname _ _
      · rfl
    · rfl

theorem getAll_patchCookies_of_ne (hname : name ≠ "set-cookie".toList) (headers : HeaderMap) :
    Http.getAll (patchCookies headers) name = Http.getAll headers name := by
  unfold patchCookies
  simp only []
  split
  · rw [Http.getAll_foldl_append_of_ne hname, Http.getAll_remove_of_ne hname]
  · rfl

theorem getAll_insertText_of_ne {field : String} (hname : name ≠ field.toList) (headers : HeaderMap) (value : Str) :
    Http.getAll (insertText headers field value) name = Http.getAll headers name := by
  unfold insertText
  split
  · exact Http.getAll_insert_of_ne hname _ _
  · rfl

/-- The script is spliced in, or not, without a panic. -/
theorem injectRenewalScript_ok (cz : CodecCrates) (guardJs : Str) (headers : HeaderMap) (body : Http.Incoming)
    (sessionTtl : Nat) : ∃ out, injectRenewalScript cz guardJs headers body sessionTtl = .ok out := by
  unfold injectRenewalScript
  split
  · exact ⟨_, rfl⟩
  · next encoding _ =>
    split
    · exact ⟨_, rfl⟩
    · next raw _ =>
      split
      · exact ⟨_, rfl⟩
      · next hle =>
        obtain ⟨o, ho, -⟩ := rewritten_ok cz guardJs encoding sessionTtl (Nat.le_of_not_lt hle)
        rw [ho]
        cases o <;> exact ⟨_, rfl⟩

/-- **The headers of a response.** An upgrade keeps its own; anything else has
the patched ones, but for the length of a body that was rewritten. -/
theorem respond_ok (cz : CodecCrates) (guardJs : Str) (upAuthority publicHost : Str)
    (documentRequest siteBypassed : Bool) (sessionTtl : Nat) (resp : Embed.OriginResponse) :
    ∃ proxied,
      respond cz guardJs upAuthority publicHost documentRequest siteBypassed sessionTtl resp = .ok proxied ∧
      ∀ name ∉ ["content-length".toList, "transfer-encoding".toList], Http.getAll proxied.headers name =
        Http.getAll (if resp.status = 101 then resp.headers else patchHeaders upAuthority publicHost resp.headers)
          name := by
  unfold respond
  by_cases hupgrade : resp.status = 101
  · rw [if_pos hupgrade]
    refine ⟨_, rfl, fun name hname => ?_⟩
    simp only [List.mem_cons, List.not_mem_nil, or_false, not_or] at hname
    rw [if_pos hupgrade, Http.getAll_remove_of_ne hname.1, Http.getAll_remove_of_ne hname.2]
  · rw [if_neg hupgrade, if_neg hupgrade]
    simp only []
    split
    · obtain ⟨⟨body, length⟩, hinject⟩ := injectRenewalScript_ok cz guardJs
        (patchHeaders upAuthority publicHost resp.headers) resp.body sessionTtl
      rw [hinject]
      refine ⟨_, rfl, fun name hname => ?_⟩
      simp only [List.mem_cons, List.not_mem_nil, or_false, not_or] at hname
      exact getAll_insertText_of_ne hname.1 _ _
    · exact ⟨_, rfl, fun name _ => rfl⟩

/-- What the three headers that are removed do not touch. -/
theorem getAll_patchHeaders (name : Str) (hname : name ∉ ["content-security-policy".toList,
      "content-security-policy-report-only".toList, "transfer-encoding".toList])
    (upAuthority publicHost : Str) (headers : HeaderMap) :
    ∃ kept, Http.getAll kept name = Http.getAll headers name ∧
      patchHeaders upAuthority publicHost headers = patchCookies (patchLocation upAuthority publicHost kept) := by
  simp only [List.mem_cons, List.not_mem_nil, or_false, not_or] at hname
  obtain ⟨hpolicy, hreport, hencoding⟩ := hname
  refine ⟨_, ?_, rfl⟩
  rw [Http.getAll_remove_of_ne hencoding, Http.getAll_remove_of_ne hreport, Http.getAll_remove_of_ne hpolicy]

end NekoGuard.Proxy
