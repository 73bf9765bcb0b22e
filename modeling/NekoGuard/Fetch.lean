/-
embed.rs: an origin's document and its favicon, fetched from the upstream.
What the origin answers may depend on everything it has been asked, the
last request included; an answer that does not come in time, or at all, is
`none`. All requests sent are kept, newest first.
-/
import NekoGuard.Scrape
import NekoGuard.Std.Http
import NekoGuard.Std.Uri
import NekoGuard.Std.Utf8

namespace NekoGuard.Embed

open UriCrate

/-- `MAX_HTML`, `MAX_ICON` and `MAX_HOPS`. -/
def maxHtml : Nat := 512 * 1024
def maxIcon : Nat := 2 * 1024 * 1024
def maxHops : Nat := 3

/-! ## Addresses -/

/-- Up to the first `/`, `?` or `#`, and from there on. -/
def splitAuthority (rest : Str) : Str × Str :=
  (rest.takeWhile fun c => !isDelimiter c, rest.dropWhile fun c => !isDelimiter c)

/-- `trim_start_matches("//")`. -/
def trimSlashes : Str → Str
  | '/' :: '/' :: s => trimSlashes s
  | s => s

def isSchemeChar (c : Char) : Bool := c.isAlphanum || c == '+' || c == '-' || c == '.'

/-- `rsplit('@').next()`. -/
def afterUserinfo (authority : Str) : Str := (authority.reverse.takeWhile (· ≠ '@')).reverse

/-- The host an authority names. -/
def hostOf (authority : Str) : Str :=
  Text.splitFirst (Text.trimEndMatches (· == '.') (afterUserinfo authority)) ':'

/-- The authority a URL names, empty when it names none, and the rest. An
absolute URL of another scheme is refused. -/
def urlParts (url : Str) : Option (Str × Str) :=
  match Text.stripPrefix url "//".toList with
  | some rest => some (splitAuthority rest)
  | none =>
    match Text.splitOnce url ':' with
    | some (scheme, rest) =>
      let scheme := Text.toAsciiLowercase scheme
      if scheme ≠ [] ∧ scheme.all isSchemeChar then
        if scheme ≠ "http".toList ∧ scheme ≠ "https".toList then none
        else some (splitAuthority (trimSlashes rest))
      else some ([], url)
    | none => some ([], url)

/-- The rest without its fragment, rooted. -/
def rooted (rest : Str) : Str :=
  let rest := Text.splitFirst rest '#'
  if rest = [] ∨ rest = ['/'] then ['/']
  else if Text.startsWith rest ['/'] ∨ rest = ['?'] then rest
  else '/' :: rest

/-- A URL of the document reduced to a path on this origin. -/
def sameOriginPath (url host : Str) : Option Str :=
  match urlParts url with
  | none => none
  | some (authority, rest) =>
    if authority ≠ [] ∧ !Text.eqIgnoreAsciiCase (hostOf authority) host then none
    else some (rooted rest)

/-! ## Requests -/

/-- The crates a fetch rests on: `hyper::Uri` and `base64`. -/
structure FetchCrates extends UriCrate where
  base64 : Str → Option Bytes

variable (fc : FetchCrates)

/-- A GET request, as `build_get` makes it. -/
structure GetRequest where
  uri : fc.Uri
  headers : HeaderMap

/-- A GET for a path, addressed to the upstream but under the public host. -/
def buildGet (host upstream path : Str) : Option (GetRequest fc) := do
  let up ← fc.parse upstream
  let authority ← fc.authority up
  let scheme := (fc.scheme up).getD "https".toList
  let uri ← fc.parse (scheme ++ "://".toList ++ (authority ++ path))
  let identity :=
    match Http.fromStr host with
    | some pub => [("host".toList, pub), ("x-forwarded-proto".toList, Text.bytes "https".toList),
        ("x-forwarded-host".toList, pub)]
    | none => []
  return { uri, headers := ("cache-control".toList, Text.bytes "no-cache".toList) :: identity }

/-- The response of an origin; its body fails also when it is too slow. -/
structure OriginResponse where
  status : Nat
  headers : HeaderMap
  body : Http.Incoming

/-- The origin: its answer to the newest of the requests so far. -/
abbrev Origin := List (GetRequest fc) → Option OriginResponse

/-! ## Documents -/

def lowerByte (b : UInt8) : UInt8 := if 65 ≤ b ∧ b ≤ 90 then b + 32 else b

/-- `</head`. -/
def headMarker : Bytes := Text.bytes "</head".toList

/-- The index of the first marker at or after `start`. -/
def findHeadEnd (buf : Bytes) (start : Nat) : Option Nat :=
  if buf.length < headMarker.length then none
  else
    let last := buf.length - headMarker.length
    let start := min start last
    (List.range' start (last + 1 - start)).find? fun i =>
      ((buf.drop i).take headMarker.length).map lowerByte == headMarker

/-- The chunks, up to the end of the head. Everything before `scanned` has
been searched. -/
def readChunks : List Bytes → Bool → Bytes → Nat → Option Bytes
  | [], fails, collected, _ => if fails then none else some collected
  | chunk :: chunks, fails, collected, scanned =>
    match findHeadEnd (collected ++ chunk) scanned with
    | some stop => some ((collected ++ chunk).take stop)
    | none =>
      if maxHtml < (collected ++ chunk).length then none
      else readChunks chunks fails (collected ++ chunk) ((collected ++ chunk).length - (headMarker.length - 1))

def readHead (body : Http.Incoming) : Option Str :=
  (readChunks body.frames body.fails [] 0).map Utf8.fromUtf8Lossy

def isHtml (contentType : Option Bytes) : Bool :=
  let ct := Text.toAsciiLowercase (Text.trim ((contentType.bind Http.toStr).getD []))
  Text.startsWith ct "text/html".toList || Text.startsWith ct "application/xhtml+xml".toList

def isRedirection (status : Nat) : Bool := 300 ≤ status && status < 400

variable {fc} (origin : Origin fc) (host upstream : Str)

/-- The loop of `fetch_html`, with that many rounds left. -/
def fetchHtmlFrom : Nat → Str → List (GetRequest fc) → Option Str × List (GetRequest fc)
  | 0, _, sent => (none, sent)
  | hops + 1, path, sent =>
    match buildGet fc host upstream path with
    | none => (none, sent)
    | some req =>
      match origin (req :: sent) with
      | none => (none, req :: sent)
      | some resp =>
        if isRedirection resp.status then
          match (Http.getStr resp.headers "location".toList).bind fun location => sameOriginPath location host with
          | none => (none, req :: sent)
          | some path => fetchHtmlFrom hops path (req :: sent)
        else if resp.status ≠ 200 then (none, req :: sent)
        else if !isHtml (Http.get resp.headers "content-type".toList) then (none, req :: sent)
        else (readHead resp.body, req :: sent)

def fetchHtml (path : Str) : Option Str × List (GetRequest fc) :=
  fetchHtmlFrom origin host upstream maxHops (normalizePath path) []

/-! ## Favicons -/

/-- A `data:` favicon, after the colon. -/
def decodeDataUri (base64 : Str → Option Bytes) (rest : Str) : Option (Bytes × String) := do
  let (kind, payload) ← Text.splitOnce rest ','
  let mime ← iconMime (Text.splitFirst kind ';')
  if !Text.contains (Text.toAsciiLowercase kind) ";base64".toList then none
  let decoded ← base64 (Text.trim payload)
  if decoded = [] ∨ maxIcon < decoded.length then none
  else some (decoded, mime)

/-- What an answer to the icon's request is worth. -/
def iconOf (resp : OriginResponse) : Option (Bytes × String) := do
  if resp.status ≠ 200 then none
  let mime ← iconMime ((Http.getStr resp.headers "content-type".toList).getD [])
  let body ← Http.collectLimited maxIcon resp.body
  return (body, mime)

def fetchIcon (url : Str) (sent : List (GetRequest fc)) : Option (Bytes × String) × List (GetRequest fc) :=
  match Text.stripPrefix url "data:".toList with
  | some rest => (decodeDataUri fc.base64 rest, sent)
  | none =>
    match (sameOriginPath url host).bind fun path => buildGet fc host upstream path with
    | none => (none, sent)
    | some req => ((origin (req :: sent)).bind iconOf, req :: sent)

/-- Fetch and scrape one origin. -/
def fetch (path : Str) : Rust (Option Meta × List (GetRequest fc)) :=
  match fetchHtml origin host upstream path with
  | (none, sent) => .ok (none, sent)
  | (some document, sent) => do
    let m ← scrape document
    match m.iconUrl with
    | none => return (some m, sent)
    | some url =>
      let (icon, sent) := fetchIcon origin host upstream url sent
      return (some { m with iconUrl := none, icon := icon }, sent)

end NekoGuard.Embed
