/-
acme.rs: the account, and the signing of requests. `AcmeClient::new` draws a
key, asks for the directory and a nonce and creates the account; its requests
are then signed in the account's name. `issue_cert` runs on what `new` leaves
(`during`). All that is sent is kept, newest first.
-/
import NekoGuard.Acme

namespace NekoGuard.Acme

open Lib

structure DirectoryUrls where
  newNonce : Str
  newAccount : Str
  newOrder : Str
deriving DecidableEq, Repr

/-- The crates of `AcmeClient`; `κ` is `SigningKey`. -/
structure SigningCrates (κ : Type) extends AcmeCrates where
  fromSlice : Bytes → Except Str κ
  /-- The coordinates of the public point. -/
  point : κ → Bytes × Bytes
  /-- ES256: what `split_bytes` gives of a signature. -/
  sign : κ → Bytes → Bytes × Bytes
  b64 : Bytes → Str
  /-- `DirectoryUrls`, as serde reads it. -/
  directory : Bytes → Option DirectoryUrls
  /-- `StatusCode`, written out. -/
  status : Nat → Str
  /-- `Url::join`, with a Location header. -/
  join : Str → Bytes → Option Str

/-! ## JWK and JWS -/

section
variable {κ : Type} (crates : SigningCrates κ)

def jwkPublic (key : κ) : Json :=
  let (x, y) := crates.point key
  .ofFields [
    ("kty".toList, .string "EC".toList),
    ("crv".toList, .string "P-256".toList),
    ("x".toList, .string (crates.b64 x)),
    ("y".toList, .string (crates.b64 y))]

/-- The canonical form, hashed. -/
def jwkThumbprint (key : κ) : Str :=
  let jwk := jwkPublic crates key
  let x := (jwk.get "x".toList).asStr.getD []
  let y := (jwk.get "y".toList).asStr.getD []
  crates.digest ("\x7b\"crv\":\"P-256\",\"kty\":\"EC\",\"x\":\"".toList ++ x ++ "\",\"y\":\"".toList ++ y ++
    "\"\x7d".toList)

/-- Raw `R||S`. -/
def signEs256 (key : κ) (data : Bytes) : Bytes :=
  let (r, s) := crates.sign key data
  r ++ s

def jwsHeader (nonce url : Str) (jwk : Option Json) (kid : Option Str) : Json :=
  let header := Json.ofFields [
    ("alg".toList, .string "ES256".toList),
    ("nonce".toList, .string nonce),
    ("url".toList, .string url)]
  match jwk, kid with
  | some jwk, _ => header.set "jwk".toList jwk
  | none, some kid => header.set "kid".toList (.string kid)
  | none, none => header

/-- What a JWS says: header and payload, and the signature of both. -/
structure Jws where
  header : Json
  payload : Bytes
  signature : Bytes

def signingInput (header : Json) (payload : Bytes) : Str :=
  crates.b64 (Text.bytes (crates.display header)) ++ '.' :: crates.b64 payload

def jwsPayload (key : κ) (nonce url : Str) (jwk : Option Json) (kid : Option Str) (payload : Bytes) : Jws :=
  let header := jwsHeader nonce url jwk kid
  { header, payload, signature := signEs256 crates key (Text.bytes (signingInput crates header payload)) }

/-- The JWS as it is sent. -/
def Jws.body (jws : Jws) : Json := .ofFields [
  ("protected".toList, .string (crates.b64 (Text.bytes (crates.display jws.header)))),
  ("payload".toList, .string (crates.b64 jws.payload)),
  ("signature".toList, .string (crates.b64 jws.signature))]

end

/-! ## The line to the CA and to Cloudflare -/

inductive Sent where
  /-- `LE_DIRECTORY`. -/
  | directory
  | head (url : Str)
  | post (url : Str) (headers : HeaderMap) (jws : Jws)
  /-- A call that goes to Cloudflare. -/
  | dns (call : Call)

/-- The CA and Cloudflare, as in `Remote`. -/
structure Outside where
  answer : List Sent → Option Answer
  shows : List Sent → TxtRecord → Bool
  applies : List Sent → Bool

/-- What has been sent, newest first, the client's nonce and the records. -/
structure Line where
  log : List Sent
  nonce : Str
  dns : Dns

abbrev Net (α : Type) := Effect Line Error α

structure AcmeClient (κ : Type) where
  key : κ
  directory : DirectoryUrls
  accountUrl : Option Str
  thumbprint : Str

def contentType : Str := "content-type".toList

def joseJson : Bytes := Text.bytes "application/jose+json".toList

/-- `RequestBuilder::json`: a content type that is set already stays. -/
def jsonHeaders (headers : HeaderMap) : HeaderMap :=
  if (Http.get headers contentType).isSome then headers
  else headers ++ [(contentType, Text.bytes "application/json".toList)]

/-- `redirect::Policy::default`. -/
def maxRedirects : Nat := 10

/-- A POST answered with 307 or 308 is posted again, as it is, to the
Location. What comes of the other redirects is a GET, or a HEAD. -/
def Sent.again (join : Str → Bytes → Option Str) (a : Answer) : Sent → Option Sent
  | .post url headers jws =>
    if a.status = 307 ∨ a.status = 308 then do
      let location ← Http.get a.headers "location".toList
      let url ← join url location
      pure (.post url headers jws)
    else none
  | _ => none

/-- A request with all that reqwest makes of it, and the answer it returns. -/
def Outside.deliver (outside : Outside) (join : Str → Bytes → Option Str) :
    Nat → Sent → List Sent → List Sent × Option Answer
  | redirects, s, log =>
    let log := s :: log
    match outside.answer log with
    | none => (log, none)
    | some a =>
      match s.again join a, redirects with
      | none, _ => (log, some a)
      | some _, 0 => (log, none)
      | some s, redirects + 1 => outside.deliver join redirects s log

section
variable {κ : Type} (outside : Outside) (crates : SigningCrates κ)

/-- `send().await?`. -/
def transmit (s : Sent) : Net Answer := do
  let line ← Effect.read
  let (log, answer) := outside.deliver crates.join maxRedirects s line.log
  Effect.modify fun line => { line with log }
  Effect.orFail .http answer

/-- A nonce, or an error with the text `missing`. -/
def fetchNonce (d : DirectoryUrls) (missing : Str) : Net Unit := do
  let resp ← transmit outside crates (.head d.newNonce)
  let value ← Effect.orFail (.message missing) (Http.get resp.headers replayNonce)
  let nonce ← Effect.orFail .header (Http.toStr value)
  Effect.modify fun line => { line with nonce }

namespace AcmeClient

variable (client : AcmeClient κ)

def getNonce : Net Unit := fetchNonce outside crates client.directory "missing Replay-Nonce".toList

def postJws (url : Str) (payload : Bytes) (useJwk : Bool) : Net Answer := do
  client.getNonce outside crates
  let jwk := if useJwk then some (jwkPublic crates client.key) else none
  let line ← Effect.read
  let body := jwsPayload crates client.key line.nonce url jwk client.accountUrl payload
  let resp ← transmit outside crates (.post url (jsonHeaders [(contentType, joseJson)]) body)
  Effect.modify fun line => { line with nonce := (Http.getStr resp.headers replayNonce).getD line.nonce }
  pure resp

def createAccount (email : Str) : Net Str := do
  let payload := Json.ofFields [
    ("termsOfServiceAgreed".toList, .bool true),
    ("contact".toList, .array [.string ("mailto:".toList ++ email)])]
  let resp ← client.postJws outside crates client.directory.newAccount (Text.bytes (crates.display payload)) true
  let value ← Effect.orFail (.message "missing Location header".toList) (Http.get resp.headers "location".toList)
  let location ← Effect.orFail .header (Http.toStr value)
  if resp.status = 200 ∨ resp.status = 201 then pure location
  else
    Effect.fail (.message ("account creation failed (".toList ++ crates.status resp.status ++ "): ".toList ++
      (text crates.toAcmeCrates resp).getD []))

end AcmeClient

/-- The value, or an error with the one there is. -/
def orMessage {α : Type} (before : Str) : Except Str α → Net α
  | .ok a => pure a
  | .error e => Effect.fail (.message (before ++ e))

/-- `AcmeClient::new`; `draw` is what `getrandom` fills in. -/
def AcmeClient.new (draw : Except Str Bytes) (email : Str) : Net (AcmeClient κ) := do
  let keyBytes ← orMessage "RNG error: ".toList draw
  let key ← orMessage "key error: ".toList (crates.fromSlice keyBytes)
  let resp ← transmit outside crates .directory
  let dir ← Effect.orFail .http (if resp.body.fails then none else crates.directory resp.body.data)
  fetchNonce outside crates dir "missing Replay-Nonce header".toList
  let client : AcmeClient κ := { key, directory := dir, accountUrl := none, thumbprint := jwkThumbprint crates key }
  let accountUrl ← client.createAccount outside crates email
  pure { client with accountUrl := some accountUrl }

/-! ## `issue_cert` on the line -/

def Ask.url (d : DirectoryUrls) : Ask → Str
  | newOrder _ => d.newOrder
  | authorization url | challenge url | order url | certificate url | finalize url _ => url

/-- The payload as it is posted. -/
def Ask.bytes : Ask → Bytes
  | challenge _ => Text.bytes "\x7b\x7d".toList
  | ask => (ask.payload.map fun v => Text.bytes (crates.display v)).getD []

namespace AcmeClient

variable (client : AcmeClient κ)

/-- What a call of the client's sends. -/
def sent : Call → Sent
  | .newNonce => .head client.directory.newNonce
  | .signed nonce ask =>
    .post (ask.url client.directory) (jsonHeaders [(contentType, joseJson)])
      (jwsPayload crates client.key nonce (ask.url client.directory) none client.accountUrl (ask.bytes crates))
  | call => .dns call

/-- All that its calls have sent. -/
def sentAll (calls : List Call) (before : List Sent) : List Sent :=
  calls.foldr (fun call log => (outside.deliver crates.join maxRedirects (client.sent crates call) log).1) before

/-- What the client talks to, after what has been sent before. -/
def remote (before : List Sent) : Remote where
  answer
    | [] => none
    | call :: calls =>
      let log := client.sentAll outside crates calls before
      (outside.deliver crates.join maxRedirects (client.sent crates call) log).2
  shows calls := outside.shows (client.sentAll outside crates calls before)
  applies calls := outside.applies (client.sentAll outside crates calls before)

/-- A program of the client's, from where the line is. -/
def during {α : Type} (x : Remote → Client α) : Net α := fun line =>
  let (result, w) := x (client.remote outside crates line.log) { log := [], nonce := line.nonce, dns := line.dns }
  (result, { log := client.sentAll outside crates w.log line.log, nonce := w.nonce, dns := w.dns })

def issueCert (iter : Iteration) (primary : Str) (more : List Str) : Net (Str × Str) :=
  client.during outside crates fun remote =>
    Acme.issueCert remote crates.toAcmeCrates client.thumbprint iter primary more

end AcmeClient

/-! ## Processes of certd -/

/-- An order of `run_acme_loop`. -/
structure Order where
  iter : Iteration
  primary : Str
  more : List Str

/-- A process: the key it draws, and the orders it comes to. -/
structure Process where
  draw : Except Str Bytes
  email : Str
  orders : List Order

/-- An error is logged. -/
def attempt {α : Type} (x : Net α) : Net Unit := fun line => (.ok (), (x line).2)

/-- `run_acme_loop`, as far as the CA sees it. -/
def Process.run (p : Process) : Net Unit := do
  let client ← AcmeClient.new outside crates p.draw p.email
  p.orders.forM fun o => attempt (client.issueCert outside crates o.iter o.primary o.more)

/-- One process after the other. -/
def serve (processes : List Process) : Net Unit := processes.forM fun p => attempt (p.run outside crates)

end

end NekoGuard.Acme
