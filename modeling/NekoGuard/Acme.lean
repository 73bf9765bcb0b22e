/-
acme.rs: one certificate order. `issue_cert` collects the challenges, sets
their TXT records at Cloudflare, answers them, polls the order, finalizes
it and polls for the certificate. What the CA and Cloudflare answer may
depend on everything they have been asked, the last call included; all
calls are kept, newest first.
-/
import Mathlib.Data.List.AList
import NekoGuard.Lib.Effect
import NekoGuard.Std.Http
import NekoGuard.Std.Json

namespace NekoGuard.Acme

open Lib

/-! ## Calls and answers -/

/-- What `issue_cert` posts to the CA, at which of its URLs. -/
inductive Ask where
  | newOrder (domains : List Str)
  | authorization (url : Str)
  | challenge (url : Str)
  | order (url : Str)
  | finalize (url csr : Str)
  | certificate (url : Str)

/-- The payload of a request; nothing for `post_as_get`. -/
def Ask.payload : Ask → Option Json
  | newOrder domains =>
    some (.object [("identifiers".toList, .array (domains.map fun d =>
      .object [("type".toList, .string "dns".toList), ("value".toList, .string d)]))])
  | challenge _ => some (.object [])
  | finalize _ csr => some (.object [("csr".toList, .string csr)])
  | authorization _ | order _ | certificate _ => none

inductive Call where
  | newNonce
  /-- A request signed over its nonce. -/
  | signed (nonce : Str) (ask : Ask)
  | zones (name : Str)
  | listRecords (zone name : Str)
  | deleteRecord (zone : Str) (id : Nat)
  | createRecord (zone name content : Str)

structure Answer where
  status : Nat
  headers : HeaderMap
  body : Http.Incoming

inductive Error where
  /-- `reqwest`: no answer, or a body that fails or is no JSON. -/
  | http
  /-- A header that is no text. -/
  | header
  | csr
  | message (text : Str)
deriving DecidableEq, Repr

/-! ## Records -/

structure TxtRecord where
  id : Nat
  zone : Str
  name : Str
  content : Str
deriving DecidableEq, Repr

/-- The TXT records at Cloudflare. No two have one id, and no id comes back. -/
structure Dns where
  records : List TxtRecord
  next : Nat
  below : ∀ r ∈ records, r.id < next
  distinct : (records.map (·.id)).Nodup

namespace Dns

variable (dns : Dns)

def create (zone name content : Str) : Dns where
  records := ⟨dns.next, zone, name, content⟩ :: dns.records
  next := dns.next + 1
  below := by
    intro r hr
    rcases List.mem_cons.mp hr with rfl | hr
    · exact Nat.lt_succ_self _
    · exact Nat.lt_succ_of_lt (dns.below r hr)
  distinct := by
    refine List.nodup_cons.mpr ⟨fun hmem => ?_, dns.distinct⟩
    obtain ⟨r, hr, hid⟩ := List.mem_map.mp hmem
    exact absurd (dns.below r hr) (hid ▸ Nat.lt_irrefl _)

def delete (zone : Str) (id : Nat) : Dns where
  records := dns.records.filter fun r => !(r.zone == zone && r.id == id)
  next := dns.next
  below r hr := dns.below r (List.mem_of_mem_filter hr)
  distinct := dns.distinct.sublist (List.filter_sublist.map _)

/-- The records of a zone under a name. -/
def list (zone name : Str) : List TxtRecord := dns.records.filter fun r => r.zone == zone && r.name == name

end Dns

/-! ## What a run depends on -/

/-- The CA and Cloudflare. -/
structure Remote where
  /-- The answer to the newest call, if there is one. -/
  answer : List Call → Option Answer
  /-- The records a listing shows: one that fails shows none. -/
  shows : List Call → TxtRecord → Bool
  /-- Whether a call is carried out although its answer does not say so. -/
  applies : List Call → Bool

structure AcmeCrates where
  /-- `serde_json`. -/
  parse : Bytes → Option Json
  display : Json → Str
  /-- `Response::text`, in the charset its headers name. -/
  text : HeaderMap → Bytes → Str
  /-- `b64(&Sha256::digest(..))`. -/
  digest : Str → Str
  /-- `rcgen`: a CSR for the names, in base64, and its key. -/
  csr : List Str → Option (Str × Str)

abbrev TxtPerDns := AList fun _ : Str => List Str

/-- The order in which a `HashMap` is iterated. -/
structure Iteration where
  entries : TxtPerDns → List (Sigma fun _ : Str => List Str)
  perm : ∀ m, (entries m).Perm m.entries

/-- An `AcmeClient` and the world around it: all calls made, newest first,
the client's nonce and the records there are. -/
structure World where
  log : List Call
  nonce : Str
  dns : Dns

/-- What the client does and may fail at. -/
abbrev Client (α : Type) := Effect World Error α

def World.call (w : World) (c : Call) : World := { w with log := c :: w.log }

section
variable (remote : Remote) (crates : AcmeCrates)

/-- `send().await?`. -/
def send (c : Call) : Client Answer := do
  Effect.modify fun w => w.call c
  let w ← Effect.read
  Effect.orFail .http (remote.answer w.log)

theorem send_eq_ok {c : Call} {w w' : World} {a : Answer} :
    send remote c w = (.ok a, w') ↔ remote.answer (c :: w.log) = some a ∧ w.call c = w' :=
  Effect.orFail_eq_ok

theorem send_of_none {c : Call} {w : World} (h : remote.answer (c :: w.log) = none) :
    send remote c w = (.error .http, w.call c) := by
  show Effect.orFail Error.http (remote.answer (c :: w.log)) (w.call c) = _
  rw [h]
  rfl

theorem send_world (c : Call) (w : World) : (send remote c w).2 = w.call c := Effect.orFail_world _

/-- `.json().await?`. -/
def json (a : Answer) : Option Json := if a.body.fails then none else crates.parse a.body.data

/-- `.text().await?`. -/
def text (a : Answer) : Option Str := if a.body.fails then none else some (crates.text a.headers a.body.data)

/-! ## The client -/

def replayNonce : Str := "replay-nonce".toList

def getNonce : Client Unit := do
  let resp ← send remote .newNonce
  let value ← Effect.orFail (.message "missing Replay-Nonce".toList) (Http.get resp.headers replayNonce)
  let nonce ← Effect.orFail .header (Http.toStr value)
  Effect.modify fun w => { w with nonce }

/-- `post_jws` and `post_as_get`, by an account that exists. -/
def postJws (ask : Ask) : Client Answer := do
  getNonce remote
  let w ← Effect.read
  let resp ← send remote (.signed w.nonce ask)
  Effect.modify fun w => { w with nonce := (Http.getStr resp.headers replayNonce).getD w.nonce }
  pure resp

/-! ## Challenges -/

structure ChallengeInfo where
  dnsName : Str
  txtValue : Str
  challengeUrl : Str
  authDomain : Str
deriving DecidableEq, Repr

/-- The challenges and their TXT values by name: every challenge's value is
among those of its name. -/
structure Collected where
  challenges : List ChallengeInfo
  txtPerDns : TxtPerDns
  grouped : ∀ ch ∈ challenges, ∃ values, txtPerDns.lookup ch.dnsName = some values ∧ ch.txtValue ∈ values

def Collected.empty : Collected where
  challenges := []
  txtPerDns := ∅
  grouped := nofun

/-- `entry(..).or_default().push(..)` and `challenges.push(..)`. -/
def Collected.push (c : Collected) (info : ChallengeInfo) : Collected where
  challenges := c.challenges ++ [info]
  txtPerDns := c.txtPerDns.insert info.dnsName ((c.txtPerDns.lookup info.dnsName).getD [] ++ [info.txtValue])
  grouped := by
    intro ch hch
    by_cases hname : ch.dnsName = info.dnsName
    · rw [hname, AList.lookup_insert]
      refine ⟨_, rfl, ?_⟩
      rcases List.mem_append.mp hch with hold | hnew
      · obtain ⟨values, hvalues, hmem⟩ := c.grouped ch hold
        rw [← hname, hvalues]
        exact List.mem_append_left _ hmem
      · rw [List.mem_singleton.mp hnew]
        exact List.mem_append_right _ (List.mem_singleton_self _)
    · rw [AList.lookup_insert_ne hname]
      rcases List.mem_append.mp hch with hold | hnew
      · exact c.grouped ch hold
      · exact absurd (congrArg ChallengeInfo.dnsName (List.mem_singleton.mp hnew)) hname

/-- `key_auth`. -/
def keyAuth (thumbprint token : Str) : Str := token ++ '.' :: thumbprint

/-- An authorization's DNS challenge. -/
def challengeInfo (thumbprint : Str) (auth : Json) : Client ChallengeInfo := do
  let authDomain := ((auth.get "identifier".toList).get "value".toList).asStr.getD "unknown".toList
  let challenges ← Effect.orFail (.message "no challenges".toList) (auth.get "challenges".toList).asArray
  let ch ← Effect.orFail (.message "no dns-01 challenge".toList)
    (challenges.find? fun c => (c.get "type".toList).asStr == some "dns-01".toList)
  let token ← Effect.orFail (.message "no token".toList) (ch.get "token".toList).asStr
  let challengeUrl ← Effect.orFail (.message "no challenge url".toList) (ch.get "url".toList).asStr
  pure {
    dnsName := (Text.stripPrefix authDomain "*.".toList).getD authDomain
    txtValue := crates.digest (keyAuth thumbprint token)
    challengeUrl
    authDomain }

variable (thumbprint : Str)

/-- One turn of the first pass. -/
def collectOne (c : Collected) (url : Str) : Client Collected := do
  let resp ← postJws remote (.authorization url)
  let auth ← Effect.orFail .http (json crates resp)
  let info ← challengeInfo crates thumbprint auth
  pure (c.push info)

/-- First pass: all authorizations. -/
def collect (urls : List Str) : Client Collected := urls.foldlM (collectOne remote crates thumbprint) Collected.empty

/-! ## Cloudflare -/

/-- The last two labels of a domain. -/
def rootOf (domain : Str) : Str :=
  match (domain.splitOn '.').reverse with
  | last :: second :: _ => second ++ '.' :: last
  | _ => domain

def resolveZoneId (domain : Str) : Client Str := do
  let resp ← send remote (.zones (rootOf domain))
  let data ← Effect.orFail .http (json crates resp)
  let zones ← Effect.orFail (.message "no zones found".toList) (data.get "result".toList).asArray
  Effect.orFail (.message "zone ID not found".toList) (zones.head?.bind fun z => (z.get "id".toList).asStr)

theorem resolveZoneId_steps {R : World → World → Prop} [Std.Refl R] [IsTrans World R] {domain : Str}
    (h : Effect.Steps R (send remote (.zones (rootOf domain)))) :
    Effect.Steps R (resolveZoneId remote crates domain) := by
  refine h.bind fun resp => ?_
  refine (Effect.Steps.orFail _ _).bind fun data => ?_
  exact (Effect.Steps.orFail _ _).bind fun zones => Effect.Steps.orFail _ _

/-- Where the values for a domain go. -/
def challengeName (domain : Str) : Str := "_acme-challenge.".toList ++ domain

/-- The ids the listing shows. -/
def listRecords (zone name : Str) : Client (List Nat) := do
  Effect.modify fun w => w.call (.listRecords zone name)
  let w ← Effect.read
  pure (((w.dns.list zone name).filter (remote.shows w.log)).map (·.id))

/-- The record is deleted, or it is not. -/
def World.deleted (w : World) (zone : Str) (id : Nat) : World :=
  let w := w.call (.deleteRecord zone id)
  if remote.applies w.log then { w with dns := w.dns.delete zone id } else w

theorem World.deleted_log (w : World) (zone : Str) (id : Nat) :
    (w.deleted remote zone id).log = .deleteRecord zone id :: w.log := by
  unfold World.deleted
  dsimp only
  split <;> rfl

/-- Whatever comes of it. -/
def deleteRecord (zone : Str) (id : Nat) : Client Unit := Effect.modify fun w => w.deleted remote zone id

/-- Delete existing TXT records for this name. -/
def deleteExisting (zone name : Str) : Client Unit := do
  let ids ← listRecords remote zone name
  ids.forM (deleteRecord remote zone)

/-- `status().is_success()`. -/
def isSuccess (status : Nat) : Bool := 200 ≤ status && status < 300

/-- A record that Cloudflare says it has created is there; another may be. -/
def World.created (w : World) (zone name content : Str) : World :=
  let w := w.call (.createRecord zone name content)
  if ((remote.answer w.log).any fun a => isSuccess a.status) || remote.applies w.log then
    { w with dns := w.dns.create zone name content }
  else w

theorem World.created_log (w : World) (zone name content : Str) :
    (w.created remote zone name content).log = .createRecord zone name content :: w.log := by
  unfold World.created
  dsimp only
  split <;> rfl

def createRecord (zone name content : Str) : Client Unit := do
  Effect.modify fun w => w.created remote zone name content
  let w ← Effect.read
  let resp ← Effect.orFail .http (remote.answer w.log)
  if isSuccess resp.status then pure ()
  else Effect.fail (.message ("Cloudflare DNS error: ".toList ++ (text crates resp).getD []))

theorem createRecord_steps {R : World → World → Prop} [Std.Refl R] [IsTrans World R] {zone name content : Str}
    (h : ∀ w : World, R w (w.created remote zone name content)) :
    Effect.Steps R (createRecord remote crates zone name content) := by
  refine Effect.Steps.bind h fun _ => Effect.Steps.read.bind fun w => ?_
  refine (Effect.Steps.orFail _ _).bind fun resp => ?_
  split
  · exact Effect.Steps.pure ()
  · exact Effect.Steps.fail _

def setCloudflareTxt (domain : Str) (values : List Str) : Client Unit := do
  let zone ← resolveZoneId remote crates domain
  let name := challengeName domain
  deleteExisting remote zone name
  values.forM (createRecord remote crates zone name)

/-- Set ALL TXT records at once. -/
def setAll (entries : List (Sigma fun _ : Str => List Str)) : Client Unit :=
  entries.forM fun e => setCloudflareTxt remote crates e.1 e.2

/-! ## `issue_cert` -/

/-- Where the order is polled and finalized. -/
structure Placed where
  orderUrl : Str
  finalizeUrl : Str

/-- Second pass: the challenge is ready to be looked at. -/
def respond (ch : ChallengeInfo) : Client Unit := do
  let _ ← postJws remote (.challenge ch.challengeUrl)
  pure ()

/-- Up to the answers to the challenges. -/
def prepare (iter : Iteration) (domains : List Str) : Client Placed := do
  let resp ← postJws remote (.newOrder domains)
  let orderUrl := (Http.getStr resp.headers "location".toList).getD []
  let order ← Effect.orFail .http (json crates resp)
  let finalizeUrl ← Effect.orFail (.message "no finalize URL".toList) (order.get "finalize".toList).asStr
  let auths ← Effect.orFail (.message "no authorizations".toList) (order.get "authorizations".toList).asArray
  let c ← collect remote crates thumbprint (auths.filterMap Json.asStr)
  setAll remote crates (iter.entries c.txtPerDns)
  c.challenges.forM (respond remote)
  pure { orderUrl, finalizeUrl }

/-- The status a poll of the order reports. -/
def stateOf (status : Json) : Str := (status.get "status".toList).asStr.getD []

def isReady (state : Str) : Bool := state == "ready".toList || state == "valid".toList

def isInvalid (state : Str) : Bool := state == "invalid".toList

/-- The `for` loop over the order's status. It ends when the order is ready
and when the attempts are over. -/
def pollOrder (url : Str) : Nat → Client Unit
  | 0 => pure ()
  | attempts + 1 => do
    let resp ← postJws remote (.order url)
    let status ← Effect.orFail .http (json crates resp)
    if isReady (stateOf status) then pure ()
    else if isInvalid (stateOf status) then
      Effect.fail (.message ("order invalid: ".toList ++ crates.display status))
    else pollOrder url attempts

/-- The `for` loop over the certificate. -/
def pollCertificate (url keyPem : Str) : Nat → Client (Str × Str)
  | 0 => Effect.fail (.message "certificate not ready after 150s".toList)
  | attempts + 1 => do
    let resp ← postJws remote (.certificate url)
    if resp.status = 200 then
      let certPem ← Effect.orFail .http (text crates resp)
      pure (certPem, keyPem)
    else pollCertificate url keyPem attempts

/-- Both loops make thirty attempts. -/
def attempts : Nat := 30

/-- From the answer to the finalize request on. -/
def download (keyPem : Str) (resp : Answer) : Client (Str × Str) := do
  let body ← Effect.orFail .http (text crates resp)
  let data ← Effect.orFail (.message ("invalid JSON: ".toList ++ body)) (crates.parse (Text.bytes body))
  let url ← Effect.orFail (.message ("no certificate URL: ".toList ++ body)) (data.get "certificate".toList).asStr
  pollCertificate remote crates url keyPem attempts

/-- From the first poll on. -/
def finish (domains : List Str) (p : Placed) : Client (Str × Str) := do
  pollOrder remote crates p.orderUrl attempts
  let (csr, keyPem) ← Effect.orFail .csr (crates.csr domains)
  let resp ← postJws remote (.finalize p.finalizeUrl csr)
  download remote crates keyPem resp

/-- For `&domains[0]` and the names after it. -/
def issueCert (iter : Iteration) (primary : Str) (more : List Str) : Client (Str × Str) := do
  let p ← prepare remote crates thumbprint iter (primary :: more)
  finish remote crates (primary :: more) p

end

end NekoGuard.Acme
