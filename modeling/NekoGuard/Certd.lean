/-
certd: the domains it serves, and `run_acme_loop`, which issues a
certificate for each of them and keeps it in Redis. The loop is cut where
it waits or may fail; what the CA, Redis and the clock answer comes with
the event. A read of Redis and what the loop decides on it are one step.
-/
import Mathlib.Data.List.AList
import NekoGuard.Config
import NekoGuard.Lib.Machine

namespace NekoGuard

open Lib

structure CertData where
  certPem : Str
  keyPem : Str
  issuedAt : Nat
  expiresAt : Nat
deriving DecidableEq, Repr

/-- `serde_json` at `CertData`. -/
structure CertJson where
  toVec : CertData → Bytes
  fromSlice : Bytes → Option CertData

/-- What is written is read back. -/
structure CertJson.Lawful (js : CertJson) : Prop where
  fromSlice_toVec : ∀ c, js.fromSlice (js.toVec c) = some c

/-- The keys and values of Redis. -/
abbrev Redis := AList fun _ : Str => Bytes

/-- `CERT_PREFIX`. -/
def certPrefix : Str := "nekoguard:cert:".toList

def certKey (domain : Str) : Str := certPrefix ++ domain

namespace Certd

open Config

/-! ## Domains -/

def isWildcard (d : Str) : Bool := Text.startsWith d "*.".toList

def wildcardOf (d : Str) : Str := "*.".toList ++ d

/-- The list `main` builds: a wildcard follows each site that has subs. -/
def domainList (raw : ConfigToml) : List Str :=
  raw.sites.flatMap fun s => s.domain :: if s.sub.isEmpty then [] else [wildcardOf s.domain]

/-- The names one order asks for. -/
def certDomains (domains : List Str) (d : Str) : List Str :=
  d :: if domains.contains (wildcardOf d) then [wildcardOf d] else []

def baseDomains (domains : List Str) : List Str := domains.filter fun d => !isWildcard d

/-! ## Redis -/

variable (js : CertJson)

/-- An empty reply, which is what a missing key gives, is no JSON. -/
def loadCert (redis : Redis) (d : Str) : Option CertData := (redis.lookup (certKey d)).bind js.fromSlice

def storeCert (redis : Redis) (d : Str) (c : CertData) : Redis := redis.insert (certKey d) (js.toVec c)

/-! ## `run_acme_loop` -/

/-- The two loops over the domains. -/
inductive Pass where
  | initial
  | renewal
deriving DecidableEq, Repr

/-- What the loop waits for, with the domains that are left. -/
inductive Task where
  /-- `AcmeClient::new`. -/
  | starting
  | issuing (d : Str) (todo : List Str)
  /-- The connection to store a first certificate over. -/
  | connecting (d : Str) (c : CertData) (todo : List Str)
  | storing (pass : Pass) (d : Str) (c : CertData) (todo : List Str)
  | publishing (pass : Pass) (d : Str) (todo : List Str)
  | sleeping
  /-- The connection of a renewal pass. -/
  | opening
  | checking (d : Str) (todo : List Str)
  /-- An order that was decided at `now`. -/
  | renewing (now : Nat) (d : Str) (todo : List Str)
  /-- `run_acme_loop` has returned an error. -/
  | returned
deriving DecidableEq, Repr

/-- One domain's turn in a renewal pass: what Redis held for it and what
the clock said, and whether `issue_cert` was called. -/
structure Visit where
  domain : Str
  held : Option CertData
  clock : Int
  attempted : Bool
deriving DecidableEq, Repr

structure State where
  domains : List Str
  redis : Redis
  /-- Seconds since the epoch; negative before it. -/
  clock : Int
  task : Task
  /-- The turns of the pass under way, newest first. -/
  visits : List Visit
  /-- The passes that ran to their end. -/
  passes : List (List Visit)

inductive Event where
  /-- The clock is what it is. -/
  | clock (t : Int)
  /-- Someone else writes to Redis. -/
  | foreign (redis : Redis)
  | client (ok : Bool)
  | issue (pems : Option (Str × Str))
  | connect (ok : Bool)
  | set (ok : Bool)
  | publish (ok : Bool)
  | wake
  | get (ok : Bool)

def certLifetime : Nat := 80 * 86400

def renewBefore : Nat := 30 * 86400

def CertData.make (pems : Str × Str) (now : Nat) : CertData where
  certPem := pems.1
  keyPem := pems.2
  issuedAt := now
  expiresAt := now + certLifetime

/-- `SystemTime::now().duration_since(UNIX_EPOCH)`. -/
def State.now (s : State) : Option Nat := if 0 ≤ s.clock then some s.clock.toNat else none

/-- On to the next domain of the pass, or to sleep. -/
def State.next (s : State) : Pass → List Str → State
  | .initial, d :: todo => { s with task := .issuing d todo }
  | .initial, [] => { s with task := .sleeping }
  | .renewal, d :: todo => { s with task := .checking d todo }
  | .renewal, [] => { s with task := .sleeping, visits := [], passes := s.visits :: s.passes }

/-- `cert.expires_at > 0 && cert.expires_at < now + 30 * 86400`. -/
def needsRenewal (c : CertData) (now : Nat) : Bool := 0 < c.expiresAt && c.expiresAt < now + renewBefore

/-- A domain has its turn. -/
def State.turn (s : State) (d : Str) (attempted : Bool) : State :=
  { s with visits := ⟨d, loadCert js s.redis d, s.clock, attempted⟩ :: s.visits }

/-- One domain's turn in a renewal pass; `ok` tells that GET succeeds. -/
def State.visit (s : State) (d : Str) (todo : List Str) (ok : Bool) : State :=
  match if ok then loadCert js s.redis d else none with
  | none => (s.turn js d false).next .renewal todo
  | some c =>
    match s.now with
    | none => { s with task := .returned }
    | some now =>
      if needsRenewal c now then { s.turn js d true with task := .renewing now d todo }
      else (s.turn js d false).next .renewal todo

def step : Machine State Event := fun s ev =>
  match s.task, ev with
  | _, .clock t => some { s with clock := t }
  | _, .foreign redis => some { s with redis }
  | .starting, .client ok =>
    some (if ok then s.next .initial (baseDomains s.domains) else { s with task := .returned })
  | .issuing d todo, .issue (some pems) =>
    match s.now with
    | some now => some { s with task := .connecting d (CertData.make pems now) todo }
    | none => some { s with task := .returned }
  | .issuing _ todo, .issue none => some (s.next .initial todo)
  | .connecting d c todo, .connect ok =>
    some { s with task := if ok then .storing .initial d c todo else .returned }
  -- A failed SET is followed by its PUBLISH all the same.
  | .storing pass d c todo, .set ok =>
    let redis := if ok then storeCert js s.redis d c else s.redis
    some { s with redis, task := .publishing pass d todo }
  | .publishing pass _ todo, .publish _ => some (s.next pass todo)
  | .sleeping, .wake => some { s with task := .opening }
  -- A renewal pass goes over every domain of the list, wildcards too.
  | .opening, .connect ok =>
    some (if ok then s.next .renewal s.domains else { s with task := .returned })
  | .checking d todo, .get ok => some (s.visit js d todo ok)
  | .renewing now d todo, .issue (some pems) =>
    some { s with task := .storing .renewal d (CertData.make pems now) todo }
  | .renewing _ _ todo, .issue none => some (s.next .renewal todo)
  | _, _ => none

/-- certd has started over this Redis. -/
def start (domains : List Str) (redis : Redis) (clock : Int) : State :=
  { domains, redis, clock, task := .starting, visits := [], passes := [] }

end Certd

end NekoGuard
