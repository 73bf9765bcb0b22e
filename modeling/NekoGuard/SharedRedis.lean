/-
Everything that shares one Redis: the replicas' `get_or_create_secret`,
`allow` behind each replica's `redis_conn`, the `load` tasks of every replica,
and certd with one proxy that loads its certificates. Each of them sends its
commands to one keyspace, in any order; what the crates and the origin answer
comes with the event.
-/
import NekoGuard.CertSync
import NekoGuard.Lib.Pick
import NekoGuard.Load
import NekoGuard.RateLimit
import NekoGuard.Secret
import NekoGuard.Std.Keyspace
import NekoGuard.Std.Utf8Facts

namespace NekoGuard.SharedRedis

open Lib Lib.Pick Config

/-! ## Keys -/

/-- `SECRET_KEY`. -/
def sealKey : Str := "nekoguard:secret".toList

/-- `KEY_PREFIX`. -/
def keyPrefix : Str := "nekoguard:rl:".toList

def limitKey (ip : IpAddr) : Str := keyPrefix ++ ip.display

def embedPrefix : Str := "nekoguard:embed:".toList

/-! ## The sealing key -/

def secretAct (now : Nat) (ks : Keyspace) : Secret.Task → Secret.Step → Option (Keyspace × Secret.Task)
  | .idle, .get =>
    match Keyspace.get now ks sealKey with
    | .ok (some secret) => if !secret.isEmpty then some (ks, .done (Secret.keyOf secret)) else some (ks, .missed)
    | _ => some (ks, .missed)
  | .idle, .getFails => some (ks, .missed)
  | .missed, .setNx secret => some (Keyspace.setNx now ks sealKey secret.toList, .offered)
  | .offered, .reread =>
    match Keyspace.get now ks sealKey with
    | .ok v => some (ks, .done (Secret.keyOf (v.getD [])))
    -- `expect("redis GET secret")` panics.
    | .error _ => none
  | _, _ => none

/-! ## Buckets -/

/-- The reply to a field as a `u64`. -/
def parseNumber (b : Bytes) : Option Nat :=
  (Utf8.fromUtf8 b).bind fun s =>
    let digits := if Text.startsWith s ['+'] then s.drop 1 else s
    if digits ≠ [] ∧ digits.all (IpAddr.isRadixDigit 10) then some (IpAddr.value 10 digits) else none

def fieldNames : List Str := ["tokens".toList, "last_refill_ms".toList]

/-- The arguments of the HMSET. -/
def fieldsOf (b : RateLimit.Bucket) : List (Str × Bytes) :=
  [("tokens".toList, Text.bytes (Text.decimal b.tokens)),
   ("last_refill_ms".toList, Text.bytes (Text.decimal b.lastRefillMs))]

/-- The reply to the HMGET as `(u64, u64)`; anything else is no bucket. -/
def readBucket : Except WrongType (List (Option Bytes)) → Option RateLimit.Bucket
  | .ok [some tokens, some lastRefillMs] => do
    return { tokens := ← parseNumber tokens, lastRefillMs := ← parseNumber lastRefillMs }
  | _ => none

/-- The call a replica is in the middle of, under the lock of `redis_conn`. -/
inductive Limiter where
  | idle
  | clocked (ip : IpAddr) (nowMs : Nat)
  | fetched (ip : IpAddr) (nowMs : Nat) (bucket : Option RateLimit.Bucket)
  /-- The bucket is written, and has no expiry yet. -/
  | written (ip : IpAddr)
deriving DecidableEq, Repr

inductive LimitStep where
  | call (ip : IpAddr)
  | hmget
  | hmset
  | expire
deriving DecidableEq, Repr

/-- Milliseconds of a moment. -/
def ms (now : Nat) : Nat := now / 10 ^ 6

/-- `EXPIRE .. 3600`. -/
def bucketTtl : Nat := 3600 * 10 ^ 9

/-- The keyspace and the call a step leaves, and the answer of a call it ends. -/
structure Limited where
  redis : Keyspace
  limiter : Limiter
  done : Option (IpAddr × RateLimit.Call)

variable (cfg : RateLimitConfig)

def limitAct (now : Nat) (ks : Keyspace) : Limiter → LimitStep → Option Limited
  | .idle, .call ip =>
    if !cfg.enabled || cfg.rps == 0 then some { redis := ks, limiter := .idle, done := some (ip, ⟨ms now, true⟩) }
    else some { redis := ks, limiter := .clocked ip (ms now), done := none }
  | .clocked ip nowMs, .hmget =>
    let bucket := readBucket (Keyspace.hmget now ks (limitKey ip) fieldNames)
    some { redis := ks, limiter := .fetched ip nowMs bucket, done := none }
  | .fetched ip nowMs bucket, .hmset =>
    let (allowed, b) := RateLimit.verdict cfg bucket nowMs
    let redis := (Keyspace.hmset now ks (limitKey ip) (fieldsOf b)).toOption.getD ks
    some { redis, limiter := .written ip, done := some (ip, ⟨nowMs, allowed⟩) }
  | .written ip, .expire =>
    some { redis := Keyspace.expireAt now ks (limitKey ip) (now + bucketTtl), limiter := .idle, done := none }
  | _, _ => none

/-- The calls of each address, newest first. -/
def note (done : Option (IpAddr × RateLimit.Call)) (calls : IpAddr → List RateLimit.Call) :
    IpAddr → List RateLimit.Call :=
  match done with
  | some (ip, c) => Function.update calls ip (c :: calls ip)
  | none => calls

/-! ## Metadata -/

section Embed

variable (sha256 : Pow.Sha256) (mc : Embed.MetaCrate)

/-- What GET finds under the keys of embed.rs, as `load` reads it. -/
def entriesOf (ks : Keyspace) (key : Str) : Option Embed.Entry :=
  if Text.startsWith key embedPrefix then
    match ks.lookup key with
    | some ⟨.string b, some t⟩ => (Utf8.fromUtf8 b).map fun payload => { payload, written := t - Embed.cacheTtl }
    | _ => none
  else none

/-- The call and the copy of a SET that Redis answers. -/
def setting : Embed.Task → Embed.Step → Option (Embed.Call × Embed.Meta)
  | .writing c copy, .set true => some (c, copy)
  | _, _ => none

def embedWrite (now : Nat) (ks : Keyspace) (t : Embed.Task) (e : Embed.Step) : Keyspace :=
  match setting t e with
  | some (c, copy) =>
    match mc.toString (Embed.CachedMeta.ofMeta copy) with
    | some payload => Keyspace.set ks (c.key sha256) (Text.bytes payload) (some (now + Embed.cacheTtl))
    | none => ks
  | none => ks

end Embed

/-! ## Certificates -/

section Certs

variable (js : CertJson) {pki : Tls.PkiCrates}

/-- certd and a proxy, but for Redis. -/
structure Certs (pki : Tls.PkiCrates) where
  domains : List Str
  clock : Int
  task : Certd.Task
  visits : List Certd.Visit
  passes : List (List Certd.Visit)
  proxy : CertSync.Proxy pki
  since : Str → List CertData

def Certs.on (c : Certs pki) (redis : Redis) : CertSync.Joint pki where
  certd := { domains := c.domains, redis, clock := c.clock, task := c.task, visits := c.visits, passes := c.passes }
  proxy := c.proxy
  since := c.since

def Certs.of (s : CertSync.Joint pki) : Certs pki where
  domains := s.certd.domains
  clock := s.certd.clock
  task := s.certd.task
  visits := s.certd.visits
  passes := s.certd.passes
  proxy := s.proxy
  since := s.since

def stringOf (now : Nat) (h : Held) : Option Bytes :=
  match h.value with
  | .string b => if h.isLive now then some b else none
  | .hash _ => none

/-- What GET answers, under every key. -/
def stringsOf (now : Nat) (ks : Keyspace) : Redis := pick (fun _ h => stringOf now h) ks

/-- The SET of a certificate. -/
def certWrite (ks : Keyspace) : Certd.Task → CertSync.Event → Keyspace
  | .storing _ d c _, .certd (.set true) => Keyspace.set ks (certKey d) (js.toVec c) none
  | _, _ => ks

end Certs

/-! ## One keyspace -/

structure World (ι θ : Type) (pki : Tls.PkiCrates) where
  /-- Nanoseconds, the same for everyone. -/
  clock : Nat
  redis : Keyspace
  secret : ι → Secret.Task
  limiter : ι → Limiter
  calls : IpAddr → List RateLimit.Call
  embed : ι × θ → Embed.Task
  replica : ι → Embed.Replica θ
  served : List (Embed.Served (ι × θ))
  certs : Certs pki

inductive Event (ι θ : Type) where
  | tick (d : Nat)
  | secret (i : ι) (e : Secret.Step)
  | limit (i : ι) (e : LimitStep)
  | embed (p : ι × θ) (e : Embed.Step)
  | certs (e : CertSync.Event)

section World

variable (sha256 : Pow.Sha256) (mc : Embed.MetaCrate) (js : CertJson) (pki : Tls.PkiCrates)
variable {ι θ : Type} [DecidableEq ι] [DecidableEq θ]

def World.store {pki : Tls.PkiCrates} (w : World ι θ pki) : Embed.Store ι θ where
  redis := entriesOf w.redis
  replica := w.replica
  served := w.served

def step : Machine (World ι θ pki) (Event ι θ)
  | w, .tick d => some { w with clock := w.clock + d }
  | w, .secret i e => (secretAct w.clock w.redis (w.secret i) e).map fun o =>
    { w with redis := o.1, secret := Function.update w.secret i o.2 }
  | w, .limit i e => (limitAct cfg w.clock w.redis (w.limiter i) e).map fun o =>
    { w with redis := o.redis, limiter := Function.update w.limiter i o.limiter, calls := note o.done w.calls }
  | w, .embed p e => (Embed.act sha256 mc p w.clock w.store (w.embed p) e).map fun o =>
    { w with redis := embedWrite sha256 mc w.clock w.redis (w.embed p) e, embed := Function.update w.embed p o.2,
             replica := o.1.replica, served := o.1.served }
  | w, .certs e => (CertSync.step js pki (w.certs.on (stringsOf w.clock w.redis)) e).map fun s =>
    { w with redis := certWrite js w.redis w.certs.task e, certs := Certs.of s }

end World

/-! ## Who owns a key -/

inductive Owner where
  | secret
  | limit
  | embed
  | cert
  | other
deriving DecidableEq, Repr

def owner (key : Str) : Owner :=
  if key = sealKey then .secret
  else if Text.startsWith key keyPrefix then .limit
  else if Text.startsWith key embedPrefix then .embed
  else if Text.startsWith key certPrefix then .cert
  else .other

/-- What the owner of a key keeps under it. -/
def Belongs (key : Str) (h : Held) : Prop :=
  match owner key with
  | .secret => ∃ b, h = ⟨.string b, none⟩
  | .limit => ∃ b t, h = ⟨.hash (fieldsOf b), t⟩
  | .embed => ∃ payload written, h = ⟨.string (Text.bytes payload), some (written + Embed.cacheTtl)⟩
  | .cert => ∃ b, h = ⟨.string b, none⟩
  | .other => True

def Typed (ks : Keyspace) : Prop := ∀ key h, ks.lookup key = some h → Belongs key h

/-- What Redis holds before any of them has run: perhaps a key to seal with,
certificates, and the keys of others. -/
structure Seed where
  redis : Keyspace
  typed : Typed redis
  fresh : ∀ key, owner key = .limit ∨ owner key = .embed → redis.lookup key = none

def secretOf (ks : Keyspace) : Option Bytes :=
  match ks.lookup sealKey with
  | some ⟨.string b, _⟩ => some b
  | _ => none

def certOf (key : Str) (h : Held) : Option Bytes :=
  if Text.startsWith key certPrefix then
    match h.value with
    | .string b => some b
    | .hash _ => none
  else none

def certsOf (ks : Keyspace) : Redis := pick certOf ks

/-- Nothing has run yet. -/
def start (js : CertJson) (pki : Tls.PkiCrates) (ι θ : Type) (seed : Seed) (domains : List Str) (clock : Nat)
    (certdClock : Int) : World ι θ pki where
  clock := clock
  redis := seed.redis
  secret _ := .idle
  limiter _ := .idle
  calls _ := []
  embed _ := .idle
  replica _ := { cached := fun _ => none, inflight := fun _ => none }
  served := []
  certs := .of (CertSync.start js pki domains (certsOf seed.redis) certdClock)

end NekoGuard.SharedRedis
