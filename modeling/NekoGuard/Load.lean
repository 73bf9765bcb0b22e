/-
embed.rs: `load` on any number of processes over one Redis, cut at every
point where another task can run. `LOCAL` and `INFLIGHT` are per process;
what `fetch` brings back is up to the origin. Of a copy in `LOCAL` the
model also records where it came from, and of every copy `local_get`
serves, when.
-/
import NekoGuard.Embed
import NekoGuard.Lib.Cluster

namespace NekoGuard.Embed

open Lib

/-- `CACHE_TTL`, in nanoseconds. -/
def cacheTtl : Nat := 300 * 10 ^ 9

/-- Where a local copy came from: its own fetch, or an entry of Redis and
the moment that was written. -/
inductive Source where
  | fetch
  | redis (written : Nat)
deriving DecidableEq, Repr

structure Cached where
  copy : Meta
  fetched : Nat
  source : Source
deriving DecidableEq, Repr

/-- A string in Redis, gone `CACHE_TTL` after it was written. -/
structure Entry where
  payload : Str
  written : Nat
deriving DecidableEq, Repr

/-- What one process holds: `LOCAL`, and for each key of `INFLIGHT` the task
that has its lock. -/
structure Replica (θ : Type) where
  cached : Str → Option Cached
  inflight : Str → Option (Option θ)

/-- `local_get` returned a copy. -/
structure Served (π : Type) where
  task : π
  key : Str
  now : Nat
  cached : Cached

structure Store (ι θ : Type) where
  redis : Str → Option Entry
  replica : ι → Replica θ
  served : List (Served (ι × θ))

/-- The arguments of a `load` call, its path normalised. -/
structure Call where
  host : Str
  path : Str
  upstream : Str
  fetchOnMiss : Bool
  normal : normalizePath path = path

def Call.ofArgs (host path upstream : Str) (fetchOnMiss : Bool) : Call where
  host := host
  path := normalizePath path
  upstream := upstream
  fetchOnMiss := fetchOnMiss
  normal := normalizePath_idem path

/-- Where a `load` call is. `locked` tells the second look from the first. -/
inductive Task where
  | idle
  /-- Nothing usable in `LOCAL`. -/
  | missed (c : Call) (locked : Bool)
  /-- Redis had an entry, written at that moment. -/
  | found (c : Call) (locked : Bool) (copy : Meta) (written : Nat)
  /-- Nothing in Redis either, and the caller wants a fetch. -/
  | resolving (c : Call)
  | queued (c : Call)
  | entered (c : Call)
  | fetching (c : Call)
  | got (c : Call) (copy : Meta)
  | writing (c : Call) (copy : Meta)

inductive Step where
  /-- A call, up to the end of its first `local_get`. -/
  | load (host path upstream : Str) (fetchOnMiss : Bool)
  /-- `GET`, answered or failing. -/
  | get (ok : Bool)
  | put
  /-- `inflight_lock`, then `lock.lock()`. -/
  | resolve
  | lock
  /-- The `local_get` under the lock. -/
  | look
  | fetched (copy : Option Meta)
  /-- `SET .. EX`, done or failing. -/
  | set (ok : Bool)
  /-- The request is dropped at an await. -/
  | cancel

variable (sha256 : Pow.Sha256) (mc : MetaCrate)

def Call.key (c : Call) : Str := cacheKey sha256 c.host c.path

variable {ι θ : Type} [DecidableEq ι] [DecidableEq θ]

def Store.setReplica (st : Store ι θ) (i : ι) (r : Replica θ) : Store ι θ :=
  { st with replica := Function.update st.replica i r }

def Replica.setCached (r : Replica θ) (key : Str) (c : Option Cached) : Replica θ :=
  { r with cached := Function.update r.cached key c }

def Replica.setLock (r : Replica θ) (key : Str) (holder : Option θ) : Replica θ :=
  { r with inflight := Function.update r.inflight key (some holder) }

/-- Drop the guard of a key, when the task has it. -/
def release (p : ι × θ) (st : Store ι θ) (key : Str) : Store ι θ :=
  let r := st.replica p.1
  if r.inflight key = some (some p.2) then st.setReplica p.1 (r.setLock key none) else st

/-- `local_get`: the copy served, while it is younger than the window; else
the entry is removed. -/
def localGet (p : ι × θ) (now : Nat) (st : Store ι θ) (key : Str) : Store ι θ × Option Meta :=
  let r := st.replica p.1
  match r.cached key with
  | some c =>
    if now - c.fetched < cacheTtl then
      ({ st with served := ⟨p, key, now, c⟩ :: st.served }, some c.copy)
    else (st.setReplica p.1 (r.setCached key none), none)
  | none => (st, none)

def localPut (p : ι × θ) (now : Nat) (st : Store ι θ) (key : Str) (copy : Meta) (source : Source) :
    Store ι θ :=
  st.setReplica p.1 ((st.replica p.1).setCached key (some { copy, fetched := now, source }))

/-- `redis_get`: the metadata of a live entry, when it is readable, and when
it was written. -/
def redisGet (now : Nat) (st : Store ι θ) (key : Str) : Option (Meta × Nat) :=
  ((st.redis key).filter fun e => now < e.written + cacheTtl).bind fun e =>
    (mc.fromStr e.payload).map fun c => (c.intoMeta, e.written)

def redisSet (now : Nat) (st : Store ι θ) (key : Str) (copy : Meta) : Store ι θ :=
  match mc.toString (CachedMeta.ofMeta copy) with
  | some payload => { st with redis := Function.update st.redis key (some { payload, written := now }) }
  | none => st

/-- After a miss in both tiers. -/
def afterMiss (c : Call) (locked : Bool) : Task :=
  if locked then .fetching c else if c.fetchOnMiss then .resolving c else .idle

def act (p : ι × θ) (now : Nat) (st : Store ι θ) : Task → Step → Option (Store ι θ × Task)
  | .idle, .load host path upstream fetchOnMiss =>
    let c := Call.ofArgs host path upstream fetchOnMiss
    match localGet p now st (c.key sha256) with
    | (st, some _) => some (st, .idle)
    | (st, none) => some (st, .missed c false)
  | .missed c locked, .get ok =>
    match if ok then redisGet mc now st (c.key sha256) else none with
    | some (copy, written) => some (st, .found c locked copy written)
    | none => some (st, afterMiss c locked)
  | .found c _ copy written, .put =>
    let key := c.key sha256
    some (release p (localPut p now st key copy (.redis written)) key, .idle)
  | .resolving c, .resolve =>
    let key := c.key sha256
    let r := st.replica p.1
    match r.inflight key with
    | some _ => some (st, .queued c)
    | none => some (st.setReplica p.1 (r.setLock key none), .queued c)
  | .queued c, .lock =>
    let key := c.key sha256
    let r := st.replica p.1
    if r.inflight key = some none then
      some (st.setReplica p.1 (r.setLock key (some p.2)), .entered c)
    else none
  | .entered c, .look =>
    let key := c.key sha256
    match localGet p now st key with
    | (st, some _) => some (release p st key, .idle)
    | (st, none) => some (st, .missed c true)
  | .fetching c, .fetched none => some (release p st (c.key sha256), .idle)
  | .fetching c, .fetched (some copy) => some (st, .got c copy)
  | .got c copy, .put => some (localPut p now st (c.key sha256) copy .fetch, .writing c copy)
  | .writing c copy, .set ok =>
    let key := c.key sha256
    some (release p (if ok then redisSet mc now st key copy else st) key, .idle)
  | .missed c _, .cancel => some (release p st (c.key sha256), .idle)
  | .found c _ _ _, .cancel => some (release p st (c.key sha256), .idle)
  | .resolving _, .cancel => some (st, .idle)
  | .queued _, .cancel => some (st, .idle)
  | .entered c, .cancel => some (release p st (c.key sha256), .idle)
  | .fetching c, .cancel => some (release p st (c.key sha256), .idle)
  | .got c _, .cancel => some (release p st (c.key sha256), .idle)
  | .writing c _, .cancel => some (release p st (c.key sha256), .idle)
  | _, _ => none

/-- The call a step ends, when `load` returns metadata there. -/
def returned (p : ι × θ) (now : Nat) (st : Store ι θ) : Task → Step → Option (Call × Meta)
  | .idle, .load host path upstream fetchOnMiss =>
    let c := Call.ofArgs host path upstream fetchOnMiss
    (localGet p now st (c.key sha256)).2.map fun copy => (c, copy)
  | .found c _ copy _, .put => some (c, copy)
  | .entered c, .look => (localGet p now st (c.key sha256)).2.map fun copy => (c, copy)
  | .writing c copy, .set _ => some (c, copy)
  | _, _ => none

/-- Empty caches everywhere. -/
def start (clock : Nat) : Cluster (ι × θ) (Store ι θ) Task where
  clock := clock
  shared :=
    { redis := fun _ => none, replica := fun _ => { cached := fun _ => none, inflight := fun _ => none },
      served := [] }
  proc := fun _ => .idle

end NekoGuard.Embed
