/-
embed.rs and main.rs: interstitials that advertise `/__ng/favicon.ico`, and
the requests for it. `favicon` calls `load` for its own path and then for
the root, fetching nothing; each `load` is the one of `act`, cut at the
same points.
-/
import NekoGuard.Load

namespace NekoGuard.Favicon

open Lib Embed

/-- An icon and the content type to serve it with. -/
abbrev Icon := Bytes × String

/-- The path of the route, as the handler passes it on. -/
def faviconPath : Str := normalizePath "/__ng/favicon.ico".toList

/-- `inline_into` rendered a page with the favicon link, from metadata it
had under that key. -/
structure Rendered where
  host : Str
  key : Str
  icon : Icon
deriving DecidableEq, Repr

/-- A favicon request answered: `none` is the 404. `owed` are the icons of
the pages rendered for its host whose metadata was still cached when it was
made. -/
structure Answered where
  owed : List Icon
  icon : Option Icon
deriving DecidableEq, Repr

structure Site (ι θ : Type) where
  caches : Store ι θ
  rendered : List Rendered
  answered : List Answered

/-- The request a task is in the middle of, and where its `load` is. -/
inductive Visit where
  | idle
  | page (host path : Str) (load : Task)
  | own (host upstream : Str) (owed : List Icon) (load : Task)
  /-- Nothing under the route's own path. -/
  | looking (host upstream : Str) (owed : List Icon)
  | root (owed : List Icon) (load : Task)

inductive Step where
  | render (host upstream path : Str)
  | favicon (host upstream : Str)
  | lookRoot
  | on (e : Embed.Step)

/-- How far one step takes a `load`: on, to an end its request has dropped,
or to what it returns. -/
inductive Progress where
  | running (t : Task)
  | dropped
  | finished (copy : Option Meta)

variable {ι θ : Type} [DecidableEq ι] [DecidableEq θ] (sha256 : Pow.Sha256) (mc : MetaCrate)

def advance (p : ι × θ) (now : Nat) (st : Store ι θ) (t : Task) (e : Embed.Step) : Option (Store ι θ × Progress) :=
  (act sha256 mc p now st t e).map fun o =>
    (o.1, match o.2, e with
      | .idle, .cancel => .dropped
      | .idle, _ => .finished ((returned sha256 p now st t e).map (·.2))
      | t, _ => .running t)

/-- Metadata with that icon is still cached under the key: in `LOCAL`, or in
Redis. -/
def stillCached (p : ι × θ) (now : Nat) (st : Store ι θ) (key : Str) (icon : Icon) : Bool :=
  (localGet p now st key).2.any (fun copy => copy.icon == some icon) ||
    (redisGet mc now st key).any fun x => x.1.icon == some icon

def Site.owed (p : ι × θ) (now : Nat) (s : Site ι θ) (host : Str) : List Icon :=
  (s.rendered.filter fun r => r.host == host && stillCached mc p now s.caches r.key r.icon).map (·.icon)

/-- The end of `inline_into`. -/
def afterPage (s : Site ι θ) (host path : Str) : Store ι θ × Progress → Site ι θ × Visit
  | (st, .running t) => ({ s with caches := st }, .page host path t)
  | (st, .dropped) => ({ s with caches := st }, .idle)
  | (st, .finished copy) =>
    match copy.bind (·.icon) with
    | some icon =>
      ({ s with caches := st, rendered := ⟨host, cacheKey sha256 host path, icon⟩ :: s.rendered }, .idle)
    | none => ({ s with caches := st }, .idle)

/-- After the first `load` of `favicon`. The route's path is not the root. -/
def afterOwn (s : Site ι θ) (host upstream : Str) (owed : List Icon) :
    Store ι θ × Progress → Site ι θ × Visit
  | (st, .running t) => ({ s with caches := st }, .own host upstream owed t)
  | (st, .dropped) => ({ s with caches := st }, .idle)
  | (st, .finished copy) =>
    match copy.bind (·.icon) with
    | some icon => ({ s with caches := st, answered := ⟨owed, some icon⟩ :: s.answered }, .idle)
    | none => ({ s with caches := st }, .looking host upstream owed)

/-- After the second. -/
def afterRoot (s : Site ι θ) (owed : List Icon) : Store ι θ × Progress → Site ι θ × Visit
  | (st, .running t) => ({ s with caches := st }, .root owed t)
  | (st, .dropped) => ({ s with caches := st }, .idle)
  | (st, .finished copy) =>
    ({ s with caches := st, answered := ⟨owed, copy.bind (·.icon)⟩ :: s.answered }, .idle)

def serve (p : ι × θ) (now : Nat) (s : Site ι θ) : Visit → Step → Option (Site ι θ × Visit)
  | .idle, .render host upstream path =>
    let host := Config.normalizeHost host
    (advance sha256 mc p now s.caches .idle (.load host path upstream true)).map (afterPage sha256 s host path)
  | .page host path t, .on e => (advance sha256 mc p now s.caches t e).map (afterPage sha256 s host path)
  | .idle, .favicon host upstream =>
    let host := Config.normalizeHost host
    let owed := s.owed mc p now host
    (advance sha256 mc p now s.caches .idle (.load host faviconPath upstream false)).map
      (afterOwn s host upstream owed)
  | .own host upstream owed t, .on e =>
    (advance sha256 mc p now s.caches t e).map (afterOwn s host upstream owed)
  | .looking host upstream owed, .lookRoot =>
    (advance sha256 mc p now s.caches .idle (.load host ['/'] upstream false)).map (afterRoot s owed)
  | .looking _ _ _, .on .cancel => some (s, .idle)
  | .root owed t, .on e => (advance sha256 mc p now s.caches t e).map (afterRoot s owed)
  | _, _ => none

/-- Empty caches, and nobody has asked for anything. -/
def start (clock : Nat) : Cluster (ι × θ) (Site ι θ) Visit where
  clock := clock
  shared := { caches := (Embed.start clock).shared, rendered := [], answered := [] }
  proc := fun _ => .idle

end NekoGuard.Favicon
