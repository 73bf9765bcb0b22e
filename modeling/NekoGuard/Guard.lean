/-
guard.js in one page: the requests it holds, the renewal it runs, and the
page code it calls. A handler runs to its end before the next one starts,
but not alone: `entry.done` gives control to the page, which may send again
or throw. So the handler under way is a stack of frames, and a call into
the page, a return from it and an exception are steps of their own. The
clock stands still while a handler runs.
-/
import Mathlib.Data.List.Perm.Basic
import NekoGuard.Clearance

namespace NekoGuard.Guard

open Lib Clearance

/-- `HEARTBEAT_MS`. -/
def heartbeatMs : Nat := 30 * 1000

/-- `MAX_QUEUE_WAIT_MS`. -/
def maxQueueWaitMs : Nat := 30 * 1000

/-- `SLEEP_SLACK_MS`. -/
def sleepSlackMs : Nat := 2 * heartbeatMs + 5 * 1000

inductive Kind where
  | fetch
  | xhr
deriving DecidableEq, Repr

/-- An `entry` of `gate`; each send makes its own. -/
structure Entry where
  id : Nat
  kind : Kind
deriving DecidableEq, Repr

/-- What an async body of `renew` waits for. -/
inductive Phase where
  | challenge
  | solution (ttl : Nat)
  | verify (ttl : Nat)
deriving DecidableEq, Repr

/-- Code that is still to run before the handler ends, innermost first. -/
inductive Frame where
  /-- `entry.done(err)` is running. -/
  | done (e : Entry) (err : Bool)
  /-- The rest of the loop of `release(aborted)`. -/
  | release (pending : List Entry) (aborted : Bool)
  /-- A body of `renew` ends, in its `try` or in its `catch`. -/
  | renewal (r : Nat) (caught : Bool)
  /-- A call of `renew`. -/
  | renew
  /-- The `solver =` of `renew`, where the body ended without a wait. -/
  | assign (r : Nat)
  /-- The `entry.done(null)` of `gate`. -/
  | send (e : Entry)
deriving DecidableEq, Repr

/-- One call of `entry.done`. -/
structure Call where
  entry : Entry
  err : Bool
  anchor : Anchor
  now : Nat
deriving DecidableEq, Repr

structure State where
  clock : Nat
  /-- `loadedAt` and `cfg.ttl`. -/
  anchor : Anchor
  lastTick : Nat
  /-- The body whose promise `solver` holds. -/
  solver : Option Nat
  /-- The bodies that have started and not ended. -/
  running : List (Nat × Phase)
  /-- How many bodies have started. -/
  started : Nat
  queue : List Entry
  /-- The `setTimeout`s of `enqueue`, and when they are due. -/
  timers : List (Entry × Nat)
  fired : List Entry
  submitted : List Entry
  calls : List Call
  stack : List Frame
deriving DecidableEq, Repr

inductive Event where
  | tick (d : Nat)
  /-- The page sends a request, out of nothing or from the code that
  `entry.done` runs. -/
  | send (kind : Kind)
  | timer (e : Entry) (due : Nat)
  | heartbeat
  /-- The challenge is here, with the TTL it names. -/
  | challenge (r : Nat) (ttl : Option Nat)
  | solved (r : Nat)
  | verified (r : Nat)
  /-- Something in a body throws, or what it waits for rejects. -/
  | failed (r : Nat)
  /-- `renew` goes on; `fetched` tells that `nativeFetch` is there and
  returns a promise. -/
  | renew (fetched : Bool)
  | go
  | ret
  | throw
deriving DecidableEq, Repr

/-! ## The functions of guard.js -/

/-- Rejecting a promise runs no page code before the handler ends. -/
def Entry.runsPage (e : Entry) (err : Bool) : Bool := !(e.kind == .fetch && err)

namespace State

variable (s : State)

def isExpired : Bool := s.anchor.isExpired s.clock

def needsRenewal : Bool := s.anchor.needsRenewal s.clock

/-- `entry.done(err)`. -/
def done (e : Entry) (err : Bool) : State :=
  { s with calls := ⟨e, err, s.anchor, s.clock⟩ :: s.calls, stack := .done e err :: s.stack }

def enqueue (e : Entry) : State :=
  { s with queue := s.queue ++ [e], timers := s.timers ++ [(e, s.clock + maxQueueWaitMs)] }

def releaseOne (e : Entry) (aborted : Bool) : State :=
  if e ∈ s.queue then { s with queue := s.queue.erase e }.done e aborted else s

/-- The calls a handler makes, the first one on top. -/
def push (fs : List Frame) : State := { s with stack := fs ++ s.stack }

/-- `release(aborted)`: the loop runs over a copy of the queue. -/
def release (aborted : Bool) : State := s.push [.release s.queue aborted]

/-- `renew()`. A body that throws before its first wait has run to its end
by the time its promise is assigned. -/
def renew (fetched : Bool) : State :=
  match s.solver with
  | some _ => s
  | none =>
    let r := s.started
    let s := { s with started := r + 1, running := (r, .challenge) :: s.running }
    if fetched then { s with solver := some r }
    else (s.push [.renewal r true, .assign r]).release true

/-- The `finally` of a body. -/
def ended (r : Nat) : State :=
  { s with solver := none, running := s.running.filter fun b => b.1 ≠ r }

def gate (e : Entry) : State :=
  if s.isExpired then (s.enqueue e).push [.renew]
  else if s.needsRenewal then s.push [.renew, .send e]
  else s.done e false

/-- `fetch(..)` or `xhr.send(..)`. -/
def submit (kind : Kind) : State :=
  let e : Entry := { id := s.submitted.length, kind }
  { s with submitted := e :: s.submitted }.gate e

def heartbeat : State :=
  let elapsed := s.clock - s.lastTick
  let s := { s with lastTick := s.clock }
  if sleepSlackMs < elapsed then
    if s.isExpired || s.needsRenewal then s.push [.renew] else s
  else if s.isExpired then s.push [.renew]
  else if s.needsRenewal then s.push [.renew]
  else s

/-- A body goes on to its next wait. -/
def await (r : Nat) (phase : Phase) : State :=
  { s with running := s.running.map fun b => if b.1 = r then (r, phase) else b }

/-- Where an exception out of the page ends up: a loop is left, the `try`
of a body is left for its `catch`, and everything else goes on as after a
return. -/
def unwind : List Frame → State
  | .release _ _ :: fs => unwind fs
  | .renewal r false :: fs => { s with stack := .renewal r true :: fs }.release true
  | fs => { s with stack := fs }

end State

/-- The script runs: it kicks a renewal where one is needed. -/
def start (clock ttl : Nat) : State :=
  let s : State :=
    { clock, anchor := { loadedAt := clock, ttl }, lastTick := clock, solver := none, running := [],
      started := 0, queue := [], timers := [], fired := [], submitted := [], calls := [], stack := [] }
  if s.needsRenewal then s.push [.renew] else s

/-- One step of a handler, or the start of the next one. -/
def step : Machine State Event := fun s ev =>
  match s.stack, ev with
  | [], .tick d => some { s with clock := s.clock + d }
  | [], .send kind => some (s.submit kind)
  | [], .timer e due =>
    if (e, due) ∈ s.timers ∧ due ≤ s.clock then
      some ({ s with timers := s.timers.erase (e, due), fired := e :: s.fired }.releaseOne e true)
    else none
  | [], .heartbeat => some s.heartbeat
  | [], .challenge r ttl =>
    match s.running.lookup r with
    | some .challenge => some (s.await r (.solution (ttl.getD s.anchor.ttl)))
    | _ => none
  | [], .solved r =>
    match s.running.lookup r with
    | some (.solution ttl) => some (s.await r (.verify ttl))
    | _ => none
  | [], .verified r =>
    match s.running.lookup r with
    | some (.verify ttl) =>
      let s := { s with anchor := { loadedAt := s.clock, ttl } }
      some ((s.push [.renewal r false]).release false)
    | _ => none
  | [], .failed r =>
    match s.running.lookup r with
    | some _ => some ((s.push [.renewal r true]).release true)
    | none => none
  | .renew :: fs, .renew fetched => some ({ s with stack := fs }.renew fetched)
  | .release (e :: pending) aborted :: fs, .go =>
    some ({ s with stack := .release pending aborted :: fs }.releaseOne e aborted)
  | .release [] _ :: fs, .go => some { s with stack := fs }
  | .renewal r _ :: fs, .go => some ({ s with stack := fs }.ended r)
  | .assign r :: fs, .go => some { s with solver := some r, stack := fs }
  | .send e :: fs, .go => some ({ s with stack := fs }.done e false)
  | .done e err :: _, .send kind => if e.runsPage err then some (s.submit kind) else none
  | .done _ _ :: fs, .ret => some { s with stack := fs }
  | .done e err :: fs, .throw => if e.runsPage err then some (s.unwind fs) else none
  | _, _ => none

end NekoGuard.Guard
