/-
One browser and the server it has its clearance from: guard.js in any number
of pages, interstitials among them, the cookie jar they share, and the
cookies on their way to it. The jar keeps a cookie for its Max-Age. Client
and server read one clock, in milliseconds; the numbers of guard.js are
exact. A renewal of guard.js is cut at its awaits.
-/
import Mathlib.Logic.Function.Basic
import NekoGuard.Lib.Machine
import NekoGuard.Session

namespace NekoGuard.Clearance

open Lib

/-! ## guard.js: expiry -/

/-- `loadedAt` and `cfg.ttl` of a page. -/
structure Anchor where
  loadedAt : Nat
  ttl : Nat
deriving DecidableEq, Repr

/-- `BUFFER_MS`. -/
def bufferMs : Nat := 5 * 60 * 1000

namespace Anchor

def expiresAt (a : Anchor) : Nat := a.loadedAt + a.ttl * 1000

def isExpired (a : Anchor) (now : Nat) : Bool := a.expiresAt ≤ now

/-- Zero where guard.js has a time before the epoch. -/
def renewDeadline (a : Anchor) : Nat := a.expiresAt - max bufferMs 0

def needsRenewal (a : Anchor) (now : Nat) : Bool := a.renewDeadline ≤ now

end Anchor

/-! ## Cookies and pages -/

/-- A cookie, by the moment and the nonce it was sealed with. -/
structure Issued where
  sealedAt : Nat
  nonce : Nonce
deriving DecidableEq, Repr

/-- A cookie in the jar. -/
structure Stored where
  cookie : Issued
  storedAt : Nat
deriving DecidableEq, Repr

/-- `Max-Age` is the TTL. -/
def Stored.isLive (c : Stored) (ttl now : Nat) : Bool := now < c.storedAt + ttl * 1000

/-- How far `renew` has come, or the script of the interstitial. -/
inductive Renewal where
  | idle
  /-- The challenge is asked for. -/
  | asking
  | solving
  /-- The solution was accepted, and the answer is on its way. -/
  | answered (cookie : Issued)
  /-- The browser has stored the cookie, and the script has not gone on yet. -/
  | stored
deriving DecidableEq, Repr

/-- A page; the interstitial has no guard.js. -/
structure Page where
  guard : Option Anchor
  renewal : Renewal
deriving DecidableEq, Repr

/-- `gate` let a request through at once, with what the browser had for a
cookie. -/
structure Pass (π : Type) where
  page : π
  now : Nat
  cookie : Option Issued
deriving DecidableEq, Repr

structure Joint (π : Type) where
  clock : Nat
  jar : Option Stored
  page : π → Page
  passes : List (Pass π)

inductive Event (π : Type) where
  | tick (d : Nat)
  /-- A page runs guard.js from the start. -/
  | load (p : π)
  /-- The heartbeat, or the interstitial. -/
  | renew (p : π)
  | challenge (p : π)
  | verify (p : π) (nonce : Nonce)
  | store (p : π)
  | resume (p : π)
  /-- A renewal fails, or the interstitial gives up. -/
  | fail (p : π)
  | gate (p : π)
deriving DecidableEq

/-- `renew()`: one at a time. -/
def Renewal.renew : Renewal → Renewal
  | .idle => .asking
  | r => r

/-- `renew()` for a page that needs it. -/
def Page.tend (pg : Page) (now : Nat) : Page :=
  match pg.guard with
  | some a => if a.needsRenewal now then { pg with renewal := pg.renewal.renew } else pg
  | none => { pg with renewal := pg.renewal.renew }

variable {π : Type} [DecidableEq π]

/-- The browser's cookie. -/
def Joint.cookie (s : Joint π) (ttl : Nat) : Option Issued :=
  (s.jar.filter fun c => c.isLive ttl s.clock).map (·.cookie)

def Joint.setPage (s : Joint π) (p : π) (pg : Page) : Joint π :=
  { s with page := Function.update s.page p pg }

/-- The TTL of a page is the server's: the prelude carries it, and so does
each challenge. -/
def step (sm : SessionManager) : Machine (Joint π) (Event π)
  | s, .tick d => some { s with clock := s.clock + d }
  | s, .load p =>
    let pg : Page := { guard := some { loadedAt := s.clock, ttl := sm.ttl }, renewal := .idle }
    some (s.setPage p (pg.tend s.clock))
  | s, .renew p => some (s.setPage p ((s.page p).tend s.clock))
  | s, .challenge p =>
    match (s.page p).renewal with
    | .asking => some (s.setPage p { s.page p with renewal := .solving })
    | _ => none
  | s, .verify p nonce =>
    match (s.page p).renewal with
    | .solving => some (s.setPage p { s.page p with renewal := .answered { sealedAt := s.clock, nonce } })
    | _ => none
  | s, .store p =>
    match (s.page p).renewal with
    | .answered c => some { s.setPage p { s.page p with renewal := .stored } with jar := some ⟨c, s.clock⟩ }
    | _ => none
  | s, .resume p =>
    match (s.page p).renewal with
    | .stored =>
      let guard := (s.page p).guard.map fun _ => { loadedAt := s.clock, ttl := sm.ttl }
      some (s.setPage p { guard, renewal := .idle })
    | _ => none
  | s, .fail p => some (s.setPage p { s.page p with renewal := .idle })
  | s, .gate p =>
    match (s.page p).guard with
    | some a =>
      let s := s.setPage p ((s.page p).tend s.clock)
      -- An expired session holds the request instead.
      if a.isExpired s.clock then some s
      else some { s with passes := ⟨p, s.clock, s.cookie sm.ttl⟩ :: s.passes }
    | none => none

/-- No page is open, and the jar is empty. -/
def start (clock : Nat) : Joint π where
  clock := clock
  jar := none
  page := fun _ => { guard := none, renewal := .idle }
  passes := []

/-! ## What the server makes of a request -/

variable (cr : SealingCrates) (sm : SessionManager) (ip : IpAddr) (instantAt : Nat → Nat)

/-- The server's clocks at a moment. -/
def clockAt (now : Nat) : Clock := { unixSecs := now / 1000, instant := instantAt now }

def Issued.cookie (c : Issued) : Str := sm.createCookie cr ip (clockAt instantAt c.sealedAt) c.nonce

/-- The browser has a cookie that `verify_cookie` accepts. -/
def Pass.Accepted (v : Pass π) : Prop :=
  ∃ c, v.cookie = some c ∧ sm.Accepts cr (c.cookie cr sm ip instantAt) ip (clockAt instantAt v.now)

/-- A cookie that is in the jar, and good, for as long as guard.js takes it to
be. -/
structure Covers (c : Stored) (loadedAt : Nat) : Prop where
  kept : loadedAt ≤ c.storedAt
  anchored : loadedAt ≤ (c.cookie.sealedAt / 1000 + 1) * 1000
  fits : c.cookie.sealedAt / 1000 + sm.ttl < 2 ^ 64

/-- The cookie a page is about to store. -/
def Renewal.arriving : Renewal → Option Issued
  | .answered c => some c
  | _ => none

/-- A page anchors its window on a cookie that covers it, a cookie that
replaces another covers the windows that are open, and `Instant` can hold
the lifetime when a request goes through. -/
def Timely (s : Joint π) : Event π → Prop
  | .load _ => ∃ c ∈ s.jar, Covers sm c s.clock
  | .resume p => (s.page p).guard ≠ none → ∃ c ∈ s.jar, Covers sm c s.clock
  | .store p => ∀ c ∈ (s.page p).renewal.arriving, ∀ q, ∀ a ∈ (s.page q).guard,
      s.clock < a.expiresAt → Covers sm ⟨c, s.clock⟩ a.loadedAt
  | .gate p => ∀ a ∈ (s.page p).guard, s.clock < a.expiresAt →
      instantAt s.clock + 10 ^ 9 * sm.ttl < 2 ^ 63 * 10 ^ 9
  | _ => True

end NekoGuard.Clearance
