/-
main.rs: the connections of the TLS listener and of the port_http listener,
from their first byte to an upstream. A connection either upgrades to a
WebSocket, on what its first bytes look like, or is served by hyper, which
hands its requests to `handle` (which requests it makes of the bytes is up
to it). The log has what is forwarded.
-/
import NekoGuard.Handle
import NekoGuard.Lib.Cluster
import NekoGuard.Std.Utf8

namespace NekoGuard.Edge

open Lib

inductive Listener where
  | tls
  | http
deriving DecidableEq, Repr

structure Conn (κ : Type) where
  id : κ
  listener : Listener
  peerIp : IpAddr
deriving DecidableEq, Repr

/-! ## WebSocket upgrades -/

def crlf : Str := "\r\n".toList

def endOfHead : Bytes := Text.bytes (crlf ++ crlf)

/-- The substring test on the bytes read so far. -/
def isWs (head : Bytes) : Bool :=
  Text.contains (Text.toAsciiLowercase (Utf8.fromUtf8Lossy head)) "upgrade: websocket".toList

def isHostLine (line : Str) : Bool := Text.startsWith (Text.toAsciiLowercase line) "host:".toList

/-- The value of the first Host line. -/
def wsHost (head : Bytes) : Str :=
  ((((Text.lines (Utf8.fromUtf8Lossy head)).find? isHostLine).bind fun l => Text.splitOnce l ':').map
    fun x => Text.trim x.2).getD []

def stripScheme (upstream : Str) : Str :=
  ((Text.stripPrefix upstream "http://".toList).or (Text.stripPrefix upstream "https://".toList)).getD upstream

/-- `&text[text.find("\r\n").unwrap_or(0) + 2..]`. -/
def afterFirstLine (text : Str) : Rust Str := Text.sliceFrom text ((Text.find text crlf).getD 0 + 2)

/-- The request as it goes to the upstream: its first line again, and its
headers with another Host. -/
def rewrite (text auth : Str) : Rust Str := do
  let parts := Text.splitWhitespace ((Text.lines text).headD [])
  match parts with
  | [] => .error ⟨"index out of bounds"⟩
  | method :: rest =>
    let path := rest.headD ['/']
    let after ← afterFirstLine text
    -- Nothing outside ASCII has a lower case that starts with host:.
    let headers := (Text.lines after).takeWhile (· ≠ [])
    let rewritten := headers.map fun line =>
      if isHostLine line then "Host: ".toList ++ auth ++ crlf else line ++ crlf
    return method ++ ' ' :: path ++ " HTTP/1.1".toList ++ crlf ++ rewritten.flatten ++ crlf

/-- In `main_inner`. -/
def rewriteTls (head : Bytes) (upstream : Str) : Rust Str :=
  rewrite (Utf8.fromUtf8Lossy head) (Text.splitFirst upstream ':')

/-- In `proxy_ws_upgrade_buf`. -/
def rewriteBuf (buf : Bytes) (upstream : Str) : Rust Str :=
  rewrite (Utf8.fromUtf8Lossy buf) (Text.splitFirst (stripScheme upstream) ':')

def rewritten : Listener → Bytes → Str → Rust Str
  | .tls => rewriteTls
  | .http => rewriteBuf

/-! ## What a header block asks for -/

def methodOf (name : Str) : Method :=
  if name = "GET".toList then .get else if name = "POST".toList then .post else .other name

/-- The request a header block spells out, for whoever asks what it carries. -/
def headRequest (head : Bytes) : Request :=
  let ls := Text.lines (Utf8.fromUtf8Lossy head)
  let parts := Text.splitWhitespace (ls.headD [])
  let target := (parts.drop 1).headD ['/']
  let split := Text.splitOnce target '?'
  { method := methodOf (parts.headD [])
    path := (split.map (·.1)).getD target
    query := split.map (·.2)
    headers := ((ls.drop 1).takeWhile (· ≠ [])).filterMap fun l => (Text.splitOnce l ':').map fun x =>
      (Text.toAsciiLowercase x.1, Text.bytes (Text.trim x.2))
    body := { frames := [], fails := false } }

/-! ## Connections -/

inductive Sent where
  | proxied
  | upgrade (text : Str)
  | piped (bytes : Bytes)
deriving DecidableEq, Repr

/-- Bytes of a request on their way to an upstream, and when the request was
let through. -/
structure Forward (κ : Type) where
  conn : Conn κ
  request : Request
  time : Nat
  upstream : Str
  sent : Sent
deriving DecidableEq, Repr

/-- Where the task of a connection is. -/
inductive Task (κ : Type) where
  | accepted
  /-- The header peek of the TLS listener, byte by byte. -/
  | reading (head : Bytes)
  /-- `proxy_ws_upgrade_buf`, reading. -/
  | buffering (upstream : Str) (buf : Bytes)
  | connecting (upstream : Str) (buf : Bytes)
  /-- For the 101 of the upstream. -/
  | waiting (f : Forward κ)
  | piping (f : Forward κ)
  /-- `serve_connection`. -/
  | serving
  | closed

inductive Step where
  | hello (alpnChallenge : Bool) (serverName : Option Str)
  | peek (bytes : Bytes)
  | byte (b : UInt8)
  | chunk (bytes : Bytes)
  /-- The client's stream ends or fails. -/
  | eof
  /-- `lookup_host` and `connect`. -/
  | connect (ok : Bool)
  | reply (resp : Bytes)
  | request (req : Request) (calls : Calls)
  | close

variable {rx : RegexCrate} (cfg : Config rx) (lc : LocalCrates) (cr : SealingCrates) (sm : SessionManager)
  (clockAt : Nat → Clock) {κ : Type}

/-- Unknown names are refused, unless there is a catchall. -/
def admitsName (serverName : Option Str) : Bool := serverName.any cfg.isKnownDomain || cfg.catchall.isSome

/-- After the header peek of the TLS listener. -/
def afterHead (head : Bytes) : Task κ :=
  if isWs head then
    match cfg.siteForHost (wsHost head) with
    | some site => .connecting site.upstream head
    | none => .closed
  else .serving

/-- After the peek of the port_http listener. -/
def afterPeek (bytes : Bytes) : Task κ :=
  if isWs bytes then
    match cfg.siteForHost (wsHost bytes) with
    | some site => .buffering site.upstream []
    | none => .closed
  else .serving

/-- One step of the task of a connection. A step that panics is not taken:
it ends the process. -/
def act (c : Conn κ) (now : Nat) (log : List (Forward κ)) : Task κ → Step → Option (List (Forward κ) × Task κ)
  | .accepted, .hello alpnChallenge serverName =>
    if c.listener = .tls then
      some (log, if !alpnChallenge && admitsName cfg serverName then .reading [] else .closed)
    else none
  | .accepted, .peek bytes =>
    if c.listener = .http ∧ cfg.portHttp.isSome = true ∧ bytes.length ≤ 4096 then some (log, afterPeek cfg bytes)
    else none
  | .reading head, .byte b =>
    let head := head ++ [b]
    some (log, if Text.endsWith head endOfHead then afterHead cfg head else .reading head)
  | .reading head, .eof => some (log, afterHead cfg head)
  | .buffering u buf, .chunk bytes =>
    if 0 < bytes.length ∧ bytes.length ≤ 4096 then
      let buf := buf ++ bytes
      some (log, if Text.endsWith buf endOfHead then .connecting u buf else .buffering u buf)
    else none
  | .buffering u buf, .eof => some (log, .connecting u buf)
  | .connecting _ _, .connect false => some (log, .closed)
  | .connecting u buf, .connect true =>
    match rewritten c.listener buf u with
    | .ok text =>
      let f : Forward κ := { conn := c, request := headRequest buf, time := now, upstream := u, sent := .upgrade text }
      some (f :: log, .waiting f)
    | .error _ => none
  | .waiting f, .reply resp =>
    some (log, if (Text.bytes "HTTP/1.1 101".toList).isPrefixOf resp then .piping f else .closed)
  | .piping f, .chunk bytes => some ({ f with sent := .piped bytes } :: log, .piping f)
  | .piping _, .eof => some (log, .closed)
  | .serving, .request req calls =>
    match Handle.handle cfg lc cr sm { calls with clock := clockAt now } c.peerIp req with
    | .ok h =>
      match h.reply with
      | .answer _ => some (log, .serving)
      | .proxy u _ _ =>
        some ({ conn := c, request := req, time := now, upstream := u, sent := .proxied } :: log, .serving)
    | .error _ => none
  | .serving, .eof => some (log, .closed)
  | .waiting _, .close => some (log, .closed)
  | .piping _, .close => some (log, .closed)
  | _, _ => none

def start (clock : Nat) : Cluster (Conn κ) (List (Forward κ)) (Task κ) where
  clock := clock
  shared := []
  proc := fun _ => .accepted

/-- What lets a request through `handle`. -/
def Admitted (peerIp : IpAddr) (req : Request) (clock : Clock) : Prop :=
  (∃ cookie, Handle.sessionCookie sm req = some cookie ∧ sm.Accepts cr cookie (Handle.realIp peerIp req) clock) ∨
    Handle.realIp peerIp req ∈ cfg.whitelist ∨ Handle.bypassMatch cfg req = true

/-- The request was one to let through when it was. -/
def Forward.Admitted (f : Forward κ) : Prop :=
  Edge.Admitted cfg cr sm f.conn.peerIp f.request (clockAt f.time)

/-- An upgrade is connected to its upstream for a request to let through. -/
def Gated (c : Conn κ) (now : Nat) (_ : List (Forward κ)) : Task κ → Step → Prop
  | .connecting _ buf, .connect true => Edge.Admitted cfg cr sm c.peerIp (headRequest buf) (clockAt now)
  | _, _ => True

end NekoGuard.Edge
