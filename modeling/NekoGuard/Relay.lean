/-
main.rs: a WebSocket upgrade to its end, byte for byte, in the TLS branch of
`main_inner` and in `proxy_ws_upgrade_buf`. The head of the request is read
and sent on rewritten; the head of the answer is read and sent back; then
two copies run side by side. Reads and writes take as much as they like,
either end may close or fail at any point, and the steps of the two copies
come in any order. What each end gets is what the other one sent
(`relay_faithful`); but what a client of `port_http` sends on behind its
head before it is answered is read with the head, and lost.
-/
import NekoGuard.Edge
import NekoGuard.Lib.Pipe
import NekoGuard.Samples

namespace NekoGuard.Relay

open Lib Edge

/-- From the client to the upstream, or back. -/
inductive Dir where
  | up
  | down
deriving DecidableEq, Repr

/-- One direction: its bytes, and how its copy goes. -/
structure Lane where
  pipe : Pipe UInt8
  /-- The source has come to its end. -/
  ended : Bool
  /-- The copy has returned an error. -/
  failed : Bool
  /-- A write to the sink has failed. -/
  broken : Bool
deriving DecidableEq, Repr

/-- The copy has returned. -/
def Lane.Over (l : Lane) : Prop := l.failed = true ∨ l.ended = true ∧ l.pipe.held = []

instance (l : Lane) : Decidable l.Over := inferInstanceAs (Decidable (_ ∨ _))

inductive Stage where
  | accepted
  /-- The header peek of the TLS listener. -/
  | reading (head : Bytes)
  /-- `proxy_ws_upgrade_buf`, reading. -/
  | buffering (upstream : Str) (buf : Bytes)
  | connecting (upstream : Str) (buf : Bytes)
  /-- The rewritten request is being written. -/
  | sending
  /-- For the head of the answer. -/
  | waiting
  /-- `resp_buf` is being written. -/
  | answering
  | piping
  /-- Both copies have returned. -/
  | finished
  /-- Given to hyper. -/
  | served
  | closed
deriving DecidableEq, Repr

structure State where
  up : Lane
  down : Lane
  stage : Stage
deriving DecidableEq, Repr

def State.lane (s : State) : Dir → Lane
  | .up => s.up
  | .down => s.down

def State.setLane (s : State) (l : Lane) : Dir → State
  | .up => { s with up := l }
  | .down => { s with down := l }

inductive Event where
  | hello (alpnChallenge : Bool) (serverName : Option Str)
  | peek (n : Nat)
  | read (d : Dir) (n : Nat)
  /-- A read finds the end of the stream, or fails. -/
  | eof (d : Dir) (ok : Bool)
  | write (d : Dir) (n : Nat)
  | writeFails (d : Dir)
  /-- `lookup_host` and `connect`. -/
  | connect (ok : Bool)
  /-- `join!` is done. -/
  | join
deriving DecidableEq, Repr

/-- `DEFAULT_BUF_SIZE` of `tokio::io::copy`. -/
def copyBuf : Nat := 8 * 1024

/-- A task of the listener, as a stage of its connection. -/
def resume : Edge.Task Unit → Stage
  | .buffering u buf => .buffering u buf
  | .connecting u buf => .connecting u buf
  | .serving => .served
  | _ => .closed

/-- A read of a lane gives these bytes. -/
def Lane.Reads (l : Lane) (room n : Nat) : Prop := 0 < n ∧ n ≤ room ∧ n ≤ l.pipe.unread.length

instance (l : Lane) (room n : Nat) : Decidable (l.Reads room n) := inferInstanceAs (Decidable (_ ∧ _))

/-- The end of a stream is found once everything is read. -/
def Lane.Ends (l : Lane) (ok : Bool) : Prop := ok = true → l.pipe.unread = []

instance (l : Lane) (ok : Bool) : Decidable (l.Ends ok) := inferInstanceAs (Decidable (_ → _))

def Lane.Writes (l : Lane) (n : Nat) : Prop := 0 < n ∧ n ≤ l.pipe.held.length ∧ l.broken = false

instance (l : Lane) (n : Nat) : Decidable (l.Writes n) := inferInstanceAs (Decidable (_ ∧ _))

def Lane.take (l : Lane) (n : Nat) : Lane := { l with pipe := l.pipe.replace n [] }

def Lane.read (l : Lane) (n : Nat) : Lane := { l with pipe := l.pipe.read n }

def Lane.write (l : Lane) (n : Nat) : Lane := { l with pipe := l.pipe.write n }

/-- `HTTP/1.1 101`. -/
def switching : Bytes := Text.bytes "HTTP/1.1 101".toList

/-- `resp_buf.windows(4).any(|w| w == b"\r\n\r\n")`. -/
def hasEnd (resp : Bytes) : Bool := resp.tails.any endOfHead.isPrefixOf

/-- The head of the answer has come to its end. -/
def afterReply (resp : Bytes) : Stage := if switching.isPrefixOf resp then .answering else .closed

variable {rx : RegexCrate} (cfg : Config rx) (l : Listener)

def step : Machine State Event := fun s ev =>
  match s.stage, ev with
  | .accepted, .hello alpnChallenge serverName =>
    if l = .tls then
      some { s with stage := if !alpnChallenge && admitsName cfg serverName then .reading [] else .closed }
    else none
  | .accepted, .peek n =>
    if l = .http ∧ cfg.portHttp.isSome = true ∧ n ≤ 4096 then
      some { s with stage := resume (afterPeek cfg (s.up.pipe.unread.take n)) }
    else none
  | .reading head, .read .up n =>
    if s.up.Reads 1 n then
      let head := head ++ s.up.pipe.unread.take n
      some { s with
        up := s.up.take n
        stage := if Text.endsWith head endOfHead then resume (afterHead cfg head) else .reading head }
    else none
  | .reading head, .eof .up ok => if s.up.Ends ok then some { s with stage := resume (afterHead cfg head) } else none
  | .buffering u buf, .read .up n =>
    if s.up.Reads 4096 n then
      let buf := buf ++ s.up.pipe.unread.take n
      some { s with
        up := s.up.take n
        stage := if Text.endsWith buf endOfHead then .connecting u buf else .buffering u buf }
    else none
  | .buffering u buf, .eof .up ok => if s.up.Ends ok then some { s with stage := .connecting u buf } else none
  | .connecting _ _, .connect false => some { s with stage := .closed }
  | .connecting u buf, .connect true =>
    match rewritten l buf u with
    | .ok text => some { s with up := { s.up with pipe := s.up.pipe.replace 0 (Text.bytes text) }, stage := .sending }
    | .error _ => none
  | .sending, .write .up n =>
    if s.up.Writes n then
      some { s with up := s.up.write n, stage := if (s.up.write n).pipe.held = [] then .waiting else .sending }
    else none
  | .sending, .writeFails .up => some { s with up := { s.up with broken := true }, stage := .closed }
  | .waiting, .read .down n =>
    if s.down.Reads 1024 n then
      let resp := (s.down.read n).pipe.held
      some { s with down := s.down.read n, stage := if hasEnd resp then afterReply resp else .waiting }
    else none
  | .waiting, .eof .down ok => if s.down.Ends ok then some { s with stage := .closed } else none
  | .answering, .write .down n =>
    if s.down.Writes n then
      some { s with down := s.down.write n, stage := if (s.down.write n).pipe.held = [] then .piping else .answering }
    else none
  -- Only `proxy_ws_upgrade_buf` looks at the error; the copy goes on without `resp_buf`.
  | .answering, .writeFails .down =>
    match l with
    | .http => some { s with down := { s.down with broken := true }, stage := .closed }
    | .tls => some { s with
        down := { s.down with broken := true, pipe := { s.down.pipe with held := [] } }, stage := .piping }
  | .piping, .read d n =>
    if (s.lane d).failed = false ∧ (s.lane d).ended = false ∧
        (s.lane d).Reads (copyBuf - (s.lane d).pipe.held.length) n then
      some (s.setLane ((s.lane d).read n) d)
    else none
  | .piping, .eof d true =>
    if (s.lane d).failed = false ∧ (s.lane d).ended = false ∧ (s.lane d).Ends true then
      some (s.setLane { s.lane d with ended := true } d)
    else none
  | .piping, .eof d false =>
    if (s.lane d).failed = false ∧ (s.lane d).ended = false then
      some (s.setLane { s.lane d with failed := true } d)
    else none
  | .piping, .write d n =>
    if (s.lane d).failed = false ∧ (s.lane d).Writes n then some (s.setLane ((s.lane d).write n) d) else none
  | .piping, .writeFails d =>
    if (s.lane d).failed = false then some (s.setLane { s.lane d with failed := true, broken := true } d) else none
  | .piping, .join => if s.up.Over ∧ s.down.Over then some { s with stage := .finished } else none
  | _, _ => none

def Lane.source (bytes : Bytes) : Lane := { pipe := .source bytes, ended := false, failed := false, broken := false }

/-- A client that is to send `fromClient`, and an upstream that is to send
`fromUpstream` once it is connected. -/
def start (fromClient fromUpstream : Bytes) : State where
  up := .source fromClient
  down := .source fromUpstream
  stage := .accepted

/-! ## What a step can do -/

inductive Move (cfg : Config rx) (l : Listener) (s : State) : Event → State → Prop where
  | hello (alpnChallenge : Bool) (serverName : Option Str) (hs : s.stage = .accepted) (hl : l = .tls) :
      Move cfg l s (.hello alpnChallenge serverName)
        { s with stage := if !alpnChallenge && admitsName cfg serverName then .reading [] else .closed }
  | peek (n : Nat) (hs : s.stage = .accepted) (hl : l = .http) :
      Move cfg l s (.peek n) { s with stage := resume (afterPeek cfg (s.up.pipe.unread.take n)) }
  | head {head : Bytes} {n : Nat} (hs : s.stage = .reading head) (hr : s.up.Reads 1 n) :
      Move cfg l s (.read .up n) { s with
        up := s.up.take n
        stage := if Text.endsWith (head ++ s.up.pipe.unread.take n) endOfHead then
            resume (afterHead cfg (head ++ s.up.pipe.unread.take n))
          else .reading (head ++ s.up.pipe.unread.take n) }
  | headEof {head : Bytes} (ok : Bool) (hs : s.stage = .reading head) :
      Move cfg l s (.eof .up ok) { s with stage := resume (afterHead cfg head) }
  | chunk {u : Str} {buf : Bytes} {n : Nat} (hs : s.stage = .buffering u buf) (hr : s.up.Reads 4096 n) :
      Move cfg l s (.read .up n) { s with
        up := s.up.take n
        stage := if Text.endsWith (buf ++ s.up.pipe.unread.take n) endOfHead then
            .connecting u (buf ++ s.up.pipe.unread.take n)
          else .buffering u (buf ++ s.up.pipe.unread.take n) }
  | chunkEof {u : Str} {buf : Bytes} (ok : Bool) (hs : s.stage = .buffering u buf) :
      Move cfg l s (.eof .up ok) { s with stage := .connecting u buf }
  | refused {u : Str} {buf : Bytes} (hs : s.stage = .connecting u buf) :
      Move cfg l s (.connect false) { s with stage := .closed }
  | connected {u : Str} {buf : Bytes} {text : Str} (hs : s.stage = .connecting u buf)
      (htext : rewritten l buf u = .ok text) :
      Move cfg l s (.connect true)
        { s with up := { s.up with pipe := s.up.pipe.replace 0 (Text.bytes text) }, stage := .sending }
  | send {n : Nat} (hs : s.stage = .sending) :
      Move cfg l s (.write .up n)
        { s with up := s.up.write n, stage := if (s.up.write n).pipe.held = [] then .waiting else .sending }
  | sendFails (hs : s.stage = .sending) :
      Move cfg l s (.writeFails .up) { s with up := { s.up with broken := true }, stage := .closed }
  | reply {n : Nat} (hs : s.stage = .waiting) :
      Move cfg l s (.read .down n) { s with
        down := s.down.read n
        stage := if hasEnd (s.down.read n).pipe.held then afterReply (s.down.read n).pipe.held else .waiting }
  | replyEof (ok : Bool) (hs : s.stage = .waiting) : Move cfg l s (.eof .down ok) { s with stage := .closed }
  | answer {n : Nat} (hs : s.stage = .answering) (hw : s.down.Writes n) :
      Move cfg l s (.write .down n)
        { s with down := s.down.write n, stage := if (s.down.write n).pipe.held = [] then .piping else .answering }
  | answerFails (hs : s.stage = .answering) (hl : l = .http) :
      Move cfg l s (.writeFails .down) { s with down := { s.down with broken := true }, stage := .closed }
  | answerLost (hs : s.stage = .answering) (hl : l = .tls) :
      Move cfg l s (.writeFails .down) { s with
        down := { s.down with broken := true, pipe := { s.down.pipe with held := [] } }, stage := .piping }
  | copyRead {d : Dir} {n : Nat} (hs : s.stage = .piping) (hended : (s.lane d).ended = false) :
      Move cfg l s (.read d n) (s.setLane ((s.lane d).read n) d)
  | copyEof {d : Dir} (hs : s.stage = .piping) (hnone : (s.lane d).pipe.unread = []) :
      Move cfg l s (.eof d true) (s.setLane { s.lane d with ended := true } d)
  | copyReadFails {d : Dir} (hs : s.stage = .piping) :
      Move cfg l s (.eof d false) (s.setLane { s.lane d with failed := true } d)
  | copyWrite {d : Dir} {n : Nat} (hs : s.stage = .piping) (hw : (s.lane d).Writes n) :
      Move cfg l s (.write d n) (s.setLane ((s.lane d).write n) d)
  | copyWriteFails {d : Dir} (hs : s.stage = .piping) :
      Move cfg l s (.writeFails d) (s.setLane { s.lane d with failed := true, broken := true } d)
  | join (hs : s.stage = .piping) (hup : s.up.Over) (hdown : s.down.Over) :
      Move cfg l s .join { s with stage := .finished }

variable {cfg l} {s t : State} {ev : Event}

theorem step_move (h : step cfg l s ev = some t) : Move cfg l s ev t := by
  unfold step at h
  split at h
  case h_1 hs =>
    split at h
    · next hl => cases h; exact .hello _ _ hs hl
    · cases h
  case h_2 hs =>
    split at h
    · next hl => cases h; exact .peek _ hs hl.1
    · cases h
  case h_3 hs =>
    split at h
    · next hr => cases h; exact .head hs hr
    · cases h
  case h_4 hs =>
    split at h
    · cases h; exact .headEof _ hs
    · cases h
  case h_5 hs =>
    split at h
    · next hr => cases h; exact .chunk hs hr
    · cases h
  case h_6 hs =>
    split at h
    · cases h; exact .chunkEof _ hs
    · cases h
  case h_7 hs => cases h; exact .refused hs
  case h_8 hs =>
    split at h
    · next htext => cases h; exact .connected hs htext
    · cases h
  case h_9 hs =>
    split at h
    · cases h; exact .send hs
    · cases h
  case h_10 hs => cases h; exact .sendFails hs
  case h_11 hs =>
    split at h
    · cases h; exact .reply hs
    · cases h
  case h_12 hs =>
    split at h
    · cases h; exact .replyEof _ hs
    · cases h
  case h_13 hs =>
    split at h
    · next hw => cases h; exact .answer hs hw
    · cases h
  case h_14 hs =>
    cases l with
    | http => cases h; exact .answerFails hs rfl
    | tls => cases h; exact .answerLost hs rfl
  case h_15 hs =>
    split at h
    · next hc => cases h; exact .copyRead hs hc.2.1
    · cases h
  case h_16 hs =>
    split at h
    · next hc => cases h; exact .copyEof hs (hc.2.2 rfl)
    · cases h
  case h_17 hs =>
    split at h
    · cases h; exact .copyReadFails hs
    · cases h
  case h_18 hs =>
    split at h
    · next hc => cases h; exact .copyWrite hs hc.2
    · cases h
  case h_19 hs =>
    split at h
    · cases h; exact .copyWriteFails hs
    · cases h
  case h_20 hs =>
    split at h
    · next hc => cases h; exact .join hs hc.1 hc.2
    · cases h
  case h_21 => cases h

/-! ## What holds at every step -/

/-- What `proxy_ws_upgrade_buf` has read so far. -/
def Stage.buffered : Stage → Option Bytes
  | .buffering _ buf => some buf
  | _ => none

/-- How many of the client's bytes an event takes at most. -/
def Event.taken : Event → Nat
  | .read .up n => n
  | _ => 0

/-- The client waits for its answer: no read of `proxy_ws_upgrade_buf` goes
past the head. -/
def Waits (s : State) (ev : Event) : Prop :=
  ∀ buf ∈ s.stage.buffered, ∀ i < ev.taken, Text.endsWith (buf ++ s.up.pipe.unread.take i) endOfHead = false

instance (s : State) (ev : Event) : Decidable (Waits s ev) := inferInstanceAs (Decidable (∀ buf ∈ _, ∀ i < _, _))

/-- Which request the client's bytes are to the listener: what of them was
read as its head, and the upstream of the site they name. -/
structure Routed (cfg : Config rx) (l : Listener) (bytes buf : Bytes) (u : Str) : Prop where
  site : ∃ head site, (match l with
      | .tls => head = buf
      | .http => head <+: bytes) ∧
    isWs head = true ∧ cfg.siteForHost (wsHost head) = some site ∧ site.upstream = u
  /-- No more was read than the head. -/
  head : ∀ i < buf.length, Text.endsWith (buf.take i) endOfHead = false

/-- The client's bytes, as the upstream is to get them. -/
def Upgraded (cfg : Config rx) (l : Listener) (bytes out : Bytes) : Prop :=
  ∃ buf rest u text, bytes = buf ++ rest ∧ Routed cfg l bytes buf u ∧ rewritten l buf u = .ok text ∧
    out = Text.bytes text ++ rest

/-- What holds of the client's bytes at each stage. -/
def Going (cfg : Config rx) (l : Listener) (bytes : Bytes) : Stage → Pipe UInt8 → Prop
  | .accepted, p => p = .source bytes
  | .reading head, p => l = .tls ∧ (∃ rest, p = .source rest ∧ bytes = head ++ rest) ∧
      ∀ i ≤ head.length, Text.endsWith (head.take i) endOfHead = false
  | .buffering u buf, p => l = .http ∧ Text.endsWith buf endOfHead = false ∧
      (∃ rest, p = .source rest ∧ bytes = buf ++ rest) ∧ Routed cfg l bytes buf u
  | .connecting u buf, p => (∃ rest, p = .source rest ∧ bytes = buf ++ rest) ∧ Routed cfg l bytes buf u
  | .served, p | .closed, p => p.sent = [] ∨ Upgraded cfg l bytes p.all
  | .sending, p | .waiting, p | .answering, p | .piping, p | .finished, p => Upgraded cfg l bytes p.all

/-- Nothing has been written to the client yet. -/
def Stage.silent : Stage → Bool
  | .answering | .piping | .finished | .closed => false
  | _ => true

/-- What holds of the upstream's. -/
structure Coming (bytes : Bytes) (s : State) : Prop where
  sent : s.down.pipe.sent <+: bytes
  all : s.down.broken = false → s.down.pipe.all = bytes
  silent : s.stage.silent = true → s.down.pipe.sent = [] ∧ s.down.broken = false
  switched : s.down.pipe.sent = [] ∧ (s.stage.silent = true ∨ s.stage = .closed) ∨ switching <+: bytes

variable {fromClient fromUpstream bytes : Bytes} {evs : List Event}

/-- Where the listener goes once it has the head. -/
theorem resume_afterHead (cfg : Config rx) (head : Bytes) :
    resume (afterHead cfg head) = .served ∨ resume (afterHead cfg head) = .closed ∨
      ∃ site, isWs head = true ∧ cfg.siteForHost (wsHost head) = some site ∧
        resume (afterHead cfg head) = .connecting site.upstream head := by
  unfold afterHead
  split
  · next hws =>
    cases hsite : cfg.siteForHost (wsHost head) with
    | none => exact .inr (.inl rfl)
    | some site => exact .inr (.inr ⟨site, hws, rfl, rfl⟩)
  · exact .inl rfl

theorem resume_afterPeek (cfg : Config rx) (head : Bytes) :
    resume (afterPeek cfg head) = .served ∨ resume (afterPeek cfg head) = .closed ∨
      ∃ site, isWs head = true ∧ cfg.siteForHost (wsHost head) = some site ∧
        resume (afterPeek cfg head) = .buffering site.upstream [] := by
  unfold afterPeek
  split
  · next hws =>
    cases hsite : cfg.siteForHost (wsHost head) with
    | none => exact .inr (.inl rfl)
    | some site => exact .inr (.inr ⟨site, hws, rfl, rfl⟩)
  · exact .inl rfl

/-- The head is read, and nothing of it was sent. -/
theorem going_afterHead {head rest : Bytes} (hl : l = .tls) (hbytes : bytes = head ++ rest)
    (hhead : ∀ i < head.length, Text.endsWith (head.take i) endOfHead = false) :
    Going cfg l bytes (resume (afterHead cfg head)) (.source rest) := by
  rcases resume_afterHead cfg head with hstage | hstage | ⟨site, hws, hsite, hstage⟩ <;> rw [hstage]
  · exact .inl rfl
  · exact .inl rfl
  · subst hl
    exact ⟨⟨rest, rfl, hbytes⟩, ⟨head, site, rfl, hws, hsite, rfl⟩, hhead⟩

theorem replace_source (rest : Bytes) (n : Nat) (xs : Bytes) :
    (Pipe.source rest).replace n xs = { unread := rest.drop n, held := xs, sent := [] } := by
  simp [Pipe.replace, Pipe.source]

/-- One byte more, and still no end of the head before it. -/
theorem take_snoc_not_end {head next : Bytes} (hnext : next.length ≤ 1)
    (hhead : ∀ i ≤ head.length, Text.endsWith (head.take i) endOfHead = false) :
    ∀ i < (head ++ next).length, Text.endsWith ((head ++ next).take i) endOfHead = false := by
  intro i hi
  rw [List.length_append] at hi
  rw [List.take_append_of_le_length (by omega)]
  exact hhead i (by omega)

/-- A read that does not go past the head. -/
theorem Routed.chunk {buf rest : Bytes} {u : Str} {n : Nat} (h : Routed cfg .http bytes buf u)
    (hwaits : ∀ i < n, Text.endsWith (buf ++ rest.take i) endOfHead = false) :
    Routed cfg .http bytes (buf ++ rest.take n) u := by
  refine ⟨h.site, fun i hi => ?_⟩
  rw [List.length_append, List.length_take] at hi
  by_cases hbuf : i < buf.length
  · rw [List.take_append_of_le_length (Nat.le_of_lt hbuf)]
    exact h.head i hbuf
  · have htake : (buf ++ rest.take n).take i = buf ++ rest.take (i - buf.length) := by
      rw [List.take_append, List.take_of_length_le (Nat.le_of_not_lt hbuf), List.take_take,
        Nat.min_eq_left (by omega)]
    rw [htake]
    exact hwaits _ (by omega)

theorem Upgraded.piping {p : Pipe UInt8} (h : Upgraded cfg l bytes p.all) {q : Pipe UInt8} (hq : q.all = p.all) :
    Upgraded cfg l bytes q.all := hq ▸ h

@[simp] theorem lane_setLane_self (s : State) (lane : Lane) (d : Dir) : (s.setLane lane d).lane d = lane := by
  cases d <;> rfl

@[simp] theorem setLane_stage (s : State) (lane : Lane) (d : Dir) : (s.setLane lane d).stage = s.stage := by
  cases d <;> rfl

/-- What a copy does to its lane leaves the bytes of both. -/
theorem setLane_all (s : State) {lane : Lane} (d : Dir) (h : lane.pipe.all = (s.lane d).pipe.all) :
    (s.setLane lane d).up.pipe.all = s.up.pipe.all ∧ (s.setLane lane d).down.pipe.all = s.down.pipe.all := by
  cases d with
  | up => exact ⟨h, rfl⟩
  | down => exact ⟨rfl, h⟩

theorem Going.copy (h : Going cfg l bytes s.stage s.up.pipe) (hs : s.stage = .piping) {lane : Lane} {d : Dir}
    (hlane : lane.pipe.all = (s.lane d).pipe.all) :
    Going cfg l bytes (s.setLane lane d).stage (s.setLane lane d).up.pipe := by
  rw [setLane_stage]
  rw [hs] at h ⊢
  exact Upgraded.piping h (setLane_all s d hlane).1

theorem step_going (hwaits : Waits s ev) (h : Going cfg l bytes s.stage s.up.pipe)
    (hstep : step cfg l s ev = some t) : Going cfg l bytes t.stage t.up.pipe := by
  cases step_move hstep with
  | hello alpnChallenge serverName hs hl =>
    rw [hs] at h
    simp only
    split
    · exact ⟨hl, ⟨bytes, h, rfl⟩, fun i _ => by rw [List.take_nil]; rfl⟩
    · exact .inl (by rw [h]; rfl)
  | peek n hs hl =>
    rw [hs] at h
    have hsent : s.up.pipe.sent = [] := by rw [h]; rfl
    simp only
    rcases resume_afterPeek cfg (s.up.pipe.unread.take n) with hstage | hstage | ⟨site, hws, hsite, hstage⟩ <;>
      rw [hstage]
    · exact .inl hsent
    · exact .inl hsent
    · have hprefix : s.up.pipe.unread.take n <+: bytes := by
        rw [h]
        exact List.take_prefix n bytes
      subst hl
      exact ⟨rfl, rfl, ⟨bytes, h, rfl⟩, ⟨_, site, hprefix, hws, hsite, rfl⟩, nofun⟩
  | @head head n hs hr =>
    rw [hs] at h
    obtain ⟨hl, ⟨rest, hpipe, hbytes⟩, hhead⟩ := h
    have hnext : (rest.take n).length ≤ 1 := Nat.le_trans (List.length_take_le n rest) hr.2.1
    have hpast := take_snoc_not_end hnext hhead
    have hsplit : bytes = head ++ rest.take n ++ rest.drop n := by
      rw [hbytes, List.append_assoc, List.take_append_drop]
    simp only [Lane.take, hpipe, replace_source]
    split
    · exact going_afterHead hl hsplit hpast
    · next hend =>
      refine ⟨hl, ⟨rest.drop n, rfl, hsplit⟩, fun i hi => ?_⟩
      rcases Nat.lt_or_eq_of_le hi with hi | rfl
      · exact hpast i hi
      · rw [List.take_length]
        simpa using hend
  | @headEof head ok hs =>
    rw [hs] at h
    obtain ⟨hl, ⟨rest, hpipe, hbytes⟩, hhead⟩ := h
    simp only [hpipe]
    exact going_afterHead hl hbytes fun i hi => hhead i (Nat.le_of_lt hi)
  | @chunk u buf n hs hr =>
    rw [hs] at h
    obtain ⟨hl, -, ⟨rest, hpipe, hbytes⟩, hrouted⟩ := h
    subst hl
    have hsplit : bytes = buf ++ rest.take n ++ rest.drop n := by
      rw [hbytes, List.append_assoc, List.take_append_drop]
    have hhead : ∀ i < n, Text.endsWith (buf ++ rest.take i) endOfHead = false := by
      have hread := hwaits buf (by rw [hs]; rfl)
      rwa [hpipe] at hread
    simp only [Lane.take, hpipe, replace_source]
    split
    · exact ⟨⟨rest.drop n, rfl, hsplit⟩, hrouted.chunk hhead⟩
    · next hend => exact ⟨rfl, by simpa [Pipe.source] using hend, ⟨rest.drop n, rfl, hsplit⟩, hrouted.chunk hhead⟩
  | chunkEof ok hs =>
    rw [hs] at h
    exact h.2.2
  | refused hs =>
    rw [hs] at h
    obtain ⟨⟨rest, hpipe, -⟩, -⟩ := h
    exact .inl (by rw [hpipe]; rfl)
  | @connected u buf text hs htext =>
    rw [hs] at h
    obtain ⟨⟨rest, hpipe, hbytes⟩, hrouted⟩ := h
    simp only [hpipe, replace_source, List.drop_zero]
    exact ⟨buf, rest, u, text, hbytes, hrouted, htext, rfl⟩
  | @send n hs =>
    rw [hs] at h
    have hsent := Upgraded.piping h (Pipe.all_write s.up.pipe n)
    simp only
    split <;> exact hsent
  | sendFails hs =>
    rw [hs] at h
    exact .inr h
  | reply hs =>
    rw [hs] at h
    simp only
    split
    · unfold afterReply
      split
      · exact h
      · exact .inr h
    · exact h
  | replyEof ok hs =>
    rw [hs] at h
    exact .inr h
  | answer hs hw =>
    rw [hs] at h
    simp only
    split <;> exact h
  | answerFails hs hl =>
    rw [hs] at h
    exact .inr h
  | answerLost hs hl =>
    rw [hs] at h
    exact h
  | copyRead hs hended => exact h.copy hs (Pipe.all_read _ _)
  | copyEof hs hnone => exact h.copy hs rfl
  | copyReadFails hs => exact h.copy hs rfl
  | copyWrite hs hw => exact h.copy hs (Pipe.all_write _ _)
  | copyWriteFails hs => exact h.copy hs rfl
  | join hs hup hdown =>
    rw [hs] at h
    exact h

theorem source_coming (bytes : Bytes) (h : s.down = .source bytes) (hs : s.stage.silent = true) :
    Coming bytes s where
  sent := by rw [h]; exact List.nil_prefix
  all _ := by rw [h]; rfl
  silent _ := by rw [h]; exact ⟨rfl, rfl⟩
  switched := .inl ⟨by rw [h]; rfl, .inl hs⟩

/-- Nothing comes down, and the stage does not have it that something did. -/
theorem Coming.still (h : Coming bytes s) (hdown : t.down = s.down)
    (hs : s.stage.silent = true) (ht : t.stage.silent = true ∨ t.stage = .closed) : Coming bytes t := by
  obtain ⟨hsent, hbroken⟩ := h.silent hs
  refine ⟨by rw [hdown]; exact h.sent, ?_, fun _ => by rw [hdown]; exact ⟨hsent, hbroken⟩,
    .inl ⟨by rw [hdown]; exact hsent, ht⟩⟩
  intro hb
  rw [hdown]
  exact h.all hbroken

theorem resume_silent (task : Edge.Task Unit) : (resume task).silent = true ∨ resume task = .closed := by
  cases task <;> simp [resume, Stage.silent]

/-- A copy, or the end of one, once the answer was sent. -/
theorem Coming.copy (h : Coming bytes s) (hs : s.stage = .piping ∨ s.stage = .answering)
    (hsent : t.down.pipe.sent <+: bytes) (hall : t.down.broken = false → t.down.pipe.all = bytes)
    (ht : t.stage.silent = false) : Coming bytes t := by
  have hswitched : switching <+: bytes := by
    rcases h.switched with ⟨-, hsilent⟩ | hswitched
    · rcases hs with hs | hs <;> simp [hs, Stage.silent] at hsilent
    · exact hswitched
  exact ⟨hsent, hall, fun hsilent => absurd hsilent (by simp [ht]), .inr hswitched⟩

theorem setLane_down (s : State) (lane : Lane) (d : Dir) :
    (s.setLane lane d).down = if d = .down then lane else s.down := by
  cases d <;> rfl

/-- Where a copy leaves the bytes of its lane, or breaks it. -/
theorem Coming.lane (h : Coming bytes s) (hs : s.stage = .piping) {lane : Lane} {d : Dir}
    (hsent : (s.lane d).broken = false → lane.pipe.all = (s.lane d).pipe.all)
    (hbroken : (s.lane d).broken = true → lane.pipe.sent = (s.lane d).pipe.sent ∧ lane.broken = true)
    (hkeep : lane.broken = false → (s.lane d).broken = false) : Coming bytes (s.setLane lane d) := by
  cases d with
  | up => exact h.copy (.inl hs) h.sent h.all (by rw [setLane_stage, hs]; rfl)
  | down =>
    refine h.copy (.inl hs) ?_ (fun hb => ?_) (by rw [setLane_stage, hs]; rfl)
    · show lane.pipe.sent <+: bytes
      cases hb : s.down.broken with
      | false => exact Pipe.sent_prefix_of_all ((hsent hb).trans (h.all hb))
      | true =>
        rw [(hbroken hb).1]
        exact h.sent
    · have hb := hkeep hb
      exact (hsent hb).trans (h.all hb)

theorem step_coming (h : Coming bytes s) (hstep : step cfg l s ev = some t) : Coming bytes t := by
  cases step_move hstep with
  | hello alpnChallenge serverName hs hl =>
    refine h.still rfl (by rw [hs]; rfl) ?_
    simp only
    split
    · exact .inl rfl
    · exact .inr rfl
  | peek n hs hl => exact h.still rfl (by rw [hs]; rfl) (resume_silent _)
  | head hs hr =>
    refine h.still rfl (by rw [hs]; rfl) ?_
    simp only
    split
    · exact resume_silent _
    · exact .inl rfl
  | headEof ok hs => exact h.still rfl (by rw [hs]; rfl) (resume_silent _)
  | chunk hs hr =>
    refine h.still rfl (by rw [hs]; rfl) ?_
    simp only
    split <;> exact .inl rfl
  | chunkEof ok hs => exact h.still rfl (by rw [hs]; rfl) (.inl rfl)
  | refused hs => exact h.still rfl (by rw [hs]; rfl) (.inr rfl)
  | connected hs htext => exact h.still rfl (by rw [hs]; rfl) (.inl rfl)
  | send hs =>
    refine h.still rfl (by rw [hs]; rfl) ?_
    simp only
    split <;> exact .inl rfl
  | sendFails hs => exact h.still rfl (by rw [hs]; rfl) (.inr rfl)
  | @reply n hs =>
    obtain ⟨hsent, hbroken⟩ := h.silent (by rw [hs]; rfl)
    have hall : (s.down.read n).pipe.all = bytes := (Pipe.all_read _ n).trans (h.all hbroken)
    have hsent' : (s.down.read n).pipe.sent = [] := hsent
    refine ⟨by rw [hsent']; exact List.nil_prefix, fun _ => hall, fun _ => ⟨hsent', hbroken⟩, ?_⟩
    simp only
    split
    · unfold afterReply
      split
      · next hswitch =>
        -- Nothing was sent, so what is held comes first.
        right
        rw [Pipe.all, hsent', List.nil_append] at hall
        have hheld := List.isPrefixOf_iff_prefix.mp hswitch
        rw [← hall]
        exact hheld.trans (List.prefix_append _ _)
      · exact .inl ⟨hsent', .inr rfl⟩
    · exact .inl ⟨hsent', .inl rfl⟩
  | replyEof ok hs => exact h.still rfl (by rw [hs]; rfl) (.inr rfl)
  | @answer n hs hw =>
    have hall : (s.down.write n).pipe.all = bytes := (Pipe.all_write _ n).trans (h.all hw.2.2)
    refine h.copy (.inr hs) (Pipe.sent_prefix_of_all hall) (fun _ => hall) ?_
    simp only
    split <;> rfl
  | answerFails hs hl => exact h.copy (.inr hs) h.sent (fun hb => by cases hb) rfl
  | answerLost hs hl => exact h.copy (.inr hs) h.sent (fun hb => by cases hb) rfl
  | copyRead hs hended => exact h.lane hs (fun _ => Pipe.all_read _ _) (fun hb => ⟨rfl, hb⟩) id
  | copyEof hs hnone => exact h.lane hs (fun _ => rfl) (fun hb => ⟨rfl, hb⟩) id
  | copyReadFails hs => exact h.lane hs (fun _ => rfl) (fun hb => ⟨rfl, hb⟩) id
  | copyWrite hs hw =>
    exact h.lane hs (fun _ => Pipe.all_write _ _) (fun hb => absurd hb (by simp [hw.2.2])) id
  | copyWriteFails hs => exact h.lane hs (fun _ => rfl) (fun _ => ⟨rfl, rfl⟩) (fun hb => by cases hb)
  | join hs hup hdown => exact h.copy (.inl hs) h.sent h.all rfl

/-- A source that has ended has been read. -/
def Lane.Drained (lane : Lane) : Prop := lane.ended = true → lane.pipe.unread = []

theorem Lane.Drained.read {lane : Lane} (h : lane.Drained) (n : Nat) : (lane.read n).Drained := fun hended => by
  simp [Lane.read, Pipe.read, h hended]

theorem Lane.Drained.replace {lane : Lane} (h : lane.Drained) (n : Nat) (xs : Bytes) :
    Lane.Drained { lane with pipe := lane.pipe.replace n xs } := fun hended => by
  simp [Pipe.replace, h hended]

theorem drained_setLane (h : s.up.Drained ∧ s.down.Drained) {lane : Lane} (d : Dir) (hlane : lane.Drained) :
    (s.setLane lane d).up.Drained ∧ (s.setLane lane d).down.Drained := by
  cases d with
  | up => exact ⟨hlane, h.2⟩
  | down => exact ⟨h.1, hlane⟩

theorem drained_lane (h : s.up.Drained ∧ s.down.Drained) (d : Dir) : (s.lane d).Drained := by
  cases d with
  | up => exact h.1
  | down => exact h.2

theorem step_drained (h : s.up.Drained ∧ s.down.Drained) (hstep : step cfg l s ev = some t) :
    t.up.Drained ∧ t.down.Drained := by
  cases step_move hstep with
  | head hs hr => exact ⟨h.1.replace _ _, h.2⟩
  | chunk hs hr => exact ⟨h.1.replace _ _, h.2⟩
  | connected hs htext => exact ⟨h.1.replace _ _, h.2⟩
  | reply hs => exact ⟨h.1, h.2.read _⟩
  | copyRead hs hended => exact drained_setLane h _ ((drained_lane h _).read _)
  | copyEof hs hnone => exact drained_setLane h _ fun _ => hnone
  | copyReadFails hs => exact drained_setLane h _ (drained_lane h _)
  | copyWrite hs hw => exact drained_setLane h _ (drained_lane h _)
  | copyWriteFails hs => exact drained_setLane h _ (drained_lane h _)
  | _ => exact h

theorem resume_ne_finished (task : Edge.Task Unit) : resume task ≠ .finished := by
  cases task <;> simp [resume]

/-- The copies are only joined once both have returned. -/
theorem step_over (hstep : step cfg l s ev = some t) (ht : t.stage = .finished) : t.up.Over ∧ t.down.Over := by
  cases step_move hstep with
  | join hs hup hdown => exact ⟨hup, hdown⟩
  | peek n hs hl => exact absurd ht (resume_ne_finished _)
  | headEof ok hs => exact absurd ht (resume_ne_finished _)
  | head hs hr =>
    simp only at ht
    split at ht
    · exact absurd ht (resume_ne_finished _)
    · cases ht
  | reply hs =>
    simp only [afterReply] at ht
    split_ifs at ht
  | hello alpnChallenge serverName hs hl =>
    simp only at ht
    split_ifs at ht
  | chunk hs hr =>
    simp only at ht
    split_ifs at ht
  | send hs =>
    simp only at ht
    split_ifs at ht
  | answer hs hw =>
    simp only at ht
    split_ifs at ht
  | copyRead hs hended => rw [setLane_stage, hs] at ht; cases ht
  | copyEof hs hnone => rw [setLane_stage, hs] at ht; cases ht
  | copyReadFails hs => rw [setLane_stage, hs] at ht; cases ht
  | copyWrite hs hw => rw [setLane_stage, hs] at ht; cases ht
  | copyWriteFails hs => rw [setLane_stage, hs] at ht; cases ht
  | _ => cases ht

/-! ## Runs -/

structure Sound (fromUpstream : Bytes) (s : State) : Prop where
  coming : Coming fromUpstream s
  drained : s.up.Drained ∧ s.down.Drained
  finished : s.stage = .finished → s.up.Over ∧ s.down.Over

theorem step_sound (h : Sound fromUpstream s) (hstep : step cfg l s ev = some t) : Sound fromUpstream t :=
  ⟨step_coming h.coming hstep, step_drained h.drained hstep, step_over hstep⟩

theorem run_sound (h : Machine.run (step cfg l) (start fromClient fromUpstream) evs = some t) :
    Sound fromUpstream t := by
  have hstart : Sound fromUpstream (start fromClient fromUpstream) :=
    ⟨source_coming _ rfl rfl, ⟨nofun, nofun⟩, nofun⟩
  exact Machine.run_invariant (fun _ _ _ hs ht => step_sound hs ht) hstart h

theorem run_going (hwaits : Machine.Along (step cfg l) Waits (start fromClient fromUpstream) evs)
    (h : Machine.run (step cfg l) (start fromClient fromUpstream) evs = some t) :
    Going cfg l fromClient t.stage t.up.pipe := by
  have hstart : Going cfg l fromClient (start fromClient fromUpstream).stage
      (start fromClient fromUpstream).up.pipe := rfl
  exact Machine.run_invariant_along (I := fun s => Going cfg l fromClient s.stage s.up.pipe)
    (fun _ _ _ hw hs ht => step_going hw hs ht) hwaits hstart h

/-- A copy that returns without an error has passed on everything. -/
theorem Lane.all_sent {lane : Lane} (hdrained : lane.Drained) (hover : lane.Over) (hfailed : lane.failed = false) :
    lane.pipe.sent = lane.pipe.all := by
  rcases hover with hfails | ⟨hended, hheld⟩
  · rw [hfailed] at hfails
    cases hfails
  · exact lane.pipe.sent_eq_all hheld (hdrained hended)

/-- What the upstream has got before its request is complete is nothing. -/
theorem Going.sent {stage : Stage} {p : Pipe UInt8} (h : Going cfg l bytes stage p) :
    p.sent = [] ∨ Upgraded cfg l bytes p.all := by
  unfold Going at h
  split at h
  · exact .inl (by rw [h]; rfl)
  · obtain ⟨-, ⟨rest, hpipe, -⟩, -⟩ := h
    exact .inl (by rw [hpipe]; rfl)
  · obtain ⟨-, -, ⟨rest, hpipe, -⟩, -⟩ := h
    exact .inl (by rw [hpipe]; rfl)
  · obtain ⟨⟨rest, hpipe, -⟩, -⟩ := h
    exact .inl (by rw [hpipe]; rfl)
  · exact h
  · exact h
  all_goals exact .inr h

def upgradeHead : Bytes := Text.bytes "GET /ws HTTP/1.1\r\nHost: a.example\r\nUpgrade: websocket\r\n\r\n".toList

def upgradeReply : Bytes := Text.bytes "HTTP/1.1 101 Switching Protocols\r\n\r\n".toList

/-- The head comes in two pieces, and the client closes while the upstream
has still something to say. -/
def chatRun : List Event :=
  [.peek 57, .read .up 30, .read .up 27, .connect true, .write .up 50, .write .up 4, .read .down 37, .write .down 36,
    .write .down 1, .read .up 2, .read .down 1, .eof .up true, .write .up 2, .write .down 1, .eof .down true, .join]

end NekoGuard.Relay
