/-
main.rs: the request of a WebSocket upgrade, from the bytes a listener reads
to what it sends to the upstream. Both branches of the source index and slice
these bytes unchecked, which goes well exactly for some of them
(`rewriting_completes_iff`).
-/
import NekoGuard.EdgeFacts
import NekoGuard.Replay
import NekoGuard.Std.TextFacts

namespace NekoGuard.Edge

open Lib

/-! ## What the listeners read -/

/-- The reads of `proxy_ws_upgrade_buf`, up to the end of the head, the end of
the stream or an error. -/
def readBuf : Bytes → List Bytes → Bytes
  | buf, [] => buf
  | buf, c :: cs => if Text.endsWith (buf ++ c) endOfHead then buf ++ c else readBuf (buf ++ c) cs

/-- What a client sends, as a listener gets it: byte by byte, or a peek and
then reads from the start. -/
inductive Arrival where
  | tls (bytes : Bytes)
  | http (peeked : Bytes) (chunks : List Bytes)

namespace Arrival

def listener : Arrival → Listener
  | .tls _ => .tls
  | .http _ _ => .http

/-- A buffer of 4096 bytes at each read. -/
def Fits : Arrival → Prop
  | .tls _ => True
  | .http peeked chunks => peeked.length ≤ 4096 ∧ ∀ c ∈ chunks, 0 < c.length ∧ c.length ≤ 4096

/-- The bytes that are tested for an upgrade, and searched for a Host. -/
def tested : Arrival → Bytes
  | .tls bytes => (peek [] bytes).1
  | .http peeked _ => peeked

/-- The bytes that are rewritten. -/
def received : Arrival → Bytes
  | .tls bytes => (peek [] bytes).1
  | .http _ chunks => readBuf [] chunks

end Arrival

/-! ## Runs -/

variable {rx : RegexCrate} {cfg : Config rx} {lc : LocalCrates} {cr : SealingCrates} {sm : SessionManager}
  {clockAt : Nat → Clock} {κ : Type} {c : Conn κ} {now : Nat} {log : List (Forward κ)}

/-- The task of one connection, on its own. -/
def task (cfg : Config rx) (lc : LocalCrates) (cr : SealingCrates) (sm : SessionManager) (clockAt : Nat → Clock)
    (c : Conn κ) (now : Nat) : Machine (List (Forward κ) × Task κ) Step :=
  fun s e => act cfg lc cr sm clockAt c now s.1 s.2 e

theorem run_peek (head bytes : Bytes) : ∃ es, Machine.run (task cfg lc cr sm clockAt c now) (log, .reading head) es =
    some (log, afterHead cfg (peek head bytes).1) := by
  induction bytes generalizing head with
  | nil => exact ⟨[.eof], rfl⟩
  | cons b bytes ih =>
    unfold peek
    by_cases hend : Text.endsWith (head ++ [b]) endOfHead = true
    · refine ⟨[.byte b], ?_⟩
      simp [Machine.run, task, act, hend]
    · obtain ⟨es, hes⟩ := ih (head ++ [b])
      refine ⟨.byte b :: es, Machine.run_cons_eq_some.mpr ⟨(log, .reading (head ++ [b])), ?_, ?_⟩⟩
      · simp [task, act, hend]
      · rw [if_neg hend]
        exact hes

theorem run_readBuf (u : Str) (buf : Bytes) {chunks : List Bytes}
    (hchunks : ∀ c ∈ chunks, 0 < c.length ∧ c.length ≤ 4096) :
    ∃ es, Machine.run (task cfg lc cr sm clockAt c now) (log, .buffering u buf) es =
      some (log, .connecting u (readBuf buf chunks)) := by
  induction chunks generalizing buf with
  | nil => exact ⟨[.eof], rfl⟩
  | cons d chunks ih =>
    have hd := hchunks d List.mem_cons_self
    unfold readBuf
    by_cases hend : Text.endsWith (buf ++ d) endOfHead = true
    · refine ⟨[.chunk d], ?_⟩
      simp [Machine.run, task, act, hend, hd]
    · obtain ⟨es, hes⟩ := ih (buf ++ d) fun x hx => hchunks x (List.mem_cons_of_mem d hx)
      refine ⟨.chunk d :: es, Machine.run_cons_eq_some.mpr ⟨(log, .buffering u (buf ++ d)), ?_, ?_⟩⟩
      · simp [task, act, hend, hd]
      · rw [if_neg hend]
        exact hes

/-! ## Indices and slices -/

/-- The first line has a word, and the text has a line end, or else a
character that begins at its third byte. -/
def InRange (text : Str) : Prop :=
  (∃ c ∈ (Text.lines text).headD [], Text.isWhitespace c = false) ∧
    (Text.contains text crlf = true ∨ ∃ p t, text = p ++ t ∧ Text.byteLen p = 2)

theorem afterFirstLine_isOk (text : Str) : (∃ t, afterFirstLine text = .ok t) ↔
    Text.contains text crlf = true ∨ ∃ p t, text = p ++ t ∧ Text.byteLen p = 2 := by
  unfold afterFirstLine
  rw [Text.sliceFrom_isOk]
  cases hfind : Text.find text crlf with
  | none =>
    have hno : ¬Text.contains text crlf = true := by
      have hbefore := Option.map_eq_none_iff.mp hfind
      unfold Text.contains
      rw [hbefore]
      exact Bool.false_ne_true
    rw [or_iff_right hno]
    rfl
  | some n =>
    obtain ⟨p, t, htext, rfl⟩ := Text.exists_of_find hfind
    obtain ⟨q, hq, -⟩ := Option.map_eq_some_iff.mp hfind
    have hcontains : Text.contains text crlf = true := by
      unfold Text.contains
      rw [hq]
      rfl
    refine iff_of_true ⟨p ++ crlf, t, ?_, ?_⟩ (.inl hcontains)
    · rw [htext, List.append_assoc]
    · rw [Text.byteLen_append]
      rfl

theorem rewrite_isOk_iff (text auth : Str) : (∃ s, rewrite text auth = .ok s) ↔ InRange text := by
  have hwords : Text.splitWhitespace ((Text.lines text).headD []) = [] ↔
      ¬∃ c ∈ (Text.lines text).headD [], Text.isWhitespace c = false := by
    rw [Text.splitWhitespace_eq_nil]
    simp
  unfold rewrite InRange
  rw [← afterFirstLine_isOk]
  simp only []
  split
  · next hnil =>
    refine iff_of_false (fun ⟨_, h⟩ => by cases h) fun h => ?_
    exact hwords.mp hnil h.1
  · next method rest hparts =>
    have hword : ∃ c ∈ (Text.lines text).headD [], Text.isWhitespace c = false := by
      by_contra hno
      rw [hwords.mpr hno] at hparts
      cases hparts
    rw [and_iff_right hword]
    cases afterFirstLine text with
    | error e => exact iff_of_false (fun ⟨_, h⟩ => by cases h) (fun ⟨_, h⟩ => by cases h)
    | ok after => exact iff_of_true ⟨_, rfl⟩ ⟨after, rfl⟩

theorem rewritten_isOk_iff (l : Listener) (buf : Bytes) (upstream : Str) :
    (∃ text, rewritten l buf upstream = .ok text) ↔ InRange (Utf8.fromUtf8Lossy buf) := by
  cases l with
  | tls => exact rewrite_isOk_iff _ _
  | http => exact rewrite_isOk_iff _ _

/-- **An upgrade gets as far as its upstream** with the bytes that were
received. -/
theorem exists_connecting {a : Arrival} {site : Config.Site rx} (hfits : a.Fits) (hlistener : c.listener = a.listener)
    (hport : a.listener = .http → cfg.portHttp.isSome = true) (hws : isWs a.tested = true)
    (hsite : cfg.siteForHost (wsHost a.tested) = some site) :
    ∃ s es, (s = .accepted ∨ s = .reading []) ∧ Machine.run (task cfg lc cr sm clockAt c now) (log, s) es =
      some (log, .connecting site.upstream a.received) := by
  cases a with
  | tls bytes =>
    obtain ⟨es, hes⟩ := @run_peek rx cfg lc cr sm clockAt κ c now log [] bytes
    have hafter : afterHead cfg (peek [] bytes).1 = (.connecting site.upstream (peek [] bytes).1 : Task κ) := by
      change isWs (peek [] bytes).1 = true at hws
      change cfg.siteForHost (wsHost (peek [] bytes).1) = some site at hsite
      unfold afterHead
      rw [if_pos hws, hsite]
    rw [hafter] at hes
    exact ⟨.reading [], es, .inr rfl, hes⟩
  | http peeked chunks =>
    obtain ⟨es, hes⟩ := @run_readBuf rx cfg lc cr sm clockAt κ c now log site.upstream [] chunks hfits.2
    have hafter : afterPeek cfg peeked = (.buffering site.upstream [] : Task κ) := by
      change isWs peeked = true at hws
      change cfg.siteForHost (wsHost peeked) = some site at hsite
      unfold afterPeek
      rw [if_pos hws, hsite]
    have hpeek : task cfg lc cr sm clockAt c now (log, .accepted) (.peek peeked) =
        some (log, .buffering site.upstream []) := by
      change c.listener = .http at hlistener
      simp only [task, act, if_pos (And.intro hlistener (And.intro (hport rfl) hfits.1)), hafter]
    exact ⟨.accepted, .peek peeked :: es, .inl rfl, Machine.run_cons_eq_some.mpr ⟨_, hpeek, hes⟩⟩

/-- **When the rewriting completes**, for a request that has passed the test
and whose site is known: a panic is what it gets when its first line is blank,
or when it has no line end and a character across its third byte. -/
theorem rewriting_completes_iff {a : Arrival} {site : Config.Site rx} (hfits : a.Fits)
    (hlistener : c.listener = a.listener) (hport : a.listener = .http → cfg.portHttp.isSome = true)
    (hws : isWs a.tested = true) (hsite : cfg.siteForHost (wsHost a.tested) = some site) :
    (∃ s es, (s = .accepted ∨ s = .reading []) ∧ Machine.run (task cfg lc cr sm clockAt c now) (log, s) es =
      some (log, .connecting site.upstream a.received)) ∧
    ((∃ text, rewritten c.listener a.received site.upstream = .ok text) ↔
      InRange (Utf8.fromUtf8Lossy a.received)) := by
  exact ⟨exists_connecting hfits hlistener hport hws hsite, rewritten_isOk_iff _ _ _⟩

def upgradeHead : Bytes := Text.bytes "GET / HTTP/1.1\r\nHost: a.example\r\nUpgrade: websocket\r\n\r\n".toList

theorem upgradeHead_completes :
    ∃ text, rewritten .tls (Arrival.tls upgradeHead).received "http://origin".toList = .ok text := by
  have hsite : (Sample.server []).siteForHost (wsHost (Arrival.tls upgradeHead).tested) =
      some { domain := "a.example".toList, upstream := "http://origin".toList, bypass := [], rateLimit := default } := by
    have hhost : wsHost (Arrival.tls upgradeHead).tested = "a.example".toList := by decide +kernel
    rw [hhost]
    rfl
  have hrange : InRange (Utf8.fromUtf8Lossy (Arrival.tls upgradeHead).received) :=
    ⟨⟨'G', by decide +kernel, by decide⟩, .inl (by decide +kernel)⟩
  have hdone := @rewriting_completes_iff _ (Sample.server []) Sample.locals Sample.crates Sample.manager epoch Unit
    ⟨(), .tls, .v4 10 0 0 1⟩ 0 [] (Arrival.tls upgradeHead) _ trivial rfl (fun h => by cases h) (by decide +kernel) hsite
  exact hdone.2.mpr hrange

/-- A blank line before the header lines. -/
def blankHead : Bytes := Text.bytes "\r\nHost: a.example\r\nUpgrade: websocket\r\n\r\n".toList

/-- Bare line ends, and an `é` across the third byte. -/
def bareHead : Bytes := Text.bytes "gé Upgrade: websocket\nHost: a.example\n".toList

theorem not_inRange_blankHead : ¬InRange (Utf8.fromUtf8Lossy blankHead) := by
  have hline : (Text.lines (Utf8.fromUtf8Lossy blankHead)).headD [] = [] := by decide +kernel
  intro ⟨⟨c, hc, _⟩, _⟩
  rw [hline] at hc
  cases hc

theorem not_inRange_bareHead : ¬InRange (Utf8.fromUtf8Lossy bareHead) := by
  intro ⟨_, hafter⟩
  obtain ⟨t, ht⟩ := (afterFirstLine_isOk _).mpr hafter
  have hpanics : (afterFirstLine (Utf8.fromUtf8Lossy bareHead)).isOk = false := by decide +kernel
  rw [ht] at hpanics
  cases hpanics

/-- An upgrade of a configured site that is never sent on. -/
def Panics (a : Arrival) : Prop :=
  a.Fits ∧ isWs a.tested = true ∧ ((Sample.server []).siteForHost (wsHost a.tested)).isSome = true ∧
    ∀ upstream, ¬∃ text, rewritten a.listener a.received upstream = .ok text

theorem panics_of {a : Arrival} {head : Bytes} (hfits : a.Fits) (htested : a.tested = head)
    (hreceived : a.received = head)
    (htaken : isWs head = true ∧ ((Sample.server []).siteForHost (wsHost head)).isSome = true)
    (hrange : ¬InRange (Utf8.fromUtf8Lossy head)) : Panics a := by
  unfold Panics
  rw [htested, hreceived]
  exact ⟨hfits, htaken.1, htaken.2, fun upstream h => hrange ((rewritten_isOk_iff _ _ _).mp h)⟩

/-- Both branches take these for upgrades of a.example, and panic. -/
theorem upgrades_panic : Panics (.tls blankHead) ∧ Panics (.http blankHead [blankHead]) ∧ Panics (.tls bareHead) ∧
    Panics (.http bareHead [bareHead]) := by
  have hblank : isWs blankHead = true ∧ ((Sample.server []).siteForHost (wsHost blankHead)).isSome = true := by
    decide +kernel
  have hbare : isWs bareHead = true ∧ ((Sample.server []).siteForHost (wsHost bareHead)).isSome = true := by
    decide +kernel
  have hblankPeek : (Arrival.tls blankHead).received = blankHead := by decide +kernel
  have hbarePeek : (Arrival.tls bareHead).received = bareHead := by decide +kernel
  refine ⟨?_, ?_, ?_, ?_⟩
  · exact panics_of trivial hblankPeek hblankPeek hblank not_inRange_blankHead
  · exact panics_of (by unfold Arrival.Fits; decide +kernel) rfl (by decide +kernel) hblank not_inRange_blankHead
  · exact panics_of trivial hbarePeek hbarePeek hbare not_inRange_bareHead
  · exact panics_of (by unfold Arrival.Fits; decide +kernel) rfl (by decide +kernel) hbare not_inRange_bareHead

end NekoGuard.Edge
