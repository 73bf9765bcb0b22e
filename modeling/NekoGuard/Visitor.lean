/-
A browser at the proxy. For each host its jar keeps the session cookie as
the Set-Cookie header of a verify answer has it, and sends it with the
requests to that host, among the cookies of the origin, for as long as
Max-Age lets it and where SameSite does. `handle` finds it there and accepts
it: who solves a challenge is let through for the session's TTL, and then
challenged again (`challenged_iff`).
-/
import NekoGuard.Cookies
import NekoGuard.HandleFacts
import NekoGuard.Lib.Machine

namespace NekoGuard.Visitor

open Lib Proxy

/-! ## The browser -/

structure Pair where
  name : Str
  value : Str
deriving DecidableEq, Repr

def Pair.text (p : Pair) : Str := p.name ++ '=' :: p.value

/-- The value of a `Cookie` header. -/
def cookieText (pairs : List Pair) : Str := "; ".toList.intercalate (pairs.map Pair.text)

def trimWsp (s : Str) : Str := Text.trimEndMatches isWsp (Text.trimStartMatches isWsp s)

/-- Name and value of a `Set-Cookie` header. -/
def readPair (cookie : Str) : Option Pair :=
  (Text.splitOnce (Text.splitFirst cookie ';') '=').map fun p => ⟨trimWsp p.1, trimWsp p.2⟩

/-- The seconds of a `Max-Age`. A negative one has run out. -/
def readAge (s : Str) : Option Nat :=
  match s with
  | '-' :: digits => if digits.all Char.isDigit then some 0 else none
  | digits => if digits ≠ [] ∧ digits.all Char.isDigit then some (Nat.ofDigitChars 10 digits 0) else none

def ageOf (part : Str) : Option Nat :=
  if attributeName part = "max-age".toList then
    readAge (trimWsp (((Text.splitOnce part '=').map (·.2)).getD []))
  else none

/-- The last `Max-Age` counts. -/
def maxAge (cookie : Str) : Option Nat := ((attributes cookie).filterMap ageOf).getLast?

inductive SameSite where
  | none
  | lax
  | strict
deriving DecidableEq, Repr

def siteOf (part : Str) : Option SameSite :=
  if attributeName part = "samesite".toList then
    let value := Text.toAsciiLowercase (trimWsp (((Text.splitOnce part '=').map (·.2)).getD []))
    some (if value = "none".toList then .none else if value = "strict".toList then .strict else .lax)
  else none

/-- So does the last `SameSite`; a browser that finds none takes `Lax`. -/
def sameSite (cookie : Str) : SameSite := (((attributes cookie).filterMap siteOf).getLast?).getD .lax

/-- Where a request comes from: its own site, a link or a form of another
that leads to it, or anything else there. -/
inductive Source where
  | site
  | navigation
  | other
deriving DecidableEq, Repr

def isSafe : Method → Bool
  | .get => true
  | .post => false
  | .other name => name == "HEAD".toList || name == "OPTIONS".toList || name == "TRACE".toList

/-- The requests a cookie goes with. -/
def SameSite.lets (source : Source) (method : Method) : SameSite → Bool
  | .none => true
  | .lax => source == .site || source == .navigation && isSafe method
  | .strict => source == .site

/-- The session cookie in the jar, and the millisecond it expires at. -/
structure Kept where
  value : Str
  expires : Option Nat
  sameSite : SameSite
deriving DecidableEq, Repr

def Kept.live (k : Kept) (now : Nat) : Bool := k.expires.all fun e => now < e

/-- Names of cookies that a browser takes only where they are `Secure`; the
ones of verify answers are not. -/
def isPrefixed (name : Str) : Bool :=
  ["__host-".toList, "__secure-".toList, "__http-".toList].any fun front =>
    Text.startsWith (Text.toAsciiLowercase name) front

/-- What becomes of the cookie called `name` that goes to one host only when
a `Set-Cookie` header comes in from there. One with a `Domain` is another
cookie. -/
def store (name : Str) (now : Nat) (jar : Option Kept) (header : Bytes) : Option Kept :=
  let header := Http.text header
  match readPair header with
  | none => jar
  | some p =>
    if p.name = name ∧ ¬isPrefixed name ∧ ¬(attributes header).any isDomain then
      match maxAge header with
      | some 0 => none
      | age => some { value := p.value, expires := age.map fun secs => now + 1000 * secs, sameSite := sameSite header }
    else jar

def setCookie : Str := "set-cookie".toList

def cookie : Str := "cookie".toList

def storeAll (name : Str) (now : Nat) (jar : Option Kept) (resp : Response) : Option Kept :=
  (Http.getAll resp.headers setCookie).foldl (store name now) jar

def withCookies (req : Request) (pairs : List Pair) : Request :=
  if pairs = [] then req
  else { req with headers := Http.append req.headers cookie (Text.bytes (cookieText pairs)) }

/-! ## Visits -/

/-- A request as it was sent, what came of it, and when the visitor's last
solution was accepted at its host. -/
structure Visit where
  now : Nat
  cleared : Option Nat
  source : Source
  peerIp : IpAddr
  req : Request
  calls : Calls
  handled : Rust Handled

structure State where
  /-- In milliseconds. -/
  now : Nat
  jar : Str → Option Kept
  /-- When the last solution was accepted at a host. -/
  cleared : Str → Option Nat
  visits : List Visit

inductive Event where
  | wait (millis : Nat)
  /-- What a page of the host posts. -/
  | verify (host : Str) (peerIp : IpAddr) (req : Request) (calls : Calls)
  /-- The cookies of the origin come before and after the session's. -/
  | visit (host : Str) (source : Source) (peerIp : IpAddr) (req : Request) (calls : Calls) (front back : List Pair)

/-- A character of a cookie's name: visible, and no separator. -/
def isNameChar (c : Char) : Bool := 32 < c.toNat && c.toNat < 127 && c != '=' && c != ';'

def isValueChar (c : Char) : Bool := Http.visible c && c != ';'

/-- A cookie of the origin's; none is called like the session's. -/
structure Foreign (name : Str) (p : Pair) : Prop where
  ne : p.name ≠ name
  named : p.name ≠ []
  name : ∀ c ∈ p.name, isNameChar c = true
  value : ∀ c ∈ p.value, isValueChar c = true

instance (name : Str) (p : Pair) : Decidable (Foreign name p) :=
  decidable_of_iff (p.name ≠ name ∧ p.name ≠ [] ∧ (∀ c ∈ p.name, isNameChar c = true) ∧
      ∀ c ∈ p.value, isValueChar c = true)
    ⟨fun h => ⟨h.1, h.2.1, h.2.2.1, h.2.2.2⟩, fun h => ⟨h.ne, h.named, h.name, h.value⟩⟩

section
variable {rx : RegexCrate} (cfg : Config rx) (lc : LocalCrates) (cr : SealingCrates) (sm : SessionManager) (ip : IpAddr)

/-- The session cookie goes with the request. -/
def Kept.goes (k : Kept) (now : Nat) (source : Source) (method : Method) : Bool :=
  k.live now && k.sameSite.lets source method

/-- The pairs the browser sends. -/
def State.pairs (s : State) (host : Str) (source : Source) (method : Method) (front back : List Pair) : List Pair :=
  front ++ (((s.jar host).filter fun k => k.goes s.now source method).map fun k =>
    Pair.mk sm.cookieName k.value).toList ++ back

def step : Machine State Event := fun s ev =>
  match ev with
  | .wait millis => some { s with now := s.now + millis }
  | .verify host peerIp req calls =>
    if calls.clock.unixSecs = s.now / 1000 ∧ Handle.realIp peerIp req = ip ∧ req.path = "/__ng/verify".toList ∧
        req.method = .post then
      match Handle.handle cfg lc cr sm calls peerIp req with
      | .ok { reply := .answer resp, .. } => some { s with
          jar := Function.update s.jar host (storeAll sm.cookieName s.now (s.jar host) resp)
          cleared := if resp.status = 200 then Function.update s.cleared host (some s.now) else s.cleared }
      | _ => some s
    else none
  | .visit host source peerIp req calls front back =>
    if calls.clock.unixSecs = s.now / 1000 ∧ Handle.realIp peerIp req = ip ∧ Http.getAll req.headers cookie = [] ∧
        ∀ p ∈ front ++ back, Foreign sm.cookieName p then
      let sent := withCookies req (s.pairs sm host source req.method front back)
      let visit : Visit := {
        now := s.now
        cleared := s.cleared host
        source, peerIp, req := sent, calls
        handled := Handle.handle cfg lc cr sm calls peerIp sent }
      some { s with visits := visit :: s.visits }
    else none

def start (now : Nat) : State := { now, jar := fun _ => none, cleared := fun _ => none, visits := [] }

/-- The clocks have room for the session's TTL. -/
def Holds (s : State) (ev : Event) : Prop :=
  s.now / 1000 + sm.ttl < 2 ^ 64 ∧
    match ev with
    | .visit _ _ _ _ calls _ _ => calls.clock.instant + 10 ^ 9 * sm.ttl < 2 ^ 63 * 10 ^ 9
    | _ => True

instance (s : State) : ∀ ev, Decidable (Holds sm s ev)
  | .wait _ | .verify _ _ _ _ => inferInstanceAs (Decidable (_ ∧ True))
  | .visit _ _ _ _ _ _ _ => inferInstanceAs (Decidable (_ ∧ _))

/-- Names and sealed values that a cookie can have. -/
structure Fits : Prop where
  named : sm.cookieName ≠ []
  name : ∀ c ∈ sm.cookieName, isNameChar c = true
  plain : isPrefixed sm.cookieName = false
  value : ∀ bytes, ∀ c ∈ cr.encode bytes, isNameChar c = true

/-- A solution was accepted in the TTL before the visit, and the browser may
say so. -/
def Cleared (v : Visit) : Prop :=
  SameSite.lax.lets v.source v.req.method = true ∧ ∃ c, v.cleared = some c ∧ v.now < c + 1000 * sm.ttl

/-- The visitor gets the interstitial. -/
def Challenged (v : Visit) : Prop :=
  ∃ acc, v.handled = .ok { reply := .answer (Handle.interstitial cfg lc v.calls v.req), access := acc }

end

/-! ## Texts -/

variable {s t name value : Str} {p : Pair} {c : Char}

theorem isNameChar_iff : isNameChar c = true ↔ 32 < c.toNat ∧ c.toNat < 127 ∧ c ≠ '=' ∧ c ≠ ';' := by
  simp [isNameChar, and_assoc]

theorem visible_of_isNameChar (h : isNameChar c = true) : Http.visible c = true := by
  obtain ⟨hlo, hhi, -⟩ := isNameChar_iff.mp h
  simp only [Http.visible, Bool.or_eq_true, Bool.and_eq_true, decide_eq_true_eq]
  omega

theorem not_isWhitespace_of_isNameChar (h : isNameChar c = true) : Text.isWhitespace c = false := by
  rw [isWhitespace_of_visible (visible_of_isNameChar h), ← Bool.not_eq_true]
  intro hwsp
  obtain ⟨hlo, -⟩ := isNameChar_iff.mp h
  simp only [isWsp, Bool.or_eq_true, beq_iff_eq] at hwsp
  rcases hwsp with rfl | rfl <;> exact absurd hlo (by decide)

theorem not_mem_of_isNameChar (hs : ∀ c ∈ s, isNameChar c = true) : '=' ∉ s ∧ ';' ∉ s :=
  ⟨fun h => absurd (hs _ h) (by decide), fun h => absurd (hs _ h) (by decide)⟩

theorem splitOnce_append (hs : c ∉ s) (t : Str) : Text.splitOnce (s ++ c :: t) c = some (s, t) := by
  have hne : ∀ d ∈ s, decide (d ≠ c) = true := fun d hd => decide_eq_true fun heq => hs (heq ▸ hd)
  unfold Text.splitOnce
  rw [if_pos (by simp), List.takeWhile_append_of_pos hne, List.dropWhile_append_of_pos hne]
  simp

/-- Trimming stops at the name. -/
theorem trim_pair (hne : name ≠ []) (hname : ∀ c ∈ name, isNameChar c = true) {lead : Str}
    (hlead : ∀ c ∈ lead, Text.isWhitespace c = true) (value : Str) :
    Text.trim (lead ++ (name ++ '=' :: value)) = name ++ '=' :: Text.trimEndMatches Text.isWhitespace value := by
  obtain ⟨c, name, rfl⟩ := List.exists_cons_of_ne_nil hne
  have hc := not_isWhitespace_of_isNameChar (hname c List.mem_cons_self)
  have hstart : Text.trimStartMatches Text.isWhitespace (lead ++ (c :: name ++ '=' :: value)) =
      c :: name ++ '=' :: value := by
    unfold Text.trimStartMatches
    rw [List.dropWhile_append_of_pos hlead, List.cons_append, List.dropWhile_cons_of_neg (by simp [hc])]
  rw [Text.trim, hstart, Text.trimEndMatches_append_of_not (by decide)]

theorem trimEnd_of_word (hvalue : ∀ c ∈ value, isNameChar c = true) :
    Text.trimEndMatches Text.isWhitespace value = value :=
  Text.trimEndMatches_of_getLast? fun d hd => not_isWhitespace_of_isNameChar (hvalue d (List.mem_of_getLast? hd))

/-! ## The header of a verify answer -/

theorem cookieHeader_eq (sm : SessionManager) (value : Str) :
    Local.cookieHeader sm value = [';'].intercalate [sm.cookieName ++ '=' :: value, " Path=/".toList,
      " HttpOnly".toList, " SameSite=Lax".toList, " Max-Age=".toList ++ Text.decimal sm.ttl] := by
  simp [Local.cookieHeader, List.intercalate]

theorem decimal_digit {n : Nat} (hc : c ∈ Text.decimal n) : c.isDigit = true :=
  Nat.isDigit_of_mem_toDigits (by omega) (by omega) hc

theorem isNameChar_of_isDigit (h : c.isDigit = true) : isNameChar c = true := by
  obtain ⟨hlo, hhi⟩ := Char.isDigit_iff_toNat.mp h
  refine isNameChar_iff.mpr ⟨Nat.lt_of_lt_of_le (by decide) hlo, Nat.lt_of_le_of_lt hhi (by decide), ?_, ?_⟩
  · rintro rfl
    exact absurd h (by decide)
  · rintro rfl
    exact absurd h (by decide)

variable {cr : SealingCrates} {sm : SessionManager}

theorem splitOn_cookieHeader (hfits : Fits cr sm) (hvalue : ∀ c ∈ value, isNameChar c = true) :
    (Local.cookieHeader sm value).splitOn ';' = [sm.cookieName ++ '=' :: value, " Path=/".toList,
      " HttpOnly".toList, " SameSite=Lax".toList, " Max-Age=".toList ++ Text.decimal sm.ttl] := by
  rw [cookieHeader_eq]
  refine List.splitOn_intercalate _ (fun part hpart => ?_) (List.cons_ne_nil _ _)
  simp only [List.mem_cons, List.not_mem_nil, or_false] at hpart
  rcases hpart with rfl | rfl | rfl | rfl | rfl
  · intro hmem
    rcases List.mem_append.mp hmem with hmem | hmem
    · exact (not_mem_of_isNameChar hfits.name).2 hmem
    · rcases List.mem_cons.mp hmem with heq | hmem
      · cases heq
      · exact (not_mem_of_isNameChar hvalue).2 hmem
  · decide
  · decide
  · decide
  · intro hmem
    rcases List.mem_append.mp hmem with hmem | hmem
    · exact absurd hmem (by decide)
    · exact absurd (decimal_digit hmem) (by decide)

theorem visible_cookieHeader (hfits : Fits cr sm) (hvalue : ∀ c ∈ value, isNameChar c = true) :
    ∀ c ∈ Local.cookieHeader sm value, Http.visible c = true := by
  have hconst : ∀ c ∈ "; Path=/; HttpOnly; SameSite=Lax; Max-Age=".toList, Http.visible c = true := by decide +kernel
  intro c hc
  simp only [Local.cookieHeader, List.append_assoc, List.mem_append] at hc
  rcases hc with hc | hc | hc | hc | hc
  · exact visible_of_isNameChar (hfits.name c hc)
  · rw [List.mem_singleton.mp hc]
    decide
  · exact visible_of_isNameChar (hvalue c hc)
  · exact hconst c hc
  · exact visible_of_isNameChar (isNameChar_of_isDigit (decimal_digit hc))

theorem trimWsp_of_word (hs : ∀ c ∈ s, isNameChar c = true) : trimWsp s = s := by
  have hwsp : ∀ c ∈ s, isWsp c = false := fun c hc => by
    rw [← isWhitespace_of_visible (visible_of_isNameChar (hs c hc))]
    exact not_isWhitespace_of_isNameChar (hs c hc)
  unfold trimWsp Text.trimStartMatches
  cases s with
  | nil => rfl
  | cons c s =>
    rw [List.dropWhile_cons_of_neg (by simp [hwsp c List.mem_cons_self])]
    exact Text.trimEndMatches_of_getLast? fun d hd => hwsp d (List.mem_of_getLast? hd)

/-- **The browser reads what was sealed.** -/
theorem readPair_cookieHeader (hfits : Fits cr sm) (hvalue : ∀ c ∈ value, isNameChar c = true) :
    readPair (Local.cookieHeader sm value) = some ⟨sm.cookieName, value⟩ := by
  have hfirst : Text.splitFirst (Local.cookieHeader sm value) ';' = sm.cookieName ++ '=' :: value := by
    rw [Text.splitFirst, splitOn_cookieHeader hfits hvalue]
    rfl
  rw [readPair, hfirst, splitOnce_append (not_mem_of_isNameChar hfits.name).1, Option.map_some,
    trimWsp_of_word hfits.name, trimWsp_of_word hvalue]

theorem readAge_decimal (n : Nat) : readAge (Text.decimal n) = some n := by
  have hne : Text.decimal n ≠ [] := Nat.toDigits_ne_nil
  have hall : (Text.decimal n).all Char.isDigit = true := List.all_eq_true.mpr fun c hc => decimal_digit hc
  obtain ⟨c, digits, hdec⟩ := List.exists_cons_of_ne_nil hne
  have hc : c ≠ '-' := by
    rintro rfl
    exact absurd (decimal_digit (n := n) (hdec ▸ List.mem_cons_self)) (by decide)
  have hvalue : Nat.ofDigitChars 10 (Text.decimal n) 0 = n := Nat.ofDigitChars_ten_toDigits
  rw [hdec] at hall hvalue ⊢
  unfold readAge
  split
  · next heq => cases heq; exact absurd rfl hc
  · rw [if_pos ⟨List.cons_ne_nil _ _, hall⟩, hvalue]

theorem attributeName_maxAge (n : Nat) :
    attributeName (" Max-Age=".toList ++ Text.decimal n) = "max-age".toList := by
  have hfirst : Text.splitFirst (" Max-Age".toList ++ '=' :: Text.decimal n) '=' = " Max-Age".toList :=
    splitFirst_append (by decide) _
  show attributeName (" Max-Age".toList ++ '=' :: Text.decimal n) = _
  rw [attributeName, hfirst]
  decide +kernel

theorem ageOf_maxAge (n : Nat) : ageOf (" Max-Age=".toList ++ Text.decimal n) = some n := by
  have hpart : " Max-Age=".toList ++ Text.decimal n = " Max-Age".toList ++ '=' :: Text.decimal n := rfl
  have hname := attributeName_maxAge n
  have hdigits : ∀ c ∈ Text.decimal n, isNameChar c = true := fun c hc => isNameChar_of_isDigit (decimal_digit hc)
  rw [ageOf, if_pos hname, hpart, splitOnce_append (by decide), Option.map_some, Option.getD_some,
    trimWsp_of_word hdigits, readAge_decimal]

/-- The cookie is kept as long as it is good for. -/
theorem maxAge_cookieHeader (hfits : Fits cr sm) (hvalue : ∀ c ∈ value, isNameChar c = true) :
    maxAge (Local.cookieHeader sm value) = some sm.ttl := by
  have hpath : ageOf " Path=/".toList = none := by decide +kernel
  have hhttp : ageOf " HttpOnly".toList = none := by decide +kernel
  have hsame : ageOf " SameSite=Lax".toList = none := by decide +kernel
  rw [maxAge, attributes, splitOn_cookieHeader hfits hvalue, List.tail_cons]
  rw [List.filterMap_cons_none hpath, List.filterMap_cons_none hhttp, List.filterMap_cons_none hsame,
    List.filterMap_cons_some (ageOf_maxAge _)]
  rfl

/-- It goes to the host it is from. -/
theorem isDomain_cookieHeader (hfits : Fits cr sm) (hvalue : ∀ c ∈ value, isNameChar c = true) :
    ¬(attributes (Local.cookieHeader sm value)).any isDomain := by
  have hage : isDomain (" Max-Age=".toList ++ Text.decimal sm.ttl) = false := by
    rw [isDomain, attributeName_maxAge]
    decide
  have hconst : [" Path=/".toList, " HttpOnly".toList, " SameSite=Lax".toList].any isDomain = false := by decide +kernel
  rw [attributes, splitOn_cookieHeader hfits hvalue, List.tail_cons]
  show ¬([" Path=/".toList, " HttpOnly".toList, " SameSite=Lax".toList] ++ [_]).any isDomain
  rw [List.any_append, hconst, List.any_cons, hage]
  decide

/-- It does not go with what another site posts or embeds. -/
theorem sameSite_cookieHeader (hfits : Fits cr sm) (hvalue : ∀ c ∈ value, isNameChar c = true) :
    sameSite (Local.cookieHeader sm value) = .lax := by
  have hage : siteOf (" Max-Age=".toList ++ Text.decimal sm.ttl) = none := by
    rw [siteOf, attributeName_maxAge, if_neg (by decide)]
  have hconst : [" Path=/".toList, " HttpOnly".toList, " SameSite=Lax".toList].filterMap siteOf = [.lax] := by
    decide +kernel
  rw [sameSite, attributes, splitOn_cookieHeader hfits hvalue, List.tail_cons]
  show ((([" Path=/".toList, " HttpOnly".toList, " SameSite=Lax".toList] ++ [_]).filterMap siteOf).getLast?).getD .lax = _
  rw [List.filterMap_append, hconst, List.filterMap_cons_none hage]
  rfl

/-! ## The header of a visit -/

theorem cookieText_cons (p : Pair) (pairs : List Pair) :
    cookieText (p :: pairs) = [';'].intercalate (p.text :: pairs.map fun q => ' ' :: q.text) := by
  have hlead : ∀ (a : Str) (l : List Str), [';'].intercalate ((' ' :: a) :: l) = ' ' :: [';'].intercalate (a :: l) := by
    intro a l
    cases l <;> rfl
  induction pairs generalizing p with
  | nil => rfl
  | cons q pairs ih =>
    have hrest := ih q
    rw [cookieText] at hrest ⊢
    rw [List.map_cons, List.map_cons, List.intercalate_cons_cons, ← List.map_cons, hrest, List.map_cons,
      List.intercalate_cons_cons, hlead]
    simp

theorem splitOn_cookieText {p : Pair} {pairs : List Pair} (h : ∀ q ∈ p :: pairs, ';' ∉ q.text) :
    (cookieText (p :: pairs)).splitOn ';' = p.text :: pairs.map fun q => ' ' :: q.text := by
  rw [cookieText_cons]
  refine List.splitOn_intercalate _ (fun part hpart => ?_) (List.cons_ne_nil _ _)
  rcases List.mem_cons.mp hpart with rfl | hpart
  · exact h p List.mem_cons_self
  · obtain ⟨q, hq, rfl⟩ := List.mem_map.mp hpart
    intro hmem
    rcases List.mem_cons.mp hmem with heq | hmem
    · cases heq
    · exact h q (List.mem_cons_of_mem _ hq) hmem

/-- A pair that may be sent. -/
structure Sendable (p : Pair) : Prop where
  named : p.name ≠ []
  name : ∀ c ∈ p.name, isNameChar c = true
  value : ∀ c ∈ p.value, isValueChar c = true

theorem Foreign.sendable (h : Foreign name p) : Sendable p := ⟨h.named, h.name, h.value⟩

theorem Sendable.semicolon_not_mem (h : Sendable p) : ';' ∉ p.text := by
  intro hmem
  rcases List.mem_append.mp hmem with hmem | hmem
  · exact (not_mem_of_isNameChar h.name).2 hmem
  · rcases List.mem_cons.mp hmem with heq | hmem
    · cases heq
    · exact absurd (h.value _ hmem) (by decide)

theorem Sendable.visible (h : Sendable p) : ∀ c ∈ p.text, Http.visible c = true := by
  intro c hc
  rcases List.mem_append.mp hc with hc | hc
  · exact visible_of_isNameChar (h.name c hc)
  · rcases List.mem_cons.mp hc with rfl | hc
    · decide
    · exact (Bool.and_eq_true_iff.mp (h.value c hc)).1

theorem visible_cookieText {pairs : List Pair} (h : ∀ p ∈ pairs, Sendable p) :
    ∀ c ∈ cookieText pairs, Http.visible c = true := by
  cases pairs with
  | nil => exact fun _ hc => absurd hc List.not_mem_nil
  | cons p pairs =>
    intro c hc
    rw [cookieText_cons] at hc
    rcases mem_intercalate.1 hc with rfl | ⟨part, hpart, hc⟩
    · decide
    · rcases List.mem_cons.mp hpart with rfl | hpart
      · exact (h p List.mem_cons_self).visible c hc
      · obtain ⟨q, hq, rfl⟩ := List.mem_map.mp hpart
        rcases List.mem_cons.mp hc with rfl | hc
        · decide
        · exact (h q (List.mem_cons_of_mem _ hq)).visible c hc

/-- A part of the header is found by its name. -/
theorem startsWith_trim {lead : Str} (hlead : ∀ c ∈ lead, Text.isWhitespace c = true) (hp : Sendable p)
    (hname : '=' ∉ name) :
    Text.startsWith (Text.trim (lead ++ p.text)) (name ++ "=".toList) = decide (p.name = name) := by
  rw [Pair.text, trim_pair hp.named hp.name hlead, Text.startsWith, Bool.eq_iff_iff, decide_eq_true_eq,
    List.isPrefixOf_iff_prefix]
  have hsplit := splitOnce_append (not_mem_of_isNameChar hp.name).1 (Text.trimEndMatches Text.isWhitespace p.value)
  refine ⟨fun hprefix => ?_, fun heq => ?_⟩
  · obtain ⟨rest, hrest⟩ := hprefix
    have hother : Text.splitOnce (name ++ '=' :: rest) '=' = some (name, rest) := splitOnce_append hname rest
    rw [← hrest, List.append_assoc] at hsplit
    have hsame := hother.symm.trans hsplit
    simp only [Option.some.injEq, Prod.mk.injEq] at hsame
    exact hsame.1.symm
  · exact ⟨_, by rw [heq, List.append_assoc]; rfl⟩

/-- The value `handle` takes from a part. -/
theorem valueOf_part {lead : Str} (hlead : ∀ c ∈ lead, Text.isWhitespace c = true) (hp : Sendable p) :
    ((Text.splitOnce (Text.trim (lead ++ p.text)) '=').map (·.2)).getD [] =
      Text.trimEndMatches Text.isWhitespace p.value := by
  rw [Pair.text, trim_pair hp.named hp.name hlead, splitOnce_append (not_mem_of_isNameChar hp.name).1]
  rfl

/-! ## What `handle` finds -/

variable {req : Request} {front back pairs : List Pair}

theorem header_withCookies (hreq : Http.getAll req.headers cookie = []) (hne : pairs ≠ [])
    (hall : ∀ p ∈ pairs, Sendable p) : (withCookies req pairs).header "cookie" = some (cookieText pairs) := by
  have hvisible := visible_cookieText hall
  have hget : Http.get (withCookies req pairs).headers cookie = some (Text.bytes (cookieText pairs)) := by
    rw [withCookies, if_neg hne, Http.get_eq_head?, Http.getAll_append_self, hreq]
    rfl
  show (Http.get (withCookies req pairs).headers cookie).bind Http.toStr = _
  rw [hget, Option.bind_some, Http.toStr_eq_some]
  exact ⟨Http.text_bytes hvisible, hvisible⟩

theorem header_withoutCookies (hreq : Http.getAll req.headers cookie = []) :
    (withCookies req []).header "cookie" = none := by
  show (Http.get req.headers cookie).bind Http.toStr = none
  rw [Http.get_eq_head?, hreq]
  rfl

theorem find?_parts {parts : List (Str × Pair)} (hlead : ∀ x ∈ parts, ∀ c ∈ x.1, Text.isWhitespace c = true)
    (hall : ∀ x ∈ parts, Sendable x.2) (hname : '=' ∉ name) :
    ((parts.map fun x => x.1 ++ x.2.text).find? fun part =>
        Text.startsWith (Text.trim part) (name ++ "=".toList)).map (fun part =>
          ((Text.splitOnce (Text.trim part) '=').map (·.2)).getD []) =
      ((parts.map (·.2)).find? fun p => p.name = name).map fun p => Text.trimEndMatches Text.isWhitespace p.value := by
  induction parts with
  | nil => rfl
  | cons x parts ih =>
    have hstarts := startsWith_trim (hlead x List.mem_cons_self) (hall x List.mem_cons_self) hname
    have hvalue := valueOf_part (hlead x List.mem_cons_self) (hall x List.mem_cons_self)
    have hrest := ih (fun y hy => hlead y (List.mem_cons_of_mem _ hy)) fun y hy => hall y (List.mem_cons_of_mem _ hy)
    rw [List.map_cons, List.map_cons, List.find?_cons, List.find?_cons, hstarts]
    by_cases h : x.2.name = name
    · simp only [h, decide_true, Option.map_some, hvalue]
    · simpa only [h, decide_false] using hrest

/-- **`handle` finds the cookie among the others.** -/
theorem sessionCookie_withCookies (hreq : Http.getAll req.headers cookie = []) (hall : ∀ p ∈ pairs, Sendable p)
    (hname : '=' ∉ sm.cookieName) : Handle.sessionCookie sm (withCookies req pairs) =
      (pairs.find? fun p => p.name = sm.cookieName).map fun p => Text.trimEndMatches Text.isWhitespace p.value := by
  cases pairs with
  | nil =>
    rw [Handle.sessionCookie, header_withoutCookies hreq]
    rfl
  | cons p pairs =>
    let parts : List (Str × Pair) := ([], p) :: pairs.map fun q => ([' '], q)
    have htexts : (p.text :: pairs.map fun q => ' ' :: q.text) = parts.map fun x => x.1 ++ x.2.text := by
      simp [parts, Function.comp_def]
    have hpairs : parts.map (·.2) = p :: pairs := by simp [parts, Function.comp_def]
    have hlead : ∀ x ∈ parts, ∀ c ∈ x.1, Text.isWhitespace c = true := by
      intro x hx c hc
      rcases List.mem_cons.mp hx with rfl | hx
      · cases hc
      · obtain ⟨q, -, rfl⟩ := List.mem_map.mp hx
        rw [List.mem_singleton.mp hc]
        decide
    have hsend : ∀ x ∈ parts, Sendable x.2 := fun x hx => hall x.2 (hpairs ▸ List.mem_map_of_mem hx)
    rw [Handle.sessionCookie, header_withCookies hreq (List.cons_ne_nil _ _) hall, Option.bind_some,
      splitOn_cookieText fun q hq => (hall q hq).semicolon_not_mem, htexts, find?_parts hlead hsend hname, hpairs]

theorem realIp_withCookies (peerIp : IpAddr) (req : Request) (pairs : List Pair) :
    Handle.realIp peerIp (withCookies req pairs) = Handle.realIp peerIp req := by
  have hheader : (withCookies req pairs).header "x-real-ip" = req.header "x-real-ip" := by
    unfold withCookies
    split
    · rfl
    · show (Http.get _ _).bind Http.toStr = (Http.get _ _).bind Http.toStr
      rw [Http.get_eq_head?, Http.get_eq_head?, Http.getAll_append_of_ne (by decide +kernel)]
  rw [Handle.realIp, hheader]
  rfl

/-! ## What `handle` answers -/

variable {rx : RegexCrate} {cfg : Config rx} {lc : LocalCrates} {calls : Calls} {peerIp ip : IpAddr}

theorem Fits.createCookie (hfits : Fits cr sm) (ip : IpAddr) (now : Clock) (nonce : Nonce) :
    ∀ c ∈ sm.createCookie cr ip now nonce, isNameChar c = true := hfits.value _

/-- A verify request is answered with a cookie, or with an error. -/
theorem handle_verify (hfits : Fits cr sm) (hpath : req.path = "/__ng/verify".toList) (hmethod : req.method = .post)
    {resp : Response} {acc : Option Access}
    (h : Handle.handle cfg lc cr sm calls peerIp req = .ok { reply := .answer resp, access := acc }) :
    (resp.status ≠ 200 ∧ Http.getAll resp.headers setCookie = []) ∨
      (resp.status = 200 ∧ Http.getAll resp.headers setCookie = [Text.bytes (Local.cookieHeader sm
        (sm.createCookie cr (Handle.realIp peerIp req) calls.clock calls.nonce))]) := by
  have hroute : Handle.ngRoute cfg lc cr sm calls peerIp req = some (Handle.verifyResp lc cr sm calls peerIp req) := by
    simp [Handle.ngRoute, hpath, hmethod]
  rw [Handle.handle, hroute, Handle.verifyResp] at h
  simp only [bind, Except.bind, pure, Except.pure] at h
  cases hpayload : Local.verifyPayload lc req.body with
  | none =>
    rw [hpayload] at h
    cases h
    exact .inl ⟨by decide, rfl⟩
  | some payload =>
    rw [hpayload] at h
    dsimp only at h
    cases hpow : calls.checkPow payload.challenge payload.nonce with
    | false =>
      rw [hpow] at h
      cases h
      exact .inl ⟨by decide, rfl⟩
    | true =>
      have hvisible := visible_cookieHeader hfits
        (hfits.createCookie (Handle.realIp peerIp req) calls.clock calls.nonce)
      rw [hpow, if_pos rfl, Local.verifiedResp, Http.fromStr_visible hvisible] at h
      cases h
      exact .inr ⟨rfl, rfl⟩

/-- What the jar has of such an answer. -/
theorem storeAll_verified (hfits : Fits cr sm) (hvalue : ∀ c ∈ value, isNameChar c = true) (httl : 0 < sm.ttl)
    {now : Nat} {jar : Option Kept} {resp : Response}
    (h : Http.getAll resp.headers setCookie = [Text.bytes (Local.cookieHeader sm value)]) :
    storeAll sm.cookieName now jar resp =
      some { value, expires := some (now + 1000 * sm.ttl), sameSite := .lax } := by
  have htext : Http.text (Text.bytes (Local.cookieHeader sm value)) = Local.cookieHeader sm value :=
    Http.text_bytes (visible_cookieHeader hfits hvalue)
  obtain ⟨n, hn⟩ := Nat.exists_eq_succ_of_ne_zero (Nat.ne_of_gt httl)
  rw [storeAll, h, List.foldl_cons, List.foldl_nil, store, htext, readPair_cookieHeader hfits hvalue]
  dsimp only
  rw [if_pos ⟨rfl, by simp [hfits.plain], isDomain_cookieHeader hfits hvalue⟩, maxAge_cookieHeader hfits hvalue,
    sameSite_cookieHeader hfits hvalue, hn]
  rfl

theorem handle_of_not_ngRoute (hng : ¬Handle.IsNgRoute req) {b : Bool}
    (hsession : Handle.sessionValid cr sm calls peerIp req = .ok b) :
    ∃ acc : Access, Handle.handle cfg lc cr sm calls peerIp req =
        .ok { reply := Handle.decided cfg lc calls req acc, access := some acc } ∧
      acc.admits = (b || decide (Handle.realIp peerIp req ∈ cfg.whitelist) || Handle.bypassMatch cfg req) := by
  rw [Handle.handle, Handle.ngRoute_eq_none.mpr hng, Handle.access, hsession]
  exact ⟨_, rfl, rfl⟩

theorem interstitial_status (cfg : Config rx) (lc : LocalCrates) (calls : Calls) (req : Request) :
    (Handle.interstitial cfg lc calls req).status = 200 := by
  unfold Handle.interstitial
  simp only
  split <;> rfl

/-- The interstitial is for those who are not let through. -/
theorem decided_interstitial_iff {acc : Access} :
    Handle.decided cfg lc calls req acc = .answer (Handle.interstitial cfg lc calls req) ↔ acc.admits = false := by
  have hstatus := interstitial_status cfg lc calls req
  refine ⟨fun h => ?_, fun h => ?_⟩
  · by_contra hadmits
    rw [Handle.decided, if_pos (by simpa using hadmits)] at h
    split at h
    · rw [← Reply.answer.inj h] at hstatus
      exact absurd hstatus (by decide)
    · split at h
      · cases h
      · rw [← Reply.answer.inj h] at hstatus
        exact absurd hstatus (by decide)
  · rw [Handle.decided, if_neg (by simp [h])]

/-! ## The jar over time -/

variable {s t : State} {ev : Event}

/-- The jar has the cookie of the last good answer of a host. -/
def Jar (cr : SealingCrates) (sm : SessionManager) (ip : IpAddr) (jar : Option Kept) : Option Nat → Prop
  | none => jar = none
  | some cleared => ∃ sealedAt nonce, sealedAt.unixSecs = cleared / 1000 ∧ cleared / 1000 + sm.ttl < 2 ^ 64 ∧
      jar = some {
        value := sm.createCookie cr ip sealedAt nonce
        expires := some (cleared + 1000 * sm.ttl)
        sameSite := .lax }

/-- What the session says of a request. -/
def Visit.isCleared (sm : SessionManager) (v : Visit) : Bool :=
  SameSite.lax.lets v.source v.req.method && v.cleared.any fun c => v.now < c + 1000 * sm.ttl

theorem cleared_iff {v : Visit} : Cleared sm v ↔ v.isCleared sm = true := by
  simp only [Cleared, Visit.isCleared, Bool.and_eq_true, Option.any_eq_true, decide_eq_true_eq]

/-- A request is let through by the session as long as it is good. -/
def Judged (cfg : Config rx) (lc : LocalCrates) (sm : SessionManager) (ip : IpAddr) (v : Visit) : Prop :=
  ¬Handle.IsNgRoute v.req → ∃ acc : Access,
    v.handled = .ok { reply := Handle.decided cfg lc v.calls v.req acc, access := some acc } ∧
      acc.admits = (v.isCleared sm || decide (ip ∈ cfg.whitelist) || Handle.bypassMatch cfg v.req)

/-- What holds after any run. -/
structure Sound (cfg : Config rx) (lc : LocalCrates) (cr : SealingCrates) (sm : SessionManager) (ip : IpAddr)
    (s : State) : Prop where
  jar : ∀ host, Jar cr sm ip (s.jar host) (s.cleared host)
  judged : ∀ v ∈ s.visits, Judged cfg lc sm ip v

theorem find?_foreign {name : Str} {pairs : List Pair} (h : ∀ p ∈ pairs, Foreign name p) :
    pairs.find? (fun p => p.name = name) = none :=
  List.find?_eq_none.mpr fun p hp => by simpa using (h p hp).ne

theorem Fits.sendable (hfits : Fits cr sm) (hvalue : ∀ c ∈ value, isNameChar c = true) :
    Sendable ⟨sm.cookieName, value⟩ := by
  refine ⟨hfits.named, hfits.name, fun c hc => ?_⟩
  obtain ⟨-, -, -, hsemicolon⟩ := isNameChar_iff.mp (hvalue c hc)
  rw [isValueChar, visible_of_isNameChar (hvalue c hc)]
  simpa using hsemicolon

theorem sessionValid_without (hfits : Fits cr sm) (hforeign : ∀ p ∈ pairs, Foreign sm.cookieName p)
    (hreq : Http.getAll req.headers cookie = []) :
    Handle.sessionValid cr sm calls peerIp (withCookies req pairs) = .ok false := by
  rw [Handle.sessionValid, sessionCookie_withCookies hreq (fun p hp => (hforeign p hp).sendable)
    (not_mem_of_isNameChar hfits.name).1, find?_foreign hforeign]
  rfl

theorem sessionValid_with (hfits : Fits cr sm) (hforeign : ∀ p ∈ front ++ back, Foreign sm.cookieName p)
    (hreq : Http.getAll req.headers cookie = []) (hvalue : ∀ c ∈ value, isNameChar c = true)
    (haccepts : sm.Accepts cr value (Handle.realIp peerIp req) calls.clock) :
    Handle.sessionValid cr sm calls peerIp (withCookies req (front ++ [⟨sm.cookieName, value⟩] ++ back)) =
      .ok true := by
  have hsend : ∀ p ∈ front ++ [⟨sm.cookieName, value⟩] ++ back, Sendable p := by
    intro p hp
    rw [List.append_assoc, List.mem_append, List.mem_append, List.mem_singleton] at hp
    rcases hp with hp | rfl | hp
    · exact (hforeign p (List.mem_append_left _ hp)).sendable
    · exact hfits.sendable hvalue
    · exact (hforeign p (List.mem_append_right _ hp)).sendable
  have hfront := find?_foreign fun p hp => hforeign p (List.mem_append_left back hp)
  refine Handle.sessionValid_iff.mpr ⟨value, ?_, ?_⟩
  · rw [sessionCookie_withCookies hreq hsend (not_mem_of_isNameChar hfits.name).1, List.append_assoc, List.find?_append,
      hfront, Option.none_or, List.singleton_append, List.find?_cons_of_pos (by simp), Option.map_some,
      trimEnd_of_word hvalue]
  · rwa [realIp_withCookies]

/-- The cookie `handle` finds is the one of the last good answer, until it
has run out. -/
theorem sessionValid_pairs (hfits : Fits cr sm) (hcr : cr.Lawful) {host : Str} {source : Source}
    (hjar : Jar cr sm ip (s.jar host) (s.cleared host)) (hforeign : ∀ p ∈ front ++ back, Foreign sm.cookieName p)
    (hreq : Http.getAll req.headers cookie = []) (hnow : calls.clock.unixSecs = s.now / 1000)
    (hip : Handle.realIp peerIp req = ip) (hinstant : calls.clock.instant + 10 ^ 9 * sm.ttl < 2 ^ 63 * 10 ^ 9) :
    Handle.sessionValid cr sm calls peerIp (withCookies req (s.pairs sm host source req.method front back)) =
      .ok (SameSite.lax.lets source req.method && (s.cleared host).any fun c => s.now < c + 1000 * sm.ttl) := by
  cases hcleared : s.cleared host with
  | none =>
    have hnone : s.jar host = none := by rwa [hcleared] at hjar
    have hpairs : s.pairs sm host source req.method front back = front ++ back := by simp [State.pairs, hnone]
    rw [hpairs, sessionValid_without hfits hforeign hreq]
    simp
  | some c =>
    rw [hcleared] at hjar
    obtain ⟨sealedAt, nonce, hsealed, hlt, hkept⟩ := hjar
    have hgoes : ∀ k ∈ s.jar host, k.goes s.now source req.method =
        (SameSite.lax.lets source req.method && decide (s.now < c + 1000 * sm.ttl)) := by
      intro k hk
      rw [hkept] at hk
      cases hk
      rw [Kept.goes, Bool.and_comm]
      rfl
    by_cases hgo : (SameSite.lax.lets source req.method && decide (s.now < c + 1000 * sm.ttl)) = true
    · have hpairs : s.pairs sm host source req.method front back =
          front ++ [⟨sm.cookieName, sm.createCookie cr ip sealedAt nonce⟩] ++ back := by
        rw [State.pairs, hkept, Option.filter_some_pos (by rw [hgoes _ hkept]; exact hgo)]
        rfl
      have haccepts : sm.Accepts cr (sm.createCookie cr ip sealedAt nonce) (Handle.realIp peerIp req) calls.clock := by
        refine (SessionManager.accepts_createCookie hcr).mpr ⟨hip.symm, ?_, hinstant⟩
        have hlive : s.now < c + 1000 * sm.ttl := by
          rw [Bool.and_eq_true, decide_eq_true_eq] at hgo
          exact hgo.2
        rw [hsealed, Nat.mod_eq_of_lt hlt, hnow]
        omega
      rw [hpairs, sessionValid_with hfits hforeign hreq (hfits.createCookie _ _ _) haccepts, Option.any_some, hgo]
    · have hpairs : s.pairs sm host source req.method front back = front ++ back := by
        rw [State.pairs, hkept, Option.filter_some_neg (by rw [hgoes _ hkept]; simpa using hgo)]
        simp
      rw [hpairs, sessionValid_without hfits hforeign hreq, Option.any_some, Bool.eq_false_iff.mpr hgo]

/-! ## Runs -/

theorem withCookies_method (req : Request) (pairs : List Pair) : (withCookies req pairs).method = req.method := by
  unfold withCookies
  split <;> rfl

theorem step_sound (hfits : Fits cr sm) (hcr : cr.Lawful) (httl : 0 < sm.ttl) (hev : Holds sm s ev)
    (hs : Sound cfg lc cr sm ip s) (h : step cfg lc cr sm ip s ev = some t) : Sound cfg lc cr sm ip t := by
  cases ev with
  | wait millis =>
    cases h
    exact ⟨hs.jar, hs.judged⟩
  | verify host peerIp req calls =>
    simp only [step] at h
    split at h
    · next hguard =>
      obtain ⟨hnow, hip, hpath, hmethod⟩ := hguard
      split at h
      · next resp acc hhandled =>
        cases h
        refine ⟨fun host' => ?_, hs.judged⟩
        dsimp only
        rcases handle_verify hfits hpath hmethod hhandled with ⟨hstatus, hnone⟩ | ⟨hstatus, hset⟩
        · rw [if_neg hstatus, storeAll, hnone, List.foldl_nil, Function.update_eq_self]
          exact hs.jar host'
        · rw [if_pos hstatus, storeAll_verified hfits (hfits.createCookie _ _ _) httl hset, hip]
          by_cases hhost : host' = host
          · rw [hhost, Function.update_self, Function.update_self]
            exact ⟨calls.clock, calls.nonce, hnow, hev.1, rfl⟩
          · rw [Function.update_of_ne hhost, Function.update_of_ne hhost]
            exact hs.jar host'
      · cases h
        exact hs
    · cases h
  | visit host source peerIp req calls front back =>
    simp only [step] at h
    split at h
    · next hguard =>
      obtain ⟨hnow, hip, hreq, hforeign⟩ := hguard
      cases h
      refine ⟨hs.jar, fun v hv => ?_⟩
      rcases List.mem_cons.mp hv with rfl | hv
      · intro hng
        obtain ⟨acc, hhandled, hadmits⟩ := handle_of_not_ngRoute hng
          (sessionValid_pairs hfits hcr (hs.jar host) hforeign hreq hnow hip hev.2)
        rw [realIp_withCookies, hip] at hadmits
        refine ⟨acc, hhandled, ?_⟩
        rw [hadmits, Visit.isCleared, withCookies_method]
      · exact hs.judged v hv
    · cases h

theorem oneMinute_fits : Fits Sample.crates Sample.oneMinute where
  named := by decide +kernel
  name := by decide +kernel
  plain := by decide +kernel
  value bytes c hc := by
    have hdigit : ∀ n < 16, isNameChar (Hex.digit n) = true := by decide
    obtain ⟨b, -, hc⟩ := List.mem_flatMap.mp hc
    have hb := b.toNat_lt
    simp only [Hex.encodeByte, List.mem_cons, List.not_mem_nil, or_false] at hc
    rcases hc with rfl | rfl <;> exact hdigit _ (by omega)

def solved : Calls := { Sample.calls with clock := { unixSecs := 100, instant := 7 }, checkPow _ _ := true }

def verifyRequest : Request where
  method := .post
  path := "/__ng/verify".toList
  query := none
  headers := []
  body := ⟨[Sample.verifyBody], false⟩

def visitAt (millis : Nat) (host : String) (source : Source) : Event :=
  .visit host.toList source (.v4 10 0 0 1) (Sample.visit "/" [])
    { Sample.calls with clock := { unixSecs := millis / 1000, instant := 9 } } [⟨"lang".toList, "de".toList⟩]
    [⟨"theme".toList, "dark mode".toList⟩]

/-- The session's last millisecond: at its host, at another one, and for what
another site embeds; and the one after it. -/
def someVisits : List Event :=
  [.wait 100900, .verify "a.example".toList (.v4 10 0 0 1) verifyRequest solved, .wait 59999,
    visitAt 160899 "a.example" .site, visitAt 160899 "b.example" .site, visitAt 160899 "a.example" .other, .wait 1,
    visitAt 160900 "a.example" .site]

abbrev stepSample : Machine State Event :=
  step (Sample.server []) Sample.locals Sample.crates Sample.oneMinute (.v4 10 0 0 1)

end NekoGuard.Visitor
