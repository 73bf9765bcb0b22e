/-
config.rs: the configuration as written, what `expand` makes of it, and the
lookup of a site by host. The regex crate is a parameter; a `Regex` is a
pattern it compiles.
-/
import Mathlib.Data.Char
import Mathlib.Data.List.Lex
import Mathlib.Data.List.Sort
import NekoGuard.Std.IpAddr

namespace NekoGuard

/-- The `regex` crate: which patterns compile, the error of one that does
not, and whether a compiled one matches. -/
structure RegexCrate where
  compiles : Str → Bool
  error : Str → String
  isMatch : Str → Str → Bool

structure Regex (rx : RegexCrate) where
  pattern : Str
  compiles : rx.compiles pattern = true

namespace Regex

variable {rx : RegexCrate}

/-- `Regex::new`. -/
def new (rx : RegexCrate) (pattern : Str) : Except String (Regex rx) :=
  if h : rx.compiles pattern = true then .ok ⟨pattern, h⟩ else .error (rx.error pattern)

def isMatch (re : Regex rx) (s : Str) : Bool := rx.isMatch re.pattern s

end Regex

namespace Config

/-! ## As written -/

structure RateLimitConfig where
  enabled : Bool
  rps : Nat
  rpm : Nat
  burst : Nat
deriving DecidableEq, Repr

def defaultRps : Nat := 10
def defaultRpm : Nat := 600
def defaultBurst : Nat := 20

instance : Inhabited RateLimitConfig :=
  ⟨{ enabled := false, rps := defaultRps, rpm := defaultRpm, burst := defaultBurst }⟩

structure SubSiteToml where
  name : Str
  upstream : Option Str := none
  bypass : Option (List Str) := none
  rateLimit : Option RateLimitConfig := none
deriving DecidableEq, Repr

structure SiteToml where
  domain : Str
  upstream : Str := []
  bypass : List Str := []
  rateLimit : Option RateLimitConfig := none
  sub : List SubSiteToml := []
deriving DecidableEq, Repr

structure CatchallConfig where
  upstream : Str
  bypass : List Str := []
  rateLimit : Option RateLimitConfig := none
deriving DecidableEq, Repr

structure SessionConfig where
  cookieName : Str := "nekoguard_session".toList
  ttl : Nat := 1800
deriving DecidableEq, Repr

structure NekoguardSub where
  port : Nat := 443
  portHttp : Option Nat := none
  session : SessionConfig := {}
deriving DecidableEq, Repr

structure ConfigToml where
  sites : List SiteToml := []
  rateLimit : RateLimitConfig := default
  whitelist : List Str := []
  catchall : Option CatchallConfig := none
  /-- Without the table the derived default, where the port is 0. -/
  nekoguard : NekoguardSub := { port := 0 }
deriving DecidableEq, Repr

/-! ## Runtime form -/

/-- Lowercase, without the port and trailing dots. -/
def normalizeHost (host : Str) : Str :=
  Text.toAsciiLowercase (Text.trimEndMatches (· == '.') (Text.splitFirst host ':'))

variable (rx : RegexCrate)

structure Site where
  domain : Str
  upstream : Str
  bypass : List (Regex rx)
  rateLimit : RateLimitConfig

end Config

open Config in
structure Config (rx : RegexCrate) where
  sites : List (Site rx)
  rateLimit : RateLimitConfig
  whitelist : List IpAddr
  catchall : Option CatchallConfig
  catchallBypass : List (Regex rx)
  port : Nat
  portHttp : Option Nat
  session : SessionConfig

namespace Config

variable {rx : RegexCrate}

/-- The site a request Host header belongs to. -/
def siteForHost (cfg : Config rx) (host : Str) : Option (Site rx) :=
  cfg.sites.find? fun s => s.domain == normalizeHost host

/-- Whether a handshake's SNI names a configured site. -/
def isKnownDomain (cfg : Config rx) (name : Str) : Bool :=
  cfg.sites.any fun s => s.domain == normalizeHost name

/-! ## `expand` -/

def panicWith (parts : List String) : Rust α := .error ⟨String.join parts⟩

def compileBypass (domain : Str) (patterns : List Str) (path : String) : Rust (List (Regex rx)) :=
  patterns.mapM fun p =>
    match Regex.new rx p with
    | .ok re => .ok re
    | .error e => panicWith ["config '", path, "': site '", String.ofList domain,
        "': bad bypass regex '", String.ofList p, "': ", e]

/-- Only non-zero values override. -/
def mergeRl (base override : RateLimitConfig) : RateLimitConfig where
  enabled := base.enabled || override.enabled
  rps := if 0 < override.rps then override.rps else base.rps
  rpm := if 0 < override.rpm then override.rpm else base.rpm
  burst := if 0 < override.burst then override.burst else base.burst

/-- The limit of a block: its own merged over the global one. -/
def blockLimit (base : RateLimitConfig) (own : Option RateLimitConfig) : RateLimitConfig :=
  (own.map (mergeRl base)).getD base

/-- The sites pushed so far; `seen` is the set of their domains. -/
def push (path : String) (sites : List (Site rx)) (domain upstream : Str) (bypass : List (Regex rx))
    (rl : RateLimitConfig) : Rust (List (Site rx)) :=
  let domain := normalizeHost domain
  if sites.any fun s => s.domain == domain then
    panicWith ["config '", path, "': duplicate site '", String.ofList domain, "'"]
  else .ok (sites ++ [{ domain, upstream, bypass, rateLimit := rl }])

/-- The upstream of a sub: its own when the key is present, else its parent's. -/
def subUpstream (s : SiteToml) (sub : SubSiteToml) : Str := sub.upstream.getD s.upstream

def subDomain (s : SiteToml) (sub : SubSiteToml) : Str := sub.name ++ '.' :: s.domain

def expandSub (path : String) (base : RateLimitConfig) (s : SiteToml) (sites : List (Site rx))
    (sub : SubSiteToml) : Rust (List (Site rx)) :=
  let upstream := subUpstream s sub
  -- No upstream here or inherited: the whole entry is skipped.
  if upstream = [] then .ok sites
  else do
    let full := subDomain s sub
    let bypass ← compileBypass full (sub.bypass.getD s.bypass) path
    push path sites full upstream bypass (blockLimit base sub.rateLimit)

def expandSite (path : String) (base : RateLimitConfig) (sites : List (Site rx)) (s : SiteToml) :
    Rust (List (Site rx)) := do
  let sites ←
    if s.upstream = [] then .ok sites
    else do
      let bypass ← compileBypass s.domain s.bypass path
      push path sites s.domain s.upstream bypass (blockLimit base s.rateLimit)
  s.sub.foldlM (expandSub path base s) sites

def catchallPatterns (c : Option CatchallConfig) : List Str := (c.map (·.bypass)).getD []

/-- Flatten the configuration: one site for each entry with an upstream. -/
def expand (rx : RegexCrate) (raw : ConfigToml) (path : String) : Rust (Config rx) := do
  let sites ← raw.sites.foldlM (expandSite path raw.rateLimit) []
  if sites = [] then
    panicWith ["config '", path,
      "': no usable sites — every [[sites]] entry needs a non-empty upstream"]
  let catchallBypass ← (catchallPatterns raw.catchall).mapM fun p =>
    match Regex.new rx p with
    | .ok re => .ok re
    | .error e => panicWith ["bad catchall bypass '", String.ofList p, "': ", e]
  return {
    sites := sites.insertionSort fun a b => a.domain ≤ b.domain
    rateLimit := raw.rateLimit
    whitelist := raw.whitelist.filterMap IpAddr.parse
    catchall := raw.catchall
    catchallBypass
    port := raw.nekoguard.port
    portHttp := raw.nekoguard.portHttp
    session := raw.nekoguard.session }

end Config

end NekoGuard
