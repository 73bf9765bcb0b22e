/-
config.rs and main.rs: the `rate_limit` tables as a configuration file has
them, the limits `expand` makes of them (`cascades_iff`), and the limits a
request is held to (`ownLimits_iff`).
-/
import NekoGuard.HandleFacts

namespace NekoGuard.Config

/-! ## Tables -/

inductive Field where
  | rps
  | rpm
  | burst
deriving DecidableEq, Repr

def RateLimitConfig.get (rl : RateLimitConfig) : Field → Nat
  | .rps => rl.rps
  | .rpm => rl.rpm
  | .burst => rl.burst

/-- What serde puts where a table leaves the field out. -/
def Field.default : Field → Nat
  | .rps => defaultRps
  | .rpm => defaultRpm
  | .burst => defaultBurst

/-- A `rate_limit` table: `none` is a field that is left out. -/
structure RateLimitTable where
  enabled : Option Bool := none
  rps : Option Nat := none
  rpm : Option Nat := none
  burst : Option Nat := none
deriving DecidableEq, Repr

def RateLimitTable.get (t : RateLimitTable) : Field → Option Nat
  | .rps => t.rps
  | .rpm => t.rpm
  | .burst => t.burst

def RateLimitTable.deserialize (t : RateLimitTable) : RateLimitConfig where
  enabled := t.enabled.getD false
  rps := t.rps.getD defaultRps
  rpm := t.rpm.getD defaultRpm
  burst := t.burst.getD defaultBurst

structure SubSiteFile where
  name : Str
  upstream : Option Str := none
  bypass : Option (List Str) := none
  rateLimit : Option RateLimitTable := none
deriving DecidableEq, Repr

structure SiteFile where
  domain : Str
  upstream : Str := []
  bypass : List Str := []
  rateLimit : Option RateLimitTable := none
  sub : List SubSiteFile := []
deriving DecidableEq, Repr

structure CatchallFile where
  upstream : Str
  bypass : List Str := []
  rateLimit : Option RateLimitTable := none
deriving DecidableEq, Repr

structure ConfigFile where
  sites : List SiteFile := []
  rateLimit : Option RateLimitTable := none
  whitelist : List Str := []
  catchall : Option CatchallFile := none
  nekoguard : NekoguardSub := {}
deriving DecidableEq, Repr

def SubSiteFile.deserialize (sub : SubSiteFile) : SubSiteToml where
  name := sub.name
  upstream := sub.upstream
  bypass := sub.bypass
  rateLimit := sub.rateLimit.map (·.deserialize)

def SiteFile.deserialize (s : SiteFile) : SiteToml where
  domain := s.domain
  upstream := s.upstream
  bypass := s.bypass
  rateLimit := s.rateLimit.map (·.deserialize)
  sub := s.sub.map (·.deserialize)

def CatchallFile.deserialize (c : CatchallFile) : CatchallConfig where
  upstream := c.upstream
  bypass := c.bypass
  rateLimit := c.rateLimit.map (·.deserialize)

def ConfigFile.deserialize (file : ConfigFile) : ConfigToml where
  sites := file.sites.map (·.deserialize)
  rateLimit := (file.rateLimit.map (·.deserialize)).getD default
  whitelist := file.whitelist
  catchall := file.catchall.map (·.deserialize)
  nekoguard := file.nekoguard

/-! ## The cascade -/

/-- The number a block writes itself, zero being none. -/
def written (t : Option RateLimitTable) (f : Field) : Option Nat := (t.bind (·.get f)).filter (0 < ·)

/-- The first number written: in the block of the domain, else globally. -/
def siteLimit (file : ConfigFile) (s : SiteFile) (f : Field) : Nat :=
  (written s.rateLimit f).getD (file.deserialize.rateLimit.get f)

/-- In the block of the sub, else in its parent's, else globally. -/
def subLimit (file : ConfigFile) (s : SiteFile) (sub : SubSiteFile) (f : Field) : Nat :=
  (written sub.rateLimit f).getD (siteLimit file s f)

variable {rx : RegexCrate}

/-- The site of a domain has these numbers. -/
def Limits (cfg : Config rx) (domain : Str) (limit : Field → Nat) : Prop :=
  ∃ t, cfg.siteForHost domain = some t ∧ ∀ f, t.rateLimit.get f = limit f

/-- Every domain and every sub with an upstream has the numbers of the
cascade. -/
structure Cascades (file : ConfigFile) (cfg : Config rx) : Prop where
  site : ∀ s ∈ file.sites, s.upstream ≠ [] → Limits cfg s.domain (siteLimit file s)
  sub : ∀ s ∈ file.sites, ∀ sub ∈ s.sub, subUpstream s.deserialize sub.deserialize ≠ [] →
    Limits cfg (subDomain s.deserialize sub.deserialize) (subLimit file s sub)

/-- What stands in for a number that a block does not write: the default
where it leaves the field out, the global number where it has a zero there or
there is no block. -/
def standIn (base : RateLimitConfig) (t : Option RateLimitTable) (f : Field) : Nat :=
  match t with
  | none => base.get f
  | some t => if t.get f = none then f.default else base.get f

/-- Where the block does not write the number, what stands in for it is the
inherited one. -/
def Passes (base : RateLimitConfig) (t : Option RateLimitTable) (inherited : Nat) (f : Field) : Prop :=
  written t f = none → standIn base t f = inherited

theorem Field.default_pos (f : Field) : 0 < f.default := by
  cases f <;> decide

theorem deserialize_get (t : RateLimitTable) (f : Field) : t.deserialize.get f = (t.get f).getD f.default := by
  cases f <;> rfl

theorem mergeRl_get (base own : RateLimitConfig) (f : Field) :
    (mergeRl base own).get f = if 0 < own.get f then own.get f else base.get f := by
  cases f <;> rfl

theorem blockLimit_get (base : RateLimitConfig) (t : Option RateLimitTable) (f : Field) :
    (blockLimit base (t.map (·.deserialize))).get f = (written t f).getD (standIn base t f) := by
  cases t with
  | none => rfl
  | some t =>
    have hdefault := f.default_pos
    simp only [blockLimit, written, standIn, Option.map_some, Option.getD_some, Option.bind_some, mergeRl_get,
      deserialize_get]
    cases t.get f with
    | none => simp [hdefault]
    | some n => by_cases hn : 0 < n <;> simp [Option.filter_some, hn]

theorem blockLimit_get_eq_iff (base : RateLimitConfig) (t : Option RateLimitTable) (inherited : Nat) (f : Field) :
    (blockLimit base (t.map (·.deserialize))).get f = (written t f).getD inherited ↔ Passes base t inherited f := by
  rw [blockLimit_get]
  unfold Passes
  cases written t f with
  | none => simp
  | some n => simp

theorem limits_iff {raw : ConfigToml} {cfg : Config rx} {b : Block} {domain : Str} {limit : Field → Nat}
    (h : Expanded raw cfg) (hb : b ∈ blocks raw) (hd : b.domain = normalizeHost domain) :
    Limits cfg domain limit ↔ ∀ f, b.rateLimit.get f = limit f := by
  obtain ⟨t, ht, rfl⟩ := h.siteForHost hb hd
  constructor
  · intro ⟨u, hu, hlimit⟩
    rw [ht, Option.some.injEq] at hu
    exact hu ▸ hlimit
  · intro hlimit
    exact ⟨t, ht, hlimit⟩

/-- **When the limits cascade.** The numbers of all domains and subs are the
first ones written, if and only if nothing else stands in for those that
are not. -/
theorem cascades_iff {file : ConfigFile} {path : String} {cfg : Config rx}
    (hcfg : expand rx file.deserialize path = .ok cfg) :
    Cascades file cfg ↔ ∀ s ∈ file.sites, ∀ f,
      (s.upstream ≠ [] → Passes file.deserialize.rateLimit s.rateLimit (file.deserialize.rateLimit.get f) f) ∧
      ∀ sub ∈ s.sub, subUpstream s.deserialize sub.deserialize ≠ [] →
        Passes file.deserialize.rateLimit sub.rateLimit (siteLimit file s f) f := by
  have hex := expand_ok hcfg
  have hsite : ∀ s ∈ file.sites, s.upstream ≠ [] → (Limits cfg s.domain (siteLimit file s) ↔
      ∀ f, Passes file.deserialize.rateLimit s.rateLimit (file.deserialize.rateLimit.get f) f) := by
    intro s hs hup
    have hb : (⟨normalizeHost s.domain, s.upstream, s.bypass,
        blockLimit file.deserialize.rateLimit (s.rateLimit.map (·.deserialize))⟩ : Block) ∈
        blocks file.deserialize := by
      refine List.mem_flatMap.mpr ⟨s.deserialize, List.mem_map_of_mem hs, List.mem_append_left _ ?_⟩
      simp [siteBlock, SiteFile.deserialize, hup]
    rw [limits_iff hex hb rfl]
    exact forall_congr' fun f => blockLimit_get_eq_iff _ _ _ f
  have hsub : ∀ s ∈ file.sites, ∀ sub ∈ s.sub, subUpstream s.deserialize sub.deserialize ≠ [] →
      (Limits cfg (subDomain s.deserialize sub.deserialize) (subLimit file s sub) ↔
        ∀ f, Passes file.deserialize.rateLimit sub.rateLimit (siteLimit file s f) f) := by
    intro s hs sub hmem hup
    have hb : (⟨normalizeHost (subDomain s.deserialize sub.deserialize), subUpstream s.deserialize sub.deserialize,
        sub.bypass.getD s.bypass,
        blockLimit file.deserialize.rateLimit (sub.rateLimit.map (·.deserialize))⟩ : Block) ∈
        blocks file.deserialize := by
      refine List.mem_flatMap.mpr ⟨s.deserialize, List.mem_map_of_mem hs, List.mem_append_right _ ?_⟩
      refine List.mem_flatMap.mpr ⟨sub.deserialize, List.mem_map_of_mem hmem, ?_⟩
      unfold subBlock
      rw [if_neg hup]
      exact List.mem_singleton.mpr rfl
    rw [limits_iff hex hb rfl]
    exact forall_congr' fun f => blockLimit_get_eq_iff _ _ _ f
  constructor
  · intro h s hs f
    exact ⟨fun hup => (hsite s hs hup).mp (h.site s hs hup) f,
      fun sub hmem hup => (hsub s hs sub hmem hup).mp (h.sub s hs sub hmem hup) f⟩
  · intro h
    exact ⟨fun s hs hup => (hsite s hs hup).mpr fun f => (h s hs f).1 hup,
      fun s hs sub hmem hup => (hsub s hs sub hmem hup).mpr fun f => (h s hs f).2 sub hmem hup⟩

/-- A domain with five requests a second, and one sub. -/
def fiveAndWww (www : Option RateLimitTable) : ConfigFile where
  sites := [{ domain := "a.example".toList, upstream := "http://origin".toList,
              rateLimit := some { rps := some 5 }, sub := [{ name := "www".toList, rateLimit := www }] }]

def fiveToo : RateLimitTable := { rps := some 5, rpm := some 0 }

theorem fiveToo_cascades : ∃ cfg, expand Sample.regexes (fiveAndWww (some fiveToo)).deserialize "" = .ok cfg ∧
    Cascades (fiveAndWww (some fiveToo)) cfg := by
  have hok : (expand Sample.regexes (fiveAndWww (some fiveToo)).deserialize "").isOk = true := by decide +kernel
  obtain ⟨cfg, hcfg⟩ := exists_of_isOk hok
  refine ⟨cfg, hcfg, (cascades_iff hcfg).mpr fun s hs f => ?_⟩
  rw [List.mem_singleton.mp hs]
  refine ⟨fun _ => by cases f <;> unfold Passes <;> decide +kernel, fun sub hsub _ => ?_⟩
  rw [List.mem_singleton.mp hsub]
  cases f <;> unfold Passes <;> decide +kernel

/-- The sub goes back to the global ten a second. -/
theorem www_not_cascades : ∃ cfg, expand Sample.regexes (fiveAndWww none).deserialize "" = .ok cfg ∧
    ¬Cascades (fiveAndWww none) cfg := by
  have hlimit : (expand Sample.regexes (fiveAndWww none).deserialize "").toOption.map
      (fun cfg => (cfg.siteForHost "www.a.example".toList).map (·.rateLimit)) = some (some default) := by
    decide +kernel
  obtain ⟨cfg, hcfg, hlimit⟩ := Option.map_eq_some_iff.mp hlimit
  refine ⟨cfg, eq_ok_of_toOption hcfg, fun h => ?_⟩
  obtain ⟨t, ht, hrps⟩ := h.sub _ (List.mem_singleton.mpr rfl) _ (List.mem_singleton.mpr rfl) (by decide +kernel)
  have hdefault : t.rateLimit = default := by
    have ht : cfg.siteForHost "www.a.example".toList = some t := ht
    rw [ht] at hlimit
    exact Option.some.inj hlimit
  have hfive := hrps .rps
  rw [hdefault] at hfive
  revert hfive
  decide +kernel

end NekoGuard.Config

namespace NekoGuard.Handle

open Config

/-! ## Requests -/

variable {rx : RegexCrate} {cfg : Config rx} {cr : SealingCrates} {sm : SessionManager} {calls : Calls}
  {peerIp : IpAddr} {req : Request}

/-- The limits are those of the site of the Host, when there is one; the
catchall's serve it only if they are the same. -/
structure OwnLimits (cfg : Config rx) (req : Request) (rl : RateLimitConfig) : Prop where
  site : ∀ s, (req.header "host").bind cfg.siteForHost = some s → rl = s.rateLimit
  catchall : ∀ c, cfg.catchall.bind (·.rateLimit) = some c → rl = c →
    ∀ s, (req.header "host").bind cfg.siteForHost = some s → s.rateLimit = c

/-- Who is admitted on a session or by the whitelist pays from the bucket
of his address. -/
theorem access_bucket {acc : Access} (hacc : access cfg cr sm calls peerIp req = .ok acc)
    (hadmits : acc.admits = true) (hby : acc.bypassed = false) :
    acc.bucket = some (realIp peerIp req, siteRl cfg) := by
  unfold access at hacc
  cases hvalid : sessionValid cr sm calls peerIp req with
  | error e =>
    rw [hvalid] at hacc
    cases hacc
  | ok valid =>
    rw [hvalid] at hacc
    cases hacc
    simp only [Access.admits] at hadmits hby ⊢
    rw [hby, Bool.or_false] at hadmits
    simp only [hadmits, hby, Bool.not_false, Bool.and_self, if_true]

/-- **When a site's own limits apply.** A request that is admitted and not
bypassed is held to the limits of its site, if and only if these are the
catchall's, or the global ones where the catchall has none. -/
theorem ownLimits_iff {acc : Access} (hacc : access cfg cr sm calls peerIp req = .ok acc)
    (hadmits : acc.admits = true) (hby : acc.bypassed = false) :
    (∃ rl, acc.bucket = some (realIp peerIp req, rl) ∧ OwnLimits cfg req rl) ↔
      ∀ s, (req.header "host").bind cfg.siteForHost = some s →
        match cfg.catchall.bind (·.rateLimit) with
        | some c => c = s.rateLimit
        | none => cfg.rateLimit = s.rateLimit := by
  have hbucket := access_bucket hacc hadmits hby
  constructor
  · intro ⟨rl, hrl, hown⟩ s hs
    have hrl : rl = siteRl cfg := by
      rw [hbucket, Option.some.injEq, Prod.mk.injEq] at hrl
      exact hrl.2.symm
    have hsite := hown.site s hs
    rw [hrl] at hsite
    unfold siteRl at hsite
    split <;> next hc => rwa [hc] at hsite
  · intro h
    refine ⟨siteRl cfg, hbucket, ?_, ?_⟩
    · intro s hs
      have hsite := h s hs
      unfold siteRl
      split at hsite <;> next hc => rwa [hc]
    · intro c hc _ s hs
      have hsite := h s hs
      rw [hc] at hsite
      exact hsite.symm

/-- One request a second for a.example, nothing said for everything else. -/
def slowSite : ConfigToml where
  sites := [{ domain := "a.example".toList, upstream := "http://origin".toList,
              rateLimit := some { enabled := true, rps := 1, rpm := 60, burst := 1 } }]
  whitelist := ["10.0.0.1".toList]

theorem unlimited_ownLimits : ∃ (cfg : Config Sample.regexes) (acc : Access),
    access cfg Sample.crates Sample.manager Sample.calls (.v4 10 0 0 1) (Sample.visit "/" []) = .ok acc ∧
      ∃ rl, acc.bucket = some (.v4 10 0 0 1, rl) ∧ OwnLimits cfg (Sample.visit "/" []) rl := by
  have hacc : access (Sample.server [.v4 10 0 0 1]) Sample.crates Sample.manager Sample.calls (.v4 10 0 0 1)
      (Sample.visit "/" []) = .ok ⟨false, true, false, some (.v4 10 0 0 1, default)⟩ := by decide +kernel
  refine ⟨_, _, hacc, (ownLimits_iff hacc rfl rfl).mpr fun s hs => ?_⟩
  have hsite : ((Sample.visit "/" []).header "host").bind (Sample.server [.v4 10 0 0 1]).siteForHost =
      some { domain := "a.example".toList, upstream := "http://origin".toList, bypass := [], rateLimit := default } := by
    rfl
  rw [hsite] at hs
  cases hs
  rfl

/-- The global ten a second go to `allow`. -/
theorem slowSite_ignored : ∃ cfg acc, expand Sample.regexes slowSite "" = .ok cfg ∧
    access cfg Sample.crates Sample.manager Sample.calls (.v4 10 0 0 1) (Sample.visit "/" []) = .ok acc ∧
    acc.admits = true ∧ acc.bypassed = false ∧
    ¬∃ rl, acc.bucket = some (realIp (.v4 10 0 0 1) (Sample.visit "/" []), rl) ∧
      OwnLimits cfg (Sample.visit "/" []) rl := by
  have hrun : (expand Sample.regexes slowSite "").toOption.map (fun cfg =>
      ((access cfg Sample.crates Sample.manager Sample.calls (.v4 10 0 0 1) (Sample.visit "/" [])).toOption,
        (cfg.siteForHost "a.example".toList).map (·.rateLimit))) =
      some (some ⟨false, true, false, some (.v4 10 0 0 1, default)⟩, some ⟨true, 1, 60, 1⟩) := by decide +kernel
  obtain ⟨cfg, hcfg, hboth⟩ := Option.map_eq_some_iff.mp hrun
  obtain ⟨hacc, hlimit⟩ := Prod.mk.inj hboth
  refine ⟨cfg, _, eq_ok_of_toOption hcfg, eq_ok_of_toOption hacc, rfl, rfl, ?_⟩
  intro ⟨rl, hrl, hown⟩
  obtain ⟨s, hs, hrate⟩ := Option.map_eq_some_iff.mp hlimit
  have hhost : (Sample.visit "/" []).header "host" = some "a.example".toList := by decide +kernel
  have hsame := hown.site s (by rw [hhost, Option.bind_some, hs])
  rw [hrate] at hsame
  rw [hsame] at hrl
  revert hrl
  decide +kernel

end NekoGuard.Handle
