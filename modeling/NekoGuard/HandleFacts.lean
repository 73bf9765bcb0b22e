/-
What lets a request through `handle`: whose bypass list is asked
(`bypass_own_iff`), and whose address (`access_bound_iff`).
-/
import NekoGuard.ConfigFacts
import NekoGuard.Handle
import NekoGuard.Samples

namespace NekoGuard.Handle

open Config

variable {rx : RegexCrate} {cfg : Config rx} {lc : LocalCrates} {cr : SealingCrates} {sm : SessionManager}
  {calls : Calls} {peerIp : IpAddr} {req : Request}

/-! ## Whose bypass list -/

/-- `handle` passes the request on to that upstream. -/
def ForwardedTo (cfg : Config rx) (lc : LocalCrates) (cr : SealingCrates) (sm : SessionManager) (calls : Calls)
    (peerIp : IpAddr) (req : Request) (u : Str) : Prop :=
  ∃ h document bypassed, handle cfg lc cr sm calls peerIp req = .ok h ∧ h.reply = .proxy u document bypassed

/-- A stranger is let through by a bypass list, and by nothing else. -/
theorem forwarded_iff_bypassed {u : Str} (hsession : sessionValid cr sm calls peerIp req = .ok false)
    (hwhite : realIp peerIp req ∉ cfg.whitelist) (hup : upstream cfg req = some u) :
    ForwardedTo cfg lc cr sm calls peerIp req u ↔ ¬IsNgRoute req ∧ bypassMatch cfg req = true := by
  have hacc : access cfg cr sm calls peerIp req = .ok
      { sessionValid := false, whitelisted := false, bypassed := bypassMatch cfg req, bucket := none } := by
    unfold access
    rw [hsession]
    simp [hwhite, bind, Except.bind, pure, Except.pure]
  constructor
  · intro ⟨h, document, bypassed, hh, hreply⟩
    unfold handle at hh
    cases hng : ngRoute cfg lc cr sm calls peerIp req with
    | some resp =>
      rw [hng] at hh
      cases resp with
      | error e => cases hh
      | ok resp =>
        cases hh
        cases hreply
    | none =>
      refine ⟨ngRoute_eq_none.mp hng, ?_⟩
      rw [hng, hacc] at hh
      cases hh
      by_contra hno
      simp [decided, Access.admits, hno] at hreply
  · intro ⟨hng, hby⟩
    refine ⟨⟨.proxy u (isDocumentRequest req) true, some ⟨false, false, true, none⟩⟩,
      isDocumentRequest req, true, ?_, rfl⟩
    have hdecided : decided cfg lc calls req ⟨false, false, true, none⟩ =
        .proxy u (isDocumentRequest req) true := by
      simp [decided, Access.admits, hup]
    unfold handle
    rw [ngRoute_eq_none.mpr hng, hacc, hby]
    simp only [bind, Except.bind, pure, Except.pure, hdecided]

/-- Whose list a request is held against: the block of its Host, and the
catchall. -/
theorem bypassMatch_iff {raw : ConfigToml} {b : Block} {host : Str} (hcfg : Expanded raw cfg)
    (hb : b ∈ blocks raw) (hhost : req.header "host" = some host) (hd : b.domain = normalizeHost host) :
    bypassMatch cfg req = true ↔
      Matches rx b.bypass req.path ∨ Matches rx (catchallPatterns raw.catchall) req.path := by
  obtain ⟨s, hs, rfl⟩ := hcfg.siteForHost hb hd
  unfold bypassMatch
  simp only [hhost, Option.bind_some, hs, Option.any_some, Bool.or_eq_true, any_isMatch, hcfg.catchallBypass]
  rfl

/-- **When a site's own bypass list decides.** A stranger's request for a
configured domain is passed on exactly when the list of that domain's block
has its path, if and only if the catchall's list does not have the path
where the block's has not, and NekoGuard does not answer the path itself
where the block's list has it. -/
theorem bypass_own_iff {raw : ConfigToml} {path : String} {b : Block} {host : Str}
    (hcfg : expand rx raw path = .ok cfg) (hb : b ∈ blocks raw) (hhost : req.header "host" = some host)
    (hd : b.domain = normalizeHost host) (hsession : sessionValid cr sm calls peerIp req = .ok false)
    (hwhite : realIp peerIp req ∉ cfg.whitelist) :
    (ForwardedTo cfg lc cr sm calls peerIp req b.upstream ↔ Matches rx b.bypass req.path) ↔
      (¬IsNgRoute req → Matches rx (catchallPatterns raw.catchall) req.path → Matches rx b.bypass req.path) ∧
        (IsNgRoute req → ¬Matches rx b.bypass req.path) := by
  have hex := expand_ok hcfg
  have hup : upstream cfg req = some b.upstream := by
    obtain ⟨s, hs, rfl⟩ := hex.siteForHost hb hd
    simp only [upstream, hhost, Option.bind_some, hs, Option.map_some, Option.some_or]
    rfl
  rw [forwarded_iff_bypassed hsession hwhite hup, bypassMatch_iff hex hb hhost hd]
  by_cases hng : IsNgRoute req
  · simp only [hng, not_true_eq_false, false_and, false_iff, false_imp_iff, true_and, true_imp_iff]
  · simp only [hng, not_false_eq_true, true_and, true_imp_iff, false_imp_iff, and_true]
    constructor
    · intro h hc
      exact h.mp (.inr hc)
    · intro h
      exact ⟨fun hm => hm.elim id h, .inl⟩

/-- A server with one site, and perhaps a catchall whose list has every path. -/
def oneSite (bypass : List Str) (catchall : Option CatchallConfig) : ConfigToml where
  sites := [{ domain := "a.example".toList, upstream := "http://origin".toList, bypass }]
  catchall := catchall

def openCatchall : CatchallConfig := { upstream := "http://other".toList, bypass := [".*".toList] }

theorem oneSite_bypass : ∃ cfg, expand Sample.regexes (oneSite ["^/api/.*".toList] none) "" = .ok cfg ∧
    (ForwardedTo cfg Sample.locals Sample.crates Sample.manager Sample.calls (.v4 10 0 0 1) (Sample.visit "/api/x" [])
      "http://origin".toList ↔ Matches Sample.regexes ["^/api/.*".toList] "/api/x".toList) := by
  have hok : (expand Sample.regexes (oneSite ["^/api/.*".toList] none) "").isOk = true := by decide +kernel
  obtain ⟨cfg, hcfg⟩ := exists_of_isOk hok
  have hwhite : realIp (.v4 10 0 0 1) (Sample.visit "/api/x" []) ∉ cfg.whitelist := by
    rw [(expand_ok hcfg).whitelist]
    exact List.not_mem_nil
  have hb : (⟨"a.example".toList, "http://origin".toList, ["^/api/.*".toList], default⟩ : Block) ∈
      blocks (oneSite ["^/api/.*".toList] none) := by decide +kernel
  have hng : ¬IsNgRoute (Sample.visit "/api/x" []) := by decide +kernel
  have hhost : (Sample.visit "/api/x" []).header "host" = some "a.example".toList := by decide +kernel
  have hd : "a.example".toList = normalizeHost "a.example".toList := by decide +kernel
  have hsession : sessionValid Sample.crates Sample.manager Sample.calls (.v4 10 0 0 1) (Sample.visit "/api/x" []) =
      .ok false := by decide +kernel
  exact ⟨cfg, hcfg, (bypass_own_iff hcfg hb hhost hd hsession hwhite).mpr
    ⟨fun _ ⟨_, hp, _⟩ => absurd hp List.not_mem_nil, fun h => absurd h hng⟩⟩

/-- The site bypasses nothing, and its request is passed on all the same. -/
theorem openCatchall_opens_site : ∃ cfg, expand Sample.regexes (oneSite [] (some openCatchall)) "" = .ok cfg ∧
    (∃ s, cfg.siteForHost "a.example".toList = some s ∧ s.bypass.map (·.pattern) = []) ∧
    sessionValid Sample.crates Sample.manager Sample.calls (.v4 10 0 0 1) (Sample.visit "/" []) = .ok false ∧
    realIp (.v4 10 0 0 1) (Sample.visit "/" []) ∉ cfg.whitelist ∧
    ¬(ForwardedTo cfg Sample.locals Sample.crates Sample.manager Sample.calls (.v4 10 0 0 1) (Sample.visit "/" [])
      "http://origin".toList ↔ Matches Sample.regexes [] "/".toList) := by
  have hok : (expand Sample.regexes (oneSite [] (some openCatchall)) "").isOk = true := by decide +kernel
  obtain ⟨cfg, hcfg⟩ := exists_of_isOk hok
  have hex := expand_ok hcfg
  have hwhite : realIp (.v4 10 0 0 1) (Sample.visit "/" []) ∉ cfg.whitelist := by
    rw [hex.whitelist]
    exact List.not_mem_nil
  have hb : (⟨"a.example".toList, "http://origin".toList, [], default⟩ : Block) ∈
      blocks (oneSite [] (some openCatchall)) := by decide +kernel
  have hhost : (Sample.visit "/" []).header "host" = some "a.example".toList := by decide +kernel
  have hd : "a.example".toList = normalizeHost "a.example".toList := by decide +kernel
  have hsession : sessionValid Sample.crates Sample.manager Sample.calls (.v4 10 0 0 1) (Sample.visit "/" []) =
      .ok false := by decide +kernel
  have hng : ¬IsNgRoute (Sample.visit "/" []) := by decide +kernel
  obtain ⟨s, hs, hblock⟩ := hex.siteForHost hb hd
  have hup : upstream cfg (Sample.visit "/" []) = some "http://origin".toList := by
    simp only [upstream, hhost, Option.bind_some, hs, Option.map_some, Option.some_or]
    exact congrArg some (congrArg Block.upstream hblock)
  refine ⟨cfg, hcfg, ⟨s, hs, congrArg Block.bypass hblock⟩, hsession, hwhite, fun h => ?_⟩
  have hby : bypassMatch cfg (Sample.visit "/" []) = true :=
    (bypassMatch_iff hex hb hhost hd).mpr (.inr ⟨".*".toList, List.mem_cons_self, by decide +kernel⟩)
  have hfwd : ForwardedTo cfg Sample.locals Sample.crates Sample.manager Sample.calls (.v4 10 0 0 1) (Sample.visit "/" [])
      "http://origin".toList := (forwarded_iff_bypassed hsession hwhite hup).mpr ⟨hng, hby⟩
  obtain ⟨p, hp, -⟩ := h.mp hfwd
  exact absurd hp List.not_mem_nil

end NekoGuard.Handle
