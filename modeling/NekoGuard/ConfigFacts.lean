/-
What `expand` makes of a configuration: one site for each block with an
upstream, under distinct domains (`expand_sites`).
-/
import NekoGuard.Config

namespace NekoGuard.Config

/-- No port is left. -/
theorem normalizeHost_no_colon (host : Str) : ':' ∉ normalizeHost host :=
  Text.not_mem_toAsciiLowercase (by decide) fun h =>
    Text.not_mem_splitFirst host ':' (Text.mem_of_mem_trimEndMatches h)

/-! ## The blocks of a configuration -/

/-- What a `[[sites]]` entry or a sub says about one domain. -/
structure Block where
  domain : Str
  upstream : Str
  bypass : List Str
  rateLimit : RateLimitConfig
deriving DecidableEq, Repr

/-- A sub's own list replaces its parent's, also when it is empty. -/
def subBlock (base : RateLimitConfig) (s : SiteToml) (sub : SubSiteToml) : List Block :=
  if subUpstream s sub = [] then []
  else [{ domain := normalizeHost (subDomain s sub), upstream := subUpstream s sub,
          bypass := sub.bypass.getD s.bypass, rateLimit := blockLimit base sub.rateLimit }]

def siteBlock (base : RateLimitConfig) (s : SiteToml) : List Block :=
  if s.upstream = [] then []
  else [{ domain := normalizeHost s.domain, upstream := s.upstream, bypass := s.bypass,
          rateLimit := blockLimit base s.rateLimit }]

/-- The blocks with an upstream, in the order `expand` meets them. -/
def blocks (raw : ConfigToml) : List Block :=
  raw.sites.flatMap fun s => siteBlock raw.rateLimit s ++ s.sub.flatMap (subBlock raw.rateLimit s)

variable {rx : RegexCrate}

def Site.block (s : Site rx) : Block where
  domain := s.domain
  upstream := s.upstream
  bypass := s.bypass.map (·.pattern)
  rateLimit := s.rateLimit

/-- Some of the patterns matches the path. -/
def Matches (rx : RegexCrate) (patterns : List Str) (path : Str) : Prop :=
  ∃ p ∈ patterns, rx.isMatch p path = true

theorem any_isMatch {res : List (Regex rx)} {path : Str} :
    (res.any fun re => re.isMatch path) = true ↔ Matches rx (res.map (·.pattern)) path := by
  simp [Matches, Regex.isMatch]

/-! ## From blocks to sites -/

/-- Sites that stand for these blocks, under distinct domains. -/
structure Stands (sites : List (Site rx)) (bs : List Block) : Prop where
  blocks : sites.map Site.block = bs
  nodup : (sites.map (·.domain)).Nodup

theorem Stands.domains {sites : List (Site rx)} {bs : List Block} (h : Stands sites bs) :
    sites.map (·.domain) = bs.map (·.domain) := by
  rw [← h.blocks, List.map_map]
  rfl

/-- Patterns that all compile are the patterns of what they compile to. -/
theorem patterns_of_mapM {fail : Str → String → List String} {patterns : List Str} {res : List (Regex rx)}
    (h : patterns.mapM (fun p =>
      match Regex.new rx p with
      | .ok re => (.ok re : Rust (Regex rx))
      | .error e => panicWith (fail p e)) = .ok res) : res.map (·.pattern) = patterns := by
  induction patterns generalizing res with
  | nil =>
    cases h
    rfl
  | cons p ps ih =>
    rw [List.mapM_cons] at h
    cases hp : Regex.new rx p with
    | error e =>
      rw [hp] at h
      cases h
    | ok re =>
      have hre : re.pattern = p := by
        unfold Regex.new at hp
        split at hp <;> cases hp
        rfl
      rw [hp] at h
      simp only [bind, Except.bind] at h
      split at h
      · cases h
      · next rs hrs =>
        cases h
        rw [List.map_cons, hre, ih hrs]

theorem compileBypass_ok {domain : Str} {patterns : List Str} {path : String} {res : List (Regex rx)}
    (h : compileBypass domain patterns path = .ok res) : res.map (·.pattern) = patterns :=
  patterns_of_mapM h

theorem Stands.push {path : String} {sites sites' : List (Site rx)} {bs : List Block} {domain upstream : Str}
    {bypass : List (Regex rx)} {rl : RateLimitConfig} (h : Stands sites bs)
    (hpush : push path sites domain upstream bypass rl = .ok sites') :
    Stands sites' (bs ++ [⟨normalizeHost domain, upstream, bypass.map (·.pattern), rl⟩]) := by
  unfold Config.push at hpush
  simp only [] at hpush
  split at hpush
  · cases hpush
  · next hnew =>
    cases hpush
    constructor
    · rw [List.map_append, h.blocks]
      rfl
    · rw [List.map_append, List.nodup_append]
      refine ⟨h.nodup, by simp, ?_⟩
      intro d hd e he hde
      obtain ⟨s, hs, rfl⟩ := List.mem_map.mp hd
      simp only [List.map_cons, List.map_nil, List.mem_singleton] at he
      subst he
      exact hnew (List.any_eq_true.mpr ⟨s, hs, by simpa using hde⟩)

/-- Entry by entry, the sites keep standing for the blocks met so far. -/
theorem Stands.foldlM {α : Type} {f : List (Site rx) → α → Rust (List (Site rx))} {g : α → List Block}
    (hstep : ∀ sites sites' bs a, Stands sites bs → f sites a = .ok sites' → Stands sites' (bs ++ g a))
    {entries : List α} {sites sites' : List (Site rx)} {bs : List Block} (h : Stands sites bs)
    (hrun : entries.foldlM f sites = .ok sites') : Stands sites' (bs ++ entries.flatMap g) := by
  induction entries generalizing sites bs with
  | nil =>
    cases hrun
    simpa using h
  | cons a as ih =>
    rw [List.foldlM_cons] at hrun
    cases ha : f sites a with
    | error e =>
      rw [ha] at hrun
      cases hrun
    | ok u =>
      rw [ha] at hrun
      have hrest := ih (hstep _ _ _ _ h ha) hrun
      rwa [List.append_assoc, ← List.flatMap_cons] at hrest

theorem Stands.expandSub {path : String} {base : RateLimitConfig} {s : SiteToml} {sub : SubSiteToml}
    {sites sites' : List (Site rx)} {bs : List Block} (h : Stands sites bs)
    (hsub : expandSub path base s sites sub = .ok sites') : Stands sites' (bs ++ subBlock base s sub) := by
  unfold Config.expandSub at hsub
  unfold subBlock
  simp only [] at hsub
  split at hsub
  · next hup =>
    cases hsub
    rwa [if_pos hup, List.append_nil]
  · next hup =>
    rw [if_neg hup]
    cases hc : compileBypass (subDomain s sub) (sub.bypass.getD s.bypass) path with
    | error e =>
      rw [hc] at hsub
      cases hsub
    | ok bypass =>
      rw [hc] at hsub
      have hpush := h.push hsub
      rwa [compileBypass_ok hc] at hpush

theorem Stands.expandSite {path : String} {base : RateLimitConfig} {s : SiteToml}
    {sites sites' : List (Site rx)} {bs : List Block} (h : Stands sites bs)
    (hsite : expandSite path base sites s = .ok sites') :
    Stands sites' (bs ++ (siteBlock base s ++ s.sub.flatMap (subBlock base s))) := by
  unfold Config.expandSite at hsite
  unfold siteBlock
  rw [← List.append_assoc]
  have hsubs : ∀ mid bs', Stands mid bs' → s.sub.foldlM (Config.expandSub path base s) mid = .ok sites' →
      Stands sites' (bs' ++ s.sub.flatMap (subBlock base s)) := fun mid bs' hmid hrun =>
    Stands.foldlM (fun _ _ _ _ hs hf => hs.expandSub hf) hmid hrun
  split at hsite
  · next hup =>
    rw [if_pos hup, List.append_nil]
    exact hsubs _ _ h hsite
  · next hup =>
    rw [if_neg hup]
    cases hc : compileBypass s.domain s.bypass path with
    | error e =>
      rw [hc] at hsite
      cases hsite
    | ok bypass =>
      rw [hc] at hsite
      simp only [bind, Except.bind] at hsite
      split at hsite
      · cases hsite
      · next mid hmid =>
        have hpush := h.push hmid
        rw [compileBypass_ok hc] at hpush
        exact hsubs _ _ hpush hsite

/-- What `expand` returns for the sites it has pushed. -/
def sorted (raw : ConfigToml) (sites : List (Site rx)) (catchallBypass : List (Regex rx)) : Config rx where
  sites := sites.insertionSort fun a b => a.domain ≤ b.domain
  rateLimit := raw.rateLimit
  whitelist := raw.whitelist.filterMap IpAddr.parse
  catchall := raw.catchall
  catchallBypass := catchallBypass
  port := raw.nekoguard.port
  portHttp := raw.nekoguard.portHttp
  session := raw.nekoguard.session

/-- What compiles for the catchall. -/
def catchallRegexes (rx : RegexCrate) (raw : ConfigToml) : Rust (List (Regex rx)) :=
  (catchallPatterns raw.catchall).mapM fun p =>
    match Regex.new rx p with
    | .ok re => .ok re
    | .error e => panicWith ["bad catchall bypass '", String.ofList p, "': ", e]

theorem expand_eq_ok {raw : ConfigToml} {path : String} {cfg : Config rx} :
    expand rx raw path = .ok cfg ↔ ∃ sites res, raw.sites.foldlM (expandSite path raw.rateLimit) [] = .ok sites ∧
      sites ≠ [] ∧ catchallRegexes rx raw = .ok res ∧ cfg = sorted raw sites res := by
  cases hrun : raw.sites.foldlM (expandSite path raw.rateLimit) ([] : List (Site rx)) with
  | error e =>
    refine iff_of_false (fun h => ?_) (fun ⟨_, _, h, _⟩ => by cases h)
    unfold expand at h
    rw [hrun] at h
    cases h
  | ok sites =>
    by_cases hne : sites = []
    · subst hne
      refine iff_of_false (fun h => ?_) (fun ⟨_, _, hsites, h, _⟩ => ?_)
      · unfold expand at h
        rw [hrun] at h
        cases h
      · cases hsites
        exact h rfl
    · have hexpand : expand rx raw path = (catchallRegexes rx raw).bind fun res => .ok (sorted raw sites res) := by
        unfold expand
        rw [hrun]
        simp only [bind, Except.bind, if_neg hne]
        rfl
      rw [hexpand]
      constructor
      · intro h
        cases hres : catchallRegexes rx raw with
        | error e =>
          rw [hres] at h
          cases h
        | ok res =>
          rw [hres] at h
          cases h
          exact ⟨sites, res, rfl, hne, rfl, rfl⟩
      · intro ⟨_, res, hsites, _, hres, hcfg⟩
        cases hsites
        rw [hres, hcfg]
        rfl

/-- What an expanded configuration has of the one it was made from. -/
structure Expanded (raw : ConfigToml) (cfg : Config rx) : Prop where
  sites : (cfg.sites.map Site.block).Perm (blocks raw)
  nodup : (cfg.sites.map (·.domain)).Nodup
  catchall : cfg.catchall = raw.catchall
  catchallBypass : cfg.catchallBypass.map (·.pattern) = catchallPatterns raw.catchall
  whitelist : cfg.whitelist = raw.whitelist.filterMap IpAddr.parse

/-- **What `expand` makes of a configuration.** -/
theorem expand_ok {raw : ConfigToml} {path : String} {cfg : Config rx} (h : expand rx raw path = .ok cfg) :
    Expanded raw cfg := by
  obtain ⟨sites, res, hrun, -, hres, rfl⟩ := expand_eq_ok.mp h
  have hstart : Stands ([] : List (Site rx)) [] := ⟨rfl, List.nodup_nil⟩
  have hstands := hstart.foldlM (fun _ _ _ _ hs hf => hs.expandSite hf) hrun
  have hperm : (sites.insertionSort fun a b => a.domain ≤ b.domain).Perm sites := List.perm_insertionSort _ sites
  exact {
    sites := (hperm.map _).trans (by rw [hstands.blocks]; rfl)
    nodup := (hperm.map _).nodup_iff.mpr hstands.nodup
    catchall := rfl
    catchallBypass := patterns_of_mapM hres
    whitelist := rfl }

theorem siteForHost_eq_some {cfg : Config rx} (h : (cfg.sites.map (·.domain)).Nodup) {host : Str} {s : Site rx} :
    cfg.siteForHost host = some s ↔ s ∈ cfg.sites ∧ s.domain = normalizeHost host := by
  unfold siteForHost
  constructor
  · intro hs
    have hdomain := List.find?_some (p := fun s : Site rx => s.domain == normalizeHost host) hs
    exact ⟨List.mem_of_find?_eq_some hs, beq_iff_eq.mp hdomain⟩
  · intro ⟨hs, hdomain⟩
    obtain ⟨t, ht⟩ := Option.isSome_iff_exists.mp
      (List.find?_isSome.mpr ⟨s, hs, beq_iff_eq.mpr hdomain⟩ :
        (cfg.sites.find? fun s => s.domain == normalizeHost host).isSome)
    have htd := List.find?_some (p := fun s : Site rx => s.domain == normalizeHost host) ht
    have hts : t = s := List.inj_on_of_nodup_map h (List.mem_of_find?_eq_some ht) hs
      ((beq_iff_eq.mp htd).trans hdomain.symm)
    rw [ht, hts]

/-- The block of a domain is the one its Host is served by. -/
theorem Expanded.siteForHost {raw : ConfigToml} {cfg : Config rx} (h : Expanded raw cfg) {b : Block} {host : Str}
    (hb : b ∈ blocks raw) (hd : b.domain = normalizeHost host) :
    ∃ s, cfg.siteForHost host = some s ∧ s.block = b := by
  obtain ⟨s, hs, rfl⟩ := List.mem_map.mp (h.sites.mem_iff.mpr hb)
  exact ⟨s, (siteForHost_eq_some h.nodup).mpr ⟨hs, hd⟩, rfl⟩

/-! ## When `expand` panics -/

/-- Every bypass pattern in use compiles. -/
structure Compiles (rx : RegexCrate) (raw : ConfigToml) : Prop where
  blocks : ∀ b ∈ blocks raw, ∀ p ∈ b.bypass, rx.compiles p = true
  catchall : ∀ p ∈ catchallPatterns raw.catchall, rx.compiles p = true

theorem exists_mapM {fail : Str → String → List String} {patterns : List Str}
    (h : ∀ p ∈ patterns, rx.compiles p = true) : ∃ res, patterns.mapM (fun p =>
      match Regex.new rx p with
      | .ok re => (.ok re : Rust (Regex rx))
      | .error e => panicWith (fail p e)) = .ok res := by
  induction patterns with
  | nil => exact ⟨[], rfl⟩
  | cons p ps ih =>
    obtain ⟨res, hres⟩ := ih fun q hq => h q (List.mem_cons_of_mem p hq)
    have hnew : Regex.new rx p = .ok ⟨p, h p List.mem_cons_self⟩ := dif_pos _
    refine ⟨⟨p, h p List.mem_cons_self⟩ :: res, ?_⟩
    rw [List.mapM_cons, hres, hnew]
    rfl

theorem exists_compileBypass {patterns : List Str} (h : ∀ p ∈ patterns, rx.compiles p = true) (domain : Str)
    (path : String) : ∃ res : List (Regex rx), compileBypass domain patterns path = .ok res :=
  exists_mapM h

/-- A domain that is not taken is pushed. -/
theorem Stands.exists_push {path : String} {sites : List (Site rx)} {bs : List Block} {domain upstream : Str}
    {bypass : List (Regex rx)} {rl : RateLimitConfig} (h : Stands sites bs)
    (hnew : normalizeHost domain ∉ bs.map (·.domain)) :
    ∃ sites', Config.push path sites domain upstream bypass rl = .ok sites' := by
  have hany : ¬(sites.any fun s => s.domain == normalizeHost domain) = true := by
    rw [List.any_eq_true]
    intro ⟨s, hs, heq⟩
    rw [← h.domains] at hnew
    exact hnew (beq_iff_eq.mp heq ▸ List.mem_map_of_mem hs)
  exact ⟨_, if_neg hany⟩

/-- Blocks whose patterns compile and whose domains are free go through. -/
def Pushable (rx : RegexCrate) (bs more : List Block) : Prop :=
  (∀ b ∈ more, ∀ p ∈ b.bypass, rx.compiles p = true) ∧ ((bs ++ more).map (·.domain)).Nodup

theorem Pushable.left {bs more rest : List Block} (h : Pushable rx bs (more ++ rest)) : Pushable rx bs more := by
  refine ⟨fun b hb => h.1 b (List.mem_append_left rest hb), ?_⟩
  have hnodup := h.2
  rw [← List.append_assoc, List.map_append] at hnodup
  exact hnodup.of_append_left

theorem Pushable.right {bs more rest : List Block} (h : Pushable rx bs (more ++ rest)) :
    Pushable rx (bs ++ more) rest :=
  ⟨fun b hb => h.1 b (List.mem_append_right more hb), by rw [List.append_assoc]; exact h.2⟩

theorem Pushable.not_mem {bs : List Block} {b : Block} (h : Pushable rx bs [b]) : b.domain ∉ bs.map (·.domain) := by
  have hnodup := h.2
  rw [List.map_append, List.nodup_append] at hnodup
  exact fun hmem => hnodup.2.2 _ hmem _ (by simp) rfl

/-- Entry by entry, what goes through keeps going through. -/
theorem Stands.exists_foldlM {α : Type} {f : List (Site rx) → α → Rust (List (Site rx))} {g : α → List Block}
    (hstep : ∀ sites sites' bs a, Stands sites bs → f sites a = .ok sites' → Stands sites' (bs ++ g a))
    (hpass : ∀ sites bs a, Stands sites bs → Pushable rx bs (g a) → ∃ sites', f sites a = .ok sites')
    {entries : List α} {sites : List (Site rx)} {bs : List Block} (h : Stands sites bs)
    (hentries : Pushable rx bs (entries.flatMap g)) : ∃ sites', entries.foldlM f sites = .ok sites' := by
  induction entries generalizing sites bs with
  | nil => exact ⟨sites, rfl⟩
  | cons a as ih =>
    rw [List.flatMap_cons] at hentries
    obtain ⟨mid, hmid⟩ := hpass sites bs a h hentries.left
    obtain ⟨sites', hrest⟩ := ih (hstep _ _ _ _ h hmid) hentries.right
    refine ⟨sites', ?_⟩
    rw [List.foldlM_cons, hmid]
    exact hrest

theorem Stands.exists_expandSub {path : String} {base : RateLimitConfig} {s : SiteToml} {sub : SubSiteToml}
    {sites : List (Site rx)} {bs : List Block} (h : Stands sites bs) (hsub : Pushable rx bs (subBlock base s sub)) :
    ∃ sites', Config.expandSub path base s sites sub = .ok sites' := by
  unfold Config.expandSub
  unfold subBlock at hsub
  simp only []
  split
  · exact ⟨sites, rfl⟩
  · next hup =>
    rw [if_neg hup] at hsub
    obtain ⟨bypass, hbypass⟩ := exists_compileBypass (hsub.1 _ List.mem_cons_self) (subDomain s sub) path
    obtain ⟨sites', hpush⟩ := h.exists_push hsub.not_mem
    exact ⟨sites', by rw [hbypass]; exact hpush⟩

theorem Stands.exists_expandSite {path : String} {base : RateLimitConfig} {s : SiteToml}
    {sites : List (Site rx)} {bs : List Block} (h : Stands sites bs)
    (hsite : Pushable rx bs (siteBlock base s ++ s.sub.flatMap (subBlock base s))) :
    ∃ sites', Config.expandSite path base sites s = .ok sites' := by
  have hsubs : ∀ mid bs', Stands mid bs' → Pushable rx bs' (s.sub.flatMap (subBlock base s)) →
      ∃ sites', s.sub.foldlM (Config.expandSub path base s) mid = .ok sites' := fun mid bs' hmid hpass =>
    hmid.exists_foldlM (fun _ _ _ _ hs hf => hs.expandSub hf) (fun _ _ _ hs hp => hs.exists_expandSub hp) hpass
  have hright := hsite.right
  have hleft := hsite.left
  unfold Config.expandSite
  unfold siteBlock at hleft hright
  split
  · next hup =>
    rw [if_pos hup, List.append_nil] at hright
    exact hsubs _ _ h hright
  · next hup =>
    rw [if_neg hup] at hleft hright
    obtain ⟨bypass, hbypass⟩ := exists_compileBypass (hleft.1 _ List.mem_cons_self) s.domain path
    obtain ⟨mid, hmid⟩ := h.exists_push hleft.not_mem
    have hstands := h.push hmid
    rw [compileBypass_ok hbypass] at hstands
    obtain ⟨sites', hrun⟩ := hsubs mid _ hstands hright
    refine ⟨sites', ?_⟩
    rw [hbypass]
    change (Except.bind (Config.push _ _ _ _ _ _) _) = _
    rw [hmid]
    exact hrun

/-- **`expand` panics only for want of a block, or over two blocks of one
domain.** -/
theorem expand_isOk_iff {raw : ConfigToml} {path : String} (h : Compiles rx raw) :
    (∃ cfg, expand rx raw path = .ok cfg) ↔ blocks raw ≠ [] ∧ ((blocks raw).map (·.domain)).Nodup := by
  have hstart : Stands ([] : List (Site rx)) [] := ⟨rfl, List.nodup_nil⟩
  constructor
  · intro ⟨cfg, hcfg⟩
    obtain ⟨sites, res, hrun, hne, -, -⟩ := expand_eq_ok.mp hcfg
    have hstands := hstart.foldlM (fun _ _ _ _ hs hf => hs.expandSite hf) hrun
    rw [List.nil_append] at hstands
    refine ⟨fun hnone => hne ?_, ?_⟩
    · exact List.map_eq_nil_iff.mp (hstands.blocks.trans hnone)
    · exact hstands.domains ▸ hstands.nodup
  · intro ⟨hsome, hnodup⟩
    have hpushable : Pushable rx [] (blocks raw) := ⟨h.blocks, hnodup⟩
    obtain ⟨sites, hrun⟩ := hstart.exists_foldlM (f := expandSite path raw.rateLimit)
      (fun _ _ _ _ hs hf => hs.expandSite hf) (fun _ _ _ hs hp => hs.exists_expandSite hp) hpushable
    have hstands := hstart.foldlM (fun _ _ _ _ hs hf => hs.expandSite hf) hrun
    have hne : sites ≠ [] := by
      rintro rfl
      exact hsome hstands.blocks.symm
    obtain ⟨res, hres⟩ := exists_mapM h.catchall
    exact ⟨sorted raw sites res, expand_eq_ok.mpr ⟨sites, res, hrun, hne, hres, rfl⟩⟩

/-! ## Routing -/

theorem isKnownDomain_eq (cfg : Config rx) (name : Str) : cfg.isKnownDomain name = (cfg.siteForHost name).isSome :=
  List.isSome_find?.symm

/-- **Every usable entry gets its site, and every host the site of its
name**, unless there is no entry, or two go by one name. -/
theorem expand_routes {raw : ConfigToml} {path : String} (h : Compiles rx raw) :
    ((∃ e, expand rx raw path = .error e) ↔ blocks raw = [] ∨ ¬((blocks raw).map (·.domain)).Nodup) ∧
    ∀ cfg, expand rx raw path = .ok cfg →
      (cfg.sites.map Site.block).Perm (blocks raw) ∧ (cfg.sites.Pairwise fun a b => a.domain ≤ b.domain) ∧
      ∀ host, (∀ s, cfg.siteForHost host = some s ↔ s ∈ cfg.sites ∧ s.domain = normalizeHost host) ∧
        (∀ s ∈ cfg.sites, ∀ t ∈ cfg.sites, s.domain = normalizeHost host → t.domain = normalizeHost host → s = t) ∧
        cfg.isKnownDomain host = (cfg.siteForHost host).isSome := by
  constructor
  · have hok : (∃ cfg, expand rx raw path = .ok cfg) ↔ _ := expand_isOk_iff h
    cases hexpand : expand rx raw path with
    | error e =>
      rw [hexpand] at hok
      have hno : ¬(blocks raw ≠ [] ∧ ((blocks raw).map (·.domain)).Nodup) := by
        rw [← hok]
        exact fun ⟨_, hcfg⟩ => by cases hcfg
      refine iff_of_true ⟨e, rfl⟩ ?_
      rwa [not_and_or, not_not] at hno
    | ok cfg =>
      obtain ⟨hsome, hnodup⟩ := hok.mp ⟨cfg, hexpand⟩
      refine iff_of_false (fun ⟨_, he⟩ => by cases he) ?_
      rw [not_or, not_not]
      exact ⟨hsome, hnodup⟩
  · intro cfg hcfg
    have hexp := expand_ok hcfg
    refine ⟨hexp.sites, ?_, fun host => ⟨fun s => siteForHost_eq_some hexp.nodup, ?_, isKnownDomain_eq cfg host⟩⟩
    · obtain ⟨sites, res, -, -, -, rfl⟩ := expand_eq_ok.mp hcfg
      exact List.pairwise_insertionSort (fun a b : Site rx => a.domain ≤ b.domain) sites
    · intro s hs t ht hsd htd
      exact List.inj_on_of_nodup_map hexp.nodup hs ht (hsd.trans htd.symm)

/-- Patterns that are plain words. -/
def words : RegexCrate where
  compiles p := p.all Char.isAlphanum
  error _ := "not a word"
  isMatch p s := Text.contains s p

/-- A site with a sub that inherits its upstream, and one that has none. -/
def shop : ConfigToml where
  sites := [{
    domain := "Shop.example".toList
    upstream := "http://127.0.0.1:8080".toList
    bypass := ["assets".toList]
    sub := [{ name := "api".toList, bypass := some ["v1".toList] }, { name := "old".toList, upstream := some [] }] }]

theorem shop_routes : ¬∃ e, expand words shop "config.toml" = .error e := by
  have hcompiles : Compiles words shop := ⟨by decide +kernel, by decide +kernel⟩
  rw [(expand_routes hcompiles).1]
  decide +kernel

end NekoGuard.Config
