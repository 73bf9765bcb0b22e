/-
Whether the certificates certd orders cover the domains the proxy accepts:
the list of `main` in certd, the first pass of `run_acme_loop`, the load of
the proxy and its resolver, over one configuration.
-/
import NekoGuard.CertdFacts
import NekoGuard.ConfigFacts
import NekoGuard.Samples
import NekoGuard.TlsFacts

namespace NekoGuard.CertNames

open Lib Config Certd Tls

/-! ## Names -/

/-- The domain without its first label. -/
def parentOf (d : Str) : Option Str := (Text.splitOnce d '.').map (·.2)

/-- A certificate with these names is good for the domain. -/
def Covered (names : List Str) (d : Str) : Prop := d ∈ names ∨ ∃ parent ∈ parentOf d, wildcardOf parent ∈ names

/-- The domain has a certificate of its own, or its parent has one with a
wildcard. -/
def Ordered (raw : ConfigToml) (d : Str) : Prop :=
  d ∈ baseDomains (domainList raw) ∨
    ∃ parent ∈ parentOf d, parent ∈ baseDomains (domainList raw) ∧ wildcardOf parent ∈ domainList raw

theorem splitOnce_append {a rest : Str} (ha : '.' ∉ a) :
    Text.splitOnce (a ++ '.' :: rest) '.' = some (a, rest) := by
  have hall : ∀ c ∈ a, decide (c ≠ '.') = true := by
    intro c hc
    rw [decide_eq_true_eq]
    rintro rfl
    exact ha hc
  unfold Text.splitOnce
  rw [List.takeWhile_append_of_pos hall, List.dropWhile_append_of_pos hall]
  simp

theorem parentOf_eq_some {d rest : Str} (h : parentOf d = some rest) : ∃ a, d = a ++ '.' :: rest ∧ '.' ∉ a := by
  obtain ⟨⟨a, rest'⟩, hsplit, rfl⟩ := Option.map_eq_some_iff.mp h
  by_cases hdot : '.' ∈ d
  · obtain ⟨a', rest', rfl, ha'⟩ := List.eq_append_cons_of_mem hdot
    rw [splitOnce_append ha'] at hsplit
    cases hsplit
    exact ⟨_, rfl, ha'⟩
  · simp [Text.splitOnce, hdot] at hsplit

/-- The nearest parent comes first. -/
theorem parents_of_parentOf {d rest : Str} (h : parentOf d = some rest) : parents d = rest :: parents rest := by
  obtain ⟨a, rfl, ha⟩ := parentOf_eq_some h
  obtain ⟨n, hn⟩ : ∃ n, (rest.splitOn '.').length = n + 1 :=
    Nat.exists_eq_succ_of_ne_zero fun h0 => List.splitOn_ne_nil _ _ (List.length_eq_zero_iff.mp h0)
  have hshift : List.range' 2 n = (List.range' 1 n).map (1 + ·) := (List.map_add_range' 1 n 1).symm
  simp only [parents, List.splitOn_append_cons_self_of_not_mem ha, List.length_cons, hn, Nat.add_sub_cancel,
    List.range'_succ, List.map_cons, List.drop_succ_cons, List.drop_zero, hshift, List.map_map]
  congr 1
  · exact List.intercalate_splitOn '.'
  · refine List.map_congr_left fun i _ => ?_
    simp [Nat.add_comm 1 i]

/-! ## The first pass -/

variable {js : CertJson} {pki : PkiCrates} {sans : List pki.CertificateDer → List Str}

/-- What the CA returns for an order: a chain for exactly these names, and
the key it was ordered with. -/
def Fits (pki : PkiCrates) (sans : List pki.CertificateDer → List Str) (names : List Str) (pems : Str × Str) :
    Prop :=
  ∃ chain key keys, pki.certs pems.1 = some chain ∧ pki.keys pems.2 = some (key :: keys) ∧
    (pki.anySupportedType key).isSome ∧ sans chain = names

/-- Every order succeeds, every certificate is stored, and the loop has not
woken up for a renewal pass. -/
def FirstPass (pki : PkiCrates) (sans : List pki.CertificateDer → List Str) (s : Certd.State) (ev : Event) : Prop :=
  match s.task, ev with
  | .issuing d _, .issue (some pems) => Fits pki sans (certDomains s.domains d) pems
  | _, .issue none => False
  | _, .set ok => ok = true
  | _, .foreign _ => False
  | _, .wake => False
  | _, _ => True

/-- Redis holds a certificate for each of these domains, for the names of
its order, and none for another domain. -/
structure Stored (js : CertJson) (pki : PkiCrates) (sans : List pki.CertificateDer → List Str)
    (domains ds : List Str) (redis : Redis) : Prop where
  held : ∀ d ∈ ds, ∃ c, loadCert js redis d = some c ∧
    Fits pki sans (certDomains domains d) (c.certPem, c.keyPem)
  only : ∀ d ∉ ds, loadCert js redis d = none

theorem Stored.insert {domains ds : List Str} {redis : Redis} (h : Stored js pki sans domains ds redis)
    (hjs : js.Lawful) {d : Str} {c : CertData} (hc : Fits pki sans (certDomains domains d) (c.certPem, c.keyPem)) :
    Stored js pki sans domains (ds ++ [d]) (storeCert js redis d c) := by
  constructor
  · intro d' hd'
    by_cases heq : d' = d
    · subst heq
      exact ⟨c, loadCert_storeCert_self hjs redis d' c, hc⟩
    · rw [loadCert_storeCert_of_ne heq]
      exact h.held d' ((List.mem_append.mp hd').resolve_right (by simpa using heq))
  · intro d' hd'
    simp only [List.mem_append, List.mem_singleton, not_or] at hd'
    rw [loadCert_storeCert_of_ne hd'.2]
    exact h.only d' hd'.1

/-- How far the first pass is, and what it has stored. -/
def Passing (js : CertJson) (pki : PkiCrates) (sans : List pki.CertificateDer → List Str) (s : Certd.State) :
    Prop :=
  match s.task with
  | .starting => Stored js pki sans s.domains [] s.redis
  | .issuing d todo => ∃ ds, ds ++ d :: todo = baseDomains s.domains ∧ Stored js pki sans s.domains ds s.redis
  | .connecting d c todo | .storing .initial d c todo => ∃ ds, ds ++ d :: todo = baseDomains s.domains ∧
      Stored js pki sans s.domains ds s.redis ∧ Fits pki sans (certDomains s.domains d) (c.certPem, c.keyPem)
  | .publishing .initial _ todo => ∃ ds, ds ++ todo = baseDomains s.domains ∧
      Stored js pki sans s.domains ds s.redis
  | .sleeping => Stored js pki sans s.domains (baseDomains s.domains) s.redis
  | .returned => True
  | _ => False

theorem passing_next {s : Certd.State} {ds todo : List Str} (h : ds ++ todo = baseDomains s.domains)
    (hs : Stored js pki sans s.domains ds s.redis) : Passing js pki sans (s.next .initial todo) := by
  cases todo with
  | nil =>
    rw [List.append_nil] at h
    subst h
    exact hs
  | cons d todo => exact ⟨ds, h, hs⟩

theorem step_passing (hjs : js.Lawful) {s t : Certd.State} {ev : Event} (hC : FirstPass pki sans s ev)
    (h : Passing js pki sans s) (hstep : step js s ev = some t) : Passing js pki sans t := by
  cases step_move hstep with
  | clock => exact h
  | foreign =>
    unfold FirstPass at hC
    split at hC <;> simp_all
  | client ok ht =>
    simp only [Passing, ht] at h
    cases ok with
    | true => exact passing_next rfl h
    | false => trivial
  | issued pems ht =>
    simp only [Passing, ht] at h
    simp only [FirstPass, ht] at hC
    obtain ⟨ds, hds, hs⟩ := h
    exact ⟨ds, hds, hs, hC⟩
  | unstamped => trivial
  | refused ht => simp [FirstPass, ht] at hC
  | connect ok ht =>
    simp only [Passing, ht] at h
    cases ok with
    | true => exact h
    | false => trivial
  | @set pass d c todo ok ht =>
    cases pass with
    | renewal => simp [Passing, ht] at h
    | initial =>
      simp only [Passing, ht] at h
      simp only [FirstPass, ht] at hC
      obtain ⟨ds, hds, hs, hc⟩ := h
      subst hC
      exact ⟨ds ++ [d], by simpa using hds, hs.insert hjs hc⟩
  | @publish pass d todo ok ht =>
    cases pass with
    | renewal => simp [Passing, ht] at h
    | initial =>
      simp only [Passing, ht] at h
      obtain ⟨ds, hds, hs⟩ := h
      exact passing_next hds hs
  | wake ht => simp [FirstPass, ht] at hC
  | opened ok ht => simp [Passing, ht] at h
  | get ok ht => simp [Passing, ht] at h
  | renewed pems ht => simp [Passing, ht] at h
  | failed ht => simp [Passing, ht] at h

theorem start_passing (domains : List Str) (clock : Int) : Passing js pki sans (start domains ∅ clock) where
  held := nofun
  only _ _ := rfl

/-- The first pass leaves a certificate for each base domain and no other. -/
theorem stored_of_first_pass (hjs : js.Lawful) {domains : List Str} {clock : Int} {evs : List Event}
    {t : Certd.State} (h : Machine.run (step js) (start domains ∅ clock) evs = some t)
    (hC : Machine.Along (step js) (FirstPass pki sans) (start domains ∅ clock) evs) (ht : t.task = .sleeping) :
    Stored js pki sans domains (baseDomains domains) t.redis := by
  have hpass : Passing js pki sans t :=
    Machine.run_invariant_along (fun _ _ _ => step_passing hjs) hC (start_passing domains clock) h
  simpa [Passing, ht, (run_covers h).list] using hpass

/-! ## The resolver -/

theorem wildcard_ne_base {domains : List Str} {b d : Str} (hb : b ∈ baseDomains domains) : b ≠ wildcardOf d := by
  rintro rfl
  have hnot := (List.mem_filter.mp hb).2
  simp [isWildcard, wildcardOf, Text.startsWith] at hnot

theorem parentOf_wildcardOf (d : Str) : parentOf (wildcardOf d) = some d := by
  have hsplit : Text.splitOnce ("*".toList ++ '.' :: d) '.' = some ("*".toList, d) := splitOnce_append (by decide)
  exact congrArg (Option.map (·.2)) hsplit

/-- The names of an order cover its own domain, and the domains right under
it when it has the wildcard. -/
theorem covered_certDomains {domains : List Str} {b d : Str} (hb : b ∈ baseDomains domains) :
    Covered (certDomains domains b) d ↔ d = b ∨ (parentOf d = some b ∧ wildcardOf b ∈ domains) := by
  have hmem : ∀ {n}, n ∈ certDomains domains b ↔ n = b ∨ (n = wildcardOf b ∧ wildcardOf b ∈ domains) := by
    intro n
    by_cases hw : wildcardOf b ∈ domains <;> simp [certDomains, hw]
  unfold Covered
  constructor
  · rintro (h | ⟨parent, hparent, h⟩)
    · rcases hmem.mp h with rfl | ⟨rfl, hw⟩
      · exact .inl rfl
      · exact .inr ⟨parentOf_wildcardOf b, hw⟩
    · rcases hmem.mp h with h | ⟨h, hw⟩
      · exact absurd h.symm (wildcard_ne_base hb)
      · exact .inr ⟨List.append_cancel_left h ▸ hparent, hw⟩
  · rintro (rfl | ⟨hparent, hw⟩)
    · exact .inl (hmem.mpr (.inl rfl))
    · exact .inr ⟨b, hparent, hmem.mpr (.inr ⟨rfl, hw⟩)⟩

/-- The proxy can load what the first pass leaves. -/
theorem load_isOk {domains : List Str} {redis : Redis}
    (hs : Stored js pki sans domains (baseDomains domains) redis) : ∃ m, buildTlsConfig js pki .every redis = .ok m := by
  refine buildTlsConfig_isOk.mpr fun d c hc => ?_
  have hc : loadCert js redis d = some c := hc
  by_cases hd : d ∈ baseDomains domains
  · obtain ⟨c', hc', chain, key, keys, hcerts, hkeys, -⟩ := hs.held d hd
    cases hc.symm.trans hc'
    exact ⟨by simp [hcerts], key, keys, hkeys⟩
  · rw [hs.only d hd] at hc
    cases hc

section Load

variable {domains : List Str} {redis : Redis} {m : CertMap pki} (hs : Stored js pki sans domains (baseDomains domains) redis)
  (hm : buildTlsConfig js pki .every redis = .ok m)
include hs hm

theorem lookup_of_base {b : Str} (hb : b ∈ baseDomains domains) :
    ∃ e, m.lookup b = some e ∧ (pki.anySupportedType e.2).isSome ∧ sans e.1 = certDomains domains b := by
  obtain ⟨c, hc, chain, key, keys, hcerts, hkeys, hkey, hsans⟩ := hs.held b hb
  refine ⟨(chain, key), ?_, hkey, hsans⟩
  have hlisted : listed js .every redis b = some c := hc
  rw [buildTlsConfig_lookup hm, hlisted]
  simp [entryOf, parseEntry, hcerts, hkeys, Except.toOption]

theorem lookup_of_not_base {b : Str} (hb : b ∉ baseDomains domains) : m.lookup b = none := by
  have hlisted : listed js .every redis b = none := hs.only b hb
  rw [buildTlsConfig_lookup hm, hlisted]
  rfl

/-- What a handshake gets is the certificate of an order. -/
theorem resolve_order {d : Str} {ck : CertifiedKey pki} (h : resolve pki m (some d) = some ck) :
    ∃ b ∈ baseDomains domains, sans ck.chain = certDomains domains b := by
  obtain ⟨e, he, hck⟩ := Option.bind_eq_some_iff.mp h
  obtain ⟨key, -, hck⟩ := Option.bind_eq_some_iff.mp hck
  cases hck
  obtain ⟨b, hb⟩ := exists_of_findEntry he
  by_cases hbase : b ∈ baseDomains domains
  · obtain ⟨e', he', -, hsans⟩ := lookup_of_base hs hm hbase
    cases hb.symm.trans he'
    exact ⟨b, hbase, hsans⟩
  · rw [lookup_of_not_base hs hm hbase] at hb
    cases hb

theorem resolve_of_findEntry {b d : Str} (hb : b ∈ baseDomains domains)
    (hfind : ∀ e, m.lookup b = some e → findEntry m.lookup d = some e) :
    ∃ ck, resolve pki m (some d) = some ck ∧ sans ck.chain = certDomains domains b := by
  obtain ⟨e, he, hkey, hsans⟩ := lookup_of_base hs hm hb
  obtain ⟨key, hkey⟩ := Option.isSome_iff_exists.mp hkey
  refine ⟨{ chain := e.1, signingKey := key }, ?_, hsans⟩
  have hresolve : resolve pki m (some d) = (findEntry m.lookup d).bind fun e =>
      (pki.anySupportedType e.2).bind fun signingKey => some { chain := e.1, signingKey } := rfl
  simp [hresolve, hfind e he, hkey]

theorem covered_iff {d : Str} :
    (∃ ck, resolve pki m (some d) = some ck ∧ Covered (sans ck.chain) d) ↔
      d ∈ baseDomains domains ∨ ∃ parent ∈ parentOf d, parent ∈ baseDomains domains ∧ wildcardOf parent ∈ domains := by
  constructor
  · intro ⟨ck, hck, hcov⟩
    obtain ⟨b, hb, hsans⟩ := resolve_order hs hm hck
    rw [hsans, covered_certDomains hb] at hcov
    rcases hcov with rfl | ⟨hparent, hw⟩
    · exact .inl hb
    · exact .inr ⟨b, hparent, hb, hw⟩
  · intro h
    by_cases hd : d ∈ baseDomains domains
    · obtain ⟨ck, hck, hsans⟩ := resolve_of_findEntry (d := d) hs hm hd fun e he => by
        simp [findEntry, he]
      exact ⟨ck, hck, hsans ▸ (covered_certDomains hd).mpr (.inl rfl)⟩
    · obtain ⟨parent, hparent, hb, hw⟩ := h.resolve_left hd
      -- The domain has no entry, and its parent is asked next.
      obtain ⟨ck, hck, hsans⟩ := resolve_of_findEntry (d := d) hs hm hb fun e he => by
        simp [findEntry, lookup_of_not_base hs hm hd, parents_of_parentOf hparent, he]
      exact ⟨ck, hck, hsans ▸ (covered_certDomains hb).mpr (.inr ⟨hparent, hw⟩)⟩

end Load

variable {rx : RegexCrate}

/-- **Whose certificate a known domain gets.** After a first pass in which
every order succeeds, each site gets a certificate with its name exactly
when each block with an upstream is a base domain of the list of certd as
it stands, or right under one that has its wildcard on the list. -/
theorem sites_covered_iff {raw : ConfigToml} {path : String} {cfg : Config rx} {clock : Int} {evs : List Event}
    {t : Certd.State} {m : CertMap pki} (hcfg : expand rx raw path = .ok cfg) (hjs : js.Lawful)
    (h : Machine.run (step js) (start (domainList raw) ∅ clock) evs = some t)
    (hC : Machine.Along (step js) (FirstPass pki sans) (start (domainList raw) ∅ clock) evs)
    (ht : t.task = .sleeping) (hm : buildTlsConfig js pki .every t.redis = .ok m) :
    (∀ s ∈ cfg.sites, ∃ ck, resolve pki m (some s.domain) = some ck ∧ Covered (sans ck.chain) s.domain) ↔
      ∀ b ∈ blocks raw, Ordered raw b.domain := by
  have hs := stored_of_first_pass hjs h hC ht
  have hblocks := (expand_ok hcfg).sites
  constructor
  · intro hall b hb
    obtain ⟨s, hmem, rfl⟩ := List.mem_map.mp (hblocks.mem_iff.mpr hb)
    exact (covered_iff hs hm).mp (hall s hmem)
  · intro hall s hmem
    exact (covered_iff hs hm).mpr (hall _ (hblocks.mem_iff.mp (List.mem_map_of_mem hmem)))

/-! ## Two configurations -/

def aExample : Str := "a.example".toList

/-- One site, with perhaps a sub. -/
def oneDomain (domain : Str) (subs : List Str) : ConfigToml where
  sites := [{ domain, upstream := "http://origin".toList, sub := subs.map fun name => { name } }]

def certJson : CertJson := Sample.certJson [Sample.cert]

theorem certJson_lawful : certJson.Lawful := Sample.certJson_lawful (by simp)

/-- The order for the one domain succeeds. -/
def firstPass : List Event :=
  [.client true, .issue (some (Sample.certPem, Sample.keyPem)), .connect true, .set true, .publish true]

/-- certd after it. -/
def afterFirst (domain : Str) (subs : List Str) : Certd.State where
  domains := domainList (oneDomain domain subs)
  redis := storeCert certJson ∅ domain Sample.cert
  clock := 1767225600
  task := .sleeping
  visits := []
  passes := []

/-- The names its certificate was ordered with. -/
def orderedNames (domain : Str) (subs : List Str) : List Str → List Str := fun _ =>
  certDomains (domainList (oneDomain domain subs)) domain

theorem baseDomains_oneDomain (domain : Str) (subs : List Str) (h : isWildcard domain = false) :
    baseDomains (domainList (oneDomain domain subs)) = [domain] := by
  have hw : isWildcard (wildcardOf domain) = true := by simp [isWildcard, wildcardOf, Text.startsWith]
  cases subs <;> simp [baseDomains, domainList, oneDomain, h, hw]

theorem firstPass_next (domain : Str) (subs : List Str) (clock : Int) (h : isWildcard domain = false) :
    step certJson (start (domainList (oneDomain domain subs)) ∅ clock) (.client true) =
      some { start (domainList (oneDomain domain subs)) ∅ clock with task := .issuing domain [] } := by
  have hnext : (start (domainList (oneDomain domain subs)) ∅ clock).next .initial
      (baseDomains (domainList (oneDomain domain subs))) =
      { start (domainList (oneDomain domain subs)) ∅ clock with task := .issuing domain [] } := by
    rw [baseDomains_oneDomain domain subs h]
    rfl
  exact congrArg some hnext

/-- From the order on, for one domain. -/
theorem firstPass_rest (domain : Str) (domains : List Str) :
    Machine.run (step certJson) { start domains ∅ 1767225600 with task := .issuing domain [] } firstPass.tail =
      some { domains, redis := storeCert certJson ∅ domain Sample.cert, clock := 1767225600, task := .sleeping,
             visits := [], passes := [] } := by
  have hnow : (1767225600 : Int).toNat = 1767225600 := rfl
  have hmake : CertData.make (Sample.certPem, Sample.keyPem) 1767225600 = Sample.cert := rfl
  simp [firstPass, Machine.run, step, start, State.now, State.next, hnow, hmake]

theorem firstPass_run (domain : Str) (subs : List Str) (h : isWildcard domain = false) :
    Machine.run (step certJson) (start (domainList (oneDomain domain subs)) ∅ 1767225600) firstPass =
      some (afterFirst domain subs) :=
  Machine.run_cons_eq_some.mpr ⟨_, firstPass_next domain subs _ h, firstPass_rest domain _⟩

theorem firstPass_along (domain : Str) (subs : List Str) (h : isWildcard domain = false) :
    Machine.Along (step certJson) (FirstPass Sample.pki (orderedNames domain subs))
      (start (domainList (oneDomain domain subs)) ∅ 1767225600) firstPass := by
  refine ⟨trivial, fun u hu => ?_⟩
  cases (firstPass_next domain subs _ h).symm.trans hu
  have hfits : Fits Sample.pki (orderedNames domain subs)
      (certDomains (domainList (oneDomain domain subs)) domain) (Sample.certPem, Sample.keyPem) :=
    ⟨["AAAA".toList], Sample.keyBody, [], rfl, rfl, rfl, rfl⟩
  refine ⟨hfits, fun u hu => ?_⟩
  cases hu
  refine ⟨trivial, fun u hu => ?_⟩
  cases hu
  refine ⟨rfl, fun u hu => ?_⟩
  cases hu
  exact ⟨trivial, fun _ _ => trivial⟩

theorem firstPass_load (domain : Str) (subs : List Str) (h : isWildcard domain = false) :
    ∃ m, buildTlsConfig certJson Sample.pki .every (afterFirst domain subs).redis = .ok m :=
  load_isOk (stored_of_first_pass certJson_lawful (firstPass_run domain subs h) (firstPass_along domain subs h) rfl)

theorem expand_site {raw : ConfigToml} {d : Str}
    (h : ((expand Sample.regexes raw "").toOption.bind fun cfg => cfg.sites.find? (·.domain = d)).isSome) :
    ∃ cfg, expand Sample.regexes raw "" = .ok cfg ∧ ∃ s ∈ cfg.sites, s.domain = d := by
  obtain ⟨s, hs⟩ := Option.isSome_iff_exists.mp h
  obtain ⟨cfg, hcfg, hfind⟩ := Option.bind_eq_some_iff.mp hs
  exact ⟨cfg, eq_ok_of_toOption hcfg, s, List.mem_of_find?_eq_some hfind, by simpa using List.find?_some hfind⟩

theorem aExample_sites_covered : ∃ cfg t m,
    expand Sample.regexes (oneDomain aExample ["b".toList]) "" = .ok cfg ∧
    Machine.run (step certJson) (start (domainList (oneDomain aExample ["b".toList])) ∅ 1767225600) firstPass = some t ∧
    buildTlsConfig certJson Sample.pki .every t.redis = .ok m ∧
    ((∀ s ∈ cfg.sites, ∃ ck, resolve Sample.pki m (some s.domain) = some ck ∧
      Covered (orderedNames aExample ["b".toList] ck.chain) s.domain) ↔
    ∀ b ∈ blocks (oneDomain aExample ["b".toList]), Ordered (oneDomain aExample ["b".toList]) b.domain) := by
  have hbase : isWildcard aExample = false := by decide
  have hrun := firstPass_run aExample ["b".toList] hbase
  obtain ⟨cfg, hcfg, -⟩ : ∃ cfg, expand Sample.regexes (oneDomain aExample ["b".toList]) "" = .ok cfg ∧
      ∃ s ∈ cfg.sites, s.domain = aExample := expand_site (by decide +kernel)
  obtain ⟨m, hm⟩ := firstPass_load aExample ["b".toList] hbase
  exact ⟨cfg, _, m, hcfg, hrun, hm,
    sites_covered_iff hcfg certJson_lawful hrun (firstPass_along aExample ["b".toList] hbase) rfl hm⟩

/-- A site of this configuration gets no certificate with its name. -/
def Uncovered (domain : Str) (subs : List Str) : Prop :=
  ∃ cfg t m, expand Sample.regexes (oneDomain domain subs) "" = .ok cfg ∧
    Machine.run (step certJson) (start (domainList (oneDomain domain subs)) ∅ 1767225600) firstPass = some t ∧
    Machine.Along (step certJson) (FirstPass Sample.pki (orderedNames domain subs))
      (start (domainList (oneDomain domain subs)) ∅ 1767225600) firstPass ∧
    t.task = .sleeping ∧ buildTlsConfig certJson Sample.pki .every t.redis = .ok m ∧
    ∃ s ∈ cfg.sites, ¬∃ ck, resolve Sample.pki m (some s.domain) = some ck ∧
      Covered (orderedNames domain subs ck.chain) s.domain

theorem uncovered_of {domain d : Str} {subs : List Str} (hbase : isWildcard domain = false)
    (hsite : ((expand Sample.regexes (oneDomain domain subs) "").toOption.bind fun cfg =>
      cfg.sites.find? (·.domain = d)).isSome)
    (hd : ¬(d ∈ baseDomains (domainList (oneDomain domain subs)) ∨ ∃ parent ∈ parentOf d,
      parent ∈ baseDomains (domainList (oneDomain domain subs)) ∧
      wildcardOf parent ∈ domainList (oneDomain domain subs))) : Uncovered domain subs := by
  have hrun := firstPass_run domain subs hbase
  have hC := firstPass_along domain subs hbase
  obtain ⟨cfg, hcfg, s, hs, rfl⟩ := expand_site hsite
  obtain ⟨m, hm⟩ := firstPass_load domain subs hbase
  have hstored := stored_of_first_pass certJson_lawful hrun hC rfl
  exact ⟨cfg, _, m, hcfg, hrun, hC, rfl, hm, s, hs, fun h => hd ((covered_iff hstored hm).mp h)⟩

/-- A capital letter in the configuration, and a sub of two labels. -/
theorem sites_not_covered : Uncovered "A.example".toList [] ∧ Uncovered aExample ["b.c".toList] := by
  refine ⟨uncovered_of (d := aExample) ?_ ?_ ?_, uncovered_of (d := "b.c.a.example".toList) ?_ ?_ ?_⟩ <;>
    decide +kernel

end NekoGuard.CertNames
