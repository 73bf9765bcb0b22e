/-
embed.rs: whose metadata `load` returns. A copy in `LOCAL`, an entry of
Redis and what a task carries all come from a fetch for the host and the
path they are kept under (`keeps_kept`), and a key names one host and one
document (`cacheKey_inj`).
-/
import NekoGuard.ConfigFacts
import NekoGuard.LoadFacts

namespace NekoGuard.Embed

open Lib

variable {ι θ : Type} {sha256 : Pow.Sha256} {mc : MetaCrate}

/-- The metadata as a fetch returned it, or as Redis gives it back. -/
def CopyOf (m₀ m : Meta) : Prop := m = m₀ ∨ m = (CachedMeta.ofMeta m₀).intoMeta

/-! ## What is kept under a key -/

/-- The call is for a normalised host and a path of `P`. -/
def Call.Within (P : Str → Prop) (c : Call) : Prop := ':' ∉ c.host ∧ P c.path

theorem Call.Within.eq_of_key {P : Str → Prop}
    (hinj : ∀ x y, P x → P y → pathDigest sha256 x = pathDigest sha256 y → x = y) {c d : Call}
    (hc : c.Within P) (hd : d.Within P) (hkey : c.key sha256 = d.key sha256) :
    c.host = d.host ∧ c.path = d.path := by
  have hpc : P (normalizePath c.path) := c.normal.symm ▸ hc.2
  have hpd : P (normalizePath d.path) := d.normal.symm ▸ hd.2
  obtain ⟨hhost, hpath⟩ := cacheKey_inj hinj hc.1 hd.1 hpc hpd hkey
  rw [c.normal, d.normal] at hpath
  exact ⟨hhost, hpath⟩

/-- Calls are for normalised hosts and paths of `P`, and what their fetches
bring back is in `F`. -/
def Fetches (P : Str → Prop) (F : Str → Str → Meta → Prop) (_ : ι × θ) (_ : Nat) (_ : Store ι θ) :
    Task → Step → Prop
  | .idle, .load host path _ _ => ':' ∉ host ∧ P (normalizePath path)
  | .fetching c, .fetched (some m) => F c.host c.path m
  | _, _ => True

/-- Both caches hold what was fetched for a call with that key. -/
structure Kept (sha256 : Pow.Sha256) (mc : MetaCrate) (P : Str → Prop) (F : Str → Str → Meta → Prop)
    (st : Store ι θ) : Prop where
  cached : ∀ i key x, (st.replica i).cached key = some x → ∃ c : Call, c.Within P ∧ c.key sha256 = key ∧
    ∃ m, F c.host c.path m ∧ CopyOf m x.copy
  redis : ∀ key x, st.redis key = some x → ∃ c : Call, c.Within P ∧ c.key sha256 = key ∧
    ∃ m, F c.host c.path m ∧ mc.toString (.ofMeta m) = some x.payload

/-- And so do the tasks, for their own call. -/
def KeptTask (P : Str → Prop) (F : Str → Str → Meta → Prop) (_ : ι × θ) (_ : Nat) (_ : Store ι θ) :
    Task → Prop
  | .idle => True
  | .missed c _ => c.Within P
  | .found c _ copy _ => c.Within P ∧ ∃ m, F c.host c.path m ∧ CopyOf m copy
  | .resolving c => c.Within P
  | .queued c => c.Within P
  | .entered c => c.Within P
  | .fetching c => c.Within P
  | .got c copy => c.Within P ∧ F c.host c.path copy
  | .writing c copy => c.Within P ∧ F c.host c.path copy

variable {P : Str → Prop} {F : Str → Str → Meta → Prop}

/-- Only the locks differ. -/
theorem Kept.of_quiet {st st' : Store ι θ} (hk : Kept sha256 mc P F st)
    (hcached : ∀ i, (st'.replica i).cached = (st.replica i).cached) (hredis : st'.redis = st.redis) :
    Kept sha256 mc P F st' where
  cached := fun i key x hx => hk.cached i key x (by rwa [hcached i] at hx)
  redis := fun key x hx => hk.redis key x (by rwa [hredis] at hx)

/-- What Redis answers a call was fetched for it. -/
theorem Kept.redisGet (hmc : mc.Lawful)
    (hinj : ∀ x y, P x → P y → pathDigest sha256 x = pathDigest sha256 y → x = y) {now : Nat}
    {st : Store ι θ} (hk : Kept sha256 mc P F st) {c : Call} (hc : c.Within P) {copy : Meta} {w : Nat}
    (h : redisGet mc now st (c.key sha256) = some (copy, w)) : ∃ m, F c.host c.path m ∧ CopyOf m copy := by
  obtain ⟨x, cached, hx, -, hread, rfl, -⟩ := redisGet_eq_some h
  obtain ⟨d, hd, hkey, m, hm, hwrite⟩ := hk.redis _ x hx
  obtain ⟨hhost, hpath⟩ := hd.eq_of_key hinj hc hkey
  rw [hmc.fromStr_toString hwrite, Option.some.injEq] at hread
  subst hread
  exact ⟨m, hhost ▸ hpath ▸ hm, .inr rfl⟩

theorem kept_start (clock : Nat) : Cluster.Inv (fun _ => Kept sha256 mc P F) (KeptTask P F)
    (start (ι := ι) (θ := θ) clock) where
  shared := ⟨nofun, nofun⟩
  proc := fun _ => trivial

variable [DecidableEq ι]

theorem Kept.localPut {p : ι × θ} {now : Nat} {st : Store ι θ} (hk : Kept sha256 mc P F st) {c : Call}
    (hc : c.Within P) {m copy : Meta} (hm : F c.host c.path m) (hcopy : CopyOf m copy) {source : Source} :
    Kept sha256 mc P F (localPut p now st (c.key sha256) copy source) where
  redis := hk.redis
  cached := fun i key x hx => by
    rcases localPut_cached hx with hx | ⟨-, rfl, rfl⟩
    · exact hk.cached i key x hx
    · exact ⟨c, hc, rfl, m, hm, hcopy⟩

/-- What `LOCAL` answers a call was fetched for it. -/
theorem Kept.localGet (hinj : ∀ x y, P x → P y → pathDigest sha256 x = pathDigest sha256 y → x = y)
    {p : ι × θ} {now : Nat} {st : Store ι θ} (hk : Kept sha256 mc P F st) {c : Call} (hc : c.Within P)
    {copy : Meta} (h : (localGet p now st (c.key sha256)).2 = some copy) :
    ∃ m, F c.host c.path m ∧ CopyOf m copy := by
  have hget : Embed.localGet p now st (c.key sha256) =
      ((Embed.localGet p now st (c.key sha256)).1, some copy) := Prod.ext rfl h
  obtain ⟨x, hx, rfl, -, -⟩ := localGet_some hget
  obtain ⟨d, hd, hkey, m, hm, hcopy⟩ := hk.cached _ _ x hx
  obtain ⟨hhost, hpath⟩ := hd.eq_of_key hinj hc hkey
  exact ⟨m, hhost ▸ hpath ▸ hm, hcopy⟩

theorem Kept.returned (hinj : ∀ x y, P x → P y → pathDigest sha256 x = pathDigest sha256 y → x = y)
    {p : ι × θ} {now : Nat} {st : Store ι θ} {t : Task} {e : Step} (hk : Kept sha256 mc P F st)
    (ht : KeptTask P F p now st t) {c : Call} {copy : Meta}
    (hC : ∀ host path upstream fetchOnMiss, e = .load host path upstream fetchOnMiss →
      ':' ∉ host ∧ P (normalizePath path))
    (h : returned sha256 p now st t e = some (c, copy)) : ∃ m, F c.host c.path m ∧ CopyOf m copy := by
  unfold Embed.returned at h
  split at h
  · next host path upstream fetchOnMiss =>
    obtain ⟨m, hget, heq⟩ := Option.map_eq_some_iff.mp h
    obtain ⟨rfl, rfl⟩ := Prod.mk.inj heq
    exact hk.localGet hinj (c := .ofArgs host path upstream fetchOnMiss) (hC _ _ _ _ rfl) hget
  · cases h
    exact ht.2
  · obtain ⟨m, hget, heq⟩ := Option.map_eq_some_iff.mp h
    obtain ⟨rfl, rfl⟩ := Prod.mk.inj heq
    exact hk.localGet hinj ht hget
  · cases h
    exact ⟨_, ht.2, .inl rfl⟩
  · cases h

variable [DecidableEq θ]

theorem release_redis (p : ι × θ) (st : Store ι θ) (key : Str) : (release p st key).redis = st.redis := by
  unfold release
  simp only []
  split <;> rfl

theorem Change.kept {p : ι × θ} {now : Nat} {t : Task} {e : Step} {st st' : Store ι θ}
    (h : Change sha256 mc p now t e st st') (hk : Kept sha256 mc P F st) (ht : KeptTask P F p now st t) :
    Kept sha256 mc P F st' := by
  induction h with
  | same => exact hk
  | @get st' key o hget =>
    have hredis : st'.redis = st.redis := by
      cases o with
      | none => exact (localGet_none hget).2.1
      | some copy =>
        obtain ⟨c, -, -, -, rfl⟩ := localGet_some hget
        rfl
    exact ⟨fun i key x hx => hk.cached i key x (localGet_cached hget hx), fun key x hx =>
      hk.redis key x (by rwa [hredis] at hx)⟩
  | found c locked copy w htask =>
    subst htask
    obtain ⟨hc, m, hm, hcopy⟩ := ht
    exact hk.localPut hc hm hcopy
  | got c copy htask =>
    subst htask
    exact hk.localPut ht.1 ht.2 (.inl rfl)
  | set c copy htask =>
    subst htask
    refine ⟨fun i key x hx => hk.cached i key x ?_, fun key x hx => ?_⟩
    · rwa [(quiet_redisSet : Quiet now st _).cached i] at hx
    · rcases redisSet_redis hx with hx | ⟨rfl, hp, -⟩
      · exact hk.redis key x hx
      · exact ⟨c, ht.1, rfl, copy, ht.2, hp⟩
  | lock hfree => exact hk.of_quiet (quiet_setLock p.1 _ : Quiet now st _).cached rfl
  | @release st' _ key ih => exact ih.of_quiet (quiet_release : Quiet now st' _).cached (release_redis p st' key)

theorem keeps_kept (hmc : mc.Lawful)
    (hinj : ∀ x y, P x → P y → pathDigest sha256 x = pathDigest sha256 y → x = y) :
    Cluster.Keeps (act (ι := ι) (θ := θ) sha256 mc) (Fetches P F) (fun _ => Kept sha256 mc P F)
      (KeptTask P F) where
  tick := fun _ _ _ hk => ⟨hk, fun _ t ht => by cases t <;> exact ht⟩
  own := fun p now st t e st' t' hC hk ht ha => by
    refine ⟨(act_change ha).kept hk ht, ?_⟩
    cases act_next ha with
    | done => trivial
    | miss host path upstream fetchOnMiss => exact hC
    | found c locked copy w hget => exact ⟨ht, hk.redisGet hmc hinj ht hget⟩
    | resolve c ok => exact ht
    | fetch c ok => exact ht
    | queue c => exact ht
    | enter c => exact ht
    | look c hget => exact ht
    | got c copy => exact ⟨ht, hC⟩
    | write c copy => exact ht
  other := fun _ _ _ _ _ _ _ _ _ _ _ _ t _ ht => by cases t <;> exact ht

/-! ## Runs -/

/-- The documents a run asks for. -/
def asked (es : List (Cluster.Event (ι × θ) Step)) (x : Str) : Prop :=
  ∃ r host path upstream fetchOnMiss, .on r (.load host path upstream fetchOnMiss) ∈ es ∧ normalizePath path = x

/-- As the callers of `load` do. -/
def HostNormalized : Cluster.Event (ι × θ) Step → Prop
  | .on _ (.load host _ _ _) => ∃ h, host = Config.normalizeHost h
  | _ => True

/-- During the run a fetch for the host and the path came back with that. -/
def Scraped (sha256 : Pow.Sha256) (mc : MetaCrate) (clock : Nat) (es : List (Cluster.Event (ι × θ) Step))
    (host path : Str) (m : Meta) : Prop :=
  ∃ fs gs u q c, es = fs ++ .on q (.fetched (some m)) :: gs ∧
    Machine.run (Cluster.step (act sha256 mc)) (start clock) fs = some u ∧ u.proc q = .fetching c ∧
    c.host = host ∧ c.path = path

/-- Every run is within what it asked for and what its fetches brought back. -/
theorem along_fetches {clock : Nat} {es : List (Cluster.Event (ι × θ) Step)}
    (hhosts : ∀ e ∈ es, HostNormalized e) (hasked : ∀ x, asked es x → P x) :
    Machine.Along (Cluster.step (act sha256 mc)) (Cluster.On (Fetches P (Scraped sha256 mc clock es)))
      (start clock) es := by
  refine Machine.along_of_split fun fs e gs u hes hu => ?_
  have hmem : e ∈ es := hes ▸ by simp
  cases e with
  | tick d => trivial
  | on q e =>
    show Fetches _ _ q u.clock u.shared (u.proc q) e
    unfold Fetches
    split
    · next host path upstream fetchOnMiss htask =>
      obtain ⟨h, rfl⟩ := hhosts _ hmem
      exact ⟨Config.normalizeHost_no_colon h, hasked _ ⟨q, _, path, upstream, fetchOnMiss, hmem, rfl⟩⟩
    · next c m htask => exact ⟨fs, gs, u, q, c, hes, hu, htask, rfl, rfl⟩
    · trivial

/-- **Metadata is only served where it was scraped.** Whatever `load`
returns for a host and a page was brought back by a fetch for that host and
that page, as long as the digest tells the pages of the run apart; and what
two paths differ in after a `?` or `#` does not matter to the key. -/
theorem returned_scraped (hmc : mc.Lawful) {clock : Nat} {es : List (Cluster.Event (ι × θ) Step)} {p : ι × θ}
    {e : Step} (hhosts : ∀ x ∈ es ++ [.on p e], HostNormalized x)
    (hdigest : ∀ x y, asked (es ++ [.on p e]) x → asked (es ++ [.on p e]) y →
      pathDigest sha256 x = pathDigest sha256 y → x = y) {s : Cluster (ι × θ) (Store ι θ) Task}
    (hrun : Machine.run (Cluster.step (act sha256 mc)) (start clock) es = some s) {c : Call} {copy : Meta}
    (hreturned : returned sha256 p s.clock s.shared (s.proc p) e = some (c, copy)) :
    (∃ m, Scraped sha256 mc clock es c.host c.path m ∧ CopyOf m copy) ∧
      ∀ host path x y, (∀ a ∈ path, a ≠ '?' ∧ a ≠ '#') → (∀ a ∈ x.head?, a = '?' ∨ a = '#') →
        (∀ a ∈ y.head?, a = '?' ∨ a = '#') →
        cacheKey sha256 host (path ++ x) = cacheKey sha256 host (path ++ y) := by
  have hasked : ∀ x, asked es x → asked (es ++ [.on p e]) x := fun x hx => by
    obtain ⟨r, host, path, upstream, fetchOnMiss, hmem, hx⟩ := hx
    exact ⟨r, host, path, upstream, fetchOnMiss, List.mem_append_left _ hmem, hx⟩
  have halong : Machine.Along (Cluster.step (act sha256 mc))
      (Cluster.On (Fetches (asked (es ++ [.on p e])) (Scraped sha256 mc clock es))) (start clock) es :=
    along_fetches (fun x hx => hhosts x (List.mem_append_left _ hx)) hasked
  have hinv := (keeps_kept hmc hdigest).run_along halong (kept_start clock) hrun
  constructor
  · refine hinv.shared.returned hdigest (hinv.proc p) (fun host path upstream fetchOnMiss he => ?_) hreturned
    have hmem : .on p e ∈ es ++ [.on p e] := List.mem_append_right _ List.mem_cons_self
    subst he
    obtain ⟨h, rfl⟩ := hhosts _ hmem
    exact ⟨Config.normalizeHost_no_colon h, p, _, path, upstream, fetchOnMiss, hmem, rfl⟩
  · intro host path x y hpath hx hy
    unfold cacheKey
    rw [normalizePath_append hpath hx, normalizePath_append hpath hy]

theorem bareCrate_lawful : bareCrate.Lawful where
  fromStr_toString := fun {c s} h => by
    unfold bareCrate at h ⊢
    simp only [] at h ⊢
    split_ifs at h with hc
    cases h
    simp [hc]

/-- The second replica has read the first one's page from Redis. -/
def readBack : List (Cluster.Event (Bool × Unit) Step) := firstFetches ++ [visit true, .on (true, ()) (.get true)]

theorem readBack_scraped : ∃ s c copy,
    Machine.run (Cluster.step (act Sample.sha256 bareCrate)) (start 0) readBack = some s ∧
      returned Sample.sha256 (true, ()) s.clock s.shared (s.proc (true, ())) .put = some (c, copy) ∧
      ∃ m, Scraped Sample.sha256 bareCrate 0 readBack c.host c.path m ∧ CopyOf m copy := by
  have hsome : (Machine.run (Cluster.step (act Sample.sha256 bareCrate)) (start 0) readBack).map
      (fun s => (returned Sample.sha256 (true, ()) s.clock s.shared (s.proc (true, ())) .put).isSome) =
      some true := by decide +kernel
  obtain ⟨s, hs, hsome⟩ := Option.map_eq_some_iff.mp hsome
  obtain ⟨⟨c, copy⟩, hret⟩ := Option.isSome_iff_exists.mp hsome
  have hvisits : ∀ r host path upstream f,
      .on r (.load host path upstream f) ∈ readBack ++ [.on (true, ()) .put] →
      host = "a.example".toList ∧ path = "/".toList := by
    intro r host path upstream f hmem
    simp only [readBack, firstFetches, visit, List.map_cons, List.map_nil, List.cons_append, List.nil_append,
      List.mem_cons, Cluster.Event.on.injEq, Step.load.injEq, reduceCtorEq, and_false, false_or, or_false,
      List.not_mem_nil] at hmem
    rcases hmem with ⟨-, hhost, hpath, -⟩ | ⟨-, hhost, hpath, -⟩ <;> exact ⟨hhost, hpath⟩
  have hone : ∀ x, asked (readBack ++ [.on (true, ()) .put]) x → x = normalizePath "/".toList := by
    intro x ⟨r, host, path, upstream, f, hmem, hx⟩
    rw [← hx, (hvisits r host path upstream f hmem).2]
  have hhosts : ∀ x ∈ readBack ++ [.on (true, ()) .put], HostNormalized x := by
    intro x hx
    unfold HostNormalized
    split
    · next r host path upstream f =>
      exact ⟨"a.example".toList, by rw [(hvisits r host path upstream f hx).1]; decide +kernel⟩
    · trivial
  refine ⟨s, c, copy, hs, hret, ?_⟩
  exact (returned_scraped bareCrate_lawful hhosts
    (fun x y hx hy _ => (hone x hx).trans (hone y hy).symm) hs hret).1

end NekoGuard.Embed
