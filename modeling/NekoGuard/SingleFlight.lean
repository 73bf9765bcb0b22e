/-
embed.rs: one fetch a key at a time, and none while the last one's copy is
young. A task that fetches has held the lock of its key since before it
last looked in `LOCAL` (`holds_run`), and from the moment a copy is put
there is one at least as young until its window is over (`keeps_recent`).
-/
import NekoGuard.LoadFacts

namespace NekoGuard.Embed

open Lib

variable {ι θ : Type} {sha256 : Pow.Sha256} {mc : MetaCrate}

/-! ## The locks of `INFLIGHT` -/

/-- The call a task is past `lock.lock()` of. -/
def Task.guarded : Task → Option Call
  | .missed c true => some c
  | .found c true _ _ => some c
  | .entered c => some c
  | .fetching c => some c
  | .got c _ => some c
  | .writing c _ => some c
  | _ => none

/-- The task has the guard of the key. -/
def Holds (p : ι × θ) (st : Store ι θ) (key : Str) : Prop := (st.replica p.1).inflight key = some (some p.2)

theorem Holds.unique {p q : ι × θ} {st : Store ι θ} {key : Str} (hp : Holds p st key) (hq : Holds q st key)
    (h : p.1 = q.1) : p = q := by
  unfold Holds at hp hq
  rw [h, hq] at hp
  simp only [Option.some.injEq] at hp
  exact Prod.ext h hp.symm

/-- No lock changes hands. -/
def SameLocks (st st' : Store ι θ) : Prop := ∀ i, (st'.replica i).inflight = (st.replica i).inflight

theorem SameLocks.refl {st : Store ι θ} : SameLocks st st := fun _ => rfl

theorem SameLocks.holds {st st' : Store ι θ} (h : SameLocks st st') {p : ι × θ} {key : Str} :
    Holds p st' key ↔ Holds p st key := by
  unfold Holds
  rw [h p.1]

/-- What one task does leaves the guards of the others alone. -/
def OthersKeep (p : ι × θ) (st st' : Store ι θ) : Prop := ∀ q key, q ≠ p → Holds q st key → Holds q st' key

theorem SameLocks.othersKeep {st st' : Store ι θ} (h : SameLocks st st') {p : ι × θ} : OthersKeep p st st' :=
  fun _ _ _ hq => h.holds.mpr hq

theorem OthersKeep.trans {p : ι × θ} {st st' st'' : Store ι θ} (h : OthersKeep p st st')
    (h' : OthersKeep p st' st'') : OthersKeep p st st'' :=
  fun q key hq hk => h' q key hq (h q key hq hk)

theorem redisSet_sameLocks {now : Nat} {st : Store ι θ} {key : Str} {copy : Meta} :
    SameLocks st (redisSet mc now st key copy) := by
  intro i
  unfold redisSet
  split <;> rfl

section Ops

variable [DecidableEq ι] {p : ι × θ} {now : Nat} {st : Store ι θ} {key : Str}

theorem setCached_sameLocks {i : ι} {c : Option Cached} :
    SameLocks st (st.setReplica i ((st.replica i).setCached key c)) := by
  intro j
  by_cases hj : j = i
  · subst hj
    simp [Store.setReplica, Replica.setCached]
  · simp [Store.setReplica, Function.update_of_ne hj]

theorem localGet_sameLocks {st' : Store ι θ} {o : Option Meta} (h : localGet p now st key = (st', o)) :
    SameLocks st st' := by
  unfold localGet at h
  simp only [] at h
  split at h
  · split at h
    · cases h
      exact .refl
    · cases h
      exact setCached_sameLocks
  · cases h
    exact .refl

/-- A lock nobody has is taken or made. -/
theorem setLock_othersKeep {holder : Option θ} (hfree : ∀ x, (st.replica p.1).inflight key ≠ some (some x)) :
    OthersKeep p st (st.setReplica p.1 ((st.replica p.1).setLock key holder)) := by
  intro q k _ hq
  unfold Holds at hq ⊢
  by_cases hi : q.1 = p.1
  · have hk : k ≠ key := by
      intro hk
      rw [hi, hk] at hq
      exact hfree _ hq
    rw [hi] at hq ⊢
    simpa [Store.setReplica, Replica.setLock, Function.update_of_ne hk] using hq
  · simpa [Store.setReplica, Function.update_of_ne hi] using hq

variable [DecidableEq θ]

/-- A task drops its own guard only. -/
theorem release_othersKeep : OthersKeep p st (release p st key) := by
  unfold release
  simp only []
  split
  · next hp =>
    intro q k hne hq
    by_cases hi : q.1 = p.1
    · have hk : k ≠ key := by
        intro hk
        subst hk
        exact hne (Holds.unique hq hp hi)
      unfold Holds at hq ⊢
      rw [hi] at hq ⊢
      simpa [Store.setReplica, Replica.setLock, Function.update_of_ne hk] using hq
    · unfold Holds at hq ⊢
      simpa [Store.setReplica, Function.update_of_ne hi] using hq
  · exact SameLocks.refl.othersKeep

theorem Change.othersKeep {t : Task} {e : Step} {st' : Store ι θ} (h : Change sha256 mc p now t e st st') :
    OthersKeep p st st' := by
  induction h with
  | same => exact SameLocks.refl.othersKeep
  | get hget => exact (localGet_sameLocks hget).othersKeep
  | found c locked copy w ht he => exact setCached_sameLocks.othersKeep
  | got c copy => exact setCached_sameLocks.othersKeep
  | set c copy => exact redisSet_sameLocks.othersKeep
  | lock hfree => exact setLock_othersKeep hfree
  | release _ key ih => exact ih.trans release_othersKeep

/-- A task past the lock has taken its guard, and keeps it to the end. -/
theorem act_holds {t t' : Task} {e : Step} {st' : Store ι θ}
    (h : act sha256 mc p now st t e = some (st', t')) (ht : ∀ c ∈ t.guarded, Holds p st (c.key sha256)) :
    ∀ c ∈ t'.guarded, Holds p st' (c.key sha256) := by
  cases t <;> cases e <;> simp only [act, reduceCtorEq, Option.some.injEq, Prod.mk.injEq] at h
  case idle.load host path upstream fetchOnMiss =>
    split at h <;> cases h <;> simp [Task.guarded]
  case missed.get c locked ok =>
    cases locked <;> split at h <;> cases h
    · simp [Task.guarded]
    · unfold afterMiss
      by_cases hf : c.fetchOnMiss = true <;> simp [hf, Task.guarded]
    · exact ht
    · exact ht
  case resolving.resolve c =>
    split at h <;> cases h <;> simp [Task.guarded]
  case queued.lock c =>
    split at h
    · cases h
      simp [Task.guarded, Holds, Store.setReplica, Replica.setLock]
    · cases h
  case entered.look c =>
    split at h
    · cases h
      simp [Task.guarded]
    · next hget =>
      cases h
      intro d hd
      exact (localGet_sameLocks hget).holds.mpr (ht d hd)
  case fetching.fetched c o =>
    cases o <;> simp only [Option.some.injEq, Prod.mk.injEq] at h <;> obtain ⟨rfl, rfl⟩ := h
    · simp [Task.guarded]
    · exact ht
  case got.put c copy =>
    obtain ⟨rfl, rfl⟩ := h
    intro d hd
    exact setCached_sameLocks.holds.mpr (ht d hd)
  all_goals
    obtain ⟨rfl, rfl⟩ := h
    simp [Task.guarded]

theorem keeps_holds : Cluster.Keeps (act (ι := ι) (θ := θ) sha256 mc) (fun _ _ _ _ _ => True)
    (fun _ _ => True) (fun p _ st t => ∀ c ∈ t.guarded, Holds p st (c.key sha256)) where
  tick := fun _ _ _ _ => ⟨trivial, fun _ _ h => h⟩
  own := fun _ _ _ _ _ _ _ _ _ ht h => ⟨trivial, act_holds h ht⟩
  other := fun _ _ _ _ _ _ _ _ _ _ h q _ hne ht c hc => (act_change h).othersKeep q _ hne (ht c hc)

theorem holds_run {s : Cluster (ι × θ) (Store ι θ) Task} {clock : Nat}
    {es : List (Cluster.Event (ι × θ) Step)}
    (hrun : Machine.run (Cluster.step (act sha256 mc)) (start clock) es = some s) (p : ι × θ) :
    ∀ c ∈ (s.proc p).guarded, Holds p s.shared (c.key sha256) := by
  have hstart : Cluster.Inv (fun _ _ => True) (fun p _ st t => ∀ c ∈ t.guarded, Holds p st (c.key sha256))
      (start (ι := ι) (θ := θ) clock) := ⟨trivial, fun _ => nofun⟩
  exact (keeps_holds.run hstart hrun).proc p

/-- **At most one fetch of a key.** -/
theorem fetching_unique {s : Cluster (ι × θ) (Store ι θ) Task} {clock : Nat}
    {es : List (Cluster.Event (ι × θ) Step)}
    (hrun : Machine.run (Cluster.step (act sha256 mc)) (start clock) es = some s) {p q : ι × θ} {c d : Call}
    (hp : s.proc p = .fetching c) (hq : s.proc q = .fetching d) (hi : p.1 = q.1)
    (hkey : c.key sha256 = d.key sha256) : p = q := by
  have hhp : Holds p s.shared (c.key sha256) := holds_run hrun p c (by simp [hp, Task.guarded])
  have hhq : Holds q s.shared (d.key sha256) := holds_run hrun q d (by simp [hq, Task.guarded])
  exact hhp.unique (hkey ▸ hhq) hi

end Ops

/-! ## A copy put stays until its window is over -/

/-- A local copy stays, or a younger one takes its place, or its window is
over. -/
def Stays (now : Nat) (st st' : Store ι θ) : Prop :=
  ∀ i key c, (st.replica i).cached key = some c →
    (∃ d, (st'.replica i).cached key = some d ∧ (d = c ∨ d.fetched = now)) ∨ c.fetched + cacheTtl ≤ now

theorem stays_of_cached {now : Nat} {st st' : Store ι θ} (h : ∀ i, (st'.replica i).cached = (st.replica i).cached) :
    Stays now st st' :=
  fun i key c hc => .inl ⟨c, by rwa [h i], .inl rfl⟩

theorem Quiet.stays {now : Nat} {st st' : Store ι θ} (h : Quiet now st st') : Stays now st st' :=
  stays_of_cached h.cached

theorem Stays.trans_quiet {now : Nat} {st st' st'' : Store ι θ} (h : Stays now st st')
    (hq : Quiet now st' st'') : Stays now st st'' := by
  intro i k d hd
  rw [hq.cached i]
  exact h i k d hd

theorem cacheTtl_pos : 0 < cacheTtl := by decide

/-- Since `t₀` the key has had a copy no older, or its window is over. -/
def Recent (i : ι) (key : Str) (t₀ now : Nat) (st : Store ι θ) : Prop :=
  t₀ ≤ now ∧ ((∃ c, (st.replica i).cached key = some c ∧ t₀ ≤ c.fetched) ∨ t₀ + cacheTtl ≤ now)

/-- A task of the process that missed under the lock did so once it was. -/
def RecentTask (sha256 : Pow.Sha256) (i : ι) (key : Str) (t₀ : Nat) (p : ι × θ) (now : Nat)
    (_ : Store ι θ) : Task → Prop
  | .missed c true => p.1 = i → c.key sha256 = key → t₀ + cacheTtl ≤ now
  | _ => True

theorem Stays.recent {now : Nat} {st st' : Store ι θ} {i : ι} {key : Str} {t₀ : Nat} (h : Stays now st st')
    (hr : Recent i key t₀ now st) : Recent i key t₀ now st' := by
  obtain ⟨hle, hc | hover⟩ := hr
  · obtain ⟨c, hc, hfetched⟩ := hc
    refine ⟨hle, ?_⟩
    rcases h i key c hc with hd | hover
    · obtain ⟨d, hd, rfl | hnow⟩ := hd
      · exact .inl ⟨d, hd, hfetched⟩
      · exact .inl ⟨d, hd, by omega⟩
    · exact .inr (by omega)
  · exact ⟨hle, .inr hover⟩

section Keep

variable [DecidableEq ι] {p : ι × θ} {now : Nat} {st : Store ι θ} {key : Str}

theorem localGet_stays {st' : Store ι θ} {o : Option Meta} (h : localGet p now st key = (st', o)) :
    Stays now st st' := by
  unfold localGet at h
  simp only [] at h
  split at h
  · next c hc =>
    split at h
    · cases h
      exact stays_of_cached fun _ => rfl
    · next hage =>
      cases h
      have hpos := cacheTtl_pos
      intro i k d hd
      by_cases hi : i = p.1
      · subst hi
        by_cases hk : k = key
        · subst hk
          rw [hc, Option.some.injEq] at hd
          subst hd
          exact .inr (by omega)
        · exact .inl ⟨d, by simpa [Store.setReplica, Replica.setCached, Function.update_of_ne hk] using hd, .inl rfl⟩
      · exact .inl ⟨d, by simpa [Store.setReplica, Function.update_of_ne hi] using hd, .inl rfl⟩
  · cases h
    exact stays_of_cached fun _ => rfl

theorem localPut_stays {copy : Meta} {source : Source} :
    Stays now st (localPut p now st key copy source) := by
  intro i k d hd
  left
  by_cases hi : i = p.1
  · subst hi
    by_cases hk : k = key
    · subst hk
      exact ⟨⟨copy, now, source⟩, by simp [localPut, Store.setReplica, Replica.setCached], .inr rfl⟩
    · exact ⟨d, by simpa [localPut, Store.setReplica, Replica.setCached, Function.update_of_ne hk] using hd,
        .inl rfl⟩
  · exact ⟨d, by simpa [localPut, Store.setReplica, Function.update_of_ne hi] using hd, .inl rfl⟩

variable [DecidableEq θ]

theorem Change.stays {t : Task} {e : Step} {st' : Store ι θ} (h : Change sha256 mc p now t e st st') :
    Stays now st st' := by
  induction h with
  | same => exact Quiet.refl.stays
  | get hget => exact localGet_stays hget
  | found c locked copy w ht he => exact localPut_stays
  | got c copy => exact localPut_stays
  | set c copy => exact quiet_redisSet.stays
  | lock hfree => exact (quiet_setLock p.1 _).stays
  | release _ key ih => exact ih.trans_quiet quiet_release

/-- A task that misses under the lock has found no young copy there. -/
theorem act_missed {t : Task} {e : Step} {st' : Store ι θ} {c : Call}
    (h : act sha256 mc p now st t e = some (st', .missed c true)) {d : Cached}
    (hd : (st.replica p.1).cached (c.key sha256) = some d) : d.fetched + cacheTtl ≤ now := by
  cases act_next h with
  | look _ hget =>
    have hage := (localGet_none hget).1 d hd
    have hpos := cacheTtl_pos
    omega

theorem keeps_recent (i : ι) (key : Str) (t₀ : Nat) :
    Cluster.Keeps (act (ι := ι) (θ := θ) sha256 mc) (fun _ _ _ _ _ => True) (Recent i key t₀)
      (RecentTask sha256 i key t₀) where
  tick := fun c d st hr => by
    obtain ⟨hle, hc⟩ := hr
    refine ⟨⟨by omega, hc.imp_right (by omega)⟩, fun p t ht => ?_⟩
    unfold RecentTask at ht ⊢
    split
    · intro hi hk
      have h := ht hi hk
      omega
    · trivial
  own := fun p c st t e st' t' _ hr _ ha => by
    refine ⟨(act_change ha).stays.recent hr, ?_⟩
    unfold RecentTask
    split
    · next d =>
      rintro rfl rfl
      obtain ⟨-, hc | hover⟩ := hr
      · obtain ⟨x, hx, hfetched⟩ := hc
        have hage := act_missed ha hx
        omega
      · exact hover
    · trivial
  other := fun _ _ _ _ _ _ _ _ _ _ _ _ _ _ ht => ht

/-- The task that puts a fetched copy is the only one past the lock. -/
theorem recent_put {s t : Cluster (ι × θ) (Store ι θ) Task} {clock : Nat}
    {es : List (Cluster.Event (ι × θ) Step)}
    (hrun : Machine.run (Cluster.step (act sha256 mc)) (start clock) es = some s) {c : Call} {copy : Meta}
    (hgot : s.proc p = .got c copy) (hput : Cluster.step (act sha256 mc) s (.on p .put) = some t) :
    Cluster.Inv (Recent p.1 (c.key sha256) s.clock) (RecentTask sha256 p.1 (c.key sha256) s.clock) t := by
  have hholds : Holds p s.shared (c.key sha256) := holds_run hrun p c (by simp [hgot, Task.guarded])
  obtain ⟨st, x, ha, rfl⟩ := Cluster.step_on_eq_some.mp hput
  rw [hgot] at ha
  simp only [act, Option.some.injEq, Prod.mk.injEq] at ha
  obtain ⟨rfl, rfl⟩ := ha
  constructor
  · refine ⟨Nat.le_refl _, .inl ⟨⟨copy, s.clock, .fetch⟩, ?_, Nat.le_refl _⟩⟩
    simp [localPut, Store.setReplica, Replica.setCached]
  · intro q
    by_cases hq : q = p
    · subst hq
      simp [RecentTask]
    · simp only [Function.update_of_ne hq]
      unfold RecentTask
      split
      · next d hd =>
        intro hi hkey
        have hother : Holds q s.shared (d.key sha256) := holds_run hrun q d (by simp [hd, Task.guarded])
        exact absurd ((hkey ▸ hother).unique hholds hi) hq
      · trivial

/-- **A page is fetched once a window.** At any moment at most one task of a
process is fetching a key; and once a fetched copy has been put, no task of
the process starts another fetch of the key before `CACHE_TTL` has passed. -/
theorem fetches_once (sha256 : Pow.Sha256) (mc : MetaCrate) (clock : Nat) :
    (∀ es (s : Cluster (ι × θ) (Store ι θ) Task),
      Machine.run (Cluster.step (act sha256 mc)) (start clock) es = some s →
      ∀ p q c d, s.proc p = .fetching c → s.proc q = .fetching d → p.1 = q.1 →
        c.key sha256 = d.key sha256 → p = q) ∧
    ∀ es (s t u v : Cluster (ι × θ) (Store ι θ) Task) p q c d copy fs e,
      Machine.run (Cluster.step (act sha256 mc)) (start clock) es = some s →
      s.proc p = .got c copy → Cluster.step (act sha256 mc) s (.on p .put) = some t →
      Machine.run (Cluster.step (act sha256 mc)) t fs = some u →
      Cluster.step (act sha256 mc) u (.on q e) = some v → v.proc q = .fetching d →
      q.1 = p.1 → d.key sha256 = c.key sha256 → s.clock + cacheTtl ≤ u.clock := by
  refine ⟨fun es s hrun p q c d hp hq hi hkey => fetching_unique hrun hp hq hi hkey, ?_⟩
  intro es s t u v p q c d copy fs e hrun hgot hput hrun' hstep hfetching hi hkey
  have hrecent := recent_put hrun hgot hput
  have hu := (keeps_recent p.1 (c.key sha256) s.clock).run hrecent hrun'
  obtain ⟨st, x, ha, rfl⟩ := Cluster.step_on_eq_some.mp hstep
  simp only [Function.update_self] at hfetching
  subst hfetching
  have hq := hu.proc q
  generalize u.proc q = x at ha hq
  cases act_next ha with
  | fetch _ _ => exact hq hi hkey

end Keep

/-- The key a task has fetched, and the one it is fetching. -/
def Task.gotKey (sha256 : Pow.Sha256) : Task → Option Str
  | .got c _ => some (c.key sha256)
  | _ => none

def Task.fetchingKey (sha256 : Pow.Sha256) : Task → Option Str
  | .fetching c => some (c.key sha256)
  | _ => none

/-- A visit whose fetch has come back, and another when its window is over. -/
def untilGot : List (Cluster.Event (Bool × Unit) Step) :=
  visit false :: [Step.get true, .resolve, .lock, .look, .get true, .fetched (some bare)].map (.on (false, ()))

def untilRefetch : List (Cluster.Event (Bool × Unit) Step) :=
  .on (false, ()) (.set true) :: .tick cacheTtl :: visit false ::
    [Step.get true, .resolve, .lock, .look].map (.on (false, ()))

theorem refetch_after_window : ∃ s u,
    Machine.run (Cluster.step (act Sample.sha256 bareCrate)) (start 0) untilGot = some s ∧
      Machine.run (Cluster.step (act Sample.sha256 bareCrate)) s (.on (false, ()) .put :: untilRefetch) = some u ∧
      s.clock + cacheTtl ≤ u.clock := by
  let key := cacheKey Sample.sha256 "a.example".toList "/".toList
  have hgot : (Machine.run (Cluster.step (act Sample.sha256 bareCrate)) (start 0) untilGot).map
      (fun s => (s.proc (false, ())).gotKey Sample.sha256) = some (some key) := by decide +kernel
  have hfetching : (Machine.run (Cluster.step (act Sample.sha256 bareCrate)) (start 0)
      (untilGot ++ (.on (false, ()) .put :: untilRefetch) ++ [.on (false, ()) (.get true)])).map
      (fun s => (s.proc (false, ())).fetchingKey Sample.sha256) = some (some key) := by decide +kernel
  obtain ⟨s, hs, hgot⟩ := Option.map_eq_some_iff.mp hgot
  obtain ⟨v, hv, hfetching⟩ := Option.map_eq_some_iff.mp hfetching
  obtain ⟨u, hu, hstep⟩ := Machine.run_snoc_eq_some.mp hv
  obtain ⟨s', hs', hu⟩ := Machine.run_append_eq_some.mp hu
  rw [hs, Option.some.injEq] at hs'
  subst hs'
  obtain ⟨t, ht, hfs⟩ := Machine.run_cons_eq_some.mp hu
  refine ⟨s, u, hs, hu, ?_⟩
  unfold Task.gotKey at hgot
  unfold Task.fetchingKey at hfetching
  split at hgot
  · next c copy hc =>
    split at hfetching
    · next d hd =>
      simp only [Option.some.injEq] at hgot hfetching
      exact (fetches_once Sample.sha256 bareCrate 0).2 _ s t u v _ _ c d copy _ _ hs hc ht hfs hstep hd rfl
        (hfetching.trans hgot.symm)
    · cases hfetching
  · cases hgot

end NekoGuard.Embed
