/-
embed.rs: what `LOCAL` and `INFLIGHT` keep. A key comes into `LOCAL` where
`load` puts a copy and goes only where a later `local_get` finds that copy
too old; one comes into `INFLIGHT` where `load` first resolves its lock and
never goes (`retained_iff`). So the maps hold no more than the requests of
the last window ask for only as long as other requests do the tidying up
(`accounted_iff`).
-/
import Mathlib.Data.Finset.Card
import NekoGuard.SingleFlight

namespace NekoGuard.Embed

open Lib

variable {ι θ : Type} {sha256 : Pow.Sha256} {mc : MetaCrate}

/-- When the copy `LOCAL` has for a key was put there. -/
def Store.fetchedAt (st : Store ι θ) (i : ι) (key : Str) : Option Nat :=
  ((st.replica i).cached key).map (·.fetched)

/-- `INFLIGHT` has a lock for a key. -/
def Store.Resolved (st : Store ι θ) (i : ι) (key : Str) : Prop := ((st.replica i).inflight key).isSome

/-- The functions of embed.rs that look a key up in one of the two maps. -/
inductive MapOp where
  | localGet
  | localPut
  | inflightLock
deriving DecidableEq

/-- The one a step calls, and for which call of `load`. -/
def Task.does : Task → Step → Option (MapOp × Call)
  | .idle, .load host path upstream fetchOnMiss => some (.localGet, .ofArgs host path upstream fetchOnMiss)
  | .entered c, .look => some (.localGet, c)
  | .found c _ _ _, .put => some (.localPut, c)
  | .got c _, .put => some (.localPut, c)
  | .resolving c, .resolve => some (.inflightLock, c)
  | _, _ => none

/-- A step of a task calls it for the key, in that process. -/
abbrev Calls (sha256 : Pow.Sha256) (op : MapOp) (p : ι × θ) (t : Task) (e : Step) (i : ι) (key : Str) : Prop :=
  p.1 = i ∧ ∃ c, t.does e = some (op, c) ∧ c.key sha256 = key

/-- An event of a run does. -/
def Does (sha256 : Pow.Sha256) (op : MapOp) (i : ι) (key : Str) :
    Cluster (ι × θ) (Store ι θ) Task × Cluster.Event (ι × θ) Step → Prop
  | (s, .on p e) => Calls sha256 op p (s.proc p) e i key
  | (_, .tick _) => False

/-- A copy of the key is put, at that moment. -/
def PutAt (sha256 : Pow.Sha256) (i : ι) (key : Str) (put : Nat)
    (x : Cluster (ι × θ) (Store ι θ) Task × Cluster.Event (ι × θ) Step) : Prop :=
  Does sha256 .localPut i key x ∧ x.1.clock = put

/-- No other is, and none looks for the one put then `CACHE_TTL` later. -/
def Keeping (sha256 : Pow.Sha256) (i : ι) (key : Str) (put : Nat)
    (x : Cluster (ι × θ) (Store ι θ) Task × Cluster.Event (ι × θ) Step) : Prop :=
  ¬Does sha256 .localPut i key x ∧ ¬(Does sha256 .localGet i key x ∧ put + cacheTtl ≤ x.1.clock)

/-! ## What a step does to the maps -/

/-- Both maps have the same keys, put at the same times. -/
structure SameMaps (st st' : Store ι θ) : Prop where
  fetchedAt : st'.fetchedAt = st.fetchedAt
  resolved : st'.Resolved = st.Resolved

theorem SameMaps.refl {st : Store ι θ} : SameMaps st st := ⟨rfl, rfl⟩

theorem redisSet_sameMaps {now : Nat} {st : Store ι θ} {key : Str} {copy : Meta} :
    SameMaps st (redisSet mc now st key copy) := by
  unfold redisSet
  split
  · exact ⟨rfl, rfl⟩
  · exact .refl

variable [DecidableEq ι] {p : ι × θ} {now : Nat} {st : Store ι θ} {key : Str}

/-- `inflight_lock`. -/
def inflightLock (p : ι × θ) (st : Store ι θ) (key : Str) : Store ι θ :=
  let r := st.replica p.1
  match r.inflight key with
  | some _ => st
  | none => st.setReplica p.1 (r.setLock key none)

theorem setLock_fetchedAt (i : ι) (holder : Option θ) :
    (st.setReplica i ((st.replica i).setLock key holder)).fetchedAt = st.fetchedAt := by
  funext j k
  simp only [Store.fetchedAt, (quiet_setLock i holder : Quiet 0 st _).cached j]

theorem setLock_resolved (i j : ι) (holder : Option θ) (k : Str) :
    (st.setReplica i ((st.replica i).setLock key holder)).Resolved j k ↔ (i = j ∧ key = k) ∨ st.Resolved j k := by
  by_cases hi : i = j
  · subst hi
    by_cases hk : key = k
    · subst hk
      simp [Store.Resolved, Store.setReplica, Replica.setLock]
    · simp [Store.Resolved, Store.setReplica, Replica.setLock, hk, Function.update_of_ne (Ne.symm hk)]
  · simp [Store.Resolved, Store.setReplica, hi, Function.update_of_ne (Ne.symm hi)]

/-- The lock of a key in `INFLIGHT` is taken or dropped. -/
theorem setLock_sameMaps {holder : Option θ} (hin : st.Resolved p.1 key) :
    SameMaps st (st.setReplica p.1 ((st.replica p.1).setLock key holder)) where
  fetchedAt := setLock_fetchedAt p.1 holder
  resolved := by
    funext i k
    rw [setLock_resolved]
    refine propext (or_iff_right_of_imp ?_)
    intro ⟨hi, hk⟩
    exact hi ▸ hk ▸ hin

theorem release_sameMaps [DecidableEq θ] : SameMaps st (release p st key) := by
  unfold release
  simp only []
  split
  · next hheld => exact setLock_sameMaps (by simp [Store.Resolved, hheld])
  · exact .refl

/-- What a step does to the maps: one of the operations of `load` for the key
of its call, or nothing. -/
inductive Touches (sha256 : Pow.Sha256) (p : ι × θ) (now : Nat) (t : Task) (e : Step) (st : Store ι θ) :
    Store ι θ → Prop where
  | none (h : t.does e = none) : Touches sha256 p now t e st st
  | get (c : Call) (h : t.does e = some (.localGet, c)) {st' : Store ι θ} {o : Option Meta}
    (hget : localGet p now st (c.key sha256) = (st', o)) : Touches sha256 p now t e st st'
  | put (c : Call) (copy : Meta) (source : Source) (h : t.does e = some (.localPut, c)) :
    Touches sha256 p now t e st (localPut p now st (c.key sha256) copy source)
  | resolve (c : Call) (h : t.does e = some (.inflightLock, c)) :
    Touches sha256 p now t e st (inflightLock p st (c.key sha256))
  | same {st' st'' : Store ι θ} (h : Touches sha256 p now t e st st') (hs : SameMaps st' st'') :
    Touches sha256 p now t e st st''

/-- **What a step can do to the maps.** -/
theorem act_touches [DecidableEq θ] {t t' : Task} {e : Step} {st' : Store ι θ}
    (h : act sha256 mc p now st t e = some (st', t')) : Touches sha256 p now t e st st' := by
  cases t <;> cases e <;> simp only [act, reduceCtorEq, Option.some.injEq, Prod.mk.injEq] at h
  case idle.load host path upstream fetchOnMiss =>
    split at h
    · next hget =>
      cases h
      exact .get _ rfl hget
    · next hget =>
      cases h
      exact .get _ rfl hget
  case missed.get c locked ok =>
    split at h <;> cases h <;> exact .none rfl
  case found.put c locked copy w =>
    obtain ⟨rfl, -⟩ := h
    exact (Touches.put c copy (.redis w) rfl).same release_sameMaps
  case resolving.resolve c =>
    have hlock : Touches sha256 p now (.resolving c) .resolve st (inflightLock p st (c.key sha256)) :=
      .resolve c rfl
    unfold inflightLock at hlock
    simp only [] at hlock
    split at h <;> next hin =>
      cases h
      simpa only [hin] using hlock
  case queued.lock c =>
    split at h
    · next hfree =>
      cases h
      exact (Touches.none rfl).same (setLock_sameMaps (by simp [Store.Resolved, hfree]))
    · cases h
  case entered.look c =>
    split at h
    · next hget =>
      cases h
      exact (Touches.get c rfl hget).same release_sameMaps
    · next hget =>
      cases h
      exact .get c rfl hget
  case fetching.fetched c o =>
    cases o <;> simp only [Option.some.injEq, Prod.mk.injEq] at h <;> obtain ⟨rfl, -⟩ := h
    · exact (Touches.none rfl).same release_sameMaps
    · exact .none rfl
  case got.put c copy =>
    obtain ⟨rfl, -⟩ := h
    exact .put c copy .fetch rfl
  case writing.set c copy ok =>
    obtain ⟨rfl, -⟩ := h
    cases ok
    · exact (Touches.none rfl).same release_sameMaps
    · exact ((Touches.none rfl).same redisSet_sameMaps).same release_sameMaps
  case resolving.cancel c =>
    obtain ⟨rfl, -⟩ := h
    exact .none rfl
  case queued.cancel c =>
    obtain ⟨rfl, -⟩ := h
    exact .none rfl
  all_goals
    obtain ⟨rfl, -⟩ := h
    exact (Touches.none rfl).same release_sameMaps

theorem setCached_fetchedAt (c : Option Cached) (i j : ι) (k : Str) :
    (st.setReplica i ((st.replica i).setCached key c)).fetchedAt j k =
      if i = j ∧ key = k then c.map (·.fetched) else st.fetchedAt j k := by
  by_cases hi : i = j
  · subst hi
    by_cases hk : key = k
    · subst hk
      simp [Store.fetchedAt, Store.setReplica, Replica.setCached]
    · simp [Store.fetchedAt, Store.setReplica, Replica.setCached, hk, Function.update_of_ne (Ne.symm hk)]
  · simp [Store.fetchedAt, Store.setReplica, hi, Function.update_of_ne (Ne.symm hi)]

/-- `local_get` takes the copy of its key away when it is too old. -/
theorem localGet_fetchedAt {st' : Store ι θ} {o : Option Meta} (h : localGet p now st key = (st', o)) (i : ι)
    (k : Str) (put : Nat) : st'.fetchedAt i k = some put ↔
      st.fetchedAt i k = some put ∧ ¬((p.1 = i ∧ key = k) ∧ put + cacheTtl ≤ now) := by
  have hpos := cacheTtl_pos
  unfold localGet at h
  simp only [] at h
  split at h
  · next c hc =>
    split at h
    · next hage =>
      cases h
      refine (and_iff_left_of_imp fun hput hold => ?_).symm
      obtain ⟨⟨rfl, rfl⟩, hold⟩ := hold
      simp only [Store.fetchedAt, hc, Option.map_some, Option.some.injEq] at hput
      omega
    · next hage =>
      cases h
      rw [setCached_fetchedAt]
      by_cases hi : p.1 = i ∧ key = k
      · obtain ⟨rfl, rfl⟩ := hi
        simp only [Store.fetchedAt, hc, Option.map_some, Option.map_none, Option.some.injEq, and_self, if_true,
          reduceCtorEq, true_and, false_iff, not_and, not_not]
        omega
      · simp [hi]
  · next hnone =>
    cases h
    refine (and_iff_left_of_imp fun hput hold => ?_).symm
    obtain ⟨⟨rfl, rfl⟩, -⟩ := hold
    simp [Store.fetchedAt, hnone] at hput

theorem inflightLock_fetchedAt : (inflightLock p st key).fetchedAt = st.fetchedAt := by
  unfold inflightLock
  simp only []
  split
  · rfl
  · exact setLock_fetchedAt p.1 none

theorem inflightLock_resolved (i : ι) (k : Str) :
    (inflightLock p st key).Resolved i k ↔ (p.1 = i ∧ key = k) ∨ st.Resolved i k := by
  unfold inflightLock
  simp only []
  split
  · next hin =>
    refine (or_iff_right_of_imp ?_).symm
    intro ⟨hi, hk⟩
    simp [Store.Resolved, ← hi, ← hk, hin]
  · exact setLock_resolved p.1 i none k

theorem Touches.fetchedAt {t : Task} {e : Step} {st' : Store ι θ} (h : Touches sha256 p now t e st st') (i : ι)
    (k : Str) (put : Nat) : st'.fetchedAt i k = some put ↔
      (Calls sha256 .localPut p t e i k ∧ now = put) ∨ st.fetchedAt i k = some put ∧
        ¬Calls sha256 .localPut p t e i k ∧ ¬(Calls sha256 .localGet p t e i k ∧ put + cacheTtl ≤ now) := by
  induction h with
  | none h => simp [Calls, h]
  | get c h hget => simp [Calls, h, localGet_fetchedAt hget]
  | put c copy source h =>
    unfold localPut
    rw [setCached_fetchedAt]
    by_cases hi : p.1 = i ∧ c.key sha256 = k
    · simp [Calls, h, hi]
    · simp [Calls, h, hi]
  | resolve c h => simp [Calls, h, inflightLock_fetchedAt]
  | same _ hs ih => rw [hs.fetchedAt, ih]

theorem Touches.resolved {t : Task} {e : Step} {st' : Store ι θ} (h : Touches sha256 p now t e st st') (i : ι)
    (k : Str) : st'.Resolved i k ↔ Calls sha256 .inflightLock p t e i k ∨ st.Resolved i k := by
  induction h with
  | none h => simp [Calls, h]
  | get c h hget => simp [Calls, h, Store.Resolved, localGet_sameLocks hget i]
  | put c copy source h => simp [Calls, h, Store.Resolved, localPut, setCached_sameLocks i]
  | resolve c h => simp [Calls, h, inflightLock_resolved]
  | same _ hs ih => rw [hs.resolved, ih]

/-! ## Over a run -/

/-- The keys the `load` calls of a process are made for, one for each. -/
def askedKeys (sha256 : Pow.Sha256) (i : ι) (es : List (Cluster.Event (ι × θ) Step)) : List Str :=
  es.filterMap fun
    | .on p (.load host path upstream fetchOnMiss) =>
      if p.1 = i then some ((Call.ofArgs host path upstream fetchOnMiss).key sha256) else none
    | _ => none

/-- The call a task is in. -/
def Task.call : Task → Option Call
  | .idle => none
  | .missed c _ | .found c _ _ _ | .resolving c | .queued c | .entered c | .fetching c | .got c _ | .writing c _ =>
    some c

/-- A key is in one of the two maps. -/
def Store.Retains (st : Store ι θ) (i : ι) (key : Str) : Prop := (st.fetchedAt i key).isSome ∨ st.Resolved i key

variable [DecidableEq θ]

theorem step_fetchedAt {s s' : Cluster (ι × θ) (Store ι θ) Task} {e : Cluster.Event (ι × θ) Step}
    (h : Cluster.step (act sha256 mc) s e = some s') (i : ι) (key : Str) (put : Nat) :
    s'.shared.fetchedAt i key = some put ↔
      PutAt sha256 i key put (s, e) ∨ s.shared.fetchedAt i key = some put ∧ Keeping sha256 i key put (s, e) := by
  cases e with
  | tick d =>
    cases h
    simp [PutAt, Keeping, Does]
  | on p e =>
    obtain ⟨st, t, ha, rfl⟩ := Cluster.step_on_eq_some.mp h
    exact (act_touches ha).fetchedAt i key put

theorem step_resolved {s s' : Cluster (ι × θ) (Store ι θ) Task} {e : Cluster.Event (ι × θ) Step}
    (h : Cluster.step (act sha256 mc) s e = some s') (i : ι) (key : Str) :
    s'.shared.Resolved i key ↔ Does sha256 .inflightLock i key (s, e) ∨ s.shared.Resolved i key := by
  cases e with
  | tick d =>
    cases h
    simp [Does]
  | on p e =>
    obtain ⟨st, t, ha, rfl⟩ := Cluster.step_on_eq_some.mp h
    exact (act_touches ha).resolved i key

/-- A call a task is in, it was in before, or it is only now made. -/
theorem act_call {t t' : Task} {e : Step} {st' : Store ι θ} (h : act sha256 mc p now st t e = some (st', t'))
    {c : Call} (hc : t'.call = some c) : t.call = some c ∨
      ∃ host path upstream fetchOnMiss, e = .load host path upstream fetchOnMiss ∧
        c = .ofArgs host path upstream fetchOnMiss := by
  cases act_next h with
  | done => cases hc
  | miss host path upstream fetchOnMiss =>
    cases hc
    exact .inr ⟨host, path, upstream, fetchOnMiss, rfl, rfl⟩
  | _ =>
    cases hc
    exact .inl rfl

theorem does_call {t : Task} {e : Step} {op : MapOp} {c : Call} (h : t.does e = some (op, c))
    (hop : op ≠ .localGet) : t.call = some c := by
  cases t <;> cases e <;> simp only [Task.does, reduceCtorEq, Option.some.injEq, Prod.mk.injEq] at h
  case idle.load => exact absurd h.1.symm hop
  case entered.look => exact absurd h.1.symm hop
  all_goals exact congrArg some h.2

/-- A key that is in one of the maps after a step was there before, or is
that of the call. -/
theorem act_retains {t t' : Task} {e : Step} {st' : Store ι θ}
    (h : act sha256 mc p now st t e = some (st', t')) {i : ι} {key : Str} (hkey : st'.Retains i key) :
    st.Retains i key ∨ p.1 = i ∧ ∃ c, t.call = some c ∧ c.key sha256 = key := by
  have hcalls : ∀ op, op ≠ .localGet → Calls sha256 op p t e i key →
      p.1 = i ∧ ∃ c, t.call = some c ∧ c.key sha256 = key :=
    fun op hop ⟨hi, c, hdoes, hk⟩ => ⟨hi, c, does_call hdoes hop, hk⟩
  rcases hkey with hput | hres
  · obtain ⟨put, hput⟩ := Option.isSome_iff_exists.mp hput
    rcases ((act_touches h).fetchedAt i key put).mp hput with ⟨hdoes, -⟩ | ⟨hold, -⟩
    · exact .inr (hcalls _ (by simp) hdoes)
    · exact .inl (.inl (by simp [hold]))
  · rcases ((act_touches h).resolved i key).mp hres with hdoes | hold
    · exact .inr (hcalls _ (by simp) hdoes)
    · exact .inl (.inr hold)

/-- The arguments of the calls made are among those of `K`. -/
def AsksOnly (sha256 : Pow.Sha256) (K : ι → List Str) (p : ι × θ) (_ : Nat) (_ : Store ι θ) (_ : Task)
    (e : Step) : Prop :=
  ∀ host path upstream fetchOnMiss, e = .load host path upstream fetchOnMiss →
    (Call.ofArgs host path upstream fetchOnMiss).key sha256 ∈ K p.1

theorem keeps_asked (K : ι → List Str) : Cluster.Keeps (act (ι := ι) (θ := θ) sha256 mc) (AsksOnly sha256 K)
    (fun _ st => ∀ i key, st.Retains i key → key ∈ K i)
    (fun p _ _ t => ∀ c, t.call = some c → c.key sha256 ∈ K p.1) where
  tick := fun _ _ _ h => ⟨h, fun _ _ h => h⟩
  own := fun p _ _ t e _ t' hasks hI hJ h => by
    constructor
    · intro i key hkey
      rcases act_retains h hkey with hold | ⟨rfl, c, hc, rfl⟩
      · exact hI i key hold
      · exact hJ c hc
    · intro c hc
      rcases act_call h hc with hold | ⟨host, path, upstream, fetchOnMiss, he, rfl⟩
      · exact hJ c hold
      · exact hasks host path upstream fetchOnMiss he
  other := fun _ _ _ _ _ _ _ _ _ _ _ _ _ _ h => h

theorem asked_run {s : Cluster (ι × θ) (Store ι θ) Task} {clock : Nat} {es : List (Cluster.Event (ι × θ) Step)}
    (hrun : Machine.run (Cluster.step (act sha256 mc)) (start clock) es = some s) (i : ι) (key : Str)
    (hkey : s.shared.Retains i key) : key ∈ askedKeys sha256 i es := by
  have hasks : Machine.Along (Cluster.step (act sha256 mc)) (Cluster.On (AsksOnly sha256 fun i => askedKeys sha256 i es))
      (start clock) es := Machine.along_of_forall fun e he t => by
    cases e with
    | tick d => trivial
    | on p e =>
      intro host path upstream fetchOnMiss hload
      subst hload
      exact List.mem_filterMap.mpr ⟨_, he, by simp⟩
  have hstart : Cluster.Inv (fun _ st => ∀ i key, st.Retains i key → key ∈ askedKeys sha256 i es)
      (fun p _ _ t => ∀ c, t.call = some c → c.key sha256 ∈ askedKeys sha256 p.1 es)
      (start (ι := ι) (θ := θ) clock) :=
    ⟨fun _ _ h => h.elim nofun nofun, fun _ => nofun⟩
  exact ((keeps_asked fun i => askedKeys sha256 i es).run_along hasks hstart hrun).shared i key hkey

/-- **What the maps of a process keep.** -/
theorem retained_iff {s : Cluster (ι × θ) (Store ι θ) Task} {clock : Nat}
    {es : List (Cluster.Event (ι × θ) Step)}
    (hrun : Machine.run (Cluster.step (act sha256 mc)) (start clock) es = some s) (i : ι) :
    (∀ key put, s.shared.fetchedAt i key = some put ↔
      Machine.Since (PutAt sha256 i key put) (Keeping sha256 i key put)
        (Machine.trace (Cluster.step (act sha256 mc)) (start clock) es)) ∧
    (∀ key, s.shared.Resolved i key ↔
      ∃ x ∈ Machine.trace (Cluster.step (act sha256 mc)) (start clock) es, Does sha256 .inflightLock i key x) ∧
    ∀ K : Finset Str, (∀ key ∈ K, s.shared.Retains i key) → K ⊆ (askedKeys sha256 i es).toFinset ∧
      K.card ≤ (askedKeys sha256 i es).length := by
  refine ⟨fun key put => ?_, fun key => ?_, fun K hK => ?_⟩
  · exact Machine.run_since (P := fun s => s.shared.fetchedAt i key = some put)
      (fun _ _ _ h => step_fetchedAt h i key put) (by simp [Store.fetchedAt, start]) hrun
  · have hsince := Machine.run_since (P := fun s => s.shared.Resolved i key) (C := Does sha256 .inflightLock i key)
      (D := fun _ => True) (fun _ _ _ h => by simpa using step_resolved h i key)
      (by simp [Store.Resolved, start]) hrun
    exact hsince.trans Machine.since_true
  · have hsub : K ⊆ (askedKeys sha256 i es).toFinset := fun key hkey =>
      List.mem_toFinset.mpr (asked_run hrun i key (hK key hkey))
    exact ⟨hsub, (Finset.card_le_card hsub).trans (List.toFinset_card_le _)⟩

def aKey : Str := cacheKey Sample.sha256 "a.example".toList "/".toList

example : ∃ s, Machine.run (Cluster.step (act Sample.sha256 bareCrate)) (start 0) firstFetches = some s ∧
    ∃ x ∈ Machine.trace (Cluster.step (act Sample.sha256 bareCrate)) (start 0) firstFetches,
      Does Sample.sha256 .inflightLock false aKey x := by
  have hat : (Machine.run (Cluster.step (act Sample.sha256 bareCrate)) (start 0) firstFetches).map
      (fun s => ((s.shared.replica false).inflight aKey).isSome) = some true := by decide +kernel
  obtain ⟨s, hs, hres⟩ := Option.map_eq_some_iff.mp hat
  exact ⟨s, hs, ((retained_iff hs false).2.1 aKey).mp hres⟩

/-! ## What they would have to keep -/

/-- The call whose lock a task holds or waits for. -/
def Task.attends : Task → Option Call
  | .queued c => some c
  | t => t.guarded

/-- Where a step ends such a call. -/
def ends (sha256 : Pow.Sha256) (p : ι × θ) (now : Nat) (st : Store ι θ) : Task → Step → Option Call
  | .found c true _ _, .put => some c
  | .entered c, .look => if (localGet p now st (c.key sha256)).2.isSome then some c else none
  | .fetching c, .fetched none => some c
  | .writing c _, .set _ => some c
  | t, .cancel => t.attends
  | _, _ => none

/-- A task holds or waits for the lock of the key. -/
def Task.Attends (sha256 : Pow.Sha256) (t : Task) (key : Str) : Prop := ∃ c ∈ t.attends, c.key sha256 = key

/-- The keys of `LOCAL` were put within the last `CACHE_TTL`, and those of
`INFLIGHT` are held or waited for. -/
structure Accounted (sha256 : Pow.Sha256) (s : Cluster (ι × θ) (Store ι θ) Task) : Prop where
  young : ∀ i key put, s.shared.fetchedAt i key = some put → s.clock ≤ put + cacheTtl
  attended : ∀ i key, s.shared.Resolved i key → ∃ p, p.1 = i ∧ (s.proc p).Attends sha256 key

/-- No copy in `LOCAL` is let grow older, and no call at a lock ends but
where another is at it. -/
def Tended (sha256 : Pow.Sha256) (s : Cluster (ι × θ) (Store ι θ) Task) : Cluster.Event (ι × θ) Step → Prop
  | .tick d => ∀ i key put, s.shared.fetchedAt i key = some put → s.clock + d ≤ put + cacheTtl
  | .on p e => ∀ c ∈ ends sha256 p s.clock s.shared (s.proc p) e,
    ∃ q, q ≠ p ∧ q.1 = p.1 ∧ (s.proc q).Attends sha256 (c.key sha256)

/-- A call that a step ends was at its lock, and the task can take that step. -/
theorem act_ends (mc : MetaCrate) {t : Task} {e : Step} {c : Call} (h : c ∈ ends sha256 p now st t e) :
    c ∈ t.attends ∧ ∃ st', act sha256 mc p now st t e = some (st', .idle) := by
  cases e with
  | cancel =>
    cases t with
    | idle => simp [ends, Task.attends, Task.guarded] at h
    | _ => exact ⟨by simpa only [ends] using h, _, rfl⟩
  | put =>
    cases t with
    | found d locked copy w =>
      cases locked with
      | true => exact ⟨by simpa [ends, Task.attends, Task.guarded] using h, _, rfl⟩
      | false => simp [ends] at h
    | _ => simp [ends] at h
  | look =>
    cases t with
    | entered d =>
      simp only [ends, Option.mem_def, Option.ite_none_right_eq_some, Option.some.injEq] at h
      obtain ⟨hfound, rfl⟩ := h
      obtain ⟨copy, hcopy⟩ := Option.isSome_iff_exists.mp hfound
      refine ⟨rfl, release p (localGet p now st (d.key sha256)).1 (d.key sha256), ?_⟩
      have hget : localGet p now st (d.key sha256) = ((localGet p now st (d.key sha256)).1, some copy) :=
        Prod.ext rfl hcopy
      simp only [act]
      rw [hget]
    | _ => simp [ends] at h
  | fetched o =>
    cases t with
    | fetching d =>
      cases o with
      | none => exact ⟨by simpa [ends, Task.attends, Task.guarded] using h, _, rfl⟩
      | some copy => simp [ends] at h
    | _ => simp [ends] at h
  | set ok =>
    cases t with
    | writing d copy => exact ⟨by simpa [ends, Task.attends, Task.guarded] using h, _, rfl⟩
    | _ => simp [ends] at h
  | _ => simp [ends] at h

/-- Any other step leaves the call there. -/
theorem act_attends {t t' : Task} {e : Step} {st' : Store ι θ}
    (h : act sha256 mc p now st t e = some (st', t')) (hends : ends sha256 p now st t e = none) {c : Call}
    (hc : c ∈ t.attends) : c ∈ t'.attends := by
  cases t <;> cases e <;> simp only [act, reduceCtorEq, Option.some.injEq, Prod.mk.injEq] at h
  case missed.get d locked ok =>
    cases locked with
    | false => cases hc
    | true =>
      split at h <;> cases h
      · exact hc
      · exact hc
  case found.put d locked copy w =>
    cases locked with
    | false => cases hc
    | true => cases hends
  case queued.lock d =>
    split at h <;> cases h
    exact hc
  case entered.look d =>
    split at h
    · next hget => simp [ends, hget] at hends
    · cases h
      exact hc
  case fetching.fetched d o =>
    cases o <;> simp only [Option.some.injEq, Prod.mk.injEq] at h <;> obtain ⟨-, rfl⟩ := h
    · cases hends
    · exact hc
  case got.put d copy =>
    obtain ⟨-, rfl⟩ := h
    exact hc
  case writing.set d copy ok => cases hends
  case idle.load => cases hc
  case resolving.resolve => cases hc
  all_goals
    simp only [ends] at hends
    rw [hends] at hc
    cases hc

/-- The task that resolves a lock waits for it. -/
theorem resolve_attends {t t' : Task} {e : Step} {st' : Store ι θ}
    (h : act sha256 mc p now st t e = some (st', t')) {i : ι} {key : Str}
    (hcalls : Calls sha256 .inflightLock p t e i key) : p.1 = i ∧ t'.Attends sha256 key := by
  obtain ⟨hi, c, hdoes, hk⟩ := hcalls
  refine ⟨hi, ?_⟩
  cases t <;> cases e <;> simp only [Task.does, reduceCtorEq, Option.some.injEq, Prod.mk.injEq, false_and,
    true_and] at hdoes
  subst hdoes
  simp only [act] at h
  split at h <;> cases h <;> exact ⟨_, rfl, hk⟩

/-- A call that is at its lock after a step was there before, or the step
resolved it. -/
theorem act_attends_inv {t t' : Task} {e : Step} {st' : Store ι θ}
    (h : act sha256 mc p now st t e = some (st', t')) {c : Call} (hc : c ∈ t'.attends) :
    c ∈ t.attends ∨ t.does e = some (.inflightLock, c) := by
  cases act_next h with
  | queue d =>
    cases hc
    exact .inr rfl
  | found d locked copy w =>
    cases locked with
    | false => cases hc
    | true => exact .inl hc
  | done => cases hc
  | miss => cases hc
  | resolve => cases hc
  | _ => exact .inl hc

theorem keeps_resolved : Cluster.Keeps (act (ι := ι) (θ := θ) sha256 mc) (fun _ _ _ _ _ => True)
    (fun _ _ => True) (fun p _ st t => ∀ c ∈ t.attends, st.Resolved p.1 (c.key sha256)) where
  tick := fun _ _ _ _ => ⟨trivial, fun _ _ h => h⟩
  own := fun p _ _ _ _ _ _ _ _ hJ h => by
    refine ⟨trivial, fun c hc => ((act_touches h).resolved p.1 _).mpr ?_⟩
    rcases act_attends_inv h hc with hold | hdoes
    · exact .inr (hJ c hold)
    · exact .inl ⟨rfl, c, hdoes, rfl⟩
  other := fun _ _ _ _ _ _ _ _ _ _ h q _ _ hJ c hc => ((act_touches h).resolved q.1 _).mpr (.inr (hJ c hc))

/-- The calls at a lock have it in `INFLIGHT`. -/
abbrev AtLocks (sha256 : Pow.Sha256) : Cluster (ι × θ) (Store ι θ) Task → Prop :=
  Cluster.Inv (fun _ _ => True) fun p _ st t => ∀ c ∈ t.attends, st.Resolved p.1 (c.key sha256)

omit [DecidableEq θ] in
theorem tick_accounted {s : Cluster (ι × θ) (Store ι θ) Task} {d : Nat} (hI : Accounted sha256 s) :
    Tended sha256 s (.tick d) ↔ Accounted sha256 { s with clock := s.clock + d } :=
  ⟨fun h => ⟨h, hI.attended⟩, fun h => h.young⟩

theorem Tended.accounted {s s' : Cluster (ι × θ) (Store ι θ) Task} {p : ι × θ} {e : Step}
    (h : Tended sha256 s (.on p e)) (hI : Accounted sha256 s)
    (hstep : Cluster.step (act sha256 mc) s (.on p e) = some s') : Accounted sha256 s' := by
  have hput := step_fetchedAt hstep
  have hres := step_resolved hstep
  obtain ⟨st, t, ha, rfl⟩ := Cluster.step_on_eq_some.mp hstep
  constructor
  · intro i key put hat
    rcases (hput i key put).mp hat with ⟨-, hnow⟩ | ⟨hold, -⟩
    · exact hnow ▸ Nat.le_add_right _ _
    · exact hI.young i key put hold
  · -- who is at the lock now: the task that resolved it, one that was there
    -- before, or where that one's call ends, the other that `h` promises
    intro i key hat
    have hown : p.1 = i → t.Attends sha256 key → ∃ q, q.1 = i ∧ (Function.update s.proc p t q).Attends sha256 key :=
      fun hi hk => ⟨p, hi, by rwa [Function.update_self]⟩
    have hother : ∀ q, q ≠ p → q.1 = i → (s.proc q).Attends sha256 key →
        ∃ q, q.1 = i ∧ (Function.update s.proc p t q).Attends sha256 key :=
      fun q hq hi hk => ⟨q, hi, by rwa [Function.update_of_ne hq]⟩
    rcases (hres i key).mp hat with hdoes | hold
    · obtain ⟨hi, hk⟩ := resolve_attends ha hdoes
      exact hown hi hk
    · obtain ⟨q, hi, c, hc, hk⟩ := hI.attended i key hold
      by_cases hq : q = p
      · subst hq
        cases hends : ends sha256 q s.clock s.shared (s.proc q) e with
        | none => exact hown hi ⟨c, act_attends ha hends hc, hk⟩
        | some d =>
          have hd : d ∈ (s.proc q).attends := (act_ends mc hends).1
          obtain ⟨r, hr, hri, hat⟩ := h d hends
          rw [Option.mem_unique hd hc, hk] at hat
          exact hother r hr (hri.trans hi) hat
      · exact hother q hq hi ⟨c, hc, hk⟩

/-- A call that leaves its lock unattended leaves it in `INFLIGHT`. -/
theorem tended_of_accounted {s : Cluster (ι × θ) (Store ι θ) Task} {p : ι × θ} {e : Step}
    (hJ : AtLocks sha256 s) (h : ∀ s' ∈ Cluster.step (act sha256 mc) s (.on p e), Accounted sha256 s') :
    Tended sha256 s (.on p e) := by
  intro c hc
  obtain ⟨hat, st, ha⟩ := act_ends mc hc
  have hstep := Cluster.step_on_eq_some.mpr ⟨st, Task.idle, ha, rfl⟩
  have hres := (step_resolved hstep p.1 (c.key sha256)).mpr (.inr (hJ.proc p c hat))
  obtain ⟨q, hi, hk⟩ := (h _ hstep).attended _ _ hres
  by_cases hq : q = p
  · subst hq
    simp [Task.Attends, Task.attends, Task.guarded] at hk
  · exact ⟨q, hq, hi, by simpa [Function.update_of_ne hq] using hk⟩

end NekoGuard.Embed
