/-
What a step of `load` can do, to what the tasks share (`act_change`) and to
the task that takes it (`act_next`), and how old a local copy can get. `local_put` stamps a copy with the clock at
which it is put, so that no copy of a Redis entry is served after the entry
is gone it has to be put at the very moment the entry was written; a copy
put any later may outlive it (`local_copies_expire`).
-/
import NekoGuard.Load
import NekoGuard.Samples

namespace NekoGuard.Embed

open Lib

variable {ι θ : Type} {sha256 : Pow.Sha256} {mc : MetaCrate}

/-- The copy was served before the Redis entry it came from was gone. -/
def InWindow {π : Type} (v : Served π) : Prop := ∀ w, v.cached.source = .redis w → v.now < w + cacheTtl

/-- A copy read from Redis is put at the very moment its entry was written. -/
def Prompt (_ : ι × θ) (now : Nat) (_ : Store ι θ) : Task → Step → Prop
  | .found _ _ _ written, .put => now = written
  | _, _ => True

/-! ## What a step does to the caches -/

/-- `LOCAL` and the copies served are as they were; what is new in Redis was
written now. -/
structure Quiet (now : Nat) (st st' : Store ι θ) : Prop where
  served : st'.served = st.served
  cached : ∀ i, (st'.replica i).cached = (st.replica i).cached
  redis : ∀ key x, st'.redis key = some x → st.redis key = some x ∨ x.written = now

/-- At most one copy is served, from `LOCAL` and young enough; what is new
in `LOCAL` is stamped now, and comes from a fetch or from what the task found. -/
structure Effect (p : ι × θ) (now : Nat) (t : Task) (e : Step) (st st' : Store ι θ) : Prop where
  served : st'.served = st.served ∨ ∃ key c, (st.replica p.1).cached key = some c ∧
    now - c.fetched < cacheTtl ∧ st'.served = ⟨p, key, now, c⟩ :: st.served
  cached : ∀ i key c, (st'.replica i).cached key = some c → (st.replica i).cached key = some c ∨
    c.fetched = now ∧ (c.source = .fetch ∨
      ∃ call locked copy w, c.source = .redis w ∧ t = .found call locked copy w ∧ e = .put)
  redis : ∀ key x, st'.redis key = some x → st.redis key = some x ∨ x.written = now

theorem Quiet.refl {now : Nat} {st : Store ι θ} : Quiet now st st := ⟨rfl, fun _ => rfl, fun _ _ h => .inl h⟩

theorem Quiet.effect {p : ι × θ} {now : Nat} {t : Task} {e : Step} {st st' : Store ι θ}
    (h : Quiet now st st') : Effect p now t e st st' where
  served := .inl h.served
  cached := fun i key c hc => .inl (by rwa [h.cached i] at hc)
  redis := h.redis

theorem Effect.trans_quiet {p : ι × θ} {now : Nat} {t : Task} {e : Step} {st st' st'' : Store ι θ}
    (h : Effect p now t e st st') (hq : Quiet now st' st'') : Effect p now t e st st'' where
  served := hq.served ▸ h.served
  cached := fun i key c hc => h.cached i key c (by rwa [hq.cached i] at hc)
  redis := fun key x hx => (hq.redis key x hx).elim (h.redis key x) .inr

section Ops

variable {p : ι × θ} {now : Nat} {st : Store ι θ} {key : Str}

/-- What is new in Redis was written now, for the key it is under. -/
theorem redisSet_redis {copy : Meta} {k : Str} {x : Entry} (h : (redisSet mc now st key copy).redis k = some x) :
    st.redis k = some x ∨ k = key ∧ mc.toString (.ofMeta copy) = some x.payload ∧ x.written = now := by
  unfold redisSet at h
  split at h
  · next payload hp =>
    by_cases hk : k = key
    · subst hk
      simp only [Function.update_self, Option.some.injEq] at h
      subst h
      exact .inr ⟨rfl, hp, rfl⟩
    · simp only [Function.update_of_ne hk] at h
      exact .inl h
  · exact .inl h

theorem quiet_redisSet {copy : Meta} : Quiet now st (redisSet mc now st key copy) := by
  refine ⟨?_, fun i => ?_, fun k x hx => (redisSet_redis hx).imp_right fun h => h.2.2⟩ <;>
  · unfold redisSet
    split <;> rfl

/-- What `redis_get` answers is a readable entry that is there. -/
theorem redisGet_eq_some {copy : Meta} {w : Nat} (h : redisGet mc now st key = some (copy, w)) :
    ∃ x c, st.redis key = some x ∧ now < x.written + cacheTtl ∧ mc.fromStr x.payload = some c ∧
      c.intoMeta = copy ∧ x.written = w := by
  simp only [redisGet, Option.bind_eq_some_iff, Option.filter_eq_some_iff, Option.map_eq_some_iff,
    decide_eq_true_eq, Prod.mk.injEq] at h
  obtain ⟨x, ⟨hx, hlive⟩, c, hc, hcopy, hw⟩ := h
  exact ⟨x, c, hx, hlive, hc, hcopy, hw⟩

variable [DecidableEq ι]

theorem quiet_setLock (i : ι) (holder : Option θ) :
    Quiet now st (st.setReplica i ((st.replica i).setLock key holder)) where
  served := rfl
  redis := fun _ _ h => .inl h
  cached := fun j => by
    by_cases hj : j = i
    · subst hj
      simp [Store.setReplica, Replica.setLock]
    · simp [Store.setReplica, Function.update_of_ne hj]

/-- `local_get` at most takes an entry away. -/
theorem localGet_cached {st' : Store ι θ} {o : Option Meta} (h : localGet p now st key = (st', o)) {i : ι}
    {k : Str} {x : Cached} (hx : (st'.replica i).cached k = some x) : (st.replica i).cached k = some x := by
  unfold localGet at h
  simp only [] at h
  split at h
  · split at h
    · cases h
      exact hx
    · cases h
      by_cases hi : i = p.1
      · subst hi
        by_cases hk : k = key
        · subst hk
          simp [Store.setReplica, Replica.setCached] at hx
        · simpa [Store.setReplica, Replica.setCached, Function.update_of_ne hk] using hx
      · simpa [Store.setReplica, Function.update_of_ne hi] using hx
  · cases h
    exact hx

/-- What it returns is a young enough copy. -/
theorem localGet_some {st' : Store ι θ} {copy : Meta} (h : localGet p now st key = (st', some copy)) :
    ∃ c, (st.replica p.1).cached key = some c ∧ c.copy = copy ∧ now - c.fetched < cacheTtl ∧
      st' = { st with served := ⟨p, key, now, c⟩ :: st.served } := by
  unfold localGet at h
  simp only [] at h
  split at h
  · next c hc =>
    split at h
    · next hage =>
      cases h
      exact ⟨c, hc, rfl, hage, rfl⟩
    · cases h
  · cases h

theorem localGet_none {st' : Store ι θ} (h : localGet p now st key = (st', none)) :
    (∀ c, (st.replica p.1).cached key = some c → cacheTtl ≤ now - c.fetched) ∧ st'.redis = st.redis ∧
      st'.served = st.served := by
  unfold localGet at h
  simp only [] at h
  split at h
  · next c hc =>
    split at h
    · cases h
    · next hage =>
      cases h
      refine ⟨fun d hd => ?_, rfl, rfl⟩
      rw [hc, Option.some.injEq] at hd
      exact hd ▸ Nat.le_of_not_lt hage
  · next hnone =>
    cases h
    exact ⟨fun d hd => by simp [hnone] at hd, rfl, rfl⟩

theorem localGet_effect {t : Task} {e : Step} {st' : Store ι θ} {o : Option Meta}
    (h : localGet p now st key = (st', o)) : Effect p now t e st st' := by
  cases o with
  | some copy =>
    obtain ⟨c, hc, -, hage, rfl⟩ := localGet_some h
    exact ⟨.inr ⟨key, c, hc, hage, rfl⟩, fun _ _ _ h => .inl h, fun _ _ h => .inl h⟩
  | none =>
    obtain ⟨-, hredis, hserved⟩ := localGet_none h
    exact ⟨.inl hserved, fun _ _ _ hx => .inl (localGet_cached h hx), fun _ _ hx => .inl (hredis ▸ hx)⟩

/-- What is new in `LOCAL` is the copy put there. -/
theorem localPut_cached {copy : Meta} {source : Source} {i : ι} {k : Str} {x : Cached}
    (hx : ((localPut p now st key copy source).replica i).cached k = some x) :
    (st.replica i).cached k = some x ∨ i = p.1 ∧ k = key ∧ x = ⟨copy, now, source⟩ := by
  unfold localPut at hx
  by_cases hi : i = p.1
  · subst hi
    by_cases hk : k = key
    · subst hk
      simp only [Store.setReplica, Replica.setCached, Function.update_self, Option.some.injEq] at hx
      exact .inr ⟨rfl, rfl, hx.symm⟩
    · left
      simpa [Store.setReplica, Replica.setCached, Function.update_of_ne hk] using hx
  · left
    simpa [Store.setReplica, Function.update_of_ne hi] using hx

theorem localPut_effect {t : Task} {e : Step} {copy : Meta} {source : Source}
    (hs : source = .fetch ∨
      ∃ call locked copy w, source = .redis w ∧ t = .found call locked copy w ∧ e = .put) :
    Effect p now t e st (localPut p now st key copy source) where
  served := .inl rfl
  redis := fun _ _ h => .inl h
  cached := fun i k x hx => by
    rcases localPut_cached hx with hx | ⟨-, -, rfl⟩
    · exact .inl hx
    · exact .inr ⟨rfl, hs⟩

variable [DecidableEq θ]

theorem quiet_release : Quiet now st (release p st key) := by
  unfold release
  simp only []
  split
  · exact quiet_setLock p.1 none
  · exact .refl

/-- What one step does to what the tasks share: at most one of the
operations of `load`, and then a guard may be dropped. -/
inductive Change (sha256 : Pow.Sha256) (mc : MetaCrate) (p : ι × θ) (now : Nat) (t : Task) (e : Step)
    (st : Store ι θ) : Store ι θ → Prop where
  | same : Change sha256 mc p now t e st st
  | get {st' : Store ι θ} {key : Str} {o : Option Meta} (h : localGet p now st key = (st', o)) :
    Change sha256 mc p now t e st st'
  | found (c : Call) (locked : Bool) (copy : Meta) (w : Nat) (ht : t = .found c locked copy w) (he : e = .put) :
    Change sha256 mc p now t e st (localPut p now st (c.key sha256) copy (.redis w))
  | got (c : Call) (copy : Meta) (ht : t = .got c copy) (he : e = .put) :
    Change sha256 mc p now t e st (localPut p now st (c.key sha256) copy .fetch)
  | set (c : Call) (copy : Meta) (ht : t = .writing c copy) :
    Change sha256 mc p now t e st (redisSet mc now st (c.key sha256) copy)
  | lock {key : Str} {holder : Option θ} (hfree : ∀ x, (st.replica p.1).inflight key ≠ some (some x)) :
    Change sha256 mc p now t e st (st.setReplica p.1 ((st.replica p.1).setLock key holder))
  | release {st' : Store ι θ} (h : Change sha256 mc p now t e st st') (key : Str) :
    Change sha256 mc p now t e st (release p st' key)

/-- **What a step can do to what the tasks share.** -/
theorem act_change {t t' : Task} {e : Step} {st' : Store ι θ}
    (h : act sha256 mc p now st t e = some (st', t')) : Change sha256 mc p now t e st st' := by
  cases t <;> cases e <;> simp only [act, reduceCtorEq, Option.some.injEq, Prod.mk.injEq] at h
  case idle.load host path upstream fetchOnMiss =>
    split at h
    · next hget =>
      cases h
      exact .get hget
    · next hget =>
      cases h
      exact .get hget
  case missed.get c locked ok =>
    split at h <;> cases h <;> exact .same
  case found.put c locked copy w =>
    obtain ⟨rfl, -⟩ := h
    exact (Change.found c locked copy w rfl rfl).release _
  case resolving.resolve c =>
    split at h
    · cases h
      exact .same
    · next hnone =>
      cases h
      exact .lock (by simp [hnone])
  case queued.lock c =>
    split at h
    · next hfree =>
      cases h
      exact .lock (by simp [hfree])
    · cases h
  case entered.look c =>
    split at h
    · next hget =>
      cases h
      exact (Change.get hget).release _
    · next hget =>
      cases h
      exact .get hget
  case fetching.fetched c o =>
    cases o <;> simp only [Option.some.injEq, Prod.mk.injEq] at h <;> obtain ⟨rfl, -⟩ := h
    · exact Change.same.release _
    · exact .same
  case got.put c copy =>
    obtain ⟨rfl, -⟩ := h
    exact .got c copy rfl rfl
  case writing.set c copy ok =>
    obtain ⟨rfl, -⟩ := h
    cases ok
    · exact Change.same.release _
    · exact (Change.set c copy rfl).release _
  case resolving.cancel c =>
    obtain ⟨rfl, -⟩ := h
    exact .same
  case queued.cancel c =>
    obtain ⟨rfl, -⟩ := h
    exact .same
  all_goals
    obtain ⟨rfl, -⟩ := h
    exact Change.same.release _

theorem Change.effect {t : Task} {e : Step} {st' : Store ι θ} (h : Change sha256 mc p now t e st st') :
    Effect p now t e st st' := by
  induction h with
  | same => exact Quiet.refl.effect
  | get hget => exact localGet_effect hget
  | found c locked copy w ht he => exact localPut_effect (.inr ⟨c, locked, copy, w, rfl, ht, he⟩)
  | got c copy => exact localPut_effect (.inl rfl)
  | set c copy => exact quiet_redisSet.effect
  | lock hfree => exact (quiet_setLock p.1 _).effect
  | release _ key ih => exact ih.trans_quiet quiet_release

/-- Where one step takes a task. -/
inductive Next (sha256 : Pow.Sha256) (mc : MetaCrate) (p : ι × θ) (now : Nat) (st : Store ι θ) :
    Task → Step → Task → Prop where
  | done {t : Task} {e : Step} : Next sha256 mc p now st t e .idle
  | miss (host path upstream : Str) (fetchOnMiss : Bool) :
    Next sha256 mc p now st .idle (.load host path upstream fetchOnMiss)
      (.missed (.ofArgs host path upstream fetchOnMiss) false)
  | found (c : Call) (locked : Bool) (copy : Meta) (w : Nat)
      (h : redisGet mc now st (c.key sha256) = some (copy, w)) :
    Next sha256 mc p now st (.missed c locked) (.get true) (.found c locked copy w)
  | resolve (c : Call) (ok : Bool) : Next sha256 mc p now st (.missed c false) (.get ok) (.resolving c)
  | fetch (c : Call) (ok : Bool) : Next sha256 mc p now st (.missed c true) (.get ok) (.fetching c)
  | queue (c : Call) : Next sha256 mc p now st (.resolving c) .resolve (.queued c)
  | enter (c : Call) : Next sha256 mc p now st (.queued c) .lock (.entered c)
  | look (c : Call) {st' : Store ι θ} (h : localGet p now st (c.key sha256) = (st', none)) :
    Next sha256 mc p now st (.entered c) .look (.missed c true)
  | got (c : Call) (copy : Meta) : Next sha256 mc p now st (.fetching c) (.fetched (some copy)) (.got c copy)
  | write (c : Call) (copy : Meta) : Next sha256 mc p now st (.got c copy) .put (.writing c copy)

/-- **What a step can do to the task that takes it.** -/
theorem act_next {t t' : Task} {e : Step} {st' : Store ι θ}
    (h : act sha256 mc p now st t e = some (st', t')) : Next sha256 mc p now st t e t' := by
  cases t <;> cases e <;> simp only [act, reduceCtorEq, Option.some.injEq, Prod.mk.injEq] at h
  case idle.load host path upstream fetchOnMiss =>
    split at h <;> cases h
    · exact .done
    · exact .miss host path upstream fetchOnMiss
  case missed.get c locked ok =>
    split at h
    · next copy w hget =>
      cases h
      cases ok with
      | false => cases hget
      | true => exact .found c locked copy w hget
    · cases h
      unfold afterMiss
      cases locked with
      | true => exact .fetch c ok
      | false =>
        by_cases hf : c.fetchOnMiss = true
        · simpa [hf] using Next.resolve c ok
        · simpa [hf] using Next.done
  case resolving.resolve c =>
    split at h <;> cases h <;> exact .queue c
  case queued.lock c =>
    split at h <;> cases h
    exact .enter c
  case entered.look c =>
    split at h
    · cases h
      exact .done
    · next hget =>
      cases h
      exact .look c hget
  case fetching.fetched c o =>
    cases o <;> simp only [Option.some.injEq, Prod.mk.injEq] at h <;> obtain ⟨-, rfl⟩ := h
    · exact .done
    · exact .got c _
  case got.put c copy =>
    obtain ⟨-, rfl⟩ := h
    exact .write c copy
  all_goals
    obtain ⟨-, rfl⟩ := h
    exact .done

/-- What a task has found is an entry that was there. -/
theorem act_found {t : Task} {e : Step} {st' : Store ι θ} {c : Call} {locked : Bool} {copy : Meta} {w : Nat}
    (h : act sha256 mc p now st t e = some (st', .found c locked copy w)) :
    ∃ k x, st.redis k = some x ∧ x.written = w := by
  cases act_next h with
  | found _ _ _ _ hget =>
    obtain ⟨x, _, hx, -, -, -, hw⟩ := redisGet_eq_some hget
    exact ⟨_, x, hx, hw⟩

end Ops

/-! ## Copies put promptly -/

/-- Each copy of a Redis entry is stamped with the moment that was written,
and was served within its window. -/
structure Fresh (st : Store ι θ) : Prop where
  stamped : ∀ i key c w, (st.replica i).cached key = some c → c.source = .redis w → c.fetched = w
  served : ∀ v ∈ st.served, InWindow v

theorem Effect.fresh {p : ι × θ} {now : Nat} {t : Task} {e : Step} {st st' : Store ι θ}
    (h : Effect p now t e st st') (hprompt : Prompt p now st t e) (hf : Fresh st) : Fresh st' where
  stamped := fun i key c w hc hw => by
    rcases h.cached i key c hc with hc | ⟨hnow, hs | ⟨call, locked, copy, w', hs, ht, he⟩⟩
    · exact hf.stamped i key c w hc hw
    · rw [hw] at hs
      cases hs
    · rw [hw, Source.redis.injEq] at hs
      subst ht he
      have hput : now = w' := hprompt
      rw [hnow, hput, hs]
  served := fun v hv => by
    rcases h.served with hs | ⟨key, c, hc, hage, hs⟩
    · exact hf.served v (hs ▸ hv)
    · rw [hs] at hv
      rcases List.mem_cons.mp hv with rfl | hv
      · intro w hw
        have hstamp := hf.stamped _ _ _ _ hc hw
        show now < w + cacheTtl
        omega
      · exact hf.served v hv

theorem fresh_start (clock : Nat) :
    Cluster.Inv (fun _ => Fresh) (fun _ _ _ _ => True) (start (ι := ι) (θ := θ) clock) where
  shared := ⟨nofun, nofun⟩
  proc := fun _ => trivial

section Runs

variable [DecidableEq ι] [DecidableEq θ]

theorem keeps_fresh : Cluster.Keeps (act (ι := ι) (θ := θ) sha256 mc) Prompt (fun _ => Fresh)
    (fun _ _ _ _ => True) where
  tick := fun _ _ _ h => ⟨h, fun _ _ _ => trivial⟩
  own := fun _ _ _ _ _ _ _ hprompt hf _ ha => ⟨(act_change ha).effect.fresh hprompt hf, trivial⟩
  other := fun _ _ _ _ _ _ _ _ _ _ _ _ _ _ _ => trivial

end Runs

/-! ## Copies put later -/

/-- Redis has no entry from the future, and no task has found one. -/
def Past (clock : Nat) (st : Store ι θ) : Prop := ∀ key e, st.redis key = some e → e.written ≤ clock

def PastTask (_ : ι × θ) (clock : Nat) (_ : Store ι θ) : Task → Prop
  | .found _ _ _ w => w ≤ clock
  | _ => True

theorem past_start (clock : Nat) :
    Cluster.Inv Past PastTask (start (ι := ι) (θ := θ) clock) where
  shared := nofun
  proc := fun _ => trivial

variable [DecidableEq ι] [DecidableEq θ]

theorem keeps_past : Cluster.Keeps (act (ι := ι) (θ := θ) sha256 mc) (fun _ _ _ _ _ => True) Past
    PastTask where
  tick := fun c d st h => by
    refine ⟨fun key x hx => Nat.le_add_right_of_le (h key x hx), fun r t ht => ?_⟩
    cases t with
    | found => exact Nat.le_add_right_of_le ht
    | _ => trivial
  own := fun p c st t e st' t' _ hI _ ha => by
    constructor
    · intro key x hx
      rcases (act_change ha).effect.redis key x hx with h | h
      · exact hI key x h
      · exact Nat.le_of_eq h
    · cases t' with
      | found call locked copy w =>
        obtain ⟨k, x, hx, hw⟩ := act_found ha
        exact hw ▸ hI k x hx
      | _ => trivial
  other := fun _ _ _ _ _ _ _ _ _ _ _ r q _ hq => by
    cases q with
    | found => exact hq
    | _ => trivial

/-- `load` reduces a path again only to itself. -/
theorem Call.ofArgs_eq (c : Call) : Call.ofArgs c.host c.path c.upstream c.fetchOnMiss = c := by
  obtain ⟨host, path, upstream, fetchOnMiss, normal⟩ := c
  simp only [Call.ofArgs, normal]

/-- A copy put after its entry was written is still served once that is gone. -/
theorem served_late {t : Cluster (ι × θ) (Store ι θ) Task} {p : ι × θ} {c : Call} {copy : Meta} {w : Nat}
    (hidle : t.proc p = .idle) (hlate : w < t.clock)
    (hcached : (t.shared.replica p.1).cached (c.key sha256) = some ⟨copy, t.clock, .redis w⟩) :
    ∃ fs u v, Machine.run (Cluster.step (act sha256 mc)) t fs = some u ∧ v ∈ u.shared.served ∧ ¬InWindow v := by
  let d := w + cacheTtl - t.clock
  let v : Served (ι × θ) := ⟨p, c.key sha256, t.clock + d, ⟨copy, t.clock, .redis w⟩⟩
  have hyoung : t.clock + d - t.clock < cacheTtl := by
    have hpos : 0 < cacheTtl := by decide
    omega
  have hget : localGet p (t.clock + d) t.shared (c.key sha256) =
      ({ t.shared with served := v :: t.shared.served }, some copy) := by
    unfold localGet
    simp only [hcached]
    rw [if_pos hyoung]
  have hact : act sha256 mc p (t.clock + d) t.shared (t.proc p) (.load c.host c.path c.upstream c.fetchOnMiss) =
      some ({ t.shared with served := v :: t.shared.served }, .idle) := by
    rw [hidle]
    simp only [act, c.ofArgs_eq, hget]
  refine ⟨[.tick d, .on p (.load c.host c.path c.upstream c.fetchOnMiss)], _, v,
    Machine.run_cons_eq_some.mpr ⟨_, Cluster.step_tick t d,
      Machine.run_cons_eq_some.mpr ⟨_, Cluster.step_on_eq_some.mpr ⟨_, _, hact, rfl⟩, rfl⟩⟩,
    List.mem_cons_self, ?_⟩
  intro hin
  have hlt : t.clock + d < w + cacheTtl := hin w rfl
  omega

/-- **When no local copy outlives its entry.** In a run in which each copy
read from Redis is put the moment its entry was written, every copy is
served before that entry is gone; and after a copy is put at any other time
the run can go on to serve one that is. -/
theorem local_copies_expire (sha256 : Pow.Sha256) (mc : MetaCrate) (clock : Nat) :
    (∀ es s, Machine.Along (Cluster.step (act sha256 mc)) (Cluster.On Prompt) (start (ι := ι) (θ := θ) clock) es →
      Machine.run (Cluster.step (act sha256 mc)) (start clock) es = some s →
      ∀ v ∈ s.shared.served, InWindow v) ∧
    ∀ es (s t : Cluster (ι × θ) (Store ι θ) Task) p e,
      Machine.run (Cluster.step (act sha256 mc)) (start clock) es = some s →
      Cluster.step (act sha256 mc) s (.on p e) = some t → ¬Prompt p s.clock s.shared (s.proc p) e →
      ∃ fs u v, Machine.run (Cluster.step (act sha256 mc)) t fs = some u ∧ v ∈ u.shared.served ∧ ¬InWindow v := by
  refine ⟨fun es s hprompt hrun => (keeps_fresh.run_along hprompt (fresh_start clock) hrun).shared.served, ?_⟩
  intro es s t p e hrun hstep hlate
  have hpast := (keeps_past.run (past_start clock) hrun).proc p
  obtain ⟨st, q, ha, rfl⟩ := Cluster.step_on_eq_some.mp hstep
  cases htask : s.proc p with
  | found c locked copy w =>
    rw [htask] at ha hlate hpast
    cases e with
    | put =>
      simp only [act, Option.some.injEq, Prod.mk.injEq] at ha
      obtain ⟨rfl, rfl⟩ := ha
      have hne : s.clock ≠ w := hlate
      have hle : w ≤ s.clock := hpast
      have hcached : ((release p (localPut p s.clock s.shared (c.key sha256) copy (.redis w))
          (c.key sha256)).replica p.1).cached (c.key sha256) = some ⟨copy, s.clock, .redis w⟩ := by
        rw [(quiet_release : Quiet s.clock _ _).cached]
        simp [localPut, Store.setReplica, Replica.setCached]
      exact served_late (Function.update_self _ _ _) (Nat.lt_of_le_of_ne hle hne.symm) hcached
    | _ => exact absurd trivial hlate
  | _ =>
    rw [htask] at hlate
    cases e <;> exact absurd trivial hlate

instance decidablePrompt (p : ι × θ) (now : Nat) (st : Store ι θ) : ∀ t e, Decidable (Prompt p now st t e)
  | .found _ _ _ written, .put => inferInstanceAs (Decidable (now = written))
  | .found .., .load .. | .found .., .get _ | .found .., .resolve | .found .., .lock | .found .., .look
  | .found .., .fetched _ | .found .., .set _ | .found .., .cancel => isTrue trivial
  | .idle, _ | .missed .., _ | .resolving _, _ | .queued _, _ | .entered _, _ | .fetching _, _
  | .got .., _ | .writing .., _ => isTrue trivial

instance decidableOnPrompt : ∀ (s : Cluster (ι × θ) (Store ι θ) Task) (e : Cluster.Event (ι × θ) Step),
    Decidable (Cluster.On Prompt s e)
  | _, .tick _ => isTrue trivial
  | s, .on p e => decidablePrompt p s.clock s.shared (s.proc p) e

/-- A page without a head, and its entry. -/
def bare : Meta := { title := none, tags := [], iconUrl := none, icon := none }

def bareJson : Str := "\x7b\"title\":null,\"tags\":[],\"icon\":null,\"icon_mime\":null\x7d".toList

def bareCrate : MetaCrate where
  toString c := if c = .ofMeta bare then some bareJson else none
  fromStr s := if s = bareJson then some (.ofMeta bare) else none

def visit (i : Bool) : Cluster.Event (Bool × Unit) Step :=
  .on (i, ()) (.load "a.example".toList "/".toList "http://origin".toList true)

/-- The first replica fetches a page and writes it to Redis. -/
def firstFetches : List (Cluster.Event (Bool × Unit) Step) :=
  visit false :: [Step.get true, .resolve, .lock, .look, .get true, .fetched (some bare), .put, .set true].map
    (.on (false, ()))

/-- The second reads it there, so many seconds later, and serves it again
after so many more. -/
def secondReads (age later : Nat) : List (Cluster.Event (Bool × Unit) Step) :=
  firstFetches ++ [.tick (10 ^ 9 * age), visit true, .on (true, ()) (.get true), .on (true, ()) .put,
    .tick (10 ^ 9 * later), visit true]

theorem secondReads_in_window : ∃ s,
    Machine.run (Cluster.step (act Sample.sha256 bareCrate)) (start 0) (secondReads 0 299) = some s ∧
      ∀ v ∈ s.shared.served, InWindow v := by
  obtain ⟨s, hs⟩ := Option.isSome_iff_exists.mp (show (Machine.run (Cluster.step (act Sample.sha256 bareCrate))
    (start 0) (secondReads 0 299)).isSome = true by decide +kernel)
  exact ⟨s, hs, (local_copies_expire Sample.sha256 bareCrate 0).1 _ s (by decide +kernel) hs⟩

/-- Read at 299 seconds, the copy is served at 301. -/
theorem secondReads_outlives : ∃ s v,
    Machine.run (Cluster.step (act Sample.sha256 bareCrate)) (start 0) (secondReads 299 2) = some s ∧
      v ∈ s.shared.served ∧ ¬InWindow v := by
  have hserved : (Machine.run (Cluster.step (act Sample.sha256 bareCrate)) (start 0) (secondReads 299 2)).map
      (fun s => s.shared.served.map fun v => (v.now, v.cached.source)) =
        some [(10 ^ 9 * 301, .redis 0)] := by decide +kernel
  obtain ⟨s, hs, hserved⟩ := Option.map_eq_some_iff.mp hserved
  obtain ⟨v, hv, hat⟩ := List.mem_map.mp (hserved ▸ List.mem_cons_self)
  simp only [Prod.mk.injEq] at hat
  refine ⟨s, v, hs, hv, fun hin => ?_⟩
  have hlt := hin 0 hat.2
  rw [hat.1] at hlt
  revert hlt
  decide

end NekoGuard.Embed
