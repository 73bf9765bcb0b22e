/-
Which favicon requests get the icon a page advertised. The page is cached
under its own key and the request looks under the route's and the root's,
so what it answers is up to what these two hold when it gets to them
(`favicon_serves_pages`).
-/
import NekoGuard.Favicon
import NekoGuard.LoadFacts

namespace NekoGuard.Favicon

open Lib Embed

variable {ι θ : Type} [DecidableEq ι] [DecidableEq θ] {sha256 : Pow.Sha256} {mc : MetaCrate}

/-- The request got the icon of every page it was owed to. -/
def Kept (a : Answered) : Prop := ∀ i ∈ a.owed, a.icon = some i

/-- Each copy a favicon request comes upon agrees with the pages it is owed
to. Under the route's path there may be none, or none with an icon; under
the root there has to be one, in `LOCAL` or else in Redis. -/
def Agrees (sha256 : Pow.Sha256) (mc : MetaCrate) (p : ι × θ) (now : Nat) (s : Site ι θ) : Visit → Step → Prop
  | .idle, .favicon host _ =>
    let host := Config.normalizeHost host
    ∀ i ∈ s.owed mc p now host, ∀ copy ∈ (localGet p now s.caches (cacheKey sha256 host faviconPath)).2,
      ∀ j ∈ copy.icon, j = i
  | .own _ _ owed (.missed c _), .on (.get true) =>
    ∀ i ∈ owed, ∀ x ∈ redisGet mc now s.caches (c.key sha256), ∀ j ∈ x.1.icon, j = i
  | .looking host _ owed, .lookRoot =>
    ∀ i ∈ owed, ∀ copy ∈ (localGet p now s.caches (cacheKey sha256 host ['/'])).2, copy.icon = some i
  | .root owed (.missed c _), .on (.get ok) =>
    ∀ i ∈ owed, (if ok then redisGet mc now s.caches (c.key sha256) else none).bind (·.1.icon) = some i
  | _, _ => True

/-! ## A `load` that does not fetch -/

section Load

variable {p : ι × θ} {now : Nat} {st st' : Store ι θ} {r : Progress}

/-- It returns what `LOCAL` has, or goes on to Redis. -/
theorem advance_load {host path upstream : Str} {fetchOnMiss : Bool}
    (h : advance sha256 mc p now st .idle (.load host path upstream fetchOnMiss) = some (st', r)) :
    (∃ copy, (localGet p now st (cacheKey sha256 host path)).2 = some copy ∧ r = .finished (some copy)) ∨
      (localGet p now st (cacheKey sha256 host path)).2 = none ∧
        r = .running (.missed (.ofArgs host path upstream fetchOnMiss) false) := by
  have hkey : (Call.ofArgs host path upstream fetchOnMiss).key sha256 = cacheKey sha256 host path :=
    cacheKey_normalizePath sha256 host path
  unfold advance at h
  obtain ⟨⟨st₁, t⟩, ha, heq⟩ := Option.map_eq_some_iff.mp h
  simp only [act, returned, hkey] at ha heq
  split at ha
  · next copy hget =>
    cases ha
    rw [hget] at heq
    cases heq
    exact .inl ⟨copy, by rw [hget], rfl⟩
  · next hget =>
    cases ha
    cases heq
    exact .inr ⟨by rw [hget], rfl⟩

/-- It returns nothing where Redis has nothing. -/
theorem advance_missed {c : Call} (hc : c.fetchOnMiss = false) {e : Embed.Step}
    (h : advance sha256 mc p now st (.missed c false) e = some (st', r)) :
    (∃ ok, e = .get ok ∧
      ((∃ copy w, (if ok then redisGet mc now st (c.key sha256) else none) = some (copy, w) ∧
          r = .running (.found c false copy w)) ∨
        (if ok then redisGet mc now st (c.key sha256) else none) = none ∧ r = .finished none)) ∨
      e = .cancel ∧ r = .dropped := by
  unfold advance at h
  obtain ⟨⟨st₁, t⟩, ha, heq⟩ := Option.map_eq_some_iff.mp h
  cases e <;> simp only [act, reduceCtorEq, Option.some.injEq, Prod.mk.injEq] at ha
  case get ok =>
    refine .inl ⟨ok, rfl, ?_⟩
    split at ha
    · next copy w hget =>
      cases ha
      cases heq
      exact .inl ⟨copy, w, hget, rfl⟩
    · next hget =>
      cases ha
      simp only [afterMiss, hc, Bool.false_eq_true, if_false, returned] at heq
      cases heq
      exact .inr ⟨hget, rfl⟩
  case cancel =>
    obtain ⟨rfl, rfl⟩ := ha
    cases heq
    exact .inr ⟨rfl, rfl⟩

/-- And else what it has found there. -/
theorem advance_found {c : Call} {locked : Bool} {copy : Meta} {w : Nat} {e : Embed.Step}
    (h : advance sha256 mc p now st (.found c locked copy w) e = some (st', r)) :
    r = .finished (some copy) ∨ r = .dropped := by
  unfold advance at h
  obtain ⟨⟨st₁, t⟩, ha, heq⟩ := Option.map_eq_some_iff.mp h
  cases e <;> simp only [act, reduceCtorEq, Option.some.injEq, Prod.mk.injEq] at ha
  case put =>
    obtain ⟨rfl, rfl⟩ := ha
    cases heq
    exact .inl rfl
  case cancel =>
    obtain ⟨rfl, rfl⟩ := ha
    cases heq
    exact .inr rfl

end Load

/-! ## What a request does next -/

/-- A `load` with `fetch_on_miss` off is at one of its two looks. -/
def Looks : Task → Prop
  | .missed c locked => locked = false ∧ c.fetchOnMiss = false
  | .found _ _ _ _ => True
  | _ => False

def Shaped : Visit → Prop
  | .own _ _ _ t => Looks t
  | .root _ t => Looks t
  | _ => True

/-- What one step leaves of the answers, and of the request it is taken in. -/
inductive Move (sha256 : Pow.Sha256) (mc : MetaCrate) (p : ι × θ) (now : Nat) (s : Site ι θ) :
    Visit → Step → List Answered → Visit → Prop where
  | quiet {v : Visit} {e : Step} (h : Agrees sha256 mc p now s v e) :
    Move sha256 mc p now s v e s.answered .idle
  | page {v : Visit} {e : Step} {host path : Str} {t : Task} (h : Agrees sha256 mc p now s v e) :
    Move sha256 mc p now s v e s.answered (.page host path t)
  | ownHit {host upstream : Str} {copy : Meta} {icon : Icon}
      (hget : (localGet p now s.caches (cacheKey sha256 (Config.normalizeHost host) faviconPath)).2 = some copy)
      (hicon : copy.icon = some icon) :
    Move sha256 mc p now s .idle (.favicon host upstream)
      (⟨s.owed mc p now (Config.normalizeHost host), some icon⟩ :: s.answered) .idle
  | ownPlain {host upstream : Str} {copy : Meta}
      (hget : (localGet p now s.caches (cacheKey sha256 (Config.normalizeHost host) faviconPath)).2 = some copy)
      (hicon : copy.icon = none) :
    Move sha256 mc p now s .idle (.favicon host upstream) s.answered
      (.looking (Config.normalizeHost host) upstream (s.owed mc p now (Config.normalizeHost host)))
  | ownMiss {host upstream : Str}
      (hget : (localGet p now s.caches (cacheKey sha256 (Config.normalizeHost host) faviconPath)).2 = none) :
    Move sha256 mc p now s .idle (.favicon host upstream) s.answered
      (.own (Config.normalizeHost host) upstream (s.owed mc p now (Config.normalizeHost host))
        (.missed (.ofArgs (Config.normalizeHost host) faviconPath upstream false) false))
  | ownFound {host upstream : Str} {owed : List Icon} {c : Call} {copy : Meta} {w : Nat}
      (hget : redisGet mc now s.caches (c.key sha256) = some (copy, w)) :
    Move sha256 mc p now s (.own host upstream owed (.missed c false)) (.on (.get true)) s.answered
      (.own host upstream owed (.found c false copy w))
  | ownNone {host upstream : Str} {owed : List Icon} {c : Call} {ok : Bool}
      (hget : (if ok then redisGet mc now s.caches (c.key sha256) else none) = none) :
    Move sha256 mc p now s (.own host upstream owed (.missed c false)) (.on (.get ok)) s.answered
      (.looking host upstream owed)
  | ownPut {host upstream : Str} {owed : List Icon} {c : Call} {locked : Bool} {copy : Meta} {w : Nat}
      {e : Step} {icon : Icon} (hicon : copy.icon = some icon) :
    Move sha256 mc p now s (.own host upstream owed (.found c locked copy w)) e
      (⟨owed, some icon⟩ :: s.answered) .idle
  | ownPutPlain {host upstream : Str} {owed : List Icon} {c : Call} {locked : Bool} {copy : Meta} {w : Nat}
      {e : Step} (hicon : copy.icon = none) :
    Move sha256 mc p now s (.own host upstream owed (.found c locked copy w)) e s.answered
      (.looking host upstream owed)
  | rootHit {host upstream : Str} {owed : List Icon} {copy : Meta}
      (hget : (localGet p now s.caches (cacheKey sha256 host ['/'])).2 = some copy) :
    Move sha256 mc p now s (.looking host upstream owed) .lookRoot (⟨owed, copy.icon⟩ :: s.answered) .idle
  | rootMiss {host upstream : Str} {owed : List Icon}
      (hget : (localGet p now s.caches (cacheKey sha256 host ['/'])).2 = none) :
    Move sha256 mc p now s (.looking host upstream owed) .lookRoot s.answered
      (.root owed (.missed (.ofArgs host ['/'] upstream false) false))
  | rootFound {owed : List Icon} {c : Call} {ok : Bool} {copy : Meta} {w : Nat}
      (hget : (if ok then redisGet mc now s.caches (c.key sha256) else none) = some (copy, w)) :
    Move sha256 mc p now s (.root owed (.missed c false)) (.on (.get ok)) s.answered
      (.root owed (.found c false copy w))
  | rootNone {owed : List Icon} {c : Call} {ok : Bool}
      (hget : (if ok then redisGet mc now s.caches (c.key sha256) else none) = none) :
    Move sha256 mc p now s (.root owed (.missed c false)) (.on (.get ok)) (⟨owed, none⟩ :: s.answered) .idle
  | rootPut {owed : List Icon} {c : Call} {locked : Bool} {copy : Meta} {w : Nat} {e : Step} :
    Move sha256 mc p now s (.root owed (.found c locked copy w)) e (⟨owed, copy.icon⟩ :: s.answered) .idle

section Moves

variable {p : ι × θ} {now : Nat} {s s' : Site ι θ} {v v' : Visit} {e : Step}

omit [DecidableEq θ] in
theorem afterPage_move {host path : Str} {r : Store ι θ × Progress} (hagrees : Agrees sha256 mc p now s v e)
    (h : afterPage sha256 s host path r = (s', v')) : Move sha256 mc p now s v e s'.answered v' := by
  obtain ⟨st, r⟩ := r
  cases r with
  | running t =>
    cases h
    exact .page hagrees
  | dropped =>
    cases h
    exact .quiet hagrees
  | finished copy =>
    simp only [afterPage] at h
    split at h <;> cases h <;> exact .quiet hagrees

theorem serve_favicon_move {host upstream : Str}
    (h : serve sha256 mc p now s .idle (.favicon host upstream) = some (s', v')) :
    Move sha256 mc p now s .idle (.favicon host upstream) s'.answered v' := by
  obtain ⟨⟨st, r⟩, ha, hr⟩ := Option.map_eq_some_iff.mp h
  rcases advance_load ha with ⟨copy, hget, rfl⟩ | ⟨hget, rfl⟩
  · simp only [afterOwn, Option.bind_some] at hr
    split at hr
    · next icon hicon =>
      cases hr
      exact .ownHit hget hicon
    · next hicon =>
      cases hr
      exact .ownPlain hget hicon
  · cases hr
    exact .ownMiss hget

theorem serve_own_move {host upstream : Str} {owed : List Icon} {t : Task} {e : Embed.Step} (ht : Looks t)
    (h : serve sha256 mc p now s (.own host upstream owed t) (.on e) = some (s', v')) :
    Move sha256 mc p now s (.own host upstream owed t) (.on e) s'.answered v' := by
  obtain ⟨⟨st, r⟩, ha, hr⟩ := Option.map_eq_some_iff.mp h
  cases t with
  | missed c locked =>
    obtain ⟨rfl, hc⟩ := ht
    rcases advance_missed hc ha with ⟨ok, rfl, ⟨copy, w, hget, rfl⟩ | ⟨hget, rfl⟩⟩ | ⟨rfl, rfl⟩
    · cases hr
      cases ok with
      | false => cases hget
      | true => exact .ownFound hget
    · cases hr
      exact .ownNone hget
    · cases hr
      exact .quiet trivial
  | found c locked copy w =>
    rcases advance_found ha with rfl | rfl
    · simp only [afterOwn, Option.bind_some] at hr
      split at hr
      · next icon hicon =>
        cases hr
        exact .ownPut hicon
      · next hicon =>
        cases hr
        exact .ownPutPlain hicon
    · cases hr
      exact .quiet trivial
  | _ => cases ht

theorem serve_root_move {owed : List Icon} {t : Task} {e : Embed.Step} (ht : Looks t)
    (h : serve sha256 mc p now s (.root owed t) (.on e) = some (s', v')) :
    Move sha256 mc p now s (.root owed t) (.on e) s'.answered v' := by
  obtain ⟨⟨st, r⟩, ha, hr⟩ := Option.map_eq_some_iff.mp h
  cases t with
  | missed c locked =>
    obtain ⟨rfl, hc⟩ := ht
    rcases advance_missed hc ha with ⟨ok, rfl, ⟨copy, w, hget, rfl⟩ | ⟨hget, rfl⟩⟩ | ⟨rfl, rfl⟩
    · cases hr
      exact .rootFound hget
    · cases hr
      exact .rootNone hget
    · cases hr
      exact .quiet trivial
  | found c locked copy w =>
    rcases advance_found ha with rfl | rfl
    · cases hr
      exact .rootPut
    · cases hr
      exact .quiet trivial
  | _ => cases ht

/-- **What a step of a request can do.** -/
theorem serve_move (hv : Shaped v) (h : serve sha256 mc p now s v e = some (s', v')) :
    Move sha256 mc p now s v e s'.answered v' := by
  have h' := h
  unfold serve at h
  split at h
  · obtain ⟨r, -, hr⟩ := Option.map_eq_some_iff.mp h
    exact afterPage_move trivial hr
  · obtain ⟨r, -, hr⟩ := Option.map_eq_some_iff.mp h
    exact afterPage_move trivial hr
  · exact serve_favicon_move h'
  · exact serve_own_move hv h'
  · obtain ⟨⟨st, r⟩, ha, hr⟩ := Option.map_eq_some_iff.mp h
    rcases advance_load ha with ⟨copy, hget, rfl⟩ | ⟨hget, rfl⟩
    · cases hr
      exact .rootHit hget
    · cases hr
      exact .rootMiss hget
  · cases h
    exact .quiet trivial
  · exact serve_root_move hv h'
  · cases h

omit [DecidableEq θ] in
theorem Move.shaped {as : List Answered} (h : Move sha256 mc p now s v e as v') : Shaped v' := by
  cases h with
  | quiet | page | ownHit | ownPlain | ownFound | ownNone | ownPut | ownPutPlain => trivial
  | rootHit | rootFound | rootNone | rootPut => trivial
  | ownMiss | rootMiss => exact ⟨rfl, rfl⟩

/-- What a request has found agrees with the pages it is owed to. -/
def Owing : Visit → Prop
  | .own _ _ owed (.found _ _ copy _) => ∀ i ∈ owed, ∀ j ∈ copy.icon, j = i
  | .root owed (.found _ _ copy _) => ∀ i ∈ owed, copy.icon = some i
  | _ => True

omit [DecidableEq θ] in
/-- Where every look agrees, so does what is found and what is answered. -/
theorem Move.kept {as : List Answered} (h : Move sha256 mc p now s v e as v')
    (hagrees : Agrees sha256 mc p now s v e) (hv : Owing v) (hs : ∀ a ∈ s.answered, Kept a) :
    (∀ a ∈ as, Kept a) ∧ Owing v' := by
  have answer : ∀ {owed : List Icon} {icon : Option Icon}, (∀ i ∈ owed, icon = some i) →
      ∀ a ∈ (⟨owed, icon⟩ :: s.answered : List Answered), Kept a := fun hicon a ha => by
    rcases List.mem_cons.mp ha with rfl | ha
    · exact hicon
    · exact hs a ha
  cases h with
  | quiet | page | ownPlain | ownMiss | ownNone | ownPutPlain | rootMiss => exact ⟨hs, trivial⟩
  | ownHit hget hicon =>
    exact ⟨answer fun i hi => congrArg some (hagrees i hi _ hget _ hicon), trivial⟩
  | ownFound hget => exact ⟨hs, fun i hi => hagrees i hi _ hget⟩
  | ownPut hicon => exact ⟨answer fun i hi => congrArg some (hv i hi _ hicon), trivial⟩
  | rootHit hget => exact ⟨answer fun i hi => hagrees i hi _ hget, trivial⟩
  | rootFound hget =>
    refine ⟨hs, fun i hi => ?_⟩
    have h := hagrees i hi
    rwa [hget] at h
  | rootNone hget =>
    refine ⟨answer fun i hi => ?_, trivial⟩
    have h := hagrees i hi
    rwa [hget] at h
  | rootPut => exact ⟨answer hv, trivial⟩

/-- A request that answers with `copy` at its next step. -/
def Found (owed : List Icon) (copy : Meta) (v : Visit) : Prop :=
  ∃ c locked w, v = .root owed (.found c locked copy w) ∨
    ∃ host upstream icon, v = .own host upstream owed (.found c locked copy w) ∧ copy.icon = some icon

omit [DecidableEq θ] in
/-- And where one does not, neither does what is answered, now or next. -/
theorem Move.broken {as : List Answered} (h : Move sha256 mc p now s v e as v')
    (hbad : ¬Agrees sha256 mc p now s v e) :
    (∃ a ∈ as, ¬Kept a) ∨ ∃ owed copy, ¬Kept ⟨owed, copy.icon⟩ ∧ Found owed copy v' := by
  cases h with
  | quiet h | page h => exact absurd h hbad
  | @ownHit host upstream copy icon hget hicon =>
    refine .inl ⟨_, List.mem_cons_self, fun hk => hbad fun i hi copy' hcopy j hj => ?_⟩
    cases hcopy.symm.trans hget
    cases hj.symm.trans hicon
    exact Option.some.inj (hk i hi)
  | @ownPlain host upstream copy hget hicon =>
    refine absurd (fun i hi copy' hcopy j hj => ?_) hbad
    cases hcopy.symm.trans hget
    cases hj.symm.trans hicon
  | ownMiss hget => exact absurd (fun i hi copy' hcopy j hj => nomatch hcopy.symm.trans hget) hbad
  | @ownFound host upstream owed c copy w hget =>
    cases hicon : copy.icon with
    | none =>
      refine absurd (fun i hi x hx j hj => ?_) hbad
      cases hx.symm.trans hget
      cases hj.symm.trans hicon
    | some icon =>
      refine .inr ⟨owed, copy, fun hk => hbad fun i hi x hx j hj => ?_, c, false, w,
        .inr ⟨host, upstream, icon, rfl, hicon⟩⟩
      cases hx.symm.trans hget
      exact Option.some.inj (hj.symm.trans (hk i hi))
  | @ownNone host upstream owed c ok hget =>
    cases ok with
    | false => exact absurd trivial hbad
    | true => exact absurd (fun i hi x hx j hj => nomatch hx.symm.trans hget) hbad
  | ownPut | ownPutPlain | rootPut => exact absurd trivial hbad
  | @rootHit host upstream owed copy hget =>
    refine .inl ⟨_, List.mem_cons_self, fun hk => hbad fun i hi copy' hcopy => ?_⟩
    cases hcopy.symm.trans hget
    exact hk i hi
  | rootMiss hget => exact absurd (fun i hi copy' hcopy => nomatch hcopy.symm.trans hget) hbad
  | @rootFound owed c ok copy w hget =>
    refine .inr ⟨owed, copy, fun hk => hbad fun i hi => ?_, c, false, w, .inl rfl⟩
    rw [hget]
    exact hk i hi
  | rootNone hget =>
    exact .inl ⟨_, List.mem_cons_self, fun hk => hbad fun i hi => absurd (hk i hi) nofun⟩

end Moves

/-! ## Runs -/

theorem keeps_shaped : Cluster.Keeps (serve (ι := ι) (θ := θ) sha256 mc) (fun _ _ _ _ _ => True)
    (fun _ _ => True) (fun _ _ _ => Shaped) where
  tick := fun _ _ _ _ => ⟨trivial, fun _ _ h => h⟩
  own := fun _ _ _ _ _ _ _ _ _ hv h => ⟨trivial, (serve_move hv h).shaped⟩
  other := fun _ _ _ _ _ _ _ _ _ _ _ _ _ _ h => h

theorem keeps_agreed : Cluster.Keeps (serve (ι := ι) (θ := θ) sha256 mc) (Agrees sha256 mc)
    (fun _ s => ∀ a ∈ s.answered, Kept a) (fun _ _ _ v => Shaped v ∧ Owing v) where
  tick := fun _ _ _ hs => ⟨hs, fun _ _ h => h⟩
  own := fun _ _ _ _ _ _ _ hagrees hs hv h => by
    have hmove := serve_move hv.1 h
    obtain ⟨has, howing⟩ := hmove.kept hagrees hv.2 hs
    exact ⟨has, hmove.shaped, howing⟩
  other := fun _ _ _ _ _ _ _ _ _ _ _ _ _ _ h => h

/-- Once a request has found something else, that is its answer. -/
theorem found_answers {t : Cluster (ι × θ) (Site ι θ) Visit} {p : ι × θ} {owed : List Icon} {copy : Meta}
    (hbad : ¬Kept ⟨owed, copy.icon⟩) (hproc : Found owed copy (t.proc p)) :
    ∃ u, Machine.run (Cluster.step (serve sha256 mc)) t [.on p (.on .put)] = some u ∧
      ∃ a ∈ u.shared.answered, ¬Kept a := by
  have hserve : ∃ s' v', serve sha256 mc p t.clock t.shared (t.proc p) (.on .put) = some (s', v') ∧
      ⟨owed, copy.icon⟩ ∈ s'.answered := by
    obtain ⟨c, locked, w, hproc | ⟨host, upstream, icon, hproc, hicon⟩⟩ := hproc
    · rw [hproc]
      exact ⟨_, _, rfl, List.mem_cons_self⟩
    · simp [hproc, serve, advance, act, returned, afterOwn, hicon]
  obtain ⟨s', v', hs, hmem⟩ := hserve
  exact ⟨_, Machine.run_cons_eq_some.mpr ⟨_, Cluster.step_on_eq_some.mpr ⟨s', v', hs, rfl⟩, rfl⟩,
    _, hmem, hbad⟩

/-- A look that does not agree is answered with what it came upon, now or
at the next step. -/
theorem disagreed {s t : Cluster (ι × θ) (Site ι θ) Visit} {p : ι × θ} {e : Step} (hv : Shaped (s.proc p))
    (hstep : Cluster.step (serve sha256 mc) s (.on p e) = some t)
    (hbad : ¬Agrees sha256 mc p s.clock s.shared (s.proc p) e) :
    ∃ fs u, Machine.run (Cluster.step (serve sha256 mc)) t fs = some u ∧
      ∃ a ∈ u.shared.answered, ¬Kept a := by
  obtain ⟨s', v', hs, rfl⟩ := Cluster.step_on_eq_some.mp hstep
  rcases (serve_move hv hs).broken hbad with hnow | ⟨owed, copy, hk, hfound⟩
  · exact ⟨[], _, rfl, hnow⟩
  · have hproc : Found owed copy (Function.update s.proc p v' p) := by
      rwa [Function.update_self]
    obtain ⟨u, hu, hbad⟩ := found_answers
      (t := { s with shared := s', proc := Function.update s.proc p v' }) hk hproc
    exact ⟨_, u, hu, hbad⟩

/-- **When a favicon request gets the icon that was advertised.** In a run
in which every copy such a request comes upon agrees with the pages it is
owed to, each of them is answered with their icon; and after one comes upon
a copy that does not, or on none for the root, the run can go on to answer
otherwise. -/
theorem favicon_serves_pages (sha256 : Pow.Sha256) (mc : MetaCrate) (clock : Nat) :
    (∀ es s, Machine.Along (Cluster.step (serve sha256 mc)) (Cluster.On (Agrees sha256 mc))
        (start (ι := ι) (θ := θ) clock) es →
      Machine.run (Cluster.step (serve sha256 mc)) (start clock) es = some s →
      ∀ a ∈ s.shared.answered, Kept a) ∧
    ∀ es (s t : Cluster (ι × θ) (Site ι θ) Visit) p e,
      Machine.run (Cluster.step (serve sha256 mc)) (start clock) es = some s →
      Cluster.step (serve sha256 mc) s (.on p e) = some t →
      ¬Agrees sha256 mc p s.clock s.shared (s.proc p) e →
      ∃ fs u, Machine.run (Cluster.step (serve sha256 mc)) t fs = some u ∧
        ∃ a ∈ u.shared.answered, ¬Kept a := by
  have hstart : Cluster.Inv (fun _ s => ∀ a ∈ s.answered, Kept a) (fun _ _ _ v => Shaped v ∧ Owing v)
      (start (ι := ι) (θ := θ) clock) := ⟨nofun, fun _ => ⟨trivial, trivial⟩⟩
  refine ⟨fun es s halong hrun => (keeps_agreed.run_along halong hstart hrun).shared, ?_⟩
  intro es s t p e hrun hstep hbad
  have hshaped : Cluster.Inv (fun _ _ => True) (fun _ _ _ => Shaped) (start (ι := ι) (θ := θ) clock) :=
    ⟨trivial, fun _ => trivial⟩
  exact disagreed ((keeps_shaped.run hshaped hrun).proc p) hstep hbad

instance decidableAgrees (p : ι × θ) (now : Nat) (s : Site ι θ) (v : Visit) (e : Step) :
    Decidable (Agrees sha256 mc p now s v e) := by
  unfold Agrees
  split <;> infer_instance

instance decidableOnAgrees : ∀ (s : Cluster (ι × θ) (Site ι θ) Visit) (e : Cluster.Event (ι × θ) Step),
    Decidable (Cluster.On (Agrees sha256 mc) s e)
  | _, .tick _ => isTrue trivial
  | s, .on p e => decidableAgrees p s.clock s.shared (s.proc p) e

/-- A page that declares an icon, and its entry. -/
def iconMeta : Meta := { title := none, tags := [], iconUrl := none, icon := some ([137], "image/png") }

def iconJson : Str :=
  "\x7b\"title\":null,\"tags\":[],\"icon\":[137],\"icon_mime\":\"image/png\"\x7d".toList

def iconCrate : MetaCrate where
  toString c := if c = .ofMeta iconMeta then some iconJson else none
  fromStr s := if s = iconJson then some (.ofMeta iconMeta) else none

/-- A hash that tells inputs of different lengths apart. -/
def lengthHash : Pow.Sha256 := fun bytes => Vector.replicate 32 (UInt8.ofNat bytes.length)

def event (e : Step) : Cluster.Event (Unit × Unit) Step := .on ((), ()) e

/-- A first visit to a page: its metadata is fetched and the link rendered. -/
def visitPage (path : String) : List (Cluster.Event (Unit × Unit) Step) :=
  event (.render "a.example".toList "http://origin".toList path.toList) ::
    [Embed.Step.get true, .resolve, .lock, .look, .get true, .fetched (some iconMeta), .put, .set true].map
      fun e => event (.on e)

/-- The request the rendered link makes, up to its look at the root. -/
def askIcon : List (Cluster.Event (Unit × Unit) Step) :=
  [event (.favicon "a.example".toList "http://origin".toList), event (.on (.get true)), event .lookRoot]

theorem root_icon_served : ∃ s,
    Machine.run (Cluster.step (serve lengthHash iconCrate)) (start 0) (visitPage "/" ++ askIcon) = some s ∧
      ∀ a ∈ s.shared.answered, Kept a := by
  obtain ⟨s, hs⟩ := Option.isSome_iff_exists.mp (show (Machine.run (Cluster.step (serve lengthHash iconCrate))
    (start 0) (visitPage "/" ++ askIcon)).isSome = true by decide +kernel)
  exact ⟨s, hs, (favicon_serves_pages lengthHash iconCrate 0).1 _ s (by decide +kernel) hs⟩

/-- The link rendered for a page of a site whose root nobody has visited
leads to a 404. -/
theorem page_icon_missing : ∃ s a,
    Machine.run (Cluster.step (serve lengthHash iconCrate)) (start 0)
        (visitPage "/about" ++ askIcon ++ [event (.on (.get true))]) = some s ∧
      a ∈ s.shared.answered ∧ ¬Kept a := by
  have hanswered : (Machine.run (Cluster.step (serve lengthHash iconCrate)) (start 0)
      (visitPage "/about" ++ askIcon ++ [event (.on (.get true))])).map (fun s => s.shared.answered) =
        some [⟨[([137], "image/png")], none⟩] := by decide +kernel
  obtain ⟨s, hs, hanswered⟩ := Option.map_eq_some_iff.mp hanswered
  refine ⟨s, _, hs, hanswered ▸ List.mem_cons_self, fun hk => ?_⟩
  exact absurd (hk _ List.mem_cons_self) nofun

end NekoGuard.Favicon
