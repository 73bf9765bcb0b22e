/-
Any number of processes, each with its own map of live challenges, serving
any number of requests at once. The steps are the atomic operations on the
map and the reads of the clock in `new_challenge`, `check_pow`, `sweep` and
the verify route of `handle`; the history records what each of them did.
-/
import NekoGuard.Lib.Cluster
import NekoGuard.Lib.Ticket
import NekoGuard.Local

namespace NekoGuard.Fleet

open Lib Lib.Ticket

/-- Who asked `check_pow`: the verify route, for an address, or any caller. -/
inductive Caller where
  | direct
  | verify (ip : IpAddr)

/-- What one task of a process is in the middle of. -/
inductive Task where
  | idle
  | minting (challenge : Str) (expiry : Nat)
  | checking (challenge nonce : Str) (expiry : Nat) (caller : Caller)
  | sealing (challenge nonce : Str) (ip : IpAddr)
  | sweeping (now : Nat)

/-- What a task did. -/
inductive Entry (π : Type) where
  | drew (p : π) (challenge : Str)
  | minted (p : π) (challenge : Str) (expiry : Nat)
  | took (p : π) (challenge nonce : Str)
  | refused (p : π) (challenge nonce : Str)
  | judged (p : π) (challenge nonce : Str) (now : Nat) (ok : Bool)
  | cookie (p : π) (challenge nonce : Str) (ip : IpAddr) (resp : Response)

inductive Step where
  /-- `new_challenge`: the random bytes, then `Instant::now() + ttl`. -/
  | draw (bytes : Vector UInt8 16) (ttl : Nat)
  | insert
  /-- `check_pow`, up to its `MAP.remove`. -/
  | check (challenge nonce : Str)
  /-- A verify request whose body has arrived, up to the same point. -/
  | post (ip : IpAddr) (body : Http.Incoming)
  | judge
  /-- `create_cookie` and the response that sets it. -/
  | respond (unixSecs : Nat) (nonce : Nonce)
  | readClock
  | retain

variable {ι θ : Type}

/-- The map of each process, and what has happened, newest first. -/
structure Store (ι θ : Type) where
  map : ι → Pow.ChallengeMap
  history : List (Entry (ι × θ))

def Store.log (st : Store ι θ) (e : Entry (ι × θ)) : Store ι θ := { st with history := e :: st.history }

section Steps

variable [DecidableEq ι]

def Store.setMap (st : Store ι θ) (i : ι) (map : Pow.ChallengeMap) : Store ι θ :=
  { st with map := Function.update st.map i map }

/-- `MAP.remove(challenge)`, and what `check_pow` does with the entry. -/
def take (p : ι × θ) (st : Store ι θ) (challenge nonce : Str) (caller : Caller) : Store ι θ × Task :=
  match st.map p.1 challenge with
  | none => (st.log (.refused p challenge nonce), .idle)
  | some expiry =>
    ((st.setMap p.1 (Pow.remove (st.map p.1) challenge)).log (.took p challenge nonce),
      .checking challenge nonce expiry caller)

/-- What the caller does with the answer of `check_pow`. -/
def answered (challenge nonce : Str) : Caller → Bool → Task
  | .verify ip, true => .sealing challenge nonce ip
  | _, _ => .idle

variable (sha256 : Pow.Sha256) (lc : LocalCrates) (cr : SealingCrates) (sm : SessionManager)

/-- One atomic step of task `p`. A step that panics is not taken: it ends
the process. -/
def act (p : ι × θ) (now : Nat) (st : Store ι θ) : Task → Step → Option (Store ι θ × Task)
  | .idle, .draw bytes ttl =>
    match instantAdd now ttl with
    | .ok expiry =>
      let challenge := Pow.challengeOf bytes
      some (st.log (.drew p challenge), .minting challenge expiry)
    | .error _ => none
  | .minting challenge expiry, .insert =>
    let map := Pow.insert (st.map p.1) challenge expiry
    some ((st.setMap p.1 map).log (.minted p challenge expiry), .idle)
  | .idle, .check challenge nonce => some (take p st challenge nonce .direct)
  | .idle, .post ip body =>
    match Local.verifyPayload lc body with
    | some payload => some (take p st payload.challenge payload.nonce (.verify ip))
    | none => some (st, .idle)
  | .checking challenge nonce expiry caller, .judge =>
    match Pow.judge sha256 challenge nonce expiry now with
    | .ok ok => some (st.log (.judged p challenge nonce now ok), answered challenge nonce caller ok)
    | .error _ => none
  | .sealing challenge nonce ip, .respond unixSecs sealNonce =>
    match Local.verifiedResp sm (sm.createCookie cr ip { unixSecs, instant := now } sealNonce) with
    | .ok resp => some (st.log (.cookie p challenge nonce ip resp), .idle)
    | .error _ => none
  | .idle, .readClock => some (st, .sweeping now)
  | .sweeping t, .retain => some (st.setMap p.1 (Pow.sweep (st.map p.1) t), .idle)
  | _, _ => none

/-- The processes before anything has happened. -/
def start (clock : Nat) : Cluster (ι × θ) (Store ι θ) Task where
  clock := clock
  shared := { map := fun _ _ => none, history := [] }
  proc := fun _ => .idle

/-- No challenge string is drawn twice. -/
def Fresh (_ : ι × θ) (_ : Nat) (st : Store ι θ) (_ : Task) : Step → Prop
  | .draw bytes _ => ∀ q, .drew q (Pow.challengeOf bytes) ∉ st.history
  | _ => True

/-! ## What a step can do -/

variable {sha256 lc cr sm}

/-- The steps that change nothing but the task, the history or one map. -/
inductive Trans (sha256 : Pow.Sha256) (p : ι × θ) (now : Nat) (st : Store ι θ) :
    Task → Step → Store ι θ → Task → Prop where
  | draw (bytes : Vector UInt8 16) (ttl expiry : Nat) :
      Trans sha256 p now st .idle (.draw bytes ttl) (st.log (.drew p (Pow.challengeOf bytes)))
        (.minting (Pow.challengeOf bytes) expiry)
  | insert (c : Str) (e : Nat) :
      Trans sha256 p now st (.minting c e) .insert
        ((st.setMap p.1 (Pow.insert (st.map p.1) c e)).log (.minted p c e)) .idle
  | refuse (e : Step) (c n : Str) (hmap : st.map p.1 c = none) (hfresh : ∀ b t, e ≠ .draw b t) :
      Trans sha256 p now st .idle e (st.log (.refused p c n)) .idle
  | take (e : Step) (c n : Str) (x : Nat) (caller : Caller) (hmap : st.map p.1 c = some x)
      (hfresh : ∀ b t, e ≠ .draw b t) :
      Trans sha256 p now st .idle e
        ((st.setMap p.1 (Pow.remove (st.map p.1) c)).log (.took p c n)) (.checking c n x caller)
  | quiet (t t' : Task) (e : Step) (hidle : t' = .idle ∨ t' = .sweeping now) :
      Trans sha256 p now st t e st t'
  | judge (c n : Str) (x : Nat) (caller : Caller) (ok : Bool)
      (hok : ok = decide (now ≤ x ∧ Pow.Solves sha256 c n)) :
      Trans sha256 p now st (.checking c n x caller) .judge (st.log (.judged p c n now ok))
        (answered c n caller ok)
  | respond (c n : Str) (ip : IpAddr) (e : Step) (resp : Response) :
      Trans sha256 p now st (.sealing c n ip) e (st.log (.cookie p c n ip resp)) .idle
  | retain (t : Nat) :
      Trans sha256 p now st (.sweeping t) .retain (st.setMap p.1 (Pow.sweep (st.map p.1) t)) .idle

theorem take_trans {p : ι × θ} {now : Nat} {st st' : Store ι θ} {c n : Str} {caller : Caller} {e : Step}
    {t' : Task} (hfresh : ∀ b t, e ≠ .draw b t) (h : take p st c n caller = (st', t')) :
    Trans sha256 p now st .idle e st' t' := by
  unfold take at h
  split at h
  · next hmap =>
    cases h
    exact .refuse e c n hmap hfresh
  · next x hmap =>
    cases h
    exact .take e c n x caller hmap hfresh

theorem act_trans {p : ι × θ} {now : Nat} {st st' : Store ι θ} {t t' : Task} {e : Step}
    (h : act sha256 lc cr sm p now st t e = some (st', t')) : Trans sha256 p now st t e st' t' := by
  cases t <;> cases e <;> simp only [act, reduceCtorEq, Option.some.injEq] at h
  case idle.draw bytes ttl =>
    split at h
    · next x hx =>
      cases h
      exact .draw bytes ttl x
    · cases h
  case idle.check c n => exact take_trans (fun _ _ h => nomatch h) h
  case idle.post ip body =>
    split at h
    · exact take_trans (fun _ _ h => nomatch h) (Option.some.inj h)
    · cases h
      exact .quiet _ _ _ (.inl rfl)
  case idle.readClock =>
    cases h
    exact .quiet _ _ _ (.inr rfl)
  case minting.insert c x =>
    cases h
    exact .insert c x
  case checking.judge c n x caller =>
    simp only [Pow.judge_ok, Option.some.injEq, Prod.mk.injEq] at h
    obtain ⟨hst, ht⟩ := h
    rw [← hst, ← ht]
    exact .judge c n x caller _ rfl
  case sealing.respond c n ip secs sealNonce =>
    split at h
    · next resp hresp =>
      cases h
      exact .respond c n ip _ resp
    · cases h
  case sweeping.retain t =>
    cases h
    exact .retain t

end Steps

/-! ## The ledger of a history -/

variable {sha256 : Pow.Sha256}

/-- The life of a challenge string, as moves of a one-time ticket. -/
def Entry.move {π : Type} : Entry π → Option (Str × Move π)
  | .drew p c => some (c, ⟨p, .draw⟩)
  | .minted p c _ => some (c, ⟨p, .issue⟩)
  | .took p c _ => some (c, ⟨p, .take⟩)
  | .refused _ _ _ => none
  | .judged p c _ _ ok => some (c, ⟨p, .judge ok⟩)
  | .cookie p c _ _ _ => some (c, ⟨p, .cash⟩)

def ledger {π : Type} (h : List (Entry π)) : List (Str × Move π) := h.filterMap Entry.move

/-- How far the history took a challenge string. -/
def stageOf {π : Type} (h : List (Entry π)) (c : Str) : Stage π := stage (ledger h) c

/-- What the data of an entry says about the entries before it. -/
def Justified (sha256 : Pow.Sha256) (earlier : List (Entry (ι × θ))) : Entry (ι × θ) → Prop
  | .judged p c n now ok => .took p c n ∈ earlier ∧
      ∃ t e, .minted (p.1, t) c e ∈ earlier ∧ ok = decide (now ≤ e ∧ Pow.Solves sha256 c n)
  | .cookie p c n _ _ => ∃ now, .judged p c n now true ∈ earlier
  | .drew _ c => ∃ bytes, c = Pow.challengeOf bytes
  | .minted p c _ => .drew p c ∈ earlier
  | _ => True

def Sound (sha256 : Pow.Sha256) : List (Entry (ι × θ)) → Prop
  | [] => True
  | e :: h => Justified sha256 h e ∧ Sound sha256 h

theorem Sound.of_append {l h : List (Entry (ι × θ))} (hs : Sound sha256 (l ++ h)) : Sound sha256 h := by
  induction l with
  | nil => exact hs
  | cons e l ih => exact ih hs.2

theorem orderly_of_append {l h : List (Entry (ι × θ))} (ho : Orderly (ledger (l ++ h))) :
    Orderly (ledger h) := by
  induction l with
  | nil => exact ho
  | cons e l ih =>
    unfold ledger at ho
    cases hm : e.move with
    | none =>
      rw [List.cons_append, List.filterMap_cons_none hm] at ho
      exact ih ho
    | some m =>
      rw [List.cons_append, List.filterMap_cons_some hm] at ho
      exact ih ho.2

/-! ## The invariant -/

/-- What holds of the maps and the history at every clock. -/
structure Good (sha256 : Pow.Sha256) (now : Nat) (st : Store ι θ) : Prop where
  orderly : Orderly (ledger st.history)
  sound : Sound sha256 st.history
  /-- A map holds only challenges its own process minted and nobody took. -/
  live : ∀ i c e, st.map i c = some e →
    stageOf st.history c = .live ∧ ∃ t, .minted (i, t) c e ∈ st.history
  /-- Until it expires, a challenge nobody took is in the map of its process. -/
  kept : ∀ i t c e, .minted (i, t) c e ∈ st.history → stageOf st.history c = .live → now < e →
    st.map i c = some e

/-- What holds of a task besides. -/
def Held (p : ι × θ) (now : Nat) (st : Store ι θ) : Task → Prop
  | .idle => True
  | .minting c _ => stageOf st.history c = .drawn p ∧ .drew p c ∈ st.history
  | .checking c n e _ => stageOf st.history c = .taken p ∧ .took p c n ∈ st.history ∧
      ∃ t, .minted (p.1, t) c e ∈ st.history
  | .sealing c n _ => stageOf st.history c = .judged p true ∧
      ∃ t, .judged p c n t true ∈ st.history
  | .sweeping t => t ≤ now

section Push

variable {p : ι × θ} {now : Nat} {st : Store ι θ} {x : Entry (ι × θ)} {c : Str} {m : Move (ι × θ)}

theorem ledger_log (hm : x.move = some (c, m)) :
    ledger (st.log x).history = (c, m) :: ledger st.history :=
  List.filterMap_cons_some hm

theorem ledger_log_none (hm : x.move = none) : ledger (st.log x).history = ledger st.history :=
  List.filterMap_cons_none hm

theorem stageOf_log_self (hm : x.move = some (c, m)) : stageOf (st.log x).history c = m.after := by
  unfold stageOf
  rw [ledger_log hm, stage_cons_self]

theorem stageOf_log_of_ne {c' : Str} (hm : x.move = some (c, m)) (h : c ≠ c') :
    stageOf (st.log x).history c' = stageOf st.history c' := by
  unfold stageOf
  rw [ledger_log hm, stage_cons_of_ne h]

theorem stageOf_log_none (hm : x.move = none) (c' : Str) :
    stageOf (st.log x).history c' = stageOf st.history c' := by
  unfold stageOf
  rw [ledger_log_none hm]

/-- Someone else's move leaves a task in possession of what it holds. -/
theorem Held.frame {q : ι × θ} {t : Task} (hq : m.who ≠ q) (hm : x.move = some (c, m))
    (hlegal : stageOf st.history c = m.before) (h : Held q now st t) : Held q now (st.log x) t := by
  have keep : ∀ {c'}, (stageOf st.history c').holder = some q →
      stageOf (st.log x).history c' = stageOf st.history c' := by
    intro c' hh
    unfold stageOf at hh hlegal ⊢
    rw [ledger_log hm]
    exact stage_cons_of_holder hlegal hh hq
  cases t with
  | idle => trivial
  | minting c' e =>
    obtain ⟨h, hdrew⟩ := h
    refine ⟨?_, List.mem_cons_of_mem _ hdrew⟩
    rw [keep (by rw [h]; rfl), h]
  | checking c' n e caller =>
    obtain ⟨h, htook, s, hmint⟩ := h
    refine ⟨?_, List.mem_cons_of_mem _ htook, s, List.mem_cons_of_mem _ hmint⟩
    rw [keep (by rw [h]; rfl), h]
  | sealing c' n ip =>
    obtain ⟨h, s, hj⟩ := h
    refine ⟨?_, s, List.mem_cons_of_mem _ hj⟩
    rw [keep (by rw [h]; rfl), h]
  | sweeping s => exact h

/-- An entry about no ticket moves nothing. -/
theorem Held.frame_none {q : ι × θ} {t : Task} (hm : x.move = none) (h : Held q now st t) :
    Held q now (st.log x) t := by
  have keep : ∀ c', stageOf (st.log x).history c' = stageOf st.history c' := stageOf_log_none hm
  cases t with
  | idle => trivial
  | minting c' e => exact ⟨(keep c').trans h.1, List.mem_cons_of_mem _ h.2⟩
  | checking c' n e caller =>
    obtain ⟨h, htook, s, hmint⟩ := h
    exact ⟨(keep c').trans h, List.mem_cons_of_mem _ htook, s, List.mem_cons_of_mem _ hmint⟩
  | sealing c' n ip =>
    obtain ⟨h, s, hj⟩ := h
    exact ⟨(keep c').trans h, s, List.mem_cons_of_mem _ hj⟩
  | sweeping s => exact h

/-- What a task holds does not depend on the maps. -/
theorem held_setMap [DecidableEq ι] {q : ι × θ} {t : Task} {i : ι} {map : Pow.ChallengeMap} :
    Held q now (st.setMap i map) t ↔ Held q now st t := by
  cases t <;> exact Iff.rfl

/-- An entry that neither issues nor takes a challenge keeps the invariant. -/
theorem Good.log (hg : Good sha256 now st) (hm : x.move = some (c, m))
    (hlegal : stageOf st.history c = m.before) (hj : Justified sha256 st.history x)
    (hbefore : m.before ≠ .live) (hafter : m.after ≠ .live) (hmint : ∀ q c e, x ≠ .minted q c e) :
    Good sha256 now (st.log x) where
  orderly := by
    rw [ledger_log hm]
    exact ⟨hlegal, hg.orderly⟩
  sound := ⟨hj, hg.sound⟩
  live := fun i c' e h => by
    obtain ⟨hlive, t, ht⟩ := hg.live i c' e h
    have hne : c ≠ c' := by
      intro hc
      subst hc
      exact hbefore (hlegal.symm.trans hlive)
    exact ⟨(stageOf_log_of_ne hm hne).trans hlive, t, List.mem_cons_of_mem _ ht⟩
  kept := fun i t c' e h hlive hlt => by
    have hne : c ≠ c' := by
      intro hc
      subst hc
      exact hafter ((stageOf_log_self hm).symm.trans hlive)
    rw [stageOf_log_of_ne hm hne] at hlive
    cases h with
    | head => exact absurd rfl (hmint _ _ _)
    | tail _ h => exact hg.kept i t c' e h hlive hlt

theorem Good.log_none (hg : Good sha256 now st) (hm : x.move = none)
    (hj : Justified sha256 st.history x) : Good sha256 now (st.log x) where
  orderly := by
    rw [ledger_log_none hm]
    exact hg.orderly
  sound := ⟨hj, hg.sound⟩
  live := fun i c' e h => by
    obtain ⟨hlive, t, ht⟩ := hg.live i c' e h
    exact ⟨(stageOf_log_none hm c').trans hlive, t, List.mem_cons_of_mem _ ht⟩
  kept := fun i t c' e h hlive hlt => by
    rw [stageOf_log_none hm] at hlive
    cases h with
    | head => cases hm
    | tail _ h => exact hg.kept i t c' e h hlive hlt

theorem stageOf_of_fresh (ho : Orderly (ledger st.history)) (h : ∀ q, .drew q c ∉ st.history) :
    stageOf st.history c = .unborn := by
  apply ho.unborn
  intro m hm hdraw
  obtain ⟨e, he, hmove⟩ := List.mem_filterMap.mp hm
  cases e with
  | drew q c' =>
    simp only [Entry.move, Option.some.injEq, Prod.mk.injEq] at hmove
    exact h q (hmove.1 ▸ he)
  | refused q c' n => cases hmove
  | _ =>
    simp only [Entry.move, Option.some.injEq, Prod.mk.injEq] at hmove
    rw [← hmove.2] at hdraw
    cases hdraw

/-- A challenge is minted once, by one task, with one expiry. -/
theorem minted_unique (ho : Orderly (ledger st.history)) {q q' : ι × θ} {e e' : Nat}
    (h : .minted q c e ∈ st.history) (h' : .minted q' c e' ∈ st.history) : q = q' ∧ e = e' := by
  have := ho.entry_unique h h' rfl rfl rfl
  cases this
  exact ⟨rfl, rfl⟩

/-- A challenge that was minted is at least live. -/
theorem rank_of_minted (ho : Orderly (ledger st.history)) {q : ι × θ} {e : Nat}
    (h : .minted q c e ∈ st.history) : 2 ≤ (stageOf st.history c).rank :=
  ho.rank_le (m := ⟨q, .issue⟩) (List.mem_filterMap.mpr ⟨_, h, rfl⟩)

end Push

section Run

variable [DecidableEq ι] {p : ι × θ} {now : Nat} {st : Store ι θ} {c n : Str} {x : Nat}

theorem Good.insert (hg : Good sha256 now st) (hheld : stageOf st.history c = .drawn p)
    (hdrew : .drew p c ∈ st.history) :
    Good sha256 now ((st.setMap p.1 (Pow.insert (st.map p.1) c x)).log (.minted p c x)) := by
  have hm : (Entry.minted p c x).move = some (c, ⟨p, .issue⟩) := rfl
  have hnew : ∀ q e, .minted q c e ∉ st.history := by
    intro q e h
    have := rank_of_minted hg.orderly h
    rw [hheld] at this
    cases this with
    | step h => cases h
  constructor
  · show Orderly (ledger (Store.log _ _).history)
    rw [ledger_log hm]
    exact ⟨hheld, hg.orderly⟩
  · exact ⟨hdrew, hg.sound⟩
  · intro i c' e h
    by_cases hc : c = c'
    · subst hc
      refine ⟨stageOf_log_self hm, ?_⟩
      by_cases hi : i = p.1
      · subst hi
        simp only [Store.log, Store.setMap, Pow.insert, Function.update_self, Option.some.injEq] at h
        subst h
        exact ⟨p.2, List.mem_cons_self⟩
      · simp only [Store.log, Store.setMap, Function.update_of_ne hi] at h
        have := (hg.live i c e h).1
        rw [hheld] at this
        cases this
    · have hold : st.map i c' = some e := by
        by_cases hi : i = p.1
        · subst hi
          simpa [Store.log, Store.setMap, Pow.insert, Function.update_of_ne (Ne.symm hc)] using h
        · simpa [Store.log, Store.setMap, Function.update_of_ne hi] using h
      obtain ⟨hlive, t, ht⟩ := hg.live i c' e hold
      exact ⟨(stageOf_log_of_ne hm hc).trans hlive, t, List.mem_cons_of_mem _ ht⟩
  · intro i t c' e h hlive hlt
    by_cases hc : c = c'
    · subst hc
      cases h with
      | head => simp [Store.log, Store.setMap, Pow.insert]
      | tail _ h => exact absurd h (hnew _ _)
    · rw [stageOf_log_of_ne hm hc] at hlive
      have hold : st.map i c' = some e := by
        cases h with
        | head => exact absurd rfl hc
        | tail _ h => exact hg.kept i t c' e h hlive hlt
      by_cases hi : i = p.1
      · subst hi
        simpa [Store.log, Store.setMap, Pow.insert, Function.update_of_ne (Ne.symm hc)] using hold
      · simpa [Store.log, Store.setMap, Function.update_of_ne hi] using hold

theorem Good.take (hg : Good sha256 now st) (hmap : st.map p.1 c = some x) :
    Good sha256 now ((st.setMap p.1 (Pow.remove (st.map p.1) c)).log (.took p c n)) := by
  have hm : (Entry.took p c n).move = some (c, ⟨p, .take⟩) := rfl
  obtain ⟨hlive, s, hs⟩ := hg.live p.1 c x hmap
  constructor
  · show Orderly (ledger (Store.log _ _).history)
    rw [ledger_log hm]
    exact ⟨hlive, hg.orderly⟩
  · exact ⟨trivial, hg.sound⟩
  · intro i c' e h
    have hi : i = p.1 ∧ c ≠ c' ∨ i ≠ p.1 := by
      by_cases hi : i = p.1
      · left
        refine ⟨hi, fun hc => ?_⟩
        subst hi hc
        simp [Store.log, Store.setMap, Pow.remove] at h
      · exact .inr hi
    have hold : st.map i c' = some e := by
      rcases hi with ⟨hi, hc⟩ | hi
      · subst hi
        simpa [Store.log, Store.setMap, Pow.remove, Function.update_of_ne (Ne.symm hc)] using h
      · simpa [Store.log, Store.setMap, Function.update_of_ne hi] using h
    obtain ⟨hlive', t, ht⟩ := hg.live i c' e hold
    have hc : c ≠ c' := by
      intro hc
      subst hc
      -- Two processes never hold the same challenge.
      have hq := (minted_unique hg.orderly hs ht).1
      simp only [Prod.mk.injEq] at hq
      rcases hi with ⟨-, hc⟩ | hi
      · exact hc rfl
      · exact hi hq.1.symm
    exact ⟨(stageOf_log_of_ne hm hc).trans hlive', t, List.mem_cons_of_mem _ ht⟩
  · intro i t c' e h hlive' hlt
    have hc : c ≠ c' := by
      intro hc
      subst hc
      rw [stageOf_log_self hm] at hlive'
      cases hlive'
    rw [stageOf_log_of_ne hm hc] at hlive'
    have hold : st.map i c' = some e := by
      cases h with
      | tail _ h => exact hg.kept i t c' e h hlive' hlt
    by_cases hi : i = p.1
    · subst hi
      simpa [Store.log, Store.setMap, Pow.remove, Function.update_of_ne (Ne.symm hc)] using hold
    · simpa [Store.log, Store.setMap, Function.update_of_ne hi] using hold

/-- A sweep only drops what has expired. -/
theorem Good.retain (hg : Good sha256 now st) {t : Nat} (ht : t ≤ now) :
    Good sha256 now (st.setMap p.1 (Pow.sweep (st.map p.1) t)) := by
  refine ⟨hg.orderly, hg.sound, ?_, ?_⟩
  · intro i c e h
    apply hg.live i c e
    by_cases hi : i = p.1
    · subst hi
      simp only [Store.setMap, Function.update_self, Pow.sweep, Option.filter_eq_some_iff] at h
      exact h.1
    · simpa [Store.setMap, Function.update_of_ne hi] using h
  · intro i s c e h hlive hlt
    have hold := hg.kept i s c e h hlive hlt
    by_cases hi : i = p.1
    · subst hi
      have hte : t < e := by omega
      simp [Store.setMap, Pow.sweep, hold, hte]
    · simpa [Store.setMap, Function.update_of_ne hi] using hold

variable {st' : Store ι θ} {t t' : Task} {e : Step}

/-- What a step establishes for the task that takes it. -/
theorem Trans.own (htr : Trans sha256 p now st t e st' t') (hfresh : Fresh p now st t e)
    (hg : Good sha256 now st) (hh : Held p now st t) : Good sha256 now st' ∧ Held p now st' t' := by
  cases htr with
  | draw bytes ttl expiry =>
    have hstage := stageOf_of_fresh hg.orderly hfresh
    have hm : (Entry.drew p (Pow.challengeOf bytes)).move = some (_, ⟨p, .draw⟩) := rfl
    exact ⟨hg.log hm hstage ⟨bytes, rfl⟩ nofun nofun nofun, stageOf_log_self hm, List.mem_cons_self⟩
  | insert c x => exact ⟨hg.insert hh.1 hh.2, trivial⟩
  | refuse e c n hmap => exact ⟨hg.log_none rfl trivial, trivial⟩
  | take e c n x caller hmap =>
    obtain ⟨-, s, hs⟩ := hg.live p.1 c x hmap
    have hm : (Entry.took p c n).move = some (c, ⟨p, .take⟩) := rfl
    exact ⟨hg.take hmap, stageOf_log_self hm, List.mem_cons_self, s, List.mem_cons_of_mem _ hs⟩
  | quiet t t' e hidle =>
    refine ⟨hg, ?_⟩
    rcases hidle with rfl | rfl
    · trivial
    · exact Nat.le_refl _
  | judge c n x caller ok hok =>
    obtain ⟨hstage, htook, s, hs⟩ := hh
    have hm : (Entry.judged p c n now ok).move = some (c, ⟨p, .judge ok⟩) := rfl
    refine ⟨hg.log hm hstage ⟨htook, s, x, hs, hok⟩ nofun nofun nofun, ?_⟩
    cases caller with
    | direct => cases ok <;> trivial
    | verify ip =>
      cases ok with
      | false => trivial
      | true => exact ⟨stageOf_log_self hm, now, List.mem_cons_self⟩
  | respond c n ip e resp =>
    obtain ⟨hstage, hj⟩ := hh
    exact ⟨hg.log rfl hstage hj nofun nofun nofun, trivial⟩
  | retain t => exact ⟨hg.retain hh, trivial⟩

/-- What a step leaves every other task. -/
theorem Trans.other (htr : Trans sha256 p now st t e st' t') (hfresh : Fresh p now st t e)
    (hg : Good sha256 now st) (hh : Held p now st t) {q : ι × θ} {u : Task} (hq : q ≠ p)
    (hu : Held q now st u) : Held q now st' u := by
  cases htr with
  | draw bytes ttl expiry =>
    exact hu.frame (m := ⟨p, .draw⟩) (Ne.symm hq) rfl (stageOf_of_fresh hg.orderly hfresh)
  | insert c x =>
    exact (held_setMap.mpr hu).frame (m := ⟨p, .issue⟩) (Ne.symm hq) rfl hh.1
  | refuse e c n hmap => exact hu.frame_none rfl
  | take e c n x caller hmap =>
    exact (held_setMap.mpr hu).frame (m := ⟨p, .take⟩) (Ne.symm hq) rfl (hg.live p.1 c x hmap).1
  | quiet t t' e hidle => exact hu
  | judge c n x caller ok hok => exact hu.frame (m := ⟨p, .judge ok⟩) (Ne.symm hq) rfl hh.1
  | respond c n ip e resp => exact hu.frame (m := ⟨p, .cash⟩) (Ne.symm hq) rfl hh.1
  | retain t => exact held_setMap.mpr hu

end Run

end NekoGuard.Fleet
