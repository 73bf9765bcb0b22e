/-
session.rs: `get_or_create_secret` on any number of replicas over one
Redis, cut at its commands. Each process is one call. The key may hold
anything before the first call, and only these calls write it. All calls
return one key (`replicas_agree`), which is a whole secret unless the value
was a short one to begin with (`unpadded_iff`).
-/
import NekoGuard.Lib.Cluster
import NekoGuard.Samples
import NekoGuard.Session

namespace NekoGuard.Secret

open Lib

/-- The first `secretLen` bytes of the value, over zeros. -/
def keyOf (secret : Bytes) : SecretKey :=
  let n := min secret.length secretLen
  ⟨(secret.take n ++ List.replicate (secretLen - n) 0).toArray, by simp [n]⟩

/-- Where a call stands: it found no secret, it has tried to set its own, or
it has returned. -/
inductive Task where
  | idle
  | missed
  | offered
  | done (key : SecretKey)
deriving DecidableEq, Repr

/-- The GET, answered or not, the SET NX of the bytes the generator filled,
and the second GET. -/
inductive Step where
  | get
  | getFails
  | setNx (secret : Vector UInt8 secretLen)
  | reread
deriving DecidableEq, Repr

variable {ρ : Type}

def act (_ : ρ) (_ : Nat) (value : Option Bytes) : Task → Step → Option (Option Bytes × Task)
  | .idle, .get =>
    match value with
    | some secret => if !secret.isEmpty then some (value, .done (keyOf secret)) else some (value, .missed)
    | none => some (value, .missed)
  | .idle, .getFails => some (value, .missed)
  | .missed, .setNx secret =>
    match value with
    | some _ => some (value, .offered)
    | none => some (some secret.toList, .offered)
  | .offered, .reread => some (value, .done (keyOf (value.getD [])))
  | _, _ => none

/-- No replica has called yet. -/
def start (ρ : Type) (clock : Nat) (value : Option Bytes) : Cluster ρ (Option Bytes) Task where
  clock := clock
  shared := value
  proc := fun _ => .idle

/-- A secret of the right length is the key, byte for byte. -/
theorem keyOf_toList (secret : Vector UInt8 secretLen) : keyOf secret.toList = secret := by
  have hlen : min secret.toList.length secretLen = secretLen := by simp
  have htake : secret.toList.take secretLen = secret.toList := List.take_of_length_le (by simp)
  unfold keyOf
  simp only [hlen, htake, Nat.sub_self, List.replicate_zero, List.append_nil]
  exact Vector.toArray_inj.mp (Vector.toArray_toList)

/-! ## Agreement -/

/-- What a call knows of the value: past its SET NX there is one, and the
key it returned was made from it. -/
def Knows (_ : ρ) (_ : Nat) (value : Option Bytes) : Task → Prop
  | .idle => True
  | .missed => True
  | .offered => value ≠ none
  | .done key => ∃ secret, value = some secret ∧ key = keyOf secret

/-- Once there is a value it stays. -/
theorem act_value {r : ρ} {clock : Nat} {value value' : Option Bytes} {t t' : Task} {e : Step}
    (h : act r clock value t e = some (value', t')) {secret : Bytes} (hv : value = some secret) :
    value' = some secret := by
  unfold act at h
  split at h
  · split at h
    · split at h <;> (cases h; exact hv)
    · cases h
      exact hv
  · cases h
    exact hv
  · split at h
    · cases h
      exact hv
    · cases hv
  · cases h
    exact hv
  · cases h

theorem Knows.of_value {r : ρ} {clock clock' : Nat} {value value' : Option Bytes} {t : Task}
    (hk : Knows r clock value t) (hv : ∀ secret, value = some secret → value' = some secret) :
    Knows r clock' value' t := by
  cases t with
  | idle => trivial
  | missed => trivial
  | offered =>
    obtain ⟨secret, hs⟩ := Option.ne_none_iff_exists'.mp hk
    exact Option.ne_none_iff_exists'.mpr ⟨secret, hv secret hs⟩
  | done key =>
    obtain ⟨secret, hs, hkey⟩ := hk
    exact ⟨secret, hv secret hs, hkey⟩

theorem act_knows {r : ρ} {clock : Nat} {value value' : Option Bytes} {t t' : Task} {e : Step}
    (hk : Knows r clock value t) (h : act r clock value t e = some (value', t')) :
    Knows r clock value' t' := by
  unfold act at h
  split at h
  · split at h
    · next secret =>
      split at h
      · cases h
        exact ⟨secret, rfl, rfl⟩
      · cases h
        trivial
    · cases h
      trivial
  · cases h
    trivial
  · split at h
    · cases h
      exact Option.some_ne_none _
    · cases h
      exact Option.some_ne_none _
  · cases h
    obtain ⟨secret, hs⟩ := Option.ne_none_iff_exists'.mp hk
    exact ⟨secret, hs, by simp [hs]⟩
  · cases h

theorem keeps : Cluster.Keeps (act (ρ := ρ)) (fun _ _ _ _ _ => True) (fun _ _ => True) Knows where
  tick := fun _ _ _ _ => ⟨trivial, fun _ _ hk => hk.of_value fun _ hv => hv⟩
  own := fun _ _ _ _ _ _ _ _ _ hk h => ⟨trivial, act_knows hk h⟩
  other := fun _ _ _ _ _ _ _ _ _ _ h _ _ _ hk => hk.of_value fun _ hv => act_value h hv

variable [DecidableEq ρ]

theorem run_knows {s : Cluster ρ (Option Bytes) Task} {clock : Nat} {value : Option Bytes}
    {es : List (Cluster.Event ρ Step)}
    (hrun : Machine.run (Cluster.step act) (start ρ clock value) es = some s) (r : ρ) :
    Knows r s.clock s.shared (s.proc r) := by
  have hstart : Cluster.Inv (fun _ _ => True) Knows (start ρ clock value) := ⟨trivial, fun _ => trivial⟩
  exact (keeps.run hstart hrun).proc r

/-- How many commands a call still has before it. -/
def left : Task → Nat
  | .idle => 3
  | .missed => 2
  | .offered => 1
  | .done _ => 0

theorem step_left (s : Cluster ρ (Option Bytes) Task) {r : ρ} (h : 0 < left (s.proc r)) :
    ∃ e t, Cluster.step act s (.on r e) = some t ∧ left (t.proc r) < left (s.proc r) := by
  have hact : ∃ e value' t', act r s.clock s.shared (s.proc r) e = some (value', t') ∧
      left t' < left (s.proc r) := by
    cases ht : s.proc r with
    | idle =>
      refine ⟨.get, ?_⟩
      cases s.shared with
      | none => exact ⟨_, _, rfl, by simp [left]⟩
      | some secret => by_cases he : secret.isEmpty <;> simp [act, he, left]
    | missed =>
      refine ⟨.setNx (Vector.replicate secretLen 0), ?_⟩
      cases s.shared <;> exact ⟨_, _, rfl, by simp [left]⟩
    | offered => exact ⟨.reread, _, _, rfl, by simp [left]⟩
    | done key => simp [ht, left] at h
  obtain ⟨e, value', t', ha, hlt⟩ := hact
  exact ⟨e, _, Cluster.step_on_eq_some.mpr ⟨value', t', ha, rfl⟩, by simpa using hlt⟩

/-- A call returns on its own commands, wherever the others stand. -/
theorem call_returns (s : Cluster ρ (Option Bytes) Task) (r : ρ) :
    ∃ (es : List Step) (t : Cluster ρ (Option Bytes) Task) (key : SecretKey),
      Machine.run (Cluster.step act) s (es.map (.on r)) = some t ∧ t.proc r = .done key := by
  induction hn : left (s.proc r) using Nat.strong_induction_on generalizing s with
  | _ n ih =>
    by_cases h : 0 < left (s.proc r)
    · obtain ⟨e, u, hu, hlt⟩ := step_left s h
      obtain ⟨es, t, key, hrun, ht⟩ := ih _ (hn ▸ hlt) u rfl
      exact ⟨e :: es, t, key, Machine.run_cons_eq_some.mpr ⟨u, hu, hrun⟩, ht⟩
    · cases ht : s.proc r with
      | done key => exact ⟨[], s, key, rfl, ht⟩
      | _ => simp [ht, left] at h

/-- **Every replica seals with the same key.** Whatever the order of the
commands, two calls that have returned hold one key, and a cookie sealed
under either opens under the other. -/
theorem replicas_agree {s : Cluster ρ (Option Bytes) Task} {clock : Nat} {value : Option Bytes}
    {es : List (Cluster.Event ρ Step)}
    (hrun : Machine.run (Cluster.step act) (start ρ clock value) es = some s) {a b : ρ} {k l : SecretKey}
    (ha : s.proc a = .done k) (hb : s.proc b = .done l) :
    k = l ∧ ∀ {cr : SealingCrates}, cr.Lawful → ∀ (name name' : Str) (ttl ttl' : Nat) (ip : IpAddr)
      (now : Clock) (nonce : Nonce),
      SessionManager.openCookie cr { key := l, cookieName := name', ttl := ttl' }
        (SessionManager.createCookie cr { key := k, cookieName := name, ttl := ttl } ip now nonce) =
        .ok (ip, (now.unixSecs + ttl) % 2 ^ 64) := by
  have hka := run_knows hrun a
  have hkb := run_knows hrun b
  rw [ha] at hka
  rw [hb] at hkb
  obtain ⟨secret, hs, rfl⟩ := hka
  obtain ⟨secret', hs', rfl⟩ := hkb
  have hsecret : secret = secret' := Option.some.inj (hs.symm.trans hs')
  subst hsecret
  refine ⟨rfl, fun hcr name name' ttl ttl' ip now nonce => ?_⟩
  exact SessionManager.openCookie_createCookie hcr
    { key := keyOf secret, cookieName := name, ttl := ttl } ip now nonce

/-- Three replicas start at once: two miss, one of them wins the race, and
the last finds the secret at its first GET. -/
def race : List (Cluster.Event (Fin 3) Step) :=
  [.on 0 .get, .on 1 .get, .on 1 (.setNx (Vector.replicate secretLen 1)),
    .on 0 (.setNx (Vector.replicate secretLen 2)), .on 0 .reread, .on 1 .reread, .on 2 .get]

theorem race_agrees : ∃ s k l,
    Machine.run (Cluster.step act) (start (Fin 3) 0 none) race = some s ∧
      s.proc 0 = .done k ∧ s.proc 2 = .done l ∧ k = l ∧
      SessionManager.openCookie Sample.crates { key := l, cookieName := [], ttl := 1800 }
        (SessionManager.createCookie Sample.crates { key := k, cookieName := [], ttl := 1800 } (.v4 10 0 0 1)
          ⟨0, 0⟩ (Vector.replicate 12 0)) = .ok (.v4 10 0 0 1, 1800) := by
  have hrace : (Machine.run (Cluster.step act) (start (Fin 3) 0 none) race).map
      (fun s => (s.proc 0, s.proc 2)) =
      some (.done (Vector.replicate secretLen 1), .done (Vector.replicate secretLen 1)) := by
    decide +kernel
  obtain ⟨s, hs, hproc⟩ := Option.map_eq_some_iff.mp hrace
  obtain ⟨h0, h2⟩ := Prod.mk.inj hproc
  obtain ⟨hkey, hopen⟩ := replicas_agree hs h0 h2
  exact ⟨s, _, _, hs, h0, h2, hkey, hopen Sample.crates_lawful [] [] 1800 1800 (.v4 10 0 0 1) ⟨0, 0⟩
    (Vector.replicate 12 0)⟩

/-! ## Padding -/

/-- One of the calls of the run came with these bytes. -/
def Generated (es : List (Cluster.Event ρ Step)) (secret : Bytes) : Prop :=
  ∃ r fresh, .on r (.setNx fresh) ∈ es ∧ secret = fresh.toList

/-- All of the key is bytes of the secret that was there to begin with, or
of one that was generated. -/
def Unpadded (value : Option Bytes) (es : List (Cluster.Event ρ Step)) (key : SecretKey) : Prop :=
  ∃ secret, (value = some secret ∨ Generated es secret) ∧ secretLen ≤ secret.length ∧
    key.toList = secret.take secretLen

theorem keyOf_of_le {secret : Bytes} (h : secretLen ≤ secret.length) :
    (keyOf secret).toList = secret.take secretLen := by
  have hmin : min secret.length secretLen = secretLen := Nat.min_eq_right h
  simp [keyOf, Vector.toList, hmin]

omit [DecidableEq ρ] in
theorem act_origin {r : ρ} {clock : Nat} {value value' : Option Bytes} {t t' : Task} {e : Step}
    (h : act r clock value t e = some (value', t')) :
    value' = value ∨ ∃ fresh, e = .setNx fresh ∧ value' = some fresh.toList := by
  unfold act at h
  split at h
  · split at h
    · split at h <;> (cases h; exact .inl rfl)
    · cases h
      exact .inl rfl
  · cases h
    exact .inl rfl
  · split at h
    · cases h
      exact .inl rfl
    · cases h
      exact .inr ⟨_, rfl, rfl⟩
  · cases h
    exact .inl rfl
  · cases h

/-- The value at the end of a run is the one it began with, or one of those
generated on the way. -/
theorem run_origin {s t : Cluster ρ (Option Bytes) Task} {es : List (Cluster.Event ρ Step)}
    (hrun : Machine.run (Cluster.step act) s es = some t) :
    t.shared = s.shared ∨ ∃ secret, t.shared = some secret ∧ Generated es secret := by
  induction es generalizing s with
  | nil =>
    cases hrun
    exact .inl rfl
  | cons e es ih =>
    obtain ⟨u, hu, hrest⟩ := Machine.run_cons_eq_some.mp hrun
    rcases ih hrest with hsame | ⟨secret, hsecret, r, fresh, hmem, heq⟩
    · rw [hsame]
      cases e with
      | tick d =>
        cases hu
        exact .inl rfl
      | on r e =>
        obtain ⟨value', p, ha, rfl⟩ := Cluster.step_on_eq_some.mp hu
        rcases act_origin ha with h | ⟨fresh, rfl, h⟩
        · exact .inl h
        · exact .inr ⟨_, h, r, fresh, List.mem_cons_self, rfl⟩
    · exact .inr ⟨secret, hsecret, r, fresh, List.mem_cons_of_mem _ hmem, heq⟩

/-- The commands of a call that finds the empty value: it generates a secret
that SET NX does not store. -/
def aloneOnEmpty (r : ρ) : List (Cluster.Event ρ Step) :=
  [.on r .get, .on r (.setNx (Vector.replicate secretLen 1)), .on r .reread]

theorem aloneOnEmpty_run (r : ρ) (clock : Nat) : ∃ s,
    Machine.run (Cluster.step act) (start ρ clock (some [])) (aloneOnEmpty r) = some s ∧
      s.proc r = .done (Vector.replicate secretLen 0) := by
  have hkey : keyOf [] = Vector.replicate secretLen 0 := by decide
  simp [aloneOnEmpty, Machine.run, Cluster.step, act, start, hkey]

omit [DecidableEq ρ] in
theorem not_unpadded_aloneOnEmpty (r : ρ) :
    ¬Unpadded (some []) (aloneOnEmpty r) (Vector.replicate secretLen 0) := by
  rintro ⟨secret, hvalue | ⟨r', fresh, hmem, hfresh⟩, hlen, hkey⟩
  · cases hvalue
    cases hlen
  · have hones : r' = r ∧ fresh = Vector.replicate secretLen 1 := by simpa [aloneOnEmpty] using hmem
    rw [hfresh, hones.2] at hkey
    revert hkey
    decide

/-- **When no key is padded.** In every run from that value all keys
returned are whole secrets, if and only if the value is absent or has at
least as many bytes as a key. -/
theorem unpadded_iff (r : ρ) (clock : Nat) (value : Option Bytes) :
    (∀ es s, Machine.run (Cluster.step act) (start ρ clock value) es = some s →
      ∀ r' key, s.proc r' = .done key → Unpadded value es key) ↔
      ∀ secret, value = some secret → secretLen ≤ secret.length := by
  constructor
  · intro h secret hvalue
    by_contra hshort
    subst hvalue
    by_cases hempty : secret = []
    · subst hempty
      obtain ⟨s, hs, hdone⟩ := aloneOnEmpty_run r clock
      exact not_unpadded_aloneOnEmpty r (h _ s hs r _ hdone)
    · -- A short value is found at once, and nothing is generated.
      have hget : Machine.run (Cluster.step act) (start ρ clock (some secret)) [.on r .get] =
          some { start ρ clock (some secret) with
            proc := Function.update (start ρ clock (some secret)).proc r (.done (keyOf secret)) } := by
        simp [Machine.run, Cluster.step, act, start, hempty]
      obtain ⟨whole, horigin, hlen, -⟩ := h _ _ hget r (keyOf secret) (Function.update_self _ _ _)
      rcases horigin with hsame | ⟨r', fresh, hmem, -⟩
      · cases hsame
        exact hshort hlen
      · simp at hmem
  · intro hlong es s hrun r' key hkey
    have hknows := run_knows hrun r'
    rw [hkey] at hknows
    obtain ⟨secret, hsecret, rfl⟩ := hknows
    rcases run_origin hrun with hsame | ⟨fresh, hfresh, hgen⟩
    · have hvalue : value = some secret := hsame.symm.trans hsecret
      exact ⟨secret, .inl hvalue, hlong secret hvalue, keyOf_of_le (hlong secret hvalue)⟩
    · have heq : fresh = secret := Option.some.inj (hfresh.symm.trans hsecret)
      subst heq
      have hlen : secretLen ≤ fresh.length := by
        obtain ⟨_, v, -, rfl⟩ := hgen
        simp
      exact ⟨fresh, .inr hgen, hlen, keyOf_of_le hlen⟩

/-- Over an empty value a replica returns the zero key. -/
theorem emptySecret_padded : ∃ s,
    Machine.run (Cluster.step act) (start Unit 0 (some [])) (aloneOnEmpty ()) = some s ∧
      s.proc () = .done (Vector.replicate secretLen 0) ∧
      ¬Unpadded (some []) (aloneOnEmpty ()) (Vector.replicate secretLen 0) := by
  obtain ⟨s, hs, hdone⟩ := aloneOnEmpty_run () 0
  exact ⟨s, hs, hdone, not_unpadded_aloneOnEmpty ()⟩

end NekoGuard.Secret
