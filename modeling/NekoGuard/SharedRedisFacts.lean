/-
What each user of the one Redis sees of it. Every command is for a key its
sender owns (`step_puts`), so what an owner reads under its own keys is what
it wrote there (`step_typed`); and whatever the others do in between, the
secret, each bucket, the metadata and the certificates go through runs of their
own models (`one_redis_for_all`).
-/
import NekoGuard.CertView
import NekoGuard.Lib.View
import NekoGuard.LoadFacts
import NekoGuard.SharedRedis

namespace NekoGuard.SharedRedis

open Lib Lib.Pick Config

/-! ## Keys -/

theorem startsWith_iff {s p : Str} : Text.startsWith s p = true ↔ p <+: s := List.isPrefixOf_iff_prefix

/-- No key starts with two words that do not start with each other. -/
theorem not_startsWith {key p q : Str} (hp : Text.startsWith key p = true) (hpq : Text.startsWith p q = false)
    (hqp : Text.startsWith q p = false) : Text.startsWith key q = false := by
  rw [Bool.eq_false_iff] at hpq hqp ⊢
  intro hq
  rcases List.prefix_or_prefix_of_prefix (startsWith_iff.mp hp) (startsWith_iff.mp hq) with h | h
  · exact hqp (startsWith_iff.mpr h)
  · exact hpq (startsWith_iff.mpr h)

theorem owner_sealKey : owner sealKey = .secret := if_pos rfl

theorem ne_sealKey {key p : Str} (h : Text.startsWith key p = true) (hp : Text.startsWith sealKey p = false) :
    key ≠ sealKey := by
  rintro rfl
  rw [hp] at h
  cases h

theorem owner_limitKey (ip : IpAddr) : owner (limitKey ip) = .limit := by
  have h : Text.startsWith (limitKey ip) keyPrefix = true := startsWith_iff.mpr (List.prefix_append _ _)
  rw [owner, if_neg (ne_sealKey h (by decide +kernel)), if_pos h]

theorem owner_of_embed {key : Str} (h : Text.startsWith key embedPrefix = true) : owner key = .embed := by
  have hlimit := not_startsWith h (q := keyPrefix) (by decide +kernel) (by decide +kernel)
  rw [owner, if_neg (ne_sealKey h (by decide +kernel)), hlimit, if_neg Bool.false_ne_true, if_pos h]

theorem owner_of_cert {key : Str} (h : Text.startsWith key certPrefix = true) : owner key = .cert := by
  have hlimit := not_startsWith h (q := keyPrefix) (by decide +kernel) (by decide +kernel)
  have hembed := not_startsWith h (q := embedPrefix) (by decide +kernel) (by decide +kernel)
  rw [owner, if_neg (ne_sealKey h (by decide +kernel)), hlimit, hembed, if_neg Bool.false_ne_true,
    if_neg Bool.false_ne_true, if_pos h]

theorem owner_certKey (d : Str) : owner (certKey d) = .cert := owner_of_cert (CertSync.startsWith_certKey d)

theorem limitKey_inj {a b : IpAddr} (h : limitKey a = limitKey b) : a = b :=
  IpAddr.display_inj (List.append_cancel_left h)

theorem startsWith_cacheKey (sha256 : Pow.Sha256) (host path : Str) :
    Text.startsWith (Embed.cacheKey sha256 host path) embedPrefix = true := by
  unfold Embed.cacheKey
  simp only []
  split
  · exact startsWith_iff.mpr (List.prefix_append _ _)
  · rw [List.append_assoc, List.append_assoc]
    exact startsWith_iff.mpr (List.prefix_append _ _)

theorem owner_key (sha256 : Pow.Sha256) (c : Embed.Call) : owner (c.key sha256) = .embed :=
  owner_of_embed (startsWith_cacheKey sha256 c.host c.path)

/-! ## Numbers -/

theorem startsWith_plus (n : Nat) : Text.startsWith (Text.decimal n) ['+'] = false := by
  obtain ⟨hdigits, -⟩ := IpAddr.toDigits_value 10 (by decide) (fun _ => IpAddr.toDigit_ten) n
  rw [Bool.eq_false_iff]
  intro hplus
  obtain ⟨rest, hrest⟩ := startsWith_iff.mp hplus
  have hmem : '+' ∈ Nat.toDigits 10 n := by
    rw [show Nat.toDigits 10 n = Text.decimal n from rfl, ← hrest]
    exact List.mem_cons_self
  exact absurd (hdigits _ hmem) (by decide)

theorem parseNumber_decimal (n : Nat) : parseNumber (Text.bytes (Text.decimal n)) = some n := by
  obtain ⟨hdigits, hvalue⟩ := IpAddr.toDigits_value 10 (by decide) (fun _ => IpAddr.toDigit_ten) n
  have hne : Text.decimal n ≠ [] := Nat.toDigits_ne_nil
  unfold parseNumber
  rw [Utf8.fromUtf8_bytes, Option.bind_some, startsWith_plus]
  simp only [Bool.false_eq_true, if_false]
  rw [if_pos ⟨hne, List.all_eq_true.mpr hdigits⟩]
  exact congrArg some hvalue

/-- **A bucket reads back** from the fields it is written as. -/
theorem readBucket_fieldsOf (b : RateLimit.Bucket) :
    readBucket (.ok (fieldNames.map (Keyspace.field (fieldsOf b)))) = some b := by
  have hfields : fieldNames.map (Keyspace.field (fieldsOf b)) =
      [some (Text.bytes (Text.decimal b.tokens)), some (Text.bytes (Text.decimal b.lastRefillMs))] := by
    simp [fieldNames, fieldsOf, Keyspace.field]
  rw [hfields]
  simp [readBucket, parseNumber_decimal]

theorem setFields (b : RateLimit.Bucket) (old : List (Str × Bytes))
    (h : old = [] ∨ ∃ b', old = fieldsOf b') : (fieldsOf b).foldl Keyspace.setField old = fieldsOf b := by
  rcases h with rfl | ⟨b', rfl⟩ <;> simp [fieldsOf, Keyspace.setField]

/-! ## Typed keys -/

variable {now : Nat} {ks ks' : Keyspace} {key : Str} {h : Held}

theorem Typed.put (ht : Typed ks) (hb : Belongs key h) : Typed (ks.insert key h) := by
  intro k x hx
  by_cases hk : k = key
  · subst hk
    rw [AList.lookup_insert, Option.some.injEq] at hx
    exact hx ▸ hb
  · rw [AList.lookup_insert_ne hk] at hx
    exact ht k x hx

theorem Typed.secret (ht : Typed ks) (hx : ks.lookup sealKey = some h) : ∃ b, h = ⟨.string b, none⟩ := by
  have hb := ht _ _ hx
  rwa [Belongs, owner_sealKey] at hb

theorem Typed.limit (ht : Typed ks) {ip : IpAddr} (hx : ks.lookup (limitKey ip) = some h) :
    ∃ b t, h = ⟨.hash (fieldsOf b), t⟩ := by
  have hb := ht _ _ hx
  rwa [Belongs, owner_limitKey] at hb

theorem Typed.embed (ht : Typed ks) (hkey : owner key = .embed) (hx : ks.lookup key = some h) :
    ∃ payload written, h = ⟨.string (Text.bytes payload), some (written + Embed.cacheTtl)⟩ := by
  have hb := ht _ _ hx
  rwa [Belongs, hkey] at hb

theorem Typed.cert (ht : Typed ks) (hkey : owner key = .cert) (hx : ks.lookup key = some h) :
    ∃ b, h = ⟨.string b, none⟩ := by
  have hb := ht _ _ hx
  rwa [Belongs, hkey] at hb

/-! ## What a step writes -/

variable {cfg : RateLimitConfig} {sha256 : Pow.Sha256} {mc : Embed.MetaCrate} {js : CertJson} {pki : Tls.PkiCrates}

/-- A step puts one value of the right kind under a key, or nothing. -/
def Puts (ks : Keyspace) (key : Str) (ks' : Keyspace) : Prop :=
  ks' = ks ∨ ∃ h, ks' = ks.insert key h ∧ Belongs key h

theorem Puts.typed (hp : Puts ks key ks') (ht : Typed ks) : Typed ks' := by
  rcases hp with rfl | ⟨h, rfl, hb⟩
  · exact ht
  · exact ht.put hb

theorem Puts.lookup_of_ne (hp : Puts ks key ks') {other : Str} (hne : other ≠ key) :
    ks'.lookup other = ks.lookup other := by
  rcases hp with rfl | ⟨h, rfl, -⟩
  · rfl
  · exact AList.lookup_insert_ne hne

theorem belongs_secret (b : Bytes) : Belongs sealKey ⟨.string b, none⟩ := by
  rw [Belongs, owner_sealKey]
  exact ⟨b, rfl⟩

theorem belongs_limit (ip : IpAddr) (b : RateLimit.Bucket) (t : Option Nat) :
    Belongs (limitKey ip) ⟨.hash (fieldsOf b), t⟩ := by
  rw [Belongs, owner_limitKey]
  exact ⟨b, t, rfl⟩

theorem secretAct_puts {t t' : Secret.Task} {e : Secret.Step} (h : secretAct now ks t e = some (ks', t')) :
    Puts ks sealKey ks' := by
  unfold secretAct at h
  split at h
  · split at h
    · split at h <;> (cases h; exact .inl rfl)
    · cases h
      exact .inl rfl
  · cases h
    exact .inl rfl
  · cases h
    unfold Keyspace.setNx
    split
    · exact .inl rfl
    · exact .inr ⟨_, rfl, belongs_secret _⟩
  · split at h
    · cases h
      exact .inl rfl
    · cases h
  · cases h

/-- What a step of a call can do. -/
inductive LimitMove (cfg : RateLimitConfig) (now : Nat) (ks : Keyspace) : Limiter → LimitStep → Limited → Prop where
  | free (ip : IpAddr) (hoff : (!cfg.enabled || cfg.rps == 0) = true) :
      LimitMove cfg now ks .idle (.call ip) ⟨ks, .idle, some (ip, ⟨ms now, true⟩)⟩
  | clock (ip : IpAddr) (hon : (!cfg.enabled || cfg.rps == 0) = false) :
      LimitMove cfg now ks .idle (.call ip) ⟨ks, .clocked ip (ms now), none⟩
  | fetch (ip : IpAddr) (nowMs : Nat) :
      LimitMove cfg now ks (.clocked ip nowMs) .hmget
        ⟨ks, .fetched ip nowMs (readBucket (Keyspace.hmget now ks (limitKey ip) fieldNames)), none⟩
  | write (ip : IpAddr) (nowMs : Nat) (bucket : Option RateLimit.Bucket) :
      LimitMove cfg now ks (.fetched ip nowMs bucket) .hmset
        ⟨(Keyspace.hmset now ks (limitKey ip) (fieldsOf (RateLimit.verdict cfg bucket nowMs).2)).toOption.getD ks,
          .written ip, some (ip, ⟨nowMs, (RateLimit.verdict cfg bucket nowMs).1⟩)⟩
  | expire (ip : IpAddr) :
      LimitMove cfg now ks (.written ip) .expire
        ⟨Keyspace.expireAt now ks (limitKey ip) (now + bucketTtl), .idle, none⟩

theorem limitAct_move {l : Limiter} {e : LimitStep} {o : Limited} (h : limitAct cfg now ks l e = some o) :
    LimitMove cfg now ks l e o := by
  unfold limitAct at h
  split at h
  · next ip =>
    cases hoff : (!cfg.enabled || cfg.rps == 0) with
    | true =>
      rw [if_pos hoff] at h
      cases h
      exact .free ip hoff
    | false =>
      rw [if_neg (by simp [hoff])] at h
      cases h
      exact .clock ip hoff
  · cases h
    exact .fetch _ _
  · cases h
    exact .write _ _ _
  · cases h
    exact .expire _
  · cases h

/-- The HMSET leaves the bucket, and whatever expiry the key has. -/
theorem hmset_bucket (now : Nat) (ht : Typed ks) (ip : IpAddr) (b : RateLimit.Bucket) :
    ∃ t, (Keyspace.hmset now ks (limitKey ip) (fieldsOf b)).toOption.getD ks =
      ks.insert (limitKey ip) ⟨.hash (fieldsOf b), t⟩ := by
  unfold Keyspace.hmset
  cases hlive : Keyspace.live now ks (limitKey ip) with
  | none => exact ⟨none, by rw [setFields b [] (.inl rfl)]; rfl⟩
  | some h =>
    obtain ⟨hlookup, -⟩ := Keyspace.live_eq_some.mp hlive
    obtain ⟨b', t, rfl⟩ := ht.limit hlookup
    exact ⟨t, by simp only [setFields b _ (.inr ⟨b', rfl⟩)]; rfl⟩

theorem expireAt_bucket (now : Nat) (ht : Typed ks) (ip : IpAddr) (expires : Nat) :
    Keyspace.expireAt now ks (limitKey ip) expires = ks ∨ ∃ b t, ks.lookup (limitKey ip) = some ⟨.hash (fieldsOf b), t⟩ ∧
      Keyspace.expireAt now ks (limitKey ip) expires = ks.insert (limitKey ip) ⟨.hash (fieldsOf b), some expires⟩ := by
  unfold Keyspace.expireAt
  cases hlive : Keyspace.live now ks (limitKey ip) with
  | none => exact .inl rfl
  | some h =>
    obtain ⟨hlookup, -⟩ := Keyspace.live_eq_some.mp hlive
    obtain ⟨b, t, rfl⟩ := ht.limit hlookup
    exact .inr ⟨b, t, hlookup, rfl⟩

theorem LimitMove.puts {l : Limiter} {e : LimitStep} {o : Limited} (hm : LimitMove cfg now ks l e o) (ht : Typed ks) :
    ∃ ip, Puts ks (limitKey ip) o.redis := by
  cases hm with
  | free ip hoff => exact ⟨ip, .inl rfl⟩
  | clock ip hon => exact ⟨ip, .inl rfl⟩
  | fetch ip nowMs => exact ⟨ip, .inl rfl⟩
  | write ip nowMs bucket =>
    obtain ⟨t, hput⟩ := hmset_bucket now ht ip (RateLimit.verdict cfg bucket nowMs).2
    exact ⟨ip, .inr ⟨_, hput, belongs_limit ip _ t⟩⟩
  | expire ip =>
    rcases expireAt_bucket now ht ip (now + bucketTtl) with heq | ⟨b, t, -, heq⟩
    · exact ⟨ip, .inl heq⟩
    · exact ⟨ip, .inr ⟨_, heq, belongs_limit ip b _⟩⟩

theorem embedWrite_puts (t : Embed.Task) (e : Embed.Step) :
    ∃ key, owner key = .embed ∧ Puts ks key (embedWrite sha256 mc now ks t e) := by
  have hnone : ∃ key, owner key = .embed ∧ Puts ks key ks := ⟨embedPrefix, by decide +kernel, .inl rfl⟩
  unfold embedWrite
  split
  · next c copy _ =>
    split
    · next payload _ =>
      refine ⟨c.key sha256, owner_key sha256 c, .inr ⟨_, rfl, ?_⟩⟩
      rw [Belongs, owner_key]
      exact ⟨payload, now, rfl⟩
    · exact hnone
  · exact hnone

theorem certWrite_puts (t : Certd.Task) (e : CertSync.Event) : ∃ d, Puts ks (certKey d) (certWrite js ks t e) := by
  unfold certWrite
  split
  · next d c _ =>
    refine ⟨d, .inr ⟨_, rfl, ?_⟩⟩
    rw [Belongs, owner_certKey]
    exact ⟨js.toVec c, rfl⟩
  · exact ⟨[], .inl rfl⟩

section World

variable {ι θ : Type} [DecidableEq ι] [DecidableEq θ] {w w' : World ι θ pki}

/-- Whose keys an event may write. -/
def Event.owner : Event ι θ → Owner
  | .tick _ => .other
  | .secret _ _ => .secret
  | .limit _ _ => .limit
  | .embed _ _ => .embed
  | .certs _ => .cert

/-- **A step writes under one key at most**, of those of its owner. -/
theorem step_puts {e : Event ι θ} (ht : Typed w.redis) (h : step cfg sha256 mc js pki w e = some w') :
    w'.redis = w.redis ∨ ∃ key, owner key = e.owner ∧ Puts w.redis key w'.redis := by
  cases e with
  | tick d =>
    cases h
    exact .inl rfl
  | secret i e =>
    obtain ⟨o, ho, rfl⟩ := Option.map_eq_some_iff.mp h
    exact .inr ⟨sealKey, owner_sealKey, secretAct_puts ho⟩
  | limit i e =>
    obtain ⟨o, ho, rfl⟩ := Option.map_eq_some_iff.mp h
    obtain ⟨ip, hp⟩ := (limitAct_move ho).puts ht
    exact .inr ⟨limitKey ip, owner_limitKey ip, hp⟩
  | embed p e =>
    obtain ⟨o, ho, rfl⟩ := Option.map_eq_some_iff.mp h
    obtain ⟨key, hkey, hp⟩ := embedWrite_puts (w.embed p) e
    exact .inr ⟨key, hkey, hp⟩
  | certs e =>
    obtain ⟨s, hs, rfl⟩ := Option.map_eq_some_iff.mp h
    obtain ⟨d, hp⟩ := certWrite_puts w.certs.task e
    exact .inr ⟨certKey d, owner_certKey d, hp⟩

theorem step_typed {e : Event ι θ} (ht : Typed w.redis) (h : step cfg sha256 mc js pki w e = some w') :
    Typed w'.redis := by
  rcases step_puts ht h with heq | ⟨key, -, hp⟩
  · exact heq ▸ ht
  · exact hp.typed ht

/-- **The keys of the others stay as they are.** -/
theorem lookup_of_ne {e : Event ι θ} (ht : Typed w.redis) (h : step cfg sha256 mc js pki w e = some w') {other : Str}
    (hne : owner other ≠ e.owner) : w'.redis.lookup other = w.redis.lookup other := by
  rcases step_puts ht h with heq | ⟨key, hkey, hp⟩
  · rw [heq]
  · exact hp.lookup_of_ne fun heq => hne (heq ▸ hkey)

/-! ## The secret -/

def World.secretView (w : World ι θ pki) : Cluster ι (Option Bytes) Secret.Task where
  clock := w.clock
  shared := secretOf w.redis
  proc := w.secret

/-- What shows of an event in the model of the secret. -/
def secretShows (_ : World ι θ pki) : Event ι θ → List (Cluster.Event ι Secret.Step)
  | .tick d => [.tick d]
  | .secret i e => [.on i e]
  | _ => []

theorem get_sealKey (ht : Typed ks) (now : Nat) : Keyspace.get now ks sealKey = .ok (secretOf ks) := by
  unfold Keyspace.get secretOf
  cases hx : ks.lookup sealKey with
  | none => rw [Keyspace.live_of_absent hx]
  | some h =>
    obtain ⟨b, rfl⟩ := ht.secret hx
    rw [Keyspace.live_of_stays hx]

omit [DecidableEq ι] in
theorem secretAct_seen (ht : Typed ks) {t t' : Secret.Task} {e : Secret.Step} {i : ι} {clock : Nat}
    (h : secretAct now ks t e = some (ks', t')) :
    Secret.act i clock (secretOf ks) t e = some (secretOf ks', t') := by
  have hget := get_sealKey ht now
  unfold secretAct at h
  split at h
  · rw [hget] at h
    cases hs : secretOf ks with
    | none =>
      simp only [hs] at h
      cases h
      rw [hs]
      rfl
    | some secret =>
      simp only [hs] at h
      unfold Secret.act
      split at h
      · next hne =>
        cases h
        simp only [hne, hs, if_true]
      · next hne =>
        cases h
        simp only [hne, hs]
        rfl
  · cases h
    rfl
  · next secret =>
    cases h
    unfold Keyspace.setNx
    cases hx : ks.lookup sealKey with
    | none =>
      have hs : secretOf ks = none := by rw [secretOf, hx]
      rw [Keyspace.live_of_absent hx, hs]
      simp only [Option.isSome_none, Bool.false_eq_true, if_false]
      rw [secretOf, Keyspace.set, AList.lookup_insert]
      rfl
    | some h =>
      obtain ⟨b, rfl⟩ := ht.secret hx
      have hs : secretOf ks = some b := by rw [secretOf, hx]
      rw [Keyspace.live_of_stays hx]
      simp only [Option.isSome_some, if_true, hs]
      rfl
  · rw [hget] at h
    cases h
    rfl
  · cases h

theorem secretOf_congr (h : ks'.lookup sealKey = ks.lookup sealKey) : secretOf ks' = secretOf ks := by
  rw [secretOf, h, secretOf]

theorem secret_step {e : Event ι θ} (ht : Typed w.redis) (h : step cfg sha256 mc js pki w e = some w') :
    Machine.run (Cluster.step Secret.act) w.secretView (secretShows w e) = some w'.secretView := by
  have hframe : e.owner ≠ .secret → secretOf w'.redis = secretOf w.redis := fun hne =>
    secretOf_congr (lookup_of_ne ht h (by rw [owner_sealKey]; exact Ne.symm hne))
  cases e with
  | tick d =>
    cases h
    rfl
  | secret i e =>
    obtain ⟨o, ho, rfl⟩ := Option.map_eq_some_iff.mp h
    refine Machine.run_singleton.mpr (Cluster.step_on_eq_some.mpr ⟨_, _, secretAct_seen ht ho, rfl⟩)
  | limit i e =>
    obtain ⟨o, -, rfl⟩ := Option.map_eq_some_iff.mp h
    simp only [secretShows, World.secretView, hframe nofun, Machine.run_nil]
  | embed p e =>
    obtain ⟨o, -, rfl⟩ := Option.map_eq_some_iff.mp h
    simp only [secretShows, World.secretView, hframe nofun, Machine.run_nil]
  | certs e =>
    obtain ⟨o, -, rfl⟩ := Option.map_eq_some_iff.mp h
    simp only [secretShows, World.secretView, hframe nofun, Machine.run_nil]

/-! ## A bucket -/

def bucketOf (ks : Keyspace) (ip : IpAddr) : Option RateLimit.Bucket :=
  match ks.lookup (limitKey ip) with
  | some ⟨.hash fields, _⟩ => readBucket (.ok (fieldNames.map (Keyspace.field fields)))
  | _ => none

/-- The part of a call that is about one address. -/
def taskOf (ip : IpAddr) : Limiter → RateLimit.Task
  | .clocked ip' nowMs => if ip' = ip then .clocked nowMs else .idle
  | .fetched ip' nowMs bucket => if ip' = ip then .fetched nowMs bucket else .idle
  | .idle => .idle
  | .written _ => .idle

def ownStep (ip : IpAddr) : Limiter → LimitStep → Option RateLimit.Step
  | .idle, .call ip' => if ip' = ip then some .call else none
  | .clocked ip' _, .hmget => if ip' = ip then some .hmget else none
  | .fetched ip' _ _, .hmset => if ip' = ip then some .hmset else none
  | _, _ => none

def World.limitView (ip : IpAddr) (w : World ι θ pki) : Cluster ι RateLimit.Store RateLimit.Task where
  clock := ms w.clock
  shared := { bucket := bucketOf w.redis ip, calls := w.calls ip }
  proc := taskOf ip ∘ w.limiter

def limitShows (ip : IpAddr) (w : World ι θ pki) : Event ι θ → List (Cluster.Event ι RateLimit.Step)
  | .tick d => [.tick (ms (w.clock + d) - ms w.clock)]
  | .limit i e => (ownStep ip (w.limiter i) e).toList.map (.on i)
  | _ => []

/-- No HMGET for the address finds its key gone. -/
def Unexpired (ip : IpAddr) (w : World ι θ pki) : Event ι θ → Prop
  | .limit i .hmget => ∀ nowMs h, w.limiter i = .clocked ip nowMs → w.redis.lookup (limitKey ip) = some h →
    h.isLive w.clock = true
  | _ => True

theorem bucketOf_eq {ip : IpAddr} {b : RateLimit.Bucket} {t : Option Nat}
    (h : ks.lookup (limitKey ip) = some ⟨.hash (fieldsOf b), t⟩) : bucketOf ks ip = some b := by
  rw [bucketOf, h]
  exact readBucket_fieldsOf b

theorem bucketOf_insert (ks : Keyspace) (ip : IpAddr) (b : RateLimit.Bucket) (t : Option Nat) :
    bucketOf (ks.insert (limitKey ip) ⟨.hash (fieldsOf b), t⟩) ip = some b :=
  bucketOf_eq (AList.lookup_insert ks)

theorem hmget_bucket (now : Nat) (ht : Typed ks) {ip : IpAddr}
    (hlive : ∀ h, ks.lookup (limitKey ip) = some h → h.isLive now = true) :
    readBucket (Keyspace.hmget now ks (limitKey ip) fieldNames) = bucketOf ks ip := by
  unfold Keyspace.hmget
  cases hx : ks.lookup (limitKey ip) with
  | none =>
    rw [Keyspace.live_of_absent hx, bucketOf, hx]
    rfl
  | some h =>
    obtain ⟨b, t, rfl⟩ := ht.limit hx
    rw [Keyspace.live_eq_some.mpr ⟨hx, hlive _ hx⟩, bucketOf_eq hx]
    exact readBucket_fieldsOf b

theorem bucketOf_congr {ip : IpAddr} (h : ks'.lookup (limitKey ip) = ks.lookup (limitKey ip)) :
    bucketOf ks' ip = bucketOf ks ip := by
  rw [bucketOf, h, bucketOf]

theorem bucketOf_insert_of_ne {ip ip' : IpAddr} (hne : ip' ≠ ip) (ks : Keyspace) (x : Held) :
    bucketOf (ks.insert (limitKey ip') x) ip = bucketOf ks ip :=
  bucketOf_congr (AList.lookup_insert_ne fun heq => hne (limitKey_inj heq.symm))

theorem ms_mono {a b : Nat} (h : a ≤ b) : ms a ≤ ms b := Nat.div_le_div_right h

omit [DecidableEq ι] in
/-- **A call for the address** is a step of its own model. -/
theorem LimitMove.seen {l : Limiter} {e : LimitStep} {o : Limited} {ip : IpAddr} {e' : RateLimit.Step} (i : ι)
    (calls : IpAddr → List RateLimit.Call) (hm : LimitMove cfg now ks l e o) (ht : Typed ks)
    (hown : ownStep ip l e = some e')
    (hlive : ∀ nowMs h, e = .hmget → l = .clocked ip nowMs → ks.lookup (limitKey ip) = some h → h.isLive now = true) :
    RateLimit.act cfg i (ms now) ⟨bucketOf ks ip, calls ip⟩ (taskOf ip l) e' =
      some (⟨bucketOf o.redis ip, note o.done calls ip⟩, taskOf ip o.limiter) := by
  cases hm with
  | free ip' hoff =>
    simp only [ownStep, Option.ite_none_right_eq_some, Option.some.injEq] at hown
    obtain ⟨rfl, rfl⟩ := hown
    simp only [taskOf, RateLimit.act, hoff, if_true, note, Function.update_self]
  | clock ip' hon =>
    simp only [ownStep, Option.ite_none_right_eq_some, Option.some.injEq] at hown
    obtain ⟨rfl, rfl⟩ := hown
    simp only [taskOf, RateLimit.act, hon, if_true, note, Bool.false_eq_true, if_false]
  | fetch ip' nowMs =>
    simp only [ownStep, Option.ite_none_right_eq_some, Option.some.injEq] at hown
    obtain ⟨rfl, rfl⟩ := hown
    have hread := hmget_bucket now ht fun h hx => hlive nowMs h rfl rfl hx
    simp only [taskOf, RateLimit.act, if_true, note, hread]
  | write ip' nowMs bucket =>
    simp only [ownStep, Option.ite_none_right_eq_some, Option.some.injEq] at hown
    obtain ⟨rfl, rfl⟩ := hown
    obtain ⟨t, hput⟩ := hmset_bucket now ht ip' (RateLimit.verdict cfg bucket nowMs).2
    simp only [taskOf, RateLimit.act, if_true, note, Function.update_self, hput, bucketOf_insert]
  | expire ip' => cases hown

/-- **Nothing of another address's call shows.** -/
theorem LimitMove.unseen {l : Limiter} {e : LimitStep} {o : Limited} {ip : IpAddr}
    (calls : IpAddr → List RateLimit.Call) (hm : LimitMove cfg now ks l e o) (ht : Typed ks)
    (hown : ownStep ip l e = none) :
    bucketOf o.redis ip = bucketOf ks ip ∧ note o.done calls ip = calls ip ∧ taskOf ip o.limiter = taskOf ip l := by
  cases hm with
  | free ip' hoff =>
    have hne : ip' ≠ ip := by simpa [ownStep] using hown
    exact ⟨rfl, Function.update_of_ne (Ne.symm hne) _ _, rfl⟩
  | clock ip' hon =>
    have hne : ip' ≠ ip := by simpa [ownStep] using hown
    exact ⟨rfl, rfl, if_neg hne⟩
  | fetch ip' nowMs =>
    have hne : ip' ≠ ip := by simpa [ownStep] using hown
    simp only [taskOf, if_neg hne, note, and_self]
  | write ip' nowMs bucket =>
    have hne : ip' ≠ ip := by simpa [ownStep] using hown
    obtain ⟨t, hput⟩ := hmset_bucket now ht ip' (RateLimit.verdict cfg bucket nowMs).2
    refine ⟨?_, Function.update_of_ne (Ne.symm hne) _ _, (if_neg hne).symm⟩
    rw [hput, bucketOf_insert_of_ne hne]
  | expire ip' =>
    refine ⟨?_, rfl, rfl⟩
    rcases expireAt_bucket now ht ip' (now + bucketTtl) with heq | ⟨b, t, hx, heq⟩
    · rw [heq]
    · rw [heq]
      by_cases hip : ip' = ip
      · subst hip
        rw [bucketOf_eq hx, bucketOf_insert]
      · exact bucketOf_insert_of_ne hip ks _

theorem limit_step {e : Event ι θ} (ip : IpAddr) (hlive : Unexpired ip w e) (ht : Typed w.redis)
    (h : step cfg sha256 mc js pki w e = some w') :
    Machine.run (Cluster.step (RateLimit.act cfg)) (w.limitView ip) (limitShows ip w e) = some (w'.limitView ip) := by
  have hframe : e.owner ≠ .limit → bucketOf w'.redis ip = bucketOf w.redis ip := fun hne =>
    bucketOf_congr (lookup_of_ne ht h (by rw [owner_limitKey]; exact Ne.symm hne))
  cases e with
  | tick d =>
    cases h
    have hclock : ms w.clock + (ms (w.clock + d) - ms w.clock) = ms (w.clock + d) :=
      Nat.add_sub_cancel' (ms_mono (Nat.le_add_right _ _))
    refine Machine.run_singleton.mpr ?_
    simp only [Cluster.step_tick, World.limitView, hclock]
  | secret i e =>
    obtain ⟨o, -, rfl⟩ := Option.map_eq_some_iff.mp h
    simp only [limitShows, World.limitView, hframe nofun, Machine.run_nil]
  | limit i e =>
    obtain ⟨o, ho, rfl⟩ := Option.map_eq_some_iff.mp h
    have hmove := limitAct_move ho
    cases hown : ownStep ip (w.limiter i) e with
    | some e' =>
      have hseen := hmove.seen i w.calls ht hown fun nowMs x he hl hx => by
        subst he
        exact hlive nowMs x hl hx
      simp only [limitShows, hown, Option.toList_some, List.map_cons, List.map_nil]
      refine Machine.run_singleton.mpr (Cluster.step_on_eq_some.mpr ⟨_, _, hseen, ?_⟩)
      simp only [World.limitView, Function.comp_update]
    | none =>
      obtain ⟨hbucket, hcalls, htask⟩ := hmove.unseen w.calls ht hown
      simp only [limitShows, hown, Option.toList_none, List.map_nil, Machine.run_nil, World.limitView,
        Function.comp_update, hbucket, hcalls, htask]
      rw [show taskOf ip (w.limiter i) = (taskOf ip ∘ w.limiter) i from rfl, Function.update_eq_self]
  | embed p e =>
    obtain ⟨o, -, rfl⟩ := Option.map_eq_some_iff.mp h
    simp only [limitShows, World.limitView, hframe nofun, Machine.run_nil]
  | certs e =>
    obtain ⟨o, -, rfl⟩ := Option.map_eq_some_iff.mp h
    simp only [limitShows, World.limitView, hframe nofun, Machine.run_nil]

/-! ## Metadata -/

def World.embedView (w : World ι θ pki) : Cluster (ι × θ) (Embed.Store ι θ) Embed.Task where
  clock := w.clock
  shared := w.store
  proc := w.embed

def embedShows (_ : World ι θ pki) : Event ι θ → List (Cluster.Event (ι × θ) Embed.Step)
  | .tick d => [.tick d]
  | .embed p e => [.on p e]
  | _ => []

theorem get_until {b : Bytes} {t : Nat} (hx : ks.lookup key = some ⟨.string b, some t⟩) (now : Nat) :
    Keyspace.get now ks key = .ok (if now < t then some b else none) := by
  by_cases hnow : now < t
  · have hlive : Keyspace.live now ks key = some ⟨.string b, some t⟩ :=
      Keyspace.live_eq_some.mpr ⟨hx, decide_eq_true hnow⟩
    rw [Keyspace.get, hlive, if_pos hnow]
  · have hgone : Keyspace.live now ks key = none := by
      rw [Keyspace.live, hx]
      exact Option.filter_some_neg (by simpa [Held.isLive] using hnow)
    rw [Keyspace.get, hgone, if_neg hnow]

theorem entriesOf_eq {payload : Str} {t : Nat} (hkey : Text.startsWith key embedPrefix = true)
    (hx : ks.lookup key = some ⟨.string (Text.bytes payload), some t⟩) :
    entriesOf ks key = some { payload, written := t - Embed.cacheTtl } := by
  rw [entriesOf, if_pos hkey, hx]
  simp only [Utf8.fromUtf8_bytes, Option.map_some]

theorem entriesOf_absent (hx : ks.lookup key = none) : entriesOf ks key = none := by
  rw [entriesOf, hx]
  split <;> rfl

/-- **The GET of embed.rs**: its reply is the payload of an entry that is not
over. -/
theorem get_entry (ht : Typed ks) (hkey : Text.startsWith key embedPrefix = true) (now : Nat) :
    (Keyspace.get now ks key).toOption.join.bind Utf8.fromUtf8 =
      ((entriesOf ks key).filter fun x => now < x.written + Embed.cacheTtl).map (·.payload) := by
  cases hx : ks.lookup key with
  | none =>
    rw [Keyspace.get, Keyspace.live_of_absent hx, entriesOf_absent hx]
    simp [Except.toOption]
  | some h =>
    obtain ⟨payload, written, rfl⟩ := ht.embed (owner_of_embed hkey) hx
    rw [get_until hx, entriesOf_eq hkey hx, Nat.add_sub_cancel]
    have hfilter := Option.filter_some (p := fun x : Embed.Entry => decide (now < x.written + Embed.cacheTtl))
      (a := { payload, written })
    rw [hfilter]
    by_cases hnow : now < written + Embed.cacheTtl
    · rw [if_pos hnow, if_pos (decide_eq_true hnow)]
      exact Utf8.fromUtf8_bytes payload
    · rw [if_neg hnow, if_neg (by simpa using hnow)]
      rfl

theorem entriesOf_set (hkey : Text.startsWith key embedPrefix = true) (ks : Keyspace) (payload : Str) (written : Nat) :
    entriesOf (Keyspace.set ks key (Text.bytes payload) (some (written + Embed.cacheTtl))) =
      Function.update (entriesOf ks) key (some { payload, written }) := by
  funext k
  by_cases hk : k = key
  · subst hk
    rw [Keyspace.set, entriesOf_eq hkey (AList.lookup_insert ks), Nat.add_sub_cancel, Function.update_self]
  · rw [entriesOf, Keyspace.set, AList.lookup_insert_ne hk, Function.update_of_ne hk, entriesOf]

omit [DecidableEq θ] in
theorem localGet_redis (p : ι × θ) (now : Nat) (st : Embed.Store ι θ) (key : Str) :
    (Embed.localGet p now st key).1.redis = st.redis := by
  unfold Embed.localGet
  simp only []
  split
  · split <;> rfl
  · rfl

theorem release_redis (p : ι × θ) (st : Embed.Store ι θ) (key : Str) : (Embed.release p st key).redis = st.redis := by
  unfold Embed.release
  simp only []
  split <;> rfl

/-- What a step of `load` does to Redis. -/
theorem act_redis {p : ι × θ} {st st' : Embed.Store ι θ} {t t' : Embed.Task} {e : Embed.Step}
    (h : Embed.act sha256 mc p now st t e = some (st', t')) :
    st'.redis = (setting t e).elim st.redis fun x => (Embed.redisSet mc now st (x.1.key sha256) x.2).redis := by
  cases t <;> cases e <;> simp only [Embed.act, reduceCtorEq, Option.some.injEq, Prod.mk.injEq] at h
  case idle.load host path upstream fetchOnMiss =>
    have hget := localGet_redis p now st ((Embed.Call.ofArgs host path upstream fetchOnMiss).key sha256)
    split at h
    · next heq =>
      cases h
      rwa [heq] at hget
    · next heq =>
      cases h
      rwa [heq] at hget
  case missed.get c locked ok =>
    split at h <;> cases h <;> rfl
  case resolving.resolve c =>
    split at h <;> cases h <;> rfl
  case queued.lock c =>
    split at h
    · cases h
      rfl
    · cases h
  case entered.look c =>
    have hget := localGet_redis p now st (c.key sha256)
    split at h
    · next heq =>
      cases h
      rw [heq] at hget
      exact (release_redis _ _ _).trans hget
    · next heq =>
      cases h
      rwa [heq] at hget
  case fetching.fetched c o =>
    cases o <;> simp only [Option.some.injEq, Prod.mk.injEq] at h <;> obtain ⟨rfl, -⟩ := h
    · exact release_redis _ _ _
    · rfl
  case got.put c copy =>
    obtain ⟨rfl, -⟩ := h
    rfl
  case writing.set c copy ok =>
    obtain ⟨rfl, -⟩ := h
    cases ok
    · exact release_redis _ _ _
    · exact release_redis _ _ _
  case resolving.cancel c =>
    obtain ⟨rfl, -⟩ := h
    rfl
  case queued.cancel c =>
    obtain ⟨rfl, -⟩ := h
    rfl
  all_goals
    obtain ⟨rfl, -⟩ := h
    exact release_redis _ _ _

theorem act_redis_eq {p : ι × θ} {st' : Embed.Store ι θ} {t' : Embed.Task} {e : Embed.Step}
    (h : Embed.act sha256 mc p w.clock w.store (w.embed p) e = some (st', t')) :
    st'.redis = entriesOf (embedWrite sha256 mc w.clock w.redis (w.embed p) e) := by
  rw [act_redis h]
  unfold embedWrite
  cases setting (w.embed p) e with
  | none => rfl
  | some x =>
    obtain ⟨c, copy⟩ := x
    simp only [Option.elim_some]
    unfold Embed.redisSet
    cases mc.toString (Embed.CachedMeta.ofMeta copy) with
    | none => rfl
    | some payload => exact (entriesOf_set (startsWith_cacheKey sha256 c.host c.path) w.redis payload w.clock).symm

theorem entriesOf_congr (h : ∀ key, owner key = .embed → ks'.lookup key = ks.lookup key) :
    entriesOf ks' = entriesOf ks := by
  funext key
  unfold entriesOf
  split
  · next hkey => rw [h key (owner_of_embed hkey)]
  · rfl

theorem embed_step {e : Event ι θ} (ht : Typed w.redis) (h : step cfg sha256 mc js pki w e = some w') :
    Machine.run (Cluster.step (Embed.act sha256 mc)) w.embedView (embedShows w e) = some w'.embedView := by
  have hframe : e.owner ≠ .embed → entriesOf w'.redis = entriesOf w.redis := fun hne =>
    entriesOf_congr fun key hkey => lookup_of_ne ht h (by rw [hkey]; exact Ne.symm hne)
  cases e with
  | tick d =>
    cases h
    rfl
  | secret i e =>
    obtain ⟨o, -, rfl⟩ := Option.map_eq_some_iff.mp h
    simp only [embedShows, World.embedView, World.store, hframe nofun, Machine.run_nil]
  | limit i e =>
    obtain ⟨o, -, rfl⟩ := Option.map_eq_some_iff.mp h
    simp only [embedShows, World.embedView, World.store, hframe nofun, Machine.run_nil]
  | embed p e =>
    obtain ⟨o, ho, rfl⟩ := Option.map_eq_some_iff.mp h
    refine Machine.run_singleton.mpr (Cluster.step_on_eq_some.mpr ⟨_, _, ho, ?_⟩)
    simp only [World.embedView, World.store, ← act_redis_eq ho]
  | certs e =>
    obtain ⟨o, -, rfl⟩ := Option.map_eq_some_iff.mp h
    simp only [embedShows, World.embedView, World.store, hframe nofun, Machine.run_nil]

/-! ## Certificates -/

def World.certsView (w : World ι θ pki) : CertSync.Joint pki := w.certs.on (certsOf w.redis)

def certsShows (_ : World ι θ pki) : Event ι θ → List CertSync.Event
  | .certs e => [e]
  | _ => []

/-- GET answers a certificate for as long as it is there. -/
theorem under_stringsOf (ht : Typed ks) (now : Nat) : CertSync.under (stringsOf now ks) = certsOf ks := by
  rw [CertSync.under, stringsOf, pick_pick, certsOf]
  refine pick_congr fun key h hx => ?_
  unfold certOf
  cases hkey : Text.startsWith key certPrefix with
  | false => cases stringOf now h <;> rfl
  | true =>
    obtain ⟨b, rfl⟩ := ht.cert (owner_of_cert hkey) hx
    rfl

theorem certOf_eq_none (hkey : owner key ≠ .cert) (h : Held) : certOf key h = none :=
  if_neg fun hcert => hkey (owner_of_cert hcert)

theorem Puts.certsOf_eq (hp : Puts ks key ks') (hkey : owner key ≠ .cert) : certsOf ks' = certsOf ks := by
  rcases hp with rfl | ⟨h, rfl, -⟩
  · rfl
  · exact pick_insert_of_never (certOf_eq_none hkey) ks h

theorem certsOf_set (ks : Keyspace) (d : Str) (b : Bytes) :
    certsOf (Keyspace.set ks (certKey d) b none) = (certsOf ks).insert (certKey d) b := by
  have hcert : certOf (certKey d) ⟨.string b, none⟩ = some b := if_pos (CertSync.startsWith_certKey d)
  rw [certsOf, Keyspace.set, pick_insert, hcert]
  rfl

theorem certWrite_of_ne {t : Certd.Task} {e : CertSync.Event} (he : e ≠ .certd (.set true)) :
    certWrite js ks t e = ks := by
  unfold certWrite
  split
  · exact absurd rfl he
  · rfl

/-- The certificates after a step are those the step left. -/
theorem certsOf_write {c : Certs pki} {e : CertSync.Event} {s : CertSync.Joint pki} (ht : Typed ks)
    (h : CertSync.step js pki (c.on (stringsOf now ks)) e = some s) :
    CertSync.under s.certd.redis = certsOf (certWrite js ks c.task e) := by
  rcases CertSync.step_redis h with ⟨he, hredis⟩ | ⟨pass, d, cert, todo, hstoring, rfl, hredis⟩
  · rw [hredis, certWrite_of_ne he]
    exact under_stringsOf ht now
  · have htask : c.task = .storing pass d cert todo := hstoring
    rw [hredis, htask, ← CertSync.storeCert_under]
    show Certd.storeCert js (CertSync.under (stringsOf now ks)) d cert = certsOf (Keyspace.set ks (certKey d) _ none)
    rw [under_stringsOf ht, certsOf_set]
    rfl

theorem certs_step {e : Event ι θ} (ht : Typed w.redis) (h : step cfg sha256 mc js pki w e = some w') :
    Machine.run (CertSync.step js pki) w.certsView (certsShows w e) = some w'.certsView := by
  have hframe : e.owner ≠ .cert → certsOf w'.redis = certsOf w.redis := fun hne => by
    rcases step_puts ht h with heq | ⟨key, hkey, hp⟩
    · rw [heq]
    · exact hp.certsOf_eq (hkey ▸ hne)
  cases e with
  | tick d =>
    cases h
    rfl
  | secret i e =>
    obtain ⟨o, -, rfl⟩ := Option.map_eq_some_iff.mp h
    simp only [certsShows, World.certsView, hframe nofun, Machine.run_nil]
  | limit i e =>
    obtain ⟨o, -, rfl⟩ := Option.map_eq_some_iff.mp h
    simp only [certsShows, World.certsView, hframe nofun, Machine.run_nil]
  | embed p e =>
    obtain ⟨o, -, rfl⟩ := Option.map_eq_some_iff.mp h
    simp only [certsShows, World.certsView, hframe nofun, Machine.run_nil]
  | certs e =>
    obtain ⟨s, hs, rfl⟩ := Option.map_eq_some_iff.mp h
    have hbefore : CertSync.underAll (w.certs.on (stringsOf w.clock w.redis)) = w.certsView := by
      rw [World.certsView, ← under_stringsOf ht w.clock]
      rfl
    have hafter : CertSync.underAll s = (Certs.of s).on (certsOf (certWrite js w.redis w.certs.task e)) := by
      rw [← certsOf_write ht hs]
      rfl
    have hseen := CertSync.step_under hs
    rw [hbefore, hafter] at hseen
    exact Machine.run_singleton.mpr hseen

/-! ## Runs -/

/-- Every command finds the kind of value it is for, and a GET answers what
`load`, certd and the proxy are given. -/
structure Answered (ks : Keyspace) : Prop where
  get : ∀ now key, owner key ≠ .limit → owner key ≠ .other → ∃ v, Keyspace.get now ks key = .ok v
  hmget : ∀ now ip names, ∃ vs, Keyspace.hmget now ks (limitKey ip) names = .ok vs
  hmset : ∀ now ip fields, ∃ ks', Keyspace.hmset now ks (limitKey ip) fields = .ok ks'
  entry : ∀ now sha256 (c : Embed.Call), (Keyspace.get now ks (c.key sha256)).toOption.join.bind Utf8.fromUtf8 =
    ((entriesOf ks (c.key sha256)).filter fun x => now < x.written + Embed.cacheTtl).map (·.payload)
  cert : ∀ now d, Keyspace.get now ks (certKey d) = .ok ((stringsOf now ks).lookup (certKey d))

theorem get_of_string (h : ∀ x, ks.lookup key = some x → ∃ b t, x = ⟨.string b, t⟩) (now : Nat) :
    ∃ v, Keyspace.get now ks key = .ok v := by
  unfold Keyspace.get
  cases hlive : Keyspace.live now ks key with
  | none => exact ⟨none, rfl⟩
  | some x =>
    obtain ⟨b, t, rfl⟩ := h x (Keyspace.live_eq_some.mp hlive).1
    exact ⟨some b, rfl⟩

theorem get_certKey (ht : Typed ks) (now : Nat) (d : Str) :
    Keyspace.get now ks (certKey d) = .ok ((stringsOf now ks).lookup (certKey d)) := by
  rw [stringsOf, lookup_pick]
  cases hx : ks.lookup (certKey d) with
  | none =>
    rw [Keyspace.get, Keyspace.live_of_absent hx]
    rfl
  | some h =>
    obtain ⟨b, rfl⟩ := ht.cert (owner_certKey d) hx
    rw [Keyspace.get, Keyspace.live_of_stays hx]
    rfl

theorem Typed.answered (ht : Typed ks) : Answered ks where
  get now key hlimit hother := by
    refine get_of_string (fun x hx => ?_) now
    have hb := ht key x hx
    unfold Belongs at hb
    split at hb
    · obtain ⟨b, rfl⟩ := hb
      exact ⟨b, none, rfl⟩
    · next h => exact absurd h hlimit
    · obtain ⟨payload, written, rfl⟩ := hb
      exact ⟨_, _, rfl⟩
    · obtain ⟨b, rfl⟩ := hb
      exact ⟨b, none, rfl⟩
    · next h => exact absurd h hother
  hmget now ip names := by
    unfold Keyspace.hmget
    cases hlive : Keyspace.live now ks (limitKey ip) with
    | none => exact ⟨_, rfl⟩
    | some x =>
      obtain ⟨b, t, rfl⟩ := ht.limit (Keyspace.live_eq_some.mp hlive).1
      exact ⟨_, rfl⟩
  hmset now ip fields := by
    unfold Keyspace.hmset
    cases hlive : Keyspace.live now ks (limitKey ip) with
    | none => exact ⟨_, rfl⟩
    | some x =>
      obtain ⟨b, t, rfl⟩ := ht.limit (Keyspace.live_eq_some.mp hlive).1
      exact ⟨_, rfl⟩
  entry now sha256 c := get_entry ht (startsWith_cacheKey sha256 c.host c.path) now
  cert now d := get_certKey ht now d

variable {seed : Seed} {domains : List Str} {clock : Nat} {certdClock : Int} {es : List (Event ι θ)}

omit [DecidableEq ι] [DecidableEq θ] in
theorem start_limitView (ip : IpAddr) :
    (start js pki ι θ seed domains clock certdClock).limitView ip = RateLimit.start ι (ms clock) := by
  have hfresh : bucketOf seed.redis ip = none := by
    rw [bucketOf, seed.fresh (limitKey ip) (.inl (owner_limitKey ip))]
  unfold World.limitView
  simp only [start, hfresh]
  rfl

omit [DecidableEq ι] [DecidableEq θ] in
theorem start_embedView : (start js pki ι θ seed domains clock certdClock).embedView = Embed.start clock := by
  have hfresh : entriesOf seed.redis = fun _ => none := funext fun key => by
    unfold entriesOf
    split
    · next hkey => rw [seed.fresh key (.inr (owner_of_embed hkey))]
    · rfl
  unfold World.embedView World.store
  simp only [start, hfresh]
  rfl

/-- **One Redis is as good as one for each.** In every run of all of them over
one keyspace every command finds the kind of value it is for; and the
replicas' starts, each address's calls of `allow` (while no HMGET finds its key
expired), the `load` tasks, and certd with its proxy, each go through a run of
their own model, of exactly their own steps. -/
theorem one_redis_for_all
    (hrun : Machine.run (step cfg sha256 mc js pki) (start js pki ι θ seed domains clock certdClock) es = some w) :
    Answered w.redis ∧
    Machine.run (Cluster.step Secret.act) (Secret.start ι clock (secretOf seed.redis))
        (Machine.shown (step cfg sha256 mc js pki) secretShows (start js pki ι θ seed domains clock certdClock) es) =
      some w.secretView ∧
    (∀ ip, Machine.Along (step cfg sha256 mc js pki) (Unexpired ip)
        (start js pki ι θ seed domains clock certdClock) es →
      Machine.run (Cluster.step (RateLimit.act cfg)) (RateLimit.start ι (ms clock))
          (Machine.shown (step cfg sha256 mc js pki) (limitShows ip)
            (start js pki ι θ seed domains clock certdClock) es) = some (w.limitView ip)) ∧
    Machine.run (Cluster.step (Embed.act sha256 mc)) (Embed.start clock)
        (Machine.shown (step cfg sha256 mc js pki) embedShows (start js pki ι θ seed domains clock certdClock) es) =
      some w.embedView ∧
    Machine.run (CertSync.step js pki) (CertSync.start js pki domains (certsOf seed.redis) certdClock)
        (Machine.shown (step cfg sha256 mc js pki) certsShows (start js pki ι θ seed domains clock certdClock) es) =
      some w.certsView := by
  have hinv (u : World ι θ pki) (e : Event ι θ) (v : World ι θ pki) (ht : Typed u.redis)
      (h : step cfg sha256 mc js pki u e = some v) : Typed v.redis := step_typed ht h
  have hseed : Typed (start js pki ι θ seed domains clock certdClock).redis := seed.typed
  have htyped : Typed w.redis := Machine.run_invariant (I := fun u => Typed u.redis) hinv hseed hrun
  have hfree : Machine.Along (step cfg sha256 mc js pki) (fun _ _ => True)
      (start js pki ι θ seed domains clock certdClock) es := Machine.along_of_forall fun _ _ _ => trivial
  refine ⟨htyped.answered, ?_, fun ip hlive => ?_, ?_, ?_⟩
  · exact Machine.run_shown (I := fun u => Typed u.redis) hinv (fun _ _ _ _ ht h => secret_step ht h) hfree hseed hrun
  · rw [← start_limitView ip]
    exact Machine.run_shown (I := fun u => Typed u.redis) hinv (fun _ _ _ hl ht h => limit_step ip hl ht h) hlive hseed
      hrun
  · rw [← start_embedView]
    exact Machine.run_shown (I := fun u => Typed u.redis) hinv (fun _ _ _ _ ht h => embed_step ht h) hfree hseed hrun
  · exact Machine.run_shown (I := fun u => Typed u.redis) hinv (fun _ _ _ _ ht h => certs_step ht h) hfree hseed hrun

end World

/-! ## A run of all of them -/

/-- Nothing is in Redis yet. -/
def emptySeed : Seed where
  redis := ∅
  typed := fun key h hx => by
    rw [AList.lookup_empty] at hx
    cases hx
  fresh := fun key _ => AList.lookup_empty key

/-- Two replicas agree on a secret, certd stores a certificate that the proxy
loads, and a page is cached, while one call of `allow` goes through. -/
def everyone : List (Event Bool Unit) :=
  [.secret false .get, .secret true .get, .secret true (.setNx (Vector.replicate 32 1))] ++
    CertSync.storeFirst.map .certs ++ [.secret false (.setNx (Vector.replicate 32 2)), .limit false .hmset, .tick 1] ++
    [Embed.Step.load "a.example".toList "/".toList "http://origin".toList true, .get true, .resolve, .lock, .look,
      .get true, .fetched (some Embed.bare), .put, .set true].map (.embed (true, ())) ++
    [CertSync.Event.keys true, .get true, .install].map .certs ++
    [.secret false .reread, .limit false .expire, .secret true .reread]

def caller : IpAddr := .v4 192 0 2 1

def sampleWorld : World Bool Unit Sample.pki :=
  start CertSync.certJson Sample.pki Bool Unit emptySeed [Certd.exampleCom] 0 0

theorem unexpired_of_ne {ι θ : Type} {ip : IpAddr} {w : World ι θ pki} {e : Event ι θ}
    (h : ∀ i, e ≠ .limit i .hmget) : Unexpired ip w e := by
  unfold Unexpired
  split
  · exact absurd rfl (h _)
  · trivial

theorem everyone_unexpired : Machine.Along
    (step RateLimit.oneToken Sample.sha256 Embed.bareCrate CertSync.certJson Sample.pki) (Unexpired caller) sampleWorld
    (.limit false (.call caller) :: .limit false .hmget :: everyone) := by
  refine ⟨trivial, fun s hs => ⟨fun nowMs h _ hx => ?_, fun t _ => ?_⟩⟩
  · cases hs
    cases (AList.lookup_empty (limitKey caller)).symm.trans hx
  · refine Machine.along_of_forall fun e he s => unexpired_of_ne fun i hi => ?_
    subst hi
    simp [everyone, CertSync.storeFirst] at he

theorem one_redis_for_everyone : ∃ w,
    Machine.run (step RateLimit.oneToken Sample.sha256 Embed.bareCrate CertSync.certJson Sample.pki) sampleWorld
      (.limit false (.call caller) :: .limit false .hmget :: everyone) = some w ∧
    Answered w.redis ∧
    Machine.run (Cluster.step Secret.act) (Secret.start Bool 0 none)
      (Machine.shown (step RateLimit.oneToken Sample.sha256 Embed.bareCrate CertSync.certJson Sample.pki) secretShows
        sampleWorld (.limit false (.call caller) :: .limit false .hmget :: everyone)) = some w.secretView ∧
    Machine.run (Cluster.step (RateLimit.act RateLimit.oneToken)) (RateLimit.start Bool 0)
      (Machine.shown (step RateLimit.oneToken Sample.sha256 Embed.bareCrate CertSync.certJson Sample.pki)
        (limitShows caller) sampleWorld (.limit false (.call caller) :: .limit false .hmget :: everyone)) =
      some (w.limitView caller) := by
  obtain ⟨w, hw⟩ := Option.isSome_iff_exists.mp
    (show (Machine.run (step RateLimit.oneToken Sample.sha256 Embed.bareCrate CertSync.certJson Sample.pki) sampleWorld
      (.limit false (.call caller) :: .limit false .hmget :: everyone)).isSome = true by decide +kernel)
  obtain ⟨hanswered, hsecret, hlimit, -, -⟩ := one_redis_for_all hw
  exact ⟨w, hw, hanswered, hsecret, hlimit caller everyone_unexpired⟩

end NekoGuard.SharedRedis
