/-
session.rs: cookies sealed with AES-256-GCM and checked on the way back in.
The crates the sealing rests on are parameters (`SealingCrates`); what the
proofs need of them is that opening undoes sealing and decoding undoes
encoding (`SealingCrates.Lawful`).
-/
import NekoGuard.Std.IpAddrFacts

namespace NekoGuard

/-- What `SystemTime::now()` (in seconds since the epoch) and
`Instant::now()` (in nanoseconds) answer. -/
structure Clock where
  unixSecs : Nat
  instant : Nat
deriving DecidableEq, Repr

/-- `SECRET_LEN` and `NONCE_LEN`. -/
def secretLen : Nat := 32
def nonceLen : Nat := 12

abbrev SecretKey := Vector UInt8 secretLen
abbrev Nonce := Vector UInt8 nonceLen

structure SessionPayload where
  ip : Str
  exp : Nat
deriving DecidableEq, Repr

/-- `aes-gcm`, `base64` (URL-safe, unpadded) and `serde_json`. -/
structure SealingCrates where
  encrypt : SecretKey → Nonce → Bytes → Bytes
  decrypt : SecretKey → Nonce → Bytes → Option Bytes
  encode : Bytes → Str
  decode : Str → Option Bytes
  toVec : SessionPayload → Bytes
  fromSlice : Bytes → Option SessionPayload

/-- What sealing and opening a cookie relies on. A ciphertext carries its
16-byte tag. -/
structure SealingCrates.Lawful (cr : SealingCrates) : Prop where
  decrypt_encrypt : ∀ k n p, cr.decrypt k n (cr.encrypt k n p) = some p
  length_encrypt : ∀ k n p, (cr.encrypt k n p).length = p.length + 16
  decode_encode : ∀ b, cr.decode (cr.encode b) = some b
  fromSlice_toVec : ∀ p, p.exp < 2 ^ 64 → cr.fromSlice (cr.toVec p) = some p

inductive SessionError where
  | missing
  | malformed
  | invalidSignature
  | expired
  | ipMismatch
deriving DecidableEq, Repr

structure Session where
  ip : IpAddr
  expiry : Nat
  cookie : Str
deriving DecidableEq, Repr

structure SessionManager where
  key : SecretKey
  cookieName : Str
  ttl : Nat

/-- `Instant + Duration`: an instant holds its seconds in an `i64`. -/
def instantAdd (instant secs : Nat) : Rust Nat :=
  let sum := instant + 10 ^ 9 * secs
  if sum < 2 ^ 63 * 10 ^ 9 then .ok sum
  else .error ⟨"overflow when adding duration to instant"⟩

theorem instantAdd_ok {instant secs : Nat} :
    (∃ t, instantAdd instant secs = .ok t) ↔ instant + 10 ^ 9 * secs < 2 ^ 63 * 10 ^ 9 := by
  by_cases h : instant + 10 ^ 9 * secs < 2 ^ 63 * 10 ^ 9
  · exact ⟨fun _ => h, fun _ => ⟨_, if_pos h⟩⟩
  · have herr : instantAdd instant secs = .error _ := if_neg h
    refine ⟨fun ht => ?_, fun h' => absurd h' h⟩
    obtain ⟨t, ht⟩ := ht
    rw [herr] at ht
    cases ht

/-- The first twelve bytes of a blob, and the ciphertext after them. -/
def splitNonce (blob : Bytes) : Option (Nonce × Bytes) :=
  if h : nonceLen < blob.length then
    some (⟨(blob.take nonceLen).toArray, by simp; omega⟩, blob.drop nonceLen)
  else none

theorem splitNonce_append (nonce : Nonce) {c : Bytes} (h : 0 < c.length) :
    splitNonce (nonce.toList ++ c) = some (nonce, c) := by
  have hlen : nonce.toList.length = nonceLen := by simp
  have hlt : nonceLen < (nonce.toList ++ c).length := by
    rw [List.length_append, hlen]
    omega
  unfold splitNonce
  rw [dif_pos hlt]
  simp only [List.take_left' hlen, List.drop_left' hlen, Option.some.injEq, Prod.mk.injEq, and_true]
  exact Vector.toArray_inj.mp (Vector.toArray_toList)

namespace SessionManager

variable (cr : SealingCrates)

/-- The expiry is a `u64`; the release profile wraps. -/
def createCookie (sm : SessionManager) (ip : IpAddr) (now : Clock) (nonce : Nonce) : Str :=
  let exp := (now.unixSecs + sm.ttl) % 2 ^ 64
  let plaintext := cr.toVec { ip := ip.display, exp }
  cr.encode (nonce.toList ++ cr.encrypt sm.key nonce plaintext)

/-- The address and the expiry sealed in a cookie value. -/
def openCookie (sm : SessionManager) (cookie : Str) : Except SessionError (IpAddr × Nat) :=
  match cr.decode cookie with
  | none => .error .malformed
  | some blob =>
    match splitNonce blob with
    | none => .error .malformed
    | some (nonce, ciphertext) =>
      match cr.decrypt sm.key nonce ciphertext with
      | none => .error .invalidSignature
      | some plaintext =>
        match cr.fromSlice plaintext with
        | none => .error .malformed
        | some payload =>
          match IpAddr.parse payload.ip with
          | none => .error .malformed
          | some ip => .ok (ip, payload.exp)

/-- A panic only comes from `Instant::now() + self.ttl`. -/
def verifyCookie (sm : SessionManager) (cookie : Str) (peerIp : IpAddr) (now : Clock) :
    Rust (Except SessionError Session) :=
  match sm.openCookie cr cookie with
  | .error e => .ok (.error e)
  | .ok (ip, exp) =>
    if ip ≠ peerIp then .ok (.error .ipMismatch)
    else if exp < now.unixSecs then .ok (.error .expired)
    else
      match instantAdd now.instant sm.ttl with
      | .error p => .error p
      | .ok expiry => .ok (.ok { ip, expiry, cookie })

/-- The cookie is accepted. -/
def Accepts (sm : SessionManager) (cookie : Str) (peerIp : IpAddr) (now : Clock) : Prop :=
  ∃ s, sm.verifyCookie cr cookie peerIp now = .ok (.ok s)

/-! ## What a cookie admits -/

variable {cr} {sm : SessionManager} {cookie : Str}

/-- **What `verify_cookie` accepts**: a cookie sealed for this address that
has not expired, while the process clock can hold its lifetime. -/
theorem accepts_iff {peerIp : IpAddr} {now : Clock} :
    sm.Accepts cr cookie peerIp now ↔
      (∃ exp, sm.openCookie cr cookie = .ok (peerIp, exp) ∧ now.unixSecs ≤ exp) ∧
        now.instant + 10 ^ 9 * sm.ttl < 2 ^ 63 * 10 ^ 9 := by
  unfold Accepts verifyCookie
  cases hu : sm.openCookie cr cookie with
  | error e => simp
  | ok p =>
    obtain ⟨ip, exp⟩ := p
    simp only [Except.ok.injEq, Prod.mk.injEq, ← instantAdd_ok]
    by_cases hip : ip = peerIp
    · by_cases hexp : exp < now.unixSecs
      · have hle : ¬now.unixSecs ≤ exp := by omega
        simp [hip, hexp, hle]
      · have hle : now.unixSecs ≤ exp := by omega
        cases hadd : instantAdd now.instant sm.ttl <;> simp [hip, hexp, hle]
    · simp [hip]

/-- A cookie is accepted from one address at most. -/
theorem Accepts.ip_unique {a b : IpAddr} {s t : Clock} (ha : sm.Accepts cr cookie a s)
    (hb : sm.Accepts cr cookie b t) : a = b := by
  obtain ⟨⟨e, he, -⟩, -⟩ := accepts_iff.mp ha
  obtain ⟨⟨f, hf, -⟩, -⟩ := accepts_iff.mp hb
  rw [he] at hf
  simp only [Except.ok.injEq, Prod.mk.injEq] at hf
  exact hf.1

/-- **A sealed cookie opens to what was sealed.** -/
theorem openCookie_createCookie (hcr : cr.Lawful) (sm : SessionManager) (ip : IpAddr)
    (now : Clock) (nonce : Nonce) :
    sm.openCookie cr (sm.createCookie cr ip now nonce) =
      .ok (ip, (now.unixSecs + sm.ttl) % 2 ^ 64) := by
  have hsplit := splitNonce_append nonce
    (c := cr.encrypt sm.key nonce (cr.toVec ⟨ip.display, (now.unixSecs + sm.ttl) % 2 ^ 64⟩))
    (by rw [hcr.length_encrypt]; omega)
  unfold openCookie createCookie
  simp only [hcr.decode_encode, hsplit, hcr.decrypt_encrypt]
  rw [hcr.fromSlice_toVec _ (Nat.mod_lt _ (by omega))]
  simp [IpAddr.parse_display]

theorem accepts_createCookie (hcr : cr.Lawful) {ip peerIp : IpAddr} {sealedAt now : Clock}
    {nonce : Nonce} :
    sm.Accepts cr (sm.createCookie cr ip sealedAt nonce) peerIp now ↔
      ip = peerIp ∧ now.unixSecs ≤ (sealedAt.unixSecs + sm.ttl) % 2 ^ 64 ∧
        now.instant + 10 ^ 9 * sm.ttl < 2 ^ 63 * 10 ^ 9 := by
  rw [accepts_iff, openCookie_createCookie hcr]
  simp only [Except.ok.injEq, Prod.mk.injEq]
  constructor
  · intro ⟨⟨exp, ⟨hip, hexp⟩, hle⟩, hinst⟩
    subst hexp
    exact ⟨hip, hle, hinst⟩
  · intro ⟨hip, hle, hinst⟩
    exact ⟨⟨_, ⟨hip, rfl⟩, hle⟩, hinst⟩

end SessionManager

end NekoGuard
