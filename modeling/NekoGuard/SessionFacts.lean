/-
What `verify_cookie` makes of a cookie that was sealed and of a string that
was not (`verifyCookie_spec`), and the lifetimes whose sums the two clocks
can hold (`no_overflow_iff`).
-/
import NekoGuard.Samples

namespace NekoGuard.SessionManager

variable {cr : SealingCrates} {sm : SessionManager} {cookie : Str}

/-! ## Opening -/

/-- The string decodes to a nonce and a ciphertext, which opens under the
manager's key to the payload. -/
def Holds (cr : SealingCrates) (sm : SessionManager) (cookie : Str) (payload : SessionPayload) : Prop :=
  ∃ (nonce : Nonce) (ciphertext plaintext : Bytes), cr.decode cookie = some (nonce.toList ++ ciphertext) ∧
    cr.decrypt sm.key nonce ciphertext = some plaintext ∧ cr.fromSlice plaintext = some payload

theorem append_of_splitNonce {blob ciphertext : Bytes} {nonce : Nonce}
    (h : splitNonce blob = some (nonce, ciphertext)) : blob = nonce.toList ++ ciphertext := by
  unfold splitNonce at h
  split at h
  · cases h
    exact (List.take_append_drop nonceLen blob).symm
  · cases h

theorem holds_of_openCookie {ip : IpAddr} {exp : Nat} (h : sm.openCookie cr cookie = .ok (ip, exp)) :
    ∃ payload, Holds cr sm cookie payload ∧ IpAddr.parse payload.ip = some ip ∧ payload.exp = exp := by
  unfold openCookie at h
  split at h
  · cases h
  · next blob hblob =>
    split at h
    · cases h
    · next nonce ciphertext hsplit =>
      split at h
      · cases h
      · next plaintext hplain =>
        split at h
        · cases h
        · next payload hpayload =>
          split at h
          · cases h
          · next ip hip =>
            cases h
            rw [append_of_splitNonce hsplit] at hblob
            exact ⟨payload, ⟨nonce, ciphertext, plaintext, hblob, hplain, hpayload⟩, hip, rfl⟩

/-! ## Sealed cookies -/

theorem verifyCookie_of_openCookie {ip peerIp : IpAddr} {exp : Nat} {now : Clock}
    (h : sm.openCookie cr cookie = .ok (ip, exp)) :
    sm.verifyCookie cr cookie peerIp now =
      if ip ≠ peerIp then .ok (.error .ipMismatch)
      else if exp < now.unixSecs then .ok (.error .expired)
      else (instantAdd now.instant sm.ttl).map fun expiry => .ok { ip, expiry, cookie } := by
  unfold verifyCookie
  rw [h]
  simp only []
  cases instantAdd now.instant sm.ttl <;> rfl

theorem openCookie_of_lt (hcr : cr.Lawful) (sm : SessionManager) (ip : IpAddr) {sealedAt : Clock} (nonce : Nonce)
    (hexp : sealedAt.unixSecs + sm.ttl < 2 ^ 64) :
    sm.openCookie cr (sm.createCookie cr ip sealedAt nonce) = .ok (ip, sealedAt.unixSecs + sm.ttl) := by
  rw [openCookie_createCookie hcr, Nat.mod_eq_of_lt hexp]

/-- **What `verify_cookie` answers.** A sealed cookie is accepted from the
address it was sealed for until its last second, and a mismatch of the
address comes before its expiry; and whatever is accepted opens under the
manager's key to a payload for that address that has not expired. -/
theorem verifyCookie_spec (cr : SealingCrates) (sm : SessionManager) :
    (cr.Lawful → ∀ (ip peerIp : IpAddr) (sealedAt now : Clock) (nonce : Nonce),
      sealedAt.unixSecs + sm.ttl < 2 ^ 64 → now.instant + 10 ^ 9 * sm.ttl < 2 ^ 63 * 10 ^ 9 →
        (sm.Accepts cr (sm.createCookie cr ip sealedAt nonce) peerIp now ↔
          peerIp = ip ∧ now.unixSecs ≤ sealedAt.unixSecs + sm.ttl) ∧
        (peerIp ≠ ip → sm.verifyCookie cr (sm.createCookie cr ip sealedAt nonce) peerIp now =
          .ok (.error .ipMismatch)) ∧
        (peerIp = ip → sealedAt.unixSecs + sm.ttl < now.unixSecs →
          sm.verifyCookie cr (sm.createCookie cr ip sealedAt nonce) peerIp now = .ok (.error .expired))) ∧
    ∀ (cookie : Str) (peerIp : IpAddr) (now : Clock), sm.Accepts cr cookie peerIp now →
      ∃ payload, Holds cr sm cookie payload ∧ IpAddr.parse payload.ip = some peerIp ∧
        now.unixSecs ≤ payload.exp := by
  constructor
  · intro hcr ip peerIp sealedAt now nonce hexp hinst
    have hopen := openCookie_of_lt hcr sm ip nonce hexp
    refine ⟨?_, fun hne => ?_, fun heq hlt => ?_⟩
    · rw [accepts_createCookie hcr, Nat.mod_eq_of_lt hexp]
      exact ⟨fun h => ⟨h.1.symm, h.2.1⟩, fun h => ⟨h.1.symm, h.2, hinst⟩⟩
    · rw [verifyCookie_of_openCookie hopen, if_pos (Ne.symm hne)]
    · rw [verifyCookie_of_openCookie hopen, if_neg (by simp [heq]), if_pos hlt]
  · intro cookie peerIp now haccepts
    obtain ⟨⟨exp, hopen, hle⟩, -⟩ := accepts_iff.mp haccepts
    obtain ⟨payload, hholds, hip, rfl⟩ := holds_of_openCookie hopen
    exact ⟨payload, hholds, hip, hle⟩

def docAddress : IpAddr := .v6 0x2001 0xdb8 0 0 0 0 0 1

/-- In its last second. -/
theorem docAddress_accepted : Sample.manager.Accepts Sample.crates
    (Sample.manager.createCookie Sample.crates docAddress ⟨100, 0⟩ (Vector.replicate 12 0)) docAddress ⟨1900, 5⟩ := by
  have hsealed := (verifyCookie_spec Sample.crates Sample.manager).1 Sample.crates_lawful docAddress docAddress
    ⟨100, 0⟩ ⟨1900, 5⟩ (Vector.replicate 12 0) (by decide) (by decide)
  exact hsealed.1.mpr ⟨rfl, by decide⟩

/-! ## Overflow -/

/-- At that moment sealing a cookie computes its expiry exactly, and
verifying one does not panic. -/
structure NoOverflow (cr : SealingCrates) (sm : SessionManager) (now : Clock) : Prop where
  seals : ∀ ip nonce, sm.openCookie cr (sm.createCookie cr ip now nonce) = .ok (ip, now.unixSecs + sm.ttl)
  verifies : ∀ cookie peerIp, ∃ answer, sm.verifyCookie cr cookie peerIp now = .ok answer

/-- **When neither sum overflows.** -/
theorem no_overflow_iff (hcr : cr.Lawful) (sm : SessionManager) (now : Clock) :
    NoOverflow cr sm now ↔
      now.unixSecs + sm.ttl < 2 ^ 64 ∧ now.instant + 10 ^ 9 * sm.ttl < 2 ^ 63 * 10 ^ 9 := by
  constructor
  · intro h
    -- A cookie sealed right now for some address is good for it.
    have hopen := h.seals (.v4 0 0 0 0) (Vector.replicate nonceLen 0)
    constructor
    · rw [openCookie_createCookie hcr] at hopen
      simp only [Except.ok.injEq, Prod.mk.injEq, true_and] at hopen
      rw [← hopen]
      exact Nat.mod_lt _ (by decide)
    · obtain ⟨answer, hanswer⟩ := h.verifies
        (sm.createCookie cr (.v4 0 0 0 0) now (Vector.replicate nonceLen 0)) (.v4 0 0 0 0)
      rw [verifyCookie_of_openCookie hopen, if_neg (by simp), if_neg (by omega)] at hanswer
      rw [← instantAdd_ok]
      cases hadd : instantAdd now.instant sm.ttl with
      | ok t => exact ⟨t, rfl⟩
      | error e =>
        rw [hadd] at hanswer
        cases hanswer
  · intro h
    refine ⟨fun ip nonce => openCookie_of_lt hcr sm ip nonce h.1, fun cookie peerIp => ?_⟩
    obtain ⟨t, ht⟩ := instantAdd_ok.mpr h.2
    cases hopen : sm.openCookie cr cookie with
    | error e => exact ⟨.error e, by simp [verifyCookie, hopen]⟩
    | ok p =>
      obtain ⟨ip, exp⟩ := p
      rw [verifyCookie_of_openCookie hopen, ht]
      split
      · exact ⟨_, rfl⟩
      · split
        · exact ⟨_, rfl⟩
        · exact ⟨_, rfl⟩

theorem manager_no_overflow : NoOverflow Sample.crates Sample.manager ⟨1700000000, 5⟩ :=
  (no_overflow_iff Sample.crates_lawful Sample.manager ⟨1700000000, 5⟩).mpr (by decide)

/-- The longest lifetime the configuration can hold. -/
def longest : SessionManager := { Sample.manager with ttl := 2 ^ 63 - 1 }

/-- One second into the process its own cookie makes it panic. -/
theorem longest_overflows : longest.ttl = 2 ^ 63 - 1 ∧
    longest.verifyCookie Sample.crates
      (longest.createCookie Sample.crates (.v4 10 0 0 1) ⟨1700000000, 10 ^ 9⟩ (Vector.replicate 12 0)) (.v4 10 0 0 1)
      ⟨1700000000, 10 ^ 9⟩ = .error ⟨"overflow when adding duration to instant"⟩ := by
  have hlt : (⟨1700000000, 10 ^ 9⟩ : Clock).unixSecs + longest.ttl < 2 ^ 64 := by decide
  have hopen := openCookie_of_lt Sample.crates_lawful longest (.v4 10 0 0 1) (Vector.replicate 12 0) hlt
  refine ⟨rfl, ?_⟩
  rw [verifyCookie_of_openCookie hopen]
  rfl

end NekoGuard.SessionManager
