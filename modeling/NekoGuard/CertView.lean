/-
What certd and a proxy see of a Redis that holds more than certificates. They
ask for the keys under `CERT_PREFIX` and write no others, so each of their
steps over the whole of Redis is the same step over its certificates
(`step_under`).
-/
import NekoGuard.CertSync
import NekoGuard.Lib.Pick

namespace NekoGuard.CertSync

open Lib Lib.Pick Certd Tls

variable {js : CertJson} {pki : PkiCrates}

theorem startsWith_certKey (d : Str) : Text.startsWith (certKey d) certPrefix = true :=
  List.isPrefixOf_iff_prefix.mpr (List.prefix_append _ _)

/-- The certificates among the strings of Redis. -/
def under (redis : Redis) : Redis := pick (fun key b => if Text.startsWith key certPrefix then some b else none) redis

def underCertd (c : Certd.State) : Certd.State := { c with redis := under c.redis }

def underAll (s : Joint pki) : Joint pki := { s with certd := underCertd s.certd }

theorem loadCert_under (redis : Redis) (d : Str) : loadCert js (under redis) d = loadCert js redis d := by
  rw [loadCert, under, lookup_pick, loadCert]
  cases redis.lookup (certKey d) with
  | none => rfl
  | some b => rw [Option.bind_some, if_pos (startsWith_certKey d)]

theorem storeCert_under (redis : Redis) (d : Str) (c : CertData) :
    storeCert js (under redis) d c = under (storeCert js redis d c) := by
  rw [storeCert, storeCert, under, under, pick_insert, if_pos (startsWith_certKey d)]
  rfl

theorem certKeys_under (redis : Redis) : certKeys (under redis) = certKeys redis := by
  rw [certKeys, under, keys_pick, List.filter_filter]
  refine List.filter_congr fun k hk => ?_
  obtain ⟨b, hb⟩ := Option.isSome_iff_exists.mp (AList.lookup_isSome.mpr (AList.mem_keys.mpr hk))
  rw [hb, Option.bind_some]
  cases hkey : Text.startsWith k certPrefix <;> simp

theorem loadEntry_under (ok : Bool) (redis : Redis) (map : CertMap pki) (k : Str) :
    loadEntry js pki (answering ok) (under redis) map k = loadEntry js pki (answering ok) redis map k := by
  unfold loadEntry readable
  simp only [loadCert_under]

theorem next_under (c : Certd.State) (pass : Pass) (todo : List Str) :
    (underCertd c).next pass todo = underCertd (c.next pass todo) := by
  cases pass <;> cases todo <;> rfl

theorem visit_under (c : Certd.State) (d : Str) (todo : List Str) (ok : Bool) :
    (underCertd c).visit js d todo ok = underCertd (c.visit js d todo ok) := by
  have hturn : ∀ attempted, (underCertd c).turn js d attempted = underCertd (c.turn js d attempted) := fun attempted => by
    simp only [State.turn, underCertd, loadCert_under]
  unfold State.visit
  rw [show (underCertd c).redis = under c.redis from rfl, loadCert_under, show (underCertd c).now = c.now from rfl]
  cases (if ok = true then loadCert js c.redis d else none) with
  | none => rw [hturn, next_under]
  | some cert =>
    cases c.now with
    | none => rfl
    | some now =>
      simp only []
      split
      · rw [hturn]
        rfl
      · rw [hturn, next_under]

/-- **certd only sees certificates.** -/
theorem certd_under {c c' : Certd.State} {e : Certd.Event} (he : ∀ redis, e ≠ .foreign redis)
    (h : Certd.step js c e = some c') : Certd.step js (underCertd c) e = some (underCertd c') := by
  have htask : (underCertd c).task = c.task := rfl
  cases step_move h with
  | clock t => rfl
  | foreign redis => exact absurd rfl (he redis)
  | client ok ht =>
    simp only [Certd.step, htask, ht]
    cases ok
    · rfl
    · exact congrArg some (next_under _ _ _)
  | issued pems ht hnow =>
    have hstamp : (underCertd c).now = some c.clock.toNat := if_pos hnow
    simp only [Certd.step, htask, ht, hstamp]
    rfl
  | unstamped pems ht hnow =>
    have hstamp : (underCertd c).now = none := if_neg (show ¬0 ≤ c.clock by omega)
    simp only [Certd.step, htask, ht, hstamp]
    rfl
  | refused ht =>
    simp only [Certd.step, htask, ht]
    exact congrArg some (next_under _ _ _)
  | connect ok ht =>
    simp only [Certd.step, htask, ht]
    rfl
  | set ok ht =>
    simp only [Certd.step, htask, ht]
    cases ok
    · rfl
    · simp only [if_true, underCertd, storeCert_under]
  | publish ok ht =>
    simp only [Certd.step, htask, ht]
    exact congrArg some (next_under _ _ _)
  | wake ht =>
    simp only [Certd.step, htask, ht]
    rfl
  | opened ok ht =>
    simp only [Certd.step, htask, ht]
    cases ok
    · rfl
    · exact congrArg some (next_under _ _ _)
  | get ok ht =>
    simp only [Certd.step, htask, ht]
    exact congrArg some (visit_under _ _ _ _)
  | renewed pems ht =>
    simp only [Certd.step, htask, ht]
    rfl
  | failed ht =>
    simp only [Certd.step, htask, ht]
    exact congrArg some (next_under _ _ _)

/-- **Neither does the proxy**: both see what they see of the certificates alone. -/
theorem step_under {s s' : Joint pki} {e : Event} (h : step js pki s e = some s') :
    step js pki (underAll s) e = some (underAll s') := by
  cases e with
  | certd e =>
    have he : ∀ redis, e ≠ .foreign redis := by
      rintro redis rfl
      cases h
    rw [step_certd he] at h ⊢
    obtain ⟨c', hc, rfl⟩ := Option.map_eq_some_iff.mp h
    have hnoted : noted js (underCertd s.certd) e s.since = noted js s.certd e s.since := by
      unfold noted
      rw [show (underCertd s.certd).task = s.certd.task from rfl]
      split
      · rfl
      · rw [show (underCertd s.certd).redis = under s.certd.redis from rfl, loadCert_under]
      · rfl
    rw [show (underAll s).certd = underCertd s.certd from rfl, certd_under he hc, Option.map_some]
    simp only [underAll, hnoted]
    rfl
  | receive =>
    simp only [step] at h
    split at h
    · next hphase hpending =>
      cases h
      simp only [step, underAll, hphase, hpending]
    · cases h
  | connect ok =>
    simp only [step] at h
    split at h
    · next hphase =>
      cases h
      simp only [step, underAll, hphase]
    · cases h
  | keys ok =>
    simp only [step] at h
    split at h
    · next hphase =>
      cases h
      simp only [step, underAll, hphase, underCertd, certKeys_under]
    · cases h
  | get ok =>
    simp only [step] at h
    split at h
    · next hphase =>
      split at h
      · next hload =>
        cases h
        simp only [step, underAll, hphase, underCertd, loadEntry_under, hload]
      · next hload =>
        cases h
        simp only [step, underAll, hphase, underCertd, loadEntry_under, hload]
    · cases h
  | install =>
    simp only [step] at h
    split at h
    · next hphase =>
      cases h
      simp only [step, underAll, hphase]
    · cases h
  | subscribe =>
    simp only [step] at h
    split at h
    · next hphase hpending =>
      cases h
      simp only [step, underAll, hphase, hpending]
    · cases h
  | disconnect kept =>
    simp only [step] at h
    split at h
    · next hsub =>
      cases h
      simp only [step, underAll, hsub, if_true]
    · cases h

/-- What a step of either does to Redis. -/
theorem step_redis {s s' : Joint pki} {e : Event} (h : step js pki s e = some s') :
    e ≠ .certd (.set true) ∧ s'.certd.redis = s.certd.redis ∨
    ∃ pass d cert todo, s.certd.task = .storing pass d cert todo ∧ e = .certd (.set true) ∧
      s'.certd.redis = storeCert js s.certd.redis d cert := by
  cases e with
  | certd e =>
    have he : ∀ redis, e ≠ .foreign redis := by
      rintro redis rfl
      cases h
    rw [step_certd he] at h
    obtain ⟨c', hc, rfl⟩ := Option.map_eq_some_iff.mp h
    by_cases hset : e = .set true
    · subst hset
      cases step_move hc with
      | set _ ht => exact .inr ⟨_, _, _, _, ht, rfl, rfl⟩
    · have hne : Event.certd e ≠ .certd (.set true) := fun heq => hset (by injection heq)
      have heffect : c'.redis = s.certd.redis := by
        rcases @certd_effect js pki _ _ _ he hc with ⟨hredis, -, -⟩ | ⟨_, _, _, _, -, heq, -⟩ | ⟨_, _, _, -, -, hredis⟩
        · exact hredis
        · exact absurd heq hset
        · exact hredis
      exact .inl ⟨hne, heffect⟩
  | receive =>
    simp only [step] at h
    split at h
    · cases h
      exact .inl ⟨by simp, rfl⟩
    · cases h
  | connect ok =>
    simp only [step] at h
    split at h
    · cases h
      exact .inl ⟨by simp, rfl⟩
    · cases h
  | keys ok =>
    simp only [step] at h
    split at h
    · cases h
      exact .inl ⟨by simp, rfl⟩
    · cases h
  | get ok =>
    simp only [step] at h
    split at h
    · split at h <;>
      · cases h
        exact .inl ⟨by simp, rfl⟩
    · cases h
  | install =>
    simp only [step] at h
    split at h
    · cases h
      exact .inl ⟨by simp, rfl⟩
    · cases h
  | subscribe =>
    simp only [step] at h
    split at h
    · cases h
      exact .inl ⟨by simp, rfl⟩
    · cases h
  | disconnect kept =>
    simp only [step] at h
    split at h
    · cases h
      exact .inl ⟨by simp, rfl⟩
    · cases h

end NekoGuard.CertSync
