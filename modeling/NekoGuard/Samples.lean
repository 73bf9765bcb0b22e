/-
Concrete stand-ins for the crates, for runs on fixed inputs: a hash that
every nonce solves, a sealing that undoes itself, two regexes, and requests
for one site.
-/
import NekoGuard.Handle

namespace NekoGuard.Sample

def sha256 : Pow.Sha256 := fun _ => Vector.replicate 32 0

theorem solves (challenge nonce : Str) : Pow.Solves sha256 challenge nonce := by
  show Pow.meetsTarget (Vector.replicate 32 0) Pow.difficulty = .ok true
  decide +kernel

/-! ## Sealing -/

/-- The payload's numbers in unary. -/
def toVec (p : SessionPayload) : Bytes :=
  [0].intercalate (List.replicate p.exp 1 :: p.ip.map fun c => List.replicate c.toNat 1)

def fromSlice (bytes : Bytes) : Option SessionPayload :=
  match bytes.splitOn 0 with
  | exp :: ip => some { ip := ip.map fun c => Char.ofNat c.length, exp := exp.length }
  | [] => none

theorem fromSlice_toVec (p : SessionPayload) : fromSlice (toVec p) = some p := by
  have hsplit : (toVec p).splitOn 0 = List.replicate p.exp 1 :: p.ip.map fun c => List.replicate c.toNat 1 := by
    refine List.splitOn_intercalate _ (fun part hpart => ?_) (List.cons_ne_nil _ _)
    rcases List.mem_cons.mp hpart with rfl | hpart
    · simp
    · obtain ⟨c, -, rfl⟩ := List.mem_map.mp hpart
      simp
  have hchars : (p.ip.map fun c => List.replicate c.toNat (1 : UInt8)).map (fun c => Char.ofNat c.length) = p.ip := by
    simp [Function.comp_def]
  rw [fromSlice, hsplit]
  simp only [hchars, List.length_replicate]

def decodeHex : Str → Option Bytes
  | [] => some []
  | h :: l :: s => do
    let h ← IpAddr.toDigit 16 h
    let l ← IpAddr.toDigit 16 l
    return UInt8.ofNat (h * 16 + l) :: (← decodeHex s)
  | _ => none

def crates : SealingCrates where
  encrypt _ _ plaintext := plaintext ++ List.replicate 16 0
  decrypt _ _ ciphertext :=
    if 16 ≤ ciphertext.length then some (ciphertext.take (ciphertext.length - 16)) else none
  encode := Hex.encode
  decode := decodeHex
  toVec := toVec
  fromSlice := fromSlice

theorem decodeHex_encode (bs : Bytes) : decodeHex (Hex.encode bs) = some bs := by
  induction bs with
  | nil => rfl
  | cons b bs ih =>
    have hb := b.toNat_lt
    have hh : IpAddr.toDigit 16 (Hex.digit (b.toNat / 16)) = some (b.toNat / 16) :=
      IpAddr.toDigit_digitChar (by omega)
    have hl : IpAddr.toDigit 16 (Hex.digit (b.toNat % 16)) = some (b.toNat % 16) :=
      IpAddr.toDigit_digitChar (by omega)
    have hval : UInt8.ofNat (b.toNat / 16 * 16 + b.toNat % 16) = b := by
      rw [Nat.div_add_mod']
      exact UInt8.ofNat_toNat
    show decodeHex (_ :: _ :: Hex.encode bs) = _
    simp only [decodeHex, hh, hl, ih, hval, Option.bind_eq_bind, Option.bind_some, Option.pure_def]

theorem crates_lawful : crates.Lawful where
  decrypt_encrypt := fun k n p => by simp [crates]
  length_encrypt := fun k n p => by simp [crates]
  decode_encode := decodeHex_encode
  fromSlice_toVec := fun p _ => fromSlice_toVec p

def manager : SessionManager where
  key := Vector.replicate 32 0
  cookieName := "nekoguard_session".toList
  ttl := 1800

def oneMinute : SessionManager := { manager with ttl := 60 }

/-! ## The verify route -/

def challenge : Str := Pow.challengeOf (Vector.replicate 16 0)

def verifyBody : Bytes :=
  Text.bytes ("\x7b\"challenge\":\"".toList ++ challenge ++ "\",\"nonce\":\"7\"\x7d".toList)

/-- Nothing is embedded, and there is one verify body. -/
def locals : LocalCrates where
  asset _ := none
  challengeHtml := []
  verifyPayload bytes := if bytes = verifyBody then some { challenge, nonce := "7".toList } else none

/-! ## Requests -/

/-- The patterns `.*` and `^/api/.*`. -/
def regexes : RegexCrate where
  compiles p := p = ".*".toList || p = "^/api/.*".toList
  error _ := ""
  isMatch p s := p = ".*".toList || Text.startsWith s "/api/".toList

/-- Nobody has solved a challenge, and nobody is limited. -/
def calls : Calls where
  clock := { unixSecs := 0, instant := 0 }
  newChallenge := challenge
  checkPow _ _ := false
  nonce := Vector.replicate 12 0
  favicon _ _ _ := none
  inlineInto page _ _ _ := page
  allow _ _ := true

/-- A visit to a page of a.example. -/
def visit (path : String) (headers : HeaderMap) : Request where
  method := .get
  path := path.toList
  query := none
  headers := ("host".toList, Text.bytes "a.example".toList) :: headers
  body := ⟨[], false⟩

/-- A server for one site, with both listeners. -/
def server (whitelist : List IpAddr) : Config regexes where
  sites := [{ domain := "a.example".toList, upstream := "http://origin".toList, bypass := [], rateLimit := default }]
  rateLimit := default
  whitelist := whitelist
  catchall := none
  catchallBypass := []
  port := 443
  portHttp := some 80
  session := {}

end NekoGuard.Sample
