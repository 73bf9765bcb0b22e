/-
The certificates of the proxy: read from Redis into a map, at startup and
when certd announces an update, and picked from it by SNI.
-/
import NekoGuard.Certd

namespace NekoGuard.Tls

open Certd

/-- The PEM readers of `rustls_pki_types`, and `any_supported_type`. -/
structure PkiCrates where
  CertificateDer : Type
  PrivateKeyDer : Type
  SigningKey : Type
  /-- Every section of the text, unless one is malformed. -/
  certs : Str → Option (List CertificateDer)
  keys : Str → Option (List PrivateKeyDer)
  anySupportedType : PrivateKeyDer → Option SigningKey

/-- A certificate chain and its private key. -/
abbrev Entry (pki : PkiCrates) := List pki.CertificateDer × pki.PrivateKeyDer

abbrev CertMap (pki : PkiCrates) := AList fun _ : Str => Entry pki

/-- Which steps of a load Redis answers. -/
structure Answers where
  open_ : Bool
  connect : Bool
  keys : Bool
  get : Str → Bool

/-- Redis answers everything. -/
def Answers.every : Answers where
  open_ := true
  connect := true
  keys := true
  get := fun _ => true

/-! ## `build_tls_config` -/

variable (js : CertJson) (pki : PkiCrates) (ans : Answers) (redis : Redis)

/-- Malformed PEM panics, and so does a text without a key. -/
def parseEntry (c : CertData) : Rust (Entry pki) :=
  match pki.certs c.certPem with
  | none => .error ⟨"failed to parse cert PEM"⟩
  | some chain =>
    match pki.keys c.keyPem with
    | none => .error ⟨"failed to parse key PEM"⟩
    | some [] => .error ⟨"no private key found"⟩
    | some (key :: _) => .ok (chain, key)

/-- What GET and serde give for a domain. -/
def readable (domain : Str) : Option CertData := if ans.get (certKey domain) then loadCert js redis domain else none

/-- One key of the reply to KEYS; what cannot be read is skipped. -/
def loadEntry (map : CertMap pki) (redisKey : Str) : Rust (CertMap pki) :=
  let domain := (Text.stripPrefix redisKey certPrefix).getD redisKey
  match readable js ans redis domain with
  | none => .ok map
  | some c => do
    let e ← parseEntry pki c
    .ok (map.insert domain e)

/-- The keys that match `nekoguard:cert:*`. -/
def certKeys : List Str := redis.keys.filter fun k => Text.startsWith k certPrefix

/-- A KEYS that fails is an empty reply. -/
def buildTlsConfig : Rust (CertMap pki) :=
  (if ans.keys then certKeys redis else []).foldlM (loadEntry js pki ans redis) ∅

/-- `load_tls_config_raw`. -/
def loadTlsConfigRaw : Rust (CertMap pki) :=
  if !ans.open_ then .error ⟨"redis connect"⟩
  else if !ans.connect then .error ⟨"redis conn manager"⟩
  else buildTlsConfig js pki ans redis

/-- What one message does to the map that is served. The subscriber goes on
to the next message, unless the load panics. -/
def onMessage (_old : CertMap pki) : Rust (CertMap pki) := loadTlsConfigRaw js pki ans redis

/-! ## `TlsCertResolver` -/

structure CertifiedKey where
  chain : List pki.CertificateDer
  signingKey : pki.SigningKey

/-- `foo.bar.example.com`: `bar.example.com`, `example.com`, `com`. -/
def parents (domain : Str) : List Str :=
  let parts := domain.splitOn '.'
  (List.range' 1 (parts.length - 1)).map fun i => ".".toList.intercalate (parts.drop i)

/-- The entry of the domain, else of the nearest parent that has one. -/
def findEntry {α : Type} (find : Str → Option α) (domain : Str) : Option α :=
  match find domain with
  | some e => some e
  | none => (parents domain).findSome? find

def resolve (certs : CertMap pki) (serverName : Option Str) : Option (CertifiedKey pki) := do
  let domain ← serverName
  let (chain, key) ← findEntry certs.lookup domain
  let signingKey ← pki.anySupportedType key
  return { chain, signingKey }

end NekoGuard.Tls
