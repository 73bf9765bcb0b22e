/-
embed.rs: the metadata of an origin's page, the form Redis carries it in,
and the keys it is cached under.
-/
import Mathlib.Data.List.TakeWhile
import NekoGuard.Config
import NekoGuard.Pow

namespace NekoGuard.Embed

/-- Metadata lifted out of one origin's head. -/
structure Meta where
  title : Option Str
  tags : List Str
  iconUrl : Option Str
  icon : Option (Bytes × String)
deriving DecidableEq, Repr

/-- The serialisable half of `Meta`. -/
structure CachedMeta where
  title : Option Str
  tags : List Str
  icon : Option Bytes
  iconMime : Option Str
deriving DecidableEq, Repr

/-- `serde_json`, on cache entries. -/
structure MetaCrate where
  toString : CachedMeta → Option Str
  fromStr : Str → Option CachedMeta

/-- What is written reads back. -/
structure MetaCrate.Lawful (mc : MetaCrate) : Prop where
  fromStr_toString : ∀ {c s}, mc.toString c = some s → mc.fromStr s = some c

/-- The raster types an icon is served under. -/
def iconMime (contentType : Str) : Option String :=
  let ct := Text.toAsciiLowercase contentType
  if Text.startsWith ct "image/png".toList then some "image/png"
  else if Text.startsWith ct "image/x-icon".toList ||
      Text.startsWith ct "image/vnd.microsoft.icon".toList then some "image/x-icon"
  else if Text.startsWith ct "image/jpeg".toList then some "image/jpeg"
  else if Text.startsWith ct "image/gif".toList then some "image/gif"
  else if Text.startsWith ct "image/webp".toList then some "image/webp"
  else none

/-- `CachedMeta::from`. -/
def CachedMeta.ofMeta (m : Meta) : CachedMeta where
  title := m.title
  tags := m.tags
  icon := m.icon.map (·.1)
  iconMime := m.icon.map fun i => i.2.toList

/-- An icon of a missing or unknown type is dropped. -/
def CachedMeta.intoMeta (c : CachedMeta) : Meta where
  title := c.title
  tags := c.tags
  iconUrl := none
  icon := c.icon.bind fun bytes => c.iconMime.bind fun mime => (Embed.iconMime mime).map fun mime => (bytes, mime)

/-! ## Keys -/

/-- A request path reduced to what identifies the document it names. -/
def normalizePath (path : Str) : Str :=
  let path := path.takeWhile fun c => c ≠ '?' ∧ c ≠ '#'
  if path = [] then ['/']
  else if Text.startsWith path ['/'] then path
  else '/' :: path

def pathDigest (sha256 : Pow.Sha256) (path : Str) : Str :=
  Hex.encode ((sha256 (Text.bytes path)).toList.take 8)

def cacheKey (sha256 : Pow.Sha256) (host path : Str) : Str :=
  let path := normalizePath path
  if path = ['/'] then "nekoguard:embed:".toList ++ host
  else "nekoguard:embed:".toList ++ host ++ ":p:".toList ++ pathDigest sha256 path

/-- A path already reduced stays as it is. -/
theorem normalizePath_of_clean {p : Str} (hp : ∀ c ∈ p, c ≠ '?' ∧ c ≠ '#') :
    normalizePath ('/' :: p) = '/' :: p := by
  have hall : ('/' :: p).takeWhile (fun c => c ≠ '?' ∧ c ≠ '#') = '/' :: p :=
    List.takeWhile_eq_self_iff.mpr fun c hc => by
      cases hc with
      | head => decide
      | tail _ hc => simpa using hp c hc
  unfold normalizePath
  rw [hall]
  rfl

/-- A normalised path begins with a `/` and has no query or fragment. -/
theorem normalizePath_shape (path : Str) :
    ∃ p : Str, normalizePath path = '/' :: p ∧ ∀ c ∈ p, c ≠ '?' ∧ c ≠ '#' := by
  have hclean : ∀ c ∈ path.takeWhile fun c => c ≠ '?' ∧ c ≠ '#', c ≠ '?' ∧ c ≠ '#' := fun c hc => by
    simpa using List.mem_takeWhile_imp hc
  unfold normalizePath
  simp only []
  cases hp : path.takeWhile fun c => c ≠ '?' ∧ c ≠ '#' with
  | nil => exact ⟨[], rfl, nofun⟩
  | cons d p =>
    rw [hp] at hclean
    by_cases hd : d = '/'
    · subst hd
      exact ⟨p, rfl, fun c hc => hclean c (List.mem_cons_of_mem _ hc)⟩
    · have hne : Text.startsWith (d :: p) ['/'] = false := by
        simp [Text.startsWith, List.isPrefixOf, Ne.symm hd]
      rw [if_neg (by simp), if_neg (by simp [hne])]
      exact ⟨d :: p, rfl, hclean⟩

theorem normalizePath_idem (path : Str) : normalizePath (normalizePath path) = normalizePath path := by
  obtain ⟨p, hp, hclean⟩ := normalizePath_shape path
  rw [hp]
  exact normalizePath_of_clean hclean

theorem cacheKey_normalizePath (sha256 : Pow.Sha256) (host path : Str) :
    cacheKey sha256 host (normalizePath path) = cacheKey sha256 host path := by
  unfold cacheKey
  rw [normalizePath_idem]

/-- What only differs in query or fragment names one document. -/
theorem normalizePath_append {p : Str} (hp : ∀ c ∈ p, c ≠ '?' ∧ c ≠ '#') {x : Str}
    (hx : ∀ c ∈ x.head?, c = '?' ∨ c = '#') : normalizePath (p ++ x) = normalizePath p := by
  have hcut : (p ++ x).takeWhile (fun c => c ≠ '?' ∧ c ≠ '#') = p.takeWhile fun c => c ≠ '?' ∧ c ≠ '#' := by
    have hself : p.takeWhile (fun c => c ≠ '?' ∧ c ≠ '#') = p :=
      List.takeWhile_eq_self_iff.mpr fun c hc => by simpa using hp c hc
    have hnil : x.takeWhile (fun c => c ≠ '?' ∧ c ≠ '#') = [] := by
      cases x with
      | nil => rfl
      | cons d x => rcases hx d rfl with rfl | rfl <;> simp
    rw [List.takeWhile_append_of_pos fun c hc => by simpa using hp c hc, hself, hnil, List.append_nil]
  unfold normalizePath
  rw [hcut]

theorem takeWhile_host {h : Str} (hh : ':' ∉ h) (s : Str) : (h ++ ':' :: s).takeWhile (· ≠ ':') = h := by
  rw [List.takeWhile_append_of_pos fun c hc => by
    have hne : c ≠ ':' := fun heq => hh (heq ▸ hc)
    simpa using hne]
  simp

/-- **The format of a key loses nothing** but what the digest does. -/
theorem cacheKey_inj {sha256 : Pow.Sha256} {P : Str → Prop} {h h' p p' : Str}
    (hinj : ∀ p p', P p → P p' → pathDigest sha256 p = pathDigest sha256 p' → p = p')
    (hh : ':' ∉ h) (hh' : ':' ∉ h') (hp : P (normalizePath p)) (hp' : P (normalizePath p'))
    (heq : cacheKey sha256 h p = cacheKey sha256 h' p') : h = h' ∧ normalizePath p = normalizePath p' := by
  have hcolon : ":p:".toList = ':' :: "p:".toList := rfl
  unfold cacheKey at heq
  simp only [List.append_assoc] at heq
  split_ifs at heq with hroot hroot' hroot'
  · exact ⟨List.append_cancel_left heq, hroot.trans hroot'.symm⟩
  · have hmem := List.append_cancel_left heq
    exact absurd (by simp [hmem, hcolon]) hh
  · have hmem := List.append_cancel_left heq
    exact absurd (by simp [← hmem, hcolon]) hh'
  · have hrest := List.append_cancel_left heq
    have hhost : h = h' := by
      rw [hcolon, List.cons_append, List.cons_append] at hrest
      have htake := congrArg (List.takeWhile (· ≠ ':')) hrest
      rwa [takeWhile_host hh, takeWhile_host hh'] at htake
    subst hhost
    have hdigest := List.append_cancel_left (List.append_cancel_left hrest)
    exact ⟨rfl, hinj _ _ hp hp' hdigest⟩

end NekoGuard.Embed
