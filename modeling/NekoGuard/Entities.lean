/-
embed.rs: character references, resolved on the way in (`decode`) and
written on the way out (`html_escape`). `decode` slices by byte offsets, and
never inside a character (`decode_ok`).
-/
import NekoGuard.Std.IpAddr

namespace NekoGuard.Embed

/-- `u32::from_str_radix`: digits, after a plus sign if there is one. -/
def fromStrRadix (radix : Nat) (s : Str) : Option Nat :=
  let digits := if Text.startsWith s ['+'] then s.drop 1 else s
  if digits = [] then none
  else
    (digits.foldlM (fun n c => (IpAddr.toDigit radix c).map (n * radix + ·)) 0).filter (· < 2 ^ 32)

/-- `char::from_u32`. -/
def fromU32 (n : Nat) : Option Char := if n.isValidChar then some (Char.ofNat n) else none

def decodeEntity (entity : Str) : Option Char :=
  if entity = "amp".toList then some '&'
  else if entity = "lt".toList then some '<'
  else if entity = "gt".toList then some '>'
  else if entity = "quot".toList then some '\"'
  else if entity = "apos".toList then some '\''
  else if entity = "nbsp".toList then some '\u00a0'
  else
    let hex := ((Text.stripPrefix entity "#x".toList).or (Text.stripPrefix entity "#X".toList)).bind (fromStrRadix 16)
    (hex.or ((Text.stripPrefix entity ['#']).bind (fromStrRadix 10))).bind fromU32

/-- What stands between the `&` and the next `;`, if that is no further than
eight bytes away. -/
def entityOf (tail : Str) : Rust (Option Str) :=
  match (Text.find tail [';']).filter (· ≤ 8) with
  | some stop => (Text.sliceTo tail stop).map some
  | none => .ok none

/-- The loop of `decode`, at most `n` times: each round passes an `&`. -/
def decodeFrom : Nat → Str → Str → Rust Str
  | 0, rest, out => .ok (out ++ rest)
  | n + 1, rest, out =>
    match Text.find rest ['&'] with
    | none => .ok (out ++ rest)
    | some amp => do
      let head ← Text.sliceTo rest amp
      let tail ← Text.sliceFrom rest (amp + 1)
      let entity ← entityOf tail
      match entity.bind decodeEntity with
      | some decoded => do
        let rest ← Text.sliceFrom tail (Text.byteLen (entity.getD []) + 1)
        decodeFrom n rest (out ++ head ++ [decoded])
      | none => decodeFrom n tail (out ++ head ++ ['&'])

def decode (html : Str) : Rust Str := decodeFrom html.length html []

def htmlEscape (value : Str) : Str :=
  let value := Text.replace value ['&'] "&amp;".toList
  let value := Text.replace value ['<'] "&lt;".toList
  let value := Text.replace value ['>'] "&gt;".toList
  Text.replace value "\"".toList "&quot;".toList

/-! ## Slices -/

theorem entityOf_ok (tail : Str) : ∃ entity, entityOf tail = .ok entity ∧
    ∀ e ∈ entity, ∃ rest, tail = e ++ ';' :: rest := by
  unfold entityOf
  cases hfind : (Text.find tail [';']).filter (· ≤ 8) with
  | none => exact ⟨none, rfl, nofun⟩
  | some stop =>
    obtain ⟨e, rest, rfl, rfl⟩ := Text.exists_of_find (Option.filter_eq_some_iff.mp hfind).1
    refine ⟨some e, ?_, fun e' he' => ?_⟩
    · simp only [Text.sliceTo_append]
      rfl
    · cases he'
      exact ⟨rest, rfl⟩

variable {rest out head tail entity : Str} {c : Char} {n : Nat}

/-- The text after the last `&`. -/
theorem decodeFrom_text (n : Nat) (out : Str) (hrest : '&' ∉ rest) : decodeFrom n rest out = .ok (out ++ rest) := by
  cases n with
  | zero => rfl
  | succ n =>
    unfold decodeFrom
    rw [Text.find_char_eq_none hrest]

/-- A round over an entity. -/
theorem decodeFrom_entity (hhead : '&' ∉ head) (hentity : entityOf (entity ++ ';' :: rest) = .ok (some entity))
    (hc : decodeEntity entity = some c) :
    decodeFrom (n + 1) (head ++ '&' :: (entity ++ ';' :: rest)) out = decodeFrom n rest (out ++ head ++ [c]) := by
  have hbefore := Text.sliceTo_append head ('&' :: (entity ++ ';' :: rest))
  have hafter := Text.sliceFrom_past head (entity ++ ';' :: rest) (show '&'.utf8Size = 1 from rfl)
  have hleft := Text.sliceFrom_past entity rest (show ';'.utf8Size = 1 from rfl)
  conv_lhs => unfold decodeFrom
  simp only [Text.find_char hhead _, hbefore, hafter, hentity, Option.bind_some, hc, Option.getD_some, hleft, bind, Except.bind]

/-- A round over an `&` that begins none. -/
theorem decodeFrom_ampersand {entity : Option Str} (hhead : '&' ∉ head) (hentity : entityOf tail = .ok entity)
    (hc : entity.bind decodeEntity = none) :
    decodeFrom (n + 1) (head ++ '&' :: tail) out = decodeFrom n tail (out ++ head ++ ['&']) := by
  have hbefore := Text.sliceTo_append head ('&' :: tail)
  have hafter := Text.sliceFrom_past head tail (show '&'.utf8Size = 1 from rfl)
  conv_lhs => unfold decodeFrom
  simp only [Text.find_char hhead _, hbefore, hafter, hentity, hc, bind, Except.bind]

/-- What a round may find. -/
inductive Round : Str → Prop
  | text {rest : Str} : '&' ∉ rest → Round rest
  | entity {head entity rest : Str} {c : Char} : '&' ∉ head → entityOf (entity ++ ';' :: rest) = .ok (some entity) →
      decodeEntity entity = some c → Round (head ++ '&' :: (entity ++ ';' :: rest))
  | ampersand {head tail : Str} {entity : Option Str} : '&' ∉ head → entityOf tail = .ok entity →
      entity.bind decodeEntity = none → Round (head ++ '&' :: tail)

theorem round_of (rest : Str) : Round rest := by
  by_cases hamp : '&' ∈ rest
  · obtain ⟨head, tail, rfl, hhead⟩ := List.eq_append_cons_of_mem hamp
    obtain ⟨found, hfound, hshape⟩ := entityOf_ok tail
    cases hc : found.bind decodeEntity with
    | none => exact .ampersand hhead hfound hc
    | some c =>
      obtain ⟨entity, rfl, hentity⟩ := Option.bind_eq_some_iff.mp hc
      obtain ⟨rest, rfl⟩ := hshape entity rfl
      exact .entity hhead hfound hentity
  · exact .text hamp

theorem decodeFrom_ok (n : Nat) (rest out : Str) : ∃ decoded, decodeFrom n rest out = .ok decoded := by
  induction n generalizing rest out with
  | zero => exact ⟨_, rfl⟩
  | succ n ih =>
    cases round_of rest with
    | text hamp => exact ⟨_, decodeFrom_text _ _ hamp⟩
    | entity hhead hentity hc =>
      rw [decodeFrom_entity hhead hentity hc]
      exact ih _ _
    | ampersand hhead hentity hc =>
      rw [decodeFrom_ampersand hhead hentity hc]
      exact ih _ _

/-- **`decode` does not panic.** -/
theorem decode_ok (html : Str) : ∃ decoded, decode html = .ok decoded := decodeFrom_ok _ _ _

/-! ## Metacharacters -/

/-- Nothing that could end an attribute value or begin a tag. -/
structure Inert (s : Str) : Prop where
  quote : '\"' ∉ s
  lt : '<' ∉ s
  gt : '>' ∉ s

/-- What is escaped is inert. -/
theorem htmlEscape_inert (value : Str) : Inert (htmlEscape value) where
  quote := Text.not_mem_replace_char (.inr rfl) (by decide)
  lt := by
    have hlt : '<' ∉ Text.replace (Text.replace value ['&'] "&amp;".toList) ['<'] "&lt;".toList :=
      Text.not_mem_replace_char (.inr rfl) (by decide)
    exact Text.not_mem_replace_char (.inl (Text.not_mem_replace_char (.inl hlt) (by decide))) (by decide)
  gt := Text.not_mem_replace_char (.inl (Text.not_mem_replace_char (.inr rfl) (by decide))) (by decide)

end NekoGuard.Embed
