/-
Rust's `str` and byte strings, as far as the sources use them. A `str` is
the list of its characters; where the source counts bytes (`find`, slices)
so does the model, through `byteLen`.
-/
import Mathlib.Algebra.GroupWithZero.Nat
import Mathlib.Data.List.Basic
import Mathlib.Data.List.TakeWhile

namespace NekoGuard

-- Decided along the list, and not over all the characters there are.
instance (priority := high) decidableForallMem {α : Type*} (p : α → Prop) [DecidablePred p] (l : List α) :
    Decidable (∀ x ∈ l, p x) := List.decidableBAll p l

instance (priority := high) decidableExistsMem {α : Type*} (p : α → Prop) [DecidablePred p] (l : List α) :
    Decidable (∃ x ∈ l, p x) := List.decidableBEx p l

instance (priority := high) decidableForallOption {α : Type*} (p : α → Prop) [DecidablePred p] (o : Option α) :
    Decidable (∀ x ∈ o, p x) := Option.decidableForallMem o

abbrev Str := List Char

abbrev Bytes := List UInt8

/-- A panic: in the release profile (`panic = "abort"`) it ends the process. -/
structure Panic where
  message : String
deriving DecidableEq, Repr

/-- What code that may panic computes. -/
abbrev Rust (α : Type) := Except Panic α

theorem eq_ok_of_toOption {ε α : Type*} {x : Except ε α} {a : α} (h : x.toOption = some a) : x = .ok a := by
  cases x with
  | error e => cases h
  | ok b =>
    cases h
    rfl

theorem exists_of_isOk {ε α : Type*} {x : Except ε α} (h : x.isOk = true) : ∃ a, x = .ok a := by
  cases x with
  | error e => cases h
  | ok a => exact ⟨a, rfl⟩

namespace Text

/-! ## Bytes of a `str` -/

/-- The UTF-8 bytes of a `str`. -/
def bytes (s : Str) : Bytes := s.flatMap String.utf8EncodeChar

/-- A `str` is determined by its bytes. -/
theorem bytes_inj {s t : Str} (h : bytes s = bytes t) : s = t := by
  have hutf8 : s.utf8Encode = t.utf8Encode := congrArg List.toByteArray h
  exact String.ofList_inj.mp (String.toByteArray_inj.mp hutf8)

def byteLen (s : Str) : Nat := (s.map Char.utf8Size).sum

/-- `&s[n..]`: panics past the end and inside a character. -/
def sliceFrom : Str → Nat → Rust Str
  | s, 0 => .ok s
  | [], _ + 1 => .error ⟨"byte index out of bounds"⟩
  | c :: s, n => if c.utf8Size ≤ n then sliceFrom s (n - c.utf8Size)
    else .error ⟨"byte index is not a char boundary"⟩

/-- `&s[..n]`. -/
def sliceTo : Str → Nat → Rust Str
  | _, 0 => .ok []
  | [], _ + 1 => .error ⟨"byte index out of bounds"⟩
  | c :: s, n => if c.utf8Size ≤ n then (sliceTo s (n - c.utf8Size)).map (c :: ·)
    else .error ⟨"byte index is not a char boundary"⟩

@[simp] theorem byteLen_nil : byteLen [] = 0 := rfl

theorem byteLen_append (s t : Str) : byteLen (s ++ t) = byteLen s + byteLen t := by
  simp [byteLen]

@[simp] theorem byteLen_cons (c : Char) (s : Str) : byteLen (c :: s) = c.utf8Size + byteLen s := by
  simp [byteLen]

theorem sliceFrom_cons (c : Char) (s : Str) (m : Nat) : sliceFrom (c :: s) (c.utf8Size + m) = sliceFrom s m := by
  obtain ⟨n, hn⟩ := Nat.exists_eq_add_of_lt (Nat.add_pos_left c.utf8Size_pos m)
  rw [Nat.zero_add] at hn
  rw [hn]
  simp only [sliceFrom, Nat.succ_eq_add_one]
  rw [← hn, if_pos (Nat.le_add_right _ _), Nat.add_sub_cancel_left]

theorem sliceTo_cons (c : Char) (s : Str) (m : Nat) :
    sliceTo (c :: s) (c.utf8Size + m) = (sliceTo s m).map (c :: ·) := by
  obtain ⟨n, hn⟩ := Nat.exists_eq_add_of_lt (Nat.add_pos_left c.utf8Size_pos m)
  rw [Nat.zero_add] at hn
  rw [hn]
  simp only [sliceTo, Nat.succ_eq_add_one]
  rw [← hn, if_pos (Nat.le_add_right _ _), Nat.add_sub_cancel_left]

/-- A slice at the end of a whole number of characters does not panic. -/
theorem sliceFrom_append (s t : Str) : sliceFrom (s ++ t) (byteLen s) = .ok t := by
  induction s with
  | nil => cases t <;> rfl
  | cons c s ih => rw [byteLen_cons, List.cons_append, sliceFrom_cons, ih]

theorem sliceTo_append (s t : Str) : sliceTo (s ++ t) (byteLen s) = .ok s := by
  induction s with
  | nil => cases t <;> rfl
  | cons c s ih =>
    rw [byteLen_cons, List.cons_append, sliceTo_cons, ih]
    rfl

theorem byteLen_snoc_ascii (s : Str) {c : Char} (hc : c.utf8Size = 1) :
    byteLen (s ++ [c]) = byteLen s + 1 := by
  rw [byteLen_append, byteLen_cons, byteLen_nil, hc]

theorem sliceFrom_past (s t : Str) {c : Char} (hc : c.utf8Size = 1) :
    sliceFrom (s ++ c :: t) (byteLen s + 1) = .ok t := by
  rw [← byteLen_snoc_ascii s hc, List.append_cons, sliceFrom_append]

/-! ## Case and whitespace -/

def toAsciiLowercase (s : Str) : Str := s.map Char.toLower

theorem toNat_toLower (c : Char) :
    c.toLower.toNat = if 65 ≤ c.toNat ∧ c.toNat ≤ 90 then c.toNat + 32 else c.toNat := by
  unfold Char.toLower
  split
  · next hup =>
    have hlo : 65 ≤ c.toNat := hup.1
    have hhi : c.toNat ≤ 90 := hup.2
    rw [if_pos ⟨hlo, hhi⟩]
    show (c.val + ('a'.val - 'A'.val)).toNat = c.toNat + 32
    rw [UInt32.toNat_add, show ('a'.val - 'A'.val).toNat = 32 from rfl]
    show (c.toNat + 32) % 2 ^ 32 = c.toNat + 32
    omega
  · next hup => exact (if_neg hup).symm

theorem utf8Size_toLower (c : Char) : c.toLower.utf8Size = c.utf8Size := by
  have hlower := toNat_toLower c
  have hsize : ∀ d : Char, d.utf8Size =
      if d.toNat ≤ 127 then 1 else if d.toNat ≤ 2047 then 2 else if d.toNat ≤ 65535 then 3 else 4 := fun _ => rfl
  rw [hsize, hsize]
  grind

theorem byteLen_toAsciiLowercase (s : Str) : byteLen (toAsciiLowercase s) = byteLen s := by
  induction s with
  | nil => rfl
  | cons c s ih =>
    show byteLen (c.toLower :: toAsciiLowercase s) = byteLen (c :: s)
    rw [byteLen_cons, byteLen_cons, utf8Size_toLower, ih]

/-- Only lower-case letters come from another character. -/
theorem eq_of_toLower {c d : Char} (hd : ¬(97 ≤ d.toNat ∧ d.toNat ≤ 122)) (h : c.toLower = d) : c = d := by
  have hlower := toNat_toLower c
  rw [h] at hlower
  split at hlower
  · omega
  · exact Char.toNat_inj.mp hlower.symm

theorem not_mem_toAsciiLowercase {s : Str} {d : Char} (hd : ¬(97 ≤ d.toNat ∧ d.toNat ≤ 122)) (h : d ∉ s) :
    d ∉ toAsciiLowercase s := by
  intro hmem
  obtain ⟨c, hc, hlower⟩ := List.mem_map.mp hmem
  exact h (eq_of_toLower hd hlower ▸ hc)

theorem toLower_toLower (c : Char) : c.toLower.toLower = c.toLower := by
  rw [← Char.toNat_inj, toNat_toLower c.toLower, toNat_toLower c]
  split
  · rw [if_neg (by omega)]
  · rfl

theorem toAsciiLowercase_idem (s : Str) : toAsciiLowercase (toAsciiLowercase s) = toAsciiLowercase s := by
  unfold toAsciiLowercase
  simp only [List.map_map, Function.comp_def, toLower_toLower]

def eqIgnoreAsciiCase (s t : Str) : Bool := toAsciiLowercase s == toAsciiLowercase t

/-- `char::is_whitespace`: the Unicode property `White_Space`. -/
def isWhitespace (c : Char) : Bool :=
  let n := c.toNat
  (0x09 ≤ n && n ≤ 0x0d) || n == 0x20 || n == 0x85 || n == 0xa0 || n == 0x1680 ||
    (0x2000 ≤ n && n ≤ 0x200a) || n == 0x2028 || n == 0x2029 || n == 0x202f || n == 0x205f ||
    n == 0x3000

/-- `trim_start_matches` of a character class. -/
def trimStartMatches (p : Char → Bool) (s : Str) : Str := s.dropWhile p

/-- `trim_end_matches` of a character class. -/
def trimEndMatches (p : Char → Bool) (s : Str) : Str := (s.reverse.dropWhile p).reverse

theorem mem_of_mem_trimEndMatches {p : Char → Bool} {s : Str} {c : Char} (h : c ∈ trimEndMatches p s) : c ∈ s := by
  unfold trimEndMatches at h
  rw [List.mem_reverse] at h
  exact List.mem_reverse.mp ((List.dropWhile_sublist p).subset h)

theorem trimEndMatches_append_of_not {p : Char → Bool} {c : Char} (hc : p c = false) (s t : Str) :
    trimEndMatches p (s ++ c :: t) = s ++ c :: trimEndMatches p t := by
  unfold trimEndMatches
  rw [List.reverse_append, List.reverse_cons, List.dropWhile_append, List.dropWhile_append]
  cases hd : (t.reverse.dropWhile p).isEmpty with
  | true =>
    rw [List.isEmpty_iff] at hd
    simp [hd, hc]
  | false =>
    have hne : t.reverse.dropWhile p ≠ [] := by
      intro h
      simp [h] at hd
    simp [hne]

theorem trimEndMatches_of_getLast? {p : Char → Bool} {s : Str} (hs : ∀ c ∈ s.getLast?, p c = false) :
    trimEndMatches p s = s := by
  rcases List.eq_nil_or_concat' s with rfl | ⟨s, c, rfl⟩
  · rfl
  · have hc := hs c (by simp)
    rw [trimEndMatches_append_of_not hc]
    rfl

theorem getLast?_trimEndMatches {p : Char → Bool} {s : Str} : ∀ c ∈ (trimEndMatches p s).getLast?, p c = false := by
  intro c hc
  unfold trimEndMatches at hc
  rw [List.getLast?_reverse] at hc
  have hhead := List.head?_dropWhile_not p s.reverse
  rw [Option.mem_def.mp hc] at hhead
  simpa using hhead

def trim (s : Str) : Str := trimEndMatches isWhitespace (trimStartMatches isWhitespace s)

/-- `split_whitespace`: the maximal runs without whitespace. -/
def splitWhitespace (s : Str) : List Str := (s.splitOnP isWhitespace).filter (· ≠ [])

/-! ## Searching -/

def startsWith (s pat : Str) : Bool := pat.isPrefixOf s

def endsWith {α : Type} [BEq α] (s pat : List α) : Bool := pat.isSuffixOf s

def stripPrefix (s pat : Str) : Option Str := if startsWith s pat then some (s.drop pat.length) else none

/-- The text before the first occurrence of `pat`. -/
def before (pat : Str) : Str → Option Str
  | [] => if pat = [] then some [] else none
  | c :: s => if startsWith (c :: s) pat then some [] else (before pat s).map (c :: ·)

/-- `find`: the byte offset of the first occurrence. -/
def find (s pat : Str) : Option Nat := (before pat s).map byteLen

theorem exists_of_before {pat s p : Str} (h : before pat s = some p) : ∃ t, s = p ++ (pat ++ t) := by
  induction s generalizing p with
  | nil =>
    unfold before at h
    split at h
    · next hpat =>
      cases h
      exact ⟨[], by simp [hpat]⟩
    · cases h
  | cons c s ih =>
    unfold before at h
    split at h
    · next hstart =>
      cases h
      obtain ⟨t, ht⟩ := List.isPrefixOf_iff_prefix.mp hstart
      exact ⟨t, ht.symm⟩
    · obtain ⟨q, hq, rfl⟩ := Option.map_eq_some_iff.mp h
      obtain ⟨t, rfl⟩ := ih hq
      exact ⟨t, rfl⟩

/-- An offset that `find` returns is a character boundary. -/
theorem exists_of_find {pat s : Str} {n : Nat} (h : find s pat = some n) :
    ∃ p t, s = p ++ (pat ++ t) ∧ n = byteLen p := by
  obtain ⟨p, hp, rfl⟩ := Option.map_eq_some_iff.mp h
  obtain ⟨t, ht⟩ := exists_of_before hp
  exact ⟨p, t, ht, rfl⟩

theorem find_char {c : Char} {head : Str} (hhead : c ∉ head) (tail : Str) : find (head ++ c :: tail) [c] = some (byteLen head) := by
  have hbefore : before [c] (head ++ c :: tail) = some head := by
    induction head with
    | nil => simp [before, startsWith, List.isPrefixOf]
    | cons d head ih =>
      simp only [List.mem_cons, not_or] at hhead
      simp [before, startsWith, List.isPrefixOf, hhead.1, ih hhead.2]
  rw [find, hbefore]
  rfl

theorem find_char_eq_none {c : Char} {rest : Str} (hc : c ∉ rest) : find rest [c] = none := by
  have hbefore : before [c] rest = none := by
    induction rest with
    | nil => rfl
    | cons d rest ih =>
      simp only [List.mem_cons, not_or] at hc
      simp [before, startsWith, List.isPrefixOf, hc.1, ih hc.2]
  rw [find, hbefore]
  rfl

/-- A boundary of the lower-case copy is one of the text. -/
theorem exists_of_lower_append {s p t : Str} (h : toAsciiLowercase s = p ++ t) :
    ∃ head tail, s = head ++ tail ∧ byteLen p = byteLen head := by
  obtain ⟨head, tail, rfl, rfl, -⟩ := List.map_eq_append_iff.mp h
  exact ⟨head, tail, rfl, byteLen_toAsciiLowercase head⟩

/-- Also of the text whose lower-case copy it searched. -/
theorem exists_of_find_lower {pat s : Str} {n : Nat} (h : find (toAsciiLowercase s) pat = some n) :
    ∃ p t, s = p ++ t ∧ n = byteLen p := by
  obtain ⟨p, t, heq, rfl⟩ := exists_of_find h
  exact exists_of_lower_append heq

def contains (s pat : Str) : Bool := (before pat s).isSome

/-- The text before the last occurrence of `pat`. -/
def beforeLast (pat : Str) : Str → Option Str
  | [] => if pat = [] then some [] else none
  | c :: s =>
    match beforeLast pat s with
    | some p => some (c :: p)
    | none => if startsWith (c :: s) pat then some [] else none

/-- `rfind`: the byte offset of the last occurrence. -/
def rfind (s pat : Str) : Option Nat := (beforeLast pat s).map byteLen

/-- The text before an occurrence is where the whole starts. -/
theorem exists_of_beforeLast {pat s p : Str} (h : beforeLast pat s = some p) : ∃ t, s = p ++ t := by
  induction s generalizing p with
  | nil =>
    unfold beforeLast at h
    split at h
    · cases h
      exact ⟨[], rfl⟩
    · cases h
  | cons c s ih =>
    unfold beforeLast at h
    split at h
    · next q hq =>
      cases h
      obtain ⟨t, rfl⟩ := ih hq
      exact ⟨t, rfl⟩
    · split at h
      · cases h
        exact ⟨c :: s, rfl⟩
      · cases h

theorem exists_of_rfind_lower {pat s : Str} {n : Nat} (h : rfind (toAsciiLowercase s) pat = some n) :
    ∃ p t, s = p ++ t ∧ n = byteLen p := by
  obtain ⟨p, hp, rfl⟩ := Option.map_eq_some_iff.mp h
  obtain ⟨t, ht⟩ := exists_of_beforeLast hp
  exact exists_of_lower_append ht

/-- `split_once` on a character. -/
def splitOnce (s : Str) (c : Char) : Option (Str × Str) :=
  if c ∈ s then some (s.takeWhile (· ≠ c), (s.dropWhile (· ≠ c)).tail) else none

/-- `split(c).next().unwrap_or(s)`: the text before the first `c`. -/
def splitFirst (s : Str) (c : Char) : Str := (s.splitOn c).headD s

theorem splitFirst_eq (s : Str) (c : Char) : splitFirst s c = s.takeWhile (· ≠ c) := by
  unfold splitFirst
  induction s with
  | nil => rfl
  | cons d s ih =>
    obtain ⟨t, ts, hts⟩ := List.exists_cons_of_ne_nil (List.splitOnP_ne_nil (· == c) s)
    simp only [List.splitOn, hts, List.headD_cons, List.splitOnP_cons_eq_if_modifyHead] at ih ⊢
    by_cases hd : d = c
    · simp [hd]
    · simp [hd, ih]

theorem not_mem_splitFirst (s : Str) (c : Char) : c ∉ splitFirst s c := by
  rw [splitFirst_eq]
  intro h
  simpa using List.mem_takeWhile_imp h

/-- `replacen(pat, new, k)` for a non-empty `pat`, on at most `n` characters. -/
def replacenFrom (pat new : Str) : Nat → Nat → Str → Str
  | 0, _, s => s
  | _, 0, s => s
  | _ + 1, _ + 1, [] => []
  | n + 1, k + 1, c :: s =>
    if startsWith (c :: s) pat then new ++ replacenFrom pat new n k ((c :: s).drop pat.length)
    else c :: replacenFrom pat new n (k + 1) s

/-- `replacen`: the first `count` occurrences. -/
def replacen (s pat new : Str) (count : Nat) : Str := replacenFrom pat new s.length count s

/-- `replace`: every occurrence, leftmost first and without overlap. -/
def replace (s pat new : Str) : Str := replacenFrom pat new s.length s.length s

/-- Replacing a character replaces each of its occurrences. -/
theorem replace_char (s : Str) (c : Char) (new : Str) :
    replace s [c] new = s.flatMap fun d => if d = c then new else [d] := by
  have hfrom : ∀ (s : Str) (n k : Nat), s.length ≤ n → s.length ≤ k →
      replacenFrom [c] new n k s = s.flatMap fun d => if d = c then new else [d] := by
    intro s
    induction s with
    | nil => intro n k _ _; cases n <;> cases k <;> rfl
    | cons d s ih =>
      intro n k hn hk
      cases n with
      | zero => simp at hn
      | succ n =>
        cases k with
        | zero => simp at hk
        | succ k =>
          have hn : s.length ≤ n := by simpa using hn
          have hk : s.length ≤ k := by simpa using hk
          by_cases hd : d = c
          · simp [replacenFrom, startsWith, List.isPrefixOf, hd, ih n k hn hk]
          · simp [replacenFrom, startsWith, List.isPrefixOf, hd, Ne.symm hd, ih n (k + 1) hn (by omega)]
  exact hfrom s _ _ (Nat.le_refl _) (Nat.le_refl _)

theorem not_mem_replace_char {s new : Str} {c d : Char} (hs : d ∉ s ∨ d = c) (hnew : d ∉ new) :
    d ∉ replace s [c] new := by
  rw [replace_char, List.mem_flatMap]
  intro ⟨e, he, hmem⟩
  split at hmem
  · exact hnew hmem
  · next hec =>
    rw [List.mem_singleton] at hmem
    rcases hs with hs | hs
    · exact hs (hmem ▸ he)
    · exact hec (hmem ▸ hs)

/-! ## Lines and numbers -/

/-- A line without its `\n` or `\r\n`. -/
def stripCr (l : Str) : Str := if l.getLast? = some '\r' then l.dropLast else l

/-- `lines`: a `\r` counts as part of the line end only before a `\n`, and
an end of line at the very end opens no further line. -/
def lines (s : Str) : List Str :=
  let ls := s.splitOn '\n'
  ls.dropLast.map stripCr ++ ls.getLast?.toList.filter (· ≠ [])

/-- The decimal digits of a number, as `to_string` writes them. -/
def decimal (n : Nat) : Str := Nat.toDigits 10 n

end Text

end NekoGuard
