/-
`hyper::Uri`, as far as it is asked for its scheme and authority. A URI that
is printed as `scheme://..` and read back has that scheme, and its authority
is what comes before the first `/`, `?` or `#` (`UriCrate.Lawful`).
-/
import NekoGuard.Std.Text

namespace NekoGuard

/-- Parsing, `authority()` and `scheme_str()`. -/
structure UriCrate where
  Uri : Type
  parse : Str → Option Uri
  authority : Uri → Option Str
  scheme : Uri → Option Str

namespace UriCrate

/-- What ends an authority. -/
def isDelimiter (c : Char) : Bool := c == '/' || c == '?' || c == '#'

/-- A scheme as `scheme_str()` gives it, or the default one. -/
def IsScheme (uc : UriCrate) (s : Str) : Prop :=
  s = "https".toList ∨ ∃ text u, uc.parse text = some u ∧ uc.scheme u = some s

/-- How a URI is taken apart. -/
structure Lawful (uc : UriCrate) : Prop where
  authority_clean : ∀ {text u a}, uc.parse text = some u → uc.authority u = some a →
    ∀ c ∈ a, isDelimiter c = false
  parse_absolute : ∀ {s rest u}, uc.IsScheme s → uc.parse (s ++ "://".toList ++ rest) = some u →
    uc.scheme u = some s ∧ uc.authority u = some (rest.takeWhile fun c => !isDelimiter c)

/-- What follows an authority does not extend it, when it begins with a
delimiter. -/
theorem takeWhile_authority {a path : Str} (ha : ∀ c ∈ a, isDelimiter c = false)
    (hpath : ∀ c ∈ path.head?, isDelimiter c = true) : (a ++ path).takeWhile (fun c => !isDelimiter c) = a := by
  rw [List.takeWhile_append_of_pos fun c hc => by simp [ha c hc]]
  cases path with
  | nil => simp
  | cons c path => simp [hpath c rfl]

end UriCrate

end NekoGuard
