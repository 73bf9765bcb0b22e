/-
embed.rs: what is lifted out of an origin's document, and the page's title
swapped for the origin's. The four patterns are written out as the regex
crate matches them: without regard to case (Unicode's simple folding),
leftmost first, each part as long as what follows it lets it be. Nothing a
document contains gets out of the tag it is put into (`scrape_safe`).
-/
import NekoGuard.Embed
import NekoGuard.Entities
import NekoGuard.Lib.Scan

namespace NekoGuard.Embed

open Lib

/-! ## The patterns -/

/-- `(?i)` for a lower-case letter: `k` and `s` fold with one more character. -/
def foldEq (c p : Char) : Bool := c.toLower == p || (p == 'k' && c == '\u212a') || (p == 's' && c == '\u017f')

/-- The text after a word, whatever its case. -/
def afterWord : Str → Str → Option Str
  | [], s => some s
  | p :: word, c :: s => if foldEq c p then afterWord word s else none
  | _ :: _, [] => none

/-- A text up to and including the next `c`, and what is after it. -/
def through (c : Char) (s : Str) : Option (Str × Str) :=
  if c ∈ s then some (s.takeWhile (· ≠ c) ++ [c], (s.dropWhile (· ≠ c)).tail) else none

/-- `<name\s[^>]*>`, captured as a whole. -/
def tagRe (name : String) : Scan.Pattern Char Str := fun s =>
  match afterWord ('<' :: name.toList) s with
  | some (c :: _) =>
    if Text.isWhitespace c then through '>' s else none
  | _ => none

def metaTagRe : Scan.Pattern Char Str := tagRe "meta"
def linkTagRe : Scan.Pattern Char Str := tagRe "link"

/-- `</title\s*>`. -/
def titleEndRe : Scan.Pattern Char Unit := fun s =>
  match (afterWord "</title".toList s).map (·.dropWhile Text.isWhitespace) with
  | some ('>' :: rest) => some ((), rest)
  | _ => none

/-- `<title[^>]*>(.*?)</title\s*>`. -/
def titleRe : Scan.Pattern Char Str := fun s => do
  let rest ← afterWord "<title".toList s
  let (_, rest) ← through '>' rest
  let (text, _, after) ← Scan.first titleEndRe rest
  return (text, after)

/-- `[a-z]`. -/
def isNameStart (c : Char) : Bool := c.isAlpha || c == '\u212a' || c == '\u017f'

/-- `[a-z0-9:_-]`. -/
def isNameChar (c : Char) : Bool := isNameStart c || c.isDigit || c == ':' || c == '_' || c == '-'

/-- `"([^"]*)"|'([^']*)'`, whichever group it is. -/
def quoted (s : Str) : Option (Str × Str) :=
  match s with
  | q :: s =>
    if (q == '\"' || q == '\'') && s.contains q then some (s.takeWhile (· ≠ q), (s.dropWhile (· ≠ q)).tail)
    else none
  | [] => none

/-- `\s([a-z][a-z0-9:_-]*)\s*=\s*(?:"([^"]*)"|'([^']*)')`, the name and the
value. -/
def attrRe : Scan.Pattern Char (Str × Str) := fun s =>
  match s with
  | c :: s =>
    if Text.isWhitespace c && s.head?.any isNameStart then
      match (s.dropWhile isNameChar).dropWhile Text.isWhitespace with
      | '=' :: rest =>
        (quoted (rest.dropWhile Text.isWhitespace)).map fun m => ((s.takeWhile isNameChar, m.1), m.2)
      | _ => none
    else none
  | [] => none

/-! ## Tags -/

/-- One quoted attribute of a tag. -/
def attributeOf (tag : Str) (name : String) : Option Str :=
  ((Scan.all attrRe tag).find? fun a => Text.eqIgnoreAsciiCase a.1 name.toList).map (·.2)

/-- The attributes a tag can be keyed by. -/
inductive Key where
  | name
  | property
deriving DecidableEq, Repr

def Key.text : Key → String
  | .name => "name"
  | .property => "property"

/-- `name` is preferred to `property`. -/
def keyOf (tag : Str) : Option (Key × Str) :=
  match attributeOf tag "name" with
  | some name => some (.name, name)
  | none => (attributeOf tag "property").map fun property => (.property, property)

def wanted (key : Key) (lower : Str) : Bool :=
  match key with
  | .name => lower == "description".toList || Text.startsWith lower "twitter:".toList
  | .property => Text.startsWith lower "og:".toList || Text.startsWith lower "article:".toList

/-- `<meta {key}="{value}" content="{content}">`. -/
def metaTag (key : Key) (value content : Str) : Str :=
  "<meta ".toList ++ key.text.toList ++ "=\"".toList ++ value ++ "\" content=\"".toList ++ content ++ "\">".toList

/-- The large card, whatever card the origin names. -/
def twitterCard : Str := "<meta name=\"twitter:card\" content=\"summary_large_image\">".toList

def renderTag (m : Meta) (tag : Str) : Rust Meta :=
  match keyOf tag with
  | none => .ok m
  | some (key, value) =>
    let lower := Text.toAsciiLowercase value
    if !wanted key lower then .ok m
    else
      match attributeOf tag "content" with
      | none => .ok m
      | some content =>
        if content = [] then .ok m
        -- The origin may not know its own public address.
        else if lower = "og:url".toList ∨ lower = "twitter:url".toList then .ok m
        else if lower = "twitter:card".toList then .ok { m with tags := m.tags ++ [twitterCard] }
        else do
          let value ← decode value
          let content ← decode content
          return { m with tags := m.tags ++ [metaTag key (htmlEscape value) (htmlEscape content)] }

/-- The first `link` whose relation tokens include `icon`. -/
def noteIcon (m : Meta) (tag : Str) : Meta :=
  if m.iconUrl.isSome then m
  else
    match attributeOf tag "rel" with
    | none => m
    | some rel =>
      if !(Text.splitWhitespace (Text.toAsciiLowercase rel)).any (· == "icon".toList) then m
      else
        match attributeOf tag "href" with
        | none => m
        | some href => if href ≠ [] then { m with iconUrl := some href } else m

/-! ## Documents -/

/-- `MAX_TITLE`. -/
def maxTitle : Nat := 200

/-- The document after its `<head ..>`, or all of it. -/
def afterHeadTag (document : Str) : Rust Str :=
  match Text.find document "<head".toList with
  | some start => do
    let fromTag ← Text.sliceFrom document start
    Text.sliceFrom document (((Text.find fromTag ['>']).map fun i => start + i + 1).getD start)
  | none => .ok document

def headOf (document : Str) : Rust Str := do
  let head ← afterHeadTag document
  Text.sliceTo head ((Text.find (Text.toAsciiLowercase head) "</head>".toList).getD (Text.byteLen head))

def titleOf (head : Str) : Rust (Option Str) :=
  match Scan.first titleRe head with
  | none => .ok none
  | some (_, text, _) => do
    let title := Text.trim (← decode text)
    return if title ≠ [] then some (title.take maxTitle) else none

def scrape (document : Str) : Rust Meta := do
  let head ← headOf document
  let m ← (Scan.all metaTagRe head).foldlM renderTag { title := none, tags := [], iconUrl := none, icon := none }
  let m := (Scan.all linkTagRe head).foldl noteIcon m
  if m.title.isNone then return { m with title := ← titleOf head }
  else return m

/-- The first title of the page, swapped. -/
def replaceTitle (page title : Str) : Str :=
  match Scan.first titleRe page with
  | none => page
  | some (before, _, after) =>
    before ++ ("<title>".toList ++ htmlEscape title ++ "</title>".toList) ++ after

end NekoGuard.Embed
