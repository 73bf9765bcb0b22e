/-
How a browser's tokenizer reads an HTML document, character by character,
as far as it tells what each place is in: markup, text, a comment, or the
text of a script or style element. Where the tokenizer looks ahead at what
follows a `<`, so does the model. It asks the tree builder what kind of
text a start tag begins.
-/
import NekoGuard.Std.Text

namespace NekoGuard.Html

/-- The kind of text after a start tag; `raw` for both RCDATA and RAWTEXT. -/
inductive Content where
  | data
  | raw
  | script
  | plaintext
deriving DecidableEq

/-- What the tokenizer asks of the tree builder, given the text so far: the
kind of text after the start tag of an element, and whether a CDATA section
may stand here. -/
structure TreeBuilder where
  content : Str → Str → Content
  cdata : Str → Bool

/-- Where in a tag. -/
inductive TagState where
  | name
  | beforeAttribute
  | attribute
  | afterAttribute
  | beforeValue
  | quoted (q : Char)
  | unquoted
  | afterQuoted
  | selfClosing
deriving DecidableEq

/-- Where in a comment, past its `<!--`. -/
inductive CommentState where
  | start
  | startDash
  | body
  | endDash
  | ended
  | bang
deriving DecidableEq

/-- Where in the text of a script. A `<!--` escapes it, and a `<script` in
there does so twice; the dashes are those just read. -/
inductive ScriptState where
  | data
  | escaped (dashes : Nat)
  | doubleEscaped (dashes : Nat)
deriving DecidableEq

/-- What a place is in. -/
inductive Mode where
  | data
  | plaintext
  /-- The text of the named element. -/
  | raw (name : Str)
  | script (s : ScriptState)
  | comment (s : CommentState)
  | bogusComment
  | doctype
  | cdata (brackets : Nat)
  /-- A tag; the name so far, when it is a start tag. -/
  | tag (start : Option Str) (s : TagState)
  /-- The characters of a delimiter yet to come, and what it opens. -/
  | opening (n : Nat) (next : Mode)
deriving DecidableEq

def isSpace (c : Char) : Bool := c = '\t' || c = '\n' || c = '\x0c' || c = '\r' || c = ' '

/-- The name of a tag, in whatever case, and there it ends. -/
def startsName (name s : Str) : Bool :=
  Text.eqIgnoreAsciiCase (s.take name.length) name &&
    (s.drop name.length).head?.any fun c => isSpace c || c = '/' || c = '>'

/-- What follows a `<` makes it the end tag of the named element. -/
def startsEnd (name : Str) : Str → Bool
  | '/' :: s => startsName name s
  | _ => false

/-- One character of a tag outside its attribute values. -/
def TagState.outside (c : Char) (space other : TagState) : Option TagState :=
  if isSpace c then some space
  else if c = '/' then some .selfClosing
  else if c = '>' then none
  else some other

/-- One character of a tag; `none` where it ends the tag. -/
def TagState.advance (c : Char) : TagState → Option TagState
  | .name => outside c .beforeAttribute .name
  | .beforeAttribute => outside c .beforeAttribute .attribute
  | .attribute => if c = '=' then some .beforeValue else outside c .afterAttribute .attribute
  | .afterAttribute => if c = '=' then some .beforeValue else outside c .afterAttribute .attribute
  | .beforeValue =>
    if isSpace c then some .beforeValue
    else if c = '"' || c = '\'' then some (.quoted c)
    else if c = '>' then none
    else some .unquoted
  | .quoted q => if c = q then some .afterQuoted else some (.quoted q)
  | .unquoted => if isSpace c then some .beforeAttribute else if c = '>' then none else some .unquoted
  | .afterQuoted => outside c .beforeAttribute .attribute
  | .selfClosing => outside c .beforeAttribute .attribute

/-- One character of a comment; `none` where it ends the comment. -/
def CommentState.advance (c : Char) : CommentState → Option CommentState
  | .start => if c = '-' then some .startDash else if c = '>' then none else some .body
  | .startDash => if c = '-' then some .ended else if c = '>' then none else some .body
  | .body => if c = '-' then some .endDash else some .body
  | .endDash => if c = '-' then some .ended else some .body
  | .ended =>
    if c = '>' then none
    else if c = '!' then some .bang
    else if c = '-' then some .ended
    else some .body
  | .bang => if c = '-' then some .endDash else if c = '>' then none else some .body

/-- One character of a script, given those after it; `none` where it begins
the end tag. -/
def ScriptState.advance (c : Char) (rest : Str) : ScriptState → Option ScriptState
  | .data =>
    if c = '<' then
      if startsEnd "script".toList rest then none
      else if Text.startsWith rest "!--".toList then some (.escaped 0)
      else some .data
    else some .data
  | .escaped dashes =>
    if c = '<' then
      if startsEnd "script".toList rest then none
      else if startsName "script".toList rest then some (.doubleEscaped 0)
      else some (.escaped 0)
    else if c = '-' then some (.escaped (dashes + 1))
    else if c = '>' ∧ 2 ≤ dashes then some .data
    else some (.escaped 0)
  | .doubleEscaped dashes =>
    if c = '<' then
      if startsEnd "script".toList rest then some (.escaped 0) else some (.doubleEscaped 0)
    else if c = '-' then some (.doubleEscaped (dashes + 1))
    else if c = '>' ∧ 2 ≤ dashes then some .data
    else some (.doubleEscaped 0)

variable (tree : TreeBuilder)

/-- What a `<` in ordinary text begins, by what follows it. -/
def tagOpen (read : Str) : Str → Mode
  | '!' :: s =>
    if Text.startsWith s "--".toList then .opening 3 (.comment .start)
    else if Text.eqIgnoreAsciiCase (s.take 7) "doctype".toList then .opening 8 .doctype
    else if tree.cdata read && Text.startsWith s "[CDATA[".toList then .opening 8 (.cdata 0)
    else .opening 1 .bogusComment
  | '/' :: c :: _ =>
    if c.isAlpha then .opening 1 (.tag none .name)
    else if c = '>' then .opening 2 .data
    else .opening 1 .bogusComment
  | '?' :: _ => .bogusComment
  | c :: _ => if c.isAlpha then .tag (some []) .name else .data
  | [] => .data

/-- What is after a tag. -/
def afterTag (read : Str) : Option Str → Mode
  | some name =>
    match tree.content read name with
    | .data => .data
    | .raw => .raw name
    | .script => .script .data
    | .plaintext => .plaintext
  | none => .data

/-- One character, given the text before it and after it. -/
def Mode.advance (read : Str) (c : Char) (rest : Str) : Mode → Mode
  | .data => if c = '<' then tagOpen tree read rest else .data
  | .plaintext => .plaintext
  | .raw name => if c = '<' ∧ startsEnd name rest then .opening 1 (.tag none .name) else .raw name
  | .script s => (s.advance c rest).elim (.opening 1 (.tag none .name)) .script
  | .comment s => (s.advance c).elim .data .comment
  | .bogusComment => if c = '>' then .data else .bogusComment
  | .doctype => if c = '>' then .data else .doctype
  | .cdata brackets =>
    if c = ']' then .cdata (brackets + 1)
    else if c = '>' ∧ 2 ≤ brackets then .data
    else .cdata 0
  | .tag start s =>
    match s.advance c with
    | some .name => .tag (start.map (· ++ [c.toLower])) .name
    | some s => .tag start s
    | none => afterTag tree read start
  | .opening n next => if n ≤ 1 then next else .opening (n - 1) next

/-- What is between the head of a text and its tail, when the head begins in
the given mode. -/
def Mode.after (read : Str) (m : Mode) : Str → Str → Mode
  | [], _ => m
  | c :: head, tail => Mode.after (read ++ [c]) (m.advance tree read c (head ++ tail)) head tail

/-- Text of a script or style element, or a comment. -/
def Mode.Dead : Mode → Prop
  | .script _ => True
  | .comment _ => True
  | .bogusComment => True
  | .raw name => name = "style".toList
  | .opening _ next => next.Dead
  | _ => False

instance Mode.decidableDead : ∀ m : Mode, Decidable m.Dead
  | .script _ => isTrue trivial
  | .comment _ => isTrue trivial
  | .bogusComment => isTrue trivial
  | .raw name => inferInstanceAs (Decidable (name = "style".toList))
  | .opening _ next => decidableDead next
  | .data | .plaintext | .doctype | .cdata _ | .tag .. => isFalse id

/-- The answers for elements of HTML itself, with scripting on. -/
def htmlElements : TreeBuilder where
  content _ name :=
    if name = "script".toList then .script
    else if name = "plaintext".toList then .plaintext
    else if name ∈ ["title", "textarea", "style", "xmp", "iframe", "noembed", "noframes", "noscript"].map String.toList
    then .raw
    else .data
  cdata _ := false

end NekoGuard.Html
