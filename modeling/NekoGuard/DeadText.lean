/-
inject.rs: whether `inject_into_html` puts the snippet where a browser takes
it for markup. It finds its place by the characters alone, so a closing tag
that a script, a style or a comment quotes counts as a real one does: that
goes well exactly when a real one follows it (`spliced_live_iff`).
-/
import NekoGuard.Insertion
import NekoGuard.Std.HtmlFacts

namespace NekoGuard.Inject

open Html

/-- The snippet, whatever it is, goes `n` bytes into the document. -/
def SplicesAt (html : Str) (n : Nat) : Prop :=
  ∃ head tail, html = head ++ tail ∧ Text.byteLen head = n ∧
    ∀ snippet, injectIntoHtml html snippet = .ok (head ++ snippet ++ tail)

/-- There the document is in the text of a script or style element, or in a
comment. -/
def DeadAt (tree : TreeBuilder) (html : Str) (n : Nat) : Prop :=
  ∃ head tail, html = head ++ tail ∧ Text.byteLen head = n ∧ (Mode.after tree [] .data head tail).Dead

/-- Where a word stands in dead text, it stands outside of it further on. -/
def LiveLast (tree : TreeBuilder) (html word : Str) : Prop :=
  ∀ n, OccursAt html word n → DeadAt tree html n → ∃ m, n < m ∧ OccursAt html word m ∧ ¬DeadAt tree html m

/-- The document closes its body outside dead text after any quoted closing
tag; or else itself; or else it does not end in dead text. -/
inductive ClosesLive (tree : TreeBuilder) (html : Str) : Prop where
  | body (n : Nat) (h : OccursAt html "</body>".toList n) (hlive : LiveLast tree html "</body>".toList)
  | html (hbody : ∀ m, ¬OccursAt html "</body>".toList m) (n : Nat) (h : OccursAt html "</html>".toList n)
    (hlive : LiveLast tree html "</html>".toList)
  | close (hbody : ∀ m, ¬OccursAt html "</body>".toList m) (hhtml : ∀ m, ¬OccursAt html "</html>".toList m)
    (hlive : ¬DeadAt tree html (Text.byteLen html))

variable {tree : TreeBuilder} {html word : Str} {n m : Nat}

theorem LastAt.unique (hn : LastAt html word n) (hm : LastAt html word m) : n = m :=
  Nat.le_antisymm (hm.last n hn.occurs) (hn.last m hm.occurs)

theorem LastAt.liveLast_iff (h : LastAt html word n) : LiveLast tree html word ↔ ¬DeadAt tree html n := by
  constructor
  · intro hlive hdead
    obtain ⟨m, hlt, hm, -⟩ := hlive n h.occurs hdead
    exact absurd (h.last m hm) (Nat.not_le.mpr hlt)
  · intro hlive m hm hdead
    have hne : m ≠ n := fun heq => hlive (heq ▸ hdead)
    exact ⟨n, Nat.lt_of_le_of_ne (h.last m hm) hne, h.occurs, hlive⟩

theorem InsertionAt.closesLive_iff (h : InsertionAt html n) : ClosesLive tree html ↔ ¬DeadAt tree html n := by
  cases h with
  | body h =>
    rw [← h.liveLast_iff]
    constructor
    · intro hclose
      cases hclose with
      | body _ _ hlive => exact hlive
      | html hbody => exact absurd h.occurs (hbody n)
      | close hbody => exact absurd h.occurs (hbody n)
    · exact .body n h.occurs
  | html hbody h =>
    rw [← h.liveLast_iff]
    constructor
    · intro hclose
      cases hclose with
      | body m hm => exact absurd hm (hbody m)
      | html _ _ _ hlive => exact hlive
      | close _ hhtml => exact absurd h.occurs (hhtml n)
    · exact .html hbody n h.occurs
  | close hbody hhtml h =>
    subst h
    constructor
    · intro hclose
      cases hclose with
      | body m hm => exact absurd hm (hbody m)
      | html _ m hm => exact absurd hm (hhtml m)
      | close _ _ hlive => exact hlive
    · exact .close hbody hhtml

/-- No text in which nothing else begins with its first character can stand
at two places of the same splice so near to each other. -/
theorem splice_inj {d tail tail' : Str} {k : Nat} (hk : d.length ≤ k)
    (h : 'a' :: (List.replicate k 'b' ++ tail) = d ++ 'a' :: (List.replicate k 'b' ++ tail')) : d = [] := by
  by_contra hd
  obtain ⟨j, hj⟩ := Nat.exists_eq_succ_of_ne_zero (mt List.length_eq_zero_iff.mp hd)
  have hright : (d ++ 'a' :: (List.replicate k 'b' ++ tail'))[d.length]? = some 'a' := by
    rw [List.getElem?_append_right (Nat.le_refl _), Nat.sub_self, List.getElem?_cons_zero]
  have hleft : ('a' :: (List.replicate k 'b' ++ tail))[d.length]? = some 'b' := by
    have hlt : j < k := by omega
    rw [hj, Nat.succ_eq_add_one, List.getElem?_cons_succ, List.getElem?_append_left (by simpa using hlt)]
    simp [hlt]
  rw [← h, hleft] at hright
  exact absurd hright (by decide)

theorem SplicesAt.le (hn : SplicesAt html n) (hm : SplicesAt html m) : n ≤ m := by
  obtain ⟨head, tail, hhtml, rfl, hsplice⟩ := hn
  obtain ⟨head', tail', hhtml', rfl, hsplice'⟩ := hm
  have hp : head <+: html := ⟨tail, hhtml.symm⟩
  have hp' : head' <+: html := ⟨tail', hhtml'.symm⟩
  rcases Nat.le_total head.length head'.length with hle | hle
  · exact Text.byteLen_le_of_prefix (List.prefix_of_prefix_length_le hp hp' hle)
  · obtain ⟨d, rfl⟩ := List.prefix_of_prefix_length_le hp' hp hle
    have hd : d.length ≤ html.length := by
      have hlen := congrArg List.length hhtml
      simp only [List.length_append] at hlen
      omega
    have heq := (hsplice ('a' :: List.replicate html.length 'b')).symm.trans
      (hsplice' ('a' :: List.replicate html.length 'b'))
    simp only [Except.ok.injEq, List.append_assoc, List.cons_append, List.append_cancel_left_eq] at heq
    rw [splice_inj hd heq.symm, List.append_nil]

/-- **When the snippet is spliced outside dead text.** The place is outside
the text of scripts, styles and comments if and only if the document closes
its body, or else itself, outside of them after any closing tag they quote;
or else does not end in them. -/
theorem spliced_live_iff (tree : TreeBuilder) (html : Str) :
    (∃ n, SplicesAt html n ∧ ¬DeadAt tree html n) ↔ ClosesLive tree html := by
  obtain ⟨head, tail, hat, hhtml, hsplice⟩ := exists_insertion html
  have hspliced : SplicesAt html (Text.byteLen head) := ⟨head, tail, hhtml, rfl, hsplice⟩
  rw [hat.closesLive_iff]
  constructor
  · intro ⟨n, hn, hlive⟩
    rwa [Nat.le_antisymm (hspliced.le hn) (hn.le hspliced)]
  · intro hlive
    exact ⟨_, hspliced, hlive⟩

/-! ## Documents that close what they open -/

theorem deadAt_iff {head tail : Str} :
    DeadAt tree (head ++ tail) (Text.byteLen head) ↔ (Mode.after tree [] .data head tail).Dead := by
  constructor
  · intro ⟨head', tail', hhtml, hlen, hdead⟩
    have hhead : head' = head := by
      have hslice := Text.sliceTo_append head tail
      rw [hhtml, ← hlen, Text.sliceTo_append] at hslice
      exact Except.ok.inj hslice
    subst hhead
    rwa [List.append_cancel_left hhtml]
  · intro hdead
    exact ⟨head, tail, rfl, rfl, hdead⟩

variable {front tail text attributes name : Str}

/-- Where all before the place is closed, the snippet is live: whatever
closing tags that quotes, and whichever the document leaves out. -/
theorem closesLive_of_fragment (hfront : Fragment tree front)
    (hat : InsertionAt (front ++ tail) (Text.byteLen front)) : ClosesLive tree (front ++ tail) := by
  rw [hat.closesLive_iff, deadAt_iff, hfront.closed]
  exact id

/-- Where the last closing tag is one that a script quotes, it is not. -/
theorem not_closesLive_of_quoted (hfront : Fragment tree front) (hname : TagName name)
    (hattributes : Attributes attributes) (hscript : Text.toAsciiLowercase name = "script".toList)
    (hcontent : ∀ read, tree.content read "script".toList = .script) (htext : ScriptText text)
    (hat : InsertionAt (front ++ openTag name attributes ++ text ++ '<' :: tail)
      (Text.byteLen (front ++ openTag name attributes ++ text))) :
    ¬ClosesLive tree (front ++ openTag name attributes ++ text ++ '<' :: tail) := by
  rw [hat.closesLive_iff, not_not, deadAt_iff, after_append, after_append, hfront.closed,
    after_openTag hname hattributes, hscript]
  simp only [afterTag, hcontent]
  rw [after_script htext]
  trivial

/-- A script quotes the closing tag that the document leaves out. -/
def quotedOnly : Str := "<body><script>var s = '</body>';</script><p>x</p>".toList

theorem quotedOnly_spliced_dead : ∃ n, SplicesAt quotedOnly n ∧ DeadAt htmlElements quotedOnly n := by
  let head := "<body><script>var s = '".toList
  let tail := "</body>';</script><p>x</p>".toList
  have hrfind : Text.rfind (Text.toAsciiLowercase quotedOnly) "</body>".toList = some (Text.byteLen head) := by
    decide +kernel
  refine ⟨_, ⟨head, tail, rfl, rfl, fun snippet => ?_⟩, head, tail, rfl, rfl, by decide +kernel⟩
  unfold injectIntoHtml
  simp only [hrfind]
  rw [show quotedOnly = head ++ tail from rfl, Text.sliceTo_append, Text.sliceFrom_append]
  rfl

end NekoGuard.Inject
