/-
Texts that the tokenizer comes out of as it went in: ordinary text, whole
tags and comments, elements whose text it takes as it is. What is made of
them, one after the other, is one again (`Fragment.closed`).
-/
import NekoGuard.Lib.Scan
import NekoGuard.Std.Html

namespace NekoGuard.Html

open Lib

variable {tree : TreeBuilder} {read s t tail name attributes : Str} {m : Mode}

theorem after_append (read : Str) (m : Mode) (s t tail : Str) :
    Mode.after tree read m (s ++ t) tail =
      Mode.after tree (read ++ s) (Mode.after tree read m s (t ++ tail)) t tail := by
  induction s generalizing read m with
  | nil => simp [Mode.after]
  | cons c s ih => simp only [List.cons_append, Mode.after, ih, List.append_assoc, List.nil_append]

theorem after_cons (read : Str) (m : Mode) (c : Char) (s tail : Str) :
    Mode.after tree read m (c :: s) tail =
      Mode.after tree (read ++ [c]) (m.advance tree read c (s ++ tail)) s tail := rfl

/-- From ordinary text the tokenizer comes back to it, whatever is around. -/
def Closed (tree : TreeBuilder) (s : Str) : Prop := ∀ read tail, Mode.after tree read .data s tail = .data

theorem Closed.nil : Closed tree [] := fun _ _ => rfl

theorem Closed.append (hs : Closed tree s) (ht : Closed tree t) : Closed tree (s ++ t) := by
  intro read tail
  rw [after_append, hs, ht]

theorem closed_text (hs : '<' ∉ s) : Closed tree s := by
  intro read tail
  induction s generalizing read with
  | nil => rfl
  | cons c s ih =>
    simp only [List.mem_cons, not_or] at hs
    have hc : Mode.advance tree read c (s ++ tail) .data = .data := if_neg (Ne.symm hs.1)
    rw [after_cons, hc, ih hs.2]

/-! ## Tags -/

/-- Where the characters take a tag, when none of them ends it. -/
def TagState.run : TagState → Str → Option TagState
  | s, [] => some s
  | s, c :: rest => (s.advance c).bind fun s => s.run rest

theorem TagState.advance_name {s : TagState} {c : Char} (h : s.advance c = some .name) : s = .name := by
  cases s <;> simp only [TagState.advance, TagState.outside] at h <;> first | rfl | (split_ifs at h <;> cases h)

/-- What stands between the name of a tag and its `>`. -/
structure Attributes (s : Str) : Prop where
  begins : ∀ c ∈ s.head?, isSpace c = true ∨ c = '/'
  ends : ∃ state, TagState.run .name s = some state ∧ state.advance '>' = none

theorem advance_tag {start : Option Str} {state next : TagState} {c : Char} (hnext : state.advance c = some next)
    (hne : next ≠ .name) (rest : Str) : Mode.advance tree read c rest (.tag start state) = .tag start next := by
  simp only [Mode.advance, hnext]

theorem after_attributes {start : Option Str} {state state' : TagState} (hstate : state ≠ .name)
    (h : state.run s = some state') : Mode.after tree read (.tag start state) s tail = .tag start state' := by
  induction s generalizing read state with
  | nil =>
    cases h
    rfl
  | cons c s ih =>
    obtain ⟨next, hnext, h⟩ := Option.bind_eq_some_iff.mp h
    have hne : next ≠ .name := fun heq => hstate (TagState.advance_name (heq ▸ hnext))
    rw [after_cons, advance_tag hnext hne]
    exact ih hne h

theorem ne_of_isAlpha {c : Char} (hc : c.isAlpha = true) (d : Char) (hd : d.isAlpha = false) : c ≠ d := by
  intro heq
  simp [← heq, hc] at hd

theorem TagState.advance_alpha {c : Char} (hc : c.isAlpha = true) : TagState.advance c .name = some .name := by
  have hne := ne_of_isAlpha hc
  have hspace : isSpace c = false := by
    simp [isSpace, hne '\t' (by decide), hne '\n' (by decide), hne '\x0c' (by decide), hne '\r' (by decide),
      hne ' ' (by decide)]
  simp [TagState.advance, TagState.outside, hspace, hne '/' (by decide), hne '>' (by decide)]

theorem after_name {start : Option Str} (hname : ∀ c ∈ name, c.isAlpha = true) :
    Mode.after tree read (.tag start .name) name tail =
      .tag (start.map (· ++ Text.toAsciiLowercase name)) .name := by
  induction name generalizing read start with
  | nil => cases start <;> simp [Mode.after, Text.toAsciiLowercase]
  | cons c name ih =>
    simp only [List.mem_cons, forall_eq_or_imp] at hname
    have hadvance : Mode.advance tree read c (name ++ tail) (.tag start .name) =
        .tag (start.map (· ++ [c.toLower])) .name := by
      simp only [Mode.advance, TagState.advance_alpha hname.1]
    rw [after_cons, hadvance, ih hname.2]
    cases start <;> simp [Text.toAsciiLowercase]

/-- The rest of a tag from its name on. -/
theorem after_tag {start : Option Str} (hname : ∀ c ∈ name, c.isAlpha = true) (hattributes : Attributes attributes) :
    Mode.after tree read (.tag start .name) (name ++ (attributes ++ ['>'])) tail =
      afterTag tree (read ++ name ++ attributes) (start.map (· ++ Text.toAsciiLowercase name)) := by
  obtain ⟨state, hrun, hend⟩ := hattributes.ends
  rw [after_append, after_name hname, after_append]
  have hat : Mode.after tree (read ++ name) (.tag (start.map (· ++ Text.toAsciiLowercase name)) .name) attributes
      (['>'] ++ tail) = .tag (start.map (· ++ Text.toAsciiLowercase name)) state := by
    cases attributes with
    | nil =>
      cases hrun
      rfl
    | cons c rest =>
      obtain ⟨next, hnext, hrest⟩ := Option.bind_eq_some_iff.mp hrun
      have hne : next ≠ .name := by
        have hfirst := hattributes.begins c rfl
        intro heq
        rw [heq] at hnext
        rcases hfirst with hspace | rfl
        · simp [TagState.advance, TagState.outside, hspace] at hnext
        · simp [TagState.advance, TagState.outside, isSpace] at hnext
      rw [after_cons, advance_tag hnext hne]
      exact after_attributes hne hrest
  rw [hat, after_cons]
  simp only [Mode.after, Mode.advance, hend]

/-- The name of a tag. -/
structure TagName (name : Str) : Prop where
  ne_nil : name ≠ []
  alpha : ∀ c ∈ name, c.isAlpha = true

def openTag (name attributes : Str) : Str := '<' :: (name ++ (attributes ++ ['>']))

def closeTag (name attributes : Str) : Str := '<' :: '/' :: (name ++ (attributes ++ ['>']))

theorem after_openTag (hname : TagName name) (hattributes : Attributes attributes) (read tail : Str) :
    Mode.after tree read .data (openTag name attributes) tail =
      afterTag tree (read ++ ['<'] ++ name ++ attributes) (some (Text.toAsciiLowercase name)) := by
  obtain ⟨c, rest, rfl⟩ := List.exists_cons_of_ne_nil hname.ne_nil
  have hc : c.isAlpha = true := hname.alpha c List.mem_cons_self
  have hne := ne_of_isAlpha hc
  have hopen : ∀ s, Mode.advance tree read '<' (c :: s) .data = .tag (some []) .name := by
    intro s
    show tagOpen tree read (c :: s) = _
    unfold tagOpen
    split
    · next heq => exact absurd (List.cons.inj heq).1 (hne '!' (by decide))
    · next heq => exact absurd (List.cons.inj heq).1 (hne '/' (by decide))
    · next heq => exact absurd (List.cons.inj heq).1 (hne '?' (by decide))
    · next heq =>
      rw [← (List.cons.inj heq).1, if_pos hc]
    · next heq => cases heq
  rw [openTag, after_cons, List.cons_append, List.cons_append, hopen, ← List.cons_append,
    after_tag hname.alpha hattributes]
  rfl

/-- The rest of an end tag from its `/` on. -/
theorem after_endTag (hname : TagName name) (hattributes : Attributes attributes) (read tail : Str) :
    Mode.after tree read (.opening 1 (.tag none .name)) ('/' :: (name ++ (attributes ++ ['>']))) tail = .data := by
  rw [after_cons]
  exact after_tag hname.alpha hattributes

theorem closed_openTag (hname : TagName name) (hattributes : Attributes attributes)
    (hcontent : ∀ read, tree.content read (Text.toAsciiLowercase name) = .data) :
    Closed tree (openTag name attributes) := by
  intro read tail
  rw [after_openTag hname hattributes]
  simp only [afterTag, hcontent]

theorem closed_closeTag (hname : TagName name) (hattributes : Attributes attributes) :
    Closed tree (closeTag name attributes) := by
  intro read tail
  obtain ⟨c, rest, rfl⟩ := List.exists_cons_of_ne_nil hname.ne_nil
  have hc : c.isAlpha = true := hname.alpha c List.mem_cons_self
  have hopen : ∀ s, Mode.advance tree read '<' ('/' :: c :: s) .data = .opening 1 (.tag none .name) := fun _ => if_pos hc
  rw [closeTag, after_cons, List.cons_append, List.cons_append, List.cons_append, hopen, ← List.cons_append,
    after_endTag hname hattributes]

/-! ## Elements whose text is taken as it is -/

/-- A `<` after a text adds no tag to it. -/
theorem startsName_append (hname : ∀ c ∈ name, c.isAlpha = true) (s t : Str) :
    startsName (Text.toAsciiLowercase name) (s ++ '<' :: t) = startsName (Text.toAsciiLowercase name) s := by
  have hlt : '<' ∉ Text.toAsciiLowercase name := by
    intro hmem
    obtain ⟨c, hc, hlower⟩ := List.mem_map.mp hmem
    have hlt := Text.eq_of_toLower (by decide) hlower
    exact absurd (hname c hc) (by simp [hlt])
  generalize Text.toAsciiLowercase name = word at hlt
  unfold startsName
  by_cases hle : word.length ≤ s.length
  · rw [List.take_append_of_le_length hle, List.drop_append_of_le_length hle]
    cases hrest : s.drop word.length with
    | nil => simp [isSpace]
    | cons c rest => rfl
  · have hshort : ∀ u : Str, Text.eqIgnoreAsciiCase u word = true → u.length = word.length ∧ '<' ∉ u := by
      intro u hu
      have heq : Text.toAsciiLowercase u = Text.toAsciiLowercase word := eq_of_beq hu
      constructor
      · simpa [Text.toAsciiLowercase] using congrArg List.length heq
      · intro hmem
        have hin : '<' ∈ Text.toAsciiLowercase word := heq ▸ List.mem_map.mpr ⟨'<', hmem, rfl⟩
        exact absurd hin (Text.not_mem_toAsciiLowercase (by decide) hlt)
    have hs : Text.eqIgnoreAsciiCase (s.take word.length) word = false := by
      rw [← Bool.not_eq_true]
      intro h
      have hlen := (hshort _ h).1
      rw [List.length_take] at hlen
      omega
    have happend : Text.eqIgnoreAsciiCase ((s ++ '<' :: t).take word.length) word = false := by
      rw [← Bool.not_eq_true]
      intro h
      obtain ⟨j, hj⟩ := Nat.exists_eq_add_of_lt (Nat.lt_of_not_le hle)
      refine (hshort _ h).2 ?_
      rw [hj, Nat.add_assoc, List.take_length_add_append, List.take_succ_cons]
      simp
    rw [hs, happend, Bool.false_and, Bool.false_and]

theorem startsEnd_append (hname : ∀ c ∈ name, c.isAlpha = true) (s t : Str) :
    startsEnd (Text.toAsciiLowercase name) (s ++ '<' :: t) = startsEnd (Text.toAsciiLowercase name) s := by
  cases s with
  | nil => rfl
  | cons c s =>
    by_cases hc : c = '/'
    · subst hc
      exact startsName_append hname s t
    · simp [startsEnd, hc]

/-- The end tag of an element is one. -/
theorem startsEnd_endTag (hattributes : Attributes attributes) {close : Str}
    (hclose : Text.toAsciiLowercase close = Text.toAsciiLowercase name) (tail : Str) :
    startsEnd (Text.toAsciiLowercase name) ('/' :: (close ++ (attributes ++ ['>'])) ++ tail) = true := by
  have hlen : (Text.toAsciiLowercase name).length = close.length := by
    rw [← hclose, Text.toAsciiLowercase, List.length_map]
  have hname : Text.eqIgnoreAsciiCase close (Text.toAsciiLowercase name) = true := by
    rw [Text.eqIgnoreAsciiCase, hclose, Text.toAsciiLowercase_idem, beq_self_eq_true]
  show startsName _ (close ++ (attributes ++ ['>']) ++ tail) = true
  rw [startsName, hlen, List.append_assoc, List.take_left, List.drop_left, hname]
  cases attributes with
  | nil => rfl
  | cons c rest =>
    rcases hattributes.begins c rfl with hspace | rfl
    · simp [hspace]
    · simp

/-- Text that has no end tag of the element it is in. -/
def RawText (name s : Str) : Prop := ∀ rest, '<' :: rest <:+ s → startsEnd name rest = false

/-- Text of a script that neither ends nor escapes it. -/
structure ScriptText (s : Str) : Prop where
  raw : RawText "script".toList s
  plain : ∀ rest, '<' :: rest <:+ s → Text.startsWith rest "!--".toList = false

theorem after_raw (hname : ∀ c ∈ name, c.isAlpha = true) (hs : RawText (Text.toAsciiLowercase name) s)
    (read tail : Str) : Mode.after tree read (.raw (Text.toAsciiLowercase name)) s ('<' :: tail) =
      .raw (Text.toAsciiLowercase name) := by
  induction s generalizing read with
  | nil => rfl
  | cons c s ih =>
    have hadvance : Mode.advance tree read c (s ++ '<' :: tail) (.raw (Text.toAsciiLowercase name)) =
        .raw (Text.toAsciiLowercase name) := by
      refine if_neg ?_
      intro ⟨hc, hend⟩
      subst hc
      rw [startsEnd_append hname, hs s (List.suffix_refl _)] at hend
      cases hend
    rw [after_cons, hadvance, ih fun rest hrest => hs rest (hrest.trans (List.suffix_cons c s))]

theorem script_lower : Text.toAsciiLowercase "script".toList = "script".toList := by decide

theorem script_alpha : ∀ c ∈ "script".toList, c.isAlpha = true := by decide

theorem startsEnd_script_append (s t : Str) :
    startsEnd "script".toList (s ++ '<' :: t) = startsEnd "script".toList s := by
  have h := startsEnd_append script_alpha s t
  rwa [script_lower] at h

theorem startsWith_escape_append (s t : Str) :
    Text.startsWith (s ++ '<' :: t) "!--".toList = Text.startsWith s "!--".toList := by
  have hlt : '<' ∉ "!--".toList.tail := by decide
  cases s with
  | nil => rfl
  | cons c s => exact Scan.isPrefixOf_append_cons (List.cons_ne_nil c s) hlt

theorem ScriptText.of_cons {c : Char} (h : ScriptText (c :: s)) : ScriptText s where
  raw := fun rest hrest => h.raw rest (hrest.trans (List.suffix_cons c s))
  plain := fun rest hrest => h.plain rest (hrest.trans (List.suffix_cons c s))

theorem after_script (hs : ScriptText s) (read tail : Str) :
    Mode.after tree read (.script .data) s ('<' :: tail) = .script .data := by
  induction s generalizing read with
  | nil => rfl
  | cons c s ih =>
    have hadvance : Mode.advance tree read c (s ++ '<' :: tail) (.script .data) = .script .data := by
      by_cases hc : c = '<'
      · subst hc
        simp only [Mode.advance, ScriptState.advance, startsEnd_script_append, startsWith_escape_append,
          hs.raw s (List.suffix_refl _), hs.plain s (List.suffix_refl _)]
        rfl
      · simp [Mode.advance, ScriptState.advance, hc]
    rw [after_cons, hadvance, ih hs.of_cons]

/-- An element whose text is raw. -/
theorem closed_raw {close attributes' : Str} (hname : TagName name) (hattributes : Attributes attributes)
    (hcontent : ∀ read, tree.content read (Text.toAsciiLowercase name) = .raw)
    (hs : RawText (Text.toAsciiLowercase name) s) (hclose : TagName close)
    (hlower : Text.toAsciiLowercase close = Text.toAsciiLowercase name) (hattributes' : Attributes attributes') :
    Closed tree (openTag name attributes ++ (s ++ closeTag close attributes')) := by
  intro read tail
  rw [after_append, after_openTag hname hattributes, after_append]
  simp only [afterTag, hcontent]
  rw [closeTag, List.cons_append, after_raw hname.alpha hs, after_cons]
  have hadvance : ∀ read, Mode.advance tree read '<' ('/' :: (close ++ (attributes' ++ ['>'])) ++ tail)
      (.raw (Text.toAsciiLowercase name)) = .opening 1 (.tag none .name) := fun read =>
    if_pos ⟨rfl, startsEnd_endTag hattributes' hlower tail⟩
  rw [hadvance, after_endTag hclose hattributes']

/-- A script. -/
theorem closed_script {close attributes' : Str} (hname : TagName name) (hattributes : Attributes attributes)
    (hscript : Text.toAsciiLowercase name = "script".toList)
    (hcontent : ∀ read, tree.content read "script".toList = .script) (hs : ScriptText s) (hclose : TagName close)
    (hlower : Text.toAsciiLowercase close = "script".toList) (hattributes' : Attributes attributes') :
    Closed tree (openTag name attributes ++ (s ++ closeTag close attributes')) := by
  intro read tail
  rw [after_append, after_openTag hname hattributes, after_append, hscript]
  simp only [afterTag, hcontent]
  rw [closeTag, List.cons_append, after_script hs, after_cons]
  have hend : startsEnd "script".toList ('/' :: (close ++ (attributes' ++ ['>'])) ++ tail) = true := by
    rw [← script_lower]
    exact startsEnd_endTag hattributes' (hlower.trans script_lower.symm) tail
  have hadvance : ∀ read, Mode.advance tree read '<' ('/' :: (close ++ (attributes' ++ ['>'])) ++ tail)
      (.script .data) = .opening 1 (.tag none .name) := by
    intro read
    simp only [Mode.advance, ScriptState.advance, hend, if_true, Option.elim_none]
  rw [hadvance, after_endTag hclose hattributes']

/-! ## Comments -/

/-- Text of a comment that does not end it: no two dashes in a row, and
neither `>` nor `->` first. -/
structure CommentText (s : Str) : Prop where
  noDashes : ¬['-', '-'] <:+: s
  noBracket : ¬['>'] <+: s
  noArrow : ¬['-', '>'] <+: s

/-- Two dashes and a `>` end the comment from there. -/
def CommentState.Ends : CommentState → Prop
  | .start | .startDash | .body | .endDash => True
  | .ended | .bang => False

theorem after_commentEnd {state : CommentState} (h : state.Ends) (read tail : Str) :
    Mode.after tree read (.comment state) ['-', '-', '>'] tail = .data := by
  cases state with
  | ended => cases h
  | bang => cases h
  | _ => rfl

/-- Past its beginning a comment stays open up to two dashes in a row. -/
theorem after_commentBody (read tail : Str) :
    (¬['-', '-'] <:+: s → (∃ state, state.Ends ∧ Mode.after tree read (.comment .body) s tail = .comment state)) ∧
      (¬['-', '-'] <:+: '-' :: s →
        ∃ state, state.Ends ∧ Mode.after tree read (.comment .endDash) s tail = .comment state) := by
  induction s generalizing read with
  | nil => exact ⟨fun _ => ⟨.body, trivial, rfl⟩, fun _ => ⟨.endDash, trivial, rfl⟩⟩
  | cons c s ih =>
    have ihBody := (ih (read ++ [c])).1
    have ihDash := (ih (read ++ [c])).2
    constructor
    · intro hs
      by_cases hc : c = '-'
      · subst hc
        exact ihDash hs
      · have hadvance : Mode.advance tree read c (s ++ tail) (.comment .body) = .comment .body := by
          simp [Mode.advance, CommentState.advance, hc]
        rw [after_cons, hadvance]
        exact ihBody fun h => hs (h.trans (List.suffix_cons c s).isInfix)
    · intro hs
      have hc : c ≠ '-' := by
        intro hc
        subst hc
        exact hs ⟨[], s, rfl⟩
      have hadvance : Mode.advance tree read c (s ++ tail) (.comment .endDash) = .comment .body := by
        simp [Mode.advance, CommentState.advance, hc]
      rw [after_cons, hadvance]
      exact ihBody fun h => hs ((h.trans (List.suffix_cons c s).isInfix).trans (List.suffix_cons '-' (c :: s)).isInfix)

theorem after_commentText (hs : CommentText s) (read tail : Str) :
    ∃ state, state.Ends ∧ Mode.after tree read (.comment .start) s tail = .comment state := by
  cases s with
  | nil => exact ⟨.start, trivial, rfl⟩
  | cons c s =>
    have hbracket : c ≠ '>' := fun hc => hs.noBracket ⟨s, by rw [hc]; rfl⟩
    by_cases hc : c = '-'
    · subst hc
      cases s with
      | nil => exact ⟨.startDash, trivial, rfl⟩
      | cons d s =>
        have hdash : d ≠ '-' := fun hd => hs.noDashes ⟨[], s, by rw [hd]; rfl⟩
        have harrow : d ≠ '>' := fun hd => hs.noArrow ⟨s, by rw [hd]; rfl⟩
        have hadvance : Mode.after tree read (.comment .start) ('-' :: d :: s) tail =
            Mode.after tree (read ++ ['-'] ++ [d]) (.comment .body) s tail := by
          rw [after_cons, after_cons]
          simp [Mode.advance, CommentState.advance, hdash, harrow]
        rw [hadvance]
        exact (after_commentBody _ _).1 fun h => hs.noDashes (h.trans ⟨['-', d], [], by simp⟩)
    · have hadvance : Mode.advance tree read c (s ++ tail) (.comment .start) = .comment .body := by
        simp [Mode.advance, CommentState.advance, hc, hbracket]
      rw [after_cons, hadvance]
      exact (after_commentBody _ _).1 fun h => hs.noDashes (h.trans (List.suffix_cons c s).isInfix)

theorem closed_comment (hs : CommentText s) : Closed tree ("<!--".toList ++ (s ++ "-->".toList)) := by
  intro read tail
  have hopen : ∀ t, Mode.after tree read .data "<!--".toList t = .comment .start := fun _ => rfl
  rw [after_append, hopen, after_append]
  obtain ⟨state, hends, hstate⟩ := after_commentText hs (read ++ "<!--".toList) ("-->".toList ++ tail)
  rw [hstate]
  exact after_commentEnd hends _ tail

/-! ## What is made of them -/

/-- A delimiter is over after its characters. -/
theorem after_opening {next : Mode} (hs : s ≠ []) (read tail : Str) :
    Mode.after tree read (.opening s.length next) s tail = next := by
  induction s generalizing read with
  | nil => exact absurd rfl hs
  | cons c s ih =>
    cases s with
    | nil => rfl
    | cons d s => exact ih nofun (read ++ [c])

/-- A document type declaration. -/
theorem closed_doctype {word : Str} (hword : Text.toAsciiLowercase word = "doctype".toList) (hs : '>' ∉ s) :
    Closed tree ('<' :: '!' :: (word ++ (s ++ ['>']))) := by
  intro read tail
  have hlen : word.length = 7 := by
    have hlen := congrArg List.length hword
    rwa [Text.toAsciiLowercase, List.length_map] at hlen
  obtain ⟨c, rest, rfl⟩ := List.exists_cons_of_length_pos (by omega : 0 < word.length)
  have hc : c ≠ '-' := by
    intro hc
    subst hc
    exact absurd (List.cons.inj hword).1 (by decide)
  have hopen : ∀ t, Mode.advance tree read '<' ('!' :: (c :: rest ++ t)) .data = .opening 8 .doctype := by
    intro t
    have hdashes : Text.startsWith (c :: rest ++ t) "--".toList = false := by
      simp [Text.startsWith, List.isPrefixOf, Ne.symm hc]
    have htake : Text.eqIgnoreAsciiCase ((c :: rest ++ t).take 7) "doctype".toList = true := by
      rw [← hlen, List.take_left, Text.eqIgnoreAsciiCase, hword]
      decide
    show tagOpen tree read ('!' :: (c :: rest ++ t)) = _
    simp only [tagOpen, hdashes, htake, Bool.false_eq_true, if_false, if_true]
  have hstay : ∀ read t, Mode.after tree read .doctype s t = .doctype := by
    clear hopen
    induction s with
    | nil => exact fun _ _ => rfl
    | cons c s ih =>
      simp only [List.mem_cons, not_or] at hs
      intro read t
      have hadvance : Mode.advance tree read c (s ++ t) .doctype = .doctype := if_neg (Ne.symm hs.1)
      rw [after_cons, hadvance, ih hs.2]
  have hskip : ∀ read t, Mode.after tree read (.opening 8 .doctype) ('!' :: c :: rest) t = .doctype := by
    intro read t
    have hlen' : 8 = ('!' :: c :: rest).length := by rw [List.length_cons, hlen]
    rw [hlen']
    exact after_opening (List.cons_ne_nil _ _) read t
  rw [after_cons, ← List.cons_append, List.append_assoc, List.cons_append, List.append_assoc, hopen]
  rw [after_append, hskip, after_append, hstay]
  rfl

/-- A document, or the front of one, in which everything opened is closed. -/
inductive Fragment (tree : TreeBuilder) : Str → Prop where
  | nil : Fragment tree []
  | append {s t : Str} (hs : Fragment tree s) (ht : Fragment tree t) : Fragment tree (s ++ t)
  | text {s : Str} (hs : '<' ∉ s) : Fragment tree s
  | doctype {word s : Str} (hword : Text.toAsciiLowercase word = "doctype".toList) (hs : '>' ∉ s) :
    Fragment tree ('<' :: '!' :: (word ++ (s ++ ['>'])))
  | comment {s : Str} (hs : CommentText s) : Fragment tree ("<!--".toList ++ (s ++ "-->".toList))
  | openTag {name attributes : Str} (hname : TagName name) (hattributes : Attributes attributes)
    (hcontent : ∀ read, tree.content read (Text.toAsciiLowercase name) = .data) :
    Fragment tree (openTag name attributes)
  | closeTag {name attributes : Str} (hname : TagName name) (hattributes : Attributes attributes) :
    Fragment tree (closeTag name attributes)
  | raw {name attributes s close attributes' : Str} (hname : TagName name) (hattributes : Attributes attributes)
    (hcontent : ∀ read, tree.content read (Text.toAsciiLowercase name) = .raw)
    (hs : RawText (Text.toAsciiLowercase name) s) (hclose : TagName close)
    (hlower : Text.toAsciiLowercase close = Text.toAsciiLowercase name) (hattributes' : Attributes attributes') :
    Fragment tree (openTag name attributes ++ (s ++ closeTag close attributes'))
  | script {name attributes s close attributes' : Str} (hname : TagName name) (hattributes : Attributes attributes)
    (hscript : Text.toAsciiLowercase name = "script".toList)
    (hcontent : ∀ read, tree.content read "script".toList = .script) (hs : ScriptText s) (hclose : TagName close)
    (hlower : Text.toAsciiLowercase close = "script".toList) (hattributes' : Attributes attributes') :
    Fragment tree (openTag name attributes ++ (s ++ closeTag close attributes'))

/-- **The tokenizer comes out of a fragment as it went in.** -/
theorem Fragment.closed (h : Fragment tree s) : Closed tree s := by
  induction h with
  | nil => exact .nil
  | append _ _ ihs iht => exact ihs.append iht
  | text hs => exact closed_text hs
  | doctype hword hs => exact closed_doctype hword hs
  | comment hs => exact closed_comment hs
  | openTag hname hattributes hcontent => exact closed_openTag hname hattributes hcontent
  | closeTag hname hattributes => exact closed_closeTag hname hattributes
  | raw hname hattributes hcontent hs hclose hlower hattributes' =>
    exact closed_raw hname hattributes hcontent hs hclose hlower hattributes'
  | script hname hattributes hscript hcontent hs hclose hlower hattributes' =>
    exact closed_script hname hattributes hscript hcontent hs hclose hlower hattributes'

end NekoGuard.Html
