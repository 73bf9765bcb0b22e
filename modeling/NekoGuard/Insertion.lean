/-
inject.rs: where `inject_into_html` puts the snippet, to the byte
(`injectIntoHtml_eq`), and what `script_tag` makes of its payload
(`scriptTag_closed_once_iff`).
-/
import NekoGuard.Inject
import NekoGuard.Std.TextFacts

namespace NekoGuard.Inject

open Lib

/-! ## The place -/

/-- A word stands `n` bytes into the document, in whatever case. -/
def OccursAt (html word : Str) (n : Nat) : Prop :=
  ∃ head seg tail, html = head ++ (seg ++ tail) ∧ Text.eqIgnoreAsciiCase seg word = true ∧ Text.byteLen head = n

structure LastAt (html word : Str) (n : Nat) : Prop where
  occurs : OccursAt html word n
  last : ∀ m, OccursAt html word m → m ≤ n

/-- Before the last `</body>`, else the last `</html>`, else at the end. -/
inductive InsertionAt (html : Str) (n : Nat) : Prop where
  | body (h : LastAt html "</body>".toList n)
  | html (hbody : ∀ m, ¬OccursAt html "</body>".toList m) (h : LastAt html "</html>".toList n)
  | close (hbody : ∀ m, ¬OccursAt html "</body>".toList m) (hhtml : ∀ m, ¬OccursAt html "</html>".toList m)
      (h : n = Text.byteLen html)

variable {html snippet word p : Str} {n : Nat}

/-- An occurrence is one in the lower-case copy. -/
theorem occursAt_iff (hword : Text.toAsciiLowercase word = word) :
    OccursAt html word n ↔ ∃ q t, Text.toAsciiLowercase html = q ++ (word ++ t) ∧ Text.byteLen q = n := by
  constructor
  · rintro ⟨head, seg, tail, rfl, hseg, rfl⟩
    have hseg : Text.toAsciiLowercase seg = word := by
      rw [← hword]
      exact eq_of_beq hseg
    refine ⟨Text.toAsciiLowercase head, Text.toAsciiLowercase tail, ?_, Text.byteLen_toAsciiLowercase head⟩
    rw [← hseg]
    simp [Text.toAsciiLowercase]
  · rintro ⟨q, t, heq, rfl⟩
    obtain ⟨head, rest, rfl, rfl, hrest⟩ := List.map_eq_append_iff.mp heq
    obtain ⟨seg, tail, rfl, hseg, rfl⟩ := List.map_eq_append_iff.mp hrest
    refine ⟨head, seg, tail, rfl, ?_, (Text.byteLen_toAsciiLowercase head).symm⟩
    have hseg : Text.toAsciiLowercase seg = word := hseg
    rw [Text.eqIgnoreAsciiCase, hseg, hword, beq_self_eq_true]

theorem lastAt_of_beforeLast (hword : Text.toAsciiLowercase word = word) (hne : word ≠ [])
    (h : Text.beforeLast word (Text.toAsciiLowercase html) = some p) : LastAt html word (Text.byteLen p) := by
  obtain ⟨⟨t, ht⟩, hlast⟩ := Text.beforeLast_eq_some hne h
  refine ⟨(occursAt_iff hword).mpr ⟨p, t, ht, rfl⟩, fun m hm => ?_⟩
  obtain ⟨q, u, hq, rfl⟩ := (occursAt_iff hword).mp hm
  have hp : p <+: Text.toAsciiLowercase html := ⟨_, ht.symm⟩
  have hq' : q <+: Text.toAsciiLowercase html := ⟨_, hq.symm⟩
  exact Text.byteLen_le_of_prefix (List.prefix_of_prefix_length_le hq' hp (hlast q u hq))

theorem not_occursAt_of_beforeLast (hword : Text.toAsciiLowercase word = word) (hne : word ≠ [])
    (h : Text.beforeLast word (Text.toAsciiLowercase html) = none) (m : Nat) : ¬OccursAt html word m := by
  intro hm
  obtain ⟨q, t, hq, -⟩ := (occursAt_iff hword).mp hm
  exact Text.beforeLast_eq_none hne h ⟨q, t, by rw [hq, List.append_assoc]⟩

/-- Taking the snippet out again leaves the document. -/
theorem bytes_without_snippet (head tail snippet : Str) :
    (Text.bytes (head ++ snippet ++ tail)).take (Text.byteLen head) ++
      (Text.bytes (head ++ snippet ++ tail)).drop (Text.byteLen head + Text.byteLen snippet) =
        Text.bytes (head ++ tail) := by
  have hlen : (Text.bytes (head ++ snippet)).length = Text.byteLen head + Text.byteLen snippet := by
    rw [Text.length_bytes, Text.byteLen_append]
  rw [Text.bytes_append (head ++ snippet), ← hlen, List.drop_left, Text.bytes_append head snippet, List.append_assoc,
    ← Text.length_bytes head, List.take_left, Text.bytes_append]

/-- One place for all snippets. -/
theorem exists_insertion (html : Str) : ∃ head tail, InsertionAt html (Text.byteLen head) ∧ html = head ++ tail ∧
    ∀ snippet, injectIntoHtml html snippet = .ok (head ++ snippet ++ tail) := by
  have hsplice : ∀ head tail snippet, html = head ++ tail → (do
      let front ← Text.sliceTo html (Text.byteLen head)
      let back ← Text.sliceFrom html (Text.byteLen head)
      return front ++ snippet ++ back) = (.ok (head ++ snippet ++ tail) : Rust Str) := by
    intro head tail snippet h
    rw [h, Text.sliceTo_append, Text.sliceFrom_append]
    rfl
  have hbodyLower : Text.toAsciiLowercase "</body>".toList = "</body>".toList := by decide
  have hhtmlLower : Text.toAsciiLowercase "</html>".toList = "</html>".toList := by decide
  have hrfind : ∀ word o, Text.beforeLast word (Text.toAsciiLowercase html) = o →
      Text.rfind (Text.toAsciiLowercase html) word = o.map Text.byteLen := by
    intro word o h
    rw [Text.rfind, h]
  cases hbody : Text.beforeLast "</body>".toList (Text.toAsciiLowercase html) with
  | some p =>
    obtain ⟨head, tail, hhtml, hlen⟩ := Text.exists_of_rfind_lower (hrfind _ _ hbody)
    refine ⟨head, tail, ?_, hhtml, fun snippet => ?_⟩
    · rw [← hlen]
      exact .body (lastAt_of_beforeLast hbodyLower nofun hbody)
    · unfold injectIntoHtml
      simp only [hrfind _ _ hbody, Option.map_some, hlen]
      exact hsplice head tail snippet hhtml
  | none =>
    have hnone := not_occursAt_of_beforeLast hbodyLower nofun hbody
    cases hend : Text.beforeLast "</html>".toList (Text.toAsciiLowercase html) with
    | some p =>
      obtain ⟨head, tail, hhtml, hlen⟩ := Text.exists_of_rfind_lower (hrfind _ _ hend)
      refine ⟨head, tail, ?_, hhtml, fun snippet => ?_⟩
      · rw [← hlen]
        exact .html hnone (lastAt_of_beforeLast hhtmlLower nofun hend)
      · unfold injectIntoHtml
        simp only [hrfind _ _ hbody, hrfind _ _ hend, Option.map_none, Option.map_some, hlen]
        exact hsplice head tail snippet hhtml
    | none =>
      have hclose := InsertionAt.close hnone (not_occursAt_of_beforeLast hhtmlLower nofun hend) rfl
      refine ⟨html, [], hclose, by simp, fun snippet => ?_⟩
      unfold injectIntoHtml
      simp only [hrfind _ _ hbody, hrfind _ _ hend, Option.map_none, List.append_nil]

/-- **Where the snippet goes.** Whatever the document holds, its text up to
the place and from the place on are whole characters, the snippet stands
between them, and without it the bytes are those of the document. -/
theorem injectIntoHtml_eq (html snippet : Str) : ∃ n head tail, InsertionAt html n ∧ html = head ++ tail ∧
    Text.byteLen head = n ∧ injectIntoHtml html snippet = .ok (head ++ snippet ++ tail) ∧
      (Text.bytes (head ++ snippet ++ tail)).take n ++
        (Text.bytes (head ++ snippet ++ tail)).drop (n + Text.byteLen snippet) = Text.bytes html := by
  obtain ⟨head, tail, hat, rfl, hinject⟩ := exists_insertion html
  exact ⟨_, head, tail, hat, rfl, rfl, hinject snippet, bytes_without_snippet head tail snippet⟩

/-! ## The payload -/

/-- At how many places of a text `t` holds of what begins there. -/
def places (t : Str → Bool) : Str → Nat
  | [] => 0
  | c :: s => (t (c :: s)).toNat + places t s

/-- `</script`, which ends a script in whatever case it is written. -/
def scriptEnd : Str := "</script".toList

theorem scriptEnd_ne_nil : scriptEnd ≠ [] := by decide

def isScriptEnd (s : Str) : Bool := Text.startsWith (Text.toAsciiLowercase s) scriptEnd

/-- How many times a text has it. -/
def scriptEnds (s : Str) : Nat := places isScriptEnd s

/-- How many of those are in lower case. -/
def lowerScriptEnds (s : Str) : Nat := places (fun t => Text.startsWith t scriptEnd) s

/-- Its escape. -/
def escapedEnd : Str := "<\\/script".toList

variable {s t a b source : Str}

theorem lower_scriptEnd : Text.toAsciiLowercase scriptEnd = scriptEnd := by decide

theorem isScriptEnd_iff :
    isScriptEnd s = true ↔ ∃ seg tail, s = seg ++ tail ∧ Text.eqIgnoreAsciiCase seg scriptEnd = true := by
  unfold isScriptEnd
  constructor
  · intro h
    obtain ⟨t, ht⟩ := List.isPrefixOf_iff_prefix.mp h
    obtain ⟨seg, tail, rfl, hseg, -⟩ := List.map_eq_append_iff.mp ht.symm
    have hseg : Text.toAsciiLowercase seg = scriptEnd := hseg
    exact ⟨seg, tail, rfl, by rw [Text.eqIgnoreAsciiCase, hseg, lower_scriptEnd, beq_self_eq_true]⟩
  · rintro ⟨seg, tail, rfl, hseg⟩
    have hseg : Text.toAsciiLowercase seg = scriptEnd := (eq_of_beq hseg).trans lower_scriptEnd
    refine List.isPrefixOf_iff_prefix.mpr ⟨Text.toAsciiLowercase tail, ?_⟩
    rw [← hseg]
    exact List.map_append.symm

theorem places_append {t : Str → Bool} (ht : ∀ s back, s ≠ [] → t (s ++ '<' :: back) = t s) (s back : Str) :
    places t (s ++ '<' :: back) = places t s + places t ('<' :: back) := by
  induction s with
  | nil => simp [places]
  | cons c s ih =>
    have hc := ht (c :: s) back nofun
    rw [List.cons_append] at hc ⊢
    rw [places, places, hc, ih, Nat.add_assoc]

theorem isScriptEnd_append (hs : s ≠ []) (back : Str) : isScriptEnd (s ++ '<' :: back) = isScriptEnd s := by
  have hlower : Text.toAsciiLowercase (s ++ '<' :: back) =
      Text.toAsciiLowercase s ++ '<' :: Text.toAsciiLowercase back := by simp [Text.toAsciiLowercase]
  unfold isScriptEnd
  rw [hlower]
  exact Scan.isPrefixOf_append_cons (by simpa [Text.toAsciiLowercase] using hs) (by decide)

theorem scriptEnds_append (s back : Str) : scriptEnds (s ++ '<' :: back) = scriptEnds s + scriptEnds ('<' :: back) :=
  places_append (fun _ back hs => isScriptEnd_append hs back) s back

theorem lowerScriptEnds_append (s back : Str) :
    lowerScriptEnds (s ++ '<' :: back) = lowerScriptEnds s + lowerScriptEnds ('<' :: back) :=
  places_append (fun _ _ hs => Scan.isPrefixOf_append_cons hs (by decide)) s back

theorem lowerScriptEnds_of_absent (h : ¬scriptEnd <:+: s) : lowerScriptEnds s = 0 := by
  induction s with
  | nil => rfl
  | cons c s ih =>
    rw [List.infix_cons_iff, not_or] at h
    have hhere : Text.startsWith (c :: s) scriptEnd = false := by
      rw [← Bool.not_eq_true]
      exact fun hstart => h.1 (List.isPrefixOf_iff_prefix.mp hstart)
    rw [lowerScriptEnds, places, hhere, Bool.toNat_false, Nat.zero_add]
    exact ih h.2

theorem not_isScriptEnd {c : Char} (hc : c ≠ '<') (s : Str) : isScriptEnd (c :: s) = false := by
  have hlower : c.toLower ≠ '<' := fun h => hc (Text.eq_of_toLower (by decide) h)
  have hscript : scriptEnd = '<' :: "/script".toList := rfl
  simp [isScriptEnd, Text.startsWith, Text.toAsciiLowercase, hscript, List.isPrefixOf, hlower.symm]

theorem not_isScriptEnd_lt {c : Char} (hc : c ≠ '/') (s : Str) : isScriptEnd ('<' :: c :: s) = false := by
  have hlower : c.toLower ≠ '/' := fun h => hc (Text.eq_of_toLower (by decide) h)
  have hscript : scriptEnd = '<' :: '/' :: "script".toList := rfl
  simp [isScriptEnd, Text.startsWith, Text.toAsciiLowercase, hscript, List.isPrefixOf, hlower.symm]

theorem places_skip {t : Str → Bool} (ht : ∀ c s, c ≠ '<' → t (c :: s) = false) (ha : '<' ∉ a) (s : Str) :
    places t (a ++ s) = places t s := by
  induction a with
  | nil => rfl
  | cons c a ih =>
    simp only [List.mem_cons, not_or] at ha
    rw [List.cons_append, places, ht c _ (Ne.symm ha.1), Bool.toNat_false, Nat.zero_add]
    exact ih ha.2

theorem scriptEnds_skip (ha : '<' ∉ a) (s : Str) : scriptEnds (a ++ s) = scriptEnds s :=
  places_skip (fun _ s hc => not_isScriptEnd hc s) ha s

theorem scriptEnds_lt_skip {c : Char} (hc : c ≠ '/') (ha : '<' ∉ c :: a) (s : Str) :
    scriptEnds ('<' :: (c :: a ++ s)) = scriptEnds s := by
  rw [scriptEnds, places, List.cons_append, not_isScriptEnd_lt hc, Bool.toNat_false, Nat.zero_add]
  exact scriptEnds_skip ha s

theorem scriptEnds_end (s : Str) : scriptEnds (scriptEnd ++ s) = 1 + scriptEnds s := by
  have hscript : scriptEnd ++ s = '<' :: ("/script".toList ++ s) := rfl
  have hhere : isScriptEnd (scriptEnd ++ s) = true := isScriptEnd_iff.mpr ⟨scriptEnd, s, rfl, beq_self_eq_true _⟩
  rw [hscript] at hhere ⊢
  rw [scriptEnds, places, hhere]
  exact congrArg (1 + ·) (scriptEnds_skip (by decide) s)

theorem lowerScriptEnds_end (s : Str) : lowerScriptEnds (scriptEnd ++ s) = 1 + lowerScriptEnds s := by
  have hscript : scriptEnd ++ s = '<' :: ("/script".toList ++ s) := rfl
  have hhere : Text.startsWith (scriptEnd ++ s) scriptEnd = true :=
    List.isPrefixOf_iff_prefix.mpr (List.prefix_append _ _)
  have hother : ∀ c s, c ≠ '<' → Text.startsWith (c :: s) scriptEnd = false := by
    intro c s hc
    have hcons : scriptEnd = '<' :: "/script".toList := rfl
    simp [Text.startsWith, hcons, List.isPrefixOf, Ne.symm hc]
  rw [hscript] at hhere ⊢
  rw [lowerScriptEnds, places, hhere]
  exact congrArg (1 + ·) (places_skip hother (by decide) s)

/-- **What the escape leaves.** It takes the lower-case end tags of a
payload, and brings none. -/
theorem scriptEnds_replace (s : Str) :
    scriptEnds (Text.replace s scriptEnd escapedEnd) + lowerScriptEnds s = scriptEnds s := by
  induction hn : s.length using Nat.strong_induction_on generalizing s with
  | _ n ih =>
    by_cases hin : scriptEnd <:+: s
    · obtain ⟨a, b, rfl, hclear, hreplace⟩ := Text.exists_replace escapedEnd scriptEnd_ne_nil hin
      have hpos : 0 < scriptEnd.length := by decide
      have hb := ih b.length (by simp only [List.length_append] at hn; omega) b rfl
      have ha : ¬scriptEnd <:+: a := (Scan.clear_word (by decide) scriptEnd_ne_nil).mp hclear
      have hescaped : scriptEnds (escapedEnd ++ Text.replace b scriptEnd escapedEnd) =
          scriptEnds (Text.replace b scriptEnd escapedEnd) := scriptEnds_lt_skip (by decide) (by decide) _
      have hends : scriptEnds (a ++ (scriptEnd ++ b)) = scriptEnds a + scriptEnds (scriptEnd ++ b) :=
        scriptEnds_append a _
      have hlower : lowerScriptEnds (a ++ (scriptEnd ++ b)) = lowerScriptEnds a + lowerScriptEnds (scriptEnd ++ b) :=
        lowerScriptEnds_append a _
      have hout : scriptEnds (a ++ (escapedEnd ++ Text.replace b scriptEnd escapedEnd)) =
          scriptEnds a + scriptEnds (escapedEnd ++ Text.replace b scriptEnd escapedEnd) := scriptEnds_append a _
      rw [hreplace, hout, hescaped, hends, hlower, scriptEnds_end, lowerScriptEnds_end, lowerScriptEnds_of_absent ha]
      omega
    · rw [Text.replace_of_absent scriptEnd_ne_nil hin, lowerScriptEnds_of_absent hin, Nat.add_zero]

theorem isScriptEnd_of_lower (h : Text.startsWith s scriptEnd = true) : isScriptEnd s = true := by
  obtain ⟨tail, rfl⟩ := List.isPrefixOf_iff_prefix.mp h
  exact isScriptEnd_iff.mpr ⟨scriptEnd, tail, rfl, beq_self_eq_true _⟩

theorem lowerScriptEnds_le (s : Str) : lowerScriptEnds s ≤ scriptEnds s := by
  induction s with
  | nil => exact Nat.le_refl _
  | cons c s ih =>
    rw [lowerScriptEnds, scriptEnds, places, places]
    refine Nat.add_le_add ?_ ih
    cases hlow : Text.startsWith (c :: s) scriptEnd with
    | false => exact Nat.zero_le _
    | true => rw [isScriptEnd_of_lower hlow]

/-- All of them are in lower case when each one is. -/
theorem scriptEnds_eq_lower_iff (s : Str) : scriptEnds s = lowerScriptEnds s ↔
    ∀ head seg tail, s = head ++ (seg ++ tail) → Text.eqIgnoreAsciiCase seg scriptEnd = true → seg = scriptEnd := by
  induction s with
  | nil =>
    refine iff_of_true rfl fun head seg tail h hseg => ?_
    obtain ⟨rfl, hrest⟩ := List.append_eq_nil_iff.mp h.symm
    obtain ⟨rfl, rfl⟩ := List.append_eq_nil_iff.mp hrest
    exact absurd hseg (by decide)
  | cons c s ih =>
    have hle := lowerScriptEnds_le s
    have hcons : scriptEnds (c :: s) = (isScriptEnd (c :: s)).toNat + scriptEnds s := rfl
    have hlower : lowerScriptEnds (c :: s) = (Text.startsWith (c :: s) scriptEnd).toNat + lowerScriptEnds s := rfl
    have hhere : isScriptEnd (c :: s) = Text.startsWith (c :: s) scriptEnd ↔
        ∀ seg tail, c :: s = seg ++ tail → Text.eqIgnoreAsciiCase seg scriptEnd = true → seg = scriptEnd := by
      constructor
      · intro h seg tail heq hseg
        have hstart : Text.startsWith (c :: s) scriptEnd = true := h ▸ isScriptEnd_iff.mpr ⟨seg, tail, heq, hseg⟩
        obtain ⟨rest, hrest⟩ := List.isPrefixOf_iff_prefix.mp hstart
        have hlen : seg.length = scriptEnd.length := by
          have hlower := congrArg List.length (eq_of_beq hseg)
          simpa [Text.toAsciiLowercase] using hlower
        exact (List.append_inj (heq.symm.trans hrest.symm) hlen).1
      · intro h
        cases hci : isScriptEnd (c :: s) with
        | false =>
          cases hlow : Text.startsWith (c :: s) scriptEnd with
          | false => rfl
          | true => exact absurd (isScriptEnd_of_lower hlow) (by simp [hci])
        | true =>
          obtain ⟨seg, tail, heq, hseg⟩ := isScriptEnd_iff.mp hci
          obtain rfl := h seg tail heq hseg
          exact (List.isPrefixOf_iff_prefix.mpr ⟨tail, heq.symm⟩).symm
    have hsplit : scriptEnds (c :: s) = lowerScriptEnds (c :: s) ↔
        isScriptEnd (c :: s) = Text.startsWith (c :: s) scriptEnd ∧ scriptEnds s = lowerScriptEnds s := by
      rw [hcons, hlower]
      cases hlow : Text.startsWith (c :: s) scriptEnd with
      | false =>
        cases isScriptEnd (c :: s) with
        | false => simp
        | true => simp; omega
      | true =>
        rw [isScriptEnd_of_lower hlow]
        simp
    rw [hsplit, hhere, ih]
    constructor
    · intro ⟨hfirst, hrest⟩ head seg tail heq hseg
      cases head with
      | nil => exact hfirst seg tail heq hseg
      | cons d head => exact hrest head seg tail (List.cons.inj heq).2 hseg
    · intro h
      exact ⟨fun seg tail heq => h [] seg tail heq, fun head seg tail heq => h (c :: head) seg tail (by rw [heq]; rfl)⟩

/-- **When a script ends with its own tag and no sooner.** The tag has one
end tag, its last characters, if and only if the payload spells each of its
own in lower case. -/
theorem scriptTag_closed_once_iff (source : Str) :
    (scriptEnds (scriptTag source) = 1 ∧ Text.endsWith (scriptTag source) "</script>".toList = true) ↔
      ∀ head seg tail, source = head ++ (seg ++ tail) → Text.eqIgnoreAsciiCase seg scriptEnd = true →
        seg = scriptEnd := by
  have hcount : scriptEnds (scriptTag source) + lowerScriptEnds source = scriptEnds source + 1 := by
    have hopen : scriptEnds (scriptTag source) =
        scriptEnds (Text.replace source scriptEnd escapedEnd ++ "</script>".toList) := by
      unfold scriptTag
      rw [List.append_assoc]
      exact scriptEnds_lt_skip (by decide) (by decide) _
    have hclose : scriptEnds (Text.replace source scriptEnd escapedEnd ++ "</script>".toList) =
        scriptEnds (Text.replace source scriptEnd escapedEnd) + 1 := scriptEnds_append _ _
    have hreplace := scriptEnds_replace source
    omega
  have hends : Text.endsWith (scriptTag source) "</script>".toList = true :=
    List.isSuffixOf_iff_suffix.mpr (List.suffix_append _ _)
  rw [← scriptEnds_eq_lower_iff, and_iff_left hends]
  omega

theorem upperCase_closes_early :
    ¬(scriptEnds (scriptTag "var s = '</SCRIPT>';".toList) = 1 ∧
      Text.endsWith (scriptTag "var s = '</SCRIPT>';".toList) "</script>".toList = true) := by
  decide +kernel

end NekoGuard.Inject
