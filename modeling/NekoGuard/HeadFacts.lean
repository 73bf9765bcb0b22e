/-
Where the head of a document begins and ends for `scrape`: behind the first
`<head ..>` in lower case, up to the next `</head>` in any.
-/
import NekoGuard.PatternFacts

namespace NekoGuard.Embed

open Lib

variable {pat document head a b c : Str}

theorem before_of_clear (hpat : pat ≠ []) (h : Scan.Clear pat.isPrefixOf a (pat ++ b)) :
    Text.before pat (a ++ (pat ++ b)) = some a := by
  induction a with
  | nil =>
    obtain ⟨d, w, rfl⟩ := List.exists_cons_of_ne_nil hpat
    have hstart : Text.startsWith (d :: (w ++ b)) (d :: w) = true :=
      List.isPrefixOf_iff_prefix.mpr (List.prefix_append (d :: w) b)
    rw [List.nil_append, List.cons_append, Text.before, if_pos hstart]
  | cons d a ih =>
    obtain ⟨hd, h⟩ := Scan.clear_cons.mp h
    rw [List.cons_append, Text.before, if_neg (by simp [Text.startsWith, hd]), ih h]
    rfl

theorem find_of_clear (hpat : pat ≠ []) (h : Scan.Clear pat.isPrefixOf a (pat ++ b)) :
    Text.find (a ++ (pat ++ b)) pat = some (Text.byteLen a) := by
  unfold Text.find
  rw [before_of_clear hpat h]
  rfl

theorem find_eq_none (h : ¬pat <:+: document) : Text.find document pat = none := by
  unfold Text.find
  rw [Option.map_eq_none_iff, Option.eq_none_iff_forall_ne_some]
  intro p hp
  obtain ⟨t, rfl⟩ := Text.exists_of_before hp
  exact h ⟨p, t, by simp⟩

/-- Behind the first head tag. -/
theorem afterHeadTag_eq (h : Scan.Clear ("<head".toList).isPrefixOf a ("<head".toList ++ (b ++ '>' :: c))) (hb : '>' ∉ b) :
    afterHeadTag (a ++ ("<head".toList ++ (b ++ '>' :: c))) = .ok c := by
  have hgt : '>' ∉ "<head".toList ++ b := by simp [hb]
  have hfind := Text.find_char hgt c
  have hlen : Text.byteLen a + Text.byteLen ("<head".toList ++ b) + 1 =
      Text.byteLen (a ++ (("<head".toList ++ b) ++ ['>'])) := by
    rw [Text.byteLen_append a, Text.byteLen_snoc_ascii _ rfl, Nat.add_assoc]
  have hslice := Text.sliceFrom_append (a ++ (("<head".toList ++ b) ++ ['>'])) c
  rw [← hlen] at hslice
  simp only [List.append_assoc, List.singleton_append] at hslice hfind
  unfold afterHeadTag
  rw [find_of_clear (by decide) h]
  simp only [Text.sliceFrom_append, bind, Except.bind, hfind, Option.map_some, Option.getD_some]
  exact hslice

/-- A head tag that is ended is the first there is, whatever is behind. -/
theorem exists_afterHeadTag (h : "<head".toList <:+: a) (b : Str) : ∃ front rest, a ++ '>' :: b = front ++ '>' :: rest ∧
    "<head".toList <:+: front ∧ ∀ back, afterHeadTag (a ++ '>' :: b ++ back) = .ok (rest ++ back) := by
  have hinfix : "<head".toList <:+: a ++ ['>'] := h.trans (List.prefix_append a ['>']).isInfix
  obtain ⟨p, t, heq, hclear⟩ := Scan.exists_first_word hinfix
  have hgt : '>' ∈ t := by
    rcases List.eq_nil_or_concat' t with rfl | ⟨t, d, rfl⟩
    · have hlast := (List.append_inj' (show a ++ ['>'] = (p ++ "<hea".toList) ++ ['d'] by simpa using heq) rfl).2
      simp at hlast
    · have hlast := (List.append_inj' (show a ++ ['>'] = (p ++ ("<head".toList ++ t)) ++ [d] by simpa using heq) rfl).2
      obtain rfl : '>' = d := by simpa using hlast
      simp
  obtain ⟨q, r, rfl, hq⟩ := List.eq_append_cons_of_mem hgt
  have hwhole : a ++ '>' :: b = p ++ ("<head".toList ++ (q ++ '>' :: (r ++ b))) := by
    have hassoc := congrArg (· ++ b) heq
    simpa using hassoc
  refine ⟨p ++ ("<head".toList ++ q), r ++ b, by rw [hwhole]; simp, ⟨p, q, by simp⟩, fun back => ?_⟩
  have hfirst := hclear (b ++ back)
  simp only [List.append_assoc, List.cons_append] at hfirst
  rw [hwhole]
  simp only [List.append_assoc, List.cons_append]
  exact afterHeadTag_eq hfirst hq

/-! ## The end -/

theorem headOf_eq (h : afterHeadTag document = .ok (a ++ (c ++ b))) (hend : Text.toAsciiLowercase c = "</head>".toList)
    (hclear : Scan.Clear ("</head>".toList).isPrefixOf (Text.toAsciiLowercase a) ("</head>".toList ++ Text.toAsciiLowercase b)) :
    headOf document = .ok a := by
  have hlower : Text.toAsciiLowercase (a ++ (c ++ b)) =
      Text.toAsciiLowercase a ++ ("</head>".toList ++ Text.toAsciiLowercase b) := by
    rw [← hend]
    simp only [Text.toAsciiLowercase, List.map_append]
  unfold headOf
  rw [h]
  simp only [bind, Except.bind]
  rw [hlower, find_of_clear (by decide) hclear, Option.getD_some, Text.byteLen_toAsciiLowercase, Text.sliceTo_append]

theorem headOf_whole (h : afterHeadTag document = .ok a) (hend : ¬"</head>".toList <:+: Text.toAsciiLowercase a) :
    headOf document = .ok a := by
  have hslice := Text.sliceTo_append a []
  rw [List.append_nil] at hslice
  unfold headOf
  rw [h]
  simp only [bind, Except.bind]
  rw [find_eq_none hend, Option.getD_none, hslice]

/-- The head is the beginning of what is behind its tag. -/
theorem headOf_prefix (h : afterHeadTag document = .ok a) : ∃ head, headOf document = .ok head ∧ head <+: a := by
  unfold headOf
  rw [h]
  simp only [bind, Except.bind]
  cases hfind : Text.find (Text.toAsciiLowercase a) "</head>".toList with
  | none =>
    have hslice := Text.sliceTo_append a []
    rw [List.append_nil] at hslice
    exact ⟨a, by rw [Option.getD_none, hslice], List.prefix_refl a⟩
  | some n =>
    obtain ⟨p, t, rfl, rfl⟩ := Text.exists_of_find_lower hfind
    exact ⟨p, by rw [Option.getD_some, Text.sliceTo_append], List.prefix_append p t⟩

end NekoGuard.Embed
