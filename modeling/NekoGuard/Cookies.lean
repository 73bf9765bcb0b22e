/-
The Set-Cookie headers through `proxy_to_upstream`: when each of them comes
out without its Domain attributes (`cookies_patched_iff`).
-/
import NekoGuard.Location

namespace NekoGuard.Proxy

open Lib

/-! ## Attributes -/

/-- White space of a Set-Cookie header. -/
def isWsp (c : Char) : Bool := c == ' ' || c == '\t'

/-- The name of an attribute: all of it, or what is before its `=`. -/
def attributeName (part : Str) : Str :=
  Text.toAsciiLowercase (Text.trimEndMatches isWsp (Text.trimStartMatches isWsp (Text.splitFirst part '=')))

def isDomain (part : Str) : Bool := attributeName part == "domain".toList

/-- What follows the name and value of a cookie. -/
def attributes (cookie : Str) : List Str := (cookie.splitOn ';').tail

/-- A cookie as it should be handed on: the name and value, and every
attribute but Domain. -/
def withoutDomain (cookie : Str) : Str :=
  [';'].intercalate ((cookie.splitOn ';').headD [] :: (attributes cookie).filter fun part => !isDomain part)

/-- The `=` stands right behind the name. -/
def Joined (part : Str) : Prop := '=' ∈ part ∧ ∀ c ∈ (Text.splitFirst part '=').getLast?, isWsp c = false

instance (part : Str) : Decidable (Joined part) := inferInstanceAs (Decidable (_ ∧ _))

/-- What `strip_cookie_domain` drops. -/
def strips (part : Str) : Bool := Text.startsWith (Text.toAsciiLowercase (Text.trim part)) "domain=".toList

variable {cookie part s t : Str}

/-! ## Pieces -/

theorem splitOn_eq (cookie : Str) : cookie.splitOn ';' = (cookie.splitOn ';').headD [] :: attributes cookie := by
  obtain ⟨pair, parts, hsplit⟩ := List.exists_cons_of_ne_nil (List.splitOn_ne_nil ';' cookie)
  rw [attributes, hsplit]
  rfl

/-- Behind the first piece the index tells nothing. -/
theorem filter_zipIdx (p : Str → Bool) (parts : List Str) (n : Nat) :
    ((parts.zipIdx (n + 1)).filter fun part => part.2 == 0 || p part.1).map (·.1) = parts.filter p := by
  induction parts generalizing n with
  | nil => rfl
  | cons part parts ih =>
    rw [List.zipIdx_cons, List.filter_cons, List.filter_cons]
    have hindex : (n + 1 == 0) = false := rfl
    simp only [hindex, Bool.false_or]
    split
    · rw [List.map_cons, ih]
    · exact ih (n + 1)

theorem stripCookieDomain_eq (cookie : Str) : stripCookieDomain cookie =
    [';'].intercalate ((cookie.splitOn ';').headD [] :: (attributes cookie).filter fun part => !strips part) := by
  unfold stripCookieDomain
  rw [splitOn_eq cookie, List.zipIdx_cons, List.filter_cons_of_pos (by simp), List.map_cons]
  exact congrArg (fun parts => [';'].intercalate (_ :: parts))
    (filter_zipIdx (fun part => !strips part) (attributes cookie) 0)

/-- What is kept of the attributes is read back. -/
theorem splitOn_kept (cookie : Str) (p : Str → Bool) :
    ([';'].intercalate ((cookie.splitOn ';').headD [] :: (attributes cookie).filter p)).splitOn ';' =
      (cookie.splitOn ';').headD [] :: (attributes cookie).filter p := by
  refine List.splitOn_intercalate ';' (fun piece hpiece => ?_) (by simp)
  refine Scan.not_mem_of_mem_splitOn (s := cookie) ?_
  rw [splitOn_eq cookie]
  exact List.Sublist.subset (List.filter_sublist.cons_cons _) hpiece

/-- **When both drop the same**: what `strip_cookie_domain` drops is some of
what should be dropped. -/
theorem stripCookieDomain_eq_iff (hsub : ∀ part ∈ attributes cookie, strips part = true → isDomain part = true) :
    stripCookieDomain cookie = withoutDomain cookie ↔
      ∀ part ∈ attributes cookie, isDomain part = true → strips part = true := by
  rw [stripCookieDomain_eq, withoutDomain]
  constructor
  · intro h part hpart hdomain
    have hsplit := congrArg (List.splitOn ';') h
    rw [splitOn_kept, splitOn_kept] at hsplit
    by_contra hstrips
    have hkept : part ∈ (attributes cookie).filter fun part => !strips part :=
      List.mem_filter.mpr ⟨hpart, by simpa using hstrips⟩
    rw [(List.cons.inj hsplit).2, List.mem_filter, hdomain] at hkept
    cases hkept.2
  · intro h
    refine congrArg (fun parts => [';'].intercalate (_ :: parts)) (List.filter_congr fun part hpart => ?_)
    rw [Bool.eq_iff_iff, Bool.not_eq_true', Bool.not_eq_true', ← Bool.not_eq_true, ← Bool.not_eq_true, not_iff_not]
    exact ⟨hsub part hpart, h part hpart⟩

/-! ## Names -/

theorem isWhitespace_of_visible {c : Char} (hc : Http.visible c = true) : Text.isWhitespace c = isWsp c := by
  have htab : (c == '\t') = (c.toNat == 9) := by
    rw [Bool.eq_iff_iff, beq_iff_eq, beq_iff_eq, ← Char.toNat_inj]
    rfl
  have hspace : (c == ' ') = (c.toNat == 0x20) := by
    rw [Bool.eq_iff_iff, beq_iff_eq, beq_iff_eq, ← Char.toNat_inj]
    rfl
  unfold Http.visible at hc
  unfold Text.isWhitespace isWsp
  rw [htab] at hc ⊢
  rw [hspace, Bool.eq_iff_iff]
  simp only [Bool.or_eq_true, Bool.and_eq_true, decide_eq_true_eq, beq_iff_eq] at hc ⊢
  omega

theorem dropWhile_congr {p q : Char → Bool} (h : ∀ c ∈ s, p c = q c) : s.dropWhile p = s.dropWhile q := by
  induction s with
  | nil => rfl
  | cons c s ih =>
    have hrest := ih fun d hd => h d (List.mem_cons_of_mem _ hd)
    rw [List.dropWhile_cons, List.dropWhile_cons, h c List.mem_cons_self, hrest]

theorem trim_visible (hs : ∀ c ∈ s, Http.visible c = true) :
    Text.trim s = Text.trimEndMatches isWsp (Text.trimStartMatches isWsp s) := by
  unfold Text.trim Text.trimStartMatches Text.trimEndMatches
  have hall : ∀ c ∈ s, Text.isWhitespace c = isWsp c := fun c hc => isWhitespace_of_visible (hs c hc)
  have hrest : ∀ c ∈ (s.dropWhile isWsp).reverse, Text.isWhitespace c = isWsp c := fun c hc =>
    hall c ((List.dropWhile_sublist _).subset (List.mem_reverse.mp hc))
  rw [dropWhile_congr hall, dropWhile_congr hrest]

/-- What is trimmed off, at both ends. -/
theorem exists_trim (s : Str) : ∃ v w, s = v ++ (Text.trimEndMatches isWsp (Text.trimStartMatches isWsp s) ++ w) ∧
    (∀ c ∈ v, isWsp c = true) ∧ ∀ c ∈ w, isWsp c = true := by
  have hend : ∀ t : Str, ∃ w, t = Text.trimEndMatches isWsp t ++ w ∧ ∀ c ∈ w, isWsp c = true := by
    intro t
    refine ⟨(t.reverse.takeWhile isWsp).reverse, ?_, fun c hc => List.mem_takeWhile_imp (List.mem_reverse.mp hc)⟩
    rw [Text.trimEndMatches, ← List.reverse_append, List.takeWhile_append_dropWhile, List.reverse_reverse]
  obtain ⟨w, hw, hall⟩ := hend (Text.trimStartMatches isWsp s)
  refine ⟨s.takeWhile isWsp, w, ?_, fun c hc => List.mem_takeWhile_imp hc, hall⟩
  rw [← hw]
  exact List.takeWhile_append_dropWhile.symm

/-- The letters of `domain` are no white space. -/
theorem not_isWsp_of_lower (hs : Text.toAsciiLowercase s = "domain".toList) : ∀ c ∈ s, isWsp c = false := by
  intro c hc
  have hlower : c.toLower ∈ "domain".toList := hs ▸ List.mem_map_of_mem hc
  rw [← Bool.not_eq_true]
  intro hwsp
  simp only [isWsp, Bool.or_eq_true, beq_iff_eq] at hwsp
  rcases hwsp with rfl | rfl <;> exact absurd hlower (by decide)

theorem eq_not_mem_of_wsp (hs : ∀ c ∈ s, isWsp c = true) : '=' ∉ s := fun hmem => absurd (hs _ hmem) (by decide)

theorem splitFirst_append (hs : '=' ∉ s) (t : Str) : Text.splitFirst (s ++ '=' :: t) '=' = s := by
  rw [Text.splitFirst_eq, List.takeWhile_append_of_pos fun c hc => by simpa using fun heq : c = '=' => hs (heq ▸ hc)]
  simp

/-- A word without white space, in white space. -/
theorem trim_around {v w : Str} (hv : ∀ c ∈ v, isWsp c = true) (hs : ∀ c ∈ s.head?, isWsp c = false)
    (hlast : ∀ c ∈ s.getLast?, isWsp c = false) (hw : ∀ c ∈ w, isWsp c = true) (hne : s ≠ []) :
    Text.trimEndMatches isWsp (Text.trimStartMatches isWsp (v ++ (s ++ w))) = s := by
  obtain ⟨c, s, rfl⟩ := List.exists_cons_of_ne_nil hne
  have hstart : Text.trimStartMatches isWsp (v ++ (c :: s ++ w)) = c :: s ++ w := by
    unfold Text.trimStartMatches
    rw [List.dropWhile_append_of_pos hv, List.cons_append, List.dropWhile_cons_of_neg (by simp [hs c rfl])]
  rw [hstart]
  unfold Text.trimEndMatches
  rw [List.reverse_append, List.dropWhile_append_of_pos fun d hd => hw d (List.mem_reverse.mp hd)]
  exact Text.trimEndMatches_of_getLast? hlast

theorem ne_nil_of_lower (hs : Text.toAsciiLowercase s = "domain".toList) : s ≠ [] := by
  rintro rfl
  cases hs

theorem eq_not_mem_of_lower (hs : Text.toAsciiLowercase s = "domain".toList) : '=' ∉ s := by
  intro hmem
  have hlower : '='.toLower ∈ "domain".toList := hs ▸ List.mem_map_of_mem hmem
  exact absurd hlower (by decide)

/-- The name is found behind and before white space. -/
theorem attributeName_eq {v w name : Str} (hv : ∀ c ∈ v, isWsp c = true)
    (hname : Text.toAsciiLowercase name = "domain".toList) (hw : ∀ c ∈ w, isWsp c = true) :
    Text.toAsciiLowercase (Text.trimEndMatches isWsp (Text.trimStartMatches isWsp (v ++ (name ++ w)))) =
      "domain".toList := by
  have hclean := not_isWsp_of_lower hname
  rw [trim_around hv (fun c hc => hclean c (List.mem_of_mem_head? hc))
    (fun c hc => hclean c (List.mem_of_getLast? hc)) hw (ne_nil_of_lower hname), hname]

/-- What is dropped is a Domain attribute. -/
theorem isDomain_of_strips (hpart : ∀ c ∈ part, Http.visible c = true) (h : strips part = true) :
    isDomain part = true := by
  unfold strips at h
  rw [trim_visible hpart] at h
  obtain ⟨v, w, heq, hv, hw⟩ := exists_trim part
  obtain ⟨x, hx⟩ := List.isPrefixOf_iff_prefix.mp h
  have hx : Text.toAsciiLowercase (Text.trimEndMatches isWsp (Text.trimStartMatches isWsp part)) =
      "domain".toList ++ ('=' :: x) := hx.symm
  obtain ⟨name, y, hsplit, hname, hy⟩ := List.map_eq_append_iff.mp hx
  obtain ⟨c, y, rfl, hc, -⟩ := List.map_eq_cons_iff.mp hy
  obtain rfl := Text.eq_of_toLower (by decide) hc
  rw [hsplit, List.append_assoc, ← List.append_assoc v, List.cons_append] at heq
  have hnot : '=' ∉ v ++ name := by
    rw [List.mem_append, not_or]
    exact ⟨eq_not_mem_of_wsp hv, eq_not_mem_of_lower hname⟩
  have hdomain := attributeName_eq (w := []) hv hname nofun
  rw [List.append_nil] at hdomain
  rw [isDomain, attributeName, heq, splitFirst_append hnot, hdomain]
  rfl

theorem lower_append (s t : Str) :
    Text.toAsciiLowercase (s ++ t) = Text.toAsciiLowercase s ++ Text.toAsciiLowercase t := List.map_append

theorem startsWith_domain {name tail : Str} (hname : Text.toAsciiLowercase name = "domain".toList) :
    Text.startsWith (Text.toAsciiLowercase (name ++ tail)) "domain=".toList = true ↔ tail.head? = some '=' := by
  have hword : "domain=".toList = "domain".toList ++ ['='] := rfl
  have heq : ∀ c : Char, '=' = c.toLower ↔ c = '=' := fun c =>
    ⟨fun h => Text.eq_of_toLower (by decide) h.symm, fun h => by rw [h]; rfl⟩
  unfold Text.startsWith
  rw [lower_append, hname, List.isPrefixOf_iff_prefix, hword, List.prefix_append_right_inj]
  cases tail with
  | nil => simp [Text.toAsciiLowercase]
  | cons c tail =>
    rw [Text.toAsciiLowercase, List.map_cons, List.cons_prefix_cons, heq, List.head?_cons, Option.some.injEq]
    exact and_iff_left List.nil_prefix

/-- **Which Domain attributes are dropped.** -/
theorem strips_iff_joined (hpart : ∀ c ∈ part, Http.visible c = true) (h : isDomain part = true) :
    strips part = true ↔ Joined part := by
  have hname := beq_iff_eq.mp h
  unfold attributeName at hname
  unfold strips Joined
  rw [trim_visible hpart]
  by_cases hmem : '=' ∈ part
  · obtain ⟨front, value, rfl, hfront⟩ := List.eq_append_cons_of_mem hmem
    rw [splitFirst_append hfront] at hname ⊢
    obtain ⟨v, w, heq, hv, hw⟩ := exists_trim front
    generalize Text.trimEndMatches isWsp (Text.trimStartMatches isWsp front) = name at hname heq
    subst heq
    have hclean := not_isWsp_of_lower hname
    have hne := ne_nil_of_lower hname
    -- Spaces between the name and the `=` are not trimmed.
    have htrim : Text.trimEndMatches isWsp (Text.trimStartMatches isWsp ((v ++ (name ++ w)) ++ '=' :: value)) =
        name ++ (w ++ '=' :: Text.trimEndMatches isWsp value) := by
      obtain ⟨c, s, rfl⟩ := List.exists_cons_of_ne_nil hne
      have hstart : Text.trimStartMatches isWsp ((v ++ (c :: s ++ w)) ++ '=' :: value) =
          (c :: s ++ w) ++ '=' :: value := by
        unfold Text.trimStartMatches
        rw [List.append_assoc, List.dropWhile_append_of_pos hv, List.cons_append, List.cons_append,
          List.dropWhile_cons_of_neg (by simp [hclean c])]
      rw [hstart, Text.trimEndMatches_append_of_not (by decide), List.append_assoc]
    rw [htrim]
    rw [startsWith_domain hname]
    simp only [List.mem_append, List.mem_cons, true_or, or_true, true_and]
    cases w with
    | nil =>
      have hlast : (v ++ (name ++ [])).getLast? = name.getLast? := by
        rw [List.append_nil, List.getLast?_append_of_ne_nil _ hne]
      rw [hlast]
      exact iff_of_true rfl fun c hc => hclean c (List.mem_of_getLast? hc)
    | cons c w =>
      obtain ⟨d, hd⟩ : ∃ d, (c :: w).getLast? = some d := ⟨_, List.getLast?_eq_some_getLast (by simp)⟩
      have hlast : (v ++ (name ++ c :: w)).getLast? = some d := by
        rw [List.getLast?_append_of_ne_nil _ (by simp), List.getLast?_append_of_ne_nil _ (by simp), hd]
      have hwsp := hw d (List.mem_of_getLast? hd)
      rw [hlast]
      refine iff_of_false (fun hhead => ?_) fun hall => ?_
      · obtain rfl : c = '=' := by simpa using hhead
        exact eq_not_mem_of_wsp hw List.mem_cons_self
      · rw [hall d rfl] at hwsp
        cases hwsp
  · -- A name without a value.
    have hwhole : Text.splitFirst part '=' = part := by
      rw [Text.splitFirst_eq, List.takeWhile_eq_self_iff]
      exact fun c hc => by simpa using fun heq : c = '=' => hmem (heq ▸ hc)
    rw [hwhole] at hname
    rw [← List.append_nil (Text.trimEndMatches _ _), startsWith_domain hname]
    simp [hmem]

/-! ## Headers -/

section Response

variable {uc : UriCrate} {req : Request} {upstream : Str} {out : Outgoing uc} {resp : Embed.OriginResponse}
  {headers : HeaderMap} {values : List Bytes}

theorem mem_intercalate {pieces : List Str} {sep c : Char} :
    (c ∈ [sep].intercalate pieces → c = sep ∨ ∃ piece ∈ pieces, c ∈ piece) ∧
      ∀ piece ∈ pieces, c ∈ piece → c ∈ [sep].intercalate pieces := by
  induction pieces with
  | nil => simp
  | cons first rest ih =>
    cases rest with
    | nil =>
      rw [List.intercalate_singleton]
      refine ⟨fun hmem => .inr ⟨first, List.mem_cons_self, hmem⟩, fun piece hp hc => ?_⟩
      rwa [← List.mem_singleton.mp hp]
    | cons second rest =>
      rw [List.intercalate_cons_cons]
      constructor
      · intro hmem
        rcases List.mem_append.mp hmem with hmem | hmem
        · rcases List.mem_append.mp hmem with hmem | hmem
          · exact .inr ⟨first, List.mem_cons_self, hmem⟩
          · exact .inl (List.mem_singleton.mp hmem)
        · exact (ih.1 hmem).imp_right fun ⟨piece, hp, hc⟩ => ⟨piece, List.mem_cons_of_mem _ hp, hc⟩
      · intro piece hp hc
        rcases List.mem_cons.mp hp with rfl | hp
        · simp [hc]
        · simp [ih.2 piece hp hc]

theorem visible_part (hs : ∀ c ∈ cookie, Http.visible c = true) (hpart : part ∈ cookie.splitOn ';') :
    ∀ c ∈ part, Http.visible c = true := by
  intro c hc
  have hmem : c ∈ [';'].intercalate (cookie.splitOn ';') := mem_intercalate.2 part hpart hc
  rw [List.intercalate_splitOn] at hmem
  exact hs c hmem

theorem visible_stripCookieDomain (hs : ∀ c ∈ cookie, Http.visible c = true) :
    ∀ c ∈ stripCookieDomain cookie, Http.visible c = true := by
  intro c hc
  rw [stripCookieDomain_eq] at hc
  rcases mem_intercalate.1 hc with rfl | ⟨piece, hpiece, hmem⟩
  · decide
  · refine visible_part hs ?_ c hmem
    rw [splitOn_eq cookie]
    exact List.Sublist.subset (List.filter_sublist.cons_cons _) hpiece

/-- What becomes of the cookies: those that are text are patched, and the
others are lost, unless there is nothing but others. -/
theorem getAll_patchCookies (headers : HeaderMap) :
    (Http.getAll (patchCookies headers) "set-cookie".toList).map Http.text =
      if (Http.getAll headers "set-cookie".toList).filterMap Http.toStr = [] then
        (Http.getAll headers "set-cookie".toList).map Http.text
      else ((Http.getAll headers "set-cookie".toList).filterMap Http.toStr).map stripCookieDomain := by
  unfold patchCookies
  have hpatched : ((Http.getAll headers "set-cookie".toList).filterMap fun v =>
      (Http.toStr v).bind fun cookie => Http.fromStr (stripCookieDomain cookie)) =
      ((Http.getAll headers "set-cookie".toList).filterMap Http.toStr).map fun cookie =>
        Text.bytes (stripCookieDomain cookie) := by
    rw [List.map_filterMap]
    refine List.filterMap_congr fun v _ => ?_
    cases hv : Http.toStr v with
    | none => rfl
    | some cookie => exact Http.fromStr_visible (visible_stripCookieDomain (Http.toStr_eq_some.mp hv).2)
  have htext : (((Http.getAll headers "set-cookie".toList).filterMap Http.toStr).map fun cookie =>
      Text.bytes (stripCookieDomain cookie)).map Http.text =
      ((Http.getAll headers "set-cookie".toList).filterMap Http.toStr).map stripCookieDomain := by
    rw [List.map_map]
    refine List.map_congr_left fun cookie hcookie => ?_
    obtain ⟨v, -, hv⟩ := List.mem_filterMap.mp hcookie
    exact Http.text_bytes (visible_stripCookieDomain (Http.toStr_eq_some.mp hv).2)
  simp only [hpatched]
  by_cases hnil : (Http.getAll headers "set-cookie".toList).filterMap Http.toStr = []
  · rw [if_pos hnil, if_neg (not_not.mpr (by rw [hnil]; rfl))]
  · rw [if_neg hnil, if_pos (by simpa using hnil), Http.getAll_foldl_append_self, Http.getAll_remove_self,
      List.nil_append, htext]

/-- A cookie is text, and every Domain attribute in it has its `=` right
behind the name. -/
def Plain (v : Bytes) : Prop :=
  Http.toStr v ≠ none ∧ ∀ part ∈ attributes (Http.text v), isDomain part = true → Joined part

/-- A cookie without Domain attributes. -/
def NoDomain (v : Bytes) : Prop := ∀ part ∈ attributes (Http.text v), isDomain part = false

theorem stripCookieDomain_eq_iff_joined (hs : ∀ c ∈ cookie, Http.visible c = true) :
    stripCookieDomain cookie = withoutDomain cookie ↔
      ∀ part ∈ attributes cookie, isDomain part = true → Joined part := by
  have hpart : ∀ part ∈ attributes cookie, ∀ c ∈ part, Http.visible c = true := fun part hp =>
    visible_part hs (List.mem_of_mem_tail hp)
  rw [stripCookieDomain_eq_iff fun part hp h => isDomain_of_strips (hpart part hp) h]
  refine forall_congr' fun part => forall_congr' fun hp => forall_congr' fun hd => ?_
  exact strips_iff_joined (hpart part hp) hd

/-- A cookie that stays as it is. -/
theorem withoutDomain_eq_self_iff (cookie : Str) :
    withoutDomain cookie = cookie ↔ ∀ part ∈ attributes cookie, isDomain part = false := by
  have hkept : withoutDomain cookie = cookie ↔ ((attributes cookie).filter fun part => !isDomain part) =
      attributes cookie := by
    constructor
    · intro h
      have hsplit := congrArg (List.splitOn ';') h
      rw [withoutDomain, splitOn_kept, splitOn_eq cookie] at hsplit
      exact (List.cons.inj hsplit).2
    · intro h
      rw [withoutDomain, h, ← splitOn_eq, List.intercalate_splitOn]
  rw [hkept, List.filter_eq_self]
  simp

/-- **When nothing is lost and nothing is kept**: all the cookies are plain, or
none of them is text, or the answer is an upgrade, and none has a Domain. -/
def CookiesFit (status : Nat) (values : List Bytes) : Prop :=
  if status = 101 then ∀ v ∈ values, NoDomain v
  else (∀ v ∈ values, Plain v) ∨ ∀ v ∈ values, Http.toStr v = none ∧ NoDomain v

/-- The cookies that are patched. -/
theorem map_patched_iff :
    ((if values.filterMap Http.toStr = [] then values.map Http.text
        else (values.filterMap Http.toStr).map stripCookieDomain) =
      values.map fun v => withoutDomain (Http.text v)) ↔
    (∀ v ∈ values, Plain v) ∨ ∀ v ∈ values, Http.toStr v = none ∧ NoDomain v := by
  have hself : ∀ v, Http.text v = withoutDomain (Http.text v) ↔ NoDomain v := fun v =>
    eq_comm.trans (withoutDomain_eq_self_iff _)
  by_cases hnone : values.filterMap Http.toStr = []
  · have hall : ∀ v ∈ values, Http.toStr v = none := List.filterMap_eq_nil_iff.mp hnone
    rw [if_pos hnone, List.map_inj_left]
    constructor
    · intro h
      exact .inr fun v hv => ⟨hall v hv, (hself v).mp (h v hv)⟩
    · rintro (h | h)
      · exact fun v hv => absurd (hall v hv) (h v hv).1
      · exact fun v hv => (hself v).mpr (h v hv).2
  · rw [if_neg hnone]
    -- A cookie that is text is patched, so no other may be there.
    obtain ⟨v₀, hv₀, htext₀⟩ : ∃ v ∈ values, Http.toStr v ≠ none := by
      by_contra hno
      exact hnone (List.filterMap_eq_nil_iff.mpr fun v hv => by_contra fun hne => hno ⟨v, hv, hne⟩)
    have hplain : (∀ v ∈ values, Http.toStr v ≠ none) →
        (values.filterMap Http.toStr).map stripCookieDomain = values.map fun v => stripCookieDomain (Http.text v) := by
      intro hall
      rw [List.map_filterMap, ← List.filterMap_eq_map]
      refine List.filterMap_congr fun v hv => ?_
      obtain ⟨cookie, hcookie⟩ := Option.ne_none_iff_exists'.mp (hall v hv)
      rw [hcookie, ← (Http.toStr_eq_some.mp hcookie).1]
      rfl
    have hone : ∀ v, Http.toStr v ≠ none →
        (stripCookieDomain (Http.text v) = withoutDomain (Http.text v) ↔
          ∀ part ∈ attributes (Http.text v), isDomain part = true → Joined part) := by
      intro v hv
      obtain ⟨cookie, hcookie⟩ := Option.ne_none_iff_exists'.mp hv
      obtain ⟨rfl, hvisible⟩ := Http.toStr_eq_some.mp hcookie
      exact stripCookieDomain_eq_iff_joined hvisible
    constructor
    · intro h
      have hlength := congrArg List.length h
      rw [List.length_map, List.length_map, List.filterMap_length_eq_length] at hlength
      have hall : ∀ v ∈ values, Http.toStr v ≠ none := fun v hv => Option.isSome_iff_ne_none.mp (hlength v hv)
      rw [hplain hall, List.map_inj_left] at h
      exact .inl fun v hv => ⟨hall v hv, (hone v (hall v hv)).mp (h v hv)⟩
    · rintro (h | h)
      · rw [hplain fun v hv => (h v hv).1, List.map_inj_left]
        exact fun v hv => (hone v (h v hv).1).mpr (h v hv).2
      · exact absurd (h v₀ hv₀).1 htext₀

/-- **When every cookie comes out without its Domain.** Whatever the upstream
answers, its Set-Cookie headers reach the browser in number and in order,
each with just its Domain attributes removed, exactly when they fit. -/
theorem cookies_patched_iff (cz : Inject.CodecCrates) (guardJs : Str) (client : Client uc)
    (hout : outgoing uc req upstream = some out) (hresp : client out.request = some resp)
    (documentRequest siteBypassed : Bool) (sessionTtl : Nat) : ∃ proxied,
      proxyToUpstream cz guardJs client req upstream documentRequest siteBypassed sessionTtl = .ok proxied ∧
      ((Http.getAll proxied.headers "set-cookie".toList).map Http.text =
          (Http.getAll resp.headers "set-cookie".toList).map (fun v => withoutDomain (Http.text v)) ↔
        CookiesFit resp.status (Http.getAll resp.headers "set-cookie".toList)) := by
  obtain ⟨proxied, hok, hheaders⟩ := respond_ok cz guardJs out.upAuthority out.publicHost documentRequest
    siteBypassed sessionTtl resp
  have hcookies := hheaders "set-cookie".toList (by decide)
  refine ⟨proxied, ?_, ?_⟩
  · unfold proxyToUpstream
    rw [hout]
    simp only [hresp, hok]
  · unfold CookiesFit
    by_cases hupgrade : resp.status = 101
    · rw [if_pos hupgrade] at hcookies
      rw [if_pos hupgrade, hcookies, List.map_inj_left]
      exact forall_congr' fun v => forall_congr' fun _ => eq_comm.trans (withoutDomain_eq_self_iff _)
    · rw [if_neg hupgrade] at hcookies
      obtain ⟨kept, hkept, hpatched⟩ := getAll_patchHeaders "set-cookie".toList (by decide) out.upAuthority
        out.publicHost resp.headers
      rw [if_neg hupgrade, hcookies, hpatched, getAll_patchCookies, getAll_patchLocation_of_ne (by decide), hkept]
      exact map_patched_iff

end Response

def setsCookies (cookies : List Bytes) : Client visibleUris := fun _ =>
  some { status := 200, headers := cookies.map fun v => ("set-cookie".toList, v), body := ⟨[], false⟩ }

def sampleCookies : List Bytes :=
  [Text.bytes "sid=Domain=x; Path=/;\tDOMAIN=origin; Secure".toList, Text.bytes "theme=dark".toList]

theorem sampleCookies_patched : ∃ proxied,
    proxyToUpstream Inject.identityOnly [] (setsCookies sampleCookies) getPage "http://origin:80".toList true false
      1800 = .ok proxied ∧
    (Http.getAll proxied.headers "set-cookie".toList).map Http.text =
      ["sid=Domain=x; Path=/; Secure".toList, "theme=dark".toList] := by
  let out : Outgoing visibleUris := (outgoing visibleUris getPage "http://origin:80".toList).get (by decide +kernel)
  have hout : outgoing visibleUris getPage "http://origin:80".toList = some out := (Option.some_get _).symm
  obtain ⟨proxied, hok, hiff⟩ := cookies_patched_iff Inject.identityOnly [] (setsCookies sampleCookies) hout rfl
    true false 1800
  refine ⟨proxied, hok, (hiff.mpr ?_).trans (by decide +kernel)⟩
  refine .inl fun v hv => ?_
  have hall : ∀ v ∈ sampleCookies, Http.toStr v ≠ none ∧
      ∀ part ∈ attributes (Http.text v), isDomain part = true → Joined part := by decide +kernel
  exact hall v hv

/-- One cookie beside another that is not ASCII, and a Domain with a space
before its `=`. -/
theorem cookies_lost :
    ((proxyToUpstream Inject.identityOnly [] (setsCookies [Text.bytes "sid=1".toList, Text.bytes "name=é".toList])
        getPage "http://origin:80".toList true false 1800).map fun proxied =>
      Http.getAll proxied.headers "set-cookie".toList) = .ok [Text.bytes "sid=1".toList] ∧
    ((proxyToUpstream Inject.identityOnly [] (setsCookies [Text.bytes "sid=1; Domain =origin".toList]) getPage
        "http://origin:80".toList true false 1800).map fun proxied =>
      Http.getAll proxied.headers "set-cookie".toList) = .ok [Text.bytes "sid=1; Domain =origin".toList] ∧
    withoutDomain "sid=1; Domain =origin".toList = "sid=1".toList := by
  refine ⟨by decide +kernel, by decide +kernel, by decide +kernel⟩

end NekoGuard.Proxy
