/-
embed.rs: what stands in a document's body, and whether `scrape` sees it: it
does exactly where nothing before the body ends the head (`confined_iff`).
-/
import NekoGuard.Entries
import NekoGuard.ReadHead

namespace NekoGuard.Embed

open Lib

/-! ## Markers in bytes and in text -/

variable {buf bs front : Bytes} {i : Nat} {w : Str}

theorem markerAt_iff : MarkerAt buf i ↔ headMarker <+: (buf.drop i).map lowerByte := by
  unfold MarkerAt
  rw [List.map_take, List.prefix_iff_eq_take, eq_comm]

theorem exists_markerAt_iff : (∃ j, MarkerAt buf j) ↔ headMarker <:+: buf.map lowerByte := by
  constructor
  · intro ⟨j, hj⟩
    have hrest : ((buf.drop j).map lowerByte) <:+ buf.map lowerByte := by
      rw [List.map_drop]
      exact List.drop_suffix j _
    exact (markerAt_iff.mp hj).isInfix.trans hrest.isInfix
  · intro ⟨a, b, h⟩
    refine ⟨a.length, markerAt_iff.mpr ?_⟩
    rw [List.map_drop, ← h, List.append_assoc, List.drop_left]
    exact List.prefix_append _ _

/-- A marker behind bytes that have none. -/
theorem firstMarker_append (h : ¬headMarker <:+: buf.map lowerByte) : FirstMarker (buf ++ headMarker) buf.length where
  at_ := by
    unfold MarkerAt
    rw [List.drop_left]
    decide
  first := by
    intro j hj hmarker
    have hlower : headMarker.map lowerByte = 0x3c :: headMarker.tail := by decide
    have hclear : Scan.Clear headMarker.isPrefixOf (buf.map lowerByte) (0x3c :: headMarker.tail) :=
      (Scan.clear_word (by decide) (by decide)).mpr h
    have hsplit : buf.map lowerByte = (buf.map lowerByte).take j ++ (buf.drop j).map lowerByte := by
      rw [List.map_drop, List.take_append_drop]
    have hnot := hclear _ _ hsplit (by simpa using hj)
    have hat := markerAt_iff.mp hmarker
    rw [List.drop_append_of_le_length (by omega), List.map_append, hlower, ← List.isPrefixOf_iff_prefix, hnot] at hat
    cases hat

theorem toNat_lowerByte (b : UInt8) :
    (lowerByte b).toNat = if 65 ≤ b.toNat ∧ b.toNat ≤ 90 then b.toNat + 32 else b.toNat := by
  have hcond : (65 ≤ b ∧ b ≤ 90) ↔ (65 ≤ b.toNat ∧ b.toNat ≤ 90) := Iff.rfl
  unfold lowerByte
  split
  · next h =>
    have hb := hcond.mp h
    rw [if_pos hb, UInt8.toNat_add]
    show (b.toNat + 32) % 256 = b.toNat + 32
    omega
  · next h => rw [if_neg (hcond.not.mp h)]

/-- A word that a text begins with, whatever its case, is in its bytes. -/
theorem prefix_of_text (hw : ∀ c ∈ w, 0 < c.toNat ∧ c.toNat < 0x80)
    (h : w <+: Text.toAsciiLowercase (Utf8.fromUtf8Lossy bs)) : Text.bytes w <+: bs.map lowerByte := by
  rw [Utf8.bytes_ascii fun c hc => (hw c hc).2]
  induction w generalizing bs with
  | nil => exact List.nil_prefix
  | cons c w ih =>
    cases htext : Utf8.fromUtf8Lossy bs with
    | nil => simp [htext, Text.toAsciiLowercase] at h
    | cons d t =>
      rw [htext, Text.toAsciiLowercase, List.map_cons, List.cons_prefix_cons] at h
      have hc := hw c (by simp)
      have hlower := Text.toNat_toLower d
      rw [← h.1] at hlower
      obtain ⟨b, rest, rfl, hb, rfl⟩ := Utf8.exists_of_fromUtf8Lossy htext (by split at hlower <;> omega)
      have hbyte : UInt8.ofNat c.toNat = lowerByte b := by
        have hnat := toNat_lowerByte b
        rw [hb, ← hlower] at hnat
        rw [← UInt8.toNat_inj, hnat, UInt8.toNat_ofNat_of_lt' (Nat.lt_trans hc.2 (by decide))]
      rw [List.map_cons, List.map_cons, List.cons_prefix_cons]
      exact ⟨hbyte, ih (fun e he => hw e (by simp [he])) h.2⟩

/-- A word of a text is in its bytes. -/
theorem infix_of_text (hw : ∀ c ∈ w, 0 < c.toNat ∧ c.toNat < 0x80)
    (h : w <:+: Text.toAsciiLowercase (Utf8.fromUtf8Lossy bs)) : Text.bytes w <:+: bs.map lowerByte := by
  induction hn : bs.length using Nat.strongRecOn generalizing bs with
  | ind n ih =>
    cases bs with
    | nil =>
      obtain rfl : w = [] := by simpa [Utf8.fromUtf8Lossy, Utf8.chunks, Text.toAsciiLowercase] using h
      exact List.nil_infix
    | cons b rest =>
      have hsuffix := Utf8.next_suffix b rest
      have hlen := hsuffix.length_le
      rw [List.length_cons] at hn
      have hcons := Utf8.fromUtf8Lossy_cons b rest
      rw [hcons, Text.toAsciiLowercase, List.map_cons, List.infix_cons_iff] at h
      rcases h with hstart | hlater
      · exact (prefix_of_text hw (by rw [hcons]; exact hstart)).isInfix
      · have hrest := ih _ (by omega) hlater rfl
        have hmap : (Utf8.next b rest).2.map lowerByte <:+ (b :: rest).map lowerByte :=
          (hsuffix.trans (List.suffix_cons b rest)).map lowerByte
        exact hrest.trans hmap.isInfix

/-- Where no marker is in the bytes, no `</head>` is in the text. -/
theorem noEnd_of_no_marker (h : ∀ j, ¬MarkerAt bs j) : NoEnd (Utf8.fromUtf8Lossy bs) := by
  intro hend
  have hword : "</head".toList <:+: Text.toAsciiLowercase (Utf8.fromUtf8Lossy bs) :=
    List.IsInfix.trans (List.prefix_append "</head".toList ['>']).isInfix hend
  obtain ⟨j, hj⟩ := exists_markerAt_iff.mpr (infix_of_text (by decide) hword)
  exact h j hj

/-! ## How much a text can bring -/

theorem length_emitted_le (tag : Str) : (emitted tag).length ≤ 1 := by
  unfold emitted
  cases keyOf tag with
  | none => exact Nat.zero_le 1
  | some x =>
    simp only []
    split
    · exact Nat.zero_le 1
    · cases attributeOf tag "content" with
      | none => exact Nat.zero_le 1
      | some content =>
        simp only []
        split
        · exact Nat.zero_le 1
        · split
          · exact Nat.zero_le 1
          · split <;> exact Nat.le_refl 1

theorem length_emits_le (s : Str) : (emits s).length ≤ s.length := by
  have hflat : ∀ tags : List Str, (tags.flatMap emitted).length ≤ tags.length := by
    intro tags
    induction tags with
    | nil => simp
    | cons tag tags ih =>
      have htag := length_emitted_le tag
      rw [List.flatMap_cons, List.length_append, List.length_cons]
      omega
  exact (hflat _).trans (Scan.length_all_le metaTagRe s)

/-- No more tags than characters. -/
theorem length_scrape_le {document : Str} {tags : List Str} (h : (scrape document).map Meta.tags = .ok tags) :
    tags.length ≤ document.length := by
  obtain ⟨a, hafter, hsuffix⟩ := afterHeadTag_ok document
  obtain ⟨head, hhead, hprefix⟩ := headOf_prefix hafter
  rw [scrape_tags hhead, Except.ok.injEq] at h
  have hemits := length_emits_le head
  have hlen := hprefix.length_le
  have hall := hsuffix.length_le
  rw [← h]
  omega

/-! ## Bodies -/

/-- A `<body` tag begins there, whatever its case. -/
def BodyTag (rest : Bytes) : Prop := (rest.take 5).map lowerByte = Text.bytes "<body".toList

instance (rest : Bytes) : Decidable (BodyTag rest) := inferInstanceAs (Decidable (_ = _))

/-- Nothing of a body that follows `front` comes into what `scrape` returns:
that is what it makes of `front`, up to some place. -/
def Confined (front : Bytes) : Prop :=
  ∀ rest body document, BodyTag rest → body.data = front ++ rest → readHead body = some document →
    ∃ n ≤ front.length, scrape document = scrape (Utf8.fromUtf8Lossy (front.take n))

/-- A marker before the body is the first one. -/
theorem FirstMarker.append (h : FirstMarker front i) (rest : Bytes) : FirstMarker (front ++ rest) i where
  at_ := h.at_.append rest
  first := by
    intro j hj hmarker
    have hlen := h.at_.le_length
    exact h.first j hj ((markerAt_append (by omega)).mp hmarker)

theorem confined_of_marker (hlen : front.length ≤ maxHtml) (h : MarkerAt front i) : Confined front := by
  intro rest body document _ hdata hread
  obtain ⟨j, hj⟩ := exists_firstMarker h
  have hwithin := hj.at_.le_length
  have hfirst := hj.append rest
  rw [← hdata] at hfirst
  have hhead := @readHead_of_firstMarker j body.fails body.frames hfirst (by omega)
  have hframes : body.frames.flatten = front ++ rest := hdata
  rw [hframes, List.take_append_of_le_length (by omega)] at hhead
  refine ⟨j, by omega, ?_⟩
  rw [hread, Option.some.injEq] at hhead
  rw [hhead]

/-- A body with a head of its own. -/
def decoys (n : Nat) : Str := "<body><head>".toList ++ written (probes n)

theorem written_probes (n : Nat) : written (probes n) = (List.replicate n probe.tag).flatten := by
  unfold written probes
  rw [List.flatMap_def, List.map_replicate, List.append_nil]

theorem decoys_ascii (n : Nat) : ∀ c ∈ decoys n, c.toNat < 0x80 := by
  have hopen : ∀ c ∈ "<body><head>".toList, c.toNat < 0x80 := by decide +kernel
  have hprobe : ∀ c ∈ probe.tag, c.toNat < 0x80 := by decide +kernel
  unfold decoys
  intro c hc
  rcases List.mem_append.mp hc with hc | hc
  · exact hopen c hc
  · rw [written_probes] at hc
    obtain ⟨tag, htag, hc⟩ := List.mem_flatten.mp hc
    exact hprobe c ((List.mem_replicate.mp htag).2 ▸ hc)

theorem bytes_decoys (n : Nat) :
    Text.bytes (decoys n) = (Text.bytes "<body><head>".toList :: List.replicate n (Text.bytes probe.tag)).flatten := by
  have happend : ∀ s t, Text.bytes (s ++ t) = Text.bytes s ++ Text.bytes t := fun _ _ => List.flatMap_append
  have hflat : Text.bytes (List.replicate n probe.tag).flatten = (List.replicate n (Text.bytes probe.tag)).flatten := by
    induction n with
    | zero => rfl
    | succ n ih => rw [List.replicate_succ, List.flatten_cons, happend, ih, List.replicate_succ, List.flatten_cons]
  unfold decoys
  rw [List.flatten_cons, ← hflat, ← written_probes, happend]

theorem exists_bytes_decoys (n : Nat) : ∃ rest, Text.bytes (decoys n) = Text.bytes "<body".toList ++ rest := by
  have hopen : Text.bytes "<body><head>".toList = Text.bytes "<body".toList ++ Text.bytes "><head>".toList := by
    decide +kernel
  rw [bytes_decoys, List.flatten_cons, hopen, List.append_assoc]
  exact ⟨_, rfl⟩

theorem bodyTag_decoys (n : Nat) (rest : Bytes) : BodyTag (Text.bytes (decoys n) ++ rest) := by
  obtain ⟨more, hmore⟩ := exists_bytes_decoys n
  unfold BodyTag
  rw [hmore, List.append_assoc, List.take_left' (by decide +kernel)]
  decide +kernel

/-- A body with decoys does not end the head before it. -/
theorem no_marker_decoys (h : ∀ j, ¬MarkerAt front j) (n : Nat) :
    ¬headMarker <:+: (front ++ Text.bytes (decoys n)).map lowerByte := by
  have hfront : ¬headMarker <:+: front.map lowerByte := by
    intro hinfix
    obtain ⟨j, hj⟩ := exists_markerAt_iff.mpr hinfix
    exact h j hj
  have hparts : ¬headMarker <:+: (Text.bytes (decoys n)).map lowerByte := by
    rw [bytes_decoys, List.map_flatten]
    refine Scan.not_infix_flatten (x := 0x3c) (by decide) (by decide) fun part hpart => ?_
    obtain ⟨bs, hbs, rfl⟩ := List.mem_map.mp hpart
    rcases List.mem_cons.mp hbs with rfl | hbs
    · exact by decide +kernel
    · rw [(List.mem_replicate.mp hbs).2]
      decide +kernel
  obtain ⟨more, hmore⟩ := exists_bytes_decoys n
  obtain ⟨rest, hrest⟩ : ∃ rest, (Text.bytes (decoys n)).map lowerByte = 0x3c :: rest := by
    have hbody : (Text.bytes "<body".toList).map lowerByte = 0x3c :: (Text.bytes "body".toList) := by decide +kernel
    rw [hmore, List.map_append, hbody]
    exact ⟨_, rfl⟩
  rw [List.map_append]
  rw [hrest] at hparts ⊢
  exact Scan.not_infix_append (by decide) (by decide) hfront hparts

/-- The decoys come in, whatever the text before them. -/
theorem exists_scrape_decoys {s : Str} (hs : NoEnd s) (n : Nat) :
    ∃ tags, (scrape (s ++ decoys n)).map Meta.tags = .ok tags ∧ n ≤ tags.length := by
  have hopen : "<body><head>".toList = "<body><head".toList ++ ['>'] := by decide +kernel
  have htag : "<head".toList <:+: s ++ "<body><head".toList :=
    (show "<head".toList <:+: "<body><head".toList by decide +kernel).trans (List.suffix_append s _).isInfix
  obtain ⟨front, rest, heq, -, hafter⟩ := exists_afterHeadTag htag []
  have hdocument : s ++ "<body><head".toList ++ '>' :: [] ++ written (probes n) = s ++ decoys n := by
    unfold decoys
    rw [hopen, List.append_assoc, List.append_assoc, List.append_assoc]
  have hafter := hafter (written (probes n))
  rw [hdocument] at hafter
  have hsplit : Scan.Splits metaTagRe rest (written (probes n)) := by
    rcases List.eq_nil_or_concat' rest with rfl | ⟨r, d, rfl⟩
    · intro a b hab hb
      exact absurd (List.append_eq_nil_iff.mp hab.symm).2 hb
    · rw [← List.cons_append, ← List.append_assoc] at heq
      obtain rfl : '>' = d := by simpa using (List.append_inj' heq rfl).2
      exact splits_of_gt r _
  have hend : NoEnd (rest ++ written (probes n)) := by
    have hwhole : NoEnd (s ++ "<body><head".toList ++ ['>']) := by
      rw [List.append_assoc, ← hopen]
      exact hs.append (by unfold NoEnd; decide +kernel) (by intro c hc; exact (Option.some.inj hc).symm)
    rw [heq] at hwhole
    have hrest : NoEnd rest := fun h => hwhole (h.trans ((List.suffix_cons '>' rest).trans
      (List.suffix_append front _) |>.map Char.toLower).isInfix)
    exact hrest.append (noEnd_probes n) (boundary_probes n)
  refine ⟨_, scrape_tags (headOf_whole hafter hend), ?_⟩
  rw [emits_append hsplit, List.length_append, emits_probes]
  omega

theorem fromUtf8Lossy_decoys (front : Bytes) (n : Nat) :
    Utf8.fromUtf8Lossy (front ++ Text.bytes (decoys n)) = Utf8.fromUtf8Lossy front ++ decoys n := by
  obtain ⟨more, hmore⟩ := exists_bytes_decoys n
  have hbody : Text.bytes "<body".toList = 0x3c :: Text.bytes "body".toList := by decide +kernel
  rw [hbody, List.cons_append] at hmore
  rw [hmore, Utf8.fromUtf8Lossy_append (by decide), ← hmore, Utf8.fromUtf8Lossy_bytes (decoys_ascii n)]

/-- **A body stays out of it** if and only if something before it ends the
head. -/
theorem confined_iff (hlen : front.length ≤ maxHtml) : Confined front ↔ ∃ i, MarkerAt front i := by
  constructor
  · intro h
    by_contra hnone
    have hnone : ∀ j, ¬MarkerAt front j := fun j hj => hnone ⟨j, hj⟩
    have hfirst := firstMarker_append (no_marker_decoys hnone (front.length + 1))
    have hread := @readHead_single _ _ false hfirst
    rw [List.take_left, fromUtf8Lossy_decoys] at hread
    obtain ⟨tags, htags, hmany⟩ := exists_scrape_decoys (noEnd_of_no_marker hnone) (front.length + 1)
    have hdata : Http.Incoming.data ⟨[front ++ Text.bytes (decoys (front.length + 1)) ++ headMarker], false⟩ =
        front ++ (Text.bytes (decoys (front.length + 1)) ++ headMarker) := by
      simp [Http.Incoming.data]
    obtain ⟨n, hn, heq⟩ := h _ _ _ (bodyTag_decoys _ _) hdata hread
    -- More tags than there are bytes before the body.
    rw [heq] at htags
    have hcount := length_scrape_le htags
    have htext := Utf8.length_fromUtf8Lossy_le (front.take n)
    have htake := List.length_take_le n front
    omega
  · intro ⟨i, hi⟩
    exact confined_of_marker hlen hi

/-! ## Heads with and without an end tag -/

def closedHead : Bytes := Text.bytes "<html><head><title>x</title></head>".toList

theorem closedHead_confined : closedHead.length ≤ maxHtml ∧ Confined closedHead := by
  have hlen : closedHead.length ≤ maxHtml := by decide +kernel
  exact ⟨hlen, (confined_iff hlen).mpr ⟨28, by decide +kernel⟩⟩

def openHead : Bytes := Text.bytes "<html><head><title>x</title>".toList

def decoyBody : Bytes := Text.bytes "<body><meta property=\"og:title\" content=\"decoy\">".toList

/-- A head that only `<body>` ends: the body's tag is taken for the page's. -/
theorem openHead_shadowed : openHead.length ≤ maxHtml ∧ BodyTag decoyBody ∧
    (∃ document, readHead ⟨[openHead ++ decoyBody], false⟩ = some document ∧
      (scrape document).map Meta.tags = .ok ["<meta property=\"og:title\" content=\"decoy\">".toList]) ∧
    ¬Confined openHead := by
  have hbody : BodyTag decoyBody := by decide +kernel
  have hread : ∃ document, readHead ⟨[openHead ++ decoyBody], false⟩ = some document ∧
      (scrape document).map Meta.tags = .ok ["<meta property=\"og:title\" content=\"decoy\">".toList] :=
    ⟨Utf8.fromUtf8Lossy (openHead ++ decoyBody), by decide +kernel, by decide +kernel⟩
  refine ⟨by decide +kernel, hbody, hread, fun h => ?_⟩
  obtain ⟨document, hread, htags⟩ := hread
  obtain ⟨n, hn, heq⟩ := h _ _ _ hbody (by simp [Http.Incoming.data]) hread
  have hnone : ∀ n < 29, (scrape (Utf8.fromUtf8Lossy (openHead.take n))).map Meta.tags = .ok [] := by decide +kernel
  have hlen : openHead.length = 28 := by decide +kernel
  rw [heq, hnone n (by omega)] at htags
  cases htags

end NekoGuard.Embed
