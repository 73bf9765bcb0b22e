/-
main.rs: the header block of a WebSocket upgrade as it goes to the upstream.
The two branches of the source rewrite it by the same text, but for where they
look for the upstream's host (`branches_agree_iff`).
-/
import NekoGuard.Std.Utf8Facts
import NekoGuard.Upgrade

namespace NekoGuard.Edge

open Lib.Scan (append_cons_cancel)

/-! ## Blocks of lines -/

section Block

variable {α : Type} {sp cr lf : α} {m t v m' t' : List α} {hs : List (List α)}

/-- A line of three words and further lines, each with its line end, and an
empty line. -/
def block (sp cr lf : α) (m t v : List α) (hs : List (List α)) : List α :=
  m ++ sp :: (t ++ sp :: (v ++ cr :: lf :: (hs.flatMap (· ++ [cr, lf]) ++ [cr, lf])))

theorem tail_cons (h : List α) (hs : List (List α)) : (h :: hs).flatMap (· ++ [cr, lf]) ++ [cr, lf] =
    h ++ cr :: lf :: (hs.flatMap (· ++ [cr, lf]) ++ [cr, lf]) := by simp

theorem line_cancel {a b r s : List α} (hcr : cr ≠ lf) (ha : lf ∉ a) (hb : lf ∉ b) :
    a ++ cr :: lf :: r = b ++ cr :: lf :: s ↔ a = b ∧ r = s := by
  have hmem : ∀ l : List α, lf ∉ l → lf ∉ l ++ [cr] := fun l hl => by simp [hl, hcr.symm]
  rw [List.append_cons, List.append_cons b, append_cons_cancel (hmem a ha) (hmem b hb), List.append_left_inj]

/-- Blocks agree word by word and line by line. -/
theorem block_inj {ι : Type} {f g : ι → List α} {is : List ι} (hcr : cr ≠ lf) (hm : sp ∉ m) (hm' : sp ∉ m')
    (ht : sp ∉ t) (ht' : sp ∉ t') (hv : lf ∉ v) (hf : ∀ i ∈ is, lf ∉ f i) (hg : ∀ i ∈ is, lf ∉ g i) :
    block sp cr lf m t v (is.map f) = block sp cr lf m' t' v (is.map g) ↔
      m = m' ∧ t = t' ∧ ∀ i ∈ is, f i = g i := by
  have htails : (is.map f).flatMap (· ++ [cr, lf]) ++ [cr, lf] = (is.map g).flatMap (· ++ [cr, lf]) ++ [cr, lf] ↔
      ∀ i ∈ is, f i = g i := by
    induction is with
    | nil => simp
    | cons i is ih =>
      rw [List.forall_mem_cons] at hf hg
      rw [List.map_cons, List.map_cons, tail_cons, tail_cons, line_cancel hcr hf.1 hg.1, ih hf.2 hg.2,
        List.forall_mem_cons]
  unfold block
  rw [append_cons_cancel hm hm', append_cons_cancel ht ht', line_cancel hcr hv hv, htails]
  simp

/-- Where an empty line ends may be in what follows on a line, but not in it. -/
theorem next_line {l q r rest : List α} (hcr : cr ≠ lf) (hl : lf ∉ l)
    (h : l ++ cr :: lf :: r = q ++ cr :: lf :: cr :: lf :: rest) :
    r = cr :: lf :: rest ∨ ∃ q', r = q' ++ cr :: lf :: cr :: lf :: rest := by
  by_cases hq : lf ∈ q
  · obtain ⟨q₁, q₂, rfl, hq₁⟩ := List.eq_append_cons_of_mem hq
    have hl' : lf ∉ l ++ [cr] := by simp [hl, hcr.symm]
    rw [List.append_cons l, List.append_assoc q₁, List.cons_append, append_cons_cancel hl' hq₁] at h
    exact .inr ⟨q₂, h.2⟩
  · exact .inl ((line_cancel hcr hl hq).mp h).2

/-- **The first blank line is the last line**: what ends like a head is the
whole of a block. -/
theorem block_end {q rest : List α} (hcr : cr ≠ lf) (hline : lf ∉ m ++ sp :: (t ++ sp :: v))
    (hhs : ∀ h ∈ hs, h ≠ [] ∧ lf ∉ h) (h : block sp cr lf m t v hs = q ++ cr :: lf :: cr :: lf :: rest) :
    rest = [] := by
  have hlines : ∀ l q : List α, lf ∉ l →
      l ++ cr :: lf :: (hs.flatMap (· ++ [cr, lf]) ++ [cr, lf]) = q ++ cr :: lf :: cr :: lf :: rest → rest = [] := by
    clear h
    induction hs with
    | nil =>
      intro l q hl h
      rcases next_line hcr hl h with h | ⟨q', h⟩
      · simpa using h.symm
      · have hlen := congrArg List.length h
        simp only [List.flatMap_nil, List.nil_append, List.length_append, List.length_cons, List.length_nil] at hlen
        omega
    | cons g hs ih =>
      intro l q hl h
      rw [List.forall_mem_cons] at hhs
      rw [tail_cons] at h
      rcases next_line hcr hl h with h | ⟨q', h⟩
      · -- The empty line would be the next one.
        have hg := (line_cancel hcr hhs.1.2 List.not_mem_nil).mp (h.trans (List.nil_append _).symm)
        exact absurd hg.1 hhs.1.1
      · exact ih hhs.2 g q' hhs.1.2 h
  refine hlines (m ++ sp :: (t ++ sp :: v)) q hline ?_
  rw [← h]
  simp [block]

end Block

/-! ## Texts -/

/-- What the rewriting sends for a header line. -/
def sentLine (auth line : Str) : Str := if isHostLine line then "Host: ".toList ++ auth else line

theorem afterFirstLine_eq {l : Str} (hl : '\r' ∉ l) (rest : Str) :
    afterFirstLine (l ++ '\r' :: '\n' :: rest) = .ok rest := by
  have hbefore : Text.before crlf (l ++ '\r' :: '\n' :: rest) = some l := by
    induction l with
    | nil => simp [Text.before, Text.startsWith, crlf]
    | cons c l ih =>
      rw [List.mem_cons, not_or] at hl
      have hstart : Text.startsWith (c :: (l ++ '\r' :: '\n' :: rest)) crlf = false := by
        simp [Text.startsWith, crlf, List.isPrefixOf, hl.1]
      rw [List.cons_append, Text.before, hstart, ih hl.2]
      rfl
  have hlen : Text.byteLen l + 2 = Text.byteLen (l ++ crlf) := by
    rw [Text.byteLen_append]
    rfl
  have hsplit : l ++ '\r' :: '\n' :: rest = (l ++ crlf) ++ rest := by simp [crlf]
  unfold afterFirstLine Text.find
  rw [hbefore, Option.map_some, Option.getD_some, hlen, hsplit]
  exact Text.sliceFrom_append _ rest

theorem lines_tail {hs : List Str} (hhs : ∀ h ∈ hs, h ≠ [] ∧ '\n' ∉ h) :
    (Text.lines (hs.flatMap (· ++ ['\r', '\n']) ++ ['\r', '\n'])).takeWhile (· ≠ []) = hs := by
  induction hs with
  | nil => decide
  | cons h hs ih =>
    rw [List.forall_mem_cons] at hhs
    rw [tail_cons, Text.lines_crlf hhs.1.2, List.takeWhile_cons_of_pos (by simpa using hhs.1.1), ih hhs.2]

/-- A word of the request line. -/
def IsWord (w : Str) : Prop := w ≠ [] ∧ ∀ c ∈ w, Text.isWhitespace c = false

theorem IsWord.not_mem {w : Str} (h : IsWord w) {c : Char} (hc : Text.isWhitespace c = true) : c ∉ w := by
  intro hmem
  rw [h.2 c hmem] at hc
  cases hc

/-- **What a header block is rewritten to.** -/
theorem rewrite_block {m t v auth : Str} {hs : List Str} (hm : IsWord m) (ht : IsWord t) (hv : IsWord v)
    (hhs : ∀ h ∈ hs, h ≠ [] ∧ '\n' ∉ h) :
    rewrite (block ' ' '\r' '\n' m t v hs) auth =
      .ok (block ' ' '\r' '\n' m t "HTTP/1.1".toList (hs.map (sentLine auth))) := by
  have hline : ∀ c : Char, c ≠ ' ' → Text.isWhitespace c = true → c ∉ m ++ ' ' :: (t ++ ' ' :: v) := by
    intro c hne hc
    simp [hm.not_mem hc, ht.not_mem hc, hv.not_mem hc, hne]
  have hblock : block ' ' '\r' '\n' m t v hs = (m ++ ' ' :: (t ++ ' ' :: v)) ++
      '\r' :: '\n' :: (hs.flatMap (· ++ ['\r', '\n']) ++ ['\r', '\n']) := by simp [block]
  have hfirst : (Text.lines (block ' ' '\r' '\n' m t v hs)).headD [] = m ++ ' ' :: (t ++ ' ' :: v) := by
    rw [hblock, Text.lines_crlf (hline _ (by decide) (by decide))]
    rfl
  have hwords : Text.splitWhitespace (m ++ ' ' :: (t ++ ' ' :: v)) = [m, t, v] := by
    rw [Text.splitWhitespace_word hm.1 hm.2 (by decide), Text.splitWhitespace_word ht.1 ht.2 (by decide),
      Text.splitWhitespace_of_word hv.1 hv.2]
  have hafter : afterFirstLine (block ' ' '\r' '\n' m t v hs) =
      .ok (hs.flatMap (· ++ ['\r', '\n']) ++ ['\r', '\n']) := by
    rw [hblock]
    exact afterFirstLine_eq (hline _ (by decide) (by decide)) _
  have hsent : ∀ line : Str, (if isHostLine line then "Host: ".toList ++ auth ++ crlf else line ++ crlf) =
      sentLine auth line ++ crlf := by
    intro line
    unfold sentLine
    split <;> rfl
  have hversion : " HTTP/1.1".toList = ' ' :: "HTTP/1.1".toList := by decide
  have hcrlf : crlf = ['\r', '\n'] := by decide
  unfold rewrite
  simp only [hfirst, hwords, hafter, bind, Except.bind, pure, Except.pure, hsent, lines_tail hhs, hversion,
    List.headD_cons]
  generalize "HTTP/1.1".toList = version
  simp only [block, hcrlf, List.flatMap_def, List.map_map, List.append_assoc, List.cons_append, List.nil_append,
    Function.comp_def]

/-! ## Header blocks and upstreams -/

/-- The header block of a request: three words, and header lines. -/
structure HeaderBlock where
  method : Bytes
  target : Bytes
  version : Bytes
  headers : List Bytes
  words : ∀ w ∈ [method, target, version], IsWord (Utf8.fromUtf8Lossy w)
  lines : ∀ h ∈ headers, h ≠ [] ∧ 0x0a ∉ h

namespace HeaderBlock

def bytes (b : HeaderBlock) : Bytes := block 0x20 0x0d 0x0a b.method b.target b.version b.headers

end HeaderBlock

def isHost (h : Bytes) : Bool := isHostLine (Utf8.fromUtf8Lossy h)

/-- What is to be sent: the block, with the upstream's host. -/
def HeaderBlock.forwarded (b : HeaderBlock) (host : Str) : Bytes :=
  block 0x20 0x0d 0x0a b.method b.target (Text.bytes "HTTP/1.1".toList)
    (b.headers.map fun h => if isHost h then Text.bytes ("Host: ".toList ++ host) else h)

/-- An upstream with its scheme and port. -/
structure UpstreamUrl where
  scheme : Str
  host : Str
  port : Str
  scheme_eq : Text.toAsciiLowercase scheme = "http".toList ∨ Text.toAsciiLowercase scheme = "https".toList
  host_plain : ∀ c ∈ host, Text.isWhitespace c = false

def UpstreamUrl.text (u : UpstreamUrl) : Str := u.scheme ++ "://".toList ++ (u.host ++ ':' :: u.port)

theorem lossy_crlf (bs more : Bytes) : Utf8.fromUtf8Lossy (bs ++ 0x0d :: 0x0a :: more) =
    Utf8.fromUtf8Lossy bs ++ '\r' :: '\n' :: Utf8.fromUtf8Lossy more := by
  have hlf : Utf8.fromUtf8Lossy (0x0a :: more) = '\n' :: Utf8.fromUtf8Lossy more :=
    Utf8.fromUtf8Lossy_split (by decide) [] more
  rw [Utf8.fromUtf8Lossy_split (by decide), hlf]
  rfl

theorem lossy_tail (hs : List Bytes) : Utf8.fromUtf8Lossy (hs.flatMap (· ++ [0x0d, 0x0a]) ++ [0x0d, 0x0a]) =
    (hs.map Utf8.fromUtf8Lossy).flatMap (· ++ ['\r', '\n']) ++ ['\r', '\n'] := by
  induction hs with
  | nil => decide
  | cons h hs ih =>
    rw [List.map_cons, tail_cons, tail_cons, lossy_crlf, ih]

theorem lossy_block (m t v : Bytes) (hs : List Bytes) : Utf8.fromUtf8Lossy (block 0x20 0x0d 0x0a m t v hs) =
    block ' ' '\r' '\n' (Utf8.fromUtf8Lossy m) (Utf8.fromUtf8Lossy t) (Utf8.fromUtf8Lossy v)
      (hs.map Utf8.fromUtf8Lossy) := by
  have hsp : ∀ bs more, Utf8.fromUtf8Lossy (bs ++ 0x20 :: more) =
      Utf8.fromUtf8Lossy bs ++ ' ' :: Utf8.fromUtf8Lossy more := Utf8.fromUtf8Lossy_split (by decide)
  unfold block
  rw [hsp, hsp, lossy_crlf, lossy_tail]

theorem bytes_block (m t v : Str) (hs : List Str) : Text.bytes (block ' ' '\r' '\n' m t v hs) =
    block 0x20 0x0d 0x0a (Text.bytes m) (Text.bytes t) (Text.bytes v) (hs.map Text.bytes) := by
  have hsp : ∀ s, Text.bytes (' ' :: s) = 0x20 :: Text.bytes s := fun s => rfl
  have hcr : ∀ s, Text.bytes ('\r' :: s) = 0x0d :: Text.bytes s := fun s => rfl
  have hlf : ∀ s, Text.bytes ('\n' :: s) = 0x0a :: Text.bytes s := fun s => rfl
  have htail : Text.bytes (hs.flatMap (· ++ ['\r', '\n']) ++ ['\r', '\n']) =
      (hs.map Text.bytes).flatMap (· ++ [0x0d, 0x0a]) ++ [0x0d, 0x0a] := by
    induction hs with
    | nil => rfl
    | cons h hs ih => rw [List.map_cons, tail_cons, tail_cons, Text.bytes_append, hcr, hlf, ih]
  unfold block
  rw [Text.bytes_append, hsp, Text.bytes_append, hsp, Text.bytes_append, hcr, hlf, htail]

namespace UpstreamUrl

variable (u : UpstreamUrl)

/-- No character of a scheme is one of these. -/
theorem not_mem_scheme {c : Char} (hlower : c.toLower = c) (hc : c ∉ "https".toList) : c ∉ u.scheme := by
  intro hmem
  have hlow : c ∈ Text.toAsciiLowercase u.scheme := List.mem_map.mpr ⟨c, hmem, hlower⟩
  rcases u.scheme_eq with h | h
  · rw [h] at hlow
    exact hc (List.mem_append_left ['s'] hlow)
  · rw [h] at hlow
    exact hc hlow

theorem colon_not_mem : ':' ∉ u.scheme := u.not_mem_scheme (by decide) (by decide)

theorem text_eq : u.text = u.scheme ++ ':' :: ('/' :: '/' :: (u.host ++ ':' :: u.port)) := by
  have hsep : "://".toList = [':', '/', '/'] := by decide
  simp [text, hsep]

theorem splitFirst_text : Text.splitFirst u.text ':' = u.scheme := by
  rw [text_eq]
  exact Text.splitFirst_append u.colon_not_mem _

theorem stripPrefix_scheme : Text.stripPrefix u.text (u.scheme ++ "://".toList) = some (u.host ++ ':' :: u.port) :=
  Text.stripPrefix_append _ _

/-- Another scheme is not stripped. -/
theorem stripPrefix_other {s : Str} (hs : ':' ∉ s) (hne : s ≠ u.scheme) :
    Text.stripPrefix u.text (s ++ "://".toList) = none := by
  have hsep : "://".toList = [':', '/', '/'] := by decide
  refine if_neg fun hstart => hne ?_
  obtain ⟨rest, hrest⟩ := List.isPrefixOf_iff_prefix.mp hstart
  rw [text_eq, hsep, List.append_assoc, List.cons_append, append_cons_cancel hs u.colon_not_mem] at hrest
  exact hrest.1

theorem splitFirst_stripScheme (h : u.host = u.scheme) : Text.splitFirst (stripScheme u.text) ':' = u.host := by
  have hhost : Text.splitFirst (u.host ++ ':' :: u.port) ':' = u.host :=
    Text.splitFirst_append (h ▸ u.colon_not_mem) _
  have hhttp : "http://".toList = "http".toList ++ "://".toList := by decide
  have hhttps : "https://".toList = "https".toList ++ "://".toList := by decide
  unfold stripScheme
  rw [hhttp, hhttps]
  by_cases h1 : u.scheme = "http".toList
  · rw [← h1, stripPrefix_scheme]
    exact hhost
  · rw [u.stripPrefix_other (by decide) (Ne.symm h1)]
    by_cases h2 : u.scheme = "https".toList
    · rw [← h2, stripPrefix_scheme]
      exact hhost
    · rw [u.stripPrefix_other (by decide) (Ne.symm h2), h]
      exact u.splitFirst_text

end UpstreamUrl

/-! ## Reading a block -/

/-- The peek goes on to the end of what has no head before. -/
theorem peek_whole {head bytes : Bytes}
    (h : ∀ q rest, head ++ bytes = q ++ rest → Text.endsWith q endOfHead = true → rest = []) :
    (peek head bytes).1 = head ++ bytes := by
  induction bytes generalizing head with
  | nil => exact (List.append_nil head).symm
  | cons b bytes ih =>
    rw [List.append_cons] at h ⊢
    unfold peek
    split
    · next hend =>
      have hnil := h (head ++ [b]) bytes rfl hend
      rw [hnil, List.append_nil]
    · exact ih h

theorem readBuf_whole {buf : Bytes} {chunks : List Bytes}
    (h : ∀ q rest, buf ++ chunks.flatten = q ++ rest → Text.endsWith q endOfHead = true → rest = []) :
    readBuf buf chunks = buf ++ chunks.flatten := by
  induction chunks generalizing buf with
  | nil => exact (List.append_nil buf).symm
  | cons c chunks ih =>
    rw [List.flatten_cons, ← List.append_assoc] at h ⊢
    unfold readBuf
    split
    · next hend =>
      have hnil := h (buf ++ c) chunks.flatten rfl hend
      rw [hnil, List.append_nil]
    · exact ih h

theorem HeaderBlock.end_of_head (b : HeaderBlock) {q rest : Bytes} (h : b.bytes = q ++ rest)
    (hend : Text.endsWith q endOfHead = true) : rest = [] := by
  obtain ⟨p, rfl⟩ := List.isSuffixOf_iff_suffix.mp hend
  have hhead : endOfHead = [0x0d, 0x0a, 0x0d, 0x0a] := by decide
  have hwords : ∀ w ∈ [b.method, b.target, b.version], (0x0a : UInt8) ∉ w := fun w hw hmem =>
    (b.words w hw).not_mem (by decide) (Utf8.mem_fromUtf8Lossy (x := 0x0a) (by decide) hmem)
  simp only [List.forall_mem_cons, List.not_mem_nil, false_implies, implies_true, and_true] at hwords
  have hline : (0x0a : UInt8) ∉ b.method ++ 0x20 :: (b.target ++ 0x20 :: b.version) := by simp [hwords]
  refine block_end (q := p) (by decide) hline b.lines (h.trans ?_)
  rw [hhead]
  simp

theorem received_tls (b : HeaderBlock) : (Arrival.tls b.bytes).received = b.bytes :=
  peek_whole fun _ _ h hend => b.end_of_head h hend

theorem received_http (b : HeaderBlock) {peeked : Bytes} {chunks : List Bytes} (h : chunks.flatten = b.bytes) :
    (Arrival.http peeked chunks).received = b.bytes := by
  rw [← h]
  refine readBuf_whole fun q rest hq hend => b.end_of_head ?_ hend
  rw [← h]
  exact hq

/-! ## What is sent -/

/-- The bytes are UTF-8. -/
def Kept (bs : Bytes) : Prop := Text.bytes (Utf8.fromUtf8Lossy bs) = bs

instance (bs : Bytes) : Decidable (Kept bs) := inferInstanceAs (Decidable (_ = _))

/-- The upstream's host looks like its scheme, and decoding loses nothing that
is sent. -/
structure Survives (b : HeaderBlock) (u : UpstreamUrl) : Prop where
  host : ∃ h ∈ b.headers, isHost h = true
  scheme : u.scheme = u.host
  method : Kept b.method
  target : Kept b.target
  headers : ∀ h ∈ b.headers, isHost h = false → Kept h

theorem rewrite_bytes (b : HeaderBlock) (auth : Str) : rewrite (Utf8.fromUtf8Lossy b.bytes) auth =
    .ok (block ' ' '\r' '\n' (Utf8.fromUtf8Lossy b.method) (Utf8.fromUtf8Lossy b.target) "HTTP/1.1".toList
      ((b.headers.map Utf8.fromUtf8Lossy).map (sentLine auth))) := by
  have hwords := b.words
  simp only [List.forall_mem_cons, List.not_mem_nil, false_implies, implies_true, and_true] at hwords
  unfold HeaderBlock.bytes
  rw [lossy_block]
  refine rewrite_block hwords.1 hwords.2.1 hwords.2.2 ?_
  intro l hl
  obtain ⟨h, hh, rfl⟩ := List.mem_map.mp hl
  obtain ⟨hne, hlf⟩ := b.lines h hh
  refine ⟨fun hnil => ?_, fun hmem => hlf (Utf8.mem_of_mem_fromUtf8Lossy (by decide) hmem)⟩
  cases h with
  | nil => exact hne rfl
  | cons x xs =>
    rw [Utf8.fromUtf8Lossy_cons] at hnil
    cases hnil

/-- The block is what is to be sent when every word and line is. -/
theorem sent_eq_forwarded_iff (b : HeaderBlock) (u : UpstreamUrl) :
    Text.bytes (block ' ' '\r' '\n' (Utf8.fromUtf8Lossy b.method) (Utf8.fromUtf8Lossy b.target) "HTTP/1.1".toList
      ((b.headers.map Utf8.fromUtf8Lossy).map (sentLine u.scheme))) = b.forwarded u.host ↔
    Kept b.method ∧ Kept b.target ∧ ∀ h ∈ b.headers, if isHost h then u.scheme = u.host else Kept h := by
  have hspace : ∀ w ∈ [b.method, b.target, b.version],
      (0x20 : UInt8) ∉ w ∧ (0x20 : UInt8) ∉ Text.bytes (Utf8.fromUtf8Lossy w) := by
    intro w hw
    have hno := (b.words w hw).not_mem (c := ' ') (by decide)
    exact ⟨fun hmem => hno (Utf8.mem_fromUtf8Lossy (x := 0x20) (by decide) hmem),
      fun hmem => hno (Utf8.mem_of_mem_bytes (x := 0x20) (by decide) hmem)⟩
  simp only [List.forall_mem_cons, List.not_mem_nil, false_implies, implies_true, and_true] at hspace
  have hlf : ∀ h ∈ b.headers, (0x0a : UInt8) ∉ Text.bytes (Utf8.fromUtf8Lossy h) := fun h hh hmem =>
    (b.lines h hh).2 (Utf8.mem_of_mem_fromUtf8Lossy (by decide) (Utf8.mem_of_mem_bytes (x := 0x0a) (by decide) hmem))
  have hhostline : ∀ s : Str, '\n' ∉ s → (0x0a : UInt8) ∉ Text.bytes ("Host: ".toList ++ s) := by
    intro s hs hmem
    have hchar := Utf8.mem_of_mem_bytes (x := 0x0a) (by decide) hmem
    rcases List.mem_append.mp hchar with h | h
    · exact absurd h (by decide)
    · exact hs h
  have hhost : '\n' ∉ u.host := fun hmem => absurd (u.host_plain _ hmem) (by decide)
  have hscheme : '\n' ∉ u.scheme := u.not_mem_scheme (by decide) (by decide)
  have hsent : ∀ h : Bytes, sentLine u.scheme (Utf8.fromUtf8Lossy h) =
      if isHost h then "Host: ".toList ++ u.scheme else Utf8.fromUtf8Lossy h := fun h => rfl
  rw [bytes_block, List.map_map, List.map_map]
  unfold HeaderBlock.forwarded
  rw [block_inj (by decide) hspace.1.2 hspace.1.1 hspace.2.1.2 hspace.2.1.1 (by decide)]
  · refine and_congr Iff.rfl (and_congr Iff.rfl (forall₂_congr fun h hh => ?_))
    rw [Function.comp_apply, Function.comp_apply, hsent]
    by_cases hish : isHost h = true
    · rw [if_pos hish, if_pos hish, if_pos hish]
      constructor
      · intro heq
        exact List.append_cancel_left (Text.bytes_inj heq)
      · intro heq
        rw [heq]
    · rw [if_neg hish, if_neg hish, if_neg hish]
      exact Iff.rfl
  · intro h hh
    rw [Function.comp_apply, Function.comp_apply, hsent]
    split
    · exact hhostline u.scheme hscheme
    · exact hlf h hh
  · intro h hh
    split
    · exact hhostline u.host hhost
    · exact (b.lines h hh).2

/-- **When both branches send what the client sent, to the upstream's host**:
the TLS branch names the scheme of the upstream for its host. -/
theorem branches_agree_iff (b : HeaderBlock) (u : UpstreamUrl) {peeked : Bytes} {chunks : List Bytes}
    (hchunks : chunks.flatten = b.bytes) :
    (∃ text, rewritten .tls (Arrival.tls b.bytes).received u.text = .ok text ∧
      rewritten .http (Arrival.http peeked chunks).received u.text = .ok text ∧
      Text.bytes text = b.forwarded u.host ∧ ∃ h ∈ b.headers, isHost h = true) ↔ Survives b u := by
  have htls : rewritten .tls b.bytes u.text = rewrite (Utf8.fromUtf8Lossy b.bytes) u.scheme :=
    congrArg (rewrite _) u.splitFirst_text
  have hhttp : rewritten .http b.bytes u.text =
      rewrite (Utf8.fromUtf8Lossy b.bytes) (Text.splitFirst (stripScheme u.text) ':') := rfl
  rw [received_tls, received_http b hchunks, htls, hhttp, rewrite_bytes, rewrite_bytes]
  constructor
  · rintro ⟨text, htls, -, hbytes, hhost⟩
    cases htls
    obtain ⟨hmethod, htarget, hheaders⟩ := (sent_eq_forwarded_iff b u).mp hbytes
    obtain ⟨h, hh, hish⟩ := hhost
    have hscheme := hheaders h hh
    rw [if_pos hish] at hscheme
    refine ⟨⟨h, hh, hish⟩, hscheme, hmethod, htarget, fun g hg hno => ?_⟩
    have hkept := hheaders g hg
    rwa [if_neg (by rw [hno]; exact Bool.false_ne_true)] at hkept
  · intro hs
    refine ⟨_, rfl, ?_, (sent_eq_forwarded_iff b u).mpr ⟨hs.method, hs.target, fun h hh => ?_⟩, hs.host⟩
    · rw [u.splitFirst_stripScheme hs.scheme.symm, hs.scheme]
    · split
      · exact hs.scheme
      · next hno => exact hs.headers h hh (Bool.eq_false_iff.mpr hno)

/-- The header block of `upgradeHead`. -/
def upgradeBlock : HeaderBlock where
  method := Text.bytes "GET".toList
  target := Text.bytes "/".toList
  version := Text.bytes "HTTP/1.1".toList
  headers := [Text.bytes "Host: a.example".toList, Text.bytes "Upgrade: websocket".toList]
  words := by simp only [IsWord]; decide +kernel
  lines := by decide

/-- An upstream that is called what its scheme is called. -/
def httpUrl : UpstreamUrl where
  scheme := "http".toList
  host := "http".toList
  port := "80".toList
  scheme_eq := .inl (by decide)
  host_plain := by decide

theorem branches_agree_http :
    ∃ text, rewritten .tls (Arrival.tls upgradeBlock.bytes).received httpUrl.text = .ok text ∧
      rewritten .http (Arrival.http [] [upgradeBlock.bytes]).received httpUrl.text = .ok text := by
  have hsurvives : Survives upgradeBlock httpUrl := {
    host := ⟨Text.bytes "Host: a.example".toList, by decide, by decide +kernel⟩
    scheme := rfl
    method := by decide +kernel
    target := by decide +kernel
    headers := by decide +kernel }
  obtain ⟨text, htls, hhttp, -⟩ :=
    (@branches_agree_iff upgradeBlock httpUrl [] [upgradeBlock.bytes] (by simp)).mpr hsurvives
  exact ⟨text, htls, hhttp⟩

/-- The TLS branch sends the scheme of the upstream for its host. -/
theorem branches_disagree : upgradeHead = upgradeBlock.bytes ∧ isWs upgradeHead = true ∧
    (rewritten .tls (Arrival.tls upgradeHead).received "http://origin:8080".toList).toOption =
      some "GET / HTTP/1.1\r\nHost: http\r\nUpgrade: websocket\r\n\r\n".toList ∧
    (rewritten .http (Arrival.http upgradeHead [upgradeHead]).received "http://origin:8080".toList).toOption =
      some "GET / HTTP/1.1\r\nHost: origin\r\nUpgrade: websocket\r\n\r\n".toList := by
  decide +kernel

end NekoGuard.Edge
