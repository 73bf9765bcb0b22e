/-
gzip bodies of several members, of which `decompress` reads the first: when
a client reads the document with the script in it (`gzip_injected_iff`).
-/
import NekoGuard.Proxy
import NekoGuard.Std.Utf8Facts

namespace NekoGuard.Inject

/-- `flate2` beside what a client makes of a gzip stream, member by member. -/
structure GzipMembers (cz : CodecCrates) (members : Bytes → Option (List Bytes)) : Prop where
  /-- There is one, at least. -/
  members_ne : ∀ {body ms}, members body = some ms → body ≠ [] ∧ ms ≠ []
  /-- `GzDecoder` decodes the first member only. -/
  decodes_first : ∀ {body m ms}, members body = some (m :: ms) →
    (cz.decoder .gzip body).fails = false ∧ (cz.decoder .gzip body).data = m
  /-- `GzEncoder` writes one member. -/
  encodes_one : ∀ doc, ∃ encoded, cz.encoder .gzip doc = some encoded ∧ members encoded = some [doc]

/-- What a client decodes: all the members. -/
def clientDecoding (members : Bytes → Option (List Bytes)) (body : Bytes) : Option Bytes :=
  (members body).map List.flatten

variable {cz : CodecCrates} {members : Bytes → Option (List Bytes)} {guardJs html mutated : Str} {headers : HeaderMap}
  {body : Http.Incoming} {raw m : Bytes} {ms : List Bytes} {sessionTtl : Nat}

theorem snippet_ne_nil (guardJs : Str) (sessionTtl : Nat) : snippet guardJs sessionTtl ≠ [] := by
  have hcons : ∃ t, snippet guardJs sessionTtl = '<' :: t := ⟨_, rfl⟩
  obtain ⟨t, ht⟩ := hcons
  rw [ht]
  exact List.cons_ne_nil _ _

/-- The snippet makes a document longer by its own length. -/
theorem Spliced.length_bytes {s : Str} (h : Spliced html s mutated) :
    (Text.bytes mutated).length = (Text.bytes html).length + (Text.bytes s).length := by
  obtain ⟨head, tail, rfl, rfl⟩ := h
  simp only [Text.bytes_append, List.length_append]
  omega

theorem length_bytes_snippet (guardJs : Str) (sessionTtl : Nat) :
    0 < (Text.bytes (snippet guardJs sessionTtl)).length := by
  rw [List.length_pos_iff]
  intro hnil
  exact snippet_ne_nil guardJs sessionTtl (Text.bytes_inj (t := []) hnil)

/-- **What becomes of a gzip body** within the cap: its first member with the
snippet, or the body itself. -/
theorem rewritten_gzip (hg : GzipMembers cz members) (hms : members raw = some (m :: ms))
    (hwithin : m.length ≤ maxDecompressed) (guardJs : Str) (sessionTtl : Nat) :
    (looksLikeHtml m = true ∧ ∃ html mutated encoded, Utf8.fromUtf8 m = some html ∧
      injectIntoHtml html (snippet guardJs sessionTtl) = .ok mutated ∧
      Spliced html (snippet guardJs sessionTtl) mutated ∧
      rewritten cz guardJs .gzip sessionTtl raw = .ok (some encoded) ∧
      members encoded = some [Text.bytes mutated]) ∨
    looksLikeHtml m = false ∧ rewritten cz guardJs .gzip sessionTtl raw = .ok none := by
  have hdecompress : decompress cz raw .gzip = some m := by
    obtain ⟨hfails, hdata⟩ := hg.decodes_first hms
    exact decompress_eq_some.mpr ⟨hwithin, .inr ⟨nofun, hfails, hdata⟩⟩
  unfold rewritten
  simp only [hdecompress]
  cases hlook : looksLikeHtml m with
  | false => exact .inr ⟨rfl, rfl⟩
  | true =>
    obtain ⟨html, hhtml⟩ : ∃ html, Utf8.fromUtf8 m = some html := by
      unfold looksLikeHtml at hlook
      split at hlook
      · next html hhtml => exact ⟨html, hhtml⟩
      · cases hlook
    obtain ⟨mutated, hok, hspliced⟩ := injectIntoHtml_ok html (snippet guardJs sessionTtl)
    obtain ⟨encoded, hencoded, hone⟩ := hg.encodes_one (Text.bytes mutated)
    refine .inl ⟨rfl, html, mutated, encoded, hhtml, hok, hspliced, ?_, hone⟩
    have hcompress : compress cz (Text.bytes mutated) .gzip = some encoded := hencoded
    simp only [hhtml, hok]
    exact congrArg Except.ok hcompress

theorem inject_of_within {encoding : Encoding} {o : Option Bytes} (henc : responseEncoding headers = some encoding)
    (hbody : body.fails = false) (hcap : body.data.length ≤ maxDecompressed)
    (hok : rewritten cz guardJs encoding sessionTtl body.data = .ok o) :
    injectRenewalScript cz guardJs headers body sessionTtl = .ok (o.getD body.data, (o.getD body.data).length) := by
  have hcollect : Http.collectLimited (maxDecompressed + 1) body = some body.data := by
    rw [Http.collectLimited_eq, if_pos ⟨hbody, by omega⟩]
  unfold injectRenewalScript
  rw [henc]
  simp only [hcollect, if_neg (Nat.not_lt.mpr hcap), hok]
  cases o <;> rfl

/-- **When a client reads the document with the script in it.** Of a gzip body
that a client decodes to a document within the cap, it does exactly when the
members after the first are empty, the body itself is within the cap, and the
document is taken for HTML. -/
theorem gzip_injected_iff (hg : GzipMembers cz members) (guardJs : Str) (sessionTtl : Nat)
    (henc : responseEncoding headers = some .gzip) (hbody : body.fails = false)
    (hms : members body.data = some (m :: ms)) (hwithin : (m :: ms).flatten.length ≤ maxDecompressed)
    (hhtml : Utf8.fromUtf8 (m :: ms).flatten = some html) :
    ∃ out, injectRenewalScript cz guardJs headers body sessionTtl = .ok out ∧
      ((∃ mutated, Spliced html (snippet guardJs sessionTtl) mutated ∧
          clientDecoding members out.1 = some (Text.bytes mutated)) ↔
        (∀ x ∈ ms, x = []) ∧ body.data.length ≤ maxDecompressed ∧
          looksLikeHtml (m :: ms).flatten = true) := by
  have hfull := Utf8.bytes_of_fromUtf8 hhtml
  have hsnippet := length_bytes_snippet guardJs sessionTtl
  have hflatten : (m :: ms).flatten = m ++ ms.flatten := rfl
  -- A body that is served as it came has no script in it.
  have hplain : ∀ mutated, Spliced html (snippet guardJs sessionTtl) mutated →
      clientDecoding members body.data ≠ some (Text.bytes mutated) := by
    intro mutated hspliced heq
    have hlength := hspliced.length_bytes
    rw [clientDecoding, hms, Option.map_some, Option.some.injEq] at heq
    rw [hfull, ← heq] at hlength
    omega
  by_cases hcap : body.data.length ≤ maxDecompressed
  · have hm : m.length ≤ maxDecompressed := by
      rw [hflatten, List.length_append] at hwithin
      omega
    rcases rewritten_gzip hg hms hm guardJs sessionTtl with
      ⟨hlook, html', mutated', encoded, hhtml', -, hspliced', hok, hone⟩ | ⟨hlook, hok⟩
    · refine ⟨_, inject_of_within henc hbody hcap hok, ?_⟩
      have hdecoded : clientDecoding members encoded = some (Text.bytes mutated') := by
        rw [clientDecoding, hone]
        simp
      have hfirst := Utf8.bytes_of_fromUtf8 hhtml'
      constructor
      · intro ⟨mutated, hspliced, heq⟩
        have hlength := congrArg List.length (Option.some.inj (hdecoded.symm.trans heq))
        rw [hspliced.length_bytes, hspliced'.length_bytes, hfull, hfirst, hflatten, List.length_append] at hlength
        have hempty : ms.flatten = [] := List.length_eq_zero_iff.mp (by omega)
        refine ⟨List.flatten_eq_nil_iff.mp hempty, hcap, ?_⟩
        rw [hflatten, hempty, List.append_nil, hlook]
      · rintro ⟨hall, -, -⟩
        have hempty : ms.flatten = [] := List.flatten_eq_nil_iff.mpr hall
        rw [hflatten, hempty, List.append_nil, hhtml', Option.some.injEq] at hhtml
        subst hhtml
        exact ⟨mutated', hspliced', hdecoded⟩
    · refine ⟨_, inject_of_within henc hbody hcap hok, ?_⟩
      constructor
      · intro ⟨mutated, hspliced, heq⟩
        exact absurd heq (hplain mutated hspliced)
      · rintro ⟨hall, -, hlook'⟩
        rw [hflatten, List.flatten_eq_nil_iff.mpr hall, List.append_nil, hlook] at hlook'
        cases hlook'
  · -- More than the cap: as it came, or nothing at all.
    have hnot : ¬((∀ x ∈ ms, x = []) ∧ body.data.length ≤ maxDecompressed ∧
        looksLikeHtml (m :: ms).flatten = true) := fun h => hcap h.2.1
    by_cases hover : maxDecompressed + 1 < body.data.length
    · refine ⟨_, inject_of_over henc hover, iff_of_false ?_ hnot⟩
      rintro ⟨mutated, -, heq⟩
      obtain ⟨ms', hms', -⟩ := Option.map_eq_some_iff.mp heq
      exact (hg.members_ne hms').1 rfl
    · have hcollect : Http.collectLimited (maxDecompressed + 1) body = some body.data := by
        rw [Http.collectLimited_eq, if_pos ⟨hbody, by omega⟩]
      unfold injectRenewalScript
      rw [henc]
      simp only [hcollect, if_pos (Nat.lt_of_not_le hcap)]
      refine ⟨_, rfl, iff_of_false ?_ hnot⟩
      intro ⟨mutated, hspliced, heq⟩
      exact hplain mutated hspliced heq

/-! ## gzip without compression -/

/-- Little endian. -/
def le16 (n : Nat) : Bytes := [UInt8.ofNat n, UInt8.ofNat (n / 256)]

def ofLe16 (lo hi : UInt8) : Nat := lo.toNat + 256 * hi.toNat

theorem ofLe16_le16 {n : Nat} (hn : n < 65536) : ofLe16 (UInt8.ofNat n) (UInt8.ofNat (n / 256)) = n := by
  unfold ofLe16
  rw [UInt8.toNat_ofNat', UInt8.toNat_ofNat']
  omega

/-- The length of a stored block, and its complement. -/
def lengths (n : Nat) : Bytes := le16 n ++ le16 (65535 - n)

/-- Stored blocks, one and `n` more at most. -/
def storedBlocks : Nat → Bytes → Bytes
  | 0, doc => 1 :: (lengths doc.length ++ doc)
  | n + 1, doc =>
    if doc.length ≤ 65535 then 1 :: (lengths doc.length ++ doc)
    else 0 :: (lengths 65535 ++ (doc.take 65535 ++ storedBlocks n (doc.drop 65535)))

/-- What stored blocks hold, and the bytes after them. -/
def readBlocks : Nat → Bytes → Option (Bytes × Bytes)
  | n + 1, last :: a :: b :: c :: d :: rest =>
    let len := ofLe16 a b
    if ofLe16 c d ≠ 65535 - len ∨ rest.length < len then none
    else if last = 1 then some (rest.take len, rest.drop len)
    else if last = 0 then (readBlocks n (rest.drop len)).map fun r => (rest.take len ++ r.1, r.2)
    else none
  | _, _ => none

def crcBit (crc : UInt32) : UInt32 := if crc &&& 1 = 1 then (crc >>> 1) ^^^ 0xedb88320 else crc >>> 1

def crcByte (crc : UInt32) (b : UInt8) : UInt32 := Nat.iterate crcBit 8 (crc ^^^ b.toUInt32)

def crc32 (doc : Bytes) : UInt32 := ~~~(doc.foldl crcByte 0xffffffff)

def le32 (n : Nat) : Bytes := le16 n ++ le16 (n / 65536)

def gzipHeader : Bytes := [0x1f, 0x8b, 8, 0, 0, 0, 0, 0, 0, 255]

/-- The checksum and the length. -/
def gzipTrailer (doc : Bytes) : Bytes := le32 (crc32 doc).toNat ++ le32 doc.length

def gzipMember (doc : Bytes) : Bytes := gzipHeader ++ (storedBlocks doc.length doc ++ gzipTrailer doc)

/-- The first member of a stream, and what follows it. -/
def readMember (bs : Bytes) : Option (Bytes × Bytes) :=
  if gzipHeader.isPrefixOf bs then
    (readBlocks bs.length (bs.drop gzipHeader.length)).bind fun r =>
      if (gzipTrailer r.1).isPrefixOf r.2 then some (r.1, r.2.drop (gzipTrailer r.1).length) else none
  else none

def readMembers : Nat → Bytes → Option (List Bytes)
  | 0, _ => none
  | n + 1, bs => (readMember bs).bind fun r => if r.2 = [] then some [r.1] else (readMembers n r.2).map (r.1 :: ·)

def storedMembers (bs : Bytes) : Option (List Bytes) := readMembers bs.length bs

theorem nonempty_nil : ∀ c ∈ ([] : List Bytes), c ≠ [] := List.forall_mem_nil _

def storedReader (bs : Bytes) : Reader :=
  match readMember bs with
  | some (doc, _) =>
    if h : doc = [] then { chunks := [], fails := false, nonempty := nonempty_nil }
    else { chunks := [doc], fails := false, nonempty := List.forall_mem_singleton.mpr h }
  | none => { chunks := [], fails := true, nonempty := nonempty_nil }

/-- `flate2`, for gzip. -/
def storedGzip : CodecCrates where
  decoder _ := storedReader
  encoder _ doc := some (gzipMember doc)

theorem readBlocks_block (k : Nat) {data : Bytes} (hdata : data.length ≤ 65535) (last : UInt8) (more : Bytes) :
    readBlocks (k + 1) (last :: (lengths data.length ++ (data ++ more))) =
      if last = 1 then some (data, more)
      else if last = 0 then (readBlocks k more).map fun r => (data ++ r.1, r.2) else none := by
  have hlen := ofLe16_le16 (show data.length < 65536 by omega)
  have hcomplement := ofLe16_le16 (show 65535 - data.length < 65536 by omega)
  have hfits : ¬(65535 - data.length ≠ 65535 - data.length ∨ (data ++ more).length < data.length) := by
    rw [List.length_append]
    omega
  unfold lengths le16
  simp only [List.cons_append, List.nil_append, readBlocks, hlen, hcomplement, if_neg hfits, List.take_left,
    List.drop_left]

/-- What is stored is read back. -/
theorem readBlocks_append (n k : Nat) (hn : n < k) (doc rest : Bytes) (hdoc : doc.length ≤ 65535 * (n + 1)) :
    readBlocks k (storedBlocks n doc ++ rest) = some (doc, rest) := by
  obtain ⟨k, rfl⟩ : ∃ j, k = j + 1 := ⟨k - 1, by omega⟩
  induction n generalizing k doc with
  | zero =>
    rw [storedBlocks, List.cons_append, List.append_assoc, readBlocks_block k (by omega), if_pos rfl]
  | succ n ih =>
    rw [storedBlocks]
    split
    · next hle => rw [List.cons_append, List.append_assoc, readBlocks_block k hle, if_pos rfl]
    · next hlong =>
      have htake : (doc.take 65535).length = 65535 := List.length_take_of_le (by omega)
      obtain ⟨k, rfl⟩ : ∃ j, k = j + 1 := ⟨k - 1, by omega⟩
      have hrest := ih (doc.drop 65535) (by rw [List.length_drop]; omega) k (by omega)
      have hblock := readBlocks_block (k + 1) (Nat.le_of_eq htake) 0 (storedBlocks n (doc.drop 65535) ++ rest)
      rw [htake] at hblock
      rw [List.cons_append, List.append_assoc, List.append_assoc, hblock, if_neg (by decide), if_pos rfl, hrest]
      simp

theorem length_lt_storedBlocks (n : Nat) (doc : Bytes) : doc.length < (storedBlocks n doc).length := by
  induction n generalizing doc with
  | zero =>
    simp only [storedBlocks, List.length_cons, List.length_append]
    omega
  | succ n ih =>
    rw [storedBlocks]
    split
    · simp only [List.length_cons, List.length_append]
      omega
    · have hrest := ih (doc.drop 65535)
      simp only [List.length_cons, List.length_append, List.length_take, List.length_drop] at hrest ⊢
      omega

/-- A member is read back, and nothing of what follows it. -/
theorem readMember_append (doc rest : Bytes) : readMember (gzipMember doc ++ rest) = some (doc, rest) := by
  have hheader : gzipHeader.isPrefixOf (gzipMember doc ++ rest) = true := by
    rw [List.isPrefixOf_iff_prefix, gzipMember, List.append_assoc]
    exact List.prefix_append _ _
  have hdrop : (gzipMember doc ++ rest).drop gzipHeader.length =
      storedBlocks doc.length doc ++ (gzipTrailer doc ++ rest) := by
    rw [gzipMember, List.append_assoc, List.drop_left, List.append_assoc]
  have hlong : doc.length < (gzipMember doc ++ rest).length := by
    have hblocks := length_lt_storedBlocks doc.length doc
    simp only [gzipMember, List.length_append]
    omega
  have hblocks := readBlocks_append doc.length _ hlong doc (gzipTrailer doc ++ rest) (by omega)
  have htrailer : (gzipTrailer doc).isPrefixOf (gzipTrailer doc ++ rest) = true :=
    List.isPrefixOf_iff_prefix.mpr (List.prefix_append _ _)
  unfold readMember
  rw [if_pos hheader, hdrop, hblocks]
  simp only [Option.bind_some, htrailer, if_true, List.drop_left]

theorem exists_of_storedMembers {bs m : Bytes} {ms : List Bytes} (h : storedMembers bs = some (m :: ms)) :
    ∃ rest, readMember bs = some (m, rest) := by
  unfold storedMembers at h
  cases hn : bs.length with
  | zero =>
    rw [hn] at h
    cases h
  | succ n =>
    rw [hn, readMembers] at h
    obtain ⟨⟨doc, rest⟩, hread, h⟩ := Option.bind_eq_some_iff.mp h
    refine ⟨rest, ?_⟩
    rw [hread]
    simp only at h
    split at h
    · cases h
      rfl
    · obtain ⟨ms', -, hcons⟩ := Option.map_eq_some_iff.mp h
      cases hcons
      rfl

theorem readMembers_ne_nil {n : Nat} {bs : Bytes} (h : readMembers n bs = some ms) : bs ≠ [] ∧ ms ≠ [] := by
  cases n with
  | zero => cases h
  | succ n =>
    rw [readMembers] at h
    obtain ⟨⟨doc, rest⟩, hread, h⟩ := Option.bind_eq_some_iff.mp h
    refine ⟨?_, ?_⟩
    · rintro rfl
      cases hread
    · simp only at h
      split at h
      · cases h
        exact List.cons_ne_nil _ _
      · obtain ⟨ms', -, hcons⟩ := Option.map_eq_some_iff.mp h
        cases hcons
        exact List.cons_ne_nil _ _

theorem storedGzip_members : GzipMembers storedGzip storedMembers where
  members_ne := readMembers_ne_nil
  decodes_first := by
    intro body m ms h
    obtain ⟨rest, hread⟩ := exists_of_storedMembers h
    have hreader : storedGzip.decoder .gzip body = storedReader body := rfl
    rw [hreader, storedReader, hread]
    by_cases hm : m = []
    · simp [hm, Reader.data]
    · simp [hm, Reader.data]
  encodes_one := by
    intro doc
    refine ⟨gzipMember doc, rfl, ?_⟩
    have hread := readMember_append doc []
    rw [List.append_nil] at hread
    obtain ⟨n, hn⟩ : ∃ n, (gzipMember doc).length = n + 1 := ⟨_, rfl⟩
    rw [storedMembers, hn, readMembers, hread]
    rfl

def gzipHeaders : HeaderMap := ("content-encoding".toList, Text.bytes "gzip".toList) :: htmlHeaders

def oneMember : Http.Incoming := ⟨[gzipMember (Text.bytes "<p>x</body>".toList)], false⟩

theorem oneMember_members : storedMembers oneMember.data = some [Text.bytes "<p>x</body>".toList] := by
  decide +kernel

theorem gzip_injected : ∃ out mutated,
    injectRenewalScript storedGzip [] gzipHeaders oneMember 1800 = .ok out ∧
    Spliced "<p>x</body>".toList (snippet [] 1800) mutated ∧
    clientDecoding storedMembers out.1 = some (Text.bytes mutated) := by
  have henc : responseEncoding gzipHeaders = some .gzip := by decide +kernel
  have hhtml : Utf8.fromUtf8 [Text.bytes "<p>x</body>".toList].flatten = some "<p>x</body>".toList := by
    decide +kernel
  have hwhole : oneMember.fails = false := rfl
  obtain ⟨out, hok, hiff⟩ := gzip_injected_iff storedGzip_members [] 1800 henc hwhole oneMember_members
    (by decide +kernel) hhtml
  obtain ⟨mutated, hspliced, hdecoded⟩ := hiff.mpr ⟨nofun, by decide +kernel, by decide +kernel⟩
  exact ⟨out, mutated, hok, hspliced, hdecoded⟩

def twoMembers : Http.Incoming :=
  ⟨[gzipMember (Text.bytes "<p>one".toList) ++ gzipMember (Text.bytes "<p>two".toList)], false⟩

theorem twoMembers_members : storedMembers twoMembers.data =
    some [Text.bytes "<p>one".toList, Text.bytes "<p>two".toList] := by decide +kernel

/-- Of two members the second is lost. -/
theorem gzip_member_lost :
    clientDecoding storedMembers twoMembers.data = some (Text.bytes "<p>one<p>two".toList) ∧
    ∃ out, injectRenewalScript storedGzip [] gzipHeaders twoMembers 1800 = .ok out ∧
      clientDecoding storedMembers out.1 = some (Text.bytes ("<p>one".toList ++ snippet [] 1800)) := by
  have henc : responseEncoding gzipHeaders = some .gzip := by decide +kernel
  have hcap : twoMembers.data.length ≤ maxDecompressed := by decide +kernel
  have hutf8 : Utf8.fromUtf8 (Text.bytes "<p>one".toList) = some "<p>one".toList := by decide +kernel
  have hlook : looksLikeHtml (Text.bytes "<p>one".toList) = true := by decide +kernel
  constructor
  · rw [clientDecoding, twoMembers_members]
    rfl
  · rcases rewritten_gzip storedGzip_members twoMembers_members (by decide +kernel) [] 1800 with
      ⟨-, html, mutated, encoded, hhtml, hinject, -, hok, hone⟩ | ⟨hnot, -⟩
    · refine ⟨_, inject_of_within henc rfl hcap hok, ?_⟩
      obtain rfl : "<p>one".toList = html := Option.some.inj (hutf8.symm.trans hhtml)
      have hmutated : "<p>one".toList ++ snippet [] 1800 = mutated := Except.ok.inj (Eq.trans rfl hinject)
      rw [hmutated, Option.getD_some, clientDecoding, hone]
      simp
    · rw [hlook] at hnot
      cases hnot

end NekoGuard.Inject
