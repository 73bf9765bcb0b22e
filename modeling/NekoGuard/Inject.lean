/-
inject.rs, and `inject_renewal_script` of main.rs: the renewal script
spliced into documents the origin serves. The codecs are parameters
(`CodecCrates`), and so is the script, which the build minifies.

A document comes back rewritten or as the origin sent it, except where its
body has more bytes than `Limited` lets through (`inject_intact_iff`).
-/
import NekoGuard.Pow
import NekoGuard.Std.Http
import NekoGuard.Std.Utf8

namespace NekoGuard.Inject

/-- `MAX_DECOMPRESSED`. -/
def maxDecompressed : Nat := 4 * 1024 * 1024

inductive Encoding where
  | identity
  | gzip
  | deflate
  | brotli
deriving DecidableEq, Repr

/-- One recognised encoding; no header is no encoding. -/
def Encoding.fromHeader (value : Option Str) : Option Encoding :=
  let raw := Text.trim (value.getD [])
  if raw = [] then some .identity
  else
    let raw := Text.toAsciiLowercase raw
    if raw = "identity".toList then some .identity
    else if raw = "gzip".toList ∨ raw = "x-gzip".toList then some .gzip
    else if raw = "deflate".toList then some .deflate
    else if raw = "br".toList then some .brotli
    else none

def isHtml (contentType : Option Str) : Bool :=
  let ct := Text.toAsciiLowercase (Text.trim (contentType.getD []))
  Text.startsWith ct "text/html".toList || Text.startsWith ct "application/xhtml+xml".toList

def shouldInject (contentType : Option Str) (hasBody withinCap encodingSupported siteBypassed : Bool) : Bool :=
  isHtml contentType && hasBody && withinCap && encodingSupported && !siteBypassed

/-! ## Reading to the end -/

/-- What a reader answers, read by read, and whether it then fails. A read
of nothing would be its end. -/
structure Reader where
  chunks : List Bytes
  fails : Bool
  nonempty : ∀ c ∈ chunks, c ≠ []

def Reader.data (r : Reader) : Bytes := r.chunks.flatten

/-- `take(limit).read_to_end(..)`: a reader that has given its limit is not
asked again, so what it would fail on later is not seen. -/
def readToEnd : Nat → List Bytes → Bool → Option Bytes
  | 0, _, _ => some []
  | _ + 1, [], fails => if fails then none else some []
  | limit + 1, c :: cs, fails =>
    (readToEnd (limit + 1 - c.length) cs fails).map (c.take (limit + 1) ++ ·)

/-- Everything, unless it is more than `MAX_DECOMPRESSED`. -/
def readCapped (reader : Reader) : Option Bytes :=
  (readToEnd (maxDecompressed + 1) reader.chunks reader.fails).bind fun out =>
    if out.length ≤ maxDecompressed then some out else none

theorem readToEnd_eq (chunks : List Bytes) (fails : Bool) (limit : Nat) :
    readToEnd limit chunks fails =
      if limit ≤ chunks.flatten.length then some (chunks.flatten.take limit)
      else if fails then none else some chunks.flatten := by
  induction chunks generalizing limit with
  | nil => cases limit <;> simp [readToEnd]
  | cons c cs ih =>
    cases limit with
    | zero => simp [readToEnd]
    | succ n =>
      rw [readToEnd, ih, List.flatten_cons, List.length_append]
      have htake : (c ++ cs.flatten).take (n + 1) = c.take (n + 1) ++ cs.flatten.take (n + 1 - c.length) :=
        List.take_append
      by_cases hle : n + 1 ≤ c.length + cs.flatten.length
      · rw [if_pos (by omega), if_pos hle, htake]
        rfl
      · have hc : c.take (n + 1) = c := List.take_of_length_le (by omega)
        rw [if_neg (by omega), if_neg hle, hc]
        cases fails <;> rfl

/-- **What `read_capped` reads**: the whole of a reader that does not fail,
when that is within the cap. -/
theorem readCapped_eq_some {reader : Reader} {out : Bytes} :
    readCapped reader = some out ↔
      (reader.fails = false ∧ reader.data = out) ∧ out.length ≤ maxDecompressed := by
  unfold readCapped Reader.data
  rw [readToEnd_eq]
  by_cases hover : maxDecompressed + 1 ≤ reader.chunks.flatten.length
  · have hlen : (reader.chunks.flatten.take (maxDecompressed + 1)).length = maxDecompressed + 1 :=
      List.length_take_of_le hover
    rw [if_pos hover, Option.bind_some, hlen, if_neg (by omega)]
    refine ⟨nofun, ?_⟩
    rintro ⟨⟨-, rfl⟩, hle⟩
    omega
  · rw [if_neg hover]
    cases reader.fails with
    | true => simp
    | false =>
      simp only [Bool.false_eq_true, if_false, Option.bind_some, Option.ite_none_right_eq_some,
        Option.some.injEq, true_and]
      constructor
      · rintro ⟨hle, rfl⟩
        exact ⟨rfl, hle⟩
      · rintro ⟨rfl, hle⟩
        exact ⟨hle, rfl⟩

/-- `take(limit).read_to_end(&mut out)` read by read: what is in `out` when it
returns, and whether it returns `Ok`. -/
def readInto : Nat → List Bytes → Bool → Bytes → Bytes × Bool
  | 0, _, _, out => (out, true)
  | _ + 1, [], fails, out => (out, !fails)
  | limit + 1, c :: cs, fails, out => readInto (limit + 1 - c.length) cs fails (out ++ c.take (limit + 1))

theorem readToEnd_eq_readInto (limit : Nat) (chunks : List Bytes) (fails : Bool) (out : Bytes) :
    (if (readInto limit chunks fails out).2 then some (readInto limit chunks fails out).1 else none) =
      (readToEnd limit chunks fails).map (out ++ ·) := by
  induction chunks generalizing limit out with
  | nil =>
    cases limit with
    | zero => simp [readInto, readToEnd]
    | succ limit => cases fails <;> simp [readInto, readToEnd]
  | cons c cs ih =>
    cases limit with
    | zero => simp [readInto, readToEnd]
    | succ limit =>
      rw [readInto, ih, readToEnd, Option.map_map]
      simp only [Function.comp_def, List.append_assoc]

/-- No more is taken from a reader than the limit, and it is what the reader
gives first. -/
theorem readInto_taken (limit : Nat) (chunks : List Bytes) (fails : Bool) (out : Bytes) :
    (readInto limit chunks fails out).1 = out ++ chunks.flatten.take limit := by
  induction chunks generalizing limit out with
  | nil => cases limit <;> simp [readInto]
  | cons c cs ih =>
    cases limit with
    | zero => simp [readInto]
    | succ limit =>
      rw [readInto, ih, List.flatten_cons, List.take_append, List.append_assoc]

/-- **`read_capped` returns all a reader has to give, or nothing**: nothing
when the reader fails or has more than the cap, which takes one byte past the
cap to see. -/
theorem readCapped_all_or_none (reader : Reader) :
    (∀ out, readCapped reader = some out ↔
      reader.fails = false ∧ out = reader.data ∧ out.length ≤ maxDecompressed) ∧
    readCapped reader =
      (let (out, ok) := readInto (maxDecompressed + 1) reader.chunks reader.fails []
       if ok ∧ out.length ≤ maxDecompressed then some out else none) ∧
    (readInto (maxDecompressed + 1) reader.chunks reader.fails []).1 <+: reader.data ∧
    (readInto (maxDecompressed + 1) reader.chunks reader.fails []).1.length ≤ maxDecompressed + 1 := by
  have htaken := readInto_taken (maxDecompressed + 1) reader.chunks reader.fails []
  rw [List.nil_append] at htaken
  refine ⟨fun out => ?_, ?_, ?_, ?_⟩
  · rw [readCapped_eq_some, and_assoc, eq_comm (a := out)]
  · have hread := readToEnd_eq_readInto (maxDecompressed + 1) reader.chunks reader.fails []
    simp only [List.nil_append, Option.map_id'] at hread
    unfold readCapped
    rw [← hread]
    cases hok : (readInto (maxDecompressed + 1) reader.chunks reader.fails []).2 <;> simp [hok]
  · rw [htaken]
    exact List.take_prefix _ _
  · rw [htaken]
    exact List.length_take_le _ _

/-! ## Codecs -/

/-- `flate2` and `brotli`. -/
structure CodecCrates where
  decoder : Encoding → Bytes → Reader
  encoder : Encoding → Bytes → Option Bytes

variable (cz : CodecCrates)

def decompress (body : Bytes) : Encoding → Option Bytes
  | .identity => if body.length ≤ maxDecompressed then some body else none
  | encoding => readCapped (cz.decoder encoding body)

def compress (body : Bytes) : Encoding → Option Bytes
  | .identity => some body
  | encoding => cz.encoder encoding body

/-! ## Splicing -/

/-- Before the last `</body>`, else the last `</html>`, else at the end. -/
def injectIntoHtml (html snippet : Str) : Rust Str :=
  let lowered := Text.toAsciiLowercase html
  let splice (n : Nat) : Rust Str := do
    let head ← Text.sliceTo html n
    let tail ← Text.sliceFrom html n
    return head ++ snippet ++ tail
  match Text.rfind lowered "</body>".toList with
  | some n => splice n
  | none =>
    match Text.rfind lowered "</html>".toList with
    | some n => splice n
    | none => .ok (html ++ snippet)

def looksLikeHtml (body : Bytes) : Bool :=
  match Utf8.fromUtf8 body with
  | some text =>
    let head := Text.toAsciiLowercase (text.dropWhile Text.isWhitespace)
    Text.startsWith head "<!doctype".toList || Text.startsWith head "<html".toList ||
      Text.startsWith head "<?xml".toList || text.contains '<'
  | none => false

def scriptTag (source : Str) : Str :=
  "<script>".toList ++ Text.replace source "</script".toList "<\\/script".toList ++ "</script>".toList

/-- The configuration of the page, ahead of the script itself. -/
def snippet (guardJs : Str) (sessionTtl : Nat) : Str :=
  let prelude := "<script>window.__NG_CONFIG__=\x7bbits:".toList ++ Text.decimal Pow.difficulty ++
    ",ttl:".toList ++ Text.decimal sessionTtl ++
    ",renew:\"/__ng/challenge\",verify:\"/__ng/verify\"\x7d;</script>".toList
  prelude ++ scriptTag guardJs

/-! ## Responses -/

def responseEncoding (headers : HeaderMap) : Option Encoding :=
  Encoding.fromHeader (Http.getStr headers "content-encoding".toList)

def shouldInjectResponse (headers : HeaderMap) (document bypassed : Bool) : Bool :=
  document && !bypassed &&
    shouldInject (Http.getStr headers "content-type".toList) true true (responseEncoding headers).isSome false

variable (guardJs : Str)

/-- The document decoded, with the script in it, and encoded again. -/
def rewritten (encoding : Encoding) (sessionTtl : Nat) (raw : Bytes) : Rust (Option Bytes) :=
  match decompress cz raw encoding with
  | none => .ok none
  | some decoded =>
    if !looksLikeHtml decoded then .ok none
    else
      match Utf8.fromUtf8 decoded with
      | none => .ok none
      | some html => do
        let mutated ← injectIntoHtml html (snippet guardJs sessionTtl)
        return compress cz (Text.bytes mutated) encoding

/-- `inject_renewal_script`: the body to serve, and its length. -/
def injectRenewalScript (headers : HeaderMap) (body : Http.Incoming) (sessionTtl : Nat) :
    Rust (Bytes × Nat) :=
  match responseEncoding headers with
  | none =>
    let raw := (Http.collectLimited (maxDecompressed + 1) body).getD []
    .ok (raw, raw.length)
  | some encoding =>
    match Http.collectLimited (maxDecompressed + 1) body with
    | none => .ok ([], 0)
    | some raw =>
      if maxDecompressed < raw.length then .ok (raw, raw.length)
      else do
        match ← rewritten cz guardJs encoding sessionTtl raw with
        | some encoded => return (encoded, encoded.length)
        | none => return (raw, raw.length)

/-! ## Rewritten or intact -/

/-- A text with the snippet somewhere in it. -/
def Spliced (html snippet mutated : Str) : Prop :=
  ∃ head tail, html = head ++ tail ∧ mutated = head ++ snippet ++ tail

/-- A body that decodes to an HTML document, both within the cap. -/
structure Document (encoding : Encoding) (raw : Bytes) (html : Str) : Prop where
  rawWithin : raw.length ≤ maxDecompressed
  decodes : ∃ doc, doc.length ≤ maxDecompressed ∧ looksLikeHtml doc = true ∧ Utf8.fromUtf8 doc = some html ∧
    (encoding = .identity ∧ raw = doc ∨ encoding ≠ .identity ∧
      (cz.decoder encoding raw).fails = false ∧ (cz.decoder encoding raw).data = doc)

/-- What is served for a body is that body, or the document in it with the
snippet, encoded as the origin did. -/
structure Intact (headers : HeaderMap) (body : Bytes) (sessionTtl : Nat) (out : Bytes × Nat) : Prop where
  length : out.2 = out.1.length
  bytes : out.1 = body ∨ ∃ encoding html mutated, responseEncoding headers = some encoding ∧
    Document cz encoding body html ∧ Spliced html (snippet guardJs sessionTtl) mutated ∧
    compress cz (Text.bytes mutated) encoding = some out.1

variable {cz guardJs}

/-- Splicing never slices inside a character. -/
theorem injectIntoHtml_ok (html snippet : Str) :
    ∃ mutated, injectIntoHtml html snippet = .ok mutated ∧ Spliced html snippet mutated := by
  -- An offset found in the lowered copy is one of the original.
  have hok : ∀ pat n, Text.rfind (Text.toAsciiLowercase html) pat = some n →
      ∃ mutated, (do
        let head ← Text.sliceTo html n
        let tail ← Text.sliceFrom html n
        return head ++ snippet ++ tail) = (.ok mutated : Rust Str) ∧ Spliced html snippet mutated := by
    intro pat n hn
    obtain ⟨head, tail, rfl, rfl⟩ := Text.exists_of_rfind_lower hn
    refine ⟨head ++ snippet ++ tail, ?_, head, tail, rfl, rfl⟩
    rw [Text.sliceTo_append, Text.sliceFrom_append]
    rfl
  unfold injectIntoHtml
  simp only []
  split
  · next n hn => exact hok _ n hn
  · split
    · next n hn => exact hok _ n hn
    · exact ⟨_, rfl, html, [], by simp, by simp⟩

theorem decompress_eq_some {raw doc : Bytes} {encoding : Encoding} :
    decompress cz raw encoding = some doc ↔ doc.length ≤ maxDecompressed ∧
      (encoding = .identity ∧ raw = doc ∨ encoding ≠ .identity ∧
        (cz.decoder encoding raw).fails = false ∧ (cz.decoder encoding raw).data = doc) := by
  cases encoding with
  | identity =>
    simp only [decompress, Option.ite_none_right_eq_some, Option.some.injEq, ne_eq, not_true_eq_false,
      false_and, or_false, true_and]
    constructor
    · rintro ⟨hle, rfl⟩
      exact ⟨hle, rfl⟩
    · rintro ⟨hle, rfl⟩
      exact ⟨hle, rfl⟩
  | _ => simp [decompress, readCapped_eq_some, and_comm]

/-- A rewritten body comes from a document. -/
theorem rewritten_ok (cz : CodecCrates) (guardJs : Str) (encoding : Encoding) (sessionTtl : Nat) {raw : Bytes}
    (hraw : raw.length ≤ maxDecompressed) :
    ∃ o, rewritten cz guardJs encoding sessionTtl raw = .ok o ∧ ∀ encoded ∈ o, ∃ html mutated,
      Document cz encoding raw html ∧ Spliced html (snippet guardJs sessionTtl) mutated ∧
        compress cz (Text.bytes mutated) encoding = some encoded := by
  unfold rewritten
  cases hdec : decompress cz raw encoding with
  | none => exact ⟨none, rfl, nofun⟩
  | some doc =>
    obtain ⟨hle, hdata⟩ := decompress_eq_some.mp hdec
    cases hlook : looksLikeHtml doc with
    | false => exact ⟨none, by simp [hlook], nofun⟩
    | true =>
      cases hutf : Utf8.fromUtf8 doc with
      | none => exact ⟨none, by simp [hlook, hutf], nofun⟩
      | some html =>
        obtain ⟨mutated, hok, hspliced⟩ := injectIntoHtml_ok html (snippet guardJs sessionTtl)
        refine ⟨compress cz (Text.bytes mutated) encoding, ?_, ?_⟩
        · simp only [hlook, hutf, hok]
          rfl
        · intro encoded henc
          exact ⟨html, mutated, ⟨hraw, doc, hle, hlook, hutf, hdata⟩, hspliced, henc⟩

/-- `Limited` gives up on a body of more than one byte over the cap. -/
theorem inject_of_over {headers : HeaderMap} {body : Http.Incoming} {encoding : Encoding} {sessionTtl : Nat}
    (henc : responseEncoding headers = some encoding) (hover : maxDecompressed + 1 < body.data.length) :
    injectRenewalScript cz guardJs headers body sessionTtl = .ok ([], 0) := by
  unfold injectRenewalScript
  rw [henc, Http.collectLimited_eq, if_neg (by omega)]

theorem not_intact_of_over {headers : HeaderMap} {body : Bytes} {sessionTtl n : Nat}
    (hover : maxDecompressed + 1 < body.length) :
    ¬Intact cz guardJs headers body sessionTtl ([], n) := by
  rintro ⟨-, hbody | ⟨encoding, html, mutated, -, hdoc, -, -⟩⟩
  · have hnil : body.length = 0 := by rw [← hbody]; rfl
    omega
  · have hle := hdoc.rawWithin
    omega

/-- **When a document comes back rewritten or intact.** What is served for a
response that is selected, and does not break off, is its own body or the
document in it with the snippet, if and only if the body is at most one
byte over the cap. -/
theorem inject_intact_iff (cz : CodecCrates) (guardJs : Str) (headers : HeaderMap) (body : Http.Incoming)
    (sessionTtl : Nat) {document bypassed : Bool}
    (hinject : shouldInjectResponse headers document bypassed = true) (hbody : body.fails = false) :
    (∃ out, injectRenewalScript cz guardJs headers body sessionTtl = .ok out ∧
      Intact cz guardJs headers body.data sessionTtl out) ↔ body.data.length ≤ maxDecompressed + 1 := by
  obtain ⟨encoding, henc⟩ : ∃ encoding, responseEncoding headers = some encoding := by
    rw [← Option.isSome_iff_exists]
    unfold shouldInjectResponse shouldInject at hinject
    simp only [Bool.and_eq_true] at hinject
    exact hinject.2.1.2
  constructor
  · intro ⟨out, hout, hintact⟩
    by_contra hover
    rw [inject_of_over henc (by omega), Except.ok.injEq] at hout
    subst hout
    exact not_intact_of_over (by omega) hintact
  · intro hle
    unfold injectRenewalScript
    rw [henc, Http.collectLimited_eq, if_pos ⟨hbody, hle⟩]
    by_cases hcap : maxDecompressed < body.data.length
    · exact ⟨_, if_pos hcap, rfl, .inl rfl⟩
    · obtain ⟨o, ho, hdoc⟩ := rewritten_ok cz guardJs encoding sessionTtl (Nat.le_of_not_lt hcap)
      simp only [if_neg hcap, ho]
      cases o with
      | none => exact ⟨_, rfl, rfl, .inl rfl⟩
      | some encoded =>
        obtain ⟨html, mutated, hd, hs, hc⟩ := hdoc encoded rfl
        exact ⟨_, rfl, rfl, .inr ⟨encoding, html, mutated, henc, hd, hs, hc⟩⟩

def htmlHeaders : HeaderMap := [("content-type".toList, Text.bytes "text/html".toList)]

/-- Nothing is compressed. -/
def identityOnly : CodecCrates where
  decoder _ _ := { chunks := [], fails := true, nonempty := nofun }
  encoder _ _ := none

theorem inject_small_intact : ∃ out,
    injectRenewalScript identityOnly [] htmlHeaders ⟨[Text.bytes "<p>x</body>".toList], false⟩ 1800 = .ok out ∧
      Intact identityOnly [] htmlHeaders (Text.bytes "<p>x</body>".toList) 1800 out :=
  (inject_intact_iff identityOnly [] htmlHeaders ⟨[Text.bytes "<p>x</body>".toList], false⟩ 1800
    (show shouldInjectResponse htmlHeaders true false = true by decide +kernel) rfl).mpr (by decide +kernel)

/-- Two bytes over the cap, the body is gone. -/
theorem inject_huge_not_intact : ∃ body : Http.Incoming,
    shouldInjectResponse htmlHeaders true false = true ∧ body.fails = false ∧
      ¬∃ out, injectRenewalScript identityOnly [] htmlHeaders body 1800 = .ok out ∧
        Intact identityOnly [] htmlHeaders body.data 1800 out := by
  let body : Http.Incoming := ⟨[List.replicate (maxDecompressed + 2) 97], false⟩
  have hover : maxDecompressed + 1 < body.data.length := by
    simp [body, Http.Incoming.data]
  refine ⟨body, by decide +kernel, rfl, ?_⟩
  intro ⟨out, hout, hintact⟩
  have henc : responseEncoding htmlHeaders = some .identity := by decide +kernel
  rw [inject_of_over henc hover, Except.ok.injEq] at hout
  subst hout
  exact not_intact_of_over hover hintact

end NekoGuard.Inject
