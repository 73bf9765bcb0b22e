/-
What the CA makes of certd's requests. It takes a request when its nonce is
one it granted and has not seen since, its URL is the one posted to, and its
signature is by the key it names: the key in the header where an account is
to be created, and the account's key otherwise. Over any processes of certd,
whatever is answered and wherever they fail, each request is so
(`requests_admitted`): `post_jws` asks for a nonce just before, and after
`AcmeClient::new` the account is there. Only a POST answered with 307 or 308
is sent on as it is, nonce and URL included.
-/
import NekoGuard.Account
import NekoGuard.OrderPolls
import NekoGuard.Std.Headers

namespace NekoGuard.Acme

open Lib Effect

/-! ## The CA's rules -/

/-- The CA's side of base64 and ES256. -/
structure Verifier where
  unb64 : Str → Option Bytes
  verify : Bytes × Bytes → Bytes → Bytes → Bool

section
variable {κ : Type} (outside : Outside) (crates : SigningCrates κ) (v : Verifier)

/-- What is encoded is decoded, and what is signed is verified. -/
structure Verifier.Lawful : Prop where
  unb64 : ∀ data, v.unb64 (crates.b64 data) = some data
  verify : ∀ key data, v.verify (crates.point key) data (signEs256 crates key data) = true

/-- The point of a public key on P-256. -/
def Verifier.pointOf (jwk : Json) : Option (Bytes × Bytes) := do
  if (jwk.get "kty".toList).asStr ≠ some "EC".toList ∨ (jwk.get "crv".toList).asStr ≠ some "P-256".toList then none
  let x ← v.unb64 (← (jwk.get "x".toList).asStr)
  let y ← v.unb64 (← (jwk.get "y".toList).asStr)
  pure (x, y)

/-- The signature is of the texts as they came. -/
def Verifier.verifies (key : Bytes × Bytes) (body : Json) : Bool :=
  match (body.get "protected".toList).asStr, (body.get "payload".toList).asStr,
    (body.get "signature".toList).asStr.bind v.unb64 with
  | some header, some payload, some signature => v.verify key (Text.bytes (header ++ '.' :: payload)) signature
  | _, _, _ => false

/-- The nonce that comes with the CA's newest answer. -/
def grantedBy : List Sent → Option Str
  | [] => none
  | .dns _ :: _ => none
  | log => (outside.answer log).bind fun a => Http.getStr a.headers replayNonce

def issued : List Sent → List Str
  | [] => []
  | s :: log => (grantedBy outside (s :: log)).toList ++ issued log

def Sent.nonce : Sent → Option Str
  | .post _ _ jws => (jws.header.get "nonce".toList).asStr
  | _ => none

def used (log : List Sent) : List Str := log.filterMap Sent.nonce

/-- The directories handed out. -/
def directories : List Sent → List DirectoryUrls
  | [] => []
  | .directory :: log =>
    ((outside.answer (.directory :: log)).bind fun a => crates.directory a.body.data).toList ++ directories log
  | _ :: log => directories log

/-- An account is created: it has that URL. -/
def creates (kid : Str) (log : List Sent) : Bool :=
  (outside.answer log).any fun a =>
    (a.status == 200 || a.status == 201) && Http.getStr a.headers "location".toList == some kid

/-- The key the newest account of that URL was created with. -/
def accountKey (kid : Str) : List Sent → Option (Bytes × Bytes)
  | [] => none
  | .post url headers jws :: log =>
    match jws.header.get "jwk".toList with
    | .null => accountKey kid log
    | jwk => if creates outside kid (.post url headers jws :: log) then v.pointOf jwk else accountKey kid log
  | _ :: log => accountKey kid log

/-- The key a request names. One that creates an account names it itself. -/
def signer (log : List Sent) (url : Str) (header : Json) : Option (Bytes × Bytes) :=
  match header.get "jwk".toList, header.get "kid".toList with
  | .null, .string kid => accountKey outside v kid log
  | jwk, .null => if (directories outside crates log).any fun d => d.newAccount == url then v.pointOf jwk else none
  | _, _ => none

/-- The CA takes the request, after what it has been asked before. -/
structure Admits (log : List Sent) (url : Str) (headers : HeaderMap) (jws : Jws) : Prop where
  media : Http.get headers contentType = some joseJson
  decoded : ((jws.body crates).get "protected".toList).asStr.bind v.unb64 =
    some (Text.bytes (crates.display jws.header))
  alg : (jws.header.get "alg".toList).asStr = some "ES256".toList
  posted : (jws.header.get "url".toList).asStr = some url
  nonce : ∃ n, (jws.header.get "nonce".toList).asStr = some n ∧ n ∈ issued outside log ∧ n ∉ used log
  signed : ∃ key, signer outside crates v log url jws.header = some key ∧ v.verifies key (jws.body crates) = true

/-- The CA sends no POST on elsewhere. -/
def Outside.Direct : Prop :=
  ∀ url headers jws log a, outside.answer (.post url headers jws :: log) = some a → a.status ≠ 307 ∧ a.status ≠ 308

/-! ## How certd signs -/

/-- The request says who signs it, and the CA knows. -/
def Identified (key : κ) (url : Str) (jwk : Option Json) (kid : Option Str) (before : List Sent) : Prop :=
  (jwk = some (jwkPublic crates key) ∧ kid = none ∧ ∃ d ∈ directories outside crates before, d.newAccount = url) ∨
    (jwk = none ∧ ∃ a, kid = some a ∧ accountKey outside v a before = some (crates.point key))

/-- A request of certd's, over the nonce that was granted last. -/
def Proper (s : Sent) (before : List Sent) : Prop :=
  ∀ url headers jws, s = .post url headers jws →
    ∃ key nonce payload jwk kid, headers = jsonHeaders [(contentType, joseJson)] ∧
      jws = jwsPayload crates key nonce url jwk kid payload ∧ grantedBy outside before = some nonce ∧
      Identified outside crates v key url jwk kid before

end

variable {κ : Type} {outside : Outside} {crates : SigningCrates κ} {v : Verifier}

/-! ## What certd signs -/

theorem jwsHeader_get {nonce url : Str} {jwk : Option Json} {kid : Option Str} {name : Str} (hjwk : "jwk".toList ≠ name)
    (hkid : "kid".toList ≠ name) :
    (jwsHeader nonce url jwk kid).get name = (jwsHeader nonce url none none).get name := by
  rcases jwk with _ | jwk
  · rcases kid with _ | kid
    · rfl
    · exact Json.get_set_ne hkid _ _
  · exact Json.get_set_ne hjwk _ _

theorem jwsHeader_alg (nonce url : Str) (jwk : Option Json) (kid : Option Str) :
    (jwsHeader nonce url jwk kid).get "alg".toList = .string "ES256".toList := by
  rw [jwsHeader_get (by decide +kernel) (by decide +kernel)]
  rfl

theorem jwsHeader_nonce (nonce url : Str) (jwk : Option Json) (kid : Option Str) :
    (jwsHeader nonce url jwk kid).get "nonce".toList = .string nonce := by
  rw [jwsHeader_get (by decide +kernel) (by decide +kernel)]
  rfl

theorem jwsHeader_url (nonce url : Str) (jwk : Option Json) (kid : Option Str) :
    (jwsHeader nonce url jwk kid).get "url".toList = .string url := by
  rw [jwsHeader_get (by decide +kernel) (by decide +kernel)]
  rfl

theorem jwsHeader_jwk (nonce url : Str) (jwk : Option Json) (kid : Option Str) :
    (jwsHeader nonce url jwk kid).get "jwk".toList = jwk.getD .null := by
  rcases jwk with _ | jwk
  · rcases kid with _ | kid
    · rfl
    · exact Json.get_set_ne (by decide +kernel) _ _
  · exact Json.get_set_self _ _ _

theorem jwsHeader_kid_of_jwk (nonce url : Str) (jwk : Json) (kid : Option Str) :
    (jwsHeader nonce url (some jwk) kid).get "kid".toList = .null :=
  Json.get_set_ne (by decide +kernel) _ _

theorem jwsHeader_kid (nonce url kid : Str) :
    (jwsHeader nonce url none (some kid)).get "kid".toList = .string kid :=
  Json.get_set_self _ _ _

theorem Verifier.Lawful.pointOf_jwkPublic (hv : v.Lawful crates) (key : κ) :
    v.pointOf (jwkPublic crates key) = some (crates.point key) := by
  have hx : ((jwkPublic crates key).get "x".toList).asStr = some (crates.b64 (crates.point key).1) := rfl
  have hy : ((jwkPublic crates key).get "y".toList).asStr = some (crates.b64 (crates.point key).2) := rfl
  rw [pointOf, if_neg (fun h => h.elim (fun h => h rfl) fun h => h rfl), hx, hy]
  simp [hv.unb64]

theorem Verifier.Lawful.verifies (hv : v.Lawful crates) (key : κ) (nonce url : Str) (jwk : Option Json)
    (kid : Option Str) (payload : Bytes) :
    v.verifies (crates.point key) ((jwsPayload crates key nonce url jwk kid payload).body crates) = true := by
  let jws := jwsPayload crates key nonce url jwk kid payload
  have hsignature : ((jws.body crates).get "signature".toList).asStr.bind v.unb64 = some jws.signature := hv.unb64 _
  rw [Verifier.verifies, hsignature]
  exact hv.verify key _

theorem signer_of_identified (hv : v.Lawful crates) {key : κ} {nonce url : Str} {jwk : Option Json} {kid : Option Str}
    {before : List Sent} (h : Identified outside crates v key url jwk kid before) :
    signer outside crates v before url (jwsHeader nonce url jwk kid) = some (crates.point key) := by
  rcases h with ⟨rfl, rfl, d, hd, hurl⟩ | ⟨rfl, a, rfl, hkey⟩
  · have hany : ((directories outside crates before).any fun d => d.newAccount == url) = true :=
      List.any_eq_true.mpr ⟨d, hd, beq_iff_eq.mpr hurl⟩
    have hpoint := hv.pointOf_jwkPublic key
    rw [signer, jwsHeader_jwk, jwsHeader_kid_of_jwk]
    show (if _ then v.pointOf (jwkPublic crates key) else none) = _
    rw [if_pos hany, hpoint]
  · rw [signer, jwsHeader_jwk, jwsHeader_kid]
    exact hkey

/-! ## Nonces -/

variable {log before : List Sent} {s s' : Sent} {nonce : Str}

theorem mem_issued_of_granted (h : grantedBy outside log = some nonce) : nonce ∈ issued outside log := by
  cases log with
  | nil => cases h
  | cons s log =>
    rw [issued, h]
    exact List.mem_append_left _ (List.mem_singleton_self nonce)

theorem issued_suffix (h : before <:+ log) : issued outside before <:+ issued outside log := by
  induction log with
  | nil =>
    obtain rfl := List.suffix_nil.mp h
    exact List.suffix_refl _
  | cons s log ih =>
    rcases List.suffix_cons_iff.mp h with rfl | h
    · exact List.suffix_refl _
    · exact (ih h).trans (List.suffix_append _ _)

theorem Proper.granted (h : Proper outside crates v s log) (hn : s.nonce = some nonce) :
    grantedBy outside log = some nonce := by
  cases s with
  | post url headers jws =>
    obtain ⟨key, n, payload, jwk, kid, -, hjws, hgranted, -⟩ := h url headers jws rfl
    have hnonce : (jws.header.get "nonce".toList).asStr = some n := by
      rw [hjws]
      exact congrArg Json.asStr (jwsHeader_nonce n url jwk kid)
    rw [hgranted, ← hn]
    exact hnonce.symm
  | _ => cases hn

/-- The nonces seen were granted before the newest request. -/
theorem used_subset (h : ∀ s before, s :: before <:+ s' :: log → Proper outside crates v s before) :
    used (s' :: log) ⊆ issued outside log := by
  induction log generalizing s' with
  | nil =>
    intro n hn
    obtain ⟨x, hx, hnonce⟩ := List.mem_filterMap.mp hn
    rw [List.mem_singleton.mp hx] at hnonce
    exact mem_issued_of_granted ((h s' [] (List.suffix_refl _)).granted hnonce)
  | cons x log ih =>
    intro n hn
    obtain ⟨y, hy, hnonce⟩ := List.mem_filterMap.mp hn
    rcases List.mem_cons.mp hy with rfl | hy
    · exact mem_issued_of_granted ((h y _ (List.suffix_refl _)).granted hnonce)
    · have hold := ih (fun s before hs => h s before (hs.trans (List.suffix_cons _ _)))
        (List.mem_filterMap.mpr ⟨y, hy, hnonce⟩)
      exact (issued_suffix (List.suffix_cons x log)).subset hold

/-- **A nonce granted last has not been seen**, as long as none is granted
twice. -/
theorem not_used_of_granted (h : ∀ s before, s :: before <:+ log → Proper outside crates v s before)
    (hfresh : (issued outside log).Nodup) (hgranted : grantedBy outside log = some nonce) : nonce ∉ used log := by
  cases log with
  | nil => cases hgranted
  | cons s log =>
    rw [issued, hgranted] at hfresh
    exact fun hused => (List.nodup_cons.mp hfresh).1 (used_subset h hused)

theorem Proper.admits (hv : v.Lawful crates) {url : Str} {headers : HeaderMap} {jws : Jws}
    (h : Proper outside crates v (.post url headers jws) log)
    (hall : ∀ s before, s :: before <:+ log → Proper outside crates v s before)
    (hfresh : (issued outside log).Nodup) : Admits outside crates v log url headers jws := by
  obtain ⟨key, n, payload, jwk, kid, rfl, rfl, hgranted, hid⟩ := h url headers jws rfl
  refine ⟨rfl, hv.unb64 _, congrArg Json.asStr (jwsHeader_alg ..), congrArg Json.asStr (jwsHeader_url ..),
    ⟨n, congrArg Json.asStr (jwsHeader_nonce ..), ?_, ?_⟩, _, signer_of_identified hv hid, hv.verifies ..⟩
  · exact mem_issued_of_granted hgranted
  · exact not_used_of_granted hall hfresh hgranted

/-! ## One request -/

variable {line line' : Line} {client : AcmeClient κ} {d : DirectoryUrls}

/-- What certd sends is proper. -/
abbrev Sends (outside : Outside) (crates : SigningCrates κ) (v : Verifier) : Line → Line → Prop :=
  Writes Line.log (Proper outside crates v)

theorem proper_of_not_post (h : ∀ url headers jws, s ≠ .post url headers jws) : Proper outside crates v s before :=
  fun url headers jws hs => absurd hs (h url headers jws)

def Line.push (line : Line) (s : Sent) : Line := { line with log := s :: line.log }

/-- Where no POST is sent on, a request is sent once. -/
theorem Outside.Direct.deliver_eq (hd : outside.Direct) (join : Str → Bytes → Option Str) (redirects : Nat) (s : Sent)
    (log : List Sent) : outside.deliver join redirects s log = (s :: log, outside.answer (s :: log)) := by
  unfold Outside.deliver
  simp only []
  cases ha : outside.answer (s :: log) with
  | none => rfl
  | some a =>
    have hagain : s.again join a = none := by
      cases s with
      | post url headers jws =>
        obtain ⟨hne, hne'⟩ := hd url headers jws log a ha
        exact if_neg fun h => h.elim hne hne'
      | _ => rfl
    simp only [hagain]

theorem Outside.Direct.transmit_apply (hd : outside.Direct) (s : Sent) (line : Line) :
    transmit outside crates s line = orFail Error.http (outside.answer (s :: line.log)) (line.push s) := by
  have hdeliver := hd.deliver_eq crates.join maxRedirects s line.log
  show ((do
    modify fun l => { l with log := (outside.deliver crates.join maxRedirects s line.log).1 }
    orFail .http (outside.deliver crates.join maxRedirects s line.log).2) : Net Answer) line = _
  rw [hdeliver]
  rfl

theorem transmit_ends (hd : outside.Direct) (h : Proper outside crates v s line.log) :
    Ends (Sends outside crates v) (fun a t => outside.answer t.log = some a ∧ t = line.push s)
      (transmit outside crates s) line := by
  rw [Ends, hd.transmit_apply, orFail_world]
  refine ⟨Writes.of_cons rfl h, fun a t heq => ?_⟩
  obtain ⟨ha, rfl⟩ := orFail_eq_ok.mp heq
  exact ⟨ha, rfl⟩

/-- Where nothing is sent, nothing improper is. -/
theorem sends_of_log_eq (h : line'.log = line.log) : Sends outside crates v line line' := by
  refine ⟨h ▸ List.suffix_refl _, fun c before hsuffix hlen => ?_⟩
  rw [h] at hsuffix
  have hle := hsuffix.length_le
  rw [List.length_cons] at hle
  omega

/-- The nonce there is then is the one the CA granted. -/
theorem fetchNonce_ends (hd : outside.Direct) (d : DirectoryUrls) (missing : Str) (line : Line) :
    Ends (Sends outside crates v)
      (fun _ t => t.log = .head d.newNonce :: line.log ∧ grantedBy outside t.log = some t.nonce)
      (fetchNonce outside crates d missing) line := by
  refine (transmit_ends hd (proper_of_not_post fun _ _ _ hs => by cases hs)).bind fun resp t ht => ?_
  obtain ⟨hanswer, rfl⟩ := ht
  refine Ends.orFail_bind fun value hvalue => Ends.orFail_bind fun nonce hnonce => ?_
  refine Ends.modify (sends_of_log_eq rfl) ⟨rfl, ?_⟩
  have hgranted : Http.getStr resp.headers replayNonce = some nonce := by
    rw [Http.getStr, hvalue, Option.bind_some, hnonce]
  exact (congrArg (·.bind fun a => Http.getStr a.headers replayNonce) hanswer).trans hgranted

/-- A request by a signer the CA knows is proper. -/
theorem AcmeClient.postJws_ends (hd : outside.Direct) {url : Str} {payload : Bytes} (useJwk : Bool)
    (hid : Identified outside crates v client.key url (if useJwk then some (jwkPublic crates client.key) else none)
      client.accountUrl (.head client.directory.newNonce :: line.log)) :
    Ends (Sends outside crates v)
      (fun a t => ∃ nonce, t.log = .post url (jsonHeaders [(contentType, joseJson)])
          (jwsPayload crates client.key nonce url (if useJwk then some (jwkPublic crates client.key) else none)
            client.accountUrl payload) :: .head client.directory.newNonce :: line.log ∧
        outside.answer t.log = some a)
      (client.postJws outside crates url payload useJwk) line := by
  refine (fetchNonce_ends hd client.directory _ line).bind fun _ t ht => Ends.read_bind ?_
  obtain ⟨hlog, hgranted⟩ := ht
  rw [← hlog] at hid ⊢
  refine (transmit_ends hd ?_).bind fun resp u hu => ?_
  · intro url' headers jws hs
    cases hs
    exact ⟨_, _, payload, _, _, rfl, rfl, hgranted, hid⟩
  · obtain ⟨hanswer, rfl⟩ := hu
    exact Ends.modify_bind (sends_of_log_eq rfl) (Ends.pure ⟨t.nonce, rfl, hanswer⟩)

/-! ## The account -/

/-- The client's account is there, with its key. -/
def Registered (outside : Outside) (crates : SigningCrates κ) (v : Verifier) (client : AcmeClient κ)
    (log : List Sent) : Prop :=
  ∃ a, client.accountUrl = some a ∧ accountKey outside v a log = some (crates.point client.key)

theorem accountKey_created (hv : v.Lawful crates) {key : κ} {url kid : Str} {headers : HeaderMap} {jws : Jws}
    (hjwk : jws.header.get "jwk".toList = jwkPublic crates key)
    (h : creates outside kid (.post url headers jws :: log) = true) :
    accountKey outside v kid (.post url headers jws :: log) = some (crates.point key) := by
  have hpoint := hv.pointOf_jwkPublic key
  rw [accountKey, hjwk]
  exact (if_pos h).trans hpoint

theorem AcmeClient.createAccount_ends (hv : v.Lawful crates) (hd : outside.Direct) {email : Str} (hnone : client.accountUrl = none)
    (hdir : client.directory ∈ directories outside crates line.log) :
    Ends (Sends outside crates v) (fun a t => accountKey outside v a t.log = some (crates.point client.key))
      (client.createAccount outside crates email) line := by
  refine (client.postJws_ends hd true (.inl ⟨rfl, hnone, _, hdir, rfl⟩)).bind fun resp t ht => ?_
  obtain ⟨nonce, hlog, hanswer⟩ := ht
  refine Ends.orFail_bind fun value hvalue => Ends.orFail_bind fun location hlocation => ?_
  split
  · next hstatus =>
    refine Ends.pure ?_
    rw [hlog] at hanswer ⊢
    refine accountKey_created hv (jwsHeader_jwk _ _ (some (jwkPublic crates client.key)) client.accountUrl) ?_
    rw [creates, hanswer, Option.any_some, Http.getStr, hvalue, Option.bind_some, hlocation]
    rcases hstatus with h | h <;> rw [h] <;> simp
  · exact Ends.fail _

theorem orMessage_ends {α : Type} {Q : α → Line → Prop} (before : Str) (e : Except Str α)
    (h : ∀ a, Q a line) : Ends (Sends outside crates v) Q (orMessage before e) line := by
  cases e with
  | ok a => exact Ends.pure (h a)
  | error e => exact Ends.fail _

/-- **After `new` the account is there.** -/
theorem AcmeClient.new_ends (hv : v.Lawful crates) (hd : outside.Direct) (draw : Except Str Bytes) (email : Str) (line : Line) :
    Ends (Sends outside crates v) (fun client t => Registered outside crates v client t.log)
      (AcmeClient.new outside crates draw email) line := by
  refine (orMessage_ends _ draw (Q := fun _ t => t = line) fun _ => rfl).bind fun keyBytes t ht => ?_
  subst ht
  refine (orMessage_ends _ _ (Q := fun _ t' => t' = t) fun _ => rfl).bind fun key t' ht => ?_
  subst ht
  refine (transmit_ends hd (proper_of_not_post fun _ _ _ hs => by cases hs)).bind fun resp u hu => ?_
  obtain ⟨hanswer, rfl⟩ := hu
  refine Ends.orFail_bind fun dir hdir => (fetchNonce_ends hd dir _ _).bind fun _ u hu => ?_
  obtain ⟨hlog, -⟩ := hu
  have hmem : dir ∈ directories outside crates u.log := by
    rw [hlog]
    show dir ∈ ((outside.answer (t'.push .directory).log).bind _).toList ++ _
    rw [hanswer, Option.bind_some]
    split at hdir
    · cases hdir
    · exact List.mem_append_left _ (Option.mem_toList.mpr hdir)
  exact (AcmeClient.createAccount_ends hv hd rfl hmem).bind fun a w hw => Ends.pure ⟨a, rfl, hw⟩

/-! ## An order -/

/-- A signed request has the nonce granted just before. -/
def Nonced (remote : Remote) (c : Call) (before : List Call) : Prop :=
  ∀ nonce ask, c = .signed nonce ask → ∃ older, before = .newNonce :: older ∧ granted remote older = some nonce

section
variable (remote : Remote) (crates : AcmeCrates)

theorem postJws_nonced (ask : Ask) : Steps (Writes World.log (Nonced remote)) (postJws remote ask) := by
  intro w
  have hfirst : Writes World.log (Nonced remote) w (w.call .newNonce) := Writes.of_cons rfl fun _ _ hc => by cases hc
  rcases h : granted remote w.log with _ | n
  · obtain ⟨e, u, hpost, hlog⟩ := postJws_of_refused ask h
    rw [hpost]
    exact Writes.of_cons hlog fun _ _ hc => by cases hc
  · obtain ⟨u, hpost, hlog⟩ := postJws_of_granted ask h
    rw [hpost]
    refine trans_of (Writes World.log (Nonced remote)) hfirst (Writes.of_cons hlog fun nonce ask' hc => ?_)
    cases hc
    exact ⟨_, rfl, h⟩

theorem collect_nonced (thumbprint : Str) (urls : List Str) :
    Steps (Writes World.log (Nonced remote)) (collect remote crates thumbprint urls) := by
  refine Steps.foldlM (fun c url => ?_) Collected.empty
  refine (postJws_nonced remote _).bind fun resp => ?_
  refine (Steps.orFail _ _).bind fun auth => Steps.bind ?_ fun info => Steps.pure _
  refine (Steps.orFail _ _).bind fun challenges => ?_
  refine (Steps.orFail _ _).bind fun ch => ?_
  refine (Steps.orFail _ _).bind fun token => ?_
  exact (Steps.orFail _ _).bind fun url => Steps.pure _

theorem setCloudflareTxt_nonced (domain : Str) (values : List Str) :
    Steps (Writes World.log (Nonced remote)) (setCloudflareTxt remote crates domain values) := by
  have hdelete : ∀ zone name, Steps (Writes World.log (Nonced remote)) (deleteExisting remote zone name) := by
    intro zone name
    refine Steps.bind (fun w => Writes.of_cons rfl fun _ _ hc => by cases hc) fun ids => Steps.forM fun id _ w => ?_
    exact Writes.of_cons (World.deleted_log remote w zone id) fun _ _ hc => by cases hc
  refine (resolveZoneId_steps remote crates (send_writes fun _ _ _ hc => by cases hc)).bind fun zone => ?_
  refine (hdelete zone _).bind fun _ => Steps.forM fun value _ => ?_
  refine createRecord_steps remote crates fun w => Writes.of_cons (World.created_log remote w _ _ _) ?_
  exact fun _ _ hc => by cases hc

theorem pollOrder_nonced (url : Str) (n : Nat) :
    Steps (Writes World.log (Nonced remote)) (pollOrder remote crates url n) := by
  induction n with
  | zero => exact Steps.pure _
  | succ n ih =>
    refine (postJws_nonced remote _).bind fun resp => ?_
    refine (Steps.orFail _ _).bind fun status => ?_
    split
    · exact Steps.pure _
    · split
      · exact Steps.fail _
      · exact ih

theorem pollCertificate_nonced (url keyPem : Str) (n : Nat) :
    Steps (Writes World.log (Nonced remote)) (pollCertificate remote crates url keyPem n) := by
  induction n with
  | zero => exact Steps.fail _
  | succ n ih =>
    refine (postJws_nonced remote _).bind fun resp => ?_
    split
    · exact (Steps.orFail _ _).bind fun certPem => Steps.pure _
    · exact ih

theorem issueCert_nonced (thumbprint : Str) (iter : Iteration) (primary : Str) (more : List Str) :
    Steps (Writes World.log (Nonced remote)) (issueCert remote crates thumbprint iter primary more) := by
  refine Steps.bind ?_ fun placed => ?_
  · refine (postJws_nonced remote _).bind fun resp => ?_
    refine (Steps.orFail _ _).bind fun order => ?_
    refine (Steps.orFail _ _).bind fun finalizeUrl => ?_
    refine (Steps.orFail _ _).bind fun auths => ?_
    refine (collect_nonced remote crates thumbprint _).bind fun c => ?_
    refine (Steps.forM fun e _ => setCloudflareTxt_nonced remote crates e.1 e.2).bind fun _ => ?_
    refine (Steps.forM fun ch _ => ?_).bind fun _ => Steps.pure _
    exact (postJws_nonced remote _).bind fun _ => Steps.pure _
  · refine (pollOrder_nonced remote crates _ _).bind fun _ => ?_
    refine (Steps.orFail _ _).bind fun csr => ?_
    refine (postJws_nonced remote _).bind fun resp => ?_
    refine (Steps.orFail _ _).bind fun body => ?_
    refine (Steps.orFail _ _).bind fun data => ?_
    exact (Steps.orFail _ _).bind fun url => pollCertificate_nonced remote crates url _ _

end

/-! ## An order on the line -/

/-- Where a program of the client's has got to on the line. -/
def AcmeClient.view (outside : Outside) (crates : SigningCrates κ) (client : AcmeClient κ) (base : List Sent)
    (w : World) : Line :=
  { log := client.sentAll outside crates w.log base, nonce := w.nonce, dns := w.dns }

theorem AcmeClient.send_agrees (client : AcmeClient κ) (base : List Sent) (c : Call) :
    Agree (client.view outside crates base) (send (client.remote outside crates base) c)
      (transmit outside crates (client.sent crates c)) := by
  intro w
  let delivered := outside.deliver crates.join maxRedirects (client.sent crates c)
    (client.sentAll outside crates w.log base)
  have hanswer : Agree (client.view outside crates base) (orFail Error.http delivered.2) (orFail Error.http delivered.2) :=
    Agree.orFail _ _
  exact hanswer (w.call c)

/-- **A request of an order is `post_jws` in the account's name.** -/
theorem AcmeClient.during_postJws (outside : Outside) (crates : SigningCrates κ) (client : AcmeClient κ) (ask : Ask) :
    client.during outside crates (fun remote => Acme.postJws remote ask) =
      client.postJws outside crates (ask.url client.directory) (ask.bytes crates) false := by
  funext line
  have hnonce : Agree (client.view outside crates line.log) (Acme.getNonce (client.remote outside crates line.log))
      (client.getNonce outside crates) := by
    refine (client.send_agrees line.log .newNonce).bind fun resp => ?_
    refine (Agree.orFail _ _).bind fun value => (Agree.orFail _ _).bind fun nonce => ?_
    exact Agree.modify fun w => rfl
  have hpost : Agree (client.view outside crates line.log) (Acme.postJws (client.remote outside crates line.log) ask)
      (client.postJws outside crates (ask.url client.directory) (ask.bytes crates) false) := by
    refine hnonce.bind fun _ => Agree.read_bind fun w => ?_
    refine (client.send_agrees line.log (.signed w.nonce ask)).bind fun resp => ?_
    refine Agree.bind (Agree.modify fun w => ?_) fun _ => Agree.pure resp
    rfl
  exact (hpost { log := [], nonce := line.nonce, dns := line.dns }).symm

variable {base : List Sent} {calls : List Call}

theorem Outside.Direct.sentAll_cons (hd : outside.Direct) (client : AcmeClient κ) (c : Call) (calls : List Call)
    (base : List Sent) : client.sentAll outside crates (c :: calls) base =
      client.sent crates c :: client.sentAll outside crates calls base :=
  congrArg Prod.fst (hd.deliver_eq ..)

theorem suffix_sentAll (hd : outside.Direct) (client : AcmeClient κ) (calls : List Call) (base : List Sent) :
    base <:+ client.sentAll outside crates calls base := by
  induction calls with
  | nil => exact List.suffix_refl _
  | cons c calls ih =>
    rw [hd.sentAll_cons]
    exact ih.trans (List.suffix_cons _ _)

/-- A client with an account creates none. -/
theorem accountKey_sentAll (hd : outside.Direct) (client : AcmeClient κ) (kid : Str) (calls : List Call)
    (base : List Sent) :
    accountKey outside v kid (client.sentAll outside crates calls base) = accountKey outside v kid base := by
  induction calls with
  | nil => rfl
  | cons c calls ih =>
    rw [← ih, hd.sentAll_cons]
    cases c with
    | signed nonce ask =>
      show accountKey outside v kid (.post _ _ (jwsPayload crates client.key nonce _ none client.accountUrl _) :: _) = _
      rw [accountKey, jwsPayload]
      dsimp only
      rw [jwsHeader_jwk]
      rfl
    | _ => rfl

theorem exists_of_sentAll (hd : outside.Direct) (client : AcmeClient κ)
    (h : s :: before <:+ client.sentAll outside crates calls base) (hlen : base.length ≤ before.length) :
    ∃ c older, c :: older <:+ calls ∧ s = client.sent crates c ∧ before = client.sentAll outside crates older base := by
  induction calls with
  | nil =>
    have hle := h.length_le
    simp only [AcmeClient.sentAll, List.foldr_nil, List.length_cons] at hle
    omega
  | cons c calls ih =>
    rw [hd.sentAll_cons] at h
    rcases List.suffix_cons_iff.mp h with heq | h
    · cases heq
      exact ⟨c, calls, List.suffix_refl _, rfl, rfl⟩
    · obtain ⟨c', older, hsuffix, hs, hbefore⟩ := ih h
      exact ⟨c', older, hsuffix.trans (List.suffix_cons _ _), hs, hbefore⟩

/-- A call with the nonce just granted is a proper request. -/
theorem Nonced.proper (hd : outside.Direct) {c : Call} (hreg : Registered outside crates v client base)
    (h : Nonced (client.remote outside crates base) c calls) :
    Proper outside crates v (client.sent crates c) (client.sentAll outside crates calls base) := by
  cases c with
  | signed nonce ask =>
    obtain ⟨a, ha, hkey⟩ := hreg
    obtain ⟨older, rfl, hgranted⟩ := h nonce ask rfl
    intro url headers jws hs
    cases hs
    refine ⟨_, nonce, _, none, _, rfl, rfl, ?_, .inr ⟨rfl, a, ha, ?_⟩⟩
    · have hnonce := hd.deliver_eq crates.join maxRedirects (client.sent crates .newNonce)
        (client.sentAll outside crates older base)
      rw [granted, AcmeClient.remote] at hgranted
      simp only [hnonce] at hgranted
      rw [hd.sentAll_cons]
      exact hgranted
    · exact (accountKey_sentAll hd client a _ base).trans hkey
  | _ => exact proper_of_not_post fun _ _ _ hs => by cases hs

/-- What a client with an account does keeps to the rules, and the account
stays. -/
theorem AcmeClient.during_sends (hd : outside.Direct) {α : Type} {x : Remote → Client α} (hreg : Registered outside crates v client line.log)
    (hx : ∀ remote, Steps (Writes World.log (Nonced remote)) (x remote)) :
    Sends outside crates v line (client.during outside crates x line).2 ∧
      Registered outside crates v client (client.during outside crates x line).2.log := by
  have hw := hx (client.remote outside crates line.log) { log := [], nonce := line.nonce, dns := line.dns }
  refine ⟨⟨suffix_sentAll hd client _ _, fun s before hsuffix hlen => ?_⟩, ?_⟩
  · obtain ⟨c, older, hold, rfl, rfl⟩ := exists_of_sentAll hd client hsuffix hlen
    exact Nonced.proper hd hreg (hw.2 c older hold (Nat.zero_le _))
  · obtain ⟨a, ha, hkey⟩ := hreg
    exact ⟨a, ha, (accountKey_sentAll hd client a _ _).trans hkey⟩

/-! ## Processes -/

theorem Process.run_sends (hv : v.Lawful crates) (hd : outside.Direct) (p : Process) :
    Steps (Sends outside crates v) (p.run outside crates) := by
  intro line
  refine (Ends.bind (P := fun _ _ => True) (AcmeClient.new_ends hv hd p.draw p.email line) fun client t ht => ?_).1
  refine Ends.mono (fun _ _ _ => trivial) (Ends.forM (I := fun t => Registered outside crates v client t.log) ?_ ht)
  intro o _ u hu
  obtain ⟨hsends, hreg⟩ := client.during_sends hd hu fun remote =>
    issueCert_nonced remote crates.toAcmeCrates client.thumbprint o.iter o.primary o.more
  exact ⟨hsends, fun _ _ heq => by cases heq; exact hreg⟩

def sampleReady : Json := .object [
  ("status".toList, .string "ready".toList), ("certificate".toList, .string "c".toList)]

def sampleSigning : SigningCrates Bytes where
  parse bytes := [sampleReady, sampleOrder, sampleAuthorization "c1" "t1", sampleAuthorization "c2" "t2",
    sampleZones].find? fun v => Text.bytes v.plain == bytes
  display := Json.plain
  text _ := Http.text
  digest s := s
  csr _ := some (['r'], ['k'])
  fromSlice := .ok
  point key := (key, key)
  sign key data := (key, data)
  b64 := Http.text
  directory _ := some { newNonce := ['n'], newAccount := ['m'], newOrder := ['w'] }
  status _ := []
  join _ _ := none

def sampleVerifier : Verifier where
  unb64 s := some (s.map fun c => UInt8.ofNat c.toNat)
  verify key data signature := key.1 ++ data == signature

theorem sampleVerifier_lawful : sampleVerifier.Lawful sampleSigning where
  unb64 data := by
    refine congrArg some ((List.map_map ..).trans ((List.map_congr_left fun b _ => ?_).trans data.map_id))
    rw [Function.comp_apply, Http.toNat_text, UInt8.ofNat_toNat, id]
  verify _ _ := beq_self_eq_true _

def sampleBody : Sent → Json
  | .post ['w'] _ _ => sampleOrder
  | .post ['a', '1'] _ _ => sampleAuthorization "c1" "t1"
  | .post ['a', '2'] _ _ => sampleAuthorization "c2" "t2"
  | .dns (.zones _) => sampleZones
  | _ => sampleReady

/-- A nonce is as long as what has been sent. -/
def sampleOutside : Outside where
  answer
    | [] => none
    | s :: log => some {
        status := 200
        headers := [(replayNonce, log.map fun _ => 110), ("location".toList, [111])]
        body := ⟨[Text.bytes (sampleBody s).plain], false⟩ }
  shows _ _ := true
  applies _ := true

theorem sampleOutside_direct : sampleOutside.Direct := by
  intro url headers jws log a ha
  cases ha
  exact ⟨show 200 ≠ 307 by decide, show 200 ≠ 308 by decide⟩

def sampleProcess : Process where
  draw := .ok [7]
  email := "a@b".toList
  orders := [⟨Iteration.sorted, "a.io".toList, ["*.a.io".toList]⟩]

def sampleStart : Line where
  log := []
  nonce := []
  dns := sampleWorld.dns

def Sent.isPost : Sent → Bool
  | .post _ _ _ => true
  | _ => false

end NekoGuard.Acme
