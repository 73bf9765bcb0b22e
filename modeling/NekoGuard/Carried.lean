/-
embed.rs: the metadata Redis carries from the replica that fetched it to the
others, and what becomes of an entry without a type for its icon
(`carried_metadata`).
-/
import NekoGuard.FetchFacts
import NekoGuard.LoadFacts
import NekoGuard.MetaTags
import NekoGuard.Splice

namespace NekoGuard.Embed

/-! ## Icon types -/

/-- The types an icon is served under. -/
def servedTypes : List String := ["image/png", "image/x-icon", "image/jpeg", "image/gif", "image/webp"]

/-- The raster types, as an origin writes them. -/
def rasterTypes : List String := "image/vnd.microsoft.icon" :: servedTypes

/-- The content type begins with a raster type. -/
def Raster (contentType : Str) : Prop :=
  ∃ t ∈ rasterTypes, Text.startsWith (Text.toAsciiLowercase contentType) t.toList = true

instance (contentType : Str) : Decidable (Raster contentType) := inferInstanceAs (Decidable (∃ t ∈ rasterTypes, _))

variable {contentType : Str} {mime : String} {c : CachedMeta} {m : Meta}

theorem iconMime_mem (h : iconMime contentType = some mime) : mime ∈ servedTypes := by
  unfold iconMime at h
  simp only [] at h
  split_ifs at h <;> cases h <;> decide

/-- **The types served are their own**: what was recognised is recognised
again, as the same. -/
theorem iconMime_idem (h : iconMime contentType = some mime) : iconMime mime.toList = some mime := by
  have hall : ∀ t ∈ servedTypes, iconMime t.toList = some t := by decide +kernel
  exact hall mime (iconMime_mem h)

theorem iconMime_eq_none_iff : iconMime contentType = none ↔ ¬Raster contentType := by
  unfold iconMime Raster rasterTypes servedTypes
  simp only [List.mem_cons, List.not_mem_nil, or_false, exists_eq_or_imp, exists_eq_left, Bool.or_eq_true]
  generalize Text.startsWith (Text.toAsciiLowercase contentType) = begins
  generalize begins "image/png".toList = png, begins "image/x-icon".toList = ico,
    begins "image/vnd.microsoft.icon".toList = vnd, begins "image/jpeg".toList = jpeg,
    begins "image/gif".toList = gif, begins "image/webp".toList = webp
  cases png <;> cases ico <;> cases vnd <;> cases jpeg <;> cases gif <;> cases webp <;> simp

/-! ## What is fetched -/

/-- Neither tags nor links give a document an icon. -/
theorem foldl_noteIcon_icon (tags : List Str) (m : Meta) : (tags.foldl noteIcon m).icon = m.icon := by
  obtain ⟨url, hurl⟩ := foldl_noteIcon_eq tags m
  rw [hurl]

theorem scrape_icon {document : Str} (h : scrape document = .ok m) : m.icon = none := by
  obtain ⟨head, hhead⟩ := headOf_ok document
  obtain ⟨title, htitle⟩ := titleOf_ok head
  unfold scrape at h
  rw [hhead] at h
  simp only [bind, Except.bind, foldlM_renderTag, htitle] at h
  split at h
  · cases h
    exact foldl_noteIcon_icon _ _
  · cases h
    exact foldl_noteIcon_icon _ _

theorem decodeDataUri_mime {base64 : Str → Option Bytes} {rest : Str} {icon : Bytes × String}
    (h : decodeDataUri base64 rest = some icon) : ∃ ct, iconMime ct = some icon.2 := by
  unfold decodeDataUri at h
  simp only [Option.bind_eq_bind, Option.bind_eq_some_iff] at h
  obtain ⟨⟨kind, data⟩, -, mime, hmime, h⟩ := h
  split at h
  · cases h
  · simp only [Option.bind_eq_some_iff] at h
    obtain ⟨bytes, -, h⟩ := h
    split at h
    · cases h
    · cases h
      exact ⟨_, hmime⟩

theorem iconOf_mime {resp : OriginResponse} {icon : Bytes × String} (h : iconOf resp = some icon) :
    ∃ ct, iconMime ct = some icon.2 := by
  unfold iconOf at h
  split at h
  · cases h
  · simp only [Option.bind_eq_bind, Option.bind_eq_some_iff, Option.pure_def, Option.some.injEq] at h
    obtain ⟨mime, hmime, bytes, -, rfl⟩ := h
    exact ⟨_, hmime⟩

section Fetch

variable {fc : FetchCrates} {origin : Origin fc} {host upstream path url : Str} {sent : List (GetRequest fc)}

theorem fetchIcon_mime {icon : Bytes × String} (h : (fetchIcon origin host upstream url sent).1 = some icon) :
    ∃ ct, iconMime ct = some icon.2 := by
  unfold fetchIcon at h
  split at h
  · exact decodeDataUri_mime h
  · split at h
    · cases h
    · obtain ⟨resp, -, hicon⟩ := Option.bind_eq_some_iff.mp h
      exact iconOf_mime hicon

/-- **What a fetch returns**: no address of an icon any more, and an icon
only under a type that was recognised. -/
theorem fetch_icon (h : fetch origin host upstream path = .ok (some m, sent)) :
    m.iconUrl = none ∧ ∀ icon ∈ m.icon, ∃ ct, iconMime ct = some icon.2 := by
  unfold fetch at h
  split at h
  · cases h
  · next document docSent _ =>
    cases hscrape : scrape document with
    | error e =>
      rw [hscrape] at h
      cases h
    | ok found =>
      rw [hscrape] at h
      simp only [bind, Except.bind] at h
      split at h
      · next hurl =>
        cases h
        refine ⟨hurl, fun icon hicon => ?_⟩
        rw [scrape_icon hscrape] at hicon
        cases hicon
      · next url _ =>
        cases h
        exact ⟨rfl, fun icon hicon => fetchIcon_mime hicon⟩

/-- **What was fetched survives Redis.** -/
theorem intoMeta_ofMeta (hurl : m.iconUrl = none) (hmime : ∀ icon ∈ m.icon, ∃ ct, iconMime ct = some icon.2) :
    (CachedMeta.ofMeta m).intoMeta = m := by
  obtain ⟨title, tags, iconUrl, icon⟩ := m
  obtain rfl : iconUrl = none := hurl
  cases icon with
  | none => rfl
  | some icon =>
    obtain ⟨ct, hct⟩ := hmime icon rfl
    have hself := iconMime_idem hct
    simp [CachedMeta.ofMeta, CachedMeta.intoMeta, hself]

end Fetch

/-! ## What Redis carries -/

section Carried

variable {mc : MetaCrate} {ι θ : Type} {st : Store ι θ} {key payload : Str} {now later : Nat} {e : Entry}

/-- An entry that is live and readable. -/
theorem redisGet_of_entry (he : st.redis key = some e) (hlive : later < e.written + cacheTtl)
    (hread : mc.fromStr e.payload = some c) : redisGet mc later st key = some (c.intoMeta, e.written) := by
  have hfilter : (some e).filter (fun e => decide (later < e.written + cacheTtl)) = some e := by
    rw [Option.filter_some, if_pos (by simpa using hlive)]
  rw [redisGet, he, hfilter, Option.bind_some, hread]
  rfl

theorem redisGet_redisSet (hmc : mc.Lawful) (hwritten : mc.toString (.ofMeta m) = some payload)
    (hlive : later < now + cacheTtl) :
    redisGet mc later (redisSet mc now st key m) key = some ((CachedMeta.ofMeta m).intoMeta, now) := by
  unfold redisSet
  rw [hwritten]
  exact redisGet_of_entry (e := ⟨payload, now⟩) (Function.update_self ..) hlive (hmc.fromStr_toString hwritten)

theorem intoMeta_icon_of_not_raster (h : ∀ mime ∈ c.iconMime, ¬Raster mime) : c.intoMeta.icon = none := by
  unfold CachedMeta.intoMeta
  cases hmime : c.iconMime with
  | none => simp
  | some mime =>
    have hnone := iconMime_eq_none_iff.mpr (h mime hmime)
    simp [hnone]

/-- **Metadata from Redis.** What one replica fetched and wrote, another reads
within the window and renders alike, with the same icon under the same type.
An entry whose icon has no type, or none that begins with a raster type,
renders its title and its tags and no icon. -/
theorem carried_metadata (hmc : mc.Lawful) :
    (∀ (fc : FetchCrates) (origin : Origin fc) (host upstream path : Str) (m : Meta) (sent : List (GetRequest fc)),
      fetch origin host upstream path = .ok (some m, sent) →
      ∀ (payload : Str), mc.toString (.ofMeta m) = some payload →
      ∀ (st : Store ι θ) (key : Str) (now later : Nat), later < now + cacheTtl →
      ∃ copy, redisGet mc later (redisSet mc now st key m) key = some (copy, now) ∧ copy.icon = m.icon ∧
        ∀ page host, inlineInto page (some copy) host = inlineInto page (some m) host) ∧
    ∀ (st : Store ι θ) (key : Str) (later : Nat) (e : Entry) (c : CachedMeta), st.redis key = some e →
      later < e.written + cacheTtl → mc.fromStr e.payload = some c → (∀ mime ∈ c.iconMime, ¬Raster mime) →
      ∃ copy, redisGet mc later st key = some (copy, e.written) ∧ copy.icon = none ∧
        ∀ page host, inlineInto page (some copy) host =
          Text.replacen (replaceTitle page (titleFor c.title host)) marker c.tags.flatten 1 := by
  constructor
  · intro fc origin host upstream path m sent hfetch payload hwritten st key now later hlive
    obtain ⟨hurl, hmime⟩ := fetch_icon hfetch
    refine ⟨m, ?_, rfl, fun _ _ => rfl⟩
    rw [redisGet_redisSet hmc hwritten hlive, intoMeta_ofMeta hurl hmime]
  · intro st key later e c he hlive hread hraster
    have hicon := intoMeta_icon_of_not_raster hraster
    refine ⟨c.intoMeta, redisGet_of_entry he hlive hread, hicon, fun page host => ?_⟩
    have hnone : injected (some c.intoMeta) = c.tags.flatten := by
      unfold injected
      simp only [hicon]
      exact List.append_nil _
    rw [inlineInto, hnone]
    rfl

/-- `serde_json`, of one entry. -/
def crateOf (c : CachedMeta) (json : Str) : MetaCrate where
  toString c' := if c' = c then some json else none
  fromStr s := if s = json then some c else none

theorem crateOf_lawful (c : CachedMeta) (json : Str) : (crateOf c json).Lawful where
  fromStr_toString := fun {c' s} h => by
    unfold crateOf at h ⊢
    simp only [] at h ⊢
    split_ifs at h with hc
    cases h
    simp [hc]

/-- A page with an icon, and what a fetch makes of it. -/
def toolboxOrigin : Origin plainCrates := fun sent =>
  some (if sent.length = 1 then
      { status := 200, headers := [("content-type".toList, Text.bytes "text/html".toList)],
        body := ⟨[Text.bytes "<head><title>Toolbox</title><link rel='icon' href='i.png'></head>".toList], false⟩ }
    else
      { status := 200, headers := [("content-type".toList, Text.bytes "image/png; q=1".toList)],
        body := ⟨[[137, 80, 78, 71]], false⟩ })

def toolbox : Meta where
  title := some "Toolbox".toList
  tags := []
  iconUrl := none
  icon := some ([137, 80, 78, 71], "image/png")

def toolboxJson : Str :=
  "\x7b\"title\":\"Toolbox\",\"tags\":[],\"icon\":[137,80,78,71],\"icon_mime\":\"image/png\"\x7d".toList

/-- The entry, without the type of its icon, or with another. -/
def retyped (mime : Option Str) : CachedMeta := { CachedMeta.ofMeta toolbox with iconMime := mime }

def retypedJson : Str := "\x7b\"title\":\"Toolbox\",\"icon\":[137,80,78,71]\x7d".toList

/-- Redis with that entry under every key. -/
def holding (payload : Str) : Store Unit Unit where
  redis := fun _ => some { payload, written := 0 }
  replica := fun _ => { cached := fun _ => none, inflight := fun _ => none }
  served := []

theorem carried_toolbox :
    (∃ copy, redisGet (crateOf (.ofMeta toolbox) toolboxJson) 5
        (redisSet (crateOf (.ofMeta toolbox) toolboxJson) 3 (holding []) "k".toList toolbox) "k".toList =
          some (copy, 3) ∧
      copy.icon = some ([137, 80, 78, 71], "image/png")) ∧
    ∃ copy, redisGet (crateOf (retyped none) retypedJson) 5 (holding retypedJson) "k".toList = some (copy, 0) ∧
      copy.icon = none := by
  constructor
  · have hfetched : (fetch toolboxOrigin "a.example".toList "http://origin".toList "/".toList).map (·.1) =
        .ok (some toolbox) := by decide +kernel
    cases hfetch : fetch toolboxOrigin "a.example".toList "http://origin".toList "/".toList with
    | error e =>
      rw [hfetch] at hfetched
      cases hfetched
    | ok found =>
      obtain ⟨m, sent⟩ := found
      rw [hfetch] at hfetched
      obtain rfl : m = some toolbox := Except.ok.inj hfetched
      obtain ⟨copy, hcopy, hicon, -⟩ := (carried_metadata (crateOf_lawful (.ofMeta toolbox) toolboxJson)).1
        _ _ _ _ _ _ _ hfetch toolboxJson (by decide) (holding []) "k".toList 3 5 (by decide)
      exact ⟨copy, hcopy, hicon⟩
  · obtain ⟨copy, hcopy, hicon, -⟩ := (carried_metadata (crateOf_lawful (retyped none) retypedJson)).2
      (holding retypedJson) "k".toList 5 ⟨retypedJson, 0⟩ (retyped none) rfl (by decide) (by decide +kernel) nofun
    exact ⟨copy, hcopy, hicon⟩

/-- No raster type, but the beginning of one. -/
theorem carried_icon_of_prefix :
    "image/pngx" ∉ rasterTypes ∧
    redisGet (crateOf (retyped (some "image/pngx".toList)) retypedJson) 5 (holding retypedJson) "k".toList =
      some (toolbox, 0) := by
  refine ⟨by decide, by decide +kernel⟩

end Carried

end NekoGuard.Embed
