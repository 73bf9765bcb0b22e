/-
The TXT records of an order. A call of `set_cloudflare_txt` touches no name
but its own (`setCloudflareTxt_leaves`), and once it succeeds all its values
are there; as no name has two calls, every value stays.
-/
import NekoGuard.Acme

namespace NekoGuard.Acme

open Lib Effect

/-! ## What is left of the records -/

/-- There is a record of that name and content. -/
def Dns.Has (dns : Dns) (name content : Str) : Prop := ∃ r ∈ dns.records, r.name = name ∧ r.content = content

/-- The records that `p` holds of are still there. -/
def Leaves (p : TxtRecord → Prop) (w w' : World) : Prop := ∀ r ∈ w.dns.records, p r → r ∈ w'.dns.records

variable {p : TxtRecord → Prop} {w w' : World} {name content zone : Str}

instance : Std.Refl (Leaves p) where
  refl _ _ hr _ := hr

instance : IsTrans World (Leaves p) where
  trans _ _ _ hst htu r hr hp := htu r (hst r hr hp) hp

theorem Dns.Has.leaves (h : w.dns.Has name content) (hl : Leaves (·.name = name) w w') :
    w'.dns.Has name content := by
  obtain ⟨r, hr, hname, hcontent⟩ := h
  exact ⟨r, hl r hr hname, hname, hcontent⟩

/-- Ids tell records apart. -/
theorem Dns.eq_of_id {dns : Dns} {r s : TxtRecord} (hr : r ∈ dns.records) (hs : s ∈ dns.records)
    (hid : r.id = s.id) : r = s :=
  List.inj_on_of_nodup_map dns.distinct hr hs hid

variable (remote : Remote) (crates : AcmeCrates)

theorem send_leaves (c : Call) : Steps (Leaves p) (send remote c) := by
  intro w
  rw [send_world]
  exact fun r hr _ => hr

/-! ## One name -/

theorem Dns.mem_list {dns : Dns} {r : TxtRecord} :
    r ∈ dns.list zone name ↔ r ∈ dns.records ∧ r.zone = zone ∧ r.name = name := by
  simp [Dns.list]

theorem World.mem_of_mem_deleted {id : Nat} {r : TxtRecord} (h : r ∈ (w.deleted remote zone id).dns.records) :
    r ∈ w.dns.records := by
  unfold World.deleted at h
  dsimp only at h
  split at h
  · exact List.mem_of_mem_filter h
  · exact h

theorem World.mem_deleted {id : Nat} {r : TxtRecord} (hr : r ∈ w.dns.records) (hid : r.id ≠ id) :
    r ∈ (w.deleted remote zone id).dns.records := by
  unfold World.deleted
  dsimp only
  split
  · exact List.mem_filter.mpr ⟨hr, by simp [hid]⟩
  · exact hr

theorem World.mem_created {r : TxtRecord} (hr : r ∈ w.dns.records) :
    r ∈ (w.created remote zone name content).dns.records := by
  unfold World.created
  dsimp only
  split
  · exact List.mem_cons_of_mem _ hr
  · exact hr

/-- Records go by their ids. -/
theorem deleteAll_leaves {ids : List Nat} (h : ∀ r ∈ w.dns.records, p r → r.id ∉ ids) :
    Leaves p w (ids.forM (deleteRecord remote zone) w).2 := by
  induction ids generalizing w with
  | nil => exact Std.Refl.refl w
  | cons id ids ih =>
    have hfirst : Leaves p w (w.deleted remote zone id) := fun r hr hp =>
      World.mem_deleted remote hr fun hid => h r hr hp (hid ▸ List.mem_cons_self)
    refine trans_of (Leaves p) hfirst (ih fun r hr hp => ?_)
    exact fun hmem => h r (World.mem_of_mem_deleted remote hr) hp (List.mem_cons_of_mem _ hmem)

/-- What is listed under a name has that name. -/
theorem deleteExisting_leaves : Steps (Leaves (·.name ≠ name)) (deleteExisting remote zone name) := by
  intro w
  refine deleteAll_leaves (w := w.call (.listRecords zone name)) remote fun r hr hname hid => ?_
  obtain ⟨s, hs, hsid⟩ := List.mem_map.mp hid
  obtain ⟨hs, -, hsname⟩ := Dns.mem_list.mp (List.mem_of_mem_filter hs)
  exact hname (Dns.eq_of_id hr hs hsid.symm ▸ hsname)

theorem createRecord_leaves : Steps (Leaves p) (createRecord remote crates zone name content) :=
  createRecord_steps remote crates fun _ _ hr _ => World.mem_created remote hr

/-- A call of `set_cloudflare_txt` touches no name but its own. -/
theorem setCloudflareTxt_leaves (domain : Str) (values : List Str) :
    Steps (Leaves (·.name ≠ challengeName domain)) (setCloudflareTxt remote crates domain values) := by
  refine (resolveZoneId_steps remote crates (send_leaves remote _)).bind fun zone => ?_
  refine (deleteExisting_leaves remote).bind fun _ => ?_
  exact Steps.forM fun value _ => createRecord_leaves remote crates

theorem World.has_created {a : Answer} (hanswer : remote.answer (.createRecord zone name content :: w.log) = some a)
    (hsuccess : isSuccess a.status = true) : (w.created remote zone name content).dns.Has name content := by
  have hcreated : (w.created remote zone name content).dns = w.dns.create zone name content := by
    unfold World.created
    dsimp only [World.call]
    rw [hanswer, Option.any_some, hsuccess, Bool.true_or]
    rfl
  rw [hcreated]
  exact ⟨_, List.mem_cons_self, rfl, rfl⟩

theorem createRecord_has (h : createRecord remote crates zone name content w = (.ok (), w')) :
    w'.dns.Has name content := by
  obtain ⟨_, _, hcall, hrest⟩ := bind_eq_ok.mp h
  cases hcall
  obtain ⟨_, _, hread, hrest⟩ := bind_eq_ok.mp hrest
  cases hread
  obtain ⟨resp, v, hresp, hrest⟩ := bind_eq_ok.mp hrest
  obtain ⟨hanswer, hv⟩ := orFail_eq_ok.mp hresp
  dsimp only at hanswer hv
  rw [World.created_log] at hanswer
  split at hrest
  · next hsuccess =>
    cases hrest
    rw [← hv]
    exact World.has_created remote hanswer hsuccess
  · cases hrest

theorem createAll_has {values : List Str} (h : values.forM (createRecord remote crates zone name) w = (.ok (), w')) :
    ∀ value ∈ values, w'.dns.Has name value := by
  induction values generalizing w with
  | nil => exact nofun
  | cons v values ih =>
    obtain ⟨_, u, hfirst, hrest⟩ := bind_eq_ok.mp h
    intro value hvalue
    rcases List.mem_cons.mp hvalue with rfl | hvalue
    · have hleaves : Leaves (·.name = name) u (values.forM (createRecord remote crates zone name) u).2 :=
        Steps.forM (fun value _ => createRecord_leaves remote crates) u
      rw [hrest] at hleaves
      exact (createRecord_has remote crates hfirst).leaves hleaves
    · exact ih hrest value hvalue

/-- A call that succeeds has set all its values. -/
theorem setCloudflareTxt_has {domain : Str} {values : List Str}
    (h : setCloudflareTxt remote crates domain values w = (.ok (), w')) :
    ∀ value ∈ values, w'.dns.Has (challengeName domain) value := by
  obtain ⟨zone, _, _, h⟩ := bind_eq_ok.mp h
  obtain ⟨_, _, _, h⟩ := bind_eq_ok.mp h
  exact createAll_has remote crates h

/-! ## All names -/

theorem challengeName_inj {d e : Str} (h : challengeName d = challengeName e) : d = e :=
  List.append_cancel_left h

variable {entries : List (Sigma fun _ : Str => List Str)} {domain : Str}

theorem setAll_leaves (h : domain ∉ entries.map (·.1)) :
    Steps (Leaves (·.name = challengeName domain)) (setAll remote crates entries) := by
  refine Steps.forM fun e he => (setCloudflareTxt_leaves remote crates e.1 e.2).mono fun w w' hleaves r hr hname => ?_
  refine hleaves r hr fun hother => h (List.mem_map.mpr ⟨e, he, ?_⟩)
  exact challengeName_inj (hother.symm.trans hname)

theorem setAll_has (hkeys : (entries.map (·.1)).Nodup) (h : setAll remote crates entries w = (.ok (), w')) :
    ∀ e ∈ entries, ∀ value ∈ e.2, w'.dns.Has (challengeName e.1) value := by
  induction entries generalizing w with
  | nil => exact nofun
  | cons e entries ih =>
    obtain ⟨hnew, hkeys⟩ := List.nodup_cons.mp hkeys
    obtain ⟨_, u, hfirst, hrest⟩ := bind_eq_ok.mp h
    intro e' he' value hvalue
    rcases List.mem_cons.mp he' with rfl | he'
    · have hleaves := setAll_leaves remote crates hnew u
      rw [show setAll remote crates entries u = _ from hrest] at hleaves
      exact (setCloudflareTxt_has remote crates hfirst value hvalue).leaves hleaves
    · exact ih hkeys hrest e' he' value hvalue

/-! ## The phase -/

variable {thumbprint : Str} {urls : List Str} {c c' : Collected}

theorem collectOne_eq_ok {url : Str} (h : collectOne remote crates thumbprint c url w = (.ok c', w')) :
    ∃ info, c' = c.push info := by
  obtain ⟨_, _, _, h⟩ := bind_eq_ok.mp h
  obtain ⟨_, _, _, h⟩ := bind_eq_ok.mp h
  obtain ⟨info, _, _, h⟩ := bind_eq_ok.mp h
  cases h
  exact ⟨info, rfl⟩

/-- Each authorization is collected. -/
theorem length_collect (h : collect remote crates thumbprint urls w = (.ok c', w')) :
    c'.challenges.length = urls.length := by
  have hfold : ∀ {c : Collected} {w : World}, urls.foldlM (collectOne remote crates thumbprint) c w = (.ok c', w') →
      c'.challenges.length = c.challenges.length + urls.length := by
    clear h
    induction urls with
    | nil =>
      intro c w h
      cases h
      rfl
    | cons url urls ih =>
      intro c w h
      obtain ⟨c₁, w₁, hfirst, hrest⟩ := bind_eq_ok.mp h
      obtain ⟨info, rfl⟩ := collectOne_eq_ok remote crates hfirst
      rw [ih hrest, Collected.push, List.length_append, List.length_singleton, List.length_cons]
      omega
  exact (hfold h).trans (Nat.zero_add _)

/-- A name is the key of one entry, in whatever order. -/
theorem Iteration.nodup_keys (iter : Iteration) (m : TxtPerDns) : ((iter.entries m).map (·.1)).Nodup :=
  ((iter.perm m).map _).nodup_iff.mpr m.nodupKeys

theorem Iteration.mem_entries (iter : Iteration) {m : TxtPerDns} {values : List Str} (h : m.lookup name = some values) :
    ⟨name, values⟩ ∈ iter.entries m :=
  (iter.perm m).mem_iff.mpr (AList.mem_lookup_iff.mp h)

/-- What a challenge needs is there once the call for its name succeeded. -/
theorem setAll_stands {iter : Iteration} {done todo : List (Sigma fun _ : Str => List Str)} {w₁ w₂ : World}
    (hsplit : iter.entries c.txtPerDns = done ++ todo) (hset : setAll remote crates done w₁ = (.ok (), w₂))
    {ch : ChallengeInfo} (hch : ch ∈ c.challenges) (hdone : ch.dnsName ∈ done.map (·.1)) :
    w₂.dns.Has (challengeName ch.dnsName) ch.txtValue := by
  have hkeys : ((done ++ todo).map (·.1)).Nodup := hsplit ▸ iter.nodup_keys c.txtPerDns
  obtain ⟨values, hvalues, hmem⟩ := c.grouped ch hch
  have hentry : ⟨ch.dnsName, values⟩ ∈ done ++ todo := hsplit ▸ iter.mem_entries hvalues
  obtain ⟨e, he, hname⟩ := List.mem_map.mp hdone
  -- The entry found in `done` is the challenge's own.
  have heq : e = ⟨ch.dnsName, values⟩ :=
    List.inj_on_of_nodup_map hkeys (List.mem_append_left _ he) hentry hname
  rw [List.map_append] at hkeys
  exact setAll_has remote crates hkeys.of_append_left hset ⟨ch.dnsName, values⟩ (heq ▸ he) ch.txtValue hmem

/-! ## An order for a name and its wildcard -/

/-- The wildcard's authorization names the base domain as well. -/
def sampleAuthorization (url token : String) : Json := .object [
  ("identifier".toList, .object [("type".toList, .string "dns".toList), ("value".toList, .string "a.io".toList)]),
  ("challenges".toList, .array [.object [("type".toList, .string "dns-01".toList), ("url".toList, .string url.toList),
    ("token".toList, .string token.toList)]])]

def sampleOrder : Json := .object [
  ("finalize".toList, .string "f".toList),
  ("authorizations".toList, .array [.string "a1".toList, .string "a2".toList])]

def samplePending : Json := .object [("status".toList, .string "pending".toList)]

def sampleZones : Json := .object [("result".toList, .array [.object [("id".toList, .string "z".toList)]])]

def sampleAnswer (body : Json) : Answer where
  status := 200
  headers := [(replayNonce, [110]), ("location".toList, [111])]
  body := ⟨[Text.bytes body.plain], false⟩

/-- Every call is carried out, and the order stays pending. -/
def sampleRemote : Remote where
  answer
    | .signed _ (.newOrder _) :: _ => some (sampleAnswer sampleOrder)
    | .signed _ (.authorization url) :: _ =>
      some (sampleAnswer (if url = "a1".toList then sampleAuthorization "c1" "t1" else sampleAuthorization "c2" "t2"))
    | .signed _ (.order _) :: _ => some (sampleAnswer samplePending)
    | .zones _ :: _ => some (sampleAnswer sampleZones)
    | _ => some (sampleAnswer .null)
  shows _ _ := true
  applies _ := true

def sampleCrates : AcmeCrates where
  parse bytes := [samplePending, sampleOrder, sampleAuthorization "c1" "t1", sampleAuthorization "c2" "t2",
    sampleZones, .null].find? fun v => Text.bytes v.plain == bytes
  display := Json.plain
  text _ bytes := bytes.map fun b => Char.ofNat b.toNat
  digest s := s
  csr _ := some (['r'], ['k'])

def Iteration.sorted : Iteration where
  entries m := m.entries
  perm _ := List.Perm.refl _

def sampleWorld : World where
  log := []
  nonce := []
  dns := ⟨[⟨0, ['z'], challengeName "a.io".toList, "old".toList⟩], 1, by simp, by simp⟩

/-- **Every challenge's value stays**: when the phase succeeds, the record it
needs is at its name, and it has been there since the call for the name. -/
theorem txt_values_stand {iter : Iteration} {w₁ w₂ : World}
    (hcollect : collect remote crates thumbprint urls w = (.ok c, w₁))
    (hset : setAll remote crates (iter.entries c.txtPerDns) w₁ = (.ok (), w₂)) :
    c.challenges.length = urls.length ∧
      (∀ ch ∈ c.challenges, w₂.dns.Has (challengeName ch.dnsName) ch.txtValue) ∧
      ∀ done todo v, iter.entries c.txtPerDns = done ++ todo → setAll remote crates done w₁ = (.ok (), v) →
        ∀ ch ∈ c.challenges, ch.dnsName ∈ done.map (·.1) → v.dns.Has (challengeName ch.dnsName) ch.txtValue := by
  refine ⟨length_collect remote crates hcollect, fun ch hch => ?_, fun done todo v hsplit hdone ch hch hname => ?_⟩
  · obtain ⟨values, hvalues, -⟩ := c.grouped ch hch
    have hname := List.mem_map_of_mem (f := (·.1)) (iter.mem_entries hvalues)
    exact setAll_stands remote crates (List.append_nil _).symm hset hch hname
  · exact setAll_stands remote crates hsplit hdone hch hname

theorem both_values_stand : ∃ c w₁ w₂,
    collect sampleRemote sampleCrates ['p'] ["a1".toList, "a2".toList] sampleWorld = (.ok c, w₁) ∧
      setAll sampleRemote sampleCrates (Iteration.sorted.entries c.txtPerDns) w₁ = (.ok (), w₂) ∧
      c.challenges.length = 2 ∧ ∀ ch ∈ c.challenges, w₂.dns.Has (challengeName ch.dnsName) ch.txtValue := by
  have hrun : ((collect sampleRemote sampleCrates ['p'] ["a1".toList, "a2".toList] >>= fun c =>
      setAll sampleRemote sampleCrates (Iteration.sorted.entries c.txtPerDns)) sampleWorld).1.isOk = true := by
    decide +kernel
  obtain ⟨_, hok⟩ := exists_of_isOk hrun
  obtain ⟨c, w₁, hcollect, hset⟩ := bind_eq_ok.mp (Prod.ext hok rfl)
  obtain ⟨hlength, hstand, -⟩ := txt_values_stand sampleRemote sampleCrates hcollect hset
  exact ⟨c, w₁, _, hcollect, hset, hlength, hstand⟩

end NekoGuard.Acme
