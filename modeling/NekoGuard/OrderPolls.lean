/-
Polling the order. The loop ends when a poll reports the order ready, and
also when its attempts are over; `issue_cert` finalizes the order after
either (`finalized_when_ready_iff`).
-/
import NekoGuard.TxtRecords

namespace NekoGuard.Acme

open Lib Effect

section
variable (remote : Remote) (crates : AcmeCrates)

/-! ## What the CA answers -/

/-- The nonce the CA grants after those calls. -/
def granted (log : List Call) : Option Str :=
  (remote.answer (.newNonce :: log)).bind fun a => Http.getStr a.headers replayNonce

/-- The status the answer to the newest call reports. -/
def stateAt (log : List Call) : Option Str := (remote.answer log).bind fun a => (json crates a).map stateOf

/-- The status the newest poll of the order reports. -/
def lastState : List Call → Option Str
  | [] => none
  | .signed nonce (.order url) :: log => stateAt remote crates (.signed nonce (.order url) :: log)
  | _ :: log => lastState log

/-- The calls there are after so many polls, when none of them settles the
order. -/
def undecided (url : Str) : Nat → List Call → Option (List Call)
  | 0, log => some log
  | n + 1, log => do
    let nonce ← granted remote log
    let log := .signed nonce (.order url) :: .newNonce :: log
    let state ← stateAt remote crates log
    if isReady state || isInvalid state then none else undecided url n log

def Call.IsFinalize : Call → Prop
  | .signed _ (.finalize _ _) => True
  | _ => False

/-- An order is finalized once the last poll has found it ready. -/
def ReadyBefore (c : Call) (before : List Call) : Prop :=
  c.IsFinalize → ∃ state, lastState remote crates before = some state ∧ isReady state = true

end

variable {remote : Remote} {crates : AcmeCrates} {w w' : World} {ask : Ask} {a : Answer} {nonce : Str}

/-! ## One request -/

theorem getNonce_of_granted (h : granted remote w.log = some nonce) :
    getNonce remote w = (.ok (), { w.call .newNonce with nonce }) := by
  obtain ⟨a, ha, hheader⟩ := Option.bind_eq_some_iff.mp h
  obtain ⟨value, hvalue, hstr⟩ := Option.bind_eq_some_iff.mp hheader
  rw [getNonce, bind_of_ok ((send_eq_ok remote).mpr ⟨ha, rfl⟩), bind_of_ok (orFail_eq_ok.mpr ⟨hvalue, rfl⟩),
    bind_of_ok (orFail_eq_ok.mpr ⟨hstr, rfl⟩)]
  rfl

theorem getNonce_of_refused (h : granted remote w.log = none) :
    ∃ e, getNonce remote w = (.error e, w.call .newNonce) := by
  rw [getNonce]
  rcases ha : remote.answer (.newNonce :: w.log) with _ | a
  · exact ⟨_, bind_of_error (send_of_none remote ha)⟩
  · rw [bind_of_ok ((send_eq_ok remote).mpr ⟨ha, rfl⟩)]
    simp only [granted, ha, Option.bind_some, Http.getStr] at h
    rcases hvalue : Http.get a.headers replayNonce with _ | value
    · exact ⟨_, rfl⟩
    · rw [hvalue, Option.bind_some] at h
      rw [bind_of_ok (orFail_eq_ok.mpr ⟨rfl, rfl⟩), h]
      exact ⟨_, rfl⟩

/-- What a request comes to, when the CA grants a nonce for it. -/
theorem postJws_of_granted (ask : Ask) (h : granted remote w.log = some nonce) :
    ∃ v, postJws remote ask w = ((remote.answer (.signed nonce ask :: .newNonce :: w.log)).elim (.error .http) .ok, v) ∧
      v.log = .signed nonce ask :: .newNonce :: w.log := by
  rw [postJws, bind_of_ok (getNonce_of_granted h), bind_of_ok read_apply]
  rcases ha : remote.answer (.signed nonce ask :: .newNonce :: w.log) with _ | a
  · exact ⟨_, bind_of_error (send_of_none remote ha), rfl⟩
  · rw [bind_of_ok ((send_eq_ok remote).mpr ⟨ha, rfl⟩)]
    exact ⟨_, rfl, rfl⟩

theorem postJws_of_refused (ask : Ask) (h : granted remote w.log = none) :
    ∃ e v, postJws remote ask w = (.error e, v) ∧ v.log = .newNonce :: w.log := by
  obtain ⟨e, he⟩ := getNonce_of_refused h
  exact ⟨e, _, bind_of_error he, rfl⟩

/-! ## What is sent -/

variable {P : Call → List Call → Prop}

theorem send_writes {c : Call} (h : ∀ before, P c before) : Steps (Writes World.log P) (send remote c) := by
  intro w
  rw [send_world]
  exact Writes.of_cons rfl (h _)

/-- A request costs a nonce. -/
theorem postJws_writes_at (hnonce : P .newNonce w.log) (hask : ∀ n, P (.signed n ask) (.newNonce :: w.log)) :
    Writes World.log P w (postJws remote ask w).2 := by
  have hfirst : Writes World.log P w (w.call .newNonce) := Writes.of_cons rfl hnonce
  rcases h : granted remote w.log with _ | n
  · obtain ⟨e, v, hpost, hlog⟩ := postJws_of_refused ask h
    rw [hpost]
    exact Writes.of_cons hlog hnonce
  · obtain ⟨v, hpost, hlog⟩ := postJws_of_granted ask h
    rw [hpost]
    exact trans_of (Writes World.log P) hfirst (Writes.of_cons hlog (hask n))

theorem postJws_writes (hnonce : ∀ before, P .newNonce before) (hask : ∀ n before, P (.signed n ask) before) :
    Steps (Writes World.log P) (postJws remote ask) :=
  fun _ => postJws_writes_at (hnonce _) fun n => hask n _

/-- No call of these is the finalize request. -/
abbrev Unfinalized : World → World → Prop := Writes World.log fun c _ => ¬c.IsFinalize

theorem postJws_unfinalized (h : ∀ n, ¬(Call.signed n ask).IsFinalize) : Steps Unfinalized (postJws remote ask) :=
  postJws_writes (fun _ => id) fun n _ => h n

variable (remote crates)

theorem challengeInfo_unfinalized (thumbprint : Str) (auth : Json) :
    Steps Unfinalized (challengeInfo crates thumbprint auth) := by
  refine (Steps.orFail _ _).bind fun challenges => ?_
  refine (Steps.orFail _ _).bind fun ch => ?_
  refine (Steps.orFail _ _).bind fun token => ?_
  exact (Steps.orFail _ _).bind fun url => Steps.pure _

theorem collect_unfinalized (thumbprint : Str) (urls : List Str) :
    Steps Unfinalized (collect remote crates thumbprint urls) := by
  refine Steps.foldlM (fun c url => ?_) Collected.empty
  refine (postJws_unfinalized fun _ => id).bind fun resp => ?_
  refine (Steps.orFail _ _).bind fun auth => ?_
  exact (challengeInfo_unfinalized crates thumbprint auth).bind fun info => Steps.pure _

theorem setCloudflareTxt_unfinalized (domain : Str) (values : List Str) :
    Steps Unfinalized (setCloudflareTxt remote crates domain values) := by
  have hdelete : ∀ zone name, Steps Unfinalized (deleteExisting remote zone name) := by
    intro zone name
    refine Steps.bind (fun w => Writes.of_cons rfl id) fun ids => Steps.forM fun id _ w => ?_
    exact Writes.of_cons (World.deleted_log remote w zone id) fun h => h
  refine (resolveZoneId_steps remote crates (send_writes fun _ => id)).bind fun zone => ?_
  refine (hdelete zone _).bind fun _ => Steps.forM fun value _ => ?_
  exact createRecord_steps remote crates fun w => Writes.of_cons (World.created_log remote w _ _ _) id

theorem prepare_unfinalized (thumbprint : Str) (iter : Iteration) (domains : List Str) :
    Steps Unfinalized (prepare remote crates thumbprint iter domains) := by
  refine (postJws_unfinalized fun _ => id).bind fun resp => ?_
  refine (Steps.orFail _ _).bind fun order => ?_
  refine (Steps.orFail _ _).bind fun finalizeUrl => ?_
  refine (Steps.orFail _ _).bind fun auths => ?_
  refine (collect_unfinalized remote crates thumbprint _).bind fun c => ?_
  refine (Steps.forM fun e _ => setCloudflareTxt_unfinalized remote crates e.1 e.2).bind fun _ => ?_
  refine (Steps.forM fun ch _ => ?_).bind fun _ => Steps.pure _
  exact (postJws_unfinalized fun _ => id).bind fun _ => Steps.pure _

theorem pollOrder_unfinalized (url : Str) (n : Nat) : Steps Unfinalized (pollOrder remote crates url n) := by
  induction n with
  | zero => exact Steps.pure _
  | succ n ih =>
    refine (postJws_unfinalized fun _ => id).bind fun resp => ?_
    refine (Steps.orFail _ _).bind fun status => ?_
    split
    · exact Steps.pure _
    · split
      · exact Steps.fail _
      · exact ih

theorem download_unfinalized (keyPem : Str) (a : Answer) : Steps Unfinalized (download remote crates keyPem a) := by
  have hpoll : ∀ url n, Steps Unfinalized (pollCertificate remote crates url keyPem n) := by
    intro url n
    induction n with
    | zero => exact Steps.fail _
    | succ n ih =>
      refine (postJws_unfinalized fun _ => id).bind fun resp => ?_
      split
      · exact (Steps.orFail _ _).bind fun certPem => Steps.pure _
      · exact ih
  refine (Steps.orFail _ _).bind fun body => ?_
  refine (Steps.orFail _ _).bind fun data => ?_
  exact (Steps.orFail _ _).bind fun url => hpoll url _

/-! ## The loop -/

variable {remote crates} {url : Str} {n : Nat} {log log' : List Call}

theorem lastState_nonce : lastState remote crates (.newNonce :: log) = lastState remote crates log := rfl

/-- One attempt, by what the CA answers. -/
theorem pollOrder_succ (crates : AcmeCrates) (url : Str) (n : Nat) (hgranted : granted remote w.log = some nonce) :
    ∃ v, v.log = .signed nonce (.order url) :: .newNonce :: w.log ∧
      match stateAt remote crates v.log with
      | none => ∃ e, pollOrder remote crates url (n + 1) w = (.error e, v)
      | some state =>
        if isReady state then pollOrder remote crates url (n + 1) w = (.ok (), v)
        else if isInvalid state then ∃ e, pollOrder remote crates url (n + 1) w = (.error e, v)
        else pollOrder remote crates url (n + 1) w = pollOrder remote crates url n v := by
  obtain ⟨v, hpost, hlog⟩ := postJws_of_granted (.order url) hgranted
  refine ⟨v, hlog, ?_⟩
  rw [pollOrder, stateAt, hlog]
  rcases ha : remote.answer (.signed nonce (.order url) :: .newNonce :: w.log) with _ | a
  · rw [ha] at hpost
    exact ⟨_, bind_of_error hpost⟩
  · rw [ha] at hpost
    rw [bind_of_ok hpost, Option.bind_some]
    rcases hstatus : json crates a with _ | status
    · exact ⟨_, rfl⟩
    · rw [bind_of_ok (orFail_eq_ok.mpr ⟨rfl, rfl⟩), Option.map_some]
      dsimp only
      split
      · rfl
      · split
        · exact ⟨_, rfl⟩
        · rfl

/-- While no poll settles the order the loop goes on, and then it is over. -/
theorem pollOrder_of_undecided (h : undecided remote crates url n w.log = some log) :
    ∃ v, pollOrder remote crates url n w = (.ok (), v) ∧ v.log = log := by
  induction n generalizing w with
  | zero => exact ⟨w, rfl, Option.some.inj h⟩
  | succ n ih =>
    obtain ⟨nonce, hgranted, h⟩ := Option.bind_eq_some_iff.mp h
    obtain ⟨state, hstate, h⟩ := Option.bind_eq_some_iff.mp h
    obtain ⟨v, hlog, hpoll⟩ := pollOrder_succ crates url n hgranted
    rw [← hlog] at hstate h
    simp only [hstate] at hpoll
    split at h
    · cases h
    · next hopen =>
      simp only [Bool.or_eq_true, not_or] at hopen
      rw [if_neg hopen.1, if_neg hopen.2] at hpoll
      rw [hpoll]
      exact ih h

/-- When some poll settles the order, the loop succeeds on a ready one only. -/
theorem pollOrder_of_decided (h : undecided remote crates url n w.log = none)
    (hok : pollOrder remote crates url n w = (.ok (), w')) :
    ∃ state, lastState remote crates w'.log = some state ∧ isReady state = true := by
  induction n generalizing w with
  | zero => cases h
  | succ n ih =>
    rcases hgranted : granted remote w.log with _ | nonce
    · obtain ⟨e, v, hpost, -⟩ := postJws_of_refused (.order url) hgranted
      rw [pollOrder, bind_of_error hpost] at hok
      cases hok
    · obtain ⟨v, hlog, hpoll⟩ := pollOrder_succ crates url n hgranted
      simp only [undecided, hgranted, Option.bind_eq_bind, Option.bind_some, ← hlog] at h
      rcases hstate : stateAt remote crates v.log with _ | state
      · rw [hstate] at hpoll
        obtain ⟨e, he⟩ := hpoll
        rw [he] at hok
        cases hok
      · rw [hstate] at hpoll h
        dsimp only at hpoll
        split at hpoll
        · next hready =>
          rw [hpoll] at hok
          cases hok
          refine ⟨state, ?_, hready⟩
          rw [hlog] at hstate ⊢
          exact hstate
        · next hready =>
          split at hpoll
          · obtain ⟨e, he⟩ := hpoll
            rw [he] at hok
            cases hok
          · next hinvalid =>
            rw [Option.bind_some, if_neg (by simp [hready, hinvalid])] at h
            exact ih h (hpoll ▸ hok)

/-- The last of the polls that settle nothing has not found the order ready. -/
theorem lastState_of_undecided (h : undecided remote crates url (n + 1) log = some log') :
    ∃ state, lastState remote crates log' = some state ∧ isReady state = false := by
  induction n generalizing log with
  | zero =>
    obtain ⟨nonce, -, h⟩ := Option.bind_eq_some_iff.mp h
    obtain ⟨state, hstate, h⟩ := Option.bind_eq_some_iff.mp h
    split at h
    · cases h
    · next hopen =>
      cases h
      simp only [Bool.or_eq_true, not_or, Bool.not_eq_true] at hopen
      exact ⟨state, hstate, hopen.1⟩
  | succ n ih =>
    obtain ⟨nonce, -, h⟩ := Option.bind_eq_some_iff.mp h
    obtain ⟨state, -, h⟩ := Option.bind_eq_some_iff.mp h
    split at h
    · cases h
    · exact ih h

/-! ## `issue_cert` -/

variable {thumbprint primary csr keyPem : Str} {more domains : List Str} {iter : Iteration} {p : Placed}

/-- After undecided polls the order is finalized all the same. -/
theorem finish_of_undecided (hpolls : undecided remote crates p.orderUrl attempts w.log = some log)
    (hcsr : crates.csr domains = some (csr, keyPem)) (hgranted : granted remote log = some nonce) :
    .signed nonce (.finalize p.finalizeUrl csr) :: .newNonce :: log <:+ (finish remote crates domains p w).2.log := by
  obtain ⟨v, hpoll, rfl⟩ := pollOrder_of_undecided hpolls
  obtain ⟨u, hpost, hlog⟩ := postJws_of_granted (.finalize p.finalizeUrl csr) hgranted
  rw [finish, bind_of_ok hpoll, bind_of_ok (orFail_eq_ok.mpr ⟨hcsr, rfl⟩), ← hlog]
  have hafter := Steps.after (x := postJws remote (.finalize p.finalizeUrl csr)) (s := v)
    fun resp => download_unfinalized remote crates keyPem resp
  rw [hpost] at hafter
  exact hafter.1

/-- Without a CSR or a nonce they are an error. -/
theorem finish_of_refused (hpolls : undecided remote crates p.orderUrl attempts w.log = some log)
    (hrefused : crates.csr domains = none ∨ granted remote log = none) :
    ∃ e v, finish remote crates domains p w = (.error e, v) ∧ Unfinalized w v := by
  obtain ⟨v, hpoll, rfl⟩ := pollOrder_of_undecided hpolls
  have hbefore : Unfinalized w v := by
    have hsteps := pollOrder_unfinalized remote crates p.orderUrl attempts w
    rwa [hpoll] at hsteps
  rw [finish, bind_of_ok hpoll]
  rcases hcsr : crates.csr domains with _ | ⟨csr, keyPem⟩
  · exact ⟨_, v, rfl, hbefore⟩
  · obtain ⟨e, u, hpost, hlog⟩ := postJws_of_refused (.finalize p.finalizeUrl csr)
      (hrefused.resolve_left (by simp [hcsr]))
    rw [bind_of_ok (orFail_eq_ok.mpr ⟨rfl, rfl⟩)]
    exact ⟨e, u, bind_of_error hpost, trans_of (Writes World.log _) hbefore (Writes.of_cons hlog id)⟩

theorem Unfinalized.readyBefore (h : Unfinalized w w') : Writes World.log (ReadyBefore remote crates) w w' :=
  Writes.mono (fun _ _ hnot hfinalize => absurd hfinalize hnot) h

/-- When some poll settles the order, it is finalized only once ready. -/
theorem finish_of_decided (hpolls : undecided remote crates p.orderUrl attempts w.log = none) :
    Writes World.log (ReadyBefore remote crates) w (finish remote crates domains p w).2 := by
  have hbefore : Writes World.log (ReadyBefore remote crates) w (pollOrder remote crates p.orderUrl attempts w).2 :=
    (pollOrder_unfinalized remote crates p.orderUrl attempts w).readyBefore
  rw [finish]
  rcases hpoll : pollOrder remote crates p.orderUrl attempts w with ⟨e | _, v⟩
  · rw [hpoll] at hbefore
    rw [bind_of_error hpoll]
    exact hbefore
  · rw [hpoll] at hbefore
    obtain ⟨state, hstate, hready⟩ := pollOrder_of_decided hpolls hpoll
    rw [bind_of_ok hpoll]
    rcases hcsr : crates.csr domains with _ | ⟨csr, keyPem⟩
    · exact hbefore
    · rw [bind_of_ok (orFail_eq_ok.mpr ⟨rfl, rfl⟩)]
      have hfinalize : Writes World.log (ReadyBefore remote crates) v
          (postJws remote (.finalize p.finalizeUrl csr) v).2 :=
        postJws_writes_at nofun fun n _ => ⟨state, hstate, hready⟩
      have hafter := Steps.after (x := postJws remote (.finalize p.finalizeUrl csr)) (s := v)
        fun resp => download_unfinalized remote crates keyPem resp
      exact trans_of (Writes World.log _) hbefore (trans_of (Writes World.log _) hfinalize hafter.readyBefore)

/-- An order is finalized only when the last poll has found it ready, and one
that no poll has settled is an error and not finalized. -/
structure ReadyFirst (remote : Remote) (crates : AcmeCrates) (thumbprint : Str) (iter : Iteration) (primary : Str)
    (more : List Str) (w : World) : Prop where
  ready : Writes World.log (ReadyBefore remote crates) w (issueCert remote crates thumbprint iter primary more w).2
  exhausted : ∀ p v log, prepare remote crates thumbprint iter (primary :: more) w = (.ok p, v) →
    undecided remote crates p.orderUrl attempts v.log = some log →
    ∃ e u, issueCert remote crates thumbprint iter primary more w = (.error e, u) ∧ Unfinalized w u

/-- Undecided polls end in the finalize request, if it can be made. -/
theorem not_readyFirst {v : World} (hprepare : prepare remote crates thumbprint iter (primary :: more) w = (.ok p, v))
    (hpolls : undecided remote crates p.orderUrl attempts v.log = some log)
    (hcsr : crates.csr (primary :: more) = some (csr, keyPem)) (hgranted : granted remote log = some nonce) :
    ¬ReadyFirst remote crates thumbprint iter primary more w := by
  intro hfirst
  have hsent := finish_of_undecided hpolls hcsr hgranted
  have hfinish : finish remote crates (primary :: more) p v = issueCert remote crates thumbprint iter primary more w :=
    (bind_of_ok hprepare).symm
  rw [hfinish] at hsent
  have hgrown : Unfinalized w v := by
    have hsteps := prepare_unfinalized remote crates thumbprint iter (primary :: more) w
    rwa [hprepare] at hsteps
  obtain ⟨u, hpoll, rfl⟩ := pollOrder_of_undecided hpolls
  have hpolled : Unfinalized v u := by
    have hsteps := pollOrder_unfinalized remote crates p.orderUrl attempts v
    rwa [hpoll] at hsteps
  have hlength : w.log.length ≤ (Call.newNonce :: u.log).length :=
    (hgrown.1.trans hpolled.1).length_le.trans (Nat.le_succ _)
  obtain ⟨state, hstate, hready⟩ := hfirst.ready.2 _ _ hsent hlength trivial
  obtain ⟨state', hstate', hopen⟩ := lastState_of_undecided hpolls
  rw [lastState_nonce, hstate', Option.some_inj] at hstate
  rw [← hstate, hopen] at hready
  cases hready

/-- **When orders are finalized ready**: whatever the CA answers, `issue_cert`
finalizes the order after a ready poll only, and fails when all attempts have
left it undecided, except that an order undecided at the last attempt is
finalized whenever the CSR can be made and the CA grants one more nonce. -/
theorem finalized_when_ready_iff (remote : Remote) (crates : AcmeCrates) (thumbprint : Str) (iter : Iteration)
    (primary : Str) (more : List Str) (w : World) :
    ReadyFirst remote crates thumbprint iter primary more w ↔
      ∀ p v log, prepare remote crates thumbprint iter (primary :: more) w = (.ok p, v) →
        undecided remote crates p.orderUrl attempts v.log = some log →
        crates.csr (primary :: more) = none ∨ granted remote log = none := by
  constructor
  · intro hfirst p v log hprepare hpolls
    by_contra hsendable
    obtain ⟨hcsr, hgranted⟩ := not_or.mp hsendable
    obtain ⟨⟨csr, keyPem⟩, hcsr⟩ := Option.ne_none_iff_exists'.mp hcsr
    obtain ⟨nonce, hgranted⟩ := Option.ne_none_iff_exists'.mp hgranted
    exact not_readyFirst hprepare hpolls hcsr hgranted hfirst
  · intro hrefused
    have hbefore := prepare_unfinalized remote crates thumbprint iter (primary :: more) w
    rcases hprepare : prepare remote crates thumbprint iter (primary :: more) w with ⟨e | p, v⟩
    · rw [hprepare] at hbefore
      have hissue : issueCert remote crates thumbprint iter primary more w = (.error e, v) := bind_of_error hprepare
      exact ⟨hissue ▸ hbefore.readyBefore, fun p' v' log h => by rw [hprepare] at h; cases h⟩
    · rw [hprepare] at hbefore
      have hissue : issueCert remote crates thumbprint iter primary more w =
          finish remote crates (primary :: more) p v := bind_of_ok hprepare
      rcases hpolls : undecided remote crates p.orderUrl attempts v.log with _ | log
      · refine ⟨?_, fun p' v' log h hpolls' => ?_⟩
        · rw [hissue]
          exact trans_of (Writes World.log _) hbefore.readyBefore (finish_of_decided hpolls)
        · rw [hprepare] at h
          cases h
          rw [hpolls] at hpolls'
          cases hpolls'
      · obtain ⟨e, u, hfinish, hwritten⟩ := finish_of_refused hpolls (hrefused p v log hprepare hpolls)
        have hall : Unfinalized w u := trans_of (Writes World.log _) hbefore hwritten
        rw [hfinish] at hissue
        exact ⟨hissue ▸ hall.readyBefore, fun _ _ _ _ _ => ⟨e, u, hissue, hall⟩⟩

theorem sample_granted (log : List Call) : granted sampleRemote log = some ['n'] := by
  show Http.getStr (sampleAnswer .null).headers replayNonce = some ['n']
  decide

/-- The sample order is pending at every poll. -/
theorem sample_undecided (url : Str) (n : Nat) (log : List Call) :
    ∃ log', undecided sampleRemote sampleCrates url n log = some log' := by
  induction n generalizing log with
  | zero => exact ⟨log, rfl⟩
  | succ n ih =>
    have hstate : stateAt sampleRemote sampleCrates (.signed ['n'] (.order url) :: .newNonce :: log) =
        some "pending".toList := by
      show (json sampleCrates (sampleAnswer samplePending)).map stateOf = some "pending".toList
      decide +kernel
    have hopen : (isReady "pending".toList || isInvalid "pending".toList) = false := by decide
    obtain ⟨log', hlog'⟩ := ih (.signed ['n'] (.order url) :: .newNonce :: log)
    refine ⟨log', ?_⟩
    simp only [undecided, sample_granted, hstate, hopen, Option.bind_eq_bind, Option.bind_some]
    exact hlog'

/-- **A pending order is finalized.** -/
theorem pending_finalized : ¬ReadyFirst sampleRemote sampleCrates ['p'] Iteration.sorted "a.io".toList
    ["*.a.io".toList] sampleWorld := by
  have hrun : (prepare sampleRemote sampleCrates ['p'] Iteration.sorted ["a.io".toList, "*.a.io".toList]
      sampleWorld).1.isOk = true := by decide +kernel
  obtain ⟨p, hok⟩ := exists_of_isOk hrun
  obtain ⟨log, hpolls⟩ := sample_undecided p.orderUrl attempts (prepare sampleRemote sampleCrates ['p'] Iteration.sorted
    ["a.io".toList, "*.a.io".toList] sampleWorld).2.log
  exact not_readyFirst (Prod.ext hok rfl) hpolls rfl (sample_granted log)

end NekoGuard.Acme
