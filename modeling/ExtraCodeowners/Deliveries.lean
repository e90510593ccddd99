import ExtraCodeowners.AuthorityCoverage
import ExtraCodeowners.EpochIntegrity
import ExtraCodeowners.Reconciliation

/-!
# Webhook deliveries take effect once

The record of a delivery is inserted in the transaction that carries out the
delivery, and decides every later copy until it is pruned.
-/

namespace ExtraCodeowners

/-! ## An attempt at accepting a delivery -/

inductive Attempt where
  | answered (answer : DeliveryAcceptance)
  | raised (error : Str)
  | conflicted

/-- One round of the retry loop. The record is looked up in `seen`; the writes
meet the tables of the commit. A key that another transaction took meanwhile
fails the round, which may also happen for a row of another table. -/
def attemptDelivery (now : Time) (delivery_id event : Str) (request : Option DeliveryRequest)
    (seen : Db) (conflict : Bool) (db : Db) : Db × Attempt :=
  match seen.webhook_deliveries.get? delivery_id with
  | some delivery =>
    match replayDelivery event request delivery with
    | .ok answer => (db, .answered answer)
    | .error error => (db, .raised error)
  | none =>
    if conflict || (db.webhook_deliveries.get? delivery_id).isSome then (db, .conflicted)
    else
      match acceptDelivery now delivery_id event request db with
      | .ok (db', answer) => (db', .answered answer)
      | .error error => (db, .raised error)

/-- What the caller gets when its call ends with this round. The guard of an
authority request is released in any case, after the commit, and an error of
the release takes the place of the answer. -/
def deliveryResult (request : Option DeliveryRequest) (release : Except Str Unit) (attempt : Attempt) :
    Except Str DeliveryAcceptance :=
  let result :=
    match attempt with
    | .answered answer => .ok answer
    | .raised error => .error error
    | .conflicted => .error ("could not accept webhook delivery after concurrent inserts" : Str)
  match request, release with
  | some (.authority _), .error error => .error error
  | _, _ => result

/-- The pull request and head a request names. -/
def DeliveryRequest.identity : Option DeliveryRequest →
    Option Nat × Option Repository × Option Nat × Option HeadSha
  | some (.job request) => (some request.installation_id, some request.repository_full_name,
      some request.pull_number, request.head_sha_hint)
  | _ => (none, none, none, none)

/-- The record of a delivery, as far as a copy is compared with it. -/
structure Recorded (delivery_id event : Str) (request : Option DeliveryRequest) (token : Option Nat)
    (db : Db) : Prop where
  found : ∃ delivery, db.webhook_deliveries.get? delivery_id = some delivery ∧ delivery.event = event ∧
    delivery.identity = DeliveryRequest.identity request ∧ delivery.shared_head_generation = token ∧
    (delivery.invalidation_required = true → ∃ job, request = some (.job job))

/-- What an accepted delivery has done besides its record. -/
inductive TookEffect (delivery_id : Str) (db db' : Db) : Option DeliveryRequest → Option Nat → Prop where
  | nothing : db'.evaluation_jobs = db.evaluation_jobs → db'.authority_jobs = db.authority_jobs →
      db'.shared_head_epochs = db.shared_head_epochs → TookEffect delivery_id db db' none none
  | evaluation (request : JobRequest) (head : HeadSha) (id : Nat) (row : EvaluationJob) :
      request.head_sha_hint = some head → AdvancedByOne (request.epochKey head) db db' →
      OnlyRow request db' id row → row.head_sha_hint = some head →
      row.shared_head_generation = db.epochGeneration (request.epochKey head) + 1 →
      row.last_delivery_id = some delivery_id →
      TookEffect delivery_id db db' (some (.job request))
        (some (db.epochGeneration (request.epochKey head) + 1))
  | authority (request : AuthorityRequest) : (∀ n, Taken db' (request.obligation n)) →
      (Judged db request → ∀ n, Accepted db' (request.obligation n)) →
      (request.repository_full_name = none → authorityGeneration request.installation_id db' =
        authorityGeneration request.installation_id db + 1) →
      TookEffect delivery_id db db' (some (.authority request)) none

section
variable {now : Time} {delivery_id event : Str} {request : Option DeliveryRequest} {db db' mid : Db}
  {answer : DeliveryAcceptance}

@[simp] theorem wake_deliveries (request : JobRequest) :
    (wakeAuthorityForInteractive now request db).webhook_deliveries = db.webhook_deliveries := by
  unfold wakeAuthorityForInteractive
  split <;> rfl

@[simp] theorem enqueueInSession_deliveries {request : JobRequest} {d : Option Str} {g : Nat} {pd pw : Bool} :
    (enqueueInSession now request d g pd pw db).webhook_deliveries = db.webhook_deliveries := by
  unfold enqueueInSession
  split
  · rw [wake_deliveries]
  · split
    · rfl
    · rw [wake_deliveries]
      rfl

@[simp] theorem enqueueAuthority_deliveries {request : AuthorityRequest} :
    (enqueueAuthorityInSession now request db).webhook_deliveries = db.webhook_deliveries := by
  unfold enqueueAuthorityInSession
  split <;> rfl

@[simp] theorem enqueueAuthority_epochs {request : AuthorityRequest} :
    (enqueueAuthorityInSession now request db).authority_epochs = db.authority_epochs := by
  unfold enqueueAuthorityInSession
  split <;> rfl

theorem recordDelivery_get? {delivery : WebhookDelivery} (h : db.webhook_deliveries.get? delivery_id = none) :
    (recordDelivery delivery_id delivery db).webhook_deliveries.get? delivery_id = some delivery := by
  simp only [recordDelivery]
  rw [Dict.get?_insertNew h, if_pos rfl]

/-! ## The first acceptance -/

theorem tookEffect_job {request : JobRequest} {head : HeadSha} (hk : Keyed db)
    (hh : request.head_sha_hint = some head) (hj : mid.evaluation_jobs = db.evaluation_jobs)
    (hn : mid.next_evaluation_job = db.next_evaluation_job)
    (he : mid.shared_head_epochs =
      (advanceSharedHeadEpochInSession now request head db).1.shared_head_epochs) :
    TookEffect delivery_id db
      (enqueueInSession now request (some delivery_id) (db.epochGeneration (request.epochKey head) + 1)
        false true mid)
      (some (.job request)) (some (db.epochGeneration (request.epochKey head) + 1)) := by
  have hadv : AdvancedByOne (request.epochKey head) db (enqueueInSession now request (some delivery_id)
      (db.epochGeneration (request.epochKey head) + 1) false true mid) :=
    advancedByOne_advance (enqueueInSession_epochs.trans he)
  by_cases hany : ∃ id row, db.evaluation_jobs.get? id = some row ∧ row.pullKey = request.pullKey
  · obtain ⟨id, row, hrow, hp⟩ := hany
    exact .evaluation request head id _ hh hadv (onlyRow_coalesced hk hrow hp hj) hh rfl rfl
  · push Not at hany
    have hins : enqueueInSession now request (some delivery_id)
        (db.epochGeneration (request.epochKey head) + 1) false true mid =
        wakeAuthorityForInteractive now request (insertEvaluationJob (newJob now request (some delivery_id)
          (db.epochGeneration (request.epochKey head) + 1) mid) mid) := by
      unfold enqueueInSession
      rw [if_neg]
      · simp
      · intro ha
        obtain ⟨id, row, hrow, hp⟩ := Dict.any_eq_true.mp ha
        have hfor : isForRequest request row = true := (Bool.and_eq_true _ _ ▸ hp).1
        exact hany id row (hj ▸ hrow) (by simpa [isForRequest] using hfor)
    rw [hins] at hadv ⊢
    have honly : OnlyRow request (insertEvaluationJob (newJob now request (some delivery_id)
        (db.epochGeneration (request.epochKey head) + 1) mid) mid) _ _ :=
      onlyRow_inserted hk hany rfl hj hn
    refine .evaluation request head db.next_evaluation_job _ hh hadv ⟨?_, honly.pull, ?_⟩ hh rfl rfl
    · rw [wake_evaluation_jobs]
      exact honly.found
    · rw [wake_evaluation_jobs]
      exact honly.only

theorem acceptDelivery_first (hk : Keyed db) (hf : AuthorityFresh db)
    (hnone : db.webhook_deliveries.get? delivery_id = none)
    (hr : acceptDelivery now delivery_id event request db = .ok (db', answer)) :
    answer.accepted = true ∧ Recorded delivery_id event request answer.shared_head_generation db' ∧
      TookEffect delivery_id db db' request answer.shared_head_generation := by
  unfold acceptDelivery at hr
  rw [hnone] at hr
  match request with
  | none =>
    cases hr
    refine ⟨rfl, ⟨_, recordDelivery_get? hnone, rfl, rfl, rfl, fun h => by cases h⟩, .nothing rfl rfl rfl⟩
  | some (.authority request) =>
    simp only at hr
    injection hr with hr
    obtain ⟨hdb, ha⟩ := Prod.mk.inj hr
    subst ha
    rw [← hdb]
    refine ⟨rfl, ⟨⟨event, now, false, none, none, none, none, none, none⟩, ?_, rfl, rfl, rfl,
      fun h => by cases h⟩, .authority request ?_ ?_ ?_⟩
    · rw [enqueueAuthority_deliveries]
      split <;> exact recordDelivery_get? hnone
    · intro n
      refine taken_enqueueAuthority ?_ n
      split <;> exact hf
    · intro hj n
      refine accepted_enqueueAuthority ?_ ?_ n
      · split <;> exact hf
      · split <;> exact hj
    · intro hall
      unfold authorityGeneration
      rw [enqueueAuthority_epochs, if_pos hall]
      simp [bumpAuthorityEpochInSession, recordDelivery, authorityGeneration]
  | some (.job request) =>
    cases hh : request.head_sha_hint with
    | none => simp [hh] at hr
    | some head =>
      simp only [hh] at hr
      injection hr with hr
      obtain ⟨hdb, ha⟩ := Prod.mk.inj hr
      subst ha
      rw [← hdb]
      refine ⟨rfl, ⟨⟨event, now, true, none, some request.installation_id,
        some request.repository_full_name, some request.pull_number, some head,
        some (advanceSharedHeadEpochInSession now request head db).2⟩, ?_, rfl, ?_, rfl,
        fun _ => ⟨request, rfl⟩⟩, ?_⟩
      · rw [enqueueInSession_deliveries]
        exact recordDelivery_get? hnone
      · simp [WebhookDelivery.identity, DeliveryRequest.identity, hh]
      · exact tookEffect_job hk hh rfl rfl rfl

/-! ## Copies of a recorded delivery -/

theorem replayDelivery_recorded {token : Option Nat} {delivery : WebhookDelivery} {event' : Str}
    {request' : Option DeliveryRequest} (he : delivery.event = event)
    (hi : delivery.identity = DeliveryRequest.identity request)
    (ht : delivery.shared_head_generation = token)
    (hreq : delivery.invalidation_required = true → ∃ job, request = some (.job job)) :
    (∀ answer, replayDelivery event' request' delivery = .ok answer → answer = ⟨false, token⟩) ∧
    ∀ job', request' = some (.job job') →
      if event' = event ∧ DeliveryRequest.identity request' = DeliveryRequest.identity request then
        replayDelivery event' request' delivery = .ok ⟨false, token⟩
      else ∃ error, replayDelivery event' request' delivery = .error error := by
  refine ⟨?_, ?_⟩
  · intro answer hr
    unfold replayDelivery at hr
    rw [ht] at hr
    split at hr
    · cases hr
    · split at hr
      · split at hr
        · cases hr; rfl
        · cases hr
      · cases hr; rfl
  · rintro job' rfl
    -- no record of this version is a legacy one
    have hlegacy : ¬(delivery.invalidation_required = true ∧ delivery.identity = (none, none, none, none) ∧
        delivery.shared_head_generation = none) := by
      rintro ⟨hinv, hid, -⟩
      obtain ⟨job, rfl⟩ := hreq hinv
      rw [hi] at hid
      cases hid
    have hsame : delivery.identity = (some job'.installation_id, some job'.repository_full_name,
        some job'.pull_number, job'.head_sha_hint) ↔
        DeliveryRequest.identity (some (.job job')) = DeliveryRequest.identity request := by
      rw [hi]
      exact ⟨Eq.symm, Eq.symm⟩
    by_cases hev : event' = event
    · have hne : ¬delivery.event ≠ event' := not_not.mpr (he.trans hev.symm)
      by_cases hid : DeliveryRequest.identity (some (.job job')) = DeliveryRequest.identity request
      · rw [if_pos ⟨hev, hid⟩]
        unfold replayDelivery
        rw [if_neg hne]
        simp only
        rw [if_pos (Or.inr (hsame.mpr hid)), ht]
      · rw [if_neg fun h => hid h.2]
        unfold replayDelivery
        rw [if_neg hne]
        simp only
        rw [if_neg]
        · exact ⟨_, rfl⟩
        · rintro (h | h)
          · exact hlegacy h
          · exact hid (hsame.mp h)
    · rw [if_neg fun h => hev h.1]
      unfold replayDelivery
      rw [if_pos (by rw [he]; exact Ne.symm hev)]
      exact ⟨_, rfl⟩

theorem acceptDelivery_copy {token : Option Nat} {event' : Str} {request' : Option DeliveryRequest}
    (h : Recorded delivery_id event request token db) :
    (∀ db' answer, acceptDelivery now delivery_id event' request' db = .ok (db', answer) →
      db' = db ∧ answer = ⟨false, token⟩) ∧
    ∀ job', request' = some (.job job') →
      if event' = event ∧ DeliveryRequest.identity request' = DeliveryRequest.identity request then
        acceptDelivery now delivery_id event' request' db = .ok (db, ⟨false, token⟩)
      else ∃ error, acceptDelivery now delivery_id event' request' db = .error error := by
  obtain ⟨delivery, hd, he, hi, ht, hreq⟩ := h.found
  obtain ⟨hok, hjob⟩ := @replayDelivery_recorded event request token delivery event' request' he hi ht hreq
  have hcopy : acceptDelivery now delivery_id event' request' db =
      (replayDelivery event' request' delivery).map (db, ·) := by
    unfold acceptDelivery
    rw [hd]
  rw [hcopy]
  refine ⟨?_, ?_⟩
  · intro db' answer hr
    cases hp : replayDelivery event' request' delivery with
    | error e => simp [hp, Except.map] at hr
    | ok a =>
      simp only [hp, Except.map] at hr
      injection hr with hr
      obtain ⟨rfl, rfl⟩ := Prod.mk.inj hr
      exact ⟨rfl, hok _ hp⟩
  · intro job' hreq'
    have hj := hjob job' hreq'
    split at hj
    · rename_i hsame
      rw [if_pos hsame, hj]
      rfl
    · rename_i hsame
      obtain ⟨error, hj⟩ := hj
      rw [if_neg hsame, hj]
      exact ⟨error, rfl⟩

/-- An attempt that did not see the record of a delivery fails on its key. -/
theorem attemptDelivery_unseen {token : Option Nat} {event' : Str} {request' : Option DeliveryRequest}
    {seen : Db} {conflict : Bool} (h : Recorded delivery_id event request token db)
    (hseen : seen.webhook_deliveries.get? delivery_id = none) :
    attemptDelivery now delivery_id event' request' seen conflict db = (db, .conflicted) := by
  obtain ⟨delivery, hd, -⟩ := h.found
  unfold attemptDelivery
  rw [hseen, hd]
  simp

end

/-! ## The record outlives every call but pruning -/

/-- What no call changes on a record. -/
structure SameRecord (delivery delivery' : WebhookDelivery) : Prop where
  event : delivery'.event = delivery.event
  identity : delivery'.identity = delivery.identity
  token : delivery'.shared_head_generation = delivery.shared_head_generation
  required : delivery'.invalidation_required = delivery.invalidation_required
  received_at : delivery'.received_at = delivery.received_at

theorem SameRecord.refl (delivery : WebhookDelivery) : SameRecord delivery delivery :=
  ⟨rfl, rfl, rfl, rfl, rfl⟩

section
variable {i : Instant} {db db' mid : Db} {delivery_id : Str}

theorem insertIfAbsent_deliveries {now : Time} {request : JobRequest} {g : Nat}
    (hm : mid.webhook_deliveries = db.webhook_deliveries) :
    (insertIfAbsent now request g db mid).1.webhook_deliveries = db.webhook_deliveries := by
  unfold insertIfAbsent
  split
  · rfl
  · exact hm

theorem enqueueSharedHeadTrigger_deliveries {now : Time} {request : JobRequest}
    (hr : enqueueSharedHeadTrigger now request db = .ok db') :
    db'.webhook_deliveries = db.webhook_deliveries := by
  unfold enqueueSharedHeadTrigger at hr
  split at hr
  · cases hr
  · cases hr
    exact enqueueInSession_deliveries

theorem enqueue_deliveries {now : Time} {request : JobRequest} (hr : enqueue now request db = .ok db') :
    db'.webhook_deliveries = db.webhook_deliveries := by
  unfold enqueue at hr
  split at hr
  · exact enqueueSharedHeadTrigger_deliveries hr
  · cases hr
    exact enqueueInSession_deliveries

theorem enqueueForSharedHeadGeneration_deliveries {now : Time} {request : JobRequest} {g : Nat}
    {answer : Bool} (hr : enqueueForSharedHeadGeneration now request g db = .ok (db', answer)) :
    db'.webhook_deliveries = db.webhook_deliveries := by
  unfold enqueueForSharedHeadGeneration at hr
  split at hr
  · cases hr
  · split at hr
    · cases hr
    · split at hr
      · cases hr; rfl
      · split at hr
        · cases hr; rfl
        · cases hr; exact enqueueInSession_deliveries

theorem enqueueReconciliationIfDue_deliveries {now : Time} {request : JobRequest} {recheck_seconds : Nat}
    {answer : Bool} (hr : enqueueReconciliationIfDue now request recheck_seconds db = .ok (db', answer)) :
    db'.webhook_deliveries = db.webhook_deliveries := by
  unfold enqueueReconciliationIfDue at hr
  split at hr
  · cases hr
  split at hr
  · cases hr
  · cases hr
  split at hr
  · cases hr
  split at hr
  · split at hr
    · cases hr; rfl
    · cases hr
      exact enqueueInSession_deliveries
  · split at hr
    · split at hr
      · cases hr; rfl
      · injection hr with hr
        rw [← (Prod.mk.inj hr).1]
        exact insertIfAbsent_deliveries rfl
    · injection hr with hr
      rw [← (Prod.mk.inj hr).1]
      exact insertIfAbsent_deliveries rfl

theorem releaseClaim_deliveries {now : Time} {job : ClaimedJob} {owner : Str} {revocation : Option JobRequest}
    {values : EvaluationJob → EvaluationJob} :
    (releaseClaimInSession now job owner revocation values db).1.webhook_deliveries =
      db.webhook_deliveries := by
  unfold releaseClaimInSession
  split
  · simp only
    split <;> rfl
  · rfl

theorem page_deliveries {now : Time} {job : ClaimedAuthorityJob} {requests : List AuthorityRequest}
    {next_page : Nat} {expected_total : Option Nat} {answer : Bool}
    (hr : advanceInstallationAuthorityPage now job requests next_page expected_total db =
      .ok (db', answer)) : db'.webhook_deliveries = db.webhook_deliveries := by
  have fold : ∀ (requests : List AuthorityRequest) (db : Db),
      (requests.foldl (fun db request => enqueueAuthorityInSession now request db) db).webhook_deliveries =
        db.webhook_deliveries := by
    intro requests
    induction requests with
    | nil => intro db; rfl
    | cons request requests ih => intro db; rw [List.foldl_cons, ih, enqueueAuthority_deliveries]
  unfold advanceInstallationAuthorityPage at hr
  split at hr
  · cases hr
  split at hr
  · cases hr
  split at hr
  · injection hr with hr
    rw [← (Prod.mk.inj hr).1]
    exact fold requests db
  · cases hr
    rfl

theorem acceptDelivery_keeps {now : Time} {other event : Str} {request : Option DeliveryRequest}
    {answer : DeliveryAcceptance} {delivery : WebhookDelivery}
    (hd : db.webhook_deliveries.get? delivery_id = some delivery)
    (hr : acceptDelivery now other event request db = .ok (db', answer)) :
    db'.webhook_deliveries.get? delivery_id = some delivery := by
  have keep : ∀ (record : WebhookDelivery) (mid : Db), mid.webhook_deliveries = db.webhook_deliveries →
      db.webhook_deliveries.get? other = none →
      (recordDelivery other record mid).webhook_deliveries.get? delivery_id = some delivery := by
    intro record mid hm hnone
    simp only [recordDelivery, hm]
    rw [Dict.get?_insertNew hnone, if_neg, hd]
    rintro rfl
    rw [hnone] at hd
    cases hd
  unfold acceptDelivery at hr
  cases ho : db.webhook_deliveries.get? other with
  | some d =>
    rw [ho] at hr
    cases hp : replayDelivery event request d with
    | error e => simp [hp, Except.map] at hr
    | ok a =>
      simp only [hp, Except.map] at hr
      cases hr
      exact hd
  | none =>
    rw [ho] at hr
    match request with
    | none =>
      cases hr
      exact keep _ db rfl ho
    | some (.authority request) =>
      injection hr with hr
      rw [← (Prod.mk.inj hr).1, enqueueAuthority_deliveries]
      split <;> exact keep _ db rfl ho
    | some (.job request) =>
      cases hh : request.head_sha_hint with
      | none => simp [hh] at hr
      | some head =>
        simp only [hh] at hr
        injection hr with hr
        rw [← (Prod.mk.inj hr).1, enqueueInSession_deliveries]
        exact keep _ _ rfl ho

theorem delivery_run {c : Call} {a : c.Answer} (hr : c.run i db = .ok (db', a))
    {delivery : WebhookDelivery} (hd : db.webhook_deliveries.get? delivery_id = some delivery)
    (hkeep : ∀ older_than, c = .pruneDeliveries older_than → older_than ≤ delivery.received_at) :
    ∃ delivery', db'.webhook_deliveries.get? delivery_id = some delivery' ∧
      SameRecord delivery delivery' := by
  have of_ok : ∀ {α : Type} {x : Db × α} {a : α}, (.ok x : Except Str (Db × α)) = .ok (db', a) →
      x.1 = db' := by
    intro α x a hx
    injection hx with hx
    rw [hx]
  have of_map : ∀ {x : Except Str Db}, x.map (·, ()) = .ok (db', ()) → x = .ok db' := by
    intro x hx
    cases x with
    | error e => cases hx
    | ok y => cases hx; rfl
  have same : db'.webhook_deliveries = db.webhook_deliveries → ∃ delivery',
      db'.webhook_deliveries.get? delivery_id = some delivery' ∧ SameRecord delivery delivery' :=
    fun h => ⟨delivery, h ▸ hd, .refl delivery⟩
  cases c with
  | acceptDelivery => exact ⟨delivery, acceptDelivery_keeps hd hr, .refl delivery⟩
  | markDeliveryInvalidated other =>
    rw [← of_ok hr]
    simp only [markDeliveryInvalidated, Dict.get?_updateWhere, hd, Option.map_some]
    split
    · exact ⟨_, rfl, rfl, rfl, rfl, rfl, rfl⟩
    · exact ⟨delivery, rfl, .refl delivery⟩
  | pruneDeliveries older_than =>
    rw [← of_ok hr]
    refine ⟨delivery, ?_, .refl delivery⟩
    have := hkeep older_than rfl
    simp [pruneDeliveries, hd, Option.filter, this]
  | enqueue => exact same (enqueue_deliveries (of_map hr))
  | enqueueSharedHeadTrigger => exact same (enqueueSharedHeadTrigger_deliveries (of_map hr))
  | enqueueForSharedHeadGeneration => exact same (enqueueForSharedHeadGeneration_deliveries hr)
  | enqueueReconciliationIfDue => exact same (enqueueReconciliationIfDue_deliveries hr)
  | enqueueIfAbsent request =>
    refine same ?_
    rw [← of_ok hr]
    unfold enqueueIfAbsent
    split <;> exact insertIfAbsent_deliveries rfl
  | enqueueAuthority => exact same (by rw [← of_ok hr]; exact enqueueAuthority_deliveries)
  | advanceInstallationAuthorityPage => exact same (page_deliveries hr)
  | fail => exact same (by rw [← of_ok hr]; exact releaseClaim_deliveries)
  | defer => exact same (by rw [← of_ok hr]; exact releaseClaim_deliveries)
  | observeEvaluationBase job base_ref =>
    refine same ?_
    rw [← of_ok hr]
    unfold observeEvaluationBase
    generalize (if isBaseRefHint base_ref then some base_ref else none) = hint
    simp only
    split
    · simp only
      split
      · exact wake_deliveries _
      · rfl
    · rfl
  | claim =>
    refine same ?_
    rw [← of_ok hr]
    unfold claim
    split <;> rfl
  | bindClaimToHead job head =>
    refine same ?_
    rw [← of_ok hr]
    unfold bindClaimToHead
    split
    · rfl
    · split <;> rfl
  | complete =>
    refine same ?_
    rw [← of_ok hr]
    unfold complete
    split
    · rfl
    · simp only
      split <;> rfl
  | claimSharedHeadInvalidation =>
    refine same ?_
    rw [← of_ok hr]
    unfold claimSharedHeadInvalidation
    split <;> rfl
  | completeSharedHeadInvalidation =>
    refine same ?_
    rw [← of_ok hr]
    unfold completeSharedHeadInvalidation updateInvalidation
    simp only
    split <;> rfl
  | claimAuthority =>
    refine same ?_
    rw [← of_ok hr]
    unfold claimAuthority
    split <;> rfl
  | completeAuthority =>
    refine same ?_
    rw [← of_ok hr]
    unfold completeAuthority
    split
    · rfl
    · split <;> rfl
  | recordProviderBackpressure | renewClaim | renewSharedHeadInvalidation | failSharedHeadInvalidation
  | deferSharedHeadInvalidation | renewAuthorityClaim | advanceAuthorityCursor
  | advanceAuthorityMembershipPage | failAuthority | deferAuthority | pruneSharedHeadEpochs
  | pruneReconciliationStates => exact same (by rw [← of_ok hr]; rfl)

end

/-! ## Runs -/

theorem Ledger.Reachable.authorityFresh {l : Ledger} (h : l.Reachable) : AuthorityFresh l.db := by
  induction h with
  | refl => intro id row hr; cases hr
  | tail _ hs ih =>
    obtain ⟨i, c, a, db', -, hr⟩ := hs
    exact (authorityChange_run ih hr).fresh ih

/-- A step that does not prune the record of this delivery. -/
inductive Ledger.StepRetaining (delivery_id : Str) (l : Ledger) : Ledger → Prop where
  | call (i : Instant) (c : Call) (a : c.Answer) (db' : Db) :
      (∀ job owner, c.claimUsed = some (job, owner) → job ∈ l.issued) →
      c.run i l.db = .ok (db', a) →
      (∀ older_than delivery, c = .pruneDeliveries older_than →
        l.db.webhook_deliveries.get? delivery_id = some delivery → older_than ≤ delivery.received_at) →
      Ledger.StepRetaining delivery_id l ⟨db', (c.claimIssued a).toList ++ l.issued⟩

theorem Recorded.step {delivery_id event : Str} {request : Option DeliveryRequest} {token : Option Nat}
    {l l' : Ledger} (h : Recorded delivery_id event request token l.db)
    (hs : l.StepRetaining delivery_id l') : Recorded delivery_id event request token l'.db := by
  obtain ⟨i, c, a, db', -, hr, hkeep⟩ := hs
  obtain ⟨delivery, hd, he, hi, ht, hreq⟩ := h.found
  obtain ⟨delivery', hd', hsame⟩ :=
    delivery_run hr hd fun older_than hc => hkeep older_than delivery hc hd
  exact ⟨delivery', hd', hsame.event.trans he, hsame.identity.trans hi, hsame.token.trans ht,
    fun h => hreq (hsame.required ▸ h)⟩

theorem Recorded.run {delivery_id event : Str} {request : Option DeliveryRequest} {token : Option Nat}
    {l l' : Ledger} (h : Recorded delivery_id event request token l.db)
    (hs : Relation.ReflTransGen (Ledger.StepRetaining delivery_id) l l') :
    Recorded delivery_id event request token l'.db := by
  induction hs with
  | refl => exact h
  | tail _ hs ih => exact ih.step hs

/-- An answered call raises in the release of its guard only. -/
theorem deliveryResult_error {request : Option DeliveryRequest} {release : Except Str Unit}
    {answer : DeliveryAcceptance} {error : Str}
    (h : deliveryResult request release (.answered answer) = .error error) :
    release = .error error ∧ ∃ change, request = some (.authority change) := by
  unfold deliveryResult at h
  simp only at h
  split at h
  · cases h
    exact ⟨rfl, _, rfl⟩
  · cases h

/-- What becomes of a copy of a delivery that was accepted with this token. -/
structure Replayed (delivery_id event : Str) (request : Option DeliveryRequest) (token : Option Nat)
    (db : Db) (now : Time) (event' : Str) (request' : Option DeliveryRequest) : Prop where
  unseen : ∀ seen conflict, seen.webhook_deliveries.get? delivery_id = none →
    attemptDelivery now delivery_id event' request' seen conflict db = (db, .conflicted)
  unchanged : ∀ db' answer, acceptDelivery now delivery_id event' request' db = .ok (db', answer) →
    db' = db ∧ answer = ⟨false, token⟩
  job : ∀ job', request' = some (.job job') →
    if event' = event ∧ DeliveryRequest.identity request' = DeliveryRequest.identity request then
      acceptDelivery now delivery_id event' request' db = .ok (db, ⟨false, token⟩)
    else ∃ error, acceptDelivery now delivery_id event' request' db = .error error

/-- Every attempt in every run, and every later copy before the record is
pruned. A call that raises leaves the tables alone unless it is the release of
the guard that raises, behind a request that has taken its effect. -/
theorem deliveries_take_effect_once {l : Ledger} (hl : l.Reachable) (now : Time)
    (delivery_id event : Str) (request : Option DeliveryRequest) (seen : Db) (conflict : Bool) :
    ((∀ token, (attemptDelivery now delivery_id event request seen conflict l.db).2 ≠
        .answered ⟨true, token⟩) →
      (attemptDelivery now delivery_id event request seen conflict l.db).1 = l.db) ∧
    (∀ release error, deliveryResult request release
        (attemptDelivery now delivery_id event request seen conflict l.db).2 = .error error →
      (attemptDelivery now delivery_id event request seen conflict l.db).1 = l.db ∨
        release = .error error ∧ ∃ change, request = some (.authority change)) ∧
    ∀ token db', attemptDelivery now delivery_id event request seen conflict l.db =
        (db', .answered ⟨true, token⟩) →
      TookEffect delivery_id l.db db' request token ∧
      ∀ l', Relation.ReflTransGen (Ledger.StepRetaining delivery_id) ⟨db', l.issued⟩ l' →
        ∀ now' event' request', Replayed delivery_id event request token l'.db now' event' request' := by
  have replay_false : ∀ delivery answer, replayDelivery event request delivery = .ok answer →
      answer.accepted = false := fun _ _ => replayDelivery_accepted
  have hkept : (∀ token, (attemptDelivery now delivery_id event request seen conflict l.db).2 ≠
        .answered ⟨true, token⟩) →
      (attemptDelivery now delivery_id event request seen conflict l.db).1 = l.db := by
    intro hne
    unfold attemptDelivery at hne ⊢
    split
    · split <;> rfl
    · split
      · rfl
      · rename_i hseen hfree
        have hnone : l.db.webhook_deliveries.get? delivery_id = none := by
          simp only [Bool.or_eq_true, not_or, Bool.not_eq_true, Option.isSome_eq_false_iff,
            Option.isNone_iff_eq_none] at hfree
          exact hfree.2
        cases hr : acceptDelivery now delivery_id event request l.db with
        | error e => rfl
        | ok x =>
          obtain ⟨db', answer⟩ := x
          obtain ⟨ha, -⟩ := acceptDelivery_first hl.keyed hl.authorityFresh hnone hr
          rw [hseen] at hne
          simp only [hfree, hr] at hne
          obtain ⟨accepted, token⟩ := answer
          simp only at ha
          exact absurd (by rw [ha]; rfl) (hne token)
  refine ⟨hkept, fun release error hraised => ?_, ?_⟩
  · by_cases hne : ∀ token, (attemptDelivery now delivery_id event request seen conflict l.db).2 ≠
        .answered ⟨true, token⟩
    · exact Or.inl (hkept hne)
    · push Not at hne
      obtain ⟨token, htoken⟩ := hne
      rw [htoken] at hraised
      exact Or.inr (deliveryResult_error hraised)
  · intro token db' hr
    have hfirst : l.db.webhook_deliveries.get? delivery_id = none ∧
        acceptDelivery now delivery_id event request l.db = .ok (db', ⟨true, token⟩) := by
      unfold attemptDelivery at hr
      split at hr
      · rename_i delivery _
        split at hr
        · rename_i answer hp
          have := replay_false delivery answer hp
          cases hr
          cases this
        · cases hr
      · split at hr
        · cases hr
        · rename_i hfree
          simp only [Bool.or_eq_true, not_or, Bool.not_eq_true, Option.isSome_eq_false_iff,
            Option.isNone_iff_eq_none] at hfree
          split at hr
          · rename_i hok
            cases hr
            exact ⟨hfree.2, hok⟩
          · cases hr
    obtain ⟨-, hrec, heff⟩ :=
      acceptDelivery_first hl.keyed hl.authorityFresh hfirst.1 hfirst.2
    refine ⟨heff, fun l' hs now' event' request' => ?_⟩
    have hrec' : Recorded delivery_id event request token l'.db :=
      Recorded.run (l := ⟨db', l.issued⟩) hrec hs
    obtain ⟨hun, hjob⟩ := @acceptDelivery_copy now' delivery_id event request l'.db token event' request' hrec'
    exact ⟨fun seen conflict => attemptDelivery_unseen hrec', hun, hjob⟩

/-- The copy of the sample's delivery gets the token of the first. -/
theorem sampleDelivery_takes_effect_once :
    ∃ token db', attemptDelivery 0 "d" "pull_request" (some (.job sampleRequest)) Db.initial false
        Db.initial = (db', .answered ⟨true, token⟩) ∧
      acceptDelivery 5 "d" "pull_request" (some (.job sampleRequest)) db' =
        .ok (db', ⟨false, token⟩) := by
  refine ⟨_, _, rfl, ?_⟩
  have h := (deliveries_take_effect_once (l := Ledger.initial) Relation.ReflTransGen.refl 0 "d"
    "pull_request" (some (.job sampleRequest)) Db.initial false).2.2 _ _ rfl
  have hcopy := (h.2 _ Relation.ReflTransGen.refl 5 "pull_request" (some (.job sampleRequest))).job
    sampleRequest rfl
  rwa [if_pos ⟨rfl, rfl⟩] at hcopy

/-- The record of a change of authority is committed before the release of the
guard raises. -/
theorem release_raises_after_commit :
    ¬ ∀ (now : Time) (delivery_id event : Str) (request : Option DeliveryRequest) (seen : Db)
      (conflict : Bool) (release : Except Str Unit) (error : Str) (db : Db),
      deliveryResult request release
          (attemptDelivery now delivery_id event request seen conflict db).2 = .error error →
        (attemptDelivery now delivery_id event request seen conflict db).1 = db := by
  intro h
  have hdb := h 0 "d" "push" (some (.authority sampleAuthorityRequest)) Db.initial false
    (.error "PostgreSQL advisory guard was not held by this session") _ Db.initial rfl
  have hrecord := congrArg (fun db : Db => (db.webhook_deliveries.get? "d").isSome) hdb
  exact absurd hrecord (by decide)

end ExtraCodeowners
