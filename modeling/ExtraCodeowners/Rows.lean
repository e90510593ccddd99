import ExtraCodeowners.PublishFence

/-!
# What a call does to an evaluation row

One inversion lemma for every call of the store: what may become of the row of
an id, with the guard under which it happens. It holds for any token, held or
not.
-/

namespace ExtraCodeowners

/-- The end of a claim keeps the pull request and its head, class and age. -/
structure Released (row row' : EvaluationJob) : Prop where
  pull : row'.pullKey = row.pullKey
  head : row'.head_sha_hint = row.head_sha_hint
  work_class : row'.work_class = row.work_class
  generation : row'.generation = row.generation
  requested_at : row'.requested_at = row.requested_at
  state : row.state = .pending → row'.state = .pending
  lease_owner : row'.lease_owner = none

/-- The revocation a deferral asks for: its retry is later than the limit allows. -/
def deferRevocation (now : Time) (job : ClaimedJob) (delay_seconds : Nat)
    (scheduled_recheck_limit_seconds : Option Nat) : Option JobRequest :=
  match scheduled_recheck_limit_seconds with
  | none => none
  | some limit =>
    if job.requested_at + seconds limit < now + seconds (clampDelay delay_seconds)
    then scheduledRecheckRevocation job else none

def reasonAfter (revocation : Option JobRequest) (row : EvaluationJob) : Str :=
  match revocation with
  | none => row.reason
  | some request => request.reason

/-- The evaluation request a call presents. -/
def Call.jobRequest : Call → Option JobRequest
  | .acceptDelivery _ _ (some (.job request)) => some request
  | .enqueue request | .enqueueSharedHeadTrigger request | .enqueueForSharedHeadGeneration request _
  | .enqueueIfAbsent request | .enqueueReconciliationIfDue request _ => some request
  | _ => none

/-- A row is written for the presented request, or for the recheck a scan makes of it. -/
def Brings (c : Call) (request : JobRequest) : Prop :=
  ∃ presented, c.jobRequest = some presented ∧ (request = presented ∨
    presented.head_sha_hint ≠ none ∧
      request = { presented with reason := SCHEDULED_RECHECK_REASON }.postInit)

inductive RowChange (i : Instant) (c : Call) (db : Db) (id : Nat) :
    Option EvaluationJob → Option EvaluationJob → Prop where
  | kept (o : Option EvaluationJob) : RowChange i c db id o o
  | inserted (request : JobRequest) (delivery_id : Option Str) (g : Nat) (mid : Db) :
      Brings c request → id = db.next_evaluation_job →
      (∀ id' row, db.evaluation_jobs.get? id' = some row → row.pullKey ≠ request.pullKey) →
      RowChange i c db id none (some (newJob i.now request delivery_id g mid))
  | coalesced (row : EvaluationJob) (request : JobRequest) (delivery_id : Option Str) (g : Nat) (mid : Db) :
      Brings c request → row.pullKey = request.pullKey →
      RowChange i c db id (some row) (some (coalescedJob i.now request delivery_id g true mid row))
  | replaced (row existing : EvaluationJob) (request : JobRequest) (recheck_seconds : Nat)
      (observed_at : Time) (g : Nat) (mid : Db) :
      c = .enqueueReconciliationIfDue request recheck_seconds → pendingJob request db = some existing →
      existing.head_sha_hint ≠ request.head_sha_hint → request.observed_at = some observed_at →
      (existing.work_class = .interactive → existing.requested_at ≤ observed_at) →
      row.pullKey = request.pullKey →
      RowChange i c db id (some row)
        (some (coalescedJob i.now request none g (existing.work_class ≠ .interactive) mid row))
  | claimed (row : EvaluationJob) (owner : Str) (lease_seconds : Nat) (work_class : Option WorkClass)
      (ready : Bool) :
      c = .claim owner lease_seconds work_class ready → isClaimable i.now work_class ready db row = true →
      RowChange i c db id (some row) (some (row.claimed owner (i.now + seconds lease_seconds)))
  | renewed (row : EvaluationJob) (job : ClaimedJob) (lease_seconds : Nat) :
      c = .renewClaim job lease_seconds → holdsClaim job job.lease_owner id row = true →
      RowChange i c db id (some row)
        (some { row with lease_until := some (i.now + seconds lease_seconds) })
  | observed (row : EvaluationJob) (job : ClaimedJob) (base_ref : Str) (hint : Option Str) :
      c = .observeEvaluationBase job base_ref → holdsClaim job job.lease_owner id row = true →
      RowChange i c db id (some row) (some { row with base_ref_hint := hint })
  | bound (row : EvaluationJob) (job : ClaimedJob) (head : HeadSha) (g n : Nat) :
      c = .bindClaimToHead job head → holdsClaim job job.lease_owner id row = true →
      row.head_sha_hint = none →
      RowChange i c db id (some row)
        (some { row with
          head_sha_hint := some head
          shared_head_generation := g
          bound_at := n })
  | completed (row : EvaluationJob) (job : ClaimedJob) (owner : Str) :
      c = .complete job owner → holdsClaim job owner id row = true → RowChange i c db id (some row) none
  | failed (row row' : EvaluationJob) (job : ClaimedJob) (owner error : Str) (max_delay_seconds : Nat) :
      c = .fail job owner error max_delay_seconds → holdsClaim job owner id row = true →
      Released row row' → row'.attempts = row.attempts →
      row'.reason = reasonAfter (scheduledRecheckRevocation job) row →
      RowChange i c db id (some row) (some row')
  | deferred (row row' : EvaluationJob) (job : ClaimedJob) (owner error : Str) (delay_seconds : Nat)
      (limit : Option Nat) :
      c = .defer job owner error delay_seconds limit → holdsClaim job owner id row = true →
      Released row row' → row'.attempts = row.attempts - 1 →
      row'.reason = reasonAfter (deferRevocation i.now job delay_seconds limit) row →
      RowChange i c db id (some row) (some row')

/-! ## Enqueueing -/

/-- What an enqueue does to one row: nothing, coalescing, or an insertion. -/
theorem enqueueInSession_get? {now : Time} {request : JobRequest} {delivery_id : Option Str} {g : Nat}
    {pd pw : Bool} {db : Db} (h : Coherent db) (id : Nat) :
    (enqueueInSession now request delivery_id g pd pw db).evaluation_jobs.get? id =
        db.evaluation_jobs.get? id ∨
      (∃ row, db.evaluation_jobs.get? id = some row ∧ row.pullKey = request.pullKey ∧
        (enqueueInSession now request delivery_id g pd pw db).evaluation_jobs.get? id =
          some (coalescedJob now request delivery_id g pw db row)) ∨
      (db.evaluation_jobs.get? id = none ∧ id = db.next_evaluation_job ∧
        (∀ id' row, db.evaluation_jobs.get? id' = some row → row.pullKey ≠ request.pullKey) ∧
        (enqueueInSession now request delivery_id g pd pw db).evaluation_jobs.get? id =
          some (newJob now request delivery_id g db)) := by
  unfold enqueueInSession
  split
  · simp only [wake_evaluation_jobs, Dict.get?_updateWhere]
    cases hr : db.evaluation_jobs.get? id with
    | none => exact Or.inl rfl
    | some row =>
      simp only [Option.map_some]
      split
      · rename_i hp
        have hpull : row.pullKey = request.pullKey := by
          have := (Bool.and_eq_true _ _ ▸ hp).1
          simpa [isForRequest] using this
        exact Or.inr (Or.inl ⟨row, rfl, hpull, rfl⟩)
      · exact Or.inl rfl
  · rename_i hany
    split
    · exact Or.inl rfl
    · rename_i hex
      have hnone : db.evaluation_jobs.get? db.next_evaluation_job = none := by
        cases hg : db.evaluation_jobs.get? db.next_evaluation_job with
        | none => rfl
        | some x => exact absurd (h.fresh _ _ hg) (lt_irrefl _)
      rw [wake_evaluation_jobs]
      unfold insertEvaluationJob
      rw [Dict.get?_insertNew hnone]
      by_cases hid : id = db.next_evaluation_job
      · subst hid
        rw [if_pos rfl]
        refine Or.inr (Or.inr ⟨hnone, rfl, ?_, rfl⟩)
        intro id' row hr hp
        have hfor : isForRequest request row = true := by simpa [isForRequest] using hp
        cases pd with
        | false => exact hany (Dict.any_eq_true.mpr ⟨id', row, hr, by simp [hfor]⟩)
        | true => exact hex (by
            simp only [Bool.true_and]
            exact Dict.any_eq_true.mpr ⟨id', row, hr, hfor⟩)
      · rw [if_neg hid]
        exact Or.inl rfl

section
variable {i : Instant} {c : Call} {db mid db' : Db} {id : Nat}

/-- Later updates of other tables do not matter. -/
theorem RowChange.of_rows {o o' o'' : Option EvaluationJob} (h : RowChange i c db id o o')
    (he : o'' = o') : RowChange i c db id o o'' := he ▸ h

theorem rowChange_enqueueInSession {request : JobRequest} {delivery_id : Option Str} {g : Nat} {pd : Bool}
    (hb : Brings c request) (h : Coherent mid) (hj : mid.evaluation_jobs = db.evaluation_jobs)
    (hn : mid.next_evaluation_job = db.next_evaluation_job) :
    RowChange i c db id (db.evaluation_jobs.get? id)
      ((enqueueInSession i.now request delivery_id g pd true mid).evaluation_jobs.get? id) := by
  rcases @enqueueInSession_get? i.now request delivery_id g pd true mid h id with
    he | ⟨row, hr, hp, he⟩ | ⟨hr, hid, hnone, he⟩
  · rw [he, hj]
    exact .kept _
  · rw [he, ← hj, hr]
    exact .coalesced row request delivery_id g mid hb hp
  · rw [he, ← hj, hr]
    exact .inserted request delivery_id g mid hb (hn ▸ hid) (hj ▸ hnone)

theorem rowChange_insertIfAbsent {request : JobRequest} {g : Nat} (hb : Brings c request) (h : Coherent mid)
    (hj : mid.evaluation_jobs = db.evaluation_jobs)
    (hn : mid.next_evaluation_job = db.next_evaluation_job) :
    RowChange i c db id (db.evaluation_jobs.get? id)
      ((insertIfAbsent i.now request g db mid).1.evaluation_jobs.get? id) := by
  unfold insertIfAbsent
  split
  · exact .kept _
  · rename_i hany
    have hnone : mid.evaluation_jobs.get? mid.next_evaluation_job = none := by
      cases hg : mid.evaluation_jobs.get? mid.next_evaluation_job with
      | none => rfl
      | some x => exact absurd (h.fresh _ _ hg) (lt_irrefl _)
    simp only [insertEvaluationJob]
    rw [Dict.get?_insertNew hnone]
    by_cases hid : id = mid.next_evaluation_job
    · subst hid
      rw [if_pos rfl, ← hj, hnone]
      refine .inserted request none g mid hb hn ?_
      intro id' row hr hp
      exact hany (Dict.any_eq_true.mpr ⟨id', row, hr, by simpa [isForRequest] using hp⟩)
    · rw [if_neg hid, hj]
      exact .kept _

theorem rowChange_enqueueSharedHeadTrigger {request : JobRequest} (hb : Brings c request) (h : Coherent db)
    (hr : enqueueSharedHeadTrigger i.now request db = .ok db') :
    RowChange i c db id (db.evaluation_jobs.get? id) (db'.evaluation_jobs.get? id) := by
  unfold enqueueSharedHeadTrigger at hr
  cases hh : request.head_sha_hint with
  | none => rw [hh] at hr; cases hr
  | some head =>
    rw [hh] at hr
    cases hr
    exact rowChange_enqueueInSession hb (h.advance i.now request head) rfl rfl

theorem rowChange_enqueue {request : JobRequest} (hb : Brings c request) (h : Coherent db)
    (hr : enqueue i.now request db = .ok db') :
    RowChange i c db id (db.evaluation_jobs.get? id) (db'.evaluation_jobs.get? id) := by
  unfold enqueue at hr
  cases hh : request.head_sha_hint with
  | none =>
    rw [hh] at hr
    cases hr
    exact rowChange_enqueueInSession hb h rfl rfl
  | some head =>
    rw [hh] at hr
    exact rowChange_enqueueSharedHeadTrigger hb h hr

theorem rowChange_enqueueForSharedHeadGeneration {request : JobRequest} {g : Nat} {answer : Bool}
    (hb : Brings c request) (h : Coherent db)
    (hr : enqueueForSharedHeadGeneration i.now request g db = .ok (db', answer)) : RowChange i c db id (db.evaluation_jobs.get? id) (db'.evaluation_jobs.get? id) := by
  unfold enqueueForSharedHeadGeneration at hr
  split at hr
  · cases hr
  · split at hr
    · cases hr
    · split at hr
      · cases hr
        exact .kept _
      · split at hr
        · cases hr
          exact .kept _
        · cases hr
          exact rowChange_enqueueInSession hb h rfl rfl

theorem rowChange_enqueueIfAbsent {request : JobRequest} (hb : Brings c request) (h : Coherent db) :
    RowChange i c db id (db.evaluation_jobs.get? id)
      ((enqueueIfAbsent i.now request db).1.evaluation_jobs.get? id) := by
  unfold enqueueIfAbsent
  split
  · exact rowChange_insertIfAbsent hb h rfl rfl
  · rename_i head _
    exact rowChange_insertIfAbsent hb (h.advance i.now request head) rfl rfl

theorem rowChange_acceptDelivery {delivery_id event : Str} {request : Option DeliveryRequest}
    {answer : DeliveryAcceptance} (h : Coherent db)
    (hr : acceptDelivery i.now delivery_id event request db = .ok (db', answer)) :
    RowChange i (.acceptDelivery delivery_id event request) db id (db.evaluation_jobs.get? id)
      (db'.evaluation_jobs.get? id) := by
  unfold acceptDelivery at hr
  split at hr
  · rename_i delivery _
    cases hp : replayDelivery event request delivery with
    | error e => simp [hp, Except.map] at hr
    | ok a =>
      simp only [hp, Except.map] at hr
      cases hr
      exact .kept _
  · match request with
    | none =>
      cases hr
      exact .kept _
    | some (.authority request) =>
      simp only at hr
      injection hr with hr
      rw [← (Prod.mk.inj hr).1, (enqueueAuthorityInSession_same request).jobs]
      split <;> exact .kept _
    | some (.job request) =>
      cases hh : request.head_sha_hint with
      | none => simp [hh] at hr
      | some head =>
        simp only [hh] at hr
        injection hr with hr
        rw [← (Prod.mk.inj hr).1]
        have hm := (Refenced.advance i.now request head db).then_same (recordDelivery_same delivery_id
          ⟨event, i.now, true, none, some request.installation_id, some request.repository_full_name,
            some request.pull_number, some head,
            some (advanceSharedHeadEpochInSession i.now request head db).2⟩)
        exact rowChange_enqueueInSession ⟨request, rfl, Or.inl rfl⟩ (hm.coherent h) rfl rfl

theorem pendingJob_some {request : JobRequest} {existing : EvaluationJob}
    (h : pendingJob request db = some existing) :
    existing.pullKey = request.pullKey ∧ ∃ id, db.evaluation_jobs.get? id = some existing := by
  unfold pendingJob at h
  obtain ⟨e, he, hrow⟩ := Option.map_eq_some_iff.mp h
  have hmem := List.mem_of_find?_eq_some he
  have hfor : isForRequest request e.2 = true := by simpa using List.find?_some he
  refine ⟨hrow ▸ by simpa [isForRequest] using hfor, e.1, ?_⟩
  rw [← hrow]
  exact Dict.get?_eq_some.mpr hmem

theorem pendingJob_none {request : JobRequest} (h : pendingJob request db = none) {id' : Nat}
    {row : EvaluationJob} (hr : db.evaluation_jobs.get? id' = some row) :
    row.pullKey ≠ request.pullKey := by
  intro hp
  unfold pendingJob at h
  have := List.find?_eq_none.mp (Option.map_eq_none_iff.mp h) _ (Dict.get?_eq_some.mp hr)
  simp [isForRequest, hp] at this

theorem rowChange_replaced {request : JobRequest} {recheck_seconds : Nat} {existing : EvaluationJob}
    {observed_at : Time} {head : HeadSha} (h : Coherent db) (he : pendingJob request db = some existing)
    (hhead : existing.head_sha_hint ≠ request.head_sha_hint) (ho : request.observed_at = some observed_at)
    (hage : existing.work_class = .interactive → existing.requested_at ≤ observed_at) :
    RowChange i (.enqueueReconciliationIfDue request recheck_seconds) db id
      (db.evaluation_jobs.get? id)
      ((enqueueInSession i.now request none (advanceSharedHeadEpochInSession i.now request head db).2
        false (existing.work_class ≠ .interactive)
        (advanceSharedHeadEpochInSession i.now request head db).1).evaluation_jobs.get? id) := by
  rcases @enqueueInSession_get? i.now request none
    (advanceSharedHeadEpochInSession i.now request head db).2 false (existing.work_class ≠ .interactive)
    (advanceSharedHeadEpochInSession i.now request head db).1 (h.advance i.now request head) id with
    hk | ⟨row, hrow, hp, hk⟩ | ⟨-, -, hnone, -⟩
  · rw [hk]
    exact .kept _
  · rw [hk]
    rw [advance_evaluation_jobs] at hrow
    rw [hrow]
    exact .replaced row existing request recheck_seconds observed_at _ _ rfl he hhead ho hage hp
  · obtain ⟨hp, id', hex⟩ := pendingJob_some he
    exact absurd hp (hnone id' existing hex)

/-- A scan replaces a row only by a different head, and an interactive one only
by a later observation. -/
theorem rowChange_enqueueReconciliationIfDue {request : JobRequest} {recheck_seconds : Nat}
    {answer : Bool} (h : Coherent db)
    (hr : enqueueReconciliationIfDue i.now request recheck_seconds db = .ok (db', answer)) :
    RowChange i (.enqueueReconciliationIfDue request recheck_seconds) db id
      (db.evaluation_jobs.get? id) (db'.evaluation_jobs.get? id) := by
  unfold enqueueReconciliationIfDue at hr
  by_cases hw : request.work_class ≠ .recovery
  · rw [if_pos hw] at hr; cases hr
  rw [if_neg hw] at hr
  split at hr
  · cases hr
  · cases hr
  · rename_i head observed_at hh ho
    by_cases hs : recheck_seconds < 1
    · rw [if_pos hs] at hr; cases hr
    rw [if_neg hs] at hr
    split at hr
    · rename_i existing he
      split at hr
      · cases hr
        exact .kept _
      · rename_i hcond
        have hhead : existing.head_sha_hint ≠ request.head_sha_hint := by
          rw [hh]
          exact fun e => hcond (Or.inl e)
        have hage : existing.work_class = .interactive → existing.requested_at ≤ observed_at :=
          fun hi => not_lt.mp fun hlt => hcond (Or.inr ⟨hi, hlt⟩)
        injection hr with hr
        rw [← (Prod.mk.inj hr).1]
        exact rowChange_replaced h he hhead ho hage
    · split at hr
      · split at hr
        · cases hr
          exact .kept _
        · have hm := @rowChange_insertIfAbsent i (.enqueueReconciliationIfDue request recheck_seconds) db
            (touchSharedHeadEpochInSession i.now (request.epochKey head) db).1 id
            { request with reason := SCHEDULED_RECHECK_REASON }.postInit
            (touchSharedHeadEpochInSession i.now (request.epochKey head) db).2
            ⟨request, rfl, Or.inr ⟨by simp [hh], rfl⟩⟩ ((Refenced.touch (request.epochKey head)).coherent h) rfl rfl
          injection hr with hr
          rw [← (Prod.mk.inj hr).1]
          exact hm
      · have hm := @rowChange_insertIfAbsent i (.enqueueReconciliationIfDue request recheck_seconds) db
          (advanceSharedHeadEpochInSession i.now request head db).1 id request
          (advanceSharedHeadEpochInSession i.now request head db).2 ⟨request, rfl, Or.inl rfl⟩
          (h.advance i.now request head) rfl rfl
        injection hr with hr
        rw [← (Prod.mk.inj hr).1]
        exact hm

/-! ## Claims -/

theorem rowChange_claim {owner : Str} {lease_seconds : Nat} {work_class : Option WorkClass} {ready : Bool} :
    RowChange i (.claim owner lease_seconds work_class ready) db id (db.evaluation_jobs.get? id)
      ((claim i.now i.job_locked owner lease_seconds work_class ready db).1.evaluation_jobs.get? id) := by
  unfold claim
  split
  · exact .kept _
  · rename_i id' row hsel
    obtain ⟨hrow, hp⟩ := Dict.select_some hsel
    simp only [Dict.get?_set]
    by_cases hid : id = id'
    · subst hid
      rw [if_pos rfl, hrow]
      exact .claimed row owner lease_seconds work_class ready rfl (Bool.and_eq_true _ _ ▸ hp).2
    · rw [if_neg hid]
      exact .kept _

/-- A claim handed out is the view of its row. -/
theorem claim_issued {now : Time} {locked : Nat → Bool} {owner : Str} {lease_seconds : Nat}
    {work_class : Option WorkClass} {ready : Bool} {job : ClaimedJob}
    (h : (claim now locked owner lease_seconds work_class ready db).2 = some job) :
    ∃ row, db.evaluation_jobs.get? job.id = some row ∧
      (claim now locked owner lease_seconds work_class ready db).1.evaluation_jobs.get? job.id =
        some (row.claimed owner (now + seconds lease_seconds)) ∧
      job = claimedView job.id (row.claimed owner (now + seconds lease_seconds)) owner := by
  unfold claim at h ⊢
  split at h
  · cases h
  · rename_i id row hsel
    cases h
    refine ⟨row, (Dict.select_some hsel).1, ?_, rfl⟩
    simp [claimedView]

/-- A rewrite of the row that a token names. -/
theorem rowChange_updateHeld {p : Nat → EvaluationJob → Bool} {f : EvaluationJob → EvaluationJob}
    (h : ∀ row, p id row = true → RowChange i c db id (some row) (some (f row))) :
    RowChange i c db id (db.evaluation_jobs.get? id)
      ((db.evaluation_jobs.updateWhere p f).get? id) := by
  rw [Dict.get?_updateWhere]
  cases db.evaluation_jobs.get? id with
  | none => exact .kept _
  | some row =>
    simp only [Option.map_some]
    split
    · rename_i hp
      exact h row hp
    · exact .kept _

theorem rowChange_renewClaim {job : ClaimedJob} {lease_seconds : Nat} :
    RowChange i (.renewClaim job lease_seconds) db id (db.evaluation_jobs.get? id)
      ((renewClaim i.now job lease_seconds db).1.evaluation_jobs.get? id) := by
  refine rowChange_updateHeld ?_
  intro row hp
  exact .renewed row job lease_seconds rfl (Bool.and_eq_true _ _ ▸ hp).1

theorem rowChange_observeEvaluationBase {job : ClaimedJob} {base_ref : Str} :
    RowChange i (.observeEvaluationBase job base_ref) db id (db.evaluation_jobs.get? id)
      ((observeEvaluationBase i.now job base_ref db).1.evaluation_jobs.get? id) := by
  unfold observeEvaluationBase
  generalize (if isBaseRefHint base_ref then some base_ref else none) = hint
  have hm : RowChange i (.observeEvaluationBase job base_ref) db id (db.evaluation_jobs.get? id)
      ((db.evaluation_jobs.updateWhere (observesBase i.now job)
        fun row => { row with base_ref_hint := hint }).get? id) := by
    refine rowChange_updateHeld ?_
    intro row hp
    simp only [observesBase, Bool.and_eq_true] at hp
    exact .observed row job base_ref hint rfl hp.1.1
  simp only
  split
  · split
    · rw [wake_evaluation_jobs]
      exact hm
    · exact hm
  · exact .kept _

theorem rowChange_bindClaimToHead {job : ClaimedJob} {head : HeadSha} :
    RowChange i (.bindClaimToHead job head) db id (db.evaluation_jobs.get? id)
      ((bindClaimToHead i.now job head db).1.evaluation_jobs.get? id) := by
  unfold bindClaimToHead
  split
  · exact .kept _
  · split
    · refine rowChange_updateHeld ?_
      intro row hp
      simp only [Bool.and_eq_true, decide_eq_true_eq] at hp
      exact .bound row job head _ _ rfl hp.1.1 hp.2
    · exact .kept _

theorem rowChange_complete {job : ClaimedJob} {owner : Str} :
    RowChange i (.complete job owner) db id (db.evaluation_jobs.get? id)
      ((complete i.now job owner db).1.evaluation_jobs.get? id) := by
  have hm : RowChange i (.complete job owner) db id (db.evaluation_jobs.get? id)
      ((db.evaluation_jobs.deleteWhere (holdsClaim job owner)).get? id) := by
    rw [Dict.get?_deleteWhere]
    cases db.evaluation_jobs.get? id with
    | none => exact .kept _
    | some row =>
      by_cases hp : holdsClaim job owner id row = true
      · simp only [Option.filter, hp]
        exact .completed row job owner rfl hp
      · simp only [Option.filter, hp]
        exact .kept _
  unfold complete
  split
  · exact .kept _
  · simp only
    split <;> exact hm

/-- A release under a token that no row carries does nothing. -/
theorem release_inert {now : Time} {job : ClaimedJob} {owner : Str} {revocation : Option JobRequest}
    {values : EvaluationJob → EvaluationJob} (h : ¬db.evaluation_jobs.any (holdsClaim job owner) = true) :
    releaseClaimInSession now job owner revocation values db = (db, false) := by
  unfold releaseClaimInSession
  exact if_neg h

/-- A release rewrites the row its token names, and that row alone is rebound. -/
theorem releaseClaimInSession_get? {now : Time} {job : ClaimedJob} {owner : Str}
    {revocation : Option JobRequest} {values : EvaluationJob → EvaluationJob}
    (hv : ∀ row, (values row).generation = row.generation) :
    (releaseClaimInSession now job owner revocation values db).1.evaluation_jobs.get? id =
        db.evaluation_jobs.get? id ∨
      ∃ row, db.evaluation_jobs.get? id = some row ∧ holdsClaim job owner id row = true ∧
        ((revocation.bind (·.head_sha_hint) = none ∧
            (releaseClaimInSession now job owner revocation values db).1.evaluation_jobs.get? id =
              some (values row)) ∨
          ∃ request g n, revocation = some request ∧ request.head_sha_hint ≠ none ∧
            (releaseClaimInSession now job owner revocation values db).1.evaluation_jobs.get? id =
              some { values row with
                reason := request.reason
                shared_head_generation := g
                bound_at := n }) := by
  unfold releaseClaimInSession
  by_cases hany : db.evaluation_jobs.any (holdsClaim job owner) = true
  swap
  · rw [if_neg hany]
    exact Or.inl rfl
  rw [if_pos hany]
  simp only
  obtain ⟨id₀, row₀, hrow₀, hp₀⟩ := Dict.any_eq_true.mp hany
  have hid₀ := (holdsClaim_eq_true.mp hp₀).1
  cases hr : db.evaluation_jobs.get? id with
  | none =>
    left
    cases revocation.bind fun request => request.head_sha_hint.map (request, ·) with
    | none => simp [hr]
    | some p => simp [hr, advanceSharedHeadEpochInSession]
  | some row =>
    by_cases hp : holdsClaim job owner id row = true
    · right
      refine ⟨row, rfl, hp, ?_⟩
      obtain ⟨hid, hg, -⟩ := holdsClaim_eq_true.mp hp
      cases revocation with
      | none => left; simp [hr, hp]
      | some request =>
        cases hh : request.head_sha_hint with
        | none => left; simp [hr, hp, hh]
        | some head =>
          right
          subst hid
          have hjobs := advance_evaluation_jobs now request head
            { db with evaluation_jobs := db.evaluation_jobs.updateWhere (holdsClaim job owner) values }
          simp only [Option.bind_some, Option.map_some, hh]
          generalize advanceSharedHeadEpochInSession now request head _ = adv at hjobs ⊢
          obtain ⟨mid, g⟩ := adv
          simp only at hjobs ⊢
          refine ⟨request, g, mid.advances (request.epochKey head), rfl, by simp [hh], ?_⟩
          simp only [hjobs, Dict.get?_updateWhere, hr, Option.map_some, hp, if_true]
          rw [if_pos (by simp [hv, hg])]
    · left
      have hne : ¬(id = job.id ∧ row.generation = job.generation) := by
        intro hig
        rw [hid₀, ← hig.1, hr] at hrow₀
        cases hrow₀
        rw [hid₀, ← hig.1] at hp₀
        exact hp hp₀
      cases hrv : revocation.bind fun request => request.head_sha_hint.map (request, ·) with
      | none => simp [hr, hp]
      | some p =>
        simp only [advanceSharedHeadEpochInSession, Dict.get?_updateWhere, hr, Option.map_some, hp,
          Bool.false_eq_true, if_false, Bool.and_eq_true, decide_eq_true_eq, hne]

theorem scheduledRecheckRevocation_eq_some {job : ClaimedJob} {request : JobRequest}
    (h : scheduledRecheckRevocation job = some request) :
    job.reason = SCHEDULED_RECHECK_REASON ∧ request.head_sha_hint = job.head_sha_hint ∧
      job.head_sha_hint ≠ none ∧ request.reason = PERIODIC_RECONCILIATION_REASON := by
  unfold scheduledRecheckRevocation at h
  split at h
  · cases h
  · rename_i hcond
    push Not at hcond
    cases h
    refine ⟨hcond.1, ?_, hcond.2, ?_⟩
    · rw [postInit_head]
      exact postInit_head _
    · unfold JobRequest.postInit
      split <;> rfl

/-- The row a release leaves, whatever the revocation. -/
theorem rowChange_release {job : ClaimedJob} {owner : Str} {revocation : Option JobRequest}
    {values : EvaluationJob → EvaluationJob} (hv : ∀ row, Released row (values row))
    (hreason : ∀ row, (values row).reason = row.reason)
    (hrev : ∀ request, revocation = some request → request.head_sha_hint ≠ none)
    (h : ∀ row row', holdsClaim job owner id row = true → Released row row' →
      row'.attempts = (values row).attempts → row'.reason = reasonAfter revocation row →
      RowChange i c db id (some row) (some row')) :
    RowChange i c db id (db.evaluation_jobs.get? id)
      ((releaseClaimInSession i.now job owner revocation values db).1.evaluation_jobs.get? id) := by
  rcases @releaseClaimInSession_get? db id i.now job owner revocation values
    (fun row => (hv row).generation) with
    hk | ⟨row, hrow, hp, ⟨hnone, hk⟩ | ⟨request, g, n, hsome, -, hk⟩⟩
  · rw [hk]
    exact .kept _
  · rw [hk, hrow]
    refine h row _ hp (hv row) rfl ?_
    cases revocation with
    | none => exact hreason row
    | some request => exact absurd hnone (hrev request rfl)
  · rw [hk, hrow]
    obtain ⟨h₁, h₂, h₃, h₄, h₅, h₆, h₇⟩ := hv row
    refine h row _ hp ⟨h₁, h₂, h₃, h₄, h₅, h₆, h₇⟩ rfl ?_
    rw [hsome]
    rfl

theorem rowChange_fail {job : ClaimedJob} {owner error : Str} {max_delay_seconds : Nat} :
    RowChange i (.fail job owner error max_delay_seconds) db id (db.evaluation_jobs.get? id)
      ((fail i.now job owner error max_delay_seconds db).evaluation_jobs.get? id) := by
  unfold fail
  refine rowChange_release (fun row => ⟨rfl, rfl, rfl, rfl, rfl, fun _ => rfl, rfl⟩) (fun _ => rfl) ?_ ?_
  · intro request hr
    obtain ⟨-, hh, hne, -⟩ := scheduledRecheckRevocation_eq_some hr
    exact hh ▸ hne
  · intro row row' hp hrel hatt hreason
    exact .failed row row' job owner error max_delay_seconds rfl hp hrel hatt hreason

theorem deferRevocation_eq_some {now : Time} {job : ClaimedJob} {delay_seconds : Nat} {limit : Option Nat}
    {request : JobRequest} (h : deferRevocation now job delay_seconds limit = some request) :
    scheduledRecheckRevocation job = some request := by
  unfold deferRevocation at h
  cases limit with
  | none => cases h
  | some limit =>
    simp only at h
    split at h
    · exact h
    · cases h

theorem rowChange_defer {job : ClaimedJob} {owner error : Str} {delay_seconds : Nat} {limit : Option Nat} :
    RowChange i (.defer job owner error delay_seconds limit) db id (db.evaluation_jobs.get? id)
      ((defer i.now job owner error delay_seconds limit db).1.evaluation_jobs.get? id) := by
  show RowChange i _ db id _ ((releaseClaimInSession i.now job owner
    (deferRevocation i.now job delay_seconds limit) _ db).1.evaluation_jobs.get? id)
  refine rowChange_release (fun row => ⟨rfl, rfl, rfl, rfl, rfl, fun hs => hs, rfl⟩) (fun _ => rfl) ?_ ?_
  · intro request hr
    obtain ⟨-, hh, hne, -⟩ := scheduledRecheckRevocation_eq_some (deferRevocation_eq_some hr)
    exact hh ▸ hne
  · intro row row' hp hrel hatt hreason
    exact .deferred row row' job owner error delay_seconds limit rfl hp hrel hatt hreason

end

/-! ## Every call -/

theorem rowChange_run {i : Instant} {db db' : Db} (h : Coherent db) {c : Call} {a : c.Answer}
    (hr : c.run i db = .ok (db', a)) (id : Nat) :
    RowChange i c db id (db.evaluation_jobs.get? id) (db'.evaluation_jobs.get? id) := by
  have of_ok : ∀ {α : Type} {x : Db × α} {a : α}, (.ok x : Except Str (Db × α)) = .ok (db', a) →
      x.1 = db' := by
    intro α x a hx
    injection hx with hx
    rw [hx]
  have of_map : ∀ {x : Except Str Db}, x.map (·, ()) = .ok (db', ()) → x = .ok db' := by
    intro x hx
    cases x with
    | error e => cases hx
    | ok y => cases hx; rfl
  cases c with
  | acceptDelivery => exact rowChange_acceptDelivery h hr
  | enqueue request => exact rowChange_enqueue ⟨request, rfl, Or.inl rfl⟩ h (of_map hr)
  | enqueueSharedHeadTrigger request =>
    exact rowChange_enqueueSharedHeadTrigger ⟨request, rfl, Or.inl rfl⟩ h (of_map hr)
  | enqueueForSharedHeadGeneration request =>
    exact rowChange_enqueueForSharedHeadGeneration ⟨request, rfl, Or.inl rfl⟩ h hr
  | enqueueIfAbsent request =>
    rw [← of_ok hr]
    exact rowChange_enqueueIfAbsent ⟨request, rfl, Or.inl rfl⟩ h
  | enqueueReconciliationIfDue => exact rowChange_enqueueReconciliationIfDue h hr
  | enqueueAuthority => rw [← of_ok hr]; exact (RowChange.kept _).of_rows (by
      rw [show enqueueAuthority _ _ _ = enqueueAuthorityInSession _ _ _ from rfl,
        (enqueueAuthorityInSession_same _).jobs])
  | claim => rw [← of_ok hr]; exact rowChange_claim
  | renewClaim => rw [← of_ok hr]; exact rowChange_renewClaim
  | bindClaimToHead => rw [← of_ok hr]; exact rowChange_bindClaimToHead
  | observeEvaluationBase => rw [← of_ok hr]; exact rowChange_observeEvaluationBase
  | complete => rw [← of_ok hr]; exact rowChange_complete
  | fail => rw [← of_ok hr]; exact rowChange_fail
  | defer => rw [← of_ok hr]; exact rowChange_defer
  | claimSharedHeadInvalidation =>
    rw [← of_ok hr]
    exact (RowChange.kept _).of_rows (by rw [refenced_claimSharedHeadInvalidation.jobs])
  | completeSharedHeadInvalidation =>
    rw [← of_ok hr]
    exact (RowChange.kept _).of_rows (by rw [refenced_completeSharedHeadInvalidation.jobs])
  | claimAuthority => rw [← of_ok hr]; exact (RowChange.kept _).of_rows (by rw [claimAuthority_same.jobs])
  | advanceInstallationAuthorityPage =>
    exact (RowChange.kept _).of_rows (by rw [(advanceInstallationAuthorityPage_same hr).jobs])
  | completeAuthority =>
    rw [← of_ok hr]
    exact (RowChange.kept _).of_rows (by rw [completeAuthority_same.jobs])
  | _ => rw [← of_ok hr]; exact .kept _

/-! ## One row for each pull request -/

/-- What the schema promises: fresh identities, and one row for each pull request. -/
structure Keyed (db : Db) : Prop where
  fresh : ∀ id row, db.evaluation_jobs.get? id = some row → id < db.next_evaluation_job
  unique : ∀ id id' row row', db.evaluation_jobs.get? id = some row →
    db.evaluation_jobs.get? id' = some row' → row.pullKey = row'.pullKey → id = id'

/-- A row is an earlier one of its pull request, or the first. -/
theorem RowChange.origin {i : Instant} {c : Call} {db : Db} {id : Nat} {o : Option EvaluationJob}
    {row' : EvaluationJob} (h : RowChange i c db id o (some row')) :
    (∃ row, o = some row ∧ row.pullKey = row'.pullKey) ∨
      (id = db.next_evaluation_job ∧
        ∀ id' row, db.evaluation_jobs.get? id' = some row → row.pullKey ≠ row'.pullKey) := by
  cases h with
  | kept => exact Or.inl ⟨row', rfl, rfl⟩
  | inserted _ _ _ _ _ hid hnone => exact Or.inr ⟨hid, hnone⟩
  | failed row _ _ _ _ _ _ _ hr => exact Or.inl ⟨row, rfl, hr.pull.symm⟩
  | deferred row _ _ _ _ _ _ _ _ hr => exact Or.inl ⟨row, rfl, hr.pull.symm⟩
  | coalesced row | replaced row | claimed row | renewed row | observed row | bound row =>
    exact Or.inl ⟨row, rfl, rfl⟩

theorem Keyed.unique_run {i : Instant} {db db' : Db} (hk : Keyed db) (h : Coherent db) {c : Call}
    {a : c.Answer} (hr : c.run i db = .ok (db', a)) (id id' : Nat) (row row' : EvaluationJob)
    (hrow : db'.evaluation_jobs.get? id = some row) (hrow' : db'.evaluation_jobs.get? id' = some row')
    (hp : row.pullKey = row'.pullKey) : id = id' := by
  have h₁ := rowChange_run h hr id
  have h₂ := rowChange_run h hr id'
  rw [hrow] at h₁
  rw [hrow'] at h₂
  rcases h₁.origin with ⟨old, ho, hop⟩ | ⟨hid, hnone⟩ <;>
    rcases h₂.origin with ⟨old', ho', hop'⟩ | ⟨hid', hnone'⟩
  · exact hk.unique id id' old old' ho ho' (hop.trans (hp.trans hop'.symm))
  · exact absurd (hop.trans hp) (hnone' id old ho)
  · exact absurd (hop'.trans hp.symm) (hnone id' old' ho')
  · rw [hid, hid']

theorem Keyed.initial : Keyed Db.initial :=
  ⟨fun id row hr => (by cases hr), fun id id' row row' hr => (by cases hr)⟩

end ExtraCodeowners
