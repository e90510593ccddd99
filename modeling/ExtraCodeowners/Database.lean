import ExtraCodeowners.Lib.Dict
import ExtraCodeowners.Text

/-!
# The durable queue

The tables of the queue store and the operations that accept triggers. Each
operation is one transaction: a function of the clock reading and the tables,
which returns the tables unchanged when it raises.

Row ids come from counters that only grow, as the sequences of PostgreSQL do.
SQLite gives the id of a deleted last row out again.
-/

namespace ExtraCodeowners

/-- Microseconds. -/
abbrev Time := Nat

def seconds (n : Nat) : Time := n * 1000000

/-! ## Keys -/

def isHeadSha (value : Str) : Bool :=
  (value.length == 40 || value.length == 64) &&
    value.all fun c => c.isDigit || ('a' ≤ c && c ≤ 'f')

/-- A value that `validate_head_sha` returns. A request with another hint
raises there, before any write. -/
def HeadSha := {value : Str // isHeadSha value = true}

instance : DecidableEq HeadSha := inferInstanceAs (DecidableEq (Subtype _))

theorem isHeadSha_replicate : isHeadSha (List.replicate 40 'a') = true := by decide

def INVALID_HEAD_SHA : Str :=
  ("head_sha must be exactly 40 or 64 lowercase ASCII hexadecimal characters" : Str)

/-- A normalized `owner/repository`; it is never the scope key `*`. -/
structure Repository where
  full_name : Str
  deriving DecidableEq

structure EpochKey where
  installation_id : Nat
  repository_full_name : Repository
  head_sha : HeadSha
  deriving DecidableEq

structure PullKey where
  installation_id : Nat
  repository_full_name : Repository
  pull_number : Nat
  deriving DecidableEq

/-- `repository_full_name or "*"` -/
inductive ScopeKey where
  | all
  | repository (full_name : Repository)
  deriving DecidableEq

inductive WorkClass where
  | interactive
  | recovery
  deriving DecidableEq

inductive JobState where
  | pending
  | dead
  deriving DecidableEq

def SCHEDULED_RECHECK_REASON : Str := ("scheduled_recheck" : Str)

def PERIODIC_RECONCILIATION_REASON : Str := ("periodic_reconciliation" : Str)

def MAX_BASE_SCOPED_AUTHORITY_JOBS_PER_REPOSITORY : Nat := 100

def MAX_AUTHORITY_BASE_REF_LENGTH : Nat := 255

/-! ## Tables -/

/-- `bound_at` is no column: it records how many advances of the head's epoch
preceded the transaction that wrote `shared_head_generation`. -/
structure EvaluationJob where
  installation_id : Nat
  repository_full_name : Repository
  pull_number : Nat
  head_sha_hint : Option HeadSha
  base_ref_hint : Option Str
  last_delivery_id : Option Str
  reason : Str
  work_class : WorkClass
  generation : Nat
  authority_generation : Nat
  shared_head_generation : Nat
  state : JobState
  attempts : Nat
  requested_at : Time
  available_at : Time
  lease_owner : Option Str
  lease_until : Option Time
  last_error : Option Str
  bound_at : Nat

structure WebhookDelivery where
  event : Str
  received_at : Time
  invalidation_required : Bool
  invalidation_completed_at : Option Time
  installation_id : Option Nat
  repository_full_name : Option Repository
  pull_number : Option Nat
  head_sha : Option HeadSha
  shared_head_generation : Option Nat

structure AuthorityJob where
  installation_id : Nat
  scope_key : ScopeKey
  base_ref : Str
  reason : Str
  generation : Nat
  pull_cursor_number : Nat
  handled_pull_fingerprints : Dict Str Str
  listing_next_page : Nat
  listing_last_number : Nat
  listing_expected_total : Option Nat
  membership_next_page : Nat
  membership_expected_total : Option Nat
  target_base_refs : Dict Str Str
  interactive_wake_generation : Nat
  pending_base_refs : Dict Str Str
  pending_full_rescan : Bool
  pending_rescan_reason : Option Str
  state : JobState
  attempts : Nat
  requested_at : Time
  available_at : Time
  lease_owner : Option Str
  lease_until : Option Time
  last_error : Option Str

structure AuthorityEpoch where
  generation : Nat
  changed_at : Time

structure SharedHeadEpoch where
  generation : Nat
  invalidated_generation : Nat
  work_class : WorkClass
  changed_at : Time
  available_at : Time
  attempts : Nat
  lease_owner : Option Str
  lease_until : Option Time
  last_error : Option Str
  generation_positive : 1 ≤ generation
  invalidation_bounds : invalidated_generation ≤ generation

structure ReconciliationState where
  head_sha : HeadSha
  completed_at : Time
  confirmed_completed_at : Option Time
  observed_at : Time

structure ProviderBackpressure where
  blocked_until : Time
  reason : Str
  updated_at : Time

/-- A committed completion: the generation it completed and how many advances
of the epoch preceded it. -/
structure Completion where
  key : EpochKey
  generation : Nat
  at_advance : Nat

/-- `advances` and `completions` are no tables: they count the advances of
each head's epoch and list the committed invalidations. -/
structure Db where
  evaluation_jobs : Dict Nat EvaluationJob
  next_evaluation_job : Nat
  webhook_deliveries : Dict Str WebhookDelivery
  authority_jobs : Dict Nat AuthorityJob
  next_authority_job : Nat
  authority_epochs : Dict Nat AuthorityEpoch
  shared_head_epochs : Dict EpochKey SharedHeadEpoch
  reconciliation_states : Dict PullKey ReconciliationState
  provider_backpressure : Dict Nat ProviderBackpressure
  advances : EpochKey → Nat
  completions : List Completion

def Db.initial : Db where
  evaluation_jobs := ∅
  next_evaluation_job := 1
  webhook_deliveries := ∅
  authority_jobs := ∅
  next_authority_job := 1
  authority_epochs := ∅
  shared_head_epochs := ∅
  reconciliation_states := ∅
  provider_backpressure := ∅
  advances := fun _ => 0
  completions := []

/-! ## Requests -/

structure JobRequest where
  installation_id : Nat
  repository_full_name : Repository
  pull_number : Nat
  reason : Str
  head_sha_hint : Option HeadSha
  work_class : WorkClass
  observed_at : Option Time
  base_ref_hint : Option Str

/-- `JobRequest.__post_init__`: periodic work is never interactive. -/
def JobRequest.postInit (request : JobRequest) : JobRequest :=
  if (request.reason = PERIODIC_RECONCILIATION_REASON ∨ request.reason = SCHEDULED_RECHECK_REASON) ∧
      request.work_class = .interactive then { request with work_class := .recovery }
  else request

def JobRequest.epochKey (request : JobRequest) (head : HeadSha) : EpochKey :=
  ⟨request.installation_id, request.repository_full_name, head⟩

def JobRequest.pullKey (request : JobRequest) : PullKey :=
  ⟨request.installation_id, request.repository_full_name, request.pull_number⟩

structure AuthorityRequest where
  installation_id : Nat
  repository_full_name : Option Repository
  base_ref : Option Str
  reason : Str

def AuthorityRequest.scopeKey (request : AuthorityRequest) : ScopeKey :=
  match request.repository_full_name with
  | none => .all
  | some repository => .repository repository

def EvaluationJob.pullKey (job : EvaluationJob) : PullKey :=
  ⟨job.installation_id, job.repository_full_name, job.pull_number⟩

def EvaluationJob.epochKey (job : EvaluationJob) (head : HeadSha) : EpochKey :=
  ⟨job.installation_id, job.repository_full_name, head⟩

/-! ## Shared-head epochs -/

def Db.epochGeneration (db : Db) (key : EpochKey) : Nat :=
  ((db.shared_head_epochs.get? key).map (·.generation)).getD 0

def sharedHeadGenerationInSession (installation_id : Nat) (repository_full_name : Repository)
    (head_sha : Option HeadSha) (db : Db) : Nat :=
  match head_sha with
  | none => 0
  | some head => db.epochGeneration ⟨installation_id, repository_full_name, head⟩

def touchSharedHeadEpochInSession (now : Time) (key : EpochKey) (db : Db) : Db × Nat :=
  ({ db with
      shared_head_epochs := db.shared_head_epochs.updateWhere (fun k _ => k = key)
        fun e => { e with changed_at := now } },
    db.epochGeneration key)

/-- Interactive work of this head, or of this pull request without a head. -/
def foregroundWaiting (request : JobRequest) (head : HeadSha) (db : Db) : Bool :=
  db.evaluation_jobs.any fun _ job =>
    job.installation_id = request.installation_id &&
      job.repository_full_name = request.repository_full_name && job.state = .pending &&
      job.work_class = .interactive &&
      (job.head_sha_hint = some head ||
        (job.head_sha_hint = none && job.pull_number = request.pull_number))

/-- The epoch row after an advance, whether it existed or not. -/
def nextEpoch (now : Time) (waiting : Bool) (work_class : WorkClass) :
    Option SharedHeadEpoch → SharedHeadEpoch
  | some e =>
    { e with
      generation := e.generation + 1
      work_class :=
        if waiting = true ∨ (e.work_class = .interactive ∧ e.invalidated_generation < e.generation)
        then .interactive else work_class
      changed_at := now
      available_at := now
      attempts := 0
      lease_owner := none
      lease_until := none
      last_error := none
      generation_positive := by omega
      invalidation_bounds := Nat.le_succ_of_le e.invalidation_bounds }
  | none =>
    { generation := 1
      invalidated_generation := 0
      work_class := if waiting then .interactive else work_class
      changed_at := now
      available_at := now
      attempts := 0
      lease_owner := none
      lease_until := none
      last_error := none
      generation_positive := le_refl 1
      invalidation_bounds := Nat.zero_le 1 }

def advanceSharedHeadEpochInSession (now : Time) (request : JobRequest) (head : HeadSha) (db : Db) :
    Db × Nat :=
  ({ db with
      shared_head_epochs := db.shared_head_epochs.set (request.epochKey head)
        (nextEpoch now (foregroundWaiting request head db) request.work_class
          (db.shared_head_epochs.get? (request.epochKey head)))
      advances := Function.update db.advances (request.epochKey head)
        (db.advances (request.epochKey head) + 1) },
    db.epochGeneration (request.epochKey head) + 1)

/-! ## Enqueueing evaluations -/

def authorityGeneration (installation_id : Nat) (db : Db) : Nat :=
  ((db.authority_epochs.get? installation_id).map (·.generation)).getD 0

def advancesOf (request : JobRequest) (db : Db) : Nat :=
  match request.head_sha_hint with
  | none => 0
  | some head => db.advances (request.epochKey head)

/-- `_wake_authority_for_interactive`: the authority rows that cover the request. -/
def wakes (request : JobRequest) (job : AuthorityJob) : Bool :=
  job.installation_id = request.installation_id && job.state = .pending &&
    (job.scope_key = .all ||
      (job.scope_key = .repository request.repository_full_name &&
        (job.base_ref = [] || request.base_ref_hint = some job.base_ref)))

def wakeAuthorityForInteractive (now : Time) (request : JobRequest) (db : Db) : Db :=
  if request.work_class = .interactive then
    { db with
      authority_jobs := db.authority_jobs.updateWhere (fun _ job => wakes request job) fun job =>
        { job with
          available_at := now
          interactive_wake_generation := job.interactive_wake_generation + 1 } }
  else db

def insertEvaluationJob (job : EvaluationJob) (db : Db) : Db :=
  { db with
    evaluation_jobs := db.evaluation_jobs.insertNew db.next_evaluation_job job
    next_evaluation_job := db.next_evaluation_job + 1 }

/-- The row of a first trigger. -/
def newJob (now : Time) (request : JobRequest) (delivery_id : Option Str) (generation : Nat) (db : Db) :
    EvaluationJob where
  installation_id := request.installation_id
  repository_full_name := request.repository_full_name
  pull_number := request.pull_number
  head_sha_hint := request.head_sha_hint
  base_ref_hint := request.base_ref_hint
  last_delivery_id := delivery_id
  reason := request.reason
  work_class := request.work_class
  generation := 1
  authority_generation := authorityGeneration request.installation_id db
  shared_head_generation := generation
  state := .pending
  attempts := 0
  requested_at := now
  available_at := now
  lease_owner := none
  lease_until := none
  last_error := none
  bound_at := advancesOf request db

/-- The row of a later trigger, which coalesces into an existing one. -/
def coalescedJob (now : Time) (request : JobRequest) (delivery_id : Option Str) (generation : Nat)
    (preserve_work_class : Bool) (db : Db) (job : EvaluationJob) : EvaluationJob :=
  { job with
    generation := job.generation + 1
    work_class :=
      if preserve_work_class = true ∧ job.work_class = .interactive then .interactive
      else request.work_class
    authority_generation := authorityGeneration request.installation_id db
    shared_head_generation := generation
    reason := request.reason
    head_sha_hint := request.head_sha_hint
    base_ref_hint := request.base_ref_hint
    last_delivery_id := delivery_id.or job.last_delivery_id
    requested_at := now
    available_at := now
    state := .pending
    attempts := 0
    lease_owner := none
    lease_until := none
    last_error := none
    bound_at := advancesOf request db }

def isForRequest (request : JobRequest) (job : EvaluationJob) : Bool := job.pullKey = request.pullKey

def enqueueInSession (now : Time) (request : JobRequest) (delivery_id : Option Str)
    (shared_head_generation : Nat) (preserve_different_head preserve_work_class : Bool) (db : Db) : Db :=
  if db.evaluation_jobs.any fun _ job => isForRequest request job &&
      (!preserve_different_head || job.head_sha_hint = none ||
        job.head_sha_hint = request.head_sha_hint) then
    wakeAuthorityForInteractive now request
      { db with
        evaluation_jobs := db.evaluation_jobs.updateWhere
          (fun _ job => isForRequest request job &&
            (!preserve_different_head || job.head_sha_hint = none ||
              job.head_sha_hint = request.head_sha_hint))
          (coalescedJob now request delivery_id shared_head_generation preserve_work_class db) }
  else if preserve_different_head && db.evaluation_jobs.any fun _ job => isForRequest request job then db
  else
    wakeAuthorityForInteractive now request
      (insertEvaluationJob (newJob now request delivery_id shared_head_generation db) db)

def enqueueSharedHeadTrigger (now : Time) (request : JobRequest) (db : Db) : Except Str Db :=
  match request.head_sha_hint with
  | none => .error INVALID_HEAD_SHA
  | some head =>
    let (advanced, generation) := advanceSharedHeadEpochInSession now request head db
    .ok (enqueueInSession now request none generation false true advanced)

def enqueue (now : Time) (request : JobRequest) (db : Db) : Except Str Db :=
  match request.head_sha_hint with
  | some _ => enqueueSharedHeadTrigger now request db
  | none =>
    .ok (enqueueInSession now request none
      (sharedHeadGenerationInSession request.installation_id request.repository_full_name none db)
      false true db)

def enqueueForSharedHeadGeneration (now : Time) (request : JobRequest) (shared_head_generation : Nat)
    (db : Db) : Except Str (Db × Bool) :=
  match request.head_sha_hint with
  | none => .error INVALID_HEAD_SHA
  | some head =>
    if shared_head_generation = 0 then .error ("shared_head_generation must be positive" : Str)
    else if db.epochGeneration (request.epochKey head) ≠ shared_head_generation then .ok (db, false)
    else if db.evaluation_jobs.any fun _ job => isForRequest request job &&
        job.head_sha_hint ≠ none && job.head_sha_hint ≠ some head then .ok (db, true)
    else .ok (enqueueInSession now request none shared_head_generation true true db, true)

/-- `on_conflict_do_nothing`: a present row rolls the transaction back. -/
def insertIfAbsent (now : Time) (request : JobRequest) (generation : Nat) (before db : Db) : Db × Bool :=
  if before.evaluation_jobs.any fun _ job => isForRequest request job then (before, false)
  else (insertEvaluationJob (newJob now request none generation db) db, true)

def enqueueIfAbsent (now : Time) (request : JobRequest) (db : Db) : Db × Bool :=
  match request.head_sha_hint with
  | none => insertIfAbsent now request 0 db db
  | some head =>
    let (advanced, generation) := advanceSharedHeadEpochInSession now request head db
    insertIfAbsent now request generation db advanced

/-! ## Reconciliation -/

def observeState (now : Time) (request : JobRequest) (db : Db) : Db :=
  { db with
    reconciliation_states := db.reconciliation_states.updateWhere (fun k _ => k = request.pullKey)
      fun state => { state with observed_at := now } }

/-- The completion of exactly this head, when its writer confirmed it. -/
def confirmedAt (request : JobRequest) (head : HeadSha) (db : Db) : Option Time :=
  ((db.reconciliation_states.get? request.pullKey).filter fun state =>
    state.head_sha = head ∧ state.confirmed_completed_at = some state.completed_at).map (·.completed_at)

def pendingJob (request : JobRequest) (db : Db) : Option EvaluationJob :=
  (db.evaluation_jobs.entries.find? fun e => isForRequest request e.2).map Prod.snd

def enqueueReconciliationIfDue (now : Time) (request : JobRequest) (recheck_seconds : Nat) (db : Db) :
    Except Str (Db × Bool) :=
  if request.work_class ≠ .recovery then
    .error ("reconciliation work must use the recovery class" : Str)
  else
    match request.head_sha_hint, request.observed_at with
    | none, _ => .error ("reconciliation work requires an exact head SHA" : Str)
    | some _, none => .error ("reconciliation work requires a GitHub observation timestamp" : Str)
    | some head, some observed_at =>
      if recheck_seconds < 1 then .error ("recheck_seconds must be positive" : Str)
      else
        match pendingJob request db with
        | some existing =>
          if existing.head_sha_hint = some head ∨
              (existing.work_class = .interactive ∧ observed_at < existing.requested_at) then
            .ok (observeState now request db, false)
          else
            let (advanced, generation) := advanceSharedHeadEpochInSession now request head db
            .ok (observeState now request (enqueueInSession now request none generation false
              (existing.work_class ≠ .interactive) advanced), true)
        | none =>
          match confirmedAt request head db with
          | some confirmed_at =>
            if now < confirmed_at + seconds recheck_seconds then
              .ok (observeState now request db, false)
            else
              let recheck := { request with reason := SCHEDULED_RECHECK_REASON }.postInit
              let (touched, generation) :=
                touchSharedHeadEpochInSession now (request.epochKey head) db
              .ok (insertIfAbsent now recheck generation db touched)
          | none =>
            let (advanced, generation) := advanceSharedHeadEpochInSession now request head db
            .ok (insertIfAbsent now request generation db advanced)

/-! ## Authority requests -/

def newAuthorityJob (now : Time) (request : AuthorityRequest) (target_base_refs : Dict Str Str) :
    AuthorityJob where
  installation_id := request.installation_id
  scope_key := request.scopeKey
  base_ref := []
  reason := request.reason
  generation := 1
  pull_cursor_number := 0
  handled_pull_fingerprints := ∅
  listing_next_page := 1
  listing_last_number := 0
  listing_expected_total := none
  membership_next_page := 1
  membership_expected_total := none
  target_base_refs := target_base_refs
  interactive_wake_generation := 0
  pending_base_refs := ∅
  pending_full_rescan := false
  pending_rescan_reason := none
  state := .pending
  attempts := 0
  requested_at := now
  available_at := now
  lease_owner := none
  lease_until := none
  last_error := none

/-- The branch of a repository request; none stands for every branch. -/
def targetRef (request : AuthorityRequest) : Option Str :=
  match request.repository_full_name with
  | none => none
  | some _ => request.base_ref.filter fun ref => ref.length ≤ MAX_AUTHORITY_BASE_REF_LENGTH

/-- No pass over the row has recorded an observation. -/
def AuthorityJob.unstarted (job : AuthorityJob) : Bool :=
  job.lease_owner = none && job.attempts = 0 && job.listing_next_page = 1 &&
    job.listing_last_number = 0 && job.handled_pull_fingerprints.entries.isEmpty

/-- The targets of an unstarted pass widened by a request; the empty set means
every branch. -/
def widenTargets (target_ref : Option Str) (reason : Str) (targets : Dict Str Str) : Dict Str Str :=
  match target_ref with
  | none => ∅
  | some ref =>
    if targets.entries.isEmpty then targets
    else if (targets.set ref reason).entries.length ≤ MAX_BASE_SCOPED_AUTHORITY_JOBS_PER_REPOSITORY then
      targets.set ref reason
    else ∅

/-- A request that arrives on an existing row. -/
def coalescedAuthorityJob (now : Time) (request : AuthorityRequest) (job : AuthorityJob) : AuthorityJob :=
  let woken := { job with
    available_at := now
    interactive_wake_generation := job.interactive_wake_generation + 1 }
  if job.unstarted then
    { woken with
      target_base_refs := widenTargets (targetRef request) request.reason job.target_base_refs
      reason := request.reason }
  else
    match targetRef request with
    | none =>
      { woken with
        pending_full_rescan := true
        pending_rescan_reason := some request.reason
        pending_base_refs := ∅ }
    | some ref =>
      if job.pending_full_rescan then woken
      else if MAX_BASE_SCOPED_AUTHORITY_JOBS_PER_REPOSITORY <
          (job.pending_base_refs.set ref request.reason).entries.length then
        { woken with
          pending_full_rescan := true
          pending_rescan_reason := some request.reason
          pending_base_refs := ∅ }
      else { woken with pending_base_refs := job.pending_base_refs.set ref request.reason }

def isForAuthority (request : AuthorityRequest) (job : AuthorityJob) : Bool :=
  job.installation_id = request.installation_id && job.scope_key = request.scopeKey && job.base_ref = []

def enqueueAuthorityInSession (now : Time) (request : AuthorityRequest) (db : Db) : Db :=
  if db.authority_jobs.any fun _ job => isForAuthority request job then
    { db with
      authority_jobs := db.authority_jobs.updateWhere (fun _ job => isForAuthority request job)
        (coalescedAuthorityJob now request) }
  else
    { db with
      authority_jobs := db.authority_jobs.insertNew db.next_authority_job
        (newAuthorityJob now request
          (match targetRef request with
            | none => ∅
            | some ref => Dict.empty.set ref request.reason))
      next_authority_job := db.next_authority_job + 1 }

def bumpAuthorityEpochInSession (now : Time) (installation_id : Nat) (db : Db) : Db :=
  { db with
    authority_epochs := db.authority_epochs.set installation_id
      ⟨authorityGeneration installation_id db + 1, now⟩ }

/-! ## Accepting a webhook -/

inductive DeliveryRequest where
  | job (request : JobRequest)
  | authority (request : AuthorityRequest)

structure DeliveryAcceptance where
  accepted : Bool
  shared_head_generation : Option Nat

def WebhookDelivery.identity (delivery : WebhookDelivery) :
    Option Nat × Option Repository × Option Nat × Option HeadSha :=
  (delivery.installation_id, delivery.repository_full_name, delivery.pull_number, delivery.head_sha)

/-- A replay returns the token of its first acceptance. -/
def replayDelivery (event : Str) (request : Option DeliveryRequest) (delivery : WebhookDelivery) :
    Except Str DeliveryAcceptance :=
  if delivery.event ≠ event then
    .error ("accepted delivery ID was replayed with a different event" : Str)
  else
    match request with
    | some (.job request) =>
      if (delivery.invalidation_required = true ∧ delivery.identity = (none, none, none, none) ∧
            delivery.shared_head_generation = none) ∨
          delivery.identity = (some request.installation_id, some request.repository_full_name,
            some request.pull_number, request.head_sha_hint) then
        .ok ⟨false, delivery.shared_head_generation⟩
      else .error ("accepted delivery ID was replayed with different pull-request identity" : Str)
    | _ => .ok ⟨false, delivery.shared_head_generation⟩

def recordDelivery (delivery_id : Str) (delivery : WebhookDelivery) (db : Db) : Db :=
  { db with webhook_deliveries := db.webhook_deliveries.insertNew delivery_id delivery }

/-- `accept_delivery` inside its session; an authority request holds the
exclusive guard of its installation. -/
def acceptDelivery (now : Time) (delivery_id event : Str) (request : Option DeliveryRequest) (db : Db) :
    Except Str (Db × DeliveryAcceptance) :=
  match db.webhook_deliveries.get? delivery_id with
  | some delivery => (replayDelivery event request delivery).map (db, ·)
  | none =>
    match request with
    | none =>
      .ok (recordDelivery delivery_id ⟨event, now, false, none, none, none, none, none, none⟩ db,
        ⟨true, none⟩)
    | some (.authority request) =>
      let recorded :=
        recordDelivery delivery_id ⟨event, now, false, none, none, none, none, none, none⟩ db
      let bumped :=
        if request.repository_full_name = none then
          bumpAuthorityEpochInSession now request.installation_id recorded
        else recorded
      .ok (enqueueAuthorityInSession now request bumped, ⟨true, none⟩)
    | some (.job request) =>
      match request.head_sha_hint with
      | none => .error INVALID_HEAD_SHA
      | some head =>
        let (advanced, generation) := advanceSharedHeadEpochInSession now request head db
        let recorded := recordDelivery delivery_id
          ⟨event, now, true, none, some request.installation_id, some request.repository_full_name,
            some request.pull_number, some head, some generation⟩ advanced
        .ok (enqueueInSession now request (some delivery_id) generation false true recorded,
          ⟨true, some generation⟩)

def enqueueAuthority (now : Time) (request : AuthorityRequest) (db : Db) : Db :=
  enqueueAuthorityInSession now request db

def deliveryNeedsInvalidation (delivery_id : Str) (db : Db) : Bool :=
  match db.webhook_deliveries.get? delivery_id with
  | none => false
  | some delivery => delivery.invalidation_required && delivery.invalidation_completed_at = none

def needsInvalidation (delivery_id : Str) (id : Str) (delivery : WebhookDelivery) : Bool :=
  id = delivery_id && delivery.invalidation_required && delivery.invalidation_completed_at = none

def markDeliveryInvalidated (now : Time) (delivery_id : Str) (db : Db) : Db × Bool :=
  ({ db with
      webhook_deliveries := db.webhook_deliveries.updateWhere (needsInvalidation delivery_id)
        fun delivery => { delivery with invalidation_completed_at := some now } },
    db.webhook_deliveries.any (needsInvalidation delivery_id))

end ExtraCodeowners
