import ExtraCodeowners.Database

/-!
# Claims on evaluations and invalidations

Leasing rows, the reads that fence a claimant, and the ways a claim ends. A
row a concurrent claim has locked is skipped.
-/

namespace ExtraCodeowners

/-- `bound_at` accompanies `shared_head_generation` and is no field of the source. -/
structure ClaimedJob where
  id : Nat
  installation_id : Nat
  repository_full_name : Repository
  pull_number : Nat
  reason : Str
  work_class : WorkClass
  head_sha_hint : Option HeadSha
  last_delivery_id : Option Str
  generation : Nat
  authority_generation : Nat
  shared_head_generation : Nat
  attempts : Nat
  requested_at : Time
  available_at : Time
  lease_owner : Str
  base_ref_hint : Option Str
  bound_at : Nat

def ClaimedJob.keepsPublishedCheck (job : ClaimedJob) : Bool :=
  job.reason = SCHEDULED_RECHECK_REASON && job.attempts ≤ 1

def ClaimedJob.epochKey (job : ClaimedJob) (head : HeadSha) : EpochKey :=
  ⟨job.installation_id, job.repository_full_name, head⟩

/-- `claimed_at` is no field of the source: the advances before the claim. -/
structure ClaimedSharedHeadInvalidation where
  installation_id : Nat
  repository_full_name : Repository
  head_sha : HeadSha
  generation : Nat
  work_class : WorkClass
  attempts : Nat
  requested_at : Time
  available_at : Time
  lease_owner : Str
  claimed_at : Nat

def ClaimedSharedHeadInvalidation.epochKey (job : ClaimedSharedHeadInvalidation) : EpochKey :=
  ⟨job.installation_id, job.repository_full_name, job.head_sha⟩

/-! ## Provider backpressure -/

def providerAvailable (now : Time) (installation_id : Nat) (db : Db) : Bool :=
  !db.provider_backpressure.any fun k row =>
    (k = 0 || k = installation_id) && now < row.blocked_until

def clampDelay (delay_seconds : Nat) : Nat := max 1 (min delay_seconds 86400)

def recordProviderBackpressure (now : Time) (installation_id : Option Nat) (error : Str)
    (delay_seconds : Nat) (db : Db) : Db :=
  let key := installation_id.getD 0
  let blocked_until := now + seconds (clampDelay delay_seconds)
  { db with
    provider_backpressure := db.provider_backpressure.set key
      ⟨max (((db.provider_backpressure.get? key).map (·.blocked_until)).getD 0) blocked_until,
        error.take 2000, now⟩ }

/-! ## Claiming an evaluation -/

def leaseIsFree (now : Time) (lease_until : Option Time) : Bool :=
  match lease_until with
  | none => true
  | some expiry => expiry < now

/-- An authority row that fences the evaluation. -/
def fences (authority : AuthorityJob) (job : EvaluationJob) : Bool :=
  authority.installation_id = job.installation_id &&
    (authority.scope_key = .all ||
      (authority.scope_key = .repository job.repository_full_name &&
        (authority.base_ref = [] || job.base_ref_hint = some authority.base_ref)))

def awaitsReset (db : Db) (job : EvaluationJob) : Bool :=
  match job.head_sha_hint with
  | none => false
  | some head =>
    match db.shared_head_epochs.get? (job.epochKey head) with
    | none => false
    | some e => 0 < job.shared_head_generation && e.invalidated_generation < job.shared_head_generation

def isClaimable (now : Time) (work_class : Option WorkClass) (require_shared_head_ready : Bool) (db : Db)
    (job : EvaluationJob) : Bool :=
  job.state = .pending && job.available_at ≤ now && leaseIsFree now job.lease_until &&
    !(db.authority_jobs.any fun _ authority => fences authority job) &&
    providerAvailable now job.installation_id db &&
    (!require_shared_head_ready || !awaitsReset db job) &&
    (work_class = none || work_class = some job.work_class)

/-- A reclaimed lease fences the previous worker by a new generation. -/
def EvaluationJob.claimed (job : EvaluationJob) (owner : Str) (lease_until : Time) : EvaluationJob :=
  { job with
    lease_owner := some owner
    lease_until := some lease_until
    attempts := job.attempts + 1
    generation := if job.lease_owner.isSome then job.generation + 1 else job.generation }

def claimedView (id : Nat) (job : EvaluationJob) (owner : Str) : ClaimedJob where
  id := id
  installation_id := job.installation_id
  repository_full_name := job.repository_full_name
  pull_number := job.pull_number
  reason := job.reason
  work_class := job.work_class
  head_sha_hint := job.head_sha_hint
  last_delivery_id := job.last_delivery_id
  generation := job.generation
  authority_generation := job.authority_generation
  shared_head_generation := job.shared_head_generation
  attempts := job.attempts
  requested_at := job.requested_at
  available_at := job.available_at
  lease_owner := owner
  base_ref_hint := job.base_ref_hint
  bound_at := job.bound_at

def claim (now : Time) (locked : Nat → Bool) (owner : Str) (lease_seconds : Nat)
    (work_class : Option WorkClass) (require_shared_head_ready : Bool) (db : Db) :
    Db × Option ClaimedJob :=
  match db.evaluation_jobs.select
      (fun id job => !locked id && isClaimable now work_class require_shared_head_ready db job)
      (fun a b => a.2.available_at < b.2.available_at ||
        (a.2.available_at == b.2.available_at && a.1 < b.1)) with
  | none => (db, none)
  | some (id, job) =>
    ({ db with
        evaluation_jobs := db.evaluation_jobs.set id (job.claimed owner (now + seconds lease_seconds)) },
      some (claimedView id (job.claimed owner (now + seconds lease_seconds)) owner))

/-! ## Reads that fence a claimant -/

def isCurrentGeneration (job : ClaimedJob) (db : Db) : Bool :=
  (db.evaluation_jobs.get? job.id).map (·.generation) = some job.generation

def isCurrentClaim (now : Time) (job : ClaimedJob) (db : Db) : Bool :=
  match db.evaluation_jobs.get? job.id with
  | none => false
  | some row =>
    match row.lease_until with
    | none => false
    | some expiry =>
      row.generation = job.generation && row.authority_generation = job.authority_generation &&
        authorityGeneration job.installation_id db = job.authority_generation &&
        row.lease_owner = some job.lease_owner && now ≤ expiry

def sharedHeadGenerationIsCurrent (job : ClaimedJob) (head : HeadSha) (db : Db) : Bool :=
  job.head_sha_hint = some head && db.epochGeneration (job.epochKey head) = job.shared_head_generation

def sharedHeadGenerationIsPublishable (job : ClaimedJob) (head : HeadSha) (db : Db) : Bool :=
  job.head_sha_hint = some head &&
    match db.shared_head_epochs.get? (job.epochKey head) with
    | none => job.shared_head_generation = 0
    | some e => e.generation = job.shared_head_generation &&
        e.invalidated_generation = job.shared_head_generation

def sharedHeadInvalidationIsPending (key : EpochKey) (generation : Nat) (db : Db) : Bool :=
  match db.shared_head_epochs.get? key with
  | none => false
  | some e => e.generation = generation && e.invalidated_generation < generation

def hasSupersedingJob (job : ClaimedJob) (db : Db) : Bool :=
  match db.evaluation_jobs.get? job.id with
  | none => false
  | some row => job.generation < row.generation && row.state = .pending

/-- Any authority row that can affect the pull request, in whatever state. -/
def hasBlockingAuthority (job : ClaimedJob) (base_ref : Str) (db : Db) : Bool :=
  db.authority_jobs.any fun _ authority =>
    authority.installation_id = job.installation_id &&
      (authority.scope_key = .all || authority.scope_key = .repository job.repository_full_name) &&
      (authority.base_ref = [] || authority.base_ref = base_ref)

/-! ## While a claim is held -/

def holdsClaim (job : ClaimedJob) (owner : Str) (id : Nat) (row : EvaluationJob) : Bool :=
  id = job.id && row.generation = job.generation && row.lease_owner = some owner

def renewClaim (now : Time) (job : ClaimedJob) (lease_seconds : Nat) (db : Db) : Db × Bool :=
  ({ db with
      evaluation_jobs := db.evaluation_jobs.updateWhere
        (fun id row => holdsClaim job job.lease_owner id row && row.state = .pending)
        fun row => { row with lease_until := some (now + seconds lease_seconds) } },
    db.evaluation_jobs.any fun id row => holdsClaim job job.lease_owner id row && row.state = .pending)

def requestOf (job : ClaimedJob) (head_sha_hint : Option HeadSha) (base_ref_hint : Option Str) :
    JobRequest :=
  JobRequest.postInit
    { installation_id := job.installation_id
      repository_full_name := job.repository_full_name
      pull_number := job.pull_number
      reason := job.reason
      head_sha_hint := head_sha_hint
      work_class := job.work_class
      observed_at := none
      base_ref_hint := base_ref_hint }

/-- Binding a claim without a head advances that head in the same transaction. -/
def bindClaimToHead (now : Time) (job : ClaimedJob) (head : HeadSha) (db : Db) :
    Db × Option ClaimedJob :=
  match job.head_sha_hint with
  | some hint => (db, if hint = head then some job else none)
  | none =>
    if db.evaluation_jobs.any fun id row =>
        holdsClaim job job.lease_owner id row && row.state = .pending && row.head_sha_hint = none then
      let (advanced, generation) :=
        advanceSharedHeadEpochInSession now (requestOf job (some head) none) head db
      ({ advanced with
          evaluation_jobs := advanced.evaluation_jobs.updateWhere
            (fun id row => holdsClaim job job.lease_owner id row && row.state = .pending &&
              row.head_sha_hint = none)
            fun row => { row with
              head_sha_hint := some head
              shared_head_generation := generation
              bound_at := advanced.advances (job.epochKey head) } },
        some { job with
          head_sha_hint := some head
          shared_head_generation := generation
          bound_at := advanced.advances (job.epochKey head) })
    else (db, none)

def isBaseRefHint (base_ref : Str) : Bool :=
  base_ref ≠ [] && base_ref.length ≤ MAX_AUTHORITY_BASE_REF_LENGTH &&
    !base_ref.any fun c => c.toNat < 32 || c.toNat = 127

def observesBase (now : Time) (job : ClaimedJob) (id : Nat) (row : EvaluationJob) : Bool :=
  holdsClaim job job.lease_owner id row && row.state = .pending &&
    match row.lease_until with
    | none => false
    | some expiry => now < expiry

def observeEvaluationBase (now : Time) (job : ClaimedJob) (base_ref : Str) (db : Db) : Db × Bool :=
  let hint := if isBaseRefHint base_ref then some base_ref else none
  if db.evaluation_jobs.any (observesBase now job) then
    let observed := { db with
      evaluation_jobs := db.evaluation_jobs.updateWhere (observesBase now job)
        fun row => { row with base_ref_hint := hint } }
    (if hint ≠ none ∧ job.work_class = .interactive then
      wakeAuthorityForInteractive now (requestOf job job.head_sha_hint hint) observed
    else observed, true)
  else (db, false)

/-! ## The end of a claim -/

/-- Deletes the claimed generation and confirms its completion. -/
def complete (now : Time) (job : ClaimedJob) (owner : Str) (db : Db) : Db × Bool :=
  match (db.evaluation_jobs.get? job.id).filter (holdsClaim job owner job.id) with
  | none => (db, false)
  | some completed =>
    let removed := { db with evaluation_jobs := db.evaluation_jobs.deleteWhere (holdsClaim job owner) }
    (match completed.head_sha_hint with
      | none => removed
      | some head => { removed with
          reconciliation_states := removed.reconciliation_states.set completed.pullKey
            ⟨head, now, some now, now⟩ }, true)

def scheduledRecheckRevocation (job : ClaimedJob) : Option JobRequest :=
  if job.reason ≠ SCHEDULED_RECHECK_REASON ∨ job.head_sha_hint = none then none
  else
    some { requestOf job job.head_sha_hint job.base_ref_hint with
      reason := PERIODIC_RECONCILIATION_REASON }.postInit

/-- Releases a claim; a revocation advances the head and rebinds the row. -/
def releaseClaimInSession (now : Time) (job : ClaimedJob) (owner : Str) (revocation : Option JobRequest)
    (values : EvaluationJob → EvaluationJob) (db : Db) : Db × Bool :=
  if db.evaluation_jobs.any (holdsClaim job owner) then
    let released := { db with
      evaluation_jobs := db.evaluation_jobs.updateWhere (holdsClaim job owner) values }
    match revocation.bind fun request => request.head_sha_hint.map (request, ·) with
    | none => (released, true)
    | some (request, head) =>
      let (advanced, generation) := advanceSharedHeadEpochInSession now request head released
      ({ advanced with
          evaluation_jobs := advanced.evaluation_jobs.updateWhere
            (fun id row => id = job.id && row.generation = job.generation)
            fun row => { row with
              reason := request.reason
              shared_head_generation := generation
              bound_at := advanced.advances (request.epochKey head) } }, true)
  else (db, false)

def fail (now : Time) (job : ClaimedJob) (owner error : Str) (max_delay_seconds : Nat) (db : Db) : Db :=
  let delay_seconds := max 1 (min max_delay_seconds (2 ^ min job.attempts 30))
  (releaseClaimInSession now job owner (scheduledRecheckRevocation job)
    (fun row => { row with
      state := .pending
      available_at := now + seconds delay_seconds
      lease_owner := none
      lease_until := none
      last_error := some (error.take 2000) }) db).1

def defer (now : Time) (job : ClaimedJob) (owner error : Str) (delay_seconds : Nat)
    (scheduled_recheck_limit_seconds : Option Nat) (db : Db) : Db × Bool :=
  let retry_at := now + seconds (clampDelay delay_seconds)
  let revocation :=
    match scheduled_recheck_limit_seconds with
    | none => none
    | some limit =>
      if job.requested_at + seconds limit < retry_at then scheduledRecheckRevocation job else none
  releaseClaimInSession now job owner revocation
    (fun row => { row with
      attempts := row.attempts - 1
      available_at := retry_at
      lease_owner := none
      lease_until := none
      last_error := some (error.take 2000) }) db

/-! ## Exact-head invalidations -/

def isClaimableInvalidation (now : Time) (work_class : Option WorkClass) (db : Db) (key : EpochKey)
    (e : SharedHeadEpoch) : Bool :=
  e.invalidated_generation < e.generation && e.available_at ≤ now && leaseIsFree now e.lease_until &&
    providerAvailable now key.installation_id db &&
    (work_class = none || work_class = some e.work_class)

def epochOrder (a b : EpochKey × SharedHeadEpoch) : Ordering :=
  (compare a.2.available_at b.2.available_at).then <|
    (compare a.2.changed_at b.2.changed_at).then <|
    (compare a.1.installation_id b.1.installation_id).then <|
    (compare a.1.repository_full_name.full_name b.1.repository_full_name.full_name).then
      (compare a.1.head_sha.1 b.1.head_sha.1)

def claimSharedHeadInvalidation (now : Time) (locked : EpochKey → Bool) (owner : Str)
    (lease_seconds : Nat) (work_class : Option WorkClass) (db : Db) :
    Db × Option ClaimedSharedHeadInvalidation :=
  match db.shared_head_epochs.select
      (fun key e => !locked key && isClaimableInvalidation now work_class db key e)
      (fun a b => epochOrder a b = .lt) with
  | none => (db, none)
  | some (key, e) =>
    ({ db with
        shared_head_epochs := db.shared_head_epochs.set key
          { e with
            lease_owner := some owner
            lease_until := some (now + seconds lease_seconds)
            attempts := e.attempts + 1 } },
      some
        { installation_id := key.installation_id
          repository_full_name := key.repository_full_name
          head_sha := key.head_sha
          generation := e.generation
          work_class := e.work_class
          attempts := e.attempts + 1
          requested_at := e.changed_at
          available_at := e.available_at
          lease_owner := owner
          claimed_at := db.advances key })

/-- The unexpired lease of the claimed, still pending generation. -/
def holdsInvalidation (now : Time) (job : ClaimedSharedHeadInvalidation) (e : SharedHeadEpoch) : Bool :=
  e.generation = job.generation && e.invalidated_generation < job.generation &&
    e.lease_owner = some job.lease_owner &&
    match e.lease_until with
    | none => false
    | some expiry => now ≤ expiry

def isCurrentSharedHeadInvalidation (now : Time) (job : ClaimedSharedHeadInvalidation) (db : Db) : Bool :=
  match db.shared_head_epochs.get? job.epochKey with
  | none => false
  | some e => holdsInvalidation now job e

/-- The updates of the row that a claimant of an invalidation may make. -/
def updateInvalidation (now : Time) (job : ClaimedSharedHeadInvalidation)
    (values : SharedHeadEpoch → SharedHeadEpoch) (db : Db) : Db × Bool :=
  ({ db with
      shared_head_epochs := db.shared_head_epochs.updateWhere
        (fun key e => key = job.epochKey && holdsInvalidation now job e) values },
    isCurrentSharedHeadInvalidation now job db)

def renewSharedHeadInvalidation (now : Time) (job : ClaimedSharedHeadInvalidation) (lease_seconds : Nat)
    (db : Db) : Db × Bool :=
  updateInvalidation now job
    (fun e => { e with lease_until := some (now + seconds lease_seconds) }) db

/-- The claimed generation is the row's own, so completing it completes the row's. -/
def SharedHeadEpoch.completed (e : SharedHeadEpoch) : SharedHeadEpoch :=
  { e with
    invalidated_generation := e.generation
    lease_owner := none
    lease_until := none
    last_error := none
    invalidation_bounds := le_refl _ }

def completeSharedHeadInvalidation (now : Time) (job : ClaimedSharedHeadInvalidation) (db : Db) :
    Db × Bool :=
  let (updated, completed) := updateInvalidation now job (·.completed) db
  (if completed then
    { updated with
      completions := ⟨job.epochKey, job.generation, db.advances job.epochKey⟩ :: db.completions }
  else updated, completed)

def failSharedHeadInvalidation (now : Time) (job : ClaimedSharedHeadInvalidation) (error : Str)
    (max_delay_seconds : Nat) (db : Db) : Db × Bool :=
  let delay_seconds := max 1 (min max_delay_seconds (2 ^ min job.attempts 30))
  updateInvalidation now job
    (fun e => { e with
      available_at := now + seconds delay_seconds
      lease_owner := none
      lease_until := none
      last_error := some (error.take 2000) }) db

def deferSharedHeadInvalidation (now : Time) (job : ClaimedSharedHeadInvalidation) (error : Str)
    (delay_seconds : Nat) (db : Db) : Db × Bool :=
  updateInvalidation now job
    (fun e => { e with
      attempts := e.attempts - 1
      available_at := now + seconds (clampDelay delay_seconds)
      lease_owner := none
      lease_until := none
      last_error := some (error.take 2000) }) db

/-! ## Retention -/

def isReferenced (db : Db) (key : EpochKey) : Bool :=
  db.evaluation_jobs.any fun _ job =>
    job.installation_id = key.installation_id && job.repository_full_name = key.repository_full_name &&
      job.head_sha_hint = some key.head_sha

def isPrunable (older_than : Time) (db : Db) (key : EpochKey) (e : SharedHeadEpoch) : Bool :=
  e.changed_at < older_than && e.invalidated_generation = e.generation && e.lease_owner = none &&
    e.lease_until = none && !isReferenced db key

def pruneSharedHeadEpochs (older_than : Time) (db : Db) : Db × Nat :=
  ({ db with shared_head_epochs := db.shared_head_epochs.deleteWhere (isPrunable older_than db) },
    db.shared_head_epochs.countWhere (isPrunable older_than db))

def pruneReconciliationStates (older_than : Time) (db : Db) : Db × Nat :=
  ({ db with
      reconciliation_states := db.reconciliation_states.deleteWhere
        fun _ state => state.observed_at < older_than },
    db.reconciliation_states.countWhere fun _ state => state.observed_at < older_than)

end ExtraCodeowners
