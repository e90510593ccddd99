import ExtraCodeowners.World

/-!
# The evaluation service

What one claimed evaluation, one claimed invalidation and one trigger do, as
programs over the effects of the world. Titles, summaries and links of a check
are left out: nothing reads them back.
-/

namespace ExtraCodeowners

abbrev Program (α : Type) := Prog Effect Effect.Answer Exn α

structure Settings extends ReconcilerSettings where
  worker_poll_milliseconds : Nat
  worker_lease_seconds : Nat
  worker_retry_max_seconds : Nat
  authority_inaccessible_retry_max_seconds : Nat

/-! ## Effects as programs -/

def query (q : Query) : Program q.Answer := Prog.perform (E := Effect) (A := Effect.Answer) (.query q)

def call (c : Call) : Program c.Answer := Prog.perform (E := Effect) (A := Effect.Answer) (.call c)

def read (r : GitHubRead) : Program r.Answer := Prog.perform (E := Effect) (A := Effect.Answer) (.read r)

def write (w : CheckWrite) : Program Unit := Prog.perform (E := Effect) (A := Effect.Answer) (.write w)

/-- `base_ref if len(base_ref) <= 255 else None` -/
def shortRef (base_ref : Str) : Option Str :=
  if base_ref.length ≤ MAX_AUTHORITY_BASE_REF_LENGTH then some base_ref else none

def unknownPullState (shown : Str) : Exn :=
  .gitHub (("GitHub returned unknown pull request state " : Str) ++ shown)

namespace EvaluationService

def checkWriteGuard {α : Type} (installation_id : Nat) (head_sha : HeadSha) (body : Program α) :
    Program α := do
  Prog.perform (E := Effect) (A := Effect.Answer) (.acquireCheckWriteGuard installation_id head_sha)
  body.andFinally
    (Prog.perform (E := Effect) (A := Effect.Answer) (.releaseCheckWriteGuard installation_id head_sha))

def authorityPublishGuard {α : Type} (installation_id : Nat) (body : Program α) : Program α := do
  Prog.perform (E := Effect) (A := Effect.Answer) (.acquireAuthorityGuard installation_id)
  body.andFinally
    (Prog.perform (E := Effect) (A := Effect.Answer) (.releaseAuthorityGuard installation_id))

/-- `_repository_policy_text` of the head of a branch, with that head. -/
def branchPolicy (installation_id : Nat) (repository_full_name : Repository) (base_ref : Str) :
    Program (Str × Option Str) := do
  let policy_sha ← read (.getBranchHead installation_id repository_full_name base_ref)
  let text ← read (.repositoryPolicyText installation_id repository_full_name policy_sha)
  return (policy_sha, text)

/-! ## Associated pull requests -/

def conflicting (associated : List AssociatedPull) : Bool :=
  associated.any fun a => associated.any fun b =>
    a.number = b.number && (a.state ≠ b.state || a.head_sha ≠ b.head_sha)

def currentAssociatedPull (installation_id : Nat) (repository_full_name : Repository)
    (before_github_read : Program Unit) (current : List AssociatedPull) (number : Nat) :
    Program (List AssociatedPull) := do
  before_github_read
  let pull : Pull ← read (.getPull installation_id repository_full_name number)
  match pull.state with
  | .unknown shown => Prog.throw (unknownPullState shown)
  | state =>
    if pull.number ≠ number then
      Prog.throw (.gitHub "GitHub changed the associated pull request number")
    else if pull.repository_full_name ≠ repository_full_name then
      Prog.throw (.gitHub "GitHub changed the associated pull request repository")
    else return current ++ [⟨number, state, pull.head_sha⟩]

def currentAssociatedPulls (installation_id : Nat) (repository_full_name : Repository)
    (head_sha : HeadSha) (before_github_read : Program Unit) : Program (List AssociatedPull) := do
  before_github_read
  let associated : List AssociatedPull ←
    read (.listCommitPulls ⟨installation_id, repository_full_name, head_sha⟩)
  if conflicting associated then
    Prog.throw (.gitHub "GitHub returned conflicting associated pull-request snapshots")
  else
    ((associated.map (·.number)).dedup.insertionSort (· ≤ ·)).foldlM
      (currentAssociatedPull installation_id repository_full_name before_github_read) []

def isOpenOn (head_sha : HeadSha) (pull : AssociatedPull) : Bool :=
  pull.state = .OPEN && pull.head_sha = head_sha

def headIsUniqueToPull (job : ClaimedJob) (head_sha : HeadSha) : Program Bool := do
  let current ← currentAssociatedPulls job.installation_id job.repository_full_name head_sha (pure ())
  return (current.filter (isOpenOn head_sha)).map (·.number) = [job.pull_number]

/-! ## The check of a closed or uncertain evaluation -/

def finishClosedPullCheck (job : ClaimedJob) (head_sha : HeadSha) : Program Unit :=
  checkWriteGuard job.installation_id head_sha do
    let current ← currentAssociatedPulls job.installation_id job.repository_full_name head_sha (pure ())
    if current.any (isOpenOn head_sha) then return ()
    else do
      let check_run_id : Option Nat ← read (.existingCheckRunId (job.epochKey head_sha))
      match check_run_id with
      | none => return ()
      | some check_run_id => do
        let completed : Bool ← read (.checkRunIsCompleted (job.epochKey head_sha) check_run_id)
        if completed then return ()
        else write (.cancelCheckRun (job.epochKey head_sha) check_run_id)

/-- `_restore_blocking_after_uncertain_completion`: a failed reset is logged, and
a cancellation is raised after it. -/
def restoreBlockingAfterUncertainCompletion (job : ClaimedJob) (head_sha : HeadSha) : Program Unit :=
  (write (.upsertInterim (job.epochKey head_sha))).handle fun x =>
    if x = .cancelled then Prog.throw x else return ()

def restoringBlocking {α : Type} (job : ClaimedJob) (head_sha : HeadSha) (body : Program α) : Program α :=
  body.handle fun x => do
    restoreBlockingAfterUncertainCompletion job head_sha
    Prog.throw x

/-! ## Evaluating one claimed job -/

def SHARED_HEAD_COMMIT : EvaluationResult where
  conclusion := .FAILURE
  summary := ("the head commit is shared by multiple open pull requests; push a distinct commit " ++
    "before approval" : String)
  requirements := []
  errors := [⟨"shared_head_commit", ("the head commit is shared by multiple open pull requests; push a " ++
    "distinct commit before approval" : String)⟩]
  warnings := []
  unowned_paths := []

def headTrigger (job : ClaimedJob) (pull : Pull) (reason : Str) : JobRequest where
  installation_id := job.installation_id
  repository_full_name := job.repository_full_name
  pull_number := job.pull_number
  reason := reason
  head_sha_hint := some pull.head_sha
  work_class := job.work_class
  observed_at := none
  base_ref_hint := shortRef pull.base_ref

/-- A head whose generation advanced without a check: the enrolled job is kept. -/
def rebindToHead (job : ClaimedJob) (pull : Pull) : Program Unit := do
  let generation : Nat ← query (.sharedHeadGeneration (job.epochKey pull.head_sha))
  let rebound : Bool ← call (.enqueueForSharedHeadGeneration
    (headTrigger job pull "shared_head_generation_changed") generation)
  if rebound then return ()
  else Prog.throw (.sharedHeadInvalidationPending
    "shared-head generation changed while rebinding evaluation")

/-- Revokes a previous success before evidence is collected; the answer is
whether to go on. -/
def revokeBeforeEvidence (job : ClaimedJob) (pull : Pull) : Program Bool :=
  checkWriteGuard job.installation_id pull.head_sha do
    let current_claim : Bool ← query (.isCurrentClaim job)
    if !current_claim then return false
    else do
      let current : Bool ← query (.sharedHeadGenerationIsCurrent job pull.head_sha)
      if !current then do
        rebindToHead job pull
        return false
      else if job.keepsPublishedCheck then return true
      else do
        write (.upsertInterim (job.epochKey pull.head_sha))
        return true

def raiseIfAuthorityPending (job : ClaimedJob) (pull : Pull) (message : Str) : Program Unit := do
  let blocked : Bool ← query (.hasBlockingAuthority job pull.base_ref)
  if blocked then Prog.throw (.authorityChangePending message) else return ()

/-- A success of a commit that several open pull requests share is none. -/
def withoutSharedSuccess (job : ClaimedJob) (head_sha : HeadSha) (result : EvaluationResult) :
    Program EvaluationResult :=
  if result.conclusion = .SUCCESS then do
    let unique ← headIsUniqueToPull job head_sha
    if unique then return result else return SHARED_HEAD_COMMIT
  else return result

def writeCompleted (job : ClaimedJob) (head_sha : HeadSha) (result : EvaluationResult) :
    Program Bool := do
  restoringBlocking job head_sha
    (write (.upsertCompleted (job.epochKey head_sha) job result.conclusion job.keepsPublishedCheck))
  let (claim_current, shared_head_current) ← restoringBlocking job head_sha do
    let claim_current : Bool ← query (.isCurrentClaim job)
    let shared_head_current : Bool ← query (.sharedHeadGenerationIsPublishable job head_sha)
    return (claim_current, shared_head_current)
  if !claim_current || !shared_head_current then do
    restoreBlockingAfterUncertainCompletion job head_sha
    return false
  else return true

/-- The final fences and the write, in the order of the source. No answer stands
for an early return. -/
def publishUnderGuard (job : ClaimedJob) (pull : Pull) (result : EvaluationResult) :
    Program (Option EvaluationResult) :=
  checkWriteGuard job.installation_id pull.head_sha do
    let current_claim : Bool ← query (.isCurrentClaim job)
    if !current_claim then return none
    else do
      let publishable : Bool ← query (.sharedHeadGenerationIsPublishable job pull.head_sha)
      if !publishable then return none
      else do
        raiseIfAuthorityPending job pull "accepted authority change arrived during evaluation"
        let result ← withoutSharedSuccess job pull.head_sha result
        let publishable : Bool ← query (.sharedHeadGenerationIsPublishable job pull.head_sha)
        if !publishable then return none
        else do
          let current_claim : Bool ← query (.isCurrentClaim job)
          if !current_claim then return none
          else do
            let published ← writeCompleted job pull.head_sha result
            if published then return some result else return none

def supersededOrPending (job : ClaimedJob) (pull : Pull) : Program (Bool × Bool) := do
  let superseded : Bool ← query (.hasSupersedingJob job)
  let authority_pending : Bool ← query (.hasBlockingAuthority job pull.base_ref)
  return (superseded, authority_pending)

/-- The reset after a publication that a trigger overtook; the answer is whether
the publication stands. -/
def resetIfOvertaken (job : ClaimedJob) (pull : Pull) : Program Bool := do
  let (superseded, authority_pending) ← supersededOrPending job pull
  if !(superseded || authority_pending) then return true
  else
    checkWriteGuard job.installation_id pull.head_sha do
      let (superseded, authority_pending) ← supersededOrPending job pull
      if !(superseded || authority_pending) then return true
      else do
        write (.upsertInterim (job.epochKey pull.head_sha))
        if authority_pending then
          Prog.throw (.authorityChangePending "accepted authority change arrived during check publication")
        else return false

def publish (job : ClaimedJob) (pull : Pull) (result : EvaluationResult) : Program Unit := do
  let published ← authorityPublishGuard job.installation_id do
    let published ← publishUnderGuard job pull result
    match published with
    | none => return none
    | some result => do
      let stands ← resetIfOvertaken job pull
      return if stands then some result else none
  match published with
  | none => return ()
  | some result =>
    Prog.perform (E := Effect) (A := Effect.Answer) (.recordAudit job pull.head_sha result)

def sameRevision (pull current : Pull) : Bool :=
  current.head_sha = pull.head_sha && current.base_sha = pull.base_sha &&
    current.base_ref = pull.base_ref && current.changed_files = pull.changed_files &&
    current.labels = pull.labels

/-- Closes the window in which the evidence may have aged. -/
def publishIfUnchanged (job : ClaimedJob) (pull : Pull) (policy_sha : Str) (result : EvaluationResult) :
    Program Unit := do
  let current : Pull ← read (.getPull job.installation_id job.repository_full_name job.pull_number)
  match current.state with
  | .unknown shown => Prog.throw (unknownPullState shown)
  | .CLOSED => finishClosedPullCheck job pull.head_sha
  | .OPEN =>
    if !sameRevision pull current then
      call (.enqueueSharedHeadTrigger (headTrigger job current "pull_request_changed_during_evaluation"))
    else do
      let sha : Str ← read (.getBranchHead job.installation_id job.repository_full_name pull.base_ref)
      if sha ≠ policy_sha then
        call (.enqueueSharedHeadTrigger (headTrigger job current "pull_request_changed_during_evaluation"))
      else publish job pull result

def markInvalidated : Option Str → Program Unit
  | none => return ()
  | some delivery_id => do
    let _ : Bool ← call (.markDeliveryInvalidated delivery_id)
    return ()

def policyOr (policy : Option (Str × Option Str)) (fresh : Program (Str × Option Str)) :
    Program (Str × Option Str) :=
  match policy with
  | some policy => return policy
  | none => fresh

def evaluateRevoked (job : ClaimedJob) (pull : Pull) (policy : Option (Str × Option Str)) :
    Program Unit := do
  markInvalidated job.last_delivery_id
  let publishable : Bool ← query (.sharedHeadGenerationIsPublishable job pull.head_sha)
  if !publishable then
    Prog.throw (.sharedHeadInvalidationPending "exact-head invalidation must complete before evaluation")
  else do
    raiseIfAuthorityPending job pull "accepted authority change is still awaiting durable fan-out"
    let (policy_sha, repository_text) ← policyOr policy
      (branchPolicy job.installation_id job.repository_full_name pull.base_ref)
    let result : EvaluationResult ← read (.evaluateCurrent job pull policy_sha repository_text)
    publishIfUnchanged job pull policy_sha result

/-- A claim bound to the head of its open pull request. Without a managed check
the policy decides first whether the pull request is enrolled. -/
def evaluateBound (job : ClaimedJob) (pull : Pull) : Program Unit := do
  let managed_check : Bool ← read (.hasCheckRun (job.epochKey pull.head_sha))
  let policy ← (if managed_check then pure none
    else some <$> branchPolicy job.installation_id job.repository_full_name pull.base_ref :
      Program (Option (Str × Option Str)))
  match policy with
  | some (_, none) => return ()
  | _ => do
    let going ← revokeBeforeEvidence job pull
    if going then evaluateRevoked job pull policy else return ()

def evaluateOpen (job : ClaimedJob) (pull : Pull) : Program Unit := do
  let observed : Bool ← call (.observeEvaluationBase job pull.base_ref)
  if !observed then return ()
  else if job.head_sha_hint ≠ none ∧ job.head_sha_hint ≠ some pull.head_sha then
    call (.enqueueSharedHeadTrigger (headTrigger job pull "head_changed_before_evaluation"))
  else do
    let bound_job : Option ClaimedJob ← call (.bindClaimToHead job pull.head_sha)
    match bound_job with
    | none => return ()
    | some job => evaluateBound job pull

def evaluateJob (settings : Settings) (job : ClaimedJob) : Program Unit :=
  if settings.isOrganizationConfigRepository job.repository_full_name.full_name then return ()
  else do
    let pull : Pull ← read (.getPull job.installation_id job.repository_full_name job.pull_number)
    if pull.repository_full_name ≠ job.repository_full_name then return ()
    else
      match pull.state with
      | .unknown shown => Prog.throw (unknownPullState shown)
      | .CLOSED => finishClosedPullCheck job (job.head_sha_hint.getD pull.head_sha)
      | .OPEN => evaluateOpen job pull

/-! ## Triggers -/

def policyPresent (installation_id : Nat) (repository_full_name : Repository) (base_ref : Str) :
    Program Bool := do
  let policy ← branchPolicy installation_id repository_full_name base_ref
  return policy.2.isSome

def authorityFollowupRequired (job : JobRequest) (policy_present : Str → Program Bool) :
    Program Bool := do
  let pull : Pull ← read (.getPull job.installation_id job.repository_full_name job.pull_number)
  if pull.state ≠ .OPEN ∨ some pull.head_sha ≠ job.head_sha_hint ∨
      pull.repository_full_name ≠ job.repository_full_name then return true
  else do
    let managed : Bool ← read (.hasReconciliationCheck (job.epochKey pull.head_sha))
    if managed then return true else policy_present pull.base_ref

def resetOf (key : EpochKey) : Option Nat → CheckWrite
  | none => .upsertInterim key
  | some check_run_id => .resetCheckRun key check_run_id

def invalidateAcceptedHead (job : JobRequest) (pull : Pull) (accepted_head : HeadSha)
    (shared_head_generation : Nat) (live_head_queued : Bool) (policy_present : Str → Program Bool) :
    Program Bool :=
  checkWriteGuard job.installation_id accepted_head do
    let pending : Bool ← query (.sharedHeadInvalidationIsPending (job.epochKey accepted_head)
      shared_head_generation)
    if !pending then return live_head_queued
    else do
      let check_run_id : Option Nat ← read (.existingCheckRunId (job.epochKey accepted_head))
      let going : Bool ← (if check_run_id.isSome then pure true
        else if pull.head_sha ≠ accepted_head then pure false
        else policy_present pull.base_ref : Program Bool)
      if !going then return live_head_queued
      else do
        -- the lookup can outlive the generation of this delivery
        let pending : Bool ← query (.sharedHeadInvalidationIsPending (job.epochKey accepted_head)
          shared_head_generation)
        if !pending then return live_head_queued
        else do
          write (resetOf (job.epochKey accepted_head) check_run_id)
          return true

def invalidateLiveHead (job : JobRequest) (pull : Pull) (policy_present : Str → Program Bool) :
    Program Bool := do
  let managed_check : Bool ← read (.hasCheckRun (job.epochKey pull.head_sha))
  let enrolled : Bool ← (if managed_check then pure true else policy_present pull.base_ref : Program Bool)
  if !enrolled then return false
  else do
    checkWriteGuard job.installation_id pull.head_sha (write (.upsertInterim (job.epochKey pull.head_sha)))
    return true

def liveHeadTrigger (job : JobRequest) (pull : Pull) : JobRequest :=
  { job with
    reason := "head_changed_before_fast_invalidation"
    head_sha_hint := some pull.head_sha
    observed_at := none
    base_ref_hint := shortRef pull.base_ref }

/-- The exact head of a webhook keeps its own row; a newer head is fenced besides. -/
def queueLiveHead (job : JobRequest) (pull : Pull) : Program Bool :=
  if job.head_sha_hint ≠ none ∧ job.head_sha_hint ≠ some pull.head_sha then do
    call (.enqueueSharedHeadTrigger (liveHeadTrigger job pull))
    return true
  else return false

/-- `invalidate_for_trigger`; a delivery without a head has no generation. -/
def invalidateForTrigger (settings : Settings) (job : JobRequest) (shared_head_generation : Option Nat)
    (policy_present : Str → Program Bool) : Program Bool :=
  if settings.isOrganizationConfigRepository job.repository_full_name.full_name then return false
  else do
    let pull : Pull ← read (.getPull job.installation_id job.repository_full_name job.pull_number)
    match pull.state with
    | .unknown shown => Prog.throw (unknownPullState shown)
    | .CLOSED => return false
    | .OPEN => do
      let live_head_queued ← queueLiveHead job pull
      match shared_head_generation, job.head_sha_hint with
      | none, _ => invalidateLiveHead job pull policy_present
      | some _, none => Prog.throw (.other INVALID_HEAD_SHA)
      | some generation, some accepted_head =>
        invalidateAcceptedHead job pull accepted_head generation live_head_queued policy_present

/-! ## Exact-head invalidations -/

def requireCurrentClaim (job : ClaimedSharedHeadInvalidation) : Program Unit := do
  let lost : Bool ← Prog.perform (E := Effect) (A := Effect.Answer) .leaseIsLost
  let current : Bool ← (if lost then pure false else query (.isCurrentSharedHeadInvalidation job) :
    Program Bool)
  if current then return ()
  else Prog.throw (.sharedHeadLeaseLost
    "shared-head invalidation lease or generation is no longer current")

def fanOutRequest (job : ClaimedSharedHeadInvalidation) (number : Nat) : JobRequest where
  installation_id := job.installation_id
  repository_full_name := job.repository_full_name
  pull_number := number
  reason := "shared_head_invalidation"
  head_sha_hint := some job.head_sha
  work_class := job.work_class
  observed_at := none
  base_ref_hint := none

def fanOut (job : ClaimedSharedHeadInvalidation) (pull : AssociatedPull) : Program Unit :=
  if !isOpenOn job.head_sha pull then return ()
  else do
    requireCurrentClaim job
    let current : Bool ← call (.enqueueForSharedHeadGeneration (fanOutRequest job pull.number)
      job.generation)
    if current then return ()
    else Prog.throw (.sharedHeadLeaseLost "shared-head generation changed during pull-request fan-out")

/-- The reset under the writer guard; without a check there is no result to revoke. -/
def resetSharedHead (job : ClaimedSharedHeadInvalidation) : Program (Option (List AssociatedPull)) :=
  checkWriteGuard job.installation_id job.head_sha do
    requireCurrentClaim job
    let check_run_id : Option Nat ← read (.existingCheckRunId job.epochKey)
    requireCurrentClaim job
    match check_run_id with
    | none => return none
    | some check_run_id => do
      let current ← currentAssociatedPulls job.installation_id job.repository_full_name job.head_sha
        (requireCurrentClaim job)
      requireCurrentClaim job
      (if current.any (isOpenOn job.head_sha) then write (.resetCheckRun job.epochKey check_run_id)
        else pure () : Program Unit)
      return some current

def invalidateSharedHead (job : ClaimedSharedHeadInvalidation) : Program Unit := do
  let current ← resetSharedHead job
  match current with
  | none => return ()
  | some current => do
    current.forM (fanOut job)
    requireCurrentClaim job

end EvaluationService

end ExtraCodeowners
