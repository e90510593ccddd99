import ExtraCodeowners.Service

/-!
# The worker

One iteration of each kind of slot: claim a row, attempt its work, and end the
claim in the way the outcome asks for. A webhook is accepted and may reset its
head at once. A loop over pages has fuel; where it ends the process is
cancelled, which may happen to it anywhere.
-/

namespace ExtraCodeowners

namespace Worker

/-! ## Evaluations -/

/-- `max(5, int(worker_poll_seconds * 10))` -/
def authorityDelay (settings : Settings) : Nat := max 5 (settings.worker_poll_milliseconds / 100)

/-- `max(1, int(worker_poll_seconds * 2))` -/
def invalidationDelay (settings : Settings) : Nat := max 1 (settings.worker_poll_milliseconds / 500)

def defer (job : ClaimedJob) (owner : Str) (x : Exn) (delay_seconds : Nat)
    (scheduled_recheck_limit_seconds : Option Nat) : Program Unit := do
  let _ : Bool ← call (.defer job owner x.message delay_seconds scheduled_recheck_limit_seconds)
  return ()

def recordBackpressure (installation_id : Nat) (message : Str) (retry_after_seconds : Nat)
    (global_scope : Bool) : Program Unit :=
  call (.recordProviderBackpressure (if global_scope then none else some installation_id) message
    retry_after_seconds)

def evaluationFailed (settings : Settings) (job : ClaimedJob) (owner : Str) (x : Exn) : Program Unit :=
  match x with
  | .recoveryBudgetDeferred retry_after_seconds _ =>
    defer job owner x retry_after_seconds (some settings.reconcile_recheck_seconds)
  | .gitHubRateLimit message retry_after_seconds global_scope => do
    recordBackpressure job.installation_id message retry_after_seconds global_scope
    defer job owner x retry_after_seconds (some settings.reconcile_recheck_seconds)
  | .authorityChangePending _ => defer job owner x (authorityDelay settings) none
  | .sharedHeadInvalidationPending _ => defer job owner x (invalidationDelay settings) none
  | .cancelled => Prog.throw x
  | _ => call (.fail job owner x.message settings.worker_retry_max_seconds)

/-- `_process`. Its heartbeat is part of the environment. -/
def process (settings : Settings) (job : ClaimedJob) (owner : Str) : Program Unit :=
  (EvaluationService.evaluateJob settings job).tryElse (evaluationFailed settings job owner) fun _ => do
    let _ : Bool ← call (.complete job owner)
    return ()

/-! ## Exact-head invalidations -/

def deferSharedHead (job : ClaimedSharedHeadInvalidation) (x : Exn) (delay_seconds : Nat) :
    Program Unit := do
  let _ : Bool ← call (.deferSharedHeadInvalidation job x.message delay_seconds)
  return ()

def invalidationFailed (settings : Settings) (job : ClaimedSharedHeadInvalidation) (x : Exn) :
    Program Unit :=
  match x with
  | .sharedHeadLeaseLost _ => return ()
  | .recoveryBudgetDeferred retry_after_seconds _ => deferSharedHead job x retry_after_seconds
  | .gitHubRateLimit message retry_after_seconds global_scope => do
    recordBackpressure job.installation_id message retry_after_seconds global_scope
    deferSharedHead job x retry_after_seconds
  | .cancelled => Prog.throw x
  | _ => do
    let _ : Bool ← call (.failSharedHeadInvalidation job x.message settings.worker_retry_max_seconds)
    return ()

def processSharedHead (settings : Settings) (job : ClaimedSharedHeadInvalidation) : Program Unit :=
  (EvaluationService.invalidateSharedHead job).tryElse (invalidationFailed settings job) fun _ => do
    let lost : Bool ← Prog.perform (E := Effect) (A := Effect.Answer) .leaseIsLost
    if lost then return ()
    else do
      let _ : Bool ← call (.completeSharedHeadInvalidation job)
      return ()

/-! ## Membership of a repository -/

def outOfFuel {α : Type} : Program α := Prog.throw .cancelled

/-- The loop of `_authority_repository_absent`; the answer is whether the
repository was listed. -/
def corroborateMembership (job : ClaimedAuthorityJob) (full_name : Repository) :
    Nat → (next_page : Nat) → (expected_total : Option Nat) → Program Bool
  | 0, _, _ => outOfFuel
  | fuel + 1, next_page, expected_total =>
    if next_page = 0 then return false
    else do
      let page : InstallationRepositoryPage ←
        (read (.listInstallationRepositoryPage job.installation_id next_page expected_total)).handle fun x => do
          (if x = .installationRepositoriesChanged then do
              let _ : Bool ← call (.advanceAuthorityMembershipPage job 1 none)
              pure ()
            else pure () : Program Unit)
          Prog.throw x
      if page.repositories.repositories.any fun r => r.1 = full_name then return true
      else do
        let current : Bool ← call (.advanceAuthorityMembershipPage job page.next_page (some page.total_count))
        if !current then
          Prog.throw (.gitHub "repository membership corroboration claim was superseded")
        else corroborateMembership job full_name fuel page.next_page (some page.total_count)

def authorityRepositoryAbsent (fuel : Nat) (job : ClaimedAuthorityJob) (full_name : Repository) :
    Program Bool := do
  let listed ← corroborateMembership job full_name fuel job.membership_next_page
    job.membership_expected_total
  if listed then return false
  else do
    let included : Bool ← read (.installationIncludesRepository job.installation_id full_name)
    return !included

def isInaccessible (status_code : Nat) : Bool := status_code ∈ [301, 308, 404, 410]

/-- An error alone is no proof of absence: what it interrupts ends quietly only
when complete membership evidence corroborates it. -/
def orProvenAbsent {α : Type} (fuel : Nat) (job : ClaimedAuthorityJob) (full_name : Repository)
    (body : Program (Option α)) : Program (Option α) :=
  body.handle fun x =>
    match x with
    | .gitHubAPI _ status_code =>
      if isInaccessible status_code then do
        let absent ← authorityRepositoryAbsent fuel job full_name
        if absent then return none else Prog.throw x
      else Prog.throw x
    | _ => Prog.throw x

def requireMembership (fuel : Nat) (job : ClaimedAuthorityJob) (full_name : Repository) :
    Program (Option Unit) :=
  orProvenAbsent fuel job full_name do
    let included : Bool ← read (.installationIncludesRepository job.installation_id full_name)
    if !included then do
      let absent ← authorityRepositoryAbsent fuel job full_name
      if absent then return none
      else Prog.throw (.gitHub "repository authority membership evidence is inconsistent")
    else if job.reason = ("installation_repositories.added" : Str) then do
      let current : Repository × Bool ← read (.getRepository job.installation_id full_name)
      if current.1 ≠ full_name then
        Prog.throw (.gitHub "repository addition metadata changed its full name")
      else if current.2 then return none
      else return some ()
    else return some ()

/-! ## Installation-wide discovery -/

def installationChildren (settings : Settings) (job : ClaimedAuthorityJob)
    (page : InstallationRepositoryPage) : List AuthorityRequest :=
  (page.repositories.repositories.filter settings.scans).map fun r =>
    ⟨job.installation_id, some r.1, none, job.reason⟩

/-- Children and the progress of their page commit together. -/
def discoverInstallation (settings : Settings) (job : ClaimedAuthorityJob) :
    Nat → (next_page : Nat) → (expected_total : Option Nat) → Program Unit
  | 0, _, _ => outOfFuel
  | fuel + 1, next_page, expected_total =>
    if next_page = 0 then return ()
    else do
      let page : InstallationRepositoryPage ←
        (read (.listInstallationRepositoryPage job.installation_id next_page expected_total)).handle fun x => do
          (if x = .installationRepositoriesChanged then do
              let _ : Bool ← call (.advanceInstallationAuthorityPage job [] 1 none)
              pure ()
            else pure () : Program Unit)
          Prog.throw x
      let current : Bool ← call (.advanceInstallationAuthorityPage job
        (installationChildren settings job page) page.next_page (some page.total_count))
      if !current then return ()
      else discoverInstallation settings job fuel page.next_page (some page.total_count)

/-! ## Repository discovery -/

end Worker

structure PullObservation where
  number : Nat
  head_sha : HeadSha
  base_ref : Str
  updated_at : Str
  deriving DecidableEq

def AuthorityPull.observation (pull : AuthorityPull) : PullObservation :=
  ⟨pull.number, pull.head_sha, pull.base_ref, pull.updated_at⟩

/-- SHA-256 of the JSON text of an observation, in hexadecimal. -/
class PullDigest where
  hexdigest : PullObservation → Str

namespace Worker

def isTargeted (job : ClaimedAuthorityJob) (base_ref : Str) : Bool :=
  (job.base_ref = none || job.base_ref = some base_ref) &&
    (job.target_base_refs.entries.isEmpty || (job.target_base_refs.get? base_ref).isSome)

def targetedPulls (job : ClaimedAuthorityJob) (page : AuthorityPullPage) : List AuthorityPull :=
  page.pulls.filter fun pull => isTargeted job pull.base_ref

def revocationRequest (job : ClaimedAuthorityJob) (full_name : Repository) (pull : AuthorityPull) :
    JobRequest :=
  JobRequest.postInit
    { installation_id := job.installation_id
      repository_full_name := full_name
      pull_number := pull.number
      reason := (job.target_base_refs.get? pull.base_ref).getD job.reason
      head_sha_hint := some pull.head_sha
      work_class := .recovery
      observed_at := none
      base_ref_hint :=
        if 0 < pull.base_ref.length ∧ pull.base_ref.length ≤ MAX_AUTHORITY_BASE_REF_LENGTH
        then some pull.base_ref else none }

/-- One observation of a branch and its policy for an attempt, errors included.
Of two tasks that miss it at once both observe; the source has the second wait. -/
def policyPresent (job : ClaimedAuthorityJob) (full_name : Repository) (base_ref : Str) : Program Bool := do
  let known : Option (Except Exn Bool) ←
    Prog.perform (E := Effect) (A := Effect.Answer) (.recallPolicy base_ref)
  match known with
  | some (.ok present) => return present
  | some (.error x) => Prog.throw x
  | none =>
    (do
      let present ← EvaluationService.policyPresent job.installation_id full_name base_ref
      Prog.perform (E := Effect) (A := Effect.Answer) (.rememberPolicy base_ref (.ok present))
      return present).handle fun x => do
        (if x = Exn.cancelled then pure ()
          else Prog.perform (E := Effect) (A := Effect.Answer) (.rememberPolicy base_ref (.error x)) :
          Program Unit)
        Prog.throw x

def promoted (request : JobRequest) : JobRequest :=
  { request with work_class := .interactive }.postInit

def revocationFailed (request : JobRequest) (x : Exn) : Program Unit :=
  match x with
  | .recoveryBudgetDeferred .. | .cancelled => Prog.throw x
  | .gitHubRateLimit .. => do
    (call (.enqueue (promoted request))).handle fun y =>
      if y = Exn.cancelled then Prog.throw y else return ()
    Prog.throw x
  | _ => call (.enqueue (promoted request))

/-- `revoke`: an evaluation is queued before its check is reset. -/
def revoke (settings : Settings) (job : ClaimedAuthorityJob) (full_name : Repository)
    (request : JobRequest) : Program Unit :=
  (do
    let required ← EvaluationService.authorityFollowupRequired request (policyPresent job full_name)
    if !required then return ()
    else do
      call (.enqueue request)
      let _ ← EvaluationService.invalidateForTrigger settings (promoted request) none
        (policyPresent job full_name)
      return ()).handle (revocationFailed request)

section
variable [PullDigest]

def observations (pulls : List AuthorityPull) : Dict Str Str :=
  pulls.foldl (fun seen pull => seen.set (decimal pull.number) (PullDigest.hexdigest pull.observation)) ∅

def isHandled (handled : Dict Str Str) (pull : AuthorityPull) : Bool :=
  handled.get? (decimal pull.number) = some (PullDigest.hexdigest pull.observation)

def batch (handled : Dict Str Str) (pulls : List AuthorityPull) : List AuthorityPull :=
  (pulls.filter fun pull => !isHandled handled pull).insertionSort fun a b => a.number ≤ b.number

/-- The successful contiguous prefix: its last number and the handled
fingerprints. A later success must not hide an earlier failure. -/
def checkpointPrefix (handled : Dict Str Str) (number : Nat) :
    List (AuthorityPull × Except Exn Unit) → Nat × Dict Str Str
  | (pull, .ok _) :: rest =>
    checkpointPrefix (handled.set (decimal pull.number) (PullDigest.hexdigest pull.observation))
      pull.number rest
  | _ => (number, handled)

def rateLimits (outcomes : List (Except Exn Unit)) : List (Str × Nat × Bool) :=
  outcomes.filterMap fun
    | .error (.gitHubRateLimit message retry_after_seconds global_scope) =>
      some (message, retry_after_seconds, global_scope)
    | _ => none

def longest : List (Str × Nat × Bool) → Option (Str × Nat × Bool)
  | [] => none
  | limit :: rest => some (rest.foldl (fun best other => if best.2.1 < other.2.1 then other else best) limit)

def firstError : List (Except Exn Unit) → Option Exn
  | [] => none
  | .error x :: _ => some x
  | .ok _ :: rest => firstError rest

def raiseOutcomes (outcomes : List (Except Exn Unit)) : Program Unit :=
  match longest (rateLimits outcomes) with
  | some (message, retry_after_seconds, global_scope) => do
    (match longest ((rateLimits outcomes).filter (·.2.2)) with
      | some (message, retry_after_seconds, _) =>
        call (.recordProviderBackpressure none message retry_after_seconds)
      | none => pure () : Program Unit)
    Prog.throw (.gitHubRateLimit message retry_after_seconds global_scope)
  | none =>
    match firstError outcomes with
    | some x => Prog.throw x
    | none => return ()

def savePrefix (job : ClaimedAuthorityJob) (prefix_number : Nat) (handled : Dict Str Str) :
    Program Unit :=
  if prefix_number = 0 then return ()
  else do
    let current : Bool ← call (.advanceAuthorityCursor job prefix_number (some handled) none none)
    if !current then
      Prog.throw (.gitHub "authority discovery lost its claim before checkpointing")
    else return ()

def revokePage (settings : Settings) (job : ClaimedAuthorityJob) (full_name : Repository)
    (handled : Dict Str Str) (page : AuthorityPullPage) : Program Nat := do
  let seen := observations (targetedPulls job page)
  let left := batch handled (targetedPulls job page)
  let outcomes ← Prog.gather (E := Effect) (A := Effect.Answer) .pick (fun a => a matches .ok true)
    (left.map fun pull => revoke settings job full_name (revocationRequest job full_name pull))
  let (prefix_number, handled) := checkpointPrefix
    (handled.deleteWhere fun number _ => (seen.get? number).isNone) 0 (left.zip outcomes)
  savePrefix job prefix_number handled
  raiseOutcomes outcomes
  return prefix_number

def discoverPulls (settings : Settings) (job : ClaimedAuthorityJob) (full_name : Repository) :
    Nat → (next_page last_number completed_number : Nat) → (handled : Dict Str Str) → Program Unit
  | 0, _, _, _, _ => outOfFuel
  | fuel + 1, next_page, last_number, completed_number, handled =>
    if next_page = 0 then return ()
    else do
      let listed : Option AuthorityPullPage ← orProvenAbsent fuel job full_name
        (some <$> read (.listAuthorityPullPage job.installation_id full_name next_page last_number))
      match listed with
      | none => return ()
      | some page => do
        let prefix_number ← revokePage settings job full_name handled page
        let completed_number := max completed_number prefix_number
        let current : Bool ← call (.advanceAuthorityCursor job completed_number (some ∅)
          (some page.next_page) (some page.last_number))
        if !current then
          Prog.throw (.gitHub "authority discovery lost its claim before page checkpointing")
        else
          discoverPulls settings job full_name fuel page.next_page page.last_number completed_number ∅

def discoverAuthority (settings : Settings) (fuel : Nat) (job : ClaimedAuthorityJob) : Program Unit :=
  match job.repository_full_name with
  | none => discoverInstallation settings job fuel job.listing_next_page job.listing_expected_total
  | some full_name => do
    let present ← requireMembership fuel job full_name
    match present with
    | none => return ()
    | some _ =>
      discoverPulls settings job full_name fuel job.listing_next_page job.listing_last_number
        job.pull_cursor_number job.handled_pull_fingerprints

/-- `_execute_authority`, without the lane of its requests. -/
def executeAuthority (settings : Settings) (fuel : Nat) (job : ClaimedAuthorityJob) : Program Unit := do
  let _ : Bool ← query (.authorityHasDirectWaiter job)
  discoverAuthority settings fuel job

def deferAuthority (job : ClaimedAuthorityJob) (owner : Str) (x : Exn) (delay_seconds : Nat)
    (preserve_direct_wakeup : Bool) : Program Unit := do
  let _ : Bool ← call (.deferAuthority job owner x.message delay_seconds preserve_direct_wakeup)
  return ()

def authorityFailed (settings : Settings) (job : ClaimedAuthorityJob) (owner : Str) (x : Exn) :
    Program Unit :=
  match x with
  | .recoveryBudgetDeferred retry_after_seconds provider_quota_exhausted =>
    deferAuthority job owner x retry_after_seconds !provider_quota_exhausted
  | .gitHubRateLimit message retry_after_seconds global_scope => do
    recordBackpressure job.installation_id message retry_after_seconds global_scope
    deferAuthority job owner x retry_after_seconds false
  | .cancelled => Prog.throw x
  | .gitHubAPI message status_code =>
    if status_code ∈ [404, 410] then
      call (.failAuthority job owner message settings.authority_inaccessible_retry_max_seconds 300)
    else call (.failAuthority job owner message settings.worker_retry_max_seconds 1)
  | _ => call (.failAuthority job owner x.message settings.worker_retry_max_seconds 1)

def processAuthority (settings : Settings) (fuel : Nat) (job : ClaimedAuthorityJob) (owner : Str) :
    Program Unit :=
  (executeAuthority settings fuel job).tryElse (authorityFailed settings job owner) fun _ => do
    let _ : Bool ← call (.completeAuthority job owner)
    return ()

end

/-! ## Slots -/

def claimEvaluation (settings : Settings) (owner : Str) (work_class : WorkClass) :
    Program (Option ClaimedJob) :=
  call (.claim owner settings.worker_lease_seconds (some work_class) true)

def runForegroundSlot (settings : Settings) (owner : Str) : Program Unit := do
  let job ← claimEvaluation settings owner .interactive
  match job with
  | none => return ()
  | some job => process settings job owner

/-- Recovery borrows foreground work when it is idle. -/
def runRecoverySlot (settings : Settings) (owner : Str) : Program Unit := do
  let job ← claimEvaluation settings owner .recovery
  match job with
  | some job => process settings job owner
  | none => runForegroundSlot settings owner

def claimInvalidation (settings : Settings) (owner : Str) (work_class : WorkClass) :
    Program (Option ClaimedSharedHeadInvalidation) :=
  call (.claimSharedHeadInvalidation owner settings.worker_lease_seconds (some work_class))

def runInvalidationSlot (settings : Settings) (owner : Str) (recovery_first : Bool) : Program Unit := do
  let (first, second) := if recovery_first then (WorkClass.recovery, WorkClass.interactive)
    else (WorkClass.interactive, WorkClass.recovery)
  let job ← claimInvalidation settings owner first
  match job with
  | some job => processSharedHead settings job
  | none => do
    let job ← claimInvalidation settings owner second
    match job with
    | none => return ()
    | some job => processSharedHead settings job

def runAuthoritySlot [PullDigest] (settings : Settings) (fuel : Nat) (owner : Str)
    (prioritize_interactive : Bool) : Program Unit := do
  let job : Option ClaimedAuthorityJob ←
    call (.claimAuthority owner settings.worker_lease_seconds prioritize_interactive)
  match job with
  | none => return ()
  | some job => processAuthority settings fuel job owner

end Worker

/-! ## Webhooks -/

/-- The fast path of an accepted pull-request delivery. Failures are left to
the durable work. -/
def fastInvalidation (settings : Settings) (delivery_id : Str) (job : JobRequest)
    (shared_head_generation : Option Nat) : Program Unit :=
  (do
    let _ ← EvaluationService.invalidateForTrigger settings job shared_head_generation
      (EvaluationService.policyPresent job.installation_id job.repository_full_name)
    let _ : Bool ← call (.markDeliveryInvalidated delivery_id)
    return ()).handle fun x =>
      match x with
      | .gitHubRateLimit message retry_after_seconds global_scope =>
        (Worker.recordBackpressure job.installation_id message retry_after_seconds global_scope).handle
          fun y => if y = Exn.cancelled then Prog.throw y else return ()
      | .cancelled => Prog.throw x
      | _ => return ()

def webhook (settings : Settings) (delivery_id event : Str) (request : DeliveryRequest) : Program Unit := do
  let acceptance : DeliveryAcceptance ← call (.acceptDelivery delivery_id event (some request))
  match request with
  | .authority _ => return ()
  | .job job => do
    let needs_invalidation : Bool ← (if acceptance.accepted then pure true
      else query (.deliveryNeedsInvalidation delivery_id) : Program Bool)
    if !needs_invalidation then return ()
    else do
      let backpressured : Bool ← query (.providerIsBackpressured (some job.installation_id))
      if backpressured then return ()
      else fastInvalidation settings delivery_id job acceptance.shared_head_generation

/-! ## The service -/

inductive Programs [PullDigest] (settings : Settings) (p : Pid) : Program PUnit → Prop where
  | foreground : Programs settings p (Worker.runForegroundSlot settings p)
  | recovery : Programs settings p (Worker.runRecoverySlot settings p)
  | invalidation (recovery_first : Bool) :
      Programs settings p (Worker.runInvalidationSlot settings p recovery_first)
  | authority (fuel : Nat) (prioritize_interactive : Bool) :
      Programs settings p (Worker.runAuthoritySlot settings fuel p prioritize_interactive)
  | webhook (delivery_id event : Str) (request : DeliveryRequest) :
      Programs settings p (webhook settings delivery_id event request)

def service [PullDigest] (settings : Settings) : System Pid Effect Effect.Answer Exn World where
  perform := performs
  env := environment
  clear p s := s.cleared p
  programs := Programs settings

end ExtraCodeowners
