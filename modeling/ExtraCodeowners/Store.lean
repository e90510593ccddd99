import ExtraCodeowners.AuthorityQueue

/-!
# The queue store

Every transaction of the store as one call with the answer its caller gets,
and every read as one query. A call that raises leaves the tables alone.
-/

namespace ExtraCodeowners

/-- The clock a transaction reads, the rows it skips because others lock them,
and the evaluations that a statement still sees, when a transaction that
commits while it waits for a row lock has changed them. -/
structure Instant where
  now : Time
  job_locked : Nat → Bool
  epoch_locked : EpochKey → Bool
  authority_locked : Nat → Bool
  waited_since : Option (Dict Nat EvaluationJob)

/-- The evaluations in the snapshot of a statement. -/
def Instant.snapshot (i : Instant) (db : Db) : Dict Nat EvaluationJob :=
  i.waited_since.getD db.evaluation_jobs

/-- The clock at zero, and no other transaction. -/
def sampleInstant : Instant := ⟨0, fun _ => false, fun _ => false, fun _ => false, none⟩

/-! ## Queries -/

inductive Query where
  | isCurrentGeneration (job : ClaimedJob)
  | isCurrentClaim (job : ClaimedJob)
  | sharedHeadGenerationIsCurrent (job : ClaimedJob) (head : HeadSha)
  | sharedHeadGenerationIsPublishable (job : ClaimedJob) (head : HeadSha)
  | sharedHeadInvalidationIsPending (key : EpochKey) (generation : Nat)
  | sharedHeadGeneration (key : EpochKey)
  | hasSupersedingJob (job : ClaimedJob)
  | hasBlockingAuthority (job : ClaimedJob) (base_ref : Str)
  | isCurrentSharedHeadInvalidation (job : ClaimedSharedHeadInvalidation)
  | deliveryNeedsInvalidation (delivery_id : Str)
  | authorityHasDirectWaiter (job : ClaimedAuthorityJob)
  | providerIsBackpressured (installation_id : Option Nat)

def Query.Answer : Query → Type
  | .sharedHeadGeneration _ => Nat
  | _ => Bool

def providerIsBackpressured (now : Time) (installation_id : Option Nat) (db : Db) : Bool :=
  db.provider_backpressure.any fun k row =>
    (k = 0 || installation_id = some k) && now < row.blocked_until

def Query.run (i : Instant) (db : Db) : (q : Query) → q.Answer
  | .isCurrentGeneration job => ExtraCodeowners.isCurrentGeneration job db
  | .isCurrentClaim job => ExtraCodeowners.isCurrentClaim i.now job db
  | .sharedHeadGenerationIsCurrent job head => ExtraCodeowners.sharedHeadGenerationIsCurrent job head db
  | .sharedHeadGenerationIsPublishable job head =>
    ExtraCodeowners.sharedHeadGenerationIsPublishable job head db
  | .sharedHeadInvalidationIsPending key generation =>
    ExtraCodeowners.sharedHeadInvalidationIsPending key generation db
  | .sharedHeadGeneration key => db.epochGeneration key
  | .hasSupersedingJob job => ExtraCodeowners.hasSupersedingJob job db
  | .hasBlockingAuthority job base_ref => ExtraCodeowners.hasBlockingAuthority job base_ref db
  | .isCurrentSharedHeadInvalidation job =>
    ExtraCodeowners.isCurrentSharedHeadInvalidation i.now job db
  | .deliveryNeedsInvalidation delivery_id => ExtraCodeowners.deliveryNeedsInvalidation delivery_id db
  | .authorityHasDirectWaiter job => ExtraCodeowners.authorityHasDirectWaiter job db
  | .providerIsBackpressured installation_id =>
    ExtraCodeowners.providerIsBackpressured i.now installation_id db

/-! ## Transactions -/

inductive Call where
  | acceptDelivery (delivery_id event : Str) (request : Option DeliveryRequest)
  | enqueue (request : JobRequest)
  | enqueueSharedHeadTrigger (request : JobRequest)
  | enqueueForSharedHeadGeneration (request : JobRequest) (shared_head_generation : Nat)
  | enqueueIfAbsent (request : JobRequest)
  | enqueueReconciliationIfDue (request : JobRequest) (recheck_seconds : Nat)
  | enqueueAuthority (request : AuthorityRequest)
  | markDeliveryInvalidated (delivery_id : Str)
  | recordProviderBackpressure (installation_id : Option Nat) (error : Str) (delay_seconds : Nat)
  | claim (owner : Str) (lease_seconds : Nat) (work_class : Option WorkClass)
      (require_shared_head_ready : Bool)
  | renewClaim (job : ClaimedJob) (lease_seconds : Nat)
  | bindClaimToHead (job : ClaimedJob) (head : HeadSha)
  | observeEvaluationBase (job : ClaimedJob) (base_ref : Str)
  | complete (job : ClaimedJob) (owner : Str)
  | fail (job : ClaimedJob) (owner error : Str) (max_delay_seconds : Nat)
  | defer (job : ClaimedJob) (owner error : Str) (delay_seconds : Nat)
      (scheduled_recheck_limit_seconds : Option Nat)
  | claimSharedHeadInvalidation (owner : Str) (lease_seconds : Nat) (work_class : Option WorkClass)
  | renewSharedHeadInvalidation (job : ClaimedSharedHeadInvalidation) (lease_seconds : Nat)
  | completeSharedHeadInvalidation (job : ClaimedSharedHeadInvalidation)
  | failSharedHeadInvalidation (job : ClaimedSharedHeadInvalidation) (error : Str)
      (max_delay_seconds : Nat)
  | deferSharedHeadInvalidation (job : ClaimedSharedHeadInvalidation) (error : Str) (delay_seconds : Nat)
  | claimAuthority (owner : Str) (lease_seconds : Nat) (prioritize_interactive : Bool)
  | renewAuthorityClaim (job : ClaimedAuthorityJob) (lease_seconds : Nat)
  | advanceAuthorityCursor (job : ClaimedAuthorityJob) (number : Nat)
      (handled_pull_fingerprints : Option (Dict Str Str))
      (listing_next_page listing_last_number : Option Nat)
  | advanceInstallationAuthorityPage (job : ClaimedAuthorityJob) (requests : List AuthorityRequest)
      (next_page : Nat) (expected_total : Option Nat)
  | advanceAuthorityMembershipPage (job : ClaimedAuthorityJob) (next_page : Nat)
      (expected_total : Option Nat)
  | completeAuthority (job : ClaimedAuthorityJob) (owner : Str)
  | failAuthority (job : ClaimedAuthorityJob) (owner error : Str)
      (max_delay_seconds minimum_delay_seconds : Nat)
  | deferAuthority (job : ClaimedAuthorityJob) (owner error : Str) (delay_seconds : Nat)
      (preserve_direct_wakeup : Bool)
  | pruneDeliveries (older_than : Time)
  | pruneSharedHeadEpochs (older_than : Time)
  | pruneReconciliationStates (older_than : Time)

def Call.Answer : Call → Type
  | .acceptDelivery .. => DeliveryAcceptance
  | .enqueue _ | .enqueueSharedHeadTrigger _ | .enqueueAuthority _ | .recordProviderBackpressure ..
  | .fail .. | .failAuthority .. => Unit
  | .claim .. | .bindClaimToHead .. => Option ClaimedJob
  | .claimSharedHeadInvalidation .. => Option ClaimedSharedHeadInvalidation
  | .claimAuthority .. => Option ClaimedAuthorityJob
  | .pruneDeliveries _ | .pruneSharedHeadEpochs _ | .pruneReconciliationStates _ => Nat
  | _ => Bool

def pruneDeliveries (older_than : Time) (db : Db) : Db × Nat :=
  ({ db with
      webhook_deliveries := db.webhook_deliveries.deleteWhere
        fun _ delivery => delivery.received_at < older_than },
    db.webhook_deliveries.countWhere fun _ delivery => delivery.received_at < older_than)

def Call.run (i : Instant) (db : Db) : (c : Call) → Except Str (Db × c.Answer)
  | .acceptDelivery delivery_id event request =>
    ExtraCodeowners.acceptDelivery i.now delivery_id event request db
  | .enqueue request => (ExtraCodeowners.enqueue i.now request db).map (·, ())
  | .enqueueSharedHeadTrigger request =>
    (ExtraCodeowners.enqueueSharedHeadTrigger i.now request db).map (·, ())
  | .enqueueForSharedHeadGeneration request shared_head_generation =>
    ExtraCodeowners.enqueueForSharedHeadGeneration i.now request shared_head_generation db
  | .enqueueIfAbsent request => .ok (ExtraCodeowners.enqueueIfAbsent i.now request db)
  | .enqueueReconciliationIfDue request recheck_seconds =>
    ExtraCodeowners.enqueueReconciliationIfDue i.now request recheck_seconds db
  | .enqueueAuthority request => .ok (ExtraCodeowners.enqueueAuthority i.now request db, ())
  | .markDeliveryInvalidated delivery_id =>
    .ok (ExtraCodeowners.markDeliveryInvalidated i.now delivery_id db)
  | .recordProviderBackpressure installation_id error delay_seconds =>
    .ok (ExtraCodeowners.recordProviderBackpressure i.now installation_id error delay_seconds db, ())
  | .claim owner lease_seconds work_class require_shared_head_ready =>
    .ok (ExtraCodeowners.claim i.now i.job_locked owner lease_seconds work_class
      require_shared_head_ready db)
  | .renewClaim job lease_seconds => .ok (ExtraCodeowners.renewClaim i.now job lease_seconds db)
  | .bindClaimToHead job head => .ok (ExtraCodeowners.bindClaimToHead i.now job head db)
  | .observeEvaluationBase job base_ref =>
    .ok (ExtraCodeowners.observeEvaluationBase i.now job base_ref db)
  | .complete job owner => .ok (ExtraCodeowners.complete i.now job owner db)
  | .fail job owner error max_delay_seconds =>
    .ok (ExtraCodeowners.fail i.now job owner error max_delay_seconds db, ())
  | .defer job owner error delay_seconds limit =>
    .ok (ExtraCodeowners.defer i.now job owner error delay_seconds limit db)
  | .claimSharedHeadInvalidation owner lease_seconds work_class =>
    .ok (ExtraCodeowners.claimSharedHeadInvalidation i.now i.epoch_locked owner lease_seconds
      work_class db)
  | .renewSharedHeadInvalidation job lease_seconds =>
    .ok (ExtraCodeowners.renewSharedHeadInvalidation i.now job lease_seconds db)
  | .completeSharedHeadInvalidation job =>
    .ok (ExtraCodeowners.completeSharedHeadInvalidation i.now job db)
  | .failSharedHeadInvalidation job error max_delay_seconds =>
    .ok (ExtraCodeowners.failSharedHeadInvalidation i.now job error max_delay_seconds db)
  | .deferSharedHeadInvalidation job error delay_seconds =>
    .ok (ExtraCodeowners.deferSharedHeadInvalidation i.now job error delay_seconds db)
  | .claimAuthority owner lease_seconds prioritize_interactive =>
    .ok (ExtraCodeowners.claimAuthority i.now i.authority_locked owner lease_seconds
      prioritize_interactive db)
  | .renewAuthorityClaim job lease_seconds =>
    .ok (ExtraCodeowners.renewAuthorityClaim i.now job lease_seconds db)
  | .advanceAuthorityCursor job number handled_pull_fingerprints listing_next_page
      listing_last_number =>
    .ok (ExtraCodeowners.advanceAuthorityCursor i.now job number handled_pull_fingerprints
      listing_next_page listing_last_number db)
  | .advanceInstallationAuthorityPage job requests next_page expected_total =>
    ExtraCodeowners.advanceInstallationAuthorityPage i.now job requests next_page expected_total db
  | .advanceAuthorityMembershipPage job next_page expected_total =>
    .ok (ExtraCodeowners.advanceAuthorityMembershipPage i.now job next_page expected_total db)
  | .completeAuthority job owner => .ok (ExtraCodeowners.completeAuthority i.now job owner db)
  | .failAuthority job owner error max_delay_seconds minimum_delay_seconds =>
    .ok (ExtraCodeowners.failAuthority i.now job owner error max_delay_seconds
      minimum_delay_seconds db, ())
  | .deferAuthority job owner error delay_seconds preserve_direct_wakeup =>
    .ok (ExtraCodeowners.deferAuthority i.now (i.snapshot db) job owner error delay_seconds
      preserve_direct_wakeup db)
  | .pruneDeliveries older_than => .ok (ExtraCodeowners.pruneDeliveries older_than db)
  | .pruneSharedHeadEpochs older_than => .ok (ExtraCodeowners.pruneSharedHeadEpochs older_than db)
  | .pruneReconciliationStates older_than =>
    .ok (ExtraCodeowners.pruneReconciliationStates older_than db)

/-- The evaluation claim a call acts under, with the owner it names. -/
def Call.claimUsed : Call → Option (ClaimedJob × Str)
  | .renewClaim job _ | .bindClaimToHead job _ | .observeEvaluationBase job _ =>
    some (job, job.lease_owner)
  | .complete job owner | .fail job owner _ _ | .defer job owner _ _ _ => some (job, owner)
  | _ => none

/-- The evaluation claim a call gives up, whatever its answer. -/
def Call.claimReleased : Call → Option ClaimedJob
  | .complete job _ | .fail job _ _ _ | .defer job _ _ _ _ => some job
  | _ => none

/-- The evaluation claim a call hands out. -/
def Call.claimIssued : (c : Call) → c.Answer → Option ClaimedJob
  | .claim .., answer => answer
  | .bindClaimToHead .., answer => answer
  | _, _ => none

/-- The invalidation a call acts under. -/
def Call.invalidationUsed : Call → Option ClaimedSharedHeadInvalidation
  | .renewSharedHeadInvalidation job _ | .completeSharedHeadInvalidation job
  | .failSharedHeadInvalidation job .. | .deferSharedHeadInvalidation job .. => some job
  | _ => none

def Call.invalidationReleased : Call → Option ClaimedSharedHeadInvalidation
  | .completeSharedHeadInvalidation job | .failSharedHeadInvalidation job ..
  | .deferSharedHeadInvalidation job .. => some job
  | _ => none

def Call.invalidationIssued : (c : Call) → c.Answer → Option ClaimedSharedHeadInvalidation
  | .claimSharedHeadInvalidation .., answer => answer
  | _, _ => none

/-- The authority claim a call acts under, with the owner it names. -/
def Call.authorityUsed : Call → Option (ClaimedAuthorityJob × Str)
  | .renewAuthorityClaim job _ | .advanceAuthorityCursor job .. | .advanceInstallationAuthorityPage job ..
  | .advanceAuthorityMembershipPage job .. => some (job, job.lease_owner)
  | .completeAuthority job owner | .failAuthority job owner .. | .deferAuthority job owner .. =>
    some (job, owner)
  | _ => none

def Call.authorityReleased : Call → Option ClaimedAuthorityJob
  | .completeAuthority job _ | .failAuthority job .. | .deferAuthority job .. => some job
  | _ => none

def Call.authorityIssued : (c : Call) → c.Answer → Option ClaimedAuthorityJob
  | .claimAuthority .., answer => answer
  | _, _ => none

/-- The pass a call completes. -/
def Call.authorityCompleted : (c : Call) → c.Answer → Option ClaimedAuthorityJob
  | .completeAuthority job _, true => some job
  | _, _ => none

/-- The authority requests a call accepts. -/
def Call.authorityAccepted : (c : Call) → c.Answer → List AuthorityRequest
  | .acceptDelivery _ _ (some (.authority request)), answer => if answer.accepted then [request] else []
  | .enqueueAuthority request, _ => [request]
  | .advanceInstallationAuthorityPage _ requests _ _, true => requests
  | _, _ => []

end ExtraCodeowners
