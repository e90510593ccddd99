import ExtraCodeowners.Store
import ExtraCodeowners.Lib.Prog
import Mathlib.Data.List.Sort

/-!
# The reconciler

One elected scan as a program over what it sees of the queue, of GitHub and of
its own lease. Two durable cursors of an installation let a later scan go on
where this one ends: the last repository completed, and the last pull request
handled inside an unfinished one.
-/

namespace ExtraCodeowners

structure ReconcilerSettings where
  org_config_repository : Str
  webhook_delivery_retention_days : Nat
  reconcile_interval_seconds : Nat
  reconcile_recheck_seconds : Nat

/-! ## Repositories and pull requests -/

/-- `str.lower` on ASCII text, to which repository names are restricted. -/
def asciiLower (s : Str) : Str := s.map Char.toLower

/-- What `_reconciliation_repositories` accepts: canonical names, each once,
with their archived flags. -/
structure RepositoryBatch where
  repositories : List (Repository × Bool)
  named : ∀ r ∈ repositories, r.1.full_name ≠ []
  canonical : ∀ r ∈ repositories, asciiLower r.1.full_name = r.1.full_name
  distinct : (repositories.map Prod.fst).Nodup

/-- An open pull request; its record may lack a base ref. -/
structure OpenPull where
  number : Nat
  head_sha : HeadSha
  base_ref : Option Str

structure PullBatch where
  pulls : List OpenPull
  positive : ∀ pull ∈ pulls, 0 < pull.number
  distinct : (pulls.map (·.number)).Nodup

/-- The part behind the slash, if there is one. -/
def repositoryName (full_name : Str) : Option Str :=
  match full_name.dropWhile (· ≠ '/') with
  | [] => none
  | _ :: name => some name

def ReconcilerSettings.isOrganizationConfigRepository (settings : ReconcilerSettings)
    (full_name : Str) : Bool :=
  match repositoryName full_name with
  | none => false
  | some name => asciiLower name = asciiLower settings.org_config_repository

def ReconcilerSettings.scans (settings : ReconcilerSettings) (repository : Repository × Bool) : Bool :=
  !repository.2 && !settings.isOrganizationConfigRepository repository.1.full_name

/-! ## Effects -/

/-- `interrupted` stands for an early return with an interruption outcome. -/
inductive ScanExn where
  | interrupted
  | operationStopped
  | recoveryBudgetDeferred
  | gitHubRateLimit (message : Str) (retry_after_seconds : Nat) (global_scope : Bool)
  | gitHub
  | payload
  | cancelled
  | other
  deriving DecidableEq

/-- Only the scan itself returns early. -/
def ScanExn.isExternal : ScanExn → Bool
  | .interrupted => false
  | _ => true

/-- The listings include the validation of their payload. -/
inductive ScanEffect where
  | stopped
  | interrupted
  | clock
  | acquireServiceLease
  | releaseServiceLease
  | query (q : Query)
  | call (c : Call)
  | listInstallations
  | listInstallationRepositories (installation_id : Nat)
  | listOpenPulls (installation_id : Nat) (full_name : Repository)
  | getBranchHead (installation_id : Nat) (full_name : Repository) (base_ref : Str)
  | getFileText (installation_id : Nat) (full_name : Repository) (ref : Str)
  | hasReconciliationCheck (installation_id : Nat) (full_name : Repository) (head_sha : HeadSha)
  | repositoryCursor (installation_id : Nat)
  | pullCursor (installation_id : Nat)
  | advancePull (installation_id : Nat) (full_name : Str) (number : Nat)
  | advanceRepository (installation_id : Nat) (full_name : Str)

def ScanEffect.Answer : ScanEffect → Type
  | .stopped | .interrupted | .acquireServiceLease | .hasReconciliationCheck .. => Bool
  | .clock => Time
  | .query q => q.Answer
  | .call c => c.Answer
  | .listInstallations => List (Nat × Bool)
  | .listInstallationRepositories _ => RepositoryBatch
  | .listOpenPulls .. => PullBatch
  | .getBranchHead .. => Str
  | .getFileText .. => Option Str
  | .repositoryCursor _ => Str
  | .pullCursor _ => Str × Nat
  | .releaseServiceLease | .advancePull .. | .advanceRepository .. => Unit

abbrev Scan (α : Type) := Prog ScanEffect ScanEffect.Answer ScanExn α

def perform (e : ScanEffect) : Scan e.Answer := Prog.perform e

/-! ## One pull request -/

def stopIfInterrupted : Scan Unit := do
  let interrupted : Bool ← perform .interrupted
  if interrupted then Prog.throw .interrupted else return ()

/-- Unreadable policy is not absence. -/
def policyPresent (installation_id : Nat) (full_name : Repository) (base_ref : Str) : Scan Bool :=
  (do
    let sha ← perform (.getBranchHead installation_id full_name base_ref)
    let text ← perform (.getFileText installation_id full_name sha)
    return text.isSome).handle fun
  | .gitHub => return true
  | x => Prog.throw x

/-- The policy of each branch is read at most once for a listing. -/
def observePolicy (installation_id : Nat) (full_name : Repository) (base_ref : Str)
    (policies : Dict Str Bool) : Scan (Dict Str Bool) :=
  match policies.get? base_ref with
  | some _ => return policies
  | none => do
    let present ← policyPresent installation_id full_name base_ref
    return policies.set base_ref present

/-- Whether policy and managed check are both absent. A record without a base
ref cannot prove absence. -/
def provenUnenrolled (installation_id : Nat) (full_name : Repository) (pull : OpenPull)
    (policies : Dict Str Bool) : Scan (Dict Str Bool × Bool) :=
  match pull.base_ref.filter (· ≠ []) with
  | none => return (policies, false)
  | some base_ref => do
    let policies ← observePolicy installation_id full_name base_ref policies
    stopIfInterrupted
    if policies.get? base_ref = some false then
      let managed : Bool ← perform (.hasReconciliationCheck installation_id full_name pull.head_sha)
      stopIfInterrupted
      return (policies, !managed)
    else return (policies, false)

def reconciliationRequest (installation_id : Nat) (full_name : Repository) (pull : OpenPull)
    (observed_at : Time) : JobRequest where
  installation_id := installation_id
  repository_full_name := full_name
  pull_number := pull.number
  reason := PERIODIC_RECONCILIATION_REASON
  head_sha_hint := some pull.head_sha
  work_class := .recovery
  observed_at := some observed_at
  base_ref_hint := pull.base_ref.filter fun ref => 0 < ref.length && ref.length ≤ 255

def scanPull (settings : ReconcilerSettings) (installation_id : Nat) (full_name : Repository)
    (partially : Str × Nat) (observed_at : Time) (policies : Dict Str Bool) (pull : OpenPull) :
    Scan (Dict Str Bool) := do
  stopIfInterrupted
  if asciiLower full_name.full_name = partially.1 ∧ pull.number ≤ partially.2 then return policies
  else
    let (policies, unenrolled) ← provenUnenrolled installation_id full_name pull policies
    if unenrolled then
      perform (.advancePull installation_id (asciiLower full_name.full_name) pull.number)
      return policies
    else
      let _ ← perform (.call (.enqueueReconciliationIfDue
        (reconciliationRequest installation_id full_name pull observed_at)
        settings.reconcile_recheck_seconds))
      perform (.advancePull installation_id (asciiLower full_name.full_name) pull.number)
      return policies

/-! ## Repositories and installations -/

def byNumber (pulls : List OpenPull) : List OpenPull :=
  pulls.insertionSort fun a b => a.number ≤ b.number

def scanRepository (settings : ReconcilerSettings) (installation_id : Nat) (partially : Str × Nat)
    (repository : Repository × Bool) : Scan Unit := do
  stopIfInterrupted
  if settings.scans repository then
    -- taken before the first page: a webhook accepted meanwhile is newer
    let observed_at ← perform .clock
    let batch ← perform (.listOpenPulls installation_id repository.1)
    stopIfInterrupted
    let _ ← (byNumber batch.pulls).foldlM
      (scanPull settings installation_id repository.1 partially observed_at) ∅
    perform (.advanceRepository installation_id (asciiLower repository.1.full_name))
  else return ()

def byName (repositories : List (Repository × Bool)) : List (Repository × Bool) :=
  repositories.insertionSort fun a b => a.1.full_name ≤ b.1.full_name

def resumeAt (cursor : Str) (repositories : List (Repository × Bool)) : List (Repository × Bool) :=
  repositories.filter (fun r => cursor < asciiLower r.1.full_name) ++
    repositories.filter fun r => asciiLower r.1.full_name ≤ cursor

/-- A stable sort that puts one repository first. -/
def putFirst (full_name : Str) (repositories : List (Repository × Bool)) : List (Repository × Bool) :=
  repositories.filter (fun r => asciiLower r.1.full_name = full_name) ++
    repositories.filter fun r => asciiLower r.1.full_name ≠ full_name

/-- Progress inside a repository that is no longer scanned is discarded. -/
def partialProgress (settings : ReconcilerSettings) (installation_id : Nat)
    (repositories : List (Repository × Bool)) : Scan (Str × Nat) := do
  let partially ← perform (.pullCursor installation_id)
  if partially.1 ≠ [] ∧ ¬repositories.any fun r =>
      decide (asciiLower r.1.full_name = partially.1) && settings.scans r then
    perform (.advancePull installation_id [] 0)
    return ([], 0)
  else return partially

def scanRepositories (settings : ReconcilerSettings) (installation_id : Nat) : Scan Unit := do
  let batch ← perform (.listInstallationRepositories installation_id)
  stopIfInterrupted
  let cursor ← perform (.repositoryCursor installation_id)
  let repositories := resumeAt cursor (byName batch.repositories)
  let partially ← partialProgress settings installation_id repositories
  (putFirst partially.1 repositories).forM (scanRepository settings installation_id partially)

/-- A failure ends the scan of the installation, not that of the others. -/
def scanInstallation (settings : ReconcilerSettings) (installation : Nat × Bool) : Scan Unit := do
  stopIfInterrupted
  if installation.2 then perform (.advancePull installation.1 [] 0)
  else
    let backpressured : Bool ← perform (.query (.providerIsBackpressured (some installation.1)))
    if backpressured then return ()
    else
      (scanRepositories settings installation.1).handle fun
      | .interrupted | .operationStopped => Prog.throw .interrupted
      | .gitHubRateLimit message retry_after_seconds global_scope =>
        perform (.call (.recordProviderBackpressure (if global_scope then none else some installation.1)
          message retry_after_seconds))
      | .cancelled => Prog.throw .cancelled
      | .recoveryBudgetDeferred | .gitHub | .payload | .other => return ()

def listInstallations : Scan (List (Nat × Bool)) :=
  (perform .listInstallations).handle fun
  | .operationStopped => Prog.throw .interrupted
  | .gitHubRateLimit message retry_after_seconds _ => do
    perform (.call (.recordProviderBackpressure none message retry_after_seconds))
    return []
  | x => Prog.throw x

def reconcileOwnedScan (settings : ReconcilerSettings) : Scan Unit := do
  stopIfInterrupted
  let now : Time ← perform .clock
  let retention_boundary := now - seconds (settings.webhook_delivery_retention_days * 86400)
  let _ ← perform (.call (.pruneDeliveries retention_boundary))
  stopIfInterrupted
  let _ ← perform (.call (.pruneSharedHeadEpochs retention_boundary))
  stopIfInterrupted
  let _ ← perform (.call (.pruneReconciliationStates (now - seconds
    (max (settings.webhook_delivery_retention_days * 86400)
      (settings.reconcile_interval_seconds + settings.reconcile_recheck_seconds)))))
  stopIfInterrupted
  let backpressured : Bool ← perform (.query (.providerIsBackpressured none))
  if backpressured then return ()
  else
    let installations ← listInstallations
    stopIfInterrupted
    installations.forM (scanInstallation settings)

/-- Another process may be elected. -/
def reconcileOnce (settings : ReconcilerSettings) : Scan Unit := do
  let stopped : Bool ← perform .stopped
  if stopped then return ()
  else
    let acquired : Bool ← perform .acquireServiceLease
    if acquired then
      let stopped : Bool ← perform .stopped
      if stopped then perform .releaseServiceLease
      else
        (reconcileOwnedScan settings).handle fun
        | .interrupted => return ()
        | x => Prog.throw x
    else return ()

end ExtraCodeowners
