import ExtraCodeowners.Reconciler
import ExtraCodeowners.Models
import ExtraCodeowners.Tokens

/-!
# The world of the service

The durable queue, GitHub, and the guards that replicas share. A process is
one iteration of a worker slot or one webhook request. It sees the world only
through effects, and each effect is one atomic step.

Two things are assumed of what is outside. A transaction or a check write whose
caller gave up has been carried out by then, or never is; it does not land
later. And a guard is held until its holder releases it or ends: its session
with the database is not lost before.
-/

namespace ExtraCodeowners

/-- The lease owner of a slot, which is distinct for every process that runs. -/
abbrev Pid := Str

/-! ## Exceptions -/

inductive Exn where
  | recoveryBudgetDeferred (retry_after_seconds : Nat) (provider_quota_exhausted : Bool)
  | gitHubRateLimit (message : Str) (retry_after_seconds : Nat) (global_scope : Bool)
  | gitHubAPI (message : Str) (status_code : Nat)
  | installationRepositoriesChanged
  | gitHub (message : Str)
  | authorityChangePending (message : Str)
  | sharedHeadInvalidationPending (message : Str)
  | sharedHeadLeaseLost (message : Str)
  | cancelled
  | other (message : Str)
  deriving DecidableEq

def Exn.message : Exn → Str
  | .recoveryBudgetDeferred .. =>
    ("recovery is preserving the installation's REST core quota" : Str)
  | .gitHubRateLimit message .. | .gitHubAPI message _ | .gitHub message
  | .authorityChangePending message | .sharedHeadInvalidationPending message
  | .sharedHeadLeaseLost message | .other message => message
  | .installationRepositoriesChanged =>
    ("installation repositories changed total_count between durable pages" : Str)
  | .cancelled => []

/-- Only the service itself raises the others. -/
def Exn.isExternal : Exn → Bool
  | .authorityChangePending _ | .sharedHeadInvalidationPending _ | .sharedHeadLeaseLost _ => false
  | _ => true

/-! ## GitHub -/

/-- An unknown state comes with its `repr`. -/
inductive PullState where
  | OPEN
  | CLOSED
  | unknown (shown : Str)
  deriving DecidableEq

structure Pull where
  number : Nat
  state : PullState
  head_sha : HeadSha
  base_sha : Str
  base_ref : Str
  repository_full_name : Repository
  changed_files : Nat
  labels : Finset Str

structure AssociatedPull where
  number : Nat
  state : PullState
  head_sha : HeadSha
  deriving DecidableEq

structure InstallationRepositoryPage where
  repositories : RepositoryBatch
  next_page : Nat
  total_count : Nat

def lastPage (total_count : Nat) : Nat := max 1 ((total_count + 99) / 100)

/-- What the client requires of a page before it returns it. -/
structure InstallationRepositoryPage.Validated (answer : InstallationRepositoryPage) (page : Nat)
    (expected_total : Option Nat) : Prop where
  total : ∀ total, expected_total = some total → answer.total_count = total
  requested : 1 ≤ page ∧ page ≤ lastPage answer.total_count
  count : answer.repositories.repositories.length = min 100 (answer.total_count - (page - 1) * 100)
  next : answer.next_page = if page < lastPage answer.total_count then page + 1 else 0

/-- A record of the listing of all pull requests of a repository. -/
structure AuthorityPull where
  number : Nat
  state : PullState
  head_sha : HeadSha
  base_ref : Str
  updated_at : Str
  deriving DecidableEq

structure AuthorityPullPage where
  pulls : List AuthorityPull
  next_page : Nat
  last_number : Nat

def pageItems (listing : List AuthorityPull) (page : Nat) : List AuthorityPull :=
  (listing.drop ((page - 1) * 100)).take 100

/-- A page of the open pull requests of a listing. Without a `Link` header the
client takes a full page for one that has a successor. -/
structure AuthorityPullPage.Of (answer : AuthorityPullPage) (listing : List AuthorityPull)
    (page after_number : Nat) : Prop where
  requested : 1 ≤ page
  positive : ∀ pull ∈ pageItems listing page, 0 < pull.number
  distinct : ((pageItems listing page).map (·.number)).Nodup
  pulls : answer.pulls = (pageItems listing page).filter fun pull => pull.state = .OPEN
  last : answer.last_number = ((pageItems listing page).getLast?.map (·.number)).getD after_number
  next : answer.next_page = page + 1 ∨ (answer.next_page = 0 ∧ listing.length ≤ page * 100)

/-- What this App's check on a commit shows. A pending failure is interim. -/
inductive CheckState where
  | interim
  | evaluated (conclusion : EvaluationConclusion) (job : ClaimedJob)
  | cancelled

structure Check where
  id : Nat
  state : CheckState

/-- `listing` holds every pull request of a repository, in creation order. -/
structure GitHub where
  pulls : PullKey → Option Pull
  listing : Nat → Repository → List AuthorityPull
  branch_heads : Repository → Str → Str
  policy_texts : Repository → Str → Option Str
  checks : EpochKey → Option Check

/-- The evaluation of collected evidence is one read: it writes nothing. A
response that fails validation is an answer that raises. -/
inductive GitHubRead where
  | getPull (installation_id : Nat) (repository_full_name : Repository) (number : Nat)
  | getBranchHead (installation_id : Nat) (repository_full_name : Repository) (base_ref : Str)
  | repositoryPolicyText (installation_id : Nat) (repository_full_name : Repository) (sha : Str)
  | listCommitPulls (key : EpochKey)
  | hasCheckRun (key : EpochKey)
  | existingCheckRunId (key : EpochKey)
  | hasReconciliationCheck (key : EpochKey)
  | checkRunIsCompleted (key : EpochKey) (check_run_id : Nat)
  | evaluateCurrent (job : ClaimedJob) (pull : Pull) (policy_sha : Str) (repository_text : Option Str)
  | listInstallationRepositoryPage (installation_id page : Nat) (expected_total : Option Nat)
  | installationIncludesRepository (installation_id : Nat) (repository_full_name : Repository)
  | getRepository (installation_id : Nat) (repository_full_name : Repository)
  | listAuthorityPullPage (installation_id : Nat) (repository_full_name : Repository)
      (page after_number : Nat)

def GitHubRead.Answer : GitHubRead → Type
  | .getPull .. => Pull
  | .getBranchHead .. => Str
  | .repositoryPolicyText .. => Option Str
  | .listCommitPulls _ => List AssociatedPull
  | .existingCheckRunId _ => Option Nat
  | .hasCheckRun _ | .hasReconciliationCheck _ | .checkRunIsCompleted ..
  | .installationIncludesRepository .. => Bool
  | .evaluateCurrent .. => EvaluationResult
  | .listInstallationRepositoryPage .. => InstallationRepositoryPage
  | .getRepository .. => Repository × Bool
  | .listAuthorityPullPage .. => AuthorityPullPage

def Check.isCompleted (check : Check) : Bool :=
  match check.state with
  | .interim => false
  | _ => true

def GitHub.answers (g : GitHub) : (r : GitHubRead) → r.Answer → Prop
  | .getPull installation_id repository_full_name number, pull =>
    g.pulls ⟨installation_id, repository_full_name, number⟩ = some pull
  | .getBranchHead _ repository_full_name base_ref, sha =>
    g.branch_heads repository_full_name base_ref = sha
  | .repositoryPolicyText _ repository_full_name sha, text =>
    g.policy_texts repository_full_name sha = text
  | .hasCheckRun key, managed | .hasReconciliationCheck key, managed => managed = (g.checks key).isSome
  | .existingCheckRunId key, id => (g.checks key).map (·.id) = id
  | .checkRunIsCompleted key id, completed =>
    ∃ check, g.checks key = some check ∧ check.id = id ∧ check.isCompleted = completed
  | .listInstallationRepositoryPage _ page expected_total, answer => answer.Validated page expected_total
  | .listAuthorityPullPage installation_id repository_full_name page after_number, answer =>
    answer.Of (g.listing installation_id repository_full_name) page after_number
  | _, _ => True

inductive CheckWrite where
  | upsertInterim (key : EpochKey)
  | upsertCompleted (key : EpochKey) (job : ClaimedJob) (conclusion : EvaluationConclusion)
      (skip_if_unchanged : Bool)
  | resetCheckRun (key : EpochKey) (check_run_id : Nat)
  | cancelCheckRun (key : EpochKey) (check_run_id : Nat)

def CheckWrite.key : CheckWrite → EpochKey
  | .upsertInterim key | .upsertCompleted key .. | .resetCheckRun key _ | .cancelCheckRun key _ => key

def CheckWrite.state : CheckWrite → CheckState
  | .upsertInterim _ | .resetCheckRun .. => .interim
  | .upsertCompleted _ job conclusion _ => .evaluated conclusion job
  | .cancelCheckRun .. => .cancelled

def CheckWrite.addresses (w : CheckWrite) (check : Option Check) (id : Nat) : Prop :=
  match w with
  | .upsertInterim _ | .upsertCompleted .. => ∀ c, check = some c → c.id = id
  | .resetCheckRun _ check_run_id | .cancelCheckRun _ check_run_id =>
    id = check_run_id ∧ ∃ c, check = some c ∧ c.id = id

/-- A completed result that the check already shows need not be written again. -/
def CheckWrite.mayskip (w : CheckWrite) (check : Option Check) : Prop :=
  match w with
  | .upsertCompleted _ _ conclusion true =>
    ∃ id job, check = some ⟨id, .evaluated conclusion job⟩
  | _ => False

/-! ## Effects -/

/-- Besides the store, the guards and GitHub: the lost-lease event of a
heartbeat, the audit table, the policies an attempt remembers, and the choice of
the task that goes on. -/
inductive Effect where
  | query (q : Query)
  | call (c : Call)
  | acquireCheckWriteGuard (installation_id : Nat) (head_sha : HeadSha)
  | releaseCheckWriteGuard (installation_id : Nat) (head_sha : HeadSha)
  | acquireAuthorityGuard (installation_id : Nat)
  | releaseAuthorityGuard (installation_id : Nat)
  | read (r : GitHubRead)
  | write (w : CheckWrite)
  | leaseIsLost
  | recordAudit (job : ClaimedJob) (head_sha : HeadSha) (result : EvaluationResult)
  | recallPolicy (base_ref : Str)
  | rememberPolicy (base_ref : Str) (present : Except Exn Bool)
  | pick

def Effect.Answer : Effect → Type
  | .query q => q.Answer
  | .call c => c.Answer
  | .read r => r.Answer
  | .leaseIsLost | .pick => Bool
  | .recallPolicy _ => Option (Except Exn Bool)
  | _ => Unit

structure Event where
  before : Db
  github : GitHub
  instant : Instant
  effect : Effect
  answer : Except Exn effect.Answer

/-- The answer of a committed call, if the process learned it. -/
def Event.answered (event : Event) : Option ((c : Call) × Option c.Answer) :=
  match event.effect, event.answer with
  | .call c, .ok a => some ⟨c, some a⟩
  | .call c, .error _ => some ⟨c, none⟩
  | _, _ => none

structure Commit where
  pid : Pid
  before : Db
  instant : Instant
  call : Call
  trace : List Event

/-! ## The world -/

/-- The tables, GitHub, and the holders of the guards; what each process did
since it started, latest first, and every call that a process committed. -/
structure World where
  db : Db
  github : GitHub
  check_guard : Nat × HeadSha → Option Pid
  authority_guard : Nat → Pid → Bool
  trace : Pid → List Event
  commits : List Commit

def World.initial (github : GitHub) : World where
  db := Db.initial
  github := github
  check_guard := fun _ => none
  authority_guard := fun _ _ => false
  trace := fun _ => []
  commits := []

/-! ## Claims in hand -/

/-- A claim is in hand from the call that returned it to the one that gives it
up, whatever that one answers. -/
def claimsAfter (c : Call) (answer : Option c.Answer) (held : List ClaimedJob) : List ClaimedJob :=
  (answer.bind c.claimIssued).toList ++
    match c.claimReleased with
    | none => held
    | some job => held.filter fun other => !sameClaim job other

def authoritiesAfter (c : Call) (answer : Option c.Answer) (held : List ClaimedAuthorityJob) :
    List ClaimedAuthorityJob :=
  (answer.bind c.authorityIssued).toList ++
    match c.authorityReleased with
    | none => held
    | some job => held.filter fun other => !sameAuthorityClaim job other

def invalidationsAfter (c : Call) (answer : Option c.Answer)
    (held : List ClaimedSharedHeadInvalidation) : List ClaimedSharedHeadInvalidation :=
  (answer.bind c.invalidationIssued).toList ++
    match c.invalidationReleased with
    | none => held
    | some job => held.filter fun other => !sameInvalidation job other

def heldClaims : List Event → List ClaimedJob
  | [] => []
  | event :: older =>
    match event.answered with
    | none => heldClaims older
    | some ⟨c, answer⟩ => claimsAfter c answer (heldClaims older)

def heldAuthorities : List Event → List ClaimedAuthorityJob
  | [] => []
  | event :: older =>
    match event.answered with
    | none => heldAuthorities older
    | some ⟨c, answer⟩ => authoritiesAfter c answer (heldAuthorities older)

def heldInvalidations : List Event → List ClaimedSharedHeadInvalidation
  | [] => []
  | event :: older =>
    match event.answered with
    | none => heldInvalidations older
    | some ⟨c, answer⟩ => invalidationsAfter c answer (heldInvalidations older)

def recalledPolicy (base_ref : Str) : List Event → Option (Except Exn Bool)
  | [] => none
  | event :: older =>
    match event.effect with
    | .rememberPolicy base present => if base = base_ref then some present else recalledPolicy base_ref older
    | _ => recalledPolicy base_ref older

/-! ## One effect -/

def World.seen (s : World) (p : Pid) (event : Event) : World :=
  { s with trace := Function.update s.trace p (event :: s.trace p) }

def World.committed (s : World) (p : Pid) (i : Instant) (c : Call) (db' : Db) : World :=
  { s with
    db := db'
    commits := ⟨p, s.db, i, c, s.trace p⟩ :: s.commits }

def World.taken (s : World) (p : Pid) (installation_id : Nat) (head_sha : HeadSha) : World :=
  { s with check_guard := Function.update s.check_guard (installation_id, head_sha) (some p) }

def World.released (s : World) (p : Pid) (installation_id : Nat) (head_sha : HeadSha) : World :=
  if s.check_guard (installation_id, head_sha) = some p then
    { s with check_guard := Function.update s.check_guard (installation_id, head_sha) none }
  else s

def World.shared (s : World) (p : Pid) (installation_id : Nat) (held : Bool) : World :=
  { s with
    authority_guard := Function.update s.authority_guard installation_id
      (Function.update (s.authority_guard installation_id) p held) }

def World.written (s : World) (w : CheckWrite) (id : Nat) : World :=
  { s with
    github := { s.github with
      checks := Function.update s.github.checks w.key (some ⟨id, w.state⟩) } }

/-- An accepted authority request takes the exclusive guard of its installation. -/
def World.admits (s : World) : Call → Prop
  | .acceptDelivery _ _ (some (.authority request)) =>
    ∀ q, s.authority_guard request.installation_id q = false
  | _ => True

/-- What an effect may do to the world before its process records it. A call or
a write may take effect and raise all the same; a release always releases. -/
def acts (p : Pid) (s : World) (i : Instant) : (e : Effect) → Except Exn e.Answer → World → Prop
  | .query q, .ok a, s' => a = q.run i s.db ∧ s' = s
  | .call c, .ok a, s' => s.admits c ∧ ∃ db', c.run i s.db = .ok (db', a) ∧
      s' = s.committed p i c db'
  | .call c, .error _, s' => s' = s ∨
      (s.admits c ∧ ∃ db' a, c.run i s.db = .ok (db', a) ∧ s' = s.committed p i c db')
  | .acquireCheckWriteGuard installation_id head_sha, .ok _, s' =>
    s.check_guard (installation_id, head_sha) = none ∧ s' = s.taken p installation_id head_sha
  | .releaseCheckWriteGuard installation_id head_sha, _, s' => s' = s.released p installation_id head_sha
  | .acquireAuthorityGuard installation_id, .ok _, s' => s' = s.shared p installation_id true
  | .releaseAuthorityGuard installation_id, _, s' => s' = s.shared p installation_id false
  | .read r, .ok a, s' => s.github.answers r a ∧ s' = s
  | .write w, .ok _, s' =>
    (∃ id, w.addresses (s.github.checks w.key) id ∧ s' = s.written w id) ∨
      (w.mayskip (s.github.checks w.key) ∧ s' = s)
  | .write w, .error _, s' => s' = s ∨
      ∃ id, w.addresses (s.github.checks w.key) id ∧ s' = s.written w id
  | .recallPolicy base_ref, .ok a, s' => a = recalledPolicy base_ref (s.trace p) ∧ s' = s
  | .recallPolicy _, .error _, _ | .rememberPolicy .., .error _, _ | .pick, .error _, _ => False
  | _, _, s' => s' = s

def performs (p : Pid) (s : World) (e : Effect) (a : Except Exn e.Answer) (s' : World) : Prop :=
  (∀ x, a = .error x → x.isExternal = true) ∧
    ∃ i s₁, acts p s i e a s₁ ∧ s' = s₁.seen p ⟨s.db, s.github, i, e, a⟩

/-! ## Everyone else -/

def World.background (s : World) : Call → Prop
  | .renewClaim job _ => ∃ p, job ∈ heldClaims (s.trace p)
  | .renewSharedHeadInvalidation job _ => ∃ p, job ∈ heldInvalidations (s.trace p)
  | .renewAuthorityClaim job _ => ∃ p, job ∈ heldAuthorities (s.trace p)
  | .enqueueReconciliationIfDue .. | .recordProviderBackpressure .. | .pruneDeliveries _
  | .pruneSharedHeadEpochs _ | .pruneReconciliationStates _ => True
  | _ => False

/-- Pull requests, branches and policies change at any time; checks do not. -/
inductive environment (s : World) : World → Prop where
  | call (i : Instant) (c : Call) (db' : Db) (a : c.Answer) : s.background c →
      c.run i s.db = .ok (db', a) → environment s { s with db := db' }
  | github (github : GitHub) : github.checks = s.github.checks →
      environment s { s with github := github }

/-- A process that stops drops its guards; its rows stay leased. -/
def World.cleared (s : World) (p : Pid) : World :=
  { s with
    check_guard := fun k => if s.check_guard k = some p then none else s.check_guard k
    authority_guard := fun installation_id => Function.update (s.authority_guard installation_id) p false
    trace := Function.update s.trace p [] }

end ExtraCodeowners
