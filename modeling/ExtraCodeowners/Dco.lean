import ExtraCodeowners.Lib.Worklist
import ExtraCodeowners.Text

/-!
# Developer Certificate of Origin

The decision on the commits of one pull request, from three snapshots of it, a
comparison and the commits themselves. The records are validated evidence: what
a validator checks and the decision relies on is a field, the bounds on texts
only narrow the evidence and are left out.
-/

namespace ExtraCodeowners.Dco

def MAX_PULL_COMMITS : Nat := 250

/-! ## Evidence -/

structure RepositoryIdentity where
  id : Nat
  full_name : Str
deriving DecidableEq

structure GitHubActor where
  login : Str
  id : Nat
  type : Str
deriving DecidableEq

structure GitHubUserIdentity where
  login : Str
  id : Nat
deriving DecidableEq

inductive SnapshotState where
  | open
  | closed
deriving DecidableEq

structure PullRequestSnapshot where
  number : Nat
  state : SnapshotState
  repository : RepositoryIdentity
  base_repository : RepositoryIdentity
  base_ref : Str
  base_sha : Str
  head_repository : RepositoryIdentity
  head_ref : Str
  head_sha : Str
  author : GitHubActor
  commit_count : Nat
  /-- `StrictCommitCount` -/
  commit_count_bound : 0 < commit_count ∧ commit_count ≤ MAX_PULL_COMMITS
deriving DecidableEq

structure PullCommit where
  sha : Str
  node_id : Str
deriving DecidableEq

structure PullCommitComparison where
  repository : RepositoryIdentity
  pull_number : Nat
  base_sha : Str
  head_sha : Str
  base_commit_sha : Str
  total_commits : Nat
  ahead_by : Nat
  commits : List PullCommit

structure GitCommitIdentity where
  name : Str
  email : Str
deriving DecidableEq

structure CommitVerification where
  is_valid : Bool
  state : Str
  verified_at : Option Str
  was_signed_by_github : Bool
  signer : Option GitHubUserIdentity

structure CommitEvidence where
  sha : Str
  parents : List Str
  author : GitCommitIdentity
  committer : GitCommitIdentity
  author_signoff_present : Bool
  dependabot_signoff_present : Bool
  github_author : Option GitHubUserIdentity
  verification : Option CommitVerification

structure DcoEvidenceInput where
  event : PullRequestSnapshot
  before : PullRequestSnapshot
  after : PullRequestSnapshot
  comparison : PullCommitComparison
  commits : List CommitEvidence

/-! ## Results -/

inductive DcoCommitOutcome where
  | AUTHOR_SIGNOFF
  | OFFICIAL_DEPENDABOT
  | MISSING_SIGNOFF
deriving DecidableEq

inductive DcoFailure where
  | PULL_REQUEST_NOT_OPEN
  | PULL_REQUEST_CHANGED
  | COMPARISON_MISMATCH
  | COMMIT_COUNT_MISMATCH
  | DUPLICATE_COMMIT
  | HEAD_MISMATCH
  | COMMIT_ORDER_MISMATCH
  | MISSING_SIGNOFF
deriving DecidableEq

structure DcoCommitResult where
  sha : Str
  outcome : DcoCommitOutcome

/-- `result_is_consistent` is a field. -/
structure DcoEvaluationResult where
  passed : Bool
  repository : RepositoryIdentity
  pull_number : Nat
  base_sha : Str
  head_sha : Str
  failure : Option DcoFailure
  commits : List DcoCommitResult
  consistent : passed = failure.isNone ∧
    (passed = true → ∀ commit ∈ commits, commit.outcome ≠ .MISSING_SIGNOFF)

def failed (evidence : DcoEvidenceInput) (failure : DcoFailure) (commits : List DcoCommitResult) :
    DcoEvaluationResult where
  passed := false
  repository := evidence.event.repository
  pull_number := evidence.event.number
  base_sha := evidence.event.base_sha
  head_sha := evidence.event.head_sha
  failure := some failure
  commits := commits
  consistent := ⟨rfl, nofun⟩

/-! ## The official Dependabot pull request -/

def DEPENDABOT_AUTHOR_LOGIN : Str := ("dependabot[bot]" : Str)
def DEPENDABOT_AUTHOR_ID : Nat := 49699333
def DEPENDABOT_AUTHOR_TYPE : Str := ("Bot" : Str)
def DEPENDABOT_AUTHOR_EMAIL : Str := ("49699333+dependabot[bot]@users.noreply.github.com" : Str)
def DEPENDABOT_COMMITTER_LOGIN : Str := ("web-flow" : Str)
def DEPENDABOT_COMMITTER_ID : Nat := 19864447
def DEPENDABOT_COMMITTER_NAME : Str := ("GitHub" : Str)
def DEPENDABOT_COMMITTER_EMAIL : Str := ("noreply@github.com" : Str)

def isOfficialDependabotPull (pull : PullRequestSnapshot) : Bool :=
  pull.author.login = DEPENDABOT_AUTHOR_LOGIN && pull.author.id = DEPENDABOT_AUTHOR_ID &&
    pull.author.type = DEPENDABOT_AUTHOR_TYPE && pull.base_repository.id = pull.repository.id &&
    pull.head_repository.id = pull.repository.id && ("dependabot/" : Str).isPrefixOf pull.head_ref &&
    pull.commit_count = 1

def isOfficialDependabotCommit (commit : CommitEvidence) (pull : PullRequestSnapshot) : Bool :=
  match commit.verification with
  | none => false
  | some verification =>
    commit.sha = pull.head_sha && commit.parents = [pull.base_sha] &&
      commit.github_author = some ⟨DEPENDABOT_AUTHOR_LOGIN, DEPENDABOT_AUTHOR_ID⟩ &&
      commit.author = ⟨DEPENDABOT_AUTHOR_LOGIN, DEPENDABOT_AUTHOR_EMAIL⟩ &&
      commit.committer = ⟨DEPENDABOT_COMMITTER_NAME, DEPENDABOT_COMMITTER_EMAIL⟩ &&
      verification.is_valid && verification.state = ("VALID" : Str) &&
      verification.verified_at.any (· ≠ []) && verification.was_signed_by_github &&
      verification.signer = some ⟨DEPENDABOT_COMMITTER_LOGIN, DEPENDABOT_COMMITTER_ID⟩ &&
      commit.dependabot_signoff_present

/-! ## The order of the commits -/

/-- `positions`, where a repeated SHA has its last index. -/
def positionOf (ordered_shas : List Str) (sha : Str) : Option Nat :=
  (ordered_shas.zipIdx.reverse.find? fun item => item.1 = sha).map (·.2)

/-- `by_sha`, where a repeated SHA names its last commit. -/
def bySha (commits : List CommitEvidence) (sha : Str) : Option CommitEvidence :=
  commits.reverse.find? fun commit => commit.sha = sha

/-- The parents of a commit that are in range. -/
def parentsInRange (commits : List CommitEvidence) (sha : Str) : List Str :=
  match bySha commits sha with
  | none => []
  | some commit => commit.parents.filter fun parent => (bySha commits parent).isSome

/-- The loop over `pending`; each commit is stacked once. -/
def reachableFrom (commits : List CommitEvidence) (head : Str) : Option (List Str) :=
  Worklist.search (parentsInRange commits) commits.length [head] [head]

def commitOrderIsValid (pull_commits : List PullCommit) (commits : List CommitEvidence) : Bool :=
  let ordered_shas := pull_commits.map PullCommit.sha
  if (commits.zip ordered_shas).any fun (commit, expected_sha) => commit.sha ≠ expected_sha then false
  else if commits.zipIdx.any fun (commit, index) =>
      commit.parents.any fun parent => (positionOf ordered_shas parent).any (index ≤ ·) then false
  else
    match ordered_shas.getLast?.bind (reachableFrom commits) with
    | none => false
    | some reachable => reachable.all (· ∈ ordered_shas) && ordered_shas.all (· ∈ reachable)

/-! ## The decision -/

def commitResult (pull : PullRequestSnapshot) (commit : CommitEvidence) : DcoCommitResult where
  sha := commit.sha
  outcome :=
    if commit.author_signoff_present then .AUTHOR_SIGNOFF
    else if isOfficialDependabotPull pull && isOfficialDependabotCommit commit pull then
      .OFFICIAL_DEPENDABOT
    else .MISSING_SIGNOFF

def evaluateDco (evidence : DcoEvidenceInput) : DcoEvaluationResult :=
  let pull := evidence.event
  let comparison := evidence.comparison
  let expected_count := pull.commit_count
  let ordered_shas := comparison.commits.map PullCommit.sha
  let results := evidence.commits.map (commitResult pull)
  if pull.state ≠ .open then failed evidence .PULL_REQUEST_NOT_OPEN []
  else if evidence.before ≠ pull ∨ evidence.after ≠ pull then failed evidence .PULL_REQUEST_CHANGED []
  else if comparison.repository ≠ pull.repository ∨ comparison.pull_number ≠ pull.number ∨
      comparison.base_sha ≠ pull.base_sha ∨ comparison.head_sha ≠ pull.head_sha ∨
      comparison.base_commit_sha ≠ pull.base_sha then failed evidence .COMPARISON_MISMATCH []
  else if comparison.total_commits ≠ expected_count ∨ comparison.ahead_by ≠ expected_count ∨
      comparison.commits.length ≠ expected_count ∨ evidence.commits.length ≠ expected_count then
    failed evidence .COMMIT_COUNT_MISMATCH []
  else if ¬ ordered_shas.Nodup then failed evidence .DUPLICATE_COMMIT []
  else if ordered_shas.getLast? ≠ some pull.head_sha then failed evidence .HEAD_MISMATCH []
  else if ¬ commitOrderIsValid comparison.commits evidence.commits then
    failed evidence .COMMIT_ORDER_MISMATCH []
  else if h : ∃ result ∈ results, result.outcome = .MISSING_SIGNOFF then
    failed evidence .MISSING_SIGNOFF results
  else
    { passed := true
      repository := pull.repository
      pull_number := pull.number
      base_sha := pull.base_sha
      head_sha := pull.head_sha
      failure := none
      commits := results
      consistent := ⟨rfl, fun _ commit hc ho => h ⟨commit, hc, ho⟩⟩ }

end ExtraCodeowners.Dco
