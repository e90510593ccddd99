import ExtraCodeowners.Policy

/-!
# Evaluation of approval evidence

`evaluate` groups the changed paths by owner set and decides each set by human
approvals, author evidence or application approvals, in this order.
-/

namespace ExtraCodeowners

/-! ## Reviews -/

def isOpinionated : ReviewState → Bool
  | .APPROVED | .CHANGES_REQUESTED | .DISMISSED => true
  | .COMMENTED | .PENDING => false

/-- `(a.submitted_at, a.review_id) > (b.submitted_at, b.review_id)` -/
def isLater (a b : PullRequestReview) : Bool :=
  b.submitted_at < a.submitted_at || (b.submitted_at == a.submitted_at && b.review_id < a.review_id)

def actorKey (review : PullRequestReview) : ActorKind × Nat := (review.actor.kind, review.actor.user_id)

def keepLatest (previous : Option PullRequestReview) (review : PullRequestReview) : PullRequestReview :=
  match previous with
  | none => review
  | some previous => if isLater review previous then review else previous

def latestOpinionatedReviews (reviews : List PullRequestReview) : List PullRequestReview :=
  let latest := Dict.group actorKey keepLatest (reviews.filter (isOpinionated ·.state))
  latest.values.insertionSort fun a b => isLater a b = false

def evaluationPaths (data : EvaluationInput) : List RepositoryPath :=
  fromKeys (data.changed_files.flatMap fun file => file.previous_path.toList ++ [file.path])

def isStale (data : EvaluationInput) (review : PullRequestReview) : Bool :=
  data.options.exact_head_reviews && review.commit_sha != some data.head_sha

def staleWarning (review : PullRequestReview) : EvaluationMessage :=
  ⟨("stale_approval_ignored" : Str),
    ("approval " : Str) ++ decimal review.review_id ++ (" from @" : Str) ++ review.actor.login ++
      (" does not target the current pull request head" : Str)⟩

def currentApprovals (data : EvaluationInput) : List PullRequestReview × List EvaluationMessage :=
  let approved := (latestOpinionatedReviews data.reviews).filter (·.state = .APPROVED)
  (approved.filter (!isStale data ·), (approved.filter (isStale data ·)).map staleWarning)

/-! ## Identities -/

def isEnrolledAs (enrolled : EnrolledApplication) (actor : ReviewActor) : Bool :=
  some enrolled.app_id = actor.app_id && some enrolled.slug = actor.app_slug &&
    enrolled.bot_user_id = actor.user_id && actor.login = enrolled.slug ++ ("[bot]" : Str)

def enrolledAlias (policy : OrganizationPolicy) (actor : ReviewActor) : Option Str :=
  (policy.apps.entries.find? fun e => isEnrolledAs e.2 actor).map Prod.fst

def untrustedWarning (review : PullRequestReview) : EvaluationMessage :=
  ⟨("untrusted_application_review_ignored" : Str),
    ("approval " : Str) ++ decimal review.review_id ++ (" from @" : Str) ++ review.actor.login ++
      (" did not match an organization-enrolled app_id, slug, bot login, and bot_user_id" : Str)⟩

def recognizedAppApprovals (data : EvaluationInput) (approvals : List PullRequestReview) :
    List Str × List EvaluationMessage :=
  let reviews := approvals.filter (·.actor.kind = .APPLICATION)
  (reviews.filterMap fun review => enrolledAlias data.organization_policy review.actor,
    (reviews.filter fun review => enrolledAlias data.organization_policy review.actor = none).map
      untrustedWarning)

section
variable [PyText]

def humanOwnerIdentities (login : Str) (owner_aliases : Finset Str) (direct_owner_eligible : Bool) :
    Finset Str :=
  if direct_owner_eligible then insert ('@' :: PyText.lower login) owner_aliases else owner_aliases

def humanApprovalsByOwner (approvals : List PullRequestReview) :
    List (PullRequestReview × Finset Str) :=
  (approvals.filter (·.actor.kind = .HUMAN)).map fun review =>
    (review, humanOwnerIdentities review.actor.login review.actor.owner_aliases
      review.actor.direct_owner_eligible)

/-- The author whose identities count, when the repository opts in. -/
def optedInAuthor (data : EvaluationInput) : Option PullRequestAuthor :=
  if data.repository_policy.allow_author_as_codeowner then data.author else none

def authorIdentities (author : PullRequestAuthor) : Finset Str :=
  humanOwnerIdentities author.login author.owner_aliases author.direct_owner_eligible

end

/-- `identities & owner_set` -/
def meet (identities : Finset Str) (owners : List Str) : Bool := owners.any (· ∈ identities)

/-! ## One owner set -/

def mention (login : Str) : Str := '@' :: login

def humanResult (policy : CompiledPolicy) (owners : List Str) (paths : List RepositoryPath)
    (reviews : List PullRequestReview) : OwnerSetResult where
  owners := owners
  paths := paths
  satisfied := true
  satisfied_by := reviews.map fun review => ("human:@" : Str) ++ review.actor.login
  explanation := ("approved by human CODEOWNER " : Str) ++
    join (", " : Str) (reviews.map fun review => mention review.actor.login)
  path_evidence := paths.map fun path =>
    ⟨path, policy.isNonDelegable path, [], [], ("covered by the human CODEOWNER approval" : Str)⟩

def authorResult (policy : CompiledPolicy) (owners : List Str) (paths : List RepositoryPath)
    (author : PullRequestAuthor) : OwnerSetResult where
  owners := owners
  paths := paths
  satisfied := true
  satisfied_by := [("author:@" : Str) ++ author.login]
  explanation := ("pull request author @" : Str) ++ author.login ++
    (" is an eligible human CODEOWNER" : Str)
  path_evidence := paths.map fun path =>
    ⟨path, policy.isNonDelegable path, [], [],
      ("covered by eligible pull-request author evidence" : Str)⟩

/-- The application evidence of one path; it is satisfied when an approved
application is eligible. -/
def appPathEvidence (policy : CompiledPolicy) (approved_apps : List Str) (labels : Finset Str)
    (owners : List Str) (path : RepositoryPath) : PathEvidence :=
  if policy.isNonDelegable path then
    ⟨path, true, [], [], ("application delegation is disabled for this security-sensitive path" : Str)⟩
  else
    let decisions := policy.delegationDecisions path owners labels
    let eligible_apps := (decisions.filter (·.eligible)).map (·.app_alias)
    let path_approvals := sorted (fromKeys (eligible_apps.filter (approved_apps.contains ·)))
    let explanation : Str :=
      if path_approvals ≠ [] then
        ("covered by approved application " : Str) ++ join (", " : Str) path_approvals
      else if eligible_apps ≠ [] then
        ("eligible application approval is missing: " : Str) ++ join (", " : Str) eligible_apps
      else if decisions ≠ [] then
        ("delegation label conditions were not met: " : Str) ++
          join ("; " : Str) (decisions.map fun decision =>
            decision.app_alias ++ (": " : Str) ++ join (", " : Str) decision.reasons)
      else ("no application delegation covers this path and owner set" : Str)
    ⟨path, false, eligible_apps, path_approvals, explanation⟩

def appResult (policy : CompiledPolicy) (approved_apps : List Str) (labels : Finset Str)
    (owners : List Str) (paths : List RepositoryPath) : OwnerSetResult :=
  let path_evidence := paths.map (appPathEvidence policy approved_apps labels owners)
  if path_evidence.all (!·.approved_apps.isEmpty) then
    ⟨owners, paths, true,
      (sorted (fromKeys (path_evidence.flatMap (·.approved_apps)))).map (("app:" : Str) ++ ·),
      ("all paths are covered by approved application delegation" : Str), path_evidence⟩
  else
    ⟨owners, paths, false, [],
      ("requires an approval from a listed human CODEOWNER or an eligible application for every path"
        : Str), path_evidence⟩

section
variable [PyText]

/-- The evidence all owner sets of one evaluation share. -/
structure Evidence where
  policy : CompiledPolicy
  human_approvals : List (PullRequestReview × Finset Str)
  author : Option PullRequestAuthor
  approved_apps : List Str
  labels : Finset Str

def ownerSetResult (evidence : Evidence) (owners : List Str) (paths : List RepositoryPath) :
    OwnerSetResult :=
  match (evidence.human_approvals.filter fun a => meet a.2 owners).map Prod.fst with
  | review :: reviews => humanResult evidence.policy owners paths (review :: reviews)
  | [] =>
    match evidence.author.filter fun author => meet (authorIdentities author) owners with
    | some author => authorResult evidence.policy owners paths author
    | none => appResult evidence.policy evidence.approved_apps evidence.labels owners paths

/-! ## The evaluation -/

def errorResult (messages : List EvaluationMessage) : EvaluationResult where
  conclusion := .FAILURE
  summary := ("Extra CODEOWNERS could not evaluate safely; approval is denied." : Str)
  requirements := []
  errors := messages
  warnings := []
  unowned_paths := []

def disabledResult : EvaluationResult where
  conclusion := .FAILURE
  summary := ("Repository policy is missing or disabled; approval is denied." : Str)
  requirements := []
  errors := [⟨("repository_policy_disabled" : Str),
    ("repository policy is missing or enabled=false; remove the required check from the ruleset before disabling Extra CODEOWNERS" : Str)⟩]
  warnings := []
  unowned_paths := []

def insecureWarning : EvaluationMessage :=
  ⟨("insecure_changes_enabled" : Str),
    ("the runtime allow-insecure-changes escape hatch disabled built-in non-delegable paths; organization-added paths remain enforced" : Str)⟩

/-- `tuple(sorted(document.owners_for(path)))` -/
def sortedOwners (document : CodeownersDocument) (path : RepositoryPath) : List Str :=
  sorted (document.ownersFor path)

def ownerPaths (document : CodeownersDocument) (paths : List RepositoryPath) :
    Dict (List Str) (List RepositoryPath) :=
  Dict.group (sortedOwners document)
    (fun known path => if path ∈ known.getD [] then known.getD [] else known.getD [] ++ [path])
    (paths.filter (sortedOwners document · ≠ []))

def evidenceOf (data : EvaluationInput) (policy : CompiledPolicy) : Evidence :=
  let approvals := (currentApprovals data).1
  { policy := policy
    human_approvals := humanApprovalsByOwner approvals
    author := optedInAuthor data
    approved_apps := (recognizedAppApprovals data approvals).1
    labels := data.labels }

def evaluationRequirements (data : EvaluationInput) (document : CodeownersDocument)
    (policy : CompiledPolicy) : List OwnerSetResult :=
  (ownerPaths document (evaluationPaths data)).entries.map fun e =>
    ownerSetResult (evidenceOf data policy) e.1 e.2

def evaluateWith (data : EvaluationInput) (document : CodeownersDocument) (policy : CompiledPolicy) :
    EvaluationResult :=
  let approvals := currentApprovals data
  let warnings := (if data.options.allow_insecure_changes then [insecureWarning] else []) ++
    approvals.2 ++ (recognizedAppApprovals data approvals.1).2
  let requirements := evaluationRequirements data document policy
  let failed := requirements.countP (!·.satisfied)
  let unowned_paths := (evaluationPaths data).filter (sortedOwners document · = [])
  if failed ≠ 0 then
    ⟨.FAILURE, decimal failed ++ (" of " : Str) ++ decimal requirements.length ++
      (" distinct CODEOWNER requirements are unsatisfied." : Str), requirements, [], warnings,
      unowned_paths⟩
  else if requirements ≠ [] then
    ⟨.SUCCESS, ("All " : Str) ++ decimal requirements.length ++
      (" distinct CODEOWNER requirements are satisfied." : Str), requirements, [], warnings,
      unowned_paths⟩
  else
    ⟨.SUCCESS, ("No changed path has a CODEOWNER requirement." : Str), requirements, [], warnings,
      unowned_paths⟩

def evaluate (data : EvaluationInput) : EvaluationResult :=
  if !data.repository_policy.enabled then disabledResult
  else
    match parseCodeowners data.codeowners_text with
    | .error issues => errorResult (issues.map fun issue => ⟨issue.code, issue.render⟩)
    | .ok document =>
      match compilePolicy data.organization_policy data.repository_policy data.options with
      | .error issues => errorResult (issues.map fun issue => ⟨issue.code, issue.message⟩)
      | .ok policy => evaluateWith data document policy

end

end ExtraCodeowners
