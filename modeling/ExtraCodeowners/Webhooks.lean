import ExtraCodeowners.Lib.Json
import ExtraCodeowners.Claims

/-!
# Webhook triggers

What a verified delivery asks for: one pull request's evaluation, authority
fan-out, or nothing. The payload is any JSON object; the reader rejects what it
cannot interpret with a `WebhookError`, and it does so for every payload but
two kinds, which `evaluationJob_failsOneWay` names.
-/

namespace ExtraCodeowners

/-! ## Requests the queue accepts -/

/-- The exceptions that reach the caller. `TypeError` is the one Python raises
on hashing an array or an object. -/
inductive Raised where
  | WebhookError (message : Str)
  | ValueError (message : Str)
  | TypeError

inductive WorkRequest where
  | evaluation (request : JobRequest)
  | authority (request : AuthorityRequest)

def validateHeadSha (value : Str) : Except Str HeadSha :=
  if h : isHeadSha value = true then .ok ⟨value, h⟩ else .error INVALID_HEAD_SHA

def validateBaseRefHint (value : Json) : Except Str (Option Str) :=
  let rejected := ("base_ref_hint must be a valid branch ref of at most 255 characters" : Str)
  match value with
  | .null => .ok none
  | .string hint => if isBaseRefHint hint then .ok (some hint) else .error rejected
  | _ => .error rejected

section
variable [PyText]

def normalizeRepositoryFullName (value : Str) : Except Str Repository :=
  if value = [] ∨ value ≠ strip value ∨ 512 < value.length ∨ value.count '/' ≠ 1 ∨
      ∃ part ∈ value.splitOn '/', part = [] ∨ part = ['.'] ∨ part = ['.', '.'] then
    .error ("repository_full_name must be a valid owner/repository name" : Str)
  else .ok ⟨PyText.lower value⟩

def JobRequest.new (installation_id : Nat) (repository_full_name : Str) (pull_number : Nat)
    (reason : Str) (head_sha_hint : Option HeadSha) (base_ref_hint : Option Str) :
    Except Raised JobRequest := do
  let repository ← (normalizeRepositoryFullName repository_full_name).mapError .ValueError
  let base_ref_hint ←
    (validateBaseRefHint ((base_ref_hint.map .string).getD .null)).mapError .ValueError
  return JobRequest.postInit
    { installation_id := installation_id
      repository_full_name := repository
      pull_number := pull_number
      reason := reason
      head_sha_hint := head_sha_hint
      work_class := .interactive
      observed_at := none
      base_ref_hint := base_ref_hint }

def AuthorityRequest.new (installation_id : Nat) (repository_full_name base_ref : Option Str)
    (reason : Str) : Except Raised AuthorityRequest :=
  match repository_full_name with
  | none => .ok ⟨installation_id, none, base_ref, reason⟩
  | some name => do
    let repository ← (normalizeRepositoryFullName name).mapError .ValueError
    return ⟨installation_id, some repository, base_ref, reason⟩

end

/-! ## Reading a payload -/

structure VerifiedWebhook where
  delivery_id : Str
  event : Str
  action : Str
  payload : JsonObject

def PULL_REQUEST_ACTIONS : List Str :=
  [("opened" : Str), ("reopened" : Str), ("synchronize" : Str), ("ready_for_review" : Str),
    ("converted_to_draft" : Str), ("edited" : Str), ("labeled" : Str), ("unlabeled" : Str),
    ("review_requested" : Str), ("review_request_removed" : Str), ("closed" : Str)]

def REVIEW_ACTIONS : List Str := [("submitted" : Str), ("edited" : Str), ("dismissed" : Str)]

def RE_EVALUATE_ACTION_IDENTIFIER : String := "re-evaluate"

def positiveInt (value : Json) (field : Str) : Except Raised Nat :=
  let rejected := Raised.WebhookError (("webhook " : Str) ++ field ++ (" must be a positive integer" : Str))
  match value with
  | .int n => if 0 < n then .ok n.toNat else .error rejected
  | _ => .error rejected

def installationId (payload : JsonObject) : Except Raised Nat :=
  match Json.get payload "installation" with
  | .object installation => positiveInt (Json.get installation "id") ("installation.id" : Str)
  | _ => .error (.WebhookError ("webhook omitted installation" : Str))

def headSha (value : Json) (field : Str) : Except Raised HeadSha :=
  match value with
  | .string sha => (validateHeadSha sha).mapError fun _ => .WebhookError (("webhook " : Str) ++ field ++
      (" must be exactly 40 or 64 lowercase hexadecimal characters" : Str))
  | _ => .error (.WebhookError (("webhook " : Str) ++ field ++
      (" must be a non-empty commit identifier" : Str)))

/-- `full_name.count("/") != 1 or any(part == "" for part in full_name.split("/"))` -/
def namesNoRepository (full_name : Str) : Bool :=
  full_name.count '/' ≠ 1 || [] ∈ full_name.splitOn '/'

/-- `event.action`, or `event.received` without an action. -/
def VerifiedWebhook.reason (webhook : VerifiedWebhook) : Str :=
  webhook.event ++ '.' :: (if webhook.action = [] then ("received" : Str) else webhook.action)

/-- `full_name.split("/", 1)[-1]` -/
def splitRepository (full_name : Str) : Str :=
  if '/' ∈ full_name then (full_name.dropWhile (· ≠ '/')).drop 1 else full_name

section
variable [PyText]

def webhookRepositoryName (payload : JsonObject) : Except Raised Str :=
  let omitted := Raised.WebhookError ("webhook omitted repository.full_name" : Str)
  match Json.get payload "repository" with
  | .object repository =>
    match Json.get repository "full_name" with
    | .string full_name =>
      if namesNoRepository full_name then
        .error (.WebhookError ("webhook repository.full_name must be owner/repository" : Str))
      else .ok (PyText.lower full_name)
    | _ => .error omitted
  | _ => .error omitted

/-! ## Pull requests -/

/-- The arguments of a request in the order in which they are read. -/
def newEvaluation (payload : JsonObject) (pull_number : Nat) (reason : Str) (head_sha : HeadSha)
    (base_ref_hint : Option Str) : Except Raised (Option WorkRequest) := do
  let installation_id ← installationId payload
  let repository_full_name ← webhookRepositoryName payload
  let request ← JobRequest.new installation_id repository_full_name pull_number reason
    (some head_sha) base_ref_hint
  return some (.evaluation request)

/-- Scheduling hints are optional: malformed branch data gives no hint. -/
def baseRefHint (base : Json) : Option Str :=
  let raw_base_ref := match base with
    | .object base => Json.get base "ref"
    | _ => .null
  match validateBaseRefHint raw_base_ref with
  | .ok base_ref_hint => base_ref_hint
  | .error _ => none

def pullRequestJob (webhook : VerifiedWebhook) (allow_closed : Bool) :
    Except Raised (Option WorkRequest) :=
  match Json.get webhook.payload "pull_request" with
  | .object pull =>
    let pull_state := Json.get pull "state"
    if !pull_state.hashable then .error .TypeError
    else if !(pull_state.isString "open" || pull_state.isString "closed") then
      .error (.WebhookError ("webhook pull_request.state must be open or closed" : Str))
    else if pull_state.isString "closed" && !allow_closed then .ok none
    else do
      let number ← positiveInt
        ((Json.get pull "number").orElse (Json.get webhook.payload "number")) ("pull number" : Str)
      match Json.get pull "head" with
      | .object head => do
        let head_sha ← headSha (Json.get head "sha") ("pull_request.head.sha" : Str)
        newEvaluation webhook.payload number webhook.reason head_sha
          (baseRefHint (Json.get pull "base"))
      | _ => .error (.WebhookError ("webhook omitted pull_request.head" : Str))
  | _ => .error (.WebhookError ("webhook omitted pull_request" : Str))

/-! ## Check runs -/

def fromOtherApp (check_run : JsonObject) (expected_app_id : Option Int) : Bool :=
  match expected_app_id with
  | none => false
  | some app_id =>
    match Json.get check_run "app" with
    | .object source => !(Json.get source "id").equalsInt app_id
    | _ => true

def requestsOtherAction (webhook : VerifiedWebhook) : Bool :=
  webhook.action = ("requested_action" : Str) &&
    match Json.get webhook.payload "requested_action" with
    | .object requested_action =>
      !(Json.get requested_action "identifier").isString RE_EVALUATE_ACTION_IDENTIFIER
    | _ => true

def checkRunReason (webhook : VerifiedWebhook) : Str :=
  if webhook.action = ("requested_action" : Str) then ("check_run.requested_action.re-evaluate" : Str)
  else ("check_run.rerequested" : Str)

def checkRunJob (webhook : VerifiedWebhook) (expected_app_id : Option Int) :
    Except Raised (Option WorkRequest) :=
  match Json.get webhook.payload "check_run" with
  | .object check_run =>
    if fromOtherApp check_run expected_app_id || requestsOtherAction webhook then .ok none
    else
      match Json.get check_run "pull_requests" with
      | .array [.object pull] => do
        let number ← positiveInt (Json.get pull "number") ("check_run pull number" : Str)
        let head_sha ← headSha (Json.get check_run "head_sha") ("check_run.head_sha" : Str)
        newEvaluation webhook.payload number (checkRunReason webhook) head_sha none
      | _ => .ok none
  | _ => .error (.WebhookError ("webhook omitted check_run" : Str))

/-! ## Authority changes -/

def newAuthority (payload : JsonObject) (repository_full_name : Except Raised (Option Str))
    (base_ref : Option Str) (reason : Str) : Except Raised (Option WorkRequest) := do
  let installation_id ← installationId payload
  let repository_full_name ← repository_full_name
  let request ← AuthorityRequest.new installation_id repository_full_name base_ref reason
  return some (.authority request)

/-- The strings of a list of strings. -/
def pathList : Json → Option (List Str)
  | .array items => items.mapM fun
    | .string path => some path
    | _ => none
  | _ => none

/-- The paths a commit lists, field by field; a malformed field has none. -/
def commitFields : Json → List (Option (List Str))
  | .object commit => ["added", "modified", "removed"].map fun field => pathList (Json.get commit field)
  | _ => [none]

/-- Evidence that is missing, malformed or truncated, or that names the policy
path: everything that the path filter may not ignore. -/
def mayChangePolicy (payload : JsonObject) (policy_path : Str) : Bool :=
  match Json.get payload "commits", Json.get payload "distinct_size" with
  | .array commits, .int distinct_size =>
    let fields := commits.flatMap commitFields
    fields.any (·.isNone) || distinct_size < 0 || (commits.length : Int) < distinct_size ||
      !(Json.get payload "forced").isFalse || policy_path ∈ fields.reduceOption.flatten
  | _, _ => true

def pushedBranch (payload : JsonObject) : Option Str :=
  match Json.get payload "ref" with
  | .string ref =>
    if ("refs/heads/" : Str).isPrefixOf ref then some (ref.drop ("refs/heads/" : Str).length) else none
  | _ => none

def pushAuthorityJob (webhook : VerifiedWebhook) (policy_path org_config_repository : Str) :
    Except Raised (Option WorkRequest) :=
  let payload := webhook.payload
  if (Json.get payload "deleted").isTrue then .ok none
  else
    match pushedBranch payload with
    | none => .ok none
    | some branch =>
      match Json.get payload "repository" with
      | .object repository => do
        let full_name ← webhookRepositoryName payload
        if splitRepository full_name ≠ PyText.lower org_config_repository then
          newAuthority payload (.ok (some full_name)) (some branch) ("push.repository_base" : Str)
        else
          match Json.get repository "default_branch" with
          | .string default_branch =>
            if branch ≠ default_branch then .ok none
            else if !mayChangePolicy payload policy_path then .ok none
            else newAuthority payload (.ok none) none ("push.organization_policy" : Str)
          | _ => .ok none
      | _ => .error (.WebhookError ("webhook omitted repository" : Str))

/-- `changes.repository.name.from` -/
def previousName (changes : JsonObject) : Option Str :=
  match Json.get changes "repository" with
  | .object repository_change =>
    match Json.get repository_change "name" with
    | .object name_change =>
      match Json.get name_change "from" with
      | .string previous_name => some previous_name
      | _ => none
    | _ => none
  | _ => none

def repositoryJob (webhook : VerifiedWebhook) (org_config_repository : Str) :
    Except Raised (Option WorkRequest) :=
  match Json.get webhook.payload "repository" with
  | .object _ => do
    let full_name ← webhookRepositoryName webhook.payload
    let changes := match Json.get webhook.payload "changes" with
      | .object changes => changes
      | _ => []
    let org_repository_affected :=
      splitRepository full_name = PyText.lower org_config_repository ||
        (previousName changes).any fun name => PyText.lower name = PyText.lower org_config_repository
    if org_repository_affected &&
        (webhook.action ∈ [("deleted" : Str), ("renamed" : Str), ("transferred" : Str)] ||
          (webhook.action = ("edited" : Str) && Json.hasKey changes "default_branch")) then
      newAuthority webhook.payload (.ok none) none (("repository." : Str) ++ webhook.action)
    else if webhook.action ∈ [("renamed" : Str), ("transferred" : Str), ("unarchived" : Str)] then
      newAuthority webhook.payload (.ok none) none (("repository." : Str) ++ webhook.action)
    else .ok none
  | _ => .error (.WebhookError ("webhook omitted repository" : Str))

def isAsciiAlnum (c : Char) : Bool := c.isAlpha || c.isDigit

/-- `[A-Za-z0-9_.-]` -/
def isNameChar (c : Char) : Bool := isAsciiAlnum c || c == '_' || c == '.' || c == '-'

/-- `[A-Za-z0-9][A-Za-z0-9-]{0,38}` -/
def isLogin : Str → Bool
  | [] => false
  | c :: rest => isAsciiAlnum c && rest.length ≤ 38 && rest.all fun c => isAsciiAlnum c || c == '-'

/-- `[A-Za-z0-9_.-]{1,100}`, without the names of directories. -/
def isRepositoryName (name : Str) : Bool :=
  1 ≤ name.length && name.length ≤ 100 &&
    name.all (fun c => isAsciiAlnum c || c == '_' || c == '.' || c == '-') &&
    name ≠ ['.'] && name ≠ ['.', '.']

/-- The one ordinary repository that an addition names beyond doubt. -/
def singleAddedRepository (payload : JsonObject) (org_config_repository : Str) : Option Str :=
  match Json.get payload "repositories_added", Json.get payload "repositories_removed",
      Json.get payload "installation" with
  | .array [.object repository], .array [], .object installation =>
    match Json.get installation "account" with
    | .object account =>
      match Json.get account "login", Json.get repository "full_name", Json.get repository "name",
          Json.get repository "id" with
      | .string login, .string full_name, .string name, .int repository_id =>
        if !isLogin login || !isRepositoryName name ||
            PyText.lower full_name ≠ PyText.lower (login ++ '/' :: name) || repository_id ≤ 0 ||
            PyText.lower name = PyText.lower org_config_repository then none
        else some (PyText.lower full_name)
      | _, _, _, _ => none
    | _ => none
  | _, _, _ => none

/-- Whether a removed repository is malformed or holds the shared policy. -/
def removesPolicy (org_config_repository : Str) : Json → Bool
  | .object repository =>
    match Json.get repository "full_name" with
    | .string full_name => namesNoRepository full_name ||
        PyText.lower (full_name.rtakeWhile (· ≠ '/')) = PyText.lower org_config_repository
    | _ => true
  | _ => true

def repositoriesRemovedJob (webhook : VerifiedWebhook) (org_config_repository : Str) :
    Except Raised (Option WorkRequest) :=
  let affected := match Json.get webhook.payload "repositories_removed" with
    | .array removed => removed.isEmpty || removed.any (removesPolicy org_config_repository)
    | _ => true
  if affected then
    newAuthority webhook.payload (.ok none) none ("installation_repositories.removed" : Str)
  else .ok none

/-! ## The router -/

def evaluationJob (webhook : VerifiedWebhook) (policy_path org_config_repository : Str)
    (expected_app_id : Option Int) : Except Raised (Option WorkRequest) :=
  if webhook.event = ("pull_request" : Str) then
    if webhook.action ∈ PULL_REQUEST_ACTIONS then
      pullRequestJob webhook (webhook.action = ("closed" : Str))
    else .ok none
  else if webhook.event = ("pull_request_review" : Str) then
    if webhook.action ∈ REVIEW_ACTIONS then pullRequestJob webhook false else .ok none
  else if webhook.event = ("check_run" : Str) ∧
      webhook.action ∈ [("rerequested" : Str), ("requested_action" : Str)] then
    checkRunJob webhook expected_app_id
  else if webhook.event = ("push" : Str) then
    pushAuthorityJob webhook policy_path org_config_repository
  else if webhook.event = ("repository" : Str) then repositoryJob webhook org_config_repository
  else if webhook.event ∈ [("label" : Str), ("member" : Str), ("team_add" : Str)] then
    newAuthority webhook.payload ((webhookRepositoryName webhook.payload).map some) none webhook.reason
  else if webhook.event ∈ [("membership" : Str), ("organization" : Str), ("team" : Str)] then
    newAuthority webhook.payload (.ok none) none webhook.reason
  else if webhook.event = ("installation" : Str) ∧
      webhook.action ∈ [("created" : Str), ("unsuspend" : Str), ("new_permissions_accepted" : Str)] then
    newAuthority webhook.payload (.ok none) none (("installation." : Str) ++ webhook.action)
  else if webhook.event = ("installation_repositories" : Str) ∧ webhook.action = ("added" : Str) then
    newAuthority webhook.payload (.ok (singleAddedRepository webhook.payload org_config_repository))
      none ("installation_repositories.added" : Str)
  else if webhook.event = ("installation_repositories" : Str) ∧ webhook.action = ("removed" : Str) then
    repositoriesRemovedJob webhook org_config_repository
  else if webhook.event = ("installation_target" : Str) ∧ webhook.action = ("renamed" : Str) then
    newAuthority webhook.payload (.ok none) none ("installation_target.renamed" : Str)
  else .ok none

end

end ExtraCodeowners
