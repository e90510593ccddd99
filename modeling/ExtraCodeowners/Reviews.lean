import ExtraCodeowners.Lib.Json
import ExtraCodeowners.Evaluator

/-!
# Reviews from the provider

`_reviews` reads the raw reviews, keeps the latest of each actor, and resolves
the identities only of those that approve the current head. What GitHub answers
about a user, a team or a bot is a parameter.
-/

namespace ExtraCodeowners

inductive ReviewError where
  | GitHubError (message : Str) (value : Option Json)
  | EvidenceLimitError (message : Str)
  | ValidationError (message : Str)
  | TypeError

/-- A parsed time; one without an offset compares with no other kind. -/
structure Moment where
  instant : Int
  aware : Bool

inductive ActorType where
  | Bot | User
  deriving DecidableEq

structure RawReview where
  state : ReviewState
  actor_type : ActorType
  user_id : Int
  login : Str
  review_id : Int
  submitted : Moment
  commit_id : Json

def RawReview.key (review : RawReview) : ActorType × Int := (review.actor_type, review.user_id)

def ActorType.kind : ActorType → ActorKind
  | .Bot => .APPLICATION
  | .User => .HUMAN

/-- What the provider answers within one evaluation. -/
structure Provider where
  fromisoformat : Str → Option Moment
  user_can_own_repository : Str → Bool
  team_member : Str → Str → Bool
  team_can_own_repository : Str → Bool
  get_user : Str → JsonObject

/-! ## Reading -/

def readState (value : Json) : Except ReviewError ReviewState :=
  if !value.hashable then .error .TypeError
  else if value.isString "APPROVED" then .ok .APPROVED
  else if value.isString "CHANGES_REQUESTED" then .ok .CHANGES_REQUESTED
  else if value.isString "COMMENTED" then .ok .COMMENTED
  else if value.isString "DISMISSED" then .ok .DISMISSED
  else if value.isString "PENDING" then .ok .PENDING
  else .error (.GitHubError ("GitHub returned unknown review state " : Str) (some value))

def readActorType (value : Json) : Except ReviewError ActorType :=
  if !value.hashable then .error .TypeError
  else if value.isString "Bot" then .ok .Bot
  else if value.isString "User" then .ok .User
  else .error (.GitHubError ("opinionated review has unsupported actor type " : Str) (some value))

/-- `submitted_at.replace("Z", "+00:00")` -/
def replaceZ (submitted_at : Str) : Str :=
  submitted_at.flatMap fun c => if c = 'Z' then ("+00:00" : Str) else [c]

/-- Comments and pending reviews are left out. -/
def readReview (provider : Provider) (value : JsonObject) : Except ReviewError (Option RawReview) := do
  let state ← readState (Json.get value "state")
  if !isOpinionated state then return none
  match Json.get value "user" with
  | .object user =>
    match Json.get user "id", Json.get user "login", Json.get value "id",
        Json.get value "submitted_at" with
    | .int user_id, .string login, .int review_id, .string submitted_at => do
      let actor_type ← readActorType (Json.get user "type")
      match provider.fromisoformat (replaceZ submitted_at) with
      | none => .error (.GitHubError ("opinionated review has an invalid submission time" : Str) none)
      | some submitted =>
        return some ⟨state, actor_type, user_id, login, review_id, submitted, Json.get value "commit_id"⟩
    | _, _, _, _ => .error (.GitHubError
        ("opinionated review omitted actor, ID, or submission time" : Str) none)
  | _ => .error (.GitHubError ("opinionated review omitted its user" : Str) none)

/-- `(a.submitted, a.review_id) > (b.submitted, b.review_id)` -/
def RawReview.isLater (a b : RawReview) : Except ReviewError Bool :=
  if a.submitted.aware ≠ b.submitted.aware then .error .TypeError
  else .ok (b.submitted.instant < a.submitted.instant ||
    (b.submitted.instant == a.submitted.instant && b.review_id < a.review_id))

abbrev LatestReviews := Dict (ActorType × Int) RawReview

def readLatest (provider : Provider) (latest : LatestReviews) (value : JsonObject) :
    Except ReviewError LatestReviews := do
  match ← readReview provider value with
  | none => return latest
  | some review =>
    match latest.get? review.key with
    | none => return latest.set review.key review
    | some previous =>
      if ← review.isLater previous then return latest.set review.key review else return latest

/-! ## Identities -/

/-- `^[a-z0-9](?:[a-z0-9-]*[a-z0-9])?$` -/
def appSlugRe : Regex Char :=
  let alnum := Regex.sat fun c : Char => ('a' ≤ c && c ≤ 'z') || c.isDigit
  .seq [alnum, .opt (.seq [.star (.sat fun c : Char => ('a' ≤ c && c ≤ 'z') || c.isDigit || c == '-'), alnum])]

def MAX_TEAM_MEMBERSHIP_LOOKUPS : Nat := 250

section
variable [PyText]

def ReviewActor.human (login : Str) (user_id : Int) (owner_aliases : List Str)
    (direct_owner_eligible : Bool) : Except ReviewError ReviewActor := do
  let login := PyText.lower (strip login)
  if login = [] then .error (.ValidationError ("review actor login must not be empty" : Str))
  else if user_id ≤ 0 then .error (.ValidationError ("Input should be greater than 0" : Str))
  else
    let aliases ← (owner_aliases.mapM normalizeOwner).mapError .ValidationError
    return {
      kind := .HUMAN
      login := login
      user_id := user_id.toNat
      app_id := none
      app_slug := none
      owner_aliases := aliases.toFinset
      direct_owner_eligible := direct_owner_eligible
      validate_kind_fields := ⟨rfl, rfl⟩ }

def ReviewActor.application (login : Str) (user_id : Int) (app_id : Nat) (app_slug : Str) :
    Except ReviewError ReviewActor :=
  let login := PyText.lower (strip login)
  let slug := PyText.lower (strip app_slug)
  if login = [] then .error (.ValidationError ("review actor login must not be empty" : Str))
  else if user_id ≤ 0 then .error (.ValidationError ("Input should be greater than 0" : Str))
  else if !appSlugRe.fullmatch slug then
    .error (.ValidationError ("invalid GitHub App slug on review actor" : Str))
  else .ok {
    kind := .APPLICATION
    login := login
    user_id := user_id.toNat
    app_id := some app_id
    app_slug := some slug
    owner_aliases := ∅
    direct_owner_eligible := true
    validate_kind_fields := ⟨rfl, rfl, rfl⟩ }

def commitSha : Json → Except ReviewError (Option Str)
  | .null => .ok none
  | .string value =>
    let sha := PyText.lower (strip value)
    if sha = [] then .error (.ValidationError ("review commit_sha must not be blank" : Str))
    else .ok (some sha)
  | _ => .error (.ValidationError ("Input should be a valid string" : Str))

def PullRequestReview.new (review_id : Int) (actor : ReviewActor) (state : ReviewState)
    (commit_sha : Json) (submitted_at : Moment) : Except ReviewError PullRequestReview :=
  if review_id ≤ 0 then .error (.ValidationError ("Input should be greater than 0" : Str))
  else do
    let sha ← commitSha commit_sha
    if !submitted_at.aware then
      .error (.ValidationError ("submitted_at must include a timezone" : Str))
    else return ⟨review_id.toNat, actor, state, sha, submitted_at.instant⟩

variable (provider : Provider) (organization : OrganizationPolicy) (document : CodeownersDocument)
  (repository_owner : Str)

/-- `owner.split("/", 1)` of a team. -/
def teamParts (owner : Str) : Str × Str :=
  (owner.takeWhile (· ≠ '/'), (owner.dropWhile (· ≠ '/')).drop 1)

def teamOwners : List Str :=
  fromKeys ((document.rules.flatMap (·.owners)).filter fun owner =>
    '/' ∈ owner ∧ PyText.lower (removePrefix '@' (teamParts owner).1) = PyText.lower repository_owner)

def humanTeamAliases (login : Str) : List Str :=
  (sorted (teamOwners document repository_owner)).filter fun owner =>
    provider.team_member (teamParts owner).2 login &&
      provider.team_can_own_repository (teamParts owner).2

/-- The metadata GitHub shows for the bot of an application confirms it. -/
def confirmsBot (app : EnrolledApplication) : Bool :=
  let expected_login := app.slug ++ ("[bot]" : Str)
  let metadata := provider.get_user expected_login
  (Json.get metadata "id").equalsNumber app.bot_user_id &&
    (match Json.get metadata "login" with
      | .string observed_login => PyText.lower observed_login = expected_login
      | _ => false) &&
    (Json.get metadata "type").isString "Bot"

def validatedApps (bot_user_ids : List Int) : Dict Int EnrolledApplication :=
  organization.apps.entries.foldl
    (fun validated e =>
      if (e.2.bot_user_id : Int) ∈ bot_user_ids ∧ confirmsBot provider e.2 = true then
        validated.set e.2.bot_user_id e.2
      else validated) ∅

/-- The actor of a review; a bot that no validated application stands for has
none. -/
def resolveActor (validated_apps : Dict Int EnrolledApplication) (review : RawReview) :
    Except ReviewError (Option ReviewActor) :=
  match review.actor_type with
  | .Bot =>
    match validated_apps.get? review.user_id with
    | none => .ok none
    | some app =>
      if PyText.lower review.login ≠ app.slug ++ ("[bot]" : Str) then .ok none
      else (ReviewActor.application review.login review.user_id app.app_id app.slug).map some
  | .User =>
    (ReviewActor.human review.login review.user_id
      (humanTeamAliases provider document repository_owner review.login)
      (provider.user_can_own_repository review.login)).map some

/-! ## The filter -/

def botIds (reviews : List RawReview) : List Int :=
  (reviews.filter fun review => review.actor_type = .Bot).map (·.user_id)

def isCurrent (head_sha : Str) (review : RawReview) : Bool :=
  review.state = .APPROVED && review.commit_id.isText head_sha

def keepReview (validated_apps : Dict Int EnrolledApplication) (head_sha : Str) (review : RawReview) :
    Except ReviewError (Option PullRequestReview) := do
  match ← resolveActor provider document repository_owner validated_apps review with
  | none => return none
  | some actor =>
    let review ← PullRequestReview.new review.review_id actor .APPROVED (.string head_sha)
      review.submitted
    return some review

def EVIDENCE_LIMIT : Str :=
  ("current human evidence and CODEOWNERS teams exceed the membership lookup budget" : Str)

/-- `EvaluationService._reviews` -/
def keptReviews (repository : Str) (values : List JsonObject) (head_sha : Str)
    (additional_human_identity_count : Nat) : Except ReviewError (List PullRequestReview) := do
  let repository_owner := (teamParts repository).1
  let latest ← values.foldlM (readLatest provider) ∅
  let current := latest.values.filter (isCurrent head_sha)
  let human_approvals := current.countP fun review => review.actor_type = .User
  if MAX_TEAM_MEMBERSHIP_LOOKUPS < (human_approvals + additional_human_identity_count) *
      (teamOwners document repository_owner).length then
    .error (.EvidenceLimitError EVIDENCE_LIMIT)
  else
    let validated_apps := validatedApps provider organization (botIds current)
    let reviews ← current.mapM (keepReview provider document repository_owner validated_apps head_sha)
    return reviews.reduceOption

end

end ExtraCodeowners
