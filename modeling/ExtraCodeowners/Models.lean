import ExtraCodeowners.Lib.Dict
import ExtraCodeowners.Lib.Regex
import ExtraCodeowners.Text
import Mathlib.Algebra.Ring.Nat

/-!
# Models of the policy engine

The validated records the evaluator consumes and the result it returns. What a
validator establishes and the evaluator relies on is a field of the record.
-/

namespace ExtraCodeowners

/-! ## Normalization -/

/-- `[a-z]` under `re.IGNORECASE`: besides the ASCII letters, the four code
points that fold to one of them. -/
def isIgnoreCaseLetter (c : Char) : Bool :=
  ('a' ≤ c && c ≤ 'z') || ('A' ≤ c && c ≤ 'Z') || c == 'İ' || c == 'ı' || c == 'ſ' ||
    c == '\u212a'

def isOwnerHead (c : Char) : Bool := isIgnoreCaseLetter c || c.isDigit

def isOwnerTail (c : Char) : Bool := isOwnerHead c || c == '_' || c == '.' || c == '-'

/-- `^@[a-z0-9][a-z0-9_.-]*(?:/[a-z0-9][a-z0-9_.-]*)?$` -/
def ownerRe : Regex Char :=
  let component := [.sat isOwnerHead, .star (.sat isOwnerTail)]
  .seq ([.sat (· == '@')] ++ component ++ [.opt (.seq (.sat (· == '/') :: component))])

section
variable [PyText]

def normalizeOwner (value : Str) : Except Str Str :=
  let owner := PyText.lower (strip value)
  if '@' ∈ owner ∧ !startsWith '@' owner then
    .error (("email CODEOWNER " : Str) ++ PyText.repr value ++
      (" is unsupported; use an @user or @org/team" : Str))
  else if !ownerRe.fullmatch owner then
    .error (("invalid CODEOWNER identity " : Str) ++ PyText.repr value ++
      ("; expected @user or @org/team" : Str))
  else .ok owner

end

def normalizeRepositoryPath (path : Str) : Except Str Str :=
  if path = [] then .error ("repository path must not be empty" : Str)
  else if path ≠ strip path then
    .error ("repository paths with leading or trailing whitespace are unsupported" : Str)
  else if startsWith '/' path ∨ '\\' ∈ path then
    .error ("repository paths must be relative POSIX paths" : Str)
  else if (path.splitOn '/').any (fun part => part = [] ∨ part = ['.'] ∨ part = ['.', '.']) then
    .error ("repository paths must not contain empty, '.' or '..' segments" : Str)
  else .ok path

def normalizePattern (value : Str) : Except Str Str :=
  let pattern := strip value
  if pattern = [] then .error ("path pattern must not be empty" : Str)
  else if '\\' ∈ pattern then .error ("path patterns must use POSIX '/' separators" : Str)
  else .ok pattern

/-- A path the normalizer accepts; it is returned unchanged. -/
def RepositoryPath := {path : Str // normalizeRepositoryPath path = .ok path}

instance : DecidableEq RepositoryPath := inferInstanceAs (DecidableEq (Subtype _))

theorem normalizeRepositoryPath_ok {value path : Str} (h : normalizeRepositoryPath value = .ok path) :
    path = value ∧ value ≠ [] ∧ strip value = value ∧ startsWith '/' value = false ∧
      '\\' ∉ value ∧ ∀ part ∈ value.splitOn '/', part ≠ [] ∧ part ≠ ['.'] ∧ part ≠ ['.', '.'] := by
  unfold normalizeRepositoryPath at h
  split at h
  · cases h
  · rename_i h₁
    split at h
    · cases h
    · rename_i h₂
      split at h
      · cases h
      · rename_i h₃
        split at h
        · cases h
        · rename_i h₄
          cases h
          simp only [not_or, Bool.not_eq_true] at h₃
          simp only [List.any_eq_true, decide_eq_true_eq, not_exists, not_and, not_or] at h₄
          exact ⟨rfl, h₁, (not_not.mp h₂).symm, h₃.1, h₃.2, h₄⟩

theorem normalizeRepositoryPath_eq_ok {value : Str} :
    normalizeRepositoryPath value = .ok value ↔
      value ≠ [] ∧ strip value = value ∧ startsWith '/' value = false ∧ '\\' ∉ value ∧
        ∀ part ∈ value.splitOn '/', part ≠ [] ∧ part ≠ ['.'] ∧ part ≠ ['.', '.'] := by
  constructor
  · intro h; exact (normalizeRepositoryPath_ok h).2
  · rintro ⟨h₁, h₂, h₃, h₄, h₅⟩
    unfold normalizeRepositoryPath
    have h₅' : ¬ (value.splitOn '/').any
        (fun part => part = [] ∨ part = ['.'] ∨ part = ['.', '.']) = true := by
      simpa [List.any_eq_true] using h₅
    rw [if_neg h₁, if_neg (by simp [h₂]), if_neg (by simp [h₃, h₄]), if_neg h₅']

/-! ## Organization policy -/

structure EnrolledApplication where
  slug : Str
  app_id : Nat
  bot_user_id : Nat
  deriving DecidableEq

structure Guardrails where
  non_delegable_paths : List Str
  at_most : non_delegable_paths.length ≤ 100
  validate_non_delegable_paths : ∀ p ∈ non_delegable_paths, normalizePattern p = .ok p

structure OrganizationPolicy where
  apps : Dict Str EnrolledApplication
  guardrails : Guardrails
  at_most : apps.keys.length ≤ 50
  identities_are_unique : ∀ a b x y, apps.get? a = some x → apps.get? b = some y →
    x.app_id = y.app_id ∨ x.bot_user_id = y.bot_user_id ∨ x.slug = y.slug → a = b

/-! ## Repository policy -/

structure Delegation where
  app : Str
  paths : List Str
  for_owners : List Str
  required_labels : Finset Str
  forbidden_labels : Finset Str
  validate_paths : paths ≠ [] ∧ paths.length ≤ 100 ∧ ∀ p ∈ paths, normalizePattern p = .ok p
  validate_for_owners : for_owners ≠ [] ∧ for_owners.length ≤ 100 ∧ for_owners.Nodup ∧
    (['*'] ∈ for_owners → for_owners.length = 1)
  at_most : required_labels.card ≤ 50 ∧ forbidden_labels.card ≤ 50
  label_sets_do_not_overlap : Disjoint required_labels forbidden_labels

structure RepositoryPolicy where
  enabled : Bool
  allow_author_as_codeowner : Bool
  allow_delegation_for_policy_file : Bool
  delegations : List Delegation
  at_most : delegations.length ≤ 100
  delegation_complexity_is_bounded : (delegations.map fun d => d.paths.length).sum ≤ 1000

/-! ## Evidence -/

inductive ChangedFileStatus where
  | ADDED | MODIFIED | REMOVED | RENAMED | COPIED | CHANGED | UNCHANGED
  deriving DecidableEq

structure ChangedFile where
  path : RepositoryPath
  status : ChangedFileStatus
  previous_path : Option RepositoryPath
  rename_has_previous_path : (status = .RENAMED ↔ previous_path.isSome) ∧
    previous_path ≠ some path

inductive ActorKind where
  | HUMAN | APPLICATION
  deriving DecidableEq

structure ReviewActor where
  kind : ActorKind
  login : Str
  user_id : Nat
  app_id : Option Nat
  app_slug : Option Str
  owner_aliases : Finset Str
  direct_owner_eligible : Bool
  validate_kind_fields : match kind with
    | .APPLICATION => app_id.isSome ∧ app_slug.isSome ∧ owner_aliases = ∅
    | .HUMAN => app_id = none ∧ app_slug = none

structure PullRequestAuthor where
  login : Str
  user_id : Nat
  owner_aliases : Finset Str
  direct_owner_eligible : Bool

inductive ReviewState where
  | APPROVED | CHANGES_REQUESTED | COMMENTED | DISMISSED | PENDING
  deriving DecidableEq

/-- `submitted_at` is the instant in microseconds. -/
structure PullRequestReview where
  review_id : Nat
  actor : ReviewActor
  state : ReviewState
  commit_sha : Option Str
  submitted_at : Int

structure EvaluationOptions where
  exact_head_reviews : Bool
  allow_insecure_changes : Bool
  repository_policy_path : Str
  validate_repository_policy_path : repository_policy_path ≠ [] ∧
    strip repository_policy_path = repository_policy_path ∧
    startsWith '/' repository_policy_path = false ∧ '\\' ∉ repository_policy_path ∧
    (∀ part ∈ repository_policy_path.splitOn '/', part ≠ [] ∧ part ≠ ['.'] ∧ part ≠ ['.', '.']) ∧
    ∀ c ∈ repository_policy_path, c ∉ ['*', '?', '[', ']', '!']

structure EvaluationInput where
  head_sha : Str
  codeowners_text : Str
  changed_files : List ChangedFile
  reviews : List PullRequestReview
  author : Option PullRequestAuthor
  labels : Finset Str
  organization_policy : OrganizationPolicy
  repository_policy : RepositoryPolicy
  options : EvaluationOptions

/-! ## Result -/

inductive EvaluationConclusion where
  | SUCCESS | FAILURE
  deriving DecidableEq

structure EvaluationMessage where
  code : Str
  message : Str

/-- The evaluator reports paths it has normalized; a result as such may name any text. -/
structure PathEvidence (Path : Type := RepositoryPath) where
  path : Path
  non_delegable : Bool
  eligible_apps : List Str
  approved_apps : List Str
  explanation : Str

structure OwnerSetResult (Path : Type := RepositoryPath) where
  owners : List Str
  paths : List Path
  satisfied : Bool
  satisfied_by : List Str
  explanation : Str
  path_evidence : List (PathEvidence Path)

structure EvaluationResult (Path : Type := RepositoryPath) where
  conclusion : EvaluationConclusion
  summary : Str
  requirements : List (OwnerSetResult Path)
  errors : List EvaluationMessage
  warnings : List EvaluationMessage
  unowned_paths : List Path

end ExtraCodeowners
