import ExtraCodeowners.Codeowners

/-!
# Policy compilation and path decisions

Organization guardrails and repository delegations combined into one compiled
policy, and what it decides for a path, an owner set and the labels.
-/

namespace ExtraCodeowners

def BUILTIN_NON_DELEGABLE_PATHS : List Str :=
  [("/CODEOWNERS" : Str), ("/.github/CODEOWNERS" : Str), ("/docs/CODEOWNERS" : Str),
    ("/stampbot.toml" : Str), ("/.github/workflows/**" : Str), ("/.github/actions/**" : Str)]

structure PolicyIssue where
  code : Str
  message : Str

structure DelegationDecision where
  app_alias : Str
  eligible : Bool
  reasons : List Str

/-- Whether a pattern compiles and its expression matches the path. -/
def patternMatches (path : RepositoryPath) (pattern : Str) : Bool :=
  match compilePattern pattern with
  | .ok regex => regex.fullmatch path.1
  | .error _ => false

def isAccepted (pattern : Str) : Bool := (validatePattern pattern).isOk

/-! ## Delegations -/

structure CompiledDelegation where
  rule : Delegation
  application : EnrolledApplication
  compiles : ∀ pattern ∈ rule.paths, isAccepted pattern = true

section
variable (delegation : CompiledDelegation) (path : RepositoryPath) (owners : List Str)
  (labels : Finset Str)

def CompiledDelegation.appliesToPathAndOwners : Bool :=
  delegation.rule.paths.any (patternMatches path) &&
    (delegation.rule.for_owners.contains ['*'] || owners.any (delegation.rule.for_owners.contains ·))

/-- The reasons for which the labels block a delegation that otherwise applies. -/
def labelReasons (rule : Delegation) (labels : Finset Str) : List Str :=
  let missing := rule.required_labels \ labels
  let forbidden := rule.forbidden_labels ∩ labels
  (if missing = ∅ then [] else
    [("missing required labels: " : Str) ++ join (", " : Str) (missing.sort (· ≤ ·))]) ++
  (if forbidden = ∅ then [] else
    [("forbidden labels present: " : Str) ++ join (", " : Str) (forbidden.sort (· ≤ ·))])

def CompiledDelegation.decide : Option DelegationDecision :=
  if delegation.appliesToPathAndOwners path owners then
    let reasons := labelReasons delegation.rule labels
    some ⟨delegation.rule.app, reasons.isEmpty, reasons⟩
  else none

end

/-! ## The compiled policy -/

structure CompiledPolicy where
  repository : RepositoryPolicy
  organization : OrganizationPolicy
  delegations : List CompiledDelegation
  non_delegable_patterns : List Str
  compiles : ∀ pattern ∈ non_delegable_patterns, isAccepted pattern = true

def CompiledPolicy.isNonDelegable (policy : CompiledPolicy) (path : RepositoryPath) : Bool :=
  policy.non_delegable_patterns.any (patternMatches path)

/-- One decision for an alias: eligible as soon as one of its delegations is. -/
def coalesce (app_alias : Str) (app_decisions : List DelegationDecision) : DelegationDecision :=
  if app_decisions.any (·.eligible) then ⟨app_alias, true, []⟩
  else ⟨app_alias, false, fromKeys (app_decisions.flatMap (·.reasons))⟩

def CompiledPolicy.delegationDecisions (policy : CompiledPolicy) (path : RepositoryPath)
    (owners : List Str) (labels : Finset Str) : List DelegationDecision :=
  let decisions := policy.delegations.filterMap (·.decide path owners labels)
  let by_app := Dict.collect (·.app_alias) decisions
  (sorted by_app.keys).map fun app_alias => coalesce app_alias ((by_app.get? app_alias).getD [])

section
variable [PyText]

def nonDelegableIssue (pattern : Str) : List PolicyIssue :=
  match validatePattern pattern with
  | .ok _ => []
  | .error error => [⟨("invalid_non_delegable_pattern" : Str),
      ("invalid non-delegable path " : Str) ++ PyText.repr pattern ++ (": " : Str) ++ error⟩]

def delegationPatternIssue (index : Nat) (pattern : Str) : List PolicyIssue :=
  match validatePattern pattern with
  | .ok _ => []
  | .error error => [⟨("invalid_delegation_pattern" : Str),
      ("delegation " : Str) ++ decimal index ++ (" has invalid path " : Str) ++ PyText.repr pattern ++
        (": " : Str) ++ error⟩]

theorem nonDelegableIssue_eq_nil {pattern : Str} :
    nonDelegableIssue pattern = [] ↔ isAccepted pattern = true := by
  unfold nonDelegableIssue isAccepted
  cases validatePattern pattern <;> simp [Except.isOk, Except.toBool]

theorem delegationPatternIssue_eq_nil {index : Nat} {pattern : Str} :
    delegationPatternIssue index pattern = [] ↔ isAccepted pattern = true := by
  unfold delegationPatternIssue isAccepted
  cases validatePattern pattern <;> simp [Except.isOk, Except.toBool]

/-- One round of the delegation loop: its issues and the delegation it compiles. -/
def compileDelegation (organization : OrganizationPolicy) (index : Nat) (delegation : Delegation) :
    List PolicyIssue × Option CompiledDelegation :=
  match organization.apps.get? delegation.app with
  | none => ([⟨("unenrolled_application" : Str),
      ("delegation " : Str) ++ decimal index ++ (" references application alias " : Str) ++
        PyText.repr delegation.app ++ (", which organization policy has not enrolled" : Str)⟩], none)
  | some application =>
    if h : ∀ pattern ∈ delegation.paths, isAccepted pattern = true then
      ([], some ⟨delegation, application, h⟩)
    else (delegation.paths.flatMap (delegationPatternIssue index), none)

/-- The patterns no delegation reaches: the built-in ones, the policy file
unless the repository opts in, and the guardrails of the organization. -/
def nonDelegablePatterns (organization : OrganizationPolicy) (repository : RepositoryPolicy)
    (options : EvaluationOptions) : List Str :=
  let builtins :=
    if options.allow_insecure_changes then []
    else if repository.allow_delegation_for_policy_file then BUILTIN_NON_DELEGABLE_PATHS
    else BUILTIN_NON_DELEGABLE_PATHS ++ ['/' :: options.repository_policy_path]
  builtins ++ organization.guardrails.non_delegable_paths

def compilePolicy (organization : OrganizationPolicy) (repository : RepositoryPolicy)
    (options : EvaluationOptions) : Except (List PolicyIssue) CompiledPolicy :=
  let patterns := nonDelegablePatterns organization repository options
  let pattern_issues := patterns.flatMap nonDelegableIssue
  let compiled := (repository.delegations.zipIdx 1).map fun d => compileDelegation organization d.2 d.1
  if h : pattern_issues ++ compiled.flatMap (·.1) = [] then
    .ok
      { repository := repository
        organization := organization
        delegations := compiled.filterMap (·.2)
        non_delegable_patterns := patterns
        compiles := by
          intro pattern hp
          have h₁ := List.flatMap_eq_nil_iff.mp (List.append_eq_nil_iff.mp h).1
          exact nonDelegableIssue_eq_nil.mp (h₁ pattern hp) }
  else .error (pattern_issues ++ compiled.flatMap (·.1))

/-! ## What compilation establishes -/

theorem compileDelegation_issues {organization : OrganizationPolicy} {index : Nat}
    {delegation : Delegation} (h : (compileDelegation organization index delegation).1 = []) :
    ∃ application ok, organization.apps.get? delegation.app = some application ∧
      (compileDelegation organization index delegation).2 = some ⟨delegation, application, ok⟩ := by
  unfold compileDelegation at h ⊢
  cases hg : organization.apps.get? delegation.app with
  | none => rw [hg] at h; cases h
  | some application =>
    rw [hg] at h
    by_cases ho : ∀ pattern ∈ delegation.paths, isAccepted pattern = true
    · exact ⟨application, ho, rfl, by simp only [dif_pos ho]⟩
    · simp only [dif_neg ho, List.flatMap_eq_nil_iff] at h
      exact absurd (fun p hp => delegationPatternIssue_eq_nil.mp (h p hp)) ho

/-- A compiled policy holds one compiled delegation for each delegation of the
repository, under its enrolled application, and the effective patterns. -/
theorem compilePolicy_ok {organization : OrganizationPolicy} {repository : RepositoryPolicy}
    {options : EvaluationOptions} {policy : CompiledPolicy}
    (h : compilePolicy organization repository options = .ok policy) :
    policy.non_delegable_patterns = nonDelegablePatterns organization repository options ∧
      policy.delegations.map (·.rule) = repository.delegations ∧
      ∀ d ∈ policy.delegations, organization.apps.get? d.rule.app = some d.application := by
  unfold compilePolicy at h
  simp only at h
  split at h
  · rename_i hi
    cases h
    have h₂ := List.flatMap_eq_nil_iff.mp (List.append_eq_nil_iff.mp hi).2
    have each : ∀ d ∈ repository.delegations.zipIdx 1, ∃ application ok,
        organization.apps.get? d.1.app = some application ∧
          (compileDelegation organization d.2 d.1).2 = some ⟨d.1, application, ok⟩ :=
      fun d hd => compileDelegation_issues (h₂ _ (List.mem_map_of_mem hd))
    refine ⟨rfl, ?_, ?_⟩
    · simp only [List.filterMap_map]
      have key : ∀ l : List (Delegation × Nat), (∀ d ∈ l, d ∈ repository.delegations.zipIdx 1) →
          (l.filterMap ((fun c => c.2) ∘ fun d => compileDelegation organization d.2 d.1)).map (·.rule) =
            l.map Prod.fst := by
        intro l
        induction l with
        | nil => intro _; rfl
        | cons d l ih =>
          intro hl
          obtain ⟨application, ok, -, hd⟩ := each d (hl d (by simp))
          rw [List.filterMap_cons_some (by simpa using hd), List.map_cons, List.map_cons,
            ih fun d hd => hl d (by simp [hd])]
      rw [key _ fun _ h => h, List.zipIdx_map_fst]
    · intro d hd
      obtain ⟨c, hc, hcd⟩ := List.mem_filterMap.mp hd
      obtain ⟨x, hx, rfl⟩ := List.mem_map.mp hc
      obtain ⟨application, ok, hg, he⟩ := each x hx
      rw [he] at hcd
      cases hcd
      exact hg
  · cases h

theorem compilePolicy_exists {organization : OrganizationPolicy} {repository : RepositoryPolicy}
    {options : EvaluationOptions}
    (hpatterns : ∀ pattern ∈ nonDelegablePatterns organization repository options,
      isAccepted pattern = true)
    (happs : ∀ d ∈ repository.delegations, ∃ application,
      organization.apps.get? d.app = some application)
    (hpaths : ∀ d ∈ repository.delegations, ∀ pattern ∈ d.paths, isAccepted pattern = true) :
    ∃ policy, compilePolicy organization repository options = .ok policy := by
  have h₁ : (nonDelegablePatterns organization repository options).flatMap nonDelegableIssue = [] :=
    List.flatMap_eq_nil_iff.mpr fun p hp => nonDelegableIssue_eq_nil.mpr (hpatterns p hp)
  have h₂ : ((repository.delegations.zipIdx 1).map fun d =>
      compileDelegation organization d.2 d.1).flatMap (·.1) = [] := by
    refine List.flatMap_eq_nil_iff.mpr fun c hc => ?_
    obtain ⟨⟨d, index⟩, hd, rfl⟩ := List.mem_map.mp hc
    have hd : d ∈ repository.delegations := List.fst_mem_of_mem_zipIdx hd
    obtain ⟨application, hg⟩ := happs d hd
    unfold compileDelegation
    simp only [hg, dif_pos (hpaths d hd)]
  unfold compilePolicy
  simp only
  rw [dif_pos (by rw [h₁, h₂]; rfl)]
  exact ⟨_, rfl⟩

end

theorem mem_delegations {policy : CompiledPolicy} {repository : RepositoryPolicy}
    (h : policy.delegations.map (·.rule) = repository.delegations) {rule : Delegation} :
    rule ∈ repository.delegations ↔ ∃ d ∈ policy.delegations, d.rule = rule := by
  rw [← h, List.mem_map]

/-! ## What a compiled policy decides -/

theorem labelReasons_eq_nil {rule : Delegation} {labels : Finset Str} :
    labelReasons rule labels = [] ↔
      rule.required_labels ⊆ labels ∧ Disjoint rule.forbidden_labels labels := by
  unfold labelReasons
  simp only [List.append_eq_nil_iff, ite_eq_left_iff, Finset.disjoint_iff_inter_eq_empty]
  rw [← Finset.sdiff_eq_empty_iff_subset]
  by_cases h₁ : rule.required_labels \ labels = ∅ <;>
    by_cases h₂ : rule.forbidden_labels ∩ labels = ∅ <;> simp [h₁, h₂]

/-- A delegation covers a path, an owner set and the labels. -/
structure Covers (rule : Delegation) (path : RepositoryPath) (owners : List Str)
    (labels : Finset Str) : Prop where
  paths : ∃ pattern ∈ rule.paths, patternMatches path pattern = true
  owners : ['*'] ∈ rule.for_owners ∨ ∃ owner ∈ owners, owner ∈ rule.for_owners
  required : rule.required_labels ⊆ labels
  forbidden : Disjoint rule.forbidden_labels labels

theorem appliesToPathAndOwners_iff {d : CompiledDelegation} {path : RepositoryPath}
    {owners : List Str} :
    d.appliesToPathAndOwners path owners = true ↔
      (∃ pattern ∈ d.rule.paths, patternMatches path pattern = true) ∧
        (['*'] ∈ d.rule.for_owners ∨ ∃ owner ∈ owners, owner ∈ d.rule.for_owners) := by
  simp [CompiledDelegation.appliesToPathAndOwners, List.any_eq_true]

theorem decide_eligible {d : CompiledDelegation} {path : RepositoryPath} {owners : List Str}
    {labels : Finset Str} :
    (∃ decision, d.decide path owners labels = some decision ∧ decision.eligible = true) ↔
      Covers d.rule path owners labels := by
  unfold CompiledDelegation.decide
  constructor
  · rintro ⟨decision, hd, he⟩
    split at hd
    · rename_i ha
      cases hd
      obtain ⟨hp, ho⟩ := appliesToPathAndOwners_iff.mp ha
      obtain ⟨hr, hf⟩ := labelReasons_eq_nil.mp (List.isEmpty_iff.mp he)
      exact ⟨hp, ho, hr, hf⟩
    · cases hd
  · rintro ⟨hp, ho, hr, hf⟩
    rw [if_pos (appliesToPathAndOwners_iff.mpr ⟨hp, ho⟩)]
    exact ⟨_, rfl, List.isEmpty_iff.mpr (labelReasons_eq_nil.mpr ⟨hr, hf⟩)⟩

theorem decide_alias {d : CompiledDelegation} {path : RepositoryPath} {owners : List Str}
    {labels : Finset Str} {decision : DelegationDecision}
    (h : d.decide path owners labels = some decision) : decision.app_alias = d.rule.app := by
  unfold CompiledDelegation.decide at h
  split at h
  · cases h; rfl
  · cases h

/-- Coalescing makes an alias eligible exactly when one of its delegations is. -/
theorem delegationDecisions_eligible {policy : CompiledPolicy} {path : RepositoryPath}
    {owners : List Str} {labels : Finset Str} {app_alias : Str} :
    (∃ decision ∈ policy.delegationDecisions path owners labels,
        decision.eligible = true ∧ decision.app_alias = app_alias) ↔
      ∃ d ∈ policy.delegations, d.rule.app = app_alias ∧ Covers d.rule path owners labels := by
  unfold CompiledPolicy.delegationDecisions
  simp only [List.mem_map, mem_sorted, exists_exists_and_eq_and]
  constructor
  · rintro ⟨key, hkey, he, ha⟩
    obtain ⟨bs, hbs⟩ := Dict.mem_keys.mp hkey
    rw [hbs, Option.getD_some] at he ha
    unfold coalesce at he ha
    split at he
    · rename_i hany
      simp only [hany, if_true] at ha
      subst ha
      obtain ⟨decision, hm, hel⟩ := List.any_eq_true.mp hany
      obtain ⟨rfl, -⟩ := (Dict.get?_collect _ _ _ _).mp hbs
      obtain ⟨hm, hk⟩ := List.mem_filter.mp hm
      obtain ⟨d, hd, hdec⟩ := List.mem_filterMap.mp hm
      exact ⟨d, hd, (decide_alias hdec).symm.trans (by simpa using hk), decide_eligible.mp ⟨_, hdec, hel⟩⟩
    · cases he
  · rintro ⟨d, hd, rfl, hc⟩
    obtain ⟨decision, hdec, hel⟩ := decide_eligible.mpr hc
    have hm : decision ∈ (policy.delegations.filterMap (·.decide path owners labels)).filter
        (·.app_alias = d.rule.app) :=
      List.mem_filter.mpr ⟨List.mem_filterMap.mpr ⟨d, hd, hdec⟩, by simp [decide_alias hdec]⟩
    have hbs := (Dict.get?_collect (·.app_alias) (policy.delegations.filterMap
      (·.decide path owners labels)) d.rule.app _).mpr ⟨rfl, List.ne_nil_of_mem hm⟩
    refine ⟨d.rule.app, Dict.mem_keys.mpr ⟨_, hbs⟩, ?_⟩
    rw [hbs, Option.getD_some]
    have hany := List.any_eq_true.mpr ⟨decision, hm, hel⟩
    unfold coalesce
    rw [if_pos hany]
    exact ⟨rfl, rfl⟩

end ExtraCodeowners
