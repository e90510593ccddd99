import ExtraCodeowners.Accounting
import Mathlib.Data.Finset.Dedup

/-!
# Comparing two evaluations

Evidence that is at most some other evidence satisfies no requirement that the
other leaves open. Two orders of the same evidence are at most each other, and
a tighter policy is at most the one it tightens.
-/

namespace ExtraCodeowners

/-! ## Latest reviews of two lists -/

/-- No two reviews of one actor share their time and identifier. -/
def DistinctPerActor (reviews : List PullRequestReview) : Prop :=
  reviews.Pairwise fun a b => actorKey a = actorKey b → ordering a ≠ ordering b

theorem DistinctPerActor.eq {reviews : List PullRequestReview} (h : DistinctPerActor reviews)
    {a b : PullRequestReview} (ha : a ∈ reviews) (hb : b ∈ reviews) (hkey : actorKey a = actorKey b)
    (ho : ordering a = ordering b) : a = b := by
  by_contra hne
  have hsymm : Std.Symm fun a b : PullRequestReview => actorKey a = actorKey b → ordering a ≠ ordering b :=
    ⟨fun _ _ h hk ho => h hk.symm ho.symm⟩
  exact h.forall ha hb hne hkey ho

/-- A review that cannot be the latest opinionated one of its actor. -/
def Superseded (reviews : List PullRequestReview) (review : PullRequestReview) : Prop :=
  isOpinionated review.state = false ∨ ∃ later ∈ reviews, isOpinionated later.state = true ∧
    actorKey later = actorKey review ∧ ordering review < ordering later

theorem mem_latest_append {reviews reviews' extra : List PullRequestReview}
    (hd : DistinctPerActor reviews) (hp : reviews'.Perm (reviews ++ extra))
    (he : ∀ review ∈ extra, Superseded reviews review) {review : PullRequestReview} :
    review ∈ latestOpinionatedReviews reviews' ↔ review ∈ latestOpinionatedReviews reviews := by
  have hmem : ∀ r, r ∈ reviews' ↔ r ∈ reviews ∨ r ∈ extra := by
    intro r
    rw [hp.mem_iff, List.mem_append]
  constructor
  · intro h
    obtain ⟨hm, hs, hle⟩ := latest_of_mem h
    have hold : review ∈ reviews := by
      rcases (hmem review).mp hm with hm | hm
      · exact hm
      · rcases he review hm with hs' | ⟨later, hl, hls, hkey, hlt⟩
        · rw [hs] at hs'
          cases hs'
        · exact absurd hlt (not_lt.mpr (hle later ((hmem later).mpr (Or.inl hl)) hls hkey))
    refine mem_latest_of_follows hold hs fun other ho hos hkey => ?_
    rcases (hle other ((hmem other).mpr (Or.inl ho)) hos hkey).lt_or_eq with hlt | heq
    · exact Or.inr hlt
    · exact Or.inl (hd.eq ho hold hkey heq)
  · intro h
    obtain ⟨hm, hs, hle⟩ := latest_of_mem h
    refine mem_latest_of_follows ((hmem review).mpr (Or.inl hm)) hs fun other ho hos hkey => ?_
    rcases (hmem other).mp ho with ho | ho
    · rcases (hle other ho hos hkey).lt_or_eq with hlt | heq
      · exact Or.inr hlt
      · exact Or.inl (hd.eq ho hm hkey heq)
    · rcases he other ho with hos' | ⟨later, hl, hls, hkey', hlt⟩
      · rw [hos] at hos'
        cases hos'
      · exact Or.inr (lt_of_lt_of_le hlt (hle later hl hls (hkey'.trans hkey)))

/-- Without the reviews of some actors, the latest ones of the others remain. -/
theorem mem_latest_filter {reviews : List PullRequestReview} (kept : ActorKind × Nat → Bool)
    {review : PullRequestReview} :
    review ∈ latestOpinionatedReviews (reviews.filter fun r => kept (actorKey r)) ↔
      review ∈ latestOpinionatedReviews reviews ∧ kept (actorKey review) = true := by
  have hgroup : ∀ k, kept k = true →
      ((reviews.filter fun r => kept (actorKey r)).filter (isOpinionated ·.state)).filter (actorKey · = k) =
        (reviews.filter (isOpinionated ·.state)).filter (actorKey · = k) := by
    intro k hk
    simp only [List.filter_filter]
    refine List.filter_congr fun r _ => ?_
    by_cases hr : actorKey r = k
    · simp [hr, hk]
    · simp [hr]
  have hkey : ∀ (l : List PullRequestReview) k, (l.filter (actorKey · = k)).foldl
      (fun o r => some (keepLatest o r)) none = some review → actorKey review = k := by
    intro l k h
    obtain ⟨hm, -⟩ := foldl_keepLatest _ _ _ h
    simpa using (List.mem_filter.mp (hm.resolve_left (by simp))).2
  unfold latestOpinionatedReviews
  simp only [(List.perm_insertionSort _ _).mem_iff, Dict.mem_values, Dict.get?_group]
  constructor
  · rintro ⟨k, hk⟩
    have hk' := hkey _ k hk
    obtain ⟨hm, -⟩ := foldl_keepLatest _ _ _ hk
    have hkept : kept (actorKey review) = true := by
      have hm := (List.mem_filter.mp (hm.resolve_left (by simp))).1
      simpa using (List.mem_filter.mp (List.mem_filter.mp hm).1).2
    rw [hgroup k (hk' ▸ hkept)] at hk
    exact ⟨⟨k, hk⟩, hkept⟩
  · rintro ⟨⟨k, hk⟩, hkept⟩
    refine ⟨k, ?_⟩
    rw [hgroup k (hkey _ k hk ▸ hkept)]
    exact hk

/-! ## Comparing evidence -/

section
variable [PyText]

/-- Whatever stands for an owner set in the one stands for it in the other. -/
structure Evidence.AtMost (e' e : Evidence) : Prop where
  humans : ∀ a ∈ e'.human_approvals, a ∈ e.human_approvals
  author : ∀ author, e'.author = some author → e.author = some author
  apps : ∀ app_alias ∈ e'.approved_apps, app_alias ∈ e.approved_apps
  delegable : ∀ path, e'.policy.isNonDelegable path = false → e.policy.isNonDelegable path = false
  delegations : ∀ d' ∈ e'.policy.delegations, ∃ d ∈ e.policy.delegations, d.rule.app = d'.rule.app ∧
    ∀ path owners, Covers d'.rule path owners e'.labels → Covers d.rule path owners e.labels

theorem HumanCovers.atMost {e' e : Evidence} (h : e'.AtMost e) {owners : List Str}
    (hc : HumanCovers e' owners) : HumanCovers e owners := by
  rcases hc with ⟨a, ha, hm⟩ | ⟨author, ha, hm⟩
  · exact Or.inl ⟨a, h.humans a ha, hm⟩
  · exact Or.inr ⟨author, h.author author ha, hm⟩

omit [PyText] in
theorem AppCovers.atMost {e' e : Evidence} (h : e'.AtMost e) {owners : List Str} {path : RepositoryPath}
    (hc : AppCovers e'.policy e'.approved_apps e'.labels owners path) :
    AppCovers e.policy e.approved_apps e.labels owners path := by
  obtain ⟨hn, d', hd', happ, hcov⟩ := hc
  obtain ⟨d, hd, heq, hcov'⟩ := h.delegations d' hd'
  exact ⟨h.delegable path hn, d, hd, heq ▸ h.apps _ happ, hcov' path owners hcov⟩

/-- A requirement that the lesser evidence satisfies is satisfied by the other. -/
theorem Evidence.AtMost.satisfied {e' e : Evidence} (h : e'.AtMost e) {owners : List Str}
    {paths paths' : List RepositoryPath} (hp : ∀ path ∈ paths, path ∈ paths')
    (hs : (ownerSetResult e' owners paths').satisfied = true) :
    (ownerSetResult e owners paths).satisfied = true := by
  rw [ownerSetResult_satisfied] at hs ⊢
  rcases hs with hs | hs
  · exact Or.inl (hs.atMost h)
  · exact Or.inr fun path hpath => (hs path (hp path hpath)).atMost h

/-! ## Requirements of the same paths -/

omit [PyText] in
theorem ownerPaths_congr {document : CodeownersDocument} {paths paths' ps : List RepositoryPath}
    (h : ∀ path, path ∈ paths ↔ path ∈ paths') {owners : List Str}
    (hps : (ownerPaths document paths).get? owners = some ps) :
    ∃ ps', (ownerPaths document paths').get? owners = some ps' ∧ ∀ path, path ∈ ps ↔ path ∈ ps' := by
  obtain ⟨hne, hpne, hmem⟩ := ownerPaths_entry hps
  obtain ⟨path, hpath⟩ := List.exists_mem_of_ne_nil ps hpne
  obtain ⟨hin, rfl⟩ := (hmem path).mp hpath
  obtain ⟨ps', hps', -⟩ := ownerPaths_exists ((h path).mp hin) hne
  refine ⟨ps', hps', fun q => ?_⟩
  rw [hmem, (ownerPaths_entry hps').2.2, h]

/-- Every requirement has its counterpart, which lesser evidence does not satisfy sooner. -/
theorem requirement_atMost {data data' : EvaluationInput} {document : CodeownersDocument}
    {policy policy' : CompiledPolicy}
    (hpaths : ∀ path, path ∈ evaluationPaths data ↔ path ∈ evaluationPaths data')
    (h : (evidenceOf data' policy').AtMost (evidenceOf data policy)) {r : OwnerSetResult}
    (hr : r ∈ evaluationRequirements data document policy) :
    ∃ r' ∈ evaluationRequirements data' document policy', r'.owners = r.owners ∧
      (∀ path, path ∈ r.paths ↔ path ∈ r'.paths) ∧ (r'.satisfied = true → r.satisfied = true) := by
  obtain ⟨owners, ps, hps, rfl⟩ := mem_evaluationRequirements.mp hr
  obtain ⟨ps', hps', hmem⟩ := ownerPaths_congr hpaths hps
  refine ⟨_, mem_evaluationRequirements.mpr ⟨owners, ps', hps', rfl⟩, ?_, ?_, ?_⟩
  · rw [(ownerSetResult_fields _ owners ps).1, (ownerSetResult_fields _ owners ps').1]
  · intro path
    rw [(ownerSetResult_fields _ owners ps).2, (ownerSetResult_fields _ owners ps').2, hmem]
  · exact h.satisfied fun path hp => (hmem path).mp hp

theorem success_atMost {data data' : EvaluationInput} {document : CodeownersDocument}
    {policy policy' : CompiledPolicy}
    (hpaths : ∀ path, path ∈ evaluationPaths data ↔ path ∈ evaluationPaths data')
    (h : (evidenceOf data' policy').AtMost (evidenceOf data policy))
    (hs : (evaluateWith data' document policy').conclusion = .SUCCESS) :
    (evaluateWith data document policy).conclusion = .SUCCESS := by
  rw [evaluateWith_success] at hs ⊢
  intro r hr
  obtain ⟨r', hr', -, -, hsat⟩ := requirement_atMost hpaths h hr
  exact hsat (hs r' hr')

/-! ## Inputs behind the evidence -/

omit [PyText] in
theorem mem_currentApprovals_iff {data : EvaluationInput} {review : PullRequestReview} :
    review ∈ (currentApprovals data).1 ↔ review ∈ latestOpinionatedReviews data.reviews ∧
      review.state = .APPROVED ∧ isStale data review = false := by
  simp only [currentApprovals, List.mem_filter, decide_eq_true_eq, Bool.not_eq_true', and_assoc]

/-- An input whose approvals, author, applications and delegations are among
those of another one, with at least its non-delegable patterns. -/
structure InputAtMost (data' data : EvaluationInput) : Prop where
  labels : data'.labels = data.labels
  approvals : ∀ review ∈ (currentApprovals data').1, review ∈ (currentApprovals data).1
  author : ∀ author, optedInAuthor data' = some author → optedInAuthor data = some author
  apps : ∀ app_alias enrolled, data'.organization_policy.apps.get? app_alias = some enrolled →
    data.organization_policy.apps.get? app_alias = some enrolled
  patterns : ∀ pattern ∈ nonDelegablePatterns data.organization_policy data.repository_policy data.options,
    pattern ∈ nonDelegablePatterns data'.organization_policy data'.repository_policy data'.options
  delegations : ∀ d' ∈ data'.repository_policy.delegations, ∃ d ∈ data.repository_policy.delegations,
    d.app = d'.app ∧ ∀ path owners, Covers d' path owners data'.labels → Covers d path owners data'.labels

theorem InputAtMost.evidence {data' data : EvaluationInput} (h : InputAtMost data' data)
    {policy policy' : CompiledPolicy}
    (hc : compilePolicy data.organization_policy data.repository_policy data.options = .ok policy)
    (hc' : compilePolicy data'.organization_policy data'.repository_policy data'.options = .ok policy') :
    (evidenceOf data' policy').AtMost (evidenceOf data policy) := by
  obtain ⟨hpat, hdel, -⟩ := compilePolicy_ok hc
  obtain ⟨hpat', hdel', -⟩ := compilePolicy_ok hc'
  refine ⟨?_, h.author, ?_, ?_, ?_⟩
  · intro a ha
    simp only [evidenceOf, humanApprovalsByOwner, List.mem_map, List.mem_filter] at ha ⊢
    obtain ⟨review, ⟨hm, hk⟩, rfl⟩ := ha
    exact ⟨review, ⟨h.approvals review hm, hk⟩, rfl⟩
  · intro app_alias ha
    obtain ⟨review, hm, hk, enrolled, hg, hi⟩ := mem_recognizedAppApprovals.mp ha
    exact mem_recognizedAppApprovals.mpr ⟨review, h.approvals review hm, hk, enrolled, h.apps _ _ hg, hi⟩
  · intro path hn
    show policy.isNonDelegable path = false
    have hn : policy'.isNonDelegable path = false := hn
    rw [isNonDelegable_eq_false, hpat'] at hn
    rw [isNonDelegable_eq_false, hpat]
    exact fun pattern hp => hn pattern (h.patterns pattern hp)
  · intro d' hd'
    obtain ⟨rule, hrule, happ, hcov⟩ := h.delegations d'.rule ((mem_delegations hdel').mpr ⟨d', hd', rfl⟩)
    obtain ⟨d, hd, rfl⟩ := (mem_delegations hdel).mp hrule
    refine ⟨d, hd, happ, fun path owners hc => ?_⟩
    show Covers d.rule path owners data.labels
    rw [← h.labels]
    exact hcov path owners hc

/-- What a compiled policy says about its sources. -/
theorem compilePolicy_sources {organization : OrganizationPolicy} {repository : RepositoryPolicy}
    {options : EvaluationOptions} {policy : CompiledPolicy}
    (h : compilePolicy organization repository options = .ok policy) :
    (∀ pattern ∈ nonDelegablePatterns organization repository options, isAccepted pattern = true) ∧
      (∀ d ∈ repository.delegations, ∃ application, organization.apps.get? d.app = some application) ∧
      ∀ d ∈ repository.delegations, ∀ pattern ∈ d.paths, isAccepted pattern = true := by
  obtain ⟨hpat, hdel, happs⟩ := compilePolicy_ok h
  refine ⟨fun pattern hp => policy.compiles pattern (hpat ▸ hp), fun d hd => ?_, fun d hd => ?_⟩
  · obtain ⟨compiled, hm, rfl⟩ := (mem_delegations hdel).mp hd
    exact ⟨compiled.application, happs compiled hm⟩
  · obtain ⟨compiled, -, rfl⟩ := (mem_delegations hdel).mp hd
    exact compiled.compiles

/-! ## Orders of evidence -/

/-- The same evidence in another order, with reviews that cannot count besides. -/
structure SameEvidence (data data' : EvaluationInput) : Prop where
  head_sha : data'.head_sha = data.head_sha
  codeowners_text : data'.codeowners_text = data.codeowners_text
  changed_files : data'.changed_files.Perm data.changed_files
  reviews : ∃ extra, data'.reviews.Perm (data.reviews ++ extra) ∧
    ∀ review ∈ extra, Superseded data.reviews review
  author : data'.author = data.author
  labels : data'.labels = data.labels
  apps : data'.organization_policy.apps.entries.Perm data.organization_policy.apps.entries
  guardrails : data'.organization_policy.guardrails = data.organization_policy.guardrails
  enabled : data'.repository_policy.enabled = data.repository_policy.enabled
  allow_author_as_codeowner : data'.repository_policy.allow_author_as_codeowner =
    data.repository_policy.allow_author_as_codeowner
  allow_delegation_for_policy_file : data'.repository_policy.allow_delegation_for_policy_file =
    data.repository_policy.allow_delegation_for_policy_file
  delegations : data'.repository_policy.delegations.Perm data.repository_policy.delegations
  options : data'.options = data.options

omit [PyText] in
theorem SameEvidence.mem_approvals {data data' : EvaluationInput} (hd : DistinctPerActor data.reviews)
    (h : SameEvidence data data') (review : PullRequestReview) :
    review ∈ (currentApprovals data').1 ↔ review ∈ (currentApprovals data).1 := by
  obtain ⟨extra, hp, he⟩ := h.reviews
  rw [mem_currentApprovals_iff, mem_currentApprovals_iff, mem_latest_append hd hp he]
  simp only [isStale, h.options, h.head_sha]

omit [PyText] in
theorem SameEvidence.get?_apps {data data' : EvaluationInput} (h : SameEvidence data data')
    (app_alias : Str) (enrolled : EnrolledApplication) :
    data'.organization_policy.apps.get? app_alias = some enrolled ↔
      data.organization_policy.apps.get? app_alias = some enrolled := by
  rw [Dict.get?_eq_some, Dict.get?_eq_some, h.apps.mem_iff]

omit [PyText] in
theorem SameEvidence.patterns {data data' : EvaluationInput} (h : SameEvidence data data') :
    nonDelegablePatterns data'.organization_policy data'.repository_policy data'.options =
      nonDelegablePatterns data.organization_policy data.repository_policy data.options := by
  unfold nonDelegablePatterns
  rw [h.guardrails, h.allow_delegation_for_policy_file, h.options]

omit [PyText] in
theorem SameEvidence.author_eq {data data' : EvaluationInput} (h : SameEvidence data data') :
    optedInAuthor data' = optedInAuthor data := by
  unfold optedInAuthor
  rw [h.allow_author_as_codeowner, h.author]

omit [PyText] in
theorem SameEvidence.inputAtMost {data data' : EvaluationInput} (hd : DistinctPerActor data.reviews)
    (h : SameEvidence data data') : InputAtMost data' data ∧ InputAtMost data data' := by
  refine ⟨⟨h.labels, ?_, ?_, ?_, ?_, ?_⟩, ⟨h.labels.symm, ?_, ?_, ?_, ?_, ?_⟩⟩
  · exact fun review => (h.mem_approvals hd review).mp
  · exact fun author ha => h.author_eq ▸ ha
  · exact fun app_alias enrolled => (h.get?_apps app_alias enrolled).mp
  · exact fun pattern hp => h.patterns.symm ▸ hp
  · exact fun d hm => ⟨d, h.delegations.mem_iff.mp hm, rfl, fun _ _ hc => hc⟩
  · exact fun review => (h.mem_approvals hd review).mpr
  · exact fun author ha => h.author_eq.symm ▸ ha
  · exact fun app_alias enrolled => (h.get?_apps app_alias enrolled).mpr
  · exact fun pattern hp => h.patterns ▸ hp
  · exact fun d hm => ⟨d, h.delegations.mem_iff.mpr hm, rfl, fun _ _ hc => hc⟩

theorem SameEvidence.compiles {data data' : EvaluationInput} (h : SameEvidence data data') :
    (∃ policy, compilePolicy data.organization_policy data.repository_policy data.options = .ok policy) ↔
      ∃ policy, compilePolicy data'.organization_policy data'.repository_policy data'.options =
        .ok policy := by
  constructor
  · rintro ⟨policy, hc⟩
    obtain ⟨hpat, happs, hpaths⟩ := compilePolicy_sources hc
    refine compilePolicy_exists (fun p hp => hpat p (h.patterns ▸ hp)) (fun d hd => ?_)
      fun d hd => hpaths d (h.delegations.mem_iff.mp hd)
    obtain ⟨application, hg⟩ := happs d (h.delegations.mem_iff.mp hd)
    exact ⟨application, (h.get?_apps _ _).mpr hg⟩
  · rintro ⟨policy, hc⟩
    obtain ⟨hpat, happs, hpaths⟩ := compilePolicy_sources hc
    refine compilePolicy_exists (fun p hp => hpat p (h.patterns.symm ▸ hp)) (fun d hd => ?_)
      fun d hd => hpaths d (h.delegations.mem_iff.mpr hd)
    obtain ⟨application, hg⟩ := happs d (h.delegations.mem_iff.mpr hd)
    exact ⟨application, (h.get?_apps _ _).mp hg⟩

def OwnerSetResult.outcome (r : OwnerSetResult) : Finset Str × Finset RepositoryPath × Bool :=
  (r.owners.toFinset, r.paths.toFinset, r.satisfied)

/-- The conclusion and the sets that a result consists of. -/
structure SameOutcome (result result' : EvaluationResult) : Prop where
  conclusion : result'.conclusion = result.conclusion
  requirements : (result'.requirements.map (·.outcome)).toFinset =
    (result.requirements.map (·.outcome)).toFinset
  unowned_paths : result'.unowned_paths.toFinset = result.unowned_paths.toFinset

/-- One direction of the comparison of requirements as sets. -/
theorem outcome_mem {data data' : EvaluationInput} {document : CodeownersDocument}
    {policy policy' : CompiledPolicy}
    (hpaths : ∀ path, path ∈ evaluationPaths data ↔ path ∈ evaluationPaths data')
    (h : (evidenceOf data' policy').AtMost (evidenceOf data policy))
    (h' : (evidenceOf data policy).AtMost (evidenceOf data' policy')) {o}
    (ho : o ∈ (evaluationRequirements data document policy).map (·.outcome)) :
    o ∈ (evaluationRequirements data' document policy').map (·.outcome) := by
  obtain ⟨r, hr, rfl⟩ := List.mem_map.mp ho
  obtain ⟨owners, ps, hps, rfl⟩ := mem_evaluationRequirements.mp hr
  obtain ⟨ps', hps', hmem⟩ := ownerPaths_congr hpaths hps
  refine List.mem_map.mpr ⟨_, mem_evaluationRequirements.mpr ⟨owners, ps', hps', rfl⟩, ?_⟩
  have hsat : (ownerSetResult (evidenceOf data' policy') owners ps').satisfied =
      (ownerSetResult (evidenceOf data policy) owners ps).satisfied := by
    rw [Bool.eq_iff_iff]
    exact ⟨h.satisfied fun p hp => (hmem p).mp hp, h'.satisfied fun p hp => (hmem p).mpr hp⟩
  unfold OwnerSetResult.outcome
  rw [(ownerSetResult_fields _ owners ps).1, (ownerSetResult_fields _ owners ps').1,
    (ownerSetResult_fields _ owners ps).2, (ownerSetResult_fields _ owners ps').2, hsat,
    List.toFinset.ext fun p => (hmem p).symm]

/-- No order of reviews, files, delegations or applications changes what an
evaluation decides, and no review that another one supersedes does. -/
theorem evaluate_ignores_order (data data' : EvaluationInput) (hd : DistinctPerActor data.reviews)
    (h : SameEvidence data data') : SameOutcome (evaluate data) (evaluate data') := by
  have hpaths : ∀ path, path ∈ evaluationPaths data ↔ path ∈ evaluationPaths data' := by
    intro path
    simp only [mem_evaluationPaths, h.changed_files.mem_iff]
  obtain ⟨hle, hge⟩ := h.inputAtMost hd
  unfold evaluate
  rw [h.enabled, h.codeowners_text]
  by_cases hen : data.repository_policy.enabled = true
  · simp only [hen, Bool.not_true, Bool.false_eq_true, if_false]
    cases parseCodeowners data.codeowners_text with
    | error issues => exact ⟨rfl, rfl, rfl⟩
    | ok document =>
      cases hc : compilePolicy data.organization_policy data.repository_policy data.options with
      | error issues =>
        cases hc' : compilePolicy data'.organization_policy data'.repository_policy data'.options with
        | error issues' => exact ⟨rfl, rfl, rfl⟩
        | ok policy' =>
          obtain ⟨policy, hok⟩ := h.compiles.mpr ⟨policy', hc'⟩
          rw [hc] at hok
          cases hok
      | ok policy =>
        obtain ⟨policy', hc'⟩ := h.compiles.mp ⟨policy, hc⟩
        rw [hc']
        have hle' := hle.evidence hc hc'
        have hge' := hge.evidence hc' hc
        obtain ⟨hreq, -, hunowned⟩ := evaluateWith_fields data document policy
        obtain ⟨hreq', -, hunowned'⟩ := evaluateWith_fields data' document policy'
        refine ⟨?_, ?_, ?_⟩
        · have hiff : (evaluateWith data' document policy').conclusion = .SUCCESS ↔
              (evaluateWith data document policy).conclusion = .SUCCESS :=
            ⟨success_atMost hpaths hle', success_atMost (fun path => (hpaths path).symm) hge'⟩
          show (evaluateWith data' document policy').conclusion = (evaluateWith data document policy).conclusion
          cases he : (evaluateWith data document policy).conclusion <;>
            cases he' : (evaluateWith data' document policy').conclusion <;> simp_all
        · show ((evaluateWith data' document policy').requirements.map (·.outcome)).toFinset = _
          rw [hreq', hreq]
          refine List.toFinset.ext fun o => ⟨?_, ?_⟩
          · exact outcome_mem (fun path => (hpaths path).symm) hge' hle'
          · exact outcome_mem hpaths hle' hge'
        · show (evaluateWith data' document policy').unowned_paths.toFinset = _
          rw [hunowned', hunowned]
          refine List.toFinset.ext fun path => ?_
          simp only [List.mem_filter, hpaths]
  · simp only [hen, Bool.not_false, if_true]
    exact ⟨rfl, rfl, rfl⟩

/-! ## Tightening -/

structure TightensDelegation (d d' : Delegation) : Prop where
  app : d'.app = d.app
  paths : ∀ pattern ∈ d'.paths, pattern ∈ d.paths
  for_owners : ∀ owner ∈ d'.for_owners, owner ∈ d.for_owners
  required_labels : d.required_labels ⊆ d'.required_labels
  forbidden_labels : d.forbidden_labels ⊆ d'.forbidden_labels

omit [PyText] in
theorem TightensDelegation.covers {d d' : Delegation} (h : TightensDelegation d d') {path : RepositoryPath}
    {owners : List Str} {labels : Finset Str} (hc : Covers d' path owners labels) :
    Covers d path owners labels := by
  obtain ⟨⟨pattern, hp, hm⟩, ho, hr, hf⟩ := hc
  refine ⟨⟨pattern, h.paths pattern hp, hm⟩, ?_, h.required_labels.trans hr,
    hf.mono_left h.forbidden_labels⟩
  rcases ho with ho | ⟨owner, ho, hfor⟩
  · exact Or.inl (h.for_owners _ ho)
  · exact Or.inr ⟨owner, ho, h.for_owners _ hfor⟩

/-- Any combination of more guardrails, fewer allowances, fewer or narrower
delegations, fewer applications and the reviews of fewer actors. -/
structure Tightens (data data' : EvaluationInput) : Prop where
  head_sha : data'.head_sha = data.head_sha
  codeowners_text : data'.codeowners_text = data.codeowners_text
  changed_files : data'.changed_files = data.changed_files
  reviews : ∃ kept : ActorKind × Nat → Bool, data'.reviews = data.reviews.filter fun r => kept (actorKey r)
  author : data'.author = data.author
  labels : data'.labels = data.labels
  apps : ∀ app_alias enrolled, data'.organization_policy.apps.get? app_alias = some enrolled →
    data.organization_policy.apps.get? app_alias = some enrolled
  non_delegable_paths : ∀ pattern ∈ data.organization_policy.guardrails.non_delegable_paths,
    pattern ∈ data'.organization_policy.guardrails.non_delegable_paths
  enabled : data'.repository_policy.enabled = data.repository_policy.enabled
  allow_author_as_codeowner : data'.repository_policy.allow_author_as_codeowner = true →
    data.repository_policy.allow_author_as_codeowner = true
  allow_delegation_for_policy_file : data'.repository_policy.allow_delegation_for_policy_file = true →
    data.repository_policy.allow_delegation_for_policy_file = true
  delegations : ∀ d' ∈ data'.repository_policy.delegations, ∃ d ∈ data.repository_policy.delegations,
    TightensDelegation d d'
  exact_head_reviews : data'.options.exact_head_reviews = data.options.exact_head_reviews
  allow_insecure_changes : data'.options.allow_insecure_changes = true →
    data.options.allow_insecure_changes = true
  repository_policy_path : data'.options.repository_policy_path = data.options.repository_policy_path

omit [PyText] in
theorem Tightens.patterns {data data' : EvaluationInput} (h : Tightens data data') {pattern : Str}
    (hp : pattern ∈ nonDelegablePatterns data.organization_policy data.repository_policy data.options) :
    pattern ∈ nonDelegablePatterns data'.organization_policy data'.repository_policy data'.options := by
  unfold nonDelegablePatterns at hp ⊢
  rw [List.mem_append] at hp ⊢
  refine hp.imp ?_ (h.non_delegable_paths pattern)
  intro hp
  cases hi : data.options.allow_insecure_changes with
  | true =>
    rw [hi] at hp
    cases hp
  | false =>
    have hi' : data'.options.allow_insecure_changes = false := by
      rw [← Bool.not_eq_true] at hi ⊢
      exact fun e => hi (h.allow_insecure_changes e)
    rw [hi] at hp
    rw [hi', h.repository_policy_path]
    simp only [Bool.false_eq_true, if_false] at hp ⊢
    cases hf : data.repository_policy.allow_delegation_for_policy_file with
    | true =>
      rw [hf, if_pos rfl] at hp
      split
      · exact hp
      · exact List.mem_append_left _ hp
    | false =>
      have hf' : data'.repository_policy.allow_delegation_for_policy_file = false := by
        rw [← Bool.not_eq_true] at hf ⊢
        exact fun e => hf (h.allow_delegation_for_policy_file e)
      rw [hf] at hp
      rw [hf']
      exact hp

omit [PyText] in
theorem Tightens.inputAtMost {data data' : EvaluationInput} (h : Tightens data data') :
    InputAtMost data' data := by
  refine ⟨h.labels, ?_, ?_, h.apps, fun pattern hp => h.patterns hp, ?_⟩
  · intro review hr
    obtain ⟨kept, hk⟩ := h.reviews
    rw [mem_currentApprovals_iff, hk, mem_latest_filter] at hr
    rw [mem_currentApprovals_iff]
    refine ⟨hr.1.1, hr.2.1, ?_⟩
    simpa only [isStale, h.exact_head_reviews, h.head_sha] using hr.2.2
  · intro author ha
    unfold optedInAuthor at ha ⊢
    split at ha
    · rename_i hallow
      rw [if_pos (h.allow_author_as_codeowner hallow), ← h.author]
      exact ha
    · cases ha
  · intro d' hd'
    obtain ⟨d, hd, ht⟩ := h.delegations d' hd'
    exact ⟨d, hd, ht.app.symm, fun path owners hc => ht.covers hc⟩

/-- Tightening a policy that compiles turns no failure into a success and no
unsatisfied requirement into a satisfied one. -/
theorem tightening_never_approves (data data' : EvaluationInput) (h : Tightens data data')
    (hc : ∃ policy, compilePolicy data.organization_policy data.repository_policy data.options =
      .ok policy) :
    ((evaluate data).conclusion = .FAILURE → (evaluate data').conclusion = .FAILURE) ∧
      ∀ r ∈ (evaluate data).requirements, ∀ r' ∈ (evaluate data').requirements,
        r'.owners = r.owners → r.satisfied = false → r'.satisfied = false := by
  obtain ⟨policy, hc⟩ := hc
  rcases evaluate_cases data' with ⟨-, hfailed, hnone, -⟩ | ⟨document, policy', hen, hd, hc', he'⟩
  · rw [hnone]
    exact ⟨fun _ => hfailed, fun r _ r' hr' => absurd hr' List.not_mem_nil⟩
  have he : evaluate data = evaluateWith data document policy := by
    rw [h.enabled] at hen
    rw [h.codeowners_text] at hd
    simp only [evaluate, hen, hd, hc, Bool.not_true, Bool.false_eq_true, if_false]
  have hpaths : ∀ path, path ∈ evaluationPaths data ↔ path ∈ evaluationPaths data' := by
    intro path
    simp only [mem_evaluationPaths, h.changed_files]
  have hle := h.inputAtMost.evidence hc hc'
  rw [he, he']
  constructor
  · intro hf
    cases hs : (evaluateWith data' document policy').conclusion with
    | FAILURE => rfl
    | SUCCESS =>
      rw [success_atMost hpaths hle hs] at hf
      cases hf
  · intro r hr r' hr' howners hunsat
    rw [(evaluateWith_fields data document policy).1] at hr
    rw [(evaluateWith_fields data' document policy').1] at hr'
    obtain ⟨r'', hr'', howners'', -, hsat⟩ := requirement_atMost hpaths hle hr
    -- the owner set names the requirement
    have hsame : r'' = r' := by
      have hnodup : ((evaluationRequirements data' document policy').map (·.owners)).Nodup := by
        rw [requirements_owners]
        exact (ownerPaths document (evaluationPaths data')).nodup
      exact List.inj_on_of_nodup_map hnodup hr'' hr' (howners''.trans howners.symm)
    rw [hsame] at hsat
    rw [← Bool.not_eq_true] at hunsat ⊢
    exact fun e => hunsat (hsat e)

end

/-! The sample with a later comment of its reviewer, and without a review. -/

def sampleComment : PullRequestReview where
  review_id := 9
  actor := sampleHuman
  state := .COMMENTED
  commit_sha := none
  submitted_at := 5

def sampleCommented : EvaluationInput := { sampleInput with
  reviews := sampleComment :: sampleInput.reviews }

theorem sampleCommented_same :
    SameOutcome (@evaluate asciiText sampleInput) (@evaluate asciiText sampleCommented) := by
  refine @evaluate_ignores_order asciiText sampleInput sampleCommented (List.pairwise_singleton _ _) ?_
  refine ⟨rfl, rfl, .refl _, ⟨[sampleComment], @List.perm_append_comm _ [sampleComment] _, ?_⟩, rfl, rfl,
    .refl _, rfl, rfl, rfl, rfl, .refl _, rfl⟩
  intro review hr
  rw [List.mem_singleton.mp hr]
  exact Or.inl rfl

def sampleUnreviewed : EvaluationInput := { sampleInput with reviews := [] }

def sampleLenient : EvaluationInput := { sampleUnreviewed with
  repository_policy := { samplePolicy with allow_author_as_codeowner := true } }

theorem sampleUnreviewed_denied : (@evaluate asciiText sampleUnreviewed).conclusion = .FAILURE := by
  refine (@tightening_never_approves asciiText sampleLenient sampleUnreviewed
    ⟨rfl, rfl, rfl, ⟨fun _ => true, rfl⟩, rfl, rfl, fun _ _ h => h, fun _ h => h, rfl, ?_, id, ?_, rfl, id, rfl⟩
    ⟨_, by rfl⟩).1 (by decide)
  · exact fun _ => rfl
  · intro d' hd'
    cases hd'

end ExtraCodeowners
