import ExtraCodeowners.Evaluator
import Mathlib.Data.Prod.Lex

/-!
# The reference decision of one path

Who approves a path is stated for that path alone: its last matching rule, the
reviews, the author and the delegations. `evaluate_success_iff` shows that the
grouping by owner set decides the same.
-/

namespace ExtraCodeowners

/-! ## Latest reviews -/

def ordering (review : PullRequestReview) : Lex (Int × Nat) := toLex (review.submitted_at, review.review_id)

theorem isLater_iff {a b : PullRequestReview} : isLater a b = true ↔ ordering b < ordering a := by
  simp [isLater, ordering, Prod.Lex.toLex_lt_toLex]

theorem not_isLater_iff {a b : PullRequestReview} : isLater a b = false ↔ ordering a ≤ ordering b := by
  rw [← Bool.not_eq_true, isLater_iff, not_lt]

theorem ordering_keepLatest (previous : Option PullRequestReview) (review : PullRequestReview) :
    ordering review ≤ ordering (keepLatest previous review) ∧
      ∀ p, previous = some p → ordering p ≤ ordering (keepLatest previous review) := by
  cases previous with
  | none => exact ⟨le_refl _, fun _ h => by cases h⟩
  | some p =>
    by_cases h : isLater review p = true
    · have hlt := isLater_iff.mp h
      simp only [keepLatest, h, if_true, Option.some.injEq, forall_eq']
      exact ⟨le_refl _, hlt.le⟩
    · have hle := not_isLater_iff.mp (Bool.not_eq_true _ ▸ h)
      simp only [keepLatest, h, Option.some.injEq, forall_eq']
      exact ⟨hle, le_refl _⟩

theorem keepLatest_eq (previous : Option PullRequestReview) (review : PullRequestReview) :
    keepLatest previous review = review ∨ previous = some (keepLatest previous review) := by
  cases previous with
  | none => exact Or.inl rfl
  | some p =>
    by_cases h : isLater review p = true <;> simp [keepLatest, h]

/-- The fold keeps a review that is nowhere earlier than another. -/
theorem foldl_keepLatest : ∀ (l : List PullRequestReview) (o : Option PullRequestReview)
    (m : PullRequestReview), l.foldl (fun o b => some (keepLatest o b)) o = some m →
      (o = some m ∨ m ∈ l) ∧ (∀ p, o = some p → ordering p ≤ ordering m) ∧
        ∀ x ∈ l, ordering x ≤ ordering m
  | [], o, m, h => by
    rw [List.foldl_nil] at h
    subst h
    exact ⟨Or.inl rfl, fun p hp => by cases hp; exact le_refl _, by simp⟩
  | b :: l, o, m, h => by
    rw [List.foldl_cons] at h
    obtain ⟨hm, hk, hl⟩ := foldl_keepLatest l _ m h
    have hkm := hk _ rfl
    obtain ⟨hb, ho⟩ := ordering_keepLatest o b
    refine ⟨?_, fun p hp => (ho p hp).trans hkm, ?_⟩
    · rcases hm with hm | hm
      · cases hm
        rcases keepLatest_eq o b with he | he
        · exact Or.inr (by rw [he]; simp)
        · exact Or.inl he
      · exact Or.inr (by simp [hm])
    · intro x hx
      rcases List.mem_cons.mp hx with rfl | hx
      · exact hb.trans hkm
      · exact hl x hx

theorem eq_of_ordering {reviews : List PullRequestReview} (hids : (reviews.map (·.review_id)).Nodup)
    {a b : PullRequestReview} (ha : a ∈ reviews) (hb : b ∈ reviews)
    (h : ordering a = ordering b) : a = b := by
  refine List.inj_on_of_nodup_map hids ha hb ?_
  have := congrArg (fun x => (ofLex x).2) h
  exact this

/-- No other opinionated review of its actor follows a latest one. -/
theorem latest_of_mem {reviews : List PullRequestReview} {review : PullRequestReview}
    (h : review ∈ latestOpinionatedReviews reviews) :
    review ∈ reviews ∧ isOpinionated review.state = true ∧
      ∀ other ∈ reviews, isOpinionated other.state = true → actorKey other = actorKey review →
        ordering other ≤ ordering review := by
  unfold latestOpinionatedReviews at h
  rw [(List.perm_insertionSort _ _).mem_iff, Dict.mem_values] at h
  simp only [Dict.get?_group] at h
  obtain ⟨k, hk⟩ := h
  obtain ⟨hm, -, hle⟩ := foldl_keepLatest _ _ _ hk
  have hm := hm.resolve_left (by simp)
  simp only [List.mem_filter, decide_eq_true_eq] at hm hle
  refine ⟨hm.1.1, hm.1.2, fun other ho hs hkey => hle other ⟨⟨ho, hs⟩, ?_⟩⟩
  rw [hkey, hm.2]

/-- A review that follows every other opinionated review of its actor is a latest one. -/
theorem mem_latest_of_follows {reviews : List PullRequestReview} {review : PullRequestReview}
    (hm : review ∈ reviews) (hs : isOpinionated review.state = true)
    (hlt : ∀ other ∈ reviews, isOpinionated other.state = true → actorKey other = actorKey review →
      other = review ∨ ordering other < ordering review) :
    review ∈ latestOpinionatedReviews reviews := by
  unfold latestOpinionatedReviews
  rw [(List.perm_insertionSort _ _).mem_iff, Dict.mem_values]
  refine ⟨actorKey review, ?_⟩
  obtain ⟨latest, hl⟩ := Option.isSome_iff_exists.mp ((Dict.get?_group_isSome actorKey keepLatest
    (reviews.filter (isOpinionated ·.state)) (actorKey review)).mpr ⟨review, by simp [hm, hs], rfl⟩)
  rw [hl]
  rw [Dict.get?_group] at hl
  obtain ⟨hlm, -, hlle⟩ := foldl_keepLatest _ _ _ hl
  have hlm := hlm.resolve_left (by simp)
  have hle := hlle review (by simp [hm, hs])
  simp only [List.mem_filter, decide_eq_true_eq] at hlm
  rcases hlt latest hlm.1.1 hlm.1.2 hlm.2 with rfl | h
  · rfl
  · exact absurd hle (not_le.mpr h)

/-- With distinct review ids the latest opinionated reviews are those no other
opinionated review of the same actor follows. -/
theorem mem_latestOpinionatedReviews {reviews : List PullRequestReview}
    (hids : (reviews.map (·.review_id)).Nodup) {review : PullRequestReview} :
    review ∈ latestOpinionatedReviews reviews ↔
      review ∈ reviews ∧ isOpinionated review.state = true ∧
        ∀ other ∈ reviews, isOpinionated other.state = true → actorKey other = actorKey review →
          ordering other ≤ ordering review := by
  refine ⟨latest_of_mem, ?_⟩
  rintro ⟨hm, hs, hle⟩
  refine mem_latest_of_follows hm hs fun other ho hos hkey => ?_
  rcases (hle other ho hos hkey).lt_or_eq with hlt | heq
  · exact Or.inr hlt
  · exact Or.inl (eq_of_ordering hids ho hm heq)

/-- The latest approval, rejection or dismissal of its actor, an approval, and
on the evaluated head when reviews must be exact. -/
structure CurrentApproval (data : EvaluationInput) (review : PullRequestReview) : Prop where
  submitted : review ∈ data.reviews
  approved : review.state = .APPROVED
  latest : ∀ other ∈ data.reviews, isOpinionated other.state = true →
    actorKey other = actorKey review → ordering other ≤ ordering review
  on_head : data.options.exact_head_reviews = true → review.commit_sha = some data.head_sha

theorem isStale_eq_false {data : EvaluationInput} {review : PullRequestReview} :
    isStale data review = false ↔
      (data.options.exact_head_reviews = true → review.commit_sha = some data.head_sha) := by
  unfold isStale
  cases data.options.exact_head_reviews <;> simp

theorem mem_currentApprovals {data : EvaluationInput} (hids : (data.reviews.map (·.review_id)).Nodup)
    {review : PullRequestReview} :
    review ∈ (currentApprovals data).1 ↔ CurrentApproval data review := by
  unfold currentApprovals
  simp only [List.mem_filter, mem_latestOpinionatedReviews hids, decide_eq_true_eq,
    Bool.not_eq_true', isStale_eq_false]
  constructor
  · rintro ⟨⟨⟨hm, -, hl⟩, ha⟩, hh⟩; exact ⟨hm, ha, hl, hh⟩
  · rintro ⟨hm, ha, hl, hh⟩; exact ⟨⟨⟨hm, by rw [ha]; rfl, hl⟩, ha⟩, hh⟩

/-! ## Applications -/

theorem enrolledAlias_eq_some {policy : OrganizationPolicy} {actor : ReviewActor} {app_alias : Str} :
    enrolledAlias policy actor = some app_alias ↔
      ∃ enrolled, policy.apps.get? app_alias = some enrolled ∧ isEnrolledAs enrolled actor = true := by
  unfold enrolledAlias
  constructor
  · intro h
    obtain ⟨e, he, rfl⟩ := Option.map_eq_some_iff.mp h
    have hi : isEnrolledAs e.2 actor = true := by simpa using List.find?_some he
    exact ⟨e.2, Dict.get?_eq_some.mpr (List.mem_of_find?_eq_some he), hi⟩
  · rintro ⟨enrolled, hg, hi⟩
    cases hf : policy.apps.entries.find? fun e => isEnrolledAs e.2 actor with
    | none =>
      have := List.find?_eq_none.mp hf (app_alias, enrolled) (Dict.get?_eq_some.mp hg)
      exact absurd hi this
    | some e =>
      -- identities are unique, so the first enrolled match is the only one
      have hi' : isEnrolledAs e.2 actor = true := by simpa using List.find?_some hf
      have hg' : policy.apps.get? e.1 = some e.2 :=
        Dict.get?_eq_some.mpr (List.mem_of_find?_eq_some hf)
      simp only [isEnrolledAs, Bool.and_eq_true, decide_eq_true_eq] at hi hi'
      have := policy.identities_are_unique e.1 app_alias e.2 enrolled hg' hg
        (Or.inr (Or.inl (hi'.1.2.trans hi.1.2.symm)))
      simp [this]

theorem mem_recognizedAppApprovals {data : EvaluationInput} {approvals : List PullRequestReview}
    {app_alias : Str} :
    app_alias ∈ (recognizedAppApprovals data approvals).1 ↔
      ∃ review ∈ approvals, review.actor.kind = .APPLICATION ∧
        ∃ enrolled, data.organization_policy.apps.get? app_alias = some enrolled ∧
          isEnrolledAs enrolled review.actor = true := by
  simp only [recognizedAppApprovals, List.mem_filterMap, List.mem_filter, enrolledAlias_eq_some,
    decide_eq_true_eq]
  constructor
  · rintro ⟨review, ⟨hm, hk⟩, h⟩; exact ⟨review, hm, hk, h⟩
  · rintro ⟨review, hm, hk, h⟩; exact ⟨review, ⟨hm, hk⟩, h⟩

theorem meet_iff {identities : Finset Str} {owners : List Str} :
    meet identities owners = true ↔ ∃ owner ∈ owners, owner ∈ identities := by
  simp [meet, List.any_eq_true]

/-- An application approval stands for the owners of a path: the path is
delegable and a delegation of an approved application covers it. -/
structure AppCovers (policy : CompiledPolicy) (approved_apps : List Str) (labels : Finset Str)
    (owners : List Str) (path : RepositoryPath) : Prop where
  delegable : policy.isNonDelegable path = false
  delegated : ∃ d ∈ policy.delegations, d.rule.app ∈ approved_apps ∧ Covers d.rule path owners labels

theorem appPathEvidence_approved {policy : CompiledPolicy} {approved_apps : List Str}
    {labels : Finset Str} {owners : List Str} {path : RepositoryPath} :
    (appPathEvidence policy approved_apps labels owners path).approved_apps ≠ [] ↔
      AppCovers policy approved_apps labels owners path := by
  unfold appPathEvidence
  by_cases hn : policy.isNonDelegable path = true
  · rw [if_pos hn]
    constructor
    · intro h; exact absurd rfl h
    · rintro ⟨h, -⟩; rw [hn] at h; cases h
  · rw [if_neg hn, ne_eq, List.eq_nil_iff_forall_not_mem]
    simp only [mem_sorted, mem_fromKeys, List.mem_filter, List.mem_map, not_forall, not_not,
      List.contains_iff_mem]
    constructor
    · rintro ⟨app_alias, ⟨decision, ⟨hm, he⟩, ha⟩, happ⟩
      obtain ⟨d, hd, rfl, hc⟩ := delegationDecisions_eligible.mp ⟨decision, hm, he, ha⟩
      exact ⟨Bool.not_eq_true _ ▸ hn, d, hd, happ, hc⟩
    · rintro ⟨-, d, hd, happ, hc⟩
      obtain ⟨decision, hm, he, ha⟩ := delegationDecisions_eligible.mpr ⟨d, hd, rfl, hc⟩
      exact ⟨d.rule.app, ⟨decision, ⟨hm, he⟩, ha⟩, happ⟩

theorem appResult_satisfied {policy : CompiledPolicy} {approved_apps : List Str} {labels : Finset Str}
    {owners : List Str} {paths : List RepositoryPath} :
    (appResult policy approved_apps labels owners paths).satisfied = true ↔
      ∀ path ∈ paths, AppCovers policy approved_apps labels owners path := by
  have key : (paths.map (appPathEvidence policy approved_apps labels owners)).all
      (!·.approved_apps.isEmpty) = true ↔
        ∀ path ∈ paths, AppCovers policy approved_apps labels owners path := by
    simp only [List.all_eq_true, List.mem_map, forall_exists_index, and_imp, forall_apply_eq_imp_iff₂,
      ← appPathEvidence_approved, Bool.not_eq_true', List.isEmpty_eq_false_iff]
  unfold appResult
  rw [← key]
  simp only
  split
  · rename_i h; simp [h]
  · rename_i h; simp [h]

theorem isEnrolledAs_iff {enrolled : EnrolledApplication} {actor : ReviewActor} :
    isEnrolledAs enrolled actor = true ↔
      actor.app_id = some enrolled.app_id ∧ actor.app_slug = some enrolled.slug ∧
        actor.user_id = enrolled.bot_user_id ∧ actor.login = enrolled.slug ++ ("[bot]" : Str) := by
  simp only [isEnrolledAs, Bool.and_eq_true, decide_eq_true_eq, and_assoc]
  exact and_congr eq_comm (and_congr eq_comm (and_congr eq_comm Iff.rfl))

theorem isNonDelegable_eq_false {policy : CompiledPolicy} {path : RepositoryPath} :
    policy.isNonDelegable path = false ↔
      ∀ pattern ∈ policy.non_delegable_patterns, patternMatches path pattern = false := by
  simp [CompiledPolicy.isNonDelegable, List.any_eq_false]

/-! ## Grouping -/

theorem foldl_known : ∀ (l : List RepositoryPath) (known : Option (List RepositoryPath)),
    ∀ path, path ∈ (l.foldl (fun known path => some (if path ∈ known.getD [] then known.getD []
      else known.getD [] ++ [path])) known).getD [] ↔ path ∈ known.getD [] ∨ path ∈ l
  | [], known, path => by simp
  | p :: l, known, path => by
    rw [List.foldl_cons, foldl_known l, Option.getD_some]
    by_cases h : p ∈ known.getD []
    · rw [if_pos h]
      simp only [List.mem_cons]
      constructor
      · rintro (hm | hm)
        · exact Or.inl hm
        · exact Or.inr (Or.inr hm)
      · rintro (hm | rfl | hm)
        · exact Or.inl hm
        · exact Or.inl h
        · exact Or.inr hm
    · rw [if_neg h]
      simp [or_assoc]

/-- The entry of an owner set holds exactly the changed paths with these owners. -/
theorem ownerPaths_entry {document : CodeownersDocument} {paths ps : List RepositoryPath}
    {owners : List Str} (h : (ownerPaths document paths).get? owners = some ps) :
    owners ≠ [] ∧ ps ≠ [] ∧ ∀ path, path ∈ ps ↔ path ∈ paths ∧ sortedOwners document path = owners := by
  have hmem : ∀ path, path ∈ ps ↔ path ∈ paths ∧ sortedOwners document path ≠ [] ∧
      sortedOwners document path = owners := by
    intro path
    unfold ownerPaths at h
    rw [Dict.get?_group] at h
    have := foldl_known ((paths.filter (sortedOwners document · ≠ [])).filter
      (sortedOwners document · = owners)) none path
    rw [h] at this
    simpa [and_assoc, and_comm (a := sortedOwners document path = owners)] using this
  have hsome : ∃ path ∈ paths.filter (sortedOwners document · ≠ []), sortedOwners document path = owners := by
    have := (Dict.get?_group_isSome (sortedOwners document) _ _ owners).mp
      (Option.isSome_iff_exists.mpr ⟨ps, h⟩)
    exact this
  obtain ⟨p, hp, hpo⟩ := hsome
  simp only [List.mem_filter, decide_eq_true_eq] at hp
  have hne : owners ≠ [] := hpo ▸ hp.2
  refine ⟨hne, List.ne_nil_of_mem ((hmem p).mpr ⟨hp.1, hp.2, hpo⟩), fun path => ?_⟩
  rw [hmem]
  constructor
  · rintro ⟨h₁, -, h₂⟩; exact ⟨h₁, h₂⟩
  · rintro ⟨h₁, h₂⟩; exact ⟨h₁, by rw [h₂]; exact hne, h₂⟩

theorem ownerPaths_exists {document : CodeownersDocument} {paths : List RepositoryPath}
    {path : RepositoryPath} (hp : path ∈ paths) (ho : sortedOwners document path ≠ []) :
    ∃ ps, (ownerPaths document paths).get? (sortedOwners document path) = some ps ∧ path ∈ ps := by
  have := (Dict.get?_group_isSome (sortedOwners document)
    (fun known path => if path ∈ known.getD [] then known.getD [] else known.getD [] ++ [path])
    (paths.filter (sortedOwners document · ≠ [])) (sortedOwners document path)).mpr
      ⟨path, by simp [hp, ho], rfl⟩
  obtain ⟨ps, hps⟩ := Option.isSome_iff_exists.mp this
  exact ⟨ps, hps, ((ownerPaths_entry hps).2.2 path).mpr ⟨hp, rfl⟩⟩

theorem sortedOwners_eq_nil {document : CodeownersDocument} {path : RepositoryPath} :
    sortedOwners document path = [] ↔ document.ownersFor path = [] := by
  unfold sortedOwners sorted
  rw [← List.length_eq_zero_iff, List.length_insertionSort, List.length_eq_zero_iff]

theorem mem_evaluationPaths {data : EvaluationInput} {path : RepositoryPath} :
    path ∈ evaluationPaths data ↔
      ∃ file ∈ data.changed_files, file.path = path ∨ file.previous_path = some path := by
  simp only [evaluationPaths, mem_fromKeys, List.mem_flatMap, List.mem_append, Option.mem_toList,
    List.mem_singleton]
  constructor
  · rintro ⟨file, hm, h | h⟩
    · exact ⟨file, hm, Or.inr h⟩
    · exact ⟨file, hm, Or.inl h.symm⟩
  · rintro ⟨file, hm, h | h⟩
    · exact ⟨file, hm, Or.inr h.symm⟩
    · exact ⟨file, hm, Or.inl h⟩

theorem covers_congr {owners owners' : List Str} (h : ∀ owner, owner ∈ owners ↔ owner ∈ owners')
    {rule : Delegation} {path : RepositoryPath} {labels : Finset Str} :
    Covers rule path owners labels ↔ Covers rule path owners' labels := by
  constructor
  · rintro ⟨hp, ho, hr, hf⟩; exact ⟨hp, by simpa only [h] using ho, hr, hf⟩
  · rintro ⟨hp, ho, hr, hf⟩; exact ⟨hp, by simpa only [h] using ho, hr, hf⟩

/-! ## One owner set -/

section
variable [PyText]

/-- Human approvals or the author stand for an owner set. -/
def HumanCovers (evidence : Evidence) (owners : List Str) : Prop :=
  (∃ a ∈ evidence.human_approvals, meet a.2 owners = true) ∨
    ∃ author, evidence.author = some author ∧ meet (authorIdentities author) owners = true

theorem ownerSetResult_satisfied {evidence : Evidence} {owners : List Str}
    {paths : List RepositoryPath} :
    (ownerSetResult evidence owners paths).satisfied = true ↔
      HumanCovers evidence owners ∨
        ∀ path ∈ paths, AppCovers evidence.policy evidence.approved_apps evidence.labels owners path := by
  unfold ownerSetResult
  cases hh : (evidence.human_approvals.filter fun a => meet a.2 owners).map Prod.fst with
  | cons review reviews =>
    have : ∃ a ∈ evidence.human_approvals, meet a.2 owners = true := by
      have hm : review ∈ (evidence.human_approvals.filter fun a => meet a.2 owners).map Prod.fst := by
        rw [hh]; simp
      obtain ⟨a, ha, -⟩ := List.mem_map.mp hm
      exact ⟨a, (List.mem_filter.mp ha).1, (List.mem_filter.mp ha).2⟩
    simp only [humanResult, true_iff]
    exact Or.inl (Or.inl this)
  | nil =>
    have hno : ¬ ∃ a ∈ evidence.human_approvals, meet a.2 owners = true := by
      rintro ⟨a, ha, hm⟩
      have := List.filter_eq_nil_iff.mp (List.map_eq_nil_iff.mp hh) a ha
      exact this hm
    cases ha : evidence.author.filter fun author => meet (authorIdentities author) owners with
    | some author =>
      obtain ⟨he, hm⟩ := Option.filter_eq_some_iff.mp ha
      simp only [authorResult, true_iff]
      exact Or.inl (Or.inr ⟨author, he, hm⟩)
    | none =>
      have hno' : ¬ ∃ author, evidence.author = some author ∧
          meet (authorIdentities author) owners = true := by
        rintro ⟨author, he, hm⟩
        rw [he] at ha
        simp [Option.filter, hm] at ha
      simp only [appResult_satisfied, HumanCovers, hno, hno', or_self, false_or]

theorem ownerSetResult_fields (evidence : Evidence) (owners : List Str) (paths : List RepositoryPath) :
    (ownerSetResult evidence owners paths).owners = owners ∧
      (ownerSetResult evidence owners paths).paths = paths := by
  unfold ownerSetResult
  split
  · exact ⟨rfl, rfl⟩
  · split
    · exact ⟨rfl, rfl⟩
    · unfold appResult
      simp only
      split <;> exact ⟨rfl, rfl⟩

/-- A requirement is the result of one entry. -/
theorem mem_evaluationRequirements {data : EvaluationInput} {document : CodeownersDocument}
    {policy : CompiledPolicy} {r : OwnerSetResult} :
    r ∈ evaluationRequirements data document policy ↔
      ∃ owners ps, (ownerPaths document (evaluationPaths data)).get? owners = some ps ∧
        r = ownerSetResult (evidenceOf data policy) owners ps := by
  simp only [evaluationRequirements, List.mem_map, Prod.exists, Dict.get?_eq_some]
  constructor
  · rintro ⟨a, b, h, rfl⟩; exact ⟨a, b, h, rfl⟩
  · rintro ⟨a, b, h, rfl⟩; exact ⟨a, b, h, rfl⟩

theorem evaluateWith_success {data : EvaluationInput} {document : CodeownersDocument}
    {policy : CompiledPolicy} :
    (evaluateWith data document policy).conclusion = .SUCCESS ↔
      ∀ r ∈ evaluationRequirements data document policy, r.satisfied = true := by
  have hcount : (evaluationRequirements data document policy).countP (!·.satisfied) = 0 ↔
      ∀ r ∈ evaluationRequirements data document policy, r.satisfied = true := by
    simp [List.countP_eq_zero]
  unfold evaluateWith
  simp only
  by_cases h : (evaluationRequirements data document policy).countP (!·.satisfied) = 0
  · rw [if_neg (not_not.mpr h)]
    simp only [← hcount, h, iff_true]
    split <;> rfl
  · rw [if_pos h, ← hcount]
    simp [h]

/-! ## The reference -/

/-- Some human whose identities meet the owners currently approves. -/
def HumanApproves (data : EvaluationInput) (owners : List Str) : Prop :=
  ∃ review, CurrentApproval data review ∧ review.actor.kind = .HUMAN ∧
    ∃ owner ∈ owners, owner ∈ review.actor.owner_aliases ∨
      review.actor.direct_owner_eligible = true ∧ owner = '@' :: PyText.lower review.actor.login

/-- Author evidence is opted in and the identities of the author meet the owners. -/
def AuthorApproves (data : EvaluationInput) (owners : List Str) : Prop :=
  data.repository_policy.allow_author_as_codeowner = true ∧ ∃ author, data.author = some author ∧
    ∃ owner ∈ owners, owner ∈ author.owner_aliases ∨
      author.direct_owner_eligible = true ∧ owner = '@' :: PyText.lower author.login

/-- The path is delegable and a delegation that covers it names an enrolled
application with a current approval. -/
def ApplicationApproves (data : EvaluationInput) (owners : List Str) (path : RepositoryPath) : Prop :=
  (∀ pattern ∈ nonDelegablePatterns data.organization_policy data.repository_policy data.options,
    patternMatches path pattern = false) ∧
  ∃ delegation ∈ data.repository_policy.delegations, Covers delegation path owners data.labels ∧
    ∃ enrolled, data.organization_policy.apps.get? delegation.app = some enrolled ∧
      ∃ review, CurrentApproval data review ∧ review.actor.kind = .APPLICATION ∧
        review.actor.app_id = some enrolled.app_id ∧ review.actor.app_slug = some enrolled.slug ∧
        review.actor.user_id = enrolled.bot_user_id ∧
        review.actor.login = enrolled.slug ++ ("[bot]" : Str)

/-- The owners of the last rule that matches the path approve; a path that no
rule matches, or whose last one names no owner, needs no approval. -/
def PathApproved (data : EvaluationInput) (document : CodeownersDocument) (path : RepositoryPath) : Prop :=
  ∀ earlier rule later, document.rules = earlier ++ rule :: later →
    rule.matchesNormalized path = true → (∀ r ∈ later, r.matchesNormalized path = false) →
    rule.owners ≠ [] →
      HumanApproves data rule.owners ∨ AuthorApproves data rule.owners ∨
        ApplicationApproves data rule.owners path

theorem pathApproved_iff {data : EvaluationInput} {document : CodeownersDocument}
    {path : RepositoryPath} :
    PathApproved data document path ↔ (document.ownersFor path ≠ [] →
      HumanApproves data (document.ownersFor path) ∨ AuthorApproves data (document.ownersFor path) ∨
        ApplicationApproves data (document.ownersFor path) path) := by
  rw [ownersFor_eq]
  constructor
  · intro h howned
    cases hr : document.ruleFor path with
    | none => rw [hr] at howned; exact absurd rfl howned
    | some rule =>
      rw [hr] at howned
      obtain ⟨earlier, later, hrules, hm, hl⟩ := ruleFor_some hr
      exact h earlier rule later hrules hm hl howned
  · intro h earlier rule later hrules hm hl howned
    rw [ruleFor_last hrules hm hl] at h
    exact h howned

theorem mem_humanOwnerIdentities {login owner : Str} {owner_aliases : Finset Str} {direct : Bool} :
    owner ∈ humanOwnerIdentities login owner_aliases direct ↔
      owner ∈ owner_aliases ∨ direct = true ∧ owner = '@' :: PyText.lower login := by
  unfold humanOwnerIdentities
  cases direct <;> simp [or_comm]

theorem humanCovers_iff {data : EvaluationInput} (hids : (data.reviews.map (·.review_id)).Nodup)
    {policy : CompiledPolicy} {owners : List Str} :
    HumanCovers (evidenceOf data policy) owners ↔
      HumanApproves data owners ∨ AuthorApproves data owners := by
  refine or_congr ?_ ?_
  · simp only [evidenceOf, humanApprovalsByOwner, List.mem_map, List.mem_filter,
      mem_currentApprovals hids, meet_iff, decide_eq_true_eq]
    constructor
    · rintro ⟨a, ⟨review, ⟨hc, hk⟩, rfl⟩, owner, ho, hi⟩
      exact ⟨review, hc, hk, owner, ho, mem_humanOwnerIdentities.mp hi⟩
    · rintro ⟨review, hc, hk, owner, ho, hi⟩
      exact ⟨_, ⟨review, ⟨hc, hk⟩, rfl⟩, owner, ho, mem_humanOwnerIdentities.mpr hi⟩
  · simp only [evidenceOf, optedInAuthor, meet_iff, authorIdentities, mem_humanOwnerIdentities]
    unfold AuthorApproves
    cases data.repository_policy.allow_author_as_codeowner <;> simp

theorem appCovers_iff {data : EvaluationInput} (hids : (data.reviews.map (·.review_id)).Nodup)
    {policy : CompiledPolicy}
    (hc : compilePolicy data.organization_policy data.repository_policy data.options = .ok policy)
    {owners : List Str} {path : RepositoryPath} :
    AppCovers policy (evidenceOf data policy).approved_apps data.labels owners path ↔
      ApplicationApproves data owners path := by
  obtain ⟨hpat, hdel, -⟩ := compilePolicy_ok hc
  have happ : ∀ app_alias, app_alias ∈ (evidenceOf data policy).approved_apps ↔
      ∃ review, CurrentApproval data review ∧ review.actor.kind = .APPLICATION ∧
        ∃ enrolled, data.organization_policy.apps.get? app_alias = some enrolled ∧
          isEnrolledAs enrolled review.actor = true := by
    intro app_alias
    simp only [evidenceOf, mem_recognizedAppApprovals, mem_currentApprovals hids]
  constructor
  · rintro ⟨hn, d, hd, ha, hcov⟩
    rw [isNonDelegable_eq_false, hpat] at hn
    obtain ⟨review, hr, hk, enrolled, hg, hi⟩ := (happ _).mp ha
    exact ⟨hn, d.rule, (mem_delegations hdel).mpr ⟨d, hd, rfl⟩, hcov, enrolled, hg, review, hr, hk,
      isEnrolledAs_iff.mp hi⟩
  · rintro ⟨hn, rule, hrule, hcov, enrolled, hg, review, hr, hk, hi⟩
    obtain ⟨d, hd, rfl⟩ := (mem_delegations hdel).mp hrule
    refine ⟨by rw [isNonDelegable_eq_false, hpat]; exact hn, d, hd, ?_, hcov⟩
    exact (happ _).mpr ⟨review, hr, hk, enrolled, hg, isEnrolledAs_iff.mpr hi⟩

/-- Owner sets count as sets: sorting them changes nothing. -/
theorem approves_congr {data : EvaluationInput} {owners owners' : List Str}
    (h : ∀ owner, owner ∈ owners ↔ owner ∈ owners') {path : RepositoryPath} :
    (HumanApproves data owners ∨ AuthorApproves data owners ∨ ApplicationApproves data owners path) ↔
      (HumanApproves data owners' ∨ AuthorApproves data owners' ∨
        ApplicationApproves data owners' path) := by
  simp only [HumanApproves, AuthorApproves, ApplicationApproves, covers_congr h, h]

/-- Evaluation succeeds exactly when every changed path, and every previous
path of a rename, is approved on its own. -/
theorem evaluate_success_iff (data : EvaluationInput)
    (hids : (data.reviews.map (·.review_id)).Nodup) :
    (evaluate data).conclusion = .SUCCESS ↔
      data.repository_policy.enabled = true ∧
        ∃ document, parseCodeowners data.codeowners_text = .ok document ∧
          (∃ policy, compilePolicy data.organization_policy data.repository_policy data.options =
            .ok policy) ∧
          ∀ file ∈ data.changed_files, ∀ path, file.path = path ∨ file.previous_path = some path →
            PathApproved data document path := by
  unfold evaluate
  by_cases hen : data.repository_policy.enabled = true
  · simp only [hen, Bool.not_true, Bool.false_eq_true, if_false, true_and]
    cases hd : parseCodeowners data.codeowners_text with
    | error issues => simp [errorResult]
    | ok document =>
      cases hc : compilePolicy data.organization_policy data.repository_policy data.options with
      | error issues => simp [errorResult]
      | ok policy =>
        simp only [evaluateWith_success, mem_evaluationRequirements, Except.ok.injEq, exists_eq',
          exists_eq_left', true_and]
        have happroved : ∀ path, ∀ owners, sortedOwners document path = owners →
            ((HumanCovers (evidenceOf data policy) owners ∨
              AppCovers policy (evidenceOf data policy).approved_apps data.labels owners path) ↔
            (HumanApproves data (document.ownersFor path) ∨
              AuthorApproves data (document.ownersFor path) ∨
              ApplicationApproves data (document.ownersFor path) path)) := by
          rintro path _ rfl
          have hset : ∀ owner, owner ∈ sortedOwners document path ↔ owner ∈ document.ownersFor path :=
            fun owner => mem_sorted
          rw [humanCovers_iff hids, appCovers_iff hids hc, or_assoc, approves_congr hset]
        constructor
        · intro h file hf path hp
          rw [pathApproved_iff]
          intro howned
          have hpath := mem_evaluationPaths.mpr ⟨file, hf, hp⟩
          obtain ⟨ps, hps, hmem⟩ := ownerPaths_exists hpath
            (fun e => howned (sortedOwners_eq_nil.mp e))
          have hs := ownerSetResult_satisfied.mp (h _ ⟨_, ps, hps, rfl⟩)
          exact (happroved path _ rfl).mp (hs.imp_right fun ha => ha path hmem)
        · rintro h r ⟨owners, ps, hps, rfl⟩
          obtain ⟨hne, hpne, hmem⟩ := ownerPaths_entry hps
          rw [ownerSetResult_satisfied]
          by_cases hh : HumanCovers (evidenceOf data policy) owners
          · exact Or.inl hh
          · right
            intro path hp
            obtain ⟨hin, ho⟩ := (hmem path).mp hp
            obtain ⟨file, hf, hpath⟩ := mem_evaluationPaths.mp hin
            have howned : document.ownersFor path ≠ [] := by
              intro e; exact hne (ho ▸ sortedOwners_eq_nil.mpr e)
            have happ := pathApproved_iff.mp (h file hf path hpath) howned
            exact ((happroved path owners ho).mpr happ).resolve_left hh
  · simp [hen, disabledResult]

end

/-! One human approval of one owned path. -/

def sampleOrganization : OrganizationPolicy where
  apps := ∅
  guardrails := ⟨[], by decide, by simp⟩
  at_most := by decide
  identities_are_unique := by simp

def samplePolicy : RepositoryPolicy where
  enabled := true
  allow_author_as_codeowner := false
  allow_delegation_for_policy_file := false
  delegations := []
  at_most := by decide
  delegation_complexity_is_bounded := by decide

def sampleOptions : EvaluationOptions where
  exact_head_reviews := true
  allow_insecure_changes := false
  repository_policy_path := (".github/extra-codeowners.toml" : Str)
  validate_repository_policy_path :=
    ⟨by decide, by decide, by decide, by decide, by decide, List.all_iff_forall_prop.mp (by decide)⟩

def sampleHuman : ReviewActor where
  kind := .HUMAN
  login := ("octo" : Str)
  user_id := 1
  app_id := none
  app_slug := none
  owner_aliases := ∅
  direct_owner_eligible := true
  validate_kind_fields := by decide

def sampleInput : EvaluationInput where
  head_sha := ("c0ffee" : Str)
  codeowners_text := ("* @octo\n" : Str)
  changed_files := [⟨⟨("src/main.py" : Str), by decide⟩, .MODIFIED, none, by decide⟩]
  reviews := [⟨7, sampleHuman, .APPROVED, some ("c0ffee" : Str), 0⟩]
  author := none
  labels := ∅
  organization_policy := sampleOrganization
  repository_policy := samplePolicy
  options := sampleOptions

theorem sampleInput_approved :
    ∃ document, @parseCodeowners asciiText sampleInput.codeowners_text = .ok document ∧
      ∀ file ∈ sampleInput.changed_files, ∀ path, file.path = path ∨ file.previous_path = some path →
        @PathApproved asciiText sampleInput document path := by
  have hs : (@evaluate asciiText sampleInput).conclusion = .SUCCESS := by decide
  obtain ⟨-, document, hd, -, h⟩ := (@evaluate_success_iff asciiText sampleInput (by decide)).mp hs
  exact ⟨document, hd, h⟩

end ExtraCodeowners
