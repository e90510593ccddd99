import ExtraCodeowners.PathSpec

/-!
# Every path is accounted for

The requirements and the unowned paths of an evaluation without errors are a
partition of the changed paths, and each requirement shows its own evidence.
-/

namespace ExtraCodeowners

/-! ## Lists without repetitions -/

theorem nodup_snoc {α} {l : List α} {a : α} (h : l.Nodup) (ha : a ∉ l) : (l ++ [a]).Nodup := by
  rw [← List.concat_eq_append]
  exact h.concat ha

theorem pairwise_sorted (l : List Str) : (sorted l).Pairwise (· ≤ ·) := List.pairwise_insertionSort _ l

theorem strict_sorted {l : List Str} (h : l.Nodup) : (sorted l).Pairwise (· < ·) := by
  have hn : (sorted l).Nodup := (List.perm_insertionSort _ l).nodup_iff.mpr h
  exact ((pairwise_sorted l).and hn).imp fun h => lt_of_le_of_ne h.1 h.2

/-- The owners of a rule are listed once, in the order of their first mention. -/
theorem parseLine_owners [PyText] {line_number : Nat} {raw_line : Str} {rule : CodeownersRule}
    (h : (parseLine line_number raw_line).2 = some rule) : rule.owners.Nodup := by
  unfold parseLine at h
  simp only at h
  split at h
  · cases h
  · split at h
    · cases h
    · split at h
      · cases h
      · split at h
        · cases h
        · cases h
          exact nodup_fromKeys _

theorem parseCodeowners_owners [PyText] {content : Str} {document : CodeownersDocument}
    (h : parseCodeowners content = .ok document) {rule : CodeownersRule} (hr : rule ∈ document.rules) :
    rule.owners.Nodup := by
  unfold parseCodeowners at h
  simp only at h
  split at h
  · cases h
  · split at h
    · cases h
    · cases h
      obtain ⟨l, hl, hrule⟩ := List.mem_filterMap.mp hr
      obtain ⟨line, -, rfl⟩ := List.mem_map.mp hl
      exact parseLine_owners hrule

theorem ownersFor_nodup [PyText] {content : Str} {document : CodeownersDocument}
    (h : parseCodeowners content = .ok document) (path : RepositoryPath) :
    (document.ownersFor path).Nodup := by
  unfold CodeownersDocument.ownersFor
  cases hr : document.ruleFor path with
  | none => exact List.nodup_nil
  | some rule =>
    rw [CodeownersDocument.ruleFor_eq] at hr
    exact parseCodeowners_owners h (List.mem_filter.mp (List.mem_of_getLast? hr)).1

theorem nodup_ownerPaths {document : CodeownersDocument} {paths ps : List RepositoryPath}
    {owners : List Str} (h : (ownerPaths document paths).get? owners = some ps) : ps.Nodup := by
  have key : ∀ (l : List RepositoryPath) (known : Option (List RepositoryPath)), (known.getD []).Nodup →
      ((l.foldl (fun known path => some (if path ∈ known.getD [] then known.getD []
        else known.getD [] ++ [path])) known).getD []).Nodup := by
    intro l
    induction l with
    | nil => exact fun known h => h
    | cons p l ih =>
      intro known h
      rw [List.foldl_cons]
      refine ih _ ?_
      rw [Option.getD_some]
      by_cases hp : p ∈ known.getD []
      · rw [if_pos hp]
        exact h
      · rw [if_neg hp]
        exact nodup_snoc h hp
  unfold ownerPaths at h
  rw [Dict.get?_group] at h
  have hnodup := key ((paths.filter (sortedOwners document · ≠ [])).filter
    (sortedOwners document · = owners)) none List.nodup_nil
  rw [h] at hnodup
  exact hnodup

/-! ## Results without errors -/

section
variable [PyText]

theorem parseCodeowners_error {content : Str} {issues : List CodeownersIssue}
    (h : parseCodeowners content = .error issues) : issues ≠ [] := by
  unfold parseCodeowners at h
  simp only at h
  split at h
  · cases h
    simp
  · split at h
    · rename_i hne
      cases h
      exact hne
    · cases h

theorem compilePolicy_error {organization : OrganizationPolicy} {repository : RepositoryPolicy}
    {options : EvaluationOptions} {issues : List PolicyIssue}
    (h : compilePolicy organization repository options = .error issues) : issues ≠ [] := by
  unfold compilePolicy at h
  simp only at h
  split at h
  · cases h
  · rename_i hne
    cases h
    exact hne

/-- An evaluation either reports errors and denies, or groups the paths. -/
theorem evaluate_cases (data : EvaluationInput) :
    ((evaluate data).errors ≠ [] ∧ (evaluate data).conclusion = .FAILURE ∧
        (evaluate data).requirements = [] ∧ (evaluate data).unowned_paths = []) ∨
      ∃ document policy, data.repository_policy.enabled = true ∧
        parseCodeowners data.codeowners_text = .ok document ∧
        compilePolicy data.organization_policy data.repository_policy data.options = .ok policy ∧
        evaluate data = evaluateWith data document policy := by
  unfold evaluate
  by_cases hen : data.repository_policy.enabled = true
  · simp only [hen, Bool.not_true, Bool.false_eq_true, if_false]
    cases hd : parseCodeowners data.codeowners_text with
    | error issues =>
      left
      exact ⟨by simpa [errorResult] using parseCodeowners_error hd, rfl, rfl, rfl⟩
    | ok document =>
      cases hc : compilePolicy data.organization_policy data.repository_policy data.options with
      | error issues =>
        left
        exact ⟨by simpa [errorResult] using compilePolicy_error hc, rfl, rfl, rfl⟩
      | ok policy => exact Or.inr ⟨document, policy, trivial, rfl, rfl, rfl⟩
  · left
    simp [hen, disabledResult]

theorem evaluateWith_fields (data : EvaluationInput) (document : CodeownersDocument)
    (policy : CompiledPolicy) :
    (evaluateWith data document policy).requirements = evaluationRequirements data document policy ∧
      (evaluateWith data document policy).errors = [] ∧
      (evaluateWith data document policy).unowned_paths =
        (evaluationPaths data).filter (sortedOwners document · = []) := by
  unfold evaluateWith
  simp only
  split
  · exact ⟨rfl, rfl, rfl⟩
  · split <;> exact ⟨rfl, rfl, rfl⟩

/-! ## The partition -/

theorem requirements_paths (data : EvaluationInput) (document : CodeownersDocument)
    (policy : CompiledPolicy) :
    (evaluationRequirements data document policy).flatMap (·.paths) =
      (ownerPaths document (evaluationPaths data)).entries.flatMap Prod.snd := by
  unfold evaluationRequirements
  rw [List.flatMap_map]
  exact List.flatMap_congr fun e _ => (ownerSetResult_fields _ e.1 e.2).2

theorem requirements_owners (data : EvaluationInput) (document : CodeownersDocument)
    (policy : CompiledPolicy) :
    (evaluationRequirements data document policy).map (·.owners) =
      (ownerPaths document (evaluationPaths data)).keys := by
  unfold evaluationRequirements Dict.keys
  rw [List.map_map]
  exact List.map_congr_left fun e _ => (ownerSetResult_fields _ e.1 e.2).1

theorem mem_requirements_paths {data : EvaluationInput} {document : CodeownersDocument}
    {policy : CompiledPolicy} {path : RepositoryPath} :
    path ∈ (evaluationRequirements data document policy).flatMap (·.paths) ↔
      path ∈ evaluationPaths data ∧ sortedOwners document path ≠ [] := by
  rw [requirements_paths, List.mem_flatMap]
  constructor
  · rintro ⟨⟨owners, ps⟩, he, hp⟩
    obtain ⟨hne, -, hmem⟩ := ownerPaths_entry (Dict.get?_eq_some.mpr he)
    obtain ⟨hpath, rfl⟩ := (hmem path).mp hp
    exact ⟨hpath, hne⟩
  · rintro ⟨hpath, hne⟩
    obtain ⟨ps, hps, hp⟩ := ownerPaths_exists hpath hne
    exact ⟨(_, ps), Dict.get?_eq_some.mp hps, hp⟩

theorem nodup_requirements_paths (data : EvaluationInput) (document : CodeownersDocument)
    (policy : CompiledPolicy) :
    ((evaluationRequirements data document policy).flatMap (·.paths)).Nodup := by
  rw [requirements_paths, List.nodup_flatMap]
  constructor
  · rintro ⟨owners, ps⟩ he
    exact nodup_ownerPaths (Dict.get?_eq_some.mpr he)
  · have hkeys := (ownerPaths document (evaluationPaths data)).nodup
    rw [List.nodup_iff_pairwise_ne, List.pairwise_map] at hkeys
    refine hkeys.imp_of_mem ?_
    rintro ⟨owners, ps⟩ ⟨owners', ps'⟩ he he' hne path hp hp'
    -- a path of both groups has both owner sets
    have ho := (((ownerPaths_entry (Dict.get?_eq_some.mpr he)).2.2 path).mp hp).2
    have ho' := (((ownerPaths_entry (Dict.get?_eq_some.mpr he')).2.2 path).mp hp').2
    exact hne (ho.symm.trans ho')

/-! ## One requirement -/

theorem ownerSetResult_evidence (evidence : Evidence) (owners : List Str) (paths : List RepositoryPath) :
    (ownerSetResult evidence owners paths).path_evidence.map (·.path) = paths := by
  have happ : ∀ path, (appPathEvidence evidence.policy evidence.approved_apps evidence.labels owners
      path).path = path := by
    intro path
    unfold appPathEvidence
    split <;> rfl
  unfold ownerSetResult
  split
  · exact (List.map_map ..).trans (List.map_id _)
  · split
    · exact (List.map_map ..).trans (List.map_id _)
    · unfold appResult
      simp only
      split <;>
      · rw [List.map_map]
        exact (List.map_congr_left fun path _ => happ path).trans (List.map_id _)

/-- Whoever satisfies a requirement is named, and nobody else is. -/
theorem ownerSetResult_satisfied_by (evidence : Evidence) (owners : List Str)
    {paths : List RepositoryPath} (hp : paths ≠ []) :
    (ownerSetResult evidence owners paths).satisfied = true ↔
      (ownerSetResult evidence owners paths).satisfied_by ≠ [] := by
  unfold ownerSetResult
  split
  · simp [humanResult]
  · split
    · simp [authorResult]
    · unfold appResult
      simp only
      split
      · rename_i hall
        obtain ⟨path, hpath⟩ := List.exists_mem_of_ne_nil paths hp
        have hmem : appPathEvidence evidence.policy evidence.approved_apps evidence.labels owners path ∈
            paths.map (appPathEvidence evidence.policy evidence.approved_apps evidence.labels owners) :=
          List.mem_map_of_mem hpath
        have hne := List.all_eq_true.mp hall _ hmem
        simp only [Bool.not_eq_true', List.isEmpty_eq_false_iff] at hne
        obtain ⟨app_alias, happ⟩ := List.exists_mem_of_ne_nil _ hne
        simp only [true_iff, ne_eq, List.map_eq_nil_iff]
        have hby := mem_sorted.mpr (mem_fromKeys.mpr (List.mem_flatMap.mpr ⟨_, hmem, happ⟩))
        exact List.ne_nil_of_mem hby
      · simp

/-! ## The account -/

/-- What a result says about the changed paths of its input. -/
structure AccountsFor (data : EvaluationInput) (result : EvaluationResult) : Prop where
  once : (result.requirements.flatMap (·.paths) ++ result.unowned_paths).Nodup
  exactly : ∀ path, path ∈ result.requirements.flatMap (·.paths) ++ result.unowned_paths ↔
    ∃ file ∈ data.changed_files, file.path = path ∨ file.previous_path = some path
  owners : ∀ r ∈ result.requirements, r.owners ≠ [] ∧ r.owners.Pairwise (· < ·)
  distinct : (result.requirements.map (·.owners)).Nodup
  evidence : ∀ r ∈ result.requirements, r.path_evidence.map (·.path) = r.paths
  satisfied : ∀ r ∈ result.requirements, r.satisfied = true ↔ r.satisfied_by ≠ []
  conclusion : result.conclusion = .SUCCESS ↔ ∀ r ∈ result.requirements, r.satisfied = true

/-- A result without errors accounts for every changed path and every previous
path of a rename. -/
theorem evaluate_accounts (data : EvaluationInput) (h : (evaluate data).errors = []) :
    AccountsFor data (evaluate data) := by
  rcases evaluate_cases data with ⟨hne, -⟩ | ⟨document, policy, -, hd, -, he⟩
  · exact absurd h hne
  rw [he]
  obtain ⟨hreq, -, hunowned⟩ := evaluateWith_fields data document policy
  have hentry : ∀ r ∈ evaluationRequirements data document policy, ∃ owners ps,
      (ownerPaths document (evaluationPaths data)).get? owners = some ps ∧
        r = ownerSetResult (evidenceOf data policy) owners ps :=
    fun r hr => mem_evaluationRequirements.mp hr
  refine ⟨?_, ?_, ?_, ?_, ?_, ?_, ?_⟩
  · rw [hreq, hunowned]
    refine List.nodup_append.mpr ⟨nodup_requirements_paths data document policy,
      (nodup_fromKeys _).filter _, ?_⟩
    rintro path hp _ hp' rfl
    have hnil : sortedOwners document path = [] := by simpa using (List.mem_filter.mp hp').2
    exact (mem_requirements_paths.mp hp).2 hnil
  · intro path
    rw [hreq, hunowned, List.mem_append, mem_requirements_paths, ← mem_evaluationPaths, List.mem_filter,
      decide_eq_true_eq]
    by_cases hnil : sortedOwners document path = [] <;> simp [hnil]
  · intro r hr
    obtain ⟨owners, ps, hps, rfl⟩ := hentry r (hreq ▸ hr)
    obtain ⟨hne, hpne, hmem⟩ := ownerPaths_entry hps
    rw [(ownerSetResult_fields _ owners ps).1]
    refine ⟨hne, ?_⟩
    obtain ⟨path, hpath⟩ := List.exists_mem_of_ne_nil ps hpne
    obtain ⟨-, rfl⟩ := (hmem path).mp hpath
    exact strict_sorted (ownersFor_nodup hd path)
  · rw [hreq, requirements_owners]
    exact (ownerPaths document (evaluationPaths data)).nodup
  · intro r hr
    obtain ⟨owners, ps, hps, rfl⟩ := hentry r (hreq ▸ hr)
    rw [ownerSetResult_evidence, (ownerSetResult_fields _ owners ps).2]
  · intro r hr
    obtain ⟨owners, ps, hps, rfl⟩ := hentry r (hreq ▸ hr)
    exact ownerSetResult_satisfied_by _ owners (ownerPaths_entry hps).2.1
  · rw [hreq]
    exact evaluateWith_success

end

theorem sampleInput_accounts :
    (@evaluate asciiText sampleInput).errors = [] ∧
      AccountsFor sampleInput (@evaluate asciiText sampleInput) :=
  ⟨by decide, @evaluate_accounts asciiText sampleInput (by decide)⟩

end ExtraCodeowners
