import ExtraCodeowners.Dco

/-!
# What passes the DCO decision

The loop over the parents ends for every parent relation and finds what the
head reaches in range. So the decision passes exactly for complete evidence
in which every parent in range is listed in front of its commit.
-/

namespace ExtraCodeowners.Dco

/-! ## Conditions on the evidence -/

/-- `b` is a parent of the commit `a`, and both are listed. -/
def ParentInRange (commits : List CommitEvidence) (a b : Str) : Prop :=
  ∃ commit ∈ commits, commit.sha = a ∧ b ∈ commit.parents ∧ b ∈ commits.map CommitEvidence.sha

def Reaches (commits : List CommitEvidence) : Str → Str → Prop :=
  Relation.ReflTransGen (ParentInRange commits)

structure OfficialPull (pull : PullRequestSnapshot) : Prop where
  login : pull.author.login = DEPENDABOT_AUTHOR_LOGIN
  id : pull.author.id = DEPENDABOT_AUTHOR_ID
  type : pull.author.type = DEPENDABOT_AUTHOR_TYPE
  base : pull.base_repository.id = pull.repository.id
  head : pull.head_repository.id = pull.repository.id
  branch : ("dependabot/" : Str) <+: pull.head_ref
  single : pull.commit_count = 1

structure OfficialSignature (verification : CommitVerification) : Prop where
  valid : verification.is_valid = true
  state : verification.state = ("VALID" : Str)
  verified_at : ∃ time, verification.verified_at = some time ∧ time ≠ []
  github : verification.was_signed_by_github = true
  signer : verification.signer = some ⟨DEPENDABOT_COMMITTER_LOGIN, DEPENDABOT_COMMITTER_ID⟩

structure OfficialCommit (commit : CommitEvidence) (pull : PullRequestSnapshot) : Prop where
  sha : commit.sha = pull.head_sha
  parents : commit.parents = [pull.base_sha]
  github_author : commit.github_author = some ⟨DEPENDABOT_AUTHOR_LOGIN, DEPENDABOT_AUTHOR_ID⟩
  author : commit.author = ⟨DEPENDABOT_AUTHOR_LOGIN, DEPENDABOT_AUTHOR_EMAIL⟩
  committer : commit.committer = ⟨DEPENDABOT_COMMITTER_NAME, DEPENDABOT_COMMITTER_EMAIL⟩
  signature : ∃ verification, commit.verification = some verification ∧ OfficialSignature verification
  signoff : commit.dependabot_signoff_present = true

/-- The author signed off, or the commit is the only one of an official
Dependabot pull request. -/
def SignedOff (evidence : DcoEvidenceInput) (commit : CommitEvidence) : Prop :=
  commit.author_signoff_present = true ∨
    OfficialPull evidence.event ∧ evidence.commits = [commit] ∧ OfficialCommit commit evidence.event

/-- Everything the decision asks for but the order of the list. -/
structure Complete (evidence : DcoEvidenceInput) : Prop where
  isOpen : evidence.event.state = .open
  before : evidence.before = evidence.event
  after : evidence.after = evidence.event
  repository : evidence.comparison.repository = evidence.event.repository
  number : evidence.comparison.pull_number = evidence.event.number
  base : evidence.comparison.base_sha = evidence.event.base_sha
  head : evidence.comparison.head_sha = evidence.event.head_sha
  base_commit : evidence.comparison.base_commit_sha = evidence.event.base_sha
  total_commits : evidence.comparison.total_commits = evidence.event.commit_count
  ahead_by : evidence.comparison.ahead_by = evidence.event.commit_count
  listed : evidence.comparison.commits.length = evidence.event.commit_count
  detailed : evidence.commits.length = evidence.event.commit_count
  distinct : (evidence.comparison.commits.map PullCommit.sha).Nodup
  last : (evidence.comparison.commits.map PullCommit.sha).getLast? = some evidence.event.head_sha
  same : evidence.commits.map CommitEvidence.sha = evidence.comparison.commits.map PullCommit.sha
  reached : ∀ commit ∈ evidence.commits, Reaches evidence.commits evidence.event.head_sha commit.sha
  signed : ∀ commit ∈ evidence.commits, SignedOff evidence commit

/-- Every parent in range is listed in front of its commit. -/
def ParentsFirst (commits : List CommitEvidence) : Prop :=
  ∀ (i j : Nat) (commit parent : CommitEvidence), commits[i]? = some commit →
    commits[j]? = some parent → parent.sha ∈ commit.parents → j < i

/-- No commit is listed in front of one of its parents in range. -/
def NoneBeforeParent (commits : List CommitEvidence) : Prop :=
  ∀ (i j : Nat) (commit parent : CommitEvidence), commits[i]? = some commit →
    commits[j]? = some parent → parent.sha ∈ commit.parents → ¬ i < j

/-! ## Lookups by SHA -/

theorem bySha_some {commits : List CommitEvidence} {sha : Str} {commit : CommitEvidence}
    (h : bySha commits sha = some commit) : commit ∈ commits ∧ commit.sha = sha := by
  refine ⟨List.mem_reverse.mp (List.mem_of_find?_eq_some h), ?_⟩
  simpa using List.find?_some h

theorem bySha_isSome {commits : List CommitEvidence} {sha : Str} :
    (bySha commits sha).isSome = true ↔ sha ∈ commits.map CommitEvidence.sha := by
  rw [bySha, List.find?_isSome]
  simp

theorem bySha_mem {commits : List CommitEvidence} (hn : (commits.map CommitEvidence.sha).Nodup)
    {commit : CommitEvidence} (h : commit ∈ commits) : bySha commits commit.sha = some commit := by
  obtain ⟨other, ho⟩ := Option.isSome_iff_exists.mp (bySha_isSome.mpr (List.mem_map_of_mem h))
  obtain ⟨hmem, hsha⟩ := bySha_some ho
  rw [ho, List.inj_on_of_nodup_map hn hmem h hsha]

theorem mem_parentsInRange {commits : List CommitEvidence}
    (hn : (commits.map CommitEvidence.sha).Nodup) {a b : Str} :
    b ∈ parentsInRange commits a ↔ ParentInRange commits a b := by
  unfold parentsInRange ParentInRange
  constructor
  · intro h
    cases hc : bySha commits a with
    | none =>
      rw [hc] at h
      cases h
    | some commit =>
      rw [hc] at h
      obtain ⟨hb, hin⟩ := List.mem_filter.mp h
      obtain ⟨hmem, hsha⟩ := bySha_some hc
      exact ⟨commit, hmem, hsha, hb, bySha_isSome.mp hin⟩
  · intro ⟨commit, hmem, hsha, hb, hin⟩
    rw [← hsha, bySha_mem hn hmem]
    exact List.mem_filter.mpr ⟨hb, bySha_isSome.mpr hin⟩

theorem positionOf_eq {shas : List Str} (hn : shas.Nodup) {sha : Str} {j : Nat} :
    positionOf shas sha = some j ↔ shas[j]? = some sha := by
  have hfound : ∀ k, positionOf shas sha = some k → shas[k]? = some sha := by
    intro k hk
    obtain ⟨item, hitem, rfl⟩ := Option.map_eq_some_iff.mp hk
    have hmem := List.mem_reverse.mp (List.mem_of_find?_eq_some hitem)
    have hsha : item.1 = sha := by simpa using List.find?_some hitem
    rw [← hsha]
    exact List.mem_zipIdx_iff_getElem?.mp hmem
  constructor
  · exact hfound j
  · intro hj
    have hsome : (positionOf shas sha).isSome = true := by
      rw [positionOf, Option.isSome_map, List.find?_isSome]
      exact ⟨(sha, j), List.mem_reverse.mpr (List.mem_zipIdx_iff_getElem?.mpr hj), by simp⟩
    obtain ⟨k, hk⟩ := Option.isSome_iff_exists.mp hsome
    obtain ⟨hlt, -⟩ := List.getElem?_eq_some_iff.mp hj
    rw [hk, (List.getElem?_inj hlt hn).mp (hj.trans (hfound k hk).symm)]

/-! ## The loop over the parents -/

/-- The loop ends for every parent relation and every listed head. -/
theorem reachableFrom_isSome (commits : List CommitEvidence) {head : Str}
    (h : head ∈ commits.map CommitEvidence.sha) : ∃ found, reachableFrom commits head = some found := by
  refine Worklist.search_isSome (commits.map CommitEvidence.sha) ?_
    (Worklist.Inv.start _ head) ?_ ?_
  · intro a _ b hb
    unfold parentsInRange at hb
    cases hc : bySha commits a with
    | none =>
      rw [hc] at hb
      cases hb
    | some commit =>
      rw [hc] at hb
      exact bySha_isSome.mp (List.mem_filter.mp hb).2
  · intro a ha
    rw [List.mem_singleton.mp ha]
    exact h
  · simp only [List.length_cons, List.length_nil, List.length_map]
    omega

theorem mem_reachableFrom {commits : List CommitEvidence}
    (hn : (commits.map CommitEvidence.sha).Nodup) {head : Str} {found : List Str}
    (h : reachableFrom commits head = some found) {sha : Str} :
    sha ∈ found ↔ Reaches commits head sha := by
  have he : (fun a b => b ∈ parentsInRange commits a) = ParentInRange commits := by
    funext a b
    exact propext (mem_parentsInRange hn)
  rw [Worklist.mem_search h, he]
  rfl

theorem Reaches.listed {commits : List CommitEvidence} {head sha : Str}
    (hhead : head ∈ commits.map CommitEvidence.sha) (h : Reaches commits head sha) :
    sha ∈ commits.map CommitEvidence.sha := by
  cases h with
  | refl => exact hhead
  | tail _ hp =>
    obtain ⟨-, -, -, -, hin⟩ := hp
    exact hin

/-! ## The order of the list -/

theorem zip_agrees {commits : List CommitEvidence} {shas : List Str}
    (h : commits.length = shas.length) :
    (commits.zip shas).any (fun (commit, expected) => commit.sha ≠ expected) = false ↔
      commits.map CommitEvidence.sha = shas := by
  induction commits generalizing shas with
  | nil =>
    cases shas with
    | nil => simp
    | cons sha shas => cases h
  | cons commit commits ih =>
    cases shas with
    | nil => cases h
    | cons sha shas =>
      rw [List.zip_cons_cons, List.any_cons, Bool.or_eq_false_iff, List.map_cons, List.cons.injEq,
        ih (Nat.succ.inj h)]
      simp

theorem parents_agree {commits : List CommitEvidence}
    (hn : (commits.map CommitEvidence.sha).Nodup) :
    (commits.zipIdx.any fun (commit, index) => commit.parents.any fun parent =>
      (positionOf (commits.map CommitEvidence.sha) parent).any (index ≤ ·)) = false ↔
      ParentsFirst commits := by
  rw [List.any_eq_false]
  constructor
  · intro h i j commit parent hi hj hp
    have hpos : positionOf (commits.map CommitEvidence.sha) parent.sha = some j := by
      rw [positionOf_eq hn, List.getElem?_map, hj]
      rfl
    by_contra hlt
    refine h (commit, i) (List.mem_zipIdx_iff_getElem?.mpr hi) (List.any_eq_true.mpr ⟨_, hp, ?_⟩)
    simpa [hpos] using hlt
  · intro h item hitem hany
    obtain ⟨parent, hp, hpos⟩ := List.any_eq_true.mp hany
    obtain ⟨j, hj, hle⟩ := (Option.any_eq_true _ _).mp hpos
    have hget := (positionOf_eq hn).mp hj
    rw [List.getElem?_map] at hget
    obtain ⟨other, ho, hsha⟩ := Option.map_eq_some_iff.mp hget
    have hlt := h item.2 j item.1 other (List.mem_zipIdx_iff_getElem?.mp hitem) ho (hsha ▸ hp)
    simp only [decide_eq_true_eq] at hle
    omega

theorem commitOrderIsValid_iff {pull_commits : List PullCommit} {commits : List CommitEvidence}
    (hlength : commits.length = pull_commits.length)
    (hn : (pull_commits.map PullCommit.sha).Nodup) {head : Str}
    (hlast : (pull_commits.map PullCommit.sha).getLast? = some head) :
    commitOrderIsValid pull_commits commits = true ↔
      commits.map CommitEvidence.sha = pull_commits.map PullCommit.sha ∧ ParentsFirst commits ∧
        ∀ commit ∈ commits, Reaches commits head commit.sha := by
  unfold commitOrderIsValid
  have hlengths : commits.length = (pull_commits.map PullCommit.sha).length := by simpa using hlength
  by_cases hsame : commits.map CommitEvidence.sha = pull_commits.map PullCommit.sha
  · have hzip := (zip_agrees hlengths).mpr hsame
    rw [← hsame] at hn hlast hzip ⊢
    simp only [hzip, Bool.false_eq_true, if_false]
    by_cases hfirst : ParentsFirst commits
    · have hparents := (parents_agree hn).mpr hfirst
      have hhead : head ∈ commits.map CommitEvidence.sha := List.mem_of_mem_getLast? hlast
      obtain ⟨found, hfound⟩ := reachableFrom_isSome commits hhead
      have hmem : ∀ sha, sha ∈ found ↔ Reaches commits head sha := fun _ => mem_reachableFrom hn hfound
      simp only [hparents, Bool.false_eq_true, if_false, hlast, Option.bind_some, hfound,
        Bool.and_eq_true, List.all_eq_true, decide_eq_true_eq, hmem, List.forall_mem_map, true_and]
      constructor
      · intro h
        exact ⟨hfirst, h.2⟩
      · intro h
        exact ⟨fun sha hr => Reaches.listed hhead hr, h.2⟩
    · have hparents := mt (parents_agree hn).mp hfirst
      rw [Bool.not_eq_false] at hparents
      simp [hparents, hfirst]
  · have hzip := mt (zip_agrees hlengths).mp hsame
    rw [Bool.not_eq_false] at hzip
    simp only [hzip, if_true, Bool.false_eq_true, hsame, false_and]

/-! ## The outcome of one commit -/

theorem isOfficialDependabotPull_iff {pull : PullRequestSnapshot} :
    isOfficialDependabotPull pull = true ↔ OfficialPull pull := by
  simp only [isOfficialDependabotPull, Bool.and_eq_true, decide_eq_true_eq, List.isPrefixOf_iff_prefix]
  constructor
  · intro ⟨⟨⟨⟨⟨⟨h₁, h₂⟩, h₃⟩, h₄⟩, h₅⟩, h₆⟩, h₇⟩
    exact ⟨h₁, h₂, h₃, h₄, h₅, h₆, h₇⟩
  · intro ⟨h₁, h₂, h₃, h₄, h₅, h₆, h₇⟩
    exact ⟨⟨⟨⟨⟨⟨h₁, h₂⟩, h₃⟩, h₄⟩, h₅⟩, h₆⟩, h₇⟩

theorem isOfficialDependabotCommit_iff {commit : CommitEvidence} {pull : PullRequestSnapshot} :
    isOfficialDependabotCommit commit pull = true ↔ OfficialCommit commit pull := by
  unfold isOfficialDependabotCommit
  cases hv : commit.verification with
  | none =>
    simp only [Bool.false_eq_true, false_iff]
    intro h
    obtain ⟨verification, hs, -⟩ := h.signature
    rw [hv] at hs
    cases hs
  | some verification =>
    simp only [Bool.and_eq_true, decide_eq_true_eq]
    constructor
    · intro ⟨⟨⟨⟨⟨⟨⟨⟨⟨⟨h₁, h₂⟩, h₃⟩, h₄⟩, h₅⟩, h₆⟩, h₇⟩, h₈⟩, h₉⟩, h₁₀⟩, h₁₁⟩
      obtain ⟨time, htime, hne⟩ := (Option.any_eq_true _ _).mp h₈
      exact ⟨h₁, h₂, h₃, h₄, h₅, ⟨verification, hv, h₆, h₇, ⟨time, htime, by simpa using hne⟩, h₉, h₁₀⟩, h₁₁⟩
    · intro ⟨h₁, h₂, h₃, h₄, h₅, ⟨signature, hs, h₆, h₇, ⟨time, htime, hne⟩, h₉, h₁₀⟩, h₁₁⟩
      rw [hv] at hs
      cases hs
      refine ⟨⟨⟨⟨⟨⟨⟨⟨⟨⟨h₁, h₂⟩, h₃⟩, h₄⟩, h₅⟩, h₆⟩, h₇⟩, ?_⟩, h₉⟩, h₁₀⟩, h₁₁⟩
      simp [htime, hne]

/-- A commit of a pull request with that many commits counts as signed exactly
when the result says so. -/
theorem commitResult_signed {evidence : DcoEvidenceInput}
    (hcount : evidence.commits.length = evidence.event.commit_count) {commit : CommitEvidence}
    (h : commit ∈ evidence.commits) :
    (commitResult evidence.event commit).outcome ≠ .MISSING_SIGNOFF ↔ SignedOff evidence commit := by
  unfold commitResult SignedOff
  by_cases hauthor : commit.author_signoff_present = true
  · simp [hauthor]
  · simp only [hauthor, Bool.false_eq_true, if_false, false_or]
    by_cases hofficial : (isOfficialDependabotPull evidence.event &&
        isOfficialDependabotCommit commit evidence.event) = true
    · rw [if_pos hofficial]
      obtain ⟨hpull, hcommit⟩ := Bool.and_eq_true_iff.mp hofficial
      have hp := isOfficialDependabotPull_iff.mp hpull
      obtain ⟨only, honly⟩ := List.length_eq_one_iff.mp (hcount.trans hp.single)
      rw [honly, List.mem_singleton] at h
      subst h
      simp [hp, honly, isOfficialDependabotCommit_iff.mp hcommit]
    · rw [if_neg hofficial]
      simp only [ne_eq, not_true_eq_false, false_iff]
      intro h
      obtain ⟨hp, -, hc⟩ := h
      exact hofficial (Bool.and_eq_true_iff.mpr
        ⟨isOfficialDependabotPull_iff.mpr hp, isOfficialDependabotCommit_iff.mpr hc⟩)

/-! ## The decision -/

theorem evaluateDco_passed (evidence : DcoEvidenceInput) :
    (evaluateDco evidence).passed = true ↔ Complete evidence ∧ ParentsFirst evidence.commits := by
  constructor
  · intro h
    simp only [evaluateDco] at h
    split_ifs at h with h₁ h₂ h₃ h₄ h₅ h₆ h₇ h₈ <;> try cases h
    simp only [ne_eq, not_or, not_not] at h₁ h₂ h₃ h₄ h₅ h₆ h₇
    have horder := (commitOrderIsValid_iff (h₄.2.2.2.trans h₄.2.2.1.symm) h₅ h₆).mp h₇
    refine ⟨⟨h₁, h₂.1, h₂.2, h₃.1, h₃.2.1, h₃.2.2.1, h₃.2.2.2.1, h₃.2.2.2.2, h₄.1, h₄.2.1, h₄.2.2.1,
      h₄.2.2.2, h₅, h₆, horder.1, horder.2.2, ?_⟩, horder.2.1⟩
    intro commit hc
    refine (commitResult_signed h₄.2.2.2 hc).mp fun hm => h₈ ⟨_, List.mem_map_of_mem hc, hm⟩
  · intro ⟨h, hfirst⟩
    have horder := (commitOrderIsValid_iff (h.detailed.trans h.listed.symm) h.distinct h.last).mpr
      ⟨h.same, hfirst, h.reached⟩
    have hsigned : ¬ ∃ result ∈ evidence.commits.map (commitResult evidence.event),
        result.outcome = .MISSING_SIGNOFF := by
      intro ⟨result, hr, hm⟩
      obtain ⟨commit, hc, rfl⟩ := List.mem_map.mp hr
      exact (commitResult_signed h.detailed hc).mpr (h.signed commit hc) hm
    unfold evaluateDco
    simp only [h.isOpen, h.before, h.after, h.repository, h.number, h.base, h.head, h.base_commit,
      h.total_commits, h.ahead_by, h.listed, h.detailed, h.distinct, h.last, horder]
    rw [if_neg (by simp), if_neg (by simp), if_neg (by simp), if_neg (by simp), if_neg (by simp),
      if_neg (by simp), if_neg (by simp), dif_neg hsigned]

/-- The decision passes exactly for complete evidence with the parents first,
and its loop ends whatever the parents are. -/
theorem evaluateDco_exact :
    (∀ evidence : DcoEvidenceInput,
      (evaluateDco evidence).passed = true ↔ Complete evidence ∧ ParentsFirst evidence.commits) ∧
    ∀ (commits : List CommitEvidence) (head : Str), head ∈ commits.map CommitEvidence.sha →
      ∃ found, reachableFrom commits head = some found :=
  ⟨evaluateDco_passed, fun commits _ h => reachableFrom_isSome commits h⟩

/-! ## A commit that is its own parent -/

def sampleSha : Str := List.replicate 40 'a'

def sampleCommit (parents : List Str) : CommitEvidence where
  sha := sampleSha
  parents := parents
  author := ⟨['a'], ['b']⟩
  committer := ⟨['a'], ['b']⟩
  author_signoff_present := true
  dependabot_signoff_present := false
  github_author := none
  verification := none

def sampleRepository : RepositoryIdentity := ⟨1, ("a/b" : Str)⟩

def samplePull : PullRequestSnapshot where
  number := 1
  state := .open
  repository := sampleRepository
  base_repository := sampleRepository
  base_ref := ("main" : Str)
  base_sha := List.replicate 40 'b'
  head_repository := sampleRepository
  head_ref := ("topic" : Str)
  head_sha := sampleSha
  author := ⟨['a'], 1, ("User" : Str)⟩
  commit_count := 1
  commit_count_bound := ⟨Nat.one_pos, by rw [MAX_PULL_COMMITS]; omega⟩

def sampleEvidence (parents : List Str) : DcoEvidenceInput where
  event := samplePull
  before := samplePull
  after := samplePull
  comparison := ⟨sampleRepository, 1, List.replicate 40 'b', sampleSha, List.replicate 40 'b', 1, 1,
    [⟨sampleSha, ['n']⟩]⟩
  commits := [sampleCommit parents]

/-- The loop ends on a commit that is its own parent. -/
theorem ownParent_search : ∃ found, reachableFrom [sampleCommit [sampleSha]] sampleSha = some found :=
  evaluateDco_exact.2 [sampleCommit [sampleSha]] sampleSha (by simp [sampleCommit])

theorem ownParent_complete : Complete (sampleEvidence [sampleSha]) where
  isOpen := rfl
  before := rfl
  after := rfl
  repository := rfl
  number := rfl
  base := rfl
  head := rfl
  base_commit := rfl
  total_commits := rfl
  ahead_by := rfl
  listed := rfl
  detailed := rfl
  distinct := List.nodup_singleton _
  last := rfl
  same := rfl
  reached := by
    intro commit hc
    rw [List.mem_singleton.mp hc]
    exact .refl
  signed := by
    intro commit hc
    rw [List.mem_singleton.mp hc]
    exact .inl rfl

/-- It is not listed in front of itself, and still the evidence is rejected. -/
theorem ownParent_rejected : ¬ ∀ evidence : DcoEvidenceInput,
    (evaluateDco evidence).passed = true ↔ Complete evidence ∧ NoneBeforeParent evidence.commits := by
  intro h
  have hnone : NoneBeforeParent (sampleEvidence [sampleSha]).commits := by
    intro i j commit parent hi hj _
    obtain ⟨hi, -⟩ := List.getElem?_eq_some_iff.mp hi
    obtain ⟨hj, -⟩ := List.getElem?_eq_some_iff.mp hj
    simp only [sampleEvidence, List.length_singleton] at hi hj
    omega
  have hpassed := (evaluateDco_passed _).mp ((h _).mpr ⟨ownParent_complete, hnone⟩)
  have := hpassed.2 0 0 (sampleCommit [sampleSha]) (sampleCommit [sampleSha]) rfl rfl
    (List.mem_singleton_self _)
  omega

end ExtraCodeowners.Dco
