import ExtraCodeowners.AuthorityOrder

/-!
# Passes over authority rows

A pass over an authority row works through the pages of a listing, over any
number of claims. The checkpoint on the row says how far it came, and every page
before the checkpoint has been committed with what it asked for.
-/

namespace ExtraCodeowners

open System Worker

/-! ## The checkpoint of a row -/

def AuthorityJob.membershipPosition (row : AuthorityJob) : Nat × Option Nat :=
  (row.membership_next_page, row.membership_expected_total)

/-- Neither the checkpoint nor the scope of a row changes; nor do its targets,
once a page is behind it. -/
structure SameProgress (row row' : AuthorityJob) : Prop where
  installation_id : row'.installation_id = row.installation_id
  scope_key : row'.scope_key = row.scope_key
  targets : row.listing_next_page ≠ 1 → row'.target_base_refs = row.target_base_refs
  next_page : row'.listing_next_page = row.listing_next_page
  last_number : row'.listing_last_number = row.listing_last_number
  expected_total : row'.listing_expected_total = row.listing_expected_total
  fingerprints : row'.handled_pull_fingerprints = row.handled_pull_fingerprints
  membership : row'.membershipPosition = row.membershipPosition

theorem SameProgress.of_eq {row row' : AuthorityJob} (hi : row'.installation_id = row.installation_id)
    (hs : row'.scope_key = row.scope_key) (ht : row'.target_base_refs = row.target_base_refs)
    (hn : row'.listing_next_page = row.listing_next_page) (hl : row'.listing_last_number = row.listing_last_number)
    (he : row'.listing_expected_total = row.listing_expected_total)
    (hf : row'.handled_pull_fingerprints = row.handled_pull_fingerprints)
    (hm : row'.membershipPosition = row.membershipPosition) : SameProgress row row' :=
  ⟨hi, hs, fun _ => ht, hn, hl, he, hf, hm⟩

theorem SameProgress.refl (row : AuthorityJob) : SameProgress row row := .of_eq rfl rfl rfl rfl rfl rfl rfl rfl

theorem SameProgress.trans {a b c : AuthorityJob} (h₁ : SameProgress a b) (h₂ : SameProgress b c) :
    SameProgress a c := by
  refine ⟨h₂.installation_id.trans h₁.installation_id, h₂.scope_key.trans h₁.scope_key, fun hn => ?_,
    h₂.next_page.trans h₁.next_page, h₂.last_number.trans h₁.last_number,
    h₂.expected_total.trans h₁.expected_total, h₂.fingerprints.trans h₁.fingerprints,
    h₂.membership.trans h₁.membership⟩
  exact (h₂.targets (h₁.next_page ▸ hn)).trans (h₁.targets hn)

theorem sameProgress_coalesced (now : Time) (request : AuthorityRequest) (row : AuthorityJob) :
    SameProgress row (coalescedAuthorityJob now request row) := by
  unfold coalescedAuthorityJob
  simp only
  by_cases hu : row.unstarted = true
  · rw [if_pos hu]
    have hfirst : row.listing_next_page = 1 := by
      simp only [AuthorityJob.unstarted, Bool.and_eq_true, decide_eq_true_eq] at hu
      exact hu.1.1.2
    exact ⟨rfl, rfl, fun hn => absurd hfirst hn, rfl, rfl, rfl, rfl, rfl⟩
  · rw [if_neg hu]
    split
    · exact .of_eq rfl rfl rfl rfl rfl rfl rfl rfl
    · split
      · exact .of_eq rfl rfl rfl rfl rfl rfl rfl rfl
      · split <;> exact .of_eq rfl rfl rfl rfl rfl rfl rfl rfl

theorem sameProgress_coalescedAll (now : Time) (requests : List AuthorityRequest) :
    ∀ row, SameProgress row (coalescedAll now requests row) := by
  induction requests with
  | nil => exact SameProgress.refl
  | cons request requests ih =>
    intro row
    exact (sameProgress_coalesced now request row).trans (ih (coalescedAuthorityJob now request row))

inductive ProgressChange (i : Instant) (c : Call) (id : Nat) (row row' : AuthorityJob) : Prop where
  | same : SameProgress row row' → ProgressChange i c id row row'
  | advanced (job : ClaimedAuthorityJob) (number : Nat) (fingerprints : Option (Dict Str Str))
      (next_page last_number : Option Nat) :
      c = .advanceAuthorityCursor job number fingerprints next_page last_number →
      holdsAuthorityLease i.now job id row = true →
      row' = row.advanced number fingerprints next_page last_number → ProgressChange i c id row row'
  | paged (job : ClaimedAuthorityJob) (requests : List AuthorityRequest) (next_page : Nat)
      (expected_total : Option Nat) :
      c = .advanceInstallationAuthorityPage job requests next_page expected_total →
      holdsAuthorityLease i.now job id row = true →
      row' = { coalescedAll i.now (requests.filter (isForAuthority · row)) row with
        listing_next_page := next_page
        listing_expected_total := expected_total } → ProgressChange i c id row row'
  | corroborated (job : ClaimedAuthorityJob) (next_page : Nat) (expected_total : Option Nat) :
      c = .advanceAuthorityMembershipPage job next_page expected_total →
      holdsAuthorityLease i.now job id row = true →
      row' = { row with
        membership_next_page := next_page
        membership_expected_total := expected_total } → ProgressChange i c id row row'
  | restarted : row' = row.restarted i.now → ProgressChange i c id row row'

section
variable {i : Instant} {c : Call} {db db' : Db} {id : Nat} {row row' : AuthorityJob}

theorem AuthorityChange.progress (h : AuthorityChange i c db db' id (some row) (some row')) :
    ProgressChange i c id row row' := by
  cases h with
  | kept => exact .same (.refl row)
  | coalesced _ requests => exact .same (sameProgress_coalescedAll i.now requests row)
  | advanced _ job number fingerprints next_page last_number hc hp =>
    exact .advanced job number fingerprints next_page last_number hc hp rfl
  | paged _ job requests next_page expected_total hc hp =>
    exact .paged job requests next_page expected_total hc hp rfl
  | membership _ job next_page expected_total hc hp =>
    exact .corroborated job next_page expected_total hc hp rfl
  | restarted => exact .restarted rfl
  | _ => exact .same (.of_eq rfl rfl rfl rfl rfl rfl rfl rfl)

theorem AuthorityChange.leased (h : AuthorityChange i c db db' id (some row) (some row')) {owner : Str}
    (ho : row'.lease_owner = some owner) : (row.lease_owner = some owner ∧ row'.generation = row.generation) ∨
      ∃ lease_seconds prioritize_interactive, c = .claimAuthority owner lease_seconds prioritize_interactive := by
  cases h with
  | coalesced _ requests =>
    have hs := sameScope_coalescedAll i.now requests row
    exact Or.inl ⟨hs.lease_owner.symm.trans ho, hs.generation⟩
  | paged _ job requests next_page expected_total hc hp =>
    have hs := sameScope_coalescedAll i.now (requests.filter (isForAuthority · row)) row
    exact Or.inl ⟨hs.lease_owner.symm.trans ho, hs.generation⟩
  | claimed _ owner' lease_seconds prioritize_interactive hc =>
    cases ho
    exact Or.inr ⟨lease_seconds, prioritize_interactive, hc⟩
  | restarted | failed | deferred => cases ho
  | _ => exact Or.inl ⟨ho, rfl⟩

theorem AuthorityChange.unlisted (h : AuthorityChange i c db db' id none (some row')) :
    row'.listing_next_page = 1 ∧ row'.listing_last_number = 0 ∧ row'.listing_expected_total = none ∧
      row'.handled_pull_fingerprints = ∅ ∧ row'.membershipPosition = (1, none) := by
  cases h with
  | inserted request rest =>
    have hs := sameProgress_coalescedAll i.now rest (firstAuthorityJob i.now request)
    exact ⟨hs.next_page, hs.last_number, hs.expected_total, hs.fingerprints, hs.membership⟩

/-- A page of a live claim is committed, and its claimant is told so. -/
theorem page_answer (hfresh : AuthorityFresh db) {job : ClaimedAuthorityJob} {requests : List AuthorityRequest}
    {next_page : Nat} {expected_total : Option Nat} {answer : Bool}
    (hr : advanceInstallationAuthorityPage i.now job requests next_page expected_total db = .ok (db', answer))
    (hrow : db.authority_jobs.get? id = some row) (hl : holdsAuthorityLease i.now job id row = true) :
    answer = true := by
  have hany : db.authority_jobs.any (holdsAuthorityLease i.now job) = true := Dict.any_eq_true.mpr ⟨id, row, hrow, hl⟩
  unfold advanceInstallationAuthorityPage at hr
  split at hr
  · cases hr
  split at hr
  · cases hr
  injection hr with hr
  rw [← (Prod.mk.inj hr).2]
  refine Dict.any_eq_true.mpr ⟨id, _, (foldl_enqueueAuthority_get? i.now requests id db hfresh).1 row hrow, ?_⟩
  rw [(sameScope_coalescedAll i.now _ row).holdsAuthorityLease i.now job id]
  exact hl

theorem page_committed {job : ClaimedAuthorityJob} {requests : List AuthorityRequest}
    {next_page : Nat} {expected_total : Option Nat}
    (hr : advanceInstallationAuthorityPage i.now job requests next_page expected_total db = .ok (db', true))
    (hrow' : db'.authority_jobs.get? job.id = some row') :
    row'.listing_next_page = next_page ∧ row'.listing_expected_total = expected_total := by
  unfold advanceInstallationAuthorityPage at hr
  split at hr
  · cases hr
  split at hr
  · cases hr
  split at hr
  · injection hr with hr
    obtain ⟨hdb, hany⟩ := Prod.mk.inj hr
    obtain ⟨id', mid, hmid, hl⟩ := Dict.any_eq_true.mp hany
    have hid : id' = job.id := by
      simp only [holdsAuthorityLease, Bool.and_eq_true] at hl
      exact (holdsAuthority_eq_true.mp hl.1).1
    subst hid
    rw [← hdb, Dict.get?_updateWhere, hmid] at hrow'
    simp only [Option.map_some, hl, if_true, Option.some.injEq] at hrow'
    rw [← hrow']
    exact ⟨rfl, rfl⟩
  · injection hr with hr
    cases (Prod.mk.inj hr).2

theorem page_wide {job : ClaimedAuthorityJob} {requests : List AuthorityRequest} {next_page : Nat}
    {expected_total : Option Nat} {answer : Bool}
    (hr : advanceInstallationAuthorityPage i.now job requests next_page expected_total db = .ok (db', answer)) :
    job.repository_full_name = none := by
  unfold advanceInstallationAuthorityPage at hr
  split at hr
  · cases hr
  · rename_i hwide
    exact not_not.mp hwide

theorem cursor_answer {job : ClaimedAuthorityJob} {number : Nat} {fingerprints : Option (Dict Str Str)}
    {next_page last_number : Option Nat} (hrow : db.authority_jobs.get? id = some row)
    (hl : holdsAuthorityLease i.now job id row = true) :
    (advanceAuthorityCursor i.now job number fingerprints next_page last_number db).2 = true :=
  Dict.any_eq_true.mpr ⟨id, row, hrow, hl⟩

theorem cursor_committed {job : ClaimedAuthorityJob} {number : Nat} {fingerprints : Option (Dict Str Str)}
    {next_page last_number : Nat}
    (hr : advanceAuthorityCursor i.now job number fingerprints (some next_page) (some last_number) db = (db', true))
    (hrow' : db'.authority_jobs.get? job.id = some row') :
    row'.listing_next_page = next_page ∧ row'.listing_last_number = last_number := by
  obtain ⟨hdb, hany⟩ := Prod.mk.inj hr
  obtain ⟨id', mid, hmid, hl⟩ := Dict.any_eq_true.mp hany
  have hid : id' = job.id := by
    simp only [holdsAuthorityLease, Bool.and_eq_true] at hl
    exact (holdsAuthority_eq_true.mp hl.1).1
  subst hid
  rw [← hdb, Dict.get?_updateWhere, hmid] at hrow'
  simp only [Option.map_some, hl, if_true, Option.some.injEq] at hrow'
  rw [← hrow']
  exact ⟨rfl, rfl⟩

theorem row_of_completion {now : Time} {job : ClaimedAuthorityJob} {owner : Str}
    (hrow : db.authority_jobs.get? id = some row) (hp : holdsAuthority job owner id row = true)
    (hrow' : (completeAuthority now job owner db).1.authority_jobs.get? id = some row') :
    row' = row.restarted now := by
  obtain ⟨hid, -, -⟩ := holdsAuthority_eq_true.mp hp
  subst hid
  have hfilter : (db.authority_jobs.get? job.id).filter (holdsAuthority job owner job.id) = some row :=
    Option.filter_eq_some_iff.mpr ⟨hrow, hp⟩
  obtain ⟨-, -, hget, -⟩ := @completeAuthority_rows _ now _ _ _ hfilter
  rw [hget] at hrow'
  split at hrow'
  · exact (Option.some.inj hrow').symm
  · cases hrow'

end

/-! ## Commits of one pass -/

/-- A completion that finds its token on the row ends the pass over it. -/
def Commit.endsPass (id : Nat) (commit : Commit) : Prop :=
  ∃ job owner row, commit.call = .completeAuthority job owner ∧
    commit.before.authority_jobs.get? id = some row ∧ holdsAuthority job owner id row = true

theorem not_endsPass_of_call {id : Nat} {commit : Commit}
    (h : ∀ job owner, commit.call ≠ .completeAuthority job owner) : ¬commit.endsPass id := by
  intro hend
  obtain ⟨job, owner, _, hcall, -⟩ := hend
  exact h job owner hcall

/-- Something was committed since the pass over the row began. -/
def InPass (id : Nat) (P : Commit → Prop) (commits : List Commit) : Prop :=
  ∃ newer commit older, commits = newer ++ commit :: older ∧ (∀ c ∈ newer, ¬c.endsPass id) ∧ P commit

section
variable {id : Nat} {P : Commit → Prop} {commit : Commit} {commits : List Commit}

theorem InPass.here (h : P commit) : InPass id P (commit :: commits) :=
  ⟨[], commit, commits, rfl, fun _ hc => absurd hc List.not_mem_nil, h⟩

theorem InPass.later (hends : ¬commit.endsPass id) (h : InPass id P commits) : InPass id P (commit :: commits) := by
  obtain ⟨newer, c, older, rfl, hnewer, hp⟩ := h
  refine ⟨commit :: newer, c, older, rfl, fun c' hc' => ?_, hp⟩
  rcases List.mem_cons.mp hc' with rfl | hc'
  · exact hends
  · exact hnewer c' hc'

theorem InPass.mem (h : InPass id P commits) : ∃ commit ∈ commits, P commit := by
  obtain ⟨newer, c, older, rfl, -, hp⟩ := h
  exact ⟨c, List.mem_append_right _ List.mem_cons_self, hp⟩

end

/-- The call of a commit found its claim live on the row. -/
def Commit.Live (commit : Commit) (job : ClaimedAuthorityJob) : Prop :=
  ∃ row, commit.before.authority_jobs.get? job.id = some row ∧
    holdsAuthorityLease commit.instant.now job job.id row = true

/-- The children of a listed page of an installation, and its successor. -/
def InstallationPaged (settings : Settings) (id number : Nat) (total : Option Nat)
    (page : InstallationRepositoryPage) (commit : Commit) : Prop :=
  ∃ job, job.id = id ∧ commit.Live job ∧
    commit.call = .advanceInstallationAuthorityPage job (installationChildren settings job page) page.next_page
      (some page.total_count) ∧
    Happened (fun event _ => event.Read
      (.listInstallationRepositoryPage job.installation_id number total) page) commit.trace

def ListedInstallation (settings : Settings) (id : Nat) (commits : List Commit) (a b : Nat × Option Nat) : Prop :=
  a.1 ≠ 0 ∧ ∃ page : InstallationRepositoryPage, page.Validated a.1 a.2 ∧
    b = (page.next_page, some page.total_count) ∧ InPass id (InstallationPaged settings id a.1 a.2 page) commits

theorem ListedInstallation.later {settings : Settings} {id : Nat} {commit : Commit} {commits : List Commit}
    {a b : Nat × Option Nat} (hends : ¬commit.endsPass id)
    (h : ListedInstallation settings id commits a b) : ListedInstallation settings id (commit :: commits) a b := by
  obtain ⟨hpage, page, hvalid, hb, hp⟩ := h
  exact ⟨hpage, page, hvalid, hb, hp.later hends⟩

structure RepositoryScope where
  id : Nat
  installation_id : Nat
  full_name : Repository

def AuthorityJob.repositoryScope (row : AuthorityJob) (id : Nat) (full_name : Repository) : RepositoryScope :=
  ⟨id, row.installation_id, full_name⟩

structure ClaimedAuthorityJob.On (job : ClaimedAuthorityJob) (scope : RepositoryScope) : Prop where
  id : job.id = scope.id
  installation_id : job.installation_id = scope.installation_id
  repository_full_name : job.repository_full_name = some scope.full_name

def MembershipPaged (scope : RepositoryScope) (number : Nat) (total : Option Nat) (page : InstallationRepositoryPage)
    (commit : Commit) : Prop :=
  ∃ job next_page expected_total, job.On scope ∧ commit.Live job ∧
    commit.call = .advanceAuthorityMembershipPage job next_page expected_total ∧
    Happened (fun event _ => event.Read
      (.listInstallationRepositoryPage scope.installation_id number total) page) commit.trace

def PageStep (R : Nat → Option Nat → InstallationRepositoryPage → Prop) (a b : Nat × Option Nat) : Prop :=
  ∃ page : InstallationRepositoryPage, page.Validated a.1 a.2 ∧ b = (page.next_page, some page.total_count) ∧
    R a.1 a.2 page

def PageOf (R : Nat → Option Nat → InstallationRepositoryPage → Prop) (total_count number : Nat) : Prop :=
  ∃ expected_total, ∃ page : InstallationRepositoryPage, page.Validated number expected_total ∧
    page.total_count = total_count ∧ R number expected_total page

section
variable {R R' : Nat → Option Nat → InstallationRepositoryPage → Prop} {a b : Nat × Option Nat}

theorem PageStep.mono (hR : ∀ number total page, R number total page → R' number total page)
    (h : Relation.ReflTransGen (PageStep R) a b) : Relation.ReflTransGen (PageStep R') a b := by
  refine Relation.ReflTransGen.mono (fun c d hstep => ?_) a b h
  obtain ⟨page, hvalid, hd, hp⟩ := hstep
  exact ⟨page, hvalid, hd, hR _ _ _ hp⟩

/-- A walk from the first page has read every page up to where it is, all of one total. -/
theorem page_walk (h : Relation.ReflTransGen (PageStep R) (1, none) b) : b = (1, none) ∨
    ∃ total last, b.2 = some total ∧ last ≤ lastPage total ∧ b.1 = (if last < lastPage total then last + 1 else 0) ∧
      ∀ number, 1 ≤ number → number ≤ last → PageOf R total number := by
  induction h with
  | refl => exact Or.inl rfl
  | @tail b _ _ hstep ih =>
    right
    obtain ⟨page, hvalid, rfl, hp⟩ := hstep
    refine ⟨page.total_count, b.1, rfl, hvalid.requested.2, hvalid.next, fun number hfirst hlast => ?_⟩
    by_cases hnumber : number = b.1
    · subst hnumber
      exact ⟨b.2, page, hvalid, rfl, hp⟩
    · rcases ih with rfl | ⟨total, last, htotal, -, hnext, hall⟩
      · exact absurd (le_antisymm hlast hfirst) hnumber
      · rw [hvalid.total total htotal]
        refine hall number hfirst ?_
        split at hnext <;> omega

/-- A walk that reached the end has read every page. -/
theorem page_walk_end {total : Option Nat} (h : Relation.ReflTransGen (PageStep R) (1, none) (0, total)) :
    ∃ total_count, ∀ number, 1 ≤ number → number ≤ lastPage total_count → PageOf R total_count number := by
  rcases page_walk h with hstart | ⟨total_count, last, -, -, hend, hall⟩
  · cases hstart
  · have hwhole : lastPage total_count ≤ last := by
      split at hend
      · exact absurd hend.symm (Nat.succ_ne_zero last)
      · omega
    exact ⟨total_count, fun number hfirst hnumber => hall number hfirst (hnumber.trans hwhole)⟩

end

def InstallationRepositoryPage.Without (page : InstallationRepositoryPage) (full_name : Repository) : Prop :=
  ∀ r ∈ page.repositories.repositories, r.1 ≠ full_name

/-- A page that does not list the repository was read in the pass. -/
def PassedWithout (scope : RepositoryScope) (commits : List Commit) (number : Nat) (total : Option Nat)
    (page : InstallationRepositoryPage) : Prop :=
  page.Without scope.full_name ∧ InPass scope.id (MembershipPaged scope number total page) commits

theorem PassedWithout.later {scope : RepositoryScope} {commit : Commit} {commits : List Commit} {number : Nat}
    {total : Option Nat} {page : InstallationRepositoryPage} (hends : ¬commit.endsPass scope.id)
    (h : PassedWithout scope commits number total page) : PassedWithout scope (commit :: commits) number total page :=
  ⟨h.1, h.2.later hends⟩

section
variable [PullDigest]

/-- A pull request with this fingerprint was handled before its checkpoint. -/
def Fingerprinted (scope : RepositoryScope) (key digest : Str) (commit : Commit) : Prop :=
  ∃ job, ∃ pull : AuthorityPull, job.On scope ∧ decimal pull.number = key ∧
    PullDigest.hexdigest pull.observation = digest ∧ Handled job scope.full_name pull commit.trace

def HandledInPass (scope : RepositoryScope) (commits : List Commit) (pull : AuthorityPull) : Prop :=
  InPass scope.id (Fingerprinted scope (decimal pull.number) (PullDigest.hexdigest pull.observation)) commits

/-- A listed page of pull requests, whose targets have been handled, and its successor. -/
def RepositoryPaged (scope : RepositoryScope) (targets : Dict Str Str) (commits : List Commit)
    (number after_number : Nat) (page : AuthorityPullPage) (commit : Commit) : Prop :=
  ∃ job pull_number, job.On scope ∧ job.base_ref = none ∧ job.target_base_refs = targets ∧ commit.Live job ∧
    commit.call = .advanceAuthorityCursor job pull_number (some ∅) (some page.next_page) (some page.last_number) ∧
    Happened (fun event _ => event.Read
        (.listAuthorityPullPage job.installation_id scope.full_name number after_number) page ∧
      page.Of (event.github.listing scope.installation_id scope.full_name) number after_number) commit.trace ∧
    ∀ pull ∈ targetedPulls job page, HandledInPass scope commits pull

def ListedRepository (scope : RepositoryScope) (targets : Dict Str Str) (commits : List Commit)
    (a b : Nat × Nat) : Prop :=
  ∃ page : AuthorityPullPage, b = (page.next_page, page.last_number) ∧
    InPass scope.id (RepositoryPaged scope targets commits a.1 a.2 page) commits

end

/-! ## What stands behind a checkpoint -/

section
variable [PullDigest]

/-- The checkpoint of a row is the end of a walk from the first page. -/
structure RowBacked (settings : Settings) (commits : List Commit) (id : Nat) (row : AuthorityJob) : Prop where
  installation : row.scope_key = .all →
    Relation.ReflTransGen (ListedInstallation settings id commits) (1, none)
      (row.listing_next_page, row.listing_expected_total)
  repository : ∀ full_name, row.scope_key = .repository full_name →
    Relation.ReflTransGen (ListedRepository (row.repositoryScope id full_name) row.target_base_refs commits) (1, 0)
      (row.listing_next_page, row.listing_last_number)
  fingerprints : ∀ full_name key digest, row.scope_key = .repository full_name →
    row.handled_pull_fingerprints.get? key = some digest →
      InPass id (Fingerprinted (row.repositoryScope id full_name) key digest) commits
  membership : ∀ full_name, row.scope_key = .repository full_name →
    Relation.ReflTransGen (PageStep (PassedWithout (row.repositoryScope id full_name) commits)) (1, none)
      row.membershipPosition

/-- What a claimant knows of its row is what the row says. -/
structure Checkpointed (commits : List Commit) (τ : Trace) (job : ClaimedAuthorityJob) (row : AuthorityJob) : Prop where
  installation : job.repository_full_name = none → ∀ position, installationPosition job τ = some position →
    position = (row.listing_next_page, row.listing_expected_total)
  repository : job.repository_full_name ≠ none → ∀ position, pullPosition job τ = some position →
    position = (row.listing_next_page, row.listing_last_number)
  fingerprints : ∀ scope : RepositoryScope, job.On scope → ∀ key digest,
    job.handled_pull_fingerprints.get? key = some digest → InPass scope.id (Fingerprinted scope key digest) commits
  membership : ∀ scope : RepositoryScope, job.On scope →
    Relation.ReflTransGen (PageStep (PassedWithout scope commits)) (1, none)
      (job.membership_next_page, job.membership_expected_total)

variable {settings : Settings} {id : Nat} {scope : RepositoryScope} {targets : Dict Str Str} {commit : Commit}
  {commits : List Commit} {τ : Trace} {job : ClaimedAuthorityJob} {row row' : AuthorityJob}

theorem HandledInPass.later {pull : AuthorityPull} (hends : ¬commit.endsPass scope.id)
    (h : HandledInPass scope commits pull) : HandledInPass scope (commit :: commits) pull :=
  InPass.later hends h

theorem ListedRepository.later {a b : Nat × Nat} (hends : ¬commit.endsPass scope.id)
    (h : ListedRepository scope targets commits a b) : ListedRepository scope targets (commit :: commits) a b := by
  obtain ⟨page, hb, newer, c, older, hcommits, hnewer, hpaged⟩ := h
  obtain ⟨job, number, hon, hbase, htargets, hlive, hcall, hread, hpulls⟩ := hpaged
  have hpaged : RepositoryPaged scope targets (commit :: commits) a.1 a.2 page c :=
    ⟨job, number, hon, hbase, htargets, hlive, hcall, hread, fun pull hp => (hpulls pull hp).later hends⟩
  have hin : InPass scope.id (RepositoryPaged scope targets (commit :: commits) a.1 a.2 page) commits :=
    ⟨newer, c, older, hcommits, hnewer, hpaged⟩
  exact ⟨page, hb, hin.later hends⟩

theorem ListedRepository.pages {a b : Nat × Nat} (h : ListedRepository scope targets commits a b) :
    1 ≤ a.1 ∧ (b.1 = a.1 + 1 ∨ b.1 = 0) := by
  obtain ⟨page, rfl, hin⟩ := h
  obtain ⟨c, -, job, -, -, -, -, -, -, ⟨_, event, _, -, -, -, hof⟩, -⟩ := hin.mem
  exact ⟨hof.requested, hof.next.imp_right And.left⟩

theorem walk_first {last_number : Nat}
    (h : Relation.ReflTransGen (ListedRepository scope targets commits) (1, 0) (1, last_number)) : last_number = 0 := by
  rcases h.cases_tail with h | ⟨a, -, hlast⟩
  · exact congrArg Prod.snd h
  · obtain ⟨hpage, hnext⟩ := hlast.pages
    simp only at hnext
    omega

theorem RowBacked.later (hends : ¬commit.endsPass id) (h : RowBacked settings commits id row) :
    RowBacked settings (commit :: commits) id row := by
  refine ⟨fun hs => ?_, fun name hs => ?_, ?_, ?_⟩
  · exact Relation.ReflTransGen.mono (fun _ _ hp => ListedInstallation.later hends hp) _ _ (h.installation hs)
  · exact Relation.ReflTransGen.mono (fun _ _ hp => ListedRepository.later hends hp) _ _ (h.repository name hs)
  · exact fun name key digest hs hd => (h.fingerprints name key digest hs hd).later hends
  · exact fun name hs => PageStep.mono (fun _ _ _ hp => PassedWithout.later hends hp) (h.membership name hs)

theorem RowBacked.same (hs : SameProgress row row') (h : RowBacked settings commits id row) :
    RowBacked settings commits id row' := by
  have hscope : ∀ name, row'.repositoryScope id name = row.repositoryScope id name := by
    intro name
    rw [AuthorityJob.repositoryScope, AuthorityJob.repositoryScope, hs.installation_id]
  refine ⟨?_, fun name hname => ?_, fun name => ?_, fun name => ?_⟩
  · rw [hs.scope_key, hs.next_page, hs.expected_total]
    exact h.installation
  · rw [hs.scope_key] at hname
    have hwalk := h.repository name hname
    rw [hscope, hs.next_page, hs.last_number]
    by_cases hn : row.listing_next_page = 1
    · rw [hn] at hwalk ⊢
      rw [walk_first hwalk]
    · rw [hs.targets hn]
      exact hwalk
  · rw [hscope, hs.scope_key, hs.fingerprints]
    exact h.fingerprints name
  · rw [hscope, hs.scope_key, hs.membership]
    exact h.membership name

theorem RowBacked.start (hpage : row.listing_next_page = 1) (hlast : row.listing_last_number = 0)
    (htotal : row.listing_expected_total = none) (hfingerprints : row.handled_pull_fingerprints = ∅)
    (hmembership : row.membershipPosition = (1, none)) : RowBacked settings commits id row := by
  refine ⟨fun _ => ?_, fun _ _ => ?_, fun _ key digest _ hd => ?_, fun _ _ => ?_⟩
  · rw [hpage, htotal]
  · rw [hpage, hlast]
  · rw [hfingerprints] at hd
    cases hd
  · rw [hmembership]

theorem Checkpointed.later (hends : ¬commit.endsPass job.id) (h : Checkpointed commits τ job row) :
    Checkpointed (commit :: commits) τ job row :=
  ⟨h.installation, h.repository,
    fun scope hon key digest hd => (h.fingerprints scope hon key digest hd).later (hon.id ▸ hends),
    fun scope hon => PageStep.mono (fun _ _ _ hp => PassedWithout.later (hon.id ▸ hends) hp) (h.membership scope hon)⟩

theorem Checkpointed.same (hs : SameProgress row row') (h : Checkpointed commits τ job row) :
    Checkpointed commits τ job row' := by
  refine ⟨?_, ?_, h.fingerprints, h.membership⟩
  · rw [hs.next_page, hs.expected_total]
    exact h.installation
  · rw [hs.next_page, hs.last_number]
    exact h.repository

theorem Checkpointed.vouched {s : World} {i : Instant} {c : Call} {p : Pid} {key digest : Str}
    (h : Checkpointed s.commits (s.trace p) job row) (hends : ¬Commit.endsPass job.id ⟨p, s.db, i, c, s.trace p⟩)
    (hon : job.On scope) (hv : Vouched job scope.full_name key digest (s.trace p)) :
    InPass scope.id (Fingerprinted scope key digest) (⟨p, s.db, i, c, s.trace p⟩ :: s.commits) := by
  rcases hv with hold | ⟨pull, hkey, hdigest, hhandled⟩
  · exact (h.fingerprints scope hon key digest hold).later (hon.id ▸ hends)
  · exact .here ⟨job, pull, hon, hkey, hdigest, hhandled⟩

end

theorem Honest.answers {τ l older : Trace} {event : Event} {r : GitHubRead} {answer : r.Answer} (h : Honest τ)
    (hτ : τ = l ++ event :: older) (hread : event.Read r answer) : event.github.answers r answer := by
  obtain ⟨db, g, i, rfl⟩ := hread
  exact h l _ older hτ

theorem Honest.read {τ : Trace} {r : GitHubRead} {answer : r.Answer} (h : Honest τ)
    (hread : Happened (fun event _ => event.Read r answer) τ) : ∃ g : GitHub, g.answers r answer := by
  obtain ⟨l, event, older, hτ, -, db, g, i, rfl⟩ := hread
  exact ⟨g, h l _ older hτ⟩

theorem Honest.past {l τ : Trace} (h : Honest (l ++ τ)) : Honest τ := by
  intro l' event older hτ
  refine h (l ++ l') event older ?_
  rw [hτ, List.append_assoc]

/-- Pages without the repository, as steps of one enumeration. -/
theorem ReadWithout.walk {τ : Trace} {job : ClaimedAuthorityJob} {full_name : Repository} {position : Nat × Option Nat}
    (hh : Honest τ) (h : ReadWithout job full_name position τ) :
    Relation.ReflTransGen (PageStep fun number total page => page.Without full_name ∧
      Happened (fun event _ => event.Read
        (.listInstallationRepositoryPage job.installation_id number total) page) τ)
      (job.membership_next_page, job.membership_expected_total) position := by
  refine Relation.ReflTransGen.mono (fun a b hstep => ?_) _ _ h
  obtain ⟨page, hread, hnot, hb⟩ := hstep
  obtain ⟨g, hvalid⟩ := hh.read hread
  exact ⟨page, hvalid, hb, hnot, hread⟩

theorem holdsAuthorityLease_eq_true {now : Time} {job : ClaimedAuthorityJob} {id : Nat} {row : AuthorityJob}
    (h : holdsAuthorityLease now job id row = true) :
    id = job.id ∧ row.generation = job.generation ∧ row.lease_owner = some job.lease_owner := by
  simp only [holdsAuthorityLease, Bool.and_eq_true] at h
  exact holdsAuthority_eq_true.mp h.1

/-! ## One call -/

theorem checkpoint_matches {s : World} {p : Pid} {i : Instant} (ht : Traced s) {job : ClaimedAuthorityJob}
    (hj : job ∈ heldAuthorities (s.trace p)) {id : Nat} {row : AuthorityJob}
    (hrow : s.db.authority_jobs.get? id = some row) (hp : holdsAuthorityLease i.now job id row = true) :
    MatchesAuthority job row := by
  obtain ⟨rfl, hg, -⟩ := holdsAuthorityLease_eq_true hp
  exact (ht.authorityInv.2 p job hj).current row hrow hg.symm

theorem scopeKey_repository {job : ClaimedAuthorityJob} {full_name : Repository}
    (h : job.repository_full_name = some full_name) : job.scopeKey = .repository full_name := by
  rw [ClaimedAuthorityJob.scopeKey, h]

theorem scopeKey_all {job : ClaimedAuthorityJob} (h : job.repository_full_name = none) : job.scopeKey = .all := by
  rw [ClaimedAuthorityJob.scopeKey, h]

section
variable [PullDigest]

/-- What every state of the service keeps about the passes. -/
structure PassesKept (settings : Settings) (s : World) : Prop where
  rows : ∀ id row, s.db.authority_jobs.get? id = some row → RowBacked settings s.commits id row
  jobs : ∀ p, ∀ job ∈ heldAuthorities (s.trace p), ∀ row, s.db.authority_jobs.get? job.id = some row →
    row.generation = job.generation → row.lease_owner = some job.lease_owner →
      Checkpointed s.commits (s.trace p) job row
  single : ∀ p, ∀ job ∈ heldAuthorities (s.trace p), ∀ job' ∈ heldAuthorities (s.trace p), job = job'

variable {settings : Settings} {s : World} {p : Pid} {i : Instant} {c : Call} {a : c.Answer} {db' : Db}

theorem CursorFenced.named {job : ClaimedAuthorityJob} {fingerprints : Option (Dict Str Str)}
    {next_page last_number : Option Nat} {τ : Trace} (h : CursorFenced job fingerprints next_page last_number τ) :
    ∃ full_name, job.repository_full_name = some full_name := by
  cases fingerprints with
  | none => cases next_page <;> cases last_number <;> cases h
  | some fingerprints =>
    cases next_page with
    | none =>
      cases last_number with
      | none =>
        obtain ⟨full_name, hname, -⟩ := h
        exact ⟨full_name, hname⟩
      | some => cases h
    | some next_page =>
      cases last_number with
      | none => cases h
      | some last_number =>
        obtain ⟨-, full_name, _, _, _, hname, -⟩ := h
        exact ⟨full_name, hname⟩

theorem RowBacked.advanced (hk : PassesKept settings s) (ht : Traced s) (hh : Honest (s.trace p)) {id : Nat}
    {row : AuthorityJob} (hrow : s.db.authority_jobs.get? id = some row) {job : ClaimedAuthorityJob} {number : Nat}
    {fingerprints : Option (Dict Str Str)} {next_page last_number : Option Nat}
    (hl : Lawful settings p (s.trace p) (.call (.advanceAuthorityCursor job number fingerprints next_page last_number)))
    (hp : holdsAuthorityLease i.now job id row = true) :
    RowBacked settings (⟨p, s.db, i, .advanceAuthorityCursor job number fingerprints next_page last_number,
      s.trace p⟩ :: s.commits) id (row.advanced number fingerprints next_page last_number) := by
  have hj := (hl.1.authority job _ rfl).1
  have hmatch := checkpoint_matches ht hj hrow hp
  have hscope := hmatch.scope_key
  obtain ⟨rfl, hg, ho⟩ := holdsAuthorityLease_eq_true hp
  have hcheck := hk.jobs p job hj row hrow hg ho
  have hends : ¬Commit.endsPass job.id ⟨p, s.db, i,
      .advanceAuthorityCursor job number fingerprints next_page last_number, s.trace p⟩ :=
    not_endsPass_of_call nofun
  have hfenced : CursorFenced job fingerprints next_page last_number (s.trace p) := hl.2
  have hbacked := (hk.rows job.id row hrow).later hends
  cases fingerprints with
  | none => cases next_page <;> cases last_number <;> cases hfenced
  | some fingerprints =>
    cases next_page with
    | none =>
      cases last_number with
      | some => cases hfenced
      | none =>
        obtain ⟨name, hname, hvouched⟩ := hfenced
        refine ⟨hbacked.installation, hbacked.repository, fun name' key digest hs hd => ?_, hbacked.membership⟩
        cases (hscope.symm.trans hs).symm.trans (scopeKey_repository hname)
        have hon : job.On (row.repositoryScope job.id name) := ⟨rfl, hmatch.installation_id.symm, hname⟩
        exact hcheck.vouched hends hon (hvouched key digest hd)
    | some next_page =>
      cases last_number with
      | none => cases hfenced
      | some last_number =>
        obtain ⟨hempty, name, number', after_number, page, hname, hposition, hread, hnext, hlast, hpulls⟩ := hfenced
        subst hempty hnext hlast
        have hall : row.scope_key = .repository name := hscope.trans (scopeKey_repository hname)
        refine ⟨fun hs => ?_, fun name' hs => ?_, fun _ key digest _ hd => ?_, hbacked.membership⟩
        · cases hall.symm.trans hs
        · cases hall.symm.trans hs
          have hwalk := hbacked.repository name hall
          rw [← hcheck.repository (by rw [hname]; exact Option.some_ne_none _) _ hposition] at hwalk
          have hon : job.On (row.repositoryScope job.id name) := ⟨rfl, hmatch.installation_id.symm, hname⟩
          refine hwalk.tail ⟨page, rfl, .here ⟨job, number, hon, hmatch.base_ref, hmatch.targets.symm, ⟨row, hrow, hp⟩,
            rfl, ?_, fun pull hpull => hcheck.vouched hends hon (hpulls pull hpull)⟩⟩
          obtain ⟨l, event, older, hτ, hin, hevent⟩ := hread
          refine ⟨l, event, older, hτ, hin, hevent, ?_⟩
          have hof := hh.answers hτ hevent
          rwa [← hmatch.installation_id] at hof
        · cases hd

theorem RowBacked.paged (hk : PassesKept settings s) (ht : Traced s) (hh : Honest (s.trace p)) {id : Nat}
    {row row' : AuthorityJob} (hrow : s.db.authority_jobs.get? id = some row) {job : ClaimedAuthorityJob}
    {requests : List AuthorityRequest} {next_page : Nat} {expected_total : Option Nat}
    (hl : Lawful settings p (s.trace p)
      (.call (.advanceInstallationAuthorityPage job requests next_page expected_total)))
    (hwide : job.repository_full_name = none) (hp : holdsAuthorityLease i.now job id row = true)
    (hscope' : row'.scope_key = row.scope_key) (hnext : row'.listing_next_page = next_page)
    (htotal : row'.listing_expected_total = expected_total) :
    RowBacked settings (⟨p, s.db, i, .advanceInstallationAuthorityPage job requests next_page expected_total,
      s.trace p⟩ :: s.commits) id row' := by
  have hj := (hl.1.authority job _ rfl).1
  have hall : row.scope_key = .all := (checkpoint_matches ht hj hrow hp).scope_key.trans (scopeKey_all hwide)
  obtain ⟨rfl, hg, ho⟩ := holdsAuthorityLease_eq_true hp
  have hcheck := hk.jobs p job hj row hrow hg ho
  have hends : ¬Commit.endsPass job.id ⟨p, s.db, i,
      .advanceInstallationAuthorityPage job requests next_page expected_total, s.trace p⟩ :=
    not_endsPass_of_call nofun
  have hfenced : InstallationFenced settings job requests next_page expected_total (s.trace p) := hl.2
  have hbacked := (hk.rows job.id row hrow).later hends
  refine ⟨fun _ => ?_, fun name hs => ?_, fun name key digest hs _ => ?_, fun name hs => ?_⟩
  · rw [hnext, htotal]
    rcases hfenced with ⟨-, rfl, rfl⟩ | ⟨number, total, page, hposition, hpage, hread, rfl, rfl, rfl⟩
    · exact .refl
    · have hwalk := hbacked.installation hall
      rw [← hcheck.installation hwide _ hposition] at hwalk
      refine hwalk.tail ⟨hpage, page, ?_, rfl, .here ⟨job, rfl, ⟨row, hrow, hp⟩, rfl, hread⟩⟩
      obtain ⟨g, hanswer⟩ := hh.read hread
      exact hanswer
  · cases (hscope'.trans hall).symm.trans hs
  · cases (hscope'.trans hall).symm.trans hs
  · cases (hscope'.trans hall).symm.trans hs

theorem RowBacked.corroborated (hk : PassesKept settings s) (ht : Traced s) (hh : Honest (s.trace p)) {id : Nat}
    {row : AuthorityJob} (hrow : s.db.authority_jobs.get? id = some row) {job : ClaimedAuthorityJob}
    {next_page : Nat} {expected_total : Option Nat}
    (hl : Lawful settings p (s.trace p) (.call (.advanceAuthorityMembershipPage job next_page expected_total)))
    (hp : holdsAuthorityLease i.now job id row = true) :
    RowBacked settings (⟨p, s.db, i, .advanceAuthorityMembershipPage job next_page expected_total,
      s.trace p⟩ :: s.commits) id { row with
        membership_next_page := next_page
        membership_expected_total := expected_total } := by
  have hj := (hl.1.authority job _ rfl).1
  have hmatch := checkpoint_matches ht hj hrow hp
  obtain ⟨rfl, hg, ho⟩ := holdsAuthorityLease_eq_true hp
  have hcheck := hk.jobs p job hj row hrow hg ho
  have hends : ¬Commit.endsPass job.id ⟨p, s.db, i,
      .advanceAuthorityMembershipPage job next_page expected_total, s.trace p⟩ :=
    not_endsPass_of_call nofun
  have hfenced : MembershipFenced job next_page expected_total (s.trace p) := hl.2
  have hbacked := (hk.rows job.id row hrow).later hends
  refine ⟨hbacked.installation, hbacked.repository, hbacked.fingerprints, fun name hs => ?_⟩
  rcases hfenced with ⟨rfl, rfl⟩ | ⟨name', hname, hread⟩
  · exact .refl
  · cases (hmatch.scope_key.symm.trans hs).symm.trans (scopeKey_repository hname)
    have hon : job.On (row.repositoryScope job.id name) := ⟨rfl, hmatch.installation_id.symm, hname⟩
    have hstart := (hcheck.later hends).membership _ hon
    refine hstart.trans (PageStep.mono (fun number total page hpage => ⟨hpage.1, .here ?_⟩) (hread.walk hh))
    exact ⟨job, next_page, expected_total, hon, ⟨row, hrow, hp⟩, rfl, hon.installation_id ▸ hpage.2⟩

end

/-! ## Positions -/

section
variable (job : ClaimedAuthorityJob) (db : Db) (g : GitHub) (i : Instant) (c : Call) (a : Except Exn c.Answer)
  (τ : Trace)

theorem installationPosition_call :
    (installationPosition job (⟨db, g, i, .call c, a⟩ :: τ) = installationPosition job τ ∧
      ∀ used requests next_page expected_total,
        c = .advanceInstallationAuthorityPage used requests next_page expected_total →
          Event.Called ⟨db, g, i, .call c, a⟩
            (.advanceInstallationAuthorityPage used requests next_page expected_total) false) ∨
      installationPosition job (⟨db, g, i, .call c, a⟩ :: τ) = none ∨
      ∃ used requests next_page expected_total,
        Event.Called ⟨db, g, i, .call c, a⟩
            (.advanceInstallationAuthorityPage used requests next_page expected_total) true ∧
          installationPosition job (⟨db, g, i, .call c, a⟩ :: τ) = some (next_page, expected_total) := by
  cases c with
  | advanceInstallationAuthorityPage used requests next_page expected_total =>
    cases a with
    | ok answer =>
      cases answer with
      | true => exact Or.inr (Or.inr ⟨used, requests, next_page, expected_total, ⟨db, g, i, rfl⟩, rfl⟩)
      | false =>
        refine Or.inl ⟨rfl, fun used' requests' next_page' expected_total' hc => ?_⟩
        cases hc
        exact ⟨db, g, i, rfl⟩
    | error x => exact Or.inr (Or.inl rfl)
  | _ =>
    left
    refine ⟨?_, fun _ _ _ _ hc => by cases hc⟩
    cases a <;> rfl

theorem pullPosition_call :
    (pullPosition job (⟨db, g, i, .call c, a⟩ :: τ) = pullPosition job τ ∧
      ∀ used number fingerprints next_page last_number,
        c = .advanceAuthorityCursor used number fingerprints (some next_page) (some last_number) →
          Event.Called ⟨db, g, i, .call c, a⟩
            (.advanceAuthorityCursor used number fingerprints (some next_page) (some last_number)) false) ∨
      pullPosition job (⟨db, g, i, .call c, a⟩ :: τ) = none ∨
      ∃ used number fingerprints next_page last_number,
        Event.Called ⟨db, g, i, .call c, a⟩
            (.advanceAuthorityCursor used number fingerprints (some next_page) (some last_number)) true ∧
          pullPosition job (⟨db, g, i, .call c, a⟩ :: τ) = some (next_page, last_number) := by
  cases c with
  | advanceAuthorityCursor used number fingerprints next_page last_number =>
    cases next_page with
    | none =>
      left
      refine ⟨?_, fun _ _ _ _ _ hc => by cases hc⟩
      cases a <;> rfl
    | some next_page =>
      cases a with
      | error x =>
        right
        left
        cases last_number <;> rfl
      | ok answer =>
        cases last_number with
        | none =>
          left
          exact ⟨rfl, fun _ _ _ _ _ hc => by cases hc⟩
        | some last_number =>
          cases answer with
          | true => exact Or.inr (Or.inr ⟨used, number, fingerprints, next_page, last_number, ⟨db, g, i, rfl⟩, rfl⟩)
          | false =>
            refine Or.inl ⟨rfl, fun _ _ _ _ _ hc => ?_⟩
            cases hc
            exact ⟨db, g, i, rfl⟩
  | _ =>
    left
    refine ⟨?_, fun _ _ _ _ _ hc => by cases hc⟩
    cases a <;> rfl

end

theorem mem_authoritiesAfter {c : Call} {answer : Option c.Answer} {held : List ClaimedAuthorityJob}
    {job : ClaimedAuthorityJob} (h : job ∈ authoritiesAfter c answer held) :
    job ∈ held ∨ ∃ x, answer = some x ∧ c.authorityIssued x = some job := by
  rcases List.mem_append.mp h with hnew | hold
  · obtain ⟨x, hx, hi⟩ := Option.bind_eq_some_iff.mp (Option.mem_toList.mp hnew)
    exact Or.inr ⟨x, hx, hi⟩
  · left
    cases hrel : c.authorityReleased with
    | none => simpa only [hrel] using hold
    | some released =>
      simp only [hrel] at hold
      exact (List.mem_filter.mp hold).1

theorem heldAuthorities_call {db : Db} {g : GitHub} {i : Instant} {c : Call} {a : Except Exn c.Answer} {τ : Trace}
    {job : ClaimedAuthorityJob} (h : job ∈ heldAuthorities (⟨db, g, i, .call c, a⟩ :: τ)) :
    job ∈ heldAuthorities τ ∨ ∃ x, a = .ok x ∧ c.authorityIssued x = some job := by
  cases a with
  | ok a =>
    have hmem : job ∈ authoritiesAfter c (some a) (heldAuthorities τ) := h
    rcases mem_authoritiesAfter hmem with hold | ⟨x, hx, hi⟩
    · exact Or.inl hold
    · cases hx
      exact Or.inr ⟨a, rfl, hi⟩
  | error x =>
    have hmem : job ∈ authoritiesAfter c none (heldAuthorities τ) := h
    rcases mem_authoritiesAfter hmem with hold | ⟨x, hx, -⟩
    · exact Or.inl hold
    · cases hx

/-! ## The claims in hand -/

/-- While its claim is on the row, nobody ends the pass. -/
theorem not_endsPass {s : World} {p : Pid} {i : Instant} {c : Call} {a : c.Answer} {db' : Db} {id : Nat}
    {row' : AuthorityJob} (hr : c.run i s.db = .ok (db', a))
    (hrow' : db'.authority_jobs.get? id = some row') {owner : Str} (ho : row'.lease_owner = some owner) :
    ¬Commit.endsPass id ⟨p, s.db, i, c, s.trace p⟩ := by
  intro hends
  obtain ⟨job, owner', row, hcall, hrow, hp⟩ := hends
  have hc : c = .completeAuthority job owner' := hcall
  subst hc
  have hrun : completeAuthority i.now job owner' s.db = (db', a) := Except.ok.inj hr
  have hsame : row' = row.restarted i.now := row_of_completion hrow hp (by rw [hrun]; exact hrow')
  rw [hsame] at ho
  cases ho

section
variable [PullDigest] {settings : Settings} {s : World} {p : Pid} {i : Instant} {c : Call} {a : c.Answer} {db' : Db}

theorem Checkpointed.other (hk : PassesKept settings s) (ht : Traced s) (hl : Lawful settings p (s.trace p) (.call c))
    (hr : c.run i s.db = .ok (db', a)) {q : Pid} (hq : q ≠ p) {job : ClaimedAuthorityJob}
    (hj : job ∈ heldAuthorities (s.trace q)) {row' : AuthorityJob} (hrow' : db'.authority_jobs.get? job.id = some row')
    (hg' : row'.generation = job.generation) (ho' : row'.lease_owner = some job.lease_owner) :
    Checkpointed (⟨p, s.db, i, c, s.trace p⟩ :: s.commits) (s.trace q) job row' := by
  have hends := not_endsPass (p := p) hr hrow' ho'
  obtain ⟨hfresh, htokens⟩ := ht.authorityInv
  obtain ⟨t, ht⟩ := ht
  have howner := ((ht.backs q).authorities job hj).2
  have hmine : ∀ used owner, c.authorityUsed = some (used, owner) → used.lease_owner ≠ job.lease_owner := by
    intro used owner hu
    rw [((ht.backs p).authorities used (hl.1.authority used owner hu).1).2, howner]
    exact hq.symm
  have hch := (authorityChange_run hfresh hr).rows job.id
  rw [hrow'] at hch
  obtain ⟨row, hrow⟩ := hch.inserted_at (htokens q job hj).fresh
  rw [hrow] at hch
  rcases hch.leased ho' with ⟨ho, hg⟩ | ⟨lease_seconds, prioritize_interactive, hc⟩
  · have hcheck := (hk.jobs q job hj row hrow (hg.symm.trans hg') ho).later hends
    cases hch.progress with
    | same hs => exact hcheck.same hs
    | advanced used number fingerprints next_page last_number hc hp _ =>
      subst hc
      have hsame := (holdsAuthorityLease_eq_true hp).2.2
      exact absurd (Option.some.inj (hsame.symm.trans ho)) (hmine used _ rfl)
    | paged used requests next_page expected_total hc hp _ =>
      subst hc
      have hsame := (holdsAuthorityLease_eq_true hp).2.2
      exact absurd (Option.some.inj (hsame.symm.trans ho)) (hmine used _ rfl)
    | corroborated used next_page expected_total hc hp _ =>
      subst hc
      have hsame := (holdsAuthorityLease_eq_true hp).2.2
      exact absurd (Option.some.inj (hsame.symm.trans ho)) (hmine used _ rfl)
    | restarted he =>
      rw [he] at ho'
      cases ho'
  · have hclaimant := hl.1.claimant job.lease_owner (by rw [hc]; rfl)
    exact absurd (howner.symm.trans hclaimant) hq

theorem Checkpointed.own (hk : PassesKept settings s) (ht : Traced s) (hl : Lawful settings p (s.trace p) (.call c))
    (hr : c.run i s.db = .ok (db', a)) {answer : Except Exn c.Answer} (ha : ∀ x, answer = .ok x → x = a)
    {job : ClaimedAuthorityJob} (hj : job ∈ heldAuthorities (s.trace p)) {row' : AuthorityJob}
    (hrow' : db'.authority_jobs.get? job.id = some row')
    (hg' : row'.generation = job.generation) (ho' : row'.lease_owner = some job.lease_owner) :
    Checkpointed (⟨p, s.db, i, c, s.trace p⟩ :: s.commits) (⟨s.db, s.github, i, .call c, answer⟩ :: s.trace p) job
      row' := by
  have hends := not_endsPass (p := p) hr hrow' ho'
  obtain ⟨hfresh, htokens⟩ := ht.authorityInv
  have honly : ∀ used owner, c.authorityUsed = some (used, owner) → used = job :=
    fun used owner hu => hk.single p used (hl.1.authority used owner hu).1 job hj
  have hch := (authorityChange_run hfresh hr).rows job.id
  rw [hrow'] at hch
  obtain ⟨row, hrow⟩ := hch.inserted_at (htokens p job hj).fresh
  rw [hrow] at hch
  obtain ⟨ho, hg⟩ : row.lease_owner = some job.lease_owner ∧ row'.generation = row.generation := by
    rcases hch.leased ho' with hold | ⟨lease_seconds, prioritize_interactive, hc⟩
    · exact hold
    · subst hc
      have hnone : s.trace p = [] := hl.2
      rw [hnone] at hj
      cases hj
  have hcheck := (hk.jobs p job hj row hrow (hg.symm.trans hg') ho).later hends
  have hnot : row' ≠ row.restarted i.now := by
    intro he
    rw [he] at ho'
    cases ho'
  refine ⟨fun hwide position hposition => ?_, fun hname position hposition => ?_, hcheck.fingerprints,
    hcheck.membership⟩
  · rcases installationPosition_call job s.db s.github i c answer (s.trace p) with
      ⟨hsame, hrefused⟩ | hnone | ⟨used, requests, next_page, expected_total, hcalled, hmoved⟩
    · rw [hsame] at hposition
      rw [hcheck.installation hwide position hposition]
      cases hch.progress with
      | same hs => rw [hs.next_page, hs.expected_total]
      | advanced used number fingerprints next_page last_number hc _ _ =>
        subst hc
        have hfenced : CursorFenced job fingerprints next_page last_number (s.trace p) := by
          have hused := hl.2
          rw [CallFenced, honly used _ rfl] at hused
          exact hused
        obtain ⟨name, hname⟩ := hfenced.named
        rw [hwide] at hname
        cases hname
      | paged used requests next_page expected_total hc hp _ =>
        subst hc
        obtain ⟨_, _, _, hcalled⟩ := hrefused used requests next_page expected_total rfl
        cases hcalled
        have htrue := page_answer (i := i) hfresh hr hrow hp
        cases (ha false rfl).trans htrue
      | corroborated _ _ _ _ _ he => rw [he]
      | restarted he => exact absurd he hnot
    · rw [hnone] at hposition
      cases hposition
    · rw [hmoved] at hposition
      cases hposition
      obtain ⟨_, _, _, hcalled⟩ := hcalled
      cases hcalled
      have hid := honly used _ rfl
      subst hid
      have hrun := hr
      rw [← ha true rfl] at hrun
      obtain ⟨hnext, htotal⟩ := page_committed (i := i) hrun hrow'
      rw [hnext, htotal]
  · rcases pullPosition_call job s.db s.github i c answer (s.trace p) with
      ⟨hsame, hrefused⟩ | hnone | ⟨used, number, fingerprints, next_page, last_number, hcalled, hmoved⟩
    · rw [hsame] at hposition
      rw [hcheck.repository hname position hposition]
      cases hch.progress with
      | same hs => rw [hs.next_page, hs.last_number]
      | advanced used number fingerprints next_page last_number hc hp he =>
        subst hc
        have hfenced : CursorFenced used fingerprints next_page last_number (s.trace p) := hl.2
        have htrue : a = true := by
          have hrun := Except.ok.inj hr
          exact (congrArg Prod.snd hrun).symm.trans (cursor_answer (i := i) hrow hp)
        rw [he]
        cases next_page with
        | none =>
          cases last_number with
          | none => rfl
          | some => cases fingerprints <;> cases hfenced
        | some next_page =>
          cases last_number with
          | none => cases fingerprints <;> cases hfenced
          | some last_number =>
            obtain ⟨_, _, _, hcalled⟩ := hrefused used number fingerprints next_page last_number rfl
            cases hcalled
            cases (ha false rfl).trans htrue
      | paged used requests next_page expected_total hc _ _ =>
        subst hc
        have hwide := page_wide (i := i) hr
        rw [honly used _ rfl] at hwide
        exact absurd hwide hname
      | corroborated _ _ _ _ _ he => rw [he]
      | restarted he => exact absurd he hnot
    · rw [hnone] at hposition
      cases hposition
    · rw [hmoved] at hposition
      cases hposition
      obtain ⟨_, _, _, hcalled⟩ := hcalled
      cases hcalled
      have hid := honly used _ rfl
      subst hid
      have hrun := Except.ok.inj hr
      rw [← ha true rfl] at hrun
      obtain ⟨hnext, hlast⟩ := cursor_committed (i := i) hrun hrow'
      rw [hnext, hlast]

theorem Checkpointed.issued (hk : PassesKept settings s) (hl : Lawful settings p (s.trace p) (.call c))
    (hr : c.run i s.db = .ok (db', a)) {job : ClaimedAuthorityJob} (hi : c.authorityIssued a = some job)
    {row' : AuthorityJob} (hrow' : db'.authority_jobs.get? job.id = some row') :
    Checkpointed (⟨p, s.db, i, c, s.trace p⟩ :: s.commits) (⟨s.db, s.github, i, .call c, .ok a⟩ :: s.trace p) job
      row' := by
  cases c with
  | claimAuthority owner lease_seconds prioritize_interactive =>
    have hempty : s.trace p = [] := hl.2
    have hrun : claimAuthority i.now i.authority_locked owner lease_seconds prioritize_interactive s.db = (db', a) :=
      Except.ok.inj hr
    unfold claimAuthority at hrun
    split at hrun
    · cases hrun
      cases hi
    · rename_i id row hsel
      have hrow := (Dict.select_some hsel).1
      cases hrun
      cases hi
      rw [show (claimedAuthorityView id (row.claimed owner (i.now + seconds lease_seconds)) owner).id = id from rfl,
        Dict.get?_set_self] at hrow'
      cases hrow'
      have hends : ¬Commit.endsPass id ⟨p, s.db, i, .claimAuthority owner lease_seconds prioritize_interactive,
          s.trace p⟩ :=
        not_endsPass_of_call nofun
      have hbacked := (hk.rows id row hrow).later hends
      rw [hempty] at hbacked ⊢
      have hscoped : ∀ scope : RepositoryScope,
          (claimedAuthorityView id (row.claimed owner (i.now + seconds lease_seconds)) owner).On scope →
            row.scope_key = .repository scope.full_name ∧ row.repositoryScope id scope.full_name = scope := by
        intro scope hon
        obtain ⟨hid, hinstallation, hname⟩ := hon
        obtain ⟨id', installation_id, name⟩ := scope
        cases hid
        cases hinstallation
        cases hs : row.scope_key with
        | all => simp [claimedAuthorityView, AuthorityJob.claimed, hs] at hname
        | repository full_name =>
          simp only [claimedAuthorityView, AuthorityJob.claimed, hs, Option.some.injEq] at hname
          cases hname
          exact ⟨rfl, rfl⟩
      refine ⟨fun _ position hposition => ?_, fun _ position hposition => ?_, fun scope hon key digest hd => ?_,
        fun scope hon => ?_⟩
      · exact (Option.some.inj hposition).symm
      · exact (Option.some.inj hposition).symm
      · obtain ⟨hs, hscope⟩ := hscoped scope hon
        have hin := hbacked.fingerprints scope.full_name key digest hs hd
        rw [hscope] at hin
        exact hon.id ▸ hin
      · obtain ⟨hs, hscope⟩ := hscoped scope hon
        have hwalk := hbacked.membership scope.full_name hs
        rw [hscope] at hwalk
        exact hwalk
  | _ => cases hi

/-! ## Every step -/

theorem PassesKept.called (hk : PassesKept settings s) (ht : Traced s) (hh : Honest (s.trace p))
    (hl : Lawful settings p (s.trace p) (.call c)) (hr : c.run i s.db = .ok (db', a))
    {answer : Except Exn c.Answer} (ha : ∀ x, answer = .ok x → x = a) :
    PassesKept settings ((s.committed p i c db').seen p ⟨s.db, s.github, i, .call c, answer⟩) := by
  have htrace : ∀ q, ((s.committed p i c db').seen p ⟨s.db, s.github, i, .call c, answer⟩).trace q =
      if q = p then ⟨s.db, s.github, i, .call c, answer⟩ :: s.trace p else s.trace q :=
    fun q => seen_trace _ p q _
  have hfresh := ht.authorityInv.1
  refine ⟨?_, ?_, ?_⟩
  · intro id row' hrow'
    have hrow' : db'.authority_jobs.get? id = some row' := hrow'
    show RowBacked settings (⟨p, s.db, i, c, s.trace p⟩ :: s.commits) id row'
    have hch := (authorityChange_run hfresh hr).rows id
    rw [hrow'] at hch
    cases hrow : s.db.authority_jobs.get? id with
    | none =>
      rw [hrow] at hch
      obtain ⟨hpage, hlast, htotal, hfingerprints, hmembership⟩ := hch.unlisted
      exact .start hpage hlast htotal hfingerprints hmembership
    | some row =>
      rw [hrow] at hch
      by_cases hends : Commit.endsPass id ⟨p, s.db, i, c, s.trace p⟩
      · obtain ⟨job, owner, old, hcall, hold, hp⟩ := hends
        have hc : c = .completeAuthority job owner := hcall
        subst hc
        have hrun : completeAuthority i.now job owner s.db = (db', a) := Except.ok.inj hr
        have hsame : row' = old.restarted i.now := row_of_completion hold hp (by rw [hrun]; exact hrow')
        rw [hsame]
        exact .start rfl rfl rfl rfl rfl
      · cases hch.progress with
        | same hs => exact ((hk.rows id row hrow).same hs).later hends
        | advanced job number fingerprints next_page last_number hc hp he =>
          subst hc he
          exact .advanced hk ht hh hrow hl hp
        | paged job requests next_page expected_total hc hp he =>
          subst hc
          have hscope := (sameProgress_coalescedAll i.now (requests.filter (isForAuthority · row)) row).scope_key
          refine .paged hk ht hh hrow hl (page_wide (i := i) hr) hp ?_ ?_ ?_ <;> rw [he]
          exact hscope
        | corroborated job next_page expected_total hc hp he =>
          subst hc he
          exact .corroborated hk ht hh hrow hl hp
        | restarted he =>
          rw [he]
          exact .start rfl rfl rfl rfl rfl
  · intro q job hj row' hrow' hg' ho'
    rw [htrace] at hj ⊢
    by_cases hq : q = p
    · subst hq
      rw [if_pos rfl] at hj ⊢
      rcases heldAuthorities_call hj with hold | ⟨x, hx, hi⟩
      · exact .own hk ht hl hr ha hold hrow' hg' ho'
      · subst hx
        cases ha x rfl
        exact .issued hk hl hr hi hrow'
    · rw [if_neg hq] at hj ⊢
      exact .other hk ht hl hr hq hj hrow' hg' ho'
  · intro q job hj job' hj'
    rw [htrace] at hj hj'
    by_cases hq : q = p
    · rw [if_pos hq] at hj hj'
      have hnew : ∀ x, c.authorityIssued x = some job ∨ c.authorityIssued x = some job' → s.trace p = [] := by
        intro x hi
        cases c with
        | claimAuthority => exact hl.2
        | _ => rcases hi with hi | hi <;> cases hi
      rcases heldAuthorities_call hj with hold | ⟨x, hx, hi⟩
      · rcases heldAuthorities_call hj' with hold' | ⟨x, -, hi'⟩
        · exact hk.single p job hold job' hold'
        · rw [hnew x (Or.inr hi')] at hold
          cases hold
      · rcases heldAuthorities_call hj' with hold' | ⟨x', hx', hi'⟩
        · rw [hnew x (Or.inl hi)] at hold'
          cases hold'
        · cases hx.symm.trans hx'
          exact Option.some.inj (hi.symm.trans hi')
    · rw [if_neg hq] at hj hj'
      exact hk.single q job hj job' hj'

theorem PassesKept.quiet (hk : PassesKept settings s) {s' : World} (hdb : s'.db = s.db)
    (hcommits : s'.commits = s.commits) (ht : s'.trace = s.trace) {event : Event}
    (hheld : ∀ job ∈ heldAuthorities (event :: s.trace p), job ∈ heldAuthorities (s.trace p))
    (hposition : ∀ job, (∀ position, installationPosition job (event :: s.trace p) = some position →
        installationPosition job (s.trace p) = some position) ∧
      ∀ position, pullPosition job (event :: s.trace p) = some position →
        pullPosition job (s.trace p) = some position) : PassesKept settings (s'.seen p event) := by
  have htrace : ∀ q, (s'.seen p event).trace q = if q = p then event :: s.trace p else s.trace q := by
    intro q
    rw [seen_trace, ht]
  refine ⟨?_, ?_, ?_⟩
  · intro id row hrow
    show RowBacked settings s'.commits id row
    rw [hcommits]
    exact hk.rows id row (hdb ▸ hrow)
  · intro q job hj row hrow hg ho
    have hrow : s.db.authority_jobs.get? job.id = some row := hdb ▸ hrow
    show Checkpointed s'.commits _ job row
    rw [htrace] at hj ⊢
    rw [hcommits]
    by_cases hq : q = p
    · rw [if_pos hq] at hj ⊢
      have hcheck := hk.jobs p job (hheld job hj) row hrow hg ho
      exact ⟨fun hn position hp => hcheck.installation hn position ((hposition job).1 position hp),
        fun hn position hp => hcheck.repository hn position ((hposition job).2 position hp), hcheck.fingerprints,
        hcheck.membership⟩
    · rw [if_neg hq] at hj ⊢
      exact hk.jobs q job hj row hrow hg ho
  · intro q job hj job' hj'
    rw [htrace] at hj hj'
    by_cases hq : q = p
    · rw [if_pos hq] at hj hj'
      exact hk.single p job (hheld job hj) job' (hheld job' hj')
    · rw [if_neg hq] at hj hj'
      exact hk.single q job hj job' hj'

theorem PassesKept.failed (hk : PassesKept settings s) (x : Exn) :
    PassesKept settings (s.seen p ⟨s.db, s.github, i, .call c, .error x⟩) := by
  refine hk.quiet rfl rfl rfl (fun job hj => ?_) fun job => ⟨fun position hp => ?_, fun position hp => ?_⟩
  · rcases heldAuthorities_call hj with hold | ⟨y, hy, -⟩
    · exact hold
    · cases hy
  · rcases installationPosition_call job s.db s.github i c (.error x) (s.trace p) with
      ⟨hsame, -⟩ | hnone | ⟨_, _, _, _, ⟨_, _, _, hcalled⟩, -⟩
    · exact hsame ▸ hp
    · cases hnone.symm.trans hp
    · cases hcalled
  · rcases pullPosition_call job s.db s.github i c (.error x) (s.trace p) with
      ⟨hsame, -⟩ | hnone | ⟨_, _, _, _, _, ⟨_, _, _, hcalled⟩, -⟩
    · exact hsame ▸ hp
    · cases hnone.symm.trans hp
    · cases hcalled

theorem PassesKept.uncalled (hk : PassesKept settings s) {s' : World} (hdb : s'.db = s.db)
    (hcommits : s'.commits = s.commits) (ht : s'.trace = s.trace) {event : Event} (hnone : event.answered = none) :
    PassesKept settings (s'.seen p event) := by
  refine hk.quiet hdb hcommits ht (fun job hj => ?_) fun job => ⟨fun position hp => ?_, fun position hp => ?_⟩
  · rw [heldAuthorities, hnone] at hj
    exact hj
  · rw [installationPosition, hnone] at hp
    exact hp
  · rw [pullPosition, hnone] at hp
    exact hp

theorem PassesKept.perform (hk : PassesKept settings s) (ht : Traced s) (hh : Honest (s.trace p)) {s' : World}
    {e : Effect} {answer : Except Exn e.Answer} (hl : Lawful settings p (s.trace p) e)
    (hperf : performs p s e answer s') : PassesKept settings s' := by
  obtain ⟨-, i, s₁, hact, rfl⟩ := hperf
  have hacted := acted_of_acts hact
  have htrace := hacted.trace
  cases hacted with
  | learned c a db' _ hr => exact hk.called ht hh hl hr fun x hx => (Except.ok.inj hx).symm
  | unlearned c a db' x _ hr => exact hk.called ht hh hl hr fun y hy => by cases hy
  | idle e answer hidle =>
    cases e with
    | call c =>
      cases answer with
      | ok a => cases hidle
      | error x => exact hk.failed x
    | _ => exact hk.uncalled rfl rfl rfl (by rfl)
  | released installation_id head_sha a =>
    refine hk.uncalled ?_ ?_ htrace rfl
    · unfold World.released
      split <;> rfl
    · unfold World.released
      split <;> rfl
  | _ => exact hk.uncalled (by rfl) (by rfl) htrace (by rfl)

theorem PassesKept.env (hk : PassesKept settings s) (ht : Traced s) {s' : World} (he : environment s s') :
    PassesKept settings s' := by
  cases he with
  | github github _ => exact ⟨hk.rows, hk.jobs, hk.single⟩
  | call i c db' a hb hr =>
    obtain ⟨hfresh, htokens⟩ := ht.authorityInv
    have hch := (authorityChange_run hfresh hr).rows
    have hsame : ∀ id row row', s.db.authority_jobs.get? id = some row → db'.authority_jobs.get? id = some row' →
        SameProgress row row' := by
      intro id row row' hrow hrow'
      have hid := hch id
      rw [hrow, hrow'] at hid
      cases hid with
      | kept => exact .refl row
      | coalesced _ requests => exact sameProgress_coalescedAll i.now requests row
      | advanced _ _ _ _ _ _ hc | paged _ _ _ _ _ hc | membership _ _ _ _ hc | restarted _ _ _ hc =>
        subst hc
        cases hb
      | _ => exact .of_eq rfl rfl rfl rfl rfl rfl rfl rfl
    refine ⟨?_, ?_, hk.single⟩
    · intro id row' hrow'
      have hid := hch id
      rw [hrow'] at hid
      cases hrow : s.db.authority_jobs.get? id with
      | none =>
        rw [hrow] at hid
        obtain ⟨hpage, hlast, htotal, hfingerprints, hmembership⟩ := hid.unlisted
        exact .start hpage hlast htotal hfingerprints hmembership
      | some row => exact (hk.rows id row hrow).same (hsame id row row' hrow hrow')
    · intro q job hj row' hrow' hg' ho'
      have hid := hch job.id
      rw [hrow'] at hid
      obtain ⟨row, hrow⟩ := hid.inserted_at (htokens q job hj).fresh
      rw [hrow] at hid
      rcases hid.leased ho' with ⟨ho, hg⟩ | ⟨lease_seconds, prioritize_interactive, hc⟩
      · exact (hk.jobs q job hj row hrow (hg.symm.trans hg') ho).same (hsame job.id row row' hrow hrow')
      · subst hc
        cases hb

theorem PassesKept.clear (hk : PassesKept settings s) (p : Pid) : PassesKept settings (s.cleared p) := by
  refine ⟨hk.rows, ?_, ?_⟩
  · intro q job hj
    rw [cleared_trace] at hj ⊢
    by_cases hq : q = p
    · rw [if_pos hq] at hj
      cases hj
    · rw [if_neg hq] at hj ⊢
      exact hk.jobs q job hj
  · intro q job hj job' hj'
    rw [cleared_trace] at hj hj'
    by_cases hq : q = p
    · rw [if_pos hq] at hj
      cases hj
    · rw [if_neg hq] at hj hj'
      exact hk.single q job hj job' hj'

theorem PassesKept.initial (github : GitHub) : PassesKept settings (World.initial github) := by
  refine ⟨fun id row hrow => ?_, fun p job hj => ?_, fun p job hj => ?_⟩
  · cases hrow
  · cases hj
  · cases hj

end

/-! ## Every run -/

section
variable [PullDigest] {settings : Settings} {github : GitHub} {c : Configuration}

theorem Reached.passes (h : Reached settings github c) : PassesKept settings c.state := by
  have hinv : (Traced c.state ∧ ∀ p, Honest (c.state.trace p)) ∧ PassesKept settings c.state := by
    refine h.inv (J := fun s => (Traced s ∧ ∀ p, Honest (s.trace p)) ∧ PassesKept settings s) ?_ ?_ ?_ ?_
    · exact ⟨⟨.initial github, fun _ => .nil⟩, .initial github⟩
    · intro p s e a s' hs hl hp
      exact ⟨⟨hs.1.1.perform hl.permitted hp, honest_performs hs.1.2 hp⟩, hs.2.perform hs.1.1 (hs.1.2 p) hl hp⟩
    · intro s s' hs he
      exact ⟨⟨hs.1.1.env he, honest_environment hs.1.2 he⟩, hs.2.env hs.1.1 he⟩
    · exact fun p s hs => ⟨⟨hs.1.1.clear p, honest_cleared hs.1.2 p⟩, hs.2.clear p⟩
  exact hinv.2

theorem Reached.completing (h : Reached settings github c) {p : Pid} {job : ClaimedAuthorityJob} {owner : Str}
    {k : Except Exn Bool → Program PUnit} (hp : c.procs p = some (.op (.call (.completeAuthority job owner)) k))
    {row : AuthorityJob} (hrow : c.state.db.authority_jobs.get? job.id = some row)
    (hheld : holdsAuthority job owner job.id row = true) :
    MatchesAuthority job row ∧ Checkpointed c.state.commits (c.state.trace p) job row ∧
      PassFenced job (c.state.trace p) := by
  have hl : Lawful settings p (c.state.trace p) (.call (.completeAuthority job owner)) := h.lawful hp
  obtain ⟨hj, howner⟩ := hl.1.authority job owner rfl
  obtain ⟨-, hg, ho⟩ := holdsAuthority_eq_true.mp hheld
  refine ⟨?_, h.passes.jobs p job hj row hrow hg (howner ▸ ho), hl.2⟩
  exact (h.traced.authorityInv.2 p job hj).current row hrow hg.symm

end

/-! ## Whole listings -/

/-- The children of a page of a listing with this total were committed in the pass. -/
def ChildrenCommitted (settings : Settings) (id : Nat) (commits : List Commit) (total_count number : Nat) : Prop :=
  ∃ expected_total, ∃ page : InstallationRepositoryPage, page.Validated number expected_total ∧
    page.total_count = total_count ∧ InPass id (InstallationPaged settings id number expected_total page) commits

theorem ListedInstallation.step {settings : Settings} {id : Nat} {commits : List Commit} {a b : Nat × Option Nat}
    (h : ListedInstallation settings id commits a b) :
    PageStep (fun number total page => InPass id (InstallationPaged settings id number total page) commits) a b := by
  obtain ⟨-, page, hvalid, hb, hin⟩ := h
  exact ⟨page, hvalid, hb, hin⟩

theorem mem_pageItems {listing : List AuthorityPull} {place : Nat} {pull : AuthorityPull}
    (h : listing[place]? = some pull) : pull ∈ pageItems listing (place / 100 + 1) := by
  refine List.mem_iff_getElem?.mpr ⟨place % 100, ?_⟩
  rw [pageItems, List.getElem?_take, if_pos (Nat.mod_lt _ (by omega)), List.getElem?_drop, ← h]
  congr 1
  omega

section
variable [PullDigest]

/-- A page of a repository was left with its targeted pull requests handled. -/
def PullsCommitted (scope : RepositoryScope) (targets : Dict Str Str) (commits : List Commit) (number : Nat) : Prop :=
  ∃ after_number page, InPass scope.id (RepositoryPaged scope targets commits number after_number page) commits

variable {scope : RepositoryScope} {targets : Dict Str Str} {commits : List Commit}

theorem repository_walk {b : Nat × Nat} (h : Relation.ReflTransGen (ListedRepository scope targets commits) (1, 0) b) :
    b = (1, 0) ∨ ∃ last after_number, ∃ page : AuthorityPullPage, b.1 = page.next_page ∧
      InPass scope.id (RepositoryPaged scope targets commits last after_number page) commits ∧
      (b.1 = last + 1 ∨ b.1 = 0) ∧
      ∀ number, 1 ≤ number → number ≤ last → PullsCommitted scope targets commits number := by
  induction h with
  | refl => exact Or.inl rfl
  | @tail b d _ hstep ih =>
    right
    obtain ⟨hpage, hnext⟩ := hstep.pages
    obtain ⟨page, rfl, hin⟩ := hstep
    refine ⟨b.1, b.2, page, rfl, hin, hnext, fun number hfirst hlast => ?_⟩
    by_cases hnumber : number = b.1
    · subst hnumber
      exact ⟨b.2, page, hin⟩
    · rcases ih with rfl | ⟨last, -, -, -, -, hb, hall⟩
      · exact absurd (le_antisymm hlast hfirst) hnumber
      · refine hall number hfirst ?_
        omega

/-- A live claim on the repository read a page of its listing before this commit. -/
def ReadsListing (scope : RepositoryScope) (event : Event) (commit : Commit) : Prop :=
  event ∈ commit.trace ∧ (∃ job owner, commit.call.authorityUsed = some (job, owner) ∧ job.On scope ∧ commit.Live job) ∧
    ∃ number after_number, ∃ page : AuthorityPullPage,
      event.Read (.listAuthorityPullPage scope.installation_id scope.full_name number after_number) page

/-- Whenever the pass read a page, this place of the listing had this number,
open on a targeted branch. -/
def StaysListed (scope : RepositoryScope) (targets : Dict Str Str) (commits : List Commit)
    (place number : Nat) : Prop :=
  ∀ event, InPass scope.id (ReadsListing scope event) commits →
    ∃ pull, (event.github.listing scope.installation_id scope.full_name)[place]? = some pull ∧ pull.number = number ∧
      pull.state = .OPEN ∧ (targets.entries.isEmpty || (targets.get? pull.base_ref).isSome) = true

theorem page_of_listing {number : Nat} (h : PullsCommitted scope targets commits number) :
    ∃ event after_number, ∃ page : AuthorityPullPage, InPass scope.id (ReadsListing scope event) commits ∧
      page.Of (event.github.listing scope.installation_id scope.full_name) number after_number ∧
      ∀ pull ∈ page.pulls, (targets.entries.isEmpty || (targets.get? pull.base_ref).isSome) = true →
        HandledInPass scope commits pull := by
  obtain ⟨after_number, page, newer, commit, older, hcommits, hnewer, hpaged⟩ := h
  obtain ⟨job, pull_number, hon, hbase, htargets, hlive, hcall, hread, hpulls⟩ := hpaged
  obtain ⟨l, event, past, hτ, -, hevent, hof⟩ := hread
  refine ⟨event, after_number, page, ⟨newer, commit, older, hcommits, hnewer, ?_, ?_, ?_⟩, hof, fun pull hp ht => ?_⟩
  · rw [hτ]
    exact List.mem_append_right _ List.mem_cons_self
  · exact ⟨job, job.lease_owner, by rw [hcall]; rfl, hon, hlive⟩
  · exact ⟨number, after_number, page, hon.installation_id ▸ hevent⟩
  · refine hpulls pull (List.mem_filter.mpr ⟨hp, ?_⟩)
    simp only [isTargeted, hbase, htargets, ht, decide_true, Bool.true_or, Bool.and_self]

theorem place_of_walk {last_number : Nat}
    (h : Relation.ReflTransGen (ListedRepository scope targets commits) (1, 0) (0, last_number)) {place number : Nat}
    (hstays : StaysListed scope targets commits place number) :
    PullsCommitted scope targets commits (place / 100 + 1) := by
  rcases repository_walk h with h | ⟨last, after_number, page, hnext, hin, -, hall⟩
  · cases h
  · have hpaged : PullsCommitted scope targets commits last := ⟨after_number, page, hin⟩
    refine hall _ (Nat.le_add_left 1 _) ?_
    obtain ⟨newer, commit, older, hcommits, hnewer, job, pull_number, hon, -, -, hlive, hcall, hread, -⟩ := hin
    obtain ⟨l, event, past, hτ, -, hevent, hof⟩ := hread
    have hreads : ReadsListing scope event commit := by
      refine ⟨?_, ⟨job, job.lease_owner, by rw [hcall]; rfl, hon, hlive⟩, last, after_number, page,
        hon.installation_id ▸ hevent⟩
      rw [hτ]
      exact List.mem_append_right _ List.mem_cons_self
    obtain ⟨pull, hplace, -⟩ := hstays event ⟨newer, commit, older, hcommits, hnewer, hreads⟩
    obtain ⟨hlt, -⟩ := List.getElem?_eq_some_iff.mp hplace
    rcases hof.next with hmore | ⟨-, hlength⟩
    · exact absurd (hnext.trans hmore) (Nat.succ_ne_zero _).symm
    · have hend := lt_of_lt_of_le hlt hlength
      have hfirst := hof.requested
      omega

end

/-! ## Repositories that went away -/

/-- A page of the installation's repositories that does not list this one was
read in the pass, before this point or behind a checkpoint. -/
def SeenWithout (scope : RepositoryScope) (commits : List Commit) (τ : Trace) (number : Nat) (total : Option Nat)
    (page : InstallationRepositoryPage) : Prop :=
  page.Without scope.full_name ∧ (InPass scope.id (MembershipPaged scope number total page) commits ∨
    Happened (fun event _ => event.Read
      (.listInstallationRepositoryPage scope.installation_id number total) page) τ)

/-- No page of one whole enumeration lists the repository, and it was not
included when it was asked for after the last page. -/
def Absent (scope : RepositoryScope) (commits : List Commit) : Trace → Prop :=
  Happened fun event past =>
    event.Read (.installationIncludesRepository scope.installation_id scope.full_name) false ∧
      ∃ total_count, ∀ number, 1 ≤ number → number ≤ lastPage total_count →
        PageOf (SeenWithout scope commits past) total_count number

theorem ProvenAbsent.absent [PullDigest] {scope : RepositoryScope} {commits : List Commit} {τ : Trace}
    {job : ClaimedAuthorityJob} {row : AuthorityJob} (hh : Honest τ) (hcheck : Checkpointed commits τ job row)
    (hon : job.On scope) (h : ProvenAbsent job scope.full_name τ) : Absent scope commits τ := by
  obtain ⟨l, event, past, rfl, hin, hread, total, hwalk⟩ := h
  have hpast : Honest past := Honest.past (l := l ++ [event]) (by simpa using hh)
  have hbefore : ∀ number page_total page, PassedWithout scope commits number page_total page →
      SeenWithout scope commits past number page_total page := fun _ _ _ hp => ⟨hp.1, Or.inl hp.2⟩
  have hend : Relation.ReflTransGen (PageStep (SeenWithout scope commits past)) (1, none) (0, total) := by
    refine (PageStep.mono hbefore (hcheck.membership scope hon)).trans
      (PageStep.mono (fun _ _ _ hp => ?_) (hwalk.walk hpast))
    exact ⟨hp.1, Or.inr (hon.installation_id ▸ hp.2)⟩
  exact ⟨l, event, past, rfl, hin, hon.installation_id ▸ hread, page_walk_end hend⟩

/-! ## Completed passes -/

theorem sampleExpanded_next : sampleExpanded.next "a" = some (.call (.completeAuthority sampleExpansion "a")) := by rfl

theorem sampleRevoked_next : sampleRevoked.next "b" = some (.call (.completeAuthority sampleRevocation "b")) := by rfl

def sampleScope : RepositoryScope := ⟨2, 1, ⟨"o/r"⟩⟩

theorem sampleListed_stays :
    StaysListed sampleScope sampleRevocation.target_base_refs sampleRevoked.state.commits 0 7 := by
  intro event hin
  obtain ⟨commit, hcommit, hevent, -⟩ := hin.mem
  have hall : (sampleRevoked.state.commits.all fun commit => commit.trace.all fun event =>
      decide (event.github.listing 1 ⟨"o/r"⟩ = [sampleListed])) = true := by decide
  have hlisting : event.github.listing 1 ⟨"o/r"⟩ = [sampleListed] :=
    of_decide_eq_true (List.all_eq_true.mp (List.all_eq_true.mp hall commit hcommit) event hevent)
  refine ⟨sampleListed, ?_, rfl, rfl, rfl⟩
  show (event.github.listing 1 ⟨"o/r"⟩)[0]? = _
  rw [hlisting]
  rfl

section
variable [PullDigest] {settings : Settings} {github : GitHub} {c : Configuration}

/-- In every state, the checkpoint of an authority row is the end of a walk of
its pass over pages that were committed with all that they asked for. -/
theorem checkpoint_is_backed (h : Reached settings github c) {id : Nat} {row : AuthorityJob}
    (hrow : c.state.db.authority_jobs.get? id = some row) : RowBacked settings c.state.commits id row :=
  h.passes.rows id row hrow

end

theorem checkpoint_is_backed_sample : ∃ row, sampleRevoked.state.db.authority_jobs.get? 2 = some row ∧
    row.listing_next_page = 0 ∧ @RowBacked sampleDigest sampleSettings sampleRevoked.state.commits 2 row :=
  ⟨_, by rfl, by rfl, @checkpoint_is_backed sampleDigest _ sampleGitHub _ sampleRevoked_reached _ _ (by rfl)⟩

section
variable [PullDigest] {settings : Settings} {github : GitHub} {c : Configuration}

/-- When the pass over an installation is completed, the children of every page
of one listing were committed in it, unless a page was refused. -/
theorem installation_pass_is_complete (h : Reached settings github c) {p : Pid} {job : ClaimedAuthorityJob}
    {owner : Str} {k : Except Exn Bool → Program PUnit}
    (hp : c.procs p = some (.op (.call (.completeAuthority job owner)) k))
    (hwide : job.repository_full_name = none) {row : AuthorityJob}
    (hrow : c.state.db.authority_jobs.get? job.id = some row) (hheld : holdsAuthority job owner job.id row = true) :
    (∃ total_count, ∀ number, 1 ≤ number → number ≤ lastPage total_count →
      ChildrenCommitted settings job.id c.state.commits total_count number) ∨
    Happened (fun event _ => ∃ requests next_page expected_total, event.Called
      (.advanceInstallationAuthorityPage job requests next_page expected_total) false) (c.state.trace p) := by
  obtain ⟨hmatch, hcheck, hfenced⟩ := h.completing hp hrow hheld
  rw [PassFenced, hwide] at hfenced
  refine hfenced.imp_left fun ⟨total, hposition⟩ => ?_
  have hwalk := (h.passes.rows job.id row hrow).installation (hmatch.scope_key.trans (scopeKey_all hwide))
  rw [← hcheck.installation hwide _ hposition] at hwalk
  exact page_walk_end (Relation.ReflTransGen.mono (fun _ _ hstep => hstep.step) _ _ hwalk)

end

theorem installation_pass_is_complete_sample :
    (∃ total_count, ∀ number, 1 ≤ number → number ≤ lastPage total_count →
      ChildrenCommitted sampleSettings 1 sampleExpanded.state.commits total_count number) ∨
    Happened (fun event _ => ∃ requests next_page expected_total, event.Called
      (.advanceInstallationAuthorityPage sampleExpansion requests next_page expected_total) false)
      (sampleExpanded.state.trace "a") := by
  obtain ⟨k, hk⟩ := Configuration.next_eq_some sampleExpanded_next
  exact @installation_pass_is_complete sampleDigest sampleSettings sampleGitHub _ sampleExpanded_reached _ _ _ k hk
    rfl _ (by rfl) (by decide)

section
variable [PullDigest] {settings : Settings} {github : GitHub} {c : Configuration}

/-- When the pass over a repository is completed, every pull request that kept
its place in the listing, open on a targeted branch, was handled in it as some
read of the pass listed it; unless a whole enumeration of its installation did
not list the repository, or it was added archived. -/
theorem repository_pass_is_complete (h : Reached settings github c) {p : Pid} {job : ClaimedAuthorityJob}
    {owner : Str} {k : Except Exn Bool → Program PUnit}
    (hp : c.procs p = some (.op (.call (.completeAuthority job owner)) k)) {scope : RepositoryScope}
    (hon : job.On scope) {row : AuthorityJob} (hrow : c.state.db.authority_jobs.get? job.id = some row)
    (hheld : holdsAuthority job owner job.id row = true) {place number : Nat}
    (hstays : StaysListed scope job.target_base_refs c.state.commits place number) :
    (∃ event pull, InPass scope.id (ReadsListing scope event) c.state.commits ∧
      pull ∈ event.github.listing scope.installation_id scope.full_name ∧ pull.number = number ∧
      HandledInPass scope c.state.commits pull) ∨
    Absent scope c.state.commits (c.state.trace p) ∨ ArchivedAddition job scope.full_name (c.state.trace p) := by
  obtain ⟨hmatch, hcheck, hfenced⟩ := h.completing hp hrow hheld
  have hname := hon.repository_full_name
  rw [PassFenced, hname] at hfenced
  refine hfenced.imp (fun ⟨last_number, hposition⟩ => ?_)
    (Or.imp_left fun habsent => habsent.absent (h.honest p) hcheck hon)
  have hscope : row.repositoryScope job.id scope.full_name = scope := by
    rw [AuthorityJob.repositoryScope, hmatch.installation_id, hon.installation_id, hon.id]
  have hwalk := (h.passes.rows job.id row hrow).repository scope.full_name
    (hmatch.scope_key.trans (scopeKey_repository hname))
  have hnamed : job.repository_full_name ≠ none := by
    rw [hname]
    exact Option.some_ne_none _
  rw [hscope, hmatch.targets, ← hcheck.repository hnamed _ hposition] at hwalk
  obtain ⟨event, after_number, page, hreads, hof, hhandled⟩ := page_of_listing (place_of_walk hwalk hstays)
  obtain ⟨pull, hplace, hnumber, hopen, htargeted⟩ := hstays event hreads
  have hlisted : pull ∈ page.pulls := by
    rw [hof.pulls]
    exact List.mem_filter.mpr ⟨mem_pageItems hplace, by simpa using hopen⟩
  exact ⟨event, pull, hreads, List.mem_of_getElem? hplace, hnumber, hhandled pull hlisted htargeted⟩

end

theorem repository_pass_is_complete_sample :
    (∃ event pull, InPass 2 (ReadsListing sampleScope event) sampleRevoked.state.commits ∧
      pull ∈ event.github.listing 1 ⟨"o/r"⟩ ∧ pull.number = 7 ∧
      @HandledInPass sampleDigest sampleScope sampleRevoked.state.commits pull) ∨
    Absent sampleScope sampleRevoked.state.commits (sampleRevoked.state.trace "b") ∨
    ArchivedAddition sampleRevocation ⟨"o/r"⟩ (sampleRevoked.state.trace "b") := by
  obtain ⟨k, hk⟩ := Configuration.next_eq_some sampleRevoked_next
  exact @repository_pass_is_complete sampleDigest sampleSettings sampleGitHub _ sampleRevoked_reached _ _ _ k hk
    sampleScope ⟨rfl, rfl, rfl⟩ _ (by rfl) (by decide) 0 7 sampleListed_stays

end ExtraCodeowners
