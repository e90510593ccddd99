import ExtraCodeowners.Specs
import ExtraCodeowners.Lib.Footprint

/-!
# The discipline of a process

What a process must have done before it acts, as a condition on its own trace:
the claims a call uses are in hand, a check is written under the guard of its
head, and a completed check only behind all of its fences. A section is a part
of a trace in which no guard is given up and no claim ends.
-/

namespace ExtraCodeowners

open System EvaluationService Worker

/-! ## Events that keep something -/

def Call.endsClaim (c : Call) : Bool :=
  c.claimReleased.isSome || c.authorityReleased.isSome || c.invalidationReleased.isSome

def Effect.endsClaim : Effect → Bool
  | .call c => c.endsClaim
  | _ => false

def Event.inClaim (event : Event) : Bool := !event.effect.endsClaim

def Event.inPublication (event : Event) : Bool := event.inClaim && !event.effect.releasesAuthorityGuard

def Event.inSection (event : Event) : Bool := event.inPublication && !event.effect.releasesCheckGuard

def Survives (keeps : Event → Bool) (K : Trace → Prop) : Prop :=
  ∀ event τ, keeps event = true → K τ → K (event :: τ)

section
variable {keeps keeps' : Event → Bool} {K L : Trace → Prop}

theorem Survives.mono (h : Survives keeps' K) (hk : ∀ event, keeps event = true → keeps' event = true) :
    Survives keeps K := fun event τ he hs => h event τ (hk event he) hs

theorem Survives.and (hK : Survives keeps K) (hL : Survives keeps L) : Survives keeps fun τ => K τ ∧ L τ :=
  fun event τ he hs => ⟨hK event τ he hs.1, hL event τ he hs.2⟩

theorem Survives.const (c : Prop) : Survives keeps fun _ => c := fun _ _ _ h => h

theorem Survives.imp {c : Prop} (hK : Survives keeps K) : Survives keeps fun τ => c → K τ :=
  fun event τ he hs hc => hK event τ he (hs hc)

theorem Survives.exists {β : Type} {K : β → Trace → Prop} (hK : ∀ b, Survives keeps (K b)) :
    Survives keeps fun τ => ∃ b, K b τ := fun event τ he ⟨b, hs⟩ => ⟨b, hK b event τ he hs⟩

theorem Survives.once (P : Event → Trace → Prop) : Survives keeps (Once keeps P) :=
  fun _ _ he hs => hs.later he

theorem Survives.happened (P : Event → Trace → Prop) : Survives keeps (Happened P) :=
  (Survives.once P).mono fun _ _ => rfl

theorem inClaim_of_inPublication (event : Event) (h : event.inPublication = true) : event.inClaim = true := by
  simp only [Event.inPublication, Bool.and_eq_true] at h
  exact h.1

theorem inPublication_of_inSection (event : Event) (h : event.inSection = true) :
    event.inPublication = true := by
  simp only [Event.inSection, Bool.and_eq_true] at h
  exact h.1

theorem Survives.publication (h : Survives Event.inClaim K) : Survives Event.inPublication K :=
  h.mono inClaim_of_inPublication

theorem Survives.within (h : Survives Event.inPublication K) : Survives Event.inSection K :=
  h.mono inPublication_of_inSection

end

/-! ### Claims in hand -/

section
variable {event : Event} {τ : Trace}

theorem inClaim_released (h : event.inClaim = true) {c : Call} {answer : Option c.Answer}
    (he : event.answered = some ⟨c, answer⟩) :
    c.claimReleased = none ∧ c.authorityReleased = none ∧ c.invalidationReleased = none := by
  obtain ⟨db, g, i, e, a⟩ := event
  have hc : e = .call c := by
    cases e with
    | call c' => cases a <;> cases he <;> rfl
    | _ => cases he
  subst hc
  simpa [Event.inClaim, Effect.endsClaim, Call.endsClaim, and_assoc] using h

theorem heldClaims_kept (job : ClaimedJob) : Survives Event.inClaim fun τ => job ∈ heldClaims τ := by
  intro event τ he hs
  rw [heldClaims]
  cases hc : event.answered with
  | none => exact hs
  | some called =>
    obtain ⟨c, answer⟩ := called
    refine List.mem_append_right _ ?_
    rw [(inClaim_released he hc).1]
    exact hs

theorem heldAuthorities_kept (job : ClaimedAuthorityJob) :
    Survives Event.inClaim fun τ => job ∈ heldAuthorities τ := by
  intro event τ he hs
  rw [heldAuthorities]
  cases hc : event.answered with
  | none => exact hs
  | some called =>
    obtain ⟨c, answer⟩ := called
    refine List.mem_append_right _ ?_
    rw [(inClaim_released he hc).2.1]
    exact hs

theorem heldInvalidations_kept (job : ClaimedSharedHeadInvalidation) :
    Survives Event.inClaim fun τ => job ∈ heldInvalidations τ := by
  intro event τ he hs
  rw [heldInvalidations]
  cases hc : event.answered with
  | none => exact hs
  | some called =>
    obtain ⟨c, answer⟩ := called
    refine List.mem_append_right _ ?_
    rw [(inClaim_released he hc).2.2]
    exact hs

theorem holdsAuthorityGuard_kept (id : Nat) :
    Survives Event.inPublication fun τ => holdsAuthorityGuard id τ = true := by
  intro event τ he hs
  simp only [Event.inPublication, Bool.and_eq_true, Bool.not_eq_true'] at he
  exact holdsAuthorityGuard_later he.2 hs

theorem holdsCheckGuard_kept (id : Nat) (head : HeadSha) :
    Survives Event.inSection fun τ => holdsCheckGuard id head τ = true := by
  intro event τ he hs
  simp only [Event.inSection, Bool.and_eq_true, Bool.not_eq_true'] at he
  exact holdsCheckGuard_later he.2 hs

end

/-! ## What stands behind a write -/

/-- In one section under the guard of a head, GitHub listed its pull requests
and each of them was read. -/
def Snapshot (key : EpochKey) (current : List AssociatedPull) (τ : Trace) : Prop :=
  ∃ l event older, ∃ associated : List AssociatedPull, τ = l ++ event :: older ∧
    (∀ e ∈ l, e.inSection = true) ∧ holdsCheckGuard key.installation_id key.head_sha older = true ∧
    event.Read (.listCommitPulls key) associated ∧
    (∀ a ∈ associated, ∃ pull ∈ current, pull.number = a.number) ∧
    ∀ pull ∈ current, ∃ e ∈ l, ∃ answer : Pull,
      e.Read (.getPull key.installation_id key.repository_full_name pull.number) answer ∧
        answer.state = pull.state ∧ answer.head_sha = pull.head_sha

def Publishable (job : ClaimedJob) (head : HeadSha) (event : Event) (past : Trace) : Prop :=
  event.Asked (.sharedHeadGenerationIsPublishable job head) true ∧
    holdsCheckGuard job.installation_id head past = true ∧ job ∈ heldClaims past

/-- The claim was current after its generation was publishable. -/
def Current (job : ClaimedJob) (head : HeadSha) (event : Event) (past : Trace) : Prop :=
  event.Asked (.isCurrentClaim job) true ∧ holdsAuthorityGuard job.installation_id past = true ∧
    Once Event.inSection (Publishable job head) past

def Unblocked (job : ClaimedJob) (base_ref : Str) (event : Event) (past : Trace) : Prop :=
  event.Asked (.hasBlockingAuthority job base_ref) false ∧
    holdsAuthorityGuard job.installation_id past = true

def Shown (job : ClaimedJob) (pull : Pull) : Trace → Prop :=
  Happened fun event _ =>
    event.Read (.getPull job.installation_id job.repository_full_name job.pull_number) pull

structure Fenced (job : ClaimedJob) (head : HeadSha) (τ : Trace) : Prop where
  held : job ∈ heldClaims τ
  guarded : holdsCheckGuard job.installation_id head τ = true
  publishing : holdsAuthorityGuard job.installation_id τ = true
  current : Once Event.inSection (Current job head) τ
  unblocked : ∃ pull, Shown job pull τ ∧ pull.state = .OPEN ∧ pull.head_sha = head ∧
    Once Event.inSection (Unblocked job pull.base_ref) τ

/-- No other open pull request has the head. -/
def Sole (job : ClaimedJob) (head : HeadSha) (τ : Trace) : Prop :=
  ∃ current, Snapshot (job.epochKey head) current τ ∧
    (current.filter (isOpenOn head)).map (·.number) = [job.pull_number]

def WriteFenced (τ : Trace) : CheckWrite → Prop
  | .upsertCompleted key job conclusion _ => ∃ head, key = job.epochKey head ∧ Fenced job head τ ∧
      (conclusion = .SUCCESS → Sole job head τ)
  | .upsertInterim key | .resetCheckRun key _ | .cancelCheckRun key _ =>
    holdsCheckGuard key.installation_id key.head_sha τ = true

/-! ## What stands behind the end of an invalidation -/

/-- Under the guard the head was found without a check. -/
def Unpublished (job : ClaimedSharedHeadInvalidation) (event : Event) (past : Trace) : Prop :=
  job ∈ heldInvalidations past ∧ holdsCheckGuard job.installation_id job.head_sha past = true ∧
    event.Read (.existingCheckRunId job.epochKey) none

def Reset (job : ClaimedSharedHeadInvalidation) (event : Event) (past : Trace) : Prop :=
  job ∈ heldInvalidations past ∧ holdsCheckGuard job.installation_id job.head_sha past = true ∧
    ∃ check_run_id, event.Wrote (.resetCheckRun job.epochKey check_run_id)

def Surveyed (job : ClaimedSharedHeadInvalidation) (current : List AssociatedPull) (τ : Trace) : Prop :=
  ∃ l older, τ = l ++ older ∧ job ∈ heldInvalidations older ∧ Snapshot job.epochKey current older

def Unneeded (job : ClaimedSharedHeadInvalidation) (τ : Trace) : Prop :=
  ∃ current, Surveyed job current τ ∧ current.any (isOpenOn job.head_sha) = false

/-- Every open pull request on the head has its evaluation. -/
def FannedOut (job : ClaimedSharedHeadInvalidation) (current : List AssociatedPull) (τ : Trace) : Prop :=
  ∀ pull ∈ current, isOpenOn job.head_sha pull = true →
    Happened (fun event _ =>
      event.Called (.enqueueForSharedHeadGeneration (fanOutRequest job pull.number) job.generation) true) τ

/-- There was no check; or one, which was reset unless no pull request needed
it, and what needed it has an evaluation. -/
def InvalidationSettled (job : ClaimedSharedHeadInvalidation) (τ : Trace) : Prop :=
  Happened (Unpublished job) τ ∨
    ∃ current, Surveyed job current τ ∧ FannedOut job current τ ∧
      (current.any (isOpenOn job.head_sha) = true → Happened (Reset job) τ)

/-! ## What stands behind a checkpoint -/

/-- Where the listing of an installation stands for a claimant, if it knows. -/
def installationPosition (job : ClaimedAuthorityJob) : Trace → Option (Nat × Option Nat)
  | [] => some (job.listing_next_page, job.listing_expected_total)
  | event :: older =>
    match event.answered with
    | some ⟨.advanceInstallationAuthorityPage _ _ next_page expected_total, some true⟩ =>
      some (next_page, expected_total)
    | some ⟨.advanceInstallationAuthorityPage .., none⟩ => none
    | _ => installationPosition job older

/-- Where the listing of pull requests stands for a claimant, if it knows. -/
def pullPosition (job : ClaimedAuthorityJob) : Trace → Option (Nat × Nat)
  | [] => some (job.listing_next_page, job.listing_last_number)
  | event :: older =>
    match event.answered with
    | some ⟨.advanceAuthorityCursor _ _ _ (some next_page) (some last_number), some true⟩ =>
      some (next_page, last_number)
    | some ⟨.advanceAuthorityCursor _ _ _ (some _) _, none⟩ => none
    | _ => pullPosition job older

/-- The policy of a branch was read at its head, and is absent. -/
def PolicyShownAbsent (installation_id : Nat) (full_name : Repository) (base_ref : Str) (τ : Trace) : Prop :=
  ∃ sha : Str, Happened (fun event _ => event.Read (.getBranchHead installation_id full_name base_ref) sha) τ ∧
    Happened (fun event _ =>
      event.Read (.repositoryPolicyText installation_id full_name sha) (none : Option Str)) τ

/-- GitHub showed that a listed pull request has neither a check nor a policy. -/
def Unenrolled (job : ClaimedAuthorityJob) (full_name : Repository) (pull : AuthorityPull) (τ : Trace) : Prop :=
  ∃ shown : Pull,
    Happened (fun event _ => event.Read (.getPull job.installation_id full_name pull.number) shown) τ ∧
      shown.state = .OPEN ∧ shown.head_sha = pull.head_sha ∧ shown.repository_full_name = full_name ∧
      Happened (fun event _ => event.Read
        (.hasReconciliationCheck ⟨job.installation_id, full_name, pull.head_sha⟩) false) τ ∧
      PolicyShownAbsent job.installation_id full_name shown.base_ref τ

/-- An evaluation of a listed pull request was queued at its listed head. -/
def Requeued (job : ClaimedAuthorityJob) (full_name : Repository) (pull : AuthorityPull) : Trace → Prop :=
  Happened fun event _ => event.Called (.enqueue (revocationRequest job full_name pull)) () ∨
    event.Called (.enqueue (promoted (revocationRequest job full_name pull))) ()

def Handled (job : ClaimedAuthorityJob) (full_name : Repository) (pull : AuthorityPull) (τ : Trace) : Prop :=
  Requeued job full_name pull τ ∨ Unenrolled job full_name pull τ

section
variable [PullDigest]

/-- The fingerprint is one the claim came with, or of a pull request handled since. -/
def Vouched (job : ClaimedAuthorityJob) (full_name : Repository) (key digest : Str) (τ : Trace) : Prop :=
  job.handled_pull_fingerprints.get? key = some digest ∨
    ∃ pull : AuthorityPull, decimal pull.number = key ∧ PullDigest.hexdigest pull.observation = digest ∧
      Handled job full_name pull τ

/-- Every targeted pull request of the page that a checkpoint leaves is vouched for. -/
def PageHandled (job : ClaimedAuthorityJob) (next_page last_number : Nat) (τ : Trace) : Prop :=
  ∃ full_name number after_number, ∃ page : AuthorityPullPage, job.repository_full_name = some full_name ∧
    pullPosition job τ = some (number, after_number) ∧
    Happened (fun event _ => event.Read
      (.listAuthorityPullPage job.installation_id full_name number after_number) page) τ ∧
    page.next_page = next_page ∧ page.last_number = last_number ∧
    ∀ pull ∈ targetedPulls job page,
      Vouched job full_name (decimal pull.number) (PullDigest.hexdigest pull.observation) τ

def CursorFenced (job : ClaimedAuthorityJob) (fingerprints : Option (Dict Str Str))
    (next_page last_number : Option Nat) (τ : Trace) : Prop :=
  match fingerprints, next_page, last_number with
  | some fingerprints, none, none => ∃ full_name, job.repository_full_name = some full_name ∧
      ∀ key digest, fingerprints.get? key = some digest → Vouched job full_name key digest τ
  | some fingerprints, some next_page, some last_number =>
    fingerprints = ∅ ∧ PageHandled job next_page last_number τ
  | _, _, _ => False

end

/-- The children of a listed page, or the restart of a listing that changed. -/
def InstallationFenced (settings : Settings) (job : ClaimedAuthorityJob) (requests : List AuthorityRequest)
    (next_page : Nat) (expected_total : Option Nat) (τ : Trace) : Prop :=
  (requests = [] ∧ next_page = 1 ∧ expected_total = none) ∨
    ∃ number total, ∃ page : InstallationRepositoryPage,
      installationPosition job τ = some (number, total) ∧ number ≠ 0 ∧
      Happened (fun event _ => event.Read
        (.listInstallationRepositoryPage job.installation_id number total) page) τ ∧
      requests = installationChildren settings job page ∧ next_page = page.next_page ∧
      expected_total = some page.total_count

/-- A page of the repositories of an installation was read, and the repository
is not on it. -/
def Unlisted (job : ClaimedAuthorityJob) (full_name : Repository) (τ : Trace) (a b : Nat × Option Nat) : Prop :=
  ∃ page : InstallationRepositoryPage,
    Happened (fun event _ => event.Read
      (.listInstallationRepositoryPage job.installation_id a.1 a.2) page) τ ∧
    (∀ r ∈ page.repositories.repositories, r.1 ≠ full_name) ∧ b = (page.next_page, some page.total_count)

/-- The pages from the checkpoint of the claim up to here do not list the repository. -/
def ReadWithout (job : ClaimedAuthorityJob) (full_name : Repository) (position : Nat × Option Nat)
    (τ : Trace) : Prop :=
  Relation.ReflTransGen (Unlisted job full_name τ) (job.membership_next_page, job.membership_expected_total)
    position

/-- The end of such pages, or the restart of a listing that changed. -/
def MembershipFenced (job : ClaimedAuthorityJob) (next_page : Nat) (expected_total : Option Nat) (τ : Trace) : Prop :=
  (next_page = 1 ∧ expected_total = none) ∨
    ∃ full_name, job.repository_full_name = some full_name ∧ ReadWithout job full_name (next_page, expected_total) τ

/-- Every page up to the last one did not list the repository, and it was not
included when it was asked for after that. -/
def ProvenAbsent (job : ClaimedAuthorityJob) (full_name : Repository) : Trace → Prop :=
  Happened fun event past =>
    event.Read (.installationIncludesRepository job.installation_id full_name) false ∧
      ∃ total, ReadWithout job full_name (0, total) past

/-- A repository that was added to its installation is archived. -/
def ArchivedAddition (job : ClaimedAuthorityJob) (full_name : Repository) (τ : Trace) : Prop :=
  job.reason = ("installation_repositories.added" : Str) ∧
    Happened (fun event _ => event.Read (.getRepository job.installation_id full_name) (full_name, true)) τ

def Departed (job : ClaimedAuthorityJob) (full_name : Repository) (τ : Trace) : Prop :=
  ProvenAbsent job full_name τ ∨ ArchivedAddition job full_name τ

/-- The listing of a completed pass ended; or a page of it was refused; or the
repository has left its installation, or was added archived. -/
def PassFenced (job : ClaimedAuthorityJob) (τ : Trace) : Prop :=
  match job.repository_full_name with
  | none => (∃ total, installationPosition job τ = some (0, total)) ∨
      Happened (fun event _ => ∃ requests next_page expected_total, event.Called
        (.advanceInstallationAuthorityPage job requests next_page expected_total) false) τ
  | some full_name => (∃ last_number, pullPosition job τ = some (0, last_number)) ∨ Departed job full_name τ

/-! ## What stands behind a record -/

/-- A completed check was written, and the fences behind it held. -/
def Stood (job : ClaimedJob) (head : HeadSha) (conclusion : EvaluationConclusion) : Trace → Prop :=
  Happened fun event past => event.Asked (.sharedHeadGenerationIsPublishable job head) true ∧
    Happened (fun event past => event.Asked (.isCurrentClaim job) true ∧
      Happened (fun event past => (∃ skip_if_unchanged,
          event.Wrote (.upsertCompleted (job.epochKey head) job conclusion skip_if_unchanged)) ∧
        WriteFenced past (.upsertCompleted (job.epochKey head) job conclusion false)) past) past

/-- Nothing had overtaken the publication when its slot looked again: no later
evidence, and no authority over the branch that the pull request was shown on. -/
def Audited (job : ClaimedJob) (head : HeadSha) (conclusion : EvaluationConclusion) (τ : Trace) : Prop :=
  ∃ pull, Shown job pull τ ∧ pull.state = .OPEN ∧ pull.head_sha = head ∧
    Happened (fun event past => event.Asked (.hasBlockingAuthority job pull.base_ref) false ∧
      Happened (fun event past => event.Asked (.hasSupersedingJob job) false ∧
        Stood job head conclusion past) past) τ

/-! ## Lawful effects -/

section
variable [PullDigest] (settings : Settings)

def CallFenced (τ : Trace) : Call → Prop
  -- authority changes come with deliveries and with pages
  | .enqueueAuthority _ => False
  | .claim .. => heldInvalidations τ = []
  | .claimSharedHeadInvalidation .. => heldClaims τ = []
  -- one authority row for one iteration of a slot
  | .claimAuthority .. => τ = []
  | .completeSharedHeadInvalidation job => InvalidationSettled job τ
  | .advanceAuthorityCursor job _ fingerprints next_page last_number =>
    CursorFenced job fingerprints next_page last_number τ
  | .advanceInstallationAuthorityPage job requests next_page expected_total =>
    InstallationFenced settings job requests next_page expected_total τ
  | .advanceAuthorityMembershipPage job next_page expected_total =>
    MembershipFenced job next_page expected_total τ
  | .completeAuthority job _ => PassFenced job τ
  | _ => True

def Lawful (p : Pid) (τ : Trace) : Effect → Prop
  | .call c => CallPermitted p τ c ∧ CallFenced settings τ c
  | .write w => WriteFenced τ w
  | .recordAudit job head_sha result => Audited job head_sha result.conclusion τ
  | _ => True

end

end ExtraCodeowners
