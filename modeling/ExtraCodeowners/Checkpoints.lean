import ExtraCodeowners.FanOut

/-!
# Checkpoints of a discovery

A prefix that is saved holds fingerprints of handled pull requests only, a page
is left when its pull requests are handled, and a pass ends with its listing.
-/

namespace ExtraCodeowners

open System EvaluationService

/-! ## Outcomes -/

/-- What a task of a page left behind. -/
abbrev Outcome (job : ClaimedAuthorityJob) (full_name : Repository) (τ : Trace) (pull : AuthorityPull)
    (outcome : Except Exn Unit) : Prop :=
  Post (fun _ τ => Handled job full_name pull τ) (fun _ _ => True) outcome τ

theorem Outcome.kept (keeps : Event → Bool) (job : ClaimedAuthorityJob) (full_name : Repository)
    (pulls : List AuthorityPull) (outcomes : List (Except Exn Unit)) :
    Survives keeps fun τ => List.Forall₂ (Outcome job full_name τ) pulls outcomes := by
  intro event τ he hs
  refine hs.imp fun pull outcome hr => ?_
  cases outcome with
  | ok u => exact Handled.kept keeps job full_name pull event τ he hr
  | error x => trivial

/-- Where nothing is raised, every outcome is a normal end. -/
theorem firstError_none : ∀ {outcomes : List (Except Exn Unit)}, Worker.firstError outcomes = none →
    ∀ outcome ∈ outcomes, outcome = .ok ()
  | [], _, _, hr => by cases hr
  | .ok () :: rest, h, outcome, hr => by
    have hrest : Worker.firstError rest = none := h
    rcases List.mem_cons.mp hr with rfl | hr
    · rfl
    · exact firstError_none hrest outcome hr
  | .error x :: rest, h, _, _ => by cases h

/-- A task of a page that ended normally is one of a pull request that is handled. -/
theorem Outcome.handled {job : ClaimedAuthorityJob} {full_name : Repository} {τ : Trace} {pulls : List AuthorityPull}
    {outcomes : List (Except Exn Unit)} (h : List.Forall₂ (Outcome job full_name τ) pulls outcomes) (hok : Worker.firstError outcomes = none) :
    ∀ pull ∈ pulls, Handled job full_name pull τ := by
  intro pull hp
  have hall := firstError_none hok
  clear hok
  induction h with
  | nil => cases hp
  | @cons pull' outcome pulls outcomes hr _ ih =>
    rcases List.mem_cons.mp hp with rfl | hp
    · rw [hall outcome List.mem_cons_self] at hr
      exact hr
    · exact ih hp fun o ho => hall o (List.mem_cons_of_mem _ ho)

/-! ## Where a claimant stands -/

/-- A checkpoint moves the position, and keeps the rest. -/
theorem Discovering.advanced {job : ClaimedAuthorityJob} {full_name : Repository} {position : Option (Nat × Nat)}
    {τ : Trace} (h : Discovering job full_name position τ) (db : Db) (g : GitHub)
    (i : Instant) (number : Nat) (fingerprints : Option (Dict Str Str)) (next_page last_number : Nat) :
    Discovering job full_name (some (next_page, last_number)) (⟨db, g, i, .call (.advanceAuthorityCursor job number
      fingerprints (some next_page) (some last_number)), .ok true⟩ :: τ) := by
  refine ⟨heldAuthorities_kept job _ τ rfl h.held, rfl, fun base_ref hr => ?_⟩
  have hsame : recalledPolicy base_ref τ = some (.ok false) := hr
  exact PolicyShownAbsent.kept Event.inClaim _ _ _ _ τ rfl (h.remembers base_ref hsame)

/-- Where a claimant of an installation stands. -/
structure Expanding (job : ClaimedAuthorityJob) (position : Option (Nat × Option Nat)) (τ : Trace) : Prop where
  held : job ∈ heldAuthorities τ
  position : installationPosition job τ = position

theorem Expanding.kept (job : ClaimedAuthorityJob) (position : Option (Nat × Option Nat)) :
    Survives Event.aside (Expanding job position) := by
  intro event τ he hs
  refine ⟨heldAuthorities_kept job event τ (inClaim_of_aside event he) hs.held, ?_⟩
  exact installationPosition_kept job position event τ he hs.position

/-- What a claimant knows of its row before it looks at anything. -/
structure Fresh (job : ClaimedAuthorityJob) (τ : Trace) : Prop where
  held : job ∈ heldAuthorities τ
  installation : installationPosition job τ = some (job.listing_next_page, job.listing_expected_total)
  pulls : pullPosition job τ = some (job.listing_next_page, job.listing_last_number)
  forgets : ∀ base_ref, recalledPolicy base_ref τ = none

theorem Fresh.kept (job : ClaimedAuthorityJob) : Survives Event.aside (Fresh job) := by
  intro event τ he hs
  refine ⟨?_, ?_, pullPosition_kept job _ event τ he hs.pulls, fun base_ref => ?_⟩
  · exact heldAuthorities_kept job event τ (inClaim_of_aside event he) hs.held
  · exact installationPosition_kept job _ event τ he hs.installation
  · obtain ⟨db, g, i, e, a⟩ := event
    cases e with
    | rememberPolicy => cases he
    | _ => exact hs.forgets base_ref

/-! ## Membership of a repository -/

theorem ReadWithout.kept (keeps : Event → Bool) (job : ClaimedAuthorityJob) (full_name : Repository)
    (position : Nat × Option Nat) : Survives keeps (ReadWithout job full_name position) := by
  intro event τ _ hs
  refine Relation.ReflTransGen.mono (fun a b hstep => ?_) _ _ hs
  obtain ⟨page, hread, hnot, hb⟩ := hstep
  exact ⟨page, hread.later rfl, hnot, hb⟩

section
variable [PullDigest] {settings : Settings} {p : Pid} {job : ClaimedAuthorityJob} {full_name : Repository}
  {position : Option (Nat × Nat)} {K : Trace → Prop}

/-! ## Fingerprints -/

theorem Vouched.kept (keeps : Event → Bool) (job : ClaimedAuthorityJob) (full_name : Repository)
    (key digest : Str) : Survives keeps (Vouched job full_name key digest) := by
  intro event τ he hs
  rcases hs with hs | ⟨pull, hkey, hdigest, hhandled⟩
  · exact Or.inl hs
  · exact Or.inr ⟨pull, hkey, hdigest, Handled.kept keeps job full_name pull event τ he hhandled⟩

/-- Every fingerprint of a collection is vouched for. -/
def AllVouched (job : ClaimedAuthorityJob) (full_name : Repository) (handled : Dict Str Str) (τ : Trace) : Prop :=
  ∀ key digest, handled.get? key = some digest → Vouched job full_name key digest τ

theorem AllVouched.kept (keeps : Event → Bool) (job : ClaimedAuthorityJob) (full_name : Repository)
    (handled : Dict Str Str) : Survives keeps (AllVouched job full_name handled) :=
  fun event τ he hs key digest hd => Vouched.kept keeps job full_name key digest event τ he (hs key digest hd)

theorem AllVouched.empty (τ : Trace) : AllVouched job full_name ∅ τ := by
  intro key digest hd
  cases hd

theorem AllVouched.claimed (τ : Trace) : AllVouched job full_name job.handled_pull_fingerprints τ :=
  fun _ _ hd => Or.inl hd

theorem AllVouched.deleteWhere {handled : Dict Str Str} {τ : Trace} (h : AllVouched job full_name handled τ)
    (drop : Str → Str → Bool) : AllVouched job full_name (handled.deleteWhere drop) τ := by
  intro key digest hd
  rw [Dict.get?_deleteWhere] at hd
  refine h key digest ?_
  cases hg : handled.get? key with
  | none =>
    rw [hg] at hd
    cases hd
  | some digest' =>
    rw [hg] at hd
    simp only [Option.filter] at hd
    split at hd
    · exact hd
    · cases hd

theorem AllVouched.set {handled : Dict Str Str} {τ : Trace} (h : AllVouched job full_name handled τ)
    {pull : AuthorityPull} (hp : Handled job full_name pull τ) :
    AllVouched job full_name (handled.set (decimal pull.number) (PullDigest.hexdigest pull.observation)) τ := by
  intro key digest hd
  rw [Dict.get?_set] at hd
  by_cases hk : key = decimal pull.number
  · rw [if_pos hk] at hd
    exact Or.inr ⟨pull, hk.symm, Option.some.inj hd, hp⟩
  · rw [if_neg hk] at hd
    exact h key digest hd

theorem AllVouched.checkpointPrefix {τ : Trace} : ∀ {pulls : List AuthorityPull} {outcomes : List (Except Exn Unit)},
    List.Forall₂ (Outcome job full_name τ) pulls outcomes → ∀ {handled : Dict Str Str} (number : Nat),
      AllVouched job full_name handled τ →
        AllVouched job full_name (Worker.checkpointPrefix handled number (pulls.zip outcomes)).2 τ
  | _, _, .nil, _, _, h => h
  | _, _, .cons (a := pull) (b := outcome) hr hrest, handled, number, h => by
    cases outcome with
    | ok u => exact AllVouched.checkpointPrefix hrest pull.number (h.set hr)
    | error x => exact h

/-! ## A page -/

/-- A call under the authority change that a process works on. -/
theorem lawful_authorityUsed {c : Call} {owner : Str} {τ : Trace} (hc : c.authorityUsed = some (job, owner))
    (hj : job ∈ heldAuthorities τ) (ho : owner = job.lease_owner) (hfenced : CallFenced settings τ c) :
    Lawful settings p τ (.call c) := by
  refine And.intro ⟨?_, ?_, ?_, ?_, ?_⟩ hfenced
  · intro used owner' hu
    cases c <;> first | (cases hu; done) | cases hc
  · intro used owner' hu
    cases hc.symm.trans hu
    exact ⟨hj, ho⟩
  · intro used hu
    cases c <;> first | (cases hu; done) | cases hc
  · intro owner' hu
    cases c <;> first | (cases hu; done) | cases hc
  · intro owner' lease_seconds work_class hu
    subst hu
    cases hc

/-- Every task of a page ends in its outcome, in whatever turns they go on. -/
theorem gatherRevocations_does (first : Except Exn Bool → Bool) (pulls : List AuthorityPull) :
    Spec nobody (fun _ => True) (Lawful settings p) (Discovering job full_name position)
      (Prog.gather (E := Effect) (A := Effect.Answer) .pick first
        (pulls.map fun pull => Worker.revoke settings job full_name (Worker.revocationRequest job full_name pull)))
      (fun outcomes τ => List.Forall₂ (Outcome job full_name τ) pulls outcomes ∧ Discovering job full_name position τ)
      fun _ => Discovering job full_name position := by
  have hsurrounds : Surrounds observes (· <:+ ·) (Discovering job full_name position) (InTask job full_name)
      Effect.pick := by
    refine ⟨fun τ e a τ' _ _ hobs => ?_, fun τ _ => Or.inl rfl⟩
    obtain ⟨-, db, g, i, -, rfl⟩ := hobs
    exact List.suffix_cons _ _
  have hgather : Triple (amid observes (· <:+ ·)) (Discovering job full_name position)
      (fun _ => InTask job full_name) ⟨⟩ (fun _ => True) (Prog.gather Effect.pick first
        (pulls.map fun pull => Worker.revoke settings job full_name (Worker.revocationRequest job full_name pull)))
      (fun outcomes τ => List.Forall₂ (Outcome job full_name τ) pulls outcomes) fun _ _ => False :=
    Triple.gather hsurrounds (fun _ _ _ hs => hs)
      (fun pull _ τ τ' hr => (Handled.kept (fun _ => true) job full_name pull).suffix τ τ' hr)
      (fun _ _ _ _ _ hs => hs) pulls fun pull _ => revoke_task pull
  have henclosed := hgather.enclosed (H := InTask job full_name) (fun τ e a τ' hI he hobs => hI.task he hobs)
    fun τ e _ he => he
  -- the process has the guard of each task, and so may write when a task may
  have hbalanced : Prog.Balanced checkLocks ∅ ∅ (Prog.gather (E := Effect) (A := Effect.Answer) .pick first
      (pulls.map fun pull => Worker.revoke settings job full_name (Worker.revocationRequest job full_name pull))) := by
    refine Prog.Balanced.gather (Effect.isPlain.locks rfl) fun task htask => ?_
    obtain ⟨pull, -, rfl⟩ := List.mem_map.mp htask
    exact revoke_balanced job full_name
  intro τ _ hs
  have hboth := wp_and (henclosed τ trivial ⟨trivial, hs⟩)
    (wp_of_balanced checkLocks_keeps hbalanced (Set.empty_subset _))
  refine wp_mono (fun r τ _ hr => ?_) trivial (wp_guarantee (fun τ e _ he => he.1.lawful he.2) hboth)
  cases r with
  | ok outcomes => exact hr.1
  | error x => exact hr.1.2

/-! ### After the tasks -/

theorem raiseOutcomes_does (hK : Survives Event.aside K) (outcomes : List (Except Exn Unit)) :
    Does settings p K (Worker.raiseOutcomes outcomes) fun _ _ => Worker.firstError outcomes = none := by
  unfold Worker.raiseOutcomes
  cases hl : Worker.longest (Worker.rateLimits outcomes) with
  | some limit =>
    obtain ⟨message, retry_after_seconds, global_scope⟩ := limit
    dsimp only
    refine Does.seq (R := fun _ _ => True) ?_ fun _ => Does.throw
    cases Worker.longest ((Worker.rateLimits outcomes).filter (·.2.2)) with
    | none => exact Does.pure fun _ _ => trivial
    | some limit =>
      refine (Does.effect hK (fun _ _ _ _ => rfl) fun τ _ => ?_).weaken fun _ _ _ _ => trivial
      exact Call.isPlain.lawful rfl settings p τ
  | none =>
    dsimp only
    cases hf : Worker.firstError outcomes with
    | some x => exact Does.throw
    | none => exact Does.pure fun _ _ => rfl

/-- Every targeted pull request of a page is vouched for. -/
def PageVouched (job : ClaimedAuthorityJob) (full_name : Repository) (page : AuthorityPullPage) (τ : Trace) : Prop :=
  ∀ pull ∈ Worker.targetedPulls job page,
    Vouched job full_name (decimal pull.number) (PullDigest.hexdigest pull.observation) τ

/-- What was left to do on a page, and what an earlier attempt had done. -/
theorem PageVouched.of_batch {handled : Dict Str Str} {page : AuthorityPullPage} {τ : Trace}
    (hc : AllVouched job full_name handled τ)
    (h : ∀ pull ∈ Worker.batch handled (Worker.targetedPulls job page), Handled job full_name pull τ) :
    PageVouched job full_name page τ := by
  intro pull hp
  by_cases hdone : Worker.isHandled handled pull = true
  · refine hc _ _ ?_
    simpa [Worker.isHandled] using hdone
  · refine Or.inr ⟨pull, rfl, rfl, h pull ?_⟩
    simp [Worker.batch, List.mem_insertionSort, hp, hdone]

theorem savePrefix_does (hK : Survives Event.aside K) (hj : ∀ τ, K τ → job ∈ heldAuthorities τ)
    (hname : job.repository_full_name = some full_name) (number : Nat) (handled : Dict Str Str)
    (hc : ∀ τ, K τ → AllVouched job full_name handled τ) :
    Does settings p K (Worker.savePrefix job number handled) fun _ _ => True := by
  refine Does.ite (fun _ => Does.pure fun _ _ => trivial) fun _ => ?_
  refine Does.seq (Does.effect hK (fun _ _ _ _ => rfl) fun τ hs => ?_) fun (current : Bool) => ?_
  · exact lawful_authorityUsed rfl (hj τ hs) rfl ⟨full_name, hname, hc τ hs⟩
  · exact Does.ite (fun _ => Does.throw) fun _ => Does.pure fun _ _ => trivial

/-- Where a claimant stands when the tasks of a page have ended. -/
structure PageRun (job : ClaimedAuthorityJob) (full_name : Repository) (position : Option (Nat × Nat))
    (handled : Dict Str Str) (pulls : List AuthorityPull) (outcomes : List (Except Exn Unit)) (τ : Trace) : Prop where
  outcomes : List.Forall₂ (Outcome job full_name τ) pulls outcomes
  discovering : Discovering job full_name position τ
  covered : AllVouched job full_name handled τ

theorem PageRun.kept (handled : Dict Str Str) (pulls : List AuthorityPull) (outcomes : List (Except Exn Unit)) :
    Survives Event.aside (PageRun job full_name position handled pulls outcomes) := by
  intro event τ he hs
  refine ⟨Outcome.kept Event.aside job full_name pulls outcomes event τ he hs.outcomes, ?_, ?_⟩
  · exact Discovering.kept job full_name position event τ he hs.discovering
  · exact AllVouched.kept Event.aside job full_name handled event τ he hs.covered

/-- A page ends normally only when it is vouched for. -/
theorem revokePage_does (hname : job.repository_full_name = some full_name) (handled : Dict Str Str)
    (page : AuthorityPullPage) :
    Spec nobody (fun _ => True) (Lawful settings p)
      (fun τ => Discovering job full_name position τ ∧ AllVouched job full_name handled τ)
      (Worker.revokePage settings job full_name handled page)
      (fun _ τ => Discovering job full_name position τ ∧ PageVouched job full_name page τ)
      fun _ τ => job ∈ heldAuthorities τ := by
  refine Triple.bind (R := fun outcomes => PageRun job full_name position handled
    (Worker.batch handled (Worker.targetedPulls job page)) outcomes) ?_ fun outcomes => ?_
  · refine (Spec.frame (gatherRevocations_does _ _) fun event τ _ _ hs =>
      AllVouched.kept (fun _ => true) job full_name handled event τ rfl hs).conseq (fun _ _ hs => hs) ?_ ?_
    · exact fun outcomes τ _ hs => ⟨hs.1.1, hs.1.2, hs.2⟩
    · exact fun _ _ _ hs => hs.1.held
  · have hK : Survives Event.aside (PageRun job full_name position handled
      (Worker.batch handled (Worker.targetedPulls job page)) outcomes) := PageRun.kept _ _ _
    have hsave : ∀ number, Does settings p _ (Worker.savePrefix job number _) _ := fun number =>
      savePrefix_does hK (fun τ hs => hs.discovering.held) hname number _ fun τ hs =>
        AllVouched.checkpointPrefix hs.outcomes 0 (hs.covered.deleteWhere fun number _ =>
          ((Worker.observations (Worker.targetedPulls job page)).get? number).isNone)
    have hraise : Does settings p _ (Worker.raiseOutcomes outcomes) _ := raiseOutcomes_does hK outcomes
    refine Triple.bind ((hsave _).conseq (fun _ _ hs => hs) (fun _ _ _ hs => hs.2)
      fun _ _ _ hs => hs.discovering.held) fun _ => ?_
    refine Triple.bind (hraise.conseq (fun _ _ hs => hs) (fun _ _ _ hs => hs)
      fun _ _ _ hs => hs.discovering.held) fun _ => ?_
    refine Triple.pure fun τ _ hs => ⟨hs.2.discovering, PageVouched.of_batch hs.2.covered ?_⟩
    exact Outcome.handled hs.2.outcomes hs.1

/-! ## Membership -/

section
variable (hK : Survives Event.aside K) (hj : ∀ τ, K τ → job ∈ heldAuthorities τ)
include hK

theorem aside_does (r : GitHubRead) :
    Does settings p K (read r) fun a τ => Happened (fun event _ => event.Read r a) τ := by
  refine (Does.effect (e := .read r) hK (fun _ _ _ _ => rfl) fun _ _ => trivial).weaken fun a τ _ ho => ?_
  refine (ho.keeping fun _ _ => rfl).imp fun event past hs => ?_
  obtain ⟨-, db, g, i, rfl, -⟩ := hs
  exact ⟨db, g, i, rfl⟩

include hj

/-- A corroboration goes on from where the claim stands, page by page. -/
theorem corroborateMembership_does (hname : job.repository_full_name = some full_name) :
    ∀ (fuel next_page : Nat) (expected_total : Option Nat),
      Spec nobody (fun _ => True) (Lawful settings p)
        (fun τ => ReadWithout job full_name (next_page, expected_total) τ ∧ K τ)
        (Worker.corroborateMembership job full_name fuel next_page expected_total)
        (fun listed τ => (listed = false → ∃ total, ReadWithout job full_name (0, total) τ) ∧ K τ) fun _ => K
  | 0, _, _ => Triple.throw fun _ _ hs => hs.2
  | fuel + 1, next_page, expected_total => by
    refine Triple.ite (fun hdone => Triple.pure fun τ _ hs => ?_) fun _ => ?_
    · subst hdone
      exact ⟨fun _ => ⟨expected_total, hs.1⟩, hs.2⟩
    have hK' := (ReadWithout.kept Event.aside job full_name (next_page, expected_total)).and hK
    refine Triple.bind (R := fun page τ => Happened (fun event _ => event.Read
        (.listInstallationRepositoryPage job.installation_id next_page expected_total) page) τ ∧
      ReadWithout job full_name (next_page, expected_total) τ ∧ K τ) ?_ fun (page : InstallationRepositoryPage) => ?_
    · refine ((aside_does hK' _).handle fun x => Does.seq (R := fun _ _ => True)
        (Does.ite (fun _ => ?_) fun _ => ?_) fun _ => Does.throw).conseq (fun _ _ hs => hs) (fun _ _ _ hs => hs)
        fun _ _ _ hs => hs.2
      · exact Does.seq (Does.effect hK' (fun _ _ _ _ => rfl) fun τ hs =>
          lawful_authorityUsed rfl (hj τ hs.2) rfl (Or.inl ⟨rfl, rfl⟩)) fun _ => Does.pure fun _ _ => trivial
      · exact Does.pure fun _ _ => trivial
    refine Triple.ite (fun _ => Triple.pure fun τ _ hs => ⟨fun hf => (by cases hf), hs.2.2⟩) fun hlisted => ?_
    have hnext : ∀ τ, (Happened (fun event _ => event.Read
        (.listInstallationRepositoryPage job.installation_id next_page expected_total) page) τ ∧
        ReadWithout job full_name (next_page, expected_total) τ ∧ K τ) →
        ReadWithout job full_name (page.next_page, some page.total_count) τ := by
      intro τ hs
      refine hs.2.1.tail ⟨page, hs.1, fun r hr hsame => hlisted ?_, rfl⟩
      exact List.any_eq_true.mpr ⟨r, hr, decide_eq_true hsame⟩
    have hadvance : Does settings p _ _ _ := Does.effect
      (e := .call (.advanceAuthorityMembershipPage job page.next_page (some page.total_count)))
      ((Survives.happened _).and hK') (fun _ _ _ _ => rfl) fun τ hs =>
        lawful_authorityUsed rfl (hj τ hs.2.2) rfl (Or.inr ⟨full_name, hname, hnext τ hs⟩)
    refine Triple.bind (hadvance.conseq (fun _ _ hs => hs) (fun _ _ _ hs => hs.2) fun _ _ _ hs => hs.2.2)
      fun (current : Bool) => ?_
    refine Triple.ite (fun _ => Triple.throw fun _ _ hs => hs.2.2) fun _ => ?_
    exact (corroborateMembership_does hname fuel page.next_page (some page.total_count)).conseq
      (fun τ _ hs => ⟨hnext τ hs, hs.2.2⟩) (fun _ _ _ hs => hs) fun _ _ _ hs => hs

theorem authorityRepositoryAbsent_does (hname : job.repository_full_name = some full_name) (fuel : Nat) :
    Does settings p K (Worker.authorityRepositoryAbsent fuel job full_name)
      fun absent τ => absent = true → ProvenAbsent job full_name τ := by
  refine Triple.bind ((corroborateMembership_does hK hj hname fuel _ _).conseq
    (fun _ _ hs => ⟨.refl, hs⟩) (fun _ _ _ hs => hs) fun _ _ _ hs => hs) fun listed => ?_
  refine Triple.ite (fun _ => Triple.pure fun τ _ hs => ⟨fun hf => (by cases hf), hs.2⟩) fun hl => ?_
  have hK' : Survives Event.aside fun τ => (listed = false → ∃ total, ReadWithout job full_name (0, total) τ) ∧ K τ :=
    (Survives.imp (Survives.exists fun total => ReadWithout.kept Event.aside job full_name (0, total))).and hK
  have hread : Does settings p (fun τ => (listed = false → ∃ total, ReadWithout job full_name (0, total) τ) ∧ K τ)
      (read (.installationIncludesRepository job.installation_id full_name))
      fun (included : Bool) τ => included = false → ProvenAbsent job full_name τ := by
    refine (Does.effect (e := .read (.installationIncludesRepository job.installation_id full_name)) hK'
      (fun _ _ _ _ => rfl) fun _ _ => trivial).weaken fun included τ _ ho hf => ?_
    subst hf
    refine (ho.keeping fun _ _ => rfl).imp fun event past he => ?_
    obtain ⟨hpast, db, g, i, rfl, -⟩ := he
    exact ⟨⟨db, g, i, rfl⟩, hpast.1 (by simpa using hl)⟩
  refine Triple.bind (hread.narrow (fun _ hs => hs) fun _ hs => hs.2) fun (included : Bool) => ?_
  exact Triple.pure fun τ _ hs => ⟨fun hf => hs.1 (by simpa using hf), hs.2⟩

theorem orProvenAbsent_does (hname : job.repository_full_name = some full_name) {α : Type} {fuel : Nat}
    {body : Program (Option α)} {Q : Option α → Trace → Prop} (hbody : Does settings p K body Q)
    (hQ : ∀ τ, ProvenAbsent job full_name τ → Q none τ) :
    Does settings p K (Worker.orProvenAbsent fuel job full_name body) Q := by
  refine hbody.handle fun x => ?_
  cases x with
  | gitHubAPI message status_code =>
    refine Does.ite (fun _ => ?_) fun _ => Does.throw
    refine (authorityRepositoryAbsent_does hK hj hname fuel).bind fun absent => ?_
    exact Does.ite (fun ha => Does.pure fun τ hs => hQ τ (hs.1 ha)) fun _ => Does.throw
  | _ => exact Does.throw

theorem requireMembership_does (hname : job.repository_full_name = some full_name) (fuel : Nat) :
    Does settings p K (Worker.requireMembership fuel job full_name)
      fun present τ => present = none → Departed job full_name τ := by
  refine orProvenAbsent_does hK hj hname ?_ fun τ hs _ => Or.inl hs
  have hpresent : ∀ {L : Trace → Prop}, Does settings p L (pure (some ()) : Program (Option Unit))
      fun present τ => present = none → Departed job full_name τ := Does.pure fun _ _ hn => by cases hn
  refine Does.seq (aside_does hK _) fun (included : Bool) => Does.ite (fun _ => ?_) fun _ => ?_
  · refine (authorityRepositoryAbsent_does hK hj hname fuel).bind fun absent => ?_
    exact Does.ite (fun ha => Does.pure fun τ hs _ => Or.inl (hs.1 ha)) fun _ => Does.throw
  · refine Does.ite (fun hadded => ?_) fun _ => hpresent
    refine (aside_does hK _).bind fun (current : Repository × Bool) => ?_
    refine Does.ite (fun _ => Does.throw) fun hsame => Does.ite (fun harchived => ?_) fun _ => hpresent
    refine Does.pure fun τ hs _ => Or.inr ⟨hadded, ?_⟩
    obtain ⟨name, archived⟩ := current
    simp only [ne_eq, not_not] at hsame harchived
    subst hsame harchived
    exact hs.1

end

/-! ## The pages of a repository -/

/-- A page, or that the repository has left. -/
def Listed (job : ClaimedAuthorityJob) (full_name : Repository) (next_page last_number : Nat)
    (listed : Option AuthorityPullPage) (τ : Trace) : Prop :=
  match listed with
  | none => Departed job full_name τ
  | some page => Happened (fun event _ =>
      event.Read (.listAuthorityPullPage job.installation_id full_name next_page last_number) page) τ

theorem listPage_does (hK : Survives Event.aside K) (hj : ∀ τ, K τ → job ∈ heldAuthorities τ)
    (hname : job.repository_full_name = some full_name) (fuel next_page last_number : Nat) :
    Does settings p K (Worker.orProvenAbsent fuel job full_name
      (some <$> read (.listAuthorityPullPage job.installation_id full_name next_page last_number)))
      fun listed τ => Listed job full_name next_page last_number listed τ := by
  refine orProvenAbsent_does hK hj hname ?_ fun τ hs => Or.inl hs
  exact (aside_does hK _).bind fun (page : AuthorityPullPage) => Does.pure fun τ hs => hs.1

/-- The listing of a pass has ended, or its repository is gone. -/
def PullsDone (job : ClaimedAuthorityJob) (full_name : Repository) (τ : Trace) : Prop :=
  (∃ last_number, pullPosition job τ = some (0, last_number)) ∨ Departed job full_name τ

theorem advancePage_does (hname : job.repository_full_name = some full_name) {next_page last_number : Nat}
    (page : AuthorityPullPage) (completed_number : Nat) :
    Spec nobody (fun _ => True) (Lawful settings p)
      (fun τ => (Discovering job full_name (some (next_page, last_number)) τ ∧ PageVouched job full_name page τ) ∧
        Listed job full_name next_page last_number (some page) τ)
      (call (.advanceAuthorityCursor job completed_number (some ∅) (some page.next_page) (some page.last_number)))
      (fun (current : Bool) τ => job ∈ heldAuthorities τ ∧ (current = true →
        Discovering job full_name (some (page.next_page, page.last_number)) τ ∧ AllVouched job full_name ∅ τ))
      fun _ τ => job ∈ heldAuthorities τ := by
  refine Spec.effect (nobody_keeps _) (fun τ _ hs => ?_) ?_ ?_
  · refine lawful_authorityUsed rfl hs.1.1.held rfl ⟨rfl, ?_⟩
    exact ⟨full_name, next_page, last_number, page, hname, hs.1.1.position, hs.2, rfl, rfl, hs.1.2⟩
  · intro τ db g i current _ hs _
    refine ⟨heldAuthorities_kept job _ τ rfl hs.1.1.held, fun hc => ?_⟩
    subst hc
    exact ⟨hs.1.1.advanced db g i completed_number (some ∅) page.next_page page.last_number, AllVouched.empty _⟩
  · exact fun τ db g i x _ _ hs => heldAuthorities_kept job _ τ rfl hs.1.1.held

theorem discoverPulls_does (hname : job.repository_full_name = some full_name) :
    ∀ (fuel next_page last_number completed_number : Nat) (handled : Dict Str Str),
      Spec nobody (fun _ => True) (Lawful settings p)
        (fun τ => Discovering job full_name (some (next_page, last_number)) τ ∧ AllVouched job full_name handled τ)
        (Worker.discoverPulls settings job full_name fuel next_page last_number completed_number handled)
        (fun _ τ => PullsDone job full_name τ ∧ job ∈ heldAuthorities τ) fun _ τ => job ∈ heldAuthorities τ
  | 0, _, _, _, _ => Triple.throw fun τ _ hs => hs.1.held
  | fuel + 1, next_page, last_number, completed_number, handled => by
    refine Triple.ite (fun hdone => Triple.pure fun τ _ hs => ?_) fun _ => ?_
    · subst hdone
      exact ⟨Or.inl ⟨last_number, hs.1.position⟩, hs.1.held⟩
    have hK := (Discovering.kept job full_name (some (next_page, last_number))).and
      (AllVouched.kept Event.aside job full_name handled)
    refine Triple.bind ((listPage_does hK (fun _ hs => hs.1.held) hname fuel next_page last_number).conseq
      (fun _ _ hs => hs) (fun _ _ _ hs => hs) fun _ _ _ hs => hs.1.held) fun listed => ?_
    cases listed with
    | none => exact Triple.pure fun τ _ hs => ⟨Or.inr hs.1, hs.2.1.held⟩
    | some page =>
      refine Triple.bind ((Spec.frame (L := Listed job full_name next_page last_number (some page))
        (revokePage_does hname handled page) fun event τ _ _ hs => hs.later rfl).conseq
        (fun τ _ hs => ⟨hs.2, hs.1⟩) (fun _ _ _ hs => hs) fun _ _ _ hs => hs.1) fun prefix_number => ?_
      refine Triple.bind (advancePage_does hname page (max completed_number prefix_number))
        fun (current : Bool) => ?_
      refine Triple.ite (fun _ => Triple.throw fun _ _ hs => hs.1) fun hc => ?_
      refine (discoverPulls_does hname fuel page.next_page page.last_number _ ∅).conseq ?_ (fun _ _ _ hs => hs)
        fun _ _ _ hs => hs
      exact fun τ _ hs => hs.2 (by simpa using hc)

/-! ## The pages of an installation -/

/-- The listing has ended, or a page of it was refused. -/
def InstallationDone (job : ClaimedAuthorityJob) (τ : Trace) : Prop :=
  (∃ total, installationPosition job τ = some (0, total)) ∨
    Happened (fun event _ => ∃ requests next_page expected_total, event.Called
      (.advanceInstallationAuthorityPage job requests next_page expected_total) false) τ

theorem restartInstallation_ends {position : Option (Nat × Option Nat)} (x : Exn) :
    Spec nobody (fun _ => True) (Lawful settings p) (Expanding job position)
      ((if x = .installationRepositoriesChanged then do
          let _ : Bool ← call (.advanceInstallationAuthorityPage job [] 1 none)
          pure ()
        else pure () : Program Unit) >>= fun _ => (Prog.throw x : Program InstallationRepositoryPage))
      (fun _ _ => False) fun _ τ => job ∈ heldAuthorities τ := by
  refine Triple.bind (R := fun _ τ => job ∈ heldAuthorities τ) (Triple.ite (fun _ => ?_) fun _ => ?_) fun _ =>
    Triple.throw fun _ _ hs => hs
  · refine Triple.bind (R := fun _ τ => job ∈ heldAuthorities τ) ?_ fun _ => Triple.pure fun _ _ hs => hs
    refine Spec.effect (nobody_keeps _) (fun τ _ hs => ?_) ?_ ?_
    · exact lawful_authorityUsed rfl hs.held rfl (Or.inl ⟨rfl, rfl, rfl⟩)
    · exact fun τ db g i a _ hs _ => heldAuthorities_kept job _ τ rfl hs.held
    · exact fun τ db g i x _ _ hs => heldAuthorities_kept job _ τ rfl hs.held
  · exact Triple.pure fun _ _ hs => hs.held

theorem discoverInstallation_does : ∀ (fuel next_page : Nat) (expected_total : Option Nat),
    Spec nobody (fun _ => True) (Lawful settings p) (Expanding job (some (next_page, expected_total)))
      (Worker.discoverInstallation settings job fuel next_page expected_total)
      (fun _ τ => InstallationDone job τ ∧ job ∈ heldAuthorities τ) fun _ τ => job ∈ heldAuthorities τ
  | 0, _, _ => Triple.throw fun _ _ hs => hs.held
  | fuel + 1, next_page, expected_total => by
    refine Triple.ite (fun hdone => Triple.pure fun τ _ hs => ?_) fun hnumber => ?_
    · subst hdone
      exact ⟨Or.inl ⟨expected_total, hs.position⟩, hs.held⟩
    have hK := Expanding.kept job (some (next_page, expected_total))
    refine Triple.bind (R := fun page τ => Happened (fun event _ => event.Read
      (.listInstallationRepositoryPage job.installation_id next_page expected_total) page) τ ∧
        Expanding job (some (next_page, expected_total)) τ) ?_ fun (page : InstallationRepositoryPage) => ?_
    · refine Triple.handle (aside_does hK _) fun x => ?_
      exact (restartInstallation_ends x).conseq (fun _ _ hs => hs) (fun _ _ _ hs => hs.elim) fun _ _ _ hs => hs
    · refine Triple.bind (R := fun (current : Bool) τ => job ∈ heldAuthorities τ ∧
        (current = true → Expanding job (some (page.next_page, some page.total_count)) τ) ∧
        (current = false → InstallationDone job τ)) ?_ fun (current : Bool) => ?_
      · refine Spec.effect (nobody_keeps _) (fun τ _ hs => ?_) ?_ ?_
        · refine lawful_authorityUsed rfl hs.2.held rfl (Or.inr ?_)
          exact ⟨next_page, expected_total, page, hs.2.position, hnumber, hs.1, rfl, rfl, rfl⟩
        · intro τ db g i current _ hs _
          have hheld : job ∈ heldAuthorities (⟨db, g, i, .call (.advanceInstallationAuthorityPage job
              (Worker.installationChildren settings job page) page.next_page (some page.total_count)),
              .ok current⟩ :: τ) := heldAuthorities_kept job _ τ rfl hs.2.held
          refine ⟨hheld, fun hc => ?_, fun hc => ?_⟩
          · subst hc
            exact ⟨hheld, rfl⟩
          · subst hc
            exact Or.inr (Once.here ⟨_, _, _, db, g, i, rfl⟩)
        · exact fun τ db g i x _ _ hs => heldAuthorities_kept job _ τ rfl hs.2.held
      · refine Triple.ite (fun hc => Triple.pure fun τ _ hs => ?_) fun hc => ?_
        · exact ⟨hs.2.2 (by simpa using hc), hs.1⟩
        · refine (discoverInstallation_does fuel page.next_page (some page.total_count)).conseq ?_
            (fun _ _ _ hs => hs) fun _ _ _ hs => hs
          exact fun τ _ hs => hs.2.1 (by simpa using hc)

/-! ## A pass -/

theorem discoverAuthority_does (fuel : Nat) :
    Spec nobody (fun _ => True) (Lawful settings p) (Fresh job) (Worker.discoverAuthority settings fuel job)
      (fun _ τ => PassFenced job τ ∧ job ∈ heldAuthorities τ) fun _ τ => job ∈ heldAuthorities τ := by
  unfold Worker.discoverAuthority PassFenced
  cases hname : job.repository_full_name with
  | none =>
    dsimp only
    refine (discoverInstallation_does fuel _ _).conseq ?_ (fun _ _ _ hs => hs) fun _ _ _ hs => hs
    exact fun τ _ hs => ⟨hs.held, hs.installation⟩
  | some full_name =>
    dsimp only
    have hK := Fresh.kept job
    refine Triple.bind ((requireMembership_does hK (fun _ hs => hs.held) hname fuel).conseq (fun _ _ hs => hs)
      (fun _ _ _ hs => hs) fun _ _ _ hs => hs.held) fun present => ?_
    cases present with
    | none => exact Triple.pure fun τ _ hs => ⟨Or.inr (hs.1 rfl), hs.2.held⟩
    | some u =>
      refine (discoverPulls_does hname fuel _ _ _ _).conseq ?_ (fun _ _ _ hs => hs) fun _ _ _ hs => hs
      refine fun τ _ hs => ⟨⟨hs.2.held, hs.2.pulls, fun base_ref hr => ?_⟩, AllVouched.claimed τ⟩
      rw [hs.2.forgets base_ref] at hr
      cases hr

section
variable {owner : Str} (ho : owner = job.lease_owner)
include ho

theorem authorityFailed_ends (x : Exn) :
    Finishes settings p (fun τ => job ∈ heldAuthorities τ) (Worker.authorityFailed settings job owner x) := by
  have hused : ∀ {c : Call}, c.authorityUsed = some (job, owner) → (∀ τ, CallFenced settings τ c) →
      ∀ τ, job ∈ heldAuthorities τ → Lawful settings p τ (.call c) :=
    fun hc hf τ hs => lawful_authorityUsed hc hs ho (hf τ)
  have hdefer : ∀ delay preserve, Finishes settings p (fun τ => job ∈ heldAuthorities τ)
      (Worker.deferAuthority job owner x delay preserve) := fun _ _ => Finishes.last (hused rfl fun _ => trivial)
  have hfail : ∀ message maximum minimum, Finishes settings p (fun τ => job ∈ heldAuthorities τ)
      (call (.failAuthority job owner message maximum minimum)) :=
    fun _ _ _ => Finishes.effect (hused rfl fun _ => trivial)
  have hK := (heldAuthorities_kept job).publication.within
  cases x with
  | recoveryBudgetDeferred => exact hdefer _ _
  | gitHubRateLimit =>
    exact Finishes.after (Does.plain hK (plain_call rfl)) fun _ => (hdefer _ _).under fun _ hs => hs.2
  | cancelled => exact Finishes.throw
  | gitHubAPI => exact Triple.ite (fun _ => hfail _ _ _) fun _ => hfail _ _ _
  | _ => exact hfail _ _ _

theorem processAuthority_ends (fuel : Nat) :
    Finishes settings p (Fresh job) (Worker.processAuthority settings fuel job owner) := by
  have hexecute : Spec nobody (fun _ => True) (Lawful settings p) (Fresh job)
      (Worker.executeAuthority settings fuel job)
      (fun _ τ => PassFenced job τ ∧ job ∈ heldAuthorities τ) fun _ τ => job ∈ heldAuthorities τ := by
    refine Triple.bind (R := fun _ => Fresh job) ?_ fun _ => discoverAuthority_does fuel
    refine (Does.effect (e := .query (.authorityHasDirectWaiter job)) (Fresh.kept job) (fun _ _ _ _ => rfl)
      fun _ _ => trivial).conseq (fun _ _ hs => hs) (fun _ _ _ hs => hs.2) fun _ _ _ hs => hs.held
  refine Triple.tryElse hexecute (fun _ => ?_) (authorityFailed_ends ho)
  exact Finishes.last fun τ hs => lawful_authorityUsed rfl hs.2 ho hs.1

end

end

end ExtraCodeowners
