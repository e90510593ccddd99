import ExtraCodeowners.Conduct

/-!
# Evaluations keep to the discipline

An evaluation writes a completed check only behind its fences, whatever the
store, GitHub and the other processes do in between.
-/

namespace ExtraCodeowners

open System EvaluationService

abbrev PlainProgram {α : Type} (prog : Program α) : Prop := prog.Only fun e => e.isPlain = true

theorem once_since {keeps : Event → Bool} {P : Event → Trace → Prop} {L : Trace → Prop} (hL : Survives keeps L)
    (hP : ∀ event past, P event past → L (event :: past)) {τ : Trace} (h : Once keeps P τ) : L τ := by
  obtain ⟨l, event, older, rfl, hl, hp⟩ := h
  induction l with
  | nil => exact hP event older hp
  | cons e l ih => exact hL e _ (hl e List.mem_cons_self) (ih fun e' he' => hl e' (List.mem_cons_of_mem _ he'))

/-! ## Reads -/

theorem plain_query (q : Query) : PlainProgram (query q) := Prog.Only.perform rfl

theorem plain_read (r : GitHubRead) : PlainProgram (read r) := Prog.Only.perform rfl

theorem plain_call {c : Call} (h : c.isPlain = true) : PlainProgram (call c) := Prog.Only.perform h

theorem amends_read (key : EpochKey) (r : GitHubRead) : (read r).Only (Effect.amends key) :=
  Prog.Only.perform (Or.inl rfl)

theorem amends_query (key : EpochKey) (q : Query) : (query q).Only (Effect.amends key) :=
  Prog.Only.perform (Or.inl rfl)

theorem amends_write {key : EpochKey} {w : CheckWrite} (h : w.amends key) :
    (write w).Only (Effect.amends key) := Prog.Only.perform (Or.inr ⟨w, rfl, h⟩)

theorem amends_plain (key : EpochKey) {α : Type} {prog : Program α} (h : PlainProgram prog) :
    prog.Only (Effect.amends key) := h.mono fun _ => Or.inl

theorem branchPolicy_plain (installation_id : Nat) (repository_full_name : Repository) (base_ref : Str) :
    PlainProgram (branchPolicy installation_id repository_full_name base_ref) :=
  Prog.Only.bind (fun _ => Prog.Only.bind (fun _ => Prog.Only.pure _) (plain_read _)) (plain_read _)

theorem policyPresent_plain (installation_id : Nat) (repository_full_name : Repository) (base_ref : Str) :
    PlainProgram (EvaluationService.policyPresent installation_id repository_full_name base_ref) :=
  Prog.Only.bind (fun _ => Prog.Only.pure _) (branchPolicy_plain _ _ _)

theorem markInvalidated_plain (delivery_id : Option Str) : PlainProgram (markInvalidated delivery_id) := by
  cases delivery_id with
  | none => exact Prog.Only.pure _
  | some delivery_id => exact Prog.Only.bind (fun _ => Prog.Only.pure _) (plain_call rfl)

theorem policyOr_plain (policy : Option (Str × Option Str)) {fresh : Program (Str × Option Str)}
    (h : PlainProgram fresh) : PlainProgram (policyOr policy fresh) := by
  cases policy with
  | none => exact h
  | some policy => exact Prog.Only.pure _

theorem rebindToHead_plain (job : ClaimedJob) (pull : Pull) : PlainProgram (rebindToHead job pull) :=
  Prog.Only.bind (fun _ => Prog.Only.bind (fun (_ : Bool) => Prog.Only.ite (Prog.Only.pure _)
    (Prog.Only.throw _)) (plain_call rfl)) (plain_query _)

section
variable {installation_id : Nat} {repository_full_name : Repository} {head_sha : HeadSha}
  {before_github_read : Program Unit}

theorem currentAssociatedPull_plain (hbefore : PlainProgram before_github_read) (current : List AssociatedPull)
    (number : Nat) : PlainProgram (currentAssociatedPull installation_id repository_full_name before_github_read
      current number) := by
  refine Prog.Only.bind (fun _ => Prog.Only.bind (fun pull => ?_) (plain_read _)) hbefore
  have hrest : ∀ state : PullState, PlainProgram (if pull.number ≠ number then
      Prog.throw (.gitHub "GitHub changed the associated pull request number")
    else if pull.repository_full_name ≠ repository_full_name then
      Prog.throw (.gitHub "GitHub changed the associated pull request repository")
    else pure (current ++ [⟨number, state, pull.head_sha⟩]) : Program (List AssociatedPull)) :=
    fun state => Prog.Only.ite (Prog.Only.throw _) (Prog.Only.ite (Prog.Only.throw _) (Prog.Only.pure _))
  cases hs : pull.state with
  | unknown shown =>
    dsimp only
    exact Prog.Only.throw _
  | OPEN =>
    dsimp only
    exact hrest .OPEN
  | CLOSED =>
    dsimp only
    exact hrest .CLOSED

theorem currentAssociatedPulls_plain (hbefore : PlainProgram before_github_read) :
    PlainProgram (currentAssociatedPulls installation_id repository_full_name head_sha before_github_read) := by
  refine Prog.Only.bind (fun _ => Prog.Only.bind (fun associated => ?_) (plain_read _)) hbefore
  exact Prog.Only.ite (Prog.Only.throw _)
    (Prog.Only.foldlM fun current number _ => currentAssociatedPull_plain hbefore current number)

/-! ### Snapshots -/

/-- The numbers that a survey has still to read. -/
def Surveying (key : EpochKey) (numbers : List Nat) (current : List AssociatedPull) (τ : Trace) : Prop :=
  ∃ l event older, ∃ associated : List AssociatedPull, τ = l ++ event :: older ∧
    (∀ e ∈ l, e.inSection = true) ∧ holdsCheckGuard key.installation_id key.head_sha older = true ∧
    event.Read (.listCommitPulls key) associated ∧
    (∀ a ∈ associated, a.number ∈ numbers ∨ ∃ pull ∈ current, pull.number = a.number) ∧
    ∀ pull ∈ current, ∃ e ∈ l, ∃ answer : Pull,
      e.Read (.getPull key.installation_id key.repository_full_name pull.number) answer ∧
        answer.state = pull.state ∧ answer.head_sha = pull.head_sha

theorem Surveying.kept (key : EpochKey) (numbers : List Nat) (current : List AssociatedPull) :
    Survives Event.inSection (Surveying key numbers current) := by
  intro event τ he hs
  obtain ⟨l, e, older, associated, rfl, hl, hguard, hread, hlisted, hpulls⟩ := hs
  refine ⟨event :: l, e, older, associated, rfl, ?_, hguard, hread, hlisted, ?_⟩
  · intro e' he'
    rcases List.mem_cons.mp he' with rfl | he'
    · exact he
    · exact hl e' he'
  · intro pull hp
    obtain ⟨e', he', hanswer⟩ := hpulls pull hp
    exact ⟨e', List.mem_cons_of_mem _ he', hanswer⟩

theorem Surveying.start {key : EpochKey} {associated : List AssociatedPull} {τ : Trace}
    (h : Once Event.inSection (fun event past => event.Read (.listCommitPulls key) associated ∧
      holdsCheckGuard key.installation_id key.head_sha past = true) τ) :
    Surveying key ((associated.map (·.number)).dedup.insertionSort (· ≤ ·)) [] τ := by
  obtain ⟨l, event, older, rfl, hl, hread, hguard⟩ := h
  refine ⟨l, event, older, associated, rfl, hl, hguard, hread, ?_, fun pull hp => by cases hp⟩
  intro a ha
  left
  rw [List.mem_insertionSort, List.mem_dedup]
  exact List.mem_map_of_mem ha

/-- A survey with nothing left to read is a snapshot. -/
theorem surveying_nil {key : EpochKey} {current : List AssociatedPull} {τ : Trace} :
    Surveying key [] current τ ↔ Snapshot key current τ := by
  simp only [Surveying, Snapshot, List.not_mem_nil, false_or]

theorem Snapshot.kept (key : EpochKey) (current : List AssociatedPull) :
    Survives Event.inSection (Snapshot key current) := by
  intro event τ he hs
  exact surveying_nil.mp (Surveying.kept key [] current event τ he (surveying_nil.mpr hs))

theorem Surveying.next {key : EpochKey} {number : Nat} {numbers : List Nat} {current : List AssociatedPull}
    {pull : Pull} {event : Event} {τ : Trace} (h : Surveying key (number :: numbers) current τ)
    (he : event.Read (.getPull key.installation_id key.repository_full_name number) pull) :
    Surveying key numbers (current ++ [⟨number, pull.state, pull.head_sha⟩]) (event :: τ) := by
  obtain ⟨l, e, older, associated, rfl, hl, hguard, hread, hlisted, hpulls⟩ := h
  refine ⟨event :: l, e, older, associated, rfl, ?_, hguard, hread, ?_, ?_⟩
  · intro e' he'
    rcases List.mem_cons.mp he' with rfl | he'
    · obtain ⟨db, g, i, rfl⟩ := he
      rfl
    · exact hl e' he'
  · intro a ha
    rcases hlisted a ha with hn | ⟨q, hq, hnumber⟩
    · rcases List.mem_cons.mp hn with hn | hn
      · exact Or.inr ⟨_, List.mem_append_right _ List.mem_cons_self, hn.symm⟩
      · exact Or.inl hn
    · exact Or.inr ⟨q, List.mem_append_left _ hq, hnumber⟩
  · intro q hq
    rcases List.mem_append.mp hq with hq | hq
    · obtain ⟨e', he', hanswer⟩ := hpulls q hq
      exact ⟨e', List.mem_cons_of_mem _ he', hanswer⟩
    · rw [List.mem_singleton.mp hq]
      exact ⟨event, List.mem_cons_self, pull, he, rfl, rfl⟩

end

theorem Sole.kept (job : ClaimedJob) (head_sha : HeadSha) : Survives Event.inSection (Sole job head_sha) := by
  intro event τ he hs
  obtain ⟨current, hsnapshot, honly⟩ := hs
  exact ⟨current, Snapshot.kept _ current event τ he hsnapshot, honly⟩

/-! ### The claim of an evaluation -/

/-- The pull request under evaluation, as GitHub showed it. -/
structure Evaluating (job : ClaimedJob) (pull : Pull) (τ : Trace) : Prop where
  held : job ∈ heldClaims τ
  shown : Shown job pull τ
  isOpen : pull.state = .OPEN

theorem Evaluating.kept (job : ClaimedJob) (pull : Pull) : Survives Event.inClaim (Evaluating job pull) := by
  intro event τ he hs
  exact ⟨heldClaims_kept job event τ he hs.held, Survives.happened _ event τ he hs.shown, hs.isOpen⟩

/-- A binding keeps what the claim is about. -/
theorem bindClaimToHead_same {job : ClaimedJob} {now : Time} {head : HeadSha} {db : Db} {bound : ClaimedJob}
    (h : (bindClaimToHead now job head db).2 = some bound) :
    bound.installation_id = job.installation_id ∧ bound.repository_full_name = job.repository_full_name ∧
      bound.pull_number = job.pull_number := by
  unfold bindClaimToHead at h
  split at h
  · dsimp only at h
    split at h
    · cases h
      exact ⟨rfl, rfl, rfl⟩
    · cases h
  · split at h
    · cases h
      exact ⟨rfl, rfl, rfl⟩
    · cases h

section
variable [PullDigest] {settings : Settings} {p : Pid} {K : Trace → Prop}

section
variable {installation_id : Nat} {repository_full_name : Repository} {head_sha : HeadSha}
  {before_github_read : Program Unit}

/-- What the loop of a survey relies on. -/
theorem currentAssociatedPull_does (hK : Survives Event.inSection K) (hbefore : PlainProgram before_github_read)
    (number : Nat) (numbers : List Nat) (current : List AssociatedPull) :
    Spec nobody (fun _ => True) (Lawful settings p)
      (fun τ => Surveying ⟨installation_id, repository_full_name, head_sha⟩ (number :: numbers) current τ ∧ K τ)
      (currentAssociatedPull installation_id repository_full_name before_github_read current number)
      (fun current' τ =>
        Surveying ⟨installation_id, repository_full_name, head_sha⟩ numbers current' τ ∧ K τ)
      fun _ => K := by
  have hsurvey := Surveying.kept ⟨installation_id, repository_full_name, head_sha⟩ (number :: numbers) current
  have hread : ∀ _ : Unit, Spec nobody (fun _ => True) (Lawful settings p)
      (fun τ => Surveying ⟨installation_id, repository_full_name, head_sha⟩ (number :: numbers) current τ ∧ K τ)
      (read (.getPull installation_id repository_full_name number))
      (fun (pull : Pull) τ => Surveying ⟨installation_id, repository_full_name, head_sha⟩ numbers
        (current ++ [⟨number, pull.state, pull.head_sha⟩]) τ ∧ K τ) fun _ => K := by
    intro _
    refine Spec.effect (nobody_keeps _) (fun _ _ _ => trivial) ?_ ?_
    · exact fun τ db g i pull _ hs _ => ⟨hs.1.next ⟨db, g, i, rfl⟩, hK _ τ rfl hs.2⟩
    · exact fun τ db g i x _ _ hs => hK _ τ rfl hs.2
  have hplain : Does settings p _ before_github_read _ := Does.plain (hsurvey.and hK) hbefore
  refine Triple.bind (hplain.conseq (fun _ _ hs => hs) (fun _ _ _ hs => hs.2) fun _ _ _ hs => hs.2)
    fun u => Triple.bind (hread u) fun pull => ?_
  have hrest : ∀ state : PullState, pull.state = state → Spec nobody (fun _ => True) (Lawful settings p)
      (fun τ => Surveying ⟨installation_id, repository_full_name, head_sha⟩ numbers
        (current ++ [⟨number, pull.state, pull.head_sha⟩]) τ ∧ K τ)
      (if pull.number ≠ number then
        Prog.throw (.gitHub "GitHub changed the associated pull request number")
      else if pull.repository_full_name ≠ repository_full_name then
        Prog.throw (.gitHub "GitHub changed the associated pull request repository")
      else pure (current ++ [⟨number, state, pull.head_sha⟩]))
      (fun current' τ =>
        Surveying ⟨installation_id, repository_full_name, head_sha⟩ numbers current' τ ∧ K τ)
      fun _ => K := by
    intro state hs
    subst hs
    refine Triple.ite (fun _ => Triple.throw fun _ _ hs => hs.2) fun _ =>
      Triple.ite (fun _ => Triple.throw fun _ _ hs => hs.2) fun _ => Triple.pure fun _ _ hs => hs
  cases hstate : pull.state with
  | unknown shown =>
    dsimp only
    exact Triple.throw fun _ _ hs => hs.2
  | OPEN =>
    rw [hstate] at hrest
    dsimp only
    exact hrest .OPEN rfl
  | CLOSED =>
    rw [hstate] at hrest
    dsimp only
    exact hrest .CLOSED rfl

theorem currentAssociatedPulls_does (hK : Survives Event.inSection K) (hbefore : PlainProgram before_github_read)
    (hguard : ∀ τ, K τ → holdsCheckGuard installation_id head_sha τ = true) :
    Does settings p K (currentAssociatedPulls installation_id repository_full_name head_sha before_github_read)
      fun current τ => Snapshot ⟨installation_id, repository_full_name, head_sha⟩ current τ := by
  refine (Does.plain hK hbefore).seq fun _ => Triple.bind (Does.read hK _) fun associated => ?_
  refine Triple.ite (fun _ => Triple.throw fun _ _ hs => hs.2) fun _ => ?_
  have hfold := Triple.foldlM (S := amid observes nobody) (I := fun _ => True) (G := fun _ => Lawful settings p)
    (p := ⟨⟩) (F := fun _ => K)
    (K := fun numbers current τ =>
      Surveying ⟨installation_id, repository_full_name, head_sha⟩ numbers current τ ∧ K τ)
    (fun number numbers current => currentAssociatedPull_does hK hbefore number numbers current)
    ((associated.map (·.number)).dedup.insertionSort (· ≤ ·)) []
  refine hfold.conseq ?_ (fun current τ _ hs => ⟨surveying_nil.mp hs.1, hs.2⟩) fun _ _ _ hs => hs
  intro τ _ hs
  exact ⟨Surveying.start (hs.1.imp fun event past he => ⟨he.1, hguard past he.2⟩), hs.2⟩

end

theorem headIsUniqueToPull_does {job : ClaimedJob} {head_sha : HeadSha} (hK : Survives Event.inSection K)
    (hguard : ∀ τ, K τ → holdsCheckGuard job.installation_id head_sha τ = true) :
    Does settings p K (headIsUniqueToPull job head_sha) fun unique τ => unique = true → Sole job head_sha τ := by
  refine (currentAssociatedPulls_does hK (Prog.Only.pure _) hguard).bind fun current => ?_
  refine Does.pure fun τ hs hu => ⟨current, hs.1, ?_⟩
  simpa using hu

theorem withoutSharedSuccess_does {job : ClaimedJob} {head_sha : HeadSha} (hK : Survives Event.inSection K)
    (hguard : ∀ τ, K τ → holdsCheckGuard job.installation_id head_sha τ = true) (result : EvaluationResult) :
    Does settings p K (withoutSharedSuccess job head_sha result)
      fun result τ => result.conclusion = .SUCCESS → Sole job head_sha τ := by
  refine Does.ite (fun _ => (headIsUniqueToPull_does hK hguard).bind fun unique => ?_) fun hc => ?_
  · refine Does.ite (fun hu => Does.pure fun τ hs _ => hs.1 hu) fun _ => Does.pure fun τ hs hc => ?_
    cases hc
  · exact Does.pure fun τ _ hs => absurd hs hc

/-! ## Checks of closed or uncertain evaluations -/

theorem finishClosedPullCheck_does {job : ClaimedJob} {head_sha : HeadSha} (hK : Survives Event.inPublication K) :
    Does settings p K (finishClosedPullCheck job head_sha) fun _ _ => True := by
  refine Does.guardedAmend (k := job.epochKey head_sha) hK ?_
  refine Prog.Only.bind (fun current => Prog.Only.ite (Prog.Only.pure _)
    (Prog.Only.bind (fun check_run_id => ?_) (amends_read _ _)))
    (amends_plain _ (currentAssociatedPulls_plain (Prog.Only.pure _)))
  cases check_run_id with
  | none => exact Prog.Only.pure _
  | some check_run_id =>
    have hcancel := amends_write (w := .cancelCheckRun (job.epochKey head_sha) check_run_id) rfl
    exact Prog.Only.bind (fun _ => Prog.Only.ite (Prog.Only.pure _) hcancel) (amends_read _ _)

section
variable {job : ClaimedJob} {head_sha : HeadSha}

theorem restoreBlocking_does (hK : Survives Event.inSection K)
    (hguard : ∀ τ, K τ → holdsCheckGuard job.installation_id head_sha τ = true) :
    Does settings p K (restoreBlockingAfterUncertainCompletion job head_sha) fun _ _ => True := by
  refine Does.amend (k := job.epochKey head_sha) hK hguard ?_
  exact Prog.Only.handle (fun _ => Prog.Only.ite (Prog.Only.throw _) (Prog.Only.pure _)) (amends_write rfl)

theorem restoringBlocking_does (hK : Survives Event.inSection K)
    (hguard : ∀ τ, K τ → holdsCheckGuard job.installation_id head_sha τ = true) {α : Type} {body : Program α}
    {Q : α → Trace → Prop} (h : Does settings p K body Q) : Does settings p K (restoringBlocking job head_sha body) Q :=
  h.handle fun _ => (restoreBlocking_does hK hguard).seq fun _ => Does.throw

/-! ## The publication -/

/-- The write behind the fences, and the fences after it. -/
theorem writeCompleted_does (hK : Survives Event.inSection K) {result : EvaluationResult}
    (hfenced : ∀ τ, K τ → Fenced job head_sha τ)
    (hsole : ∀ τ, K τ → result.conclusion = .SUCCESS → Sole job head_sha τ) :
    Does settings p K (writeCompleted job head_sha result)
      fun published τ => published = true → Stood job head_sha result.conclusion τ := by
  have hguard : ∀ τ, K τ → holdsCheckGuard job.installation_id head_sha τ = true :=
    fun τ hs => (hfenced τ hs).guarded
  have hwrite : ∀ skip τ, K τ → WriteFenced τ
      (.upsertCompleted (job.epochKey head_sha) job result.conclusion skip) :=
    fun _ τ hs => ⟨head_sha, rfl, hfenced τ hs, hsole τ hs⟩
  refine (restoringBlocking_does hK hguard (Does.write hK _ (hwrite _))).bind fun _ => ?_
  have hK₁ := (Survives.once fun event past =>
    event.Wrote (.upsertCompleted (job.epochKey head_sha) job result.conclusion job.keepsPublishedCheck) ∧
      K past).and hK
  have hguard₁ : ∀ τ, (Once Event.inSection (fun event past => event.Wrote (.upsertCompleted
      (job.epochKey head_sha) job result.conclusion job.keepsPublishedCheck) ∧ K past) τ ∧ K τ) →
      holdsCheckGuard job.installation_id head_sha τ = true := fun τ hs => hguard τ hs.2
  refine (restoringBlocking_does hK₁ hguard₁ (Q := fun currents τ =>
    currents.1 = true → currents.2 = true → Stood job head_sha result.conclusion τ) ?_).bind ?_
  · refine (Does.query hK₁ _).bind fun claim_current =>
      (Does.query ((Survives.once _).and hK₁) _).bind fun shared_head_current => Does.pure ?_
    intro τ hs hclaim hshared
    obtain rfl : claim_current = true := hclaim
    obtain rfl : shared_head_current = true := hshared
    refine (hs.1.keeping fun _ _ => rfl).imp fun event past he => ⟨he.1, ?_⟩
    refine (he.2.1.keeping fun _ _ => rfl).imp fun event past he => ⟨he.1, ?_⟩
    exact (he.2.1.keeping fun _ _ => rfl).imp fun event past he => ⟨⟨_, he.1⟩, hwrite false past he.2⟩
  · intro currents
    refine Does.ite (fun _ => ?_) fun hc => Does.pure fun τ hs _ => ?_
    · refine Does.seq (restoreBlocking_does ((Survives.imp (Survives.imp (Survives.happened _))).and hK₁)
        fun τ hs => hguard₁ τ hs.2) fun _ => Does.pure fun τ _ hs => ?_
      cases hs
    · simp only [Bool.or_eq_true, Bool.not_eq_true', not_or, Bool.not_eq_false] at hc
      exact hs.1 hc.1 hc.2

theorem raiseIfAuthorityPending_does {pull : Pull} {message : Str} (hK : Survives Event.inSection K) :
    Does settings p K (raiseIfAuthorityPending job pull message) fun _ τ => Once Event.inSection (fun event past =>
      event.Asked (.hasBlockingAuthority job pull.base_ref) false ∧ K past) τ := by
  refine (Does.query hK _).bind fun (blocked : Bool) => ?_
  refine Does.ite (fun _ => Does.throw) fun hb => Does.pure fun τ hs => ?_
  obtain rfl : blocked = false := by simpa using hb
  exact hs.1

variable {pull : Pull} {result : EvaluationResult}

theorem publishUnderGuard_does (hK : Survives Event.inPublication K) (hev : ∀ τ, K τ → Evaluating job pull τ)
    (hpub : ∀ τ, K τ → holdsAuthorityGuard job.installation_id τ = true) :
    Does settings p K (publishUnderGuard job pull result) fun published τ =>
      ∀ result, published = some result → Stood job pull.head_sha result.conclusion τ := by
  have hstood : ∀ published : Option EvaluationResult, Survives Event.inPublication fun τ =>
      ∀ result, published = some result → Stood job pull.head_sha result.conclusion τ :=
    fun _ event τ he hs result hr => Survives.happened _ event τ he (hs result hr)
  refine Does.checkWriteGuard hK hstood ?_
  have hK₀ := (holdsCheckGuard_kept job.installation_id pull.head_sha).and hK.within
  have hnone : ∀ {L : Trace → Prop}, Does settings p L (pure none : Program (Option EvaluationResult))
      fun published τ => ∀ result, published = some result → Stood job pull.head_sha result.conclusion τ :=
    Does.pure fun τ _ result hr => by cases hr
  refine Does.seq (Does.query hK₀ _) fun (_ : Bool) => Does.ite (fun _ => hnone) fun _ => ?_
  refine Does.seq (Does.query hK₀ _) fun (_ : Bool) => Does.ite (fun _ => hnone) fun _ => ?_
  refine (raiseIfAuthorityPending_does hK₀).bind fun _ => ?_
  have hK₁ := (Survives.once fun event past =>
    event.Asked (.hasBlockingAuthority job pull.base_ref) false ∧
      holdsCheckGuard job.installation_id pull.head_sha past = true ∧ K past).and hK₀
  refine (withoutSharedSuccess_does hK₁ (fun τ hs => hs.2.1) result).bind fun result => ?_
  have hK₂ := (Survives.imp (c := result.conclusion = .SUCCESS) (Sole.kept job pull.head_sha)).and hK₁
  refine (Does.query hK₂ _).bind fun (publishable : Bool) => Does.ite (fun _ => hnone) fun hp => ?_
  obtain rfl : publishable = true := by simpa using hp
  refine (Does.query ((Survives.once _).and hK₂) _).bind fun (current_claim : Bool) =>
    Does.ite (fun _ => hnone) fun hc => ?_
  obtain rfl : current_claim = true := by simpa using hc
  refine (writeCompleted_does ((Survives.once _).and ((Survives.once _).and hK₂)) ?_ ?_).bind fun published => ?_
  · intro τ hs
    obtain ⟨hcurrent, -, -, hblocking, hguard, hk⟩ := hs
    refine ⟨(hev τ hk).held, hguard, hpub τ hk, ?_, pull, (hev τ hk).shown, (hev τ hk).isOpen, rfl, ?_⟩
    · refine hcurrent.imp fun event past he => ⟨he.1, hpub past he.2.2.2.2.2, ?_⟩
      exact he.2.1.imp fun event past he => ⟨he.1, he.2.2.2.1, (hev past he.2.2.2.2).held⟩
    · exact hblocking.imp fun event past he => ⟨he.1, hpub past he.2.2⟩
  · exact fun τ hs => hs.2.2.1
  · refine Does.ite (fun hp => Does.pure fun τ hs result' hr => ?_) fun _ => hnone
    cases hr
    exact hs.1 hp

theorem supersededOrPending_does (hK : Survives Event.inSection K) :
    Does settings p K (supersededOrPending job pull) fun overtaken τ =>
      Happened (fun event past => event.Asked (.hasBlockingAuthority job pull.base_ref) overtaken.2 ∧
        Happened (fun event past => event.Asked (.hasSupersedingJob job) overtaken.1 ∧ K past) past) τ := by
  refine (Does.query hK _).bind fun (superseded : Bool) =>
    (Does.query ((Survives.once _).and hK) _).bind fun (authority_pending : Bool) => Does.pure fun τ hs => ?_
  refine (hs.1.keeping fun _ _ => rfl).imp fun event past he => ⟨he.1, ?_⟩
  exact he.2.1.keeping fun _ _ => rfl

/-- Where a publication stands, nothing had overtaken it. -/
theorem resetIfOvertaken_does (hK : Survives Event.inPublication K) :
    Does settings p K (resetIfOvertaken job pull) fun stands τ => stands = true →
      Happened (fun event past => event.Asked (.hasBlockingAuthority job pull.base_ref) false ∧
        Happened (fun event past => event.Asked (.hasSupersedingJob job) false ∧ K past) past) τ := by
  refine (supersededOrPending_does hK.within).bind fun overtaken => ?_
  refine Does.ite (fun hc => Does.pure fun τ hs _ => ?_) fun _ => ?_
  · simp only [Bool.not_eq_true', Bool.or_eq_false_iff] at hc
    rw [hc.1, hc.2] at hs
    exact hs.1
  · have hK₁ := (Survives.happened fun event past =>
      event.Asked (.hasBlockingAuthority job pull.base_ref) overtaken.2 ∧
        Happened (fun event past => event.Asked (.hasSupersedingJob job) overtaken.1 ∧ K past) past).and hK
    refine Does.checkWriteGuard hK₁ (fun _ => Survives.imp (Survives.happened _)) ?_
    have hK₂ := (holdsCheckGuard_kept job.installation_id pull.head_sha).and hK₁.within
    refine (supersededOrPending_does hK₂).bind fun again => ?_
    refine Does.ite (fun hc => Does.pure fun τ hs _ => ?_) fun _ => ?_
    · simp only [Bool.not_eq_true', Bool.or_eq_false_iff] at hc
      rw [hc.1, hc.2] at hs
      refine hs.1.imp fun event past he => ⟨he.1, he.2.imp fun event past he => ⟨he.1, he.2.2.2⟩⟩
    · refine Does.seq (Does.write ((Survives.happened _).and hK₂) (.upsertInterim (job.epochKey pull.head_sha))
        fun τ hs => hs.2.1) fun _ => ?_
      refine Does.ite (fun _ => Does.throw) fun _ => Does.pure fun τ _ hs => ?_
      cases hs

theorem publish_does (hK : Survives Event.inClaim K) (hev : ∀ τ, K τ → Evaluating job pull τ) :
    Does settings p K (publish job pull result) fun _ _ => True := by
  have haudited : ∀ published : Option EvaluationResult, Survives Event.inClaim fun τ =>
      ∀ result, published = some result → Audited job pull.head_sha result.conclusion τ := by
    intro published event τ he hs result hr
    obtain ⟨shown, hshown, hopen, hhead, hstood⟩ := hs result hr
    exact ⟨shown, Survives.happened _ event τ he hshown, hopen, hhead, Survives.happened _ event τ he hstood⟩
  refine (Does.authorityPublishGuard (Q := fun published τ =>
    ∀ result, published = some result → Audited job pull.head_sha result.conclusion τ) hK haudited ?_).bind ?_
  · have hK₁ := (holdsAuthorityGuard_kept job.installation_id).and hK.publication
    refine (publishUnderGuard_does hK₁ (fun τ hs => hev τ hs.2) fun τ hs => hs.1).bind fun published => ?_
    cases published with
    | none => exact Does.pure fun τ _ result hr => by cases hr
    | some result =>
      have hstood : Survives Event.inPublication fun τ => ∀ result', some result = some result' →
          Stood job pull.head_sha result'.conclusion τ :=
        fun event τ he hs result' hr => Survives.happened _ event τ he (hs result' hr)
      refine (resetIfOvertaken_does (hstood.and hK₁)).bind fun stands => Does.pure fun τ hs result' hr => ?_
      by_cases hstands : stands = true
      · rw [if_pos hstands] at hr
        cases hr
        have hevaluating := hev τ hs.2.2.2
        refine ⟨pull, hevaluating.shown, hevaluating.isOpen, rfl, ?_⟩
        refine (hs.1 hstands).imp fun event past he => ⟨he.1, ?_⟩
        exact he.2.imp fun event past he => ⟨he.1, he.2.1 result rfl⟩
      · rw [if_neg hstands] at hr
        cases hr
  · intro published
    cases published with
    | none => exact Does.pure fun _ _ => trivial
    | some result =>
      have hrecord : Does settings p _ _ _ := Does.effect (e := .recordAudit job pull.head_sha result)
        ((haudited (some result)).and hK) (fun _ _ _ _ => rfl) fun τ hs => hs.1 result rfl
      exact hrecord.weaken fun _ _ _ _ => trivial

/-! ## One claimed evaluation -/

theorem publishIfUnchanged_does (hK : Survives Event.inClaim K) (hev : ∀ τ, K τ → Evaluating job pull τ)
    (policy_sha : Str) : Does settings p K (publishIfUnchanged job pull policy_sha result) fun _ _ => True := by
  refine Does.seq (Does.read hK.publication.within _) fun current => ?_
  have hchanged : Does settings p K (call (.enqueueSharedHeadTrigger
      (headTrigger job current "pull_request_changed_during_evaluation"))) fun _ _ => True :=
    Does.plain hK.publication.within (plain_call rfl)
  cases hstate : current.state with
  | unknown shown =>
    dsimp only
    exact Does.throw
  | CLOSED =>
    dsimp only
    exact finishClosedPullCheck_does hK.publication
  | OPEN =>
    dsimp only
    refine Does.ite (fun _ => hchanged) fun _ => ?_
    refine Does.seq (Does.read hK.publication.within _) fun sha => ?_
    exact Does.ite (fun _ => hchanged) fun _ => publish_does hK hev

theorem revokeBeforeEvidence_does (hK : Survives Event.inPublication K) :
    Does settings p K (revokeBeforeEvidence job pull) fun _ _ => True := by
  refine Does.guardedAmend (k := job.epochKey pull.head_sha) hK ?_
  refine Prog.Only.bind (fun (_ : Bool) => Prog.Only.ite (Prog.Only.pure _) ?_) (amends_query _ _)
  refine Prog.Only.bind (fun (_ : Bool) => Prog.Only.ite ?_ (Prog.Only.ite (Prog.Only.pure _) ?_))
    (amends_query _ _)
  · exact Prog.Only.bind (fun _ => Prog.Only.pure _) (amends_plain _ (rebindToHead_plain job pull))
  · have hinterim := amends_write (w := .upsertInterim (job.epochKey pull.head_sha)) rfl
    exact Prog.Only.bind (fun _ => Prog.Only.pure _) hinterim

theorem evaluateRevoked_does (hK : Survives Event.inClaim K) (hev : ∀ τ, K τ → Evaluating job pull τ)
    (policy : Option (Str × Option Str)) : Does settings p K (evaluateRevoked job pull policy) fun _ _ => True := by
  have hsection := hK.publication.within
  refine Does.seq (Does.plain hsection (markInvalidated_plain _)) fun _ => ?_
  refine Does.seq (Does.query hsection _) fun (_ : Bool) => Does.ite (fun _ => Does.throw) fun _ => ?_
  refine Does.seq (raiseIfAuthorityPending_does hsection) fun _ => ?_
  refine Does.seq (Does.plain hsection (policyOr_plain policy (branchPolicy_plain _ _ _))) fun policy => ?_
  exact Does.seq (Does.read hsection _) fun result => publishIfUnchanged_does hK hev policy.1

theorem evaluateBound_does (hK : Survives Event.inClaim K) (hev : ∀ τ, K τ → Evaluating job pull τ) :
    Does settings p K (evaluateBound job pull) fun _ _ => True := by
  have hsection := hK.publication.within
  refine Does.seq (Does.read hsection _) fun (_ : Bool) => ?_
  refine Does.seq (R := fun _ _ => True) (Does.ite (fun _ => Does.pure fun _ _ => trivial) fun _ => ?_) ?_
  · exact Does.plain hsection (Prog.Only.map (branchPolicy_plain _ _ _))
  · have hrest : ∀ policy, Does settings p K (do
        let going ← revokeBeforeEvidence job pull
        if going then evaluateRevoked job pull policy else return ()) fun _ _ => True := fun policy =>
      Does.seq (revokeBeforeEvidence_does hK.publication) fun _ =>
        Does.ite (fun _ => evaluateRevoked_does hK hev policy) fun _ => Does.pure fun _ _ => trivial
    intro policy
    cases policy with
    | none => exact hrest none
    | some policy =>
      obtain ⟨policy_sha, text⟩ := policy
      cases text with
      | none => exact Does.pure fun _ _ => trivial
      | some text => exact hrest (some (policy_sha, some text))

/-- A call under the claim that a process works on. -/
theorem lawful_claimUsed {c : Call} {owner : Str} {τ : Trace} (hc : c.claimUsed = some (job, owner))
    (hj : job ∈ heldClaims τ) (ho : owner = job.lease_owner) : Lawful settings p τ (.call c) := by
  have hpermitted : CallPermitted p τ c := by
    refine ⟨?_, ?_, ?_, ?_, ?_⟩
    · intro used owner' hu
      cases hc.symm.trans hu
      exact ⟨hj, ho⟩
    · intro used owner' hu
      cases c <;> first | (cases hu; done) | cases hc
    · intro used hu
      cases c <;> first | (cases hu; done) | cases hc
    · intro owner' hu
      cases c <;> first | (cases hu; done) | cases hc
    · intro owner' lease_seconds work_class hu
      subst hu
      cases hc
  cases c <;> first | exact And.intro hpermitted trivial | cases hc

theorem evaluateOpen_does (hK : Survives Event.inClaim K) (hev : ∀ τ, K τ → Evaluating job pull τ) :
    Does settings p K (evaluateOpen job pull) fun _ _ => True := by
  have hsection := hK.publication.within
  have hused : ∀ {c : Call}, c.claimUsed = some (job, job.lease_owner) → ∀ τ, K τ → Lawful settings p τ (.call c) :=
    fun hc τ hs => lawful_claimUsed hc (hev τ hs).held rfl
  refine Does.seq (Does.call hsection rfl (hused rfl)) fun (_ : Bool) =>
    Does.ite (fun _ => Does.pure fun _ _ => trivial) fun _ => ?_
  refine Does.ite (fun _ => Does.plain hsection (plain_call rfl)) fun _ => ?_
  refine Triple.bind (Does.call hsection (c := .bindClaimToHead job pull.head_sha) rfl (hused rfl))
    fun bound_job => ?_
  cases bound_job with
  | none => exact Triple.pure fun _ _ hs => ⟨trivial, hs.2⟩
  | some bound =>
    have hbound : Does settings p _ (evaluateBound bound pull) _ := evaluateBound_does
      (K := fun τ => Evaluating bound pull τ ∧ K τ) ((Evaluating.kept bound pull).and hK) fun _ hs => hs.1
    refine hbound.narrow ?_ fun _ hs => hs.2
    intro τ hs
    obtain ⟨honce, hk⟩ := hs
    refine ⟨once_since (L := fun τ => Evaluating bound pull τ) (Evaluating.kept bound pull).publication.within
      ?_ honce, hk⟩
    intro event past he
    obtain ⟨hk', db, g, i, db', rfl, hr⟩ := he
    have hsame := bindClaimToHead_same (congrArg Prod.snd (Except.ok.inj hr))
    refine ⟨List.mem_append_left _ List.mem_cons_self, ?_, (hev past hk').isOpen⟩
    rw [Shown, hsame.1, hsame.2.1, hsame.2.2]
    exact (hev past hk').shown.later rfl

theorem evaluateJob_does (job : ClaimedJob) :
    Does settings p (fun τ => job ∈ heldClaims τ) (evaluateJob settings job) fun _ _ => True := by
  have hK := heldClaims_kept job
  refine Does.ite (fun _ => Does.pure fun _ _ => trivial) fun _ => ?_
  refine Triple.bind (Does.read hK.publication.within _) fun (pull : Pull) => ?_
  refine Triple.ite (fun _ => Triple.pure fun _ _ hs => ⟨trivial, hs.2⟩) fun _ => ?_
  cases hstate : pull.state with
  | unknown shown =>
    dsimp only
    exact Triple.throw fun _ _ hs => hs.2
  | CLOSED =>
    dsimp only
    exact (finishClosedPullCheck_does hK.publication).narrow (fun _ hs => hs.2) fun _ hs => hs
  | OPEN =>
    dsimp only
    refine (evaluateOpen_does (Evaluating.kept job pull) fun _ hs => hs).narrow ?_ fun _ hs => hs.held
    intro τ hs
    exact ⟨hs.2, (hs.1.keeping fun _ _ => rfl).imp fun event past he => he.1, hstate⟩

end

end

/-! ## The slots of evaluations -/

section
variable [PullDigest] {settings : Settings} {p : Pid} {job : ClaimedJob} {owner : Str} (ho : owner = job.lease_owner)
include ho

theorem evaluationFailed_ends (x : Exn) :
    Finishes settings p (fun τ => job ∈ heldClaims τ) (Worker.evaluationFailed settings job owner x) := by
  have hused : ∀ {c : Call}, c.claimUsed = some (job, owner) → ∀ τ, job ∈ heldClaims τ →
      Lawful settings p τ (.call c) := fun hc τ hs => lawful_claimUsed hc hs ho
  have hdefer : ∀ delay limit,
      Finishes settings p (fun τ => job ∈ heldClaims τ) (Worker.defer job owner x delay limit) :=
    fun delay limit => Finishes.last (hused rfl)
  have hK := (heldClaims_kept job).publication.within
  cases x with
  | recoveryBudgetDeferred => exact hdefer _ _
  | gitHubRateLimit =>
    exact Finishes.after (Does.plain hK (plain_call rfl)) fun _ => (hdefer _ _).under fun _ hs => hs.2
  | authorityChangePending | sharedHeadInvalidationPending => exact hdefer _ _
  | cancelled => exact Finishes.throw
  | _ => exact Finishes.effect (hused rfl)

theorem process_ends :
    Finishes settings p (fun τ => job ∈ heldClaims τ) (Worker.process settings job owner) := by
  refine Finishes.tryElse (evaluateJob_does job) (evaluationFailed_ends ho) fun _ => ?_
  exact Finishes.last fun τ hs => lawful_claimUsed rfl hs.2 ho

end

end ExtraCodeowners
