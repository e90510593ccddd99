import ExtraCodeowners.Invalidation
import ExtraCodeowners.Lib.Locks

/-!
# Discovery keeps to the discipline

The claimant of an authority change revokes what it lists, page by page, and
checkpoints only pages whose pull requests are all handled. The revocations of a
page are tasks that interleave.
-/

namespace ExtraCodeowners

open System EvaluationService

/-! ## Where a discovery stands -/

/-- A checkpoint of a page, which moves a listing. -/
def Call.isCheckpoint : Call → Bool
  | .advanceInstallationAuthorityPage .. | .advanceAuthorityCursor _ _ _ (some _) _ => true
  | _ => false

def Effect.isAside : Effect → Bool
  | .call c => !c.isCheckpoint && !c.endsClaim
  | .rememberPolicy .. => false
  | _ => true

/-- An event that leaves a discovery where it stands. -/
def Event.aside (event : Event) : Bool := event.effect.isAside

theorem inClaim_of_aside (event : Event) (h : event.aside = true) : event.inClaim = true := by
  obtain ⟨db, g, i, e, a⟩ := event
  cases e with
  | call c =>
    simp only [Event.aside, Effect.isAside, Bool.and_eq_true, Bool.not_eq_true'] at h
    simp [Event.inClaim, Effect.endsClaim, h.2]
  | _ => rfl

theorem installationPosition_kept (job : ClaimedAuthorityJob) (position : Option (Nat × Option Nat)) :
    Survives Event.aside fun τ => installationPosition job τ = position := by
  intro event τ he hs
  obtain ⟨db, g, i, e, a⟩ := event
  rw [← hs]
  cases e with
  | call c =>
    cases c with
    | advanceInstallationAuthorityPage => cases he
    | _ => cases a <;> rfl
  | _ => rfl

theorem pullPosition_kept (job : ClaimedAuthorityJob) (position : Option (Nat × Nat)) :
    Survives Event.aside fun τ => pullPosition job τ = position := by
  intro event τ he hs
  obtain ⟨db, g, i, e, a⟩ := event
  rw [← hs]
  cases e with
  | call c =>
    cases c with
    | advanceAuthorityCursor used number fingerprints next_page last_number =>
      cases next_page with
      | none => cases a <;> rfl
      | some next_page => cases he
    | _ => cases a <;> rfl
  | _ => rfl

theorem PolicyShownAbsent.kept (keeps : Event → Bool) (installation_id : Nat) (full_name : Repository)
    (base_ref : Str) : Survives keeps (PolicyShownAbsent installation_id full_name base_ref) := by
  intro event τ _ hs
  obtain ⟨sha, hhead, htext⟩ := hs
  exact ⟨sha, hhead.later rfl, htext.later rfl⟩

/-- What an attempt remembers of a policy was read. -/
def Remembers (job : ClaimedAuthorityJob) (full_name : Repository) (τ : Trace) : Prop :=
  ∀ base_ref, recalledPolicy base_ref τ = some (.ok false) →
    PolicyShownAbsent job.installation_id full_name base_ref τ

theorem Remembers.kept (job : ClaimedAuthorityJob) (full_name : Repository) :
    Survives Event.aside (Remembers job full_name) := by
  intro event τ he hs base_ref hr
  have hsame : recalledPolicy base_ref (event :: τ) = recalledPolicy base_ref τ := by
    obtain ⟨db, g, i, e, a⟩ := event
    cases e with
    | rememberPolicy => cases he
    | _ => rfl
  exact PolicyShownAbsent.kept _ _ _ _ event τ he (hs base_ref (hsame.symm.trans hr))

structure Discovering (job : ClaimedAuthorityJob) (full_name : Repository) (position : Option (Nat × Nat))
    (τ : Trace) : Prop where
  held : job ∈ heldAuthorities τ
  position : pullPosition job τ = position
  remembers : Remembers job full_name τ

theorem Discovering.kept (job : ClaimedAuthorityJob) (full_name : Repository) (position : Option (Nat × Nat)) :
    Survives Event.aside (Discovering job full_name position) := by
  intro event τ he hs
  refine ⟨?_, pullPosition_kept job position event τ he hs.position, ?_⟩
  · exact heldAuthorities_kept job event τ (inClaim_of_aside event he) hs.held
  · exact Remembers.kept job full_name event τ he hs.remembers

/-! ## The tasks of a page -/

/-- What a task may do besides remembering a policy. -/
def Effect.inTask : Effect → Bool
  | .query _ | .read _ | .recallPolicy _ | .pick | .acquireCheckWriteGuard .. | .releaseCheckWriteGuard ..
  | .write (.upsertInterim _) => true
  | .call c => c.isPlain
  | _ => false

def InTask (job : ClaimedAuthorityJob) (full_name : Repository) (τ : Trace) (e : Effect) : Prop :=
  e.inTask = true ∨ ∃ base_ref present, e = .rememberPolicy base_ref present ∧
    (present = .ok false → PolicyShownAbsent job.installation_id full_name base_ref τ)

theorem inTask_aside {e : Effect} (h : e.inTask = true) : e.isAside = true := by
  cases e with
  | call c => cases c <;> first | rfl | cases h
  | rememberPolicy => cases h
  | _ => rfl

theorem recalledPolicy_remembered (base_ref base_ref' : Str) (present : Except Exn Bool) (db : Db) (g : GitHub)
    (i : Instant) (a : Except Exn (Effect.rememberPolicy base_ref present).Answer) (τ : Trace) :
    recalledPolicy base_ref' (⟨db, g, i, .rememberPolicy base_ref present, a⟩ :: τ) =
      if base_ref = base_ref' then some present else recalledPolicy base_ref' τ := rfl

/-- Tasks leave each other where they stand. -/
theorem Discovering.task {job : ClaimedAuthorityJob} {full_name : Repository} {position : Option (Nat × Nat)}
    {τ τ' : Trace} {e : Effect} {a : Except Exn e.Answer} (h : Discovering job full_name position τ)
    (he : InTask job full_name τ e) (hobs : observes τ e a τ') : Discovering job full_name position τ' := by
  obtain ⟨-, db, g, i, -, rfl⟩ := hobs
  rcases he with he | ⟨base_ref, present, rfl, habsent⟩
  · exact Discovering.kept job full_name position _ τ (inTask_aside he) h
  · refine ⟨h.held, h.position, fun base_ref' hr => ?_⟩
    refine PolicyShownAbsent.kept Event.inClaim _ _ _ _ τ rfl ?_
    rw [recalledPolicy_remembered] at hr
    by_cases hb : base_ref = base_ref'
    · subst hb
      rw [if_pos rfl] at hr
      exact habsent (Option.some.inj hr)
    · rw [if_neg hb] at hr
      exact h.remembers base_ref' hr

theorem Survives.suffix {K : Trace → Prop} (hK : Survives (fun _ => true) K) (τ τ' : Trace) (h : τ <:+ τ')
    (hs : K τ) : K τ' := by
  obtain ⟨l, rfl⟩ := h
  induction l with
  | nil => exact hs
  | cons event l ih => exact hK event _ rfl ih

/-! ### The guards of a task -/

def checkLocks : Locking Effect Effect.Answer Exn (Nat × HeadSha) where
  takes e a :=
    match e, a with
    | .acquireCheckWriteGuard id head, .ok _ => some (id, head)
    | _, _ => none
  drops e :=
    match e with
    | .releaseCheckWriteGuard id head => some (id, head)
    | _ => none
  needs e :=
    match e with
    | .write w => some (w.key.installation_id, w.key.head_sha)
    | _ => none

def guardsHeld (τ : Trace) : Set (Nat × HeadSha) := { key | holdsCheckGuard key.1 key.2 τ = true }

theorem takes_iff_takesCheckGuard {e : Effect} {a : Except Exn e.Answer} {id : Nat} {head : HeadSha} :
    checkLocks.takes e a = some (id, head) ↔ e.takesCheckGuard a id head = true := by
  cases e with
  | acquireCheckWriteGuard id' head' => cases a <;> simp [checkLocks, Effect.takesCheckGuard]
  | _ => simp [checkLocks, Effect.takesCheckGuard]

theorem drops_iff_dropsCheckGuard {e : Effect} {id : Nat} {head : HeadSha} :
    checkLocks.drops e = some (id, head) ↔ e.dropsCheckGuard id head = true := by
  cases e <;> simp [checkLocks, Effect.dropsCheckGuard]

theorem checkLocks_keeps : System.Keeps checkLocks observes guardsHeld := by
  refine ⟨fun {τ e a τ'} key hobs ht => ?_, fun {τ e a τ'} hobs => ?_⟩
  · obtain ⟨id, head⟩ := key
    simp only [guardsHeld, Set.mem_ofPred_eq, hobs.1.free id head (takes_iff_takesCheckGuard.mp ht),
      Bool.false_eq_true, not_false_eq_true]
  · obtain ⟨-, db, g, i, -, rfl⟩ := hobs
    rintro ⟨id, head⟩ hkey
    simp only [guardsHeld, Set.mem_ofPred_eq, holdsCheckGuard_cons, Bool.or_eq_true, Bool.and_eq_true,
      Bool.not_eq_true']
    refine hkey.imp takes_iff_takesCheckGuard.mp fun hk => ⟨?_, hk.1⟩
    rw [← Bool.not_eq_true, ← drops_iff_dropsCheckGuard]
    exact hk.2

theorem Effect.isPlain.locks {e : Effect} (h : e.isPlain = true) : checkLocks.Plain e := by
  cases e with
  | query | read | call | leaseIsLost | recallPolicy | rememberPolicy | pick => exact ⟨fun _ => rfl, rfl, rfl⟩
  | _ => cases h

theorem PlainProgram.balanced {H : Set (Nat × HeadSha)} {α : Type} {prog : Program α} (h : PlainProgram prog) :
    Prog.Balanced checkLocks H H prog := Prog.Balanced.of_only (h.mono fun _ he => Effect.isPlain.locks he)

theorem checkWriteGuard_balanced {H : Set (Nat × HeadSha)} (w : CheckWrite) :
    Prog.Balanced checkLocks H H (checkWriteGuard w.key.installation_id w.key.head_sha (write w)) := by
  refine Prog.Balanced.locked rfl rfl (fun _ => rfl) (fun _ => rfl) (fun _ => ?_) fun hfree => ?_
  · refine Prog.Balanced.under (fun _ => rfl) rfl fun key' hkey => ?_
    cases hkey
    exact Set.mem_insert _ _
  · exact Prog.Balanced.release (fun _ => rfl) rfl rfl hfree

section
variable {H : Set (Nat × HeadSha)} {settings : Settings} {request : JobRequest}
  {policy_present : Str → Program Bool}

theorem authorityFollowupRequired_plain (hpolicy : ∀ base_ref, PlainProgram (policy_present base_ref)) :
    PlainProgram (authorityFollowupRequired request policy_present) := by
  refine Prog.Only.bind (fun (pull : Pull) => Prog.Only.ite (Prog.Only.pure _) ?_) (plain_read _)
  exact Prog.Only.bind (fun (_ : Bool) => Prog.Only.ite (Prog.Only.pure _) (hpolicy pull.base_ref)) (plain_read _)

theorem rememberedPolicy_plain (job : ClaimedAuthorityJob) (full_name : Repository) (base_ref : Str) :
    PlainProgram (Worker.policyPresent job full_name base_ref) := by
  have hremember : ∀ present, PlainProgram (Prog.perform (Effect.rememberPolicy base_ref present) : Program Unit) :=
    fun _ => Prog.Only.perform rfl
  refine Prog.Only.bind (fun (known : Option (Except Exn Bool)) => ?_) (Prog.Only.perform rfl)
  cases known with
  | some known =>
    cases known with
    | ok present => exact Prog.Only.pure _
    | error x => exact Prog.Only.throw x
  | none =>
    refine Prog.Only.handle (fun x => Prog.Only.bind (fun _ => Prog.Only.throw x)
      (Prog.Only.ite (Prog.Only.pure _) (hremember _))) ?_
    exact Prog.Only.bind (fun _ => Prog.Only.bind (fun _ => Prog.Only.pure _) (hremember _))
      (policyPresent_plain _ _ _)

theorem invalidateForTrigger_balanced (hpolicy : ∀ base_ref, PlainProgram (policy_present base_ref)) :
    Prog.Balanced checkLocks H H (invalidateForTrigger settings request none policy_present) := by
  refine Prog.Balanced.ite (Prog.Balanced.pure _) ?_
  refine Prog.Balanced.bind (fun (pull : Pull) => ?_) (plain_read _).balanced
  cases pull.state with
  | unknown shown => exact Prog.Balanced.throw _
  | CLOSED => exact Prog.Balanced.pure _
  | OPEN =>
    refine Prog.Balanced.bind (fun _ => ?_) (queueLiveHead_plain request pull).balanced
    refine Prog.Balanced.bind (fun (managed_check : Bool) => ?_) (plain_read _).balanced
    refine Prog.Balanced.bind (fun (enrolled : Bool) => ?_)
      (Prog.Balanced.ite (Prog.Balanced.pure _) (hpolicy _).balanced)
    refine Prog.Balanced.ite (Prog.Balanced.pure _) (Prog.Balanced.bind (fun _ => Prog.Balanced.pure _) ?_)
    exact checkWriteGuard_balanced (.upsertInterim (request.epochKey pull.head_sha))

theorem revocationFailed_plain (x : Exn) : PlainProgram (Worker.revocationFailed request x) := by
  cases x with
  | recoveryBudgetDeferred | cancelled => exact Prog.Only.throw _
  | gitHubRateLimit =>
    refine Prog.Only.bind (fun _ => Prog.Only.throw _) (Prog.Only.handle (fun y => ?_) (plain_call rfl))
    exact Prog.Only.ite (Prog.Only.throw y) (Prog.Only.pure _)
  | _ => exact plain_call rfl

theorem revoke_balanced (job : ClaimedAuthorityJob) (full_name : Repository) :
    Prog.Balanced checkLocks H H (Worker.revoke settings job full_name request) := by
  have hpolicy := rememberedPolicy_plain job full_name
  refine Prog.Balanced.handle (fun x => (revocationFailed_plain x).balanced) ?_
  refine Prog.Balanced.bind (fun (required : Bool) => ?_) (authorityFollowupRequired_plain hpolicy).balanced
  refine Prog.Balanced.ite (Prog.Balanced.pure _) (Prog.Balanced.bind (fun _ => ?_) (plain_call rfl).balanced)
  exact Prog.Balanced.bind (fun _ => Prog.Balanced.pure _) (invalidateForTrigger_balanced hpolicy)

end

theorem InTask.lawful [PullDigest] {settings : Settings} {p : Pid} {job : ClaimedAuthorityJob}
    {full_name : Repository} {τ : Trace} {e : Effect} (h : InTask job full_name τ e)
    (hguard : ∀ key, checkLocks.needs e = some key → key ∈ guardsHeld τ) : Lawful settings p τ e := by
  rcases h with h | ⟨base_ref, present, rfl, -⟩
  · cases e with
    | call c => exact Call.isPlain.lawful h settings p τ
    | write w =>
      cases w with
      | upsertInterim key => exact hguard _ rfl
      | _ => cases h
    | query | read | recallPolicy | pick | acquireCheckWriteGuard | releaseCheckWriteGuard => trivial
    | _ => cases h
  · trivial

section
variable {job : ClaimedAuthorityJob} {full_name : Repository}
  {position : Option (Nat × Nat)} {K : Trace → Prop} {α : Type} {prog : Program α}

/-- A task among others, which go on in between. -/
abbrev Task (job : ClaimedAuthorityJob) (full_name : Repository) (position : Option (Nat × Nat)) (K : Trace → Prop)
    {α : Type} (prog : Program α) (Q : α → Trace → Prop) : Prop :=
  Spec (· <:+ ·) (Discovering job full_name position) (InTask job full_name) K prog Q fun _ _ => True

theorem Task.effect (hK : Survives (fun _ => true) K) {e : Effect} {Q : e.Answer → Trace → Prop}
    (he : ∀ τ, K τ → InTask job full_name τ e)
    (hok : ∀ τ db g i a, Discovering job full_name position τ → K τ → told τ db g i e (.ok a) →
      Q a (⟨db, g, i, e, .ok a⟩ :: τ)) : Task job full_name position K (Prog.perform e) Q := by
  refine Spec.effect hK.suffix (fun τ _ hs => he τ hs) hok ?_
  exact fun _ _ _ _ _ _ _ _ => trivial

theorem Task.only (hK : Survives (fun _ => true) K) (h : prog.Only fun e => e.inTask = true) :
    Task job full_name position K prog fun _ => K := by
  have htriple := Triple.only (S := amid observes (· <:+ ·)) (I := Discovering job full_name position)
    (G := fun _ => InTask job full_name) (p := ⟨⟩) (K := K) (amid_stable hK.suffix)
    (fun τ e _ _ he => Or.inl he) ?_ h
  · exact htriple.conseq (fun _ _ hs => hs) (fun _ _ _ hs => hs) fun _ _ _ _ => trivial
  · intro τ e a τ' hs _ hp
    obtain ⟨-, db, g, i, -, rfl⟩ := hp
    exact hK _ τ rfl hs

theorem Task.read (hK : Survives (fun _ => true) K) (r : GitHubRead) :
    Task job full_name position K (read r) fun a τ => Happened (fun event _ => event.Read r a) τ ∧ K τ := by
  refine Task.effect hK (fun _ _ => Or.inl rfl) fun τ db g i a _ hs _ => ?_
  exact ⟨Once.here ⟨db, g, i, rfl⟩, hK _ τ rfl hs⟩

theorem Task.throw {x : Exn} {Q : α → Trace → Prop} :
    Task job full_name position K (Prog.throw x : Program α) Q := Triple.throw fun _ _ _ => trivial

theorem Task.weaken {K' : Trace → Prop} {Q Q' : α → Trace → Prop} (h : Task job full_name position K prog Q)
    (hK : ∀ τ, K' τ → K τ) (hQ : ∀ a τ, Q a τ → Q' a τ) : Task job full_name position K' prog Q' :=
  h.conseq (fun τ _ hs => hK τ hs) (fun a τ _ hs => hQ a τ hs) fun _ _ _ hs => hs

/-! ### What a task learns of a policy -/

theorem observePolicy_task (hK : Survives (fun _ => true) K) (base_ref : Str) :
    Task job full_name position K (EvaluationService.policyPresent job.installation_id full_name base_ref)
      fun present τ => (present = false → PolicyShownAbsent job.installation_id full_name base_ref τ) ∧ K τ := by
  have hpolicy : Task job full_name position K (branchPolicy job.installation_id full_name base_ref)
      fun policy τ => (policy.2 = none → PolicyShownAbsent job.installation_id full_name base_ref τ) ∧ K τ := by
    refine Triple.bind (Task.read hK _) fun (sha : Str) => ?_
    refine Triple.bind (Task.read ((Survives.happened _).and hK) _) fun (text : Option Str) => ?_
    refine Triple.pure fun τ _ hs => ⟨fun hnone => ?_, hs.2.2⟩
    obtain rfl : text = none := hnone
    exact ⟨sha, hs.2.1, hs.1⟩
  refine Triple.bind hpolicy fun policy => Triple.pure fun τ _ hs => ⟨fun hf => hs.1 ?_, hs.2⟩
  simpa using hf

theorem policyPresent_task (hK : Survives (fun _ => true) K) (base_ref : Str) :
    Task job full_name position K (Worker.policyPresent job full_name base_ref)
      fun present τ => (present = false → PolicyShownAbsent job.installation_id full_name base_ref τ) ∧ K τ := by
  have habsent : ∀ present : Bool, Survives (fun _ => true) fun τ =>
      (present = false → PolicyShownAbsent job.installation_id full_name base_ref τ) :=
    fun present => Survives.imp (PolicyShownAbsent.kept _ _ _ _)
  refine Triple.bind (R := fun known τ =>
    (known = some (.ok false) → PolicyShownAbsent job.installation_id full_name base_ref τ) ∧ K τ) ?_ ?_
  · refine Task.effect hK (fun _ _ => Or.inl rfl) ?_
    intro τ db g i a hI hs htold
    obtain rfl : a = recalledPolicy base_ref τ := htold
    exact ⟨fun hr => PolicyShownAbsent.kept (fun _ => true) _ _ _ _ τ rfl (hI.remembers base_ref hr), hK _ τ rfl hs⟩
  · intro known
    cases known with
    | some known =>
      cases known with
      | ok present =>
        refine Triple.pure fun τ _ hs => ⟨fun hf => hs.1 ?_, hs.2⟩
        rw [hf]
      | error x => exact Task.throw
    | none =>
      refine Triple.handle (F := fun _ _ => True) ?_ fun x => ?_
      · refine Triple.bind ((observePolicy_task hK base_ref).weaken (fun _ hs => hs.2) fun _ _ hs => hs)
          fun present => ?_
        have hK' := (habsent present).and hK
        refine Triple.bind (R := fun _ τ =>
          (present = false → PolicyShownAbsent job.installation_id full_name base_ref τ) ∧ K τ) ?_ fun _ => ?_
        · refine Task.effect hK' (fun τ hs => Or.inr ⟨base_ref, .ok present, rfl, fun hf => hs.1 ?_⟩) ?_
          · exact Except.ok.inj hf
          · exact fun τ db g i _ _ hs _ => hK' _ τ rfl hs
        · exact Triple.pure fun τ _ hs => hs
      · refine Triple.bind (R := fun _ _ => True) (Triple.ite (fun _ => Triple.pure fun _ _ _ => trivial) fun _ => ?_)
          fun _ => Task.throw
        refine Task.effect (Survives.const True) (fun τ _ => Or.inr ⟨base_ref, .error x, rfl, fun hf => ?_⟩) ?_
        · cases hf
        · exact fun _ _ _ _ _ _ _ _ => trivial

/-! ### Revocations -/

theorem postInit_same (request : JobRequest) : request.postInit.installation_id = request.installation_id ∧
    request.postInit.repository_full_name = request.repository_full_name ∧
    request.postInit.pull_number = request.pull_number ∧
    request.postInit.head_sha_hint = request.head_sha_hint := by
  unfold JobRequest.postInit
  split <;> exact ⟨rfl, rfl, rfl, rfl⟩

theorem revocationRequest_same (job : ClaimedAuthorityJob) (full_name : Repository) (pull : AuthorityPull) :
    (Worker.revocationRequest job full_name pull).installation_id = job.installation_id ∧
      (Worker.revocationRequest job full_name pull).repository_full_name = full_name ∧
      (Worker.revocationRequest job full_name pull).pull_number = pull.number ∧
      (Worker.revocationRequest job full_name pull).head_sha_hint = some pull.head_sha := postInit_same _

theorem Unenrolled.kept (keeps : Event → Bool) (job : ClaimedAuthorityJob) (full_name : Repository)
    (pull : AuthorityPull) : Survives keeps (Unenrolled job full_name pull) := by
  intro event τ he hs
  obtain ⟨shown, hread, hopen, hhead, hname, hcheck, habsent⟩ := hs
  exact ⟨shown, hread.later rfl, hopen, hhead, hname, hcheck.later rfl,
    PolicyShownAbsent.kept keeps _ _ _ event τ he habsent⟩

theorem Handled.kept (keeps : Event → Bool) (job : ClaimedAuthorityJob) (full_name : Repository)
    (pull : AuthorityPull) : Survives keeps (Handled job full_name pull) := by
  intro event τ he hs
  rcases hs with hs | hs
  · exact Or.inl (hs.later rfl)
  · exact Or.inr (Unenrolled.kept keeps job full_name pull event τ he hs)

/-- A pull request that needs no follow-up is not enrolled. -/
theorem authorityFollowupRequired_task (pull : AuthorityPull) :
    Task job full_name position (fun _ => True)
      (authorityFollowupRequired (Worker.revocationRequest job full_name pull) (Worker.policyPresent job full_name))
      fun required τ => required = false → Unenrolled job full_name pull τ := by
  obtain ⟨hid, hname, hnumber, hhead⟩ := revocationRequest_same job full_name pull
  unfold authorityFollowupRequired JobRequest.epochKey
  rw [hid, hname, hnumber, hhead]
  refine Triple.bind (Task.read (Survives.const True) _) fun (shown : Pull) => ?_
  refine Triple.ite (fun _ => Triple.pure fun _ _ _ hf => by cases hf) fun hc => ?_
  simp only [not_or, not_not, ne_eq, Option.some.injEq] at hc
  obtain ⟨hopen, hsame, hrepository⟩ := hc
  refine Triple.bind (Task.read ((Survives.happened _).and (Survives.const True)) _) fun (managed : Bool) => ?_
  refine Triple.ite (fun _ => Triple.pure fun _ _ _ hf => by cases hf) fun hm => ?_
  obtain rfl : managed = false := by simpa using hm
  refine (policyPresent_task ((Survives.happened _).and ((Survives.happened _).and (Survives.const True)))
    shown.base_ref).weaken (fun _ hs => hs) fun present τ hs hf => ?_
  refine ⟨shown, hs.2.2.1, hopen, hsame, hrepository, ?_, hs.1 hf⟩
  rw [← hsame]
  exact hs.2.1

theorem invalidateForTrigger_task {settings : Settings} (hK : Survives (fun _ => true) K) (request : JobRequest) :
    Task job full_name position K (invalidateForTrigger settings request none (Worker.policyPresent job full_name))
      fun _ => K := by
  refine Triple.ite (fun _ => Triple.pure fun _ _ hs => hs) fun _ => ?_
  refine Triple.bind (Task.read hK _) fun (pull : Pull) => ?_
  have hqueue : Task job full_name position K (queueLiveHead request pull) fun _ => K :=
    Task.only hK (Prog.Only.ite (Prog.Only.bind (fun _ => Prog.Only.pure _) (Prog.Only.perform rfl)) (Prog.Only.pure _))
  cases hstate : pull.state with
  | unknown shown =>
    dsimp only
    exact Task.throw
  | CLOSED =>
    dsimp only
    exact Triple.pure fun _ _ hs => hs.2
  | OPEN =>
    dsimp only
    refine Triple.bind (hqueue.weaken (fun _ hs => hs.2) fun _ _ hs => hs) fun _ => ?_
    refine Triple.bind (Task.read hK _) fun (managed_check : Bool) => ?_
    refine Triple.bind (R := fun _ => K) ?_ fun (enrolled : Bool) => ?_
    · refine Triple.ite (fun _ => Triple.pure fun _ _ hs => hs.2) fun _ => ?_
      exact (policyPresent_task hK pull.base_ref).weaken (fun _ hs => hs.2) fun _ _ hs => hs.2
    · refine Triple.ite (fun _ => Triple.pure fun _ _ hs => hs) fun _ => Task.only hK ?_
      refine Prog.Only.bind (fun _ => Prog.Only.pure _) (Prog.Only.bind (fun _ => ?_) (Prog.Only.perform rfl))
      refine Prog.Only.andFinally ?_ (Prog.Only.perform rfl)
      exact Prog.Only.perform rfl

/-- An evaluation is queued, by the request or by its promotion. -/
theorem enqueue_task (pull : AuthorityPull) {request : JobRequest}
    (hr : request = Worker.revocationRequest job full_name pull ∨
      request = Worker.promoted (Worker.revocationRequest job full_name pull)) :
    Task job full_name position (fun _ => True) (call (.enqueue request))
      fun _ τ => Requeued job full_name pull τ := by
  refine Task.effect (Survives.const True) (fun _ _ => Or.inl rfl) fun τ db g i a _ _ _ => ?_
  refine Once.here ?_
  rcases hr with rfl | rfl
  · exact Or.inl ⟨db, g, i, rfl⟩
  · exact Or.inr ⟨db, g, i, rfl⟩

theorem revoke_task {settings : Settings} (pull : AuthorityPull) :
    Task job full_name position (fun _ => True)
      (Worker.revoke settings job full_name (Worker.revocationRequest job full_name pull))
      fun _ τ => Handled job full_name pull τ := by
  refine Triple.handle (F := fun _ _ => True) ?_ fun x => ?_
  · refine Triple.bind (authorityFollowupRequired_task pull) fun (required : Bool) => ?_
    refine Triple.ite (fun hr => Triple.pure fun τ _ hs => Or.inr (hs ?_)) fun _ => ?_
    · simpa using hr
    · refine Triple.bind ((enqueue_task pull (Or.inl rfl)).weaken (fun _ _ => trivial) fun _ _ hs => hs) fun _ => ?_
      refine Triple.bind (invalidateForTrigger_task (Survives.happened _) _) fun _ => ?_
      exact Triple.pure fun _ _ hs => Or.inl hs
  · have hpromoted : Task job full_name position _ _ _ := (enqueue_task pull (Or.inr rfl)).weaken (fun _ hs => hs)
      fun _ τ hs => (Or.inl hs : Handled job full_name pull τ)
    cases x with
    | recoveryBudgetDeferred | cancelled => exact Task.throw
    | gitHubRateLimit =>
      refine Triple.bind (R := fun _ _ => True) ?_ fun _ => Task.throw
      refine Triple.handle (F := fun _ _ => True) ?_ fun y => ?_
      · exact (enqueue_task pull (Or.inr rfl)).weaken (fun _ hs => hs) fun _ _ _ => trivial
      · exact Triple.ite (fun _ => Task.throw) fun _ => Triple.pure fun _ _ _ => trivial
    | _ => exact hpromoted

end

end ExtraCodeowners
