import ExtraCodeowners.Publication

/-!
# Invalidations and triggers keep to the discipline

The claimant of an invalidated head completes it only when the head is settled.
A trigger resets a check under the guard of its head.
-/

namespace ExtraCodeowners

open System EvaluationService

theorem requireCurrentClaim_plain (job : ClaimedSharedHeadInvalidation) : PlainProgram (requireCurrentClaim job) := by
  refine Prog.Only.bind (fun (_ : Bool) => Prog.Only.bind (fun (_ : Bool) =>
    Prog.Only.ite (Prog.Only.pure _) (Prog.Only.throw _)) ?_) (Prog.Only.perform rfl)
  exact Prog.Only.ite (Prog.Only.pure _) (plain_query _)

/-- A survey stays one, whatever comes after it. -/
theorem Surveyed.kept (keeps : Event → Bool) (job : ClaimedSharedHeadInvalidation)
    (current : List AssociatedPull) : Survives keeps (Surveyed job current) := by
  intro event τ _ hs
  obtain ⟨l, older, rfl, hheld, hsnapshot⟩ := hs
  exact ⟨event :: l, older, rfl, hheld, hsnapshot⟩

/-- What the guarded part of an invalidation leaves behind. -/
def ResetDone (job : ClaimedSharedHeadInvalidation) (current : Option (List AssociatedPull)) (τ : Trace) : Prop :=
  match current with
  | none => Happened (Unpublished job) τ
  | some current => Surveyed job current τ ∧
      (current.any (isOpenOn job.head_sha) = true → Happened (Reset job) τ)

theorem ResetDone.kept (keeps : Event → Bool) (job : ClaimedSharedHeadInvalidation)
    (current : Option (List AssociatedPull)) : Survives keeps (ResetDone job current) := by
  cases current with
  | none => exact Survives.happened _
  | some current => exact (Surveyed.kept keeps job current).and (Survives.imp (Survives.happened _))

section
variable [PullDigest] {settings : Settings} {p : Pid} {K : Trace → Prop} {job : ClaimedSharedHeadInvalidation}

theorem requireCurrentClaim_does (hK : Survives Event.inSection K) :
    Does settings p K (requireCurrentClaim job) fun _ _ => True := Does.plain hK (requireCurrentClaim_plain job)

theorem resetSharedHead_does :
    Does settings p (fun τ => job ∈ heldInvalidations τ) (resetSharedHead job)
      fun current τ => ResetDone job current τ := by
  have hheld := heldInvalidations_kept job
  refine Does.checkWriteGuard hheld.publication (fun current => ResetDone.kept _ job current) ?_
  have hK := (holdsCheckGuard_kept job.installation_id job.head_sha).and hheld.publication.within
  refine Does.seq (requireCurrentClaim_does hK) fun _ => ?_
  refine (Does.read hK (.existingCheckRunId job.epochKey)).bind fun (check_run_id : Option Nat) => ?_
  have hK₁ := (Survives.once fun event past =>
    event.Read (.existingCheckRunId job.epochKey) check_run_id ∧
      holdsCheckGuard job.installation_id job.head_sha past = true ∧ job ∈ heldInvalidations past).and hK
  refine Does.seq (requireCurrentClaim_does hK₁) fun _ => ?_
  cases check_run_id with
  | none =>
    refine Does.pure fun τ hs => ?_
    exact (hs.1.keeping fun _ _ => rfl).imp fun event past he => ⟨he.2.2, he.2.1, he.1⟩
  | some check_run_id =>
    refine (currentAssociatedPulls_does hK₁ (requireCurrentClaim_plain job) fun τ hs => hs.2.1).bind fun current => ?_
    have hK₂ := (Snapshot.kept job.epochKey current).and hK₁
    refine Does.seq (requireCurrentClaim_does hK₂) fun _ => ?_
    have hsurveyed : ∀ τ, (Snapshot job.epochKey current τ ∧ Once Event.inSection (fun event past =>
        event.Read (.existingCheckRunId job.epochKey) (some check_run_id) ∧
          holdsCheckGuard job.installation_id job.head_sha past = true ∧ job ∈ heldInvalidations past) τ ∧
        holdsCheckGuard job.installation_id job.head_sha τ = true ∧ job ∈ heldInvalidations τ) →
        Surveyed job current τ := fun τ hs => ⟨[], τ, rfl, hs.2.2.2, hs.1⟩
    refine (Does.ite (Q := fun _ τ => current.any (isOpenOn job.head_sha) = true → Happened (Reset job) τ)
      (fun _ => ?_) fun ho => Does.pure fun τ _ h => absurd h ho).bind fun _ => ?_
    · refine (Does.write hK₂ (.resetCheckRun job.epochKey check_run_id) fun τ hs => hs.2.2.1).weaken ?_
      intro _ τ _ honce _
      refine (honce.keeping fun _ _ => rfl).imp fun event past he => ?_
      exact ⟨he.2.2.2.2, he.2.2.2.1, check_run_id, he.1⟩
    · exact Does.pure fun τ hs => ⟨hsurveyed τ hs.2, hs.1⟩

/-! ## The fan-out of a head -/

/-- The evaluation of a pull request is queued, if the head needs it. -/
def Queued (job : ClaimedSharedHeadInvalidation) (pull : AssociatedPull) (τ : Trace) : Prop :=
  isOpenOn job.head_sha pull = true →
    Happened (fun event _ =>
      event.Called (.enqueueForSharedHeadGeneration (fanOutRequest job pull.number) job.generation) true) τ

theorem fanOut_does (hK : Survives Event.inSection K) (pull : AssociatedPull) :
    Does settings p K (fanOut job pull) fun _ τ => Queued job pull τ := by
  refine Does.ite (fun hc => Does.pure fun τ _ ho => ?_) fun _ => ?_
  · rw [ho] at hc
    cases hc
  · refine Does.seq (requireCurrentClaim_does hK) fun _ => ?_
    refine (Does.call hK (c := .enqueueForSharedHeadGeneration (fanOutRequest job pull.number) job.generation)
      rfl fun τ _ => Call.isPlain.lawful rfl settings p τ).bind fun (current : Bool) => ?_
    refine Does.ite (fun hc => Does.pure fun τ hs _ => ?_) fun _ => Does.throw
    obtain rfl : current = true := hc
    refine (hs.1.keeping fun _ _ => rfl).imp fun event past he => ?_
    obtain ⟨-, db, g, i, db', rfl, -⟩ := he
    exact ⟨db, g, i, rfl⟩

/-- What remains to be queued of a survey. -/
theorem fanOuts_does (hK : Survives Event.inSection K) (current : List AssociatedPull) :
    Does settings p K (current.forM (fanOut job)) fun _ τ => FannedOut job current τ := by
  have hloop := Triple.forM (S := amid observes nobody) (I := fun _ => True) (G := fun _ => Lawful settings p) (p := ⟨⟩)
    (F := fun _ => K) (f := fanOut job)
    (K := fun rest τ => (∀ pull ∈ current, pull ∈ rest ∨ Queued job pull τ) ∧ K τ) ?_ current
  · refine hloop.conseq (fun τ _ hs => ⟨fun pull hp => Or.inl hp, hs⟩) ?_ fun _ _ _ hs => hs
    intro _ τ _ hs
    refine ⟨fun pull hp => ?_, hs.2⟩
    rcases hs.1 pull hp with h | h
    · cases h
    · exact h
  · intro pull rest
    have hkept : Survives Event.inSection fun τ => (∀ other ∈ current, other ∈ pull :: rest ∨ Queued job other τ) := by
      intro event τ he hs other ho
      exact (hs other ho).imp id fun hq hopen => (hq hopen).later rfl
    refine (fanOut_does (hkept.and hK) pull).conseq (fun _ _ hs => hs) ?_ fun _ _ _ hs => hs.2
    intro _ τ _ hs
    refine ⟨fun other ho => ?_, hs.2.2⟩
    rcases hs.2.1 other ho with hmem | hq
    · rcases List.mem_cons.mp hmem with rfl | hmem
      · exact Or.inr hs.1
      · exact Or.inl hmem
    · exact Or.inr hq

theorem invalidateSharedHead_does :
    Does settings p (fun τ => job ∈ heldInvalidations τ) (invalidateSharedHead job)
      fun _ τ => InvalidationSettled job τ := by
  refine resetSharedHead_does.bind fun current => ?_
  cases current with
  | none => exact Does.pure fun τ hs => Or.inl hs.1
  | some current =>
    have hK := (ResetDone.kept Event.inSection job (some current)).and (heldInvalidations_kept job).publication.within
    refine (fanOuts_does hK current).bind fun _ => ?_
    have hfanned : Survives Event.inSection (FannedOut job current) :=
      fun event τ _ hs pull hp ho => (hs pull hp ho).later rfl
    refine (requireCurrentClaim_does (hfanned.and hK)).weaken fun _ τ hs _ => ?_
    exact Or.inr ⟨current, hs.2.1.1, hs.1, hs.2.1.2⟩

/-- A call under the invalidation that a process works on. -/
theorem lawful_invalidationUsed {c : Call} {τ : Trace} (hc : c.invalidationUsed = some job)
    (hj : job ∈ heldInvalidations τ) (hfenced : CallFenced settings τ c) : Lawful settings p τ (.call c) := by
  refine And.intro ⟨?_, ?_, ?_, ?_, ?_⟩ hfenced
  · intro used owner hu
    cases c <;> first | (cases hu; done) | cases hc
  · intro used owner hu
    cases c <;> first | (cases hu; done) | cases hc
  · intro used hu
    cases hc.symm.trans hu
    exact hj
  · intro owner hu
    cases c <;> first | (cases hu; done) | cases hc
  · intro owner lease_seconds work_class hu
    subst hu
    cases hc

theorem invalidationFailed_ends (x : Exn) :
    Finishes settings p (fun τ => job ∈ heldInvalidations τ) (Worker.invalidationFailed settings job x) := by
  have hdefer : ∀ delay,
      Finishes settings p (fun τ => job ∈ heldInvalidations τ) (Worker.deferSharedHead job x delay) :=
    fun delay => Finishes.last fun τ hs => lawful_invalidationUsed rfl hs trivial
  have hK := (heldInvalidations_kept job).publication.within
  cases x with
  | recoveryBudgetDeferred => exact hdefer _
  | gitHubRateLimit =>
    exact Finishes.after (Does.plain hK (plain_call rfl)) fun _ => (hdefer _).under fun _ hs => hs.2
  | sharedHeadLeaseLost => exact Finishes.pure
  | cancelled => exact Finishes.throw
  | _ => exact Finishes.last fun τ hs => lawful_invalidationUsed rfl hs trivial

theorem processSharedHead_ends :
    Finishes settings p (fun τ => job ∈ heldInvalidations τ) (Worker.processSharedHead settings job) := by
  refine Finishes.tryElse invalidateSharedHead_does invalidationFailed_ends fun _ => ?_
  have hsettled : Survives Event.inSection (InvalidationSettled job) := by
    intro event τ he hs
    rcases hs with h | ⟨current, hsurveyed, hfanned, hreset⟩
    · exact Or.inl (h.later rfl)
    · refine Or.inr ⟨current, Surveyed.kept _ job current event τ he hsurveyed, ?_, fun ho => (hreset ho).later rfl⟩
      exact fun pull hp ho => (hfanned pull hp ho).later rfl
  have hK := hsettled.and (heldInvalidations_kept job).publication.within
  refine Finishes.after (Does.effect (e := .leaseIsLost) hK (fun _ _ _ _ => rfl) fun _ _ => trivial)
    fun (lost : Bool) => ?_
  refine Triple.ite (fun _ => Finishes.pure) fun _ => ?_
  exact Finishes.last fun τ hs => lawful_invalidationUsed rfl hs.2.2 hs.2.1

end

/-! ## Triggers -/

theorem queueLiveHead_plain (job : JobRequest) (pull : Pull) : PlainProgram (queueLiveHead job pull) :=
  Prog.Only.ite (Prog.Only.bind (fun _ => Prog.Only.pure _) (plain_call rfl)) (Prog.Only.pure _)

theorem resetOf_amends (key : EpochKey) (check_run_id : Option Nat) : (resetOf key check_run_id).amends key := by
  cases check_run_id <;> rfl

section
variable [PullDigest] {settings : Settings} {p : Pid} {K : Trace → Prop} {job : JobRequest} {pull : Pull}
  {policy_present : Str → Program Bool}

theorem invalidateAcceptedHead_does (hK : Survives Event.inPublication K)
    (hpolicy : ∀ base_ref, PlainProgram (policy_present base_ref)) (accepted_head : HeadSha) (generation : Nat)
    (live_head_queued : Bool) :
    Does settings p K (invalidateAcceptedHead job pull accepted_head generation live_head_queued policy_present)
      fun _ _ => True := by
  refine Does.guardedAmend (k := job.epochKey accepted_head) hK ?_
  refine Prog.Only.bind (fun (_ : Bool) => Prog.Only.ite (Prog.Only.pure _) ?_) (amends_query _ _)
  refine Prog.Only.bind (fun (check_run_id : Option Nat) => ?_) (amends_read _ _)
  refine Prog.Only.bind (fun (_ : Bool) => Prog.Only.ite (Prog.Only.pure _) ?_) ?_
  · refine Prog.Only.bind (fun (_ : Bool) => Prog.Only.ite (Prog.Only.pure _) ?_) (amends_query _ _)
    exact Prog.Only.bind (fun _ => Prog.Only.pure _) (amends_write (resetOf_amends _ check_run_id))
  · exact Prog.Only.ite (Prog.Only.pure _) (Prog.Only.ite (Prog.Only.pure _) (amends_plain _ (hpolicy _)))

theorem invalidateLiveHead_does (hK : Survives Event.inPublication K)
    (hpolicy : ∀ base_ref, PlainProgram (policy_present base_ref)) :
    Does settings p K (invalidateLiveHead job pull policy_present) fun _ _ => True := by
  refine Does.seq (Does.read hK.within _) fun (_ : Bool) => ?_
  refine Does.seq (Does.plain hK.within (Prog.Only.ite (Prog.Only.pure _) (hpolicy _))) fun (_ : Bool) => ?_
  refine Does.ite (fun _ => Does.pure fun _ _ => trivial) fun _ => ?_
  have hinterim := amends_write (w := .upsertInterim (job.epochKey pull.head_sha)) rfl
  exact Does.seq (Does.guardedAmend (k := job.epochKey pull.head_sha) hK hinterim)
    fun _ => Does.pure fun _ _ => trivial

theorem invalidateForTrigger_does (hK : Survives Event.inPublication K)
    (hpolicy : ∀ base_ref, PlainProgram (policy_present base_ref)) (shared_head_generation : Option Nat) :
    Does settings p K (invalidateForTrigger settings job shared_head_generation policy_present) fun _ _ => True := by
  refine Does.ite (fun _ => Does.pure fun _ _ => trivial) fun _ => ?_
  refine Does.seq (Does.read hK.within _) fun (pull : Pull) => ?_
  cases hstate : pull.state with
  | unknown shown =>
    dsimp only
    exact Does.throw
  | CLOSED =>
    dsimp only
    exact Does.pure fun _ _ => trivial
  | OPEN =>
    dsimp only
    refine Does.seq (Does.plain hK.within (queueLiveHead_plain job pull)) fun live_head_queued => ?_
    cases shared_head_generation with
    | none => exact invalidateLiveHead_does hK hpolicy
    | some generation =>
      cases hhead : job.head_sha_hint with
      | none =>
        dsimp only
        exact Does.throw
      | some accepted_head =>
        dsimp only
        exact invalidateAcceptedHead_does hK hpolicy accepted_head generation live_head_queued

/-! ## Webhooks -/

theorem fastInvalidation_does (delivery_id : Str) (shared_head_generation : Option Nat)
    (hK : Survives Event.inPublication K) :
    Does settings p K (fastInvalidation settings delivery_id job shared_head_generation) fun _ _ => True := by
  refine Does.handle ?_ fun x => ?_
  · refine Does.seq (invalidateForTrigger_does hK (policyPresent_plain _ _) _) fun _ => ?_
    exact Does.seq (Does.plain hK.within (plain_call rfl)) fun _ => Does.pure fun _ _ => trivial
  · cases x with
    | gitHubRateLimit =>
      exact (Does.plain hK.within (plain_call rfl)).handle fun y =>
        Does.ite (fun _ => Does.throw) fun _ => Does.pure fun _ _ => trivial
    | cancelled => exact Does.throw
    | _ => exact Does.pure fun _ _ => trivial

theorem webhook_ends (delivery_id event : Str) (request : DeliveryRequest) :
    Finishes settings p (fun _ => True) (webhook settings delivery_id event request) := by
  have hK : Survives Event.inPublication fun _ => True := Survives.const True
  refine Does.ends (Q := fun _ _ => True)
    (Does.seq (Does.plain hK.within (plain_call rfl)) fun (acceptance : DeliveryAcceptance) => ?_)
  cases request with
  | authority => exact Does.pure fun _ _ => trivial
  | job job =>
    refine Does.seq (Does.plain hK.within (Prog.Only.ite (Prog.Only.pure _) (plain_query _))) fun (_ : Bool) => ?_
    refine Does.ite (fun _ => Does.pure fun _ _ => trivial) fun _ => ?_
    refine Does.seq (Does.query hK.within _) fun (_ : Bool) => ?_
    exact Does.ite (fun _ => Does.pure fun _ _ => trivial) fun _ => fastInvalidation_does _ _ hK

end

end ExtraCodeowners
