import ExtraCodeowners.Checkpoints

/-!
# The service keeps to the discipline

Every program of the service starts from an empty trace and is lawful to its
end. What lawful steps and the environment keep is an invariant of the service.
-/

namespace ExtraCodeowners

open System

section
variable [PullDigest] {settings : Settings} {p : Pid}

/-! ## Claiming -/

/-- A process claims for itself. -/
theorem lawful_claimant {c : Call} {τ : Trace} (hc : c.claimant = some p)
    (hseq : ∀ owner lease_seconds work_class,
      c = .claimSharedHeadInvalidation owner lease_seconds work_class → heldInvalidations τ = [])
    (hfenced : CallFenced settings τ c) : Lawful settings p τ (.call c) := by
  refine And.intro ⟨?_, ?_, ?_, ?_, hseq⟩ hfenced
  · intro used owner hu
    cases c <;> first | (cases hu; done) | cases hc
  · intro used owner hu
    cases c <;> first | (cases hu; done) | cases hc
  · intro used hu
    cases c <;> first | (cases hu; done) | cases hc
  · intro owner hu
    exact Option.some.inj (hu.symm.trans hc)

/-- Nothing is claimed yet. -/
structure Unclaimed (τ : Trace) : Prop where
  claims : heldClaims τ = []
  invalidations : heldInvalidations τ = []

theorem claimEvaluation_spec (work_class : WorkClass) :
    Spec nobody (fun _ => True) (Lawful settings p) Unclaimed (Worker.claimEvaluation settings p work_class)
      (fun job τ => (job = none → Unclaimed τ) ∧
        ∀ claimed, job = some claimed → claimed ∈ heldClaims τ ∧ p = claimed.lease_owner) fun _ _ => True := by
  refine Spec.effect (nobody_keeps _) (fun τ _ hs => ?_) ?_ fun _ _ _ _ _ _ _ _ => trivial
  · refine lawful_claimant rfl (fun _ _ _ hc => ?_) hs.invalidations
    cases hc
  · intro τ db g i job _ hs htold
    obtain ⟨db', hr⟩ := htold
    refine ⟨fun hj => ?_, fun claimed hj => ?_⟩
    · subst hj
      exact ⟨hs.claims, hs.invalidations⟩
    · subst hj
      refine ⟨List.mem_append_left _ List.mem_cons_self, ?_⟩
      rcases claim_owner hr (show _ = some claimed from rfl) with ⟨owner, ho, hj⟩ | ⟨used, owner, hu, -⟩
      · exact (Option.some.inj ho).trans hj.symm
      · cases hu

theorem runForegroundSlot_ends : Finishes settings p Unclaimed (Worker.runForegroundSlot settings p) := by
  refine Triple.bind (claimEvaluation_spec .interactive) fun job => ?_
  cases job with
  | none => exact Finishes.pure
  | some job =>
    intro τ hI hs
    obtain ⟨hheld, hp⟩ := hs.2 job rfl
    exact process_ends hp τ hI hheld

theorem runRecoverySlot_ends : Finishes settings p Unclaimed (Worker.runRecoverySlot settings p) := by
  refine Triple.bind (claimEvaluation_spec .recovery) fun job => ?_
  cases job with
  | none => exact runForegroundSlot_ends.under fun τ hs => hs.1 rfl
  | some job =>
    intro τ hI hs
    obtain ⟨hheld, hp⟩ := hs.2 job rfl
    exact process_ends hp τ hI hheld

theorem claimInvalidation_spec (work_class : WorkClass) :
    Spec nobody (fun _ => True) (Lawful settings p) Unclaimed (Worker.claimInvalidation settings p work_class)
      (fun job τ => (job = none → Unclaimed τ) ∧ ∀ claimed, job = some claimed → claimed ∈ heldInvalidations τ)
      fun _ _ => True := by
  refine Spec.effect (nobody_keeps _) (fun τ _ hs => ?_) ?_ fun _ _ _ _ _ _ _ _ => trivial
  · exact lawful_claimant rfl (fun _ _ _ _ => hs.invalidations) hs.claims
  · intro τ db g i job _ hs _
    refine ⟨fun hj => ?_, fun claimed hj => ?_⟩
    · subst hj
      exact ⟨hs.claims, hs.invalidations⟩
    · subst hj
      exact List.mem_append_left _ List.mem_cons_self

theorem runInvalidationSlot_ends (recovery_first : Bool) :
    Finishes settings p Unclaimed (Worker.runInvalidationSlot settings p recovery_first) := by
  refine Triple.bind (claimInvalidation_spec _) fun job => ?_
  cases job with
  | some job => exact processSharedHead_ends.under fun τ hs => hs.2 job rfl
  | none =>
    refine Triple.bind (R := fun job τ => ∀ claimed, job = some claimed → claimed ∈ heldInvalidations τ) ?_ ?_
    · exact (claimInvalidation_spec _).conseq (fun τ _ hs => hs.1 rfl) (fun _ _ _ hs => hs.2) fun _ _ _ hs => hs
    · intro job
      cases job with
      | none => exact Finishes.pure
      | some job => exact processSharedHead_ends.under fun τ hs => hs job rfl

theorem runAuthoritySlot_ends (fuel : Nat) (prioritize_interactive : Bool) :
    Finishes settings p (fun τ => τ = []) (Worker.runAuthoritySlot settings fuel p prioritize_interactive) := by
  refine Triple.bind (R := fun job τ => ∀ claimed, job = some claimed → Fresh claimed τ ∧ p = claimed.lease_owner)
    ?_ fun job => ?_
  · refine Spec.effect (nobody_keeps _) (fun τ _ hs => ?_) ?_ fun _ _ _ _ _ _ _ _ => trivial
    · refine lawful_claimant rfl (fun _ _ _ hc => ?_) hs
      cases hc
    · intro τ db g i job _ hs htold claimed hj
      subst hs hj
      obtain ⟨db', hr⟩ := htold
      obtain ⟨owner, ho, hj⟩ := authority_claim_owner hr (show _ = some claimed from rfl)
      refine ⟨⟨List.mem_append_left _ List.mem_cons_self, rfl, rfl, fun _ => rfl⟩, ?_⟩
      exact (Option.some.inj ho).trans hj.symm
  · cases job with
    | none => exact Finishes.pure
    | some job =>
      intro τ hI hs
      exact processAuthority_ends (hs job rfl).2 fuel τ hI (hs job rfl).1

/-! ## Runs -/

theorem programs_lawful {prog : Program PUnit} (h : Programs settings p prog) :
    wp (alone observes) (fun _ => True) (fun _ => Lawful settings p) ⟨⟩ prog (fun _ _ => True) [] := by
  have hends : Finishes settings p (fun τ => τ = []) prog := by
    cases h with
    | foreground => exact runForegroundSlot_ends.under fun τ hs => hs ▸ ⟨rfl, rfl⟩
    | recovery => exact runRecoverySlot_ends.under fun τ hs => hs ▸ ⟨rfl, rfl⟩
    | invalidation recovery_first =>
      exact (runInvalidationSlot_ends recovery_first).under fun τ hs => hs ▸ ⟨rfl, rfl⟩
    | authority fuel prioritize_interactive => exact runAuthoritySlot_ends fuel prioritize_interactive
    | webhook delivery_id event request =>
      exact (webhook_ends delivery_id event request).under fun _ _ => trivial
  refine wp_mono (fun r s _ _ => trivial) trivial (alone_of_amid (hends [] trivial rfl))

/-- A configuration that a run of the service reaches. -/
def Reached (settings : Settings) (github : GitHub) (c : Config Pid Effect Effect.Answer Exn World) : Prop :=
  (service settings).Run (idle (World.initial github)) c

/-- Whatever a process is about to do is lawful. -/
theorem Reached.lawful {github : GitHub} {c : Config Pid Effect Effect.Answer Exn World}
    (h : Reached settings github c) {e : Effect} {k : Except Exn e.Answer → Program PUnit}
    (hp : c.procs p = some (.op e k)) : Lawful settings p (c.state.trace p) e :=
  (Run.verified service_local (fun _ _ hprog => programs_lawful hprog) (.initial github) h).guarantee hp

/-- What lawful steps, the environment and stops keep holds throughout. -/
theorem Reached.inv {J : World → Prop} {github : GitHub} (hinit : J (World.initial github))
    (hperform : ∀ p s e a s', J s → Lawful settings p (s.trace p) e → performs p s e a s' → J s')
    (henv : ∀ s s', J s → environment s s' → J s') (hclear : ∀ p s, J s → J (s.cleared p))
    {c : Config Pid Effect Effect.Answer Exn World} (h : Reached settings github c) : J c.state :=
  Run.local_inv service_local (fun _ _ hprog => programs_lawful hprog) hperform henv hclear (.initial github)
    hinit h

end

end ExtraCodeowners
