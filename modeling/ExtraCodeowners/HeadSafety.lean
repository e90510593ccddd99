import ExtraCodeowners.AuthorityOrder

/-!
# Stale results are revoked

A reset looks at the check of a head under its guard, after the advance that
asked for it. An evaluation that is written later has found its generation
publishable under the same guard, so it was bound after that advance. What the
check shows is therefore newer than every reset that has been made.
-/

namespace ExtraCodeowners

open System

/-! ## When an invalidation was claimed -/

/-- The claim saw the head at an advance, which is the latest while it has the lease. -/
structure Dated (db : Db) (job : ClaimedSharedHeadInvalidation) : Prop where
  past : job.claimed_at ≤ db.advances job.epochKey
  owned : ∀ e, db.shared_head_epochs.get? job.epochKey = some e → e.lease_owner = some job.lease_owner →
    job.claimed_at = db.advances job.epochKey

theorem nextEpoch_lease_owner {now : Time} (waiting : Bool) (work_class : WorkClass) (o : Option SharedHeadEpoch) :
    (nextEpoch now waiting work_class o).lease_owner = none := by cases o <;> rfl

section
variable {i : Instant} {c : Call} {a : c.Answer} {db db' : Db} {job : ClaimedSharedHeadInvalidation}

theorem advances_run (hr : c.run i db = .ok (db', a)) (key : EpochKey) : db.advances key ≤ db'.advances key := by
  cases epochChange_run hr key with
  | kept _ h | touched _ _ _ h | claimed _ _ _ _ _ _ _ _ h | renewed _ _ _ _ _ _ _ _ h
  | completed _ _ _ _ _ _ _ h | unleased _ _ _ _ _ _ _ _ _ h | pruned _ _ _ _ _ _ h => exact h.ge
  | advanced _ _ _ _ h => omega

/-- Only a claim gives an epoch an owner, and an advance takes it away. -/
theorem Dated.step (h : Dated db job)
    (hne : ∀ owner lease_seconds work_class,
      c = .claimSharedHeadInvalidation owner lease_seconds work_class → job.lease_owner ≠ owner)
    (hc : EpochChange i c db db' job.epochKey) : Dated db' job := by
  cases hc with
  | kept h₁ ha => exact ⟨ha ▸ h.past, fun e he ho => ha ▸ h.owned e (h₁ ▸ he) ho⟩
  | advanced waiting work_class _ h₁ ha =>
    refine ⟨by have := h.past; omega, fun e he ho => ?_⟩
    rw [h₁] at he
    cases he
    rw [nextEpoch_lease_owner] at ho
    cases ho
  | touched e h₀ h₁ ha =>
    refine ⟨ha ▸ h.past, fun e' he ho => ?_⟩
    rw [h₁] at he
    cases he
    exact ha ▸ h.owned e h₀ ho
  | claimed e owner lease_seconds work_class hclaim _ _ h₁ ha =>
    refine ⟨ha ▸ h.past, fun e' he ho => ?_⟩
    rw [h₁] at he
    cases he
    exact absurd (Option.some.inj ho).symm (hne owner lease_seconds work_class hclaim)
  | renewed e _ _ _ _ h₀ _ h₁ ha =>
    refine ⟨ha ▸ h.past, fun e' he ho => ?_⟩
    rw [h₁] at he
    cases he
    exact ha ▸ h.owned e h₀ ho
  | completed e _ _ _ _ _ h₁ ha =>
    refine ⟨ha ▸ h.past, fun e' he ho => ?_⟩
    rw [h₁] at he
    cases he
    cases ho
  | unleased e e'' _ _ _ _ _ h₁ hu ha =>
    refine ⟨ha ▸ h.past, fun e' he ho => ?_⟩
    rw [h₁] at he
    cases he
    rw [hu.lease_owner] at ho
    cases ho
  | pruned _ _ _ _ _ h₁ ha =>
    refine ⟨ha ▸ h.past, fun e' he ho => ?_⟩
    rw [h₁] at he
    cases he

theorem dated_issued (hr : c.run i db = .ok (db', a)) (hi : c.invalidationIssued a = some job) :
    Dated db' job := by
  cases c with
  | claimSharedHeadInvalidation owner lease_seconds work_class =>
    have hrun : claimSharedHeadInvalidation i.now i.epoch_locked owner lease_seconds work_class db = (db', a) :=
      Except.ok.inj hr
    unfold claimSharedHeadInvalidation at hrun
    split at hrun
    · cases hrun
      cases hi
    · cases hrun
      cases hi
      exact ⟨le_refl _, fun _ _ _ => rfl⟩
  | _ => cases hi

end

theorem Tokens.Reachable.dated {t : Tokens} (h : t.Reachable Tokens.Permits) :
    ∀ job ∈ t.invalidations, Dated t.db job := by
  induction h with
  | refl => exact fun job hj => by cases hj
  | tail _ hs ih =>
    cases hs with
    | gaveUp invalidations hsub => exact fun job hj => ih job (hsub hj)
    | call i c a db' hp hr =>
      intro job hj
      rcases List.mem_append.mp hj with hnew | hold
      · exact dated_issued hr (Option.mem_toList.mp hnew)
      · have hmem := by
          cases hrel : c.invalidationReleased with
          | none =>
            rw [hrel] at hold
            exact hold
          | some released =>
            rw [hrel] at hold
            exact (List.mem_filter.mp hold).1
        exact (ih job hmem).step (fun owner lease_seconds work_class hc =>
          hp.sequential owner lease_seconds work_class hc job hmem) (epochChange_run hr job.epochKey)

/-! ## What every trace keeps to -/

/-- Nobody evaluates and resets at the same time. -/
def OneKind (τ : Trace) : Prop := heldClaims τ = [] ∨ heldInvalidations τ = []

theorem claimsAfter_nil {c : Call} {answer : Option c.Answer}
    (h : ∀ a, answer = some a → c.claimIssued a = none) : claimsAfter c answer [] = [] := by
  unfold claimsAfter
  have hnew : answer.bind c.claimIssued = none := by
    cases answer with
    | none => rfl
    | some a => exact h a rfl
  rw [hnew]
  cases c.claimReleased <;> rfl

theorem invalidationsAfter_nil {c : Call} {answer : Option c.Answer}
    (h : ∀ a, answer = some a → c.invalidationIssued a = none) : invalidationsAfter c answer [] = [] := by
  unfold invalidationsAfter
  have hnew : answer.bind c.invalidationIssued = none := by
    cases answer with
    | none => rfl
    | some a => exact h a rfl
  rw [hnew]
  cases c.invalidationReleased <;> rfl

theorem invalidationIssued_of_claim {c : Call} {a : c.Answer} {job : ClaimedJob} (hi : c.claimIssued a = some job) :
    ∀ b, c.invalidationIssued b = none := by
  cases c <;> first | exact fun _ => rfl | cases hi

section
variable [PullDigest] {settings : Settings} {p : Pid} {τ : Trace} {c : Call}

/-- A call that hands out evaluations finds no invalidation in hand. -/
theorem claimIssued_alone (h : OneKind τ) (hl : Lawful settings p τ (.call c)) {a : c.Answer}
    {job : ClaimedJob} (hi : c.claimIssued a = some job) : heldInvalidations τ = [] := by
  cases c with
  | claim => exact hl.2
  | bindClaimToHead used head =>
    rcases h with hnone | hnone
    · have hheld := (hl.1.job used _ rfl).1
      rw [hnone] at hheld
      cases hheld
    · exact hnone
  | _ => cases hi

theorem invalidationIssued_alone (hl : Lawful settings p τ (.call c)) {a : c.Answer}
    {job : ClaimedSharedHeadInvalidation} (hi : c.invalidationIssued a = some job) : heldClaims τ = [] := by
  cases c with
  | claimSharedHeadInvalidation => exact hl.2
  | _ => cases hi

theorem OneKind.after (h : OneKind τ) (hl : Lawful settings p τ (.call c)) (answer : Option c.Answer) :
    claimsAfter c answer (heldClaims τ) = [] ∨ invalidationsAfter c answer (heldInvalidations τ) = [] := by
  by_cases hclaim : ∃ a job, answer = some a ∧ c.claimIssued a = some job
  · obtain ⟨a, job, -, hi⟩ := hclaim
    right
    rw [claimIssued_alone h hl hi]
    exact invalidationsAfter_nil fun b _ => invalidationIssued_of_claim hi b
  have hclaim' : ∀ a, answer = some a → c.claimIssued a = none := by
    intro a ha
    by_contra hne
    obtain ⟨job, hj⟩ := Option.ne_none_iff_exists'.mp hne
    exact hclaim ⟨a, job, ha, hj⟩
  by_cases hinv : ∃ a job, answer = some a ∧ c.invalidationIssued a = some job
  · obtain ⟨a, job, -, hi⟩ := hinv
    left
    rw [invalidationIssued_alone hl hi]
    exact claimsAfter_nil hclaim'
  have hinv' : ∀ a, answer = some a → c.invalidationIssued a = none := by
    intro a ha
    by_contra hne
    obtain ⟨job, hj⟩ := Option.ne_none_iff_exists'.mp hne
    exact hinv ⟨a, job, ha, hj⟩
  rcases h with hnone | hnone
  · left
    rw [hnone]
    exact claimsAfter_nil hclaim'
  · right
    rw [hnone]
    exact invalidationsAfter_nil hinv'

theorem OneKind.cons (h : OneKind τ) {event : Event} (hl : Lawful settings p τ event.effect) :
    OneKind (event :: τ) := by
  unfold OneKind
  rw [heldClaims, heldInvalidations]
  cases he : event.answered with
  | none => exact h
  | some called =>
    obtain ⟨c, answer⟩ := called
    have hlc : Lawful settings p τ (.call c) := by
      obtain ⟨db, g, i, e, a⟩ := event
      cases e with
      | call c' => cases a <;> cases he <;> exact hl
      | _ => cases he
    exact h.after hlc answer

end

/-! ## Resets that were made -/

/-- Under its guard the head was found without a check, or its check was reset. -/
def Voids (job : ClaimedSharedHeadInvalidation) (event : Event) (past : Trace) : Prop :=
  Unpublished job event past ∨ Reset job event past

/-- A process did so, or had done so when it committed a call. -/
def Voided (s : World) (job : ClaimedSharedHeadInvalidation) : Prop :=
  (∃ p, Happened (Voids job) (s.trace p)) ∨ ∃ commit ∈ s.commits, Happened (Voids job) commit.trace

section
variable {job : ClaimedSharedHeadInvalidation} {event : Event} {past : Trace}

theorem Voids.held (h : Voids job event past) : job ∈ heldInvalidations past := h.elim (·.1) (·.1)

theorem Voids.guarded (h : Voids job event past) :
    holdsCheckGuard job.installation_id job.head_sha past = true := h.elim (·.2.1) (·.2.1)

end

section
variable {p : Pid} {s s₁ : World} {i : Instant} {e : Effect} {a : Except Exn e.Answer}

theorem Acted.commits (h : Acted p s i e a s₁) :
    ∀ commit ∈ s₁.commits, commit ∈ s.commits ∨ commit.trace = s.trace p := by
  intro commit hc
  cases h with
  | learned c a db' | unlearned c a db' x =>
    rcases List.mem_cons.mp hc with rfl | hc
    · exact Or.inr rfl
    · exact Or.inl hc
  | released =>
    unfold World.released at hc
    split at hc <;> exact Or.inl hc
  | _ => exact Or.inl hc

theorem Acted.voided {job : ClaimedSharedHeadInvalidation} {event : Event} (h : Acted p s i e a s₁)
    (hv : Voided (s₁.seen p event) job) : Voided s job ∨ Voids job event (s.trace p) := by
  rcases hv with ⟨q, hq⟩ | ⟨commit, hc, hv⟩
  · rw [h.seen_trace] at hq
    by_cases hqp : q = p
    · rw [if_pos hqp] at hq
      rcases once_cons hq with hnow | ⟨-, hold⟩
      · exact Or.inr hnow
      · exact Or.inl (Or.inl ⟨p, hold⟩)
    · rw [if_neg hqp] at hq
      exact Or.inl (Or.inl ⟨q, hq⟩)
  · rcases h.commits commit hc with hold | ht
    · exact Or.inl (Or.inr ⟨commit, hold, hv⟩)
    · exact Or.inl (Or.inl ⟨p, ht ▸ hv⟩)

end

theorem Voided.of_env {s s' : World} {job : ClaimedSharedHeadInvalidation} (h : Voided s' job)
    (he : environment s s') : Voided s job := by
  cases he <;> exact h

theorem Voided.of_clear {s : World} {p : Pid} {job : ClaimedSharedHeadInvalidation}
    (h : Voided (s.cleared p) job) : Voided s job := by
  rcases h with ⟨q, hq⟩ | hc
  · rw [cleared_trace] at hq
    by_cases hqp : q = p
    · rw [if_pos hqp] at hq
      obtain ⟨l, event, older, hτ, -⟩ := hq
      cases l <;> cases hτ
    · rw [if_neg hqp] at hq
      exact Or.inl ⟨q, hq⟩
  · exact Or.inr hc

/-! ## Under the guard of a head -/

/-- What an evaluation learns under the guard of its head. -/
structure UnderGuard (P : Event → Trace → Prop) (key : EpochKey) : Prop where
  within : ∀ event past, P event past → event.inSection = true
  guarded : ∀ event past, P event past → holdsCheckGuard key.installation_id key.head_sha past = true
  evaluating : ∀ event past, P event past → ∃ claim, claim ∈ heldClaims past

theorem Event.Asked.inSection {event : Event} {q : Query} {a : q.Answer} (h : event.Asked q a) :
    event.inSection = true := by
  obtain ⟨db, g, i, rfl⟩ := h
  rfl

theorem underGuard_publishable (job : ClaimedJob) (head : HeadSha) :
    UnderGuard (Publishable job head) (job.epochKey head) :=
  ⟨fun _ _ h => h.1.inSection, fun _ _ h => h.2.1, fun _ _ h => ⟨job, h.2.2⟩⟩

section
variable {P : Event → Trace → Prop} {key : EpochKey} {τ : Trace}

theorem UnderGuard.holds (hu : UnderGuard P key) (h : Once Event.inSection P τ) :
    holdsCheckGuard key.installation_id key.head_sha τ = true ∧ ∃ claim, claim ∈ heldClaims τ := by
  refine ⟨?_, ?_⟩
  · have hkept := holdsCheckGuard_kept key.installation_id key.head_sha
    exact once_since hkept (fun event past hp => hkept event past (hu.within _ _ hp) (hu.guarded _ _ hp)) h
  · have hkept : Survives Event.inSection fun τ => ∃ claim, claim ∈ heldClaims τ := by
      intro event τ he hc
      obtain ⟨claim, hc⟩ := hc
      exact ⟨claim, (heldClaims_kept claim).publication.within event τ he hc⟩
    exact once_since hkept (fun event past hp => hkept event past (hu.within _ _ hp) (hu.evaluating _ _ hp)) h

end

theorem underGuard_current (job : ClaimedJob) (head : HeadSha) :
    UnderGuard (Current job head) (job.epochKey head) := by
  refine ⟨fun _ _ h => h.1.inSection, fun _ _ h => ?_, fun _ _ h => ?_⟩
  · exact ((underGuard_publishable job head).holds h.2.2).1
  · exact ((underGuard_publishable job head).holds h.2.2).2

/-- In the section that follows, no later advance has its reset made. -/
def Bounds (P : Event → Trace → Prop) (key : EpochKey) (bound : Event → Nat) (s : World) : Prop :=
  ∀ p l event older, s.trace p = l ++ event :: older → (∀ e ∈ l, e.inSection = true) → P event older →
    ∀ job, Voided s job → job.epochKey = key → job.claimed_at ≤ bound event

section
variable {P : Event → Trace → Prop} {key : EpochKey} {bound : Event → Nat} {s s₁ : World} {p : Pid}

theorem Bounds.initial (github : GitHub) : Bounds P key bound (World.initial github) := by
  intro p l event older hτ
  cases l <;> cases hτ

/-- A reset needs the guard of the head and an invalidation in hand. -/
theorem Bounds.seen (hu : UnderGuard P key) (h : Bounds P key bound s) (hg : GuardsKept s)
    (hk : ∀ q, OneKind (s.trace q)) {i : Instant} {e : Effect} {a : Except Exn e.Answer} {event : Event}
    (hacted : Acted p s i e a s₁)
    (hnow : P event (s.trace p) → ∀ job, Voided s job → job.epochKey = key → job.claimed_at ≤ bound event) :
    Bounds P key bound (s₁.seen p event) := by
  have hnone : ∀ q claim job, claim ∈ heldClaims (s.trace q) → job ∉ heldInvalidations (s.trace q) := by
    intro q claim job hc hj
    rcases hk q with hnil | hnil
    · rw [hnil] at hc
      cases hc
    · rw [hnil] at hj
      cases hj
  intro r l event' older hτ hl hP job hv hkey
  rw [hacted.seen_trace] at hτ
  by_cases hnew : r = p ∧ l = []
  · obtain ⟨rfl, rfl⟩ := hnew
    rw [if_pos rfl] at hτ
    cases hτ
    rcases hacted.voided hv with hold | hnew
    · exact hnow hP job hold hkey
    · obtain ⟨claim, hc⟩ := hu.evaluating _ _ hP
      exact absurd hnew.held (hnone _ claim job hc)
  · -- the section had begun before
    obtain ⟨l', hτ', hl'⟩ : ∃ l', s.trace r = l' ++ event' :: older ∧ ∀ e ∈ l', e.inSection = true := by
      by_cases hrp : r = p
      · rw [if_pos hrp] at hτ
        cases l with
        | nil => exact absurd ⟨hrp, rfl⟩ hnew
        | cons e l =>
          have hrest := (List.cons.inj hτ).2
          exact ⟨l, hrp ▸ hrest, fun e he => hl e (List.mem_cons_of_mem _ he)⟩
      · rw [if_neg hrp] at hτ
        exact ⟨l, hτ, hl⟩
    rcases hacted.voided hv with hold | hvoids
    · exact h r l' event' older hτ' hl' hP job hold hkey
    · obtain ⟨hguard, claim, hc⟩ := hu.holds ⟨l', event', older, hτ', hl', hP⟩
      have hholder := (hg.check key.installation_id key.head_sha r).mpr hguard
      have hvoids' := hvoids.guarded
      rw [← hkey] at hholder
      have hsame := Option.some.inj (hholder.symm.trans ((hg.check _ _ p).mpr hvoids'))
      subst hsame
      exact absurd hvoids.held (hnone r claim job hc)

theorem Bounds.env {s' : World} (h : Bounds P key bound s) (he : environment s s') : Bounds P key bound s' := by
  intro p l event older hτ hl hP job hv hkey
  have hv' := hv.of_env he
  rw [environment_trace he] at hτ
  exact h p l event older hτ hl hP job hv' hkey

theorem Bounds.clear (h : Bounds P key bound s) (p : Pid) : Bounds P key bound (s.cleared p) := by
  intro q l event older hτ hl hP job hv hkey
  rw [cleared_trace] at hτ
  by_cases hqp : q = p
  · rw [if_pos hqp] at hτ
    cases l <;> cases hτ
  · rw [if_neg hqp] at hτ
    exact h q l event older hτ hl hP job hv.of_clear hkey

end

/-! ## A publishable claim -/

/-- The token of an unchanged generation is bound to the latest advance when it is publishable. -/
theorem Queue.Inv.bound_at {q : Queue} (h : q.Inv) {job : ClaimedJob} (hj : job ∈ q.held)
    (hcurrent : ¬Outrun q.db job) {head : HeadSha}
    (hp : sharedHeadGenerationIsPublishable job head q.db = true) :
    q.db.advances (job.epochKey head) = job.bound_at := by
  have ht := h.held job hj
  obtain ⟨row, hrow, hg⟩ : ∃ row, q.db.evaluation_jobs.get? job.id = some row ∧ job.generation = row.generation := by
    by_contra hnone
    refine hcurrent ⟨ht.fresh, fun row hrow => ?_⟩
    have hbehind := ht.behind row hrow
    have hne : job.generation ≠ row.generation := fun hg => hnone ⟨row, hrow, hg⟩
    omega
  have hm := ht.current row hrow hg
  unfold sharedHeadGenerationIsPublishable at hp
  simp only [Bool.and_eq_true, decide_eq_true_eq] at hp
  obtain ⟨hhead, hepoch⟩ := hp
  have hb := (h.coherent.bound job.id row head hrow (hm.head head hhead)).2
  rw [hm.epochKey, hm.generation head hhead, hm.bound_at head hhead] at hb
  have hgen : q.db.epochGeneration (job.epochKey head) = job.shared_head_generation := by
    unfold Db.epochGeneration
    cases he : q.db.shared_head_epochs.get? (job.epochKey head) with
    | none =>
      simp only [he, decide_eq_true_eq] at hepoch
      exact hepoch.symm
    | some e =>
      simp only [he, Bool.and_eq_true, decide_eq_true_eq] at hepoch
      exact hepoch.1
  omega

/-- A claim that is current has been so since it was publishable. -/
theorem Tracked.bound_at {s : World} {t : Tokens} (h : Tracked s t) {p : Pid} {now : Time} {job : ClaimedJob}
    {head : HeadSha} {l older : Trace} {event : Event} (hτ : s.trace p = l ++ event :: older)
    (hh : Honest (s.trace p)) (hp : Publishable job head event older)
    (hcurrent : isCurrentClaim now job s.db = true) : event.before.advances (job.epochKey head) = job.bound_at := by
  obtain ⟨t₀, hdb, hreach, hbacks, hsteps⟩ := h.recalls p l event older hτ
  have hnot : ¬Outrun t₀.db job := by
    intro hout
    have hlater := (hreach.uses.outrun_steps hout hsteps.uses).fencedOff.not_current now
    rw [h.db, hcurrent] at hlater
    cases hlater
  have hpublishable : sharedHeadGenerationIsPublishable job head event.before = true := by
    have htold := hh l event older hτ
    obtain ⟨db, g, i, rfl⟩ := hp.1
    exact Eq.symm htold
  rw [← hdb] at hpublishable ⊢
  exact hreach.uses.queue.inv.bound_at (hbacks.jobs job hp.2.2).1 hnot hpublishable

/-! ## What the check of a head shows -/

/-- The evaluation that a check shows is no older than any reset of it that was made. -/
def ShownFresh (s : World) : Prop :=
  ∀ key id conclusion claim, s.github.checks key = some ⟨id, .evaluated conclusion claim⟩ →
    ∀ job, Voided s job → job.epochKey = key → job.claimed_at ≤ claim.bound_at

section
variable {s s₁ : World} {p : Pid} {i : Instant} {e : Effect} {a : Except Exn e.Answer}

theorem Acted.checks (h : Acted p s i e a s₁) : s₁.github.checks = s.github.checks ∨
    ∃ w id, e = .write w ∧ s₁.github.checks = Function.update s.github.checks w.key (some ⟨id, w.state⟩) := by
  cases h with
  | written w a id => exact Or.inr ⟨w, id, rfl, rfl⟩
  | released =>
    unfold World.released
    split <;> exact Or.inl rfl
  | _ => exact Or.inl rfl

/-- A check that is found or made in a reset shows no evaluation. -/
theorem Acted.not_evaluated {job : ClaimedSharedHeadInvalidation} (h : acts p s i e a s₁)
    (hv : Voids job ⟨s.db, s.github, i, e, a⟩ (s.trace p)) {id : Nat} {conclusion : EvaluationConclusion}
    {claim : ClaimedJob} : s₁.github.checks job.epochKey ≠ some ⟨id, .evaluated conclusion claim⟩ := by
  intro hcheck
  rcases hv with ⟨-, -, db, g, i', hread⟩ | ⟨-, -, check_run_id, db, g, i', hwrote⟩
  · cases hread
    obtain ⟨hnone, hsame⟩ := h
    have hnone : (s.github.checks job.epochKey).map (·.id) = none := hnone
    subst hsame
    rw [hcheck] at hnone
    cases hnone
  · cases hwrote
    rcases h with ⟨id', -, rfl⟩ | ⟨hskip, -⟩
    · have hkey : (CheckWrite.resetCheckRun job.epochKey check_run_id).key = job.epochKey := rfl
      simp only [World.written, hkey, Function.update_self, CheckWrite.state] at hcheck
      cases hcheck
    · cases hskip

theorem ShownFresh.seen (h : ShownFresh s) (hact : acts p s i e a s₁)
    (hwrite : ∀ key conclusion claim skip, e = .write (.upsertCompleted key claim conclusion skip) →
      ∀ job, Voided s job → job.epochKey = key → job.claimed_at ≤ claim.bound_at) :
    ShownFresh (s₁.seen p ⟨s.db, s.github, i, e, a⟩) := by
  have hacted := acted_of_acts hact
  intro key id conclusion claim hseen job hv hkey
  have hcheck : s₁.github.checks key = some ⟨id, .evaluated conclusion claim⟩ := hseen
  clear hseen
  rcases hacted.voided hv with hold | hvoids
  · rcases hacted.checks with hsame | ⟨w, id', rfl, hwritten⟩
    · rw [hsame] at hcheck
      exact h key id conclusion claim hcheck job hold hkey
    · rw [hwritten] at hcheck
      by_cases hk : key = w.key
      · subst hk
        rw [Function.update_self] at hcheck
        have hstate : w.state = .evaluated conclusion claim := congrArg Check.state (Option.some.inj hcheck)
        cases w with
        | upsertCompleted key claim' conclusion' skip =>
          cases hstate
          exact hwrite key conclusion claim skip rfl job hold hkey
        | _ => cases hstate
      · rw [Function.update_of_ne hk] at hcheck
        exact h key id conclusion claim hcheck job hold hkey
  · rw [← hkey] at hcheck
    exact absurd hcheck (Acted.not_evaluated hact hvoids)

end

/-! ## What became of the latest advance -/

/-- The reset of the latest advance of a head is pending, or was completed for a reason. -/
def AdvanceAnswered (db : Db) (commits : List Commit) (key : EpochKey) : Prop :=
  db.advances key = 0 ∨
    (∃ e, db.shared_head_epochs.get? key = some e ∧ e.invalidated_generation < e.generation) ∨
    ∃ commit ∈ commits, ∃ job, commit.call = .completeSharedHeadInvalidation job ∧ job.epochKey = key ∧
      job.claimed_at = db.advances key ∧ InvalidationSettled job commit.trace

theorem nextEpoch_pending {now : Time} (waiting : Bool) (work_class : WorkClass) (o : Option SharedHeadEpoch) :
    (nextEpoch now waiting work_class o).invalidated_generation <
      (nextEpoch now waiting work_class o).generation := by
  cases o with
  | none => exact Nat.one_pos
  | some e => exact Nat.lt_succ_of_le e.invalidation_bounds

section
variable {i : Instant} {c : Call} {db db' : Db} {commits commits' : List Commit} {key : EpochKey}

theorem AdvanceAnswered.change (h : AdvanceAnswered db commits key) (hsub : commits ⊆ commits')
    (hc : EpochChange i c db db' key)
    (hdone : ∀ job e, c = .completeSharedHeadInvalidation job → key = job.epochKey →
      db.shared_head_epochs.get? key = some e → e.lease_owner = some job.lease_owner →
        ∃ commit ∈ commits', commit.call = c ∧ job.claimed_at = db.advances key ∧
          InvalidationSettled job commit.trace) :
    AdvanceAnswered db' commits' key := by
  -- an epoch that is as pending as before
  have hsame : (∀ e, db.shared_head_epochs.get? key = some e → e.invalidated_generation < e.generation →
      ∃ e', db'.shared_head_epochs.get? key = some e' ∧ e'.invalidated_generation < e'.generation) →
      db'.advances key = db.advances key → AdvanceAnswered db' commits' key := by
    intro hpending ha
    unfold AdvanceAnswered
    rw [ha]
    rcases h with hzero | ⟨e, he, hlt⟩ | ⟨commit, hmem, hcommit⟩
    · exact Or.inl hzero
    · exact Or.inr (Or.inl (hpending e he hlt))
    · exact Or.inr (Or.inr ⟨commit, hsub hmem, hcommit⟩)
  cases hc with
  | kept h₁ ha => exact hsame (fun e he hlt => ⟨e, h₁ ▸ he, hlt⟩) ha
  | advanced waiting work_class _ h₁ _ => exact Or.inr (Or.inl ⟨_, h₁, nextEpoch_pending _ _ _⟩)
  | touched e h₀ h₁ ha =>
    refine hsame (fun e' he hlt => ⟨_, h₁, ?_⟩) ha
    cases h₀.symm.trans he
    exact hlt
  | claimed e owner lease_seconds work_class _ h₀ _ h₁ ha =>
    refine hsame (fun e' he hlt => ⟨_, h₁, ?_⟩) ha
    cases h₀.symm.trans he
    exact hlt
  | renewed e job lease_seconds _ _ h₀ _ h₁ ha =>
    refine hsame (fun e' he hlt => ⟨_, h₁, ?_⟩) ha
    cases h₀.symm.trans he
    exact hlt
  | completed e job hc hkey h₀ hheld h₁ ha =>
    obtain ⟨commit, hmem, hcall, hat, hsettled⟩ := hdone job e hc hkey h₀ (holdsInvalidation_lease hheld)
    exact Or.inr (Or.inr ⟨commit, hmem, job, hcall.trans hc, hkey.symm, hat.trans ha.symm, hsettled⟩)
  | unleased e e' job _ _ h₀ _ h₁ hu ha =>
    refine hsame (fun e'' he hlt => ⟨_, h₁, ?_⟩) ha
    cases h₀.symm.trans he
    rw [hu.generation, hu.invalidated_generation]
    exact hlt
  | pruned e older_than _ h₀ hprunable h₁ ha =>
    refine hsame (fun e' he hlt => ?_) ha
    cases h₀.symm.trans he
    simp only [isPrunable, Bool.and_eq_true, decide_eq_true_eq] at hprunable
    have := hprunable.1.1.1.2
    omega

end

theorem AdvanceAnswered.seen [PullDigest] {settings : Settings} {s s₁ : World} {p : Pid} {i : Instant} {e : Effect}
    {a : Except Exn e.Answer} (h : ∀ key, AdvanceAnswered s.db s.commits key) (ht : Traced s)
    (hl : Lawful settings p (s.trace p) e) (hacted : Acted p s i e a s₁) (key : EpochKey) :
    AdvanceAnswered s₁.db s₁.commits key := by
  cases hacted with
  | learned c a db' _ hr | unlearned c a db' x _ hr =>
    refine (h key).change (List.subset_cons_self _ _) (epochChange_run hr key) ?_
    intro job epoch hc hkey hepoch howner
    subst hc
    obtain ⟨t, ht⟩ := ht
    have hheld := ((ht.backs p).invalidations job (hl.1.invalidation job rfl)).1
    have hdated := ht.reachable.dated job hheld
    rw [ht.db] at hdated
    exact ⟨_, List.mem_cons_self, rfl, hkey ▸ hdated.owned epoch (hkey ▸ hepoch) howner, hl.2⟩
  | released =>
    unfold World.released
    split <;> exact h key
  | _ => exact h key

theorem AdvanceAnswered.env {s s' : World} (h : ∀ key, AdvanceAnswered s.db s.commits key) (he : environment s s')
    (key : EpochKey) : AdvanceAnswered s'.db s'.commits key := by
  cases he with
  | github github _ => exact h key
  | call i c db' a hb hr =>
    refine (h key).change (fun _ hc => hc) (epochChange_run hr key) ?_
    intro job epoch hc
    subst hc
    cases hb

/-! ## Every run -/

/-- What every state of the service keeps about the heads. -/
structure HeadsKept (s : World) : Prop where
  traced : Traced s
  guards : GuardsKept s
  honest : ∀ p, Honest (s.trace p)
  kinds : ∀ p, OneKind (s.trace p)
  voided : ∀ job, Voided s job → job.claimed_at ≤ s.db.advances job.epochKey
  publishable : ∀ job head, Bounds (Publishable job head) (job.epochKey head)
    (fun event => event.before.advances (job.epochKey head)) s
  current : ∀ job head, Bounds (Current job head) (job.epochKey head) (fun _ => job.bound_at) s
  shown : ShownFresh s
  answered : ∀ key, AdvanceAnswered s.db s.commits key

theorem HeadsKept.initial (github : GitHub) : HeadsKept (World.initial github) := by
  have hnone : ∀ job, ¬Voided (World.initial github) job := by
    intro job hv
    rcases hv with ⟨p, l, event, older, hτ, -⟩ | ⟨commit, hc, -⟩
    · cases l <;> cases hτ
    · cases hc
  exact ⟨.initial github, .initial github, fun _ => .nil, fun _ => Or.inl rfl,
    fun job hv => absurd hv (hnone job), fun _ _ => .initial github, fun _ _ => .initial github,
    fun _ _ _ _ _ job hv => absurd hv (hnone job), fun _ => Or.inl rfl⟩

theorem HeadsKept.perform [PullDigest] {settings : Settings} {s s' : World} {p : Pid} {e : Effect}
    {a : Except Exn e.Answer} (h : HeadsKept s) (hl : Lawful settings p (s.trace p) e)
    (hperf : performs p s e a s') : HeadsKept s' := by
  have htraced := h.traced.perform hl.permitted hperf
  have hguards := h.guards.perform hperf
  have hhonest := honest_performs h.honest hperf
  obtain ⟨-, i, s₁, hact, rfl⟩ := hperf
  have hacted := acted_of_acts hact
  have hadvances : ∀ key, s.db.advances key ≤ s₁.db.advances key := by
    intro key
    cases hacted with
    | learned c a db' _ hr | unlearned c a db' x _ hr => exact advances_run hr key
    | released =>
      unfold World.released
      split <;> exact le_refl _
    | _ => exact le_refl _
  have hanswered : ∀ key, AdvanceAnswered s₁.db s₁.commits key := AdvanceAnswered.seen h.answered h.traced hl hacted
  refine ⟨htraced, hguards, hhonest, ?_, ?_, ?_, ?_, ?_, hanswered⟩
  · intro q
    rw [hacted.seen_trace]
    split
    · have hcons : OneKind (⟨s.db, s.github, i, e, a⟩ :: s.trace p) := (h.kinds p).cons hl
      exact hcons
    · exact h.kinds q
  · intro job hv
    refine le_trans ?_ (hadvances job.epochKey)
    rcases hacted.voided hv with hold | hvoids
    · exact h.voided job hold
    · obtain ⟨t, ht⟩ := h.traced
      have hdated := ht.reachable.dated job ((ht.backs p).invalidations job hvoids.held).1
      rw [ht.db] at hdated
      exact hdated.past
  · intro job head
    refine (h.publishable job head).seen (underGuard_publishable job head) h.guards h.kinds hacted ?_
    intro _ invalidation hv hkey
    rw [← hkey]
    exact h.voided invalidation hv
  · intro job head
    refine (h.current job head).seen (underGuard_current job head) h.guards h.kinds hacted ?_
    intro hp invalidation hv hkey
    obtain ⟨hasked, -, l, event, older, hτ, hl', hpublishable⟩ := hp
    have hcurrent : isCurrentClaim i.now job s.db = true := by
      obtain ⟨db, g, i', hevent⟩ := hasked
      cases hevent
      exact Eq.symm (told_of_acts hact)
    obtain ⟨t, ht⟩ := h.traced
    rw [← ht.bound_at hτ (h.honest p) hpublishable hcurrent]
    exact h.publishable job head p l event older hτ hl' hpublishable invalidation hv hkey
  · refine h.shown.seen hact ?_
    intro key conclusion claim skip he job hv hkey
    subst he
    obtain ⟨head, rfl, hfenced, -⟩ := hl
    obtain ⟨l, event, older, hτ, hl', hcurrent⟩ := hfenced.current
    exact h.current claim head p l event older hτ hl' hcurrent job hv hkey

theorem HeadsKept.env {s s' : World} (h : HeadsKept s) (he : environment s s') : HeadsKept s' := by
  refine ⟨h.traced.env he, h.guards.env he, honest_environment h.honest he, ?_, ?_,
    fun job head => (h.publishable job head).env he, fun job head => (h.current job head).env he, ?_,
    AdvanceAnswered.env h.answered he⟩
  · intro p
    rw [environment_trace he]
    exact h.kinds p
  · intro job hv
    refine (h.voided job (hv.of_env he)).trans ?_
    cases he with
    | github => exact le_refl _
    | call i c db' a _ hr => exact advances_run hr _
  · intro key id conclusion claim hcheck job hv hkey
    refine h.shown key id conclusion claim ?_ job (hv.of_env he) hkey
    cases he with
    | github github hsame =>
      rw [← hsame]
      exact hcheck
    | call => exact hcheck

theorem HeadsKept.clear {s : World} (h : HeadsKept s) (p : Pid) : HeadsKept (s.cleared p) := by
  refine ⟨h.traced.clear p, h.guards.clear p, honest_cleared h.honest p, ?_, fun job hv => h.voided job hv.of_clear,
    fun job head => (h.publishable job head).clear p, fun job head => (h.current job head).clear p,
    fun key id conclusion claim hcheck job hv hkey => h.shown key id conclusion claim hcheck job hv.of_clear hkey,
    h.answered⟩
  · intro q
    rw [cleared_trace]
    split
    · exact Or.inl rfl
    · exact h.kinds q

section
variable [PullDigest] {settings : Settings} {github : GitHub} {c : Config Pid Effect Effect.Answer Exn World}

theorem Reached.heads (h : Reached settings github c) : HeadsKept c.state :=
  h.inv (J := HeadsKept) (.initial github) (fun _ _ _ _ _ hs hl hp => hs.perform hl hp)
    (fun _ _ hs he => hs.env he) fun p _ hs => hs.clear p

/-- Whoever is about to write a success has found, since it took the guard of the
head, that no other pull request open on the head exists. -/
theorem success_is_sole (h : Reached settings github c) {p : Pid} {key : EpochKey} {job : ClaimedJob}
    {skip_if_unchanged : Bool} {k : Except Exn Unit → Program PUnit}
    (hp : c.procs p = some (.op (.write (.upsertCompleted key job .SUCCESS skip_if_unchanged)) k)) :
    job ∈ heldClaims (c.state.trace p) ∧ ∃ head, key = job.epochKey head ∧ Sole job head (c.state.trace p) := by
  have hwrite : WriteFenced (c.state.trace p) (.upsertCompleted key job .SUCCESS skip_if_unchanged) := h.lawful hp
  obtain ⟨head, hkey, hfenced, hsole⟩ := hwrite
  exact ⟨hfenced.held, head, hkey, hsole rfl⟩

/-- An invalidation was completed only after its head had no check, or after the
check was reset and every open pull request on the head had its evaluation. -/
theorem completed_invalidation_is_settled (h : Reached settings github c) :
    ∀ commit ∈ c.state.commits, ∀ job, commit.call = .completeSharedHeadInvalidation job →
      job ∈ heldInvalidations commit.trace ∧ InvalidationSettled job commit.trace := by
  intro commit hc job hcall
  have hlawful := h.committed commit hc
  rw [hcall] at hlawful
  exact ⟨hlawful.1.invalidation job rfl, hlawful.2⟩

/-- A result is recorded only after its completed check was written behind all
fences, and only if nothing had overtaken it when its slot looked again. -/
theorem recorded_result_stood (h : Reached settings github c) {p : Pid} {job : ClaimedJob} {head : HeadSha}
    {result : EvaluationResult} {k : Except Exn Unit → Program PUnit}
    (hp : c.procs p = some (.op (.recordAudit job head result) k)) :
    Audited job head result.conclusion (c.state.trace p) := h.lawful hp

/-- A check never shows an evaluation that an advance has overtaken, unless its
reset is still pending or the pass that completed it found no pull request to reset it for. -/
theorem overtaken_evaluation_is_revoked (h : Reached settings github c) {key : EpochKey} {id : Nat}
    {conclusion : EvaluationConclusion} {claim : ClaimedJob}
    (hcheck : c.state.github.checks key = some ⟨id, .evaluated conclusion claim⟩)
    (hstale : claim.bound_at < c.state.db.advances key) :
    (∃ e, c.state.db.shared_head_epochs.get? key = some e ∧ e.invalidated_generation < e.generation) ∨
      ∃ commit ∈ c.state.commits, ∃ job, commit.call = .completeSharedHeadInvalidation job ∧ job.epochKey = key ∧
        job.claimed_at = c.state.db.advances key ∧ Unneeded job commit.trace := by
  have hkept := h.heads
  rcases hkept.answered key with hzero | hpending | ⟨commit, hmem, job, hcall, hkey, hat, hsettled⟩
  · omega
  · exact Or.inl hpending
  right
  have hnot : ¬Happened (Voids job) commit.trace := by
    intro hv
    have hle := hkept.shown key id conclusion claim hcheck job (Or.inr ⟨commit, hmem, hv⟩) hkey
    omega
  refine ⟨commit, hmem, job, hcall, hkey, hat, ?_⟩
  rcases hsettled with hunpublished | ⟨current, hsurveyed, -, hreset⟩
  · exact absurd (hunpublished.imp fun _ _ hp => Or.inl hp) hnot
  · refine ⟨current, hsurveyed, ?_⟩
    by_contra hopen
    exact hnot ((hreset (Bool.not_eq_false _ ▸ hopen)).imp fun _ _ hp => Or.inr hp)

end

theorem success_is_sole_sample : sampleEvaluation ∈ heldClaims (samplePublishing.state.trace "e") ∧
    ∃ head, sampleEvaluation.epochKey sampleHead = sampleEvaluation.epochKey head ∧
      Sole sampleEvaluation head (samplePublishing.state.trace "e") := by
  obtain ⟨k, hk⟩ := Configuration.next_eq_some samplePublishing_next
  exact @success_is_sole sampleDigest sampleSettings sampleGitHub _ (@samplePublishing_reached sampleDigest)
    _ _ _ _ k hk

/-- The durable reset of the sample head, as its claimant got it. -/
def sampleReset : ClaimedSharedHeadInvalidation where
  installation_id := 1
  repository_full_name := ⟨"o/r"⟩
  head_sha := sampleHead
  generation := 1
  work_class := .interactive
  attempts := 1
  requested_at := sampleInstant.now
  available_at := sampleInstant.now
  lease_owner := "i"
  claimed_at := 1

def sampleCompletion : Commit :=
  ⟨"i", sampleResetting.state.db, sampleInstant, .completeSharedHeadInvalidation sampleReset,
    sampleResetting.state.trace "i"⟩

theorem completed_invalidation_is_settled_sample :
    sampleReset ∈ heldInvalidations sampleCompletion.trace ∧
      InvalidationSettled sampleReset sampleCompletion.trace := by
  have hcommitted : (sampleResetting.go sampleReplies "i" sampleInstant 1).state.commits =
      sampleCompletion :: sampleResetting.state.commits := by rfl
  have hmem : sampleCompletion ∈ (sampleResetting.go sampleReplies "i" sampleInstant 1).state.commits := by
    rw [hcommitted]
    exact List.mem_cons_self
  exact @completed_invalidation_is_settled sampleDigest sampleSettings sampleGitHub _
    (@Reached.go sampleDigest _ _ _ _ _ 1 _ (@sampleResetting_reached sampleDigest)) sampleCompletion hmem
    sampleReset rfl

theorem sampleRecording_next : sampleRecording.next "e" =
    some (.recordAudit sampleEvaluation sampleHead sampleVerdict) := by rfl

theorem recorded_result_stood_sample :
    Audited sampleEvaluation sampleHead .SUCCESS (sampleRecording.state.trace "e") := by
  obtain ⟨k, hk⟩ := Configuration.next_eq_some sampleRecording_next
  exact @recorded_result_stood sampleDigest sampleSettings sampleGitHub _ (@sampleRecording_reached sampleDigest)
    _ _ _ _ k hk

theorem overtaken_evaluation_is_revoked_sample :
    (∃ e, sampleOvertaken.state.db.shared_head_epochs.get? (sampleEvaluation.epochKey sampleHead) = some e ∧
        e.invalidated_generation < e.generation) ∨
      ∃ commit ∈ sampleOvertaken.state.commits, ∃ job, commit.call = .completeSharedHeadInvalidation job ∧
        job.epochKey = sampleEvaluation.epochKey sampleHead ∧
        job.claimed_at = sampleOvertaken.state.db.advances (sampleEvaluation.epochKey sampleHead) ∧
        Unneeded job commit.trace :=
  @overtaken_evaluation_is_revoked sampleDigest sampleSettings sampleGitHub _
    (@sampleOvertaken_reached sampleDigest) _ 1 .SUCCESS sampleEvaluation (by rfl) (by decide)

end ExtraCodeowners
