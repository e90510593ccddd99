import ExtraCodeowners.Guards
import ExtraCodeowners.Deliveries

/-!
# Authority changes and publications

While a publication holds the guard of its installation, no authority row that
blocks it appears and the installation keeps its authority generation. So what
the fences of a completed check found still holds when the check is written.
-/

namespace ExtraCodeowners

open System

/-! ## The generation of an installation -/

/-- What a call accepts for a whole installation. -/
def Call.acceptsFor (c : Call) (installation_id : Nat) : Prop :=
  ∃ delivery_id event request, c = .acceptDelivery delivery_id event (some (.authority request)) ∧
    request.installation_id = installation_id

section
variable {now : Time} {request : JobRequest} {db mid db' : Db}

theorem authorityEpochs_wake : (wakeAuthorityForInteractive now request db).authority_epochs = db.authority_epochs := by
  unfold wakeAuthorityForInteractive
  split <;> rfl

theorem authorityEpochs_enqueueInSession {delivery_id : Option Str} {g : Nat} {pd pw : Bool} :
    (enqueueInSession now request delivery_id g pd pw db).authority_epochs = db.authority_epochs := by
  unfold enqueueInSession
  split
  · exact authorityEpochs_wake
  · split
    · rfl
    · exact authorityEpochs_wake

theorem authorityEpochs_insertIfAbsent {g : Nat} (h : mid.authority_epochs = db.authority_epochs) :
    (insertIfAbsent now request g db mid).1.authority_epochs = db.authority_epochs := by
  unfold insertIfAbsent
  split
  · rfl
  · exact h

theorem authorityEpochs_enqueueSharedHeadTrigger (hr : enqueueSharedHeadTrigger now request db = .ok db') :
    db'.authority_epochs = db.authority_epochs := by
  unfold enqueueSharedHeadTrigger at hr
  split at hr
  · cases hr
  · cases hr
    exact authorityEpochs_enqueueInSession

theorem authorityEpochs_enqueue (hr : enqueue now request db = .ok db') :
    db'.authority_epochs = db.authority_epochs := by
  unfold enqueue at hr
  split at hr
  · exact authorityEpochs_enqueueSharedHeadTrigger hr
  · cases hr
    exact authorityEpochs_enqueueInSession

theorem authorityEpochs_enqueueForSharedHeadGeneration {g : Nat} {answer : Bool}
    (hr : enqueueForSharedHeadGeneration now request g db = .ok (db', answer)) :
    db'.authority_epochs = db.authority_epochs := by
  unfold enqueueForSharedHeadGeneration at hr
  split at hr
  · cases hr
  split at hr
  · cases hr
  split at hr
  · cases hr
    rfl
  split at hr
  · cases hr
    rfl
  · cases hr
    exact authorityEpochs_enqueueInSession

theorem authorityEpochs_enqueueReconciliationIfDue {recheck_seconds : Nat} {answer : Bool}
    (hr : enqueueReconciliationIfDue now request recheck_seconds db = .ok (db', answer)) :
    db'.authority_epochs = db.authority_epochs := by
  unfold enqueueReconciliationIfDue at hr
  split at hr
  · cases hr
  split at hr
  · cases hr
  · cases hr
  split at hr
  · cases hr
  split at hr
  · split at hr
    · cases hr
      rfl
    · cases hr
      exact authorityEpochs_enqueueInSession
  · split at hr
    · split at hr
      · cases hr
        rfl
      · injection hr with hr
        rw [← (Prod.mk.inj hr).1]
        exact authorityEpochs_insertIfAbsent rfl
    · injection hr with hr
      rw [← (Prod.mk.inj hr).1]
      exact authorityEpochs_insertIfAbsent rfl

theorem authorityEpochs_releaseClaim {job : ClaimedJob} {owner : Str} {revocation : Option JobRequest}
    {values : EvaluationJob → EvaluationJob} :
    (releaseClaimInSession now job owner revocation values db).1.authority_epochs = db.authority_epochs := by
  unfold releaseClaimInSession
  split
  · simp only
    split <;> rfl
  · rfl

theorem authorityEpochs_observeEvaluationBase {job : ClaimedJob} {base_ref : Str} :
    (observeEvaluationBase now job base_ref db).1.authority_epochs = db.authority_epochs := by
  unfold observeEvaluationBase
  generalize (if isBaseRefHint base_ref then some base_ref else none) = hint
  simp only
  split
  · simp only
    split
    · exact authorityEpochs_wake
    · rfl
  · rfl

theorem authorityEpochs_pages (requests : List AuthorityRequest) :
    ∀ db : Db, (requests.foldl (fun db request => enqueueAuthorityInSession now request db) db).authority_epochs =
      db.authority_epochs := by
  induction requests with
  | nil => exact fun _ => rfl
  | cons request requests ih =>
    intro db
    rw [List.foldl_cons, ih, enqueueAuthority_epochs]

end

theorem authorityGeneration_acceptDelivery {now : Time} {delivery_id event : Str} {request : Option DeliveryRequest}
    {db db' : Db} {answer : DeliveryAcceptance}
    (hr : acceptDelivery now delivery_id event request db = .ok (db', answer)) {installation_id : Nat} (hq : ¬(Call.acceptDelivery delivery_id event request).acceptsFor installation_id) :
    authorityGeneration installation_id db' = authorityGeneration installation_id db := by
  unfold acceptDelivery at hr
  split at hr
  · cases hd : replayDelivery event request _ with
    | error x =>
      rw [hd] at hr
      cases hr
    | ok answer =>
      rw [hd] at hr
      cases hr
      rfl
  · split at hr
    · cases hr
      rfl
    · rename_i request
      have hne : request.installation_id ≠ installation_id := fun he => hq ⟨_, _, request, rfl, he⟩
      simp only [Except.ok.injEq, Prod.mk.injEq] at hr
      obtain ⟨rfl, -⟩ := hr
      unfold authorityGeneration
      rw [enqueueAuthority_epochs]
      split
      · simp only [bumpAuthorityEpochInSession]
        rw [Dict.get?_set_ne _ _ (Ne.symm hne)]
        rfl
      · rfl
    · split at hr
      · cases hr
      · simp only [Except.ok.injEq, Prod.mk.injEq] at hr
        obtain ⟨rfl, -⟩ := hr
        unfold authorityGeneration
        rw [authorityEpochs_enqueueInSession]
        rfl

/-- Only the acceptance of an authority change moves a generation. -/
theorem authorityGeneration_run {i : Instant} {db db' : Db} {c : Call} {a : c.Answer}
    (hr : c.run i db = .ok (db', a)) {installation_id : Nat} (hq : ¬c.acceptsFor installation_id) :
    authorityGeneration installation_id db' = authorityGeneration installation_id db := by
  have of_ok : ∀ {α : Type} {x : Db × α} {a : α}, (.ok x : Except Str (Db × α)) = .ok (db', a) →
      x.1 = db' := by
    intro α x a hx
    injection hx with hx
    rw [hx]
  have of_map : ∀ {x : Except Str Db}, x.map (·, ()) = .ok (db', ()) → x = .ok db' := by
    intro x hx
    cases x with
    | error e => cases hx
    | ok y =>
      cases hx
      rfl
  have same : db'.authority_epochs = db.authority_epochs →
      authorityGeneration installation_id db' = authorityGeneration installation_id db := by
    intro he
    unfold authorityGeneration
    rw [he]
  cases c with
  | acceptDelivery => exact authorityGeneration_acceptDelivery hr hq
  | enqueue => exact same (authorityEpochs_enqueue (of_map hr))
  | enqueueSharedHeadTrigger => exact same (authorityEpochs_enqueueSharedHeadTrigger (of_map hr))
  | enqueueForSharedHeadGeneration => exact same (authorityEpochs_enqueueForSharedHeadGeneration hr)
  | enqueueReconciliationIfDue => exact same (authorityEpochs_enqueueReconciliationIfDue hr)
  | enqueueIfAbsent request =>
    rw [← of_ok hr] at same ⊢
    refine same ?_
    unfold enqueueIfAbsent
    split <;> exact authorityEpochs_insertIfAbsent rfl
  | enqueueAuthority request =>
    rw [← of_ok hr] at same ⊢
    exact same enqueueAuthority_epochs
  | claim =>
    rw [← of_ok hr]
    unfold claim
    split <;> rfl
  | bindClaimToHead job head =>
    rw [← of_ok hr]
    unfold bindClaimToHead
    split
    · rfl
    · split <;> rfl
  | observeEvaluationBase =>
    rw [← of_ok hr] at same ⊢
    exact same authorityEpochs_observeEvaluationBase
  | complete =>
    rw [← of_ok hr]
    unfold complete
    split
    · rfl
    · simp only
      split <;> rfl
  | fail | defer =>
    rw [← of_ok hr] at same ⊢
    exact same authorityEpochs_releaseClaim
  | claimSharedHeadInvalidation =>
    rw [← of_ok hr]
    unfold claimSharedHeadInvalidation
    split <;> rfl
  | completeSharedHeadInvalidation =>
    rw [← of_ok hr]
    unfold completeSharedHeadInvalidation updateInvalidation
    simp only
    split <;> rfl
  | claimAuthority =>
    rw [← of_ok hr]
    unfold claimAuthority
    split <;> rfl
  | advanceInstallationAuthorityPage job requests next_page expected_total =>
    simp only [Call.run, advanceInstallationAuthorityPage] at hr
    split at hr
    · cases hr
    split at hr
    · cases hr
    split at hr
    · rw [← of_ok hr] at same ⊢
      exact same (authorityEpochs_pages requests db)
    · cases hr
      rfl
  | completeAuthority job owner =>
    rw [← of_ok hr]
    unfold completeAuthority
    split
    · rfl
    · split <;> rfl
  | markDeliveryInvalidated | recordProviderBackpressure | renewClaim | renewSharedHeadInvalidation
  | failSharedHeadInvalidation | deferSharedHeadInvalidation | renewAuthorityClaim | advanceAuthorityCursor
  | advanceAuthorityMembershipPage | failAuthority | deferAuthority | pruneDeliveries | pruneSharedHeadEpochs
  | pruneReconciliationStates =>
    rw [← of_ok hr]
    rfl

/-! ## The rows that block a job -/

def AuthorityJob.blocks (row : AuthorityJob) (job : ClaimedJob) (base_ref : Str) : Bool :=
  row.installation_id = job.installation_id &&
    (row.scope_key = .all || row.scope_key = .repository job.repository_full_name) &&
    (row.base_ref = [] || row.base_ref = base_ref)

section
variable {db db' : Db} {job : ClaimedJob} {base_ref : Str}

theorem hasBlockingAuthority_eq_true : hasBlockingAuthority job base_ref db = true ↔
    ∃ id row, db.authority_jobs.get? id = some row ∧ row.blocks job base_ref = true := Dict.any_eq_true

/-- A change of a row keeps its scope. -/
theorem AuthorityChange.blocks {i : Instant} {c : Call} {id : Nat} {row row' : AuthorityJob}
    (h : AuthorityChange i c db db' id (some row) (some row')) (hb : row.base_ref = [])
    (hblocks : row'.blocks job base_ref = true) : row.blocks job base_ref = true := by
  have of_scope : row'.installation_id = row.installation_id → row'.scope_key = row.scope_key →
      row.blocks job base_ref = true := by
    intro hi hs
    unfold AuthorityJob.blocks at hblocks ⊢
    rw [hi, hs] at hblocks
    simp only [Bool.and_eq_true] at hblocks ⊢
    exact ⟨hblocks.1, by simp [hb]⟩
  cases h with
  | coalesced _ requests =>
    have hsame := sameScope_coalescedAll i.now requests row
    exact of_scope hsame.installation_id hsame.scope_key
  | paged _ _ requests =>
    have hsame := sameScope_coalescedAll i.now (requests.filter (isForAuthority · row)) row
    exact of_scope hsame.installation_id hsame.scope_key
  | _ => exact of_scope rfl rfl

/-- A row that blocks appears only with a request that its call brings. -/
theorem blocks_run {i : Instant} {c : Call} {a : c.Answer} (hfresh : AuthorityFresh db)
    (hr : c.run i db = .ok (db', a)) (hnone : hasBlockingAuthority job base_ref db = false)
    (hblocks : hasBlockingAuthority job base_ref db' = true) :
    ∃ request ∈ c.authorityPresented, request.installation_id = job.installation_id := by
  obtain ⟨id, row', hrow', hb⟩ := hasBlockingAuthority_eq_true.mp hblocks
  have hch := (authorityChange_run hfresh hr).rows id
  rw [hrow'] at hch
  cases hrow : db.authority_jobs.get? id with
  | some row =>
    rw [hrow] at hch
    have hold := hasBlockingAuthority_eq_true.mpr ⟨id, row, hrow, hch.blocks (hfresh id row hrow).2 hb⟩
    rw [hnone] at hold
    cases hold
  | none =>
    rw [hrow] at hch
    cases hch with
    | inserted request rest _ _ hpresented =>
      obtain ⟨hmem, hfor⟩ := hpresented request List.mem_cons_self
      refine ⟨request, hmem, ?_⟩
      have hsame := sameScope_coalescedAll i.now rest (firstAuthorityJob i.now request)
      simp only [AuthorityJob.blocks, Bool.and_eq_true, decide_eq_true_eq] at hb
      exact (isForAuthority_iff.mp hfor).1.symm.trans (hsame.installation_id.symm.trans hb.1.1)

end

/-! ## Findings under the guard -/

/-- The claims behind a call fit the rows. -/
structure Authorized (db : Db) (c : Call) : Prop where
  fresh : AuthorityFresh db
  token : ∀ job owner, c.authorityUsed = some (job, owner) → AuthorityTokenOk db job
  indirect : ∀ request, c ≠ .enqueueAuthority request

theorem Traced.authorityInv {s : World} (h : Traced s) : AuthorityFresh s.db ∧
    ∀ p, ∀ job ∈ heldAuthorities (s.trace p), AuthorityTokenOk s.db job := by
  obtain ⟨t, ht⟩ := h
  obtain ⟨r, hr, hdb, hheld⟩ := ht.reachable.uses.authorityRun
  have hinv := hr.inv
  rw [← ht.db, ← hdb]
  refine ⟨hinv.fresh, fun p job hj => ?_⟩
  obtain ⟨n, hn⟩ := hheld job ((ht.backs p).authorities job hj).1
  exact hinv.tokens n job hn

theorem Traced.authorized [PullDigest] {settings : Settings} {s : World} (h : Traced s) {p : Pid} {c : Call}
    (hl : Lawful settings p (s.trace p) (.call c)) : Authorized s.db c := by
  obtain ⟨hfresh, htokens⟩ := h.authorityInv
  refine ⟨hfresh, fun job owner hu => htokens p job (hl.1.authority job owner hu).1, fun request hc => ?_⟩
  subst hc
  exact hl.2

theorem Traced.background {s : World} (h : Traced s) {c : Call} (hb : s.background c) : Authorized s.db c := by
  obtain ⟨hfresh, htokens⟩ := h.authorityInv
  refine ⟨hfresh, fun job owner hu => ?_, fun request hc => ?_⟩
  · cases c with
    | renewAuthorityClaim job' lease_seconds =>
      cases hu
      obtain ⟨p, hj⟩ := hb
      exact htokens p _ hj
    | _ => cases hu <;> cases hb
  · subst hc
    cases hb

/-- What a publication learns of the tables under the guard of an installation,
and every call keeps that accepts nothing for it. -/
structure Finding (id : Nat) (P : Event → Trace → Prop) (D : Db → Prop) : Prop where
  guarded : ∀ event past, P event past → holdsAuthorityGuard id past = true
  asked : ∀ event past, P event past → ∃ q a, event.Asked q a
  found : ∀ τ db g i e a, P ⟨db, g, i, e, a⟩ τ → told τ db g i e a → D db
  kept : ∀ (i : Instant) (c : Call) (a : c.Answer) (db db' : Db), Authorized db c → ¬c.acceptsFor id →
    c.run i db = .ok (db', a) → D db → D db'

/-- Since a finding the guard was not given up, and what it found holds. -/
def Standing (P : Event → Trace → Prop) (D : Db → Prop) (s : World) : Prop :=
  ∀ p, Once Event.inPublication P (s.trace p) → D s.db

section
variable {id : Nat} {P : Event → Trace → Prop} {D : Db → Prop} {s s' : World} {p : Pid}

theorem Finding.holds (hf : Finding id P D) {τ : Trace} (h : Once Event.inPublication P τ) :
    holdsAuthorityGuard id τ = true := by
  refine once_since (holdsAuthorityGuard_kept id) (fun event past hp => ?_) h
  obtain ⟨q, a, db, g, i, rfl⟩ := hf.asked event past hp
  rw [holdsAuthorityGuard_cons]
  simp [Effect.dropsAuthorityGuard, hf.guarded _ past hp]

/-- While somebody holds the guard, no change is accepted for its installation. -/
theorem GuardsKept.quiet (h : GuardsKept s) {r : Pid} (hr : holdsAuthorityGuard id (s.trace r) = true) {c : Call}
    (hadmits : s.admits c) : ¬c.acceptsFor id := by
  intro hc
  obtain ⟨delivery_id, event, request, rfl, rfl⟩ := hc
  have hfree : s.authority_guard request.installation_id r = false := hadmits r
  rw [h.authority, hr] at hfree
  cases hfree

theorem Standing.perform [PullDigest] {settings : Settings} (hf : Finding id P D) (h : Standing P D s)
    (hg : GuardsKept s) (ht : Traced s) {e : Effect} {a : Except Exn e.Answer}
    (hl : Lawful settings p (s.trace p) e) (hperf : performs p s e a s') : Standing P D s' := by
  obtain ⟨-, i, s₁, hact, rfl⟩ := hperf
  have hacted := acted_of_acts hact
  -- whoever made the finding, a call keeps it
  have hcall : ∀ r, Once Event.inPublication P (s.trace r) → D s₁.db := by
    intro r hr
    have hd := h r hr
    have hquiet : ∀ c, s.admits c → ¬c.acceptsFor id := fun c => hg.quiet (hf.holds hr)
    cases hacted with
    | learned c a db' hadmits hrun | unlearned c a db' x hadmits hrun =>
      exact hf.kept i c a s.db db' (ht.authorized hl) (hquiet c hadmits) hrun hd
    | released =>
      unfold World.released
      split <;> exact hd
    | _ => exact hd
  intro r hr
  have htrace : (s₁.seen p ⟨s.db, s.github, i, e, a⟩).trace r =
      if r = p then ⟨s.db, s.github, i, e, a⟩ :: s.trace p else s.trace r := by
    show Function.update s₁.trace p (_ :: s₁.trace p) r = _
    rw [hacted.trace, Function.update_apply]
  rw [htrace] at hr
  by_cases hrp : r = p
  · subst hrp
    rw [if_pos rfl] at hr
    rcases once_cons hr with hnow | ⟨-, hr⟩
    · obtain ⟨q, b, db, g, i', hevent⟩ := hf.asked _ _ hnow
      have hd := hf.found _ _ _ _ _ _ hnow (told_of_acts hact)
      cases hevent
      have hsame : s₁ = s := hact.2
      rw [hsame]
      exact hd
    · exact hcall r hr
  · rw [if_neg hrp] at hr
    exact hcall r hr

theorem Standing.env (hf : Finding id P D) (h : Standing P D s) (ht : Traced s) (he : environment s s') :
    Standing P D s' := by
  cases he with
  | github github _ => exact h
  | call i c db' a hb hr =>
    intro r honce
    refine hf.kept i c a s.db db' (ht.background hb) (fun hc => ?_) hr (h r honce)
    obtain ⟨delivery_id, event, request, rfl, -⟩ := hc
    cases hb

theorem Standing.clear (h : Standing P D s) (p : Pid) : Standing P D (s.cleared p) := by
  intro r hr
  rw [cleared_trace] at hr
  by_cases hrp : r = p
  · rw [if_pos hrp] at hr
    obtain ⟨l, event, older, hτ, -⟩ := hr
    cases l <;> cases hτ
  · rw [if_neg hrp] at hr
    exact h r hr

end

theorem Reached.stands [PullDigest] {settings : Settings} {github : GitHub}
    {c : Config Pid Effect Effect.Answer Exn World} (h : Reached settings github c) {id : Nat}
    {P : Event → Trace → Prop} {D : Db → Prop} (hf : Finding id P D) : Standing P D c.state := by
  have hinv : (GuardsKept c.state ∧ Traced c.state) ∧ Standing P D c.state := by
    refine h.inv (J := fun s => (GuardsKept s ∧ Traced s) ∧ Standing P D s) ?_ ?_ ?_ ?_
    · refine ⟨⟨.initial github, .initial github⟩, fun p hp => ?_⟩
      obtain ⟨l, event, older, hτ, -⟩ := hp
      cases l <;> cases hτ
    · intro p s e a s' hs hl hp
      exact ⟨⟨hs.1.1.perform hp, hs.1.2.perform hl.permitted hp⟩, hs.2.perform hf hs.1.1 hs.1.2 hl hp⟩
    · exact fun s s' hs he => ⟨⟨hs.1.1.env he, hs.1.2.env he⟩, hs.2.env hf hs.1.2 he⟩
    · exact fun p s hs => ⟨⟨hs.1.1.clear p, hs.1.2.clear p⟩, hs.2.clear p⟩
  exact hinv.2

/-! ## What a publication relies on -/

theorem finding_unblocked (job : ClaimedJob) (base_ref : Str) : Finding job.installation_id (Unblocked job base_ref)
    fun db => hasBlockingAuthority job base_ref db = false := by
  refine ⟨fun _ _ hp => hp.2, fun _ _ hp => ⟨_, _, hp.1⟩, ?_, ?_⟩
  · intro τ db g i e a hp htold
    obtain ⟨⟨db', g', i', hevent⟩, -⟩ := hp
    cases hevent
    exact htold.symm
  · intro i c a db db' hauth hquiet hr hnone
    rw [← Bool.not_eq_true]
    intro hblocks
    obtain ⟨request, hmem, hid⟩ := blocks_run hauth.fresh hr hnone hblocks
    cases c with
    | acceptDelivery delivery_id event delivered =>
      cases delivered with
      | none => cases hmem
      | some delivered =>
        cases delivered with
        | job => cases hmem
        | authority accepted =>
          cases List.mem_singleton.mp hmem
          exact hquiet ⟨_, _, _, rfl, hid⟩
    | enqueueAuthority accepted => exact hauth.indirect accepted rfl
    | advanceInstallationAuthorityPage parent requests next_page expected_total =>
      simp only [Call.run, advanceInstallationAuthorityPage] at hr
      split at hr
      · cases hr
      rename_i hwide
      split at hr
      · cases hr
      rename_i hchildren
      split at hr
      · rename_i hany
        -- the row of the installation, which blocks by itself
        obtain ⟨id, row, hrow, hlease⟩ := Dict.any_eq_true.mp hany
        simp only [holdsAuthorityLease, Bool.and_eq_true] at hlease
        obtain ⟨rfl, hgen, -⟩ := holdsAuthority_eq_true.mp hlease.1
        have hm := (hauth.token parent _ rfl).current row hrow hgen.symm
        have hsame : request.installation_id = parent.installation_id := by
          by_contra hne
          refine hchildren (List.any_eq_true.mpr ⟨request, hmem, ?_⟩)
          simp [hne]
        have hscope : row.scope_key = .all := by
          rw [hm.scope_key, ClaimedAuthorityJob.scopeKey, not_not.mp hwide]
        have hold : hasBlockingAuthority job base_ref db = true := by
          refine hasBlockingAuthority_eq_true.mpr ⟨parent.id, row, hrow, ?_⟩
          simp [AuthorityJob.blocks, hm.installation_id, ← hsame, hid, hscope, (hauth.fresh _ row hrow).2]
        rw [hnone] at hold
        cases hold
      · cases hr
        rw [hnone] at hblocks
        cases hblocks
    | _ => cases hmem

/-- The claim was current under the guard of its installation. -/
def CurrentUnderGuard (job : ClaimedJob) (event : Event) (past : Trace) : Prop :=
  event.Asked (.isCurrentClaim job) true ∧ holdsAuthorityGuard job.installation_id past = true

theorem isCurrentClaim_generation {now : Time} {job : ClaimedJob} {db : Db} (h : isCurrentClaim now job db = true) :
    authorityGeneration job.installation_id db = job.authority_generation := by
  unfold isCurrentClaim at h
  split at h
  · cases h
  split at h
  · cases h
  · simp only [Bool.and_eq_true, decide_eq_true_eq] at h
    exact h.1.1.2

theorem finding_generation (job : ClaimedJob) : Finding job.installation_id (CurrentUnderGuard job)
    fun db => authorityGeneration job.installation_id db = job.authority_generation := by
  refine ⟨fun _ _ hp => hp.2, fun _ _ hp => ⟨_, _, hp.1⟩, ?_, ?_⟩
  · intro τ db g i e a hp htold
    obtain ⟨⟨db', g', i', hevent⟩, -⟩ := hp
    cases hevent
    exact @isCurrentClaim_generation i.now _ _ htold.symm
  · intro i c a db db' _ hquiet hr hg
    rw [authorityGeneration_run hr hquiet]
    exact hg

theorem Fenced.unblocked_now [PullDigest] {settings : Settings} {github : GitHub} {c : Configuration}
    (h : Reached settings github c) {p : Pid} {job : ClaimedJob} {head : HeadSha}
    (hf : Fenced job head (c.state.trace p)) :
    ∃ pull, Shown job pull (c.state.trace p) ∧ pull.state = .OPEN ∧ pull.head_sha = head ∧
      hasBlockingAuthority job pull.base_ref c.state.db = false := by
  obtain ⟨pull, hshown, hopen, hhead, honce⟩ := hf.unblocked
  exact ⟨pull, hshown, hopen, hhead,
    h.stands (finding_unblocked job pull.base_ref) p (honce.keeping inPublication_of_inSection)⟩

theorem Fenced.generation_now [PullDigest] {settings : Settings} {github : GitHub} {c : Configuration}
    (h : Reached settings github c) {p : Pid} {job : ClaimedJob} {head : HeadSha}
    (hf : Fenced job head (c.state.trace p)) :
    authorityGeneration job.installation_id c.state.db = job.authority_generation := by
  have honce : Once Event.inSection (CurrentUnderGuard job) (c.state.trace p) :=
    hf.current.imp fun _ _ hc => ⟨hc.1, hc.2.1⟩
  exact h.stands (finding_generation job) p (honce.keeping inPublication_of_inSection)

/-- At the moment a completed check is written, no authority row blocks the pull
request, and its installation has the generation that the claim was made under. -/
theorem completed_write_is_authorized [PullDigest] {settings : Settings} {github : GitHub} {c : Configuration}
    (h : Reached settings github c) {p : Pid} {key : EpochKey} {job : ClaimedJob}
    {conclusion : EvaluationConclusion} {skip_if_unchanged : Bool} {k : Except Exn Unit → Program PUnit}
    (hp : c.procs p = some (.op (.write (.upsertCompleted key job conclusion skip_if_unchanged)) k)) :
    ∃ pull, Shown job pull (c.state.trace p) ∧ pull.state = .OPEN ∧ key = job.epochKey pull.head_sha ∧
      hasBlockingAuthority job pull.base_ref c.state.db = false ∧
      authorityGeneration job.installation_id c.state.db = job.authority_generation := by
  have hwrite : WriteFenced (c.state.trace p) (.upsertCompleted key job conclusion skip_if_unchanged) := h.lawful hp
  obtain ⟨head, hkey, hfenced, -⟩ := hwrite
  obtain ⟨pull, hshown, hopen, hhead, hunblocked⟩ := hfenced.unblocked_now h
  exact ⟨pull, hshown, hopen, hhead ▸ hkey, hunblocked, hfenced.generation_now h⟩

theorem completed_write_is_authorized_sample :
    ∃ pull, Shown sampleEvaluation pull (samplePublishing.state.trace "e") ∧ pull.state = .OPEN ∧
      sampleEvaluation.epochKey sampleHead = sampleEvaluation.epochKey pull.head_sha ∧
      hasBlockingAuthority sampleEvaluation pull.base_ref samplePublishing.state.db = false ∧
      authorityGeneration 1 samplePublishing.state.db = 0 := by
  obtain ⟨k, hk⟩ := Configuration.next_eq_some samplePublishing_next
  exact @completed_write_is_authorized sampleDigest sampleSettings sampleGitHub _
    (@samplePublishing_reached sampleDigest) _ _ _ _ _ k hk

end ExtraCodeowners
