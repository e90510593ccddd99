import ExtraCodeowners.Tokens

/-!
# Wake-ups of authority rows

What arrives for an authority row while a worker holds it survives the end of
its pass: the row carries a counter that every arrival raises, and the claim
carries the value it was issued with. A deferral looks for waiting direct
events instead.
-/

namespace ExtraCodeowners

/-! ## Arrivals -/

/-- The pull request has a row of another head, which fan-out preserves. -/
def leavesHead (request : JobRequest) (db : Db) : Bool :=
  db.evaluation_jobs.any fun _ job =>
    isForRequest request job && job.head_sha_hint ≠ none && job.head_sha_hint ≠ request.head_sha_hint

/-- The request whose evaluation a call writes into the queue. -/
def Call.evaluationEnqueued (db : Db) : (c : Call) → c.Answer → Option JobRequest
  | .acceptDelivery _ _ (some (.job request)), answer => if answer.accepted then some request else none
  | .enqueue request, _ => some request
  | .enqueueSharedHeadTrigger request, _ => some request
  | .enqueueForSharedHeadGeneration request _, true =>
    if leavesHead request db then none else some request
  | _, _ => none

/-- The request by which a call announces the base of a direct event. -/
def Call.baseObserved : (c : Call) → c.Answer → Option JobRequest
  | .observeEvaluationBase job base_ref, true =>
    if isBaseRefHint base_ref = true ∧ job.work_class = .interactive then
      some (requestOf job job.head_sha_hint (some base_ref))
    else none
  | _, _ => none

/-- The row is of the request's repository or of its whole installation. -/
def AuthorityJob.covers (row : AuthorityJob) (request : JobRequest) : Bool :=
  row.installation_id = request.installation_id &&
    (row.scope_key = .all || row.scope_key = .repository request.repository_full_name)

/-- A direct event that the row blocks. -/
def AuthorityJob.blocksDirect (row : AuthorityJob) (request : JobRequest) : Bool :=
  request.work_class = .interactive && row.covers request

/-- An interactive evaluation under the row is enqueued, or evidence coalesces into it. -/
def Call.arrivesAt (c : Call) (a : c.Answer) (db : Db) (row : AuthorityJob) : Bool :=
  (c.evaluationEnqueued db a).any row.blocksDirect ||
    (c.authorityAccepted a).any fun request => isForAuthority request row

def Call.observesFor (c : Call) (a : c.Answer) (row : AuthorityJob) : Bool :=
  (c.baseObserved a).any row.blocksDirect

def Call.rouses (c : Call) (a : c.Answer) (db : Db) (row : AuthorityJob) : Bool :=
  c.arrivesAt a db row || c.observesFor a row

/-! ## What a call on evaluations does to authority rows -/

/-- The authority rows after the wake-up by a request. -/
def wokenRows (now : Time) (request : Option JobRequest) (rows : Dict Nat AuthorityJob) :
    Dict Nat AuthorityJob :=
  match request.filter (·.work_class = .interactive) with
  | none => rows
  | some request => rows.updateWhere (fun _ job => wakes request job) (·.woken now)

section
variable {now : Time} {db mid db' : Db} {request : JobRequest}

theorem wake_authority_jobs (now : Time) (request : JobRequest) (db : Db) :
    (wakeAuthorityForInteractive now request db).authority_jobs =
      wokenRows now (some request) db.authority_jobs := by
  unfold wakeAuthorityForInteractive wokenRows
  by_cases hw : request.work_class = .interactive
  · rw [if_pos hw, Option.filter_some, if_pos (by simpa using hw)]
    rfl
  · rw [if_neg hw, Option.filter_some, if_neg (by simpa using hw)]

theorem wokenRows_recovery (h : request.work_class ≠ .interactive) (rows : Dict Nat AuthorityJob) :
    wokenRows now (some request) rows = rows := by
  unfold wokenRows
  rw [Option.filter_some, if_neg (by simpa using h)]

/-- An enqueue that finds no row to update inserts one, unless it leaves a row of another head. -/
theorem inserts_row {pd : Bool} (h : pd = true → leavesHead request db = false)
    (hno : ¬(db.evaluation_jobs.any fun _ job => isForRequest request job &&
      (!pd || job.head_sha_hint = none || job.head_sha_hint = request.head_sha_hint)) = true) :
    ¬(pd && db.evaluation_jobs.any fun _ job => isForRequest request job) = true := by
  intro hex
  obtain ⟨hpd, hany⟩ := Bool.and_eq_true _ _ ▸ hex
  obtain ⟨id, row, hrow, hfor⟩ := Dict.any_eq_true.mp hany
  have hkeep := Dict.any_eq_false.mp (h hpd) id row hrow
  refine hno (Dict.any_eq_true.mpr ⟨id, row, hrow, ?_⟩)
  simp only [hfor, Bool.true_and, Bool.and_eq_false_iff, decide_eq_false_iff_not, not_not] at hkeep
  simp only [hfor, Bool.true_and, Bool.or_eq_true, decide_eq_true_eq]
  tauto

/-- An enqueue that writes its row wakes. -/
theorem enqueueInSession_authority_jobs {delivery_id : Option Str} {g : Nat} {pd pw : Bool}
    (h : pd = true → leavesHead request db = false) :
    (enqueueInSession now request delivery_id g pd pw db).authority_jobs =
      wokenRows now (some request) db.authority_jobs := by
  unfold enqueueInSession
  split
  · exact wake_authority_jobs now request _
  · rename_i hno
    rw [if_neg (inserts_row h hno)]
    exact wake_authority_jobs now request _

theorem enqueueSharedHeadTrigger_authority_jobs (hr : enqueueSharedHeadTrigger now request db = .ok db') :
    db'.authority_jobs = wokenRows now (some request) db.authority_jobs := by
  unfold enqueueSharedHeadTrigger at hr
  split at hr
  · cases hr
  · cases hr
    exact enqueueInSession_authority_jobs fun h => by cases h

theorem enqueue_authority_jobs (hr : enqueue now request db = .ok db') :
    db'.authority_jobs = wokenRows now (some request) db.authority_jobs := by
  unfold enqueue at hr
  split at hr
  · exact enqueueSharedHeadTrigger_authority_jobs hr
  · cases hr
    exact enqueueInSession_authority_jobs fun h => by cases h

theorem enqueueForSharedHeadGeneration_authority_jobs {g : Nat} {answer : Bool}
    (hr : enqueueForSharedHeadGeneration now request g db = .ok (db', answer)) :
    db'.authority_jobs = wokenRows now
      ((Call.enqueueForSharedHeadGeneration request g).evaluationEnqueued db answer) db.authority_jobs := by
  unfold enqueueForSharedHeadGeneration at hr
  split at hr
  · cases hr
  · rename_i head hhead
    have hguard : (db.evaluation_jobs.any fun _ job => isForRequest request job &&
        job.head_sha_hint ≠ none && job.head_sha_hint ≠ some head) = leavesHead request db := by
      unfold leavesHead
      rw [hhead]
    rw [hguard] at hr
    split at hr
    · cases hr
    split at hr
    · cases hr
      rfl
    by_cases hleaves : leavesHead request db = true
    · rw [if_pos hleaves] at hr
      cases hr
      simp only [Call.evaluationEnqueued, if_pos hleaves]
      rfl
    · rw [if_neg hleaves] at hr
      cases hr
      simp only [Call.evaluationEnqueued, if_neg hleaves]
      exact enqueueInSession_authority_jobs fun _ => by simpa using hleaves

theorem insertIfAbsent_authority_jobs {g : Nat} (hj : mid.authority_jobs = db.authority_jobs) :
    (insertIfAbsent now request g db mid).1.authority_jobs = db.authority_jobs := by
  unfold insertIfAbsent
  split
  · rfl
  · exact hj

/-- Reconciliation is recovery work. -/
theorem enqueueReconciliationIfDue_authority_jobs {recheck_seconds : Nat} {answer : Bool}
    (hr : enqueueReconciliationIfDue now request recheck_seconds db = .ok (db', answer)) :
    db'.authority_jobs = db.authority_jobs := by
  unfold enqueueReconciliationIfDue at hr
  split at hr
  · cases hr
  rename_i hwork
  have hrecovery : request.work_class ≠ .interactive := by
    intro hi
    exact hwork (by rw [hi]; exact fun h => by cases h)
  split at hr
  · cases hr
  · cases hr
  split at hr
  · cases hr
  split at hr
  · split at hr
    · cases hr; rfl
    · cases hr
      exact (enqueueInSession_authority_jobs fun h => by cases h).trans
        (wokenRows_recovery hrecovery _)
  · split at hr
    · split at hr
      · cases hr; rfl
      · injection hr with hr
        rw [← (Prod.mk.inj hr).1]
        exact insertIfAbsent_authority_jobs rfl
    · injection hr with hr
      rw [← (Prod.mk.inj hr).1]
      exact insertIfAbsent_authority_jobs rfl

theorem observeEvaluationBase_authority_jobs {job : ClaimedJob} {base_ref : Str} {answer : Bool}
    (hr : observeEvaluationBase now job base_ref db = (db', answer)) :
    db'.authority_jobs =
      wokenRows now ((Call.observeEvaluationBase job base_ref).baseObserved answer) db.authority_jobs := by
  unfold observeEvaluationBase at hr
  by_cases hany : db.evaluation_jobs.any (observesBase now job) = true
  · rw [if_pos hany] at hr
    obtain ⟨rfl, rfl⟩ := Prod.mk.inj hr
    simp only [Call.baseObserved]
    by_cases hint : isBaseRefHint base_ref = true ∧ job.work_class = .interactive
    · simp only [hint, if_true, ne_eq, reduceCtorEq, not_false_eq_true, and_self]
      exact wake_authority_jobs now _ _
    · rw [if_neg hint, if_neg]
      · rfl
      · intro h
        refine hint ⟨?_, h.2⟩
        by_contra hno
        exact h.1 (if_neg hno)
  · rw [if_neg hany] at hr
    obtain ⟨rfl, rfl⟩ := Prod.mk.inj hr
    rfl

theorem releaseClaim_authority_jobs {job : ClaimedJob} {owner : Str} {revocation : Option JobRequest}
    {values : EvaluationJob → EvaluationJob} :
    (releaseClaimInSession now job owner revocation values db).1.authority_jobs = db.authority_jobs := by
  unfold releaseClaimInSession
  split
  · simp only
    split <;> rfl
  · rfl

theorem acceptDelivery_authority_jobs {delivery_id event : Str} {request : Option DeliveryRequest}
    {answer : DeliveryAcceptance}
    (hp : (Call.acceptDelivery delivery_id event request).authorityPresented = [])
    (hr : acceptDelivery now delivery_id event request db = .ok (db', answer)) :
    db'.authority_jobs = wokenRows now
      ((Call.acceptDelivery delivery_id event request).evaluationEnqueued db answer) db.authority_jobs := by
  unfold acceptDelivery at hr
  split at hr
  · rename_i delivery _
    cases hreplay : replayDelivery event request delivery with
    | error e => simp [hreplay, Except.map] at hr
    | ok replayed =>
      simp only [hreplay, Except.map] at hr
      cases hr
      have hno := replayDelivery_accepted hreplay
      match request with
      | none => rfl
      | some (.authority request) => rfl
      | some (.job request) => simp only [Call.evaluationEnqueued, hno]; rfl
  · match request with
    | none =>
      cases hr
      rfl
    | some (.authority request) => cases hp
    | some (.job request) =>
      simp only at hr
      split at hr
      · cases hr
      · cases hr
        exact enqueueInSession_authority_jobs fun h => by cases h

end

/-- A call that neither brings authority evidence nor acts on an authority row
wakes the rows that cover its request, and nothing else. -/
theorem authority_jobs_run {i : Instant} {db db' : Db} {c : Call} {a : c.Answer}
    (hp : c.authorityPresented = []) (hu : c.authorityUsed = none)
    (hc : ∀ owner lease_seconds prio, c ≠ .claimAuthority owner lease_seconds prio)
    (hr : c.run i db = .ok (db', a)) :
    db'.authority_jobs =
      wokenRows i.now ((c.evaluationEnqueued db a).or (c.baseObserved a)) db.authority_jobs := by
  have of_ok : ∀ {α : Type} {x : Db × α} {a : α}, (.ok x : Except Str (Db × α)) = .ok (db', a) →
      x.1 = db' := by
    intro α x a hx
    injection hx with hx
    rw [hx]
  have of_map : ∀ {x : Except Str Db}, x.map (·, ()) = .ok (db', ()) → x = .ok db' := by
    intro x hx
    cases x with
    | error e => cases hx
    | ok y => cases hx; rfl
  cases c with
  | acceptDelivery => rw [acceptDelivery_authority_jobs hp hr]; simp [Call.baseObserved]
  | enqueue => exact enqueue_authority_jobs (of_map hr)
  | enqueueSharedHeadTrigger => exact enqueueSharedHeadTrigger_authority_jobs (of_map hr)
  | enqueueForSharedHeadGeneration =>
    rw [enqueueForSharedHeadGeneration_authority_jobs hr]
    simp [Call.baseObserved]
  | observeEvaluationBase =>
    injection hr with hr
    rw [observeEvaluationBase_authority_jobs hr]
    simp [Call.evaluationEnqueued]
  | enqueueReconciliationIfDue => exact enqueueReconciliationIfDue_authority_jobs hr
  | enqueueIfAbsent request =>
    rw [← of_ok hr]
    unfold enqueueIfAbsent
    split <;> exact insertIfAbsent_authority_jobs rfl
  | fail => rw [← of_ok hr]; exact releaseClaim_authority_jobs
  | defer => rw [← of_ok hr]; exact releaseClaim_authority_jobs
  | claim =>
    rw [← of_ok hr]
    unfold claim
    split <;> rfl
  | bindClaimToHead job head =>
    rw [← of_ok hr]
    unfold bindClaimToHead
    split
    · rfl
    · split <;> rfl
  | complete =>
    rw [← of_ok hr]
    unfold complete
    split
    · rfl
    · simp only
      split <;> rfl
  | claimSharedHeadInvalidation =>
    rw [← of_ok hr]
    unfold claimSharedHeadInvalidation
    split <;> rfl
  | completeSharedHeadInvalidation =>
    rw [← of_ok hr]
    unfold completeSharedHeadInvalidation updateInvalidation
    simp only
    split <;> rfl
  | claimAuthority owner lease_seconds prio => exact absurd rfl (hc owner lease_seconds prio)
  | enqueueAuthority => cases hp
  | renewAuthorityClaim | advanceAuthorityCursor | advanceInstallationAuthorityPage
  | advanceAuthorityMembershipPage | completeAuthority | failAuthority | deferAuthority => cases hu
  | markDeliveryInvalidated | recordProviderBackpressure | renewClaim | renewSharedHeadInvalidation
  | failSharedHeadInvalidation | deferSharedHeadInvalidation | pruneDeliveries | pruneSharedHeadEpochs
  | pruneReconciliationStates => rw [← of_ok hr]; rfl

/-! ## One row -/

/-- Every row awaits a pass, on its whole scope. -/
structure AuthorityPending (db : Db) : Prop where
  fresh : AuthorityFresh db
  pending : ∀ id row, db.authority_jobs.get? id = some row → row.state = .pending

/-- The row after an arrival: available at once, with a higher counter. -/
structure Roused (now : Time) (row row' : AuthorityJob) : Prop where
  scope : SameScope row row'
  state : row'.state = row.state
  counter : row.interactive_wake_generation < row'.interactive_wake_generation
  available_at : row'.available_at = now

theorem roused_coalesced (now : Time) (request : AuthorityRequest) (row : AuthorityJob) :
    Roused now row (coalescedAuthorityJob now request row) := by
  refine ⟨sameScope_coalesced now request row, ?_, ?_, ?_⟩
  all_goals
    unfold coalescedAuthorityJob
    simp only
    split
    · first | rfl | exact Nat.lt_succ_self _
    · split
      · first | rfl | exact Nat.lt_succ_self _
      · split
        · first | rfl | exact Nat.lt_succ_self _
        · split <;> first | rfl | exact Nat.lt_succ_self _

theorem roused_coalescedAll (now : Time) (request : AuthorityRequest) (requests : List AuthorityRequest) :
    ∀ row, Roused now row (coalescedAll now (request :: requests) row) := by
  induction requests generalizing request with
  | nil => exact roused_coalesced now request
  | cons next requests ih =>
    intro row
    have h₁ := roused_coalesced now request row
    have h₂ := ih next (coalescedAuthorityJob now request row)
    refine ⟨sameScope_coalescedAll now _ row, h₂.state.trans h₁.state, ?_, h₂.available_at⟩
    exact h₁.counter.trans h₂.counter

theorem roused_woken (now : Time) (row : AuthorityJob) : Roused now row (row.woken now) :=
  ⟨⟨rfl, rfl, rfl, rfl, rfl, rfl⟩, rfl, Nat.lt_succ_self _, rfl⟩

theorem coalescedAll_state (now : Time) (requests : List AuthorityRequest) (row : AuthorityJob) :
    (coalescedAll now requests row).state = row.state := by
  cases requests with
  | nil => rfl
  | cons request requests => exact (roused_coalescedAll now request requests row).state

theorem wakes_iff_covers {row : AuthorityJob} (hs : row.state = .pending) (hb : row.base_ref = [])
    (request : JobRequest) : wakes request row = row.covers request := by
  simp [wakes, AuthorityJob.covers, hs, hb]

theorem wokenRows_get? {now : Time} {row : AuthorityJob} {rows : Dict Nat AuthorityJob} {id : Nat}
    (hrow : rows.get? id = some row) (hs : row.state = .pending) (hb : row.base_ref = [])
    (o : Option JobRequest) :
    (wokenRows now o rows).get? id =
      some (if o.any row.blocksDirect = true then row.woken now else row) := by
  cases o with
  | none => exact hrow
  | some request =>
    by_cases hw : request.work_class = .interactive
    · unfold wokenRows
      simp only [Option.filter_some, hw, decide_true, if_true, Dict.get?_updateWhere, hrow, Option.map_some,
        wakes_iff_covers hs hb request, Option.any_some, AuthorityJob.blocksDirect, Bool.true_and]
    · rw [wokenRows_recovery hw, hrow]
      simp [hw, AuthorityJob.blocksDirect]

/-- What a call does to a row that is there: it rouses it exactly when something
arrives or a base is observed. Otherwise the row stays, is claimed, or its holder moves it on. -/
inductive Beat (c : Call) (a : c.Answer) (now : Time) (db : Db) (id : Nat) (row : AuthorityJob) :
    Option AuthorityJob → Prop where
  | roused (row' : AuthorityJob) : c.rouses a db row = true →
      Roused now row row' → Beat c a now db id row (some row')
  | kept : c.rouses a db row = false → Beat c a now db id row (some row)
  | claimed (owner : Str) (lease_until : Time) : c.rouses a db row = false →
      (c.authorityIssued a).any (·.id = id) = true →
      Beat c a now db id row (some (row.claimed owner lease_until))
  | handled (o : Option AuthorityJob) : c.rouses a db row = false →
      row.lease_owner ≠ none →
      (∀ row', o = some row' → row.generation < row'.generation ∨
        row'.generation = row.generation ∧
          row'.interactive_wake_generation = row.interactive_wake_generation) →
      Beat c a now db id row o

section
variable {i : Instant} {db db' : Db} {id : Nat} {row : AuthorityJob}

theorem holdsAuthority_leased {job : ClaimedAuthorityJob} {owner : Str}
    (h : holdsAuthority job owner id row = true) : row.lease_owner ≠ none := by
  rw [(holdsAuthority_eq_true.mp h).2.2]
  exact Option.some_ne_none owner

/-- One authority request. -/
theorem beat_enqueueAuthority {c : Call} {a : c.Answer} {mid : Db} {request : AuthorityRequest}
    (h : AuthorityFresh mid) (ha : c.authorityAccepted a = [request])
    (he : c.evaluationEnqueued db a = none) (hb : c.baseObserved a = none)
    (hrow : mid.authority_jobs.get? id = some row) :
    Beat c a i.now db id row ((enqueueAuthorityInSession i.now request mid).authority_jobs.get? id) := by
  rw [(enqueueAuthority_get? i.now request h id).1 row hrow]
  have hstirs : c.rouses a db row = isForAuthority request row := by
    simp [Call.rouses, Call.arrivesAt, Call.observesFor, ha, he, hb]
  by_cases hp : isForAuthority request row = true
  · rw [if_pos hp]
    exact .roused _ (hstirs.trans hp) (roused_coalesced i.now request row)
  · rw [if_neg hp]
    exact .kept (hstirs.trans (by simpa using hp))

/-- The children of a page, on a row of theirs and on the row of the page itself. -/
theorem beat_page (h : AuthorityFresh db) {job : ClaimedAuthorityJob} {requests : List AuthorityRequest}
    {next_page : Nat} {expected_total : Option Nat} {answer : Bool}
    (hr : advanceInstallationAuthorityPage i.now job requests next_page expected_total db =
      .ok (db', answer)) (hrow : db.authority_jobs.get? id = some row) :
    Beat (.advanceInstallationAuthorityPage job requests next_page expected_total) answer i.now db id row
      (db'.authority_jobs.get? id) := by
  unfold advanceInstallationAuthorityPage at hr
  split at hr
  · cases hr
  split at hr
  · cases hr
  split at hr
  swap
  · cases hr
    rw [hrow]
    exact .kept rfl
  rename_i hany
  injection hr with hr
  obtain ⟨rfl, rfl⟩ := Prod.mk.inj hr
  have hheld : ∀ id row, db.authority_jobs.get? id = some row →
      (requests.foldl (fun db request => enqueueAuthorityInSession i.now request db) db).authority_jobs.get? id
          = some (coalescedAll i.now (requests.filter (isForAuthority · row)) row) ∧
        holdsAuthorityLease i.now job id (coalescedAll i.now (requests.filter (isForAuthority · row)) row) =
          holdsAuthorityLease i.now job id row := by
    intro id row hrow
    exact ⟨(foldl_enqueueAuthority_get? i.now requests id db h).1 row hrow,
      (sameScope_coalescedAll i.now _ row).holdsAuthorityLease i.now job id⟩
  -- the row of the page is still held after its children
  have hanswer : (requests.foldl (fun db request => enqueueAuthorityInSession i.now request db)
      db).authority_jobs.any (holdsAuthorityLease i.now job) = true := by
    obtain ⟨id₀, row₀, hrow₀, hp₀⟩ := Dict.any_eq_true.mp hany
    exact Dict.any_eq_true.mpr ⟨id₀, _, (hheld id₀ row₀ hrow₀).1, (hheld id₀ row₀ hrow₀).2.trans hp₀⟩
  simp only [hanswer, Dict.get?_updateWhere, (hheld id row hrow).1, Option.map_some,
    (hheld id row hrow).2]
  cases hmatch : requests.filter (isForAuthority · row) with
  | nil =>
    have hno : requests.any (isForAuthority · row) = false := by
      rw [List.any_eq_false]
      exact List.filter_eq_nil_iff.mp hmatch
    by_cases hp : holdsAuthorityLease i.now job id row = true
    · rw [if_pos hp]
      refine .handled _ ((Bool.or_false _).trans hno) (holdsAuthority_leased (Bool.and_eq_true _ _ ▸ hp).1) ?_
      intro row' he
      cases he
      exact Or.inr ⟨rfl, rfl⟩
    · rw [if_neg hp]
      exact .kept ((Bool.or_false _).trans hno)
  | cons request rest =>
    have hyes : requests.any (isForAuthority · row) = true := by
      have hmem : request ∈ requests.filter (isForAuthority · row) := hmatch ▸ List.mem_cons_self
      exact List.any_eq_true.mpr ⟨request, (List.mem_filter.mp hmem).1, (List.mem_filter.mp hmem).2⟩
    have hroused := roused_coalescedAll i.now request rest row
    refine .roused _ ((Bool.or_false _).trans hyes) ?_
    split
    · exact ⟨⟨hroused.scope.installation_id, hroused.scope.scope_key, hroused.scope.base_ref,
        hroused.scope.generation, hroused.scope.lease_owner, hroused.scope.lease_until⟩, hroused.state,
        hroused.counter, hroused.available_at⟩
    · exact hroused

/-- What a holder writes. -/
theorem beat_update {c : Call} {a : c.Answer} {p : Nat → AuthorityJob → Bool}
    {values : AuthorityJob → AuthorityJob} (hno : c.rouses a db row = false)
    (hp : p id row = true → row.lease_owner ≠ none) (hg : (values row).generation = row.generation)
    (hw : (values row).interactive_wake_generation = row.interactive_wake_generation)
    (hrow : db.authority_jobs.get? id = some row) :
    Beat c a i.now db id row ((updateAuthority p values db).1.authority_jobs.get? id) := by
  simp only [updateAuthority, Dict.get?_updateWhere, hrow, Option.map_some]
  by_cases hheld : p id row = true
  · rw [if_pos hheld]
    refine .handled _ hno (hp hheld) ?_
    intro row' he
    cases he
    exact Or.inr ⟨hg, hw⟩
  · rw [if_neg hheld]
    exact .kept hno

theorem beat_complete {job : ClaimedAuthorityJob} {owner : Str} {answer : Bool}
    (hrow : db.authority_jobs.get? id = some row) :
    Beat (.completeAuthority job owner) answer i.now db id row
      ((completeAuthority i.now job owner db).1.authority_jobs.get? id) := by
  cases hf : (db.authority_jobs.get? job.id).filter (holdsAuthority job owner job.id) with
  | none =>
    unfold completeAuthority
    rw [hf, hrow]
    exact .kept rfl
  | some held =>
    obtain ⟨-, -, hself, hother⟩ := @completeAuthority_rows db i.now job owner held hf
    obtain ⟨hget, hheld⟩ := Option.filter_eq_some_iff.mp hf
    by_cases hid : id = job.id
    · subst hid
      rw [hrow] at hget
      cases hget
      rw [hself]
      refine .handled _ rfl (holdsAuthority_leased hheld) ?_
      intro row' he
      split at he
      · cases he
        exact Or.inl (Nat.lt_succ_self _)
      · cases he
    · rw [hother id hid, hrow]
      exact .kept rfl

theorem beat_claim {owner : Str} {lease_seconds : Nat} {prio : Bool} {answer : Option ClaimedAuthorityJob}
    (hr : claimAuthority i.now i.authority_locked owner lease_seconds prio db = (db', answer))
    (hrow : db.authority_jobs.get? id = some row) :
    Beat (.claimAuthority owner lease_seconds prio) answer i.now db id row (db'.authority_jobs.get? id) := by
  unfold claimAuthority at hr
  split at hr
  · cases hr
    rw [hrow]
    exact .kept rfl
  · rename_i id' row' hsel
    cases hr
    simp only [Dict.get?_set]
    by_cases hid : id = id'
    · subst hid
      have he := (Dict.select_some hsel).1
      rw [hrow] at he
      cases he
      rw [if_pos rfl]
      refine .claimed owner (i.now + seconds lease_seconds) rfl ?_
      exact decide_eq_true rfl
    · rw [if_neg hid, hrow]
      exact .kept rfl

/-- A call on evaluations. -/
theorem beat_evaluation (h : AuthorityPending db) {c : Call} {a : c.Answer}
    (hp : c.authorityPresented = []) (hu : c.authorityUsed = none)
    (hc : ∀ owner lease_seconds prio, c ≠ .claimAuthority owner lease_seconds prio)
    (hr : c.run i db = .ok (db', a)) (hrow : db.authority_jobs.get? id = some row) :
    Beat c a i.now db id row (db'.authority_jobs.get? id) := by
  rw [authority_jobs_run hp hu hc hr, wokenRows_get? hrow (h.pending id row hrow) (h.fresh id row hrow).2]
  have hstirs : c.rouses a db row =
      ((c.evaluationEnqueued db a).or (c.baseObserved a)).any row.blocksDirect := by
    have hnone : c.authorityAccepted a = [] := by
      cases c with
      | acceptDelivery delivery_id event request =>
        match request with
        | none | some (.job _) => rfl
        | some (.authority _) => cases hp
      | enqueueAuthority => cases hp
      | advanceInstallationAuthorityPage => cases hu
      | _ => rfl
    unfold Call.rouses Call.arrivesAt Call.observesFor
    rw [hnone, List.any_nil, Bool.or_false]
    cases c with
    | observeEvaluationBase => rfl
    | _ => simp [Call.baseObserved]
  by_cases hs : ((c.evaluationEnqueued db a).or (c.baseObserved a)).any row.blocksDirect = true
  · rw [if_pos hs]
    exact .roused _ (hstirs.trans hs) (roused_woken i.now row)
  · rw [if_neg hs]
    exact .kept (hstirs.trans (by simpa using hs))

theorem beat_acceptDelivery (h : AuthorityPending db) {delivery_id event : Str}
    {request : Option DeliveryRequest} {answer : DeliveryAcceptance}
    (hr : acceptDelivery i.now delivery_id event request db = .ok (db', answer))
    (hrow : db.authority_jobs.get? id = some row) :
    Beat (.acceptDelivery delivery_id event request) answer i.now db id row (db'.authority_jobs.get? id) := by
  match request with
  | none => exact beat_evaluation h rfl rfl (fun _ _ _ he => by cases he) hr hrow
  | some (.job request) => exact beat_evaluation h rfl rfl (fun _ _ _ he => by cases he) hr hrow
  | some (.authority request) =>
    unfold acceptDelivery at hr
    split at hr
    · rename_i delivery _
      cases hreplay : replayDelivery event (some (.authority request)) delivery with
      | error e => simp [hreplay, Except.map] at hr
      | ok replayed =>
        simp only [hreplay, Except.map] at hr
        cases hr
        rw [hrow]
        refine .kept ?_
        simp [Call.rouses, Call.arrivesAt, Call.observesFor, Call.evaluationEnqueued, Call.baseObserved,
          Call.authorityAccepted, replayDelivery_accepted hreplay]
    · simp only at hr
      injection hr with hr
      obtain ⟨rfl, rfl⟩ := Prod.mk.inj hr
      split
      · exact beat_enqueueAuthority h.fresh rfl rfl rfl hrow
      · exact beat_enqueueAuthority h.fresh rfl rfl rfl hrow

theorem beat_run (h : AuthorityPending db) {c : Call} {a : c.Answer} (hr : c.run i db = .ok (db', a))
    (hrow : db.authority_jobs.get? id = some row) :
    Beat c a i.now db id row (db'.authority_jobs.get? id) := by
  have of_ok : ∀ {α : Type} {x : Db × α} {a : α}, (.ok x : Except Str (Db × α)) = .ok (db', a) →
      x.1 = db' := by
    intro α x a hx
    injection hx with hx
    rw [hx]
  cases c with
  | acceptDelivery => exact beat_acceptDelivery h hr hrow
  | enqueueAuthority request =>
    rw [← of_ok hr]
    exact beat_enqueueAuthority h.fresh rfl rfl rfl hrow
  | advanceInstallationAuthorityPage => exact beat_page h.fresh hr hrow
  | claimAuthority => exact beat_claim (Except.ok.inj hr) hrow
  | completeAuthority => rw [← of_ok hr]; exact beat_complete hrow
  | renewAuthorityClaim =>
    rw [← of_ok hr]
    refine beat_update rfl (fun hp => ?_) rfl rfl hrow
    exact holdsAuthority_leased (Bool.and_eq_true _ _ ▸ hp).1
  | advanceAuthorityCursor | advanceAuthorityMembershipPage =>
    rw [← of_ok hr]
    refine beat_update rfl (fun hp => ?_) rfl rfl hrow
    exact holdsAuthority_leased (Bool.and_eq_true _ _ ▸ hp).1
  | failAuthority | deferAuthority =>
    rw [← of_ok hr]
    exact beat_update rfl holdsAuthority_leased rfl rfl hrow
  | _ => exact beat_evaluation h rfl rfl (fun _ _ _ he => by cases he) hr hrow

theorem AuthorityPending.run (h : AuthorityPending db) {c : Call} {a : c.Answer}
    (hr : c.run i db = .ok (db', a)) : AuthorityPending db' := by
  have hchanges := authorityChange_run h.fresh hr
  refine ⟨hchanges.fresh h.fresh, ?_⟩
  intro id row' hrow'
  have hc := hchanges.rows id
  rw [hrow'] at hc
  cases hrow : db.authority_jobs.get? id with
  | none =>
    rw [hrow] at hc
    cases hc with
    | inserted request rest => exact coalescedAll_state i.now rest _
  | some row =>
    have hp := h.pending id row hrow
    rw [hrow] at hc
    cases hc with
    | kept | woken | claimed | renewed | advanced | membership | deferred => exact hp
    | failed | restarted => rfl
    | coalesced _ requests => exact (coalescedAll_state i.now requests row).trans hp
    | paged => exact (coalescedAll_state i.now _ row).trans hp

end

/-! ## Waiting events -/

/-- An interactive evaluation of the request's pull request is pending. -/
def Awaits (request : JobRequest) (db : Db) : Prop :=
  ∃ id job, db.evaluation_jobs.get? id = some job ∧ job.pullKey = request.pullKey ∧
    job.state = .pending ∧ job.work_class = .interactive

section
variable {now : Time} {db db' : Db} {request : JobRequest}

theorem awaits_enqueueInSession
    (h : ∀ id row, db.evaluation_jobs.get? id = some row → id < db.next_evaluation_job)
    (hw : request.work_class = .interactive) {delivery_id : Option Str} {g : Nat} {pd pw : Bool}
    (hpd : pd = true → leavesHead request db = false) : Awaits request (enqueueInSession now request delivery_id g pd pw db) := by
  unfold enqueueInSession
  split
  · rename_i hany
    obtain ⟨id, row, hrow, hp⟩ := Dict.any_eq_true.mp hany
    refine ⟨id, coalescedJob now request delivery_id g pw db row, ?_, ?_, rfl, ?_⟩
    · rw [wake_evaluation_jobs, Dict.get?_updateWhere, hrow, Option.map_some, if_pos hp]
    · have hfor : isForRequest request row = true := (Bool.and_eq_true _ _ ▸ hp).1
      exact of_decide_eq_true hfor
    · simp [coalescedJob, hw]
  · rename_i hno
    have hnone : db.evaluation_jobs.get? db.next_evaluation_job = none := by
      cases hg : db.evaluation_jobs.get? db.next_evaluation_job with
      | none => rfl
      | some x => exact absurd (h _ _ hg) (lt_irrefl _)
    rw [if_neg (inserts_row hpd hno)]
    refine ⟨db.next_evaluation_job, newJob now request delivery_id g db, ?_, rfl, rfl, hw⟩
    rw [wake_evaluation_jobs]
    unfold insertEvaluationJob
    rw [Dict.get?_insertNew hnone, if_pos rfl]

theorem awaits_trigger (h : Coherent db) (hw : request.work_class = .interactive)
    (hr : enqueueSharedHeadTrigger now request db = .ok db') : Awaits request db' := by
  unfold enqueueSharedHeadTrigger at hr
  split at hr
  · cases hr
  · rename_i head hhead
    cases hr
    refine awaits_enqueueInSession ?_ hw fun he => by cases he
    exact h.fresh

theorem awaits_run {i : Instant} {c : Call} {a : c.Answer} (h : Coherent db)
    (hr : c.run i db = .ok (db', a)) (he : c.evaluationEnqueued db a = some request)
    (hw : request.work_class = .interactive) : Awaits request db' := by
  have of_map : ∀ {x : Except Str Db}, x.map (·, ()) = .ok (db', ()) → x = .ok db' := by
    intro x hx
    cases x with
    | error e => cases hx
    | ok y => cases hx; rfl
  cases c with
  | acceptDelivery delivery_id event o =>
    match o with
    | none | some (.authority _) => cases he
    | some (.job request') =>
      simp only [Call.evaluationEnqueued] at he
      split at he
      · rename_i haccepted
        cases he
        change acceptDelivery i.now delivery_id event (some (.job request)) db = _ at hr
        unfold acceptDelivery at hr
        split at hr
        · rename_i delivery _
          cases hreplay : replayDelivery event (some (.job request)) delivery with
          | error e => simp [hreplay, Except.map] at hr
          | ok replayed =>
            simp only [hreplay, Except.map] at hr
            cases hr
            rw [replayDelivery_accepted hreplay] at haccepted
            cases haccepted
        · simp only at hr
          split at hr
          · cases hr
          · rename_i head hhead
            cases hr
            refine awaits_enqueueInSession ?_ hw fun he => by cases he
            exact h.fresh
      · cases he
  | enqueue request' =>
    cases he
    have hrun := of_map hr
    unfold enqueue at hrun
    split at hrun
    · exact awaits_trigger h hw hrun
    · cases hrun
      exact awaits_enqueueInSession h.fresh hw fun he => by cases he
  | enqueueSharedHeadTrigger request' =>
    cases he
    exact awaits_trigger h hw (of_map hr)
  | enqueueForSharedHeadGeneration request' g =>
    cases a with
    | false => cases he
    | true =>
      simp only [Call.evaluationEnqueued] at he
      split at he
      · cases he
      rename_i hstays
      cases he
      change enqueueForSharedHeadGeneration i.now request g db = _ at hr
      unfold enqueueForSharedHeadGeneration at hr
      split at hr
      · cases hr
      rename_i head hhead
      split at hr
      · cases hr
      split at hr
      · cases hr
      rw [if_neg] at hr
      · cases hr
        exact awaits_enqueueInSession h.fresh hw fun _ => by simpa using hstays
      · intro hleaves
        refine hstays ?_
        unfold leavesHead
        rw [hhead]
        exact hleaves
  | _ => cases he

/-- It is a direct waiter of every row that covers the request. -/
theorem Awaits.directWaiter (h : Awaits request db) {row : AuthorityJob} (hb : row.base_ref = [])
    (hc : row.covers request = true) : authorityDirectWaiter db row = true := by
  obtain ⟨id, job, hjob, hpull, hstate, hwork⟩ := h
  unfold authorityDirectWaiter directWaiterAmong
  refine Dict.any_eq_true.mpr ⟨id, job, hjob, ?_⟩
  simp only [EvaluationJob.pullKey, JobRequest.pullKey, PullKey.mk.injEq] at hpull
  simp only [AuthorityJob.covers, Bool.and_eq_true, Bool.or_eq_true, decide_eq_true_eq] at hc
  simp only [isDirectWaiter, hpull, hstate, hwork, hb, hc.1, decide_true, Bool.true_and, Bool.true_or,
    Bool.and_true, Bool.or_eq_true, decide_eq_true_eq]
  exact hc.2

end

/-! ## Runs -/

/-- A run observed at one authority row: whether anything arrived for it, the
clock of the last wake-up, and whether it was claimed. -/
structure Watch extends Ledger where
  arrived : Bool
  roused : Option Time
  claimed : Bool

def Ledger.watch (l : Ledger) : Watch := ⟨l, false, none, false⟩

def Watch.after (w : Watch) (id : Nat) (i : Instant) (c : Call) (a : c.Answer) (db' : Db) : Watch where
  db := db'
  issued := (c.claimIssued a).toList ++ w.issued
  arrived := w.arrived || (w.db.authority_jobs.get? id).any (c.arrivesAt a w.db)
  roused :=
    if (w.db.authority_jobs.get? id).any (c.rouses a w.db) then some i.now else w.roused
  claimed := w.claimed || (c.authorityIssued a).any (·.id = id)

/-- Any call may come next, with any authority token. -/
inductive Watch.Step (id : Nat) (w : Watch) : Watch → Prop where
  | call (i : Instant) (c : Call) (a : c.Answer) (db' : Db) :
      (∀ job owner, c.claimUsed = some (job, owner) → job ∈ w.issued) →
      c.run i w.db = .ok (db', a) → Watch.Step id w (w.after id i c a db')

def Watch.Steps (id : Nat) (w w' : Watch) : Prop := Relation.ReflTransGen (Watch.Step id) w w'

section
variable {id : Nat} {w w' : Watch}

theorem Watch.Step.ledger (h : w.Step id w') : w.toLedger.Step w'.toLedger := by
  obtain ⟨i, c, a, db', hmem, hr⟩ := h
  exact .call i c a db' hmem hr

theorem Watch.Steps.reachable (h : w.Steps id w') (hw : w.Reachable) : w'.Reachable := by
  induction h with
  | refl => exact hw
  | tail _ hs ih => exact ih.tail hs.ledger

theorem Ledger.Reachable.pending {l : Ledger} (h : l.Reachable) : AuthorityPending l.db := by
  induction h with
  | refl => exact ⟨fun id row hr => (by cases hr), fun id row hr => (by cases hr)⟩
  | tail _ hs ih =>
    obtain ⟨i, c, a, db', -, hr⟩ := hs
    exact ih.run hr

/-! ### Under a claim -/

/-- The counter of the claimed row has moved exactly when the row was roused. -/
structure Watch.Held (job : ClaimedAuthorityJob) (w : Watch) : Prop where
  pending : AuthorityPending w.db
  taken : job.id < w.db.next_authority_job
  arrived : w.arrived = true → w.roused ≠ none
  counter : ∀ row, w.db.authority_jobs.get? job.id = some row → job.generation < row.generation ∨
    row.generation = job.generation ∧
      (w.roused = none → row.interactive_wake_generation = job.interactive_wake_generation) ∧
      (w.roused ≠ none → job.interactive_wake_generation < row.interactive_wake_generation)

theorem Watch.after_roused {i : Instant} {c : Call} {a : c.Answer} {db' : Db} {row : AuthorityJob}
    (hrow : w.db.authority_jobs.get? id = some row) :
    (w.after id i c a db').roused =
      if c.rouses a w.db row = true then some i.now else w.roused := by
  simp only [Watch.after, hrow, Option.any_some]

/-- What arrives rouses. -/
theorem Watch.after_arrived {i : Instant} {c : Call} {a : c.Answer} {db' : Db}
    (h : w.arrived = true → w.roused ≠ none) :
    (w.after id i c a db').arrived = true → (w.after id i c a db').roused ≠ none := by
  simp only [Watch.after]
  cases w.db.authority_jobs.get? id with
  | none => simpa using h
  | some row =>
    intro harrived
    simp only [Option.any_some, Bool.or_eq_true] at harrived ⊢
    split
    · exact Option.some_ne_none _
    · rename_i hno
      refine h (harrived.resolve_right fun hat => hno ?_)
      simp [Call.rouses, hat]

theorem Watch.Held.step {job : ClaimedAuthorityJob} (h : w.Held job) (hs : w.Step job.id w') :
    w'.Held job := by
  obtain ⟨i, c, a, db', -, hr⟩ := hs
  have hchanges := authorityChange_run h.pending.fresh hr
  refine ⟨h.pending.run hr, lt_of_lt_of_le h.taken hchanges.next, Watch.after_arrived h.arrived, ?_⟩
  intro row' hrow'
  change db'.authority_jobs.get? job.id = some row' at hrow'
  obtain ⟨row, hrow⟩ := (hrow' ▸ hchanges.rows job.id).inserted_at h.taken
  have hbeat := beat_run h.pending hr hrow
  rw [hrow'] at hbeat
  rw [Watch.after_roused hrow]
  have hbefore := h.counter row hrow
  cases hbeat with
  | roused _ hyes hroused =>
    rw [if_pos hyes, hroused.scope.generation]
    refine hbefore.imp_right fun hsame => ⟨hsame.1, fun he => (by cases he), fun _ => ?_⟩
    refine lt_of_le_of_lt ?_ hroused.counter
    by_cases hw : w.roused = none
    · exact (hsame.2.1 hw).ge
    · exact (hsame.2.2 hw).le
  | kept hno =>
    rw [if_neg (by rw [hno]; exact Bool.false_ne_true)]
    exact hbefore
  | claimed owner lease_until hno =>
    rw [if_neg (by rw [hno]; exact Bool.false_ne_true)]
    simp only [AuthorityJob.claimed]
    split
    · exact Or.inl (by omega)
    · exact hbefore
  | handled _ hno hleased hmove =>
    rw [if_neg (by rw [hno]; exact Bool.false_ne_true)]
    rcases hmove row' rfl with hlater | ⟨hgen, hcount⟩
    · exact Or.inl (by omega)
    · rw [hgen, hcount]
      exact hbefore

theorem Watch.Held.run {job : ClaimedAuthorityJob} (h : w.Held job) (hs : w.Steps job.id w') :
    w'.Held job := by
  induction hs with
  | refl => exact h
  | tail _ hs ih => exact ih.step hs

theorem claimAuthority_some {i : Instant} {db db' : Db} {owner : Str} {lease_seconds : Nat} {prio : Bool}
    {job : ClaimedAuthorityJob}
    (hr : claimAuthority i.now i.authority_locked owner lease_seconds prio db = (db', some job)) :
    ∃ row, db.authority_jobs.get? job.id = some row ∧
      job = claimedAuthorityView job.id (row.claimed owner (i.now + seconds lease_seconds)) owner ∧
      db' = { db with
        authority_jobs := db.authority_jobs.set job.id
          (row.claimed owner (i.now + seconds lease_seconds)) } := by
  unfold claimAuthority at hr
  split at hr
  · cases (Prod.mk.inj hr).2
  · rename_i id row hsel
    obtain ⟨hdb, hjob⟩ := Prod.mk.inj hr
    cases hjob
    exact ⟨row, (Dict.select_some hsel).1, rfl, hdb.symm⟩

/-- A claim begins with nothing arrived. -/
theorem held_of_claim {l : Ledger} (hl : l.Reachable) {i : Instant} {owner : Str} {lease_seconds : Nat}
    {prio : Bool} {db : Db} {job : ClaimedAuthorityJob}
    (hr : claimAuthority i.now i.authority_locked owner lease_seconds prio l.db = (db, some job)) :
    (Ledger.watch ⟨db, l.issued⟩).Reachable ∧ (Ledger.watch ⟨db, l.issued⟩).Held job := by
  have hstep : l.Step ⟨db, l.issued⟩ := .call i (.claimAuthority owner lease_seconds prio) (some job) db
    (fun _ _ hu => by cases hu) (congrArg Except.ok hr)
  have hreach := Relation.ReflTransGen.tail hl hstep
  obtain ⟨row, hrow, hjob, hdb⟩ := claimAuthority_some hr
  refine ⟨hreach, Ledger.Reachable.pending hreach, ?_, fun h => (by cases h), ?_⟩
  · change job.id < db.next_authority_job
    rw [hdb]
    exact (hl.pending.fresh job.id row hrow).1
  · intro row' hrow'
    change db.authority_jobs.get? job.id = some row' at hrow'
    rw [hdb, Dict.get?_set_self] at hrow'
    cases hrow'
    rw [hjob]
    exact Or.inr ⟨rfl, fun _ => rfl, fun h => absurd rfl h⟩

/-! ### After a release -/

/-- Nobody has claimed the row since it was released. -/
structure Watch.Idle (id : Nat) (retry_at : Time) (w : Watch) : Prop where
  pending : AuthorityPending w.db
  arrived : w.arrived = true → w.roused ≠ none
  row : w.claimed = false → ∃ row, w.db.authority_jobs.get? id = some row ∧ row.lease_owner = none ∧
    row.available_at = w.roused.getD retry_at

theorem Watch.Idle.step {retry_at : Time} (h : w.Idle id retry_at) (hs : w.Step id w') :
    w'.Idle id retry_at := by
  obtain ⟨i, c, a, db', -, hr⟩ := hs
  refine ⟨h.pending.run hr, Watch.after_arrived h.arrived, ?_⟩
  intro hclaimed
  obtain ⟨hbefore, hissued⟩ := Bool.or_eq_false_iff.mp hclaimed
  obtain ⟨row, hrow, hlease, hat⟩ := h.row hbefore
  change ∃ row, db'.authority_jobs.get? id = some row ∧ _
  have hbeat := beat_run h.pending hr hrow
  rw [Watch.after_roused hrow]
  generalize db'.authority_jobs.get? id = o at hbeat ⊢
  cases hbeat with
  | roused row' hyes hroused =>
    rw [if_pos hyes]
    exact ⟨row', rfl, hroused.scope.lease_owner.trans hlease, hroused.available_at⟩
  | kept hno =>
    rw [if_neg (by rw [hno]; exact Bool.false_ne_true)]
    exact ⟨row, rfl, hlease, hat⟩
  | claimed owner lease_until hno hyes => rw [hissued] at hyes; cases hyes
  | handled _ hno hleased => exact absurd hlease hleased

theorem Watch.Idle.run {retry_at : Time} (h : w.Idle id retry_at) (hs : w.Steps id w') :
    w'.Idle id retry_at := by
  induction hs with
  | refl => exact h
  | tail _ hs ih => exact ih.step hs

theorem updateAuthority_get? {db : Db} {row : AuthorityJob} {p : Nat → AuthorityJob → Bool}
    {values : AuthorityJob → AuthorityJob} (hrow : db.authority_jobs.get? id = some row)
    (hp : p id row = true) :
    (updateAuthority p values db).1.authority_jobs.get? id = some (values row) := by
  simp only [updateAuthority, Dict.get?_updateWhere, hrow, Option.map_some, if_pos hp]

/-- A deferral that keeps direct wake-ups. -/
theorem idle_of_defer (hl : w.Reachable) {job : ClaimedAuthorityJob} {row : AuthorityJob} {j : Instant}
    {holder error : Str} {delay : Nat} (hrow : w.db.authority_jobs.get? job.id = some row)
    (hheld : holdsAuthority job holder job.id row = true) :
    (Ledger.watch ⟨(deferAuthority j.now (j.snapshot w.db) job holder error delay true w.db).1,
      w.issued⟩).Idle job.id
      (if directWaiterAmong (j.snapshot w.db) row = true then j.now
        else j.now + seconds (clampDelay delay)) := by
  have hstep : w.toLedger.Step
      ⟨(deferAuthority j.now (j.snapshot w.db) job holder error delay true w.db).1, w.issued⟩ :=
    .call j (.deferAuthority job holder error delay true) _ _ (fun _ _ hu => by cases hu) rfl
  refine ⟨Ledger.Reachable.pending (Relation.ReflTransGen.tail hl hstep), fun h => (by cases h), fun _ => ?_⟩
  exact ⟨_, updateAuthority_get? hrow hheld, rfl, rfl⟩

end

/-- Over every run from a claim that the row still honours: a failure retries at once
if something arrived since the claim, and backs off in full if nothing roused the
row; an enqueued direct event waits on the row; and a deferral leaves the row available
at once for an event that waits in the snapshot of its update, and at the event's own
time for one that arrives after it, until the row is claimed again. -/
theorem wakeups_are_kept {l : Ledger} (hl : l.Reachable) {i : Instant} {owner : Str} {lease_seconds : Nat}
    {prio : Bool} {db : Db} {job : ClaimedAuthorityJob}
    (hclaim : claimAuthority i.now i.authority_locked owner lease_seconds prio l.db = (db, some job))
    {w : Watch} (hw : (Ledger.watch ⟨db, l.issued⟩).Steps job.id w) {row : AuthorityJob}
    (hrow : w.db.authority_jobs.get? job.id = some row) {holder : Str}
    (hheld : holdsAuthority job holder job.id row = true) (j : Instant) :
    (∀ (error : Str) (max_delay_seconds minimum_delay_seconds : Nat), ∃ row',
      (failAuthority j.now job holder error max_delay_seconds minimum_delay_seconds
        w.db).authority_jobs.get? job.id = some row' ∧
      row'.state = .pending ∧ row'.lease_owner = none ∧
      (w.arrived = true → row'.available_at = j.now) ∧
      (w.roused = none → row'.available_at = j.now +
        seconds (max 1 (min max_delay_seconds (max minimum_delay_seconds (2 ^ min job.attempts 30)))))) ∧
    (∀ (c : Call) (a : c.Answer) (db' : Db) (request : JobRequest), c.run j w.db = .ok (db', a) →
      c.evaluationEnqueued w.db a = some request → row.blocksDirect request = true →
      ∃ row', db'.authority_jobs.get? job.id = some row' ∧ holdsAuthority job holder job.id row' = true ∧
        authorityDirectWaiter db' row' = true) ∧
    ∀ (error : Str) (delay_seconds : Nat) (w' : Watch),
      (Ledger.watch ⟨(deferAuthority j.now (j.snapshot w.db) job holder error delay_seconds true w.db).1,
        w.issued⟩).Steps job.id w' → w'.claimed = false →
      ∃ row', w'.db.authority_jobs.get? job.id = some row' ∧ row'.state = .pending ∧
        row'.lease_owner = none ∧
        (w'.arrived = true → w'.roused = some row'.available_at) ∧
        (directWaiterAmong (j.snapshot w.db) row = true →
          row'.available_at = w'.roused.getD j.now) := by
  obtain ⟨hreach, hstart⟩ := held_of_claim hl hclaim
  have hinv := hstart.run hw
  have hreach := hw.reachable hreach
  obtain ⟨-, hgen, -⟩ := holdsAuthority_eq_true.mp hheld
  refine ⟨?_, ?_, ?_⟩
  · intro error max_delay_seconds minimum_delay_seconds
    refine ⟨_, updateAuthority_get? hrow hheld, rfl, rfl, ?_, ?_⟩
    · intro harrived
      have hcount := (hinv.counter row hrow).resolve_left (by omega)
      exact if_pos (hcount.2.2 (hinv.arrived harrived))
    · intro hquiet
      have hcount := (hinv.counter row hrow).resolve_left (by omega)
      refine if_neg ?_
      rw [hcount.2.1 hquiet]
      exact lt_irrefl _
  · intro c a db' request hr he hblocks
    have hbeat := beat_run hinv.pending hr hrow
    have hrouses : c.rouses a w.db row = true := by
      simp [Call.rouses, Call.arrivesAt, he, hblocks]
    obtain ⟨hwork, hcovers⟩ := Bool.and_eq_true _ _ ▸ hblocks
    have hawaits := awaits_run hreach.inv.coherent hr he (of_decide_eq_true hwork)
    generalize db'.authority_jobs.get? job.id = o at hbeat ⊢
    cases hbeat with
    | roused row' hyes hroused =>
      refine ⟨row', rfl, ?_, ?_⟩
      · rw [holdsAuthority_eq_true] at hheld ⊢
        exact ⟨rfl, hroused.scope.generation.trans hheld.2.1, hroused.scope.lease_owner.trans hheld.2.2⟩
      · refine hawaits.directWaiter ?_ ?_
        · exact hroused.scope.base_ref.trans (hinv.pending.fresh job.id row hrow).2
        · simpa [AuthorityJob.covers, hroused.scope.installation_id, hroused.scope.scope_key] using hcovers
    | kept hno | claimed _ _ hno | handled _ hno => rw [hno] at hrouses; cases hrouses
  · intro error delay_seconds w' hw' hclaimed
    have hidle := (idle_of_defer hreach hrow hheld).run hw'
    obtain ⟨row', hrow', hlease, hat⟩ := hidle.row hclaimed
    refine ⟨row', hrow', hidle.pending.pending job.id row' hrow', hlease, ?_, ?_⟩
    · intro harrived
      obtain ⟨t, ht⟩ := Option.ne_none_iff_exists'.mp (hidle.arrived harrived)
      rw [ht] at hat ⊢
      exact congrArg some hat.symm
    · intro hwaits
      rw [hat, if_pos hwaits]

/-- One call of a run; a call that raises leaves it alone. -/
def Watch.next (id : Nat) (w : Watch) (i : Instant) (c : Call) : Watch :=
  match c.run i w.db with
  | .ok (db', a) => w.after id i c a db'
  | .error _ => w

theorem Watch.Steps.next {id : Nat} {w w' : Watch} (h : w.Steps id w') (i : Instant) (c : Call)
    (hc : ∀ job owner, c.claimUsed = some (job, owner) → job ∈ w'.issued) :
    w.Steps id (w'.next id i c) := by
  unfold Watch.next
  cases hr : c.run i w'.db with
  | error e => exact h
  | ok r => exact h.tail (.call i c r.2 r.1 hc hr)

/-- A repository fence, before its first claim. -/
def sampleFence : Watch := Ledger.initial.watch.next 1 (sampleAt 0) (.enqueueAuthority sampleAuthorityRequest)

/-- The fence under its claim. -/
def sampleHeld (w : Watch) : Watch :=
  Ledger.watch ⟨(claimAuthority (seconds 0) (fun _ => false) "w" 60 true w.db).1, w.issued⟩

theorem sampleFence_claimed :
    claimAuthority (sampleAt 0).now (sampleAt 0).authority_locked "w" 60 true sampleFence.db =
      ((sampleHeld sampleFence).db, some samplePass) := rfl

/-- A review event arrives. -/
def sampleReviewed : Watch :=
  (sampleHeld sampleFence).next 1 (sampleAt 5)
    (.acceptDelivery "d" "pull_request_review" (some (.job sampleRequest)))

theorem sampleFence_reachable : sampleFence.Reachable :=
  Watch.Steps.reachable (.next .refl (sampleAt 0) (.enqueueAuthority sampleAuthorityRequest)
    fun _ _ h => by cases h) .refl

theorem sampleReviewed_steps : (sampleHeld sampleFence).Steps 1 sampleReviewed :=
  .next .refl (sampleAt 5) _ fun _ _ h => by cases h

/-- The failed pass is retried at once, and so is the paused one. -/
theorem sampleReviewed_keeps_wakeup :
    (∃ row', (failAuthority (seconds 9) samplePass "w" "api" 60 30
        sampleReviewed.db).authority_jobs.get? 1 = some row' ∧ row'.available_at = seconds 9) ∧
      ∃ row', (deferAuthority (seconds 9) sampleReviewed.db.evaluation_jobs samplePass "w"
        "reserve" 600 true sampleReviewed.db).1.authority_jobs.get? 1 = some row' ∧ row'.available_at = seconds 9 := by
  obtain ⟨hfail, -, hdefer⟩ := wakeups_are_kept sampleFence_reachable sampleFence_claimed
    sampleReviewed_steps rfl (holdsAuthority_eq_true.mpr ⟨rfl, rfl, rfl⟩) (sampleAt 9)
  refine ⟨?_, ?_⟩
  · obtain ⟨row', hrow', -, -, hnow, -⟩ := hfail "api" 60 30
    exact ⟨row', hrow', hnow rfl⟩
  · obtain ⟨row', hrow', -, -, -, hnow⟩ := hdefer "reserve" 600 _ .refl rfl
    exact ⟨row', hrow', hnow rfl⟩

/-! ## Where an arrival is neither needed nor enough -/

/-- A direct event is under evaluation when the fence comes. -/
def sampleEvaluating : Watch :=
  ((((Ledger.initial.watch.next 1 (sampleAt 0)
      (.acceptDelivery "d" "pull_request" (some (.job sampleRequest)))).next 1 (sampleAt 0)
    (.claimSharedHeadInvalidation "w" 30 none)).next 1 (sampleAt 0)
    (.completeSharedHeadInvalidation sampleInvalidation)).next 1 (sampleAt 0)
    (.claim "w" 30 none true)).next 1 (sampleAt 0) (.enqueueAuthority sampleAuthorityRequest)

theorem sampleEvaluating_reachable : sampleEvaluating.Reachable := by
  have h₀ : Ledger.initial.watch.Steps 1 Ledger.initial.watch := .refl
  have h₁ := h₀.next (sampleAt 0) (.acceptDelivery "d" "pull_request" (some (.job sampleRequest)))
    fun _ _ h => by cases h
  have h₂ := h₁.next (sampleAt 0) (.claimSharedHeadInvalidation "w" 30 none) fun _ _ h => by cases h
  have h₃ := h₂.next (sampleAt 0) (.completeSharedHeadInvalidation sampleInvalidation)
    fun _ _ h => by cases h
  have h₄ := h₃.next (sampleAt 0) (.claim "w" 30 none true) fun _ _ h => by cases h
  have h₅ := h₄.next (sampleAt 0) (.enqueueAuthority sampleAuthorityRequest) fun _ _ h => by cases h
  exact h₅.reachable .refl

/-- The evaluation observes its base. -/
def sampleObserved : Watch :=
  (sampleHeld sampleEvaluating).next 1 (sampleAt 5) (.observeEvaluationBase sampleClaim "main")

theorem sampleObserved_steps : (sampleHeld sampleEvaluating).Steps 1 sampleObserved := by
  refine .next .refl (sampleAt 5) _ fun job owner h => ?_
  cases h
  have hissued : sampleEvaluating.issued = [sampleClaim] := rfl
  exact hissued ▸ List.mem_singleton_self _

/-- Another worker takes the fence over when its lease has run out, and fails. -/
def sampleTakenOver : Watch :=
  let claimed := sampleReviewed.next 1 (sampleAt 61) (.claimAuthority "v" 60 true)
  claimed.next 1 (sampleAt 62) (.failAuthority
    { samplePass with
      generation := 2
      attempts := 2
      lease_owner := "v"
      interactive_wake_generation := 1 } "v" "api" 60 30)

theorem sampleTakenOver_steps : (sampleHeld sampleFence).Steps 1 sampleTakenOver := by
  have h₁ := sampleReviewed_steps.next (sampleAt 61) (.claimAuthority "v" 60 true) fun _ _ h => by cases h
  unfold sampleTakenOver
  refine h₁.next (sampleAt 62) _ ?_
  intro _ _ h
  cases h

/-- A failed pass is retried at once although nothing arrived, since an evaluation
observed its base; the failure of a claim that another has replaced leaves the row in
its backoff although a review arrived under that claim; and a deferral whose update
waits for the row while a review is accepted leaves it in its backoff, since the
snapshot of the update is older than the review. -/
theorem wakeups_beyond_arrivals :
    (sampleEvaluating.Reachable ∧
      claimAuthority (seconds 0) (fun _ => false) "w" 60 true sampleEvaluating.db =
        ((sampleHeld sampleEvaluating).db, some samplePass) ∧
      (sampleHeld sampleEvaluating).Steps 1 sampleObserved ∧ sampleObserved.arrived = false ∧
      ((failAuthority (seconds 9) samplePass "w" "api" 60 30 sampleObserved.db).authority_jobs.get?
        1).map (·.available_at) = some (seconds 9)) ∧
    sampleFence.Reachable ∧
      claimAuthority (seconds 0) (fun _ => false) "w" 60 true sampleFence.db =
        ((sampleHeld sampleFence).db, some samplePass) ∧
      (sampleHeld sampleFence).Steps 1 sampleTakenOver ∧ sampleTakenOver.arrived = true ∧
      ((failAuthority (seconds 63) samplePass "w" "api" 60 30 sampleTakenOver.db).authority_jobs.get?
        1).map (·.available_at) = some (seconds 92) ∧
      (sampleHeld sampleFence).Steps 1 sampleReviewed ∧
      (sampleReviewed.db.authority_jobs.get? 1).map (authorityDirectWaiter sampleReviewed.db) = some true ∧
      ((deferAuthority (seconds 9) (sampleHeld sampleFence).db.evaluation_jobs samplePass "w"
        "reserve" 600 true sampleReviewed.db).1.authority_jobs.get? 1).map (·.available_at) =
          some (seconds 609) :=
  ⟨⟨sampleEvaluating_reachable, rfl, sampleObserved_steps, rfl, rfl⟩,
    sampleFence_reachable, rfl, sampleTakenOver_steps, rfl, rfl, sampleReviewed_steps, rfl, rfl⟩

end ExtraCodeowners
