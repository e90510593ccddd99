import ExtraCodeowners.Store

/-!
# What a call does to an authority row

One inversion lemma for every call of the store: what may become of the
authority row of an id, with the guard under which it happens. It holds for
any token, held or not.
-/

namespace ExtraCodeowners

/-- Fresh identities, and rows of whole scopes only. -/
def AuthorityFresh (db : Db) : Prop :=
  ∀ id row, db.authority_jobs.get? id = some row → id < db.next_authority_job ∧ row.base_ref = []

/-- The authority requests a call brings. -/
def Call.authorityPresented : Call → List AuthorityRequest
  | .acceptDelivery _ _ (some (.authority request)) => [request]
  | .enqueueAuthority request => [request]
  | .advanceInstallationAuthorityPage _ requests _ _ => requests
  | _ => []

/-- The row of the first request of a scope. -/
def firstAuthorityJob (now : Time) (request : AuthorityRequest) : AuthorityJob :=
  newAuthorityJob now request
    (match targetRef request with
      | none => ∅
      | some ref => Dict.empty.set ref request.reason)

/-- Requests that arrive on a row one after another. -/
def coalescedAll (now : Time) (requests : List AuthorityRequest) (row : AuthorityJob) : AuthorityJob :=
  requests.foldl (fun row request => coalescedAuthorityJob now request row) row

def AuthorityJob.woken (row : AuthorityJob) (now : Time) : AuthorityJob :=
  { row with
    available_at := now
    interactive_wake_generation := row.interactive_wake_generation + 1 }

def AuthorityJob.advanced (row : AuthorityJob) (number : Nat)
    (handled_pull_fingerprints : Option (Dict Str Str)) (listing_next_page listing_last_number : Option Nat) :
    AuthorityJob :=
  { row with
    pull_cursor_number := if row.pull_cursor_number < number then number else row.pull_cursor_number
    handled_pull_fingerprints := handled_pull_fingerprints.getD row.handled_pull_fingerprints
    listing_next_page := listing_next_page.getD row.listing_next_page
    listing_last_number := listing_last_number.getD row.listing_last_number }

inductive AuthorityChange (i : Instant) (c : Call) (db db' : Db) (id : Nat) :
    Option AuthorityJob → Option AuthorityJob → Prop where
  | kept (o : Option AuthorityJob) : AuthorityChange i c db db' id o o
  | inserted (request : AuthorityRequest) (rest : List AuthorityRequest) :
      db.next_authority_job ≤ id → id < db'.next_authority_job →
      (∀ r ∈ request :: rest, r ∈ c.authorityPresented ∧
        isForAuthority r (firstAuthorityJob i.now request) = true) →
      (∀ id' row, db.authority_jobs.get? id' = some row → isForAuthority request row = false) →
      AuthorityChange i c db db' id none (some (coalescedAll i.now rest (firstAuthorityJob i.now request)))
  | coalesced (row : AuthorityJob) (requests : List AuthorityRequest) :
      (∀ r ∈ requests, r ∈ c.authorityPresented ∧ isForAuthority r row = true) →
      AuthorityChange i c db db' id (some row) (some (coalescedAll i.now requests row))
  | woken (row : AuthorityJob) (request : JobRequest) : wakes request row = true →
      AuthorityChange i c db db' id (some row) (some (row.woken i.now))
  | claimed (row : AuthorityJob) (owner : Str) (lease_seconds : Nat) (prioritize_interactive : Bool) :
      c = .claimAuthority owner lease_seconds prioritize_interactive →
      isClaimableAuthority i.now db row = true →
      AuthorityChange i c db db' id (some row) (some (row.claimed owner (i.now + seconds lease_seconds)))
  | renewed (row : AuthorityJob) (job : ClaimedAuthorityJob) (lease_seconds : Nat) :
      c = .renewAuthorityClaim job lease_seconds → holdsAuthority job job.lease_owner id row = true →
      AuthorityChange i c db db' id (some row)
        (some { row with lease_until := some (i.now + seconds lease_seconds) })
  | advanced (row : AuthorityJob) (job : ClaimedAuthorityJob) (number : Nat)
      (fingerprints : Option (Dict Str Str)) (next_page last_number : Option Nat) :
      c = .advanceAuthorityCursor job number fingerprints next_page last_number →
      holdsAuthorityLease i.now job id row = true →
      AuthorityChange i c db db' id (some row)
        (some (row.advanced number fingerprints next_page last_number))
  | paged (row : AuthorityJob) (job : ClaimedAuthorityJob) (requests : List AuthorityRequest)
      (next_page : Nat) (expected_total : Option Nat) :
      c = .advanceInstallationAuthorityPage job requests next_page expected_total →
      holdsAuthorityLease i.now job id row = true →
      AuthorityChange i c db db' id (some row)
        (some { coalescedAll i.now (requests.filter (isForAuthority · row)) row with
          listing_next_page := next_page
          listing_expected_total := expected_total })
  | membership (row : AuthorityJob) (job : ClaimedAuthorityJob) (next_page : Nat)
      (expected_total : Option Nat) :
      c = .advanceAuthorityMembershipPage job next_page expected_total →
      holdsAuthorityLease i.now job id row = true →
      AuthorityChange i c db db' id (some row)
        (some { row with
          membership_next_page := next_page
          membership_expected_total := expected_total })
  | restarted (row : AuthorityJob) (job : ClaimedAuthorityJob) (owner : Str) :
      c = .completeAuthority job owner → holdsAuthority job owner id row = true → row.hasPending = true →
      AuthorityChange i c db db' id (some row) (some (row.restarted i.now))
  | completed (row : AuthorityJob) (job : ClaimedAuthorityJob) (owner : Str) :
      c = .completeAuthority job owner → holdsAuthority job owner id row = true →
      row.hasPending = false → AuthorityChange i c db db' id (some row) none
  | failed (row : AuthorityJob) (job : ClaimedAuthorityJob) (owner error : Str)
      (max_delay_seconds minimum_delay_seconds : Nat) (available_at : Time) :
      c = .failAuthority job owner error max_delay_seconds minimum_delay_seconds →
      holdsAuthority job owner id row = true →
      AuthorityChange i c db db' id (some row)
        (some { row with
          state := .pending
          available_at := available_at
          lease_owner := none
          lease_until := none
          last_error := some (error.take 2000) })
  | deferred (row : AuthorityJob) (job : ClaimedAuthorityJob) (owner error : Str) (delay_seconds : Nat)
      (preserve_direct_wakeup : Bool) (available_at : Time) :
      c = .deferAuthority job owner error delay_seconds preserve_direct_wakeup →
      holdsAuthority job owner id row = true →
      AuthorityChange i c db db' id (some row)
        (some { row with
          attempts := row.attempts - 1
          available_at := available_at
          lease_owner := none
          lease_until := none
          last_error := some (error.take 2000) })

/-- Every row, and no identity used again. -/
structure AuthorityChanges (i : Instant) (c : Call) (db db' : Db) : Prop where
  next : db.next_authority_job ≤ db'.next_authority_job
  rows : ∀ id, AuthorityChange i c db db' id (db.authority_jobs.get? id) (db'.authority_jobs.get? id)

theorem AuthorityChanges.same {i : Instant} {c : Call} {db db' : Db}
    (hj : db'.authority_jobs = db.authority_jobs) (hn : db'.next_authority_job = db.next_authority_job) :
    AuthorityChanges i c db db' := ⟨hn.ge, fun _ => hj ▸ .kept _⟩

theorem holdsAuthority_eq_true {job : ClaimedAuthorityJob} {owner : Str} {id : Nat} {row : AuthorityJob} :
    holdsAuthority job owner id row = true ↔
      id = job.id ∧ row.generation = job.generation ∧ row.lease_owner = some owner := by
  simp [holdsAuthority, and_assoc]

theorem isForAuthority_iff {request : AuthorityRequest} {row : AuthorityJob} :
    isForAuthority request row = true ↔ row.installation_id = request.installation_id ∧
      row.scope_key = request.scopeKey ∧ row.base_ref = [] := by
  simp [isForAuthority, and_assoc]

/-! ## Coalescing -/

/-- What no request changes on a row. -/
structure SameScope (row row' : AuthorityJob) : Prop where
  installation_id : row'.installation_id = row.installation_id
  scope_key : row'.scope_key = row.scope_key
  base_ref : row'.base_ref = row.base_ref
  generation : row'.generation = row.generation
  lease_owner : row'.lease_owner = row.lease_owner
  lease_until : row'.lease_until = row.lease_until

theorem sameScope_coalesced (now : Time) (request : AuthorityRequest) (row : AuthorityJob) :
    SameScope row (coalescedAuthorityJob now request row) := by
  unfold coalescedAuthorityJob
  simp only
  split
  · exact ⟨rfl, rfl, rfl, rfl, rfl, rfl⟩
  · split
    · exact ⟨rfl, rfl, rfl, rfl, rfl, rfl⟩
    · split
      · exact ⟨rfl, rfl, rfl, rfl, rfl, rfl⟩
      · split <;> exact ⟨rfl, rfl, rfl, rfl, rfl, rfl⟩

theorem SameScope.isForAuthority {row row' : AuthorityJob} (h : SameScope row row')
    (request : AuthorityRequest) : isForAuthority request row' = isForAuthority request row := by
  simp [ExtraCodeowners.isForAuthority, h.installation_id, h.scope_key, h.base_ref]

theorem sameScope_coalescedAll (now : Time) (requests : List AuthorityRequest) :
    ∀ row, SameScope row (coalescedAll now requests row) := by
  induction requests with
  | nil => intro row; exact ⟨rfl, rfl, rfl, rfl, rfl, rfl⟩
  | cons request requests ih =>
    intro row
    have h₁ := sameScope_coalesced now request row
    have h₂ := ih (coalescedAuthorityJob now request row)
    exact ⟨h₂.installation_id.trans h₁.installation_id, h₂.scope_key.trans h₁.scope_key,
      h₂.base_ref.trans h₁.base_ref, h₂.generation.trans h₁.generation,
      h₂.lease_owner.trans h₁.lease_owner, h₂.lease_until.trans h₁.lease_until⟩

theorem SameScope.holdsAuthorityLease {row row' : AuthorityJob} (h : SameScope row row') (now : Time)
    (job : ClaimedAuthorityJob) (id : Nat) :
    holdsAuthorityLease now job id row' = holdsAuthorityLease now job id row := by
  simp [ExtraCodeowners.holdsAuthorityLease, holdsAuthority, h.generation, h.lease_owner, h.lease_until]

section
variable {i : Instant} {c : Call} {db mid db' : Db} {id : Nat}

theorem get?_insertAuthority (h : AuthorityFresh db) (job : AuthorityJob) (id : Nat) :
    (db.authority_jobs.insertNew db.next_authority_job job).get? id =
      if id = db.next_authority_job then some job else db.authority_jobs.get? id := by
  refine Dict.get?_insertNew ?_ job id
  cases hg : db.authority_jobs.get? db.next_authority_job with
  | none => rfl
  | some x => exact absurd (h _ _ hg).1 (lt_irrefl _)

/-- One request: every row of its scope takes it, or a row is inserted for it. -/
theorem enqueueAuthority_get? (now : Time) (request : AuthorityRequest) (h : AuthorityFresh db) (id : Nat) :
    (∀ row, db.authority_jobs.get? id = some row →
      (enqueueAuthorityInSession now request db).authority_jobs.get? id =
        some (if isForAuthority request row then coalescedAuthorityJob now request row else row)) ∧
    (db.authority_jobs.get? id = none →
      (enqueueAuthorityInSession now request db).authority_jobs.get? id = none ∨
        (id = db.next_authority_job ∧ id < (enqueueAuthorityInSession now request db).next_authority_job ∧
          (∀ id' row, db.authority_jobs.get? id' = some row → isForAuthority request row = false) ∧
          (enqueueAuthorityInSession now request db).authority_jobs.get? id =
            some (firstAuthorityJob now request))) := by
  unfold enqueueAuthorityInSession
  by_cases hany : (db.authority_jobs.any fun _ job => isForAuthority request job) = true
  · rw [if_pos hany]
    refine ⟨fun row hr => ?_, fun hr => Or.inl ?_⟩
    · rw [Dict.get?_updateWhere, hr, Option.map_some]
    · rw [Dict.get?_updateWhere, hr, Option.map_none]
  · rw [if_neg hany]
    have hno : ∀ id' row, db.authority_jobs.get? id' = some row → isForAuthority request row = false := by
      intro id' row hr
      exact Bool.eq_false_iff.mpr fun hp => hany (Dict.any_eq_true.mpr ⟨id', row, hr, hp⟩)
    simp only [get?_insertAuthority h]
    refine ⟨fun row hr => ?_, fun hr => ?_⟩
    · rw [if_neg ((h id row hr).1).ne, hno id row hr, hr]
      simp
    · by_cases hid : id = db.next_authority_job
      · right
        rw [if_pos hid]
        exact ⟨hid, hid ▸ Nat.lt_succ_self _, hno, rfl⟩
      · left
        rw [if_neg hid, hr]

theorem next_enqueueAuthority (now : Time) (request : AuthorityRequest) :
    db.next_authority_job ≤ (enqueueAuthorityInSession now request db).next_authority_job := by
  unfold enqueueAuthorityInSession
  split
  · exact le_refl _
  · exact Nat.le_succ _

theorem AuthorityFresh.enqueue (h : AuthorityFresh db) (now : Time) (request : AuthorityRequest) :
    AuthorityFresh (enqueueAuthorityInSession now request db) := by
  intro id row' hr'
  obtain ⟨hsome, hnone⟩ := enqueueAuthority_get? now request h id
  cases hr : db.authority_jobs.get? id with
  | some row =>
    obtain ⟨hlt, hb⟩ := h id row hr
    rw [hsome row hr] at hr'
    refine ⟨lt_of_lt_of_le hlt (next_enqueueAuthority now request), ?_⟩
    cases hr'
    split
    · exact (sameScope_coalesced now request row).base_ref.trans hb
    · exact hb
  | none =>
    rcases hnone hr with hn | ⟨-, hlt, -, hs⟩
    · rw [hn] at hr'
      cases hr'
    · rw [hs] at hr'
      cases hr'
      exact ⟨hlt, rfl⟩

/-- The children of a page, one after another. -/
theorem foldl_enqueueAuthority_get? (now : Time) (requests : List AuthorityRequest) (id : Nat) :
    ∀ db, AuthorityFresh db →
      (∀ row, db.authority_jobs.get? id = some row →
        (requests.foldl (fun db request => enqueueAuthorityInSession now request db) db).authority_jobs.get? id
          = some (coalescedAll now (requests.filter (isForAuthority · row)) row)) ∧
      (db.authority_jobs.get? id = none →
        (requests.foldl (fun db request => enqueueAuthorityInSession now request db) db).authority_jobs.get? id
            = none ∨
          ∃ request rest,
            db.next_authority_job ≤ id ∧
            id < (requests.foldl (fun db request => enqueueAuthorityInSession now request db) db).next_authority_job ∧
            (∀ r ∈ request :: rest, r ∈ requests ∧
              isForAuthority r (firstAuthorityJob now request) = true) ∧
            (∀ id' row, db.authority_jobs.get? id' = some row → isForAuthority request row = false) ∧
            (requests.foldl (fun db request => enqueueAuthorityInSession now request db) db).authority_jobs.get? id
              = some (coalescedAll now rest (firstAuthorityJob now request))) ∧
      db.next_authority_job ≤
        (requests.foldl (fun db request => enqueueAuthorityInSession now request db) db).next_authority_job := by
  induction requests with
  | nil => intro db _; exact ⟨fun _ hr => hr, fun hr => Or.inl hr, le_refl _⟩
  | cons request requests ih =>
    intro db h
    obtain ⟨hsome, hnone⟩ := enqueueAuthority_get? now request h id
    obtain ⟨ihs, ihn, ihle⟩ := ih _ (h.enqueue now request)
    have hle := @next_enqueueAuthority db now request
    refine ⟨fun row hr => ?_, fun hr => ?_, hle.trans ihle⟩
    · rw [List.foldl_cons, ihs _ (hsome row hr), List.filter_cons]
      by_cases hp : isForAuthority request row = true
      · simp only [hp, if_true, (sameScope_coalesced now request row).isForAuthority]
        rfl
      · simp only [hp]
        rfl
    · rw [List.foldl_cons]
      rcases hnone hr with hn | ⟨hid, hlt, hno, hs⟩
      · rcases ihn hn with hn' | ⟨r, rest, hge, hlt, hmem, hno, hs⟩
        · exact Or.inl hn'
        · refine Or.inr ⟨r, rest, hle.trans hge, hlt, ?_, ?_, hs⟩
          · intro x hx
            exact ⟨List.mem_cons_of_mem _ (hmem x hx).1, (hmem x hx).2⟩
          · intro id' row hrow
            have hnew := (enqueueAuthority_get? now request h id').1 row hrow
            have := hno id' _ hnew
            split at this
            · rwa [(sameScope_coalesced now request row).isForAuthority] at this
            · exact this
      · refine Or.inr ⟨request, requests.filter (isForAuthority · (firstAuthorityJob now request)),
          hid.ge, lt_of_lt_of_le hlt ihle, ?_, hno, ihs _ hs⟩
        intro x hx
        rcases List.mem_cons.mp hx with rfl | hx
        · exact ⟨List.mem_cons_self, isForAuthority_iff.mpr ⟨rfl, rfl, rfl⟩⟩
        · obtain ⟨hx, hp⟩ := List.mem_filter.mp hx
          exact ⟨List.mem_cons_of_mem _ hx, hp⟩

/-! ## Calls on evaluations -/

/-- The authority rows are as before, or those that cover a request are woken. -/
structure OnlyWakes (now : Time) (db db' : Db) : Prop where
  next : db'.next_authority_job = db.next_authority_job
  jobs : db'.authority_jobs = db.authority_jobs ∨ ∃ request, db'.authority_jobs =
    db.authority_jobs.updateWhere (fun _ job => wakes request job) (·.woken now)

theorem OnlyWakes.same {now : Time} (hj : db'.authority_jobs = db.authority_jobs)
    (hn : db'.next_authority_job = db.next_authority_job) : OnlyWakes now db db' := ⟨hn, Or.inl hj⟩

theorem OnlyWakes.rebase {now : Time} (h : OnlyWakes now mid db')
    (hj : mid.authority_jobs = db.authority_jobs) (hn : mid.next_authority_job = db.next_authority_job) :
    OnlyWakes now db db' := ⟨h.next.trans hn, hj ▸ h.jobs⟩

theorem OnlyWakes.changes (h : OnlyWakes i.now db db') : AuthorityChanges i c db db' := by
  refine ⟨h.next.ge, fun id => ?_⟩
  rcases h.jobs with hj | ⟨request, hj⟩
  · rw [hj]
    exact .kept _
  · rw [hj, Dict.get?_updateWhere]
    cases db.authority_jobs.get? id with
    | none => exact .kept _
    | some row =>
      simp only [Option.map_some]
      split
      · rename_i hw
        exact .woken row request hw
      · exact .kept _

section
variable {now : Time} {request : JobRequest}

theorem onlyWakes_wake (request : JobRequest) (hj : mid.authority_jobs = db.authority_jobs)
    (hn : mid.next_authority_job = db.next_authority_job) :
    OnlyWakes now db (wakeAuthorityForInteractive now request mid) := by
  unfold wakeAuthorityForInteractive
  split
  · exact ⟨hn, Or.inr ⟨request, by rw [hj]; rfl⟩⟩
  · exact .same hj hn

theorem onlyWakes_enqueueInSession {delivery_id : Option Str} {g : Nat} {pd pw : Bool} :
    OnlyWakes now db (enqueueInSession now request delivery_id g pd pw db) := by
  unfold enqueueInSession
  split
  · exact onlyWakes_wake request rfl rfl
  · split
    · exact .same rfl rfl
    · exact onlyWakes_wake request rfl rfl

theorem onlyWakes_insertIfAbsent {g : Nat} (hj : mid.authority_jobs = db.authority_jobs)
    (hn : mid.next_authority_job = db.next_authority_job) :
    OnlyWakes now db (insertIfAbsent now request g db mid).1 := by
  unfold insertIfAbsent
  split
  · exact .same rfl rfl
  · exact .same hj hn

theorem onlyWakes_releaseClaim {job : ClaimedJob} {owner : Str} {revocation : Option JobRequest}
    {values : EvaluationJob → EvaluationJob} :
    OnlyWakes now db (releaseClaimInSession now job owner revocation values db).1 := by
  unfold releaseClaimInSession
  split
  · simp only
    split <;> exact .same rfl rfl
  · exact .same rfl rfl

theorem onlyWakes_enqueueSharedHeadTrigger (hr : enqueueSharedHeadTrigger now request db = .ok db') :
    OnlyWakes now db db' := by
  unfold enqueueSharedHeadTrigger at hr
  split at hr
  · cases hr
  · cases hr
    exact onlyWakes_enqueueInSession.rebase rfl rfl

theorem onlyWakes_enqueue (hr : enqueue now request db = .ok db') : OnlyWakes now db db' := by
  unfold enqueue at hr
  split at hr
  · exact onlyWakes_enqueueSharedHeadTrigger hr
  · cases hr
    exact onlyWakes_enqueueInSession

theorem onlyWakes_enqueueForSharedHeadGeneration {g : Nat} {answer : Bool}
    (hr : enqueueForSharedHeadGeneration now request g db = .ok (db', answer)) :
    OnlyWakes now db db' := by
  unfold enqueueForSharedHeadGeneration at hr
  split at hr
  · cases hr
  · split at hr
    · cases hr
    · split at hr
      · cases hr; exact .same rfl rfl
      · split at hr
        · cases hr; exact .same rfl rfl
        · cases hr; exact onlyWakes_enqueueInSession

theorem onlyWakes_observeState (h : OnlyWakes now db db') : OnlyWakes now db (observeState now request db') :=
  ⟨h.next, h.jobs⟩

theorem onlyWakes_enqueueReconciliationIfDue {recheck_seconds : Nat} {answer : Bool}
    (hr : enqueueReconciliationIfDue now request recheck_seconds db = .ok (db', answer)) :
    OnlyWakes now db db' := by
  unfold enqueueReconciliationIfDue at hr
  split at hr
  · cases hr
  split at hr
  · cases hr
  · cases hr
  split at hr
  · cases hr
  split at hr
  · split at hr
    · cases hr; exact .same rfl rfl
    · cases hr
      exact onlyWakes_observeState (onlyWakes_enqueueInSession.rebase rfl rfl)
  · split at hr
    · split at hr
      · cases hr; exact .same rfl rfl
      · injection hr with hr
        rw [← (Prod.mk.inj hr).1]
        exact onlyWakes_insertIfAbsent rfl rfl
    · injection hr with hr
      rw [← (Prod.mk.inj hr).1]
      exact onlyWakes_insertIfAbsent rfl rfl

theorem onlyWakes_observeEvaluationBase {job : ClaimedJob} {base_ref : Str} :
    OnlyWakes now db (observeEvaluationBase now job base_ref db).1 := by
  unfold observeEvaluationBase
  generalize (if isBaseRefHint base_ref then some base_ref else none) = hint
  simp only
  split
  · simp only
    split
    · exact onlyWakes_wake _ rfl rfl
    · exact .same rfl rfl
  · exact .same rfl rfl

end

/-! ## Calls on authority rows -/

theorem authorityChange_enqueue {request : AuthorityRequest} (h : AuthorityFresh mid)
    (hc : request ∈ c.authorityPresented) (hj : mid.authority_jobs = db.authority_jobs)
    (hn : mid.next_authority_job = db.next_authority_job) :
    AuthorityChanges i c db (enqueueAuthorityInSession i.now request mid) := by
  refine ⟨hn ▸ next_enqueueAuthority i.now request, fun id => ?_⟩
  obtain ⟨hsome, hnone⟩ := enqueueAuthority_get? i.now request h id
  rw [← hj]
  cases hr : mid.authority_jobs.get? id with
  | some row =>
    rw [hsome row hr]
    by_cases hp : isForAuthority request row = true
    · rw [if_pos hp]
      refine .coalesced row [request] ?_
      intro r hm
      rw [List.mem_singleton.mp hm]
      exact ⟨hc, hp⟩
    · rw [if_neg hp]
      exact .kept _
  | none =>
    rcases hnone hr with hn' | ⟨hid, hlt, hno, hs⟩
    · rw [hn']
      exact .kept _
    · rw [hs]
      refine .inserted request [] (hn ▸ hid.ge) hlt ?_ (hj ▸ hno)
      intro r hm
      rw [List.mem_singleton.mp hm]
      exact ⟨hc, isForAuthority_iff.mpr ⟨rfl, rfl, rfl⟩⟩

theorem authorityChange_acceptDelivery (h : AuthorityFresh db) {delivery_id event : Str}
    {request : Option DeliveryRequest} {answer : DeliveryAcceptance}
    (hr : acceptDelivery i.now delivery_id event request db = .ok (db', answer)) :
    AuthorityChanges i (.acceptDelivery delivery_id event request) db db' := by
  unfold acceptDelivery at hr
  split at hr
  · rename_i delivery _
    cases hp : replayDelivery event request delivery with
    | error e => simp [hp, Except.map] at hr
    | ok a =>
      simp only [hp, Except.map] at hr
      cases hr
      exact .same rfl rfl
  · match request with
    | none =>
      cases hr
      exact .same rfl rfl
    | some (.authority request) =>
      simp only at hr
      injection hr with hr
      rw [← (Prod.mk.inj hr).1]
      split
      · exact authorityChange_enqueue h (List.mem_singleton_self _) rfl rfl
      · exact authorityChange_enqueue h (List.mem_singleton_self _) rfl rfl
    | some (.job request) =>
      simp only at hr
      split at hr
      · cases hr
      · injection hr with hr
        rw [← (Prod.mk.inj hr).1]
        refine OnlyWakes.changes ?_
        exact onlyWakes_enqueueInSession.rebase rfl rfl

theorem authorityChange_claim {owner : Str} {lease_seconds : Nat} {prio : Bool} :
    AuthorityChanges i (.claimAuthority owner lease_seconds prio) db
      (claimAuthority i.now i.authority_locked owner lease_seconds prio db).1 := by
  unfold claimAuthority
  split
  · exact .same rfl rfl
  · rename_i id' row hsel
    refine ⟨le_refl _, fun id => ?_⟩
    obtain ⟨hrow, hp⟩ := Dict.select_some hsel
    simp only [Dict.get?_set]
    by_cases hid : id = id'
    · subst hid
      rw [if_pos rfl, hrow]
      exact .claimed row owner lease_seconds prio rfl (Bool.and_eq_true _ _ ▸ hp).2
    · rw [if_neg hid]
      exact .kept _

/-- A rewrite of the row that a token names. -/
theorem authorityChange_update {p : Nat → AuthorityJob → Bool} {f : AuthorityJob → AuthorityJob}
    (h : ∀ id row, p id row = true →
      AuthorityChange i c db (updateAuthority p f db).1 id (some row) (some (f row))) :
    AuthorityChanges i c db (updateAuthority p f db).1 := by
  refine ⟨le_refl _, fun id => ?_⟩
  simp only [updateAuthority, Dict.get?_updateWhere]
  cases db.authority_jobs.get? id with
  | none => exact .kept _
  | some row =>
    simp only [Option.map_some]
    split
    · rename_i hp
      exact h id row hp
    · exact .kept _

theorem authorityChange_page (h : AuthorityFresh db) {job : ClaimedAuthorityJob}
    {requests : List AuthorityRequest} {next_page : Nat} {expected_total : Option Nat} {answer : Bool}
    (hr : advanceInstallationAuthorityPage i.now job requests next_page expected_total db =
      .ok (db', answer)) :
    AuthorityChanges i (.advanceInstallationAuthorityPage job requests next_page expected_total) db db' := by
  unfold advanceInstallationAuthorityPage at hr
  split at hr
  · cases hr
  split at hr
  · cases hr
  split at hr
  swap
  · cases hr
    exact .same rfl rfl
  injection hr with hr
  rw [← (Prod.mk.inj hr).1]
  refine ⟨(foldl_enqueueAuthority_get? i.now requests 0 db h).2.2, fun id => ?_⟩
  obtain ⟨hsome, hnone, -⟩ := foldl_enqueueAuthority_get? i.now requests id db h
  simp only [Dict.get?_updateWhere]
  cases hrow : db.authority_jobs.get? id with
  | some row =>
    rw [hsome row hrow, Option.map_some,
      (sameScope_coalescedAll i.now _ row).holdsAuthorityLease i.now job id]
    by_cases hp : holdsAuthorityLease i.now job id row = true
    · rw [if_pos hp]
      exact .paged row job requests next_page expected_total rfl hp
    · rw [if_neg hp]
      refine .coalesced row _ ?_
      intro r hm
      exact ⟨(List.mem_filter.mp hm).1, (List.mem_filter.mp hm).2⟩
  | none =>
    rcases hnone hrow with hn | ⟨request, rest, hge, hlt, hmem, hno, hs⟩
    · rw [hn, Option.map_none]
      exact .kept _
    · rw [hs, Option.map_some, if_neg]
      · exact .inserted request rest hge hlt hmem hno
      · -- a row that was just inserted is not leased
        rw [(sameScope_coalescedAll i.now rest _).holdsAuthorityLease i.now job id]
        simp [holdsAuthorityLease, holdsAuthority, firstAuthorityJob, newAuthorityJob]

theorem authorityChange_complete {job : ClaimedAuthorityJob} {owner : Str} :
    AuthorityChanges i (.completeAuthority job owner) db (completeAuthority i.now job owner db).1 := by
  unfold completeAuthority
  cases hf : (db.authority_jobs.get? job.id).filter (holdsAuthority job owner job.id) with
  | none => exact .same rfl rfl
  | some row =>
    obtain ⟨hget, hheld⟩ := Option.filter_eq_some_iff.mp hf
    have row_eq : ∀ id row', db.authority_jobs.get? id = some row' →
        holdsAuthority job owner id row' = true → row' = row := by
      intro id row' hr' hp
      rw [(holdsAuthority_eq_true.mp hp).1, hget] at hr'
      exact (Option.some.inj hr').symm
    simp only
    by_cases hpend : row.hasPending = true
    · rw [if_pos hpend]
      refine ⟨le_refl _, fun id => ?_⟩
      simp only [Dict.get?_updateWhere]
      cases hr : db.authority_jobs.get? id with
      | none => exact .kept _
      | some row' =>
        simp only [Option.map_some]
        split
        · rename_i hp
          have he := row_eq id row' hr hp
          subst he
          exact .restarted row' job owner rfl hp hpend
        · exact .kept _
    · rw [if_neg hpend]
      refine ⟨le_refl _, fun id => ?_⟩
      simp only [Dict.get?_deleteWhere]
      cases hr : db.authority_jobs.get? id with
      | none => exact .kept _
      | some row' =>
        by_cases hp : holdsAuthority job owner id row' = true
        · have he := row_eq id row' hr hp
          subst he
          simp only [Option.filter, hp]
          exact .completed row' job owner rfl hp (by simpa using hpend)
        · simp only [Option.filter, hp]
          exact .kept _

end

/-! ## Every call -/

theorem authorityChange_run {i : Instant} {db db' : Db} (h : AuthorityFresh db) {c : Call} {a : c.Answer}
    (hr : c.run i db = .ok (db', a)) : AuthorityChanges i c db db' := by
  have of_ok : ∀ {α : Type} {x : Db × α} {a : α}, (.ok x : Except Str (Db × α)) = .ok (db', a) →
      x.1 = db' := by
    intro α x a hx
    injection hx with hx
    rw [hx]
  have of_map : ∀ {x : Except Str Db}, x.map (·, ()) = .ok (db', ()) → x = .ok db' := by
    intro x hx
    cases x with
    | error e => cases hx
    | ok y => cases hx; rfl
  cases c with
  | acceptDelivery => exact authorityChange_acceptDelivery h hr
  | enqueueAuthority =>
    rw [← of_ok hr]
    exact authorityChange_enqueue h (List.mem_singleton_self _) rfl rfl
  | enqueue => exact (onlyWakes_enqueue (of_map hr)).changes
  | enqueueSharedHeadTrigger => exact (onlyWakes_enqueueSharedHeadTrigger (of_map hr)).changes
  | enqueueForSharedHeadGeneration => exact (onlyWakes_enqueueForSharedHeadGeneration hr).changes
  | enqueueIfAbsent request =>
    rw [← of_ok hr]
    refine OnlyWakes.changes ?_
    unfold enqueueIfAbsent
    split <;> exact onlyWakes_insertIfAbsent rfl rfl
  | enqueueReconciliationIfDue => exact (onlyWakes_enqueueReconciliationIfDue hr).changes
  | observeEvaluationBase => rw [← of_ok hr]; exact onlyWakes_observeEvaluationBase.changes
  | fail => rw [← of_ok hr]; exact onlyWakes_releaseClaim.changes
  | defer => rw [← of_ok hr]; exact onlyWakes_releaseClaim.changes
  | claim =>
    rw [← of_ok hr]
    unfold claim
    split <;> exact .same rfl rfl
  | bindClaimToHead job head =>
    rw [← of_ok hr]
    unfold bindClaimToHead
    split
    · exact .same rfl rfl
    · split <;> exact .same rfl rfl
  | complete =>
    rw [← of_ok hr]
    unfold complete
    split
    · exact .same rfl rfl
    · simp only
      split <;> exact .same rfl rfl
  | claimSharedHeadInvalidation =>
    rw [← of_ok hr]
    unfold claimSharedHeadInvalidation
    split <;> exact .same rfl rfl
  | completeSharedHeadInvalidation =>
    rw [← of_ok hr]
    unfold completeSharedHeadInvalidation updateInvalidation
    simp only
    split <;> exact .same rfl rfl
  | claimAuthority => rw [← of_ok hr]; exact authorityChange_claim
  | renewAuthorityClaim job lease_seconds =>
    rw [← of_ok hr]
    refine authorityChange_update fun _ row hp => ?_
    exact .renewed row job lease_seconds rfl (Bool.and_eq_true _ _ ▸ hp).1
  | advanceAuthorityCursor job number fingerprints next_page last_number =>
    rw [← of_ok hr]
    refine authorityChange_update fun _ row hp => ?_
    exact .advanced row job number fingerprints next_page last_number rfl hp
  | advanceInstallationAuthorityPage => exact authorityChange_page h hr
  | advanceAuthorityMembershipPage job next_page expected_total =>
    rw [← of_ok hr]
    refine authorityChange_update fun _ row hp => ?_
    exact .membership row job next_page expected_total rfl hp
  | completeAuthority => rw [← of_ok hr]; exact authorityChange_complete
  | failAuthority job owner error max_delay_seconds minimum_delay_seconds =>
    rw [← of_ok hr]
    refine authorityChange_update fun _ row hp => ?_
    exact .failed row job owner error max_delay_seconds minimum_delay_seconds _ rfl hp
  | deferAuthority job owner error delay_seconds preserve =>
    rw [← of_ok hr]
    refine authorityChange_update fun _ row hp => ?_
    exact .deferred row job owner error delay_seconds preserve _ rfl hp
  | markDeliveryInvalidated | recordProviderBackpressure | renewClaim | renewSharedHeadInvalidation
  | failSharedHeadInvalidation | deferSharedHeadInvalidation | pruneDeliveries | pruneSharedHeadEpochs
  | pruneReconciliationStates => rw [← of_ok hr]; exact .same rfl rfl

/-- No call takes a row back to an earlier generation. -/
theorem AuthorityChange.succ {i : Instant} {c : Call} {db db' : Db} {id : Nat} {row row' : AuthorityJob}
    (h : AuthorityChange i c db db' id (some row) (some row')) : row.generation ≤ row'.generation := by
  cases h with
  | kept | woken | renewed | advanced | membership | failed | deferred => exact le_refl _
  | coalesced _ requests => exact (sameScope_coalescedAll i.now requests row).generation.ge
  | paged => exact (sameScope_coalescedAll i.now _ row).generation.ge
  | restarted => exact Nat.le_succ _
  | claimed =>
    simp only [AuthorityJob.claimed]
    split
    · exact Nat.le_succ _
    · exact le_refl _

theorem AuthorityChange.inserted_at {i : Instant} {c : Call} {db db' : Db} {id : Nat}
    {o : Option AuthorityJob} {row' : AuthorityJob} (h : AuthorityChange i c db db' id o (some row'))
    (hlt : id < db.next_authority_job) : ∃ row, o = some row := by
  cases h with
  | kept => exact ⟨row', rfl⟩
  | inserted _ _ hge => omega
  | _ => exact ⟨_, rfl⟩

theorem AuthorityChanges.fresh {i : Instant} {c : Call} {db db' : Db} (hc : AuthorityChanges i c db db')
    (h : AuthorityFresh db) : AuthorityFresh db' := by
  intro id row' hr'
  have hch := hc.rows id
  rw [hr'] at hch
  cases hr : db.authority_jobs.get? id with
  | none =>
    rw [hr] at hch
    cases hch with
    | inserted request rest hge hlt =>
      exact ⟨hlt, (sameScope_coalescedAll i.now rest _).base_ref.trans rfl⟩
  | some row =>
    rw [hr] at hch
    obtain ⟨hlt, hb⟩ := h id row hr
    refine ⟨lt_of_lt_of_le hlt hc.next, ?_⟩
    cases hch with
    | kept | woken | claimed | renewed | advanced | membership | failed | deferred => exact hb
    | restarted => rfl
    | coalesced _ requests => exact (sameScope_coalescedAll i.now requests row).base_ref.trans hb
    | paged => exact (sameScope_coalescedAll i.now _ row).base_ref.trans hb

end ExtraCodeowners
