import ExtraCodeowners.Fence

/-!
# Runs of the queue

Every call of the store moves rows and epochs coherently and keeps the claims
that are still held. A claim that is current and publishable at one instant is
bound to the last advance of its head, whose invalidation has committed.
-/

namespace ExtraCodeowners

/-- Epochs move first, then the rows that are bound to them. -/
def Moves (released : Option ClaimedJob) (db db' : Db) : Prop :=
  ∃ mid, Refenced db mid ∧ Evolves released mid db'

section
variable {r : Option ClaimedJob} {db mid db' db'' : Db}

theorem Evolves.moves (h : Evolves r db db') : Moves r db db' := ⟨db, .refl db, h⟩

theorem Moves.refl (r : Option ClaimedJob) (db : Db) : Moves r db db := (Evolves.refl r db).moves

theorem SameQueue.moves (h : SameQueue db db') : Moves r db db' := h.evolves.moves

theorem Refenced.moves (h : Refenced db mid) : Moves r db mid := ⟨mid, h, .refl r mid⟩

theorem Moves.then_same (h : Moves r db db') (hs : SameQueue db' db'') : Moves r db db'' := by
  obtain ⟨mid, hm, he⟩ := h
  exact ⟨mid, hm, he.then_same hs⟩

theorem SameQueue.trans (h₁ : SameQueue db mid) (h₂ : SameQueue mid db') : SameQueue db db' :=
  ⟨h₂.jobs.trans h₁.jobs, h₂.next.trans h₁.next, h₂.epochs.trans h₁.epochs,
    h₂.advances.trans h₁.advances, h₂.completions.trans h₁.completions⟩

theorem Refenced.then_same (h : Refenced db mid) (hs : SameQueue mid db') : Refenced db db' :=
  ⟨hs.jobs.trans h.jobs, hs.next.trans h.next, fun hc => (hs.evolves : Evolves none mid db').coherent (h.coherent hc)⟩

theorem Moves.coherent (h : Coherent db) (hm : Moves r db db') : Coherent db' := by
  obtain ⟨mid, hm, he⟩ := hm
  exact he.coherent (hm.coherent h)

end

/-! ## Triggers -/

section
variable {now : Time} {request : JobRequest} {db : Db}

/-- An advance and an enqueue bound to it. -/
theorem moves_trigger (h : Coherent db) {head : HeadSha} (hh : request.head_sha_hint = some head)
    {delivery_id : Option Str} {pw : Bool} :
    Moves none db (enqueueInSession now request delivery_id
      (advanceSharedHeadEpochInSession now request head db).2 false pw
      (advanceSharedHeadEpochInSession now request head db).1) :=
  ⟨_, .advance now request head db,
    evolves_enqueueInSession (h.advance now request head) (isCurrentFor_advance now db hh)⟩

theorem moves_enqueueSharedHeadTrigger (h : Coherent db) {db' : Db}
    (hr : enqueueSharedHeadTrigger now request db = .ok db') : Moves none db db' := by
  unfold enqueueSharedHeadTrigger at hr
  cases hh : request.head_sha_hint with
  | none => rw [hh] at hr; cases hr
  | some head =>
    rw [hh] at hr
    cases hr
    exact moves_trigger h hh

theorem moves_enqueue (h : Coherent db) {db' : Db} (hr : enqueue now request db = .ok db') :
    Moves none db db' := by
  unfold enqueue at hr
  cases hh : request.head_sha_hint with
  | none =>
    rw [hh] at hr
    cases hr
    exact (evolves_enqueueInSession h (isCurrentFor_none hh)).moves
  | some head =>
    rw [hh] at hr
    exact moves_enqueueSharedHeadTrigger h hr

theorem moves_enqueueForSharedHeadGeneration (h : Coherent db) {g : Nat} {db' : Db} {answer : Bool}
    (hr : enqueueForSharedHeadGeneration now request g db = .ok (db', answer)) : Moves none db db' := by
  unfold enqueueForSharedHeadGeneration at hr
  cases hh : request.head_sha_hint with
  | none => rw [hh] at hr; cases hr
  | some head =>
    rw [hh] at hr
    by_cases hz : g = 0
    · simp [hz] at hr
    by_cases hg : db.epochGeneration (request.epochKey head) = g
    · by_cases hany : (db.evaluation_jobs.any fun _ job => isForRequest request job &&
          job.head_sha_hint ≠ none && job.head_sha_hint ≠ some head) = true
      · simp only [hz, hg, hany, if_true, if_false, ne_eq, not_true] at hr
        cases hr
        exact .refl none db
      · simp only [hz, hg, hany, if_false, ne_eq, not_true, Bool.false_eq_true] at hr
        cases hr
        have hcur : IsCurrentFor request g db := by
          intro head' hh'
          rw [hh] at hh'
          cases hh'
          exact hg.symm
        exact (evolves_enqueueInSession h hcur).moves
    · simp only [hz, hg, if_true, if_false, ne_eq, not_false_eq_true] at hr
      cases hr
      exact .refl none db

theorem moves_insertIfAbsent (now : Time) {mid : Db} (hm : Refenced db mid) (h : Coherent db) {g : Nat}
    (hg : IsCurrentFor request g mid) : Moves none db (insertIfAbsent now request g db mid).1 := by
  unfold insertIfAbsent
  by_cases hany : (db.evaluation_jobs.any fun _ job => isForRequest request job) = true
  · rw [if_pos hany]
    exact .refl none db
  · rw [if_neg hany]
    exact ⟨mid, hm, evolves_insertEvaluationJob (hm.coherent h) hg⟩

theorem moves_enqueueIfAbsent (h : Coherent db) : Moves none db (enqueueIfAbsent now request db).1 := by
  unfold enqueueIfAbsent
  cases hh : request.head_sha_hint with
  | none => exact moves_insertIfAbsent now (.refl db) h (isCurrentFor_none hh)
  | some head => exact moves_insertIfAbsent now (.advance now request head db) h (isCurrentFor_advance now db hh)

/-! ## Reconciliation -/

theorem observeState_same : SameQueue db (observeState now request db) := ⟨rfl, rfl, rfl, rfl, rfl⟩

theorem touch_fenceOf (key k : EpochKey) :
    (touchSharedHeadEpochInSession now key db).1.fenceOf k = db.fenceOf k := by
  unfold touchSharedHeadEpochInSession Db.fenceOf
  simp only [Dict.get?_updateWhere, Option.map_map]
  cases db.shared_head_epochs.get? k with
  | none => rfl
  | some e => by_cases hk : k = key <;> simp [hk]

theorem Refenced.touch (key : EpochKey) : Refenced db (touchSharedHeadEpochInSession now key db).1 := by
  refine ⟨rfl, rfl, fun h => h.rows ?_ (touch_fenceOf key) rfl rfl⟩
  intro id row hr
  exact ⟨h.fresh id row hr, Or.inl ⟨row, hr, .refl row⟩⟩

theorem postInit_head (request : JobRequest) : request.postInit.head_sha_hint = request.head_sha_hint := by
  unfold JobRequest.postInit; split <;> rfl

theorem postInit_epochKey (request : JobRequest) (head : HeadSha) :
    request.postInit.epochKey head = request.epochKey head := by
  unfold JobRequest.postInit; split <;> rfl

theorem moves_enqueueReconciliationIfDue (h : Coherent db) {recheck_seconds : Nat} {db' : Db}
    {answer : Bool}
    (hr : enqueueReconciliationIfDue now request recheck_seconds db = .ok (db', answer)) :
    Moves none db db' := by
  unfold enqueueReconciliationIfDue at hr
  by_cases hw : request.work_class ≠ .recovery
  · rw [if_pos hw] at hr; cases hr
  rw [if_neg hw] at hr
  split at hr
  · cases hr
  · cases hr
  · rename_i head observed_at hh _
    by_cases hs : recheck_seconds < 1
    · rw [if_pos hs] at hr; cases hr
    rw [if_neg hs] at hr
    split at hr
    · split at hr
      · cases hr
        exact observeState_same.moves
      · cases hr
        exact (moves_trigger h hh).then_same observeState_same
    · split at hr
      · split at hr
        · cases hr
          exact observeState_same.moves
        · -- a scheduled recheck binds to the epoch as it is
          have hcur : IsCurrentFor { request with reason := SCHEDULED_RECHECK_REASON }.postInit
              (touchSharedHeadEpochInSession now (request.epochKey head) db).2
              (touchSharedHeadEpochInSession now (request.epochKey head) db).1 := by
            intro head' hh'
            rw [postInit_head] at hh'
            have he : head = head' := Option.some.inj (hh.symm.trans hh')
            subst he
            rw [postInit_epochKey, epochGeneration_eq, touch_fenceOf, ← epochGeneration_eq]
            rfl
          have hm := moves_insertIfAbsent now (.touch (request.epochKey head)) h hcur
          injection hr with hr
          rw [← (Prod.mk.inj hr).1]
          exact hm
      · have hm := moves_insertIfAbsent now (.advance now request head db) h
          (isCurrentFor_advance now db hh)
        injection hr with hr
        rw [← (Prod.mk.inj hr).1]
        exact hm

end

/-! ## Authority work -/

section
variable {now : Time} {db : Db}

theorem enqueueAuthorityInSession_same (request : AuthorityRequest) :
    SameQueue db (enqueueAuthorityInSession now request db) := by
  unfold enqueueAuthorityInSession
  split <;> exact ⟨rfl, rfl, rfl, rfl, rfl⟩

theorem foldl_enqueueAuthority_same (now : Time) (requests : List AuthorityRequest) :
    ∀ db, SameQueue db
      (requests.foldl (fun db request => enqueueAuthorityInSession now request db) db) := by
  induction requests with
  | nil => intro db; exact ⟨rfl, rfl, rfl, rfl, rfl⟩
  | cons request requests ih =>
    intro db
    exact (enqueueAuthorityInSession_same request).trans (ih _)

theorem advanceInstallationAuthorityPage_same {job : ClaimedAuthorityJob}
    {requests : List AuthorityRequest} {next_page : Nat} {expected_total : Option Nat} {db' : Db}
    {answer : Bool}
    (hr : advanceInstallationAuthorityPage now job requests next_page expected_total db =
      .ok (db', answer)) : SameQueue db db' := by
  unfold advanceInstallationAuthorityPage at hr
  split at hr
  · cases hr
  · split at hr
    · cases hr
    · split at hr
      · have h := foldl_enqueueAuthority_same now requests db
        injection hr with hr
        rw [← (Prod.mk.inj hr).1]
        exact ⟨h.jobs, h.next, h.epochs, h.advances, h.completions⟩
      · cases hr
        exact ⟨rfl, rfl, rfl, rfl, rfl⟩

theorem claimAuthority_same {locked : Nat → Bool} {owner : Str} {lease_seconds : Nat} {prio : Bool} :
    SameQueue db (claimAuthority now locked owner lease_seconds prio db).1 := by
  unfold claimAuthority
  split <;> exact ⟨rfl, rfl, rfl, rfl, rfl⟩

theorem completeAuthority_same {job : ClaimedAuthorityJob} {owner : Str} :
    SameQueue db (completeAuthority now job owner db).1 := by
  unfold completeAuthority
  split
  · exact ⟨rfl, rfl, rfl, rfl, rfl⟩
  · split <;> exact ⟨rfl, rfl, rfl, rfl, rfl⟩

theorem recordDelivery_same (delivery_id : Str) (delivery : WebhookDelivery) :
    SameQueue db (recordDelivery delivery_id delivery db) := ⟨rfl, rfl, rfl, rfl, rfl⟩

theorem moves_acceptDelivery (h : Coherent db) {delivery_id event : Str}
    {request : Option DeliveryRequest} {db' : Db} {answer : DeliveryAcceptance}
    (hr : acceptDelivery now delivery_id event request db = .ok (db', answer)) : Moves none db db' := by
  unfold acceptDelivery at hr
  cases hd : db.webhook_deliveries.get? delivery_id with
  | some delivery =>
    rw [hd] at hr
    cases hp : replayDelivery event request delivery with
    | error e => simp [hp, Except.map] at hr
    | ok a =>
      simp only [hp, Except.map] at hr
      cases hr
      exact .refl none db
  | none =>
    rw [hd] at hr
    match request with
    | none =>
      cases hr
      exact SameQueue.moves ⟨rfl, rfl, rfl, rfl, rfl⟩
    | some (.authority request) =>
      simp only at hr
      injection hr with hr
      rw [← (Prod.mk.inj hr).1]
      refine SameQueue.moves (SameQueue.trans ?_ (enqueueAuthorityInSession_same request))
      split <;> exact ⟨rfl, rfl, rfl, rfl, rfl⟩
    | some (.job request) =>
      cases hh : request.head_sha_hint with
      | none => simp [hh] at hr
      | some head =>
        simp only [hh] at hr
        injection hr with hr
        rw [← (Prod.mk.inj hr).1]
        have hm := (Refenced.advance now request head db).then_same (recordDelivery_same delivery_id
          ⟨event, now, true, none, some request.installation_id, some request.repository_full_name,
            some request.pull_number, some head,
            some (advanceSharedHeadEpochInSession now request head db).2⟩)
        exact ⟨_, hm, evolves_enqueueInSession (hm.coherent h)
          (isCurrentFor_advance now db hh)⟩

end

/-! ## Claims on evaluations -/

/-- The row still is what the claim saw. -/
structure MatchesRow (job : ClaimedJob) (row : EvaluationJob) : Prop where
  owner : row.lease_owner = some job.lease_owner
  pull : row.pullKey = ⟨job.installation_id, job.repository_full_name, job.pull_number⟩
  head : ∀ head, job.head_sha_hint = some head → row.head_sha_hint = some head
  generation : ∀ head, job.head_sha_hint = some head →
    row.shared_head_generation = job.shared_head_generation
  bound_at : ∀ head, job.head_sha_hint = some head → row.bound_at = job.bound_at

/-- A claim is the row's, or behind it, or its row is gone. -/
structure TokenOk (db : Db) (job : ClaimedJob) : Prop where
  fresh : job.id < db.next_evaluation_job
  behind : ∀ row, db.evaluation_jobs.get? job.id = some row → job.generation ≤ row.generation
  current : ∀ row, db.evaluation_jobs.get? job.id = some row → job.generation = row.generation →
    MatchesRow job row

/-- A token as it was handed out, released or not: at its generation the row is
the pull request and the head it names. -/
structure Issued (db : Db) (job : ClaimedJob) : Prop where
  fresh : job.id < db.next_evaluation_job
  behind : ∀ row, db.evaluation_jobs.get? job.id = some row → job.generation ≤ row.generation
  pull : ∀ row, db.evaluation_jobs.get? job.id = some row → job.generation = row.generation →
    row.pullKey = ⟨job.installation_id, job.repository_full_name, job.pull_number⟩
  head : ∀ row head, db.evaluation_jobs.get? job.id = some row → job.generation = row.generation →
    job.head_sha_hint = some head → row.head_sha_hint = some head

theorem TokenOk.issued {db : Db} {job : ClaimedJob} (h : TokenOk db job) : Issued db job :=
  ⟨h.fresh, h.behind, fun row hr hg => (h.current row hr hg).pull,
    fun row head hr hg => (h.current row hr hg).head head⟩

theorem Issued.epochKey {db : Db} {job : ClaimedJob} (h : Issued db job) {row : EvaluationJob}
    (hr : db.evaluation_jobs.get? job.id = some row) (hg : job.generation = row.generation)
    (head : HeadSha) : row.epochKey head = job.epochKey head := by
  have hp := h.pull row hr hg
  simp only [EvaluationJob.pullKey, PullKey.mk.injEq] at hp
  simp [EvaluationJob.epochKey, ClaimedJob.epochKey, hp.1, hp.2.1]

def sameClaim (a b : ClaimedJob) : Bool :=
  a.id = b.id && a.generation = b.generation && a.lease_owner = b.lease_owner

theorem MatchesRow.same {job : ClaimedJob} {row row' : EvaluationJob} (h : MatchesRow job row)
    (hs : SameBinding row row') (ho : row'.lease_owner = row.lease_owner) : MatchesRow job row' :=
  ⟨ho.trans h.owner, hs.pull.trans h.pull, fun head hh => hs.head.trans (h.head head hh),
    fun head hh => hs.generation.trans (h.generation head hh),
    fun head hh => hs.bound_at.trans (h.bound_at head hh)⟩

theorem MatchesRow.epochKey {job : ClaimedJob} {row : EvaluationJob} (h : MatchesRow job row)
    (head : HeadSha) : row.epochKey head = job.epochKey head := by
  have hp := h.pull
  simp only [EvaluationJob.pullKey, PullKey.mk.injEq] at hp
  simp [EvaluationJob.epochKey, ClaimedJob.epochKey, hp.1, hp.2.1]

theorem requestOf_epochKey (job : ClaimedJob) (hint : Option HeadSha) (base_ref : Option Str)
    (head : HeadSha) : (requestOf job hint base_ref).epochKey head = job.epochKey head := by
  rw [requestOf, postInit_epochKey]
  rfl

theorem holdsClaim_eq_true {job : ClaimedJob} {owner : Str} {id : Nat} {row : EvaluationJob} :
    holdsClaim job owner id row = true ↔
      id = job.id ∧ row.generation = job.generation ∧ row.lease_owner = some owner := by
  simp [holdsClaim, and_assoc]

/-- A claim that is not the released one survives every step of its row. -/
theorem TokenOk.step {r : Option ClaimedJob} {db db' : Db} {job : ClaimedJob} (h : TokenOk db job)
    (he : Evolves r db db') (hr : ∀ job', r = some job' → sameClaim job' job = false) :
    TokenOk db' job := by
  have key : ∀ row', db'.evaluation_jobs.get? job.id = some row' → job.generation ≤ row'.generation ∧
      (job.generation = row'.generation → MatchesRow job row') := by
    intro row' hrow'
    cases he.rows job.id row' hrow' with
    | inserted hlo => exact absurd h.fresh (not_lt.mpr hlo)
    | kept row hrow hs hg ho =>
      rw [hg]
      exact ⟨h.behind row hrow, fun e => (h.current row hrow e).same hs ho⟩
    | superseded row hrow hg =>
      have := h.behind row hrow
      exact ⟨by omega, fun e => by omega⟩
    | leased row hrow ho hs hg =>
      rw [hg]
      refine ⟨h.behind row hrow, fun e => ?_⟩
      have := (h.current row hrow e).owner
      rw [ho] at this; cases this
    | bound row hrow hh hp hg ho =>
      rw [hg]
      refine ⟨h.behind row hrow, fun e => ?_⟩
      have hm := h.current row hrow e
      have none_bound : ∀ head, job.head_sha_hint ≠ some head := by
        intro head hj
        have := hm.head head hj
        rw [hh] at this; cases this
      exact ⟨ho.trans hm.owner, hp.trans hm.pull, fun head hj => absurd hj (none_bound head),
        fun head hj => absurd hj (none_bound head), fun head hj => absurd hj (none_bound head)⟩
    | released row job' hj hrow hheld hg =>
      rw [hg]
      refine ⟨h.behind row hrow, fun e => ?_⟩
      obtain ⟨hid, hgen, hown⟩ := holdsClaim_eq_true.mp hheld
      have hmine := (h.current row hrow e).owner
      rw [hown] at hmine
      have := hr job' hj
      simp [sameClaim, ← hid, ← hgen, e, Option.some.inj hmine] at this
  exact ⟨lt_of_lt_of_le h.fresh he.next, fun row hrow => (key row hrow).1,
    fun row hrow => (key row hrow).2⟩

theorem TokenOk.refenced {db mid : Db} {job : ClaimedJob} (h : TokenOk db job) (hm : Refenced db mid) :
    TokenOk mid job := by
  refine ⟨hm.next ▸ h.fresh, ?_, ?_⟩
  · intro row hrow
    exact h.behind row (hm.jobs ▸ hrow)
  · intro row hrow
    exact h.current row (hm.jobs ▸ hrow)

theorem TokenOk.moves {r : Option ClaimedJob} {db db' : Db} {job : ClaimedJob} (h : TokenOk db job)
    (hm : Moves r db db') (hr : ∀ job', r = some job' → sameClaim job' job = false) :
    TokenOk db' job := by
  obtain ⟨mid, hmid, he⟩ := hm
  exact (h.refenced hmid).step he hr

section
variable {now : Time} {db : Db} {job : ClaimedJob}

/-- A rewrite of the row under a held claim. -/
theorem evolves_updateHeld {p : Nat → EvaluationJob → Bool} {f : EvaluationJob → EvaluationJob}
    (hf : ∀ row, SameBinding row (f row) ∧ (f row).generation = row.generation ∧
      (f row).lease_owner = row.lease_owner) :
    Evolves none db { db with evaluation_jobs := db.evaluation_jobs.updateWhere p f } := by
  refine ⟨fun _ => rfl, rfl, rfl, le_refl _, ?_⟩
  intro id row' hr
  rw [Dict.get?_updateWhere] at hr
  obtain ⟨row, hrow, he⟩ := Option.map_eq_some_iff.mp hr
  by_cases hp : p id row = true
  · rw [if_pos hp] at he
    subst he
    exact .kept row hrow (hf row).1 (hf row).2.1 (hf row).2.2
  · rw [if_neg hp] at he
    subst he
    exact .kept row hrow (.refl row) rfl rfl

theorem wake_same (request : JobRequest) : SameQueue db (wakeAuthorityForInteractive now request db) :=
  ⟨wake_evaluation_jobs, wake_next, wake_epochs, wake_advances, wake_completions⟩

theorem moves_renewClaim {lease_seconds : Nat} :
    Moves none db (renewClaim now job lease_seconds db).1 := by
  refine (evolves_updateHeld ?_).moves
  intro row
  exact ⟨⟨rfl, rfl, rfl, rfl⟩, rfl, rfl⟩

theorem moves_observeEvaluationBase {base_ref : Str} :
    Moves none db (observeEvaluationBase now job base_ref db).1 := by
  unfold observeEvaluationBase
  generalize (if isBaseRefHint base_ref then some base_ref else none) = hint
  have hm : Moves none db { db with
      evaluation_jobs := db.evaluation_jobs.updateWhere (observesBase now job)
        fun row => { row with base_ref_hint := hint } } := by
    refine (evolves_updateHeld ?_).moves
    intro row
    exact ⟨⟨rfl, rfl, rfl, rfl⟩, rfl, rfl⟩
  by_cases hany : db.evaluation_jobs.any (observesBase now job) = true
  · simp only [hany, if_true]
    split
    · exact hm.then_same (wake_same _)
    · exact hm
  · simp only [hany]
    exact .refl none db

theorem moves_claim {locked : Nat → Bool} {owner : Str} {lease_seconds : Nat}
    {work_class : Option WorkClass} {ready : Bool} :
    Moves none db (claim now locked owner lease_seconds work_class ready db).1 := by
  unfold claim
  split
  · exact .refl none db
  · rename_i id row hsel
    have hrow := (Dict.select_some hsel).1
    refine Evolves.moves ⟨fun _ => rfl, rfl, rfl, le_refl _, ?_⟩
    intro id' row' hr
    simp only [Dict.get?_set] at hr
    by_cases hid : id' = id
    · subst hid
      rw [if_pos rfl] at hr
      cases hr
      by_cases ho : row.lease_owner.isSome = true
      · refine .superseded row hrow ?_ (Or.inl ⟨rfl, rfl, rfl, rfl⟩)
        simp [EvaluationJob.claimed, ho]
      · refine .leased row hrow (by simpa using ho) ⟨rfl, rfl, rfl, rfl⟩ ?_
        simp [EvaluationJob.claimed, ho]
    · rw [if_neg hid] at hr
      exact .kept row' hr (.refl row') rfl rfl

theorem tokenOk_claim (h : Coherent db) {locked : Nat → Bool} {owner : Str} {lease_seconds : Nat}
    {work_class : Option WorkClass} {ready : Bool}
    (hc : (claim now locked owner lease_seconds work_class ready db).2 = some job) :
    TokenOk (claim now locked owner lease_seconds work_class ready db).1 job := by
  unfold claim at hc ⊢
  split
  · rename_i hsel
    rw [hsel] at hc; cases hc
  · rename_i id row hsel
    rw [hsel] at hc
    cases hc
    have hrow := (Dict.select_some hsel).1
    have self : ∀ row', (db.evaluation_jobs.set id
        (row.claimed owner (now + seconds lease_seconds))).get? id = some row' →
        row.claimed owner (now + seconds lease_seconds) = row' := by
      intro row' hr
      rw [Dict.get?_set_self] at hr
      exact Option.some.inj hr
    refine ⟨h.fresh id row hrow, ?_, ?_⟩
    · intro row' hr
      rw [← self row' hr]
      exact le_refl _
    · intro row' hr _
      rw [← self row' hr]
      exact ⟨rfl, rfl, fun _ hh => hh, fun _ _ => rfl, fun _ _ => rfl⟩

theorem advance_requestOf (now : Time) (db : Db) (job : ClaimedJob) (h : Option HeadSha) (base_ref : Option Str)
    (head : HeadSha) :
    (advanceSharedHeadEpochInSession now (requestOf job h base_ref) head db).2 =
      (advanceSharedHeadEpochInSession now (requestOf job h base_ref) head db).1.epochGeneration
        (job.epochKey head) := by
  rw [advance_generation, requestOf_epochKey]

theorem moves_bind_issued (h : Issued db job) {head : HeadSha} :
    Moves none db (bindClaimToHead now job head db).1 := by
  unfold bindClaimToHead
  split
  · exact .refl none db
  · split
    · have hmid := Refenced.advance now (requestOf job (some head) none) head db
      have hgen := advance_requestOf now db job (some head) none head
      generalize advanceSharedHeadEpochInSession now (requestOf job (some head) none) head db = adv
        at hmid hgen ⊢
      obtain ⟨mid, g⟩ := adv
      refine ⟨mid, hmid, fun _ => rfl, rfl, rfl, le_refl _, ?_⟩
      intro id row' hr
      rw [Dict.get?_updateWhere] at hr
      obtain ⟨row, hrow, he⟩ := Option.map_eq_some_iff.mp hr
      split at he
      · rename_i hp
        simp only [Bool.and_eq_true, decide_eq_true_eq] at hp
        obtain ⟨hid, hg, hown⟩ := holdsClaim_eq_true.mp hp.1.1
        subst he
        refine .bound row hrow hp.2 rfl rfl rfl ?_
        have hkey := h.epochKey (hid ▸ hmid.jobs ▸ hrow) hg.symm head
        intro head' hh
        cases hh
        exact ⟨hgen.trans (congrArg mid.epochGeneration hkey.symm), congrArg mid.advances hkey.symm⟩
      · subst he
        exact .kept row hrow (.refl row) rfl rfl
    · exact .refl none db

theorem tokenOk_bindClaimToHead (h : TokenOk db job) {head : HeadSha} {bound : ClaimedJob}
    (hb : (bindClaimToHead now job head db).2 = some bound) :
    TokenOk (bindClaimToHead now job head db).1 bound := by
  unfold bindClaimToHead at hb ⊢
  split
  · rename_i hint hhint
    rw [hhint] at hb
    by_cases he : hint = head
    · simp only [he, if_true] at hb
      cases hb
      exact h
    · simp [he] at hb
  · rename_i hhint
    rw [hhint] at hb
    split
    · rename_i hany
      have hmid := Refenced.advance now (requestOf job (some head) none) head db
      simp only [hany, if_true] at hb
      generalize advanceSharedHeadEpochInSession now (requestOf job (some head) none) head db = adv
        at hmid hb ⊢
      obtain ⟨mid, g⟩ := adv
      cases hb
      have hf := h.refenced hmid
      -- the row of a held claim without a head is still without one, so it is rebound
      have row_eq : ∀ row', (mid.evaluation_jobs.updateWhere
          (fun id row => holdsClaim job job.lease_owner id row && row.state = .pending &&
            row.head_sha_hint = none)
          fun row => { row with
            head_sha_hint := some head
            shared_head_generation := g
            bound_at := mid.advances (job.epochKey head) }).get? job.id = some row' →
          job.generation ≤ row'.generation ∧ (job.generation = row'.generation →
            MatchesRow { job with
              head_sha_hint := some head
              shared_head_generation := g
              bound_at := mid.advances (job.epochKey head) } row') := by
        intro row' hr
        rw [Dict.get?_updateWhere] at hr
        obtain ⟨row, hrow, he⟩ := Option.map_eq_some_iff.mp hr
        split at he
        · subst he
          refine ⟨hf.behind row hrow, fun e => ?_⟩
          have hm := hf.current row hrow e
          exact ⟨hm.owner, hm.pull, fun _ hh => hh, fun _ _ => rfl, fun _ _ => rfl⟩
        · rename_i hp
          obtain ⟨id, row₀, hrow₀, hp₀⟩ := Dict.any_eq_true.mp hany
          have hid : id = job.id := by
            simp only [Bool.and_eq_true] at hp₀
            exact (holdsClaim_eq_true.mp hp₀.1.1).1
          subst hid
          rw [hmid.jobs, hrow₀] at hrow
          cases hrow
          exact absurd hp₀ hp
      exact ⟨hf.fresh, fun row hr => (row_eq row hr).1, fun row hr => (row_eq row hr).2⟩
    · rename_i hany
      simp [hany] at hb

theorem moves_complete {r : Option ClaimedJob} {owner : Str} :
    Moves r db (complete now job owner db).1 := by
  unfold complete
  split
  · exact .refl _ db
  · have he : Evolves r db
        { db with evaluation_jobs := db.evaluation_jobs.deleteWhere (holdsClaim job owner) } := by
      refine ⟨fun _ => rfl, rfl, rfl, le_refl _, ?_⟩
      intro id row hr
      rw [Dict.get?_deleteWhere] at hr
      exact .kept row (Option.filter_eq_some_iff.mp hr).1 (.refl row) rfl rfl
    simp only
    split
    · exact he.moves
    · exact he.moves.then_same ⟨rfl, rfl, rfl, rfl, rfl⟩

/-- A revocation advances the head of the released claim. -/
def Revokes (job : ClaimedJob) (revocation : Option JobRequest) : Prop :=
  ∀ request, revocation = some request → request.head_sha_hint = job.head_sha_hint ∧
    ∀ head, request.epochKey head = job.epochKey head

theorem revokes_scheduledRecheck (job : ClaimedJob) : Revokes job (scheduledRecheckRevocation job) := by
  intro request hr
  unfold scheduledRecheckRevocation at hr
  split at hr
  · cases hr
  · cases hr
    refine ⟨?_, ?_⟩
    · rw [postInit_head]
      exact postInit_head _
    · intro head
      rw [postInit_epochKey]
      exact requestOf_epochKey job job.head_sha_hint job.base_ref_hint head

/-- Under whatever owner a token is presented, it releases the claim that owner
has at the token's generation. -/
theorem moves_release_issued (hc : Coherent db) (h : Issued db job) {owner : Str}
    {revocation : Option JobRequest} (hrev : Revokes job revocation)
    {values : EvaluationJob → EvaluationJob}
    (hv : ∀ row, SameBinding row (values row) ∧ (values row).generation = row.generation) :
    Moves (some { job with lease_owner := owner }) db
      (releaseClaimInSession now job owner revocation values db).1 := by
  unfold releaseClaimInSession
  by_cases hany : db.evaluation_jobs.any (holdsClaim job owner) = true
  swap
  · rw [if_neg hany]
    exact .refl _ db
  rw [if_pos hany]
  simp only
  have hreleased : Evolves (some { job with lease_owner := owner }) db
      { db with evaluation_jobs := db.evaluation_jobs.updateWhere (holdsClaim job owner) values } := by
    refine ⟨fun _ => rfl, rfl, rfl, le_refl _, ?_⟩
    intro id row' hr
    rw [Dict.get?_updateWhere] at hr
    obtain ⟨row, hrow, he⟩ := Option.map_eq_some_iff.mp hr
    by_cases hp : holdsClaim job owner id row = true
    · rw [if_pos hp] at he
      subst he
      exact .released row { job with lease_owner := owner } rfl hrow hp (hv row).2 (Or.inl (hv row).1)
    · rw [if_neg hp] at he
      subst he
      exact .kept row hrow (.refl row) rfl rfl
  cases hrv : revocation.bind fun request => request.head_sha_hint.map (request, ·) with
  | none => exact hreleased.moves
  | some p =>
    obtain ⟨request, head⟩ := p
    obtain ⟨request', hreq, hmap⟩ := Option.bind_eq_some_iff.mp hrv
    obtain ⟨head', hhead, hpair⟩ := Option.map_eq_some_iff.mp hmap
    cases hpair
    obtain ⟨hsame, hkey⟩ := hrev request hreq
    simp only
    have hadv := (hreleased.coherent hc).advance now request head
    have hgen := advance_generation now request head
      { db with evaluation_jobs := db.evaluation_jobs.updateWhere (holdsClaim job owner) values }
    have hjobs := advance_evaluation_jobs now request head
      { db with evaluation_jobs := db.evaluation_jobs.updateWhere (holdsClaim job owner) values }
    have hnext := advance_next now request head
      { db with evaluation_jobs := db.evaluation_jobs.updateWhere (holdsClaim job owner) values }
    generalize advanceSharedHeadEpochInSession now request head _ = adv at hadv hgen hjobs hnext ⊢
    obtain ⟨mid, g⟩ := adv
    simp only at hadv hgen hjobs hnext ⊢
    refine ⟨{ mid with evaluation_jobs := db.evaluation_jobs }, ⟨rfl, hnext, fun _ => ?_⟩,
      fun _ => rfl, rfl, rfl, le_refl _, ?_⟩
    · -- before the release every row has the binding it has after it
      refine hadv.rows ?_ (fun _ => rfl) rfl rfl
      intro id row hr
      refine ⟨hnext ▸ hc.fresh id row hr, Or.inl ?_⟩
      by_cases hp : holdsClaim job owner id row = true
      · refine ⟨values row, by rw [hjobs, Dict.get?_updateWhere, hr, Option.map_some, if_pos hp], ?_⟩
        obtain ⟨h₁, h₂, h₃, h₄⟩ := (hv row).1
        exact ⟨h₁.symm, h₂.symm, h₃.symm, h₄.symm⟩
      · exact ⟨row, by rw [hjobs, Dict.get?_updateWhere, hr, Option.map_some, if_neg hp], .refl row⟩
    · intro id row' hr
      simp only [hjobs, Dict.get?_updateWhere, Option.map_map] at hr
      obtain ⟨row, hrow, he⟩ := Option.map_eq_some_iff.mp hr
      simp only [Function.comp_apply] at he
      by_cases hp : holdsClaim job owner id row = true
      · obtain ⟨hid, hg, -⟩ := holdsClaim_eq_true.mp hp
        subst hid
        simp only [hp, if_true, (hv row).2, hg, decide_true, Bool.and_self] at he
        subst he
        refine .released row { job with lease_owner := owner } rfl hrow hp hg.symm (Or.inr ?_)
        intro head' hh
        have hh' : row.head_sha_hint = some head' := (hv row).1.head ▸ hh
        have he : head = head' := by
          rw [h.head row head hrow hg.symm (hsame ▸ hhead)] at hh'
          exact Option.some.inj hh'
        subst he
        have hk : (values row).epochKey head = request.epochKey head :=
          (epochKey_eq_of_pull (hv row).1.pull head).trans ((h.epochKey hrow hg.symm head).trans (hkey head).symm)
        exact ⟨hgen.trans (congrArg mid.epochGeneration hk.symm), congrArg mid.advances hk.symm⟩
      · -- only the claim's own row is released, so no other row is rebound
        have hne : ¬(id = job.id ∧ row.generation = job.generation) := by
          intro hig
          obtain ⟨id₀, row₀, hrow₀, hp₀⟩ := Dict.any_eq_true.mp hany
          have hid₀ := (holdsClaim_eq_true.mp hp₀).1
          rw [hid₀, ← hig.1, hrow] at hrow₀
          cases hrow₀
          rw [hid₀, ← hig.1] at hp₀
          exact hp hp₀
        simp only [hp, if_false, Bool.and_eq_true, decide_eq_true_eq, hne, Bool.false_eq_true] at he
        subst he
        exact .kept row hrow (.refl row) rfl rfl

theorem revokes_deferral {now : Time} {job : ClaimedJob} {delay_seconds : Nat} {limit : Option Nat} :
    Revokes job (match limit with
      | none => none
      | some limit =>
        if job.requested_at + seconds limit < now + seconds (clampDelay delay_seconds)
        then scheduledRecheckRevocation job else none) := by
  intro request hr
  cases limit with
  | none => cases hr
  | some limit =>
    simp only at hr
    split at hr
    · exact revokes_scheduledRecheck job request hr
    · cases hr

theorem moves_fail_issued (hc : Coherent db) (h : Issued db job) {owner error : Str}
    {max_delay_seconds : Nat} :
    Moves (some { job with lease_owner := owner }) db
      (fail now job owner error max_delay_seconds db) := by
  unfold fail
  exact moves_release_issued hc h (revokes_scheduledRecheck job) fun _ => ⟨⟨rfl, rfl, rfl, rfl⟩, rfl⟩

theorem moves_defer_issued (hc : Coherent db) (h : Issued db job) {owner error : Str} {delay_seconds : Nat}
    {limit : Option Nat} :
    Moves (some { job with lease_owner := owner }) db
      (defer now job owner error delay_seconds limit db).1 := by
  unfold defer
  exact moves_release_issued hc h revokes_deferral fun _ => ⟨⟨rfl, rfl, rfl, rfl⟩, rfl⟩

end

/-! ## Invalidations and retention -/

section
variable {now : Time} {db : Db} {job : ClaimedSharedHeadInvalidation}

theorem Refenced.of_fence {mid : Db} (hj : mid.evaluation_jobs = db.evaluation_jobs)
    (hn : mid.next_evaluation_job = db.next_evaluation_job) (hf : ∀ key, mid.fenceOf key = db.fenceOf key)
    (ha : mid.advances = db.advances) (hc : mid.completions = db.completions) : Refenced db mid := by
  refine ⟨hj, hn, fun h => h.rows ?_ hf ha hc⟩
  intro id row hr
  rw [hj] at hr
  exact ⟨hn ▸ h.fresh id row hr, Or.inl ⟨row, hr, .refl row⟩⟩

/-- A rewrite of epochs that moves no generation. -/
theorem refenced_updateWhere {p : EpochKey → SharedHeadEpoch → Bool}
    {values : SharedHeadEpoch → SharedHeadEpoch}
    (hv : ∀ e, (values e).generation = e.generation ∧
      (values e).invalidated_generation = e.invalidated_generation) :
    Refenced db { db with shared_head_epochs := db.shared_head_epochs.updateWhere p values } := by
  refine .of_fence rfl rfl ?_ rfl rfl
  intro key
  unfold Db.fenceOf
  simp only [Dict.get?_updateWhere, Option.map_map]
  cases db.shared_head_epochs.get? key with
  | none => rfl
  | some e => by_cases hp : p key e = true <;> simp [hp, hv e]

theorem refenced_claimSharedHeadInvalidation {locked : EpochKey → Bool} {owner : Str}
    {lease_seconds : Nat} {work_class : Option WorkClass} :
    Refenced db (claimSharedHeadInvalidation now locked owner lease_seconds work_class db).1 := by
  unfold claimSharedHeadInvalidation
  split
  · exact .refl db
  · rename_i key e hsel
    have he := (Dict.select_some hsel).1
    refine .of_fence rfl rfl ?_ rfl rfl
    intro key'
    unfold Db.fenceOf
    simp only [Dict.get?_set]
    by_cases hk : key' = key
    · subst hk; simp [he]
    · simp [hk]

theorem refenced_renewSharedHeadInvalidation {lease_seconds : Nat} :
    Refenced db (renewSharedHeadInvalidation now job lease_seconds db).1 :=
  refenced_updateWhere fun _ => ⟨rfl, rfl⟩

theorem refenced_failSharedHeadInvalidation {error : Str} {max_delay_seconds : Nat} :
    Refenced db (failSharedHeadInvalidation now job error max_delay_seconds db).1 :=
  refenced_updateWhere fun _ => ⟨rfl, rfl⟩

theorem refenced_deferSharedHeadInvalidation {error : Str} {delay_seconds : Nat} :
    Refenced db (deferSharedHeadInvalidation now job error delay_seconds db).1 :=
  refenced_updateWhere fun _ => ⟨rfl, rfl⟩

theorem isCurrentSharedHeadInvalidation_eq_true :
    isCurrentSharedHeadInvalidation now job db = true ↔
      ∃ e, db.shared_head_epochs.get? job.epochKey = some e ∧ holdsInvalidation now job e = true := by
  unfold isCurrentSharedHeadInvalidation
  cases db.shared_head_epochs.get? job.epochKey <;> simp

theorem holdsInvalidation_generation {e : SharedHeadEpoch} (h : holdsInvalidation now job e = true) :
    e.generation = job.generation := by
  simp only [holdsInvalidation, Bool.and_eq_true, decide_eq_true_eq] at h
  exact h.1.1.1

theorem refenced_completeSharedHeadInvalidation :
    Refenced db (completeSharedHeadInvalidation now job db).1 := by
  unfold completeSharedHeadInvalidation updateInvalidation
  simp only
  by_cases hc : isCurrentSharedHeadInvalidation now job db = true
  · rw [if_pos hc]
    obtain ⟨e, he, hh⟩ := isCurrentSharedHeadInvalidation_eq_true.mp hc
    have hfence : ∀ key, (db.shared_head_epochs.updateWhere
        (fun key e => key = job.epochKey && holdsInvalidation now job e) (·.completed)).get? key =
        if key = job.epochKey then some e.completed else db.shared_head_epochs.get? key := by
      intro key
      rw [Dict.get?_updateWhere]
      by_cases hk : key = job.epochKey
      · subst hk; simp [he, hh]
      · cases db.shared_head_epochs.get? key <;> simp [hk]
    refine ⟨rfl, rfl, fun h => ⟨h.fresh, ?_, ?_⟩⟩
    · intro id row head hr hhead
      have hb := h.bound id row head hr hhead
      unfold Db.epochGeneration at hb ⊢
      simp only [hfence]
      by_cases hk : row.epochKey head = job.epochKey
      · rw [hk, he] at hb
        rw [hk, if_pos rfl]
        exact hb
      · rw [if_neg hk]
        exact hb
    · intro key g i hf hi
      unfold Db.fenceOf at hf
      simp only [hfence] at hf
      by_cases hk : key = job.epochKey
      · rw [if_pos hk] at hf
        cases hf
        subst hk
        exact ⟨⟨job.epochKey, job.generation, db.advances job.epochKey⟩, by simp, rfl,
          (holdsInvalidation_generation hh).symm, rfl⟩
      · rw [if_neg hk] at hf
        obtain ⟨c, hc, hrest⟩ := h.completed key g i hf hi
        exact ⟨c, List.mem_cons_of_mem _ hc, hrest⟩
  · rw [if_neg hc]
    refine .of_fence rfl rfl ?_ rfl rfl
    intro key
    unfold Db.fenceOf
    simp only [Dict.get?_updateWhere, Option.map_map]
    cases he : db.shared_head_epochs.get? key with
    | none => rfl
    | some e =>
      by_cases hp : key = job.epochKey ∧ holdsInvalidation now job e = true
      · exact absurd (isCurrentSharedHeadInvalidation_eq_true.mpr ⟨e, hp.1 ▸ he, hp.2⟩) hc
      · simp [hp]

/-- An epoch that a row is bound to is not pruned. -/
theorem prune_fenceOf {older_than : Time} {id : Nat} {row : EvaluationJob} {head : HeadSha}
    (hr : db.evaluation_jobs.get? id = some row) (hh : row.head_sha_hint = some head) :
    (pruneSharedHeadEpochs older_than db).1.fenceOf (row.epochKey head) =
      db.fenceOf (row.epochKey head) := by
  have href : isReferenced db (row.epochKey head) = true := by
    refine Dict.any_eq_true.mpr ⟨id, row, hr, ?_⟩
    simp [EvaluationJob.epochKey, hh]
  unfold pruneSharedHeadEpochs Db.fenceOf
  simp only [Dict.get?_deleteWhere]
  cases db.shared_head_epochs.get? (row.epochKey head) with
  | none => rfl
  | some e => simp [isPrunable, href, Option.filter]

theorem refenced_pruneSharedHeadEpochs {older_than : Time} :
    Refenced db (pruneSharedHeadEpochs older_than db).1 := by
  refine ⟨rfl, rfl, fun h => ⟨h.fresh, ?_, ?_⟩⟩
  · intro id row head hr hh
    have hrow : db.evaluation_jobs.get? id = some row := hr
    rw [epochGeneration_eq, prune_fenceOf hrow hh, ← epochGeneration_eq]
    exact h.bound id row head hrow hh
  · intro key g i hf hi
    refine h.completed key g i ?_ hi
    unfold pruneSharedHeadEpochs Db.fenceOf at hf
    simp only [Dict.get?_deleteWhere] at hf
    obtain ⟨e, he, hgi⟩ := Option.map_eq_some_iff.mp hf
    unfold Db.fenceOf
    rw [(Option.filter_eq_some_iff.mp he).1, ← hgi]
    rfl

end

/-! ## Every call -/

/-- The claim a call gives up, under the owner it names. -/
def Call.releasedAs : Call → Option ClaimedJob
  | .complete job owner | .fail job owner _ _ | .defer job owner _ _ _ =>
    some { job with lease_owner := owner }
  | _ => none

theorem moves_run_issued {i : Instant} {db db' : Db} (h : Coherent db) {c : Call} {a : c.Answer}
    (hused : ∀ job owner, c.claimUsed = some (job, owner) → Issued db job)
    (hr : c.run i db = .ok (db', a)) : Moves c.releasedAs db db' := by
  have of_ok : ∀ {α : Type} {x : Db × α} {a : α}, (.ok x : Except Str (Db × α)) = .ok (db', a) →
      x.1 = db' := by
    intro α x a hx
    injection hx with hx
    rw [hx]
  have of_map : ∀ {x : Except Str Db}, x.map (·, ()) = .ok (db', ()) → x = .ok db' := by
    intro x hx
    cases x with
    | error e => cases hx
    | ok y => cases hx; rfl
  cases c with
  | acceptDelivery => exact moves_acceptDelivery h hr
  | enqueue => exact moves_enqueue h (of_map hr)
  | enqueueSharedHeadTrigger => exact moves_enqueueSharedHeadTrigger h (of_map hr)
  | enqueueForSharedHeadGeneration => exact moves_enqueueForSharedHeadGeneration h hr
  | enqueueIfAbsent => rw [← of_ok hr]; exact moves_enqueueIfAbsent h
  | enqueueReconciliationIfDue => exact moves_enqueueReconciliationIfDue h hr
  | enqueueAuthority => rw [← of_ok hr]; exact (enqueueAuthorityInSession_same _).moves
  | markDeliveryInvalidated | recordProviderBackpressure | pruneDeliveries | pruneReconciliationStates =>
    rw [← of_ok hr]
    exact SameQueue.moves ⟨rfl, rfl, rfl, rfl, rfl⟩
  | claim => rw [← of_ok hr]; exact moves_claim
  | renewClaim => rw [← of_ok hr]; exact moves_renewClaim
  | bindClaimToHead job => rw [← of_ok hr]; exact moves_bind_issued (hused job _ rfl)
  | observeEvaluationBase => rw [← of_ok hr]; exact moves_observeEvaluationBase
  | complete => rw [← of_ok hr]; exact moves_complete
  | fail job owner => rw [← of_ok hr]; exact moves_fail_issued h (hused job owner rfl)
  | defer job owner => rw [← of_ok hr]; exact moves_defer_issued h (hused job owner rfl)
  | claimSharedHeadInvalidation =>
    rw [← of_ok hr]; exact refenced_claimSharedHeadInvalidation.moves
  | renewSharedHeadInvalidation =>
    rw [← of_ok hr]; exact refenced_renewSharedHeadInvalidation.moves
  | completeSharedHeadInvalidation =>
    rw [← of_ok hr]; exact refenced_completeSharedHeadInvalidation.moves
  | failSharedHeadInvalidation =>
    rw [← of_ok hr]; exact refenced_failSharedHeadInvalidation.moves
  | deferSharedHeadInvalidation =>
    rw [← of_ok hr]; exact refenced_deferSharedHeadInvalidation.moves
  | claimAuthority => rw [← of_ok hr]; exact claimAuthority_same.moves
  | advanceInstallationAuthorityPage => exact (advanceInstallationAuthorityPage_same hr).moves
  | completeAuthority => rw [← of_ok hr]; exact completeAuthority_same.moves
  | renewAuthorityClaim | advanceAuthorityCursor | advanceAuthorityMembershipPage | failAuthority
  | deferAuthority =>
    rw [← of_ok hr]
    exact SameQueue.moves ⟨rfl, rfl, rfl, rfl, rfl⟩
  | pruneSharedHeadEpochs => rw [← of_ok hr]; exact refenced_pruneSharedHeadEpochs.moves

theorem moves_run {i : Instant} {db db' : Db} (h : Coherent db) {c : Call} {a : c.Answer}
    (hused : ∀ job owner, c.claimUsed = some (job, owner) → TokenOk db job ∧ owner = job.lease_owner)
    (hr : c.run i db = .ok (db', a)) : Moves c.claimReleased db db' := by
  have hm := moves_run_issued h (fun job owner hu => (hused job owner hu).1.issued) hr
  have he : c.releasedAs = c.claimReleased := by
    cases c with
    | complete job owner | fail job owner | defer job owner =>
      obtain ⟨-, rfl⟩ := hused job owner rfl
      rfl
    | _ => rfl
  exact he ▸ hm

theorem tokenOk_issued {i : Instant} {db db' : Db} (h : Coherent db) {c : Call} {a : c.Answer}
    (hused : ∀ job owner, c.claimUsed = some (job, owner) → TokenOk db job ∧ owner = job.lease_owner)
    (hr : c.run i db = .ok (db', a)) {job : ClaimedJob} (hi : c.claimIssued a = some job) :
    TokenOk db' job := by
  cases c with
  | claim =>
    injection hr with hr
    obtain ⟨rfl, rfl⟩ := Prod.mk.inj hr
    exact tokenOk_claim h hi
  | bindClaimToHead job' =>
    injection hr with hr
    obtain ⟨rfl, rfl⟩ := Prod.mk.inj hr
    exact tokenOk_bindClaimToHead (hused job' _ rfl).1 hi
  | _ => cases hi

/-! ## Runs -/

/-- The tables and the evaluation claims whose holders have not released them. -/
structure Queue where
  db : Db
  held : List ClaimedJob

def Queue.initial : Queue := ⟨Db.initial, []⟩

def Queue.heldAfter (q : Queue) (c : Call) (a : c.Answer) : List ClaimedJob :=
  (c.claimIssued a).toList ++
    match c.claimReleased with
    | none => q.held
    | some job => q.held.filter fun other => !sameClaim job other

/-- Any call may come next; a claim is used by its holder before its release. -/
inductive Queue.Step (q : Queue) : Queue → Prop where
  | call (i : Instant) (c : Call) (a : c.Answer) (db' : Db) :
      (∀ job owner, c.claimUsed = some (job, owner) → job ∈ q.held ∧ owner = job.lease_owner) →
      c.run i q.db = .ok (db', a) → Queue.Step q ⟨db', q.heldAfter c a⟩

def Queue.Reachable (q : Queue) : Prop := Relation.ReflTransGen Queue.Step Queue.initial q

structure Queue.Inv (q : Queue) : Prop where
  coherent : Coherent q.db
  held : ∀ job ∈ q.held, TokenOk q.db job

theorem Queue.Inv.step {q q' : Queue} (h : q.Inv) (hs : q.Step q') : q'.Inv := by
  obtain ⟨i, c, a, db', hheld, hr⟩ := hs
  have hused : ∀ job owner, c.claimUsed = some (job, owner) →
      TokenOk q.db job ∧ owner = job.lease_owner :=
    fun job owner hu => ⟨h.held job (hheld job owner hu).1, (hheld job owner hu).2⟩
  have hm := moves_run h.coherent hused hr
  refine ⟨hm.coherent h.coherent, ?_⟩
  intro job hj
  rcases List.mem_append.mp hj with hnew | hold
  · exact tokenOk_issued h.coherent hused hr (Option.mem_toList.mp hnew)
  · cases hrel : c.claimReleased with
    | none =>
      rw [hrel] at hold
      exact (h.held job hold).moves hm fun job' hj' => by rw [hrel] at hj'; cases hj'
    | some released =>
      rw [hrel] at hold
      obtain ⟨hmem, hne⟩ := List.mem_filter.mp hold
      refine (h.held job hmem).moves hm fun job' hj' => ?_
      rw [hrel] at hj'
      cases hj'
      simpa using hne

theorem Queue.Reachable.inv {q : Queue} (h : q.Reachable) : q.Inv := by
  induction h with
  | refl =>
    refine ⟨⟨?_, ?_, ?_⟩, fun job hj => by cases hj⟩
    · intro id row hr; cases hr
    · intro id row head hr; cases hr
    · intro key g i hf; cases hf
  | tail _ hs ih => exact ih.step hs

/-- No advance separates the binding of a publishable claim from now, and the
reset of its generation has committed since. -/
theorem publishable_claim_is_fresh {q : Queue} (hq : q.Reachable) {job : ClaimedJob} (hj : job ∈ q.held)
    {now : Time} (hcurrent : isCurrentClaim now job q.db = true) {head : HeadSha}
    (hpublish : sharedHeadGenerationIsPublishable job head q.db = true) :
    q.db.advances (job.epochKey head) = job.bound_at ∧
      (0 < job.shared_head_generation → ∃ c ∈ q.db.completions, c.key = job.epochKey head ∧
        c.generation = job.shared_head_generation ∧ c.at_advance = q.db.advances (job.epochKey head)) := by
  have hinv := hq.inv
  have ht := hinv.held job hj
  unfold isCurrentClaim at hcurrent
  cases hrow : q.db.evaluation_jobs.get? job.id with
  | none => rw [hrow] at hcurrent; cases hcurrent
  | some row =>
    simp only [hrow] at hcurrent
    cases hlease : row.lease_until with
    | none => rw [hlease] at hcurrent; cases hcurrent
    | some expiry =>
      simp only [hlease, Bool.and_eq_true, decide_eq_true_eq] at hcurrent
      have hm := ht.current row hrow hcurrent.1.1.1.1.symm
      unfold sharedHeadGenerationIsPublishable at hpublish
      simp only [Bool.and_eq_true, decide_eq_true_eq] at hpublish
      obtain ⟨hhead, hepoch⟩ := hpublish
      have hb := (hinv.coherent.bound job.id row head hrow (hm.head head hhead)).2
      rw [hm.epochKey, hm.generation head hhead, hm.bound_at head hhead] at hb
      cases he : q.db.shared_head_epochs.get? (job.epochKey head) with
      | none =>
        simp only [he, decide_eq_true_eq] at hepoch
        have hzero : q.db.epochGeneration (job.epochKey head) = 0 := by simp [Db.epochGeneration, he]
        exact ⟨by omega, fun hpos => by omega⟩
      | some e =>
        simp only [he, Bool.and_eq_true, decide_eq_true_eq] at hepoch
        have hgen : q.db.epochGeneration (job.epochKey head) = e.generation := by
          simp [Db.epochGeneration, he]
        refine ⟨by omega, fun hpos => ?_⟩
        have hf : q.db.fenceOf (job.epochKey head) = some (e.generation, e.invalidated_generation) := by
          simp [Db.fenceOf, he]
        obtain ⟨c, hc, hkey, hcg, hat⟩ := hinv.coherent.completed _ _ _ hf (by omega)
        exact ⟨c, hc, hkey, by omega, by omega⟩

/-! ## A run -/

def Queue.next (i : Instant) (c : Call) (q : Queue) : Queue :=
  match c.run i q.db with
  | .ok (db', a) => ⟨db', q.heldAfter c a⟩
  | .error _ => q

theorem Queue.Reachable.next {q : Queue} (h : q.Reachable) (i : Instant) (c : Call)
    (hc : ∀ job owner, c.claimUsed = some (job, owner) → job ∈ q.held ∧ owner = job.lease_owner) :
    (q.next i c).Reachable := by
  unfold Queue.next
  split
  · rename_i hr
    exact h.tail (.call i c _ _ hc hr)
  · exact h

def sampleHead : HeadSha := ⟨List.replicate 40 'a', isHeadSha_replicate⟩

def sampleRequest : JobRequest where
  installation_id := 1
  repository_full_name := ⟨"o/r"⟩
  pull_number := 7
  reason := "pull_request.opened"
  head_sha_hint := some sampleHead
  work_class := .interactive
  observed_at := none
  base_ref_hint := some "main"

def sampleInvalidation : ClaimedSharedHeadInvalidation where
  installation_id := 1
  repository_full_name := ⟨"o/r"⟩
  head_sha := sampleHead
  generation := 1
  work_class := .interactive
  attempts := 1
  requested_at := 0
  available_at := 0
  lease_owner := "w"
  claimed_at := 1

def sampleClaim : ClaimedJob where
  id := 1
  installation_id := 1
  repository_full_name := ⟨"o/r"⟩
  pull_number := 7
  reason := "pull_request.opened"
  work_class := .interactive
  head_sha_hint := some sampleHead
  last_delivery_id := some "d"
  generation := 1
  authority_generation := 0
  shared_head_generation := 1
  attempts := 1
  requested_at := 0
  available_at := 0
  lease_owner := "w"
  base_ref_hint := some "main"
  bound_at := 1

/-- A delivery is accepted, its head reset, and its evaluation claimed. -/
def sampleQueue : Queue :=
  (((Queue.initial.next sampleInstant
      (.acceptDelivery "d" "pull_request" (some (.job sampleRequest)))).next sampleInstant
    (.claimSharedHeadInvalidation "w" 30 none)).next sampleInstant
    (.completeSharedHeadInvalidation sampleInvalidation)).next sampleInstant
    (.claim "w" 30 none true)

theorem sampleQueue_reachable : sampleQueue.Reachable := by
  have h₀ : Queue.initial.Reachable := Relation.ReflTransGen.refl
  have h₁ := h₀.next sampleInstant (.acceptDelivery "d" "pull_request" (some (.job sampleRequest)))
    fun _ _ h => by cases h
  have h₂ := h₁.next sampleInstant (.claimSharedHeadInvalidation "w" 30 none) fun _ _ h => by cases h
  have h₃ := h₂.next sampleInstant (.completeSharedHeadInvalidation sampleInvalidation)
    fun _ _ h => by cases h
  exact h₃.next sampleInstant (.claim "w" 30 none true) fun _ _ h => by cases h

theorem sampleQueue_held : sampleQueue.held = [sampleClaim] := by rfl

theorem sampleClaim_is_fresh : sampleQueue.db.advances (sampleClaim.epochKey sampleHead) = 1 ∧
    (0 < 1 → ∃ c ∈ sampleQueue.db.completions, c.key = sampleClaim.epochKey sampleHead ∧
      c.generation = 1 ∧ c.at_advance = sampleQueue.db.advances (sampleClaim.epochKey sampleHead)) :=
  @publishable_claim_is_fresh sampleQueue sampleQueue_reachable sampleClaim
    (by rw [sampleQueue_held]; exact List.mem_singleton_self _) 0 (by decide +kernel) sampleHead
    (by decide +kernel)

end ExtraCodeowners
