import ExtraCodeowners.EpochIntegrity
import ExtraCodeowners.Reconciliation

/-!
# Scheduled rechecks keep the published check only while they are prompt

How the attempts on a row ended, beside the counter and the reason that encode
it. A first attempt on a scheduled recheck has no failure, no lost lease and no
late retry behind it.
-/

namespace ExtraCodeowners

/-! ## How attempts end -/

inductive Ending where
  | failed
  | lost
  | deferred (limit : Option Nat) (retry_at : Time)

/-- The deferral asked for a retry within its limit. -/
def Ending.Prompt (requested_at : Time) : Ending → Prop
  | .failed | .lost => False
  | .deferred none _ => True
  | .deferred (some limit) retry_at => retry_at ≤ requested_at + seconds limit

/-- The endings after a call, the latest first. An attempt ends when its lease
is dropped, or when a claim takes it over. A trigger starts the row anew. -/
def endedAfter (i : Instant) (c : Call) (ended : List Ending) :
    Option EvaluationJob → Option EvaluationJob → List Ending
  | some row, some row' =>
    match c with
    | .claim .. =>
      if row.lease_owner.isSome ∧ row'.generation ≠ row.generation then .lost :: ended else ended
    | .fail .. => if row.lease_owner.isSome ∧ row'.lease_owner = none then .failed :: ended else ended
    | .defer _ _ _ delay_seconds limit =>
      if row.lease_owner.isSome ∧ row'.lease_owner = none then
        .deferred limit (i.now + seconds (clampDelay delay_seconds)) :: ended
      else ended
    | _ => if row'.generation = row.generation then ended else []
  | _, _ => []

/-- The claims that are held, and how the attempts on each row ended. -/
structure RecheckRun where
  queue : Queue
  ended : Nat → List Ending

def RecheckRun.initial : RecheckRun := ⟨Queue.initial, fun _ => []⟩

/-- Any call may come next. Only a scan asks for a scheduled recheck, and it names a head. -/
inductive RecheckRun.Step (r : RecheckRun) : RecheckRun → Prop where
  | call (i : Instant) (c : Call) (a : c.Answer) (db' : Db) :
      (∀ job owner, c.claimUsed = some (job, owner) → job ∈ r.queue.held ∧ owner = job.lease_owner) →
      c.run i r.queue.db = .ok (db', a) →
      (∀ request, c.jobRequest = some request → request.reason = SCHEDULED_RECHECK_REASON →
        request.head_sha_hint ≠ none) →
      RecheckRun.Step r ⟨⟨db', r.queue.heldAfter c a⟩, fun id =>
        endedAfter i c (r.ended id) (r.queue.db.evaluation_jobs.get? id) (db'.evaluation_jobs.get? id)⟩

def RecheckRun.Reachable (r : RecheckRun) : Prop :=
  Relation.ReflTransGen RecheckRun.Step RecheckRun.initial r

/-! ## Rows -/

/-- What the counter and the reason of a row say about its attempts. -/
structure EndedPromptly (row : EvaluationJob) (ended : List Ending) : Prop where
  head : row.head_sha_hint ≠ none
  failed : .failed ∉ ended
  lost : .lost ∈ ended → (if row.lease_owner.isSome then 2 else 1) ≤ row.attempts
  leased : row.lease_owner.isSome → 1 ≤ row.attempts
  deferred : ∀ limit retry_at, .deferred limit retry_at ∈ ended →
    Ending.Prompt row.requested_at (.deferred limit retry_at)

theorem endedPromptly_new {row : EvaluationJob} (hh : row.head_sha_hint ≠ none)
    (ho : row.lease_owner = none) : EndedPromptly row [] :=
  ⟨hh, List.not_mem_nil, fun h => absurd h List.not_mem_nil, fun h => by simp [ho] at h,
    fun _ _ h => absurd h List.not_mem_nil⟩

/-- The fields the promise depends on are as before. -/
theorem EndedPromptly.same {row row' : EvaluationJob} {ended : List Ending} (h : EndedPromptly row ended)
    (hh : row'.head_sha_hint ≠ none) (ho : row'.lease_owner = row.lease_owner)
    (ha : row'.attempts = row.attempts) (ht : row'.requested_at = row.requested_at) :
    EndedPromptly row' ended := by
  refine ⟨hh, h.failed, ?_, ?_, ?_⟩
  · rw [ho, ha]; exact h.lost
  · rw [ho, ha]; exact h.leased
  · rw [ht]; exact h.deferred

/-- A claim counts an attempt, so that a lost lease leaves its mark. -/
theorem EndedPromptly.claimed {row : EvaluationJob} {ended : List Ending} (h : EndedPromptly row ended)
    (owner : Str) (lease_until : Time) :
    EndedPromptly (row.claimed owner lease_until)
      (if row.lease_owner.isSome ∧ (row.claimed owner lease_until).generation ≠ row.generation
        then .lost :: ended else ended) := by
  refine ⟨h.head, ?_, ?_, fun _ => Nat.le_add_left 1 _, ?_⟩
  · split
    · simpa using h.failed
    · exact h.failed
  · intro hlost
    show 2 ≤ row.attempts + 1
    by_cases hl : row.lease_owner.isSome = true
    · have := h.leased hl
      omega
    · rw [if_neg fun h => hl h.1] at hlost
      have := h.lost hlost
      rw [if_neg hl] at this
      omega
  · intro limit retry_at hd
    refine h.deferred limit retry_at ?_
    split at hd
    · simpa using hd
    · exact hd

/-- A deferral within its limit gives the attempt back. -/
theorem EndedPromptly.released {row row' : EvaluationJob} {ended : List Ending} {limit : Option Nat}
    {retry_at : Time} (h : EndedPromptly row ended) (hr : Released row row')
    (ha : row'.attempts = row.attempts - 1) (hl : row.lease_owner.isSome)
    (hp : Ending.Prompt row.requested_at (.deferred limit retry_at)) :
    EndedPromptly row' (.deferred limit retry_at :: ended) := by
  refine ⟨hr.head ▸ h.head, by simpa using h.failed, ?_, fun ho => by simp [hr.lease_owner] at ho, ?_⟩
  · intro hlost
    have := h.lost (by simpa using hlost)
    rw [if_pos hl] at this
    rw [hr.lease_owner, ha]
    simp only [Option.isSome_none, Bool.false_eq_true, if_false]
    omega
  · intro limit' retry_at' hd
    rw [hr.requested_at]
    rcases List.mem_cons.mp hd with he | hd
    · cases he
      exact hp
    · exact h.deferred limit' retry_at' hd

/-! ## Tokens -/

/-- At its generation a held token has the reason and the age of its row. -/
structure MatchesReason (db : Db) (job : ClaimedJob) : Prop where
  reason : ∀ row, db.evaluation_jobs.get? job.id = some row → row.generation = job.generation →
    row.reason = job.reason ∧ row.requested_at = job.requested_at
  head : job.reason = SCHEDULED_RECHECK_REASON → job.head_sha_hint ≠ none

structure RecheckRun.Inv (r : RecheckRun) : Prop where
  queue : r.queue.Inv
  rows : ∀ id row, r.queue.db.evaluation_jobs.get? id = some row →
    row.reason = SCHEDULED_RECHECK_REASON → EndedPromptly row (r.ended id)
  tokens : ∀ job ∈ r.queue.held, MatchesReason r.queue.db job

section
variable {i : Instant} {c : Call} {db db' : Db} {id : Nat} {ended : List Ending}

/-- Every scheduled recheck is asked for with its head. -/
theorem Brings.head {request : JobRequest} (h : Brings c request)
    (hc : ∀ presented, c.jobRequest = some presented → presented.reason = SCHEDULED_RECHECK_REASON →
      presented.head_sha_hint ≠ none) (hr : request.reason = SCHEDULED_RECHECK_REASON) :
    request.head_sha_hint ≠ none := by
  obtain ⟨presented, hp, rfl | ⟨hh, rfl⟩⟩ := h
  · exact hc request hp hr
  · rw [postInit_head]
    exact hh

theorem scheduledRecheckRevocation_of {job : ClaimedJob} (hr : job.reason = SCHEDULED_RECHECK_REASON)
    (hh : job.head_sha_hint ≠ none) : ∃ request, scheduledRecheckRevocation job = some request ∧
      request.reason = PERIODIC_RECONCILIATION_REASON := by
  cases hrev : scheduledRecheckRevocation job with
  | none =>
    unfold scheduledRecheckRevocation at hrev
    rw [if_neg] at hrev
    · cases hrev
    · exact fun h => h.elim (fun h => h hr) hh
  | some request => exact ⟨request, rfl, (scheduledRecheckRevocation_eq_some hrev).2.2.2⟩

theorem periodic_ne_scheduled : PERIODIC_RECONCILIATION_REASON ≠ SCHEDULED_RECHECK_REASON := by decide

theorem endedAfter_same (row : EvaluationJob) : endedAfter i c ended (some row) (some row) = ended := by
  have hno : ¬(row.lease_owner.isSome = true ∧ row.lease_owner = none) := by
    rintro ⟨h₁, h₂⟩
    simp [h₂] at h₁
  cases c <;> first
    | exact if_neg hno
    | exact if_pos rfl
    | exact if_neg fun h => h.2 rfl

theorem endedAfter_triggered {row row' : EvaluationJob} {request : JobRequest}
    (hc : c.jobRequest = some request) (hg : row'.generation ≠ row.generation) :
    endedAfter i c ended (some row) (some row') = [] := by
  cases c <;> first
    | exact if_neg hg
    | cases hc

/-- One call keeps the promise of a row that still is a scheduled recheck. -/
theorem RowChange.endedPromptly {o : Option EvaluationJob} {row' : EvaluationJob}
    (h : RowChange i c db id o (some row'))
    (hc : ∀ request, c.jobRequest = some request → request.reason = SCHEDULED_RECHECK_REASON →
      request.head_sha_hint ≠ none)
    (htoken : ∀ row job owner, o = some row → c.claimUsed = some (job, owner) →
      holdsClaim job owner id row = true → row.reason = job.reason ∧ row.requested_at = job.requested_at ∧
        (job.reason = SCHEDULED_RECHECK_REASON → job.head_sha_hint ≠ none))
    (hi : ∀ row, o = some row → row.reason = SCHEDULED_RECHECK_REASON → EndedPromptly row ended)
    (hr : row'.reason = SCHEDULED_RECHECK_REASON) :
    EndedPromptly row' (endedAfter i c ended o (some row')) := by
  cases h with
  | kept =>
    rw [endedAfter_same]
    exact hi row' rfl hr
  | inserted request delivery_id g mid hb => exact endedPromptly_new (hb.head hc hr) rfl
  | coalesced row request delivery_id g mid hb =>
    have hhead := hb.head hc hr
    obtain ⟨presented, hp, -⟩ := hb
    rw [endedAfter_triggered hp (Nat.succ_ne_self _)]
    exact endedPromptly_new hhead rfl
  | replaced row existing request recheck_seconds observed_at g mid hcall =>
    subst hcall
    rw [endedAfter_triggered rfl (Nat.succ_ne_self _)]
    exact endedPromptly_new (hc request rfl hr) rfl
  | claimed row owner lease_seconds work_class ready hcall =>
    subst hcall
    exact (hi row rfl hr).claimed owner _
  | renewed row job lease_seconds hcall =>
    subst hcall
    simp only [endedAfter, if_true]
    exact (hi row rfl hr).same (hi row rfl hr).head rfl rfl rfl
  | observed row job base_ref hint hcall =>
    subst hcall
    simp only [endedAfter, if_true]
    exact (hi row rfl hr).same (hi row rfl hr).head rfl rfl rfl
  | bound row job head g n hcall =>
    subst hcall
    simp only [endedAfter, if_true]
    exact (hi row rfl hr).same (fun h => by cases h) rfl rfl rfl
  | failed row _ job owner error max_delay hcall hp hrel ha hreason =>
    subst hcall
    obtain ⟨hjr, -, hjh⟩ := htoken row job owner rfl rfl hp
    exfalso
    -- a failed recheck is none any more
    by_cases hs : job.reason = SCHEDULED_RECHECK_REASON
    · obtain ⟨request, hrev, hper⟩ := scheduledRecheckRevocation_of hs (hjh hs)
      rw [hrev] at hreason
      exact periodic_ne_scheduled ((hper.symm.trans hreason.symm).trans hr)
    · have hrev : scheduledRecheckRevocation job = none := by
        unfold scheduledRecheckRevocation
        rw [if_pos (Or.inl hs)]
      rw [hrev] at hreason
      exact hs ((hjr.symm.trans hreason.symm).trans hr)
  | deferred row _ job owner error delay limit hcall hp hrel ha hreason =>
    subst hcall
    obtain ⟨hjr, hjt, hjh⟩ := htoken row job owner rfl rfl hp
    have hleased : row.lease_owner.isSome = true := by simp [(holdsClaim_eq_true.mp hp).2.2]
    have hnone : deferRevocation i.now job delay limit = none := by
      cases hrev : deferRevocation i.now job delay limit with
      | none => rfl
      | some request =>
        rw [hrev] at hreason
        have hper := (scheduledRecheckRevocation_eq_some (deferRevocation_eq_some hrev)).2.2.2
        exact absurd ((hper.symm.trans hreason.symm).trans hr) periodic_ne_scheduled
    rw [hnone] at hreason
    have hs : row.reason = SCHEDULED_RECHECK_REASON := hreason.symm.trans hr
    simp only [endedAfter]
    rw [if_pos ⟨hleased, hrel.lease_owner⟩]
    refine (hi row rfl hs).released hrel ha hleased ?_
    unfold deferRevocation at hnone
    cases limit with
    | none => trivial
    | some limit =>
      simp only at hnone
      split at hnone
      · obtain ⟨request, hrev, -⟩ := scheduledRecheckRevocation_of (hjr.symm.trans hs)
          (hjh (hjr.symm.trans hs))
        rw [hrev] at hnone
        cases hnone
      · rename_i hle
        rw [hjt]
        exact not_lt.mp hle

/-- A held token keeps the reason and age of its row through every other call. -/
theorem MatchesReason.step {job : ClaimedJob} (h : MatchesReason db job) (ht : TokenOk db job)
    (hc : RowChange i c db job.id (db.evaluation_jobs.get? job.id) (db'.evaluation_jobs.get? job.id))
    (hused : ∀ other owner, c.claimUsed = some (other, owner) → owner = other.lease_owner)
    (hrel : ∀ other, c.claimReleased = some other → sameClaim other job = false) :
    MatchesReason db' job := by
  refine ⟨fun row' hrow' hg => ?_, h.head⟩
  rw [hrow'] at hc
  obtain ⟨row, hrow⟩ := hc.inserted_at ht.fresh
  rw [hrow] at hc
  have hb := ht.behind row hrow
  -- a call that ends the claim on the row ends this token's
  have ended_here : ∀ other owner, c.claimUsed = some (other, owner) → c.claimReleased = some other →
      holdsClaim other owner job.id row = true → row'.generation = row.generation → False := by
    intro other owner hu hr hp hgen
    obtain ⟨hid, hog, how⟩ := holdsClaim_eq_true.mp hp
    have hmine := (ht.current row hrow (by omega)).owner
    rw [how, hused other owner hu] at hmine
    have := hrel other hr
    simp [sameClaim, hid.symm, hog.symm, ← hgen, hg, Option.some.inj hmine] at this
  cases hc with
  | kept => exact h.reason _ hrow hg
  | renewed row | observed row | bound row => exact h.reason row hrow hg
  | coalesced row | replaced row =>
    have hg : row.generation + 1 = job.generation := hg
    omega
  | claimed row =>
    simp only [EvaluationJob.claimed] at hg ⊢
    by_cases hl : row.lease_owner.isSome = true
    · rw [if_pos hl] at hg
      omega
    · rw [if_neg hl] at hg
      exact h.reason row hrow hg
  | failed _ _ other owner _ _ hcall hp hr =>
    subst hcall
    exact (ended_here other owner rfl rfl hp hr.generation).elim
  | deferred _ _ other owner _ _ _ hcall hp hr =>
    subst hcall
    exact (ended_here other owner rfl rfl hp hr.generation).elim

/-- A claim hands out a view of the row it has leased. -/
theorem matchesReason_bind {now : Time} {job bound : ClaimedJob} {head : HeadSha}
    (h : MatchesReason db job) (hb : (bindClaimToHead now job head db).2 = some bound) :
    MatchesReason (bindClaimToHead now job head db).1 bound := by
  unfold bindClaimToHead at hb ⊢
  cases hhint : job.head_sha_hint with
  | some hint =>
    rw [hhint] at hb
    by_cases he : hint = head
    · simp only [he, if_true] at hb
      cases hb
      exact h
    · simp [he] at hb
  | none =>
    rw [hhint] at hb
    by_cases hany : (db.evaluation_jobs.any fun id row => holdsClaim job job.lease_owner id row &&
        row.state = .pending && row.head_sha_hint = none) = true
    · simp only [hany, if_true] at hb ⊢
      cases hb
      refine ⟨fun row' hrow' hg => ?_, fun _ hn => by cases hn⟩
      rw [Dict.get?_updateWhere] at hrow'
      obtain ⟨row, hrow, hnew⟩ := Option.map_eq_some_iff.mp hrow'
      have hm : row.generation = job.generation → row.reason = job.reason ∧
          row.requested_at = job.requested_at := h.reason row hrow
      split at hnew <;> subst hnew <;> exact hm hg
    · simp [hany] at hb

/-- A token handed out has the reason and age of its row. -/
theorem matchesReason_issued {a : c.Answer} {job : ClaimedJob}
    (hused : ∀ job owner, c.claimUsed = some (job, owner) → MatchesReason db job)
    (hr : c.run i db = .ok (db', a)) (hi : c.claimIssued a = some job)
    (hhead : ∀ row', db'.evaluation_jobs.get? job.id = some row' →
      row'.reason = SCHEDULED_RECHECK_REASON → row'.head_sha_hint ≠ none) : MatchesReason db' job := by
  cases c with
  | claim owner lease_seconds work_class ready =>
    have hrun : claim i.now i.job_locked owner lease_seconds work_class ready db = (db', a) :=
      Except.ok.inj hr
    have hissued : (claim i.now i.job_locked owner lease_seconds work_class ready db).2 = some job := by
      rw [hrun]
      exact hi
    obtain ⟨row, hrow, hrow', hview⟩ := claim_issued hissued
    rw [hrun] at hrow'
    refine ⟨fun row' hr' _ => ?_, fun hsched => ?_⟩
    · rw [hrow'] at hr'
      cases hr'
      rw [hview]
      exact ⟨rfl, rfl⟩
    · rw [hview] at hsched ⊢
      exact hhead _ hrow' hsched
  | bindClaimToHead job' head =>
    injection hr with hr
    obtain ⟨rfl, rfl⟩ := Prod.mk.inj hr
    exact matchesReason_bind (hused job' _ rfl) hi
  | _ => cases hi

end

/-! ## Runs -/

theorem RecheckRun.Inv.endedPromptly {r : RecheckRun} (h : r.Inv) {i : Instant} {c : Call} {a : c.Answer}
    {db' : Db}
    (hheld : ∀ job owner, c.claimUsed = some (job, owner) → job ∈ r.queue.held ∧ owner = job.lease_owner)
    (hr : c.run i r.queue.db = .ok (db', a))
    (hc : ∀ request, c.jobRequest = some request → request.reason = SCHEDULED_RECHECK_REASON →
      request.head_sha_hint ≠ none) (id : Nat) (row' : EvaluationJob)
    (hrow' : db'.evaluation_jobs.get? id = some row') (hs : row'.reason = SCHEDULED_RECHECK_REASON) :
    EndedPromptly row' (endedAfter i c (r.ended id) (r.queue.db.evaluation_jobs.get? id)
      (db'.evaluation_jobs.get? id)) := by
  have hch := rowChange_run h.queue.coherent hr id
  rw [hrow'] at hch ⊢
  refine hch.endedPromptly hc ?_ (fun row hrow => h.rows id row hrow) hs
  intro row job owner hrow hu hp
  obtain ⟨hid, hg, -⟩ := holdsClaim_eq_true.mp hp
  subst hid
  have ht := h.tokens job (hheld job owner hu).1
  exact ⟨(ht.reason row hrow hg).1, (ht.reason row hrow hg).2, ht.head⟩

theorem RecheckRun.Inv.step {r r' : RecheckRun} (h : r.Inv) (hs : r.Step r') : r'.Inv := by
  obtain ⟨i, c, a, db', hheld, hr, hc⟩ := hs
  have hrows := h.endedPromptly hheld hr hc
  refine ⟨h.queue.step (.call i c a db' hheld hr), hrows, ?_⟩
  intro job hj
  rcases List.mem_append.mp hj with hnew | hold
  · refine matchesReason_issued (fun job owner hu => h.tokens job (hheld job owner hu).1) hr
      (Option.mem_toList.mp hnew) ?_
    intro row' hrow' hsched
    exact (hrows job.id row' hrow' hsched).head
  · have hmem : job ∈ r.queue.held ∧ ∀ other, c.claimReleased = some other → sameClaim other job = false := by
      cases hrel : c.claimReleased with
      | none =>
        rw [hrel] at hold
        exact ⟨hold, fun other ho => by cases ho⟩
      | some released =>
        rw [hrel] at hold
        obtain ⟨hmem, hne⟩ := List.mem_filter.mp hold
        exact ⟨hmem, fun other ho => by cases ho; simpa using hne⟩
    exact (h.tokens job hmem.1).step (h.queue.held job hmem.1) (rowChange_run h.queue.coherent hr job.id)
      (fun other owner hu => (hheld other owner hu).2) hmem.2

theorem RecheckRun.Reachable.inv {r : RecheckRun} (h : r.Reachable) : r.Inv := by
  induction h with
  | refl =>
    refine ⟨Queue.Reachable.inv Relation.ReflTransGen.refl, ?_, ?_⟩
    · intro id row hr; cases hr
    · intro job hj; cases hj
  | tail _ hs ih => exact ih.step hs

/-! ## The end of a recheck -/

/-- The row waits for a reset: its reason is revoke-first work and it is bound
to exactly the generation that the same transaction opened. -/
structure RevokedFirst (job : ClaimedJob) (db db' : Db) : Prop where
  revoked : ∃ head row', job.head_sha_hint = some head ∧
    db'.evaluation_jobs.get? job.id = some row' ∧ row'.reason = PERIODIC_RECONCILIATION_REASON ∧
    row'.head_sha_hint = some head ∧ AdvancedByOne (job.epochKey head) db db' ∧
    row'.shared_head_generation = db.epochGeneration (job.epochKey head) + 1

/-- The row still carries the generation and the owner of the token. -/
def Carries (db : Db) (job : ClaimedJob) (owner : Str) : Prop :=
  db.evaluation_jobs.any (holdsClaim job owner) = true

section
variable {now : Time} {db : Db} {job : ClaimedJob} {owner : Str} {revocation : Option JobRequest}
  {values : EvaluationJob → EvaluationJob}

theorem releaseClaimInSession_revokes (ht : TokenOk db job) (h : Carries db job owner)
    (hv : ∀ row, (values row).generation = row.generation ∧
      (values row).head_sha_hint = row.head_sha_hint)
    (hrev : revocation = scheduledRecheckRevocation job) (hs : job.reason = SCHEDULED_RECHECK_REASON)
    (hh : job.head_sha_hint ≠ none) :
    RevokedFirst job db (releaseClaimInSession now job owner revocation values db).1 := by
  obtain ⟨request, hreq, hper⟩ := scheduledRecheckRevocation_of hs hh
  obtain ⟨-, hrh, -, -⟩ := scheduledRecheckRevocation_eq_some hreq
  obtain ⟨head, hhead⟩ := Option.ne_none_iff_exists'.mp hh
  obtain ⟨id, row, hrow, hp⟩ := Dict.any_eq_true.mp h
  obtain ⟨hid, hg, -⟩ := holdsClaim_eq_true.mp hp
  subst hid
  have hkey : request.epochKey head = job.epochKey head :=
    (revokes_scheduledRecheck job request hreq).2 head
  have hany : db.evaluation_jobs.any (holdsClaim job owner) = true := h
  unfold releaseClaimInSession
  rw [if_pos hany, hrev, hreq]
  simp only [Option.bind_some, hrh, hhead, Option.map_some]
  obtain ⟨released, hreleased⟩ : ∃ released : Db, { db with
    evaluation_jobs := db.evaluation_jobs.updateWhere (holdsClaim job owner) values } = released :=
    ⟨_, rfl⟩
  rw [hreleased]
  have hgen : released.epochGeneration = db.epochGeneration := by rw [← hreleased]; rfl
  have hfence : released.fenceOf = db.fenceOf := by rw [← hreleased]; rfl
  have hget : released.evaluation_jobs.get? job.id = some (values row) := by
    rw [← hreleased]
    simp [hrow, hp]
  refine ⟨head, { values row with
    reason := request.reason
    shared_head_generation := (advanceSharedHeadEpochInSession now request head released).2
    bound_at := (advanceSharedHeadEpochInSession now request head released).1.advances
      (request.epochKey head) }, hhead, ?_, hper, ?_, ?_, ?_⟩
  · simp only [advance_evaluation_jobs, Dict.get?_updateWhere, hget, Option.map_some]
    rw [if_pos (by simp [(hv row).1, hg])]
  · exact (hv row).2.trans ((ht.current row hrow hg.symm).head head hhead)
  · obtain ⟨n, hn, hlt⟩ := @advancedByOne_advance now request head released _ rfl
    rw [hkey, hgen] at hn hlt
    exact ⟨n, hn, hlt⟩
  · show released.epochGeneration (request.epochKey head) + 1 = _
    rw [hgen, hkey]

end

/-- Every token in every run, and every failure and late deferral with any token. -/
theorem scheduled_recheck_is_prompt {r : RecheckRun} (hr : r.Reachable) :
    (∀ (i : Instant) (owner : Str) (lease_seconds : Nat) (work_class : Option WorkClass) (ready : Bool)
        (db' : Db) (job : ClaimedJob),
      Call.run i r.queue.db (.claim owner lease_seconds work_class ready) = .ok (db', some job) →
      job.keepsPublishedCheck = true →
      ∀ e ∈ endedAfter i (.claim owner lease_seconds work_class ready) (r.ended job.id)
        (r.queue.db.evaluation_jobs.get? job.id) (db'.evaluation_jobs.get? job.id),
        e.Prompt job.requested_at) ∧
    (∀ now job owner error max_delay_seconds,
      (job ∈ r.queue.held → job.reason = SCHEDULED_RECHECK_REASON → Carries r.queue.db job owner →
        RevokedFirst job r.queue.db (fail now job owner error max_delay_seconds r.queue.db)) ∧
      (¬Carries r.queue.db job owner →
        fail now job owner error max_delay_seconds r.queue.db = r.queue.db)) ∧
    ∀ now job owner error delay_seconds limit,
      (job ∈ r.queue.held → job.reason = SCHEDULED_RECHECK_REASON → Carries r.queue.db job owner →
        job.requested_at + seconds limit < now + seconds (clampDelay delay_seconds) →
        RevokedFirst job r.queue.db (defer now job owner error delay_seconds (some limit) r.queue.db).1) ∧
      (¬Carries r.queue.db job owner →
        defer now job owner error delay_seconds (some limit) r.queue.db = (r.queue.db, false)) := by
  have hinv := hr.inv
  refine ⟨?_, ?_, ?_⟩
  · intro i owner lease_seconds work_class ready db' job hrun hkeeps e he
    have hprompt := hinv.endedPromptly (fun job owner h => by cases h) hrun
      (fun request h => by cases h) job.id
    have hrun' : claim i.now i.job_locked owner lease_seconds work_class ready r.queue.db =
        (db', some job) := Except.ok.inj hrun
    have hissued : (claim i.now i.job_locked owner lease_seconds work_class ready r.queue.db).2 =
        some job := by rw [hrun']
    obtain ⟨row, -, hrow', hview⟩ := claim_issued hissued
    rw [hrun'] at hrow'
    simp only [ClaimedJob.keepsPublishedCheck, Bool.and_eq_true, decide_eq_true_eq] at hkeeps
    obtain ⟨hreason, hattempts⟩ := hkeeps
    rw [hview] at hreason hattempts
    have hrow := hprompt _ hrow' hreason
    match e, he with
    | .failed, he => exact absurd he hrow.failed
    | .lost, he =>
      have htwo := hrow.lost he
      simp only [EvaluationJob.claimed, Option.isSome_some, if_true] at htwo
      have hone : row.attempts + 1 ≤ 1 := hattempts
      exact absurd (le_trans htwo hone) (by decide)
    | .deferred limit retry_at, he =>
      rw [hview]
      exact hrow.deferred limit retry_at he
  · intro now job owner error max_delay_seconds
    refine ⟨fun hj hs hcarries => ?_, fun hstale => ?_⟩
    · exact releaseClaimInSession_revokes (hinv.queue.held job hj) hcarries (fun _ => ⟨rfl, rfl⟩) rfl hs
        ((hinv.tokens job hj).head hs)
    · exact congrArg Prod.fst (release_inert hstale)
  · intro now job owner error delay_seconds limit
    refine ⟨fun hj hs hcarries hlate => ?_, fun hstale => ?_⟩
    · exact releaseClaimInSession_revokes (hinv.queue.held job hj) hcarries (fun _ => ⟨rfl, rfl⟩)
        (if_pos hlate) hs ((hinv.tokens job hj).head hs)
    · exact release_inert hstale

/-! ## A run -/

def RecheckRun.next (i : Instant) (c : Call) (r : RecheckRun) : RecheckRun :=
  match c.run i r.queue.db with
  | .ok (db', a) => ⟨⟨db', r.queue.heldAfter c a⟩, fun id =>
      endedAfter i c (r.ended id) (r.queue.db.evaluation_jobs.get? id) (db'.evaluation_jobs.get? id)⟩
  | .error _ => r

theorem RecheckRun.Reachable.next {r : RecheckRun} (h : r.Reachable) (i : Instant) (c : Call)
    (hheld : ∀ job owner, c.claimUsed = some (job, owner) → job ∈ r.queue.held ∧ owner = job.lease_owner)
    (hc : ∀ request, c.jobRequest = some request → request.reason = SCHEDULED_RECHECK_REASON →
      request.head_sha_hint ≠ none) : (r.next i c).Reachable := by
  unfold RecheckRun.next
  split
  · rename_i hr
    exact h.tail (.call i c _ _ hheld hr hc)
  · exact h

/-- Two seconds later. -/
def laterInstant : Instant := { sampleInstant with now := seconds 2 }

def sampleRecheck : ClaimedJob where
  id := 2
  installation_id := 1
  repository_full_name := ⟨"o/r"⟩
  pull_number := 7
  reason := SCHEDULED_RECHECK_REASON
  work_class := .recovery
  head_sha_hint := some sampleHead
  last_delivery_id := none
  generation := 1
  authority_generation := 0
  shared_head_generation := 1
  attempts := 1
  requested_at := seconds 2
  available_at := seconds 2
  lease_owner := "w"
  base_ref_hint := some "main"
  bound_at := 1

def sampleEvaluated : RecheckRun :=
  ((((RecheckRun.initial.next sampleInstant
      (.acceptDelivery "d" "pull_request" (some (.job sampleRequest)))).next sampleInstant
    (.claimSharedHeadInvalidation "w" 30 none)).next sampleInstant
    (.completeSharedHeadInvalidation sampleInvalidation)).next sampleInstant
    (.claim "w" 30 none true)).next sampleInstant (.complete sampleClaim "w")

/-- The sample's evaluation completed, and a scan asked for its recheck. -/
def sampleRecheckRun : RecheckRun :=
  (sampleEvaluated.next laterInstant (.enqueueReconciliationIfDue sampleScan 1)).next laterInstant
    (.claim "w" 30 none true)

theorem sampleRecheckRun_reachable : sampleRecheckRun.Reachable := by
  have h₀ : RecheckRun.initial.Reachable := Relation.ReflTransGen.refl
  have h₁ := h₀.next sampleInstant (.acceptDelivery "d" "pull_request" (some (.job sampleRequest)))
    (fun _ _ h => by cases h) (fun request h => by cases h; decide)
  have h₂ := h₁.next sampleInstant (.claimSharedHeadInvalidation "w" 30 none) (fun _ _ h => by cases h)
    (fun request h => by cases h)
  have h₃ := h₂.next sampleInstant (.completeSharedHeadInvalidation sampleInvalidation)
    (fun _ _ h => by cases h) (fun request h => by cases h)
  have h₄ := h₃.next sampleInstant (.claim "w" 30 none true) (fun _ _ h => by cases h)
    (fun request h => by cases h)
  have h₅ := h₄.next sampleInstant (.complete sampleClaim "w")
    (fun _ _ h => by cases h; exact ⟨List.mem_singleton_self _, rfl⟩) (fun request h => by cases h)
  have h₆ := h₅.next laterInstant (.enqueueReconciliationIfDue sampleScan 1) (fun _ _ h => by cases h)
    (fun request h => by cases h; decide)
  exact h₆.next laterInstant (.claim "w" 30 none true) (fun _ _ h => by cases h)
    (fun request h => by cases h)

theorem sampleRecheckRun_held : sampleRecheckRun.queue.held = [sampleRecheck] := by rfl

/-- The recheck may keep the check; when it fails, the check is revoked first. -/
theorem sampleRecheck_is_prompt : sampleRecheck.keepsPublishedCheck = true ∧
    RevokedFirst sampleRecheck sampleRecheckRun.queue.db
      (fail (seconds 2) sampleRecheck "w" "timeout" 300 sampleRecheckRun.queue.db) := by
  refine ⟨by decide, ?_⟩
  refine ((scheduled_recheck_is_prompt sampleRecheckRun_reachable).2.1 (seconds 2) sampleRecheck "w"
    "timeout" 300).1 ?_ rfl ?_
  · rw [sampleRecheckRun_held]
    exact List.mem_singleton_self _
  · show sampleRecheckRun.queue.db.evaluation_jobs.any (holdsClaim sampleRecheck "w") = true
    decide +kernel

end ExtraCodeowners
