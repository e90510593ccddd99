import ExtraCodeowners.Rows

/-!
# What a reconciliation scan writes

A scan that answers false has at most observed the pull request; one that
answers true has bound its row to the observed head, behind a reset unless the
head was confirmed before. The insert of a scan may lose to a webhook.
-/

namespace ExtraCodeowners

/-- The completion of the pull request on record is confirmed and of this head. -/
def LastConfirmed (request : JobRequest) (head : HeadSha) (db : Db) : Prop :=
  ∃ state, db.reconciliation_states.get? request.pullKey = some state ∧ state.head_sha = head ∧
    state.confirmed_completed_at = some state.completed_at

theorem confirmedAt_isSome {request : JobRequest} {head : HeadSha} {db : Db} :
    (∃ t, confirmedAt request head db = some t) ↔ LastConfirmed request head db := by
  unfold confirmedAt LastConfirmed
  cases db.reconciliation_states.get? request.pullKey with
  | none => simp
  | some state =>
    by_cases hs : state.head_sha = head ∧ state.confirmed_completed_at = some state.completed_at
    · simp [Option.filter, hs]
    · simp only [Option.filter, hs, decide_false, Bool.false_eq_true, if_false, Option.map_none]
      constructor
      · rintro ⟨t, ht⟩
        cases ht
      · rintro ⟨state', hst, h⟩
        cases hst
        exact absurd h hs

/-! ## The insert of a scan -/

/-- The part of the scan after it read no row for the pull request, with the
completion it read. The tables are those its insert meets. -/
def insertReconciliation (now : Time) (request : JobRequest) (head : HeadSha) (recheck_seconds : Nat)
    (confirmed : Option Time) (db : Db) : Db × Bool :=
  match confirmed with
  | some confirmed_at =>
    if now < confirmed_at + seconds recheck_seconds then (observeState now request db, false)
    else
      let recheck := { request with reason := SCHEDULED_RECHECK_REASON }.postInit
      let (touched, generation) := touchSharedHeadEpochInSession now (request.epochKey head) db
      insertIfAbsent now recheck generation db touched
  | none =>
    let (advanced, generation) := advanceSharedHeadEpochInSession now request head db
    insertIfAbsent now request generation db advanced

section
variable {now : Time} {request : JobRequest} {head : HeadSha} {recheck_seconds : Nat} {db db' : Db}
  {answer : Bool} {observed_at : Time}

/-- A scan that passes its checks reads the row of the pull request first. -/
theorem enqueueReconciliationIfDue_eq (hw : request.work_class = .recovery)
    (hh : request.head_sha_hint = some head) (ho : request.observed_at = some observed_at)
    (hs : 1 ≤ recheck_seconds) :
    enqueueReconciliationIfDue now request recheck_seconds db =
      match pendingJob request db with
      | some existing =>
        if existing.head_sha_hint = some head ∨
            (existing.work_class = .interactive ∧ observed_at < existing.requested_at) then
          .ok (observeState now request db, false)
        else
          .ok (observeState now request (enqueueInSession now request none
            (advanceSharedHeadEpochInSession now request head db).2 false
            (existing.work_class ≠ .interactive)
            (advanceSharedHeadEpochInSession now request head db).1), true)
      | none =>
        .ok (insertReconciliation now request head recheck_seconds (confirmedAt request head db) db) := by
  unfold enqueueReconciliationIfDue insertReconciliation
  rw [if_neg (by simp [hw]), hh, ho]
  simp only [if_neg (not_lt.mpr hs)]
  cases pendingJob request db with
  | some existing => rfl
  | none =>
    cases confirmedAt request head db with
    | none => rfl
    | some t =>
      simp only
      split <;> rfl

/-- The checks of a scan that did not raise. -/
theorem enqueueReconciliationIfDue_checks
    (hr : enqueueReconciliationIfDue now request recheck_seconds db = .ok (db', answer)) :
    request.work_class = .recovery ∧ 1 ≤ recheck_seconds ∧
      ∃ head observed_at, request.head_sha_hint = some head ∧ request.observed_at = some observed_at := by
  unfold enqueueReconciliationIfDue at hr
  by_cases hw : request.work_class ≠ .recovery
  · rw [if_pos hw] at hr; cases hr
  rw [if_neg hw] at hr
  split at hr
  · cases hr
  · cases hr
  · rename_i head observed_at hh ho
    by_cases hs : recheck_seconds < 1
    · rw [if_pos hs] at hr; cases hr
    · exact ⟨not_not.mp hw, not_lt.mp hs, head, observed_at, hh, ho⟩

/-- One scan of a pull request: in one go, or with a row of the pull request
committed by another transaction between its read of `seen` and its insert. -/
inductive Reconciles (now : Time) (request : JobRequest) (recheck_seconds : Nat) (db : Db) :
    Db → Bool → Prop where
  | alone (db' : Db) (answer : Bool) :
      enqueueReconciliationIfDue now request recheck_seconds db = .ok (db', answer) →
      Reconciles now request recheck_seconds db db' answer
  | raced (seen : Db) (head : HeadSha) (id : Nat) (row : EvaluationJob) :
      request.head_sha_hint = some head → pendingJob request seen = none →
      db.evaluation_jobs.get? id = some row → row.pullKey = request.pullKey →
      Reconciles now request recheck_seconds db
        (insertReconciliation now request head recheck_seconds (confirmedAt request head seen) db).1
        (insertReconciliation now request head recheck_seconds (confirmedAt request head seen) db).2

/-! ## A scan that answers false -/

/-- Nothing changed but the time at which the pull request was last observed. -/
structure OnlyObserved (request : JobRequest) (db db' : Db) : Prop where
  tables : db' = { db with reconciliation_states := db'.reconciliation_states }
  states : ∀ key, db'.reconciliation_states.get? key = db.reconciliation_states.get? key ∨
    key = request.pullKey ∧ ∃ state t, db.reconciliation_states.get? key = some state ∧
      db'.reconciliation_states.get? key = some { state with observed_at := t }

theorem OnlyObserved.of_eq (h : db' = db) : OnlyObserved request db db' := by
  subst h
  exact ⟨rfl, fun _ => Or.inl rfl⟩

theorem onlyObserved_observeState : OnlyObserved request db (observeState now request db) := by
  refine ⟨rfl, fun key => ?_⟩
  simp only [observeState, Dict.get?_updateWhere]
  cases hs : db.reconciliation_states.get? key with
  | none => exact Or.inl rfl
  | some state =>
    by_cases hk : key = request.pullKey
    · exact Or.inr ⟨hk, state, now, rfl, by simp [hk]⟩
    · exact Or.inl (by simp [hk])

/-- An insert that loses leaves nothing behind, whatever was prepared. -/
theorem insertIfAbsent_lost {mid : Db} {g : Nat} (ha : (insertIfAbsent now request g db mid).2 = false) :
    (insertIfAbsent now request g db mid).1 = db := by
  unfold insertIfAbsent at ha ⊢
  split at ha
  · rename_i hany
    rw [if_pos hany]
  · cases ha

/-- An insert that meets a row loses. -/
theorem insertIfAbsent_present {mid : Db} {g : Nat} {id : Nat} {row : EvaluationJob}
    (hrow : db.evaluation_jobs.get? id = some row) (hp : row.pullKey = request.pullKey) :
    (insertIfAbsent now request g db mid).2 = false := by
  unfold insertIfAbsent
  rw [if_pos (Dict.any_eq_true.mpr ⟨id, row, hrow, by simpa [isForRequest] using hp⟩)]

theorem postInit_pullKey (request : JobRequest) : request.postInit.pullKey = request.pullKey := by
  unfold JobRequest.postInit
  split <;> rfl

theorem insertReconciliation_present {confirmed : Option Time} {id : Nat} {row : EvaluationJob}
    (hrow : db.evaluation_jobs.get? id = some row) (hp : row.pullKey = request.pullKey) :
    (insertReconciliation now request head recheck_seconds confirmed db).2 = false := by
  unfold insertReconciliation
  cases confirmed with
  | none => exact insertIfAbsent_present hrow hp
  | some confirmed_at =>
    simp only
    split
    · rfl
    · refine insertIfAbsent_present hrow (hp.trans ?_)
      exact (postInit_pullKey { request with reason := SCHEDULED_RECHECK_REASON }).symm

theorem onlyObserved_insertReconciliation {confirmed : Option Time}
    (ha : (insertReconciliation now request head recheck_seconds confirmed db).2 = false) :
    OnlyObserved request db
      (insertReconciliation now request head recheck_seconds confirmed db).1 := by
  unfold insertReconciliation at ha ⊢
  cases confirmed with
  | none =>
    exact .of_eq (insertIfAbsent_lost ha)
  | some confirmed_at =>
    simp only at ha ⊢
    split at ha
    · rename_i hdue
      rw [if_pos hdue]
      exact onlyObserved_observeState
    · rename_i hdue
      rw [if_neg hdue]
      exact .of_eq (insertIfAbsent_lost ha)

theorem insertIfAbsent_absent {mid : Db} {g : Nat}
    (hnone : ∀ id row, db.evaluation_jobs.get? id = some row → row.pullKey ≠ request.pullKey) :
    insertIfAbsent now request g db mid =
      (insertEvaluationJob (newJob now request none g mid) mid, true) := by
  unfold insertIfAbsent
  rw [if_neg]
  intro hany
  obtain ⟨id, row, hrow, hfor⟩ := Dict.any_eq_true.mp hany
  exact hnone id row hrow (by simpa [isForRequest] using hfor)

/-! ## A scan that answers true -/

/-- No row waits for the pull request. -/
def NoRow (request : JobRequest) (db : Db) : Prop :=
  ∀ id row, db.evaluation_jobs.get? id = some row → row.pullKey ≠ request.pullKey

/-- The only row of the pull request. -/
structure OnlyRow (request : JobRequest) (db : Db) (id : Nat) (row : EvaluationJob) : Prop where
  found : db.evaluation_jobs.get? id = some row
  pull : row.pullKey = request.pullKey
  only : ∀ id' row', db.evaluation_jobs.get? id' = some row' → row'.pullKey = request.pullKey → id' = id

theorem onlyRow_coalesced {mid : Db} {delivery_id : Option Str} {g : Nat} {pw : Bool} {id : Nat}
    {row : EvaluationJob} (hk : Keyed db) (hrow : db.evaluation_jobs.get? id = some row)
    (hp : row.pullKey = request.pullKey) (hj : mid.evaluation_jobs = db.evaluation_jobs) :
    OnlyRow request (enqueueInSession now request delivery_id g false pw mid) id
      (coalescedJob now request delivery_id g pw mid row) := by
  have hfor : isForRequest request row = true := by simpa [isForRequest] using hp
  have hjobs : (enqueueInSession now request delivery_id g false pw mid).evaluation_jobs =
      db.evaluation_jobs.updateWhere (fun _ job => isForRequest request job)
        (coalescedJob now request delivery_id g pw mid) := by
    unfold enqueueInSession
    rw [if_pos (Dict.any_eq_true.mpr ⟨id, row, hj ▸ hrow, by simp [hfor]⟩)]
    simp [hj]
  refine ⟨?_, hp, ?_⟩
  · rw [hjobs, Dict.get?_updateWhere, hrow, Option.map_some, if_pos hfor]
  · intro id' row' hrow' hp'
    rw [hjobs, Dict.get?_updateWhere] at hrow'
    obtain ⟨old, hold, hnew⟩ := Option.map_eq_some_iff.mp hrow'
    refine hk.unique id' id old row hold hrow ?_
    by_cases hof : isForRequest request old = true
    · rw [hp]
      simpa [isForRequest] using hof
    · rw [if_neg hof] at hnew
      rw [hnew, hp', hp]

theorem onlyRow_inserted {mid : Db} {row : EvaluationJob} (hk : Keyed db) (hnone : NoRow request db)
    (hp : row.pullKey = request.pullKey) (hj : mid.evaluation_jobs = db.evaluation_jobs)
    (hn : mid.next_evaluation_job = db.next_evaluation_job) :
    OnlyRow request (insertEvaluationJob row mid) db.next_evaluation_job row := by
  have hfree : db.evaluation_jobs.get? db.next_evaluation_job = none := by
    cases hg : db.evaluation_jobs.get? db.next_evaluation_job with
    | none => rfl
    | some x => exact absurd (hk.fresh _ _ hg) (lt_irrefl _)
  have hget : ∀ id', (insertEvaluationJob row mid).evaluation_jobs.get? id' =
      if id' = db.next_evaluation_job then some row else db.evaluation_jobs.get? id' := by
    intro id'
    simp only [insertEvaluationJob, hj, hn]
    exact Dict.get?_insertNew hfree row id'
  refine ⟨by rw [hget, if_pos rfl], hp, ?_⟩
  intro id' row' hrow' hp'
  rw [hget] at hrow'
  by_contra hne
  rw [if_neg hne] at hrow'
  exact hnone id' row' hrow' hp'

/-- The head moved by one advance, whose reset is still to come. -/
def AdvancedByOne (key : EpochKey) (db db' : Db) : Prop :=
  ∃ invalidated, db'.fenceOf key = some (db.epochGeneration key + 1, invalidated) ∧
    invalidated < db.epochGeneration key + 1

theorem invalidated_lt_next (key : EpochKey) (db : Db) :
    ((db.fenceOf key).map Prod.snd).getD 0 < db.epochGeneration key + 1 := by
  unfold Db.fenceOf Db.epochGeneration
  cases db.shared_head_epochs.get? key with
  | none => exact Nat.zero_lt_one
  | some e => exact Nat.lt_succ_of_le e.invalidation_bounds

theorem advancedByOne_advance {mid : Db}
    (he : mid.shared_head_epochs = (advanceSharedHeadEpochInSession now request head db).1.shared_head_epochs) :
    AdvancedByOne (request.epochKey head) db mid := by
  refine ⟨_, ?_, invalidated_lt_next (request.epochKey head) db⟩
  have hf : mid.fenceOf (request.epochKey head) =
      (advanceSharedHeadEpochInSession now request head db).1.fenceOf (request.epochKey head) := by
    unfold Db.fenceOf
    rw [he]
  rw [hf, advance_fenceOf, if_pos rfl]

/-- What a scan that answers true has written. -/
structure Scanned (request : JobRequest) (head : HeadSha) (db db' : Db) (row : EvaluationJob) : Prop where
  observed : row.head_sha_hint = some head
  recheck : NoRow request db → LastConfirmed request head db →
    db'.fenceOf (request.epochKey head) = db.fenceOf (request.epochKey head) ∧
      row.reason = SCHEDULED_RECHECK_REASON ∧
      row.shared_head_generation = db'.epochGeneration (request.epochKey head)
  advanced : ¬(NoRow request db ∧ LastConfirmed request head db) →
    AdvancedByOne (request.epochKey head) db db' ∧
      row.shared_head_generation = db.epochGeneration (request.epochKey head) + 1

theorem scanned_insertReconciliation (hk : Keyed db) (hh : request.head_sha_hint = some head)
    (hnone : NoRow request db)
    (ha : (insertReconciliation now request head recheck_seconds (confirmedAt request head db) db).2 = true) :
    ∃ id row,
      OnlyRow request
        (insertReconciliation now request head recheck_seconds (confirmedAt request head db) db).1 id row ∧
      Scanned request head db
        (insertReconciliation now request head recheck_seconds (confirmedAt request head db) db).1 row := by
  unfold insertReconciliation at ha ⊢
  cases hc : confirmedAt request head db with
  | none =>
    have hlast : ¬LastConfirmed request head db := by
      rw [← confirmedAt_isSome, hc]
      rintro ⟨t, ht⟩
      cases ht
    simp only [insertIfAbsent_absent hnone]
    refine ⟨_, _, onlyRow_inserted hk hnone rfl rfl rfl, hh, fun _ hl => absurd hl hlast, fun _ => ?_⟩
    exact ⟨advancedByOne_advance rfl, rfl⟩
  | some confirmed_at =>
    rw [hc] at ha
    simp only at ha ⊢
    split at ha
    · cases ha
    · rename_i hdue
      rw [if_neg hdue]
      have hpull := postInit_pullKey { request with reason := SCHEDULED_RECHECK_REASON }
      have hnone' : ∀ id row, db.evaluation_jobs.get? id = some row →
          row.pullKey ≠ { request with reason := SCHEDULED_RECHECK_REASON }.postInit.pullKey := by
        intro id row hrow
        rw [hpull]
        exact hnone id row hrow
      simp only [insertIfAbsent_absent hnone']
      have hlast := confirmedAt_isSome.mp ⟨confirmed_at, hc⟩
      refine ⟨_, _, onlyRow_inserted hk hnone hpull rfl rfl, ?_, fun _ _ => ⟨?_, ?_, ?_⟩,
        fun hn => absurd ⟨hnone, hlast⟩ hn⟩
      · exact (postInit_head _).trans hh
      · exact touch_fenceOf _ _
      · show JobRequest.reason (JobRequest.postInit _) = _
        unfold JobRequest.postInit
        split <;> rfl
      · show db.epochGeneration _ = Db.epochGeneration (touchSharedHeadEpochInSession now _ db).1 _
        rw [epochGeneration_eq, epochGeneration_eq, touch_fenceOf]

/-! ## Every scan -/

theorem Reconciles.onlyObserved (h : Reconciles now request recheck_seconds db db' false) :
    OnlyObserved request db db' := by
  generalize hans : false = answer at h
  cases h with
  | raced => exact onlyObserved_insertReconciliation hans.symm
  | alone db' answer hr =>
    subst hans
    obtain ⟨hw, hs, head, observed_at, hh, ho⟩ := enqueueReconciliationIfDue_checks hr
    rw [enqueueReconciliationIfDue_eq hw hh ho hs] at hr
    cases he : pendingJob request db with
    | some existing =>
      rw [he] at hr
      simp only at hr
      split at hr
      · cases hr
        exact onlyObserved_observeState
      · cases hr
    | none =>
      rw [he] at hr
      injection hr with hr
      rw [← (Prod.mk.inj hr).1]
      exact onlyObserved_insertReconciliation (Prod.mk.inj hr).2

theorem Reconciles.scanned (hk : Keyed db) (h : Reconciles now request recheck_seconds db db' true) :
    ∃ head id row, request.head_sha_hint = some head ∧ OnlyRow request db' id row ∧
      Scanned request head db db' row := by
  generalize hans : true = answer at h
  cases h with
  | raced seen head id row hh hseen hrow hp =>
    rw [insertReconciliation_present hrow hp] at hans
    cases hans
  | alone db' answer hr =>
    subst hans
    obtain ⟨hw, hs, head, observed_at, hh, ho⟩ := enqueueReconciliationIfDue_checks hr
    rw [enqueueReconciliationIfDue_eq hw hh ho hs] at hr
    cases he : pendingJob request db with
    | some existing =>
      rw [he] at hr
      simp only at hr
      obtain ⟨hp, id, hrow⟩ := pendingJob_some he
      split at hr
      · cases hr
      · injection hr with hr
        rw [← (Prod.mk.inj hr).1]
        have honly := @onlyRow_coalesced now request db
          (advanceSharedHeadEpochInSession now request head db).1 none
          (advanceSharedHeadEpochInSession now request head db).2 (existing.work_class ≠ .interactive)
          id existing hk hrow hp rfl
        refine ⟨head, id, _, hh, ⟨honly.found, honly.pull, honly.only⟩, hh,
          fun hnone _ => absurd hp (hnone id existing hrow), fun _ => ⟨?_, rfl⟩⟩
        exact advancedByOne_advance enqueueInSession_epochs
    | none =>
      rw [he] at hr
      injection hr with hr
      obtain ⟨h₁, h₂⟩ := Prod.mk.inj hr
      rw [← h₁]
      obtain ⟨id, row, honly, hscan⟩ := scanned_insertReconciliation hk hh
        (fun _ _ hrow => pendingJob_none he hrow) h₂
      exact ⟨head, id, row, hh, honly, hscan⟩

/-- An interactive row for another head that is younger than the observation
makes the scan answer false. -/
theorem Reconciles.yields (hk : Keyed db) (h : Reconciles now request recheck_seconds db db' answer)
    {id : Nat} {row : EvaluationJob} (hrow : db.evaluation_jobs.get? id = some row)
    (hp : row.pullKey = request.pullKey) (hi : row.work_class = .interactive)
    (hage : ∀ observed_at, request.observed_at = some observed_at → observed_at < row.requested_at) :
    answer = false := by
  cases h with
  | raced seen head id row hh hseen hrow hp => exact insertReconciliation_present hrow hp
  | alone db' answer hr =>
    obtain ⟨hw, hs, head, observed_at, hh, ho⟩ := enqueueReconciliationIfDue_checks hr
    rw [enqueueReconciliationIfDue_eq hw hh ho hs] at hr
    cases he : pendingJob request db with
    | none => exact absurd hp (pendingJob_none he hrow)
    | some existing =>
      rw [he] at hr
      obtain ⟨hp', id', hrow'⟩ := pendingJob_some he
      have hid := hk.unique id id' row existing hrow hrow' (hp.trans hp'.symm)
      rw [← hid, hrow] at hrow'
      cases hrow'
      simp only at hr
      rw [if_pos (Or.inr ⟨hi, hage observed_at ho⟩)] at hr
      cases hr
      rfl

/-- Every state the schema allows, every scan, alone or raced. -/
theorem reconciliation_is_framed (hk : Keyed db)
    (h : Reconciles now request recheck_seconds db db' answer) :
    (answer = false → OnlyObserved request db db') ∧
    (answer = true → ∃ head id row, request.head_sha_hint = some head ∧ OnlyRow request db' id row ∧
      Scanned request head db db' row) ∧
    (∀ id row, db.evaluation_jobs.get? id = some row → row.pullKey = request.pullKey →
      row.work_class = .interactive →
      (∀ observed_at, request.observed_at = some observed_at → observed_at < row.requested_at) →
      db'.evaluation_jobs.get? id = some row) := by
  refine ⟨?_, ?_, ?_⟩
  · rintro rfl
    exact h.onlyObserved
  · rintro rfl
    exact h.scanned hk
  · intro id row hrow hp hi hage
    have hans := h.yields hk hrow hp hi hage
    subst hans
    rw [h.onlyObserved.tables]
    exact hrow

end

/-- A scan that sees the pull request of the samples. -/
def sampleScan : JobRequest where
  installation_id := 1
  repository_full_name := ⟨"o/r"⟩
  pull_number := 7
  reason := PERIODIC_RECONCILIATION_REASON
  head_sha_hint := some sampleHead
  work_class := .recovery
  observed_at := some 0
  base_ref_hint := some "main"

/-- The first scan of a pull request nobody knows advances its head. -/
theorem sampleScan_is_framed :
    ∃ id row, OnlyRow sampleScan (insertReconciliation 0 sampleScan sampleHead 1 none Db.initial).1 id row ∧
      row.shared_head_generation = 1 := by
  have h : Reconciles 0 sampleScan 1 Db.initial
      (insertReconciliation 0 sampleScan sampleHead 1 none Db.initial).1 true := .alone _ _ rfl
  obtain ⟨head, id, row, hh, honly, hscan⟩ := (reconciliation_is_framed Keyed.initial h).2.1 rfl
  refine ⟨id, row, honly, (hscan.advanced ?_).2⟩
  rintro ⟨-, state, hs, -⟩
  cases hs

end ExtraCodeowners
