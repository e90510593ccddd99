import ExtraCodeowners.Rows

/-!
# What a call does to the epoch of a head

One inversion lemma for every call of the store: an epoch is advanced, leased,
released, completed or pruned, and nothing else. It holds for any token.
-/

namespace ExtraCodeowners

/-- An interactive evaluation bound to the head waits. -/
def Waiting (db : Db) (key : EpochKey) : Prop :=
  ∃ id row, db.evaluation_jobs.get? id = some row ∧ row.epochKey key.head_sha = key ∧
    row.head_sha_hint = some key.head_sha ∧ row.state = .pending ∧ row.work_class = .interactive

/-- A claim's end, as far as the fence of the head is concerned. -/
structure Unleased (e e' : SharedHeadEpoch) : Prop where
  generation : e'.generation = e.generation
  invalidated_generation : e'.invalidated_generation = e.invalidated_generation
  work_class : e'.work_class = e.work_class
  lease_owner : e'.lease_owner = none
  lease_until : e'.lease_until = none

def SharedHeadEpoch.leased (e : SharedHeadEpoch) (owner : Str) (lease_until : Time) : SharedHeadEpoch :=
  { e with
    lease_owner := some owner
    lease_until := some lease_until
    attempts := e.attempts + 1 }

inductive EpochChange (i : Instant) (c : Call) (db db' : Db) (key : EpochKey) : Prop where
  | kept : db'.shared_head_epochs.get? key = db.shared_head_epochs.get? key →
      db'.advances key = db.advances key → EpochChange i c db db' key
  | advanced (waiting : Bool) (work_class : WorkClass) : (Waiting db key → waiting = true) →
      db'.shared_head_epochs.get? key =
        some (nextEpoch i.now waiting work_class (db.shared_head_epochs.get? key)) →
      db'.advances key = db.advances key + 1 → EpochChange i c db db' key
  | touched (e : SharedHeadEpoch) : db.shared_head_epochs.get? key = some e →
      db'.shared_head_epochs.get? key = some { e with changed_at := i.now } →
      db'.advances key = db.advances key → EpochChange i c db db' key
  | claimed (e : SharedHeadEpoch) (owner : Str) (lease_seconds : Nat) (work_class : Option WorkClass) :
      c = .claimSharedHeadInvalidation owner lease_seconds work_class →
      db.shared_head_epochs.get? key = some e →
      isClaimableInvalidation i.now work_class db key e = true →
      db'.shared_head_epochs.get? key = some (e.leased owner (i.now + seconds lease_seconds)) →
      db'.advances key = db.advances key → EpochChange i c db db' key
  | renewed (e : SharedHeadEpoch) (job : ClaimedSharedHeadInvalidation) (lease_seconds : Nat) :
      c = .renewSharedHeadInvalidation job lease_seconds → key = job.epochKey →
      db.shared_head_epochs.get? key = some e → holdsInvalidation i.now job e = true →
      db'.shared_head_epochs.get? key =
        some { e with lease_until := some (i.now + seconds lease_seconds) } →
      db'.advances key = db.advances key → EpochChange i c db db' key
  | completed (e : SharedHeadEpoch) (job : ClaimedSharedHeadInvalidation) :
      c = .completeSharedHeadInvalidation job → key = job.epochKey →
      db.shared_head_epochs.get? key = some e → holdsInvalidation i.now job e = true →
      db'.shared_head_epochs.get? key = some e.completed →
      db'.advances key = db.advances key → EpochChange i c db db' key
  | unleased (e e' : SharedHeadEpoch) (job : ClaimedSharedHeadInvalidation) :
      ((∃ error max_delay, c = .failSharedHeadInvalidation job error max_delay) ∨
        ∃ error delay, c = .deferSharedHeadInvalidation job error delay) →
      key = job.epochKey → db.shared_head_epochs.get? key = some e →
      holdsInvalidation i.now job e = true → db'.shared_head_epochs.get? key = some e' →
      Unleased e e' → db'.advances key = db.advances key → EpochChange i c db db' key
  | pruned (e : SharedHeadEpoch) (older_than : Time) : c = .pruneSharedHeadEpochs older_than →
      db.shared_head_epochs.get? key = some e → isPrunable older_than db key e = true →
      db'.shared_head_epochs.get? key = none → db'.advances key = db.advances key →
      EpochChange i c db db' key

section
variable {i : Instant} {c : Call} {db mid db' db'' : Db} {key : EpochKey}

/-- Only the epochs and their advances matter to a change. -/
theorem EpochChange.then_same (h : EpochChange i c db db' key)
    (he : db''.shared_head_epochs = db'.shared_head_epochs) (ha : db''.advances = db'.advances) :
    EpochChange i c db db'' key := by
  cases h with
  | kept h₁ h₂ => exact .kept (he ▸ h₁) (ha ▸ h₂)
  | advanced waiting work_class hw h₁ h₂ => exact .advanced waiting work_class hw (he ▸ h₁) (ha ▸ h₂)
  | touched e h₀ h₁ h₂ => exact .touched e h₀ (he ▸ h₁) (ha ▸ h₂)
  | claimed e owner lease_seconds work_class hc h₀ hp h₁ h₂ =>
    exact .claimed e owner lease_seconds work_class hc h₀ hp (he ▸ h₁) (ha ▸ h₂)
  | renewed e job lease_seconds hc hk h₀ hp h₁ h₂ =>
    exact .renewed e job lease_seconds hc hk h₀ hp (he ▸ h₁) (ha ▸ h₂)
  | completed e job hc hk h₀ hp h₁ h₂ => exact .completed e job hc hk h₀ hp (he ▸ h₁) (ha ▸ h₂)
  | unleased e e' job hc hk h₀ hp h₁ hu h₂ =>
    exact .unleased e e' job hc hk h₀ hp (he ▸ h₁) hu (ha ▸ h₂)
  | pruned e older_than hc h₀ hp h₁ h₂ => exact .pruned e older_than hc h₀ hp (he ▸ h₁) (ha ▸ h₂)

theorem EpochChange.of_same (he : db'.shared_head_epochs = db.shared_head_epochs)
    (ha : db'.advances = db.advances) : EpochChange i c db db' key := .kept (by rw [he]) (by rw [ha])

theorem SameQueue.epochChange (h : SameQueue db db') : EpochChange i c db db' key :=
  .of_same h.epochs h.advances

theorem foregroundWaiting_of_waiting {request : JobRequest} {head : HeadSha}
    (h : Waiting db (request.epochKey head)) : foregroundWaiting request head db = true := by
  obtain ⟨id, row, hr, hk, hh, hs, hw⟩ := h
  simp only [EvaluationJob.epochKey, JobRequest.epochKey, EpochKey.mk.injEq] at hk
  refine Dict.any_eq_true.mpr ⟨id, row, hr, ?_⟩
  have hh' : row.head_sha_hint = some head := hh
  simp [hk.1, hk.2.1, hs, hw, hh']

/-- An advance after a rewrite of the rows that leaves those waiting in place. -/
theorem epochChange_advance (request : JobRequest) (head : HeadSha)
    (he : mid.shared_head_epochs = db.shared_head_epochs) (ha : mid.advances = db.advances)
    (hw : Waiting db key → Waiting mid key) :
    EpochChange i c db (advanceSharedHeadEpochInSession i.now request head mid).1 key := by
  by_cases hk : key = request.epochKey head
  · subst hk
    refine .advanced (foregroundWaiting request head mid) request.work_class
      (fun h => foregroundWaiting_of_waiting (hw h)) ?_ ?_
    · simp [advanceSharedHeadEpochInSession, he]
    · simp [advance_advances, ha]
  · refine .kept ?_ ?_
    · simp [advanceSharedHeadEpochInSession, Dict.get?_set, hk, he]
    · simp [advance_advances, hk, ha]

theorem epochChange_trigger (request : JobRequest) (head : HeadSha) {delivery_id : Option Str} {g : Nat}
    {pd pw : Bool} :
    EpochChange i c db (enqueueInSession i.now request delivery_id g pd pw
      (advanceSharedHeadEpochInSession i.now request head db).1) key :=
  (epochChange_advance request head rfl rfl id).then_same enqueueInSession_epochs
    enqueueInSession_advances

/-! ## Triggers -/

theorem epochChange_enqueueSharedHeadTrigger {request : JobRequest}
    (hr : enqueueSharedHeadTrigger i.now request db = .ok db') : EpochChange i c db db' key := by
  unfold enqueueSharedHeadTrigger at hr
  cases hh : request.head_sha_hint with
  | none => rw [hh] at hr; cases hr
  | some head =>
    rw [hh] at hr
    cases hr
    exact epochChange_trigger request head

theorem epochChange_enqueue {request : JobRequest} (hr : enqueue i.now request db = .ok db') :
    EpochChange i c db db' key := by
  unfold enqueue at hr
  cases hh : request.head_sha_hint with
  | none =>
    rw [hh] at hr
    cases hr
    exact .of_same enqueueInSession_epochs enqueueInSession_advances
  | some head =>
    rw [hh] at hr
    exact epochChange_enqueueSharedHeadTrigger hr

theorem epochChange_enqueueForSharedHeadGeneration {request : JobRequest} {g : Nat} {answer : Bool}
    (hr : enqueueForSharedHeadGeneration i.now request g db = .ok (db', answer)) :
    EpochChange i c db db' key := by
  unfold enqueueForSharedHeadGeneration at hr
  split at hr
  · cases hr
  · split at hr
    · cases hr
    · split at hr
      · cases hr
        exact .of_same rfl rfl
      · split at hr
        · cases hr
          exact .of_same rfl rfl
        · cases hr
          exact .of_same enqueueInSession_epochs enqueueInSession_advances

/-- A lost insert race undoes the advance. -/
theorem epochChange_insertIfAbsent (now : Time) (request : JobRequest) (g : Nat)
    (h : EpochChange i c db mid key) :
    EpochChange i c db (insertIfAbsent now request g db mid).1 key := by
  unfold insertIfAbsent
  split
  · exact .of_same rfl rfl
  · exact h.then_same rfl rfl

theorem epochChange_enqueueIfAbsent {request : JobRequest} :
    EpochChange i c db (enqueueIfAbsent i.now request db).1 key := by
  unfold enqueueIfAbsent
  split
  · exact epochChange_insertIfAbsent i.now request 0 (.of_same rfl rfl)
  · rename_i head _
    exact epochChange_insertIfAbsent i.now request _ (epochChange_advance request head rfl rfl id)

theorem epochChange_touch (k : EpochKey) :
    EpochChange i c db (touchSharedHeadEpochInSession i.now k db).1 key := by
  by_cases hk : key = k
  · subst hk
    cases he : db.shared_head_epochs.get? key with
    | none => exact .kept (by simp [touchSharedHeadEpochInSession, he]) rfl
    | some e => exact .touched e he (by simp [touchSharedHeadEpochInSession, he]) rfl
  · refine .kept ?_ rfl
    simp only [touchSharedHeadEpochInSession, Dict.get?_updateWhere]
    cases db.shared_head_epochs.get? key <;> simp [hk]

theorem epochChange_enqueueReconciliationIfDue {request : JobRequest} {recheck_seconds : Nat}
    {answer : Bool}
    (hr : enqueueReconciliationIfDue i.now request recheck_seconds db = .ok (db', answer)) :
    EpochChange i c db db' key := by
  unfold enqueueReconciliationIfDue at hr
  by_cases hw : request.work_class ≠ .recovery
  · rw [if_pos hw] at hr; cases hr
  rw [if_neg hw] at hr
  split at hr
  · cases hr
  · cases hr
  · rename_i head observed_at _ _
    by_cases hs : recheck_seconds < 1
    · rw [if_pos hs] at hr; cases hr
    rw [if_neg hs] at hr
    split at hr
    · split at hr
      · cases hr
        exact .of_same rfl rfl
      · cases hr
        exact (epochChange_trigger request head).then_same rfl rfl
    · split at hr
      · split at hr
        · cases hr
          exact .of_same rfl rfl
        · injection hr with hr
          rw [← (Prod.mk.inj hr).1]
          exact epochChange_insertIfAbsent i.now _ _ (epochChange_touch (request.epochKey head))
      · injection hr with hr
        rw [← (Prod.mk.inj hr).1]
        exact epochChange_insertIfAbsent i.now _ _ (epochChange_advance request head rfl rfl id)

theorem epochChange_acceptDelivery {delivery_id event : Str} {request : Option DeliveryRequest}
    {answer : DeliveryAcceptance}
    (hr : acceptDelivery i.now delivery_id event request db = .ok (db', answer)) :
    EpochChange i c db db' key := by
  unfold acceptDelivery at hr
  split at hr
  · rename_i delivery _
    cases hp : replayDelivery event request delivery with
    | error e => simp [hp, Except.map] at hr
    | ok a =>
      simp only [hp, Except.map] at hr
      cases hr
      exact .of_same rfl rfl
  · match request with
    | none =>
      cases hr
      exact .of_same rfl rfl
    | some (.authority request) =>
      simp only at hr
      injection hr with hr
      rw [← (Prod.mk.inj hr).1]
      have hs := fun db => @enqueueAuthorityInSession_same i.now db request
      refine EpochChange.of_same ((hs _).epochs.trans ?_) ((hs _).advances.trans ?_) <;>
        split <;> rfl
    | some (.job request) =>
      cases hh : request.head_sha_hint with
      | none => simp [hh] at hr
      | some head =>
        simp only [hh] at hr
        injection hr with hr
        rw [← (Prod.mk.inj hr).1]
        have hadv : EpochChange i c db (advanceSharedHeadEpochInSession i.now request head db).1 key :=
          epochChange_advance request head rfl rfl id
        exact hadv.then_same enqueueInSession_epochs enqueueInSession_advances

/-! ## Claims on evaluations -/

theorem epochChange_bindClaimToHead {job : ClaimedJob} {head : HeadSha} :
    EpochChange i c db (bindClaimToHead i.now job head db).1 key := by
  unfold bindClaimToHead
  split
  · exact .of_same rfl rfl
  · split
    · have hadv : EpochChange i c db
          (advanceSharedHeadEpochInSession i.now (requestOf job (some head) none) head db).1 key :=
        epochChange_advance _ head rfl rfl id
      exact hadv.then_same rfl rfl
    · exact .of_same rfl rfl

theorem epochChange_claim {locked : Nat → Bool} {owner : Str} {lease_seconds : Nat}
    {work_class : Option WorkClass} {ready : Bool} :
    EpochChange i c db (claim i.now locked owner lease_seconds work_class ready db).1 key := by
  unfold claim
  split <;> exact .of_same rfl rfl

theorem epochChange_observeEvaluationBase {job : ClaimedJob} {base_ref : Str} :
    EpochChange i c db (observeEvaluationBase i.now job base_ref db).1 key := by
  unfold observeEvaluationBase
  generalize (if isBaseRefHint base_ref then some base_ref else none) = hint
  simp only
  split
  · split
    · exact .of_same wake_epochs wake_advances
    · exact .of_same rfl rfl
  · exact .of_same rfl rfl

theorem epochChange_complete {job : ClaimedJob} {owner : Str} :
    EpochChange i c db (complete i.now job owner db).1 key := by
  unfold complete
  split
  · exact .of_same rfl rfl
  · simp only
    split <;> exact .of_same rfl rfl

/-- A released row waits as it did. -/
theorem waiting_released {p : Nat → EvaluationJob → Bool} {values : EvaluationJob → EvaluationJob}
    (hv : ∀ row, Released row (values row)) (h : Waiting db key) :
    Waiting { db with evaluation_jobs := db.evaluation_jobs.updateWhere p values } key := by
  obtain ⟨id, row, hr, hk, hh, hs, hw⟩ := h
  refine ⟨id, if p id row then values row else row, by simp [hr], ?_⟩
  split
  · exact ⟨(epochKey_eq_of_pull (hv row).pull _).trans hk, (hv row).head.trans hh, (hv row).state hs,
      (hv row).work_class.trans hw⟩
  · exact ⟨hk, hh, hs, hw⟩

theorem epochChange_release {job : ClaimedJob} {owner : Str} {revocation : Option JobRequest}
    {values : EvaluationJob → EvaluationJob} (hv : ∀ row, Released row (values row)) :
    EpochChange i c db (releaseClaimInSession i.now job owner revocation values db).1 key := by
  unfold releaseClaimInSession
  split
  · simp only
    split
    · exact .of_same rfl rfl
    · rename_i request head _
      have hadv : EpochChange i c db (advanceSharedHeadEpochInSession i.now request head
          { db with evaluation_jobs := db.evaluation_jobs.updateWhere (holdsClaim job owner) values }).1 key :=
        epochChange_advance request head rfl rfl (waiting_released hv)
      exact hadv.then_same rfl rfl
  · exact .of_same rfl rfl

/-! ## Invalidations and retention -/

theorem epochChange_claimSharedHeadInvalidation {owner : Str} {lease_seconds : Nat}
    {work_class : Option WorkClass} :
    EpochChange i (.claimSharedHeadInvalidation owner lease_seconds work_class) db
      (claimSharedHeadInvalidation i.now i.epoch_locked owner lease_seconds work_class db).1 key := by
  unfold claimSharedHeadInvalidation
  split
  · exact .of_same rfl rfl
  · rename_i k e hsel
    obtain ⟨he, hp⟩ := Dict.select_some hsel
    by_cases hk : key = k
    · subst hk
      exact .claimed e owner lease_seconds work_class rfl he (Bool.and_eq_true _ _ ▸ hp).2
        (by simp [SharedHeadEpoch.leased]) rfl
    · exact .kept (by simp [Dict.get?_set, hk]) rfl

/-- What a claimant's update does to the epoch it names. -/
theorem updateInvalidation_get? {now : Time} {job : ClaimedSharedHeadInvalidation}
    {values : SharedHeadEpoch → SharedHeadEpoch} :
    (updateInvalidation now job values db).1.shared_head_epochs.get? key =
        db.shared_head_epochs.get? key ∨
      ∃ e, db.shared_head_epochs.get? key = some e ∧ key = job.epochKey ∧
        holdsInvalidation now job e = true ∧
        (updateInvalidation now job values db).1.shared_head_epochs.get? key = some (values e) := by
  simp only [updateInvalidation, Dict.get?_updateWhere]
  cases he : db.shared_head_epochs.get? key with
  | none => exact Or.inl rfl
  | some e =>
    by_cases hp : key = job.epochKey ∧ holdsInvalidation now job e = true
    · exact Or.inr ⟨e, rfl, hp.1, hp.2, by simp [hp.1, hp.2]⟩
    · left
      simp [hp]

theorem epochChange_unlease {job : ClaimedSharedHeadInvalidation}
    {values : SharedHeadEpoch → SharedHeadEpoch} (hv : ∀ e, Unleased e (values e))
    (hc : (∃ error max_delay, c = .failSharedHeadInvalidation job error max_delay) ∨
      ∃ error delay, c = .deferSharedHeadInvalidation job error delay) :
    EpochChange i c db (updateInvalidation i.now job values db).1 key := by
  rcases @updateInvalidation_get? db key i.now job values with hk | ⟨e, he, hkey, hp, hk⟩
  · exact .kept hk rfl
  · exact .unleased e (values e) job hc hkey he hp hk (hv e) rfl

theorem epochChange_renewSharedHeadInvalidation {job : ClaimedSharedHeadInvalidation}
    {lease_seconds : Nat} :
    EpochChange i (.renewSharedHeadInvalidation job lease_seconds) db
      (renewSharedHeadInvalidation i.now job lease_seconds db).1 key := by
  unfold renewSharedHeadInvalidation
  rcases @updateInvalidation_get? db key i.now job
    (fun e => { e with lease_until := some (i.now + seconds lease_seconds) }) with
    hk | ⟨e, he, hkey, hp, hk⟩
  · exact .kept hk rfl
  · exact .renewed e job lease_seconds rfl hkey he hp hk rfl

theorem epochChange_completeSharedHeadInvalidation {job : ClaimedSharedHeadInvalidation} :
    EpochChange i (.completeSharedHeadInvalidation job) db
      (completeSharedHeadInvalidation i.now job db).1 key := by
  have hu : EpochChange i (.completeSharedHeadInvalidation job) db
      (updateInvalidation i.now job (·.completed) db).1 key := by
    rcases @updateInvalidation_get? db key i.now job (·.completed) with hk | ⟨e, he, hkey, hp, hk⟩
    · exact .kept hk rfl
    · exact .completed e job rfl hkey he hp hk rfl
  unfold completeSharedHeadInvalidation
  simp only
  split
  · exact hu.then_same rfl rfl
  · exact hu

theorem epochChange_pruneSharedHeadEpochs {older_than : Time} :
    EpochChange i (.pruneSharedHeadEpochs older_than) db (pruneSharedHeadEpochs older_than db).1 key := by
  unfold pruneSharedHeadEpochs
  cases he : db.shared_head_epochs.get? key with
  | none => exact .kept (by simp [he]) rfl
  | some e =>
    by_cases hp : isPrunable older_than db key e = true
    · exact .pruned e older_than rfl he hp (by simp [he, Option.filter, hp]) rfl
    · exact .kept (by simp [he, Option.filter, hp]) rfl

end

/-! ## Every call -/

theorem epochChange_run {i : Instant} {db db' : Db} {c : Call} {a : c.Answer}
    (hr : c.run i db = .ok (db', a)) (key : EpochKey) : EpochChange i c db db' key := by
  have of_ok : ∀ {α : Type} {x : Db × α} {a : α}, (.ok x : Except Str (Db × α)) = .ok (db', a) →
      x.1 = db' := by
    intro α x a hx
    injection hx with hx
    rw [hx]
  have of_map : ∀ {x : Except Str Db}, x.map (·, ()) = .ok (db', ()) → x = .ok db' := by
    intro x hx
    cases x with
    | error e => cases hx
    | ok y => cases hx; rfl
  cases c with
  | acceptDelivery => exact epochChange_acceptDelivery hr
  | enqueue => exact epochChange_enqueue (of_map hr)
  | enqueueSharedHeadTrigger => exact epochChange_enqueueSharedHeadTrigger (of_map hr)
  | enqueueForSharedHeadGeneration => exact epochChange_enqueueForSharedHeadGeneration hr
  | enqueueIfAbsent => rw [← of_ok hr]; exact epochChange_enqueueIfAbsent
  | enqueueReconciliationIfDue => exact epochChange_enqueueReconciliationIfDue hr
  | enqueueAuthority => rw [← of_ok hr]; exact (enqueueAuthorityInSession_same _).epochChange
  | claim => rw [← of_ok hr]; exact epochChange_claim
  | bindClaimToHead => rw [← of_ok hr]; exact epochChange_bindClaimToHead
  | observeEvaluationBase => rw [← of_ok hr]; exact epochChange_observeEvaluationBase
  | complete => rw [← of_ok hr]; exact epochChange_complete
  | fail =>
    rw [← of_ok hr]
    exact epochChange_release fun row => ⟨rfl, rfl, rfl, rfl, rfl, fun _ => rfl, rfl⟩
  | defer =>
    rw [← of_ok hr]
    exact epochChange_release fun row => ⟨rfl, rfl, rfl, rfl, rfl, fun hs => hs, rfl⟩
  | claimSharedHeadInvalidation => rw [← of_ok hr]; exact epochChange_claimSharedHeadInvalidation
  | renewSharedHeadInvalidation => rw [← of_ok hr]; exact epochChange_renewSharedHeadInvalidation
  | completeSharedHeadInvalidation =>
    rw [← of_ok hr]; exact epochChange_completeSharedHeadInvalidation
  | failSharedHeadInvalidation job error max_delay =>
    rw [← of_ok hr]
    exact epochChange_unlease (fun e => ⟨rfl, rfl, rfl, rfl, rfl⟩) (Or.inl ⟨error, max_delay, rfl⟩)
  | deferSharedHeadInvalidation job error delay =>
    rw [← of_ok hr]
    exact epochChange_unlease (fun e => ⟨rfl, rfl, rfl, rfl, rfl⟩) (Or.inr ⟨error, delay, rfl⟩)
  | claimAuthority => rw [← of_ok hr]; exact claimAuthority_same.epochChange
  | advanceInstallationAuthorityPage => exact (advanceInstallationAuthorityPage_same hr).epochChange
  | completeAuthority => rw [← of_ok hr]; exact completeAuthority_same.epochChange
  | pruneSharedHeadEpochs => rw [← of_ok hr]; exact epochChange_pruneSharedHeadEpochs
  | _ => rw [← of_ok hr]; exact .of_same rfl rfl

end ExtraCodeowners
