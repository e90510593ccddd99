import ExtraCodeowners.EpochIntegrity

/-!
# Interactive work keeps its class

An interactive row stays interactive until it is deleted, unless a scan
replaces it by a younger observation of another head. An interactive epoch
keeps its class while its reset or an interactive row of its head is waiting.
-/

namespace ExtraCodeowners

/-- The exception: a scan saw another head, no earlier than the row was requested. -/
def Replaces (c : Call) (row : EvaluationJob) : Prop :=
  ∃ request recheck_seconds observed_at, c = .enqueueReconciliationIfDue request recheck_seconds ∧
    row.pullKey = request.pullKey ∧ row.head_sha_hint ≠ request.head_sha_hint ∧
    request.observed_at = some observed_at ∧ row.requested_at ≤ observed_at

section
variable {i : Instant} {c : Call} {db db' : Db} {key : EpochKey} {id : Nat}

theorem coalesced_interactive {now : Time} {request : JobRequest} {delivery_id : Option Str} {g : Nat}
    {mid : Db} {row : EvaluationJob} (h : row.work_class = .interactive) :
    (coalescedJob now request delivery_id g true mid row).work_class = .interactive := by
  simp [coalescedJob, h]

/-- One call keeps the class of an interactive row. -/
theorem RowChange.interactive (hk : Keyed db) {row row' : EvaluationJob}
    (hrow : db.evaluation_jobs.get? id = some row) (h : RowChange i c db id (some row) (some row'))
    (hi : row.work_class = .interactive) (hc : ¬Replaces c row) : row'.work_class = .interactive := by
  cases h with
  | kept | claimed | renewed | observed | bound => exact hi
  | coalesced => exact coalesced_interactive hi
  | replaced _ existing request recheck_seconds observed_at g mid hcall he hhead ho hage hp =>
    obtain ⟨hp', id', hrow'⟩ := pendingJob_some he
    -- the row the scan read is this one
    have hid := hk.unique id id' row existing hrow hrow' (hp.trans hp'.symm)
    rw [← hid, hrow] at hrow'
    cases hrow'
    exact absurd ⟨request, recheck_seconds, observed_at, hcall, hp, hhead, ho, hage hi⟩ hc
  | failed _ _ _ _ _ _ _ _ hr => exact hr.work_class.trans hi
  | deferred _ _ _ _ _ _ _ _ _ hr => exact hr.work_class.trans hi

theorem nextEpoch_interactive {now : Time} {waiting : Bool} {work_class : WorkClass} {e : SharedHeadEpoch}
    (h : waiting = true ∨ (e.work_class = .interactive ∧ e.invalidated_generation < e.generation)) :
    (nextEpoch now waiting work_class (some e)).work_class = .interactive := by
  simp only [nextEpoch]
  rw [if_pos h]

/-- One call demotes an epoch only when nothing interactive is waiting for it. -/
theorem EpochChange.demoted (h : EpochChange i c db db' key) {e e' : SharedHeadEpoch}
    (he : db.shared_head_epochs.get? key = some e) (he' : db'.shared_head_epochs.get? key = some e')
    (hi : e.work_class = .interactive) (hr : e'.work_class = .recovery) :
    e.invalidated_generation = e.generation ∧ ¬Waiting db key := by
  have same : ∀ e₀ : SharedHeadEpoch, db.shared_head_epochs.get? key = some e₀ →
      e'.work_class = e₀.work_class → False := by
    intro e₀ h₀ hw
    rw [he] at h₀
    cases h₀
    rw [hw, hi] at hr
    cases hr
  cases h with
  | kept h₁ => exact (same e' (h₁ ▸ he') rfl).elim
  | advanced waiting work_class hw h₁ =>
    rw [he] at h₁
    rw [h₁] at he'
    cases he'
    have hno : ¬(waiting = true ∨
        (e.work_class = .interactive ∧ e.invalidated_generation < e.generation)) := by
      intro hor
      rw [nextEpoch_interactive hor] at hr
      cases hr
    push Not at hno
    refine ⟨le_antisymm e.invalidation_bounds (hno.2 hi), fun hwait => hno.1 (hw hwait)⟩
  | touched e₀ h₀ h₁ =>
    rw [h₁] at he'
    cases he'
    exact (same e₀ h₀ rfl).elim
  | claimed e₀ _ _ _ _ h₀ _ h₁ =>
    rw [h₁] at he'
    cases he'
    exact (same e₀ h₀ rfl).elim
  | renewed e₀ _ _ _ _ h₀ _ h₁ =>
    rw [h₁] at he'
    cases he'
    exact (same e₀ h₀ rfl).elim
  | completed e₀ _ _ _ h₀ _ h₁ =>
    rw [h₁] at he'
    cases he'
    exact (same e₀ h₀ rfl).elim
  | unleased e₀ e₁ _ _ _ h₀ _ h₁ hu =>
    rw [h₁] at he'
    cases he'
    exact (same e₀ h₀ hu.work_class).elim
  | pruned _ _ _ _ _ h₁ =>
    rw [h₁] at he'
    cases he'

end

/-! ## Runs -/

/-- A step that does not replace the row of this id. -/
inductive Ledger.StepKeeping (id : Nat) (l : Ledger) : Ledger → Prop where
  | call (i : Instant) (c : Call) (a : c.Answer) (db' : Db) :
      (∀ job owner, c.claimUsed = some (job, owner) → job ∈ l.issued) →
      c.run i l.db = .ok (db', a) →
      (∀ row, l.db.evaluation_jobs.get? id = some row → ¬Replaces c row) →
      Ledger.StepKeeping id l ⟨db', (c.claimIssued a).toList ++ l.issued⟩

theorem Ledger.StepKeeping.step {id : Nat} {l l' : Ledger} (h : l.StepKeeping id l') : l.Step l' := by
  obtain ⟨i, c, a, db', hmem, hr, -⟩ := h
  exact .call i c a db' hmem hr

/-- The id is taken, and its row is interactive as long as there is one. -/
structure InteractiveAt (id : Nat) (db : Db) : Prop where
  taken : id < db.next_evaluation_job
  interactive : ∀ row, db.evaluation_jobs.get? id = some row → row.work_class = .interactive

theorem InteractiveAt.step {id : Nat} {l l' : Ledger} (hl : l.Reachable) (h : InteractiveAt id l.db)
    (hs : l.StepKeeping id l') : InteractiveAt id l'.db := by
  have hinv := hl.inv
  obtain ⟨i, c, a, db', hmem, hr, hkeep⟩ := hs
  have hm := moves_run_issued hinv.coherent
    (fun job owner hu => hinv.issued job (hmem job owner hu)) hr
  refine ⟨lt_of_lt_of_le h.taken hm.next, ?_⟩
  intro row' hrow'
  have hc := rowChange_run hinv.coherent hr id
  rw [hrow'] at hc
  obtain ⟨row, hrow⟩ := hc.inserted_at h.taken
  rw [hrow] at hc
  exact hc.interactive hl.keyed hrow (h.interactive row hrow) (hkeep row hrow)

theorem InteractiveAt.run {id : Nat} {l l' : Ledger} (hl : l.Reachable) (h : InteractiveAt id l.db)
    (hs : Relation.ReflTransGen (Ledger.StepKeeping id) l l') : InteractiveAt id l'.db := by
  have both : l'.Reachable ∧ InteractiveAt id l'.db := by
    induction hs with
    | refl => exact ⟨hl, h⟩
    | tail _ hs ih => exact ⟨ih.1.tail hs.step, ih.2.step ih.1 hs⟩
  exact both.2

/-- Every run from every reachable state, and every call in it. -/
theorem interactive_priority_is_kept {l : Ledger} (hl : l.Reachable) :
    (∀ l' id row row', Relation.ReflTransGen (Ledger.StepKeeping id) l l' →
      l.db.evaluation_jobs.get? id = some row → row.work_class = .interactive →
      l'.db.evaluation_jobs.get? id = some row' → row'.work_class = .interactive) ∧
    ∀ (i : Instant) (c : Call) (a : c.Answer) (db' : Db), c.run i l.db = .ok (db', a) →
      ∀ key e e', l.db.shared_head_epochs.get? key = some e →
        db'.shared_head_epochs.get? key = some e' → e.work_class = .interactive →
        e'.work_class = .recovery →
        e.invalidated_generation = e.generation ∧ ¬Waiting l.db key := by
  refine ⟨?_, ?_⟩
  · intro l' id row row' hs hrow hi hrow'
    have h₀ : InteractiveAt id l.db := by
      refine ⟨hl.inv.coherent.fresh id row hrow, fun row₀ h₀ => ?_⟩
      rw [hrow] at h₀
      cases h₀
      exact hi
    exact (h₀.run hl hs).interactive row' hrow'
  · intro i c a db' hr key e e' he he' hi hrec
    exact (epochChange_run hr key).demoted he he' hi hrec

/-- Fan-out work on the pull request of the samples. -/
def sampleFanOut : JobRequest := { sampleRequest with work_class := .recovery }

/-- The delivery's row stays interactive when the fan-out arrives. -/
theorem sampleLedger_keeps_interactive :
    ∃ db' row', Call.run sampleInstant sampleLedger.db (.enqueue sampleFanOut) = .ok (db', ()) ∧
      db'.evaluation_jobs.get? 1 = some row' ∧ row'.work_class = .interactive := by
  refine ⟨_, _, rfl, rfl, ?_⟩
  refine (interactive_priority_is_kept sampleLedger_reachable).1 _ 1 _ _
    (Relation.ReflTransGen.refl.tail
      (.call sampleInstant (.enqueue sampleFanOut) () _ (fun _ _ h => by cases h) rfl ?_)) rfl rfl rfl
  rintro row - ⟨request, recheck_seconds, observed_at, h, -⟩
  cases h

end ExtraCodeowners
