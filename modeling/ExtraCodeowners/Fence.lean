import ExtraCodeowners.Store
import Mathlib.Logic.Relation

/-!
# The publish fence

Rows and epochs stay coherent under every queue operation: a row lags its
head's epoch by exactly the advances since it was bound. A claim that is
current and publishable at one instant is therefore bound to the latest
advance, also across pruning and rebinding.
-/

namespace ExtraCodeowners

/-! ## Coherence -/

/-- The generation and invalidated generation of a head, when it has a row. -/
def Db.fenceOf (db : Db) (key : EpochKey) : Option (Nat × Nat) :=
  (db.shared_head_epochs.get? key).map fun e => (e.generation, e.invalidated_generation)

theorem epochGeneration_eq (db : Db) (key : EpochKey) :
    db.epochGeneration key = ((db.fenceOf key).map Prod.fst).getD 0 := by
  unfold Db.epochGeneration Db.fenceOf
  cases db.shared_head_epochs.get? key <;> rfl

structure Coherent (db : Db) : Prop where
  fresh : ∀ id row, db.evaluation_jobs.get? id = some row → id < db.next_evaluation_job
  bound : ∀ id row head, db.evaluation_jobs.get? id = some row → row.head_sha_hint = some head →
    row.bound_at ≤ db.advances (row.epochKey head) ∧
      db.epochGeneration (row.epochKey head) + row.bound_at =
        row.shared_head_generation + db.advances (row.epochKey head)
  completed : ∀ key g i, db.fenceOf key = some (g, i) → 0 < i →
    ∃ c ∈ db.completions, c.key = key ∧ c.generation = i ∧ c.at_advance + g = db.advances key + i

/-- The row is bound to the current generation of its head. -/
def BoundNow (db : Db) (row : EvaluationJob) : Prop :=
  ∀ head, row.head_sha_hint = some head →
    row.shared_head_generation = db.epochGeneration (row.epochKey head) ∧
      row.bound_at = db.advances (row.epochKey head)

/-- What binds a row is unchanged. -/
structure SameBinding (row row' : EvaluationJob) : Prop where
  pull : row'.pullKey = row.pullKey
  head : row'.head_sha_hint = row.head_sha_hint
  generation : row'.shared_head_generation = row.shared_head_generation
  bound_at : row'.bound_at = row.bound_at

theorem SameBinding.refl (row : EvaluationJob) : SameBinding row row := ⟨rfl, rfl, rfl, rfl⟩

theorem epochKey_eq_of_pull {row row' : EvaluationJob} (h : row'.pullKey = row.pullKey) (head : HeadSha) :
    row'.epochKey head = row.epochKey head := by
  simp only [EvaluationJob.pullKey, PullKey.mk.injEq] at h
  simp [EvaluationJob.epochKey, h.1, h.2.1]

/-- Rows may keep their binding or be bound to the current generation, as long
as no epoch moves. -/
theorem Coherent.rows {db db' : Db} (h : Coherent db)
    (hrows : ∀ id row', db'.evaluation_jobs.get? id = some row' → id < db'.next_evaluation_job ∧
      ((∃ row, db.evaluation_jobs.get? id = some row ∧ SameBinding row row') ∨ BoundNow db' row'))
    (hfence : ∀ key, db'.fenceOf key = db.fenceOf key) (hadv : db'.advances = db.advances)
    (hcomp : db'.completions = db.completions) : Coherent db' := by
  have hgen : ∀ key, db'.epochGeneration key = db.epochGeneration key := by
    intro key; rw [epochGeneration_eq, epochGeneration_eq, hfence]
  refine ⟨fun id row hr => (hrows id row hr).1, ?_, ?_⟩
  · intro id row' head hr hh
    rcases (hrows id row' hr).2 with ⟨row, hrow, hsame⟩ | hnow
    · rw [hsame.generation, hsame.bound_at, epochKey_eq_of_pull hsame.pull, hgen, hadv]
      exact h.bound id row head hrow (hsame.head ▸ hh)
    · obtain ⟨h₁, h₂⟩ := hnow head hh
      rw [h₁, h₂]
      exact ⟨le_refl _, rfl⟩
  · intro key g i hf hi
    rw [hcomp, hadv]
    exact h.completed key g i (hfence key ▸ hf) hi

/-! ## Advancing a head -/

section
variable (now : Time) (request : JobRequest) (head : HeadSha) (db : Db)

theorem nextEpoch_generation (waiting : Bool) (work_class : WorkClass) (o : Option SharedHeadEpoch) :
    (nextEpoch now waiting work_class o).generation = (o.map (·.generation)).getD 0 + 1 := by
  cases o <;> rfl

theorem nextEpoch_invalidated (waiting : Bool) (work_class : WorkClass) (o : Option SharedHeadEpoch) :
    (nextEpoch now waiting work_class o).invalidated_generation =
      (o.map (·.invalidated_generation)).getD 0 := by
  cases o <;> rfl

theorem advance_fenceOf (key : EpochKey) :
    (advanceSharedHeadEpochInSession now request head db).1.fenceOf key =
      if key = request.epochKey head then
        some (db.epochGeneration key + 1, ((db.fenceOf key).map Prod.snd).getD 0)
      else db.fenceOf key := by
  unfold advanceSharedHeadEpochInSession Db.fenceOf
  simp only [Dict.get?_set]
  by_cases hk : key = request.epochKey head
  · subst hk
    simp only [if_true, Option.map_some, nextEpoch_generation, nextEpoch_invalidated,
      Db.epochGeneration]
    cases db.shared_head_epochs.get? (request.epochKey head) <;> rfl
  · simp [hk]

theorem advance_epochGeneration (key : EpochKey) :
    (advanceSharedHeadEpochInSession now request head db).1.epochGeneration key =
      if key = request.epochKey head then db.epochGeneration key + 1 else db.epochGeneration key := by
  rw [epochGeneration_eq, advance_fenceOf]
  by_cases hk : key = request.epochKey head
  · simp [hk]
  · simp [hk, epochGeneration_eq]

theorem advance_advances (key : EpochKey) :
    (advanceSharedHeadEpochInSession now request head db).1.advances key =
      if key = request.epochKey head then db.advances key + 1 else db.advances key := by
  unfold advanceSharedHeadEpochInSession
  by_cases hk : key = request.epochKey head
  · subst hk; simp
  · simp [hk]

@[simp] theorem advance_evaluation_jobs :
    (advanceSharedHeadEpochInSession now request head db).1.evaluation_jobs = db.evaluation_jobs := rfl

@[simp] theorem advance_next :
    (advanceSharedHeadEpochInSession now request head db).1.next_evaluation_job =
      db.next_evaluation_job := rfl

@[simp] theorem advance_completions :
    (advanceSharedHeadEpochInSession now request head db).1.completions = db.completions := rfl

theorem advance_generation : (advanceSharedHeadEpochInSession now request head db).2 =
    (advanceSharedHeadEpochInSession now request head db).1.epochGeneration (request.epochKey head) := by
  rw [advance_epochGeneration, if_pos rfl]; rfl

variable {db} in
theorem Coherent.advance (h : Coherent db) :
    Coherent (advanceSharedHeadEpochInSession now request head db).1 := by
  refine ⟨h.fresh, ?_, ?_⟩
  · intro id row head' hr hh
    obtain ⟨hle, heq⟩ := h.bound id row head' hr hh
    rw [advance_epochGeneration, advance_advances]
    by_cases hk : row.epochKey head' = request.epochKey head
    · rw [if_pos hk, if_pos hk]; omega
    · rw [if_neg hk, if_neg hk]; exact ⟨hle, heq⟩
  · intro key g i hf hi
    rw [advance_fenceOf] at hf
    rw [advance_advances]
    by_cases hk : key = request.epochKey head
    · rw [if_pos hk] at hf ⊢
      obtain ⟨rfl, rfl⟩ := Prod.mk.inj (Option.some.inj hf)
      cases hfo : db.fenceOf key with
      | none => simp [hfo] at hi
      | some gi =>
        obtain ⟨g, i⟩ := gi
        simp only [hfo, Option.map_some, Option.getD_some] at hi ⊢
        obtain ⟨c, hc, h₁, h₂, h₃⟩ := h.completed key g i hfo hi
        have hg : db.epochGeneration key = g := by rw [epochGeneration_eq, hfo]; rfl
        exact ⟨c, hc, h₁, h₂, by omega⟩
    · rw [if_neg hk] at hf ⊢
      exact h.completed key g i hf hi

end

/-! ## Enqueueing -/

section
variable {now : Time} {request : JobRequest} {db : Db}

@[simp] theorem wake_evaluation_jobs :
    (wakeAuthorityForInteractive now request db).evaluation_jobs = db.evaluation_jobs := by
  unfold wakeAuthorityForInteractive; split <;> rfl

@[simp] theorem wake_next :
    (wakeAuthorityForInteractive now request db).next_evaluation_job = db.next_evaluation_job := by
  unfold wakeAuthorityForInteractive; split <;> rfl

@[simp] theorem wake_epochs :
    (wakeAuthorityForInteractive now request db).shared_head_epochs = db.shared_head_epochs := by
  unfold wakeAuthorityForInteractive; split <;> rfl

@[simp] theorem wake_advances :
    (wakeAuthorityForInteractive now request db).advances = db.advances := by
  unfold wakeAuthorityForInteractive; split <;> rfl

@[simp] theorem wake_completions :
    (wakeAuthorityForInteractive now request db).completions = db.completions := by
  unfold wakeAuthorityForInteractive; split <;> rfl

variable {delivery_id : Option Str} {g : Nat} {pd pw : Bool}

@[simp] theorem enqueueInSession_epochs :
    (enqueueInSession now request delivery_id g pd pw db).shared_head_epochs = db.shared_head_epochs := by
  unfold enqueueInSession
  split
  · simp
  · split
    · rfl
    · simp [insertEvaluationJob]

@[simp] theorem enqueueInSession_advances :
    (enqueueInSession now request delivery_id g pd pw db).advances = db.advances := by
  unfold enqueueInSession
  split
  · simp
  · split
    · rfl
    · simp [insertEvaluationJob]

@[simp] theorem enqueueInSession_completions :
    (enqueueInSession now request delivery_id g pd pw db).completions = db.completions := by
  unfold enqueueInSession
  split
  · simp
  · split
    · rfl
    · simp [insertEvaluationJob]

theorem enqueueInSession_next :
    db.next_evaluation_job ≤ (enqueueInSession now request delivery_id g pd pw db).next_evaluation_job := by
  unfold enqueueInSession
  split
  · simp
  · split
    · exact le_refl _
    · simp [insertEvaluationJob]

/-- What an insertion does to the rows. -/
theorem insertEvaluationJob_rows (h : Coherent db) {row row' : EvaluationJob} {id : Nat}
    (hr : (insertEvaluationJob row db).evaluation_jobs.get? id = some row') :
    db.evaluation_jobs.get? id = some row' ∨ (id = db.next_evaluation_job ∧ row' = row) := by
  have hnone : db.evaluation_jobs.get? db.next_evaluation_job = none := by
    cases hg : db.evaluation_jobs.get? db.next_evaluation_job with
    | none => rfl
    | some x => exact absurd (h.fresh _ _ hg) (lt_irrefl _)
  unfold insertEvaluationJob at hr
  simp only [Dict.get?_insertNew hnone] at hr
  by_cases hid : id = db.next_evaluation_job
  · rw [if_pos hid] at hr
    exact Or.inr ⟨hid, (Option.some.inj hr).symm⟩
  · rw [if_neg hid] at hr
    exact Or.inl hr

/-- An enqueue leaves a row alone, coalesces into it, or inserts one. -/
theorem enqueueInSession_rows (h : Coherent db) {id : Nat} {row' : EvaluationJob}
    (hr : (enqueueInSession now request delivery_id g pd pw db).evaluation_jobs.get? id = some row') :
    db.evaluation_jobs.get? id = some row' ∨
      (∃ row, db.evaluation_jobs.get? id = some row ∧ row.pullKey = request.pullKey ∧
        row' = coalescedJob now request delivery_id g pw db row) ∨
      (id = db.next_evaluation_job ∧ row' = newJob now request delivery_id g db ∧
        (enqueueInSession now request delivery_id g pd pw db).next_evaluation_job =
          db.next_evaluation_job + 1) := by
  unfold enqueueInSession at hr ⊢
  split
  · rename_i hany
    rw [if_pos hany] at hr
    simp only [wake_evaluation_jobs, Dict.get?_updateWhere] at hr
    obtain ⟨row, hrow, he⟩ := Option.map_eq_some_iff.mp hr
    by_cases hp : (isForRequest request row && (!pd || row.head_sha_hint = none ||
        row.head_sha_hint = request.head_sha_hint)) = true
    · rw [if_pos hp] at he
      have hpull : row.pullKey = request.pullKey := by
        have := (Bool.and_eq_true _ _ ▸ hp).1
        simpa [isForRequest] using this
      exact Or.inr (Or.inl ⟨row, hrow, hpull, he.symm⟩)
    · rw [if_neg hp] at he
      subst he; exact Or.inl hrow
  · rename_i hany
    rw [if_neg hany] at hr
    split
    · rename_i hex
      rw [if_pos hex] at hr
      exact Or.inl hr
    · rename_i hex
      rw [if_neg hex] at hr
      rw [wake_evaluation_jobs] at hr
      rcases insertEvaluationJob_rows h hr with hr | ⟨hid, hr⟩
      · exact Or.inl hr
      · refine Or.inr (Or.inr ⟨hid, hr, ?_⟩)
        rw [wake_next]; rfl

end

/-- The generation an enqueue writes is the current one of its head. -/
def IsCurrentFor (request : JobRequest) (g : Nat) (db : Db) : Prop :=
  ∀ head, request.head_sha_hint = some head → g = db.epochGeneration (request.epochKey head)

section
variable {now : Time} {request : JobRequest} {db db' : Db} {delivery_id : Option Str} {g : Nat} {pd pw : Bool}

theorem boundNow_newJob (hg : IsCurrentFor request g db)
    (hgen : ∀ key, db'.epochGeneration key = db.epochGeneration key) (hadv : db'.advances = db.advances) :
    BoundNow db' (newJob now request delivery_id g db) := by
  intro head hh
  have hh' : request.head_sha_hint = some head := hh
  have hkey : (newJob now request delivery_id g db).epochKey head = request.epochKey head := rfl
  rw [hkey, hgen, hadv]
  exact ⟨hg head hh', by simp [newJob, advancesOf, hh']⟩

theorem boundNow_coalescedJob (hg : IsCurrentFor request g db)
    (hgen : ∀ key, db'.epochGeneration key = db.epochGeneration key) (hadv : db'.advances = db.advances)
    {row : EvaluationJob} (hp : row.pullKey = request.pullKey) :
    BoundNow db' (coalescedJob now request delivery_id g pw db row) := by
  intro head hh
  have hh' : request.head_sha_hint = some head := hh
  have hkey : (coalescedJob now request delivery_id g pw db row).epochKey head = request.epochKey head := by
    simp only [EvaluationJob.pullKey, JobRequest.pullKey, PullKey.mk.injEq] at hp
    simp [EvaluationJob.epochKey, coalescedJob, JobRequest.epochKey, hp.1, hp.2.1]
  rw [hkey, hgen, hadv]
  exact ⟨hg head hh', by simp [coalescedJob, advancesOf, hh']⟩

end

/-! ## What a transaction does to rows and claims -/

/-- A transaction leaves the rows and the epochs alone. -/
structure SameQueue (db db' : Db) : Prop where
  jobs : db'.evaluation_jobs = db.evaluation_jobs
  next : db'.next_evaluation_job = db.next_evaluation_job
  epochs : db'.shared_head_epochs = db.shared_head_epochs
  advances : db'.advances = db.advances
  completions : db'.completions = db.completions

/-- Epochs may move; rows do not. -/
structure Refenced (db mid : Db) : Prop where
  jobs : mid.evaluation_jobs = db.evaluation_jobs
  next : mid.next_evaluation_job = db.next_evaluation_job
  coherent : Coherent db → Coherent mid

/-- What may become of one row. A claim at an earlier generation stays fenced,
and one at the same generation is either still the row's or released. -/
inductive RowStep (released : Option ClaimedJob) (db db' : Db) (id : Nat) (row' : EvaluationJob) : Prop where
  | inserted : db.next_evaluation_job ≤ id → id < db'.next_evaluation_job → BoundNow db' row' →
      RowStep released db db' id row'
  | kept (row : EvaluationJob) : db.evaluation_jobs.get? id = some row → SameBinding row row' →
      row'.generation = row.generation → row'.lease_owner = row.lease_owner → RowStep released db db' id row'
  | superseded (row : EvaluationJob) : db.evaluation_jobs.get? id = some row →
      row.generation < row'.generation → SameBinding row row' ∨ BoundNow db' row' →
      RowStep released db db' id row'
  | leased (row : EvaluationJob) : db.evaluation_jobs.get? id = some row → row.lease_owner = none →
      SameBinding row row' → row'.generation = row.generation → RowStep released db db' id row'
  | bound (row : EvaluationJob) : db.evaluation_jobs.get? id = some row → row.head_sha_hint = none →
      row'.pullKey = row.pullKey → row'.generation = row.generation →
      row'.lease_owner = row.lease_owner → BoundNow db' row' → RowStep released db db' id row'
  | released (row : EvaluationJob) (job : ClaimedJob) : released = some job →
      db.evaluation_jobs.get? id = some row → holdsClaim job job.lease_owner id row = true →
      row'.generation = row.generation → SameBinding row row' ∨ BoundNow db' row' →
      RowStep released db db' id row'

structure Evolves (released : Option ClaimedJob) (db db' : Db) : Prop where
  fence : ∀ key, db'.fenceOf key = db.fenceOf key
  advances : db'.advances = db.advances
  completions : db'.completions = db.completions
  next : db.next_evaluation_job ≤ db'.next_evaluation_job
  rows : ∀ id row', db'.evaluation_jobs.get? id = some row' → RowStep released db db' id row'

theorem RowStep.rebase {r : Option ClaimedJob} {db db' db'' : Db} (h : SameQueue db' db'') {id : Nat}
    {row' : EvaluationJob} (hs : RowStep r db db' id row') : RowStep r db db'' id row' := by
  have hb : BoundNow db' row' → BoundNow db'' row' := by
    intro hb head hh
    unfold Db.epochGeneration
    rw [h.epochs, h.advances]
    exact hb head hh
  cases hs with
  | inserted hlo hhi hn => exact .inserted hlo (h.next ▸ hhi) (hb hn)
  | kept row hr hsame hg ho => exact .kept row hr hsame hg ho
  | superseded row hr hg hn => exact .superseded row hr hg (hn.imp_right hb)
  | leased row hr ho hsame hg => exact .leased row hr ho hsame hg
  | bound row hr hh hp hg ho hn => exact .bound row hr hh hp hg ho (hb hn)
  | released row job hj hr hh hg hn => exact .released row job hj hr hh hg (hn.imp_right hb)

section
variable {r : Option ClaimedJob} {db mid db' db'' : Db}

theorem Evolves.refl (r : Option ClaimedJob) (db : Db) : Evolves r db db :=
  ⟨fun _ => rfl, rfl, rfl, le_refl _, fun _ row hr => .kept row hr (.refl row) rfl rfl⟩

theorem Evolves.then_same (h : Evolves r db db') (hs : SameQueue db' db'') : Evolves r db db'' := by
  refine ⟨?_, hs.advances.trans h.advances, hs.completions.trans h.completions, hs.next ▸ h.next, ?_⟩
  · intro key
    unfold Db.fenceOf
    rw [hs.epochs]
    exact h.fence key
  · intro id row' hr
    rw [hs.jobs] at hr
    exact (h.rows id row' hr).rebase hs

theorem SameQueue.evolves (h : SameQueue db db') : Evolves r db db' := (Evolves.refl r db).then_same h

theorem Refenced.refl (db : Db) : Refenced db db := ⟨rfl, rfl, id⟩

theorem Refenced.advance (now : Time) (request : JobRequest) (head : HeadSha) (db : Db) :
    Refenced db (advanceSharedHeadEpochInSession now request head db).1 :=
  ⟨rfl, rfl, fun h => h.advance now request head⟩

theorem Evolves.coherent (h : Coherent db) (he : Evolves r db db') : Coherent db' := by
  refine h.rows ?_ he.fence he.advances he.completions
  intro id row' hr
  have old : ∀ row, db.evaluation_jobs.get? id = some row → id < db'.next_evaluation_job :=
    fun row hrow => lt_of_lt_of_le (h.fresh id row hrow) he.next
  cases he.rows id row' hr with
  | inserted _ hhi hn => exact ⟨hhi, Or.inr hn⟩
  | kept row hrow hsame => exact ⟨old row hrow, Or.inl ⟨row, hrow, hsame⟩⟩
  | superseded row hrow _ hn => exact ⟨old row hrow, hn.imp_left fun hsame => ⟨row, hrow, hsame⟩⟩
  | leased row hrow _ hsame => exact ⟨old row hrow, Or.inl ⟨row, hrow, hsame⟩⟩
  | bound row hrow _ _ _ _ hn => exact ⟨old row hrow, Or.inr hn⟩
  | released row _ _ hrow _ _ hn => exact ⟨old row hrow, hn.imp_left fun hsame => ⟨row, hrow, hsame⟩⟩

end

/-! ## Enqueueing and accepting -/

section
variable {now : Time} {request : JobRequest} {db : Db}

theorem evolves_insertEvaluationJob (h : Coherent db) {delivery_id : Option Str} {g : Nat}
    (hg : IsCurrentFor request g db) :
    Evolves none db (insertEvaluationJob (newJob now request delivery_id g db) db) := by
  refine ⟨fun _ => rfl, rfl, rfl, Nat.le_succ _, ?_⟩
  intro id row' hr
  rcases insertEvaluationJob_rows h hr with hrow | ⟨rfl, rfl⟩
  · exact .kept row' hrow (.refl row') rfl rfl
  · exact .inserted (le_refl _) (Nat.lt_succ_self _) (boundNow_newJob hg (fun _ => rfl) rfl)

theorem evolves_enqueueInSession (h : Coherent db) {delivery_id : Option Str} {g : Nat} {pd pw : Bool}
    (hg : IsCurrentFor request g db) :
    Evolves none db (enqueueInSession now request delivery_id g pd pw db) := by
  have hfence : ∀ key, (enqueueInSession now request delivery_id g pd pw db).fenceOf key =
      db.fenceOf key := by
    intro key; unfold Db.fenceOf; rw [enqueueInSession_epochs]
  have hgen : ∀ key, (enqueueInSession now request delivery_id g pd pw db).epochGeneration key =
      db.epochGeneration key := by
    intro key; rw [epochGeneration_eq, epochGeneration_eq, hfence]
  refine ⟨hfence, enqueueInSession_advances, enqueueInSession_completions, enqueueInSession_next, ?_⟩
  intro id row' hr
  rcases enqueueInSession_rows h hr with hrow | ⟨row, hrow, hp, rfl⟩ | ⟨rfl, rfl, hn⟩
  · exact .kept row' hrow (.refl row') rfl rfl
  · exact .superseded row hrow (Nat.lt_succ_self _)
      (Or.inr (boundNow_coalescedJob hg hgen enqueueInSession_advances hp))
  · exact .inserted (le_refl _) (by rw [hn]; exact Nat.lt_succ_self _)
      (boundNow_newJob hg hgen enqueueInSession_advances)

theorem isCurrentFor_none {g : Nat} (h : request.head_sha_hint = none) : IsCurrentFor request g db := by
  intro head hh
  rw [h] at hh; cases hh

theorem isCurrentFor_advance (now : Time) (db : Db) {head : HeadSha} (h : request.head_sha_hint = some head) :
    IsCurrentFor request (advanceSharedHeadEpochInSession now request head db).2
      (advanceSharedHeadEpochInSession now request head db).1 := by
  intro head' hh
  rw [h] at hh
  cases hh
  exact advance_generation now request head db

end

end ExtraCodeowners
