import ExtraCodeowners.Epochs

/-!
# Referential integrity of the epochs

Whatever calls run, and however often a token is presented, the epoch that a
row is bound to exists and has at least the row's generation.
-/

namespace ExtraCodeowners

/-! ## Tokens handed out -/

section
variable {r : Option ClaimedJob} {i : Instant} {c : Call} {db db' : Db} {job : ClaimedJob}

theorem Moves.next (h : Moves r db db') : db.next_evaluation_job ≤ db'.next_evaluation_job := by
  obtain ⟨mid, hm, he⟩ := h
  exact hm.next ▸ he.next

/-- No call takes a row back to an earlier generation, or moves it to another
pull request or head within one. -/
theorem RowChange.succ {row row' : EvaluationJob} {id : Nat}
    (h : RowChange i c db id (some row) (some row')) :
    row.generation ≤ row'.generation ∧ row'.pullKey = row.pullKey ∧
      (row'.generation = row.generation →
        ∀ head, row.head_sha_hint = some head → row'.head_sha_hint = some head) := by
  cases h with
  | kept | renewed | observed => exact ⟨le_refl _, rfl, fun _ _ hh => hh⟩
  | coalesced | replaced =>
    exact ⟨Nat.le_succ _, rfl, fun hg => absurd hg (Nat.succ_ne_self _)⟩
  | claimed =>
    refine ⟨?_, rfl, fun _ _ hh => hh⟩
    simp only [EvaluationJob.claimed]
    split
    · exact Nat.le_succ _
    · exact le_refl _
  | bound _ _ _ _ _ _ _ hnone =>
    exact ⟨le_refl _, rfl, fun _ head hh => by rw [hnone] at hh; cases hh⟩
  | failed _ _ _ _ _ _ _ _ hr | deferred _ _ _ _ _ _ _ _ _ hr =>
    exact ⟨le_of_eq hr.generation.symm, hr.pull, fun _ head hh => hr.head.trans hh⟩

theorem RowChange.inserted_at {o : Option EvaluationJob} {row' : EvaluationJob} {id : Nat}
    (h : RowChange i c db id o (some row')) (hlt : id < db.next_evaluation_job) :
    ∃ row, o = some row := by
  cases h with
  | kept => exact ⟨row', rfl⟩
  | inserted _ _ _ _ _ hid => omega
  | _ => exact ⟨_, rfl⟩

/-- A token stays what it was, whoever acts. -/
theorem Issued.step (h : Issued db job) (hn : db.next_evaluation_job ≤ db'.next_evaluation_job)
    (hc : RowChange i c db job.id (db.evaluation_jobs.get? job.id) (db'.evaluation_jobs.get? job.id)) :
    Issued db' job := by
  have key : ∀ row', db'.evaluation_jobs.get? job.id = some row' → job.generation ≤ row'.generation ∧
      (job.generation = row'.generation →
        row'.pullKey = ⟨job.installation_id, job.repository_full_name, job.pull_number⟩ ∧
          ∀ head, job.head_sha_hint = some head → row'.head_sha_hint = some head) := by
    intro row' hr'
    rw [hr'] at hc
    obtain ⟨row, hr⟩ := hc.inserted_at h.fresh
    rw [hr] at hc
    obtain ⟨hle, hp, hh⟩ := hc.succ
    have hb := h.behind row hr
    refine ⟨le_trans hb hle, fun hg => ?_⟩
    have hrow : job.generation = row.generation := by omega
    exact ⟨hp.trans (h.pull row hr hrow), fun head hj => hh (by omega) head (h.head row head hr hrow hj)⟩
  exact ⟨lt_of_lt_of_le h.fresh hn, fun row hr => (key row hr).1, fun row hr hg => ((key row hr).2 hg).1,
    fun row head hr hg => ((key row hr).2 hg).2 head⟩

theorem issued_bindClaimToHead (h : Issued db job) {now : Time} {head : HeadSha} {bound : ClaimedJob}
    (hb : (bindClaimToHead now job head db).2 = some bound) :
    Issued (bindClaimToHead now job head db).1 bound := by
  unfold bindClaimToHead at hb ⊢
  split
  · rename_i hint hhint
    rw [hhint] at hb
    by_cases he : hint = head
    · simp only [he, if_true] at hb
      cases hb
      exact h
    · simp [he] at hb
  · rename_i hhint
    rw [hhint] at hb
    split
    · rename_i hany
      simp only [hany, if_true] at hb
      cases hb
      obtain ⟨id, row₀, hrow₀, hp₀⟩ := Dict.any_eq_true.mp hany
      have hid : id = job.id := by
        simp only [Bool.and_eq_true] at hp₀
        exact (holdsClaim_eq_true.mp hp₀.1.1).1
      subst hid
      -- the row of the token is the one that is rebound
      have row_eq : ∀ row', (db.evaluation_jobs.updateWhere
          (fun id row => holdsClaim job job.lease_owner id row && row.state = .pending &&
            row.head_sha_hint = none)
          fun row => { row with
            head_sha_hint := some head
            shared_head_generation :=
              (advanceSharedHeadEpochInSession now (requestOf job (some head) none) head db).2
            bound_at := (advanceSharedHeadEpochInSession now (requestOf job (some head) none) head
              db).1.advances (job.epochKey head) }).get? job.id = some row' →
          row'.generation = row₀.generation ∧ row'.pullKey = row₀.pullKey ∧
            row'.head_sha_hint = some head := by
        intro row' hr
        rw [Dict.get?_updateWhere, hrow₀, Option.map_some, if_pos hp₀] at hr
        cases hr
        exact ⟨rfl, rfl, rfl⟩
      refine ⟨h.fresh, ?_, ?_, ?_⟩
      · intro row' hr
        rw [(row_eq row' hr).1]
        exact h.behind row₀ hrow₀
      · intro row' hr hg
        rw [(row_eq row' hr).2.1]
        exact h.pull row₀ hrow₀ ((row_eq row' hr).1 ▸ hg)
      · intro row' head' hr _ hh
        rw [(row_eq row' hr).2.2]
        exact hh
    · rename_i hany
      simp [hany] at hb

theorem issued_run {a : c.Answer} (h : Coherent db)
    (hused : ∀ job owner, c.claimUsed = some (job, owner) → Issued db job)
    (hr : c.run i db = .ok (db', a)) (hi : c.claimIssued a = some job) : Issued db' job := by
  cases c with
  | claim =>
    injection hr with hr
    obtain ⟨rfl, rfl⟩ := Prod.mk.inj hr
    exact (tokenOk_claim h hi).issued
  | bindClaimToHead job' =>
    injection hr with hr
    obtain ⟨rfl, rfl⟩ := Prod.mk.inj hr
    exact issued_bindClaimToHead (hused job' _ rfl) hi
  | _ => cases hi

end

/-! ## Runs -/

/-- The tables and every evaluation token handed out so far. -/
structure Ledger where
  db : Db
  issued : List ClaimedJob

def Ledger.initial : Ledger := ⟨Db.initial, []⟩

/-- Any call may come next, with any token that was ever handed out. -/
inductive Ledger.Step (l : Ledger) : Ledger → Prop where
  | call (i : Instant) (c : Call) (a : c.Answer) (db' : Db) :
      (∀ job owner, c.claimUsed = some (job, owner) → job ∈ l.issued) →
      c.run i l.db = .ok (db', a) → Ledger.Step l ⟨db', (c.claimIssued a).toList ++ l.issued⟩

def Ledger.Reachable (l : Ledger) : Prop := Relation.ReflTransGen Ledger.Step Ledger.initial l

structure Ledger.Inv (l : Ledger) : Prop where
  coherent : Coherent l.db
  issued : ∀ job ∈ l.issued, Issued l.db job
  leases : ∀ key e, l.db.shared_head_epochs.get? key = some e →
    (e.lease_owner = none ↔ e.lease_until = none)

theorem holdsInvalidation_lease {now : Time} {job : ClaimedSharedHeadInvalidation} {e : SharedHeadEpoch}
    (h : holdsInvalidation now job e = true) : e.lease_owner = some job.lease_owner := by
  simp only [holdsInvalidation, Bool.and_eq_true, decide_eq_true_eq] at h
  exact h.1.2

/-- A lease has an owner as long as it has an expiry. -/
theorem EpochChange.leases {i : Instant} {c : Call} {db db' : Db} {key : EpochKey}
    (h : EpochChange i c db db' key)
    (hl : ∀ e, db.shared_head_epochs.get? key = some e → (e.lease_owner = none ↔ e.lease_until = none))
    {e' : SharedHeadEpoch} (he' : db'.shared_head_epochs.get? key = some e') :
    e'.lease_owner = none ↔ e'.lease_until = none := by
  cases h with
  | kept h₁ => exact hl e' (h₁ ▸ he')
  | advanced waiting work_class _ h₁ =>
    rw [h₁] at he'
    cases he'
    cases db.shared_head_epochs.get? key <;> simp [nextEpoch]
  | touched e h₀ h₁ =>
    rw [h₁] at he'
    cases he'
    exact hl e h₀
  | claimed e _ _ _ _ _ _ h₁ =>
    rw [h₁] at he'
    cases he'
    simp [SharedHeadEpoch.leased]
  | renewed e _ _ _ _ _ hp h₁ =>
    rw [h₁] at he'
    cases he'
    simp [holdsInvalidation_lease hp]
  | completed e _ _ _ _ _ h₁ =>
    rw [h₁] at he'
    cases he'
    simp [SharedHeadEpoch.completed]
  | unleased e e'' _ _ _ _ _ h₁ hu =>
    rw [h₁] at he'
    cases he'
    simp [hu.lease_owner, hu.lease_until]
  | pruned _ _ _ _ _ h₁ =>
    rw [h₁] at he'
    cases he'

theorem Ledger.Inv.step {l l' : Ledger} (h : l.Inv) (hs : l.Step l') : l'.Inv := by
  obtain ⟨i, c, a, db', hmem, hr⟩ := hs
  have hused : ∀ job owner, c.claimUsed = some (job, owner) → Issued l.db job :=
    fun job owner hu => h.issued job (hmem job owner hu)
  have hm := moves_run_issued h.coherent hused hr
  refine ⟨hm.coherent h.coherent, ?_, ?_⟩
  · intro job hj
    rcases List.mem_append.mp hj with hnew | hold
    · exact issued_run h.coherent hused hr (Option.mem_toList.mp hnew)
    · exact (h.issued job hold).step hm.next (rowChange_run h.coherent hr job.id)
  · intro key e he
    exact (epochChange_run hr key).leases (h.leases key) he

theorem Ledger.Reachable.inv {l : Ledger} (h : l.Reachable) : l.Inv := by
  induction h with
  | refl =>
    refine ⟨⟨?_, ?_, ?_⟩, fun job hj => (by cases hj), fun key e he => (by cases he)⟩
    · intro id row hr; cases hr
    · intro id row head hr; cases hr
    · intro key g i hf; cases hf
  | tail _ hs ih => exact ih.step hs

theorem Ledger.Reachable.keyed {l : Ledger} (h : l.Reachable) : Keyed l.db := by
  induction h with
  | refl => exact .initial
  | tail hl hs ih =>
    have hcoherent := (Ledger.Reachable.inv hl).coherent
    have hnext := (Ledger.Reachable.inv (Relation.ReflTransGen.tail hl hs)).coherent
    obtain ⟨i, c, a, db', -, hr⟩ := hs
    exact ⟨hnext.fresh, ih.unique_run hcoherent hr⟩

/-- Only an advance moves a generation, and only pruning removes one. -/
theorem EpochChange.monotone {i : Instant} {c : Call} {db db' : Db} {key : EpochKey}
    (h : EpochChange i c db db' key) (hc : ∀ older_than, c ≠ .pruneSharedHeadEpochs older_than)
    {e : SharedHeadEpoch} (he : db.shared_head_epochs.get? key = some e) :
    ∃ e', db'.shared_head_epochs.get? key = some e' ∧ e.generation ≤ e'.generation ∧
      e.invalidated_generation ≤ e'.invalidated_generation ∧
      (db'.advances key ≠ db.advances key →
        e.generation < e'.generation ∧ e'.invalidated_generation < e'.generation) := by
  cases h with
  | kept h₁ h₂ => exact ⟨e, h₁ ▸ he, le_refl _, le_refl _, fun hne => absurd h₂ hne⟩
  | advanced waiting work_class _ h₁ =>
    rw [he] at h₁
    refine ⟨_, h₁, Nat.le_succ _, le_refl _, fun _ => ⟨Nat.lt_succ_self _, ?_⟩⟩
    exact Nat.lt_succ_of_le e.invalidation_bounds
  | touched e₀ h₀ h₁ h₂ =>
    rw [he] at h₀
    cases h₀
    exact ⟨_, h₁, le_refl _, le_refl _, fun hne => absurd h₂ hne⟩
  | claimed e₀ _ _ _ _ h₀ _ h₁ h₂ =>
    rw [he] at h₀
    cases h₀
    exact ⟨_, h₁, le_refl _, le_refl _, fun hne => absurd h₂ hne⟩
  | renewed e₀ _ _ _ _ h₀ _ h₁ h₂ =>
    rw [he] at h₀
    cases h₀
    exact ⟨_, h₁, le_refl _, le_refl _, fun hne => absurd h₂ hne⟩
  | completed e₀ _ _ _ h₀ _ h₁ h₂ =>
    rw [he] at h₀
    cases h₀
    exact ⟨_, h₁, le_refl _, e.invalidation_bounds, fun hne => absurd h₂ hne⟩
  | unleased e₀ e₁ _ _ _ h₀ _ h₁ hu h₂ =>
    rw [he] at h₀
    cases h₀
    exact ⟨_, h₁, le_of_eq hu.generation.symm, le_of_eq hu.invalidated_generation.symm,
      fun hne => absurd h₂ hne⟩
  | pruned _ older_than hp => exact absurd hp (hc older_than)

/-- Every state, every epoch and row in it, and every step from it. -/
theorem epochs_keep_integrity {l : Ledger} (hl : l.Reachable) :
    (∀ key e, l.db.shared_head_epochs.get? key = some e →
      1 ≤ e.generation ∧ e.invalidated_generation ≤ e.generation ∧
        (e.lease_owner = none ↔ e.lease_until = none)) ∧
    (∀ id row head, l.db.evaluation_jobs.get? id = some row → row.head_sha_hint = some head →
      0 < row.shared_head_generation →
        ∃ e, l.db.shared_head_epochs.get? (row.epochKey head) = some e ∧
          row.shared_head_generation ≤ e.generation) ∧
    ∀ (i : Instant) (c : Call) (a : c.Answer) (db' : Db), c.run i l.db = .ok (db', a) →
      (∀ older_than, c ≠ .pruneSharedHeadEpochs older_than) →
      ∀ key e, l.db.shared_head_epochs.get? key = some e →
        ∃ e', db'.shared_head_epochs.get? key = some e' ∧ e.generation ≤ e'.generation ∧
          e.invalidated_generation ≤ e'.invalidated_generation ∧
          (db'.advances key ≠ l.db.advances key →
            e.generation < e'.generation ∧ e'.invalidated_generation < e'.generation) := by
  have hinv := hl.inv
  refine ⟨?_, ?_, ?_⟩
  · intro key e he
    exact ⟨e.generation_positive, e.invalidation_bounds, hinv.leases key e he⟩
  · intro id row head hr hh hpos
    obtain ⟨hle, heq⟩ := hinv.coherent.bound id row head hr hh
    have hgen : row.shared_head_generation ≤ l.db.epochGeneration (row.epochKey head) := by omega
    unfold Db.epochGeneration at hgen
    cases he : l.db.shared_head_epochs.get? (row.epochKey head) with
    | none =>
      rw [he] at hgen
      exact absurd hgen (not_le.mpr hpos)
    | some e =>
      rw [he] at hgen
      exact ⟨e, rfl, hgen⟩
  · intro i c a db' hr hc key e he
    exact (epochChange_run hr key).monotone hc he

/-- A delivery is accepted. -/
def sampleLedger : Ledger :=
  match Call.run sampleInstant Db.initial
      (.acceptDelivery "d" "pull_request" (some (.job sampleRequest))) with
  | .ok (db', _) => ⟨db', []⟩
  | .error _ => Ledger.initial

theorem sampleLedger_reachable : sampleLedger.Reachable :=
  Relation.ReflTransGen.refl.tail
    (.call sampleInstant (.acceptDelivery "d" "pull_request" (some (.job sampleRequest))) _ _
      (fun _ _ h => by cases h) rfl)

/-- A second delivery advances the epoch that the row is bound to. -/
theorem sampleLedger_keeps_integrity :
    (∃ e, sampleLedger.db.shared_head_epochs.get? (sampleRequest.epochKey sampleHead) = some e ∧
      1 ≤ e.generation) ∧
    ∃ db' e', Call.run sampleInstant sampleLedger.db
        (.acceptDelivery "e" "pull_request" (some (.job sampleRequest))) = .ok (db', ⟨true, some 2⟩) ∧
      db'.shared_head_epochs.get? (sampleRequest.epochKey sampleHead) = some e' ∧ 1 ≤ e'.generation ∧
      e'.invalidated_generation < e'.generation := by
  obtain ⟨-, hrows, hsteps⟩ := epochs_keep_integrity sampleLedger_reachable
  obtain ⟨e, he, hge⟩ := hrows 1 _ sampleHead rfl rfl (by decide)
  obtain ⟨e', he', hle, -, hadv⟩ := hsteps sampleInstant
    (.acceptDelivery "e" "pull_request" (some (.job sampleRequest))) ⟨true, some 2⟩ _ rfl
    (fun _ h => by cases h) (sampleRequest.epochKey sampleHead) e he
  exact ⟨⟨e, he, hge⟩, _, e', rfl, he', le_trans hge hle, (hadv (by decide)).2⟩

end ExtraCodeowners
