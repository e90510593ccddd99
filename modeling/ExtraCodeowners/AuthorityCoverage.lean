import ExtraCodeowners.AuthorityRows
import Mathlib.Logic.Relation

/-!
# Coverage of authority requests

Every accepted authority request leaves an obligation: its scope and one ref,
or all refs. Whatever happens to the row of a scope, the obligation stays
covered by the row's targets or by its pending evidence, until a pass claimed
later and covering it completes.
-/

namespace ExtraCodeowners

/-- What a request asks of its scope; no ref stands for every ref. -/
structure Obligation where
  installation_id : Nat
  scope_key : ScopeKey
  ref : Option Str
  accepted : Nat

def AuthorityRequest.obligation (request : AuthorityRequest) (accepted : Nat) : Obligation where
  installation_id := request.installation_id
  scope_key := request.scopeKey
  ref := if request.repository_full_name = none then none else request.base_ref
  accepted := accepted

/-- The empty target set covers every ref. -/
def coversRef (targets : Dict Str Str) (ref : Option Str) : Bool :=
  targets.entries.isEmpty ||
    match ref with
    | none => false
    | some r => targets.keys.contains r

def AuthorityJob.pendingCovers (row : AuthorityJob) (ref : Option Str) : Bool :=
  row.pending_full_rescan ||
    match ref with
    | none => false
    | some r => row.pending_base_refs.keys.contains r

structure AuthorityJob.IsFor (row : AuthorityJob) (o : Obligation) : Prop where
  installation_id : row.installation_id = o.installation_id
  scope_key : row.scope_key = o.scope_key
  base_ref : row.base_ref = []

/-- The pass has recorded no progress: every checkpoint is where a new row has it. -/
def AuthorityJob.untouched (row : AuthorityJob) : Bool :=
  row.pull_cursor_number = 0 && row.handled_pull_fingerprints.entries.isEmpty &&
    row.listing_next_page = 1 && row.listing_last_number = 0 && row.listing_expected_total = none &&
    row.membership_next_page = 1 && row.membership_expected_total = none

/-! ## Coalescing -/

/-- The row covers no less, and a leased row keeps its targets. -/
structure Extends (row row' : AuthorityJob) : Prop where
  installation_id : row'.installation_id = row.installation_id
  scope_key : row'.scope_key = row.scope_key
  base_ref : row'.base_ref = row.base_ref
  generation : row'.generation = row.generation
  lease_owner : row'.lease_owner = row.lease_owner
  targets : ∀ ref, coversRef row.target_base_refs ref = true → coversRef row'.target_base_refs ref = true
  leased : row.lease_owner ≠ none → row'.target_base_refs = row.target_base_refs
  pending : ∀ ref, row.pendingCovers ref = true → row'.pendingCovers ref = true
  untouched : row.lease_owner = none → row.untouched = true → row'.untouched = true

theorem Extends.refl (row : AuthorityJob) : Extends row row :=
  ⟨rfl, rfl, rfl, rfl, rfl, fun _ h => h, fun _ => rfl, fun _ h => h, fun _ h => h⟩

theorem Extends.trans {a b c : AuthorityJob} (h₁ : Extends a b) (h₂ : Extends b c) : Extends a c :=
  ⟨h₂.installation_id.trans h₁.installation_id, h₂.scope_key.trans h₁.scope_key,
    h₂.base_ref.trans h₁.base_ref, h₂.generation.trans h₁.generation,
    h₂.lease_owner.trans h₁.lease_owner, fun ref h => h₂.targets ref (h₁.targets ref h),
    fun h => (h₂.leased (h₁.lease_owner ▸ h)).trans (h₁.leased h),
    fun ref h => h₂.pending ref (h₁.pending ref h),
    fun ho h => h₂.untouched (h₁.lease_owner.trans ho) (h₁.untouched ho h)⟩

theorem coversRef_empty (ref : Option Str) : coversRef ∅ ref = true := rfl

theorem coversRef_set {targets : Dict Str Str} {r reason : Str} {ref : Option Str}
    (hne : targets.entries.isEmpty = false) (h : coversRef targets ref = true ∨ ref = some r) :
    coversRef (targets.set r reason) ref = true := by
  cases ref with
  | none => simp [coversRef, hne] at h
  | some r' =>
    have hm : r' ∈ (targets.set r reason).keys := by
      apply Dict.mem_keys_set.mpr
      simpa [coversRef, hne, or_comm, eq_comm] using h
    simp [coversRef, hm]

theorem widenTargets_covers {target_ref : Option Str} {reason : Str} {targets : Dict Str Str}
    {ref : Option Str} (h : coversRef targets ref = true) :
    coversRef (widenTargets target_ref reason targets) ref = true := by
  unfold widenTargets
  cases target_ref with
  | none => exact coversRef_empty ref
  | some r =>
    simp only
    by_cases he : targets.entries.isEmpty = true
    · rw [if_pos he]; exact h
    · rw [if_neg he]
      split
      · exact coversRef_set (by simpa using he) (Or.inl h)
      · exact coversRef_empty ref

theorem obligation_ref {request : AuthorityRequest} {r : Str} (h : targetRef request = some r) {n : Nat} :
    (request.obligation n).ref = some r := by
  unfold targetRef at h
  unfold AuthorityRequest.obligation
  cases hr : request.repository_full_name with
  | none => simp [hr] at h
  | some repository =>
    simp only [hr] at h
    simpa using (Option.filter_eq_some_iff.mp h).1

/-- The obligation of a request is covered by the targets it widens; a ref too
long to store widens them to every ref. -/
theorem widenTargets_covers_request (request : AuthorityRequest) (targets : Dict Str Str) (n : Nat) :
    coversRef (widenTargets (targetRef request) request.reason targets) (request.obligation n).ref =
      true := by
  unfold widenTargets
  cases ht : targetRef request with
  | none => exact coversRef_empty _
  | some r =>
    simp only
    by_cases he : targets.entries.isEmpty = true
    · rw [if_pos he]; simp [coversRef, he]
    · rw [if_neg he]
      split
      · exact coversRef_set (by simpa using he) (Or.inr (obligation_ref ht))
      · exact coversRef_empty _

theorem pendingCovers_of_full {row : AuthorityJob} (h : row.pending_full_rescan = true) (ref : Option Str) :
    row.pendingCovers ref = true := by
  simp [AuthorityJob.pendingCovers, h]

theorem pendingCovers_set {row row' : AuthorityJob} {r reason : Str} {ref : Option Str}
    (hfull : row.pending_full_rescan = false)
    (hrow : row'.pending_base_refs = row.pending_base_refs.set r reason)
    (h : row.pendingCovers ref = true ∨ ref = some r) : row'.pendingCovers ref = true := by
  cases ref with
  | none => simp [AuthorityJob.pendingCovers, hfull] at h
  | some r' =>
    have hm : r' ∈ row'.pending_base_refs.keys := by
      rw [hrow]
      apply Dict.mem_keys_set.mpr
      simpa [AuthorityJob.pendingCovers, hfull, or_comm, eq_comm] using h
    simp [AuthorityJob.pendingCovers, hm]

theorem unstarted_lease {row : AuthorityJob} (h : row.unstarted = true) : row.lease_owner = none := by
  simp only [AuthorityJob.unstarted, Bool.and_eq_true, decide_eq_true_eq] at h
  exact h.1.1.1.1

/-- A request moves no checkpoint. -/
theorem untouched_coalesced (now : Time) (request : AuthorityRequest) (row : AuthorityJob) :
    (coalescedAuthorityJob now request row).untouched = row.untouched := by
  unfold coalescedAuthorityJob
  simp only
  split
  · rfl
  · split
    · rfl
    · split
      · rfl
      · split <;> rfl

theorem unstarted_coalesced (now : Time) (request : AuthorityRequest) (row : AuthorityJob) :
    (coalescedAuthorityJob now request row).unstarted = row.unstarted := by
  unfold coalescedAuthorityJob
  simp only
  split
  · rfl
  · split
    · rfl
    · split
      · rfl
      · split <;> rfl

theorem extends_coalesced (now : Time) (request : AuthorityRequest) (row : AuthorityJob) :
    Extends row (coalescedAuthorityJob now request row) := by
  have hu : row.lease_owner = none → row.untouched = true →
      (coalescedAuthorityJob now request row).untouched = true :=
    fun _ h => (untouched_coalesced now request row).trans h
  unfold coalescedAuthorityJob at hu ⊢
  simp only at hu ⊢
  by_cases hun : row.unstarted = true
  · rw [if_pos hun] at hu ⊢
    exact ⟨rfl, rfl, rfl, rfl, rfl, fun _ h => widenTargets_covers h,
      fun h => absurd (unstarted_lease hun) h, fun _ h => h, hu⟩
  · rw [if_neg hun] at hu ⊢
    cases ht : targetRef request with
    | none =>
      exact ⟨rfl, rfl, rfl, rfl, rfl, fun _ h => h, fun _ => rfl,
        fun ref _ => pendingCovers_of_full rfl ref, fun _ h => h⟩
    | some r =>
      simp only
      by_cases hf : row.pending_full_rescan = true
      · rw [if_pos hf]
        exact ⟨rfl, rfl, rfl, rfl, rfl, fun _ h => h, fun _ => rfl, fun _ h => h, fun _ h => h⟩
      · rw [if_neg hf]
        split
        · exact ⟨rfl, rfl, rfl, rfl, rfl, fun _ h => h, fun _ => rfl,
            fun ref _ => pendingCovers_of_full rfl ref, fun _ h => h⟩
        · exact ⟨rfl, rfl, rfl, rfl, rfl, fun _ h => h, fun _ => rfl,
            fun ref h => pendingCovers_set (by simpa using hf) rfl (Or.inl h), fun _ h => h⟩

/-- Where a request ends up: in the targets of a pass that looks unstarted, or
in the pending evidence. -/
theorem coalesced_covers (now : Time) (request : AuthorityRequest) (row : AuthorityJob) (n : Nat) :
    (row.unstarted = true ∧ coversRef (coalescedAuthorityJob now request row).target_base_refs
      (request.obligation n).ref = true) ∨
    (coalescedAuthorityJob now request row).pendingCovers (request.obligation n).ref = true := by
  unfold coalescedAuthorityJob
  simp only
  by_cases hu : row.unstarted = true
  · rw [if_pos hu]
    exact Or.inl ⟨hu, widenTargets_covers_request request row.target_base_refs n⟩
  · rw [if_neg hu]
    right
    cases ht : targetRef request with
    | none => exact pendingCovers_of_full rfl _
    | some r =>
      simp only
      have href : (request.obligation n).ref = some r := obligation_ref ht
      by_cases hf : row.pending_full_rescan = true
      · rw [if_pos hf]
        exact pendingCovers_of_full hf _
      · rw [if_neg hf]
        split
        · exact pendingCovers_of_full rfl _
        · exact pendingCovers_set (by simpa using hf) rfl (Or.inr href)

/-! ## Where an obligation is written down -/

/-- The targets of a pass that no process holds, or pending evidence. -/
def AuthorityJob.takes (row : AuthorityJob) (ref : Option Str) : Bool :=
  (row.lease_owner = none && coversRef row.target_base_refs ref) || row.pendingCovers ref

/-- The targets of a pass that no process holds and that has recorded no
progress, or pending evidence. -/
def AuthorityJob.accepts (row : AuthorityJob) (ref : Option Str) : Bool :=
  (row.lease_owner = none && row.untouched && coversRef row.target_base_refs ref) || row.pendingCovers ref

theorem takes_iff {row : AuthorityJob} {ref : Option Str} : row.takes ref = true ↔
    (row.lease_owner = none ∧ coversRef row.target_base_refs ref = true) ∨
      row.pendingCovers ref = true := by
  simp [AuthorityJob.takes]

theorem accepts_iff {row : AuthorityJob} {ref : Option Str} : row.accepts ref = true ↔
    (row.lease_owner = none ∧ row.untouched = true ∧ coversRef row.target_base_refs ref = true) ∨
      row.pendingCovers ref = true := by
  simp [AuthorityJob.accepts, and_assoc]

theorem takes_extends {ref : Option Str} {row row' : AuthorityJob} (h : Extends row row')
    (ht : row.takes ref = true) : row'.takes ref = true := by
  rw [takes_iff] at ht ⊢
  exact ht.imp (fun ht => ⟨h.lease_owner.trans ht.1, h.targets ref ht.2⟩) (h.pending ref)

theorem accepts_extends {ref : Option Str} {row row' : AuthorityJob} (h : Extends row row')
    (ha : row.accepts ref = true) : row'.accepts ref = true := by
  rw [accepts_iff] at ha ⊢
  refine ha.imp ?_ (h.pending ref)
  rintro ⟨ho, hu, hc⟩
  exact ⟨h.lease_owner.trans ho, h.untouched ho hu, h.targets ref hc⟩

theorem takes_coalesced (now : Time) (request : AuthorityRequest) (row : AuthorityJob) (n : Nat) :
    (coalescedAuthorityJob now request row).takes (request.obligation n).ref = true := by
  rw [takes_iff]
  refine (coalesced_covers now request row n).imp_left fun h => ⟨?_, h.2⟩
  exact (sameScope_coalesced now request row).lease_owner.trans (unstarted_lease h.1)

/-- Whether the pass of a row has begun is judged rightly for a request: a row
that looks unstarted has recorded nothing, or has pending evidence anyway. -/
def AuthorityJob.judgedFor (row : AuthorityJob) (request : AuthorityRequest) : Prop :=
  row.unstarted = true → row.untouched = true ∨ row.pendingCovers (request.obligation 0).ref = true

theorem accepts_coalesced {now : Time} {request : AuthorityRequest} {row : AuthorityJob}
    (hj : row.judgedFor request) (n : Nat) :
    (coalescedAuthorityJob now request row).accepts (request.obligation n).ref = true := by
  rw [accepts_iff]
  rcases coalesced_covers now request row n with ⟨hu, hc⟩ | hp
  · rcases hj hu with hun | hp
    · exact Or.inl ⟨(sameScope_coalesced now request row).lease_owner.trans (unstarted_lease hu),
        (untouched_coalesced now request row).trans hun, hc⟩
    · exact Or.inr ((extends_coalesced now request row).pending _ hp)
  · exact Or.inr hp

/-! ## What a transaction does to the authority rows -/

/-- Rows are extended or inserted, and none ends. -/
structure Grows (db db' : Db) : Prop where
  next : db.next_authority_job ≤ db'.next_authority_job
  kept : ∀ id row, db.authority_jobs.get? id = some row →
    ∃ row', db'.authority_jobs.get? id = some row' ∧ Extends row row'
  origin : ∀ id row', db'.authority_jobs.get? id = some row' →
    (∃ row, db.authority_jobs.get? id = some row ∧ Extends row row') ∨
      (db.next_authority_job ≤ id ∧ id < db'.next_authority_job ∧ row'.base_ref = [])

/-- The row of an obligation's scope. -/
def OnRow (p : AuthorityJob → Prop) (db : Db) (o : Obligation) : Prop :=
  ∃ id row, db.authority_jobs.get? id = some row ∧ row.IsFor o ∧ p row

def Taken (db : Db) (o : Obligation) : Prop := OnRow (·.takes o.ref = true) db o

def Accepted (db : Db) (o : Obligation) : Prop := OnRow (·.accepts o.ref = true) db o

/-- Whether the pass has begun is judged rightly on every row a request arrives at. -/
def Judged (db : Db) (request : AuthorityRequest) : Prop :=
  ∀ id row, db.authority_jobs.get? id = some row → isForAuthority request row = true →
    row.judgedFor request

section
variable {db db' db'' : Db}

theorem Grows.of_eq (hj : db'.authority_jobs = db.authority_jobs)
    (hn : db'.next_authority_job = db.next_authority_job) : Grows db db' := by
  refine ⟨hn.ge, ?_, ?_⟩
  · intro id row hr
    exact ⟨row, hj ▸ hr, .refl row⟩
  · intro id row' hr
    exact Or.inl ⟨row', hj ▸ hr, .refl row'⟩

theorem Grows.trans (h₁ : Grows db db') (h₂ : Grows db' db'') : Grows db db'' := by
  refine ⟨h₁.next.trans h₂.next, ?_, ?_⟩
  · intro id row hr
    obtain ⟨row', hr', he⟩ := h₁.kept id row hr
    obtain ⟨row'', hr'', he'⟩ := h₂.kept id row' hr'
    exact ⟨row'', hr'', he.trans he'⟩
  · intro id row'' hr
    rcases h₂.origin id row'' hr with ⟨row', hr', he'⟩ | ⟨hlo, hhi, hb⟩
    · rcases h₁.origin id row' hr' with ⟨row, hr, he⟩ | ⟨hlo, hhi, hb⟩
      · exact Or.inl ⟨row, hr, he.trans he'⟩
      · exact Or.inr ⟨hlo, lt_of_lt_of_le hhi h₂.next, he'.base_ref.trans hb⟩
    · exact Or.inr ⟨h₁.next.trans hlo, hhi, hb⟩

theorem Grows.update {p : Nat → AuthorityJob → Bool} {f : AuthorityJob → AuthorityJob}
    (hf : ∀ id row, p id row = true → Extends row (f row)) :
    Grows db { db with authority_jobs := db.authority_jobs.updateWhere p f } := by
  have step : ∀ id row, Extends row (if p id row = true then f row else row) := by
    intro id row
    by_cases hp : p id row = true
    · rw [if_pos hp]; exact hf id row hp
    · rw [if_neg hp]; exact .refl row
  refine ⟨le_refl _, ?_, ?_⟩
  · intro id row hr
    exact ⟨_, by rw [Dict.get?_updateWhere, hr]; rfl, step id row⟩
  · intro id row' hr
    rw [Dict.get?_updateWhere] at hr
    obtain ⟨row, hrow, rfl⟩ := Option.map_eq_some_iff.mp hr
    exact Or.inl ⟨row, hrow, step id row⟩

theorem AuthorityFresh.grows (h : AuthorityFresh db) (hg : Grows db db') : AuthorityFresh db' := by
  intro id row' hr
  rcases hg.origin id row' hr with ⟨row, hrow, he⟩ | ⟨-, hhi, hb⟩
  · obtain ⟨hlt, hb⟩ := h id row hrow
    exact ⟨lt_of_lt_of_le hlt hg.next, he.base_ref.trans hb⟩
  · exact ⟨hhi, hb⟩

theorem OnRow.grows {p : AuthorityJob → Prop} {o : Obligation} (h : OnRow p db o) (hg : Grows db db')
    (hp : ∀ row row', Extends row row' → p row → p row') : OnRow p db' o := by
  obtain ⟨id, row, hr, hfor, ha⟩ := h
  obtain ⟨row', hr', he⟩ := hg.kept id row hr
  exact ⟨id, row', hr', ⟨he.installation_id.trans hfor.installation_id,
    he.scope_key.trans hfor.scope_key, he.base_ref.trans hfor.base_ref⟩, hp row row' he ha⟩

theorem Taken.grows {o : Obligation} (h : Taken db o) (hg : Grows db db') : Taken db' o :=
  OnRow.grows h hg fun _ _ he => takes_extends he

theorem Accepted.grows {o : Obligation} (h : Accepted db o) (hg : Grows db db') : Accepted db' o :=
  OnRow.grows h hg fun _ _ he => accepts_extends he

variable {now : Time} {request : AuthorityRequest}

theorem isForAuthority_eq_true {row : AuthorityJob} (n : Nat) :
    isForAuthority request row = true ↔ row.IsFor (request.obligation n) := by
  simp only [isForAuthority, Bool.and_eq_true, decide_eq_true_eq]
  exact ⟨fun h => ⟨h.1.1, h.1.2, h.2⟩, fun h => ⟨⟨h.installation_id, h.scope_key⟩, h.base_ref⟩⟩

theorem grows_enqueueAuthority (now : Time) (request : AuthorityRequest) (h : AuthorityFresh db) :
    Grows db (enqueueAuthorityInSession now request db) := by
  unfold enqueueAuthorityInSession
  split
  · exact .update fun _ row _ => extends_coalesced now request row
  · refine ⟨Nat.le_succ _, ?_, ?_⟩
    · intro id row hr
      have hne : id ≠ db.next_authority_job := ((h id row hr).1).ne
      exact ⟨row, by simp only [get?_insertAuthority h, if_neg hne]; exact hr, .refl row⟩
    · intro id row' hr
      simp only [get?_insertAuthority h] at hr
      by_cases hid : id = db.next_authority_job
      · rw [if_pos hid] at hr
        cases hr
        exact Or.inr ⟨hid.ge, hid ▸ Nat.lt_succ_self _, rfl⟩
      · rw [if_neg hid] at hr
        exact Or.inl ⟨row', hr, .refl row'⟩

/-- A request coalesces with the row of its scope, or a row is inserted for it. -/
theorem onRow_enqueueAuthority (h : AuthorityFresh db) {p : AuthorityJob → Prop} (n : Nat)
    (hp : ∀ id row, db.authority_jobs.get? id = some row → isForAuthority request row = true →
      p (coalescedAuthorityJob now request row)) (hnew : p (firstAuthorityJob now request)) :
    OnRow p (enqueueAuthorityInSession now request db) (request.obligation n) := by
  unfold enqueueAuthorityInSession
  by_cases hany : (db.authority_jobs.any fun _ job => isForAuthority request job) = true
  · rw [if_pos hany]
    obtain ⟨id, row, hr, hfor⟩ := Dict.any_eq_true.mp hany
    have hrow := (isForAuthority_eq_true n).mp hfor
    have he := extends_coalesced now request row
    refine ⟨id, coalescedAuthorityJob now request row, ?_, ?_, hp id row hr hfor⟩
    · simp only [Dict.get?_updateWhere, hr, Option.map_some, hfor, if_true]
    · exact ⟨he.installation_id.trans hrow.installation_id, he.scope_key.trans hrow.scope_key,
        he.base_ref.trans hrow.base_ref⟩
  · rw [if_neg hany]
    exact ⟨db.next_authority_job, _, (get?_insertAuthority h _ _).trans (if_pos rfl), ⟨rfl, rfl, rfl⟩,
      hnew⟩

theorem accepts_first (now : Time) (request : AuthorityRequest) (n : Nat) :
    (firstAuthorityJob now request).accepts (request.obligation n).ref = true := by
  rw [accepts_iff]
  refine Or.inl ⟨rfl, rfl, ?_⟩
  unfold firstAuthorityJob
  cases ht : targetRef request with
  | none => exact coversRef_empty _
  | some r =>
    have hm : r ∈ (Dict.empty.set r request.reason).keys := Dict.mem_keys_set.mpr (Or.inl rfl)
    simp [newAuthorityJob, coversRef, obligation_ref ht, hm]

theorem takes_of_accepts {row : AuthorityJob} {ref : Option Str} (h : row.accepts ref = true) :
    row.takes ref = true := by
  rw [takes_iff]
  exact (accepts_iff.mp h).imp_left fun h => ⟨h.1, h.2.2⟩

theorem taken_enqueueAuthority (h : AuthorityFresh db) (n : Nat) :
    Taken (enqueueAuthorityInSession now request db) (request.obligation n) :=
  onRow_enqueueAuthority h n (fun _ row _ _ => takes_coalesced now request row n)
    (takes_of_accepts (accepts_first now request n))

theorem accepted_enqueueAuthority (h : AuthorityFresh db) (hj : Judged db request) (n : Nat) :
    Accepted (enqueueAuthorityInSession now request db) (request.obligation n) :=
  onRow_enqueueAuthority h n (fun id row hr hfor => accepts_coalesced (hj id row hr hfor) n)
    (accepts_first now request n)

/-- An earlier request leaves the judgement for a later one as it was. -/
theorem Judged.enqueue {other : AuthorityRequest} (hj : Judged db request) (h : AuthorityFresh db) :
    Judged (enqueueAuthorityInSession now other db) request := by
  intro id row' hr' hfor hu
  obtain ⟨hsome, hnone⟩ := enqueueAuthority_get? now other h id
  cases hr : db.authority_jobs.get? id with
  | some row =>
    rw [hsome row hr] at hr'
    by_cases hp : isForAuthority other row = true
    · rw [if_pos hp] at hr'
      cases hr'
      rw [(sameScope_coalesced now other row).isForAuthority] at hfor
      rw [unstarted_coalesced] at hu
      refine (hj id row hr hfor hu).imp (fun h => ?_) ?_
      · exact (untouched_coalesced now other row).trans h
      · exact (extends_coalesced now other row).pending _
    · rw [if_neg hp] at hr'
      cases hr'
      exact hj id _ hr hfor hu
  | none =>
    rcases hnone hr with hn | ⟨-, -, -, hs⟩
    · rw [hn] at hr'
      cases hr'
    · rw [hs] at hr'
      cases hr'
      exact Or.inl rfl

/-- The children of a page, one after another. -/
theorem grows_foldl_enqueueAuthority (now : Time) (requests : List AuthorityRequest) :
    ∀ db, AuthorityFresh db →
      Grows db (requests.foldl (fun db request => enqueueAuthorityInSession now request db) db) ∧
        ∀ request ∈ requests, ∀ n,
          Taken (requests.foldl (fun db request => enqueueAuthorityInSession now request db) db)
            (request.obligation n) ∧
          (Judged db request →
            Accepted (requests.foldl (fun db request => enqueueAuthorityInSession now request db) db)
              (request.obligation n)) := by
  induction requests with
  | nil => intro db _; exact ⟨.of_eq rfl rfl, fun _ h => by cases h⟩
  | cons request requests ih =>
    intro db h
    have hg := grows_enqueueAuthority now request h
    obtain ⟨hg', ha⟩ := ih _ (h.grows hg)
    refine ⟨hg.trans hg', ?_⟩
    intro r hr n
    rcases List.mem_cons.mp hr with rfl | hr
    · exact ⟨(taken_enqueueAuthority h n).grows hg', fun hj => (accepted_enqueueAuthority h hj n).grows hg'⟩
    · exact ⟨(ha r hr n).1, fun hj => (ha r hr n).2 (hj.enqueue h)⟩

/-- A checkpoint records progress on a leased row and leaves its evidence alone. -/
theorem extends_checkpoint (f : AuthorityJob → AuthorityJob) {job : ClaimedAuthorityJob} {id : Nat}
    {row : AuthorityJob} (hp : holdsAuthorityLease now job id row = true)
    (hf : (f row).installation_id = row.installation_id ∧ (f row).scope_key = row.scope_key ∧
      (f row).base_ref = row.base_ref ∧ (f row).generation = row.generation ∧
      (f row).lease_owner = row.lease_owner ∧ (f row).target_base_refs = row.target_base_refs ∧
      (f row).pending_full_rescan = row.pending_full_rescan ∧
      (f row).pending_base_refs = row.pending_base_refs) : Extends row (f row) := by
  obtain ⟨h₁, h₂, h₃, h₄, h₅, h₆, h₇, h₈⟩ := hf
  have hheld := (holdsAuthority_eq_true.mp (Bool.and_eq_true _ _ ▸ hp).1).2.2
  refine ⟨h₁, h₂, h₃, h₄, h₅, fun ref h => h₆ ▸ h, fun _ => h₆, fun ref h => ?_, fun ho => ?_⟩
  · unfold AuthorityJob.pendingCovers at h ⊢
    rw [h₇, h₈]
    exact h
  · rw [ho] at hheld
    cases hheld

/-- A replay accepts nothing. -/
theorem replayDelivery_accepted {event : Str} {request : Option DeliveryRequest}
    {delivery : WebhookDelivery} {answer : DeliveryAcceptance}
    (h : replayDelivery event request delivery = .ok answer) : answer.accepted = false := by
  unfold replayDelivery at h
  split at h
  · cases h
  · split at h
    · split at h
      · cases h; rfl
      · cases h
    · cases h; rfl

theorem accepted_acceptDelivery (h : AuthorityFresh db) {delivery_id event : Str}
    {request : Option DeliveryRequest} {answer : DeliveryAcceptance}
    (hr : acceptDelivery now delivery_id event request db = .ok (db', answer)) :
    ∀ r ∈ (Call.acceptDelivery delivery_id event request).authorityAccepted answer,
      ∀ n, Taken db' (r.obligation n) ∧ (Judged db r → Accepted db' (r.obligation n)) := by
  intro r hmem n
  match request with
  | none | some (.job _) => cases hmem
  | some (.authority request) =>
    have he : answer.accepted = true ∧ r = request := by
      by_cases ha : answer.accepted = true
      · exact ⟨ha, by simpa [Call.authorityAccepted, ha] using hmem⟩
      · simp [Call.authorityAccepted, ha] at hmem
    obtain ⟨ha, rfl⟩ := he
    unfold acceptDelivery at hr
    cases hd : db.webhook_deliveries.get? delivery_id with
    | some delivery =>
      rw [hd] at hr
      cases hp : replayDelivery event (some (.authority r)) delivery with
      | error e => simp [hp, Except.map] at hr
      | ok a =>
        simp only [hp, Except.map] at hr
        cases hr
        rw [replayDelivery_accepted hp] at ha
        cases ha
    | none =>
      rw [hd] at hr
      injection hr with hr
      rw [← (Prod.mk.inj hr).1]
      refine ⟨taken_enqueueAuthority ?_ n, fun hj => accepted_enqueueAuthority ?_ ?_ n⟩
      · split <;> exact h
      · split <;> exact h
      · split <;> exact hj

theorem accepted_page (h : AuthorityFresh db) {job : ClaimedAuthorityJob}
    {requests : List AuthorityRequest} {next_page : Nat} {expected_total : Option Nat}
    (hr : advanceInstallationAuthorityPage now job requests next_page expected_total db =
      .ok (db', true)) : ∀ r ∈ requests, ∀ n,
        Taken db' (r.obligation n) ∧ (Judged db r → Accepted db' (r.obligation n)) := by
  intro r hmem n
  unfold advanceInstallationAuthorityPage at hr
  split at hr
  · cases hr
  split at hr
  · cases hr
  split at hr
  · injection hr with hr
    rw [← (Prod.mk.inj hr).1]
    obtain ⟨ht, ha⟩ := (grows_foldl_enqueueAuthority now requests db h).2 r hmem n
    have hg : Grows (requests.foldl (fun db request => enqueueAuthorityInSession now request db) db)
        (updateAuthority (holdsAuthorityLease now job)
          (fun row => { row with
            listing_next_page := next_page
            listing_expected_total := expected_total })
          (requests.foldl (fun db request => enqueueAuthorityInSession now request db) db)).1 := by
      refine .update fun id row hp => ?_
      exact extends_checkpoint (fun row => { row with
        listing_next_page := next_page
        listing_expected_total := expected_total }) hp ⟨rfl, rfl, rfl, rfl, rfl, rfl, rfl, rfl⟩
    exact ⟨ht.grows hg, fun hj => (ha hj).grows hg⟩
  · cases hr

theorem extends_coalescedAll (now : Time) (requests : List AuthorityRequest) :
    ∀ row, Extends row (coalescedAll now requests row) := by
  induction requests with
  | nil => exact .refl
  | cons request requests ih => exact fun row => (extends_coalesced now request row).trans (ih _)

/-- A row that is neither claimed nor released is extended. -/
theorem AuthorityChange.extends {i : Instant} {c : Call} {id : Nat} {row : AuthorityJob}
    {o : Option AuthorityJob} (h : AuthorityChange i c db db' id (some row) o)
    (hclaim : ∀ owner lease_seconds prio, c ≠ .claimAuthority owner lease_seconds prio)
    (hrelease : c.authorityReleased = none) : ∃ row', o = some row' ∧ Extends row row' := by
  cases h with
  | kept => exact ⟨row, rfl, .refl row⟩
  | coalesced _ requests => exact ⟨_, rfl, extends_coalescedAll i.now requests row⟩
  | woken =>
    exact ⟨_, rfl, rfl, rfl, rfl, rfl, rfl, fun _ h => h, fun _ => rfl, fun _ h => h, fun _ h => h⟩
  | claimed _ owner lease_seconds prio hc => exact absurd hc (hclaim owner lease_seconds prio)
  | renewed =>
    exact ⟨_, rfl, rfl, rfl, rfl, rfl, rfl, fun _ h => h, fun _ => rfl, fun _ h => h, fun _ h => h⟩
  | advanced _ job number fingerprints next_page last_number _ hp =>
    exact ⟨_, rfl, extends_checkpoint (·.advanced number fingerprints next_page last_number) hp
      ⟨rfl, rfl, rfl, rfl, rfl, rfl, rfl, rfl⟩⟩
  | paged _ job requests next_page expected_total _ hp =>
    rw [← (sameScope_coalescedAll i.now (requests.filter (isForAuthority · row))
      row).holdsAuthorityLease i.now job id] at hp
    refine ⟨_, rfl, (extends_coalescedAll i.now (requests.filter (isForAuthority · row)) row).trans ?_⟩
    exact extends_checkpoint (fun row => { row with
      listing_next_page := next_page
      listing_expected_total := expected_total }) hp ⟨rfl, rfl, rfl, rfl, rfl, rfl, rfl, rfl⟩
  | membership _ job next_page expected_total _ hp =>
    exact ⟨_, rfl, extends_checkpoint (fun row => { row with
      membership_next_page := next_page
      membership_expected_total := expected_total }) hp ⟨rfl, rfl, rfl, rfl, rfl, rfl, rfl, rfl⟩⟩
  | restarted _ _ _ hc | completed _ _ _ hc | failed _ _ _ _ _ _ _ hc | deferred _ _ _ _ _ _ _ hc =>
    subst hc
    cases hrelease

theorem AuthorityChanges.grows {i : Instant} {c : Call} (h : AuthorityChanges i c db db')
    (hclaim : ∀ owner lease_seconds prio, c ≠ .claimAuthority owner lease_seconds prio)
    (hrelease : c.authorityReleased = none) : Grows db db' := by
  refine ⟨h.next, ?_, ?_⟩
  · intro id row hr
    have hc := h.rows id
    rw [hr] at hc
    exact hc.extends hclaim hrelease
  · intro id row' hr'
    have hc := h.rows id
    rw [hr'] at hc
    cases hr : db.authority_jobs.get? id with
    | some row =>
      rw [hr] at hc
      obtain ⟨_, he, hext⟩ := hc.extends hclaim hrelease
      cases he
      exact Or.inl ⟨row, rfl, hext⟩
    | none =>
      rw [hr] at hc
      cases hc with
      | inserted request rest hge hlt =>
        exact Or.inr ⟨hge, hlt, (sameScope_coalescedAll i.now rest _).base_ref.trans rfl⟩

end

/-! ## Claims on authority rows -/

def ClaimedAuthorityJob.scopeKey (job : ClaimedAuthorityJob) : ScopeKey :=
  match job.repository_full_name with
  | none => .all
  | some repository => .repository repository

structure MatchesAuthority (job : ClaimedAuthorityJob) (row : AuthorityJob) : Prop where
  owner : row.lease_owner = some job.lease_owner
  installation_id : row.installation_id = job.installation_id
  scope_key : row.scope_key = job.scopeKey
  base_ref : job.base_ref = none
  targets : row.target_base_refs = job.target_base_refs

structure AuthorityTokenOk (db : Db) (job : ClaimedAuthorityJob) : Prop where
  fresh : job.id < db.next_authority_job
  behind : ∀ row, db.authority_jobs.get? job.id = some row → job.generation ≤ row.generation
  current : ∀ row, db.authority_jobs.get? job.id = some row → job.generation = row.generation →
    MatchesAuthority job row

def sameAuthorityClaim (a b : ClaimedAuthorityJob) : Bool :=
  a.id = b.id && a.generation = b.generation && a.lease_owner = b.lease_owner

theorem AuthorityTokenOk.grows {db db' : Db} {job : ClaimedAuthorityJob} (h : AuthorityTokenOk db job)
    (hg : Grows db db') : AuthorityTokenOk db' job := by
  have key : ∀ row', db'.authority_jobs.get? job.id = some row' →
      ∃ row, db.authority_jobs.get? job.id = some row ∧ Extends row row' := by
    intro row' hr
    rcases hg.origin job.id row' hr with hold | ⟨hlo, -⟩
    · exact hold
    · exact absurd h.fresh (not_lt.mpr hlo)
  refine ⟨lt_of_lt_of_le h.fresh hg.next, ?_, ?_⟩
  · intro row' hr
    obtain ⟨row, hrow, he⟩ := key row' hr
    rw [he.generation]
    exact h.behind row hrow
  · intro row' hr hgen
    obtain ⟨row, hrow, he⟩ := key row' hr
    have hm := h.current row hrow (he.generation ▸ hgen)
    have hleased : row.lease_owner ≠ none := by rw [hm.owner]; simp
    exact ⟨he.lease_owner.trans hm.owner, he.installation_id.trans hm.installation_id,
      he.scope_key.trans hm.scope_key, hm.base_ref, (he.leased hleased).trans hm.targets⟩

/-! ## Runs -/

/-- The pass reads every branch the obligation names, and was claimed after it. -/
def discharges (issued : Nat) (job : ClaimedAuthorityJob) (o : Obligation) : Bool :=
  job.installation_id = o.installation_id && job.scopeKey = o.scope_key && job.base_ref = none &&
    coversRef job.target_base_refs o.ref && o.accepted < issued

/-- `steps` counts the calls so far; `held` are the authority claims not yet
released, each with the step that issued it. -/
structure AuthorityRun where
  db : Db
  steps : Nat
  held : List (Nat × ClaimedAuthorityJob)
  outstanding : List Obligation

def AuthorityRun.initial : AuthorityRun := ⟨Db.initial, 0, [], []⟩

def AuthorityRun.heldAfter (r : AuthorityRun) (c : Call) (a : c.Answer) :
    List (Nat × ClaimedAuthorityJob) :=
  (c.authorityIssued a).toList.map (r.steps, ·) ++
    match c.authorityReleased with
    | none => r.held
    | some job => r.held.filter fun other => !sameAuthorityClaim job other.2

def AuthorityRun.outstandingAfter (r : AuthorityRun) (issued : Nat) (c : Call) (a : c.Answer) :
    List Obligation :=
  (c.authorityAccepted a).map (·.obligation r.steps) ++
    match c.authorityCompleted a with
    | none => r.outstanding
    | some job => r.outstanding.filter fun o => !discharges issued job o

/-- Any call that meets a condition on the state before it may come next; an
authority claim is used by its holder before its release. -/
inductive AuthorityRun.Step (meets : Db → Call → Prop) (r : AuthorityRun) : AuthorityRun → Prop where
  | call (i : Instant) (c : Call) (a : c.Answer) (db' : Db) (issued : Nat) :
      meets r.db c →
      (∀ job owner, c.authorityUsed = some (job, owner) →
        (issued, job) ∈ r.held ∧ owner = job.lease_owner) →
      c.run i r.db = .ok (db', a) →
      AuthorityRun.Step meets r ⟨db', r.steps + 1, r.heldAfter c a, r.outstandingAfter issued c a⟩

def AuthorityRun.Reachable (meets : Db → Call → Prop) (r : AuthorityRun) : Prop :=
  Relation.ReflTransGen (AuthorityRun.Step meets) AuthorityRun.initial r

abbrev anyCall : Db → Call → Prop := fun _ _ => True

/-- No request of the call arrives at a row that looks unstarted although its
pass has recorded progress, unless pending evidence covers the request. -/
def rightlyJudged : Db → Call → Prop := fun db c => ∀ request ∈ c.authorityPresented, Judged db request

/-- Pending evidence covers the obligation, or the targets do and every live
claim on them is later than the obligation. -/
def AuthorityRun.Covered (r : AuthorityRun) (o : Obligation) : Prop :=
  ∃ id row, r.db.authority_jobs.get? id = some row ∧ row.IsFor o ∧
    (row.pendingCovers o.ref = true ∨ (coversRef row.target_base_refs o.ref = true ∧
      ∀ n job, (n, job) ∈ r.held → job.id = id → job.generation = row.generation → o.accepted < n))

structure AuthorityRun.Inv (r : AuthorityRun) : Prop where
  fresh : AuthorityFresh r.db
  tokens : ∀ n job, (n, job) ∈ r.held → AuthorityTokenOk r.db job
  accepted : ∀ o ∈ r.outstanding, o.accepted < r.steps
  covered : ∀ o ∈ r.outstanding, r.Covered o

section
variable {r : AuthorityRun} {db' : Db}

theorem AuthorityRun.Covered.grows {o : Obligation} (h : r.Covered o) (hg : Grows r.db db') {n : Nat}
    {os : List Obligation} : AuthorityRun.Covered ⟨db', n, r.held, os⟩ o := by
  obtain ⟨id, row, hr, hfor, hc⟩ := h
  obtain ⟨row', hr', he⟩ := hg.kept id row hr
  refine ⟨id, row', hr', ⟨he.installation_id.trans hfor.installation_id,
    he.scope_key.trans hfor.scope_key, he.base_ref.trans hfor.base_ref⟩, ?_⟩
  refine hc.imp (he.pending o.ref) fun ht => ⟨he.targets o.ref ht.1, fun n job hj hid hgen => ?_⟩
  exact ht.2 n job hj hid (hgen.trans he.generation)

/-- An unleased row has no live claim, so what it takes is covered. -/
theorem Taken.covered {o : Obligation} (h : Taken db' o)
    (ht : ∀ n job, (n, job) ∈ r.held → AuthorityTokenOk db' job) {n : Nat} {os : List Obligation} :
    AuthorityRun.Covered ⟨db', n, r.held, os⟩ o := by
  obtain ⟨id, row, hr, hfor, ha⟩ := h
  refine ⟨id, row, hr, hfor, ?_⟩
  refine (takes_iff.mp ha).symm.imp_right fun hu => ⟨hu.2, fun n job hj hid hgen => ?_⟩
  subst hid
  have := ((ht n job hj).current row hr hgen).owner
  rw [hu.1] at this
  cases this

/-- A call that neither claims nor ends a pass. -/
theorem AuthorityRun.Inv.grows (h : r.Inv) (hg : Grows r.db db') {requests : List AuthorityRequest}
    (ha : ∀ request ∈ requests, ∀ n, Taken db' (request.obligation n)) :
    AuthorityRun.Inv ⟨db', r.steps + 1, r.held,
      requests.map (·.obligation r.steps) ++ r.outstanding⟩ := by
  have htokens : ∀ n job, (n, job) ∈ r.held → AuthorityTokenOk db' job :=
    fun n job hj => (h.tokens n job hj).grows hg
  refine ⟨h.fresh.grows hg, htokens, ?_, ?_⟩
  · intro o ho
    rcases List.mem_append.mp ho with hnew | hold
    · obtain ⟨request, -, rfl⟩ := List.mem_map.mp hnew
      exact Nat.lt_succ_self _
    · exact Nat.lt_succ_of_lt (h.accepted o hold)
  · intro o ho
    rcases List.mem_append.mp ho with hnew | hold
    · obtain ⟨request, hr, rfl⟩ := List.mem_map.mp hnew
      exact (ha request hr r.steps).covered htokens
    · exact (h.covered o hold).grows hg

theorem AuthorityRun.Inv.idle (h : r.Inv) :
    AuthorityRun.Inv ⟨r.db, r.steps + 1, r.held, r.outstanding⟩ := by
  have hnone : ∀ request ∈ ([] : List AuthorityRequest), ∀ n, Taken r.db (request.obligation n) :=
    fun _ hm => by cases hm
  exact h.grows (.of_eq rfl rfl) hnone

/-- A claim bumps the generation of a leased row and leases an unleased one, so
the only live claim of the row is the new one. -/
theorem AuthorityRun.Inv.claim (h : r.Inv) {i : Instant} {owner : Str} {lease_seconds : Nat} {prio : Bool} :
    AuthorityRun.Inv
      ⟨(claimAuthority i.now i.authority_locked owner lease_seconds prio r.db).1, r.steps + 1,
        (claimAuthority i.now i.authority_locked owner lease_seconds prio r.db).2.toList.map
          (r.steps, ·) ++ r.held, r.outstanding⟩ := by
  unfold claimAuthority
  split
  · exact h.idle
  rename_i id row hsel
  have hrow := (Dict.select_some hsel).1
  obtain ⟨hlt, hbase⟩ := h.fresh id row hrow
  generalize hclaimed : row.claimed owner (i.now + seconds lease_seconds) = claimed
  have hget : ∀ id', (r.db.authority_jobs.set id claimed).get? id' =
      if id' = id then some claimed else r.db.authority_jobs.get? id' := Dict.get?_set _ _ _
  have hold : ∀ n job, (n, job) ∈ r.held → job.id = id → job.generation ≠ claimed.generation := by
    intro n job hj hid hgen
    have ht := h.tokens n job hj
    have hbehind := ht.behind row (hid ▸ hrow)
    cases ho : row.lease_owner with
    | none =>
      have heq : job.generation = row.generation := by
        rw [hgen, ← hclaimed]; simp [AuthorityJob.claimed, ho]
      have := (ht.current row (hid ▸ hrow) heq).owner
      rw [ho] at this; cases this
    | some other =>
      have heq : claimed.generation = row.generation + 1 := by
        rw [← hclaimed]; simp [AuthorityJob.claimed, ho]
      omega
  have hle : row.generation ≤ claimed.generation := by
    rw [← hclaimed]; unfold AuthorityJob.claimed; simp only; split <;> omega
  have hfor : ∀ o, row.IsFor o → claimed.IsFor o := by
    rw [← hclaimed]; exact fun o ho => ⟨ho.installation_id, ho.scope_key, ho.base_ref⟩
  refine ⟨?_, ?_, fun o ho => Nat.lt_succ_of_lt (h.accepted o ho), ?_⟩
  · intro id' row' hr
    simp only [hget] at hr
    by_cases hid : id' = id
    · rw [if_pos hid] at hr
      cases hr
      exact ⟨hid ▸ hlt, by rw [← hclaimed]; exact hbase⟩
    · rw [if_neg hid] at hr
      exact h.fresh id' row' hr
  · intro n job hj
    rcases List.mem_append.mp hj with hnew | hj
    · obtain ⟨_, hm, heq⟩ := List.mem_map.mp hnew
      simp only [Option.toList_some, List.mem_singleton] at hm
      obtain ⟨-, rfl⟩ := Prod.mk.inj heq
      subst hm
      have hself : ∀ row', (r.db.authority_jobs.set id claimed).get? id = some row' → claimed = row' := by
        intro row' hr
        rw [hget, if_pos rfl] at hr
        exact Option.some.inj hr
      refine ⟨hlt, fun row' hr => by rw [← hself row' hr]; exact le_refl _, fun row' hr _ => ?_⟩
      rw [← hself row' hr]
      refine ⟨by rw [← hclaimed]; rfl, rfl, ?_, ?_, rfl⟩
      · unfold ClaimedAuthorityJob.scopeKey claimedAuthorityView
        cases claimed.scope_key <;> rfl
      · rw [← hclaimed]
        simp [claimedAuthorityView, AuthorityJob.claimed, hbase]
    · have ht := h.tokens n job hj
      refine ⟨ht.fresh, fun row' hr => ?_, fun row' hr hgen => ?_⟩
      · simp only [hget] at hr
        by_cases hid : job.id = id
        · rw [if_pos hid] at hr
          cases hr
          exact (ht.behind row (hid ▸ hrow)).trans hle
        · rw [if_neg hid] at hr
          exact ht.behind row' hr
      · simp only [hget] at hr
        by_cases hid : job.id = id
        · rw [if_pos hid] at hr
          cases hr
          exact absurd hgen (hold n job hj hid)
        · rw [if_neg hid] at hr
          exact ht.current row' hr hgen
  · intro o ho
    obtain ⟨id', row', hr, hf, hc⟩ := h.covered o ho
    by_cases hid : id' = id
    · subst hid
      rw [hrow] at hr
      cases hr
      refine ⟨id', claimed, by simp only [hget, if_true], hfor o hf, ?_⟩
      refine hc.imp (by rw [← hclaimed]; exact id) fun ht => ⟨by rw [← hclaimed]; exact ht.1, ?_⟩
      intro n job hj hid hgen
      rcases List.mem_append.mp hj with hnew | hj
      · obtain ⟨_, -, heq⟩ := List.mem_map.mp hnew
        rw [← (Prod.mk.inj heq).1]
        exact h.accepted o ho
      · exact absurd hgen (hold n job hj hid)
    · refine ⟨id', row', by simp only [hget, if_neg hid]; exact hr, hf, ?_⟩
      refine hc.imp_right fun ht => ⟨ht.1, fun n job hj hid' hgen => ?_⟩
      rcases List.mem_append.mp hj with hnew | hj
      · obtain ⟨_, hm, heq⟩ := List.mem_map.mp hnew
        simp only [Option.toList_some, List.mem_singleton] at hm
        obtain ⟨-, rfl⟩ := Prod.mk.inj heq
        subst hm
        exact absurd hid'.symm hid
      · exact ht.2 n job hj hid' hgen

/-- What remains held after a release is not a claim on the released row. -/
theorem not_released {db : Db} {job other : ClaimedAuthorityJob} (ht : AuthorityTokenOk db other)
    (hne : sameAuthorityClaim job other = false) {row : AuthorityJob}
    (hr : db.authority_jobs.get? other.id = some row)
    (hp : holdsAuthority job job.lease_owner other.id row = true) : other.generation ≠ row.generation := by
  intro hgen
  obtain ⟨hid, hg, ho⟩ := holdsAuthority_eq_true.mp hp
  have hown := (ht.current row hr hgen).owner
  rw [ho] at hown
  simp [sameAuthorityClaim, hid, hgen, hg, Option.some.inj hown] at hne

/-- A failed or deferred pass gives its lease back and leaves the evidence. -/
theorem AuthorityRun.Inv.release (h : r.Inv) {job : ClaimedAuthorityJob}
    {f : AuthorityJob → AuthorityJob}
    (hf : ∀ row, (f row).installation_id = row.installation_id ∧ (f row).scope_key = row.scope_key ∧
      (f row).base_ref = row.base_ref ∧ (f row).generation = row.generation ∧
      (f row).target_base_refs = row.target_base_refs ∧
      ∀ ref, (f row).pendingCovers ref = row.pendingCovers ref) :
    AuthorityRun.Inv
      ⟨(updateAuthority (holdsAuthority job job.lease_owner) f r.db).1, r.steps + 1,
        r.held.filter fun other => !sameAuthorityClaim job other.2, r.outstanding⟩ := by
  have hget : ∀ id, (updateAuthority (holdsAuthority job job.lease_owner) f r.db).1.authority_jobs.get? id =
      (r.db.authority_jobs.get? id).map fun row =>
        if holdsAuthority job job.lease_owner id row = true then f row else row :=
    fun id => Dict.get?_updateWhere _ _ _ id
  have hsame : ∀ id row, (if holdsAuthority job job.lease_owner id row = true then f row
      else row).generation = row.generation := by
    intro id row; split; exact (hf row).2.2.2.1; rfl
  refine ⟨?_, ?_, fun o ho => Nat.lt_succ_of_lt (h.accepted o ho), ?_⟩
  · intro id row' hr
    rw [hget] at hr
    obtain ⟨row, hrow, rfl⟩ := Option.map_eq_some_iff.mp hr
    refine ⟨(h.fresh id row hrow).1, ?_⟩
    split
    · rw [(hf row).2.2.1]; exact (h.fresh id row hrow).2
    · exact (h.fresh id row hrow).2
  · intro n other hj
    obtain ⟨hmem, hne⟩ := List.mem_filter.mp hj
    have ht := h.tokens n other hmem
    refine ⟨ht.fresh, fun row' hr => ?_, fun row' hr hgen => ?_⟩
    · rw [hget] at hr
      obtain ⟨row, hrow, rfl⟩ := Option.map_eq_some_iff.mp hr
      rw [hsame]
      exact ht.behind row hrow
    · rw [hget] at hr
      obtain ⟨row, hrow, rfl⟩ := Option.map_eq_some_iff.mp hr
      rw [hsame] at hgen
      by_cases hp : holdsAuthority job job.lease_owner other.id row = true
      · exact absurd hgen (not_released ht (by simpa using hne) hrow hp)
      · rw [if_neg hp]
        exact ht.current row hrow hgen
  · intro o ho
    obtain ⟨id, row, hr, hfor, hc⟩ := h.covered o ho
    obtain ⟨h₁, h₂, h₃, h₄, h₅, h₆⟩ := hf row
    by_cases hp : holdsAuthority job job.lease_owner id row = true
    · refine ⟨id, f row, by rw [hget, hr, Option.map_some, if_pos hp],
        ⟨h₁.trans hfor.installation_id, h₂.trans hfor.scope_key, h₃.trans hfor.base_ref⟩, ?_⟩
      rw [h₆, h₅, h₄]
      exact hc.imp_right fun ht => ⟨ht.1, fun n other hj hid hgen =>
        ht.2 n other (List.mem_filter.mp hj).1 hid hgen⟩
    · refine ⟨id, row, by rw [hget, hr, Option.map_some, if_neg hp], hfor, ?_⟩
      exact hc.imp_right fun ht => ⟨ht.1, fun n other hj hid hgen =>
        ht.2 n other (List.mem_filter.mp hj).1 hid hgen⟩

theorem restarted_covers {row : AuthorityJob} {now : Time} {ref : Option Str}
    (h : row.pendingCovers ref = true) : coversRef (row.restarted now).target_base_refs ref = true := by
  unfold AuthorityJob.restarted
  simp only
  by_cases hf : row.pending_full_rescan = true
  · rw [if_pos hf]; exact coversRef_empty ref
  · rw [if_neg hf]
    cases ref with
    | none => simp [AuthorityJob.pendingCovers, hf] at h
    | some r => simpa [AuthorityJob.pendingCovers, coversRef, hf] using Or.inr h

theorem hasPending_of_covers {row : AuthorityJob} {ref : Option Str} (h : row.pendingCovers ref = true) :
    row.hasPending = true := by
  unfold AuthorityJob.hasPending
  cases ref with
  | none =>
    simp only [AuthorityJob.pendingCovers, Bool.or_false] at h
    rw [h, Bool.true_or]
  | some r =>
    simp only [AuthorityJob.pendingCovers, Bool.or_eq_true, List.contains_iff_mem] at h
    rw [Bool.or_eq_true]
    refine h.imp_right fun hm => ?_
    cases he : row.pending_base_refs.entries with
    | nil => simp [Dict.keys, he] at hm
    | cons => rfl

/-- What completing a held row does: it restarts on pending evidence, or goes. -/
theorem completeAuthority_rows {db : Db} {now : Time} {job : ClaimedAuthorityJob} {owner : Str}
    {row : AuthorityJob}
    (hrow : (db.authority_jobs.get? job.id).filter (holdsAuthority job owner job.id) = some row) :
    (completeAuthority now job owner db).2 = true ∧
      (completeAuthority now job owner db).1.next_authority_job = db.next_authority_job ∧
      (completeAuthority now job owner db).1.authority_jobs.get? job.id =
        (if row.hasPending = true then some (row.restarted now) else none) ∧
      ∀ id, id ≠ job.id → (completeAuthority now job owner db).1.authority_jobs.get? id =
        db.authority_jobs.get? id := by
  obtain ⟨hget, hheld⟩ := Option.filter_eq_some_iff.mp hrow
  have hne : ∀ id row', id ≠ job.id → holdsAuthority job owner id row' = false := by
    intro id row' hid
    simp [holdsAuthority, hid]
  unfold completeAuthority
  rw [hrow]
  by_cases hp : row.hasPending = true
  · simp only [hp, if_true]
    refine ⟨trivial, trivial, by simp [hget, hheld], fun id hid => ?_⟩
    rw [Dict.get?_updateWhere]
    cases db.authority_jobs.get? id <;> simp [hne id _ hid]
  · simp only [hp]
    refine ⟨rfl, rfl, by simp [hget, hheld, Option.filter], fun id hid => ?_⟩
    simp only [Bool.false_eq_true, if_false, Dict.get?_deleteWhere]
    cases db.authority_jobs.get? id <;> simp [hne id _ hid, Option.filter]

/-- The end of a pass discharges what its targets cover; what is left is pending
and becomes the targets of the next pass. -/
theorem AuthorityRun.Inv.complete (h : r.Inv) (now : Time) {job : ClaimedAuthorityJob} {issued : Nat}
    (hj : (issued, job) ∈ r.held) :
    AuthorityRun.Inv
      ⟨(completeAuthority now job job.lease_owner r.db).1, r.steps + 1,
        r.held.filter fun other => !sameAuthorityClaim job other.2,
        if (completeAuthority now job job.lease_owner r.db).2 = true then
          r.outstanding.filter fun o => !discharges issued job o
        else r.outstanding⟩ := by
  cases hrow : (r.db.authority_jobs.get? job.id).filter (holdsAuthority job job.lease_owner job.id) with
  | none =>
    have hg := h.idle
    unfold completeAuthority
    rw [hrow]
    refine ⟨hg.fresh, fun n other hm => hg.tokens n other (List.mem_filter.mp hm).1, hg.accepted, ?_⟩
    intro o ho
    obtain ⟨id, row, hr, hfor, hc⟩ := hg.covered o ho
    exact ⟨id, row, hr, hfor, hc.imp_right fun ht => ⟨ht.1, fun n other hm hid hgen =>
      ht.2 n other (List.mem_filter.mp hm).1 hid hgen⟩⟩
  | some row =>
    obtain ⟨hdone, hnext, hself, hother⟩ := completeAuthority_rows hrow
    obtain ⟨hget, hheld⟩ := Option.filter_eq_some_iff.mp hrow
    obtain ⟨-, hgen, -⟩ := holdsAuthority_eq_true.mp hheld
    have hm := (h.tokens issued job hj).current row hget hgen.symm
    rw [if_pos hdone]
    generalize completeAuthority now job job.lease_owner r.db = result at hdone hnext hself hother ⊢
    have bumped : ∀ row', result.1.authority_jobs.get? job.id = some row' →
        row'.generation = row.generation + 1 ∧ row'.base_ref = [] := by
      intro row' hr
      rw [hself] at hr
      split at hr
      · cases hr; exact ⟨rfl, rfl⟩
      · cases hr
    have stale : ∀ n other, (n, other) ∈ r.held → other.id = job.id → other.generation ≤ row.generation :=
      fun n other hmem hid => (h.tokens n other hmem).behind row (hid ▸ hget)
    refine ⟨?_, ?_, ?_, ?_⟩
    · intro id row' hr
      by_cases hid : id = job.id
      · subst hid
        exact ⟨hnext ▸ (h.fresh _ row hget).1, (bumped row' hr).2⟩
      · rw [hother id hid] at hr
        exact hnext ▸ h.fresh id row' hr
    · intro n other hmem
      have hmem := (List.mem_filter.mp hmem).1
      have ht := h.tokens n other hmem
      by_cases hid : other.id = job.id
      · have hle := stale n other hmem hid
        refine ⟨hnext ▸ ht.fresh, fun row' hr => ?_, fun row' hr hg => ?_⟩
        · rw [hid] at hr
          have := (bumped row' hr).1
          omega
        · rw [hid] at hr
          have := (bumped row' hr).1
          omega
      · refine ⟨hnext ▸ ht.fresh, fun row' hr => ?_, fun row' hr hg => ?_⟩
        · exact ht.behind row' (hother _ hid ▸ hr)
        · exact ht.current row' (hother _ hid ▸ hr) hg
    · exact fun o ho => Nat.lt_succ_of_lt (h.accepted o (List.mem_filter.mp ho).1)
    · intro o ho
      obtain ⟨ho, hnot⟩ := List.mem_filter.mp ho
      obtain ⟨id, row', hr, hfor, hc⟩ := h.covered o ho
      by_cases hid : id = job.id
      · -- on the row of the pass, only pending evidence can be left
        subst hid
        rw [hget] at hr
        cases hr
        have hpending : row.pendingCovers o.ref = true := by
          refine hc.resolve_right fun ht => ?_
          have hlate := ht.2 issued job hj rfl hgen.symm
          simp [discharges, ← hm.installation_id, ← hm.scope_key, hm.base_ref, ← hm.targets,
            hfor.installation_id, hfor.scope_key, ht.1, hlate] at hnot
        refine ⟨job.id, row.restarted now, by rw [hself, if_pos (hasPending_of_covers hpending)],
          ⟨hfor.installation_id, hfor.scope_key, rfl⟩, Or.inr ⟨restarted_covers hpending, ?_⟩⟩
        intro n other hmem hid hg
        have hle := stale n other (List.mem_filter.mp hmem).1 hid
        have : other.generation = row.generation + 1 := hg
        omega
      · refine ⟨id, row', by rw [hother id hid]; exact hr, hfor, ?_⟩
        exact hc.imp_right fun ht => ⟨ht.1, fun n other hmem hid hg =>
          ht.2 n other (List.mem_filter.mp hmem).1 hid hg⟩

end

/-- Calls that neither claim an authority row nor end a pass. -/
theorem grows_run {i : Instant} {db db' : Db} (h : AuthorityFresh db) {c : Call} {a : c.Answer}
    (hclaim : ∀ owner lease_seconds prio, c ≠ .claimAuthority owner lease_seconds prio)
    (hrelease : c.authorityReleased = none) (hr : c.run i db = .ok (db', a)) :
    Grows db db' ∧ ∀ request ∈ c.authorityAccepted a, ∀ n, Taken db' (request.obligation n) ∧
      (Judged db request → Accepted db' (request.obligation n)) := by
  refine ⟨(authorityChange_run h hr).grows hclaim hrelease, ?_⟩
  cases c with
  | acceptDelivery => exact accepted_acceptDelivery h hr
  | enqueueAuthority request =>
    injection hr with hr
    rw [← (Prod.mk.inj hr).1]
    intro r hm n
    rw [List.mem_singleton.mp hm]
    exact ⟨taken_enqueueAuthority h n, fun hj => accepted_enqueueAuthority h hj n⟩
  | advanceInstallationAuthorityPage job requests next_page expected_total =>
    cases a with
    | true => exact accepted_page h hr
    | false => exact fun _ hm => by cases hm
  | _ => exact fun _ hm => by cases hm

theorem AuthorityRun.Inv.step {meets : Db → Call → Prop} {r r' : AuthorityRun} (h : r.Inv)
    (hs : r.Step meets r') : r'.Inv := by
  obtain ⟨i, c, a, db', issued, -, hused, hr⟩ := hs
  cases hrel : c.authorityReleased with
  | none =>
    by_cases hclaim : ∃ owner lease_seconds prio, c = .claimAuthority owner lease_seconds prio
    · obtain ⟨owner, lease_seconds, prio, rfl⟩ := hclaim
      injection hr with hr
      obtain ⟨rfl, rfl⟩ := Prod.mk.inj hr
      exact h.claim
    · push Not at hclaim
      obtain ⟨hg, ha⟩ := grows_run h.fresh hclaim hrel hr
      have hnone : c.authorityIssued a = none ∧ c.authorityCompleted a = none := by
        cases c <;> first
          | exact ⟨rfl, rfl⟩
          | exact absurd rfl (hclaim _ _ _)
          | cases hrel
      unfold AuthorityRun.heldAfter AuthorityRun.outstandingAfter
      rw [hnone.1, hnone.2, hrel]
      exact h.grows hg fun request hm n => (ha request hm n).1
  | some job =>
    cases c with
    | completeAuthority job owner =>
      obtain ⟨hj, rfl⟩ := hused job owner rfl
      injection hr with hr
      have hinv := h.complete i.now hj
      rw [hr] at hinv
      cases a <;> exact hinv
    | failAuthority job owner error max_delay minimum_delay =>
      obtain ⟨hj, rfl⟩ := hused job owner rfl
      injection hr with hr
      obtain ⟨rfl, -⟩ := Prod.mk.inj hr
      exact h.release fun row => ⟨rfl, rfl, rfl, rfl, rfl, fun _ => rfl⟩
    | deferAuthority job owner error delay preserve =>
      obtain ⟨hj, rfl⟩ := hused job owner rfl
      injection hr with hr
      obtain ⟨rfl, -⟩ := Prod.mk.inj hr
      exact h.release fun row => ⟨rfl, rfl, rfl, rfl, rfl, fun _ => rfl⟩
    | _ => cases hrel

theorem AuthorityRun.Reachable.inv {meets : Db → Call → Prop} {r : AuthorityRun}
    (h : r.Reachable meets) : r.Inv := by
  induction h with
  | refl =>
    refine ⟨?_, ?_, ?_, ?_⟩
    · intro id row hr; cases hr
    · intro n job hj; cases hj
    · intro o ho; cases ho
    · intro o ho; cases ho
  | tail _ hs ih => exact ih.step hs

theorem presented_of_accepted {c : Call} {a : c.Answer} {request : AuthorityRequest}
    (h : request ∈ c.authorityAccepted a) : request ∈ c.authorityPresented := by
  cases c with
  | acceptDelivery delivery_id event brought =>
    rcases brought with _ | _ | other
    · cases h
    · cases h
    · simp only [Call.authorityAccepted] at h
      split at h
      · exact h
      · cases h
  | enqueueAuthority other => exact h
  | advanceInstallationAuthorityPage job requests next_page expected_total =>
    cases a with
    | true => exact h
    | false => cases h
  | _ => cases h

/-- What a step accepts, the row of its scope accepts in the same transaction. -/
theorem AuthorityRun.Step.accepted {r r' : AuthorityRun} (h : r.Inv) (hs : r.Step rightlyJudged r')
    {o : Obligation} (ho : o ∈ r'.outstanding) (hnew : o.accepted = r.steps) : Accepted r'.db o := by
  obtain ⟨i, c, a, db', issued, hjudged, -, hr⟩ := hs
  rcases List.mem_append.mp ho with ho | ho
  · obtain ⟨request, hmem, rfl⟩ := List.mem_map.mp ho
    have hpages := grows_run h.fresh ?_ ?_ hr
    · exact (hpages.2 request hmem r.steps).2 (hjudged request (presented_of_accepted hmem))
    · intro owner lease_seconds prio he
      subst he
      cases hmem
    · cases c <;> first | rfl | cases hmem
  · have hold : o ∈ r.outstanding := by
      split at ho
      · exact ho
      · exact (List.mem_filter.mp ho).1
    exact absurd (h.accepted o hold) (by omega)

/-- In every run an accepted obligation stays covered until a covering pass
that was claimed after its acceptance completes, and a live claim reads the
targets of its row. At every step whose requests meet rightly judged rows, so
throughout every run of such steps, what is accepted is in the targets of a
pass that no process holds and that has recorded no progress, or in pending
evidence. -/
theorem authority_obligation_covered {r : AuthorityRun} (hr : r.Reachable anyCall) :
    (∀ o ∈ r.outstanding, r.Covered o) ∧
    (∀ n job row, (n, job) ∈ r.held → r.db.authority_jobs.get? job.id = some row →
      job.generation = row.generation → job.target_base_refs = row.target_base_refs) ∧
    ∀ r', r.Step rightlyJudged r' → ∀ o ∈ r'.outstanding, o.accepted = r.steps → Accepted r'.db o := by
  refine ⟨hr.inv.covered, fun n job row hj hrow hgen => ?_, fun _ hs _ ho hnew => hs.accepted hr.inv ho hnew⟩
  exact ((hr.inv.tokens n job hj).current row hrow hgen).targets.symm

def sampleAuthorityRequest : AuthorityRequest := ⟨1, some ⟨"o/r"⟩, some "main", "push"⟩

def sampleAuthorityRun : AuthorityRun :=
  ⟨enqueueAuthority 0 sampleAuthorityRequest Db.initial, 1, [], [sampleAuthorityRequest.obligation 0]⟩

theorem sampleAuthorityRun_reachable : sampleAuthorityRun.Reachable anyCall :=
  Relation.ReflTransGen.refl.tail (.call sampleInstant (.enqueueAuthority sampleAuthorityRequest) () _ 0
    trivial (fun _ _ h => by cases h) rfl)

theorem Judged.of_initial (request : AuthorityRequest) : Judged Db.initial request := by
  intro id row hr
  cases hr

/-- The request is accepted by the row inserted for it, and covered from then on. -/
theorem sampleAuthorityRun_covered :
    Accepted sampleAuthorityRun.db (sampleAuthorityRequest.obligation 0) ∧
      sampleAuthorityRun.Covered (sampleAuthorityRequest.obligation 0) := by
  have hstep : AuthorityRun.initial.Step rightlyJudged sampleAuthorityRun := by
    refine .call sampleInstant (.enqueueAuthority sampleAuthorityRequest) () _ 0 ?_
      (fun _ _ h => by cases h) rfl
    intro request _
    exact .of_initial request
  constructor
  · exact (authority_obligation_covered .refl).2.2 _ hstep _ (List.mem_singleton_self _) rfl
  · exact (authority_obligation_covered sampleAuthorityRun_reachable).1 _ (List.mem_singleton_self _)

/-! A fence deferred after the first page of a membership listing. -/

def samplePass : ClaimedAuthorityJob :=
  claimedAuthorityView 1 ((firstAuthorityJob 0 sampleAuthorityRequest).claimed "w" (seconds 60)) "w"

/-- The calls that record the page and give the claim back. -/
def pagedCalls : List Call :=
  [.enqueueAuthority sampleAuthorityRequest, .claimAuthority "w" 60 true,
    .advanceAuthorityMembershipPage samplePass 2 (some 150),
    .deferAuthority samplePass "w" "reserve" 600 false]

def AuthorityRun.next (r : AuthorityRun) (c : Call) : AuthorityRun :=
  match c.run sampleInstant r.db with
  | .ok (db', a) => ⟨db', r.steps + 1, r.heldAfter c a, r.outstandingAfter 1 c a⟩
  | .error _ => r

theorem AuthorityRun.Reachable.next {r : AuthorityRun} (h : r.Reachable anyCall) {c : Call}
    (hused : ∀ job owner, c.authorityUsed = some (job, owner) →
      (1, job) ∈ r.held ∧ owner = job.lease_owner) : (r.next c).Reachable anyCall := by
  unfold AuthorityRun.next
  cases hr : c.run sampleInstant r.db with
  | error e => exact h
  | ok x => exact h.tail (.call sampleInstant c x.2 x.1 1 trivial hused hr)

def pagedRun : AuthorityRun := pagedCalls.foldl AuthorityRun.next AuthorityRun.initial

theorem pagedRun_reachable : pagedRun.Reachable anyCall := by
  have h₁ := AuthorityRun.Reachable.next (r := .initial) .refl
    (c := .enqueueAuthority sampleAuthorityRequest) fun _ _ h => by cases h
  have h₂ := h₁.next (c := .claimAuthority "w" 60 true) fun _ _ h => by cases h
  have h₃ := h₂.next (c := .advanceAuthorityMembershipPage samplePass 2 (some 150))
    fun job owner h => by cases h; exact ⟨List.mem_singleton_self _, rfl⟩
  exact h₃.next (c := .deferAuthority samplePass "w" "reserve" 600 false)
    fun job owner h => by cases h; exact ⟨List.mem_singleton_self _, rfl⟩

def releaseRequest : AuthorityRequest := ⟨1, some ⟨"o/r"⟩, some "release", "push"⟩

/-- A push to another branch widens the targets of a pass that has recorded a
page of the membership listing. -/
theorem recorded_pass_is_widened :
    ¬ ∀ r : AuthorityRun, r.Reachable anyCall → ∀ r', r.Step anyCall r' →
      ∀ o ∈ r'.outstanding, o.accepted = r.steps → Accepted r'.db o := by
  intro h
  have hstep : pagedRun.Step anyCall (pagedRun.next (.enqueueAuthority releaseRequest)) :=
    .call sampleInstant (.enqueueAuthority releaseRequest) () _ 1 trivial (fun _ _ h => by cases h) rfl
  obtain ⟨id, row, hr, -, ha⟩ := h pagedRun pagedRun_reachable _ hstep (releaseRequest.obligation 4)
    List.mem_cons_self rfl
  have hany : ((pagedRun.next (.enqueueAuthority releaseRequest)).db.authority_jobs.any fun _ row =>
      row.accepts (releaseRequest.obligation 4).ref) = true := Dict.any_eq_true.mpr ⟨id, row, hr, ha⟩
  exact absurd hany (by decide)

end ExtraCodeowners
