import ExtraCodeowners.AuthorityCoverage
import ExtraCodeowners.EpochIntegrity

/-!
# Fencing tokens

A later claim leaves the token of an earlier one without effect. A reclaimed
evaluation or authority row has a new generation; the lease of a head has
another owner, and is told from the earlier one by that owner alone.
-/

namespace ExtraCodeowners

/-! ## Tokens that no row carries -/

/-- The row of the token is gone or has a later generation. -/
def Outrun (db : Db) (job : ClaimedJob) : Prop :=
  job.id < db.next_evaluation_job ∧
    ∀ row, db.evaluation_jobs.get? job.id = some row → job.generation < row.generation

def AuthorityOutrun (db : Db) (job : ClaimedAuthorityJob) : Prop :=
  job.id < db.next_authority_job ∧
    ∀ row, db.authority_jobs.get? job.id = some row → job.generation < row.generation

/-- The generation of the token is over, or somebody else's. -/
def Dispossessed (db : Db) (job : ClaimedSharedHeadInvalidation) : Prop :=
  ∀ e, db.shared_head_epochs.get? job.epochKey = some e → e.generation = job.generation →
    e.lease_owner ≠ some job.lease_owner

/-- Under whatever owner it is presented, the token changes no row and is not current. -/
structure FencedOff (db : Db) (job : ClaimedJob) : Prop where
  inert : ∀ (i : Instant) (c : Call) (a : c.Answer) (db' : Db) (owner : Str),
    c.claimUsed = some (job, owner) → c.run i db = .ok (db', a) → db' = db
  not_current : ∀ now, isCurrentClaim now job db = false

structure AuthorityFencedOff (db : Db) (job : ClaimedAuthorityJob) : Prop where
  inert : ∀ (i : Instant) (c : Call) (a : c.Answer) (db' : Db) (owner : Str),
    c.authorityUsed = some (job, owner) → c.run i db = .ok (db', a) → db' = db

structure InvalidationFencedOff (db : Db) (job : ClaimedSharedHeadInvalidation) : Prop where
  inert : ∀ (i : Instant) (c : Call) (a : c.Answer) (db' : Db),
    c.invalidationUsed = some job → c.run i db = .ok (db', a) → db' = db
  not_current : ∀ now, isCurrentSharedHeadInvalidation now job db = false

section
variable {db : Db}

/-- No row meets a condition that asks for the token. -/
theorem Outrun.any_eq_false {job : ClaimedJob} (h : Outrun db job) {owner : Str}
    {p : Nat → EvaluationJob → Bool} (hp : ∀ id row, p id row = true → holdsClaim job owner id row = true) :
    db.evaluation_jobs.any p = false := by
  refine Dict.any_eq_false.mpr fun id row hr => ?_
  rw [← Bool.not_eq_true]
  intro hheld
  obtain ⟨hid, hg, -⟩ := holdsClaim_eq_true.mp (hp id row hheld)
  have := h.2 row (hid ▸ hr)
  omega

theorem Outrun.fencedOff {job : ClaimedJob} (h : Outrun db job) : FencedOff db job := by
  refine ⟨?_, ?_⟩
  · intro i c a db' owner hu hr
    have hany : ∀ owner, db.evaluation_jobs.any (holdsClaim job owner) = false :=
      fun owner => h.any_eq_false fun _ _ hp => hp
    cases c with
    | renewClaim job' lease_seconds =>
      cases hu
      have hrun : renewClaim i.now job lease_seconds db = (db', a) := Except.ok.inj hr
      unfold renewClaim at hrun
      rw [← (Prod.mk.inj hrun).1, Dict.updateWhere_eq_self (h.any_eq_false fun _ _ hp => (Bool.and_eq_true _ _ ▸ hp).1)]
    | bindClaimToHead job' head =>
      cases hu
      have hrun : bindClaimToHead i.now job head db = (db', a) := Except.ok.inj hr
      unfold bindClaimToHead at hrun
      split at hrun
      · exact (Prod.mk.inj hrun).1.symm
      · split at hrun
        · rename_i hsome
          rw [@Outrun.any_eq_false db job h job.lease_owner] at hsome
          · cases hsome
          · intro id row hp
            simp only [Bool.and_eq_true] at hp
            exact hp.1.1
        · exact (Prod.mk.inj hrun).1.symm
    | observeEvaluationBase job' base_ref =>
      cases hu
      have hrun : observeEvaluationBase i.now job base_ref db = (db', a) := Except.ok.inj hr
      have hnone : db.evaluation_jobs.any (observesBase i.now job) = false := by
        refine @Outrun.any_eq_false db job h job.lease_owner _ fun id row hp => ?_
        simp only [observesBase, Bool.and_eq_true] at hp
        exact hp.1.1
      unfold observeEvaluationBase at hrun
      rw [if_neg (by rw [hnone]; exact Bool.false_ne_true)] at hrun
      exact (Prod.mk.inj hrun).1.symm
    | complete job' owner' =>
      cases hu
      have hrun : complete i.now job owner db = (db', a) := Except.ok.inj hr
      have hnone : (db.evaluation_jobs.get? job.id).filter (holdsClaim job owner job.id) = none := by
        rw [Option.filter_eq_none_iff]
        intro row hrow
        exact Bool.eq_false_iff.mp (Dict.any_eq_false.mp (hany owner) job.id row hrow)
      unfold complete at hrun
      rw [hnone] at hrun
      exact (Prod.mk.inj hrun).1.symm
    | fail job' owner' error max_delay_seconds =>
      cases hu
      have hrun : (fail i.now job owner error max_delay_seconds db, ()) = (db', a) := Except.ok.inj hr
      rw [← (Prod.mk.inj hrun).1]
      exact congrArg Prod.fst (release_inert (by rw [hany owner]; exact Bool.false_ne_true))
    | defer job' owner' error delay_seconds limit =>
      cases hu
      have hrun : defer i.now job owner error delay_seconds limit db = (db', a) := Except.ok.inj hr
      rw [← (Prod.mk.inj hrun).1]
      exact congrArg Prod.fst (release_inert (by rw [hany owner]; exact Bool.false_ne_true))
    | _ => cases hu
  · intro now
    unfold isCurrentClaim
    split
    · rfl
    · rename_i row hrow
      split
      · rfl
      · have hlt := h.2 row hrow
        have hne : row.generation ≠ job.generation := by omega
        simp [hne]

theorem AuthorityOutrun.any_eq_false {job : ClaimedAuthorityJob} (h : AuthorityOutrun db job) {owner : Str}
    {p : Nat → AuthorityJob → Bool} (hp : ∀ id row, p id row = true → holdsAuthority job owner id row = true) :
    db.authority_jobs.any p = false := by
  refine Dict.any_eq_false.mpr fun id row hr => ?_
  rw [← Bool.not_eq_true]
  intro hheld
  obtain ⟨hid, hg, -⟩ := holdsAuthority_eq_true.mp (hp id row hheld)
  have := h.2 row (hid ▸ hr)
  omega

theorem AuthorityOutrun.lease {job : ClaimedAuthorityJob} (h : AuthorityOutrun db job) (now : Time) :
    db.authority_jobs.any (holdsAuthorityLease now job) = false :=
  h.any_eq_false fun _ _ hp => (Bool.and_eq_true _ _ ▸ hp).1

theorem updateAuthority_inert {p : Nat → AuthorityJob → Bool} {values : AuthorityJob → AuthorityJob}
    (h : db.authority_jobs.any p = false) : (updateAuthority p values db).1 = db := by
  simp only [updateAuthority, Dict.updateWhere_eq_self h]

theorem AuthorityOutrun.fencedOff {job : ClaimedAuthorityJob} (h : AuthorityOutrun db job) :
    AuthorityFencedOff db job := by
  have of_ok : ∀ {α : Type} {x : Db × α} {a : α} {db' : Db},
      (.ok x : Except Str (Db × α)) = .ok (db', a) → x.1 = db' := by
    intro α x a db' hx
    injection hx with hx
    rw [hx]
  have hany : ∀ owner, db.authority_jobs.any (holdsAuthority job owner) = false :=
    fun owner => h.any_eq_false fun _ _ hp => hp
  refine ⟨?_⟩
  intro i c a db' owner hu hr
  cases c with
  | renewAuthorityClaim job' lease_seconds =>
    cases hu
    rw [← of_ok hr]
    exact updateAuthority_inert (h.any_eq_false fun _ _ hp => (Bool.and_eq_true _ _ ▸ hp).1)
  | advanceAuthorityCursor job' =>
    cases hu
    rw [← of_ok hr]
    exact updateAuthority_inert (h.lease i.now)
  | advanceInstallationAuthorityPage job' requests next_page expected_total =>
    cases hu
    simp only [Call.run, advanceInstallationAuthorityPage, h.lease i.now, Bool.false_eq_true, if_false] at hr
    split at hr
    · cases hr
    · split at hr
      · cases hr
      · cases hr
        rfl
  | advanceAuthorityMembershipPage job' =>
    cases hu
    rw [← of_ok hr]
    exact updateAuthority_inert (h.lease i.now)
  | completeAuthority job' owner' =>
    cases hu
    have hrun : completeAuthority i.now job owner db = (db', a) := Except.ok.inj hr
    unfold completeAuthority at hrun
    have hnone : (db.authority_jobs.get? job.id).filter (holdsAuthority job owner job.id) = none := by
      rw [Option.filter_eq_none_iff]
      intro row hrow
      exact Bool.eq_false_iff.mp (Dict.any_eq_false.mp (hany owner) job.id row hrow)
    rw [hnone] at hrun
    exact (Prod.mk.inj hrun).1.symm
  | failAuthority job' owner' =>
    cases hu
    rw [← of_ok hr]
    exact updateAuthority_inert (hany owner)
  | deferAuthority job' owner' =>
    cases hu
    rw [← of_ok hr]
    exact updateAuthority_inert (hany owner)
  | _ => cases hu

theorem Dispossessed.not_held {job : ClaimedSharedHeadInvalidation} (h : Dispossessed db job)
    (now : Time) {e : SharedHeadEpoch} (he : db.shared_head_epochs.get? job.epochKey = some e) :
    holdsInvalidation now job e = false := by
  rw [← Bool.not_eq_true]
  intro hp
  have hgen : e.generation = job.generation := by
    simp only [holdsInvalidation, Bool.and_eq_true, decide_eq_true_eq] at hp
    exact hp.1.1.1
  exact h e he hgen (holdsInvalidation_lease hp)

theorem Dispossessed.not_current {job : ClaimedSharedHeadInvalidation} (h : Dispossessed db job)
    (now : Time) : isCurrentSharedHeadInvalidation now job db = false := by
  unfold isCurrentSharedHeadInvalidation
  split
  · rfl
  · rename_i e he
    exact h.not_held now he

theorem Dispossessed.update {job : ClaimedSharedHeadInvalidation} (h : Dispossessed db job) (now : Time)
    {values : SharedHeadEpoch → SharedHeadEpoch} :
    updateInvalidation now job values db = (db, false) := by
  unfold updateInvalidation
  rw [h.not_current now, Dict.updateWhere_eq_self]
  refine Dict.any_eq_false.mpr fun key e he => ?_
  rw [Bool.and_eq_false_iff]
  by_cases hk : key = job.epochKey
  · exact Or.inr (h.not_held now (hk ▸ he))
  · exact Or.inl (decide_eq_false hk)

theorem Dispossessed.fencedOff {job : ClaimedSharedHeadInvalidation} (h : Dispossessed db job) :
    InvalidationFencedOff db job := by
  refine ⟨?_, h.not_current⟩
  intro i c a db' hu hr
  cases c with
  | renewSharedHeadInvalidation job' lease_seconds =>
    cases hu
    have hrun : renewSharedHeadInvalidation i.now job lease_seconds db = (db', a) := Except.ok.inj hr
    rw [renewSharedHeadInvalidation, h.update] at hrun
    exact (Prod.mk.inj hrun).1.symm
  | completeSharedHeadInvalidation job' =>
    cases hu
    have hrun : completeSharedHeadInvalidation i.now job db = (db', a) := Except.ok.inj hr
    rw [completeSharedHeadInvalidation, h.update] at hrun
    exact (Prod.mk.inj hrun).1.symm
  | failSharedHeadInvalidation job' error max_delay_seconds =>
    cases hu
    have hrun : failSharedHeadInvalidation i.now job error max_delay_seconds db = (db', a) :=
      Except.ok.inj hr
    rw [failSharedHeadInvalidation, h.update] at hrun
    exact (Prod.mk.inj hrun).1.symm
  | deferSharedHeadInvalidation job' error delay_seconds =>
    cases hu
    have hrun : deferSharedHeadInvalidation i.now job error delay_seconds db = (db', a) :=
      Except.ok.inj hr
    rw [deferSharedHeadInvalidation, h.update] at hrun
    exact (Prod.mk.inj hrun).1.symm
  | _ => cases hu

end

/-! ## Runs -/

def sameInvalidation (a b : ClaimedSharedHeadInvalidation) : Bool :=
  a.epochKey = b.epochKey && a.generation = b.generation && a.lease_owner = b.lease_owner

/-- The tables and the tokens of every kind whose holders have not released them. -/
structure Tokens where
  db : Db
  jobs : List ClaimedJob
  authorities : List ClaimedAuthorityJob
  invalidations : List ClaimedSharedHeadInvalidation

def Tokens.initial : Tokens := ⟨Db.initial, [], [], []⟩

def Tokens.after (s : Tokens) (c : Call) (a : c.Answer) (db' : Db) : Tokens where
  db := db'
  jobs := (c.claimIssued a).toList ++
    match c.claimReleased with
    | none => s.jobs
    | some job => s.jobs.filter fun other => !sameClaim job other
  authorities := (c.authorityIssued a).toList ++
    match c.authorityReleased with
    | none => s.authorities
    | some job => s.authorities.filter fun other => !sameAuthorityClaim job other
  invalidations := (c.invalidationIssued a).toList ++
    match c.invalidationReleased with
    | none => s.invalidations
    | some job => s.invalidations.filter fun other => !sameInvalidation job other

/-- A token is used by its holder before its release. -/
structure Tokens.Uses (s : Tokens) (c : Call) : Prop where
  job : ∀ job owner, c.claimUsed = some (job, owner) → job ∈ s.jobs ∧ owner = job.lease_owner
  authority : ∀ job owner, c.authorityUsed = some (job, owner) →
    job ∈ s.authorities ∧ owner = job.lease_owner
  invalidation : ∀ job, c.invalidationUsed = some job → job ∈ s.invalidations

/-- In the service an owner is one slot, which resets one head at a time. -/
structure Tokens.Permits (s : Tokens) (c : Call) : Prop extends s.Uses c where
  sequential : ∀ owner lease_seconds work_class,
    c = .claimSharedHeadInvalidation owner lease_seconds work_class →
      ∀ job ∈ s.invalidations, job.lease_owner ≠ owner

/-- Any call that keeps to the rule may come next, and work may be given up at any time. -/
inductive Tokens.Step (rule : Tokens → Call → Prop) (s : Tokens) : Tokens → Prop where
  | call (i : Instant) (c : Call) (a : c.Answer) (db' : Db) : rule s c → c.run i s.db = .ok (db', a) →
      Tokens.Step rule s (s.after c a db')
  | gaveUp (invalidations : List ClaimedSharedHeadInvalidation) : invalidations ⊆ s.invalidations →
      Tokens.Step rule s { s with invalidations := invalidations }

def Tokens.Steps (rule : Tokens → Call → Prop) (s t : Tokens) : Prop :=
  Relation.ReflTransGen (Tokens.Step rule) s t

def Tokens.Reachable (rule : Tokens → Call → Prop) (s : Tokens) : Prop := Tokens.initial.Steps rule s

theorem Tokens.Steps.uses {s t : Tokens} (h : s.Steps Tokens.Permits t) : s.Steps Tokens.Uses t := by
  refine Relation.ReflTransGen.mono (fun u v hs => ?_) s t h
  cases hs with
  | call i c a db' hp hr => exact .call i c a db' hp.toUses hr
  | gaveUp invalidations hsub => exact .gaveUp invalidations hsub

theorem Tokens.Reachable.uses {s : Tokens} (h : s.Reachable Tokens.Permits) : s.Reachable Tokens.Uses :=
  Tokens.Steps.uses h

/-! ### The runs of each kind of token -/

theorem Tokens.Reachable.queue {s : Tokens} (h : s.Reachable Tokens.Uses) :
    Queue.Reachable ⟨s.db, s.jobs⟩ := by
  induction h with
  | refl => exact .refl
  | tail _ hs ih =>
    cases hs with
    | call i c a db' hp hr => exact ih.tail (.call i c a db' hp.job hr)
    | gaveUp => exact ih

theorem Tokens.Reachable.authorityRun {s : Tokens} (h : s.Reachable Tokens.Uses) :
    ∃ r : AuthorityRun, r.Reachable anyCall ∧ r.db = s.db ∧ ∀ job ∈ s.authorities, ∃ n, (n, job) ∈ r.held := by
  induction h with
  | refl => exact ⟨AuthorityRun.initial, .refl, rfl, fun job hj => (by cases hj)⟩
  | @tail s _ _ hs ih =>
    obtain ⟨r, hr, hdb, hheld⟩ := ih
    cases hs with
    | gaveUp => exact ⟨r, hr, hdb, hheld⟩
    | call i c a db' hp hrun =>
      -- the step that issued the token in use, if the call uses one
      obtain ⟨issued, hissued⟩ : ∃ issued, ∀ job owner, c.authorityUsed = some (job, owner) →
          (issued, job) ∈ r.held ∧ owner = job.lease_owner := by
        cases hu : c.authorityUsed with
        | none => exact ⟨0, fun _ _ hn => by cases hn⟩
        | some used =>
          obtain ⟨hmem, howner⟩ := hp.authority used.1 used.2 hu
          obtain ⟨n, hn⟩ := hheld used.1 hmem
          refine ⟨n, fun job owner he => ?_⟩
          cases he
          exact ⟨hn, howner⟩
      refine ⟨_, hr.tail (.call i c a db' issued trivial hissued (hdb ▸ hrun)), rfl, ?_⟩
      intro job hj
      rcases List.mem_append.mp hj with hnew | hold
      · exact ⟨r.steps, List.mem_append_left _ (List.mem_map.mpr ⟨job, hnew, rfl⟩)⟩
      · cases hrel : c.authorityReleased with
        | none =>
          rw [hrel] at hold
          obtain ⟨n, hn⟩ := hheld job hold
          refine ⟨n, List.mem_append_right _ ?_⟩
          rw [hrel]
          exact hn
        | some released =>
          rw [hrel] at hold
          obtain ⟨hmem, hne⟩ := List.mem_filter.mp hold
          obtain ⟨n, hn⟩ := hheld job hmem
          refine ⟨n, List.mem_append_right _ ?_⟩
          rw [hrel]
          exact List.mem_filter.mpr ⟨hn, hne⟩

/-! ## What a later claim leaves behind -/

section
variable {i : Instant} {c : Call} {a : c.Answer} {db db' : Db}

theorem Outrun.step {job : ClaimedJob} (h : Outrun db job)
    (hn : db.next_evaluation_job ≤ db'.next_evaluation_job)
    (hc : RowChange i c db job.id (db.evaluation_jobs.get? job.id) (db'.evaluation_jobs.get? job.id)) :
    Outrun db' job := by
  refine ⟨lt_of_lt_of_le h.1 hn, fun row' hr' => ?_⟩
  rw [hr'] at hc
  obtain ⟨row, hr⟩ := hc.inserted_at h.1
  rw [hr] at hc
  exact lt_of_lt_of_le (h.2 row hr) hc.succ.1

theorem AuthorityOutrun.step {job : ClaimedAuthorityJob} (h : AuthorityOutrun db job)
    (hc : AuthorityChanges i c db db') : AuthorityOutrun db' job := by
  refine ⟨lt_of_lt_of_le h.1 hc.next, fun row' hr' => ?_⟩
  have hrow := hc.rows job.id
  rw [hr'] at hrow
  obtain ⟨row, hr⟩ := hrow.inserted_at h.1
  rw [hr] at hrow
  exact lt_of_lt_of_le (h.2 row hr) hrow.succ

/-- The claim writes its owner and its generation into the epoch it issues. -/
theorem issued_of_claimed {now : Time} {locked : EpochKey → Bool} {owner : Str} {lease_seconds : Nat}
    {work_class : Option WorkClass} {key : EpochKey} {e e' : SharedHeadEpoch}
    (h₀ : db.shared_head_epochs.get? key = some e)
    (h₁ : (claimSharedHeadInvalidation now locked owner lease_seconds work_class
      db).1.shared_head_epochs.get? key = some e')
    (hl : e'.lease_owner ≠ e.lease_owner) :
    ∃ later, (claimSharedHeadInvalidation now locked owner lease_seconds work_class db).2 = some later ∧
      later.epochKey = key ∧ later.generation = e'.generation ∧ e'.lease_owner = some later.lease_owner := by
  unfold claimSharedHeadInvalidation at h₁ ⊢
  split at h₁
  · rw [h₀] at h₁
    cases h₁
    exact absurd rfl hl
  · rename_i key' e'' hsel
    by_cases hkey : key = key'
    · subst hkey
      simp only [Dict.get?_set_self] at h₁
      cases h₁
      exact ⟨_, rfl, rfl, rfl, rfl⟩
    · simp only [Dict.get?_set, if_neg hkey] at h₁
      rw [h₀] at h₁
      cases h₁
      exact absurd rfl hl

/-- Only a claim gives a lease an owner. -/
theorem Dispossessed.step {job : ClaimedSharedHeadInvalidation} (h : Dispossessed db job)
    (hr : c.run i db = .ok (db', a))
    (hne : ∀ later, c.invalidationIssued a = some later → later.epochKey = job.epochKey →
      later.generation = job.generation → later.lease_owner ≠ job.lease_owner) : Dispossessed db' job := by
  intro e' he' hgen
  cases epochChange_run hr job.epochKey with
  | kept h₁ => exact h e' (h₁ ▸ he') hgen
  | advanced waiting work_class _ h₁ =>
    rw [h₁] at he'
    cases he'
    cases db.shared_head_epochs.get? job.epochKey <;> simp [nextEpoch]
  | touched e h₀ h₁ =>
    rw [h₁] at he'
    cases he'
    exact h e h₀ hgen
  | claimed e owner lease_seconds work_class hclaim h₀ _ h₁ =>
    subst hclaim
    intro ho
    have hrun : claimSharedHeadInvalidation i.now i.epoch_locked owner lease_seconds work_class db =
        (db', a) := Except.ok.inj hr
    have hgen₀ : e.generation = job.generation := by
      rw [h₁] at he'
      cases he'
      exact hgen
    have hl : e'.lease_owner ≠ e.lease_owner := by
      rw [ho]
      exact (h e h₀ hgen₀).symm
    have he₁ : (claimSharedHeadInvalidation i.now i.epoch_locked owner lease_seconds work_class
        db).1.shared_head_epochs.get? job.epochKey = some e' := by
      rw [hrun]
      exact he'
    have hissued := issued_of_claimed h₀ he₁ hl
    rw [hrun] at hissued
    obtain ⟨later, hi, hkey, hg, hlo⟩ := hissued
    refine hne later hi hkey (hg.trans hgen) ?_
    rw [ho] at hlo
    exact (Option.some.inj hlo).symm
  | renewed e _ _ _ _ h₀ _ h₁ =>
    rw [h₁] at he'
    cases he'
    exact h e h₀ hgen
  | completed e _ _ _ _ _ h₁ =>
    rw [h₁] at he'
    cases he'
    simp [SharedHeadEpoch.completed]
  | unleased e e'' _ _ _ _ _ h₁ hu =>
    rw [h₁] at he'
    cases he'
    simp [hu.lease_owner]
  | pruned _ _ _ _ _ h₁ =>
    rw [h₁] at he'
    cases he'

/-- A reclaimed lease has a new generation, and a held token is the lease of its row. -/
theorem outrun_claim {first second : ClaimedJob} (ht : TokenOk db first) {now : Time} {locked : Nat → Bool}
    {owner : Str} {lease_seconds : Nat} {work_class : Option WorkClass} {ready : Bool}
    (hi : (claim now locked owner lease_seconds work_class ready db).2 = some second)
    (hid : second.id = first.id) :
    Outrun (claim now locked owner lease_seconds work_class ready db).1 first := by
  obtain ⟨row, hrow, hrow', -⟩ := claim_issued hi
  rw [hid] at hrow hrow'
  have hm : Moves none db (claim now locked owner lease_seconds work_class ready db).1 := moves_claim
  refine ⟨lt_of_lt_of_le ht.fresh hm.next, fun row' hr' => ?_⟩
  rw [hrow'] at hr'
  cases hr'
  have hbehind := ht.behind row hrow
  simp only [EvaluationJob.claimed]
  split
  · omega
  · rename_i hfree
    have hne : first.generation ≠ row.generation := by
      intro he
      rw [(ht.current row hrow he).owner] at hfree
      exact hfree rfl
    omega

theorem authority_outrun_claim {first second : ClaimedAuthorityJob} (ht : AuthorityTokenOk db first)
    {now : Time} {locked : Nat → Bool} {owner : Str} {lease_seconds : Nat} {prio : Bool}
    (hi : (claimAuthority now locked owner lease_seconds prio db).2 = some second)
    (hid : second.id = first.id) :
    AuthorityOutrun (claimAuthority now locked owner lease_seconds prio db).1 first := by
  unfold claimAuthority at hi ⊢
  split at hi
  · cases hi
  · rename_i id row hsel
    cases hi
    have hrow := (Dict.select_some hsel).1
    have hidrow : id = first.id := hid
    subst hidrow
    refine ⟨ht.fresh, fun row' hr' => ?_⟩
    simp only [Dict.get?_set_self] at hr'
    cases hr'
    have hbehind := ht.behind row hrow
    simp only [AuthorityJob.claimed]
    split
    · omega
    · rename_i hfree
      have hne : first.generation ≠ row.generation := by
        intro he
        rw [(ht.current row hrow he).owner] at hfree
        exact hfree rfl
      omega

theorem dispossessed_claim {first second : ClaimedSharedHeadInvalidation} {now : Time}
    {locked : EpochKey → Bool} {owner : Str} {lease_seconds : Nat} {work_class : Option WorkClass}
    (hi : (claimSharedHeadInvalidation now locked owner lease_seconds work_class db).2 = some second)
    (hkey : second.epochKey = first.epochKey) (hne : second.lease_owner ≠ first.lease_owner) :
    Dispossessed (claimSharedHeadInvalidation now locked owner lease_seconds work_class db).1 first := by
  unfold claimSharedHeadInvalidation at hi ⊢
  split at hi
  · cases hi
  · rename_i key e hsel
    cases hi
    have hk : key = first.epochKey := hkey
    subst hk
    intro e' he' _
    simp only [Dict.get?_set_self] at he'
    cases he'
    intro ho
    exact hne (Option.some.inj ho)

end

/-! ## Every run -/

/-- A step after which the invalidation is still in the hands of its holder,
and that does not claim its generation for that holder again. -/
inductive Tokens.StepKeeping (first : ClaimedSharedHeadInvalidation) (s : Tokens) : Tokens → Prop where
  | call (i : Instant) (c : Call) (a : c.Answer) (db' : Db) : s.Uses c → c.run i s.db = .ok (db', a) →
      first ∈ (s.after c a db').invalidations →
      (∀ later, c.invalidationIssued a = some later → later.epochKey = first.epochKey →
        later.generation = first.generation → later.lease_owner ≠ first.lease_owner) →
      Tokens.StepKeeping first s (s.after c a db')
  | gaveUp (invalidations : List ClaimedSharedHeadInvalidation) : invalidations ⊆ s.invalidations →
      first ∈ invalidations → Tokens.StepKeeping first s { s with invalidations := invalidations }

def Tokens.Keeps (first : ClaimedSharedHeadInvalidation) (s t : Tokens) : Prop :=
  Relation.ReflTransGen (Tokens.StepKeeping first) s t

section
variable {s t : Tokens}

theorem Tokens.Reachable.outrun_steps {job : ClaimedJob} (hs : s.Reachable Tokens.Uses) (h : Outrun s.db job)
    (ht : s.Steps Tokens.Uses t) : Outrun t.db job := by
  induction ht with
  | refl => exact h
  | tail hsu hstep ih =>
    have hq := (Tokens.Reachable.queue (hs.trans hsu)).inv
    have hcoherent := hq.coherent
    cases hstep with
    | gaveUp => exact ih
    | call i c a db' hp hr =>
      have hm := moves_run hcoherent (fun job owner hu => ⟨hq.held job (hp.job job owner hu).1,
        (hp.job job owner hu).2⟩) hr
      exact ih.step hm.next (rowChange_run hcoherent hr job.id)

theorem Tokens.Reachable.authority_outrun_steps {job : ClaimedAuthorityJob} (hs : s.Reachable Tokens.Uses)
    (h : AuthorityOutrun s.db job) (ht : s.Steps Tokens.Uses t) : AuthorityOutrun t.db job := by
  induction ht with
  | refl => exact h
  | tail hsu hstep ih =>
    obtain ⟨r, hr, hdb, -⟩ := Tokens.Reachable.authorityRun (hs.trans hsu)
    have hfresh := hdb ▸ hr.inv.fresh
    cases hstep with
    | gaveUp => exact ih
    | call i c a db' hp hrun => exact ih.step (authorityChange_run hfresh hrun)

theorem Dispossessed.keeps {job : ClaimedSharedHeadInvalidation} (h : Dispossessed s.db job)
    (ht : s.Keeps job t) : Dispossessed t.db job := by
  induction ht with
  | refl => exact h
  | tail _ hstep ih =>
    cases hstep with
    | gaveUp => exact ih
    | call i c a db' _ hr _ hne => exact ih.step hr hne

/-- From the step that issues the second claim on, whatever comes next. A head
is fenced as long as the first owner does not claim its generation again. -/
theorem later_claim_fences (hs : s.Reachable Tokens.Uses) {i : Instant} {c : Call} {a : c.Answer} {db' : Db}
    (hp : s.Uses c) (hr : c.run i s.db = .ok (db', a)) :
    (∀ owner lease_seconds work_class ready, c = .claim owner lease_seconds work_class ready →
      ∀ first ∈ s.jobs, ∀ second, c.claimIssued a = some second → second.id = first.id →
        ∀ t, (s.after c a db').Steps Tokens.Uses t → FencedOff t.db first) ∧
    (∀ first ∈ s.authorities, ∀ second, c.authorityIssued a = some second → second.id = first.id →
      ∀ t, (s.after c a db').Steps Tokens.Uses t → AuthorityFencedOff t.db first) ∧
    ∀ first ∈ s.invalidations, ∀ second, c.invalidationIssued a = some second →
      second.epochKey = first.epochKey → second.lease_owner ≠ first.lease_owner →
        ∀ t, (s.after c a db').Keeps first t → InvalidationFencedOff t.db first := by
  have hafter : (s.after c a db').Reachable Tokens.Uses := hs.tail (.call i c a db' hp hr)
  refine ⟨?_, ?_, ?_⟩
  · intro owner lease_seconds work_class ready hc first hfirst second hi hid t ht
    subst hc
    have hrun : claim i.now i.job_locked owner lease_seconds work_class ready s.db = (db', a) :=
      Except.ok.inj hr
    have hout := outrun_claim (hs.queue.inv.held first hfirst)
      ((congrArg Prod.snd hrun).trans hi) hid
    rw [hrun] at hout
    exact (hafter.outrun_steps hout ht).fencedOff
  · intro first hfirst second hi hid t ht
    obtain ⟨r, hreach, hdb, hheld⟩ := hs.authorityRun
    obtain ⟨n, hn⟩ := hheld first hfirst
    have htoken : AuthorityTokenOk s.db first := hdb ▸ hreach.inv.tokens n first hn
    cases c with
    | claimAuthority owner lease_seconds prio =>
      have hrun : claimAuthority i.now i.authority_locked owner lease_seconds prio s.db = (db', a) :=
        Except.ok.inj hr
      have hout := authority_outrun_claim htoken ((congrArg Prod.snd hrun).trans hi) hid
      rw [hrun] at hout
      exact (hafter.authority_outrun_steps hout ht).fencedOff
    | _ => cases hi
  · intro first hfirst second hi hkey howner t ht
    cases c with
    | claimSharedHeadInvalidation owner lease_seconds work_class =>
      have hrun : claimSharedHeadInvalidation i.now i.epoch_locked owner lease_seconds work_class s.db =
          (db', a) := Except.ok.inj hr
      have hout := dispossessed_claim ((congrArg Prod.snd hrun).trans hi) hkey howner
      rw [hrun] at hout
      exact (Dispossessed.keeps hout ht).fencedOff
    | _ => cases hi

end

/-! ## A run -/

def Tokens.next (i : Instant) (c : Call) (s : Tokens) : Tokens :=
  match c.run i s.db with
  | .ok (db', a) => s.after c a db'
  | .error _ => s

theorem Tokens.Reachable.next {s : Tokens} (h : s.Reachable Tokens.Uses) (i : Instant) (c : Call)
    (hp : s.Uses c) : (s.next i c).Reachable Tokens.Uses := by
  unfold Tokens.next
  split
  · rename_i hr
    exact h.tail (.call i c _ _ hp hr)
  · exact h

/-- So many seconds later. -/
def sampleAt (n : Nat) : Instant := { sampleInstant with now := seconds n }

/-- The reset of an accepted delivery is leased for half a minute. -/
def sampleLeased : Tokens :=
  (Tokens.initial.next sampleInstant
      (.acceptDelivery "d" "pull_request" (some (.job sampleRequest)))).next sampleInstant
    (.claimSharedHeadInvalidation "w" 30 none)

/-- The token of the slot that claims the reset next. -/
def sampleRelease : ClaimedSharedHeadInvalidation := { sampleInvalidation with
  attempts := 2
  lease_owner := "v" }

/-- Another slot completes it and claims the evaluation. -/
def sampleReclaimed : Tokens :=
  ((sampleLeased.next (sampleAt 60) (.claimSharedHeadInvalidation "v" 30 none)).next (sampleAt 60)
      (.completeSharedHeadInvalidation sampleRelease)).next (sampleAt 60)
    (.claim "w" 30 none true)

/-- A call that uses no token. -/
theorem Tokens.Uses.unused {s : Tokens} {c : Call} (h₁ : c.claimUsed = none)
    (h₂ : c.authorityUsed = none) (h₃ : c.invalidationUsed = none) : s.Uses c :=
  ⟨fun _ _ h => (by rw [h₁] at h; cases h), fun _ _ h => (by rw [h₂] at h; cases h),
    fun _ h => (by rw [h₃] at h; cases h)⟩

theorem sampleLeased_reachable : sampleLeased.Reachable Tokens.Uses := by
  have h₀ : Tokens.initial.Reachable Tokens.Uses := Relation.ReflTransGen.refl
  have h₁ := h₀.next sampleInstant (.acceptDelivery "d" "pull_request" (some (.job sampleRequest)))
    (.unused rfl rfl rfl)
  exact h₁.next sampleInstant (.claimSharedHeadInvalidation "w" 30 none) (.unused rfl rfl rfl)

theorem sampleLeased_invalidations : sampleLeased.invalidations = [sampleInvalidation] := by rfl

theorem sampleLeased_uses :
    sampleLeased.Uses (.claimSharedHeadInvalidation "v" 30 none) := .unused rfl rfl rfl

theorem sampleReclaimed_reachable : sampleReclaimed.Reachable Tokens.Uses := by
  have h₁ := sampleLeased_reachable.next (sampleAt 60) (.claimSharedHeadInvalidation "v" 30 none)
    sampleLeased_uses
  have h₂ := h₁.next (sampleAt 60) (.completeSharedHeadInvalidation sampleRelease)
    ⟨fun _ _ h => (by cases h), fun _ _ h => (by cases h), fun job h => (by cases h; exact List.mem_cons_self ..)⟩
  exact h₂.next (sampleAt 60) (.claim "w" 30 none true) (.unused rfl rfl rfl)

theorem sampleReclaimed_jobs : sampleReclaimed.jobs = [sampleClaim] := by rfl

/-- A repository fence under its first claim. -/
def samplePassing : Tokens :=
  (Tokens.initial.next sampleInstant (.enqueueAuthority sampleAuthorityRequest)).next sampleInstant
    (.claimAuthority "w" 60 true)

theorem samplePassing_reachable : samplePassing.Reachable Tokens.Uses := by
  have h₀ : Tokens.initial.Reachable Tokens.Uses := Relation.ReflTransGen.refl
  have h₁ := h₀.next sampleInstant (.enqueueAuthority sampleAuthorityRequest) (.unused rfl rfl rfl)
  exact h₁.next sampleInstant (.claimAuthority "w" 60 true) (.unused rfl rfl rfl)

/-- The first slot has lost its reset, later its evaluation and its fence, to the second. -/
theorem sampleReclaimed_fences :
    InvalidationFencedOff
        (sampleLeased.next (sampleAt 60) (.claimSharedHeadInvalidation "v" 30 none)).db sampleInvalidation ∧
      FencedOff (sampleReclaimed.next (sampleAt 120) (.claim "v" 30 none true)).db sampleClaim ∧
      AuthorityFencedOff (samplePassing.next (sampleAt 61) (.claimAuthority "v" 60 true)).db samplePass := by
  refine ⟨?_, ?_, ?_⟩
  · have hr : Call.run (sampleAt 60) sampleLeased.db (.claimSharedHeadInvalidation "v" 30 none) =
        .ok ((sampleLeased.next (sampleAt 60) (.claimSharedHeadInvalidation "v" 30 none)).db,
          some sampleRelease) := rfl
    exact (later_claim_fences sampleLeased_reachable sampleLeased_uses hr).2.2 sampleInvalidation
      (by rw [sampleLeased_invalidations]; exact List.mem_singleton_self _) sampleRelease rfl rfl
      (by decide) (sampleLeased.next (sampleAt 60) (.claimSharedHeadInvalidation "v" 30 none)) .refl
  · have hp : sampleReclaimed.Uses (.claim "v" 30 none true) := .unused rfl rfl rfl
    have hr : Call.run (sampleAt 120) sampleReclaimed.db (.claim "v" 30 none true) =
        .ok ((sampleReclaimed.next (sampleAt 120) (.claim "v" 30 none true)).db,
          some { sampleClaim with
            generation := 2
            attempts := 2
            lease_owner := "v" }) := rfl
    exact (later_claim_fences sampleReclaimed_reachable hp hr).1 "v" 30 none true rfl sampleClaim
      (by rw [sampleReclaimed_jobs]; exact List.mem_singleton_self _) _ rfl rfl
      (sampleReclaimed.next (sampleAt 120) (.claim "v" 30 none true)) .refl
  · have hp : samplePassing.Uses (.claimAuthority "v" 60 true) := .unused rfl rfl rfl
    have hheld : samplePassing.authorities = [_] := rfl
    have hr : Call.run (sampleAt 61) samplePassing.db (.claimAuthority "v" 60 true) =
        .ok ((samplePassing.next (sampleAt 61) (.claimAuthority "v" 60 true)).db, some _) := rfl
    exact (later_claim_fences samplePassing_reachable hp hr).2.1 samplePass
      (by rw [hheld]; exact List.mem_singleton_self _) _ rfl rfl
      (samplePassing.next (sampleAt 61) (.claimAuthority "v" 60 true)) .refl

/-! ## Where a first token acts again -/

/-- SQLite gives a new row the id after the largest one of the table. -/
def Db.reissued (db : Db) : Db := { db with
  next_evaluation_job := db.evaluation_jobs.keys.foldr max 0 + 1
  next_authority_job := db.authority_jobs.keys.foldr max 0 + 1 }

/-- A step on SQLite. -/
inductive Tokens.SqliteStep (s : Tokens) : Tokens → Prop where
  | call (i : Instant) (c : Call) (a : c.Answer) (db' : Db) : s.Uses c → c.run i s.db = .ok (db', a) →
      Tokens.SqliteStep s (s.after c a db'.reissued)

def Tokens.SqliteSteps (s t : Tokens) : Prop := Relation.ReflTransGen Tokens.SqliteStep s t

def Tokens.sqliteNext (i : Instant) (c : Call) (s : Tokens) : Tokens :=
  match c.run i s.db with
  | .ok (db', a) => s.after c a db'.reissued
  | .error _ => s

theorem Tokens.SqliteSteps.next {s t : Tokens} (h : s.SqliteSteps t) (i : Instant) (c : Call)
    (hu : t.Uses c) : s.SqliteSteps (t.sqliteNext i c) := by
  unfold Tokens.sqliteNext
  split
  · rename_i hr
    exact h.tail (.call i c _ _ hu hr)
  · exact h

/-- The first slot claims the reset again when the lease of the second has run out. -/
def sampleReturned : Tokens :=
  (sampleLeased.next (sampleAt 60) (.claimSharedHeadInvalidation "v" 30 none)).next (sampleAt 120)
    (.claimSharedHeadInvalidation "w" 30 none)

theorem sampleReturned_steps :
    (sampleLeased.next (sampleAt 60) (.claimSharedHeadInvalidation "v" 30 none)).Steps Tokens.Uses
      sampleReturned :=
  Relation.ReflTransGen.refl.tail (.call (sampleAt 120) (.claimSharedHeadInvalidation "w" 30 none) _ _
    (.unused rfl rfl rfl) rfl)

/-- On SQLite, the only evaluation is under its first claim. -/
def sampleOnly : Tokens :=
  (Tokens.initial.sqliteNext sampleInstant (.enqueue sampleRequest)).sqliteNext sampleInstant
    (.claim "w" 30 none false)

def sampleOnlyClaim : ClaimedJob := { sampleClaim with last_delivery_id := none }

theorem sampleOnly_steps : Tokens.initial.SqliteSteps sampleOnly := by
  have h₀ : Tokens.initial.SqliteSteps Tokens.initial := Relation.ReflTransGen.refl
  have h₁ := h₀.next sampleInstant (.enqueue sampleRequest) (.unused rfl rfl rfl)
  exact h₁.next sampleInstant (.claim "w" 30 none false) (.unused rfl rfl rfl)

theorem sampleOnly_jobs : sampleOnly.jobs = [sampleOnlyClaim] := by rfl

/-- The second slot claims the evaluation when the lease of the first has run out. -/
def sampleOutlived : Tokens := sampleOnly.sqliteNext (sampleAt 60) (.claim "v" 30 none false)

def sampleSecondClaim : ClaimedJob := { sampleOnlyClaim with
  generation := 2
  attempts := 2
  lease_owner := "v" }

/-- It completes it, and the next evaluation gets its id. -/
def sampleReissued : Tokens :=
  ((sampleOutlived.sqliteNext (sampleAt 60) (.complete sampleSecondClaim "v")).sqliteNext (sampleAt 60)
      (.enqueue { sampleRequest with pull_number := 8 })).sqliteNext (sampleAt 60)
    (.claim "w" 30 none false)

theorem sampleReissued_steps : sampleOutlived.SqliteSteps sampleReissued := by
  have hheld : sampleOutlived.jobs = [sampleSecondClaim, sampleOnlyClaim] := rfl
  have h₀ : sampleOutlived.SqliteSteps sampleOutlived := Relation.ReflTransGen.refl
  have h₁ := h₀.next (sampleAt 60) (.complete sampleSecondClaim "v")
    ⟨fun job owner h => (by cases h; exact ⟨by rw [hheld]; exact List.mem_cons_self .., rfl⟩),
      fun _ _ h => (by cases h), fun _ h => (by cases h)⟩
  have h₂ := h₁.next (sampleAt 60) (.enqueue { sampleRequest with pull_number := 8 })
    (.unused rfl rfl rfl)
  exact h₂.next (sampleAt 60) (.claim "w" 30 none false) (.unused rfl rfl rfl)

/-- The token of a first claim, which its slot has not released, is current
again: of a head that the slot has come back to, and of a row whose id SQLite
has given to another one. -/
theorem first_token_is_current :
    (¬ ∀ (s : Tokens), s.Reachable Tokens.Uses → ∀ (i : Instant) (c : Call) (a : c.Answer) (db' : Db),
      s.Uses c → c.run i s.db = .ok (db', a) → ∀ first ∈ s.invalidations, ∀ second,
        c.invalidationIssued a = some second → second.epochKey = first.epochKey →
        second.lease_owner ≠ first.lease_owner →
          ∀ t, (s.after c a db').Steps Tokens.Uses t → first ∈ t.invalidations →
            InvalidationFencedOff t.db first) ∧
    ¬ ∀ (s : Tokens), Tokens.initial.SqliteSteps s → ∀ (i : Instant) (c : Call) (a : c.Answer) (db' : Db),
      s.Uses c → c.run i s.db = .ok (db', a) → ∀ first ∈ s.jobs, ∀ second,
        c.claimIssued a = some second → second.id = first.id → second.lease_owner ≠ first.lease_owner →
          ∀ t, (s.after c a db'.reissued).SqliteSteps t → first ∈ t.jobs → FencedOff t.db first := by
  refine ⟨fun h => ?_, fun h => ?_⟩
  · have hr : Call.run (sampleAt 60) sampleLeased.db (.claimSharedHeadInvalidation "v" 30 none) =
        .ok ((sampleLeased.next (sampleAt 60) (.claimSharedHeadInvalidation "v" 30 none)).db,
          some sampleRelease) := rfl
    have hfenced := h sampleLeased sampleLeased_reachable (sampleAt 60) _ _ _ sampleLeased_uses hr
      sampleInvalidation (by rw [sampleLeased_invalidations]; exact List.mem_singleton_self _)
      sampleRelease rfl rfl (by decide) sampleReturned sampleReturned_steps
    have hheld : sampleInvalidation ∈ sampleReturned.invalidations := by
      have hlist : sampleReturned.invalidations =
          [{ sampleInvalidation with attempts := 3 }, sampleRelease, sampleInvalidation] := rfl
      rw [hlist]
      simp
    have hcurrent : isCurrentSharedHeadInvalidation (seconds 120) sampleInvalidation sampleReturned.db =
        true := by decide
    rw [(hfenced hheld).not_current (seconds 120)] at hcurrent
    cases hcurrent
  · have hr : Call.run (sampleAt 60) sampleOnly.db (.claim "v" 30 none false) =
        .ok ((sampleOnly.next (sampleAt 60) (.claim "v" 30 none false)).db, some sampleSecondClaim) := rfl
    have hfenced := h sampleOnly sampleOnly_steps (sampleAt 60) _ _ _ (.unused rfl rfl rfl) hr
      sampleOnlyClaim (by rw [sampleOnly_jobs]; exact List.mem_singleton_self _) sampleSecondClaim rfl rfl
      (by decide) sampleReissued sampleReissued_steps
    have hheld : sampleOnlyClaim ∈ sampleReissued.jobs := by
      have hlist : sampleReissued.jobs = [_, sampleOnlyClaim] := rfl
      rw [hlist]
      simp
    have hcurrent : isCurrentClaim (seconds 60) sampleOnlyClaim sampleReissued.db = true := by decide
    rw [(hfenced hheld).not_current (seconds 60)] at hcurrent
    cases hcurrent

end ExtraCodeowners
