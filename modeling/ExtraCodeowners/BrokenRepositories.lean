import ExtraCodeowners.Resumption

/-!
# Broken repositories

A repository whose open-pull listing fails ends the scan of its installation,
and the repository cursor stays in front of it. The next scan begins there
again, so no repository behind it is ever looked into.
-/

namespace ExtraCodeowners

/-! ## Scans in a row -/

/-- Nothing fails but the listings of the broken repositories, and policy reads,
whose failure counts as policy. -/
def uninterrupted (installation_id : Nat) (broken : Nat → Repository → Bool) :
    (e : ScanEffect) → Except ScanExn e.Answer → Prop
  | .stopped, a => a = .ok false
  | .interrupted, a => a = .ok false
  | .acquireServiceLease, a => a = .ok true
  | .query (.providerIsBackpressured _), a => a = .ok false
  | .listInstallations, a => ∃ installations : List (Nat × Bool), a = .ok installations ∧
      (installations.map Prod.fst).Nodup ∧ (installation_id, false) ∈ installations
  | .listOpenPulls id full_name, a =>
    if broken id full_name then a = .error .gitHub ∨ a = .error .payload else ∃ batch, a = .ok batch
  | .getBranchHead .., a => a = .error .gitHub ∨ ∃ sha, a = .ok sha
  | .getFileText .., a => a = .error .gitHub ∨ ∃ text, a = .ok text
  | _, a => ∃ answer, a = .ok answer

theorem uninterrupted_broken {id id' : Nat} {broken : Nat → Repository → Bool} {full_name : Repository}
    {a : Except ScanExn PullBatch} (hb : broken id' full_name = true) :
    uninterrupted id broken (.listOpenPulls id' full_name) a ↔ a = .error .gitHub ∨ a = .error .payload := by
  simp only [uninterrupted, hb, if_true]
  exact Iff.rfl

theorem uninterrupted_listed {id id' : Nat} {broken : Nat → Repository → Bool} {full_name : Repository}
    {a : Except ScanExn PullBatch} (hb : broken id' full_name = false) :
    uninterrupted id broken (.listOpenPulls id' full_name) a ↔ ∃ batch : PullBatch, a = .ok batch := by
  simp only [uninterrupted, hb, Bool.false_eq_true, if_false]
  exact Iff.rfl

def scansUndisturbed (pop : Population) (installation_id : Nat) (broken : Nat → Repository → Bool)
    (p : Str) (s : Recovery) (e : ScanEffect) (a : Except ScanExn e.Answer) (s' : Recovery) : Prop :=
  scanPerforms pop p s e a s' ∧ uninterrupted installation_id broken e a

/-- Scans one after the other. The lease of the last one may have expired. -/
inductive Scans (settings : ReconcilerSettings) (pop : Population) (installation_id : Nat)
    (broken : Nat → Repository → Bool) : Nat → Recovery → Recovery → Prop where
  | zero (s : Recovery) : Scans settings pop installation_id broken 0 s s
  | succ (n : Nat) (p : Str) (s s' s'' : Recovery) (lease : Option Str) (r : Except ScanExn Unit) :
      Scans settings pop installation_id broken n s s' → lease = none ∨ lease = s'.lease →
      (reconcileOnce settings).Eval (scansUndisturbed pop installation_id broken p)
        { s' with lease := lease } r s'' →
      Scans settings pop installation_id broken (n + 1) s s''

/-- The repositories of a round that come before its first broken one. -/
def aheadOfBroken (installation_id : Nat) (broken : Nat → Repository → Bool) (round : List Str) : List Str :=
  round.takeWhile fun full_name => !broken installation_id ⟨full_name⟩

/-! ## What an effect is about -/

/-- A step towards the coverage of some pull request of the repository. -/
def ScanEffect.handles (id : Nat) (full_name : Repository) : ScanEffect → Bool
  | .call (.enqueueReconciliationIfDue request _) =>
    request.installation_id = id && request.repository_full_name = full_name
  | .hasReconciliationCheck id' full_name' _ => id' = id && full_name' = full_name
  | _ => false

def Untouched (id : Nat) (full_name : Repository) (log : List ScanEvent) : Prop :=
  ∀ event ∈ log, event.effect.handles id full_name = false

theorem Covered.touched {log : List ScanEvent} {id : Nat} {full_name : Repository} {pull : OpenPull}
    (h : Covered log id full_name pull) : ¬Untouched id full_name log := by
  intro huntouched
  rcases h with ⟨_, _, _, _, _, hm⟩ | ⟨_, -, -, _, _, hm⟩
  · have hhandles := huntouched _ hm
    simp [ScanEffect.handles, reconciliationRequest] at hhandles
  · have hhandles := huntouched _ hm
    simp [ScanEffect.handles] at hhandles

/-- The effects of handling the pull requests of one repository. -/
def ScanEffect.within (id : Nat) (full_name : Repository) : ScanEffect → Bool
  | .call (.enqueueReconciliationIfDue request _) =>
    request.installation_id = id && request.repository_full_name = full_name
  | .hasReconciliationCheck id' full_name' _ => id' = id && full_name' = full_name
  | .advancePull id' _ _ => id' = id
  | .advanceRepository .. | .acquireServiceLease | .releaseServiceLease => false
  | _ => true

/-- The effects that are not about the installation. -/
def ScanEffect.elsewhere (id : Nat) : ScanEffect → Bool
  | .call (.enqueueReconciliationIfDue request _) => request.installation_id ≠ id
  | .hasReconciliationCheck id' _ _ | .advancePull id' _ _ | .advanceRepository id' _ => id' ≠ id
  | .acquireServiceLease | .releaseServiceLease => false
  | _ => true

theorem handles_of_elsewhere {id : Nat} {e : ScanEffect} (he : e.elsewhere id = true)
    (full_name : Repository) : e.handles id full_name = false := by
  cases e with
  | call c =>
    cases c with
    | enqueueReconciliationIfDue request =>
      have hne : request.installation_id ≠ id := of_decide_eq_true he
      simp [ScanEffect.handles, hne]
    | _ => rfl
  | hasReconciliationCheck id' _ _ =>
    have hne : id' ≠ id := of_decide_eq_true he
    simp [ScanEffect.handles, hne]
  | _ => rfl

theorem handles_of_within {id : Nat} {full_name full_name' : Repository} {e : ScanEffect}
    (he : e.within id full_name = true) (hne : full_name' ≠ full_name) :
    e.handles id full_name' = false := by
  cases e with
  | call c =>
    cases c with
    | enqueueReconciliationIfDue request =>
      have heq : request.installation_id = id ∧ request.repository_full_name = full_name := by
        simpa [ScanEffect.within] using he
      simp [ScanEffect.handles, heq.2, Ne.symm hne]
    | _ => rfl
  | hasReconciliationCheck id' full_name'' _ =>
    have heq : id' = id ∧ full_name'' = full_name := by
      simpa [ScanEffect.within] using he
    simp [ScanEffect.handles, heq.2, Ne.symm hne]
  | _ => rfl

/-- Another installation's repository is elsewhere. -/
theorem elsewhere_of_within {id id' : Nat} {full_name : Repository} {e : ScanEffect}
    (he : e.within id' full_name = true) (hne : id' ≠ id) : e.elsewhere id = true := by
  cases e with
  | call c =>
    cases c with
    | enqueueReconciliationIfDue request =>
      have heq : request.installation_id = id' ∧ request.repository_full_name = full_name := by
        simpa [ScanEffect.within] using he
      simp [ScanEffect.elsewhere, heq.1, hne]
    | _ => rfl
  | hasReconciliationCheck id'' full_name'' _ =>
    have heq : id'' = id' ∧ full_name'' = full_name := by
      simpa [ScanEffect.within] using he
    simp [ScanEffect.elsewhere, heq.1, hne]
  | advancePull id'' _ _ =>
    have heq : id'' = id' := of_decide_eq_true he
    simp [ScanEffect.elsewhere, heq, hne]
  | advanceRepository | acquireServiceLease | releaseServiceLease => cases he
  | _ => rfl

/-! ## Where a scan stands -/

section
variable {settings : ReconcilerSettings} {pop : Population} {id : Nat} {broken : Nat → Repository → Bool}
  {p : Str}

/-- A round of the installation that has completed `done`, after others. -/
structure Round (id : Nat) (before : List Str) (start : Str) (done : List Str) (s : Recovery) : Prop where
  cursor : (s.rows id).repository_cursor = done.getLast?.getD start
  completed : ∀ name ∈ before ++ done, name ∈ completions id s.log
  untouched : ∀ name, name ∉ before ++ done → Untouched id ⟨name⟩ s.log

theorem scanPerforms.unchanged {s s' : Recovery} {e : ScanEffect} {a : Except ScanExn e.Answer}
    (h : scanPerforms pop p s e a s') (he : e ≠ .acquireServiceLease) (he' : e ≠ .releaseServiceLease) :
    s'.lease = s.lease := by
  obtain ⟨-, -, committed, -, rfl⟩ := h
  cases committed with
  | false => rfl
  | true =>
    cases e with
    | acquireServiceLease => exact absurd rfl he
    | releaseServiceLease => exact absurd rfl he'
    | _ =>
      simp only [Recovery.committed, Recovery.recorded, if_true]
      split <;> rfl

theorem scanPerforms.appends {s s' : Recovery} {e : ScanEffect} {a : Except ScanExn e.Answer}
    (h : scanPerforms pop p s e a s') : ∃ event : ScanEvent, event.effect = e ∧ s'.log = event :: s.log := by
  obtain ⟨-, -, committed, -, rfl⟩ := h
  refine ⟨⟨p, committed && e.movesCursor && s.lease = some p, e, a⟩, rfl, ?_⟩
  cases committed with
  | false => rfl
  | true =>
    cases e <;> simp only [Recovery.committed, Recovery.recorded, if_true] <;> split <;> rfl

theorem completions_subset {s s' : Recovery} {event : ScanEvent} (h : s'.log = event :: s.log) (id : Nat) :
    completions id s.log ⊆ completions id s'.log := by
  rw [h]
  exact (List.sublist_cons_self _ _).filterMap _ |>.subset

theorem Untouched.append {s s' : Recovery} {event : ScanEvent} {full_name : Repository}
    (hu : Untouched id full_name s.log) (h : s'.log = event :: s.log)
    (he : event.effect.handles id full_name = false) : Untouched id full_name s'.log := by
  rw [h]
  exact List.forall_mem_cons.mpr ⟨he, hu⟩

theorem rows_of_elsewhere {s s' : Recovery} {e : ScanEffect} {a : Except ScanExn e.Answer}
    (h : scanPerforms pop p s e a s') (he : e.elsewhere id = true) : s'.rows id = s.rows id := by
  rcases h.cases with ⟨hrows, -⟩ | ⟨hmoves, -, hrows, -⟩
  · rw [hrows]
  · cases e with
    | advancePull id' _ _ | advanceRepository id' _ =>
      have hne : id ≠ id' := Ne.symm (of_decide_eq_true he)
      rw [hrows, cursorsAfter, Function.update_of_ne hne]
    | _ => cases hmoves

theorem cursor_of_within {full_name : Repository} {s s' : Recovery} {e : ScanEffect}
    {a : Except ScanExn e.Answer} (h : scanPerforms pop p s e a s') (he : e.within id full_name = true) :
    (s'.rows id).repository_cursor = (s.rows id).repository_cursor := by
  rcases h.cases with ⟨hrows, -⟩ | ⟨hmoves, -, hrows, -⟩
  · rw [hrows]
  · cases e with
    | advancePull id' _ _ =>
      have heq : id' = id := of_decide_eq_true he
      subst heq
      rw [hrows, cursorsAfter, Function.update_self]
    | advanceRepository => cases he
    | _ => cases hmoves

theorem Round.elsewhere {before : List Str} {start : Str} {done : List Str} {s s' : Recovery}
    {e : ScanEffect} {a : Except ScanExn e.Answer} (h : Round id before start done s)
    (hp : scanPerforms pop p s e a s') (he : e.elsewhere id = true) : Round id before start done s' := by
  obtain ⟨event, rfl, hlog⟩ := hp.appends
  refine ⟨?_, fun name hn => completions_subset hlog id (h.completed name hn), fun name hn => ?_⟩
  · rw [rows_of_elsewhere hp he]
    exact h.cursor
  · exact (h.untouched name hn).append hlog (handles_of_elsewhere he ⟨name⟩)

end

/-! ## Programs that nothing disturbs -/

section
variable (pop : Population) (id : Nat) (broken : Nat → Repository → Bool) (p : Str)

abbrev Undisturbed {α : Type} (K : Recovery → Prop) (prog : Scan α) (Q : α → Recovery → Prop)
    (X : ScanExn → Recovery → Prop) : Prop :=
  (System.alone (scansUndisturbed pop id broken p)).Triple (fun _ => True) (fun _ _ _ => True) ⟨⟩
    K prog Q X

/-- An assertion that these effects do not disturb. -/
def Kept (good : ScanEffect → Bool) (K : Recovery → Prop) : Prop :=
  ∀ s e a s', good e = true → K s → scanPerforms pop p s e a s' → K s'

end

/-- The effects that nothing lets fail. -/
def ScanEffect.succeeds : ScanEffect → Bool
  | .listOpenPulls .. | .getBranchHead .. | .getFileText .. => false
  | _ => true

section
variable {settings : ReconcilerSettings} {pop : Population} {id : Nat} {broken : Nat → Repository → Bool}
  {p : Str} {α : Type} {K : Recovery → Prop}

theorem uninterrupted_ok {e : ScanEffect} (he : e.succeeds = true) {x : ScanExn} :
    ¬uninterrupted id broken e (.error x) := by
  intro h
  cases e with
  | listOpenPulls | getBranchHead | getFileText => cases he
  | query q =>
    cases q with
    | providerIsBackpressured => cases h
    | _ =>
      obtain ⟨_, h⟩ := h
      cases h
  | stopped | interrupted | acquireServiceLease => cases h
  | listInstallations =>
    obtain ⟨_, h, -⟩ := h
    cases h
  | _ =>
    obtain ⟨_, h⟩ := h
    cases h

theorem Undisturbed.step {e : ScanEffect} {Q : e.Answer → Recovery → Prop} (he : e.succeeds = true)
    (h : ∀ s a s', K s → scanPerforms pop p s e (.ok a) s' → uninterrupted id broken e (.ok a) → Q a s') :
    Undisturbed pop id broken p K (perform e) Q fun _ _ => False :=
  System.Triple.perform (System.alone_stable K) (fun _ _ _ => trivial)
    (fun s a s' _ hs hperf _ => h s a s' hs hperf.1 hperf.2)
    fun _ _ _ _ _ hperf _ => uninterrupted_ok he hperf.2

theorem Undisturbed.keep {good : ScanEffect → Bool} (hK : Kept pop p good K) {e : ScanEffect}
    (he : e.succeeds = true) (hgood : good e = true) :
    Undisturbed pop id broken p K (perform e) (fun _ => K) fun _ _ => False :=
  Undisturbed.step he fun s a s' hs hperf _ => hK s e (.ok a) s' hgood hs hperf

theorem stopIfInterrupted_keeps {good : ScanEffect → Bool} (hK : Kept pop p good K)
    (hgood : good .interrupted = true) :
    Undisturbed pop id broken p K stopIfInterrupted (fun _ => K) fun _ _ => False := by
  have hask : Undisturbed pop id broken p K (perform .interrupted)
      (fun (interrupted : Bool) s => interrupted = false ∧ K s) fun _ _ => False := by
    refine Undisturbed.step rfl fun s a s' hs hperf h => ⟨?_, hK s _ _ s' hgood hs hperf⟩
    exact Except.ok.inj h
  refine hask.bind fun (interrupted : Bool) => System.Triple.ite (fun hyes => ?_) fun _ => ?_
  · refine System.Triple.throw fun s _ hs => ?_
    cases hs.1.symm.trans hyes
  · exact System.Triple.pure fun s _ hs => hs.2

/-- An effect that may fail in some ways. -/
theorem Undisturbed.read {good : ScanEffect → Bool} (hK : Kept pop p good K) {e : ScanEffect}
    (hgood : good e = true) {fails : ScanExn → Prop}
    (he : ∀ x, uninterrupted id broken e (.error x) → fails x) :
    Undisturbed pop id broken p K (perform e) (fun _ => K) fun x s => fails x ∧ K s :=
  System.Triple.perform (System.alone_stable K) (fun _ _ _ => trivial)
    (fun s a s' _ hs hperf _ => hK s e (.ok a) s' hgood hs hperf.1)
    fun s x s' _ hs hperf _ => ⟨he x hperf.2, hK s e (.error x) s' hgood hs hperf.1⟩

theorem Undisturbed.certain {prog : Scan α} {Q : α → Recovery → Prop} {X : ScanExn → Recovery → Prop}
    (h : Undisturbed pop id broken p K prog Q fun _ _ => False) : Undisturbed pop id broken p K prog Q X :=
  System.Triple.conseq h (fun _ _ h => h) (fun _ _ _ h => h) fun _ _ _ h => h.elim

theorem policyPresent_keeps {good : ScanEffect → Bool} (hK : Kept pop p good K) {id' : Nat}
    {full_name : Repository} {base_ref : Str}
    (hhead : good (.getBranchHead id' full_name base_ref) = true)
    (hfile : ∀ sha, good (.getFileText id' full_name sha) = true) :
    Undisturbed pop id broken p K (policyPresent id' full_name base_ref) (fun _ => K)
      fun _ _ => False := by
  refine System.Triple.handle (F := fun x s => x = .gitHub ∧ K s) ?_ fun x => ?_
  · refine (Undisturbed.read hK hhead ?_).bind fun sha => ?_
    · rintro x (hx | ⟨_, hx⟩)
      · exact Except.error.inj hx
      · cases hx
    · refine (Undisturbed.read hK (hfile sha) ?_).bind fun text => System.Triple.pure fun s _ hs => hs
      rintro x (hx | ⟨_, hx⟩)
      · exact Except.error.inj hx
      · cases hx
  · cases x with
    | gitHub => exact System.Triple.pure fun s _ hs => hs.2
    | _ => exact System.Triple.throw fun s _ hs => by cases hs.1

theorem provenUnenrolled_keeps {id' : Nat} {full_name : Repository}
    (hK : Kept pop p (ScanEffect.within id' full_name) K) {policies : Dict Str Bool} {pull : OpenPull} :
    Undisturbed pop id broken p K (provenUnenrolled id' full_name pull policies) (fun _ => K)
      fun _ _ => False := by
  unfold provenUnenrolled
  split
  · exact System.Triple.pure fun s _ hs => hs
  · rename_i base_ref _
    have hpolicy : Undisturbed pop id broken p K (observePolicy id' full_name base_ref policies)
        (fun _ => K) fun _ _ => False := by
      unfold observePolicy
      split
      · exact System.Triple.pure fun s _ hs => hs
      · exact (policyPresent_keeps hK rfl fun _ => rfl).bind fun _ => System.Triple.pure fun s _ hs => hs
    refine hpolicy.bind fun policies => (stopIfInterrupted_keeps hK rfl).bind fun _ => ?_
    refine System.Triple.ite (fun _ => ?_) fun _ => System.Triple.pure fun s _ hs => hs
    refine (Undisturbed.keep hK rfl ?_).bind fun (managed : Bool) => ?_
    · simp [ScanEffect.within]
    · exact (stopIfInterrupted_keeps hK rfl).bind fun _ => System.Triple.pure fun s _ hs => hs

/-- What handles a pull request. -/
theorem scanPull_keeps {id' : Nat} {full_name : Repository}
    (hK : Kept pop p (ScanEffect.within id' full_name) K) {partially : Str × Nat} {observed_at : Time}
    {policies : Dict Str Bool} {pull : OpenPull} :
    Undisturbed pop id broken p K (scanPull settings id' full_name partially observed_at policies pull)
      (fun _ => K) fun _ _ => False := by
  refine (stopIfInterrupted_keeps hK rfl).bind fun _ => System.Triple.ite (fun _ => ?_) fun _ => ?_
  · exact System.Triple.pure fun s _ hs => hs
  · have hadvance : Undisturbed pop id broken p K
        (perform (.advancePull id' (asciiLower full_name.full_name) pull.number)) (fun _ => K)
        fun _ _ => False := Undisturbed.keep hK rfl (decide_eq_true rfl)
    refine (provenUnenrolled_keeps hK).bind fun (_, unenrolled) => System.Triple.ite (fun _ => ?_) fun _ => ?_
    · exact hadvance.bind fun _ => System.Triple.pure fun s _ hs => hs
    · refine (Undisturbed.keep hK rfl ?_).bind fun _ => ?_
      · simp [ScanEffect.within, reconciliationRequest]
      · exact hadvance.bind fun _ => System.Triple.pure fun s _ hs => hs

/-! ## Other installations -/

/-- A listing of pull requests fails in these ways. -/
def ScanExn.ofListing (x : ScanExn) : Prop := x = .gitHub ∨ x = .payload

theorem fails_listing {id' : Nat} {full_name : Repository} {x : ScanExn}
    (h : uninterrupted id broken (.listOpenPulls id' full_name) (.error x)) : x.ofListing := by
  by_cases hb : broken id' full_name = true
  · exact ((uninterrupted_broken hb).mp h).imp Except.error.inj Except.error.inj
  · obtain ⟨_, h⟩ := (uninterrupted_listed (Bool.eq_false_iff.mpr hb)).mp h
    cases h

theorem scanPulls_keeps {id' : Nat} {full_name : Repository}
    (hK : Kept pop p (ScanEffect.within id' full_name) K) {partially : Str × Nat} {observed_at : Time}
    (pulls : List OpenPull) (policies : Dict Str Bool) :
    Undisturbed pop id broken p K
      (pulls.foldlM (scanPull settings id' full_name partially observed_at) policies) (fun _ => K)
      fun _ _ => False :=
  System.Triple.foldlM (K := fun _ _ => K) (fun _ _ _ => scanPull_keeps hK) pulls policies

variable (hK : Kept pop p (ScanEffect.elsewhere id) K) {id' : Nat} (hid : id' ≠ id)

include hK hid in
theorem scanRepository_elsewhere {partially : Str × Nat} {r : Repository × Bool} :
    Undisturbed pop id broken p K (scanRepository settings id' partially r) (fun _ => K)
      fun x s => x.ofListing ∧ K s := by
  have hwithin : Kept pop p (ScanEffect.within id' r.1) K :=
    fun s e a s' he hs hp => hK s e a s' (elsewhere_of_within he hid) hs hp
  refine (stopIfInterrupted_keeps hK rfl).certain.bind fun _ => System.Triple.ite (fun _ => ?_) fun _ => ?_
  · refine (Undisturbed.keep hK rfl rfl).certain.bind fun observed_at => ?_
    refine (Undisturbed.read hK rfl fun _ => fails_listing).bind fun batch => ?_
    refine (stopIfInterrupted_keeps hK rfl).certain.bind fun _ => ?_
    refine (scanPulls_keeps hwithin _ _).certain.bind fun _ => ?_
    exact (Undisturbed.keep hK rfl (by exact decide_eq_true hid)).certain
  · exact System.Triple.pure fun s _ hs => hs

include hK hid in
theorem scanRepositories_elsewhere :
    Undisturbed pop id broken p K (scanRepositories settings id') (fun _ => K)
      fun x s => x.ofListing ∧ K s := by
  refine (Undisturbed.keep hK rfl rfl).certain.bind fun batch => ?_
  refine (stopIfInterrupted_keeps hK rfl).certain.bind fun _ => ?_
  refine (Undisturbed.keep hK rfl rfl).certain.bind fun cursor => ?_
  have hpartly : ∀ repositories, Undisturbed pop id broken p K
      (partialProgress settings id' repositories) (fun _ => K) fun _ _ => False := by
    intro repositories
    refine (Undisturbed.keep hK rfl rfl).bind fun (_, _) => System.Triple.ite (fun _ => ?_) fun _ => ?_
    · refine (Undisturbed.keep hK rfl (by exact decide_eq_true hid)).bind fun _ => ?_
      exact System.Triple.pure fun s _ hs => hs
    · exact System.Triple.pure fun s _ hs => hs
  refine (hpartly _).certain.bind fun partially => ?_
  exact System.Triple.forM (K := fun _ => K) (fun r _ => scanRepository_elsewhere hK hid) _

include hK hid in
theorem scanInstallation_elsewhere {suspended : Bool} :
    Undisturbed pop id broken p K (scanInstallation settings (id', suspended)) (fun _ => K)
      fun _ _ => False := by
  refine (stopIfInterrupted_keeps hK rfl).bind fun _ => System.Triple.ite (fun _ => ?_) fun _ => ?_
  · exact Undisturbed.keep hK rfl (decide_eq_true hid)
  · refine (Undisturbed.keep hK rfl rfl).bind fun (backpressured : Bool) => ?_
    refine System.Triple.ite (fun _ => System.Triple.pure fun s _ hs => hs) fun _ => ?_
    refine System.Triple.handle (scanRepositories_elsewhere hK hid) fun x => ?_
    cases x with
    | gitHub | payload => exact System.Triple.pure fun s _ hs => hs.2
    | _ => exact fun s _ hs => by rcases hs.1 with h | h <;> cases h

end

/-! ## The installation itself -/

section
variable {settings : ReconcilerSettings} {pop : Population} {id : Nat} {broken : Nat → Repository → Bool}
  {p : Str} {before done round : List Str} {start : Str}

/-- Between two repositories of the round. -/
structure Settled (p : Str) (id : Nat) (before : List Str) (start : Str) (done : List Str) (s : Recovery) :
    Prop extends Round id before start done s where
  lease : s.lease = some p
  between : (s.rows id).pull_cursor_repository = []

/-- Inside a repository of the round. -/
structure Busy (p : Str) (id : Nat) (before : List Str) (start : Str) (done : List Str)
    (full_name : Repository) (s : Recovery) : Prop where
  cursor : (s.rows id).repository_cursor = done.getLast?.getD start
  completed : ∀ name ∈ before ++ done, name ∈ completions id s.log
  untouched : ∀ name, name ∉ before ++ done → (⟨name⟩ : Repository) ≠ full_name → Untouched id ⟨name⟩ s.log
  lease : s.lease = some p

theorem Settled.kept : Kept pop p (ScanEffect.elsewhere id) (Settled p id before start done) := by
  intro s e a s' he hs hp
  refine ⟨hs.toRound.elsewhere hp he, ?_, ?_⟩
  · rw [hp.unchanged (by rintro rfl; cases he) (by rintro rfl; cases he)]
    exact hs.lease
  · rw [rows_of_elsewhere hp he]
    exact hs.between

theorem Busy.kept {full_name : Repository} :
    Kept pop p (ScanEffect.within id full_name) (Busy p id before start done full_name) := by
  intro s e a s' he hs hp
  obtain ⟨event, heffect, hlog⟩ := hp.appends
  subst heffect
  refine ⟨?_, fun name hn => completions_subset hlog id (hs.completed name hn), ?_, ?_⟩
  · rw [cursor_of_within hp he]
    exact hs.cursor
  · exact fun name hn hne => (hs.untouched name hn hne).append hlog (handles_of_within he hne)
  · rw [hp.unchanged (by intro h; rw [h] at he; cases he) (by intro h; rw [h] at he; cases he)]
    exact hs.lease

theorem Settled.busy {s : Recovery} (h : Settled p id before start done s) (full_name : Repository) :
    Busy p id before start done full_name s :=
  ⟨h.cursor, h.completed, fun name hn _ => h.untouched name hn, h.lease⟩

theorem Busy.complete {s s' : Recovery} {name : Str} {answer : Unit}
    (h : Busy p id before start done ⟨name⟩ s)
    (hp : scanPerforms pop p s (.advanceRepository id name) (.ok answer) s') :
    Settled p id before start (done ++ [name]) s' := by
  obtain ⟨hrows, hlog⟩ := hp.completes h.lease
  have hself : name ∈ completions id s'.log := by
    rw [hlog]
    exact List.mem_filterMap.mpr ⟨_, List.mem_cons_self .., by simp [ScanEvent.completed]⟩
  refine ⟨⟨?_, ?_, ?_⟩, ?_, ?_⟩
  · rw [hrows, Function.update_self, List.getLast?_concat]
    rfl
  · intro name' hn
    rw [← List.append_assoc] at hn
    rcases List.mem_append.mp hn with hn | hn
    · exact completions_subset hlog id (h.completed name' hn)
    · rw [List.mem_singleton.mp hn]
      exact hself
  · intro name' hn
    rw [← List.append_assoc] at hn
    have hother : name' ∉ before ++ done := fun hm => hn (List.mem_append_left _ hm)
    have hne : (⟨name'⟩ : Repository) ≠ ⟨name⟩ := by
      intro heq
      cases heq
      exact hn (List.mem_append_right _ (List.mem_singleton_self _))
    exact (h.untouched name' hother hne).append hlog rfl
  · rw [hp.unchanged (fun he => by cases he) (fun he => by cases he)]
    exact h.lease
  · rw [hrows, Function.update_self]

/-- The loop over the repositories: `rest` are the ones still to come. -/
def Sweep (settings : ReconcilerSettings) (id : Nat) (broken : Nat → Repository → Bool) (p : Str)
    (before : List Str) (start : Str) (round : List Str) (rest : List (Repository × Bool))
    (s : Recovery) : Prop :=
  (∀ r ∈ rest, asciiLower r.1.full_name = r.1.full_name) ∧
    ∃ done, round = done ++ scannedNames settings rest ∧ (∀ name ∈ done, broken id ⟨name⟩ = false) ∧
      Settled p id before start done s

theorem Sweep.kept {rest : List (Repository × Bool)} :
    Kept pop p (ScanEffect.elsewhere id) (Sweep settings id broken p before start round rest) := by
  rintro s e a s' he ⟨hc, done, hround, hdone, hs⟩ hp
  exact ⟨hc, done, hround, hdone, Settled.kept s e a s' he hs hp⟩

theorem aheadOfBroken_eq {done rest : List Str} (hdone : ∀ name ∈ done, broken id ⟨name⟩ = false)
    (hrest : ∀ name ∈ rest.head?, broken id ⟨name⟩ = true) : aheadOfBroken id broken (done ++ rest) = done := by
  unfold aheadOfBroken
  rw [List.takeWhile_append_of_pos fun name hn => by simp [hdone name hn]]
  cases rest with
  | nil => exact List.append_nil _
  | cons name rest =>
    rw [List.takeWhile_cons_of_neg (by simp [hrest name rfl])]
    exact List.append_nil _

/-- The loop inside the repository `r`. -/
def Inside (settings : ReconcilerSettings) (id : Nat) (broken : Nat → Repository → Bool) (p : Str)
    (before : List Str) (start : Str) (round : List Str) (r : Repository × Bool)
    (others : List (Repository × Bool)) (s : Recovery) : Prop :=
  (∀ r' ∈ r :: others, asciiLower r'.1.full_name = r'.1.full_name) ∧
    ∃ done, round = done ++ r.1.full_name :: scannedNames settings others ∧
      (∀ name ∈ done, broken id ⟨name⟩ = false) ∧ Busy p id before start done r.1 s

section
variable {partially : Str × Nat} {r : Repository × Bool} {others : List (Repository × Bool)}

theorem Inside.kept :
    Kept pop p (ScanEffect.within id r.1) (Inside settings id broken p before start round r others) := by
  rintro s e a s' he ⟨hc, done, hround, hdone, hs⟩ hp
  exact ⟨hc, done, hround, hdone, Busy.kept s e a s' he hs hp⟩

theorem Sweep.inside {s : Recovery} (h : Sweep settings id broken p before start round (r :: others) s)
    (hscan : settings.scans r = true) : Inside settings id broken p before start round r others s := by
  obtain ⟨hc, done, hround, hdone, hs⟩ := h
  rw [scannedNames_cons hscan] at hround
  exact ⟨hc, done, hround, hdone, hs.busy r.1⟩

theorem Sweep.skip {s : Recovery} (h : Sweep settings id broken p before start round (r :: others) s)
    (hscan : ¬settings.scans r = true) : Sweep settings id broken p before start round others s := by
  obtain ⟨hc, done, hround, hdone, hs⟩ := h
  refine ⟨fun r' hr => hc r' (List.mem_cons_of_mem _ hr), done, ?_, hdone, hs⟩
  rw [hround, scannedNames, List.filter_cons_of_neg hscan]
  rfl

/-- The cursor stays in front of a broken repository. -/
theorem Sweep.blocked {s : Recovery} (h : Sweep settings id broken p before start round (r :: others) s)
    (hscan : settings.scans r = true) (hb : broken id r.1 = true) :
    Settled p id before start (aheadOfBroken id broken round) s := by
  obtain ⟨hc, done, hround, hdone, hs⟩ := h
  rw [scannedNames_cons hscan] at hround
  rw [hround, aheadOfBroken_eq hdone (by rintro name ⟨⟩; exact hb)]
  exact hs

theorem Inside.complete {s s' : Recovery} {answer : Unit}
    (h : Inside settings id broken p before start round r others s) (hb : broken id r.1 = false)
    (hp : scanPerforms pop p s (.advanceRepository id (asciiLower r.1.full_name)) (.ok answer) s') :
    Sweep settings id broken p before start round others s' := by
  obtain ⟨hc, done, hround, hdone, hs⟩ := h
  rw [hc r (List.mem_cons_self ..)] at hp
  refine ⟨fun r' hr => hc r' (List.mem_cons_of_mem _ hr), done ++ [r.1.full_name], ?_, ?_, hs.complete hp⟩
  · rw [hround, List.append_assoc]
    rfl
  · intro name hn
    rcases List.mem_append.mp hn with hn | hn
    · exact hdone name hn
    · rw [List.mem_singleton.mp hn]
      exact hb

theorem scanRepository_sweeps :
    Undisturbed pop id broken p (Sweep settings id broken p before start round (r :: others))
      (scanRepository settings id partially r)
      (fun _ => Sweep settings id broken p before start round others)
      fun x s => x.ofListing ∧ Settled p id before start (aheadOfBroken id broken round) s := by
  refine (stopIfInterrupted_keeps Sweep.kept rfl).certain.bind fun _ => ?_
  refine System.Triple.ite (fun hscan => ?_) fun hscan => ?_
  · refine (Undisturbed.keep Sweep.kept rfl rfl).certain.bind fun observed_at => ?_
    -- a broken repository ends the scan here
    have hlisting : Undisturbed pop id broken p
        (Sweep settings id broken p before start round (r :: others)) (perform (.listOpenPulls id r.1))
        (fun _ s => broken id r.1 = false ∧ Sweep settings id broken p before start round (r :: others) s)
        fun x s => x.ofListing ∧ Settled p id before start (aheadOfBroken id broken round) s := by
      refine System.Triple.perform (System.alone_stable _) (fun _ _ _ => trivial) ?_ ?_
      · intro s a s' _ hs hperf _
        refine ⟨Bool.eq_false_iff.mpr fun hb => ?_, Sweep.kept s _ _ s' rfl hs hperf.1⟩
        rcases (uninterrupted_broken hb).mp hperf.2 with h | h <;> cases h
      · intro s x s' _ hs hperf _
        refine ⟨fails_listing hperf.2, (Sweep.kept s _ _ s' rfl hs hperf.1).blocked hscan ?_⟩
        by_contra hb
        obtain ⟨_, h⟩ := (uninterrupted_listed (Bool.eq_false_iff.mpr hb)).mp hperf.2
        cases h
    refine hlisting.bind fun batch => ?_
    by_cases hb : broken id r.1 = true
    · exact fun s _ hs => absurd (hs.1.symm.trans hb) Bool.false_ne_true
    · have hb : broken id r.1 = false := Bool.eq_false_iff.mpr hb
      have hpulls : Undisturbed pop id broken p (Inside settings id broken p before start round r others)
          ((byNumber batch.pulls).foldlM (scanPull settings id r.1 partially observed_at) ∅)
          (fun _ => Inside settings id broken p before start round r others) fun _ _ => False :=
        scanPulls_keeps Inside.kept _ _
      have hstop : Undisturbed pop id broken p (Inside settings id broken p before start round r others)
          stopIfInterrupted (fun _ => Inside settings id broken p before start round r others)
          fun _ _ => False := stopIfInterrupted_keeps Inside.kept rfl
      refine (hstop.certain.conseq (fun s _ hs => hs.2.inside hscan) (fun _ _ _ h => h)
        fun _ _ _ h => h).bind fun _ => ?_
      refine hpulls.certain.bind fun _ => ?_
      exact (Undisturbed.step rfl fun s a s' hs hp _ => hs.complete hb hp).certain
  · exact System.Triple.pure fun s _ hs => hs.skip hscan

end

/-- The round of a scan, read from the listing and the cursor. -/
theorem round_of_listing {batch : RepositoryBatch} (name : Str)
    (hp : batch.repositories.Perm (pop.repositories id).repositories) :
    roundBehind name (pop.names settings id) =
      scannedNames settings (resumeAt name (byName batch.repositories)) := by
  have hc : ∀ r ∈ byName batch.repositories, asciiLower r.1.full_name = r.1.full_name :=
    fun r hr => batch.canonical r ((byName_perm _).subset hr)
  rw [scannedNames_resumeAt hc, scannedNames_perm hp]
  rfl

/-- Without progress inside a repository the order is the round's. -/
theorem Settled.sweep {batch : RepositoryBatch} {s : Recovery} (h : Settled p id before start [] s)
    (hp : batch.repositories.Perm (pop.repositories id).repositories) :
    Sweep settings id broken p before start (roundBehind start (pop.names settings id))
      (putFirst [] (resumeAt start (byName batch.repositories))) s := by
  have hmem : ∀ r ∈ resumeAt start (byName batch.repositories), r ∈ batch.repositories :=
    fun r hr => (byName_perm _).subset (mem_of_mem_filters hr)
  have hround := @round_of_listing settings pop id batch start hp
  have hnodup : (scannedNames settings (resumeAt start (byName batch.repositories))).Nodup := by
    rw [← hround]
    exact (roundBehind_perm _ _).nodup_iff.mpr ((names_sorted settings pop id).imp ne_of_lt)
  refine ⟨fun r hr => batch.canonical r (hmem r (mem_of_mem_filters hr)), [], ?_, nofun, h⟩
  rw [scannedNames_putFirst (fun r hr => batch.canonical r (hmem r hr)) hnodup
    (Or.inl fun r hr => batch.named r (hmem r hr)), List.nil_append]
  exact hround

theorem Sweep.finished {s : Recovery} (h : Sweep settings id broken p before start round [] s) :
    Settled p id before start (aheadOfBroken id broken round) s := by
  obtain ⟨-, done, hround, hdone, hs⟩ := h
  rw [hround, show scannedNames settings [] = [] from rfl, aheadOfBroken_eq hdone fun name hn => by cases hn]
  exact hs

theorem partialProgress_none {F : Recovery → Prop} (hF : Kept pop p (ScanEffect.elsewhere id) F)
    (hnone : ∀ s, F s → (s.rows id).pull_cursor_repository = []) {repositories : List (Repository × Bool)} :
    Undisturbed pop id broken p F (partialProgress settings id repositories)
      (fun partially s => partially.1 = [] ∧ F s) fun _ _ => False := by
  have hread : Undisturbed pop id broken p F (perform (.pullCursor id))
      (fun partially s => partially.1 = [] ∧ F s) fun _ _ => False := by
    refine Undisturbed.step rfl fun s partially s' hs hp _ => ⟨?_, hF s _ _ s' rfl hs hp⟩
    rw [show partially = _ from hp.2.1 partially rfl]
    exact hnone s hs
  refine hread.bind fun (name, number) => System.Triple.ite (fun hne => ?_) fun _ => ?_
  · exact fun s _ hs => absurd hs.1 hne.1
  · exact System.Triple.pure fun s _ hs => hs

theorem scanRepositories_sweeps :
    Undisturbed pop id broken p (Settled p id before start [])
      (scanRepositories settings id)
      (fun _ => Settled p id before start (aheadOfBroken id broken (roundBehind start (pop.names settings id))))
      fun x s => x.ofListing ∧
        Settled p id before start (aheadOfBroken id broken (roundBehind start (pop.names settings id))) s := by
  have hlisting : Undisturbed pop id broken p (Settled p id before start [])
      (perform (.listInstallationRepositories id))
      (fun batch s => batch.repositories.Perm (pop.repositories id).repositories ∧
        Settled p id before start [] s) fun _ _ => False :=
    Undisturbed.step rfl fun s a s' hs hp _ => ⟨hp.2.1 a rfl, Settled.kept s _ _ s' rfl hs hp⟩
  refine hlisting.certain.bind fun batch => ?_
  have hkept : Kept pop p (ScanEffect.elsewhere id)
      fun s => batch.repositories.Perm (pop.repositories id).repositories ∧
        Settled p id before start [] s :=
    fun s e a s' he hs hp => ⟨hs.1, Settled.kept s e a s' he hs.2 hp⟩
  refine (stopIfInterrupted_keeps hkept rfl).certain.bind fun _ => ?_
  have hcursor : Undisturbed pop id broken p
      (fun s => batch.repositories.Perm (pop.repositories id).repositories ∧
        Settled p id before start [] s) (perform (.repositoryCursor id))
      (fun cursor s => cursor = start ∧ batch.repositories.Perm (pop.repositories id).repositories ∧
        Settled p id before start [] s) fun _ _ => False := by
    refine Undisturbed.step rfl fun s cursor s' hs hp _ => ⟨?_, hkept s _ _ s' rfl hs hp⟩
    have hread : cursor = (s.rows id).repository_cursor := hp.2.1 cursor rfl
    rw [hread, hs.2.cursor]
    rfl
  refine hcursor.certain.bind fun cursor => ?_
  have hkept' : Kept pop p (ScanEffect.elsewhere id)
      fun s => cursor = start ∧ batch.repositories.Perm (pop.repositories id).repositories ∧
        Settled p id before start [] s :=
    fun s e a s' he hs hp => ⟨hs.1, hkept s e a s' he hs.2 hp⟩
  refine (partialProgress_none hkept' fun s hs => hs.2.2.between).certain.bind fun partially => ?_
  have hloop := System.Triple.forM (S := System.alone (scansUndisturbed pop id broken p))
    (I := fun _ => True) (G := fun _ _ _ => True) (p := ⟨⟩)
    (K := Sweep settings id broken p before start (roundBehind start (pop.names settings id)))
    (F := fun x s => x.ofListing ∧ Settled p id before start
      (aheadOfBroken id broken (roundBehind start (pop.names settings id))) s)
    (f := scanRepository settings id partially) (fun _ _ => scanRepository_sweeps)
    (putFirst partially.1 (resumeAt cursor (byName batch.repositories)))
  refine hloop.conseq ?_ (fun _ s _ hs => hs.finished) fun _ _ _ h => h
  rintro s - ⟨hpartially, rfl, hp, hs⟩
  rw [hpartially]
  exact hs.sweep hp

theorem scanInstallation_sweeps :
    Undisturbed pop id broken p (Settled p id before start [])
      (scanInstallation settings (id, false))
      (fun _ => Settled p id before start (aheadOfBroken id broken (roundBehind start (pop.names settings id))))
      fun _ _ => False := by
  refine (stopIfInterrupted_keeps Settled.kept rfl).bind fun _ => ?_
  refine System.Triple.ite (fun h => absurd h Bool.false_ne_true) fun _ => ?_
  have hbackpressure : Undisturbed pop id broken p (Settled p id before start [])
      (perform (.query (.providerIsBackpressured (some id))))
      (fun (backpressured : Bool) s => backpressured = false ∧ Settled p id before start [] s)
      fun _ _ => False :=
    Undisturbed.step rfl fun s a s' hs hp h => ⟨Except.ok.inj h, Settled.kept s _ _ s' rfl hs hp⟩
  refine hbackpressure.bind fun (backpressured : Bool) => System.Triple.ite (fun hyes => ?_) fun _ => ?_
  · exact fun s _ hs => absurd (hs.1.symm.trans hyes) Bool.false_ne_true
  · refine System.Triple.handle
      ((@scanRepositories_sweeps settings pop id broken p before start).conseq (fun s _ hs => hs.2)
        (fun _ _ _ h => h) fun _ _ _ h => h) fun x => ?_
    cases x with
    | gitHub | payload => exact System.Triple.pure fun s _ hs => hs.2
    | _ => exact fun s _ hs => by rcases hs.1 with h | h <;> cases h

/-! ## The whole scan -/

/-- The loop over the installations: `rest` are the ones still to come. -/
def Touring (settings : ReconcilerSettings) (pop : Population) (id : Nat)
    (broken : Nat → Repository → Bool) (p : Str) (before : List Str) (start : Str)
    (rest : List (Nat × Bool)) (s : Recovery) : Prop :=
  ((rest.map Prod.fst).Nodup ∧ (id, false) ∈ rest ∧ Settled p id before start [] s) ∨
    (id ∉ rest.map Prod.fst ∧
      Settled p id before start (aheadOfBroken id broken (roundBehind start (pop.names settings id))) s)

theorem Touring.kept {rest : List (Nat × Bool)} :
    Kept pop p (ScanEffect.elsewhere id) (Touring settings pop id broken p before start rest) := by
  rintro s e a s' he (⟨hnodup, hm, hs⟩ | ⟨hm, hs⟩) hp
  · exact Or.inl ⟨hnodup, hm, Settled.kept s e a s' he hs hp⟩
  · exact Or.inr ⟨hm, Settled.kept s e a s' he hs hp⟩

theorem scanInstallation_tours {installation : Nat × Bool} {rest : List (Nat × Bool)} :
    Undisturbed pop id broken p (Touring settings pop id broken p before start (installation :: rest))
      (scanInstallation settings installation)
      (fun _ => Touring settings pop id broken p before start rest) fun _ _ => False := by
  obtain ⟨id', suspended⟩ := installation
  by_cases hid : id' = id
  · subst hid
    have hhere : ∀ s, Touring settings pop id' broken p before start ((id', suspended) :: rest) s →
        suspended = false ∧ id' ∉ rest.map Prod.fst ∧ Settled p id' before start [] s := by
      rintro s (⟨hnodup, hm, hs⟩ | ⟨hm, -⟩)
      · have hnot : id' ∉ rest.map Prod.fst := (List.nodup_cons.mp hnodup).1
        refine ⟨?_, hnot, hs⟩
        rcases List.mem_cons.mp hm with h | h
        · exact (Prod.mk.inj h).2.symm
        · exact absurd (List.mem_map_of_mem (f := Prod.fst) h) hnot
      · exact absurd (List.mem_cons_self ..) hm
    by_cases hsuspended : suspended = true
    · exact fun s _ hs => absurd ((hhere s hs).1.symm.trans hsuspended) Bool.false_ne_true
    · rw [Bool.eq_false_iff.mpr hsuspended] at hhere ⊢
      by_cases hnot : id' ∈ rest.map Prod.fst
      · exact fun s _ hs => absurd hnot (hhere s hs).2.1
      · exact scanInstallation_sweeps.conseq (fun s _ hs => (hhere s hs).2.2)
          (fun _ s _ hs => Or.inr ⟨hnot, hs⟩) fun _ _ _ h => h
  · refine (scanInstallation_elsewhere Touring.kept hid).conseq (fun s _ hs => hs) ?_ fun _ _ _ h => h
    rintro - s - (⟨hnodup, hm, hs⟩ | ⟨hm, hs⟩)
    · refine Or.inl ⟨(List.nodup_cons.mp hnodup).2, (List.mem_cons.mp hm).resolve_left ?_, hs⟩
      exact fun h => hid (Prod.mk.inj h).1.symm
    · exact Or.inr ⟨fun h => hm (List.mem_cons_of_mem _ h), hs⟩

theorem reconcileOwnedScan_sweeps :
    Undisturbed pop id broken p (Settled p id before start []) (reconcileOwnedScan settings)
      (fun _ => Settled p id before start (aheadOfBroken id broken (roundBehind start (pop.names settings id))))
      fun _ _ => False := by
  refine (stopIfInterrupted_keeps Settled.kept rfl).bind fun _ => ?_
  refine (Undisturbed.keep Settled.kept rfl rfl).bind fun now => ?_
  refine (Undisturbed.keep Settled.kept rfl rfl).bind fun _ => ?_
  refine (stopIfInterrupted_keeps Settled.kept rfl).bind fun _ => ?_
  refine (Undisturbed.keep Settled.kept rfl rfl).bind fun _ => ?_
  refine (stopIfInterrupted_keeps Settled.kept rfl).bind fun _ => ?_
  refine (Undisturbed.keep Settled.kept rfl rfl).bind fun _ => ?_
  refine (stopIfInterrupted_keeps Settled.kept rfl).bind fun _ => ?_
  have hbackpressure : Undisturbed pop id broken p (Settled p id before start [])
      (perform (.query (.providerIsBackpressured none)))
      (fun (backpressured : Bool) s => backpressured = false ∧ Settled p id before start [] s)
      fun _ _ => False :=
    Undisturbed.step rfl fun s a s' hs hp h => ⟨Except.ok.inj h, Settled.kept s _ _ s' rfl hs hp⟩
  refine hbackpressure.bind fun (backpressured : Bool) => System.Triple.ite (fun hyes => ?_) fun _ => ?_
  · exact fun s _ hs => absurd (hs.1.symm.trans hyes) Bool.false_ne_true
  · have hlisting : Undisturbed pop id broken p (fun s => backpressured = false ∧ Settled p id before start [] s)
        listInstallations (Touring settings pop id broken p before start) fun _ _ => False := by
      refine System.Triple.handle (F := fun _ _ => False) ?_ fun x s _ hs => hs.elim
      refine Undisturbed.step rfl fun s a s' hs hp h => ?_
      obtain ⟨installations, ha, hnodup, hm⟩ := h
      cases ha
      exact Or.inl ⟨hnodup, hm, Settled.kept s _ _ s' rfl hs.2 hp⟩
    refine hlisting.bind fun installations => ?_
    refine (stopIfInterrupted_keeps Touring.kept rfl).bind fun _ => ?_
    have hloop := System.Triple.forM (S := System.alone (scansUndisturbed pop id broken p))
      (I := fun _ => True) (G := fun _ _ _ => True) (p := ⟨⟩)
      (K := Touring settings pop id broken p before start) (F := fun _ _ => False)
      (f := scanInstallation settings) (fun _ _ => scanInstallation_tours) installations
    refine hloop.conseq (fun _ _ h => h) ?_ fun _ _ _ h => h
    rintro - s - (⟨-, hm, -⟩ | ⟨-, hs⟩)
    · cases hm
    · exact hs

/-- Between two scans. -/
structure Ready (id : Nat) (before : List Str) (start : Str) (s : Recovery) : Prop
    extends Round id before start [] s where
  between : (s.rows id).pull_cursor_repository = []

theorem scanPerforms.acquired {s s' : Recovery}
    (h : scanPerforms pop p s .acquireServiceLease (.ok true) s') : s'.lease = some p := by
  obtain ⟨-, hanswer, committed, hcommitted, rfl⟩ := h
  have hcommitted : committed = true := hcommitted
  subst hcommitted
  exact congrArg Recovery.lease (if_pos (hanswer true rfl rfl))

theorem Ready.acquired {s s' : Recovery} (h : Ready id before start s)
    (hp : scanPerforms pop p s .acquireServiceLease (.ok true) s') : Settled p id before start [] s' := by
  obtain ⟨event, heffect, hlog⟩ := hp.appends
  have hrows : s'.rows = s.rows := by
    rcases hp.cases with ⟨hrows, -⟩ | ⟨hmoves, -⟩
    · exact hrows
    · cases hmoves
  refine ⟨⟨?_, fun name hn => completions_subset hlog id (h.completed name hn), fun name hn => ?_⟩,
    hp.acquired, ?_⟩
  · rw [hrows]
    exact h.cursor
  · exact (h.untouched name hn).append hlog (by rw [heffect]; rfl)
  · rw [hrows]
    exact h.between

theorem reconcileOnce_sweeps :
    Undisturbed pop id broken p (Ready id before start) (reconcileOnce settings)
      (fun _ => Settled p id before start (aheadOfBroken id broken (roundBehind start (pop.names settings id))))
      fun _ _ => False := by
  have hstopped : ∀ {K : Recovery → Prop}, Kept pop p (ScanEffect.elsewhere id) K →
      Undisturbed pop id broken p K (perform .stopped) (fun (stopped : Bool) s => stopped = false ∧ K s)
        fun _ _ => False :=
    fun hK => Undisturbed.step rfl fun s a s' hs hp h => ⟨Except.ok.inj h, hK s _ _ s' rfl hs hp⟩
  have hready : Kept pop p (ScanEffect.elsewhere id) (Ready id before start) := by
    intro s e a s' he hs hp
    refine ⟨hs.toRound.elsewhere hp he, ?_⟩
    rw [rows_of_elsewhere hp he]
    exact hs.between
  refine (hstopped hready).bind fun (stopped : Bool) => System.Triple.ite (fun hyes => ?_) fun _ => ?_
  · exact fun s _ hs => absurd (hs.1.symm.trans hyes) Bool.false_ne_true
  · have hacquire : Undisturbed pop id broken p (fun s => stopped = false ∧ Ready id before start s)
        (perform .acquireServiceLease)
        (fun (acquired : Bool) s => acquired = true ∧ Settled p id before start [] s) fun _ _ => False := by
      refine Undisturbed.step rfl fun s a s' hs hp h => ?_
      have ha : a = true := Except.ok.inj h
      subst ha
      exact ⟨rfl, hs.2.acquired hp⟩
    refine hacquire.bind fun (acquired : Bool) => System.Triple.ite (fun _ => ?_) fun hno => ?_
    · refine ((hstopped Settled.kept).conseq (fun s _ hs => hs.2) (fun _ _ _ h => h)
        fun _ _ _ h => h).bind fun (stopped : Bool) => System.Triple.ite (fun hyes => ?_) fun _ => ?_
      · exact fun s _ hs => absurd (hs.1.symm.trans hyes) Bool.false_ne_true
      · exact System.Triple.handle (reconcileOwnedScan_sweeps.conseq (fun s _ hs => hs.2)
          (fun _ _ _ h => h) fun _ _ _ h => h) fun x s _ hs => hs.elim
    · exact fun s _ hs => absurd hs.1 hno

end

/-! ## Scans in a row, again -/

section
variable {settings : ReconcilerSettings} {pop : Population} {id : Nat} {broken : Nat → Repository → Bool}
  {cursors : Nat → Str}

theorem Scans.run {n : Nat} {s s' : Recovery} (h : Scans settings pop id broken n s s') :
    (recovery settings pop).Run (System.idle s) (System.idle s') := by
  induction h with
  | zero => exact .refl
  | succ n p s s' s'' lease r _ hlease heval ih =>
    refine ih.trans (Relation.ReflTransGen.trans ?_ (scan_runs (heval.mono fun _ _ _ _ h => h.1)))
    rcases hlease with rfl | rfl
    · exact .single (.env _ _ _ rfl)
    · exact .refl

theorem ahead_append (round : List Str) : ∃ rest, round = aheadOfBroken id broken round ++ rest ∧
    ∀ name ∈ rest.head?, broken id ⟨name⟩ = true := by
  refine ⟨round.dropWhile fun full_name => !broken id ⟨full_name⟩, ?_, ?_⟩
  · exact List.takeWhile_append_dropWhile.symm
  · intro name hn
    have hnot := List.head?_dropWhile_not (fun full_name => !broken id ⟨full_name⟩) round
    rw [Option.mem_def.mp hn] at hnot
    simpa using hnot

theorem not_broken_of_ahead {round : List Str} {name : Str} (h : name ∈ aheadOfBroken id broken round) :
    broken id ⟨name⟩ = false := by
  simpa using List.mem_takeWhile_imp h

/-- A later scan completes what the first one has, or nothing. -/
theorem ahead_again {start : Str} {names : List Str} (hs : names.Pairwise (· < ·)) :
    let ahead := aheadOfBroken id broken (roundBehind start names)
    let again := aheadOfBroken id broken (roundBehind (ahead.getLast?.getD start) names)
    again = ahead ∨ again = [] := by
  intro ahead again
  obtain ⟨rest, hround, hrest⟩ := @ahead_append id broken (roundBehind start names)
  have hnext : roundBehind (ahead.getLast?.getD start) names = rest ++ ahead := roundBehind_append hs hround
  have hagain : again = aheadOfBroken id broken (rest ++ ahead) := by rw [← hnext]
  rw [hagain]
  cases rest with
  | nil =>
    left
    have hself := @aheadOfBroken_eq id broken ahead [] (fun _ => not_broken_of_ahead)
      (fun _ h => by cases h)
    rwa [List.append_nil] at hself
  | cons name rest =>
    right
    have hnil := @aheadOfBroken_eq id broken [] (name :: rest ++ ahead) nofun
      (fun name' h => hrest name' h)
    exact hnil

theorem scan_settles {before : List Str} {start p : Str} {s s' : Recovery} {lease : Option Str}
    {r : Except ScanExn Unit} (hs : Ready id before start s)
    (heval : (reconcileOnce settings).Eval (scansUndisturbed pop id broken p) { s with lease := lease } r s') :
    Settled p id before start (aheadOfBroken id broken (roundBehind start (pop.names settings id))) s' := by
  have hs : Ready id before start { s with lease := lease } :=
    ⟨⟨hs.cursor, hs.completed, hs.untouched⟩, hs.between⟩
  have hpost := (System.eval_sound (fun _ _ _ _ _ _ _ => trivial) heval trivial
    (reconcileOnce_sweeps _ trivial hs)).2
  cases r with
  | ok => exact hpost
  | error => exact hpost.elim

/-- After any number of scans the round stands where the first one has left it. -/
theorem Scans.ready {n : Nat} {s : Recovery}
    (h : Scans settings pop id broken (n + 1) (.initial cursors) s) :
    Ready id (aheadOfBroken id broken (roundBehind (cursors id) (pop.names settings id)))
      ((aheadOfBroken id broken (roundBehind (cursors id) (pop.names settings id))).getLast?.getD (cursors id))
      s := by
  have hinitial : Ready id [] (cursors id) (.initial cursors) :=
    ⟨⟨rfl, fun _ hn => absurd hn List.not_mem_nil, fun _ _ _ he => absurd he List.not_mem_nil⟩, rfl⟩
  induction n generalizing s with
  | zero =>
    cases h with
    | succ n p _ s' s'' lease r hprev hlease heval =>
      cases hprev
      have hs := scan_settles hinitial heval
      exact ⟨⟨hs.cursor, by simpa using hs.completed, by simpa using hs.untouched⟩, hs.between⟩
  | succ n ih =>
    cases h with
    | succ n p _ s' s'' lease r hprev hlease heval =>
      have hs := scan_settles (ih hprev) heval
      rcases @ahead_again id broken (cursors id) _ (names_sorted settings pop id) with hagain | hagain
      · rw [hagain] at hs
        refine ⟨⟨?_, by simpa using hs.completed, by simpa using hs.untouched⟩, hs.between⟩
        rw [hs.cursor]
        cases (aheadOfBroken id broken (roundBehind (cursors id) (pop.names settings id))).getLast? <;> rfl
      · rw [hagain] at hs
        exact ⟨⟨hs.cursor, hs.completed, hs.untouched⟩, hs.between⟩

theorem covered_of_completed {s : Recovery} (h : s.Inv settings pop cursors) {name : Str}
    (hn : name ∈ completions id s.log) {pull : OpenPull} (hp : pull ∈ (pop.pulls id ⟨name⟩).pulls) :
    Covered s.log id ⟨name⟩ pull := by
  obtain ⟨event, hevent, hc⟩ := List.mem_filterMap.mp hn
  obtain ⟨later, earlier, hlog⟩ := List.append_of_mem hevent
  refine (h.completed id later event earlier name hlog hc ⟨name⟩ rfl pull hp).mono ?_
  rw [hlog]
  exact fun e he => List.mem_append_right _ (List.mem_cons_of_mem _ ((List.takeWhile_sublist _).subset he))

/-- However many scans follow one another, the repositories outside the broken
ones are covered if and only if those with an open pull request come before
every broken one in the round of the first scan. -/
theorem broken_repositories_hide (settings : ReconcilerSettings) (pop : Population) (id : Nat)
    (broken : Nat → Repository → Bool) (cursors : Nat → Str) (n : Nat) (s : Recovery)
    (hn : (pop.repositories id).repositories.length ≤ n)
    (hscans : Scans settings pop id broken n (.initial cursors) s) :
    (∀ r ∈ (pop.repositories id).repositories, settings.scans r = true → broken id r.1 = false →
      ∀ pull ∈ (pop.pulls id r.1).pulls, Covered s.log id r.1 pull) ↔
    ∀ r ∈ (pop.repositories id).repositories, settings.scans r = true → broken id r.1 = false →
      (pop.pulls id r.1).pulls ≠ [] →
        r.1.full_name ∈ aheadOfBroken id broken (roundBehind (cursors id) (pop.names settings id)) := by
  cases n with
  | zero =>
    have hnone : (pop.repositories id).repositories = [] := List.eq_nil_of_length_eq_zero (Nat.le_zero.mp hn)
    rw [hnone]
    exact ⟨fun _ => nofun, fun _ => nofun⟩
  | succ n =>
    have hready := hscans.ready
    constructor
    · intro hcovered r hr hscan hb hpulls
      by_contra hbehind
      obtain ⟨pull, hp⟩ := List.exists_mem_of_ne_nil _ hpulls
      refine (hcovered r hr hscan hb pull hp).touched (hready.untouched r.1.full_name ?_)
      rwa [List.append_nil]
    · intro hahead r hr hscan hb pull hp
      have hinv : s.Inv settings pop cursors :=
        System.Run.inv (recovery_sound settings pop cursors) (Recovery.Inv.initial settings pop cursors)
          hscans.run
      refine covered_of_completed hinv (hready.completed r.1.full_name ?_) hp
      rw [List.append_nil]
      exact hahead r hr hscan hb (List.ne_nil_of_mem hp)

end

/-! ## A broken repository -/

theorem reply_uninterrupted {pop : Population} {broken : Nat → Repository → Bool} {p : Str} {s : Recovery}
    {e : ScanEffect} {a : Except ScanExn e.Answer} (h : s.reply pop broken p e = some a) :
    uninterrupted 1 broken e a := by
  cases e with
  | listOpenPulls id full_name =>
    have h := Option.some.inj h
    by_cases hb : broken id full_name = true
    · rw [if_pos hb] at h
      exact (uninterrupted_broken hb).mpr (Or.inl h.symm)
    · rw [if_neg hb] at h
      exact (uninterrupted_listed (Bool.eq_false_iff.mpr hb)).mpr ⟨_, h.symm⟩
  | acquireServiceLease =>
    by_cases hfree : s.lease = none ∨ s.lease = some p
    · exact (Option.some.inj ((if_pos hfree).symm.trans h)).symm
    · cases (if_neg hfree).symm.trans h
  | stopped | interrupted =>
    cases h
    rfl
  | listInstallations =>
    cases h
    exact ⟨_, rfl, by decide, by decide⟩
  | getBranchHead | getFileText =>
    cases h
    exact Or.inr ⟨_, rfl⟩
  | query q =>
    cases q with
    | providerIsBackpressured =>
      cases h
      rfl
    | _ => cases h
  | call c =>
    cases c with
    | pruneDeliveries | pruneSharedHeadEpochs | pruneReconciliationStates | enqueueReconciliationIfDue =>
      cases h
      exact ⟨_, rfl⟩
    | _ => cases h
  | releaseServiceLease => cases h
  | _ =>
    cases h
    exact ⟨_, rfl⟩

theorem scan_undisturbed {pop : Population} {broken : Nat → Repository → Bool} {p : Str} (s : Recovery)
    (e : ScanEffect) (a : Except ScanExn e.Answer) (s' : Recovery)
    (h : s.scan pop broken p e = some (a, s')) : scansUndisturbed pop 1 broken p s e a s' := by
  refine ⟨scan_performs s e a s' h, ?_⟩
  obtain ⟨answer, hreply, heq⟩ := Option.map_eq_some_iff.mp h
  obtain ⟨rfl, -⟩ := Prod.mk.inj heq
  exact reply_uninterrupted hreply

def sampleBroken : Nat → Repository → Bool := fun _ full_name => full_name = ⟨"o/a"⟩

theorem sampleBroken_scans :
    Scans sampleReconciler samplePopulation 1 sampleBroken 2 (.initial fun _ => [])
      (sampleScans sampleBroken 2) := by
  have hscan : ∀ n, ((reconcileOnce sampleReconciler).exec
      (Recovery.scan samplePopulation sampleBroken "w") (sampleScans sampleBroken n)).isSome →
      Scans sampleReconciler samplePopulation 1 sampleBroken n (.initial fun _ => [])
        (sampleScans sampleBroken n) →
      Scans sampleReconciler samplePopulation 1 sampleBroken (n + 1) (.initial fun _ => [])
        (sampleScans sampleBroken (n + 1)) := by
    intro n hsome hprev
    obtain ⟨⟨r, s'⟩, hexec⟩ := Option.isSome_iff_exists.mp hsome
    have hnext : sampleScans sampleBroken (n + 1) = s' := by
      rw [sampleScans, sampleNextScan, hexec]
    rw [hnext]
    exact .succ n "w" _ _ s' (sampleScans sampleBroken n).lease r hprev (Or.inr rfl)
      (Prog.exec_eval scan_undisturbed hexec)
  exact hscan 1 (by decide) (hscan 0 (by decide) (.zero _))

theorem sampleBroken_untouched : Untouched 1 ⟨"o/b"⟩ (sampleScans sampleBroken 2).log := by
  have hall : (sampleScans sampleBroken 2).log.all
      (fun event => !event.effect.handles 1 ⟨"o/b"⟩) = true := by decide
  exact fun event he => by simpa using List.all_eq_true.mp hall event he

/-- The open pull request behind the broken repository is never handed over. -/
theorem broken_repository_starves :
    ¬∀ n s, (samplePopulation.repositories 1).repositories.length ≤ n →
      Scans sampleReconciler samplePopulation 1 sampleBroken n (.initial fun _ => []) s →
      ∀ r ∈ (samplePopulation.repositories 1).repositories, sampleReconciler.scans r = true →
        sampleBroken 1 r.1 = false → ∀ pull ∈ (samplePopulation.pulls 1 r.1).pulls,
          Covered s.log 1 r.1 pull := by
  intro h
  have hcovered := h 2 _ (by decide) sampleBroken_scans (⟨"o/b"⟩, false) (by decide) (by decide) (by decide)
    ⟨1, ⟨List.replicate 40 'a', isHeadSha_replicate⟩, none⟩ (List.mem_singleton_self _)
  exact hcovered.touched sampleBroken_untouched

theorem sampleBroken_hides :
    (⟨"o/b"⟩, false) ∈ (samplePopulation.repositories 1).repositories ∧
      ¬∀ r ∈ (samplePopulation.repositories 1).repositories, sampleReconciler.scans r = true →
        sampleBroken 1 r.1 = false → ∀ pull ∈ (samplePopulation.pulls 1 r.1).pulls,
          Covered (sampleScans sampleBroken 2).log 1 r.1 pull := by
  refine ⟨by decide, fun h => ?_⟩
  have hahead := (broken_repositories_hide sampleReconciler samplePopulation 1 sampleBroken (fun _ => []) 2 _
    (by decide) sampleBroken_scans).mp h (⟨"o/b"⟩, false) (by decide) (by decide) (by decide)
    (List.cons_ne_nil _ _)
  exact absurd hahead (by decide)

end ExtraCodeowners
