import ExtraCodeowners.Reconciler
import ExtraCodeowners.Lib.Rotation

/-!
# Reconciliation resumes

Over a fixed population, whatever ends a scan and whoever scans next, the
repositories of an installation are completed round robin, and each with all
its pull requests handed over or proven unenrolled since its last completion.
-/

namespace ExtraCodeowners

/-! ## Recovery -/

/-- The cursors of `installation_api_budgets`. -/
structure BudgetRow where
  repository_cursor : Str
  pull_cursor_repository : Str
  pull_cursor_number : Nat

/-- What GitHub lists. -/
structure Population where
  repositories : Nat → RepositoryBatch
  pulls : Nat → Repository → PullBatch

/-- An effect of a scan; an effective one has moved a cursor. -/
structure ScanEvent where
  owner : Str
  effective : Bool
  effect : ScanEffect
  answer : Except ScanExn effect.Answer

/-- `lease` is the owner of the lease of `open-pr-reconciler` while it has not
expired. `log` records the run, newest first. -/
structure Recovery where
  rows : Nat → BudgetRow
  lease : Option Str
  log : List ScanEvent

/-- No scan has begun. A row of `_locked_row` has the empty cursor; repositories
that have come and gone may have left another. -/
def Recovery.initial (cursors : Nat → Str) : Recovery := ⟨fun id => ⟨cursors id, [], 0⟩, none, []⟩

/-- `RecoveryApiBudget.advance_pull` and `advance_repository`, under the lease. -/
def cursorsAfter (rows : Nat → BudgetRow) : ScanEffect → Nat → BudgetRow
  | .advancePull installation_id full_name number =>
    Function.update rows installation_id { rows installation_id with
      pull_cursor_repository := full_name
      pull_cursor_number := number }
  | .advanceRepository installation_id full_name =>
    Function.update rows installation_id ⟨full_name, [], 0⟩
  | _ => rows

def ScanEffect.movesCursor : ScanEffect → Bool
  | .advancePull .. | .advanceRepository .. => true
  | _ => false

/-- What a committed transaction of a worker leaves. Without the lease it
changes neither cursor. -/
def Recovery.committed (s : Recovery) (p : Str) : ScanEffect → Recovery
  | .acquireServiceLease =>
    if s.lease = none ∨ s.lease = some p then { s with lease := some p } else s
  | .releaseServiceLease => if s.lease = some p then { s with lease := none } else s
  | e => if s.lease = some p then { s with rows := cursorsAfter s.rows e } else s

def Recovery.recorded (s : Recovery) (event : ScanEvent) : Recovery := { s with log := event :: s.log }

/-- The answers a scan may get. What GitHub lists is the population. -/
def Recovery.answers (pop : Population) (p : Str) (s : Recovery) : (e : ScanEffect) → e.Answer → Prop
  | .acquireServiceLease, acquired => acquired = true → s.lease = none ∨ s.lease = some p
  | .repositoryCursor installation_id, cursor => cursor = (s.rows installation_id).repository_cursor
  | .pullCursor installation_id, cursor => cursor = ((s.rows installation_id).pull_cursor_repository,
      (s.rows installation_id).pull_cursor_number)
  | .listInstallationRepositories installation_id, batch =>
    batch.repositories.Perm (pop.repositories installation_id).repositories
  | .listOpenPulls installation_id full_name, batch =>
    batch.pulls.Perm (pop.pulls installation_id full_name).pulls
  | _, _ => True

/-- A transaction that answers has committed; one that raises may have. -/
def mayCommit : (e : ScanEffect) → Except ScanExn e.Answer → Bool → Prop
  | .acquireServiceLease, .ok acquired, committed => committed = acquired
  | _, .ok _, committed => committed = true
  | _, .error _, _ => True

def scanPerforms (pop : Population) (p : Str) (s : Recovery) (e : ScanEffect) (a : Except ScanExn e.Answer)
    (s' : Recovery) : Prop :=
  (∀ x, a = .error x → x.isExternal = true) ∧ (∀ answer, a = .ok answer → s.answers pop p e answer) ∧
    ∃ committed, mayCommit e a committed ∧
      s' = (if committed then s.committed p e else s).recorded
        ⟨p, committed && e.movesCursor && s.lease = some p, e, a⟩

/-- Any owner may scan, its lease may expire, and it may stop anywhere. A lease
that was lost is acquired again only by a new scan. -/
def recovery (settings : ReconcilerSettings) (pop : Population) :
    System Str ScanEffect ScanEffect.Answer ScanExn Recovery where
  perform := scanPerforms pop
  env s s' := s' = { s with lease := none }
  clear _ s := s
  programs _ prog := prog = reconcileOnce settings

/-! ## Completions -/

/-- The repository of the installation that an event completed. -/
def ScanEvent.completed (event : ScanEvent) (installation_id : Nat) : Option Str :=
  match event.effect with
  | .advanceRepository id full_name =>
    if id = installation_id ∧ event.effective = true then some full_name else none
  | _ => none

def completions (installation_id : Nat) (log : List ScanEvent) : List Str :=
  log.filterMap (·.completed installation_id)

/-- The events since the last completion of a repository. -/
def since (installation_id : Nat) (full_name : Str) (log : List ScanEvent) : List ScanEvent :=
  log.takeWhile fun event => event.completed installation_id ≠ some full_name

def Answered (log : List ScanEvent) (e : ScanEffect) (a : e.Answer) : Prop :=
  ∃ owner effective, ⟨owner, effective, e, .ok a⟩ ∈ log

/-- The branch's policy was read and is absent. -/
def PolicyAbsent (log : List ScanEvent) (installation_id : Nat) (full_name : Repository)
    (base_ref : Str) : Prop :=
  ∃ sha, Answered log (.getBranchHead installation_id full_name base_ref) sha ∧
    Answered log (.getFileText installation_id full_name sha) none

/-- Handed over to the queue, or proven unenrolled. -/
def Covered (log : List ScanEvent) (installation_id : Nat) (full_name : Repository) (pull : OpenPull) :
    Prop :=
  (∃ observed_at recheck_seconds added, Answered log (.call (.enqueueReconciliationIfDue
      (reconciliationRequest installation_id full_name pull observed_at) recheck_seconds)) added) ∨
    ∃ base_ref, pull.base_ref = some base_ref ∧ PolicyAbsent log installation_id full_name base_ref ∧
      Answered log (.hasReconciliationCheck installation_id full_name pull.head_sha) false

theorem Answered.mono {log log' : List ScanEvent} (h : log ⊆ log') {e : ScanEffect} {a : e.Answer}
    (ha : Answered log e a) : Answered log' e a := by
  obtain ⟨owner, effective, hm⟩ := ha
  exact ⟨owner, effective, h hm⟩

theorem PolicyAbsent.mono {log log' : List ScanEvent} (h : log ⊆ log') {id : Nat} {full_name : Repository}
    {base_ref : Str} (ha : PolicyAbsent log id full_name base_ref) :
    PolicyAbsent log' id full_name base_ref := by
  obtain ⟨sha, h₁, h₂⟩ := ha
  exact ⟨sha, h₁.mono h, h₂.mono h⟩

theorem Covered.mono {log log' : List ScanEvent} (h : log ⊆ log') {id : Nat} {full_name : Repository}
    {pull : OpenPull} (hc : Covered log id full_name pull) : Covered log' id full_name pull := by
  rcases hc with ⟨observed_at, recheck_seconds, added, ha⟩ | ⟨base_ref, hb, hp, ha⟩
  · exact Or.inl ⟨observed_at, recheck_seconds, added, ha.mono h⟩
  · exact Or.inr ⟨base_ref, hb, hp.mono h, ha.mono h⟩

theorem since_cons {id : Nat} {full_name : Str} {event : ScanEvent} {log : List ScanEvent}
    (h : event.completed id ≠ some full_name) :
    since id full_name (event :: log) = event :: since id full_name log := by
  unfold since
  rw [List.takeWhile_cons_of_pos (by simpa using h)]

theorem completed_of_not_effective {event : ScanEvent} (h : event.effective = false) (id : Nat) :
    event.completed id = none := by
  unfold ScanEvent.completed
  split
  · simp [h]
  · rfl

/-- The sorted names that a scan of the installation looks into. -/
def scannedNames (settings : ReconcilerSettings) (repositories : List (Repository × Bool)) : List Str :=
  (repositories.filter settings.scans).map (·.1.full_name)

def Population.names (pop : Population) (settings : ReconcilerSettings) (installation_id : Nat) : List Str :=
  scannedNames settings (byName (pop.repositories installation_id).repositories)

/-! ## The order of a scan -/

section
variable {settings : ReconcilerSettings}

theorem byName_perm (repositories : List (Repository × Bool)) :
    (byName repositories).Perm repositories := List.perm_insertionSort _ _

theorem byName_sorted (repositories : List (Repository × Bool)) :
    (byName repositories).Pairwise fun a b => a.1.full_name ≤ b.1.full_name := by
  have hs := List.pairwise_insertionSort (fun a b : Repository × Bool => a.1.full_name ≤ b.1.full_name)
    repositories
  exact hs

theorem scannedNames_sublist (repositories : List (Repository × Bool)) :
    (scannedNames settings repositories).Sublist (repositories.map (·.1.full_name)) :=
  List.filter_sublist.map _

theorem full_names_nodup (batch : RepositoryBatch) :
    (batch.repositories.map (·.1.full_name)).Nodup := by
  have h : batch.repositories.map (·.1.full_name) =
      (batch.repositories.map Prod.fst).map (·.full_name) := by
    rw [List.map_map]
    rfl
  rw [h]
  refine batch.distinct.map ?_
  intro a b hab
  cases a
  cases b
  exact congrArg Repository.mk hab

/-- Names are compared as Python compares strings, and no two are equal. -/
theorem scannedNames_sorted (batch : RepositoryBatch) :
    (scannedNames settings (byName batch.repositories)).Pairwise (· < ·) := by
  have hle : (scannedNames settings (byName batch.repositories)).Pairwise (· ≤ ·) := by
    unfold scannedNames
    rw [List.pairwise_map]
    exact (byName_sorted batch.repositories).filter _
  have hnd : (scannedNames settings (byName batch.repositories)).Nodup :=
    (((byName_perm _).map _).nodup_iff.mpr (full_names_nodup batch)).sublist (scannedNames_sublist _)
  exact (hle.and hnd).imp fun h => lt_of_le_of_ne h.1 h.2

/-- Every listing of the population is scanned in one order. -/
theorem scannedNames_perm {batch batch' : RepositoryBatch}
    (h : batch.repositories.Perm batch'.repositories) :
    scannedNames settings (byName batch.repositories) = scannedNames settings (byName batch'.repositories) := by
  have hp : (scannedNames settings (byName batch.repositories)).Perm
      (scannedNames settings (byName batch'.repositories)) := by
    refine List.Perm.map _ (List.Perm.filter _ ?_)
    exact (byName_perm _).trans (h.trans (byName_perm _).symm)
  exact hp.eq_of_pairwise (fun a b _ _ => fun h₁ h₂ => absurd h₁ (lt_asymm h₂))
    (scannedNames_sorted batch) (scannedNames_sorted batch')

theorem scannedNames_filter {p : Str → Bool} {repositories : List (Repository × Bool)}
    (hc : ∀ r ∈ repositories, asciiLower r.1.full_name = r.1.full_name) :
    scannedNames settings (repositories.filter fun r => p (asciiLower r.1.full_name)) =
      (scannedNames settings repositories).filter p := by
  unfold scannedNames
  rw [List.filter_map, List.filter_filter, List.filter_filter]
  refine congrArg _ (List.filter_congr fun r hr => ?_)
  rw [hc r hr, Bool.and_comm]
  rfl

theorem scannedNames_append (l l' : List (Repository × Bool)) :
    scannedNames settings (l ++ l') = scannedNames settings l ++ scannedNames settings l' := by
  simp [scannedNames]

/-- A scan goes round from the cursor. -/
theorem scannedNames_resumeAt {cursor : Str} {repositories : List (Repository × Bool)}
    (hc : ∀ r ∈ repositories, asciiLower r.1.full_name = r.1.full_name) :
    scannedNames settings (resumeAt cursor repositories) =
      roundBehind cursor (scannedNames settings repositories) := by
  have h₁ := @scannedNames_filter settings (fun name => cursor < name) repositories hc
  have h₂ := @scannedNames_filter settings (fun name => name ≤ cursor) repositories hc
  rw [resumeAt, scannedNames_append, h₁, h₂, roundBehind]
  refine congrArg₂ _ (List.filter_congr fun x _ => ?_) (List.filter_congr fun x _ => ?_)
  · exact decide_eq_decide.mpr Iff.rfl
  · exact decide_eq_decide.mpr Iff.rfl

/-- The repository put first already is the first one scanned. -/
theorem scannedNames_putFirst {name : Str} {repositories : List (Repository × Bool)}
    (hc : ∀ r ∈ repositories, asciiLower r.1.full_name = r.1.full_name)
    (hnd : (scannedNames settings repositories).Nodup)
    (hname : (∀ r ∈ repositories, r.1.full_name ≠ name) ∨
      (scannedNames settings repositories).head? = some name) :
    scannedNames settings (putFirst name repositories) = scannedNames settings repositories := by
  have h₁ := @scannedNames_filter settings (fun full_name => full_name = name) repositories hc
  have h₂ := @scannedNames_filter settings (fun full_name => full_name ≠ name) repositories hc
  rw [putFirst, scannedNames_append, h₁, h₂]
  rcases hname with hnone | hfirst
  · have hne : ∀ x ∈ scannedNames settings repositories, x ≠ name := by
      intro x hx
      obtain ⟨r, hr, rfl⟩ := List.mem_map.mp hx
      exact hnone r (List.mem_filter.mp hr).1
    rw [List.filter_eq_nil_iff.mpr fun x hx => by simpa using hne x hx,
      List.filter_eq_self.mpr fun x hx => by simpa using hne x hx]
    rfl
  · cases hl : scannedNames settings repositories with
    | nil => rfl
    | cons x rest =>
      rw [hl] at hfirst hnd
      cases hfirst
      have hne : ∀ y ∈ rest, y ≠ name := by
        intro y hy e
        exact (List.nodup_cons.mp hnd).1 (e ▸ hy)
      rw [List.filter_cons_of_pos (by simp), List.filter_cons_of_neg (by simp),
        List.filter_eq_nil_iff.mpr fun y hy => by simpa using hne y hy,
        List.filter_eq_self.mpr fun y hy => by simpa using hne y hy]
      rfl

end

/-! ## One step -/

section
variable {pop : Population} {p : Str} {s s' : Recovery} {e : ScanEffect} {a : Except ScanExn e.Answer}

/-- A step moves a cursor under the lease, or it moves none. -/
theorem scanPerforms.cases (h : scanPerforms pop p s e a s') :
    (s'.rows = s.rows ∧ s'.log = ⟨p, false, e, a⟩ :: s.log) ∨
      (e.movesCursor = true ∧ s.lease = some p ∧ s'.rows = cursorsAfter s.rows e ∧
        s'.log = ⟨p, true, e, a⟩ :: s.log) := by
  obtain ⟨-, -, committed, -, rfl⟩ := h
  cases committed with
  | false => exact Or.inl ⟨rfl, rfl⟩
  | true =>
    by_cases hl : s.lease = some p
    · cases e with
      | advancePull | advanceRepository =>
        right
        simp [Recovery.committed, Recovery.recorded, ScanEffect.movesCursor, hl]
      | releaseServiceLease | acquireServiceLease =>
        left
        simp [Recovery.committed, Recovery.recorded, ScanEffect.movesCursor, hl]
      | _ =>
        left
        simp [Recovery.committed, Recovery.recorded, ScanEffect.movesCursor, cursorsAfter, hl]
    · left
      cases e with
      | acquireServiceLease =>
        by_cases hfree : s.lease = none ∨ s.lease = some p
        · simp [Recovery.committed, Recovery.recorded, ScanEffect.movesCursor, hfree]
        · simp [Recovery.committed, Recovery.recorded, ScanEffect.movesCursor, hfree]
      | _ => simp [Recovery.committed, Recovery.recorded, hl]

/-- A completion that answers has moved the cursor. -/
theorem scanPerforms.completes {id : Nat} {name : Str} {answer : Unit}
    (h : scanPerforms pop p s (.advanceRepository id name) (.ok answer) s') (hl : s.lease = some p) :
    s'.rows = Function.update s.rows id ⟨name, [], 0⟩ ∧
      s'.log = ⟨p, true, .advanceRepository id name, .ok answer⟩ :: s.log := by
  obtain ⟨-, -, committed, hcommitted, rfl⟩ := h
  have hcommitted : committed = true := hcommitted
  subst hcommitted
  constructor
  · simp [Recovery.committed, Recovery.recorded, cursorsAfter, hl]
  · simp [Recovery.committed, Recovery.recorded, ScanEffect.movesCursor, hl]

/-- Only an acquisition gives the lease to its worker. -/
theorem scanPerforms.lease (h : scanPerforms pop p s e a s') {q : Str} (hq : s'.lease = some q) :
    s.lease = some q ∨ (q = p ∧ e = .acquireServiceLease) := by
  obtain ⟨-, -, committed, -, rfl⟩ := h
  cases committed with
  | false => exact Or.inl hq
  | true =>
    cases e with
    | acquireServiceLease =>
      simp only [Recovery.committed, Recovery.recorded, if_true] at hq
      split at hq
      · cases hq
        exact Or.inr ⟨rfl, rfl⟩
      · exact Or.inl hq
    | releaseServiceLease =>
      simp only [Recovery.committed, Recovery.recorded, if_true] at hq
      split at hq
      · cases hq
      · exact Or.inl hq
    | _ =>
      simp only [Recovery.committed, Recovery.recorded, if_true] at hq
      split at hq <;> exact Or.inl hq

end

/-! ## The invariant -/

section
variable (settings : ReconcilerSettings) (pop : Population) (cursors : Nat → Str)

/-- Progress up to a number, inside the repository that comes next. -/
structure Resumable (s : Recovery) (id : Nat) (name : Str) (number : Nat) : Prop where
  next : (roundBehind (s.rows id).repository_cursor (pop.names settings id)).head? = some name
  pulls : ∀ repository : Repository, repository.full_name = name →
    ∀ pull ∈ (pop.pulls id repository).pulls, pull.number ≤ number →
      Covered (since id name s.log) id repository pull

structure Recovery.Inv (s : Recovery) : Prop where
  visits : ∀ id, Visits (pop.names settings id) (cursors id) (completions id s.log).reverse
  cursor : ∀ id, (s.rows id).repository_cursor = (completions id s.log).head?.getD (cursors id)
  partially : ∀ id, (s.rows id).pull_cursor_repository ≠ [] →
    Resumable settings pop s id (s.rows id).pull_cursor_repository (s.rows id).pull_cursor_number
  completed : ∀ id later event earlier name, s.log = later ++ event :: earlier →
    event.completed id = some name → ∀ repository : Repository, repository.full_name = name →
      ∀ pull ∈ (pop.pulls id repository).pulls, Covered (since id name earlier) id repository pull

/-- What a scan establishes before it moves a cursor. -/
def recoveryGuarantee (p : Str) (s : Recovery) : ScanEffect → Prop
  | .advancePull id name number => s.lease = some p → name = [] ∨ Resumable settings pop s id name number
  | .advanceRepository id name => s.lease = some p → ∀ number, Resumable settings pop s id name number
  | _ => True

end

section
variable {settings : ReconcilerSettings} {pop : Population} {cursors : Nat → Str} {s s' : Recovery}

theorem Resumable.mono {id : Nat} {name : Str} {number : Nat} (h : Resumable settings pop s id name number)
    (hc : (s'.rows id).repository_cursor = (s.rows id).repository_cursor)
    (hl : since id name s.log ⊆ since id name s'.log) : Resumable settings pop s' id name number :=
  ⟨hc ▸ h.next, fun repository hr pull hp hn => (h.pulls repository hr pull hp hn).mono hl⟩

theorem since_subset {id : Nat} {name : Str} {event : ScanEvent} {log : List ScanEvent}
    (h : event.completed id ≠ some name) : since id name log ⊆ since id name (event :: log) := by
  rw [since_cons h]
  exact List.subset_cons_self ..

/-- An event that completes nothing, and cursors that stay or stay resumable. -/
theorem Recovery.Inv.grow (h : s.Inv settings pop cursors) {event : ScanEvent}
    (hlog : s'.log = event :: s.log) (hnone : ∀ id, event.completed id = none)
    (hcursor : ∀ id, (s'.rows id).repository_cursor = (s.rows id).repository_cursor)
    (hpart : ∀ id, (s'.rows id).pull_cursor_repository ≠ [] →
      Resumable settings pop s id (s'.rows id).pull_cursor_repository (s'.rows id).pull_cursor_number) :
    s'.Inv settings pop cursors := by
  have hcompletions : ∀ id, completions id s'.log = completions id s.log := by
    intro id
    rw [hlog]
    exact List.filterMap_cons_none (hnone id)
  refine ⟨?_, ?_, ?_, ?_⟩
  · intro id
    rw [hcompletions]
    exact h.visits id
  · intro id
    rw [hcursor, hcompletions]
    exact h.cursor id
  · intro id hne
    refine (hpart id hne).mono (hcursor id) ?_
    rw [hlog]
    exact since_subset (by simp [hnone id])
  · intro id later event' earlier name hs hc
    rw [hlog] at hs
    cases later with
    | nil =>
      obtain ⟨rfl, -⟩ := List.cons.inj hs
      rw [hnone id] at hc
      cases hc
    | cons x later =>
      obtain ⟨-, hs⟩ := List.cons.inj hs
      exact h.completed id later event' earlier name hs hc

/-- A completion is the next visit of the round. -/
theorem Recovery.Inv.complete (h : s.Inv settings pop cursors) {event : ScanEvent} {id : Nat} {name : Str}
    (hlog : s'.log = event :: s.log) (hc : event.completed id = some name)
    (hnone : ∀ id', id' ≠ id → event.completed id' = none)
    (hrows : s'.rows = Function.update s.rows id ⟨name, [], 0⟩)
    (hfinished : ∀ number, Resumable settings pop s id name number) : s'.Inv settings pop cursors := by
  have hself : completions id s'.log = name :: completions id s.log := by
    rw [hlog]
    exact List.filterMap_cons_some hc
  have hother : ∀ id', id' ≠ id → completions id' s'.log = completions id' s.log := by
    intro id' hne
    rw [hlog]
    exact List.filterMap_cons_none (hnone id' hne)
  refine ⟨?_, ?_, ?_, ?_⟩
  · intro id'
    by_cases hid : id' = id
    · subst hid
      rw [hself, List.reverse_cons]
      refine Visits.append.mpr ⟨h.visits id', ?_, trivial⟩
      rw [List.getLast?_reverse, ← h.cursor id']
      exact (hfinished 0).next
    · rw [hother id' hid]
      exact h.visits id'
  · intro id'
    by_cases hid : id' = id
    · subst hid
      rw [hself, hrows, Function.update_self]
      rfl
    · rw [hother id' hid, hrows, Function.update_of_ne hid]
      exact h.cursor id'
  · intro id' hne
    by_cases hid : id' = id
    · subst hid
      rw [hrows, Function.update_self] at hne
      exact absurd rfl hne
    · rw [hrows, Function.update_of_ne hid] at hne ⊢
      refine (h.partially id' hne).mono (by rw [hrows, Function.update_of_ne hid]) ?_
      rw [hlog]
      exact since_subset (by simp [hnone id' hid])
  · intro id' later event' earlier name' hs hc'
    rw [hlog] at hs
    cases later with
    | nil =>
      obtain ⟨rfl, rfl⟩ := List.cons.inj hs
      by_cases hid : id' = id
      · subst hid
        rw [hc] at hc'
        cases hc'
        intro repository hr pull hp
        exact (hfinished pull.number).pulls repository hr pull hp (le_refl _)
      · rw [hnone id' hid] at hc'
        cases hc'
    | cons x later =>
      obtain ⟨-, hs⟩ := List.cons.inj hs
      exact h.completed id' later event' earlier name' hs hc'

theorem Recovery.Inv.perform (h : s.Inv settings pop cursors) {p : Str} {e : ScanEffect}
    {a : Except ScanExn e.Answer} (hg : recoveryGuarantee settings pop p s e)
    (hp : scanPerforms pop p s e a s') : s'.Inv settings pop cursors := by
  rcases hp.cases with ⟨hrows, hlog⟩ | ⟨hmoves, hlease, hrows, hlog⟩
  · refine h.grow hlog (completed_of_not_effective rfl) (fun id => by rw [hrows]) ?_
    intro id hne
    rw [hrows] at hne ⊢
    exact h.partially id hne
  · cases e with
    | advancePull id name number =>
      have hrow : ∀ id', s'.rows id' = if id' = id then { s.rows id with
          pull_cursor_repository := name
          pull_cursor_number := number } else s.rows id' := by
        intro id'
        rw [hrows]
        exact Function.update_apply ..
      refine h.grow hlog (fun _ => rfl) ?_ ?_
      · intro id'
        rw [hrow]
        split
        · rename_i hid
          rw [hid]
        · rfl
      · intro id' hne
        rw [hrow] at hne ⊢
        split at hne
        · rename_i hid
          subst hid
          rw [if_pos rfl]
          exact (hg hlease).resolve_left hne
        · rename_i hid
          rw [if_neg hid]
          exact h.partially id' hne
    | advanceRepository id name =>
      refine @Recovery.Inv.complete _ _ _ _ _ h _ id name hlog ?_ ?_ hrows (hg hlease)
      · simp [ScanEvent.completed]
      · intro id' hne
        simp [ScanEvent.completed, Ne.symm hne]
    | _ => cases hmoves

end

/-! ## Assertions under the lease -/

/-- The round stands where it stood, and nothing observed is forgotten. -/
def Recovery.Later (s s' : Recovery) : Prop :=
  (∀ id, (s'.rows id).repository_cursor = (s.rows id).repository_cursor) ∧
    ∀ id name, since id name s.log ⊆ since id name s'.log

def Persists (F : Recovery → Prop) : Prop := ∀ s s', s.Later s' → F s → F s'

/-- A scan that has lost its lease may assert anything. -/
def Holding (p : Str) (F : Recovery → Prop) (s : Recovery) : Prop := s.lease = some p → F s

theorem Persists.const (F : Prop) : Persists fun _ => F := fun _ _ _ h => h

theorem Persists.and {F H : Recovery → Prop} (hF : Persists F) (hH : Persists H) :
    Persists fun s => F s ∧ H s :=
  fun s s' hl h => ⟨hF s s' hl h.1, hH s s' hl h.2⟩

theorem scanPerforms.later {pop : Population} {p : Str} {s s' : Recovery} {e : ScanEffect}
    {a : Except ScanExn e.Answer} (h : scanPerforms pop p s e a s')
    (he : s.lease = some p → ∀ id name, e ≠ .advanceRepository id name) :
    s.Later s' ∧ ∃ effective, ∀ id name, ⟨p, effective, e, a⟩ ∈ since id name s'.log := by
  have hgrow : ∀ effective, s'.log = ⟨p, effective, e, a⟩ :: s.log →
      (∀ id, (⟨p, effective, e, a⟩ : ScanEvent).completed id = none) →
      (∀ id name, since id name s.log ⊆ since id name s'.log) ∧
        ∃ effective, ∀ id name, ⟨p, effective, e, a⟩ ∈ since id name s'.log := by
    intro effective hlog hnone
    have hne : ∀ id name, (⟨p, effective, e, a⟩ : ScanEvent).completed id ≠ some name := by
      intro id name
      simp [hnone id]
    refine ⟨fun id name => ?_, effective, fun id name => ?_⟩
    · rw [hlog]
      exact since_subset (hne id name)
    · rw [hlog, since_cons (hne id name)]
      exact List.mem_cons_self ..
  rcases h.cases with ⟨hrows, hlog⟩ | ⟨hmoves, hlease, hrows, hlog⟩
  · obtain ⟨hsub, hmem⟩ := hgrow _ hlog (completed_of_not_effective rfl)
    exact ⟨⟨fun id => by rw [hrows], hsub⟩, hmem⟩
  · cases e with
    | advancePull id name number =>
      obtain ⟨hsub, hmem⟩ := hgrow _ hlog fun _ => rfl
      refine ⟨⟨fun id' => ?_, hsub⟩, hmem⟩
      rw [hrows]
      by_cases hid : id' = id
      · subst hid
        rw [cursorsAfter, Function.update_self]
      · rw [cursorsAfter, Function.update_of_ne hid]
    | advanceRepository id name => exact absurd rfl (he hlease id name)
    | _ => cases hmoves

section
variable (settings : ReconcilerSettings) (pop : Population) (cursors : Nat → Str) (p : Str)

/-- A part of a scan, by what holds as long as it has the lease. -/
abbrev Holds {α : Type} (F : Recovery → Prop) (prog : Scan α) (Q : α → Recovery → Prop)
    (X : Recovery → Prop) : Prop :=
  (recovery settings pop).Triple (Recovery.Inv settings pop cursors) (recoveryGuarantee settings pop) p
    (Holding p F) prog (fun a => Holding p (Q a)) fun _ => Holding p X

end

section
variable {settings : ReconcilerSettings} {pop : Population} {cursors : Nat → Str} {p : Str} {α : Type}

theorem Holds.conseq {F F' : Recovery → Prop} {Q Q' : α → Recovery → Prop} {X X' : Recovery → Prop}
    {prog : Scan α} (h : Holds settings pop cursors p F prog Q X) (hF : ∀ s, F' s → F s)
    (hQ : ∀ a s, Q a s → Q' a s) (hX : ∀ s, X s → X' s) : Holds settings pop cursors p F' prog Q' X' :=
  System.Triple.conseq h (fun s _ hs hl => hF s (hs hl)) (fun a s _ hs hl => hQ a s (hs hl))
    fun _ s _ hs hl => hX s (hs hl)

theorem Holds.weaken {F X : Recovery → Prop} {Q : α → Recovery → Prop} {prog : Scan α}
    (h : Holds settings pop cursors p F prog Q X) : Holds settings pop cursors p F prog Q fun _ => True :=
  h.conseq (fun _ h => h) (fun _ _ h => h) fun _ _ => trivial

/-- While a scan has the lease, nobody else moves a cursor. -/
theorem Persists.stable {F : Recovery → Prop} (hF : Persists F) :
    (recovery settings pop).Stable (Recovery.Inv settings pop cursors) (recoveryGuarantee settings pop) p
      (Holding p F) := by
  rintro s s' - hs ⟨-, -, ⟨q, e, a, hq, -, hperf⟩ | ⟨q, -, rfl⟩ | he⟩ hl
  · have hperf : scanPerforms pop q s e a s' := hperf
    have hl' : s.lease = some p := (hperf.lease hl).resolve_right fun h => hq h.1.symm
    have hother : s.lease ≠ some q := by
      rw [hl']
      exact fun h => hq (Option.some.inj h).symm
    exact hF s s' (hperf.later fun h => absurd h hother).1 (hs hl')
  · exact hs hl
  · rw [show s' = { s with lease := none } from he] at hl
    cases hl

/-- It completes no repository, and takes no lease. -/
def ScanEffect.staysInRound : ScanEffect → Bool
  | .advanceRepository .. | .acquireServiceLease => false
  | _ => true

theorem Holds.step {e : ScanEffect} {F : Recovery → Prop} {Q : e.Answer → Recovery → Prop}
    (he : e.staysInRound = true) (hF : Persists F)
    (hG : ∀ s, Holding p F s → recoveryGuarantee settings pop p s e)
    (h : ∀ (s s' : Recovery) a, s.Inv settings pop cursors → s.Later s' → F s' → s.answers pop p e a →
      (∀ id name, Answered (since id name s'.log) e a) → Q a s') :
    Holds settings pop cursors p F (perform e) Q F := by
  have hround : ∀ id name, e ≠ .advanceRepository id name := by
    rintro id name rfl
    cases he
  have hlease : ∀ {s a s'}, scanPerforms pop p s e a s' → s'.lease = some p → s.lease = some p := by
    intro s a s' hperf hl
    refine (hperf.lease hl).resolve_right fun h => ?_
    rw [h.2] at he
    cases he
  refine System.Triple.perform hF.stable (fun s _ hs => hG s hs) ?_ ?_
  · intro s a s' hI hs hperf _ hl
    have hperf : scanPerforms pop p s e (.ok a) s' := hperf
    obtain ⟨hlater, effective, hmem⟩ := hperf.later fun _ => hround
    exact h s s' a hI hlater (hF s s' hlater (hs (hlease hperf hl))) (hperf.2.1 a rfl)
      fun id name => ⟨p, effective, hmem id name⟩
  · intro s x s' _ hs hperf _ hl
    have hperf : scanPerforms pop p s e (.error x) s' := hperf
    exact hF s s' (hperf.later fun _ => hround).1 (hs (hlease hperf hl))

/-- A step that only asks. -/
theorem Holds.ask {e : ScanEffect} {F : Recovery → Prop} (he : e.staysInRound = true)
    (hmoves : e.movesCursor = false) (hF : Persists F) :
    Holds settings pop cursors p F (perform e)
      (fun a s => F s ∧ ∀ id name, Answered (since id name s.log) e a) F := by
  refine Holds.step he hF ?_ fun s s' a _ _ hs _ ha => ⟨hs, ha⟩
  intro s _
  cases e with
  | advancePull | advanceRepository => cases hmoves
  | _ => trivial

end

/-! ## One pull request -/

section
variable {settings : ReconcilerSettings} {pop : Population} {cursors : Nat → Str} {p : Str}
  {F : Recovery → Prop}

theorem persists_answered {e : ScanEffect} {a : e.Answer} :
    Persists fun s => ∀ id name, Answered (since id name s.log) e a :=
  fun _ _ hl h id name => (h id name).mono (hl.2 id name)

theorem stopIfInterrupted_holds (hF : Persists F) :
    Holds settings pop cursors p F stopIfInterrupted (fun _ => F) F := by
  refine (Holds.ask rfl rfl hF).bind fun (interrupted : Bool) => ?_
  refine System.Triple.ite (fun _ => ?_) fun _ => ?_
  · exact System.Triple.throw fun s _ hs hl => (hs hl).1
  · exact System.Triple.pure fun s _ hs hl => (hs hl).1

theorem policyPresent_holds (hF : Persists F) {id : Nat} {repository : Repository} {base_ref : Str} :
    Holds settings pop cursors p F (policyPresent id repository base_ref)
      (fun present s => F s ∧ (present = false →
        PolicyAbsent (since id repository.full_name s.log) id repository base_ref)) F := by
  refine System.Triple.handle (F := fun _ => Holding p F) ?_ fun x => ?_
  · refine (Holds.ask rfl rfl hF).bind fun sha => ?_
    refine ((Holds.ask rfl rfl (hF.and persists_answered)).conseq (fun _ h => h) (fun _ _ h => h)
      fun _ h => h.1).bind fun text => ?_
    refine System.Triple.pure fun s _ hs hl => ?_
    obtain ⟨⟨hF, hsha⟩, htext⟩ := hs hl
    refine ⟨hF, fun habsent => ?_⟩
    cases text with
    | none => exact ⟨sha, hsha _ _, htext _ _⟩
    | some text => cases habsent
  · cases x with
    | gitHub => exact System.Triple.pure fun s _ hs hl => ⟨hs hl, nofun⟩
    | _ => exact System.Triple.throw fun s _ hs => hs

/-- The loop over the repositories: `rest` are the ones still to come. -/
structure Resting (settings : ReconcilerSettings) (pop : Population) (id : Nat) (partially : Str × Nat)
    (rest : List (Repository × Bool)) (s : Recovery) : Prop where
  round : ∃ done, roundBehind (s.rows id).repository_cursor (pop.names settings id) =
    scannedNames settings rest ++ done
  canonical : ∀ r ∈ rest, asciiLower r.1.full_name = r.1.full_name
  partially : ∀ repository : Repository, repository.full_name ∈ scannedNames settings rest →
    repository.full_name = partially.1 → ∀ pull ∈ (pop.pulls id repository).pulls,
      pull.number ≤ partially.2 → Covered (since id repository.full_name s.log) id repository pull

/-- The loop inside the repository `r`: `rest` are the pull requests still to come. -/
structure Handling (settings : ReconcilerSettings) (pop : Population) (id : Nat) (partially : Str × Nat)
    (r : Repository × Bool) (others : List (Repository × Bool)) (rest : List OpenPull)
    (policies : Dict Str Bool) (s : Recovery) : Prop where
  resting : Resting settings pop id partially (r :: others) s
  scanned : settings.scans r = true
  listed : ∀ pull ∈ rest, pull ∈ (pop.pulls id r.1).pulls
  handled : ∀ pull ∈ (pop.pulls id r.1).pulls,
    pull ∈ rest ∨ Covered (since id r.1.full_name s.log) id r.1 pull
  sorted : rest.Pairwise fun a b => a.number < b.number
  absent : ∀ base_ref, policies.get? base_ref = some false →
    PolicyAbsent (since id r.1.full_name s.log) id r.1 base_ref

variable {id : Nat} {partially : Str × Nat} {r : Repository × Bool} {others : List (Repository × Bool)}
  {pull : OpenPull} {rest : List OpenPull} {policies : Dict Str Bool}

theorem Resting.persists {rest : List (Repository × Bool)} :
    Persists (Resting settings pop id partially rest) := by
  intro s s' hl h
  refine ⟨?_, h.canonical, ?_⟩
  · rw [hl.1]
    exact h.round
  · exact fun repository hm he pull hp hn => (h.partially repository hm he pull hp hn).mono (hl.2 id _)

theorem Handling.persists : Persists (Handling settings pop id partially r others rest policies) := by
  intro s s' hl h
  have hsub := hl.2 id r.1.full_name
  refine ⟨Resting.persists s s' hl h.resting, h.scanned, h.listed, ?_, h.sorted, ?_⟩
  · exact fun pull hp => (h.handled pull hp).imp_right (·.mono hsub)
  · exact fun base_ref hb => (h.absent base_ref hb).mono hsub

theorem persists_covered :
    Persists fun s => Covered (since id r.1.full_name s.log) id r.1 pull :=
  fun _ _ hl h => h.mono (hl.2 id r.1.full_name)

theorem scannedNames_cons (h : settings.scans r = true) :
    scannedNames settings (r :: others) = r.1.full_name :: scannedNames settings others := by
  rw [scannedNames, List.filter_cons_of_pos h]
  rfl

theorem Handling.take {s : Recovery}
    (h : Handling settings pop id partially r others (pull :: rest) policies s)
    (hc : Covered (since id r.1.full_name s.log) id r.1 pull) :
    Handling settings pop id partially r others rest policies s where
  resting := h.resting
  scanned := h.scanned
  listed pull' hp := h.listed pull' (List.mem_cons_of_mem _ hp)
  handled pull' hp := by
    rcases h.handled pull' hp with hrest | hcovered
    · rcases List.mem_cons.mp hrest with rfl | hrest
      · exact Or.inr hc
      · exact Or.inl hrest
    · exact Or.inr hcovered
  sorted := (List.pairwise_cons.mp h.sorted).2
  absent := h.absent

/-- What is left lies above the number. -/
theorem Handling.resumable {s : Recovery} {number : Nat}
    (h : Handling settings pop id partially r others rest policies s)
    (hrest : ∀ pull ∈ rest, number < pull.number) :
    Resumable settings pop s id r.1.full_name number := by
  refine ⟨?_, ?_⟩
  · obtain ⟨done, hround⟩ := h.resting.round
    rw [hround, scannedNames_cons h.scanned]
    rfl
  · rintro ⟨full_name⟩ hname pull hp hn
    cases hname
    rcases h.handled pull hp with hmem | hcovered
    · exact absurd hn (not_le.mpr (hrest pull hmem))
    · exact hcovered

theorem observePolicy_holds {base_ref : Str} :
    Holds settings pop cursors p (Handling settings pop id partially r others rest policies)
      (observePolicy id r.1 base_ref policies)
      (fun policies => Handling settings pop id partially r others rest policies) fun _ => True := by
  unfold observePolicy
  split
  · exact System.Triple.pure fun s _ hs => hs
  · refine (policyPresent_holds Handling.persists).weaken.bind fun present => ?_
    refine System.Triple.pure fun s _ hs hl => ?_
    obtain ⟨h, habsent⟩ := hs hl
    refine { h with absent := fun base_ref' hb => ?_ }
    by_cases hbase : base_ref' = base_ref
    · subst hbase
      rw [Dict.get?_set_self] at hb
      exact habsent (Option.some.inj hb)
    · rw [Dict.get?_set_ne _ _ hbase] at hb
      exact h.absent base_ref' hb

theorem provenUnenrolled_holds :
    Holds settings pop cursors p (Handling settings pop id partially r others (pull :: rest) policies)
      (provenUnenrolled id r.1 pull policies)
      (fun proof s => Handling settings pop id partially r others (pull :: rest) proof.1 s ∧
        (proof.2 = true → Covered (since id r.1.full_name s.log) id r.1 pull))
      fun _ => True := by
  unfold provenUnenrolled
  split
  · exact System.Triple.pure fun s _ hs hl => ⟨hs hl, nofun⟩
  · rename_i base_ref hbase
    refine observePolicy_holds.bind fun policies => ?_
    refine (stopIfInterrupted_holds Handling.persists).weaken.bind fun _ => ?_
    refine System.Triple.ite (fun habsent => ?_) fun _ => ?_
    · refine (Holds.ask rfl rfl Handling.persists).weaken.bind fun (managed : Bool) => ?_
      refine (stopIfInterrupted_holds (Handling.persists.and persists_answered)).weaken.bind fun _ => ?_
      refine System.Triple.pure fun s _ hs hl => ?_
      obtain ⟨h, hmanaged⟩ := hs hl
      refine ⟨h, fun hnot => Or.inr ⟨base_ref, (Option.filter_eq_some_iff.mp hbase).1, h.absent _ habsent, ?_⟩⟩
      cases managed with
      | false => exact hmanaged _ _
      | true => cases hnot
    · exact System.Triple.pure fun s _ hs hl => ⟨hs hl, nofun⟩

/-- Progress is recorded for a pull request that is handled. -/
theorem advancePull_holds :
    Holds settings pop cursors p
      (fun s => Handling settings pop id partially r others (pull :: rest) policies s ∧
        Covered (since id r.1.full_name s.log) id r.1 pull)
      (perform (.advancePull id (asciiLower r.1.full_name) pull.number))
      (fun _ => Handling settings pop id partially r others rest policies) fun _ => True := by
  refine (Holds.step rfl (Handling.persists.and persists_covered) ?_ ?_).weaken
  · intro s hs hl
    obtain ⟨h, hcovered⟩ := hs hl
    rw [h.resting.canonical r (List.mem_cons_self ..)]
    exact Or.inr ((h.take hcovered).resumable (List.pairwise_cons.mp h.sorted).1)
  · exact fun s s' a _ _ hs _ _ => hs.1.take hs.2

theorem scanPull_holds {observed_at : Time} :
    Holds settings pop cursors p (Handling settings pop id partially r others (pull :: rest) policies)
      (scanPull settings id r.1 partially observed_at policies pull)
      (fun policies => Handling settings pop id partially r others rest policies) fun _ => True := by
  refine (stopIfInterrupted_holds Handling.persists).weaken.bind fun _ => ?_
  refine System.Triple.ite (fun hdone => ?_) fun _ => ?_
  · refine System.Triple.pure fun s _ hs hl => ?_
    have h := hs hl
    refine h.take (h.resting.partially r.1 ?_ ?_ pull (h.listed pull (List.mem_cons_self ..)) hdone.2)
    · rw [scannedNames_cons h.scanned]
      exact List.mem_cons_self ..
    · rw [← hdone.1, h.resting.canonical r (List.mem_cons_self ..)]
  · refine provenUnenrolled_holds.bind ?_
    rintro ⟨policies, unenrolled⟩
    refine System.Triple.ite (fun hunenrolled => ?_) fun _ => ?_
    · refine (advancePull_holds.conseq (fun s h => ⟨h.1, h.2 hunenrolled⟩) (fun _ _ h => h)
        fun _ h => h).bind fun _ => ?_
      exact System.Triple.pure fun s _ hs => hs
    · refine ((Holds.ask rfl rfl Handling.persists).conseq (fun _ h => h.1) (fun _ _ h => h)
        fun _ _ => trivial).bind fun added => ?_
      refine (advancePull_holds.conseq (fun s h => ⟨h.1, ?_⟩) (fun _ _ h => h)
        fun _ h => h).bind fun _ => ?_
      · exact Or.inl ⟨_, _, added, h.2 id r.1.full_name⟩
      · exact System.Triple.pure fun s _ hs => hs

/-! ## Repositories and installations -/

theorem byNumber_perm (pulls : List OpenPull) : (byNumber pulls).Perm pulls :=
  List.perm_insertionSort _ _

theorem byNumber_sorted (batch : PullBatch) :
    (byNumber batch.pulls).Pairwise fun a b => a.number < b.number := by
  have hle : (byNumber batch.pulls).Pairwise fun a b => a.number ≤ b.number :=
    List.pairwise_insertionSort (fun a b : OpenPull => a.number ≤ b.number) batch.pulls
  have hne : (byNumber batch.pulls).Pairwise fun a b => a.number ≠ b.number :=
    List.pairwise_map.mp (((byNumber_perm _).map _).nodup_iff.mpr batch.distinct)
  exact (hle.and hne).imp fun h => lt_of_le_of_ne h.1 h.2

theorem handling_of_listing {s : Recovery} (h : Resting settings pop id partially (r :: others) s)
    (hscan : settings.scans r = true) {batch : PullBatch}
    (hp : batch.pulls.Perm (pop.pulls id r.1).pulls) :
    Handling settings pop id partially r others (byNumber batch.pulls) ∅ s where
  resting := h
  scanned := hscan
  listed _ hpull := hp.subset ((byNumber_perm _).subset hpull)
  handled _ hpull := Or.inl ((byNumber_perm _).symm.subset (hp.symm.subset hpull))
  sorted := byNumber_sorted batch
  absent base_ref hb := by
    rw [Dict.get?_empty] at hb
    cases hb

theorem Resting.skip {s : Recovery} (h : Resting settings pop id partially (r :: others) s)
    (hscan : ¬settings.scans r = true) : Resting settings pop id partially others s := by
  have hnames : scannedNames settings (r :: others) = scannedNames settings others := by
    rw [scannedNames, List.filter_cons_of_neg hscan]
    rfl
  refine ⟨?_, fun r' hr => h.canonical r' (List.mem_cons_of_mem _ hr), ?_⟩
  · rw [← hnames]
    exact h.round
  · rw [← hnames]
    exact h.partially

theorem names_sorted (settings : ReconcilerSettings) (pop : Population) (id : Nat) :
    (pop.names settings id).Pairwise (· < ·) := scannedNames_sorted _

theorem Resting.complete {s s' : Recovery} {event : ScanEvent}
    (h : Resting settings pop id partially (r :: others) s) (hscan : settings.scans r = true)
    (hc : event.completed id = some r.1.full_name) (hlog : s'.log = event :: s.log)
    (hrow : (s'.rows id).repository_cursor = r.1.full_name) :
    Resting settings pop id partially others s' := by
  obtain ⟨done, hround⟩ := h.round
  rw [scannedNames_cons hscan, List.cons_append] at hround
  have hnodup : (r.1.full_name :: (scannedNames settings others ++ done)).Nodup := by
    rw [← hround]
    exact (roundBehind_perm _ _).nodup_iff.mpr ((names_sorted settings pop id).imp ne_of_lt)
  refine ⟨⟨done ++ [r.1.full_name], ?_⟩, fun r' hr => h.canonical r' (List.mem_cons_of_mem _ hr), ?_⟩
  · rw [hrow, roundBehind_cons (names_sorted settings pop id) hround, List.append_assoc]
  · intro repository hm he pull hp hn
    have hne : event.completed id ≠ some repository.full_name := by
      rw [hc]
      intro heq
      refine (List.nodup_cons.mp hnodup).1 (List.mem_append_left _ ?_)
      rw [Option.some.inj heq]
      exact hm
    have hcovered := h.partially repository
      (by rw [scannedNames_cons hscan]; exact List.mem_cons_of_mem _ hm) he pull hp hn
    rw [hlog]
    exact hcovered.mono (since_subset hne)

theorem advanceRepository_holds :
    Holds settings pop cursors p (Handling settings pop id partially r others [] policies)
      (perform (.advanceRepository id (asciiLower r.1.full_name)))
      (fun _ => Resting settings pop id partially others) fun _ => True := by
  refine System.Triple.perform Handling.persists.stable ?_ ?_ fun _ _ _ _ _ _ _ _ => trivial
  · intro s _ hs hl number
    have h := hs hl
    rw [h.resting.canonical r (List.mem_cons_self ..)]
    exact h.resumable nofun
  · intro s a s' _ hs hperf _ hl
    have hperf : scanPerforms pop p s _ (.ok a) s' := hperf
    have hlease : s.lease = some p := (hperf.lease hl).resolve_right nofun
    have h := hs hlease
    obtain ⟨hrows, hlog⟩ := hperf.completes hlease
    rw [h.resting.canonical r (List.mem_cons_self ..)] at hrows hlog
    refine h.resting.complete h.scanned ?_ hlog ?_
    · simp [ScanEvent.completed]
    · rw [hrows, Function.update_self]

theorem scanRepository_holds :
    Holds settings pop cursors p (Resting settings pop id partially (r :: others))
      (scanRepository settings id partially r)
      (fun _ => Resting settings pop id partially others) fun _ => True := by
  refine (stopIfInterrupted_holds Resting.persists).weaken.bind fun _ => ?_
  refine System.Triple.ite (fun hscan => ?_) fun hscan => ?_
  · refine ((Holds.ask rfl rfl Resting.persists).conseq (fun _ h => h) (fun _ _ h => h.1)
      fun _ _ => trivial).bind fun observed_at => ?_
    have hlisting : Holds settings pop cursors p (Resting settings pop id partially (r :: others))
        (perform (.listOpenPulls id r.1))
        (fun batch => Handling settings pop id partially r others (byNumber batch.pulls) ∅)
        (Resting settings pop id partially (r :: others)) :=
      Holds.step rfl Resting.persists (fun _ _ => trivial)
        fun _ _ _ _ _ hs hlisted _ => handling_of_listing hs hscan hlisted
    refine hlisting.weaken.bind fun batch => ?_
    refine (stopIfInterrupted_holds Handling.persists).weaken.bind fun _ => ?_
    refine (System.Triple.foldlM (K := fun rest policies => Holding p
      (Handling settings pop id partially r others rest policies)) (F := fun _ => Holding p fun _ => True)
      (fun _ _ _ => scanPull_holds) _ _).bind fun policies => ?_
    exact advanceRepository_holds
  · exact System.Triple.pure fun s _ hs hl => (hs hl).skip hscan

/-- The scan has the whole round before it. -/
def Aligned (settings : ReconcilerSettings) (pop : Population) (id : Nat)
    (repositories : List (Repository × Bool)) (s : Recovery) : Prop :=
  roundBehind (s.rows id).repository_cursor (pop.names settings id) = scannedNames settings repositories

theorem Aligned.persists {repositories : List (Repository × Bool)} :
    Persists (Aligned settings pop id repositories) := by
  intro s s' hl h
  unfold Aligned
  rw [hl.1]
  exact h

theorem Resumable.persists {name : Str} {number : Nat} :
    Persists fun s => Resumable settings pop s id name number :=
  fun _ _ hl h => h.mono (hl.1 id) (hl.2 id name)

/-- Neither `resumeAt` nor `putFirst` adds a repository. -/
theorem mem_of_mem_filters {α : Type} {p q : α → Bool} {l : List α} {x : α}
    (h : x ∈ l.filter p ++ l.filter q) : x ∈ l := by
  rcases List.mem_append.mp h with h | h
  · exact List.mem_of_mem_filter h
  · exact List.mem_of_mem_filter h

theorem aligned_of_listing {s : Recovery} {batch : RepositoryBatch}
    (hp : batch.repositories.Perm (pop.repositories id).repositories) :
    Aligned settings pop id
      (resumeAt (s.rows id).repository_cursor (byName batch.repositories)) s := by
  have hc : ∀ r ∈ byName batch.repositories, asciiLower r.1.full_name = r.1.full_name :=
    fun r hr => batch.canonical r ((byName_perm _).subset hr)
  unfold Aligned
  rw [scannedNames_resumeAt hc, scannedNames_perm hp]
  rfl

theorem resting_of_aligned {s : Recovery} {repositories : List (Repository × Bool)}
    (h : Aligned settings pop id repositories s)
    (hpartially : partially.1 ≠ [] → Resumable settings pop s id partially.1 partially.2)
    (hc : ∀ r ∈ repositories, asciiLower r.1.full_name = r.1.full_name)
    (hnamed : ∀ r ∈ repositories, r.1.full_name ≠ []) :
    Resting settings pop id partially (putFirst partially.1 repositories) s := by
  have hnodup : (scannedNames settings repositories).Nodup := by
    rw [← h]
    exact (roundBehind_perm _ _).nodup_iff.mpr ((names_sorted settings pop id).imp ne_of_lt)
  have hfirst : scannedNames settings (putFirst partially.1 repositories) =
      scannedNames settings repositories := by
    refine scannedNames_putFirst hc hnodup ?_
    by_cases hne : partially.1 = []
    · left
      rw [hne]
      exact hnamed
    · right
      rw [← h]
      exact (hpartially hne).next
  refine ⟨⟨[], ?_⟩, fun r hr => hc r (mem_of_mem_filters hr), ?_⟩
  · rw [hfirst, List.append_nil]
    exact h
  · intro repository hm he pull hp hn
    rw [hfirst] at hm
    obtain ⟨r, hr, hname⟩ := List.mem_map.mp hm
    have hne : partially.1 ≠ [] := by
      rw [← he, ← hname]
      exact hnamed r (List.mem_filter.mp hr).1
    rw [he]
    exact (hpartially hne).pulls repository he pull hp hn

theorem partialProgress_holds {repositories : List (Repository × Bool)} :
    Holds settings pop cursors p (Aligned settings pop id repositories)
      (partialProgress settings id repositories)
      (fun partially s => Aligned settings pop id repositories s ∧
        (partially.1 ≠ [] → Resumable settings pop s id partially.1 partially.2)) fun _ => True := by
  have hread : Holds settings pop cursors p (Aligned settings pop id repositories) (perform (.pullCursor id))
      (fun partially s => Aligned settings pop id repositories s ∧
        (partially.1 ≠ [] → Resumable settings pop s id partially.1 partially.2))
      (Aligned settings pop id repositories) := by
    refine Holds.step rfl Aligned.persists (fun _ _ => trivial) ?_
    intro s s' partially hI hl hs hread _
    refine ⟨hs, fun hne => ?_⟩
    rw [show partially = _ from hread] at hne ⊢
    exact Resumable.persists s s' hl (hI.partially id hne)
  refine hread.weaken.bind ?_
  rintro ⟨name, number⟩
  refine System.Triple.ite (fun _ => ?_) fun _ => ?_
  · have hclear : Holds settings pop cursors p (Aligned settings pop id repositories)
        (perform (.advancePull id [] 0)) (fun _ => Aligned settings pop id repositories)
        (Aligned settings pop id repositories) :=
      Holds.step rfl Aligned.persists (fun _ _ _ => Or.inl rfl) fun _ _ _ _ _ hs _ _ => hs
    refine (hclear.conseq (fun _ h => h.1) (fun _ _ h => h) fun _ _ => trivial).bind fun _ => ?_
    exact System.Triple.pure fun s _ hs hl => ⟨hs hl, fun hne => absurd rfl hne⟩
  · exact System.Triple.pure fun s _ hs => hs

theorem scanRepositories_holds :
    Holds settings pop cursors p (fun _ => True) (scanRepositories settings id) (fun _ _ => True)
      fun _ => True := by
  have hlisting : Holds settings pop cursors p (fun _ => True) (perform (.listInstallationRepositories id))
      (fun batch _ => batch.repositories.Perm (pop.repositories id).repositories) fun _ => True :=
    Holds.step rfl (Persists.const _) (fun _ _ => trivial) fun _ _ _ _ _ _ hlisted _ => hlisted
  refine hlisting.bind fun batch => ?_
  refine (stopIfInterrupted_holds (Persists.const _)).weaken.bind fun _ => ?_
  have hcursor : Holds settings pop cursors p
      (fun _ => batch.repositories.Perm (pop.repositories id).repositories)
      (perform (.repositoryCursor id))
      (fun cursor => Aligned settings pop id (resumeAt cursor (byName batch.repositories)))
      fun _ => batch.repositories.Perm (pop.repositories id).repositories := by
    refine Holds.step rfl (Persists.const _) (fun _ _ => trivial) ?_
    intro s s' cursor _ hl hp hcursor _
    rw [show cursor = _ from hcursor, ← hl.1 id]
    exact aligned_of_listing hp
  refine hcursor.weaken.bind fun cursor => ?_
  refine partialProgress_holds.bind fun partially => ?_
  have hc : ∀ r ∈ resumeAt cursor (byName batch.repositories),
      asciiLower r.1.full_name = r.1.full_name ∧ r.1.full_name ≠ [] := by
    intro r hr
    have hr := (byName_perm _).subset (mem_of_mem_filters hr)
    exact ⟨batch.canonical r hr, batch.named r hr⟩
  have hloop := System.Triple.forM (S := recovery settings pop) (I := Recovery.Inv settings pop cursors)
    (G := recoveryGuarantee settings pop) (p := p)
    (K := fun rest => Holding p (Resting settings pop id partially rest))
    (F := fun _ => Holding p fun _ => True) (f := scanRepository settings id partially)
    (fun _ _ => scanRepository_holds) (putFirst partially.1 (resumeAt cursor (byName batch.repositories)))
  refine hloop.conseq (fun s _ hs hl => ?_) (fun _ _ _ _ _ => trivial) fun _ _ _ h => h
  obtain ⟨haligned, hpartially⟩ := hs hl
  exact resting_of_aligned haligned hpartially (fun r hr => (hc r hr).1) fun r hr => (hc r hr).2

end

/-! ## The whole scan -/

section
variable (settings : ReconcilerSettings) (pop : Population) (cursors : Nat → Str) (p : Str)

/-- A part that asserts nothing to the rest. -/
abbrev Guarded {α : Type} (prog : Scan α) : Prop :=
  Holds settings pop cursors p (fun _ => True) prog (fun _ _ => True) fun _ => True

end

section
variable {settings : ReconcilerSettings} {pop : Population} {cursors : Nat → Str} {p : Str} {α : Type}

theorem Guarded.pure {a : α} : Guarded settings pop cursors p (pure a) := System.Triple.pure fun _ _ _ _ => trivial

theorem Guarded.throw {x : ScanExn} : Guarded settings pop cursors p (Prog.throw x : Scan α) :=
  System.Triple.throw fun _ _ _ _ => trivial

theorem Guarded.ask {e : ScanEffect} (he : e.staysInRound = true) (hmoves : e.movesCursor = false) :
    Guarded settings pop cursors p (perform e) :=
  (Holds.ask he hmoves (Persists.const True)).conseq (fun _ h => h) (fun _ _ _ => trivial) fun _ h => h

theorem Guarded.interrupted : Guarded settings pop cursors p stopIfInterrupted :=
  stopIfInterrupted_holds (Persists.const True)

theorem scanInstallation_guarded (installation : Nat × Bool) :
    Guarded settings pop cursors p (scanInstallation settings installation) := by
  refine Guarded.interrupted.bind fun _ => ?_
  refine System.Triple.ite (fun _ => ?_) fun _ => ?_
  · exact Holds.step rfl (Persists.const True) (fun _ _ _ => Or.inl rfl) fun _ _ _ _ _ _ _ _ => trivial
  · refine (Guarded.ask rfl rfl).bind fun (backpressured : Bool) => ?_
    refine System.Triple.ite (fun _ => Guarded.pure) fun _ => ?_
    refine System.Triple.handle (F := fun _ => Holding p fun _ => True) scanRepositories_holds fun x => ?_
    cases x with
    | interrupted | operationStopped | cancelled => exact Guarded.throw
    | gitHubRateLimit => exact Guarded.ask rfl rfl
    | recoveryBudgetDeferred | gitHub | payload | other => exact Guarded.pure

theorem listInstallations_guarded : Guarded settings pop cursors p listInstallations := by
  refine System.Triple.handle (F := fun _ => Holding p fun _ => True) (Guarded.ask rfl rfl) fun x => ?_
  cases x with
  | gitHubRateLimit => exact (Guarded.ask rfl rfl).bind fun _ => Guarded.pure
  | _ => exact Guarded.throw

theorem reconcileOwnedScan_guarded : Guarded settings pop cursors p (reconcileOwnedScan settings) := by
  refine Guarded.interrupted.bind fun _ => ?_
  refine (Guarded.ask rfl rfl).bind fun now => ?_
  refine (Guarded.ask rfl rfl).bind fun _ => ?_
  refine Guarded.interrupted.bind fun _ => ?_
  refine (Guarded.ask rfl rfl).bind fun _ => ?_
  refine Guarded.interrupted.bind fun _ => ?_
  refine (Guarded.ask rfl rfl).bind fun _ => ?_
  refine Guarded.interrupted.bind fun _ => ?_
  refine (Guarded.ask rfl rfl).bind fun (backpressured : Bool) => ?_
  refine System.Triple.ite (fun _ => Guarded.pure) fun _ => ?_
  refine listInstallations_guarded.bind fun installations => ?_
  refine Guarded.interrupted.bind fun _ => ?_
  exact System.Triple.forM (K := fun _ => Holding p fun _ => True)
    (fun installation _ => scanInstallation_guarded installation) installations

/-- A scan has not read anything when it is elected. -/
theorem acquireServiceLease_guarded : Guarded settings pop cursors p (perform .acquireServiceLease) :=
  System.Triple.perform (fun _ _ _ _ _ _ => trivial) (fun _ _ _ => trivial) (fun _ _ _ _ _ _ _ _ => trivial)
    fun _ _ _ _ _ _ _ _ => trivial

theorem reconcileOnce_guarded : Guarded settings pop cursors p (reconcileOnce settings) := by
  refine (Guarded.ask rfl rfl).bind fun (stopped : Bool) => ?_
  refine System.Triple.ite (fun _ => Guarded.pure) fun _ => ?_
  refine acquireServiceLease_guarded.bind fun (acquired : Bool) => ?_
  refine System.Triple.ite (fun _ => ?_) fun _ => Guarded.pure
  refine (Guarded.ask rfl rfl).bind fun (stopped : Bool) => ?_
  refine System.Triple.ite (fun _ => Guarded.ask rfl rfl) fun _ => ?_
  refine System.Triple.handle (F := fun _ => Holding p fun _ => True) reconcileOwnedScan_guarded fun x => ?_
  cases x with
  | interrupted => exact Guarded.pure
  | _ => exact Guarded.throw

end

theorem recovery_sound (settings : ReconcilerSettings) (pop : Population) (cursors : Nat → Str) :
    (recovery settings pop).Sound (Recovery.Inv settings pop cursors) (recoveryGuarantee settings pop) where
  perform h hg hp := h.perform hg hp
  env h he := by
    rw [he]
    exact ⟨h.visits, h.cursor, fun id hne => ⟨(h.partially id hne).next, (h.partially id hne).pulls⟩,
      h.completed⟩
  clear h := h
  start hprog h := by
    rw [hprog]
    refine System.wp_mono (fun _ _ _ _ => trivial) h (reconcileOnce_guarded _ h fun _ => trivial)

theorem Recovery.Inv.initial (settings : ReconcilerSettings) (pop : Population) (cursors : Nat → Str) :
    (Recovery.initial cursors).Inv settings pop cursors where
  visits _ := trivial
  cursor _ := rfl
  partially _ h := absurd rfl h
  completed id later event earlier name h := by
    exact absurd h (by simp [Recovery.initial])

/-! ## Scans that nothing interrupts -/

/-- Nothing fails but the listing of a broken repository. -/
def Recovery.reply (pop : Population) (broken : Nat → Repository → Bool) (p : Str) (s : Recovery) :
    (e : ScanEffect) → Option (Except ScanExn e.Answer)
  | .stopped => some (.ok false)
  | .interrupted => some (.ok false)
  | .clock => some (.ok (0 : Nat))
  | .acquireServiceLease => if s.lease = none ∨ s.lease = some p then some (.ok true) else none
  | .query (.providerIsBackpressured _) => some (.ok false)
  | .call (.pruneDeliveries _) => some (.ok (0 : Nat))
  | .call (.pruneSharedHeadEpochs _) => some (.ok (0 : Nat))
  | .call (.pruneReconciliationStates _) => some (.ok (0 : Nat))
  | .call (.enqueueReconciliationIfDue ..) => some (.ok true)
  | .listInstallations => some (.ok [((1 : Nat), false)])
  | .listInstallationRepositories installation_id => some (.ok (pop.repositories installation_id))
  | .listOpenPulls installation_id full_name =>
    some (if broken installation_id full_name then .error .gitHub
      else .ok (pop.pulls installation_id full_name))
  | .getBranchHead .. => some (.ok ("c" : Str))
  | .getFileText .. => some (.ok none)
  | .hasReconciliationCheck .. => some (.ok false)
  | .repositoryCursor installation_id => some (.ok (s.rows installation_id).repository_cursor)
  | .pullCursor installation_id => some (.ok ((s.rows installation_id).pull_cursor_repository,
      (s.rows installation_id).pull_cursor_number))
  | .advancePull .. => some (.ok ())
  | .advanceRepository .. => some (.ok ())
  | _ => none

def commits : (e : ScanEffect) → Except ScanExn e.Answer → Bool
  | .acquireServiceLease, .ok acquired => acquired
  | _, .ok _ => true
  | _, .error _ => false

def Recovery.scan (pop : Population) (broken : Nat → Repository → Bool) (p : Str) (s : Recovery)
    (e : ScanEffect) : Option (Except ScanExn e.Answer × Recovery) :=
  (s.reply pop broken p e).map fun a =>
    (a, (if commits e a then s.committed p e else s).recorded
      ⟨p, commits e a && e.movesCursor && s.lease = some p, e, a⟩)

theorem reply_answers {pop : Population} {broken : Nat → Repository → Bool} {p : Str} {s : Recovery}
    {e : ScanEffect} {a : Except ScanExn e.Answer} (h : s.reply pop broken p e = some a) :
    (∀ x, a = .error x → x.isExternal = true) ∧ ∀ answer, a = .ok answer → s.answers pop p e answer := by
  cases e with
  | listOpenPulls installation_id full_name =>
    have h := Option.some.inj h
    by_cases hb : broken installation_id full_name = true
    · rw [if_pos hb] at h
      subst h
      exact ⟨fun x hx => by cases hx; rfl, nofun⟩
    · rw [if_neg hb] at h
      subst h
      exact ⟨nofun, fun answer ha => by cases ha; exact List.Perm.refl _⟩
  | acquireServiceLease =>
    by_cases hfree : s.lease = none ∨ s.lease = some p
    · have h := Option.some.inj ((if_pos hfree).symm.trans h)
      subst h
      exact ⟨nofun, fun _ _ _ => hfree⟩
    · cases (if_neg hfree).symm.trans h
  | listInstallationRepositories =>
    cases h
    exact ⟨nofun, fun answer ha => by cases ha; exact List.Perm.refl _⟩
  | repositoryCursor | pullCursor =>
    cases h
    exact ⟨nofun, fun answer ha => by cases ha; rfl⟩
  | query q =>
    cases q with
    | providerIsBackpressured =>
      cases h
      exact ⟨nofun, fun _ _ => trivial⟩
    | _ => cases h
  | call c =>
    cases c with
    | pruneDeliveries | pruneSharedHeadEpochs | pruneReconciliationStates | enqueueReconciliationIfDue =>
      cases h
      exact ⟨nofun, fun _ _ => trivial⟩
    | _ => cases h
  | releaseServiceLease => cases h
  | _ =>
    cases h
    exact ⟨nofun, fun _ _ => trivial⟩

theorem mayCommit_commits {e : ScanEffect} (a : Except ScanExn e.Answer) : mayCommit e a (commits e a) := by
  cases e <;> cases a <;> trivial

theorem scan_performs {pop : Population} {broken : Nat → Repository → Bool} {p : Str} (s : Recovery)
    (e : ScanEffect) (a : Except ScanExn e.Answer) (s' : Recovery)
    (h : s.scan pop broken p e = some (a, s')) : scanPerforms pop p s e a s' := by
  obtain ⟨answer, hreply, heq⟩ := Option.map_eq_some_iff.mp h
  obtain ⟨rfl, rfl⟩ := Prod.mk.inj heq
  exact ⟨(reply_answers hreply).1, (reply_answers hreply).2, commits e answer, mayCommit_commits answer, rfl⟩

/-- A worker starts, scans, and stops. -/
theorem scan_runs {settings : ReconcilerSettings} {pop : Population} {p : Str} {s s' : Recovery}
    {r : Except ScanExn Unit} (h : (reconcileOnce settings).Eval (scanPerforms pop p) s r s') :
    (recovery settings pop).Run (System.idle s) (System.idle s') := by
  have hstart : (recovery settings pop).Step (System.idle s)
      ⟨Function.update (fun _ => none) p (some (reconcileOnce settings)), s⟩ := .start p _ s _ rfl rfl
  have hrun := System.run_of_eval (S := recovery settings pop) (p := p) h
    (Function.update (fun _ => none) p (some (reconcileOnce settings))) (Function.update_self ..)
  have hstop := System.Step.stop (S := recovery settings pop) p
    (Function.update (fun _ => none) p (some (.ret r))) s'
  rw [Function.update_idem] at hrun hstop
  rw [Function.update_eq_self] at hstop
  exact (Relation.ReflTransGen.head hstart hrun).tail hstop

/-! ## Resumption -/

/-- In every run between two completions of a repository every other scanned
one is completed exactly once, a completed repository has had all its pull
requests covered since its previous completion, and a worker without the lease
changes neither cursor. -/
theorem reconciliation_resumes (settings : ReconcilerSettings) (pop : Population)
    (cursors : Nat → Str) (c : System.Config Str ScanEffect ScanEffect.Answer ScanExn Recovery)
    (hrun : (recovery settings pop).Run (System.idle (.initial cursors)) c) :
    (∀ id before name mid after,
      (completions id c.state.log).reverse = before ++ name :: (mid ++ name :: after) → name ∉ mid →
        (name :: mid).Perm (pop.names settings id)) ∧
    (∀ id later event earlier name, c.state.log = later ++ event :: earlier →
      event.completed id = some name → ∀ pull ∈ (pop.pulls id ⟨name⟩).pulls,
        Covered (since id name earlier) id ⟨name⟩ pull) ∧
    ∀ p e a s', c.state.lease ≠ some p → scanPerforms pop p c.state e a s' →
      s'.rows = c.state.rows := by
  have hinv : c.state.Inv settings pop cursors :=
    System.Run.inv (recovery_sound settings pop cursors) (Recovery.Inv.initial settings pop cursors) hrun
  refine ⟨?_, ?_, ?_⟩
  · intro id before name mid after hsplit hmid
    have hvisits := hinv.visits id
    rw [hsplit] at hvisits
    exact Visits.once_between (names_sorted settings pop id) hvisits hmid
  · intro id later event earlier name hlog hc pull hp
    exact hinv.completed id later event earlier name hlog hc ⟨name⟩ rfl pull hp
  · intro p e a s' hl hperf
    rcases hperf.cases with ⟨hrows, -⟩ | ⟨-, hlease, -⟩
    · exact hrows
    · exact absurd hlease hl

def sampleReconciler : ReconcilerSettings := ⟨"p", 30, 3600, 86400⟩

/-- Two repositories, with one open pull request in the second. -/
def samplePopulation : Population where
  repositories _ := ⟨[(⟨"o/a"⟩, false), (⟨"o/b"⟩, false)], by decide, by decide, by decide⟩
  pulls _ full_name :=
    if full_name = ⟨"o/b"⟩ then ⟨[⟨1, ⟨List.replicate 40 'a', isHeadSha_replicate⟩, none⟩], by decide, by decide⟩
    else ⟨[], nofun, List.nodup_nil⟩

def sampleNextScan (broken : Nat → Repository → Bool) (s : Recovery) : Recovery :=
  match (reconcileOnce sampleReconciler).exec (Recovery.scan samplePopulation broken "w") s with
  | none => s
  | some (_, s') => s'

def sampleScans (broken : Nat → Repository → Bool) : Nat → Recovery
  | 0 => .initial fun _ => []
  | n + 1 => sampleNextScan broken (sampleScans broken n)

theorem sampleScans_run (n : Nat) :
    (recovery sampleReconciler samplePopulation).Run (System.idle (.initial fun _ => []))
      (System.idle (sampleScans (fun _ _ => false) n)) := by
  induction n with
  | zero => exact .refl
  | succ n ih =>
    rw [sampleScans, sampleNextScan]
    split
    · exact ih
    · exact ih.trans (scan_runs (Prog.exec_eval scan_performs ‹_›))

/-- Two scans complete both repositories twice. -/
theorem sampleScans_resume :
    (completions 1 (sampleScans (fun _ _ => false) 2).log).reverse =
        [("o/a" : Str), "o/b", "o/a", "o/b"] ∧
      (("o/a" : Str) :: ["o/b"]).Perm (samplePopulation.names sampleReconciler 1) := by
  have hlog : (completions 1 (sampleScans (fun _ _ => false) 2).log).reverse =
      [("o/a" : Str), "o/b", "o/a", "o/b"] := by decide
  refine ⟨hlog, ?_⟩
  exact (reconciliation_resumes sampleReconciler samplePopulation _ _ (sampleScans_run 2)).1 1 [] "o/a"
    ["o/b"] ["o/b"] hlog (by decide)

end ExtraCodeowners
