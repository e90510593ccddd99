import ExtraCodeowners.AuthorityCoverage
import ExtraCodeowners.Lib.GroupBy
import Mathlib.Data.List.Lex
import Mathlib.Data.Prod.Lex

/-!
# The authority cursor migration

Revision `0010_authority_discovery_cursor` gives each row of `authority_jobs`
its cursor columns and folds the branch rows of a repository into one row. Old
workers are drained, so nothing else writes while it runs.
-/

namespace ExtraCodeowners

/-! ## Rows -/

/-- A row before the upgrade; `state` is any text. -/
structure LegacyAuthorityJob where
  installation_id : Nat
  scope_key : ScopeKey
  base_ref : Str
  reason : Str
  generation : Nat
  state : Str
  attempts : Nat
  requested_at : Time
  available_at : Time
  lease_owner : Option Str
  lease_until : Option Time
  last_error : Option Str

/-- A row with the columns that the revision adds. -/
structure UpgradedAuthorityJob extends LegacyAuthorityJob where
  membership_next_page : Nat
  membership_expected_total : Option Nat
  pull_cursor_number : Nat
  handled_pull_fingerprints : Dict Str Str
  listing_next_page : Nat
  listing_last_number : Nat
  interactive_wake_generation : Nat
  pending_base_refs : Dict Str Str
  target_base_refs : Dict Str Str
  pending_full_rescan : Bool
  pending_rescan_reason : Option Str
  listing_expected_total : Option Nat

/-- The row as the queue reads it: work that is not pending is done with. -/
def UpgradedAuthorityJob.job (row : UpgradedAuthorityJob) : AuthorityJob where
  installation_id := row.installation_id
  scope_key := row.scope_key
  base_ref := row.base_ref
  reason := row.reason
  generation := row.generation
  pull_cursor_number := row.pull_cursor_number
  handled_pull_fingerprints := row.handled_pull_fingerprints
  listing_next_page := row.listing_next_page
  listing_last_number := row.listing_last_number
  listing_expected_total := row.listing_expected_total
  membership_next_page := row.membership_next_page
  membership_expected_total := row.membership_expected_total
  target_base_refs := row.target_base_refs
  interactive_wake_generation := row.interactive_wake_generation
  pending_base_refs := row.pending_base_refs
  pending_full_rescan := row.pending_full_rescan
  pending_rescan_reason := row.pending_rescan_reason
  state := if row.state = ("pending" : Str) then .pending else .dead
  attempts := row.attempts
  requested_at := row.requested_at
  available_at := row.available_at
  lease_owner := row.lease_owner
  lease_until := row.lease_until
  last_error := row.last_error

/-! ## The upgrade -/

/-- The added columns and their first values. -/
def LegacyAuthorityJob.addColumns (row : LegacyAuthorityJob) : UpgradedAuthorityJob where
  toLegacyAuthorityJob := row
  membership_next_page := 1
  membership_expected_total := none
  pull_cursor_number := 0
  handled_pull_fingerprints := ∅
  listing_next_page := 1
  listing_last_number := 0
  interactive_wake_generation := 0
  pending_base_refs := ∅
  target_base_refs := ∅
  pending_full_rescan := false
  pending_rescan_reason := none
  listing_expected_total := none

/-- A selected row with its id. -/
abbrev JobRow := Nat × UpgradedAuthorityJob

def scopeText : ScopeKey → Str
  | .all => ['*']
  | .repository name => name.full_name

/-- `(row["installation_id"], row["scope_key"])` -/
def groupKey (row : JobRow) : ℕ ×ₗ Str := toLex (row.2.installation_id, scopeText row.2.scope_key)

/-- `order_by(installation_id, scope_key, id)` -/
def orderKey (row : JobRow) : (ℕ ×ₗ Str) ×ₗ ℕ := toLex (groupKey row, row.1)

def selectedRows (jobs : Dict Nat UpgradedAuthorityJob) : List JobRow :=
  (jobs.entries.filter fun row => row.2.scope_key ≠ .all).insertionSort
    fun a b => orderKey a ≤ orderKey b

/-- `{row["base_ref"]: row["reason"] ...}` -/
def branchReasons (pending : List JobRow) : Dict Str Str :=
  (pending.filter fun row => row.2.base_ref ≠ []).foldl
    (fun targets row => targets.set row.2.base_ref row.2.reason) ∅

def foldedTargets (pending : List JobRow) (broad : Bool) : Dict Str Str :=
  let targets := branchReasons pending
  if broad ∨ 100 < targets.entries.length ∨ ∃ ref ∈ targets.keys, 255 < ref.length then ∅ else targets

/-- The values written to the retained row. -/
def foldedRow (pending : List JobRow) (broad : Bool) (retained : UpgradedAuthorityJob) :
    UpgradedAuthorityJob :=
  let row := { retained with
    base_ref := []
    target_base_refs := foldedTargets pending broad }
  if 1 < pending.length then
    { row with
      generation := (pending.map fun row => row.2.generation).foldl max 0 + 1
      state :=
        if ∃ row ∈ pending, row.2.state = ("pending" : Str) ∨ row.2.state = ("in_progress" : Str) then
          ("pending" : Str)
        else retained.state
      attempts := 0
      requested_at := (pending.map fun row => row.2.requested_at).foldl min retained.requested_at
      available_at := (pending.map fun row => row.2.available_at).foldl min retained.available_at
      lease_owner := none
      lease_until := none
      last_error := none }
  else row

/-- The body of the loop over the groups. -/
def consolidate (jobs : Dict Nat UpgradedAuthorityJob) (pending : List JobRow) :
    Dict Nat UpgradedAuthorityJob :=
  let broad := pending.find? fun row => row.2.base_ref = []
  match broad.or pending.head? with
  | none => jobs
  | some retained =>
    if pending.length = 1 ∧ broad.isSome then jobs
    else
      let removed_ids := (pending.map Prod.fst).filter (· ≠ retained.1)
      (jobs.deleteWhere fun id _ => id ∈ removed_ids).updateWhere (fun id _ => id = retained.1)
        (foldedRow pending broad.isSome)

def addAllColumns (jobs : Dict Nat LegacyAuthorityJob) : Dict Nat UpgradedAuthorityJob where
  entries := jobs.entries.map fun row => (row.1, row.2.addColumns)
  nodup := by
    rw [List.map_map]
    exact jobs.nodup

def pendingGroups (jobs : Dict Nat UpgradedAuthorityJob) : List (List JobRow) :=
  groupby groupKey (selectedRows jobs)

def upgrade (jobs : Dict Nat LegacyAuthorityJob) : Dict Nat UpgradedAuthorityJob :=
  (pendingGroups (addAllColumns jobs)).foldl consolidate (addAllColumns jobs)

/-- The table as the queue reads it. -/
def readJobs (jobs : Dict Nat UpgradedAuthorityJob) : Dict Nat AuthorityJob where
  entries := jobs.entries.map fun row => (row.1, row.2.job)
  nodup := by
    rw [List.map_map]
    exact jobs.nodup

/-- What an old row covers: its branch, or every branch without one. -/
def LegacyAuthorityJob.covers (row : LegacyAuthorityJob) (ref : Option Str) : Prop :=
  row.base_ref = [] ∨ ref = some row.base_ref

/-! ## One group -/

theorem retained_mem {pending : List JobRow} {retained : JobRow}
    (h : (pending.find? fun row => row.2.base_ref = []).or pending.head? = some retained) :
    retained ∈ pending := by
  rcases Option.or_eq_some_iff.mp h with hb | ⟨-, hh⟩
  · exact List.mem_of_find?_eq_some hb
  · exact List.mem_of_mem_head? hh

/-- A group changes nothing outside of it. -/
theorem consolidate_frame {jobs : Dict Nat UpgradedAuthorityJob} {pending : List JobRow} {id : Nat}
    (h : id ∉ pending.map Prod.fst) : (consolidate jobs pending).get? id = jobs.get? id := by
  unfold consolidate
  simp only
  cases hr : (pending.find? fun row => row.2.base_ref = []).or pending.head? with
  | none => rfl
  | some retained =>
    simp only
    split
    · rfl
    · have hne : id ≠ retained.1 := fun e => h (e ▸ List.mem_map_of_mem (retained_mem hr))
      have hnot : id ∉ (pending.map Prod.fst).filter (· ≠ retained.1) :=
        fun hm => h (List.mem_of_mem_filter hm)
      rw [Dict.get?_updateWhere, Dict.get?_deleteWhere, decide_eq_false hnot, decide_eq_false hne]
      cases jobs.get? id <;> rfl

/-- What becomes of a row depends on no other row. -/
theorem consolidate_local {jobs jobs' : Dict Nat UpgradedAuthorityJob} (pending : List JobRow) {id : Nat}
    (h : jobs.get? id = jobs'.get? id) :
    (consolidate jobs pending).get? id = (consolidate jobs' pending).get? id := by
  unfold consolidate
  simp only
  cases (pending.find? fun row => row.2.base_ref = []).or pending.head? with
  | none => exact h
  | some retained =>
    simp only
    split
    · exact h
    · simp only [Dict.get?_updateWhere, Dict.get?_deleteWhere, h]

/-! ## The folded row -/

theorem mem_branchReasons {pending : List JobRow} {ref : Str} :
    ref ∈ (branchReasons pending).keys ↔ ref ≠ [] ∧ ∃ row ∈ pending, row.2.base_ref = ref := by
  have general : ∀ (rows : List JobRow) (targets : Dict Str Str),
      ref ∈ (rows.foldl (fun targets row => targets.set row.2.base_ref row.2.reason) targets).keys ↔
        ref ∈ targets.keys ∨ ∃ row ∈ rows, row.2.base_ref = ref := by
    intro rows
    induction rows with
    | nil => simp
    | cons row rows ih =>
      intro targets
      rw [List.foldl_cons, ih, Dict.mem_keys_set]
      simp only [List.exists_mem_cons_iff]
      constructor
      · intro h
        rcases h with (h | h) | h
        · exact .inr (.inl h.symm)
        · exact .inl h
        · exact .inr (.inr h)
      · intro h
        rcases h with h | h | h
        · exact .inl (.inr h)
        · exact .inl (.inl h.symm)
        · exact .inr h
  rw [branchReasons, general]
  constructor
  · intro h
    rcases h with h | ⟨row, hr, rfl⟩
    · cases h
    · obtain ⟨hr, hne⟩ := List.mem_filter.mp hr
      exact ⟨by simpa using hne, row, hr, rfl⟩
  · intro ⟨hne, row, hr, he⟩
    exact .inr ⟨row, List.mem_filter.mpr ⟨hr, by simpa [he] using hne⟩, he⟩

/-- The folded row covers what each row of the group covered. -/
theorem foldedTargets_cover {pending : List JobRow} {broad : Bool}
    (hb : ∀ row ∈ pending, row.2.base_ref = [] → broad = true) {row : JobRow} (hr : row ∈ pending)
    {ref : Option Str} (h : row.2.covers ref) : coversRef (foldedTargets pending broad) ref = true := by
  unfold foldedTargets
  simp only
  split
  · exact coversRef_empty ref
  · rename_i hnot
    simp only [not_or, Bool.not_eq_true] at hnot
    have hne : row.2.base_ref ≠ [] := fun e => by simp [hb row hr e] at hnot
    rcases h with h | rfl
    · exact absurd h hne
    · have hm : row.2.base_ref ∈ (branchReasons pending).keys := mem_branchReasons.mpr ⟨hne, row, hr, rfl⟩
      simp [coversRef, hm]

theorem le_foldl_max {α : Type} (f : α → Nat) (l : List α) (n : Nat) :
    n ≤ (l.map f).foldl max n ∧ ∀ a ∈ l, f a ≤ (l.map f).foldl max n := by
  induction l generalizing n with
  | nil => simp
  | cons b l ih =>
    obtain ⟨h₁, h₂⟩ := ih (max n (f b))
    rw [List.map_cons, List.foldl_cons]
    refine ⟨by omega, fun a ha => ?_⟩
    rcases List.mem_cons.mp ha with rfl | ha
    · omega
    · exact h₂ a ha

theorem foldl_min_le {α : Type} (f : α → Nat) (l : List α) (n : Nat) :
    (l.map f).foldl min n ≤ n ∧ ∀ a ∈ l, (l.map f).foldl min n ≤ f a := by
  induction l generalizing n with
  | nil => simp
  | cons b l ih =>
    obtain ⟨h₁, h₂⟩ := ih (min n (f b))
    rw [List.map_cons, List.foldl_cons]
    refine ⟨by omega, fun a ha => ?_⟩
    rcases List.mem_cons.mp ha with rfl | ha
    · omega
    · exact h₂ a ha

/-- The row that stands for the old rows of one repository. -/
structure Stands (old : List LegacyAuthorityJob) (row : UpgradedAuthorityJob) : Prop where
  base_ref : row.base_ref = []
  alone : ∀ job, old = [job] → row.state = job.state ∧ row.generation = job.generation ∧
    row.lease_owner = job.lease_owner ∧ row.available_at = job.available_at
  covers : ∀ job ∈ old, ∀ ref, job.covers ref → coversRef row.target_base_refs ref = true
  generation : 1 < old.length → ∀ job ∈ old, job.generation < row.generation
  lease : 1 < old.length → row.lease_owner = none ∧ row.lease_until = none
  state : 1 < old.length → (∃ job ∈ old, job.state = ("pending" : Str) ∨ job.state = ("in_progress" : Str)) →
    row.state = ("pending" : Str)
  available_at : 1 < old.length → ∀ job ∈ old, row.available_at ≤ job.available_at

theorem foldedRow_stands {pending : List JobRow} {broad : Bool}
    (hb : ∀ row ∈ pending, row.2.base_ref = [] → broad = true) {retained : JobRow}
    (hr : retained ∈ pending) :
    Stands (pending.map fun row => row.2.toLegacyAuthorityJob) (foldedRow pending broad retained.2) := by
  have hcovers : ∀ job ∈ pending.map (fun row => row.2.toLegacyAuthorityJob), ∀ ref, job.covers ref →
      coversRef (foldedTargets pending broad) ref = true := by
    intro job hjob ref href
    obtain ⟨row, hr, rfl⟩ := List.mem_map.mp hjob
    exact foldedTargets_cover hb hr href
  by_cases hmany : 1 < pending.length
  · unfold foldedRow
    simp only [hmany, if_true]
    refine ⟨rfl, fun job he => ?_, hcovers, fun _ => ?_, fun _ => ⟨rfl, rfl⟩, fun _ h => ?_, fun _ => ?_⟩
    · have := congrArg List.length he
      simp only [List.length_map, List.length_singleton] at this
      omega
    · intro job hjob
      obtain ⟨row, hr, rfl⟩ := List.mem_map.mp hjob
      exact Nat.lt_succ_of_le ((le_foldl_max (fun row : JobRow => row.2.generation) pending 0).2 row hr)
    · obtain ⟨job, hjob, hs⟩ := h
      obtain ⟨row, hr, rfl⟩ := List.mem_map.mp hjob
      exact if_pos ⟨row, hr, hs⟩
    · intro job hjob
      obtain ⟨row, hr, rfl⟩ := List.mem_map.mp hjob
      exact (foldl_min_le (fun row : JobRow => row.2.available_at) pending retained.2.available_at).2 row hr
  · unfold foldedRow
    simp only [hmany, if_false]
    have hfew : ¬ 1 < (pending.map fun row => row.2.toLegacyAuthorityJob).length := by simpa using hmany
    refine ⟨rfl, fun job he => ?_, hcovers, fun h => absurd h hfew, fun h => absurd h hfew,
      fun h => absurd h hfew, fun h => absurd h hfew⟩
    have hjob : retained.2.toLegacyAuthorityJob = job := by
      have := List.mem_map_of_mem (f := fun row : JobRow => row.2.toLegacyAuthorityJob) hr
      rw [he] at this
      exact List.mem_singleton.mp this
    subst hjob
    exact ⟨rfl, rfl, rfl, rfl⟩

theorem Stands.perm {old old' : List LegacyAuthorityJob} {row : UpgradedAuthorityJob} (h : Stands old row)
    (hp : old.Perm old') : Stands old' row where
  base_ref := h.base_ref
  alone job he := h.alone job (List.perm_singleton.mp (he ▸ hp))
  covers job hj := h.covers job (hp.mem_iff.mpr hj)
  generation hl job hj := h.generation (hp.length_eq ▸ hl) job (hp.mem_iff.mpr hj)
  lease hl := h.lease (hp.length_eq ▸ hl)
  state hl := by
    intro ⟨job, hj, hs⟩
    exact h.state (hp.length_eq ▸ hl) ⟨job, hp.mem_iff.mpr hj, hs⟩
  available_at hl job hj := h.available_at (hp.length_eq ▸ hl) job (hp.mem_iff.mpr hj)

/-- After its group one row of a repository is left, and it stands for them all. -/
theorem consolidate_group {jobs : Dict Nat UpgradedAuthorityJob} {pending : List JobRow}
    (hne : pending ≠ []) (hin : ∀ row ∈ pending, jobs.get? row.1 = some row.2)
    (hempty : ∀ row ∈ pending, row.2.target_base_refs = ∅) :
    ∃ retained ∈ pending, ∃ row, (consolidate jobs pending).get? retained.1 = some row ∧
      (row.installation_id, row.scope_key) = (retained.2.installation_id, retained.2.scope_key) ∧
      Stands (pending.map fun row => row.2.toLegacyAuthorityJob) row ∧
      ∀ other ∈ pending, other.1 ≠ retained.1 → (consolidate jobs pending).get? other.1 = none := by
  obtain ⟨retained, hr⟩ : ∃ retained,
      (pending.find? fun row => row.2.base_ref = []).or pending.head? = some retained := by
    cases hb : pending.find? fun row => row.2.base_ref = [] with
    | some broad => exact ⟨broad, rfl⟩
    | none =>
      obtain ⟨first, rest, rfl⟩ := List.exists_cons_of_ne_nil hne
      exact ⟨first, rfl⟩
  have hmem := retained_mem hr
  have hbroad : ∀ row ∈ pending, row.2.base_ref = [] →
      (pending.find? fun row => row.2.base_ref = []).isSome = true := by
    intro row hrow he
    rw [List.find?_isSome]
    exact ⟨row, hrow, by simpa using he⟩
  refine ⟨retained, hmem, ?_⟩
  unfold consolidate
  simp only [hr]
  by_cases hkept : pending.length = 1 ∧ (pending.find? fun row => row.2.base_ref = []).isSome = true
  · rw [if_pos hkept]
    obtain ⟨only, honly⟩ := List.length_eq_one_iff.mp hkept.1
    subst honly
    obtain rfl := List.mem_singleton.mp hmem
    have hbase : retained.2.base_ref = [] := by
      obtain ⟨row, hrow, he⟩ := List.find?_isSome.mp hkept.2
      rw [List.mem_singleton.mp hrow] at he
      simpa using he
    have hall : ∀ ref, coversRef retained.2.target_base_refs ref = true := by
      intro ref
      rw [hempty retained (by simp)]
      exact coversRef_empty ref
    refine ⟨retained.2, hin retained (by simp), rfl, ?_, ?_⟩
    · refine ⟨hbase, fun job he => ?_, fun _ _ ref _ => hall ref, by simp, by simp, by simp, by simp⟩
      obtain rfl : retained.2.toLegacyAuthorityJob = job := by simpa using he
      exact ⟨rfl, rfl, rfl, rfl⟩
    · intro other ho hother
      exact absurd (congrArg Prod.fst (List.mem_singleton.mp ho)) hother
  · rw [if_neg hkept]
    refine ⟨foldedRow pending (pending.find? fun row => row.2.base_ref = []).isSome retained.2, ?_, ?_,
      foldedRow_stands hbroad hmem, ?_⟩
    · rw [Dict.get?_updateWhere, Dict.get?_deleteWhere, hin retained hmem]
      simp [Option.filter]
    · unfold foldedRow
      by_cases hmany : 1 < pending.length
      · simp only [hmany, if_true]
      · simp only [hmany, if_false]
    · intro other ho hother
      have hremoved : other.1 ∈ (pending.map Prod.fst).filter (· ≠ retained.1) :=
        List.mem_filter.mpr ⟨List.mem_map_of_mem ho, by simpa using hother⟩
      rw [Dict.get?_updateWhere, Dict.get?_deleteWhere, hin other ho, decide_eq_true hremoved]
      rfl

/-! ## All groups -/

theorem foldl_frame {groups : List (List JobRow)} {jobs : Dict Nat UpgradedAuthorityJob} {id : Nat}
    (h : ∀ group ∈ groups, id ∉ group.map Prod.fst) :
    (groups.foldl consolidate jobs).get? id = jobs.get? id := by
  induction groups generalizing jobs with
  | nil => rfl
  | cons group groups ih =>
    rw [List.foldl_cons, ih fun g hg => h g (List.mem_cons_of_mem _ hg)]
    exact consolidate_frame (h group (by simp))

/-- The rows of a group end as that group alone leaves them. -/
theorem foldl_group {groups : List (List JobRow)} {jobs : Dict Nat UpgradedAuthorityJob}
    (hdisjoint : groups.Pairwise fun g h => ∀ id ∈ g.map Prod.fst, id ∉ h.map Prod.fst)
    {group : List JobRow} (hg : group ∈ groups) {id : Nat} (hid : id ∈ group.map Prod.fst) :
    (groups.foldl consolidate jobs).get? id = (consolidate jobs group).get? id := by
  induction groups generalizing jobs with
  | nil => cases hg
  | cons first groups ih =>
    obtain ⟨hfirst, hrest⟩ := List.pairwise_cons.mp hdisjoint
    rw [List.foldl_cons]
    rcases List.mem_cons.mp hg with rfl | hg
    · exact foldl_frame fun g hg' => hfirst g hg' id hid
    · rw [ih hrest hg]
      have hnot : id ∉ first.map Prod.fst := fun hm => hfirst group hg id hm hid
      exact consolidate_local group (consolidate_frame hnot)

section
variable {jobs : Dict Nat UpgradedAuthorityJob}

theorem mem_selectedRows {row : JobRow} :
    row ∈ selectedRows jobs ↔ jobs.get? row.1 = some row.2 ∧ row.2.scope_key ≠ .all := by
  rw [selectedRows, List.mem_insertionSort, List.mem_filter, Dict.get?_eq_some]
  simp

theorem selectedRows_sorted :
    (selectedRows jobs).Pairwise fun a b => groupKey a ≤ groupKey b := by
  have _ : Std.Total fun a b : JobRow => orderKey a ≤ orderKey b := ⟨fun a b => le_total _ _⟩
  have _ : IsTrans JobRow fun a b => orderKey a ≤ orderKey b := ⟨fun a b c => le_trans⟩
  have hsorted := List.pairwise_insertionSort (fun a b : JobRow => orderKey a ≤ orderKey b)
    (jobs.entries.filter fun row => row.2.scope_key ≠ .all)
  refine hsorted.imp fun {a b} h => ?_
  rcases Prod.Lex.toLex_le_toLex.mp h with h | h
  · exact h.le
  · exact h.1.le

theorem groupKey_eq {a b : JobRow} (ha : a.2.scope_key ≠ .all) (hb : b.2.scope_key ≠ .all) :
    groupKey a = groupKey b ↔
      a.2.installation_id = b.2.installation_id ∧ a.2.scope_key = b.2.scope_key := by
  have hscope : scopeText a.2.scope_key = scopeText b.2.scope_key ↔ a.2.scope_key = b.2.scope_key := by
    cases hsa : a.2.scope_key with
    | all => exact absurd hsa ha
    | repository r =>
      cases hsb : b.2.scope_key with
      | all => exact absurd hsb hb
      | repository r' =>
        cases r
        cases r'
        simp [scopeText]
  rw [groupKey, groupKey, toLex_inj, Prod.mk.injEq, hscope]

theorem mem_of_group {group : List JobRow} (hg : group ∈ pendingGroups jobs) {row : JobRow}
    (hr : row ∈ group) : jobs.get? row.1 = some row.2 ∧ row.2.scope_key ≠ .all := by
  refine mem_selectedRows.mp ?_
  have hflatten : (pendingGroups jobs).flatten = selectedRows jobs := flatten_groupby
  rw [← hflatten]
  exact List.mem_flatten_of_mem hg hr

/-- The group of a row: the rows of its repository. -/
theorem group_of_row {id : Nat} {row : UpgradedAuthorityJob} (h : jobs.get? id = some row)
    (hs : row.scope_key ≠ .all) : ∃ group ∈ pendingGroups jobs, (id, row) ∈ group ∧
      ∀ other, other ∈ group ↔ jobs.get? other.1 = some other.2 ∧
        other.2.installation_id = row.installation_id ∧ other.2.scope_key = row.scope_key := by
  have hsel : (id, row) ∈ selectedRows jobs := mem_selectedRows.mpr ⟨h, hs⟩
  obtain ⟨group, hg, hr⟩ : ∃ group ∈ pendingGroups jobs, (id, row) ∈ group := exists_group hsel
  refine ⟨group, hg, hr, ?_⟩
  intro other
  constructor
  · intro ho
    obtain ⟨hget, hscope⟩ := mem_of_group hg ho
    exact ⟨hget, (groupKey_eq hscope hs).mp (same_key hg ho hr)⟩
  · intro ⟨hget, hi, hscope⟩
    have hall : other.2.scope_key ≠ .all := by rw [hscope]; exact hs
    exact mem_group selectedRows_sorted hg hr (mem_selectedRows.mpr ⟨hget, hall⟩)
      ((groupKey_eq hall hs).mpr ⟨hi, hscope⟩)

theorem groups_disjoint :
    (pendingGroups jobs).Pairwise fun g h => ∀ id ∈ g.map Prod.fst, id ∉ h.map Prod.fst := by
  have hkeys : (pendingGroups jobs).Pairwise fun g h => ∀ a ∈ g, ∀ b ∈ h, groupKey a < groupKey b :=
    groupby_pairwise selectedRows_sorted
  refine List.Pairwise.imp_of_mem ?_ hkeys
  intro g h hg hh hlt id hid hid'
  obtain ⟨a, ha, rfl⟩ := List.mem_map.mp hid
  obtain ⟨b, hb, he⟩ := List.mem_map.mp hid'
  have hget := (mem_of_group hg ha).1
  rw [← he, (mem_of_group hh hb).1] at hget
  have hab : b = a := Prod.ext he (Option.some.inj hget)
  exact absurd (hlt a ha b hb) (by rw [hab]; exact lt_irrefl _)

end

/-! ## The upgraded table -/

section
variable {old : Dict Nat LegacyAuthorityJob}

theorem get?_addAllColumns {id : Nat} :
    (addAllColumns old).get? id = (old.get? id).map LegacyAuthorityJob.addColumns := by
  unfold addAllColumns Dict.get?
  rw [List.find?_map, Option.map_map, Option.map_map]
  rfl

theorem get?_readJobs {jobs : Dict Nat UpgradedAuthorityJob} {id : Nat} :
    (readJobs jobs).get? id = (jobs.get? id).map UpgradedAuthorityJob.job := by
  unfold readJobs Dict.get?
  rw [List.find?_map, Option.map_map, Option.map_map]
  rfl

/-- The old rows of one repository. -/
def rowsOf (old : Dict Nat LegacyAuthorityJob) (installation_id : Nat) (repository : Repository) :
    List (Nat × LegacyAuthorityJob) :=
  old.entries.filter fun row => row.2.installation_id = installation_id &&
    row.2.scope_key = .repository repository

theorem mem_rowsOf {installation_id : Nat} {repository : Repository} {row : Nat × LegacyAuthorityJob} :
    row ∈ rowsOf old installation_id repository ↔ old.get? row.1 = some row.2 ∧
      row.2.installation_id = installation_id ∧ row.2.scope_key = .repository repository := by
  rw [rowsOf, List.mem_filter, Dict.get?_eq_some]
  simp

theorem nodup_of_map_fst {α β : Type} {l : List (α × β)} (h : (l.map Prod.fst).Nodup) : l.Nodup :=
  List.Nodup.of_map _ h

/-- The group of a repository holds its old rows with the added columns. -/
theorem group_perm {installation_id : Nat} {repository : Repository} {group : List JobRow}
    (hg : group ∈ pendingGroups (addAllColumns old))
    (hmem : ∀ row, row ∈ group ↔ (addAllColumns old).get? row.1 = some row.2 ∧
      row.2.installation_id = installation_id ∧ row.2.scope_key = .repository repository) :
    group.Perm ((rowsOf old installation_id repository).map fun row => (row.1, row.2.addColumns)) := by
  have hnodup : group.Nodup := by
    have hall : (selectedRows (addAllColumns old)).Nodup :=
      (List.perm_insertionSort _ _).nodup_iff.mpr
        ((nodup_of_map_fst (addAllColumns old).nodup).sublist List.filter_sublist)
    refine hall.sublist ?_
    have hflatten : (pendingGroups (addAllColumns old)).flatten = selectedRows (addAllColumns old) :=
      flatten_groupby
    rw [← hflatten]
    exact List.sublist_flatten_of_mem hg
  have hnodup' : ((rowsOf old installation_id repository).map
      fun row => (row.1, row.2.addColumns)).Nodup := by
    refine nodup_of_map_fst ?_
    rw [List.map_map]
    exact old.nodup.sublist (List.filter_sublist.map _)
  rw [List.perm_ext_iff_of_nodup hnodup hnodup']
  intro row
  rw [hmem, get?_addAllColumns, List.mem_map]
  constructor
  · intro ⟨hget, hi, hs⟩
    obtain ⟨job, hjob, he⟩ := Option.map_eq_some_iff.mp hget
    refine ⟨(row.1, job), mem_rowsOf.mpr ⟨hjob, ?_⟩, Prod.ext rfl he⟩
    rw [← he] at hi hs
    exact ⟨hi, hs⟩
  · intro ⟨job, hjob, he⟩
    obtain ⟨hget, hi, hs⟩ := mem_rowsOf.mp hjob
    rw [← he]
    exact ⟨by rw [hget]; rfl, hi, hs⟩

/-- An installation-wide row only gets its columns. -/
theorem upgrade_all {id : Nat} {row : LegacyAuthorityJob} (h : old.get? id = some row)
    (hs : row.scope_key = .all) : (upgrade old).get? id = some row.addColumns := by
  rw [upgrade, foldl_frame, get?_addAllColumns, h]
  · rfl
  · intro group hg hid
    obtain ⟨other, ho, he⟩ := List.mem_map.mp hid
    obtain ⟨hget, hscope⟩ := mem_of_group hg ho
    rw [he, get?_addAllColumns, h] at hget
    rw [← Option.some.inj hget] at hscope
    exact hscope hs

/-- A repository with rows keeps one, and it stands for them all. -/
theorem upgrade_repository {installation_id : Nat} {repository : Repository}
    (h : rowsOf old installation_id repository ≠ []) :
    ∃ id row, (upgrade old).get? id = some row ∧ row.installation_id = installation_id ∧
      row.scope_key = .repository repository ∧ id ∈ (rowsOf old installation_id repository).map Prod.fst ∧
      Stands ((rowsOf old installation_id repository).map Prod.snd) row ∧
      ∀ other ∈ rowsOf old installation_id repository, other.1 ≠ id → (upgrade old).get? other.1 = none := by
  obtain ⟨first, rest, hfirst⟩ := List.exists_cons_of_ne_nil h
  obtain ⟨hget, hi, hs⟩ := mem_rowsOf.mp (show first ∈ rowsOf old installation_id repository by simp [hfirst])
  have hadded : (addAllColumns old).get? first.1 = some first.2.addColumns := by
    rw [get?_addAllColumns, hget]
    rfl
  obtain ⟨group, hg, hr, hmem⟩ := group_of_row hadded (by change first.2.scope_key ≠ .all; simp [hs])
  have hmem' : ∀ row, row ∈ group ↔ (addAllColumns old).get? row.1 = some row.2 ∧
      row.2.installation_id = installation_id ∧ row.2.scope_key = .repository repository := by
    intro row
    rw [hmem, ← hi, ← hs]
    rfl
  have hperm := group_perm hg hmem'
  have hempty : ∀ row ∈ group, row.2.target_base_refs = ∅ := by
    intro row hrow
    obtain ⟨job, -, he⟩ := List.mem_map.mp (hperm.mem_iff.mp hrow)
    rw [← he]
    rfl
  obtain ⟨retained, hretained, row, hrow, hkey, hstands, hothers⟩ := consolidate_group
    (ne_nil_of_mem_groupby hg) (fun row hrow => (hmem' row |>.mp hrow).1) hempty
  have hfold : ∀ other ∈ group, (upgrade old).get? other.1 =
      (consolidate (addAllColumns old) group).get? other.1 :=
    fun other ho => foldl_group groups_disjoint hg (List.mem_map_of_mem ho)
  have hids : (group.map Prod.fst).Perm ((rowsOf old installation_id repository).map Prod.fst) := by
    have := hperm.map Prod.fst
    rwa [List.map_map] at this
  have hrows : (group.map fun row => row.2.toLegacyAuthorityJob).Perm
      ((rowsOf old installation_id repository).map Prod.snd) := by
    have := hperm.map fun row : JobRow => row.2.toLegacyAuthorityJob
    rwa [List.map_map] at this
  obtain ⟨-, hri, hrs⟩ := (hmem' retained).mp hretained
  refine ⟨retained.1, row, (hfold retained hretained).trans hrow, ?_, ?_,
    hids.mem_iff.mp (List.mem_map_of_mem hretained), hstands.perm hrows, ?_⟩
  · rw [(Prod.mk.inj hkey).1, hri]
  · rw [(Prod.mk.inj hkey).2, hrs]
  · intro other ho hne
    have hog : (other.1, other.2.addColumns) ∈ group :=
      hperm.mem_iff.mpr (List.mem_map_of_mem (f := fun row => (row.1, row.2.addColumns)) ho)
    exact (hfold _ hog).trans (hothers _ hog hne)

/-- Every row afterwards was there before, with its scope. -/
theorem upgrade_scope {id : Nat} {row : UpgradedAuthorityJob} (h : (upgrade old).get? id = some row) :
    ∃ job, old.get? id = some job ∧ row.installation_id = job.installation_id ∧
      row.scope_key = job.scope_key := by
  cases hold : old.get? id with
  | none =>
    rw [upgrade, foldl_frame, get?_addAllColumns, hold] at h
    · cases h
    · intro group hg hid
      obtain ⟨other, ho, he⟩ := List.mem_map.mp hid
      have hget := (mem_of_group hg ho).1
      rw [he, get?_addAllColumns, hold] at hget
      cases hget
  | some job =>
    refine ⟨job, rfl, ?_⟩
    cases hs : job.scope_key with
    | all =>
      rw [upgrade_all hold hs] at h
      cases h
      exact ⟨rfl, hs⟩
    | repository repository =>
      have hmem : (id, job) ∈ rowsOf old job.installation_id repository := mem_rowsOf.mpr ⟨hold, rfl, hs⟩
      obtain ⟨kept, row', hrow', hi, hscope, -, -, hothers⟩ :=
        upgrade_repository (List.ne_nil_of_mem hmem)
      by_cases he : id = kept
      · subst he
        cases Option.some.inj (h.symm.trans hrow')
        exact ⟨hi, hscope⟩
      · rw [hothers _ hmem he] at h
        cases h

end

/-- The upgrade leaves one row for each repository that had any. It stands for
them all, the next request finds it, and no other row is touched for it. -/
theorem upgrade_keeps_coverage (old : Dict Nat LegacyAuthorityJob) :
    (∀ (installation_id : Nat) (repository : Repository),
      rowsOf old installation_id repository ≠ [] →
      ∃ id row, (upgrade old).get? id = some row ∧ row.installation_id = installation_id ∧
        row.scope_key = .repository repository ∧
        (∀ id' row', (upgrade old).get? id' = some row' → row'.installation_id = installation_id →
          row'.scope_key = .repository repository → id' = id) ∧
        Stands ((rowsOf old installation_id repository).map Prod.snd) row ∧
        ∀ (now : Time) (request : AuthorityRequest) (db : Db),
          request.installation_id = installation_id → request.scopeKey = .repository repository →
          db.authority_jobs = readJobs (upgrade old) →
          (enqueueAuthorityInSession now request db).authority_jobs.get? id =
              some (coalescedAuthorityJob now request row.job) ∧
            ∀ id', id' ≠ id → (enqueueAuthorityInSession now request db).authority_jobs.get? id' =
              db.authority_jobs.get? id') ∧
    (∀ id row, old.get? id = some row → row.scope_key = .all →
      (upgrade old).get? id = some row.addColumns) ∧
    (∀ id row, (upgrade old).get? id = some row → ∃ job, old.get? id = some job ∧
      row.installation_id = job.installation_id ∧ row.scope_key = job.scope_key) ∧
    ∀ group ∈ pendingGroups (addAllColumns old), ∀ member ∈ group,
      ∀ (jobs : Dict Nat UpgradedAuthorityJob) (id : Nat) (row : LegacyAuthorityJob),
        old.get? id = some row →
        (row.installation_id, row.scope_key) ≠ (member.2.installation_id, member.2.scope_key) →
        (consolidate jobs group).get? id = jobs.get? id := by
  refine ⟨?_, fun id row => upgrade_all, fun id row => upgrade_scope, ?_⟩
  · intro installation_id repository h
    obtain ⟨id, row, hrow, hi, hs, -, hstands, hothers⟩ := upgrade_repository h
    have hunique : ∀ id' row', (upgrade old).get? id' = some row' →
        row'.installation_id = installation_id → row'.scope_key = .repository repository → id' = id := by
      intro id' row' hrow' hi' hs'
      by_contra hne
      obtain ⟨job, hjob, hji, hjs⟩ := upgrade_scope hrow'
      have hmem : (id', job) ∈ rowsOf old installation_id repository :=
        mem_rowsOf.mpr ⟨hjob, hji ▸ hi', hjs ▸ hs'⟩
      rw [hothers _ hmem hne] at hrow'
      cases hrow'
    refine ⟨id, row, hrow, hi, hs, hunique, hstands, ?_⟩
    intro now request db hri hrs hdb
    have hread : db.authority_jobs.get? id = some row.job := by
      rw [hdb, get?_readJobs, hrow]
      rfl
    have hfor : isForAuthority request row.job = true := by
      have h₁ : row.job.installation_id = request.installation_id := hi.trans hri.symm
      have h₂ : row.job.scope_key = request.scopeKey := hs.trans hrs.symm
      have h₃ : row.job.base_ref = [] := hstands.base_ref
      simp [isForAuthority, h₁, h₂, h₃]
    have hany : (db.authority_jobs.any fun _ job => isForAuthority request job) = true :=
      Dict.any_eq_true.mpr ⟨id, row.job, hread, hfor⟩
    unfold enqueueAuthorityInSession
    rw [if_pos hany]
    refine ⟨?_, fun id' hne => ?_⟩
    · rw [Dict.get?_updateWhere, hread]
      simp [hfor]
    · rw [Dict.get?_updateWhere]
      cases hget : db.authority_jobs.get? id' with
      | none => rfl
      | some job =>
        have hnot : isForAuthority request job = false := by
          rw [Bool.eq_false_iff]
          intro hf
          rw [hdb, get?_readJobs] at hget
          obtain ⟨row', hrow', rfl⟩ := Option.map_eq_some_iff.mp hget
          simp only [isForAuthority, Bool.and_eq_true, decide_eq_true_eq] at hf
          exact hne (hunique id' row' hrow' (hf.1.1.trans hri) (hf.1.2.trans hrs))
        simp [hnot]
  · intro group hg member hm jobs id row hrow hkey
    refine consolidate_frame ?_
    intro hid
    obtain ⟨other, ho, rfl⟩ := List.mem_map.mp hid
    obtain ⟨hget, hscope⟩ := mem_of_group hg ho
    have hsame := (groupKey_eq hscope (mem_of_group hg hm).2).mp (same_key hg ho hm)
    rw [get?_addAllColumns, hrow] at hget
    rw [← Option.some.inj hget] at hsame
    exact hkey (Prod.ext hsame.1 hsame.2)

def sampleBranch (base_ref state : Str) (generation : Nat) : LegacyAuthorityJob where
  installation_id := 1
  scope_key := .repository ⟨("o/r" : Str)⟩
  base_ref := base_ref
  reason := ("push" : Str)
  generation := generation
  state := state
  attempts := 0
  requested_at := 0
  available_at := 0
  lease_owner := none
  lease_until := none
  last_error := none

/-- A branch that waits and one that is done with. -/
def sampleBranches : Dict Nat LegacyAuthorityJob where
  entries := [(1, sampleBranch ("main" : Str) ("pending" : Str) 1), (2, sampleBranch ("dev" : Str) ("dead" : Str) 4)]
  nodup := List.nodup_cons.mpr ⟨by simp, List.nodup_singleton 2⟩

theorem sampleBranches_upgraded : ∃ id row, (upgrade sampleBranches).get? id = some row ∧
    Stands [sampleBranch ("main" : Str) ("pending" : Str) 1, sampleBranch ("dev" : Str) ("dead" : Str) 4] row := by
  obtain ⟨id, row, hrow, -, -, -, hstands, -⟩ :=
    (upgrade_keeps_coverage sampleBranches).1 1 ⟨("o/r" : Str)⟩ (List.cons_ne_nil _ _)
  exact ⟨id, row, hrow, hstands⟩

end ExtraCodeowners
