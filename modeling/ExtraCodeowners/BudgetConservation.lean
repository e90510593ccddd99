import ExtraCodeowners.ApiBudget

/-!
# Conservation of the request budget

Runs of `admit` and `observe` over the rows of every installation, by any
number of replicas. A run is the list of its calls; the debits, refunds and
observations of an installation are read off it.
-/

namespace ExtraCodeowners

/-! ## Runs -/

inductive BudgetCall where
  | admitCall (budget : RecoveryApiBudget) (installation_id : Nat) (recovery : Bool)
  | observe (installation_id : Nat) (quota : CoreQuota) (receipt : Option BudgetReceipt)

/-- A call with the clock readings it made and the rows it found. -/
structure BudgetEntry where
  call : BudgetCall
  inserted_at : Time
  refund_at : Time
  now : Time
  before : Budgets

namespace BudgetEntry

/-- The receipt the call returned. -/
def issued (e : BudgetEntry) : Option BudgetReceipt :=
  match e.call with
  | .admitCall budget id recovery =>
    match (budget.admitCall id recovery e.inserted_at e.now e.before).1 with
    | .ok receipt => receipt
    | .error _ => none
  | .observe _ _ _ => none

def after (e : BudgetEntry) : Budgets :=
  match e.call with
  | .admitCall budget id recovery => (budget.admitCall id recovery e.inserted_at e.now e.before).2
  | .observe id quota receipt =>
    (observe id quota receipt e.inserted_at e.refund_at e.now e.before).2

def presented (e : BudgetEntry) : Option BudgetReceipt :=
  match e.call with
  | .admitCall _ _ _ => none
  | .observe _ _ receipt => receipt

/-- The row of an installation as the call finds it. -/
def row (e : BudgetEntry) (id : Nat) : InstallationApiBudget := lockedRow id e.inserted_at e.before

/-- The receipt the call gives back. -/
def refunds (e : BudgetEntry) : Option BudgetReceipt :=
  match e.call with
  | .observe id quota (some receipt) =>
    if 0 < id ∧ accepts quota (e.row id) ∧ refundable id quota receipt e.refund_at (e.row id) = true then
      some receipt
    else none
  | _ => none

def Observes (e : BudgetEntry) (id : Nat) (quota : CoreQuota) : Prop :=
  0 < id ∧ ∃ receipt, e.call = .observe id quota receipt

/-- An observation that is not older than the recorded window. -/
def Accepts (e : BudgetEntry) (id : Nat) (quota : CoreQuota) : Prop :=
  e.Observes id quota ∧ accepts quota (e.row id)

/-- An observation that starts a window. -/
def Opens (e : BudgetEntry) (id : Nat) (quota : CoreQuota) : Prop :=
  e.Observes id quota ∧ opensWindow quota e.now (e.row id)

def debitsOf (e : BudgetEntry) (id : Nat) : Bool := e.issued.any fun r => r.installation_id = id

def refundsOf (e : BudgetEntry) (id : Nat) : Bool := e.refunds.any fun r => r.installation_id = id

/-- An accounting event: a debit, or an observation taken into account. -/
def Accounts (e : BudgetEntry) (id : Nat) : Prop := e.debitsOf id = true ∨ ∃ quota, e.Accepts id quota

end BudgetEntry

def debits (id : Nat) (es : List BudgetEntry) : Nat := es.countP fun e => e.debitsOf id

def refunds (id : Nat) (es : List BudgetEntry) : Nat := es.countP fun e => e.refundsOf id

/-- Calls commit one after the other, under a clock that never goes back; a
receipt presented was returned by an earlier call. -/
inductive BudgetRun : List BudgetEntry → Budgets → Time → Prop
  | start (t : Time) : BudgetRun [] ∅ t
  | call {es budgets t} (e : BudgetEntry) : BudgetRun es budgets t → e.before = budgets →
      t ≤ e.inserted_at → e.inserted_at ≤ e.refund_at → e.refund_at ≤ e.now →
      (∀ r, e.presented = some r → ∃ d ∈ es, d.issued = some r) → BudgetRun (es ++ [e]) e.after e.now

/-! ## What a call does to the row of an installation -/

/-- `row` is what the call finds and `row'` what it leaves. -/
inductive BudgetStep (e : BudgetEntry) (id : Nat) (row row' : InstallationApiBudget) : Prop
  | quiet (not_debit : e.debitsOf id = false) (not_refund : e.refundsOf id = false)
      (not_accepted : ∀ quota, ¬ e.Accepts id quota)
      (probe_after : Time) (same : row' = { row with probe_after := probe_after })
  | debit (budget : RecoveryApiBudget) (recovery : Bool) (call : e.call = .admitCall budget id recovery)
      (issued : e.issued = some ⟨id, row.reset_at, row.accounting_revision + 1⟩)
      (live : e.now < row.reset_at ∧ 0 < row.request_limit ∧ 0 < row.remaining)
      (reserved : recovery = true → budget.reserve row.request_limit < row.remaining)
      (charged : row' = { row with
        remaining := row.remaining - 1
        accounting_revision := row.accounting_revision + 1 })
  | opens (quota : CoreQuota) (opened : e.Opens id quota)
      (restarted : row' = { row with
        request_limit := quota.limit
        remaining := quota.remaining
        reset_at := quota.reset_at
        accounting_revision := row.accounting_revision + 1 })
  | within (quota : CoreQuota) (accepted : e.Accepts id quota) (not_opened : ¬ e.Opens id quota)
      (clamped : row' = { row with
        remaining := min (row.remaining + if e.refundsOf id then 1 else 0) quota.remaining
        request_limit := max row.request_limit quota.limit
        reset_at := if quota.remaining = 0 then quota.reset_at else row.reset_at
        accounting_revision := row.accounting_revision + 1 })

namespace BudgetEntry

theorem observes_debits {e : BudgetEntry} {id i : Nat} {quota : CoreQuota} {receipt : Option BudgetReceipt}
    (hc : e.call = .observe i quota receipt) : e.debitsOf id = false := by
  simp [debitsOf, issued, hc]

theorem admits_refunds {e : BudgetEntry} {id i : Nat} {budget : RecoveryApiBudget} {recovery : Bool}
    (hc : e.call = .admitCall budget i recovery) : e.refundsOf id = false := by
  simp [refundsOf, refunds, hc]

theorem admits_accepts {e : BudgetEntry} {id i : Nat} {budget : RecoveryApiBudget} {recovery : Bool}
    {quota : CoreQuota} (hc : e.call = .admitCall budget i recovery) : ¬ e.Accepts id quota := by
  rintro ⟨⟨-, receipt, ho⟩, -⟩
  rw [hc] at ho
  cases ho

/-- A refund is of the installation it observes. -/
theorem refundsOf_observe {e : BudgetEntry} {id i : Nat} {quota : CoreQuota}
    {receipt : Option BudgetReceipt} (hc : e.call = .observe i quota receipt) :
    e.refundsOf id = true ↔ i = id ∧ 0 < i ∧ accepts quota (e.row i) ∧
      ∃ r, receipt = some r ∧ refundable i quota r e.refund_at (e.row i) = true := by
  unfold refundsOf refunds
  rw [hc]
  cases receipt with
  | none => simp
  | some r =>
    simp only
    split
    · rename_i h
      have hi : r.installation_id = i := by
        have := h.2.2
        simp only [refundable, Bool.and_eq_true, decide_eq_true_eq] at this
        omega
      simp [hi, h]
    · rename_i h
      simp only [Option.any_none, Bool.false_eq_true, false_iff, not_and, not_exists]
      rintro - h₀ ha r' hr' hr
      cases hr'
      exact h ⟨h₀, ha, hr⟩

theorem refundsOf_other {e : BudgetEntry} {id i : Nat} {quota : CoreQuota}
    {receipt : Option BudgetReceipt} (hc : e.call = .observe i quota receipt)
    (h : ¬ (i = id ∧ 0 < i ∧ accepts quota (e.row i))) : e.refundsOf id = false := by
  rw [← Bool.not_eq_true, refundsOf_observe hc]
  exact fun h' => h ⟨h'.1, h'.2.1, h'.2.2.1⟩

/-- A row the call does not touch. -/
theorem step_untouched {e : BudgetEntry} {id : Nat} {row' : InstallationApiBudget}
    (h : e.before.get? id = some row') (hd : e.debitsOf id = false) (hr : e.refundsOf id = false)
    (ha : ∀ quota, ¬ e.Accepts id quota) : BudgetStep e id (e.row id) row' := by
  refine .quiet hd hr ha row'.probe_after ?_
  rw [row, lockedRow, h]
  rfl

theorem step_admit {e : BudgetEntry} {id i : Nat} {row' : InstallationApiBudget}
    {budget : RecoveryApiBudget} {recovery : Bool} (hc : e.call = .admitCall budget i recovery)
    (h : e.after.get? id = some row') : BudgetStep e id (e.row id) row' := by
  have hr : e.refundsOf id = false := admits_refunds hc
  have ha : ∀ quota, ¬ e.Accepts id quota := fun quota => admits_accepts hc
  have hissued : e.issued = match (budget.admitCall i recovery e.inserted_at e.now e.before).1 with
      | .ok receipt => receipt
      | .error _ => none := by
    rw [issued, hc]
  have hafter : e.after = (budget.admitCall i recovery e.inserted_at e.now e.before).2 := by
    rw [after, hc]
  rw [hafter] at h
  by_cases h₀ : i = 0
  · have hno : e.issued = none := by
      rw [hissued, RecoveryApiBudget.admitCall, if_pos h₀]
    rw [RecoveryApiBudget.admitCall, if_pos h₀] at h
    exact step_untouched h (by simp [debitsOf, hno]) hr ha
  rw [RecoveryApiBudget.admitCall, if_neg h₀] at hissued h
  by_cases hi : id = i
  · subst hi
    rw [Dict.get?_set_self] at h
    cases h
    change e.issued = match (budget.admitRow id recovery e.now (e.row id)).1 with
      | .ok receipt => receipt
      | .error _ => none at hissued
    change BudgetStep e id (e.row id) (budget.admitRow id recovery e.now (e.row id)).2
    obtain ⟨hl, hk, hp, hres, heq⟩ | ⟨-, -, error, heq⟩ | ⟨-, hno, probe_after, heq⟩ :=
      admitRow_cases id (e.row id) budget recovery e.now
    · rw [heq] at hissued ⊢
      exact .debit budget recovery hc hissued ⟨hl, hk, hp⟩ hres rfl
    · rw [heq] at hissued ⊢
      exact .quiet (by simp [debitsOf, hissued]) hr ha (e.row id).probe_after rfl
    · have hnone : e.issued = none := by
        rw [hissued]
        cases ho : (budget.admitRow id recovery e.now (e.row id)).1 with
        | error _ => rfl
        | ok receipt =>
          cases receipt with
          | none => rfl
          | some r => exact absurd ho (hno r)
      exact .quiet (by simp [debitsOf, hnone]) hr ha probe_after heq
  · rw [Dict.get?_set_ne _ _ hi] at h
    refine step_untouched h ?_ hr ha
    change e.issued = match (budget.admitRow i recovery e.now (e.row i)).1 with
      | .ok receipt => receipt
      | .error _ => none at hissued
    obtain ⟨-, -, -, -, heq⟩ | ⟨-, -, error, heq⟩ | ⟨-, hno, -⟩ :=
      admitRow_cases i (e.row i) budget recovery e.now
    · rw [heq] at hissued
      simp [debitsOf, hissued, Ne.symm hi]
    · rw [heq] at hissued
      simp [debitsOf, hissued]
    · cases ho : (budget.admitRow i recovery e.now (e.row i)).1 with
      | error _ => rw [ho] at hissued; simp [debitsOf, hissued]
      | ok receipt =>
        cases receipt with
        | none => rw [ho] at hissued; simp [debitsOf, hissued]
        | some r => exact absurd ho (hno r)

theorem step_observe {e : BudgetEntry} {id i : Nat} {row' : InstallationApiBudget} {quota : CoreQuota}
    {receipt : Option BudgetReceipt} (hc : e.call = .observe i quota receipt)
    (h : e.after.get? id = some row') : BudgetStep e id (e.row id) row' := by
  have hd : e.debitsOf id = false := observes_debits hc
  have hafter : e.after = (observe i quota receipt e.inserted_at e.refund_at e.now e.before).2 := by
    rw [after, hc]
  have hobs : ∀ q, e.Observes id q → i = id ∧ 0 < i ∧ q = quota := by
    rintro q ⟨hpos, r, hr⟩
    rw [hc] at hr
    cases hr
    exact ⟨rfl, hpos, rfl⟩
  rw [hafter] at h
  by_cases h₀ : i = 0
  · rw [observe, if_pos h₀] at h
    refine step_untouched h hd (refundsOf_other hc fun h' => absurd h'.2.1 (by omega)) ?_
    exact fun q ha => absurd (hobs q ha.1).2.1 (by omega)
  rw [observe, if_neg h₀] at h
  by_cases hi : id = i
  · subst hi
    rw [Dict.get?_set_self] at h
    cases h
    change BudgetStep e id (e.row id) (observeRow id quota receipt e.refund_at e.now (e.row id))
    have hobserves : e.Observes id quota := ⟨Nat.pos_of_ne_zero h₀, receipt, hc⟩
    by_cases ha : accepts quota (e.row id)
    · by_cases ho : opensWindow quota e.now (e.row id)
      · exact .opens quota ⟨hobserves, ho⟩ (observeRow_opens ho)
      · refine .within quota ⟨hobserves, ha⟩ (fun h' => ho h'.2) ?_
        rw [observeRow_within ha ho]
        have hrefund : refunded id quota receipt e.refund_at (e.row id) =
            if e.refundsOf id then 1 else 0 := by
          by_cases hr : e.refundsOf id = true
          · obtain ⟨-, -, -, r, rfl, hr'⟩ := (refundsOf_observe hc).mp hr
            simp [refunded, hr', hr]
          · have hno : ∀ r, receipt = some r →
                refundable id quota r e.refund_at (e.row id) = false := by
              intro r hreceipt
              rw [← Bool.not_eq_true]
              exact fun h' => hr ((refundsOf_observe hc).mpr
                ⟨rfl, Nat.pos_of_ne_zero h₀, ha, r, hreceipt, h'⟩)
            rw [if_neg hr, refunded]
            cases receipt with
            | none => rfl
            | some r => simp [hno r rfl]
        rw [hrefund]
    · rw [observeRow_older ha]
      refine .quiet hd (refundsOf_other hc fun h' => ha h'.2.2) ?_ (e.row id).probe_after rfl
      intro q hq
      obtain ⟨-, -, rfl⟩ := hobs q hq.1
      exact ha hq.2
  · rw [Dict.get?_set_ne _ _ hi] at h
    refine step_untouched h hd (refundsOf_other hc fun h' => hi h'.1.symm) ?_
    exact fun q ha => hi (hobs q ha.1).1.symm

/-- The row of an installation after a call, by what the call did. -/
theorem step {e : BudgetEntry} {id : Nat} {row' : InstallationApiBudget}
    (h : e.after.get? id = some row') : BudgetStep e id (e.row id) row' := by
  cases hc : e.call with
  | admitCall budget i recovery => exact step_admit hc h
  | observe i quota receipt => exact step_observe hc h

/-- A call never removes a row. -/
theorem after_present {e : BudgetEntry} {id : Nat} {row : InstallationApiBudget}
    (h : e.before.get? id = some row) : ∃ row', e.after.get? id = some row' := by
  have hset : ∀ i (row' : InstallationApiBudget), ∃ r, (e.before.set i row').get? id = some r := by
    intro i row'
    by_cases hi : id = i
    · exact ⟨row', by rw [hi, Dict.get?_set_self]⟩
    · exact ⟨row, by rw [Dict.get?_set_ne _ _ hi, h]⟩
  unfold after
  split
  · unfold RecoveryApiBudget.admitCall
    split
    · exact ⟨row, h⟩
    · exact hset _ _
  · unfold observe
    split
    · exact ⟨row, h⟩
    · exact hset _ _

theorem row_of_present {e : BudgetEntry} {id : Nat} {row : InstallationApiBudget}
    (h : e.before.get? id = some row) : e.row id = row := by
  rw [BudgetEntry.row, lockedRow, h]
  rfl

end BudgetEntry

/-! ## Runs since a call -/

section
variable {es es₁ es₂ : List BudgetEntry} {e : BudgetEntry} {budgets : Budgets} {t : Time} {id : Nat}

/-- The last call of a run. -/
theorem BudgetRun.last (h : BudgetRun (es ++ [e]) budgets t) :
    ∃ t₀, BudgetRun es e.before t₀ ∧ budgets = e.after ∧ t = e.now ∧ t₀ ≤ e.inserted_at ∧
      e.inserted_at ≤ e.refund_at ∧ e.refund_at ≤ e.now ∧
      ∀ r, e.presented = some r → ∃ d ∈ es, d.issued = some r := by
  generalize hes : es ++ [e] = l at h
  cases h with
  | start => exact absurd hes (by simp)
  | call e' hr hb h₁ h₂ h₃ hp =>
    obtain ⟨rfl, he⟩ := List.append_inj' hes rfl
    cases he
    exact ⟨_, hb ▸ hr, rfl, rfl, h₁, h₂, h₃, hp⟩

/-- What held after a call, and is kept by every later one, holds at the end. -/
theorem BudgetRun.since {P : List BudgetEntry → InstallationApiBudget → Prop}
    (h : BudgetRun (es₁ ++ e :: es₂) budgets t) {row₀ : InstallationApiBudget}
    (hrow : e.after.get? id = some row₀) (base : P [] row₀)
    (keep : ∀ es a row', BudgetRun (es₁ ++ e :: es ++ [a]) a.after a.now → a ∈ es₂ → a.now ≤ t →
      P es (a.row id) → BudgetStep a id (a.row id) row' → P (es ++ [a]) row') :
    ∃ row, budgets.get? id = some row ∧ P es₂ row := by
  induction es₂ using List.reverseRecOn generalizing budgets t with
  | nil =>
    obtain ⟨_, _, rfl, _⟩ := h.last
    exact ⟨row₀, hrow, base⟩
  | append_singleton es a ih =>
    rw [← List.cons_append, ← List.append_assoc] at h
    obtain ⟨t₀, hr, rfl, rfl, h₁, h₂, h₃, -⟩ := h.last
    obtain ⟨row, hb, hp⟩ := ih hr fun es' x row' hrun hx ht =>
      keep es' x row' hrun (by simp [hx]) (le_trans ht (le_trans h₁ (le_trans h₂ h₃)))
    obtain ⟨row', ha⟩ := BudgetEntry.after_present hb
    rw [← BudgetEntry.row_of_present hb] at hp
    exact ⟨row', ha, keep es a row' h (by simp) le_rfl hp (BudgetEntry.step ha)⟩

/-! ## Balances and receipts -/

/-- What holds of a row in every run: its balance is within its limit, and no
receipt is newer than it. -/
structure RowValid (es : List BudgetEntry) (id : Nat) (row : InstallationApiBudget) : Prop where
  bounded : row.remaining ≤ row.request_limit
  receipts : ∀ d ∈ es, ∀ r, d.issued = some r → r.installation_id = id →
    r.revision ≤ row.accounting_revision

theorem BudgetStep.valid {row row' : InstallationApiBudget} (hs : BudgetStep e id row row')
    (hv : RowValid es id row) : RowValid (es ++ [e]) id row' := by
  have old : ∀ {n : Nat}, row.accounting_revision ≤ n → e.debitsOf id = false →
      ∀ d ∈ es ++ [e], ∀ r, d.issued = some r → r.installation_id = id → r.revision ≤ n := by
    intro n hn hd d hmem r hr hi
    obtain hmem | hmem := List.mem_append.mp hmem
    · exact le_trans (hv.receipts d hmem r hr hi) hn
    · cases List.mem_singleton.mp hmem
      simp [BudgetEntry.debitsOf, hr, hi] at hd
  have accepted_admits : ∀ {quota}, e.Accepts id quota → e.debitsOf id = false := by
    rintro quota ⟨⟨-, receipt, hc⟩, -⟩
    exact BudgetEntry.observes_debits hc
  cases hs with
  | quiet hd _ _ probe_after same =>
    subst same
    exact ⟨hv.bounded, old le_rfl hd⟩
  | debit budget recovery call issued live reserved charged =>
    subst charged
    refine ⟨le_trans (Nat.sub_le _ _) hv.bounded, ?_⟩
    intro d hmem r hr hi
    obtain hmem | hmem := List.mem_append.mp hmem
    · exact le_trans (hv.receipts d hmem r hr hi) (Nat.le_succ _)
    · cases List.mem_singleton.mp hmem
      rw [issued] at hr
      cases hr
      exact le_rfl
  | opens quota opened restarted =>
    subst restarted
    exact ⟨quota.remaining_le, old (Nat.le_succ _) (accepted_admits ⟨opened.1, opened.2.1⟩)⟩
  | within quota accepted not_opened clamped =>
    subst clamped
    refine ⟨?_, old (Nat.le_succ _) (accepted_admits accepted)⟩
    exact le_trans (min_le_right _ _) (le_trans quota.remaining_le (le_max_right _ _))

/-- A call that returns a receipt leaves a row. -/
theorem BudgetEntry.issued_present {r : BudgetReceipt} (h : e.issued = some r) :
    ∃ row, e.after.get? r.installation_id = some row := by
  cases hc : e.call with
  | observe i quota receipt => simp [issued, hc] at h
  | admitCall budget i recovery =>
    rw [issued, hc] at h
    rw [after, hc]
    simp only [RecoveryApiBudget.admitCall] at h ⊢
    by_cases h₀ : i = 0
    · simp [h₀] at h
    · simp only [if_neg h₀] at h ⊢
      have hr : r.installation_id = i := by
        obtain ⟨-, -, -, -, heq⟩ | ⟨-, -, error, heq⟩ | ⟨-, hno, -⟩ :=
          admitRow_cases i (lockedRow i e.inserted_at e.before) budget recovery e.now
        · rw [heq] at h; cases h; rfl
        · rw [heq] at h; cases h
        · cases ho : (budget.admitRow i recovery e.now (lockedRow i e.inserted_at e.before)).1 with
          | error _ => rw [ho] at h; cases h
          | ok receipt => rw [ho] at h; exact absurd (h ▸ ho) (hno r)
      rw [hr, Dict.get?_set_self]
      exact ⟨_, rfl⟩

/-- The valid rows of a table, with no receipt for an absent one. -/
def TableValid (es : List BudgetEntry) (budgets : Budgets) : Prop :=
  (∀ id row, budgets.get? id = some row → RowValid es id row) ∧
    ∀ d ∈ es, ∀ r, d.issued = some r → ∃ row, budgets.get? r.installation_id = some row

theorem TableValid.row (h : TableValid es e.before) (id : Nat) : RowValid es id (e.row id) := by
  cases hr : e.before.get? id with
  | some row => exact BudgetEntry.row_of_present hr ▸ h.1 id row hr
  | none =>
    rw [BudgetEntry.row, lockedRow, hr]
    refine ⟨le_rfl, fun d hd r hi he => ?_⟩
    obtain ⟨row, hrow⟩ := h.2 d hd r hi
    rw [he, hr] at hrow
    cases hrow

theorem BudgetRun.valid (h : BudgetRun es budgets t) : TableValid es budgets := by
  induction h with
  | start t => exact ⟨fun id row hr => by simp at hr, fun d hd => by simp at hd⟩
  | call e hrun hb _ _ _ _ ih =>
    subst hb
    refine ⟨fun id row hr => (BudgetEntry.step hr).valid (ih.row id), ?_⟩
    intro d hd r hr
    obtain hd | hd := List.mem_append.mp hd
    · obtain ⟨row, hrow⟩ := ih.2 d hd r hr
      exact BudgetEntry.after_present hrow
    · cases List.mem_singleton.mp hd
      exact BudgetEntry.issued_present hr

theorem BudgetEntry.Opens.accepts {quota : CoreQuota} (h : e.Opens id quota) : e.Accepts id quota :=
  ⟨h.1, h.2.1⟩

theorem BudgetEntry.Observes.unique {quota quota' : CoreQuota} (h : e.Observes id quota)
    (h' : e.Observes id quota') : quota = quota' := by
  obtain ⟨-, receipt, hc⟩ := h
  obtain ⟨-, receipt', hc'⟩ := h'
  rw [hc] at hc'
  cases hc'
  rfl

/-- An observation leaves a row. -/
theorem BudgetEntry.Observes.present {quota : CoreQuota} (h : e.Observes id quota) :
    ∃ row, e.after.get? id = some row := by
  obtain ⟨hpos, receipt, hc⟩ := h
  rw [after, hc]
  simp only [observe, if_neg (Nat.pos_iff_ne_zero.mp hpos), Dict.get?_set_self]
  exact ⟨_, rfl⟩

/-- The run up to a call in its middle. -/
theorem BudgetRun.upto (h : BudgetRun (es₁ ++ e :: es₂) budgets t) :
    BudgetRun (es₁ ++ [e]) e.after e.now ∧ e.now ≤ t := by
  induction es₂ using List.reverseRecOn generalizing budgets t with
  | nil =>
    obtain ⟨_, _, hb, ht, _⟩ := h.last
    exact ⟨hb ▸ ht ▸ h, ht.ge⟩
  | append_singleton es a ih =>
    rw [← List.cons_append, ← List.append_assoc] at h
    obtain ⟨t₀, hr, -, rfl, h₁, h₂, h₃, -⟩ := h.last
    obtain ⟨hrun, hle⟩ := ih hr
    exact ⟨hrun, le_trans hle (le_trans h₁ (le_trans h₂ h₃))⟩

theorem debits_snoc : debits id (es ++ [e]) = debits id es + if e.debitsOf id then 1 else 0 := by
  simp [debits, List.countP_append, List.countP_singleton]

theorem refunds_snoc : refunds id (es ++ [e]) = refunds id es + if e.refundsOf id then 1 else 0 := by
  simp [refunds, List.countP_append, List.countP_singleton]

/-! ## Within one window -/

/-- Since a window opened: what is left and what was spent is what it opened
with and what was given back. -/
theorem BudgetRun.since_opened (h : BudgetRun (es₁ ++ e :: es₂) budgets t) {quota : CoreQuota}
    (ho : e.Opens id quota) (hno : ∀ a ∈ es₂, ∀ q, ¬ a.Opens id q) :
    ∃ row, budgets.get? id = some row ∧
      row.remaining + debits id es₂ ≤ quota.remaining + refunds id es₂ := by
  obtain ⟨row₀, hrow₀⟩ := ho.1.present
  refine h.since (P := fun es row => row.remaining + debits id es ≤ quota.remaining + refunds id es)
    hrow₀ ?_ ?_
  · have hs := BudgetEntry.step hrow₀
    cases hs with
    | quiet _ _ hn _ _ => exact absurd ho.accepts (hn quota)
    | debit _ _ hc _ _ _ _ => exact absurd ho.accepts (BudgetEntry.admits_accepts hc)
    | opens q hq hr =>
      subst hr
      rw [hq.1.unique ho.1]
      simp [debits, refunds]
    | within q hq hn _ => exact absurd (hq.1.unique ho.1 ▸ ho) hn
  · intro es a row' _ hmem _ hp hs
    rw [debits_snoc, refunds_snoc]
    cases hs with
    | quiet hd hr _ _ same =>
      subst same
      simpa [hd, hr] using hp
    | debit budget recovery hc hi live _ charged =>
      subst charged
      have hd : a.debitsOf id = true := by simp [BudgetEntry.debitsOf, hi]
      simp only [hd, if_true]
      omega
    | opens q hq _ => exact absurd hq (hno a hmem q)
    | within q hq _ clamped =>
      subst clamped
      obtain ⟨-, receipt, hc⟩ := hq.1
      simp only [BudgetEntry.observes_debits hc, Bool.false_eq_true, if_false]
      have := min_le_left ((a.row id).remaining + if a.refundsOf id then 1 else 0) q.remaining
      omega

/-- Since an observation that was taken into account, the balance exceeds it
by no more than was given back. -/
theorem BudgetRun.since_observed (h : BudgetRun (es₁ ++ e :: es₂) budgets t) {quota : CoreQuota}
    (ha : e.Accepts id quota) (hno : ∀ a ∈ es₂, ∀ q, ¬ a.Opens id q) :
    ∃ row, budgets.get? id = some row ∧ row.remaining ≤ quota.remaining + refunds id es₂ := by
  obtain ⟨row₀, hrow₀⟩ := ha.1.present
  refine h.since (P := fun es row => row.remaining ≤ quota.remaining + refunds id es) hrow₀ ?_ ?_
  · have hs := BudgetEntry.step hrow₀
    cases hs with
    | quiet _ _ hn _ _ => exact absurd ha (hn quota)
    | debit _ _ hc _ _ _ _ => exact absurd ha (BudgetEntry.admits_accepts hc)
    | opens q hq hr =>
      subst hr
      rw [hq.1.unique ha.1]
      simp [refunds]
    | within q hq _ clamped =>
      subst clamped
      rw [hq.1.unique ha.1]
      exact le_trans (min_le_right _ _) (Nat.le_add_right _ _)
  · intro es a row' _ hmem _ hp hs
    rw [refunds_snoc]
    cases hs with
    | quiet _ hr _ _ same =>
      subst same
      simpa [hr] using hp
    | debit budget recovery hc hi live _ charged =>
      subst charged
      exact le_trans (Nat.sub_le _ _) (le_trans hp (by omega))
    | opens q hq _ => exact absurd hq (hno a hmem q)
    | within q hq _ clamped =>
      subst clamped
      have := min_le_left ((a.row id).remaining + if a.refundsOf id then 1 else 0) q.remaining
      simp only at hp ⊢
      omega

/-! ## The deadline -/

theorem BudgetStep.deadline {row row' : InstallationApiBudget} (hs : BudgetStep e id row row')
    (hrow : row = e.row id) : row.reset_at ≤ row'.reset_at := by
  subst hrow
  cases hs with
  | quiet _ _ _ _ same => subst same; exact le_rfl
  | debit _ _ _ _ _ _ charged => subst charged; exact le_rfl
  | opens q hq hr => subst hr; exact hq.2.1
  | within q hq _ clamped =>
    subst clamped
    simp only
    split
    · exact hq.2
    · exact le_rfl

theorem BudgetRun.deadline (h : BudgetRun (es₁ ++ e :: es₂) budgets t) {row₀ : InstallationApiBudget}
    (hrow : e.after.get? id = some row₀) :
    ∃ row, budgets.get? id = some row ∧ row₀.reset_at ≤ row.reset_at :=
  h.since (P := fun _ row => row₀.reset_at ≤ row.reset_at) hrow le_rfl
    fun _ _ _ _ _ _ hp hs => le_trans hp (hs.deadline rfl)

/-! ## Exhaustion -/

/-- After an observation of zero, and before its deadline: nothing is left, and
no receipt can bring anything back. -/
structure Exhausted (es : List BudgetEntry) (id : Nat) (deadline : Time) (row : InstallationApiBudget) :
    Prop where
  empty : row.remaining = 0
  known : 0 < row.request_limit
  deadline_le : deadline ≤ row.reset_at
  stale : ∀ d ∈ es, ∀ r, d.issued = some r → r.installation_id = id →
    r.revision < row.accounting_revision

theorem refundsOf_presented {r : BudgetReceipt} (h : e.refunds = some r) :
    e.presented = some r ∧ r.revision = (e.row r.installation_id).accounting_revision ∧
      ∃ quota, e.Accepts r.installation_id quota := by
  unfold BudgetEntry.refunds at h
  split at h
  · rename_i i quota receipt hc
    split at h
    · rename_i hr
      cases h
      have hf := hr.2.2
      simp only [refundable, Bool.and_eq_true, decide_eq_true_eq] at hf
      obtain ⟨⟨⟨⟨⟨hi, -⟩, -⟩, hrev⟩, -⟩, -⟩ := hf
      subst hi
      exact ⟨by rw [BudgetEntry.presented, hc], hrev, quota, ⟨hr.1, _, hc⟩, hr.2.1⟩
    · cases h
  · cases h

theorem BudgetEntry.Accepts.not_debit {quota : CoreQuota} (h : e.Accepts id quota) :
    e.debitsOf id = false := by
  obtain ⟨⟨-, receipt, hc⟩, -⟩ := h
  exact BudgetEntry.observes_debits hc

theorem stale_snoc {n m : Nat} (hn : n ≤ m) (hd : e.debitsOf id = false)
    (h : ∀ d ∈ es, ∀ r, d.issued = some r → r.installation_id = id → r.revision < n) :
    ∀ d ∈ es ++ [e], ∀ r, d.issued = some r → r.installation_id = id → r.revision < m := by
  intro d hmem r hr hi
  obtain hmem | hmem := List.mem_append.mp hmem
  · exact lt_of_lt_of_le (h d hmem r hr hi) hn
  · cases List.mem_singleton.mp hmem
    simp [BudgetEntry.debitsOf, hr, hi] at hd

theorem BudgetRun.exhausted (h : BudgetRun (es₁ ++ e :: es₂) budgets t) {quota : CoreQuota}
    (ha : e.Accepts id quota) (hz : quota.remaining = 0) (ht : t < quota.reset_at) :
    ∃ row, budgets.get? id = some row ∧ Exhausted (es₁ ++ e :: es₂) id quota.reset_at row := by
  obtain ⟨row₀, hrow₀⟩ := ha.1.present
  obtain ⟨t₀, hbefore, -⟩ := h.upto.1.last
  have hstale : ∀ d ∈ es₁ ++ [e], ∀ r, d.issued = some r → r.installation_id = id →
      r.revision < (e.row id).accounting_revision + 1 :=
    stale_snoc le_rfl ha.not_debit fun d hd r hr hi =>
      Nat.lt_succ_of_le ((hbefore.valid.row id).receipts d hd r hr hi)
  refine h.since (P := fun es row => Exhausted (es₁ ++ e :: es) id quota.reset_at row) hrow₀ ?_ ?_
  · have hs := BudgetEntry.step hrow₀
    cases hs with
    | quiet _ _ hn _ _ => exact absurd ha (hn quota)
    | debit _ _ hc _ _ _ _ => exact absurd ha (BudgetEntry.admits_accepts hc)
    | opens q hq hr =>
      subst hr
      obtain rfl := hq.1.unique ha.1
      exact ⟨hz, q.limit_pos, le_rfl, hstale⟩
    | within q hq _ clamped =>
      subst clamped
      obtain rfl := hq.1.unique ha.1
      exact ⟨by simp [hz], lt_of_lt_of_le q.limit_pos (le_max_right _ _), by simp [hz], hstale⟩
  · intro es a row' hrun _ hat hp hs
    obtain ⟨_, -, -, -, -, -, -, hpresented⟩ := hrun.last
    have hdead := le_trans hp.deadline_le (hs.deadline rfl)
    rw [← List.cons_append, ← List.append_assoc]
    cases hs with
    | quiet hd hr _ _ same =>
      subst same
      exact ⟨hp.empty, hp.known, hdead, stale_snoc le_rfl hd hp.stale⟩
    | debit budget recovery hc hi live _ charged => exact absurd live.2.2 (by rw [hp.empty]; omega)
    | opens q hq _ =>
      -- the window would have to be over, or unknown
      have hk := hp.known
      have hl := hp.deadline_le
      have hopen := hq.2.2
      exact absurd hopen (not_or.mpr ⟨by omega, not_le.mpr (lt_of_le_of_lt hat (lt_of_lt_of_le ht hl))⟩)
    | within q hq _ clamped =>
      have hno : a.refundsOf id = false := by
        rw [← Bool.not_eq_true, BudgetEntry.refundsOf, Option.any_eq_true]
        rintro ⟨r, hr, hi⟩
        obtain ⟨hpr, hrev, -⟩ := refundsOf_presented hr
        obtain ⟨d, hd, hissued⟩ := hpresented r hpr
        have hid : r.installation_id = id := by simpa using hi
        have hlt := hp.stale d hd r hissued hid
        rw [hid] at hrev
        omega
      subst clamped
      exact ⟨by simp [hp.empty, hno], lt_of_lt_of_le hp.known (le_max_left _ _), hdead,
        stale_snoc (Nat.le_succ _) hq.not_debit hp.stale⟩

/-- An observation of zero records the deadline it names. -/
theorem zero_deadline {quota : CoreQuota} {row : InstallationApiBudget} (ha : e.Accepts id quota)
    (hz : quota.remaining = 0) (hrow : e.after.get? id = some row) : row.reset_at = quota.reset_at := by
  have hs := BudgetEntry.step hrow
  cases hs with
  | quiet _ _ hn _ _ => exact absurd ha (hn quota)
  | debit _ _ hc _ _ _ _ => exact absurd ha (BudgetEntry.admits_accepts hc)
  | opens q hq hr =>
    subst hr
    rw [hq.1.unique ha.1]
  | within q hq _ clamped =>
    subst clamped
    obtain rfl := hq.1.unique ha.1
    simp [hz]

/-- An exhausted row admits nothing. -/
theorem Exhausted.denied {deadline : Time} {row : InstallationApiBudget}
    (h : Exhausted es id deadline row) (hrow : e.before.get? id = some row) (hn : e.now < deadline)
    (budget : RecoveryApiBudget) (recovery : Bool) :
    ∃ error, (budget.admitCall id recovery e.inserted_at e.now e.before).1 = .error error := by
  unfold RecoveryApiBudget.admitCall
  by_cases h₀ : id = 0
  · rw [if_pos h₀]
    exact ⟨_, rfl⟩
  · rw [if_neg h₀, lockedRow, hrow]
    have hl : e.now < row.reset_at := lt_of_lt_of_le hn h.deadline_le
    obtain ⟨-, -, hp, -, -⟩ | ⟨-, -, error, heq⟩ | ⟨hno, -, -⟩ :=
      admitRow_cases id row budget recovery e.now
    · exact absurd hp (by rw [h.empty]; omega)
    · exact ⟨error, congrArg Prod.fst heq⟩
    · exact absurd ⟨hl, h.known⟩ hno

/-! ## Refunds -/

/-- The revision a row has after a debit is the one its receipt names, until
the next accounting event. -/
theorem BudgetRun.since_issued (h : BudgetRun (es₁ ++ e :: es₂) budgets t) {r : BudgetReceipt}
    (hi : e.issued = some r) :
    ∃ row, budgets.get? r.installation_id = some row ∧ r.revision ≤ row.accounting_revision ∧
      ((∃ x ∈ es₂, x.Accounts r.installation_id) → r.revision < row.accounting_revision) := by
  obtain ⟨row₀, hrow₀⟩ := BudgetEntry.issued_present hi
  have hdebit : e.debitsOf r.installation_id = true := by simp [BudgetEntry.debitsOf, hi]
  refine h.since (P := fun es row => r.revision ≤ row.accounting_revision ∧
    ((∃ x ∈ es, x.Accounts r.installation_id) → r.revision < row.accounting_revision)) hrow₀ ?_ ?_
  · have hs := BudgetEntry.step hrow₀
    cases hs with
    | quiet hd _ _ _ _ => exact absurd hdebit (by simp [hd])
    | debit budget recovery hc hissued live _ charged =>
      subst charged
      rw [hi, Option.some.injEq] at hissued
      rw [hissued]
      exact ⟨le_rfl, fun hx => by simp at hx⟩
    | opens q hq _ => exact absurd hdebit (by simp [hq.accepts.not_debit])
    | within q hq _ _ => exact absurd hdebit (by simp [hq.not_debit])
  · intro es a row' _ _ _ hp hs
    have grown : row'.accounting_revision = (a.row r.installation_id).accounting_revision + 1 →
        r.revision ≤ row'.accounting_revision ∧
          ((∃ x ∈ es ++ [a], x.Accounts r.installation_id) →
            r.revision < row'.accounting_revision) := by
      intro hg
      have := hp.1
      exact ⟨by omega, fun _ => by omega⟩
    cases hs with
    | quiet hd _ hn _ same =>
      subst same
      refine ⟨hp.1, ?_⟩
      rintro ⟨x, hx, hacc⟩
      obtain hx | hx := List.mem_append.mp hx
      · exact hp.2 ⟨x, hx, hacc⟩
      · cases List.mem_singleton.mp hx
        obtain hacc | ⟨q, hq⟩ := hacc
        · rw [hd] at hacc
          cases hacc
        · exact absurd hq (hn q)
    | debit _ _ _ _ _ _ charged => subst charged; exact grown rfl
    | opens _ _ restarted => subst restarted; exact grown rfl
    | within _ _ _ clamped => subst clamped; exact grown rfl

theorem BudgetRun.since_refunded (h : BudgetRun (es₁ ++ e :: es₂) budgets t) {r : BudgetReceipt}
    (hr : e.refunds = some r) :
    ∃ row, budgets.get? r.installation_id = some row ∧ r.revision < row.accounting_revision := by
  obtain ⟨-, hrev, quota, ha⟩ := refundsOf_presented hr
  obtain ⟨row₀, hrow₀⟩ := ha.1.present
  refine h.since (P := fun _ row => r.revision < row.accounting_revision) hrow₀ ?_ ?_
  · have hs := BudgetEntry.step hrow₀
    rw [hrev]
    cases hs with
    | quiet _ _ hn _ _ => exact absurd ha (hn quota)
    | debit _ _ _ _ _ _ charged => subst charged; exact Nat.lt_succ_self _
    | opens _ _ restarted => subst restarted; exact Nat.lt_succ_self _
    | within _ _ _ clamped => subst clamped; exact Nat.lt_succ_self _
  · intro es a row' _ _ _ hp hs
    cases hs with
    | quiet _ _ _ _ same => subst same; exact hp
    | debit _ _ _ _ _ _ charged => subst charged; exact Nat.lt_succ_of_lt hp
    | opens _ _ restarted => subst restarted; exact Nat.lt_succ_of_lt hp
    | within _ _ _ clamped => subst clamped; exact Nat.lt_succ_of_lt hp

theorem BudgetRun.refunded_once (h : BudgetRun (es₁ ++ e :: es₂) budgets t) {r : BudgetReceipt}
    (hr : e.refunds = some r) :
    (∃ a d b, es₁ = a ++ d :: b ∧ d.issued = some r ∧ ∀ x ∈ b, ¬ x.Accounts r.installation_id) ∧
      ∀ x ∈ es₂, x.refunds ≠ some r := by
  obtain ⟨hpr, hrev, -⟩ := refundsOf_presented hr
  obtain ⟨t₀, hbefore, -, -, -, -, -, hpresented⟩ := h.upto.1.last
  constructor
  · obtain ⟨d, hd, hi⟩ := hpresented r hpr
    obtain ⟨a, b, rfl⟩ := List.append_of_mem hd
    refine ⟨a, d, b, rfl, hi, fun x hx hacc => ?_⟩
    obtain ⟨row, hrow, -, hlater⟩ := hbefore.since_issued hi
    have := hlater ⟨x, hx, hacc⟩
    rw [BudgetEntry.row_of_present hrow] at hrev
    omega
  · intro x hx hx'
    obtain ⟨u, v, rfl⟩ := List.append_of_mem hx
    rw [← List.cons_append, ← List.append_assoc] at h
    obtain ⟨t₁, hmid, -⟩ := h.upto.1.last
    obtain ⟨row, hrow, hlt⟩ := hmid.since_refunded hr
    obtain ⟨-, hrev', -⟩ := refundsOf_presented hx'
    rw [BudgetEntry.row_of_present hrow] at hrev'
    omega

/-! ## The reserve -/

theorem reserve_kept {budget : RecoveryApiBudget} {receipt : Option BudgetReceipt}
    (hc : e.call = .admitCall budget id true)
    (hok : (budget.admitCall id true e.inserted_at e.now e.before).1 = .ok receipt)
    (hl : e.now < (e.row id).reset_at) (hk : 0 < (e.row id).request_limit) :
    ∃ row, e.after.get? id = some row ∧ budget.reserve row.request_limit ≤ row.remaining := by
  unfold RecoveryApiBudget.admitCall at hok
  by_cases h₀ : id = 0
  · rw [if_pos h₀] at hok
    cases hok
  · rw [if_neg h₀] at hok
    rw [BudgetEntry.after, hc]
    simp only [RecoveryApiBudget.admitCall, if_neg h₀, Dict.get?_set_self]
    refine ⟨_, rfl, ?_⟩
    change (budget.admitRow id true e.now (e.row id)).1 = .ok receipt at hok
    change budget.reserve (budget.admitRow id true e.now (e.row id)).2.request_limit ≤
      (budget.admitRow id true e.now (e.row id)).2.remaining
    obtain ⟨-, -, -, hres, heq⟩ | ⟨-, -, error, heq⟩ | ⟨hno, -, -⟩ :=
      admitRow_cases id (e.row id) budget true e.now
    · rw [heq]
      exact Nat.le_sub_one_of_lt (hres rfl)
    · rw [heq] at hok
      cases hok
    · exact absurd ⟨hl, hk⟩ hno

end

/-! ## The budget is conserved -/

/-- What holds at the end of a run `es`, for every installation. -/
structure BudgetConserved (es : List BudgetEntry) (budgets : Budgets) : Prop where
  bounded : ∀ id row, budgets.get? id = some row →
    0 ≤ row.remaining ∧ row.remaining ≤ row.request_limit
  spent_within_window : ∀ es₁ e es₂ id quota, es = es₁ ++ e :: es₂ → e.Opens id quota →
    (∀ a ∈ es₂, ∀ q, ¬ a.Opens id q) → ∃ row, budgets.get? id = some row ∧
      row.remaining + debits id es₂ ≤ quota.remaining + refunds id es₂
  observed_within_window : ∀ es₁ e es₂ id quota, es = es₁ ++ e :: es₂ → e.Accepts id quota →
    (∀ a ∈ es₂, ∀ q, ¬ a.Opens id q) → ∃ row, budgets.get? id = some row ∧
      row.remaining ≤ quota.remaining + refunds id es₂
  refunded_once : ∀ es₁ e es₂ r, es = es₁ ++ e :: es₂ → e.refunds = some r →
    (∃ a d b, es₁ = a ++ d :: b ∧ d.issued = some r ∧ ∀ x ∈ b, ¬ x.Accounts r.installation_id) ∧
      ∀ x ∈ es₂, x.refunds ≠ some r
  reserve_kept : ∀ e ∈ es, ∀ budget id receipt, e.call = .admitCall budget id true →
    (budget.admitCall id true e.inserted_at e.now e.before).1 = .ok receipt →
    e.now < (e.row id).reset_at → 0 < (e.row id).request_limit →
    ∃ row, e.after.get? id = some row ∧ budget.reserve row.request_limit ≤ row.remaining
  exhausted : ∀ es₁ z es₂ e es₃ id quota row budget recovery, es = es₁ ++ z :: es₂ ++ e :: es₃ →
    z.Accepts id quota → quota.remaining = 0 → z.after.get? id = some row →
    e.call = .admitCall budget id recovery → e.now < row.reset_at →
    ∃ error, (budget.admitCall id recovery e.inserted_at e.now e.before).1 = .error error
  deadline : ∀ es₁ e es₂ id row, es = es₁ ++ e :: es₂ → e.after.get? id = some row →
    ∃ row', budgets.get? id = some row' ∧ row.reset_at ≤ row'.reset_at

/-- The budget of every installation is conserved in every run. -/
theorem api_budget_conserved {es : List BudgetEntry} {budgets : Budgets} {t : Time}
    (h : BudgetRun es budgets t) : BudgetConserved es budgets where
  bounded id row hrow := ⟨Nat.zero_le _, (h.valid.1 id row hrow).bounded⟩
  spent_within_window := by
    rintro es₁ e es₂ id quota rfl ho hno
    exact h.since_opened ho hno
  observed_within_window := by
    rintro es₁ e es₂ id quota rfl ha hno
    exact h.since_observed ha hno
  refunded_once := by
    rintro es₁ e es₂ r rfl hr
    exact h.refunded_once hr
  reserve_kept _ _ _ _ _ hc hok hl hk := reserve_kept hc hok hl hk
  exhausted := by
    rintro es₁ z es₂ e es₃ id quota row₀ budget recovery rfl ha hz hrow₀ hc hn
    rw [zero_deadline ha hz hrow₀] at hn
    obtain ⟨t₀, hbefore, -, -, h₁, h₂, h₃, -⟩ := h.upto.1.last
    obtain ⟨row, hrow, hex⟩ := hbefore.exhausted ha hz
      (lt_of_le_of_lt (le_trans h₁ (le_trans h₂ h₃)) hn)
    exact hex.denied hrow hn budget recovery
  deadline := by
    rintro es₁ e es₂ id row rfl hrow
    exact h.deadline hrow

/-! ## A run of three calls -/

def sampleQuota (remaining : Nat) (reset_at : Time) (h : remaining ≤ 100) : CoreQuota where
  limit := 100
  remaining := remaining
  reset_at := reset_at
  remaining_le := h
  limit_pos := by decide

/-- The window opens with 90 requests. -/
def sampleOpening : BudgetEntry where
  call := .observe 7 (sampleQuota 90 2000 (by decide)) none
  inserted_at := 1000
  refund_at := 1000
  now := 1000
  before := ∅

def sampleAdmission : BudgetEntry where
  call := .admitCall ⟨20, by decide⟩ 7 true
  inserted_at := 1100
  refund_at := 1100
  now := 1100
  before := sampleOpening.after

/-- The response was not modified, and its debit is given back. -/
def sampleRefund : BudgetEntry where
  call := .observe 7 (sampleQuota 90 2000 (by decide)) (some ⟨7, 2000, 2⟩)
  inserted_at := 1200
  refund_at := 1200
  now := 1200
  before := sampleAdmission.after

/-- A late response of the window before. -/
def sampleLate : BudgetEntry where
  call := .observe 7 (sampleQuota 10 1999 (by decide)) none
  inserted_at := 1100
  refund_at := 1100
  now := 1100
  before := sampleOpening.after

theorem sampleOpening_run : BudgetRun [sampleOpening] sampleOpening.after 1000 :=
  .call sampleOpening (.start 1000) rfl le_rfl le_rfl le_rfl fun _ h => nomatch h

theorem sampleRefund_conserved :
    BudgetConserved [sampleOpening, sampleAdmission, sampleRefund] sampleRefund.after := by
  refine api_budget_conserved (t := 1200) ?_
  have h₁ : BudgetRun [sampleOpening, sampleAdmission] sampleAdmission.after 1100 :=
    .call sampleAdmission sampleOpening_run rfl (by decide) le_rfl le_rfl fun _ h => nomatch h
  refine .call sampleRefund h₁ rfl (by decide) le_rfl le_rfl ?_
  rintro r hr
  cases hr
  exact ⟨sampleAdmission, by simp, by decide⟩

/-- An observation older than the recorded window bounds nothing: 90 requests
are left after it reported 10. -/
theorem late_observation_ignored :
    ¬ ∀ es budgets t, BudgetRun es budgets t → ∀ es₁ e es₂ id quota, es = es₁ ++ e :: es₂ →
      (∃ o ∈ es₁, ∃ q, o.Opens id q) → e.Observes id quota → (∀ a ∈ es₂, ∀ q, ¬ a.Opens id q) →
      ∀ row, budgets.get? id = some row → row.remaining ≤ quota.remaining + refunds id es₂ := by
  intro h
  have hrun : BudgetRun [sampleOpening, sampleLate] sampleLate.after 1100 :=
    .call sampleLate sampleOpening_run rfl (by decide) le_rfl le_rfl fun _ h => nomatch h
  have hopens : sampleOpening.Opens 7 (sampleQuota 90 2000 (by decide)) :=
    ⟨⟨by decide, none, rfl⟩, by decide⟩
  have := h _ _ _ hrun [sampleOpening] sampleLate [] 7 _ rfl ⟨_, by simp, _, hopens⟩
    ⟨by decide, none, rfl⟩ (by simp) _ rfl
  exact absurd this (by decide)

end ExtraCodeowners
