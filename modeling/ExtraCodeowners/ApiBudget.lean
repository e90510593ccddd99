import Mathlib.Algebra.Order.Floor.Div
import ExtraCodeowners.Database

/-!
# The request budget of an installation

The REST core quota that every replica charges before a request and corrects
from the headers of a response. Both calls are one transaction on the locked
row of the installation, so a run is a sequence of calls; each reads the clock
for itself.
-/

namespace ExtraCodeowners

/-! ## Data -/

/-- What a response says about the core quota. -/
structure CoreQuota where
  limit : Nat
  remaining : Nat
  reset_at : Time
  remaining_le : remaining ≤ limit
  limit_pos : 0 < limit

structure BudgetReceipt where
  installation_id : Nat
  reset_at : Time
  revision : Nat
  deriving DecidableEq

structure InstallationApiBudget where
  request_limit : Nat
  remaining : Nat
  reset_at : Time
  probe_after : Time
  accounting_revision : Nat

abbrev Budgets := Dict Nat InstallationApiBudget

structure RecoveryApiBudget where
  reserve_percent : Nat
  valid : 1 ≤ reserve_percent ∧ reserve_percent ≤ 90

inductive BudgetError where
  | ValueError (message : Str)
  | RecoveryBudgetDeferredError (retry_after_seconds : Nat)
  | ProviderQuotaExhaustedError (retry_after_seconds : Nat)

/-! ## Response headers -/

/-- `[0-9]{1,12}` and its value. -/
def headerNumber (value : Str) : Option Nat :=
  if value ≠ [] ∧ value.length ≤ 12 ∧ value.all Char.isDigit then
    some (value.foldl (fun n c => 10 * n + (c.toNat - '0'.toNat)) 0)
  else none

/-- `CoreQuota.from_headers`: other resources and incomplete, stale or
malformed headers say nothing. -/
def CoreQuota.fromHeaders (headers : Dict Str Str) (now : Time) : Option CoreQuota :=
  let read (name : Str) := headerNumber ((headers.get? name).getD [])
  if headers.get? ("x-ratelimit-resource" : Str) ≠ some ("core" : Str) then none
  else
    match read ("x-ratelimit-limit" : Str), read ("x-ratelimit-remaining" : Str),
        read ("x-ratelimit-reset" : Str) with
    | some limit, some remaining, some reset =>
      if h : remaining ≤ limit ∧ limit ≤ 1000000000 ∧ 0 < limit then
        if now < seconds reset ∧ seconds reset ≤ now + seconds 86400 then
          some
            { limit := limit
              remaining := remaining
              reset_at := seconds reset
              remaining_le := h.1
              limit_pos := h.2.2 }
        else none
      else none
    | _, _, _ => none

/-! ## One call on the locked row -/

/-- The row the insert leaves where there was none. -/
def newRow (now : Time) : InstallationApiBudget where
  request_limit := 0
  remaining := 0
  reset_at := now
  probe_after := now
  accounting_revision := 0

/-- What recovery leaves of a limit for direct events. For the limits
`from_headers` lets through, the float quotient rounds up to no other number. -/
def RecoveryApiBudget.reserve (budget : RecoveryApiBudget) (request_limit : Nat) : Nat :=
  (request_limit * budget.reserve_percent) ⌈/⌉ 100

/-- The part of a delay in whole seconds, rounded up. -/
def ceilSeconds (delay : Time) : Nat := delay ⌈/⌉ seconds 1

def RecoveryApiBudget.admitRow (budget : RecoveryApiBudget) (installation_id : Nat) (recovery : Bool)
    (now : Time) (row : InstallationApiBudget) :
    Except BudgetError (Option BudgetReceipt) × InstallationApiBudget :=
  if now < row.reset_at ∧ 0 < row.request_limit then
    if row.remaining = 0 ∨ recovery = true ∧ row.remaining ≤ budget.reserve row.request_limit then
      let delay := ceilSeconds (row.reset_at - now) + 1
      if row.remaining = 0 then (.error (.ProviderQuotaExhaustedError (max 1 delay)), row)
      else (.error (.RecoveryBudgetDeferredError (max 1 delay)), row)
    else
      (.ok (some ⟨installation_id, row.reset_at, row.accounting_revision + 1⟩),
        { row with
          remaining := row.remaining - 1
          accounting_revision := row.accounting_revision + 1 })
  else if recovery then
    if now < row.probe_after then
      (.error (.RecoveryBudgetDeferredError (max 1 (ceilSeconds (row.probe_after - now)))), row)
    else
      -- a new or reset budget gets one probe a minute, not a guessed refill
      (.ok none, { row with probe_after := now + seconds 60 })
  else (.ok none, row)

/-- The conditions under which an unchanged response gives its debit back. -/
def refundable (installation_id : Nat) (quota : CoreQuota) (receipt : BudgetReceipt) (now : Time)
    (row : InstallationApiBudget) : Bool :=
  receipt.installation_id = installation_id && receipt.reset_at = row.reset_at &&
    now < row.reset_at && receipt.revision = row.accounting_revision &&
    row.remaining + 1 ≤ quota.remaining && row.remaining < row.request_limit

def refunded (installation_id : Nat) (quota : CoreQuota) (receipt : Option BudgetReceipt) (now : Time)
    (row : InstallationApiBudget) : Nat :=
  if receipt.any fun r => refundable installation_id quota r now row then 1 else 0

/-- `observe` reads the clock for the refund and again for the window. -/
def observeRow (installation_id : Nat) (quota : CoreQuota) (receipt : Option BudgetReceipt)
    (refund_at now : Time) (row : InstallationApiBudget) : InstallationApiBudget :=
  if quota.reset_at < row.reset_at then row
  else if row.request_limit = 0 ∨ row.reset_at ≤ now then
    { row with
      request_limit := quota.limit
      remaining := quota.remaining
      reset_at := quota.reset_at
      accounting_revision := row.accounting_revision + 1 }
  else
    { row with
      remaining := min (row.remaining + refunded installation_id quota receipt refund_at row)
        quota.remaining
      request_limit := max row.request_limit quota.limit
      reset_at := if quota.remaining = 0 then quota.reset_at else row.reset_at
      accounting_revision := row.accounting_revision + 1 }

/-! ## The calls -/

def lockedRow (installation_id : Nat) (now : Time) (budgets : Budgets) : InstallationApiBudget :=
  (budgets.get? installation_id).getD (newRow now)

def INVALID_INSTALLATION : Str := ("installation_id must be positive" : Str)

/-- `admit` -/
def RecoveryApiBudget.admitCall (budget : RecoveryApiBudget) (installation_id : Nat) (recovery : Bool)
    (inserted_at now : Time) (budgets : Budgets) :
    Except BudgetError (Option BudgetReceipt) × Budgets :=
  if installation_id = 0 then (.error (.ValueError INVALID_INSTALLATION), budgets)
  else
    let (outcome, row) := budget.admitRow installation_id recovery now
      (lockedRow installation_id inserted_at budgets)
    (outcome, budgets.set installation_id row)

def observe (installation_id : Nat) (quota : CoreQuota) (receipt : Option BudgetReceipt)
    (inserted_at refund_at now : Time) (budgets : Budgets) : Except BudgetError Unit × Budgets :=
  if installation_id = 0 then (.error (.ValueError INVALID_INSTALLATION), budgets)
  else
    (.ok (), budgets.set installation_id
      (observeRow installation_id quota receipt refund_at now
        (lockedRow installation_id inserted_at budgets)))

/-! ## What a call does to the row -/

section
variable {installation_id : Nat} {row : InstallationApiBudget}

/-- An admission debits a live row of known limit, or leaves the account of the
row as it is. -/
theorem admitRow_cases (installation_id : Nat) (row : InstallationApiBudget) (budget : RecoveryApiBudget)
    (recovery : Bool) (now : Time) :
    (now < row.reset_at ∧ 0 < row.request_limit ∧ 0 < row.remaining ∧
      (recovery = true → budget.reserve row.request_limit < row.remaining) ∧
      budget.admitRow installation_id recovery now row =
        (.ok (some ⟨installation_id, row.reset_at, row.accounting_revision + 1⟩),
          { row with
            remaining := row.remaining - 1
            accounting_revision := row.accounting_revision + 1 })) ∨
    (now < row.reset_at ∧ 0 < row.request_limit ∧
      ∃ error, budget.admitRow installation_id recovery now row = (.error error, row)) ∨
    (¬ (now < row.reset_at ∧ 0 < row.request_limit) ∧
      (∀ receipt, (budget.admitRow installation_id recovery now row).1 ≠ .ok (some receipt)) ∧
      ∃ probe_after, (budget.admitRow installation_id recovery now row).2 =
        { row with probe_after := probe_after }) := by
  unfold RecoveryApiBudget.admitRow
  by_cases hl : now < row.reset_at ∧ 0 < row.request_limit
  · simp only [if_pos hl]
    by_cases hd : row.remaining = 0 ∨ recovery = true ∧ row.remaining ≤ budget.reserve row.request_limit
    · refine Or.inr (Or.inl ⟨hl.1, hl.2, ?_⟩)
      simp only [if_pos hd]
      split
      · exact ⟨_, rfl⟩
      · exact ⟨_, rfl⟩
    · have hd' := not_or.mp hd
      refine Or.inl ⟨hl.1, hl.2, by omega, fun hr => ?_, by simp only [if_neg hd]⟩
      exact lt_of_not_ge fun h => hd'.2 ⟨hr, h⟩
  · refine Or.inr (Or.inr ⟨hl, ?_⟩)
    simp only [if_neg hl]
    split
    · split
      · exact ⟨fun _ => by simp, row.probe_after, rfl⟩
      · exact ⟨fun _ => by simp, _, rfl⟩
    · exact ⟨fun _ => by simp, row.probe_after, rfl⟩

/-- The observation is taken into account: it is not older than the recorded
window. -/
def accepts (quota : CoreQuota) (row : InstallationApiBudget) : Prop := row.reset_at ≤ quota.reset_at

instance (quota : CoreQuota) (row : InstallationApiBudget) : Decidable (accepts quota row) :=
  inferInstanceAs (Decidable (row.reset_at ≤ quota.reset_at))

/-- The observation starts a window: there was none, or the recorded one is
over. -/
def opensWindow (quota : CoreQuota) (now : Time) (row : InstallationApiBudget) : Prop :=
  accepts quota row ∧ (row.request_limit = 0 ∨ row.reset_at ≤ now)

instance (quota : CoreQuota) (now : Time) (row : InstallationApiBudget) :
    Decidable (opensWindow quota now row) := by
  unfold opensWindow
  infer_instance

variable {quota : CoreQuota} {receipt : Option BudgetReceipt} {refund_at now : Time}

theorem observeRow_older (h : ¬ accepts quota row) :
    observeRow installation_id quota receipt refund_at now row = row := by
  unfold observeRow
  rw [if_pos (not_le.mp h)]

theorem observeRow_opens (h : opensWindow quota now row) :
    observeRow installation_id quota receipt refund_at now row =
      { row with
        request_limit := quota.limit
        remaining := quota.remaining
        reset_at := quota.reset_at
        accounting_revision := row.accounting_revision + 1 } := by
  unfold observeRow
  rw [if_neg (not_lt.mpr h.1), if_pos h.2]

theorem observeRow_within (ha : accepts quota row) (h : ¬ opensWindow quota now row) :
    observeRow installation_id quota receipt refund_at now row =
      { row with
        remaining := min (row.remaining + refunded installation_id quota receipt refund_at row)
          quota.remaining
        request_limit := max row.request_limit quota.limit
        reset_at := if quota.remaining = 0 then quota.reset_at else row.reset_at
        accounting_revision := row.accounting_revision + 1 } := by
  unfold observeRow
  rw [if_neg (not_lt.mpr ha), if_neg fun h' => h ⟨ha, h'⟩]

end

end ExtraCodeowners
