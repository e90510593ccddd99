import ExtraCodeowners.Claims

/-!
# Claims on authority changes

Leasing a coalesced authority row, its cursor and page checkpoints, and the
ways a pass over it ends.
-/

namespace ExtraCodeowners

structure ClaimedAuthorityJob where
  id : Nat
  installation_id : Nat
  repository_full_name : Option Repository
  base_ref : Option Str
  reason : Str
  generation : Nat
  attempts : Nat
  lease_owner : Str
  pull_cursor_number : Nat
  handled_pull_fingerprints : Dict Str Str
  listing_next_page : Nat
  listing_last_number : Nat
  interactive_wake_generation : Nat
  listing_expected_total : Option Nat
  membership_next_page : Nat
  membership_expected_total : Option Nat
  target_base_refs : Dict Str Str

/-- An interactive evaluation that the authority row blocks. -/
def isDirectWaiter (authority : AuthorityJob) (job : EvaluationJob) : Bool :=
  job.installation_id = authority.installation_id &&
    (authority.scope_key = .all ||
      (authority.scope_key = .repository job.repository_full_name &&
        (authority.base_ref = [] || job.base_ref_hint = some authority.base_ref))) &&
    job.state = .pending && job.work_class = .interactive

def directWaiterAmong (jobs : Dict Nat EvaluationJob) (authority : AuthorityJob) : Bool :=
  jobs.any fun _ job => isDirectWaiter authority job

def authorityDirectWaiter (db : Db) (authority : AuthorityJob) : Bool :=
  directWaiterAmong db.evaluation_jobs authority

def authorityHasDirectWaiter (job : ClaimedAuthorityJob) (db : Db) : Bool :=
  match db.authority_jobs.get? job.id with
  | none => false
  | some row => authorityDirectWaiter db row

/-! ## Claiming -/

def isClaimableAuthority (now : Time) (db : Db) (job : AuthorityJob) : Bool :=
  job.state = .pending && job.available_at ≤ now && leaseIsFree now job.lease_until &&
    providerAvailable now job.installation_id db

def authorityRank (prioritize_interactive : Bool) (db : Db) (job : AuthorityJob) : Nat × Nat :=
  if job.scope_key = .all then (0, 0)
  else
    (if prioritize_interactive && authorityDirectWaiter db job then 1 else 2,
      if job.base_ref = [] && job.target_base_refs.entries.isEmpty then 1 else 2)

def authorityOrder (prioritize_interactive : Bool) (db : Db) (a b : Nat × AuthorityJob) : Ordering :=
  (compare (authorityRank prioritize_interactive db a.2).1 (authorityRank prioritize_interactive db b.2).1).then <|
    (compare (authorityRank prioritize_interactive db a.2).2
      (authorityRank prioritize_interactive db b.2).2).then <|
    (compare a.2.available_at b.2.available_at).then (compare a.1 b.1)

def AuthorityJob.claimed (job : AuthorityJob) (owner : Str) (lease_until : Time) : AuthorityJob :=
  { job with
    lease_owner := some owner
    lease_until := some lease_until
    attempts := job.attempts + 1
    generation := if job.lease_owner.isSome then job.generation + 1 else job.generation }

def claimedAuthorityView (id : Nat) (row : AuthorityJob) (owner : Str) : ClaimedAuthorityJob where
  id := id
  installation_id := row.installation_id
  repository_full_name :=
    match row.scope_key with
    | .all => none
    | .repository full_name => some full_name
  base_ref := if row.base_ref = [] then none else some row.base_ref
  reason := row.reason
  generation := row.generation
  attempts := row.attempts
  lease_owner := owner
  pull_cursor_number := row.pull_cursor_number
  handled_pull_fingerprints := row.handled_pull_fingerprints
  listing_next_page := row.listing_next_page
  listing_last_number := row.listing_last_number
  interactive_wake_generation := row.interactive_wake_generation
  listing_expected_total := row.listing_expected_total
  membership_next_page := row.membership_next_page
  membership_expected_total := row.membership_expected_total
  target_base_refs := row.target_base_refs

def claimAuthority (now : Time) (locked : Nat → Bool) (owner : Str) (lease_seconds : Nat)
    (prioritize_interactive : Bool) (db : Db) : Db × Option ClaimedAuthorityJob :=
  match db.authority_jobs.select (fun id job => !locked id && isClaimableAuthority now db job)
      (fun a b => authorityOrder prioritize_interactive db a b = .lt) with
  | none => (db, none)
  | some (id, job) =>
    ({ db with
        authority_jobs := db.authority_jobs.set id (job.claimed owner (now + seconds lease_seconds)) },
      some (claimedAuthorityView id (job.claimed owner (now + seconds lease_seconds)) owner))

/-! ## Checkpoints of a pass -/

def holdsAuthority (job : ClaimedAuthorityJob) (owner : Str) (id : Nat) (row : AuthorityJob) : Bool :=
  id = job.id && row.generation = job.generation && row.lease_owner = some owner

/-- Checkpoints also need an unexpired lease. -/
def holdsAuthorityLease (now : Time) (job : ClaimedAuthorityJob) (id : Nat) (row : AuthorityJob) : Bool :=
  holdsAuthority job job.lease_owner id row &&
    match row.lease_until with
    | none => false
    | some expiry => now < expiry

def updateAuthority (p : Nat → AuthorityJob → Bool) (values : AuthorityJob → AuthorityJob) (db : Db) :
    Db × Bool :=
  ({ db with authority_jobs := db.authority_jobs.updateWhere p values }, db.authority_jobs.any p)

def renewAuthorityClaim (now : Time) (job : ClaimedAuthorityJob) (lease_seconds : Nat) (db : Db) :
    Db × Bool :=
  updateAuthority (fun id row => holdsAuthority job job.lease_owner id row && row.state = .pending)
    (fun row => { row with lease_until := some (now + seconds lease_seconds) }) db

def advanceAuthorityCursor (now : Time) (job : ClaimedAuthorityJob) (number : Nat)
    (handled_pull_fingerprints : Option (Dict Str Str))
    (listing_next_page listing_last_number : Option Nat) (db : Db) : Db × Bool :=
  updateAuthority (holdsAuthorityLease now job)
    (fun row => { row with
      pull_cursor_number := if row.pull_cursor_number < number then number else row.pull_cursor_number
      handled_pull_fingerprints := handled_pull_fingerprints.getD row.handled_pull_fingerprints
      listing_next_page := listing_next_page.getD row.listing_next_page
      listing_last_number := listing_last_number.getD row.listing_last_number }) db

/-- Children and the progress of their page commit together. -/
def advanceInstallationAuthorityPage (now : Time) (job : ClaimedAuthorityJob)
    (requests : List AuthorityRequest) (next_page : Nat) (expected_total : Option Nat) (db : Db) :
    Except Str (Db × Bool) :=
  if job.repository_full_name ≠ none then
    .error ("installation pagination requires an installation authority job" : Str)
  else if requests.any fun request => request.installation_id ≠ job.installation_id ||
      request.repository_full_name = none then
    .error ("installation page contains a child outside its installation" : Str)
  else if db.authority_jobs.any (holdsAuthorityLease now job) then
    .ok (updateAuthority (holdsAuthorityLease now job)
      (fun row => { row with
        listing_next_page := next_page
        listing_expected_total := expected_total })
      (requests.foldl (fun db request => enqueueAuthorityInSession now request db) db))
  else .ok (db, false)

def advanceAuthorityMembershipPage (now : Time) (job : ClaimedAuthorityJob) (next_page : Nat)
    (expected_total : Option Nat) (db : Db) : Db × Bool :=
  updateAuthority (holdsAuthorityLease now job)
    (fun row => { row with
      membership_next_page := next_page
      membership_expected_total := expected_total }) db

/-! ## The end of a pass -/

/-- The row restarted on the evidence that arrived during its pass. -/
def AuthorityJob.restarted (now : Time) (row : AuthorityJob) : AuthorityJob :=
  let targets := if row.pending_full_rescan then ∅ else row.pending_base_refs
  { row with
    generation := row.generation + 1
    base_ref := []
    target_base_refs := targets
    pull_cursor_number := 0
    handled_pull_fingerprints := ∅
    listing_next_page := 1
    listing_last_number := 0
    listing_expected_total := none
    membership_next_page := 1
    membership_expected_total := none
    interactive_wake_generation := 0
    pending_base_refs := ∅
    pending_full_rescan := false
    reason :=
      match row.pending_rescan_reason.filter (· ≠ []) with
      | some reason => reason
      | none => targets.values.getLast?.getD ("push.repository_base" : Str)
    pending_rescan_reason := none
    requested_at := now
    available_at := now
    state := .pending
    attempts := 0
    lease_owner := none
    lease_until := none
    last_error := none }

def AuthorityJob.hasPending (row : AuthorityJob) : Bool :=
  row.pending_full_rescan || !row.pending_base_refs.entries.isEmpty

def completeAuthority (now : Time) (job : ClaimedAuthorityJob) (owner : Str) (db : Db) : Db × Bool :=
  match (db.authority_jobs.get? job.id).filter (holdsAuthority job owner job.id) with
  | none => (db, false)
  | some row =>
    if row.hasPending then
      ({ db with
          authority_jobs := db.authority_jobs.updateWhere (holdsAuthority job owner)
            (·.restarted now) }, true)
    else ({ db with authority_jobs := db.authority_jobs.deleteWhere (holdsAuthority job owner) }, true)

def failAuthority (now : Time) (job : ClaimedAuthorityJob) (owner error : Str)
    (max_delay_seconds minimum_delay_seconds : Nat) (db : Db) : Db :=
  let delay_seconds :=
    max 1 (min max_delay_seconds (max minimum_delay_seconds (2 ^ min job.attempts 30)))
  (updateAuthority (holdsAuthority job owner)
    (fun row => { row with
      state := .pending
      available_at :=
        if job.interactive_wake_generation < row.interactive_wake_generation then now
        else now + seconds delay_seconds
      lease_owner := none
      lease_until := none
      last_error := some (error.take 2000) }) db).1

/-- The waiters are looked up in the snapshot of the update; the row itself is
read again once its lock is granted. -/
def deferAuthority (now : Time) (snapshot : Dict Nat EvaluationJob) (job : ClaimedAuthorityJob)
    (owner error : Str) (delay_seconds : Nat) (preserve_direct_wakeup : Bool) (db : Db) : Db × Bool :=
  updateAuthority (holdsAuthority job owner)
    (fun row => { row with
      attempts := row.attempts - 1
      available_at :=
        if preserve_direct_wakeup && directWaiterAmong snapshot row then now
        else now + seconds (clampDelay delay_seconds)
      lease_owner := none
      lease_until := none
      last_error := some (error.take 2000) }) db

end ExtraCodeowners
