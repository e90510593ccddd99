import ExtraCodeowners.Slots

/-!
# Schedules

A run in which no effect fails, one process after another, as a function that
can be evaluated. GitHub answers as a parameter says.
-/

namespace ExtraCodeowners

open System

structure Replies where
  reply : GitHub → (r : GitHubRead) → Option r.Answer
  sound : ∀ g r a, reply g r = some a → g.answers r a

/-! ## One effect -/

instance (w : CheckWrite) (check : Option Check) (id : Nat) : Decidable (w.addresses check id) :=
  match w, check with
  | .upsertInterim _, none | .upsertCompleted .., none => isTrue fun _ h => by cases h
  | .upsertInterim _, some c | .upsertCompleted .., some c =>
    decidable_of_iff (c.id = id) ⟨fun h _ hc => by cases hc; exact h, fun h => h c rfl⟩
  | .resetCheckRun .., none | .cancelCheckRun .., none => isFalse fun h => by obtain ⟨-, c, hc, -⟩ := h; cases hc
  | .resetCheckRun _ check_run_id, some c | .cancelCheckRun _ check_run_id, some c =>
    decidable_of_iff (id = check_run_id ∧ c.id = id)
      ⟨fun h => ⟨h.1, c, rfl, h.2⟩, fun h => by obtain ⟨hid, c', hc, h⟩ := h; cases hc; exact ⟨hid, h⟩⟩

def Call.isFree : Call → Bool
  | .acceptDelivery _ _ (some (.authority _)) => false
  | _ => true

/-- The id of the check a write addresses; a new check is the first one. -/
def CheckWrite.target (w : CheckWrite) (s : World) : Nat := ((s.github.checks w.key).map (·.id)).getD 1

/-- An effect that does what it is for. -/
def World.follow (admitted : Call → Bool) (R : Replies) (p : Pid) (i : Instant) (s : World) :
    (e : Effect) → Option (e.Answer × World)
  | .query q => some (q.run i s.db, s)
  | .call c =>
    if admitted c then
      match c.run i s.db with
      | .ok (db', a) => some (a, s.committed p i c db')
      | .error _ => none
    else none
  | .acquireCheckWriteGuard id head =>
    if s.check_guard (id, head) = none then some ((), s.taken p id head) else none
  | .releaseCheckWriteGuard id head => some ((), s.released p id head)
  | .acquireAuthorityGuard id => some ((), s.shared p id true)
  | .releaseAuthorityGuard id => some ((), s.shared p id false)
  | .read r => (R.reply s.github r).map (·, s)
  | .write w =>
    if w.addresses (s.github.checks w.key) (w.target s) then some ((), s.written w (w.target s)) else none
  | .leaseIsLost => some (false, s)
  | .recordAudit .. => some ((), s)
  | .recallPolicy base_ref => some (recalledPolicy base_ref (s.trace p), s)
  | .rememberPolicy .. => some ((), s)
  | .pick => some (true, s)

theorem admits_of_isFree {s : World} {c : Call} (h : c.isFree = true) : s.admits c := by
  cases c with
  | acceptDelivery delivery_id event request =>
    cases request with
    | none => trivial
    | some request => cases request <;> trivial
  | _ => trivial

theorem follow_performs {admitted : Call → Bool} {R : Replies} {p : Pid} {i : Instant} {s s' : World} {e : Effect}
    {a : e.Answer} (hadmits : ∀ c, admitted c = true → s.admits c)
    (h : s.follow admitted R p i e = some (a, s')) :
    performs p s e (.ok a) (s'.seen p ⟨s.db, s.github, i, e, .ok a⟩) := by
  refine ⟨fun x hx => (by cases hx), i, s', ?_, rfl⟩
  cases e with
  | query q | recallPolicy base_ref =>
    cases h
    exact ⟨rfl, rfl⟩
  | call c =>
    simp only [World.follow] at h
    split at h
    · rename_i hfree
      split at h
      · rename_i db' b hr
        cases h
        exact ⟨hadmits c hfree, db', hr, rfl⟩
      · cases h
    · cases h
  | acquireCheckWriteGuard id head =>
    simp only [World.follow] at h
    split at h
    · rename_i hguard
      cases h
      exact ⟨hguard, rfl⟩
    · cases h
  | read r =>
    obtain ⟨b, hb, hs⟩ := Option.map_eq_some_iff.mp h
    cases hs
    exact ⟨R.sound _ _ _ hb, rfl⟩
  | write w =>
    simp only [World.follow] at h
    split at h
    · rename_i haddresses
      cases h
      exact Or.inl ⟨_, haddresses, rfl⟩
    · cases h
  | _ =>
    cases h
    rfl

/-! ## Many effects -/

abbrev Configuration := Config Pid Effect Effect.Answer Exn World

def Configuration.begin (c : Configuration) (p : Pid) (prog : Program PUnit) : Configuration :=
  ⟨Function.update c.procs p (some prog), c.state.cleared p⟩

/-- The next effects of a process, or fewer when it cannot go on. -/
def Configuration.go (R : Replies) (p : Pid) (i : Instant) : Nat → Configuration → Configuration
  | 0, c => c
  | n + 1, c =>
    match c.procs p with
    | some (.op e k) =>
      match c.state.follow Call.isFree R p i e with
      | some (a, s) => Configuration.go R p i n
          ⟨Function.update c.procs p (some (k (.ok a))), s.seen p ⟨c.state.db, c.state.github, i, e, .ok a⟩⟩
      | none => c
    | _ => c

def Configuration.deliver (R : Replies) (p : Pid) (i : Instant) (c : Configuration) : Configuration :=
  match c.procs p with
  | some (.op e k) =>
    match c.state.follow (fun _ => true) R p i e with
    | some (a, s) =>
      ⟨Function.update c.procs p (some (k (.ok a))), s.seen p ⟨c.state.db, c.state.github, i, e, .ok a⟩⟩
    | none => c
  | _ => c

def Configuration.next (c : Configuration) (p : Pid) : Option Effect :=
  match c.procs p with
  | some (.op e _) => some e
  | _ => none

theorem Configuration.next_eq_some {c : Configuration} {p : Pid} {e : Effect} (h : c.next p = some e) :
    ∃ k, c.procs p = some (.op e k) := by
  unfold Configuration.next at h
  split at h
  · rename_i e' k hk
    cases h
    exact ⟨k, hk⟩
  · cases h

section
variable [PullDigest] {settings : Settings} {github : GitHub} {c : Configuration} {p : Pid}

theorem Reached.begin (h : Reached settings github c) (hnone : c.procs p = none) {prog : Program PUnit}
    (hprog : Programs settings p prog) : Reached settings github (c.begin p prog) :=
  Relation.ReflTransGen.tail h (Step.start p c.procs c.state prog hnone hprog)

theorem Reached.follow (h : Reached settings github c) {e : Effect} {k : Except Exn e.Answer → Program PUnit}
    (hk : c.procs p = some (.op e k)) {admitted : Call → Bool}
    (hadmits : ∀ call, admitted call = true → c.state.admits call) {R : Replies} {i : Instant} {a : e.Answer}
    {s : World} (hs : c.state.follow admitted R p i e = some (a, s)) : Reached settings github
      ⟨Function.update c.procs p (some (k (.ok a))), s.seen p ⟨c.state.db, c.state.github, i, e, .ok a⟩⟩ :=
  Relation.ReflTransGen.tail h (Step.perform p c.procs c.state e k (.ok a) _ hk (follow_performs hadmits hs))

theorem Reached.go (R : Replies) (p : Pid) (i : Instant) : ∀ (n : Nat) {c : Configuration},
    Reached settings github c → Reached settings github (c.go R p i n)
  | 0, _, h => h
  | n + 1, c, h => by
    unfold Configuration.go
    split
    · rename_i e k hk
      split
      · rename_i a s hs
        exact Reached.go R p i n (h.follow hk (fun _ => admits_of_isFree) hs)
      · exact h
    · exact h

/-- Where nobody holds a shared guard, every delivery is admitted. -/
theorem Reached.deliver (h : Reached settings github c) (hguard : c.state.authority_guard = fun _ _ => false)
    (R : Replies) (p : Pid) (i : Instant) : Reached settings github (c.deliver R p i) := by
  have hadmits : ∀ call, (fun _ : Call => true) call = true → c.state.admits call := by
    intro call _
    cases call with
    | acceptDelivery delivery_id event request =>
      cases request with
      | none => trivial
      | some request =>
        cases request with
        | authority request => exact fun q => congrFun (congrFun hguard request.installation_id) q
        | _ => trivial
    | _ => trivial
  unfold Configuration.deliver
  split
  · rename_i e k hk
    split
    · rename_i a s hs
      exact h.follow hk hadmits hs
    · exact h
  · exact h

end

/-! ## A delivery from its acceptance to its result -/

def sampleSettings : Settings where
  org_config_repository := "p"
  webhook_delivery_retention_days := 30
  reconcile_interval_seconds := 3600
  reconcile_recheck_seconds := 86400
  worker_poll_milliseconds := 1000
  worker_lease_seconds := 300
  worker_retry_max_seconds := 300
  authority_inaccessible_retry_max_seconds := 86400

def sampleOpenPull : Pull where
  number := 7
  state := .OPEN
  head_sha := sampleHead
  base_sha := "b"
  base_ref := "main"
  repository_full_name := ⟨"o/r"⟩
  changed_files := 1
  labels := ∅

def sampleListed : AuthorityPull := ⟨7, .OPEN, sampleHead, "main", "2026-01-01T00:00:00Z"⟩

/-- One open pull request on a branch with a policy, and no check yet. -/
def sampleGitHub : GitHub where
  pulls key := if key = ⟨1, ⟨"o/r"⟩, 7⟩ then some sampleOpenPull else none
  listing _ _ := [sampleListed]
  branch_heads _ _ := "b"
  policy_texts _ _ := some "p"
  checks _ := none

def sampleVerdict : EvaluationResult := ⟨.SUCCESS, "approved", [], [], [], []⟩

/-- The only page of an installation of one repository. -/
def sampleRepositories : InstallationRepositoryPage := ⟨⟨[(⟨"o/r"⟩, false)], by decide, by decide, by decide⟩, 0, 1⟩

theorem sampleRepositories_validated : sampleRepositories.Validated 1 none :=
  ⟨fun _ h => (by cases h), by decide, by decide, by decide⟩

theorem sampleListed_of : AuthorityPullPage.Of ⟨[sampleListed], 0, 7⟩ [sampleListed] 1 0 :=
  ⟨by decide, by decide, by decide, by decide, by decide, Or.inr (by decide)⟩

def sampleReplies : Replies where
  reply g
    | .getPull installation_id full_name number => g.pulls ⟨installation_id, full_name, number⟩
    | .getBranchHead _ full_name base_ref => some (g.branch_heads full_name base_ref)
    | .repositoryPolicyText _ full_name sha => some (g.policy_texts full_name sha)
    | .hasCheckRun key | .hasReconciliationCheck key => some (g.checks key).isSome
    | .existingCheckRunId key => some ((g.checks key).map (·.id))
    | .listCommitPulls _ => some [⟨7, .OPEN, sampleHead⟩]
    | .evaluateCurrent .. => some sampleVerdict
    | .listInstallationRepositoryPage _ page expected_total =>
      if page = 1 ∧ expected_total = none then some sampleRepositories else none
    | .installationIncludesRepository .. => some true
    | .listAuthorityPullPage installation_id full_name page after_number =>
      if g.listing installation_id full_name = [sampleListed] ∧ page = 1 ∧ after_number = 0 then
        some ⟨[sampleListed], 0, 7⟩
      else none
    | _ => none
  sound g r a h := by
    cases r with
    | listInstallationRepositoryPage installation_id page expected_total =>
      obtain ⟨⟨rfl, rfl⟩, ha⟩ := Option.ite_none_right_eq_some.mp h
      cases ha
      exact sampleRepositories_validated
    | listAuthorityPullPage installation_id full_name page after_number =>
      obtain ⟨⟨hlisting, rfl, rfl⟩, ha⟩ := Option.ite_none_right_eq_some.mp h
      cases ha
      show AuthorityPullPage.Of _ (g.listing installation_id full_name) 1 0
      rw [hlisting]
      exact sampleListed_of
    | _ => first | (cases h; done) | (cases h; rfl) | exact h | trivial

/-- The digest of `[7,"aa…","main","2026-01-01T00:00:00Z"]`; nothing else is digested. -/
abbrev sampleDigest : PullDigest where
  hexdigest observation :=
    if observation = ⟨7, sampleHead, "main", "2026-01-01T00:00:00Z"⟩ then
      "20fe2d7ea19454a9383b29270e175bab02683aa25eafe3706a7511684bcf0d3b"
    else []

/-- The evaluation of the delivery, as the fan-out of its reset left it. -/
def sampleEvaluation : ClaimedJob := { sampleClaim with
  reason := "shared_head_invalidation"
  generation := 2
  lease_owner := "e"
  base_ref_hint := none }

/-- The delivery is accepted, and its webhook resets the head. -/
def sampleAccepted : Configuration :=
  (Configuration.begin (idle (World.initial sampleGitHub)) "h"
    (webhook sampleSettings "d" "pull_request" (.job sampleRequest))).go sampleReplies "h" sampleInstant 12

/-- The durable reset is about to be completed. -/
def sampleResetting : Configuration :=
  (sampleAccepted.begin "i" (Worker.runInvalidationSlot sampleSettings "i" false)).go sampleReplies "i"
    sampleInstant 23

/-- The evaluation is about to write its success. -/
def samplePublishing : Configuration :=
  ((sampleResetting.go sampleReplies "i" sampleInstant 1).begin "e"
    (Worker.runForegroundSlot sampleSettings "e")).go sampleReplies "e" sampleInstant 27

/-- The success is about to be recorded. -/
def sampleRecording : Configuration := samplePublishing.go sampleReplies "e" sampleInstant 7

/-- Another delivery for the head is accepted. -/
def sampleOvertaken : Configuration :=
  ((sampleRecording.go sampleReplies "e" sampleInstant 2).begin "g"
    (webhook sampleSettings "f" "pull_request" (.job sampleRequest))).go sampleReplies "g" sampleInstant 1

/-! ## An authority change from its acceptance to its end -/

/-- A change for the whole installation is accepted. -/
def sampleAnnounced : Configuration :=
  (Configuration.begin (idle (World.initial sampleGitHub)) "h" (webhook sampleSettings "d" "push"
    (.authority ⟨1, none, none, "push.organization_policy"⟩))).deliver sampleReplies "h" sampleInstant

/-- Its repository has a row of its own, and its pass is about to be completed. -/
def sampleExpanded : Configuration :=
  (sampleAnnounced.begin "a" (@Worker.runAuthoritySlot sampleDigest sampleSettings 9 "a" false)).go sampleReplies "a"
    sampleInstant 4

/-- The pull request is queued again, its page is left, and the pass over the
repository is about to be completed. -/
def sampleRevoked : Configuration :=
  ((sampleExpanded.go sampleReplies "a" sampleInstant 1).begin "b"
    (@Worker.runAuthoritySlot sampleDigest sampleSettings 9 "b" false)).go sampleReplies "b" sampleInstant 19

def sampleExpansion : ClaimedAuthorityJob where
  id := 1
  installation_id := 1
  repository_full_name := none
  base_ref := none
  reason := "push.organization_policy"
  generation := 1
  attempts := 1
  lease_owner := "a"
  pull_cursor_number := 0
  handled_pull_fingerprints := ∅
  listing_next_page := 1
  listing_last_number := 0
  interactive_wake_generation := 0
  listing_expected_total := none
  membership_next_page := 1
  membership_expected_total := none
  target_base_refs := ∅

def sampleRevocation : ClaimedAuthorityJob := { sampleExpansion with
  id := 2
  repository_full_name := some ⟨"o/r"⟩
  lease_owner := "b" }

section
variable [PullDigest]

theorem sampleAccepted_reached : Reached sampleSettings sampleGitHub sampleAccepted :=
  Reached.go _ _ _ _ (Reached.begin .refl rfl (.webhook _ _ _))

theorem sampleResetting_reached : Reached sampleSettings sampleGitHub sampleResetting :=
  Reached.go _ _ _ _ (sampleAccepted_reached.begin (by rfl) (.invalidation false))

theorem samplePublishing_reached : Reached sampleSettings sampleGitHub samplePublishing :=
  Reached.go _ _ _ _ ((sampleResetting_reached.go _ _ _ 1).begin (by rfl) .foreground)

theorem sampleRecording_reached : Reached sampleSettings sampleGitHub sampleRecording :=
  samplePublishing_reached.go _ _ _ _

theorem sampleOvertaken_reached : Reached sampleSettings sampleGitHub sampleOvertaken :=
  Reached.go _ _ _ _ ((sampleRecording_reached.go _ _ _ 2).begin (by rfl) (.webhook _ _ _))

theorem sampleAnnounced_reached : Reached sampleSettings sampleGitHub sampleAnnounced := by
  refine Reached.deliver (Reached.begin .refl rfl (.webhook _ _ _)) ?_ _ _ _
  funext id q
  show Function.update (fun _ => false) _ false q = false
  rw [Function.update_eq_self_iff.mpr rfl]

end

theorem sampleExpanded_reached : @Reached sampleDigest sampleSettings sampleGitHub sampleExpanded :=
  letI := sampleDigest
  Reached.go _ _ _ _ (sampleAnnounced_reached.begin (by rfl) (.authority 9 false))

theorem sampleRevoked_reached : @Reached sampleDigest sampleSettings sampleGitHub sampleRevoked :=
  letI := sampleDigest
  Reached.go _ _ _ _ ((sampleExpanded_reached.go _ _ _ 1).begin (by rfl) (.authority 9 false))

end ExtraCodeowners
