import ExtraCodeowners.Unicode
import ExtraCodeowners.Webhooks

/-!
# Check runs

Interim and terminal writes of the client on the check runs of one commit. An
interim state of an existing check is stored as a completed failure, so a
prefix of the external ID tells it from a result.
-/

namespace ExtraCodeowners

/-! ## What GitHub stores -/

/-- GitHub reports an empty text as null. -/
structure CheckRunOutput where
  title : Str
  summary : Str
  text : Option Str

structure CheckRun where
  id : Nat
  app_id : Option Int
  name : Str
  status : Str
  conclusion : Option Str
  external_id : Option Str
  output : Option CheckRunOutput
  details_url : Option Str

/-- The body of a request. The time stamps and the action button are left out:
GitHub's answers carry neither back to a decision. -/
structure CheckPayload where
  name : Option Str
  status : Str
  conclusion : Option Str
  external_id : Str
  title : Str
  summary : Str
  text : Str
  details_url : Option Str

def CheckPayload.output (payload : CheckPayload) : CheckRunOutput where
  title := payload.title
  summary := payload.summary
  text := if payload.text = [] then none else some payload.text

/-- A POST stores what it sends. -/
def CheckPayload.created (payload : CheckPayload) (id : Nat) (app_id : Int) : CheckRun where
  id := id
  app_id := some app_id
  name := payload.name.getD []
  status := payload.status
  conclusion := payload.conclusion
  external_id := some payload.external_id
  output := some payload.output
  details_url := payload.details_url

/-- A PATCH keeps what it does not send. -/
def CheckRun.patched (run : CheckRun) (payload : CheckPayload) : CheckRun :=
  { run with
    name := payload.name.getD run.name
    status := payload.status
    conclusion := payload.conclusion.or run.conclusion
    external_id := some payload.external_id
    output := some payload.output
    details_url := payload.details_url.or run.details_url }

/-! ## The client -/

def PENDING_CHECK_EXTERNAL_ID_PREFIX : Str := ("extra-codeowners:pending:" : Str)

/-- The arguments the three writes share. -/
structure CheckText where
  title : Str
  summary : Str
  text : Str
  details_url : Option Str
  external_id : Option Str

def CheckText.payload (content : CheckText) (name : Option Str) (status : Str) (conclusion : Option Str)
    (marker : Str) : CheckPayload where
  name := name
  status := status
  conclusion := conclusion
  external_id := (marker ++ content.external_id.getD []).take 255
  title := content.title.take 255
  summary := content.summary.take 65535
  text := content.text.take 65535
  details_url := content.details_url

inductive CheckRequest where
  | unchanged (id : Nat)
  | post (payload : CheckPayload)
  | patch (id : Nat) (payload : CheckPayload)

def CHECK_STATUSES : List Str := [("queued" : Str), ("in_progress" : Str), ("completed" : Str)]

/-- The first run of the listing with this name and App. -/
def latestCheckRun (app_id : Int) (check_name : Str) (runs : List CheckRun) : Option CheckRun :=
  runs.find? fun run => run.name = check_name && run.app_id = some app_id

def checkRunMatches (run : CheckRun) (payload : CheckPayload) : Bool :=
  match run.output with
  | none => false
  | some output =>
    run.status = ("completed" : Str) && run.conclusion = payload.conclusion &&
      run.external_id = some payload.external_id && output.title = payload.title &&
      output.summary = payload.summary && output.text.getD [] = payload.text &&
      (payload.details_url = none || run.details_url = payload.details_url)

/-- `upsert_check_run` up to its request, with the run that it looked up. -/
def upsertCheckRun (existing : Option CheckRun) (check_name status : Str) (conclusion : Option Str)
    (content : CheckText) (skip_if_unchanged : Bool) : Except Str CheckRequest :=
  if status ∉ CHECK_STATUSES then .error ("unsupported check-run status" : Str)
  else if status = ("completed" : Str) ∧ conclusion = none then
    .error ("completed check runs require a conclusion" : Str)
  else if status ≠ ("completed" : Str) ∧ conclusion ≠ none then
    .error ("non-completed check runs cannot have a conclusion" : Str)
  else if skip_if_unchanged ∧ status ≠ ("completed" : Str) then
    .error ("only completed check runs can skip an unchanged result" : Str)
  else
    let marker := if status ≠ ("completed" : Str) then PENDING_CHECK_EXTERNAL_ID_PREFIX else []
    let payload := content.payload (some check_name) status conclusion marker
    match existing with
    | none => .ok (.post payload)
    | some run =>
      if skip_if_unchanged && checkRunMatches run payload then .ok (.unchanged run.id)
      else if status ≠ ("completed" : Str) then
        .ok (.patch run.id { payload with
          name := none
          status := ("completed" : Str)
          conclusion := some ("failure" : Str) })
      else .ok (.patch run.id { payload with name := none })

def resetCheckRun (check_run_id : Nat) (check_name : Str) (content : CheckText) : CheckRequest :=
  .patch check_run_id (content.payload (some check_name) ("completed" : Str) (some ("failure" : Str))
    PENDING_CHECK_EXTERNAL_ID_PREFIX)

def CHECK_CONCLUSIONS : List Str :=
  [("action_required" : Str), ("cancelled" : Str), ("failure" : Str), ("neutral" : Str), ("skipped" : Str),
    ("stale" : Str), ("success" : Str), ("timed_out" : Str)]

def completeCheckRun (check_run_id : Nat) (check_name conclusion : Str) (content : CheckText) :
    Except Str CheckRequest :=
  if conclusion ∉ CHECK_CONCLUSIONS then .error ("unsupported check-run conclusion" : Str)
  else .ok (.patch check_run_id
    (content.payload (some check_name) ("completed" : Str) (some conclusion) []))

def checkRunIsCompleted (result : CheckRun) : Except Str Bool :=
  if result.status ∉ CHECK_STATUSES then .error ("check-run response omitted a supported status" : Str)
  else
    let pending_failure := result.conclusion = some ("failure" : Str) &&
      result.external_id.any fun external_id => PENDING_CHECK_EXTERNAL_ID_PREFIX.isPrefixOf external_id
    .ok (result.status = ("completed" : Str) && !pending_failure)

/-! ## External IDs -/

/-- A full name as GitHub gives it. -/
def IsGitHubName (full_name : Str) : Prop :=
  ∃ owner name : Str, full_name = owner ++ '/' :: name ∧
    ∀ c ∈ owner ++ name, isNameChar c = true

/-- The external IDs the service builds, for one pull request or for a commit. -/
inductive ServiceExternalId : Str → Prop
  | pull {full_name : Str} (h : IsGitHubName full_name) (pull_number : Nat) (head_sha : HeadSha) :
    ServiceExternalId (full_name ++ '#' :: (decimal pull_number ++ '@' :: head_sha.1))
  | commit {full_name : Str} (h : IsGitHubName full_name) (head_sha : HeadSha) :
    ServiceExternalId (full_name ++ '@' :: head_sha.1)

theorem IsGitHubName.no_colon {full_name : Str} (h : IsGitHubName full_name) : ':' ∉ full_name := by
  obtain ⟨owner, name, rfl, hchars⟩ := h
  intro hc
  have hno : isNameChar ':' = false := by decide
  rcases List.mem_append.mp hc with hc | hc
  · exact absurd (hchars ':' (List.mem_append_left _ hc)) (by simp [hno])
  · rcases List.mem_cons.mp hc with hc | hc
    · exact absurd hc (by decide)
    · exact absurd (hchars ':' (List.mem_append_right _ hc)) (by simp [hno])

theorem headSha_no_colon (sha : HeadSha) : ':' ∉ sha.1 := by
  intro hc
  have h := sha.2
  simp only [isHeadSha, Bool.and_eq_true, List.all_eq_true] at h
  exact absurd (h.2 ':' hc) (by decide)

theorem decimal_no_colon (n : Nat) : ':' ∉ decimal n := by
  intro hc
  exact absurd (decimal_isDigit hc) (by decide)

theorem ServiceExternalId.no_colon {external_id : Str} (h : ServiceExternalId external_id) :
    ':' ∉ external_id := by
  cases h with
  | pull h n sha =>
    have := h.no_colon
    have := headSha_no_colon sha
    have := decimal_no_colon n
    simp_all
  | commit h sha =>
    have := h.no_colon
    have := headSha_no_colon sha
    simp_all

/-- An ID without a colon never looks like an interim one. -/
theorem not_marked {external_id : Str} (h : ':' ∉ external_id) :
    PENDING_CHECK_EXTERNAL_ID_PREFIX.isPrefixOf external_id = false := by
  rw [Bool.eq_false_iff]
  intro hp
  obtain ⟨rest, rfl⟩ := List.isPrefixOf_iff_prefix.mp hp
  exact h (List.mem_append_left _ (by decide))

/-- The marker is shorter than the limit, so no ID pushes it out. -/
theorem marked_take (external_id : Str) : PENDING_CHECK_EXTERNAL_ID_PREFIX.isPrefixOf
    ((PENDING_CHECK_EXTERNAL_ID_PREFIX ++ external_id).take 255) = true := by
  have hlength : PENDING_CHECK_EXTERNAL_ID_PREFIX.length ≤ 255 := by decide
  rw [List.isPrefixOf_iff_prefix, List.take_append, List.take_of_length_le hlength]
  exact List.prefix_append _ _

/-! ## What a write leaves -/

inductive WriteKind where
  | interim
  | terminal
deriving DecidableEq

/-- The run of a check whose last write was of this kind. -/
def WriteKind.Shown (run : CheckRun) : WriteKind → Prop
  | interim => run.status = ("queued" : Str) ∨ run.status = ("in_progress" : Str) ∨
      run.status = ("completed" : Str) ∧ run.conclusion = some ("failure" : Str) ∧
        ∃ external_id, run.external_id = some external_id ∧
          PENDING_CHECK_EXTERNAL_ID_PREFIX.isPrefixOf external_id = true
  | terminal => run.status = ("completed" : Str) ∧
      ∃ external_id, run.external_id = some external_id ∧
        PENDING_CHECK_EXTERNAL_ID_PREFIX.isPrefixOf external_id = false

theorem WriteKind.Shown.completed {run : CheckRun} {kind : WriteKind} (h : kind.Shown run) :
    checkRunIsCompleted run = .ok (decide (kind = .terminal)) := by
  unfold checkRunIsCompleted
  cases kind with
  | interim =>
    rcases h with h | h | ⟨h, hc, external_id, he, hp⟩
    · rw [h, if_neg (by decide)]
      rfl
    · rw [h, if_neg (by decide)]
      rfl
    · rw [h, if_neg (by decide), hc, he]
      simp [hp]
  | terminal =>
    obtain ⟨h, external_id, he, hp⟩ := h
    rw [h, if_neg (by decide), he]
    simp [hp]

/-- The IDs that the service passes, or none. -/
def CheckText.FromService (content : CheckText) : Prop :=
  ∀ external_id, content.external_id = some external_id → ServiceExternalId external_id

theorem CheckText.FromService.unmarked {content : CheckText} (h : content.FromService) :
    PENDING_CHECK_EXTERNAL_ID_PREFIX.isPrefixOf ((content.external_id.getD []).take 255) = false := by
  refine not_marked fun hc => ?_
  have hc := List.mem_of_mem_take hc
  cases he : content.external_id with
  | none =>
    rw [he] at hc
    cases hc
  | some external_id =>
    rw [he] at hc
    exact (h external_id he).no_colon hc

/-- One of the three writes sends this request, after a lookup that lists `runs`. -/
inductive Sends (app_id : Int) (runs : List CheckRun) : WriteKind → CheckText → CheckRequest → Prop
  | upsert {check_name status : Str} {conclusion : Option Str} {content : CheckText}
      {skip_if_unchanged : Bool} {request : CheckRequest}
      (h : upsertCheckRun (latestCheckRun app_id check_name runs) check_name status conclusion content
        skip_if_unchanged = .ok request) :
    Sends app_id runs (if status = ("completed" : Str) then .terminal else .interim) content request
  | reset (check_run_id : Nat) (check_name : Str) (content : CheckText) :
    Sends app_id runs .interim content (resetCheckRun check_run_id check_name content)
  | complete {check_run_id : Nat} {check_name conclusion : Str} {content : CheckText}
      {request : CheckRequest}
      (h : completeCheckRun check_run_id check_name conclusion content = .ok request) :
    Sends app_id runs .terminal content request

/-- The request of an accepted `upsert_check_run`. -/
theorem upsertCheckRun_ok {existing : Option CheckRun} {check_name status : Str} {conclusion : Option Str}
    {content : CheckText} {skip_if_unchanged : Bool} {request : CheckRequest}
    (h : upsertCheckRun existing check_name status conclusion content skip_if_unchanged = .ok request) :
    (status = ("completed" : Str) ∧ ∃ result, conclusion = some result ∧
      let payload := content.payload (some check_name) status conclusion []
      (existing = none ∧ request = .post payload) ∨
      ∃ run, existing = some run ∧
        ((skip_if_unchanged = true ∧ checkRunMatches run payload = true ∧ request = .unchanged run.id) ∨
          request = .patch run.id { payload with name := none })) ∨
    ((status = ("queued" : Str) ∨ status = ("in_progress" : Str)) ∧
      let payload := content.payload (some check_name) status conclusion PENDING_CHECK_EXTERNAL_ID_PREFIX
      (existing = none ∧ conclusion = none ∧ request = .post payload) ∨
      ∃ run, existing = some run ∧ request = .patch run.id { payload with
        name := none
        status := ("completed" : Str)
        conclusion := some ("failure" : Str) }) := by
  unfold upsertCheckRun at h
  by_cases hstatus : status ∉ CHECK_STATUSES
  · rw [if_pos hstatus] at h
    cases h
  rw [if_neg hstatus] at h
  by_cases hrequired : status = ("completed" : Str) ∧ conclusion = none
  · rw [if_pos hrequired] at h
    cases h
  rw [if_neg hrequired] at h
  by_cases hextra : status ≠ ("completed" : Str) ∧ conclusion ≠ none
  · rw [if_pos hextra] at h
    cases h
  rw [if_neg hextra] at h
  by_cases hskip : skip_if_unchanged = true ∧ status ≠ ("completed" : Str)
  · rw [if_pos hskip] at h
    cases h
  rw [if_neg hskip] at h
  by_cases hcompleted : status = ("completed" : Str)
  · left
    simp only [hcompleted, ne_eq, not_true_eq_false, if_false] at h
    obtain ⟨result, hresult⟩ := Option.ne_none_iff_exists'.mp fun e => hrequired ⟨hcompleted, e⟩
    refine ⟨hcompleted, result, hresult, ?_⟩
    rw [hcompleted]
    cases existing with
    | none =>
      cases h
      exact .inl ⟨rfl, rfl⟩
    | some run =>
      right
      refine ⟨run, rfl, ?_⟩
      simp only at h
      split at h
      · rename_i hm
        cases h
        exact .inl ⟨(Bool.and_eq_true_iff.mp hm).1, (Bool.and_eq_true_iff.mp hm).2, rfl⟩
      · cases h
        exact .inr rfl
  · right
    have hnone : conclusion = none := by
      by_contra hc
      exact hextra ⟨hcompleted, hc⟩
    have hnoskip : skip_if_unchanged = false := by
      rw [Bool.eq_false_iff]
      exact fun e => hskip ⟨e, hcompleted⟩
    have hcases : status = ("queued" : Str) ∨ status = ("in_progress" : Str) := by
      have hmem := not_not.mp hstatus
      simp only [CHECK_STATUSES, List.mem_cons, List.not_mem_nil, or_false] at hmem
      rcases hmem with hq | hp | hc
      · exact .inl hq
      · exact .inr hp
      · exact absurd hc hcompleted
    refine ⟨hcases, ?_⟩
    rw [if_pos hcompleted] at h
    cases existing with
    | none =>
      cases h
      exact .inl ⟨rfl, hnone, rfl⟩
    | some run =>
      right
      refine ⟨run, rfl, ?_⟩
      simp only [hnoskip, Bool.false_and, Bool.false_eq_true, if_false, ne_eq, hcompleted,
        not_false_eq_true, if_true] at h
      cases h
      rfl

theorem Sends.created {app_id : Int} {runs : List CheckRun} {kind : WriteKind} {content : CheckText}
    {payload : CheckPayload} (h : Sends app_id runs kind content (.post payload)) (hc : content.FromService)
    (id : Nat) : kind.Shown (payload.created id app_id) := by
  generalize hr : CheckRequest.post payload = request at h
  cases h with
  | upsert h =>
    rcases upsertCheckRun_ok h with ⟨hs, result, hresult, h | h⟩ | ⟨hs, h | h⟩
    · obtain ⟨-, rfl⟩ := h
      cases hr
      rw [if_pos hs]
      exact ⟨hs, _, rfl, hc.unmarked⟩
    · obtain ⟨run, -, h | h⟩ := h
      · rw [h.2.2] at hr
        cases hr
      · rw [h] at hr
        cases hr
    · obtain ⟨-, -, rfl⟩ := h
      cases hr
      rw [if_neg (by rcases hs with rfl | rfl <;> decide)]
      rcases hs with hs | hs
      · exact .inl hs
      · exact .inr (.inl hs)
    · obtain ⟨run, -, h⟩ := h
      rw [h] at hr
      cases hr
  | reset => cases hr
  | complete h =>
    unfold completeCheckRun at h
    split at h
    · cases h
    · cases h
      cases hr

theorem Sends.patched {app_id : Int} {runs : List CheckRun} {kind : WriteKind} {content : CheckText}
    {id : Nat} {payload : CheckPayload} (h : Sends app_id runs kind content (.patch id payload))
    (hc : content.FromService) (run : CheckRun) : kind.Shown (run.patched payload) := by
  generalize hr : CheckRequest.patch id payload = request at h
  cases h with
  | upsert h =>
    rcases upsertCheckRun_ok h with ⟨hs, result, hresult, h | h⟩ | ⟨hs, h | h⟩
    · rw [h.2] at hr
      cases hr
    · obtain ⟨old, -, h | h⟩ := h
      · rw [h.2.2] at hr
        cases hr
      · rw [h] at hr
        cases hr
        rw [if_pos hs]
        exact ⟨hs, _, rfl, hc.unmarked⟩
    · rw [h.2.2] at hr
      cases hr
    · obtain ⟨old, -, h⟩ := h
      rw [h] at hr
      cases hr
      rw [if_neg (by rcases hs with rfl | rfl <;> decide)]
      exact .inr (.inr ⟨rfl, rfl, _, rfl, marked_take _⟩)
  | reset =>
    cases hr
    exact .inr (.inr ⟨rfl, rfl, _, rfl, marked_take _⟩)
  | complete h =>
    unfold completeCheckRun at h
    split at h
    · cases h
    · cases h
      cases hr
      exact ⟨rfl, _, rfl, hc.unmarked⟩

/-! ## Sequences of writes -/

/-- The check runs of one commit after a sequence of writes, and the kind of
the last write on each. A request that fails or is suppressed changes neither,
so it is no step. -/
inductive CheckWrites (app_id : Int) : Dict Nat CheckRun → (Nat → Option WriteKind) → Prop
  | start : CheckWrites app_id ∅ fun _ => none
  | create {store : Dict Nat CheckRun} {last : Nat → Option WriteKind} {runs : List CheckRun}
      {kind : WriteKind} {content : CheckText} {payload : CheckPayload} {id : Nat}
      (h : CheckWrites app_id store last) (hc : content.FromService)
      (hs : Sends app_id runs kind content (.post payload)) (hfresh : store.get? id = none) :
    CheckWrites app_id (store.set id (payload.created id app_id))
      fun other => if other = id then some kind else last other
  | update {store : Dict Nat CheckRun} {last : Nat → Option WriteKind} {runs : List CheckRun}
      {kind : WriteKind} {content : CheckText} {payload : CheckPayload} {id : Nat} {run : CheckRun}
      (h : CheckWrites app_id store last) (hc : content.FromService)
      (hs : Sends app_id runs kind content (.patch id payload)) (hrun : store.get? id = some run) :
    CheckWrites app_id (store.set id (run.patched payload))
      fun other => if other = id then some kind else last other

theorem CheckWrites.shown {app_id : Int} {store : Dict Nat CheckRun} {last : Nat → Option WriteKind}
    (h : CheckWrites app_id store last) {id : Nat} {run : CheckRun} (hr : store.get? id = some run) :
    ∃ kind, last id = some kind ∧ kind.Shown run := by
  induction h generalizing run with
  | start => cases hr
  | @create store last runs kind content payload new h hc hs hfresh ih =>
    rw [Dict.get?_set] at hr
    by_cases he : id = new
    · rw [if_pos he] at hr
      cases hr
      exact ⟨kind, if_pos he, hs.created hc new⟩
    · rw [if_neg he] at hr
      obtain ⟨kind, hk, hshown⟩ := ih hr
      exact ⟨kind, (if_neg he).trans hk, hshown⟩
  | @update store last runs kind content payload old stored h hc hs hstored ih =>
    rw [Dict.get?_set] at hr
    by_cases he : id = old
    · rw [if_pos he] at hr
      cases hr
      exact ⟨kind, if_pos he, hs.patched hc stored⟩
    · rw [if_neg he] at hr
      obtain ⟨kind, hk, hshown⟩ := ih hr
      exact ⟨kind, (if_neg he).trans hk, hshown⟩

/-! ## Suppressed writes -/

/-- Two runs show the same to a reader; a null text is an empty one. -/
structure SameShown (run run' : CheckRun) : Prop where
  status : run.status = run'.status
  conclusion : run.conclusion = run'.conclusion
  external_id : run.external_id = run'.external_id
  title : run.output.map (·.title) = run'.output.map (·.title)
  summary : run.output.map (·.summary) = run'.output.map (·.summary)
  text : (run.output.bind (·.text)).getD [] = (run'.output.bind (·.text)).getD []
  details_url : run.details_url = run'.details_url

theorem CheckPayload.output_text (payload : CheckPayload) : payload.output.text.getD [] = payload.text := by
  unfold CheckPayload.output
  by_cases h : payload.text = []
  · simp [h]
  · simp [h]

/-- A run that matches a payload shows what the payload would leave. -/
theorem checkRunMatches_shown {run : CheckRun} {payload : CheckPayload} {conclusion : Str}
    (hc : payload.conclusion = some conclusion) (hs : payload.status = ("completed" : Str))
    (h : checkRunMatches run payload = true) :
    SameShown (run.patched { payload with name := none }) run := by
  unfold checkRunMatches at h
  cases ho : run.output with
  | none =>
    rw [ho] at h
    cases h
  | some output =>
    rw [ho] at h
    simp only [Bool.and_eq_true, decide_eq_true_eq, Bool.or_eq_true] at h
    obtain ⟨⟨⟨⟨⟨⟨h₁, h₂⟩, h₃⟩, h₄⟩, h₅⟩, h₆⟩, h₇⟩ := h
    refine ⟨hs.trans h₁.symm, ?_, h₃.symm, ?_, ?_, ?_, ?_⟩
    · simp [CheckRun.patched, hc, h₂]
    · simp [CheckRun.patched, CheckPayload.output, ho, h₄]
    · simp [CheckRun.patched, CheckPayload.output, ho, h₅]
    · rw [ho]
      exact (CheckPayload.output_text _).trans h₆.symm
    · rcases h₇ with h₇ | h₇
      · simp [CheckRun.patched, h₇]
      · simp only [CheckRun.patched, h₇]
        cases payload.details_url <;> rfl

/-- The kind of the last write on a check is what a reader sees, and a write
that is suppressed would have left the check as it is. -/
theorem checks_tell_kinds (app_id : Int) :
    (∀ (store : Dict Nat CheckRun) (last : Nat → Option WriteKind), CheckWrites app_id store last →
      ∀ id run, store.get? id = some run → ∃ kind, last id = some kind ∧
        checkRunIsCompleted run = .ok (decide (kind = .terminal))) ∧
    ∀ (runs : List CheckRun) (check_name status : Str) (conclusion : Option Str) (content : CheckText)
      (id : Nat),
      upsertCheckRun (latestCheckRun app_id check_name runs) check_name status conclusion content true =
        .ok (.unchanged id) →
      ∃ run ∈ runs, run.id = id ∧ ∃ payload,
        upsertCheckRun (latestCheckRun app_id check_name runs) check_name status conclusion content false =
          .ok (.patch id payload) ∧
        SameShown (run.patched payload) run := by
  refine ⟨?_, ?_⟩
  · intro store last h id run hr
    obtain ⟨kind, hk, hshown⟩ := h.shown hr
    exact ⟨kind, hk, hshown.completed⟩
  · intro runs check_name status conclusion content id h
    rcases upsertCheckRun_ok h with ⟨hs, result, hresult, h' | h'⟩ | ⟨hs, h' | h'⟩
    · cases h'.2
    · obtain ⟨run, hrun, hm | hm⟩ := h'
      · obtain ⟨-, hm, hid⟩ := hm
        cases hid
        refine ⟨run, List.mem_of_find?_eq_some hrun, rfl, _, ?_, checkRunMatches_shown hresult hs hm⟩
        rw [hrun]
        subst hs
        subst hresult
        rfl
      · cases hm
    · cases h'.2.2
    · obtain ⟨run, -, hm⟩ := h'
      cases hm

def sampleCheckSha : HeadSha := ⟨List.replicate 40 'a', rfl⟩

def sampleCheckText : CheckText where
  title := ("Waiting" : Str)
  summary := ("Approval is missing" : Str)
  text := []
  details_url := none
  external_id := some (("acme/app" : Str) ++ '@' :: sampleCheckSha.1)

theorem sampleCheckText_fromService : sampleCheckText.FromService := by
  intro external_id h
  cases h
  exact .commit ⟨("acme" : Str), ("app" : Str), rfl, forall_mem_of_all (by decide)⟩ sampleCheckSha

/-- A new check in progress, which the next evaluation resets. -/
def sampleCheckPayload : CheckPayload :=
  sampleCheckText.payload (some ("guard" : Str)) ("in_progress" : Str) none
    PENDING_CHECK_EXTERNAL_ID_PREFIX

def sampleResetPayload : CheckPayload :=
  sampleCheckText.payload (some ("guard" : Str)) ("completed" : Str) (some ("failure" : Str))
    PENDING_CHECK_EXTERNAL_ID_PREFIX

theorem samplePost_sent : Sends 7 [] .interim sampleCheckText (.post sampleCheckPayload) :=
  @Sends.upsert 7 [] ("guard" : Str) ("in_progress" : Str) none sampleCheckText false _ rfl

theorem sampleCheck_reset : CheckWrites 7
    ((Dict.set 1 (sampleCheckPayload.created 1 7) ∅).set 1
      ((sampleCheckPayload.created 1 7).patched sampleResetPayload))
    fun other => if other = 1 then some .interim else if other = 1 then some .interim else none := by
  have hcreated := CheckWrites.start.create sampleCheckText_fromService samplePost_sent
    (rfl : (∅ : Dict Nat CheckRun).get? 1 = none)
  exact hcreated.update sampleCheckText_fromService
    (@Sends.reset 7 [] 1 ("guard" : Str) sampleCheckText) rfl

/-- A published check, whose evaluation comes to the same result again. -/
def samplePublished : CheckRun :=
  (sampleCheckText.payload (some ("guard" : Str)) ("completed" : Str) (some ("failure" : Str)) []).created 1 7

theorem samplePublished_unchanged :
    upsertCheckRun (latestCheckRun 7 ("guard" : Str) [samplePublished]) ("guard" : Str) ("completed" : Str)
      (some ("failure" : Str)) sampleCheckText true = .ok (.unchanged 1) := by
  rfl

theorem checks_tell_kinds_after_reset :
    (∃ kind, some WriteKind.interim = some kind ∧
      checkRunIsCompleted ((sampleCheckPayload.created 1 7).patched sampleResetPayload) =
        .ok (decide (kind = .terminal))) ∧
    ∃ run ∈ [samplePublished], run.id = 1 ∧ ∃ payload,
      upsertCheckRun (latestCheckRun 7 ("guard" : Str) [samplePublished]) ("guard" : Str) ("completed" : Str)
        (some ("failure" : Str)) sampleCheckText false = .ok (.patch 1 payload) ∧
      SameShown (run.patched payload) run := by
  refine ⟨?_, ?_⟩
  · exact (checks_tell_kinds 7).1 _ _ sampleCheck_reset 1 _ rfl
  · exact (checks_tell_kinds 7).2 _ _ _ _ _ _ samplePublished_unchanged

end ExtraCodeowners
