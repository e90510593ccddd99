import ExtraCodeowners.RequestConduct

/-!
# The requests of every replica

Any number of replicas, each with its calls in flight, its token cache and its
semaphore, share the table of budgets. What one effect does, in any
interleaving, follows from what its call has done before.
-/

namespace ExtraCodeowners

open System

/-! ## The system -/

abbrev CallId := Nat × Nat

/-- `entries` are the calls to the budget in their order, `abandoned` those whose
caller no longer waits for them, and `sent` the requests that left any replica,
the last one first. -/
structure ApiState where
  clock : Time
  tokens : Nat → Dict Nat InstallationToken
  locks : List (CallId × Nat)
  permits : List CallId
  budgets : Budgets
  entries : List BudgetEntry
  abandoned : List BudgetCall
  sent : List Sending
  session : CallId → Session

def ApiState.initial (clock : Time) : ApiState :=
  ⟨clock, fun _ => ∅, [], [], ∅, [], [], [], fun _ => Session.start⟩

/-- A call to the budget is one transaction; it reads the clock for itself. -/
structure ApiState.Calls (s : ApiState) (call : BudgetCall) (e : BudgetEntry) : Prop where
  call : e.call = call
  before : e.before = s.budgets
  inserted : s.clock ≤ e.inserted_at
  refund : e.inserted_at ≤ e.refund_at
  now : e.refund_at ≤ e.now

def ApiState.called (s : ApiState) (e : BudgetEntry) : ApiState :=
  { s with clock := e.now, budgets := e.after, entries := s.entries ++ [e] }

/-- The thread of a call goes on when its caller is cancelled. -/
def ApiState.abandon (s : ApiState) (call : BudgetCall) : ApiState :=
  { s with abandoned := call :: s.abandoned }

def ApiState.withTokens (s : ApiState) (replica : Nat) (tokens : Dict Nat InstallationToken) : ApiState :=
  { s with tokens := Function.update s.tokens replica tokens }

theorem ApiState.withTokens_self (s : ApiState) (replica : Nat) (tokens : Dict Nat InstallationToken) :
    (s.withTokens replica tokens).tokens replica = tokens := Function.update_self ..

theorem ApiState.withTokens_other (s : ApiState) {replica other : Nat} (tokens : Dict Nat InstallationToken)
    (hother : other ≠ replica) : (s.withTokens replica tokens).tokens other = s.tokens other :=
  Function.update_of_ne hother ..

def BudgetCall.Earned (sends : List Sending) : BudgetCall → Prop
  | .observe installation_id _ (some receipt) => ∃ x ∈ sends, x.Refundable installation_id receipt
  | _ => True

theorem BudgetCall.Earned.mono {call : BudgetCall} {sends sends' : List Sending} (h : call.Earned sends)
    (hsub : ∀ x ∈ sends, x ∈ sends') : call.Earned sends' := by
  cases call with
  | admitCall => trivial
  | observe id quota receipt =>
    cases receipt with
    | none => trivial
    | some receipt =>
      obtain ⟨x, hx, hrefundable⟩ := h
      exact ⟨x, hsub x hx, hrefundable⟩

theorem BudgetCall.Earned.presented {call : BudgetCall} {sends : List Sending} (h : call.Earned sends) {e : BudgetEntry}
    (he : e.call = call) {r : BudgetReceipt} (hr : e.presented = some r) :
    ∃ x ∈ sends, ∃ admission, x.admission = some admission ∧ admission.receipt = some r := by
  rw [BudgetEntry.presented, he] at hr
  cases call with
  | admitCall => cases hr
  | observe id quota receipt =>
    cases hr
    obtain ⟨x, hx, -, -, -, hadmission, -⟩ := h
    exact ⟨x, hx, hadmission⟩

/-- What one effect does. A transaction that fails may have been committed, or
may be committed yet. -/
def carriesOut (clients : Nat → GitHubClient) (p : CallId) (s : ApiState) :
    (e : RequestEffect) → Except RequestExn e.Answer → ApiState → Prop
  | .utcnow, .ok now, s' => now = s.clock ∧ s' = s
  | .cachedToken id, .ok token, s' => token = (s.tokens p.1).get? id ∧ s' = s
  | .keepToken id token, .ok _, s' => s' = s.withTokens p.1 ((s.tokens p.1).set id token)
  | .forgetToken id value, .ok _, s' =>
    s' = s.withTokens p.1 ((s.tokens p.1).deleteWhere fun i token => i = id && token.value = value)
  | .acquireTokenLock id, .ok _, s' =>
    (∀ q, (q, id) ∈ s.locks → q.1 ≠ p.1) ∧ s' = { s with locks := (p, id) :: s.locks }
  | .releaseTokenLock id, _, s' => s' = { s with locks := s.locks.filter (· ≠ (p, id)) }
  | .acquirePermit, .ok _, s' => s.permits.countP (·.1 = p.1) < (clients p.1).max_in_flight_requests ∧
      s' = { s with permits := p :: s.permits }
  | .releasePermit, _, s' => s' = { s with permits := s.permits.filter (· ≠ p) }
  | .admitCall id recovery, .ok receipt, s' => ∃ budget e, (clients p.1).recovery_budget = some budget ∧
      s.Calls (.admitCall budget id recovery) e ∧
      (budget.admitCall id recovery e.inserted_at e.now e.before).1 = .ok receipt ∧ s' = s.called e
  | .admitCall id recovery, .error x, s' => s' = s ∨ ∃ budget e, (clients p.1).recovery_budget = some budget ∧
      (s' = s.abandon (.admitCall budget id recovery) ∨ s.Calls (.admitCall budget id recovery) e ∧ s' = s.called e ∧
        ∀ error, (budget.admitCall id recovery e.inserted_at e.now e.before).1 = .error error → x = error.exn)
  | .observe id quota receipt, .ok _, s' => ∃ e, s.Calls (.observe id quota receipt) e ∧ 0 < id ∧ s' = s.called e
  | .observe id quota receipt, .error _, s' => s' = s ∨ s' = s.abandon (.observe id quota receipt) ∨
      ∃ e, s.Calls (.observe id quota receipt) e ∧ s' = s.called e
  | .send id request, answer, s' => s' = { s with sent := ⟨id, request, (s.session p).admission, answer⟩ :: s.sent }
  | _, _, s' => s' = s

def ApiState.recorded (s : ApiState) (p : CallId) (session : Session) : ApiState :=
  { s with session := Function.update s.session p session }

theorem recorded_self (s : ApiState) (p : CallId) (session : Session) : (s.recorded p session).session p = session :=
  Function.update_self ..

theorem recorded_other (s : ApiState) {p q : CallId} (session : Session) (hq : q ≠ p) :
    (s.recorded p session).session q = s.session q := Function.update_of_ne hq ..

theorem forall_recorded {s : ApiState} {p : CallId} {session : Session} {M : CallId → Session → Prop}
    (hself : M p session) (hother : ∀ q, q ≠ p → M q (s.session q)) (q : CallId) : M q ((s.recorded p session).session q) := by
  by_cases hq : q = p
  · subst hq
    rw [recorded_self]
    exact hself
  · rw [recorded_other _ _ hq]
    exact hother q hq

def discard {α : Type} (prog : Requesting α) : Requesting PUnit := do
  let _ ← prog
  return ()

section
variable [PyText]

inductive RequestProgram (client : GitHubClient) : Requesting PUnit → Prop where
  | request (call : ApiCall) (allow_not_found : Bool) :
      RequestProgram client (discard (apiRequest client call allow_not_found))
  | response (call : ApiCall) : call.oneMode = true → RequestProgram client (discard (apiResponse client call))
  | stream (method path : Str) (installation_id : Nat) (params json : Option Json) (headers : Headers)
      (recovery : Bool) :
      RequestProgram client (streamingResponse client method path installation_id params json headers recovery)

/-- A call that is cancelled gives back what it holds. -/
def ApiState.cancelled (s : ApiState) (p : CallId) : ApiState :=
  { s with
    locks := s.locks.filter fun l => l.1 ≠ p
    permits := s.permits.filter (· ≠ p)
    session := Function.update s.session p Session.start }

/-- Time passes, a replica is restarted without its cache, or an abandoned call
to the budget is committed. -/
inductive ApiState.Passes (s : ApiState) : ApiState → Prop where
  | tick (clock : Time) : s.clock ≤ clock → Passes s { s with clock := clock }
  | restart (replica : Nat) : Passes s (s.withTokens replica ∅)
  | abandoned (before : List BudgetCall) (call : BudgetCall) (after : List BudgetCall) (e : BudgetEntry) :
      s.abandoned = before ++ call :: after → s.Calls call e →
        Passes s { s.called e with abandoned := before ++ after }

def requesting (clients : Nat → GitHubClient) :
    System CallId RequestEffect RequestEffect.Answer RequestExn ApiState where
  perform p s e a s'' := (∀ x, a = .error x → x.isRaised = true) ∧ ∃ s', carriesOut clients p s e a s' ∧
    s'' = s'.recorded p ((s.session p).next s.entries.length e a)
  env := ApiState.Passes
  clear p s := s.cancelled p
  programs p prog := RequestProgram (clients p.1) prog

abbrev InFlight := Config CallId RequestEffect RequestEffect.Answer RequestExn ApiState

abbrev Requested (clients : Nat → GitHubClient) (clock : Time)
    (c : InFlight) : Prop :=
  (requesting clients).Run (idle (ApiState.initial clock)) c

variable {clients : Nat → GitHubClient}

/-! ## Every call is lawful -/

omit [PyText] in
theorem carriesOut_session {p : CallId} {s s' : ApiState} {e : RequestEffect} {a : Except RequestExn e.Answer}
    (h : carriesOut clients p s e a s') : s'.session = s.session := by
  cases e with
  | admitCall id recovery =>
    cases a with
    | ok receipt =>
      obtain ⟨budget, entry, -, -, -, rfl⟩ := h
      rfl
    | error x =>
      rcases h with rfl | ⟨budget, entry, -, rfl | ⟨-, rfl, -⟩⟩
      · rfl
      · rfl
      · rfl
  | observe id quota receipt =>
    cases a with
    | ok =>
      obtain ⟨entry, -, -, rfl⟩ := h
      rfl
    | error x =>
      rcases h with rfl | rfl | ⟨entry, -, rfl⟩
      · rfl
      · rfl
      · rfl
  | utcnow | cachedToken | acquireTokenLock | acquirePermit =>
    cases a with
    | ok =>
      obtain ⟨-, rfl⟩ := h
      rfl
    | error =>
      cases h
      rfl
  | _ =>
    cases a <;>
    · cases h
      rfl

theorem requesting_local : Local (requesting clients) (fun _ => True) (fun p s => s.session p)
    (fun _ => undergoes) Session.start where
  toInherent := .const _
  acts := by
    intro p s e a s' _ ⟨hx, s₁, hp, hs⟩
    subst hs
    exact ⟨hx, s.entries.length, Function.update_self ..⟩
  others := by
    intro p s e a s' q ⟨_, s₁, hp, hs⟩ hq
    subst hs
    show Function.update s₁.session p _ q = _
    rw [Function.update_of_ne hq, carriesOut_session hp]
  unmoved := by
    intro s s' q he
    cases he with
    | tick | restart | abandoned => rfl
  cleared := Function.update_self ..
  clear_others := fun hq => Function.update_of_ne hq _ _

/-- A call is lawful throughout, and holds nothing when it returns. -/
theorem requestProgram_lawful [LawfulPyText] {client : GitHubClient} {prog : Requesting PUnit}
    (h : RequestProgram client prog) : wp (alone undergoes) (fun _ => True) (fun _ => lawful client) ⟨⟩ prog
      (fun _ s => s.Calm) Session.start := by
  have hends : ∀ {prog : Requesting PUnit} {K : Session → Prop}, Conducts client K prog (fun _ => Session.Calm)
      (Failing Session.Calm) → K Session.start →
      wp (alone undergoes) (fun _ => True) (fun _ => lawful client) ⟨⟩ prog (fun _ s => s.Calm) Session.start := by
    intro prog K hprog hK
    refine wp_mono (fun r s _ hs => ?_) trivial (hprog Session.start trivial hK)
    cases r with
    | ok => exact hs
    | error => exact hs.2
  have hdiscard : ∀ {α : Type} {prog : Requesting α} {K : Session → Prop},
      Conducts client K prog (fun _ => Session.Calm) (Failing Session.Calm) →
      Conducts client K (discard prog) (fun _ => Session.Calm) (Failing Session.Calm) :=
    fun hprog => Triple.bind hprog fun _ => return_conducts fun _ hs => hs
  cases h with
  | request call allow_not_found => exact hends (hdiscard (apiRequest_conducts allow_not_found)) ⟨rfl, rfl, rfl⟩
  | response call hmode =>
    have hresponse : Conducts client (fun s => s.Calm ∧ s.own call.budgetInstallation.isSome = [] ∧ s.own true = [])
        (apiResponse client call) (fun _ => Session.Calm) (Failing Session.Calm) :=
      (apiResponse_conducts hmode).conseq (fun _ _ hs => hs) (fun _ _ _ hs => hs.calm) fun _ _ _ hs => ⟨hs.1, hs.2.calm⟩
    exact hends (hdiscard hresponse) ⟨⟨rfl, rfl, rfl⟩, rfl, rfl⟩
  | stream method path id params json headers recovery =>
    have hstream : Conducts client (fun s => s.Calm ∧ s.own true = [])
        (streamingResponse client method path id params json headers recovery) (fun _ => Session.Calm)
        (Failing Session.Calm) :=
      (streamingResponse_conducts (B := []) method path id params json recovery).conseq (fun _ _ hs => hs)
        (fun _ _ _ hs => hs.calm) fun _ _ _ hs => ⟨hs.1, hs.2.calm⟩
    exact hends hstream ⟨⟨rfl, rfl, rfl⟩, rfl⟩

theorem requesting_lawful [LawfulPyText] (p : CallId) (prog : Requesting PUnit)
    (h : (requesting clients).programs p prog) : wp (alone undergoes) (fun _ => True) (fun _ => lawful (clients p.1)) ⟨⟩
      prog (fun _ s => s.Calm) Session.start := requestProgram_lawful h

end

/-! ## What an effect does -/

def BudgetEntry.grantsTo (id : Nat) (e : BudgetEntry) : Bool :=
  match e.call with
  | .admitCall budget i recovery => i = id && (budget.admitCall i recovery e.inserted_at e.now e.before).1.isOk
  | .observe .. => false

/-- A lawful effect: what it does to the state, and the session it leaves. -/
inductive Effected (client : GitHubClient) (p : CallId) (s : ApiState) : ApiState → Session → Prop where
  | quiet : Effected client p s s (s.session p)
  | locked (id : Nat) : (s.session p).lock = none →
      Effected client p s { s with locks := (p, id) :: s.locks } { s.session p with lock := some id }
  | unlocked (id : Nat) : (s.session p).lock = some id →
      Effected client p s { s with locks := s.locks.filter (· ≠ (p, id)) } { s.session p with lock := none }
  | acquired : (s.session p).permit = false → s.permits.countP (·.1 = p.1) < client.max_in_flight_requests →
      Effected client p s { s with permits := p :: s.permits } { s.session p with permit := true }
  | released : Effected client p s { s with permits := s.permits.filter (· ≠ p) } { s.session p with permit := false }
  | tokens (tokens : Dict Nat InstallationToken) : (∀ id token, tokens.get? id = some token →
      (s.tokens p.1).get? id = some token ∨ (s.session p).Knows (tokenPath id) token.value) →
      Effected client p s (s.withTokens p.1 tokens) (s.session p)
  | cached (id : Nat) (token : InstallationToken) : (s.tokens p.1).get? id = some token →
      Effected client p s s { s.session p with cached := (tokenPath id, token.value) :: (s.session p).cached }
  | called (call : BudgetCall) (e : BudgetEntry) : s.Calls call e → call.Earned (s.session p).sends →
      Effected client p s (s.called e) (s.session p)
  | abandoned (call : BudgetCall) : call.Earned (s.session p).sends →
      Effected client p s (s.abandon call) (s.session p)
  | admitted (budget : RecoveryApiBudget) (id : Nat) (recovery : Bool) (e : BudgetEntry)
      (receipt : Option BudgetReceipt) : s.Calls (.admitCall budget id recovery) e → e.grantsTo id = true →
      e.issued = receipt → Effected client p s (s.called e)
        { s.session p with admission := some ⟨s.entries.length, id, receipt⟩ }
  | sent (id : Option Nat) (request : HttpRequest) (answer : Except RequestExn HttpResponse) :
      lawful client (s.session p) (.send id request) →
      Effected client p s { s with sent := ⟨id, request, (s.session p).admission, answer⟩ :: s.sent }
        { s.session p with
          admission := none
          sends := ⟨id, request, (s.session p).admission, answer⟩ :: (s.session p).sends }

theorem granted_issued {e : BudgetEntry} {budget : RecoveryApiBudget} {id : Nat} {recovery : Bool}
    {receipt : Option BudgetReceipt} (hcall : e.call = .admitCall budget id recovery)
    (hok : (budget.admitCall id recovery e.inserted_at e.now e.before).1 = .ok receipt) :
    e.grantsTo id = true ∧ e.issued = receipt := by
  unfold BudgetEntry.grantsTo BudgetEntry.issued
  rw [hcall]
  simp [hok, Except.isOk, Except.toBool]

theorem effected_of_carriesOut {clients : Nat → GitHubClient} {p : CallId} {s s' : ApiState} {e : RequestEffect}
    {a : Except RequestExn e.Answer} (hlawful : lawful (clients p.1) (s.session p) e)
    (h : carriesOut clients p s e a s') :
    Effected (clients p.1) p s s' ((s.session p).next s.entries.length e a) := by
  cases e with
  | acquireTokenLock id =>
    cases a with
    | ok =>
      obtain ⟨-, rfl⟩ := h
      exact .locked id hlawful.2
    | error =>
      cases h
      exact .quiet
  | releaseTokenLock id =>
    cases a <;>
    · cases h
      exact .unlocked id hlawful
  | acquirePermit =>
    cases a with
    | ok =>
      obtain ⟨hroom, rfl⟩ := h
      exact .acquired hlawful hroom
    | error =>
      cases h
      exact .quiet
  | releasePermit =>
    cases a <;>
    · cases h
      exact .released
  | keepToken id token =>
    cases a with
    | ok =>
      cases h
      refine .tokens _ fun id' token' htoken => ?_
      rw [Dict.get?_set] at htoken
      split at htoken
      · rename_i hid
        cases htoken
        exact Or.inr (hid ▸ hlawful)
      · exact Or.inl htoken
    | error =>
      cases h
      exact .quiet
  | forgetToken id value =>
    cases a with
    | ok =>
      cases h
      refine .tokens _ fun id' token' htoken => Or.inl ?_
      rw [Dict.get?_deleteWhere, Option.filter_eq_some_iff] at htoken
      exact htoken.1
    | error =>
      cases h
      exact .quiet
  | cachedToken id =>
    cases a with
    | ok token =>
      obtain ⟨htoken, rfl⟩ := h
      cases token with
      | none => exact .quiet
      | some token => exact .cached id token htoken.symm
    | error =>
      cases h
      exact .quiet
  | admitCall id recovery =>
    cases a with
    | ok receipt =>
      obtain ⟨budget, e, -, hcall, hok, rfl⟩ := h
      obtain ⟨hgrants, hissued⟩ := granted_issued hcall.call hok
      exact .admitted budget id recovery e receipt hcall hgrants hissued
    | error x =>
      rcases h with rfl | ⟨budget, e, -, rfl | ⟨hcall, rfl, -⟩⟩
      · exact .quiet
      · exact .abandoned _ trivial
      · exact .called _ e hcall trivial
  | observe id quota receipt =>
    have hearned : (BudgetCall.observe id quota receipt).Earned (s.session p).sends := by
      cases receipt with
      | none => trivial
      | some receipt =>
        obtain ⟨x, hx, hrefundable⟩ := hlawful
        exact ⟨x, List.mem_of_mem_head? hx, hrefundable⟩
    cases a with
    | ok =>
      obtain ⟨e, hcall, -, rfl⟩ := h
      exact .called _ e hcall hearned
    | error x =>
      rcases h with rfl | rfl | ⟨e, hcall, rfl⟩
      · exact .quiet
      · exact .abandoned _ hearned
      · exact .called _ e hcall hearned
  | send id request =>
    cases a <;>
    · cases h
      exact .sent id request _ hlawful
  | utcnow =>
    cases a with
    | ok =>
      obtain ⟨-, rfl⟩ := h
      exact .quiet
    | error =>
      cases h
      exact .quiet
  | stopped | wait | readBody =>
    cases a <;>
    · cases h
      exact .quiet

section
variable [PyText] {clients : Nat → GitHubClient} {clock : Time} {c : InFlight}

theorem Requested.lawful [LawfulPyText] (h : Requested clients clock c) {p : CallId} {e : RequestEffect}
    {k : Except RequestExn e.Answer → Requesting PUnit} (hp : c.procs p = some (.op e k)) :
    ExtraCodeowners.lawful (clients p.1) (c.state.session p) e :=
  (Run.verified (G := fun p => ExtraCodeowners.lawful (clients p.1)) requesting_local requesting_lawful trivial
    h).guarantee hp

/-- A call that holds something has not returned. -/
theorem Requested.inProgress [LawfulPyText] (h : Requested clients clock c) {p : CallId}
    (hp : ¬(c.state.session p).Calm) : ∃ e k, c.procs p = some (.op e k) := by
  have hverified := Run.verified (G := fun p => ExtraCodeowners.lawful (clients p.1)) requesting_local
    requesting_lawful trivial h
  cases hprog : c.procs p with
  | none =>
    have hstart : c.state.session p = Session.start := Run.resting requesting_local (fun _ => rfl) h p hprog
    refine absurd ?_ hp
    rw [hstart]
    exact ⟨rfl, rfl, rfl⟩
  | some prog =>
    cases prog with
    | ret r => exact absurd (hverified.returned hprog) hp
    | op e k => exact ⟨e, k, rfl⟩

theorem Requested.inv [LawfulPyText] {J : ApiState → Prop} (h : Requested clients clock c)
    (hstart : J (ApiState.initial clock))
    (hperform : ∀ p s s' session, J s → Effected (clients p.1) p s s' session → J (s'.recorded p session))
    (henv : ∀ s s', J s → s.Passes s' → J s') (hclear : ∀ p s, J s → J (s.cancelled p)) : J c.state := by
  refine Run.local_inv (G := fun p => ExtraCodeowners.lawful (clients p.1)) requesting_local requesting_lawful
    ?_ henv hclear trivial hstart h
  intro p s e a s' hJ hG hp
  obtain ⟨-, s₁, hp, rfl⟩ := hp
  exact hperform p s s₁ _ hJ (effected_of_carriesOut hG hp)

end

/-! ## Schedules -/

abbrev Responses := HttpRequest → HttpResponse

/-- A call to the budget in which the clock stands still. -/
def ApiState.entry (s : ApiState) (call : BudgetCall) : BudgetEntry := ⟨call, s.clock, s.clock, s.clock, s.budgets⟩

theorem ApiState.calls_entry (s : ApiState) (call : BudgetCall) : s.Calls call (s.entry call) :=
  ⟨rfl, rfl, le_refl _, le_refl _, le_refl _⟩

/-- An effect that does what it is for. -/
def ApiState.follow (client : GitHubClient) (R : Responses) (p : CallId) (s : ApiState) :
    (e : RequestEffect) → Option (e.Answer × ApiState)
  | .utcnow => some (s.clock, s)
  | .stopped => some (false, s)
  | .cachedToken id => some ((s.tokens p.1).get? id, s)
  | .keepToken id token => some ((), s.withTokens p.1 ((s.tokens p.1).set id token))
  | .forgetToken id value =>
    some ((), s.withTokens p.1 ((s.tokens p.1).deleteWhere fun i token => i = id && token.value = value))
  | .acquireTokenLock id =>
    if s.locks.any fun l => l.2 = id && l.1.1 = p.1 then none else some ((), { s with locks := (p, id) :: s.locks })
  | .releaseTokenLock id => some ((), { s with locks := s.locks.filter (· ≠ (p, id)) })
  | .acquirePermit =>
    if s.permits.countP (·.1 = p.1) < client.max_in_flight_requests then
      some ((), { s with permits := p :: s.permits })
    else none
  | .releasePermit => some ((), { s with permits := s.permits.filter (· ≠ p) })
  | .admitCall id recovery =>
    match client.recovery_budget with
    | none => none
    | some budget =>
      match (budget.admitCall id recovery s.clock s.clock s.budgets).1 with
      | .ok receipt => some (receipt, s.called (s.entry (.admitCall budget id recovery)))
      | .error _ => none
  | .observe id quota receipt => if 0 < id then some ((), s.called (s.entry (.observe id quota receipt))) else none
  | .send id request =>
    some (R request, { s with sent := ⟨id, request, (s.session p).admission, .ok (R request)⟩ :: s.sent })
  | .wait | .readBody => some ((), s)

theorem follow_does {clients : Nat → GitHubClient} {R : Responses} {p : CallId} {s s' : ApiState} {e : RequestEffect}
    {a : e.Answer} (h : s.follow (clients p.1) R p e = some (a, s')) : carriesOut clients p s e (.ok a) s' := by
  cases e with
  | utcnow | cachedToken =>
    cases h
    exact ⟨rfl, rfl⟩
  | acquireTokenLock id =>
    obtain ⟨hfree, hs⟩ := Option.ite_none_left_eq_some.mp h
    cases hs
    refine ⟨fun q hq hreplica => hfree ?_, rfl⟩
    exact List.any_eq_true.mpr ⟨(q, id), hq, by simp [hreplica]⟩
  | acquirePermit =>
    obtain ⟨hroom, hs⟩ := Option.ite_none_right_eq_some.mp h
    cases hs
    exact ⟨hroom, rfl⟩
  | admitCall id recovery =>
    simp only [ApiState.follow] at h
    split at h
    · cases h
    · rename_i budget hbudget
      split at h
      · rename_i receipt hreceipt
        cases h
        exact ⟨budget, _, hbudget, s.calls_entry _, hreceipt, rfl⟩
      · cases h
  | observe id quota receipt =>
    obtain ⟨hid, hs⟩ := Option.ite_none_right_eq_some.mp h
    cases hs
    exact ⟨_, s.calls_entry _, hid, rfl⟩
  | _ =>
    cases h
    rfl

def InFlight.begin (c : InFlight) (p : CallId) (prog : Requesting PUnit) : InFlight :=
  ⟨Function.update c.procs p (some prog), c.state.cancelled p⟩

/-- The next effects of a call, or fewer when it cannot go on. -/
def InFlight.go (client : GitHubClient) (R : Responses) (p : CallId) : Nat → InFlight → InFlight
  | 0, c => c
  | n + 1, c =>
    match c.procs p with
    | some (.op e k) =>
      match c.state.follow client R p e with
      | some (a, s) => InFlight.go client R p n ⟨Function.update c.procs p (some (k (.ok a))),
          s.recorded p ((c.state.session p).next c.state.entries.length e (.ok a))⟩
      | none => c
    | _ => c

theorem InFlight.go_procs {client : GitHubClient} {R : Responses} {p q : CallId} (hq : q ≠ p) :
    ∀ n (c : InFlight), (c.go client R p n).procs q = c.procs q
  | 0, _ => rfl
  | n + 1, c => by
    unfold InFlight.go
    split
    · split
      · rw [InFlight.go_procs hq n]
        exact Function.update_of_ne hq _ _
      · rfl
    · rfl

section
variable [PyText] {clients : Nat → GitHubClient} {clock : Time} {c : InFlight} {p : CallId}

theorem Requested.begin (h : Requested clients clock c) (hnone : c.procs p = none) {prog : Requesting PUnit}
    (hprog : RequestProgram (clients p.1) prog) : Requested clients clock (c.begin p prog) :=
  Relation.ReflTransGen.tail h (Step.start p c.procs c.state prog hnone hprog)

theorem Requested.go (R : Responses) (p : CallId) : ∀ (n : Nat) {c : InFlight}, Requested clients clock c →
    Requested clients clock (c.go (clients p.1) R p n)
  | 0, _, h => h
  | n + 1, c, h => by
    unfold InFlight.go
    split
    · rename_i e k hk
      split
      · rename_i a s hs
        refine Requested.go R p n (Relation.ReflTransGen.tail h (Step.perform p c.procs c.state e k (.ok a) _ hk ?_))
        exact ⟨fun x hx => (by cases hx), s, follow_does hs, rfl⟩
      · exact h
    · exact h

end

/-! ## Two calls of one replica -/

/-- A token that is good for an hour, and an object for any other request. -/
def sampleResponses : Responses := fun request =>
  if request.path = tokenPath 1 then
    ⟨201, ∅, [0], "", some (.object [("token", .string "t"), ("expires_at", .string "1970-01-01T01:00:00Z")])⟩
  else ⟨200, ∅, [0], "", some (.object [])⟩

def sampleCall : ApiCall where
  method := "GET"
  path := "/repos/o/r"
  installation_id := some 1
  app_authenticated := false
  unauthenticated := false
  params := none
  json := none
  headers := ∅
  stoppable := false
  conditional_discovery := false
  discovery_lookup := false
  recovery := false

/-- The headers of every answer but that to a request for a token. -/
def sampleQuotaHeaders : Headers :=
  Dict.set "x-ratelimit-resource" "core" (Dict.set "x-ratelimit-limit" "100"
    (Dict.set "x-ratelimit-remaining" "98" (Dict.set "x-ratelimit-reset" "3600" ∅)))

def sampleUnchanged : Responses := fun request =>
  if request.path = tokenPath 1 then sampleResponses request
  else if request.conditional then ⟨304, sampleQuotaHeaders, [], "", none⟩
  else ⟨200, sampleQuotaHeaders, [0], "", some (.object [])⟩

section
variable [PyText]

/-- The first call has its token, and its request is about to leave. -/
def sampleSending : InFlight :=
  (InFlight.begin (idle (ApiState.initial 0)) (0, 0) (discard (apiResponse sampleClient sampleCall))).go
    sampleClient sampleResponses (0, 0) 13

def sampleWaiting : InFlight :=
  (sampleSending.begin (0, 1) (discard (apiResponse sampleClient sampleCall))).go sampleClient sampleResponses (0, 1) 3

def sampleAnswered : InFlight :=
  (sampleWaiting.go sampleClient sampleResponses (0, 0) 3).go sampleClient sampleResponses (0, 1) 5

def sampleRead : InFlight :=
  (InFlight.begin (idle (ApiState.initial 0)) (0, 0) (discard (apiResponse sampleClient sampleCall))).go
    sampleClient sampleUnchanged (0, 0) 20

/-- It is asked for again by its name. -/
def sampleRefunded : InFlight :=
  (sampleRead.begin (0, 1) (discard (apiResponse sampleClient sampleLookup))).go sampleClient sampleUnchanged (0, 1) 20

theorem sampleSending_requested : Requested (fun _ => sampleClient) 0 sampleSending :=
  Requested.go _ _ _ (Requested.begin .refl rfl (.response _ rfl))

theorem sampleWaiting_requested : Requested (fun _ => sampleClient) 0 sampleWaiting :=
  Requested.go _ _ _ (sampleSending_requested.begin (by rfl) (.response _ rfl))

theorem sampleAnswered_requested : Requested (fun _ => sampleClient) 0 sampleAnswered :=
  Requested.go _ _ _ (Requested.go _ _ _ sampleWaiting_requested)

theorem sampleRead_requested : Requested (fun _ => sampleClient) 0 sampleRead :=
  Requested.go _ _ _ (Requested.begin .refl rfl (.response _ rfl))

theorem sampleRead_idle : sampleRead.procs (0, 1) = none := by
  rw [sampleRead, InFlight.go_procs]
  · rfl
  · decide

theorem sampleRefunded_requested : Requested (fun _ => sampleClient) 0 sampleRefunded :=
  Requested.go _ _ _ (sampleRead_requested.begin sampleRead_idle (.response _ rfl))

end

end ExtraCodeowners
