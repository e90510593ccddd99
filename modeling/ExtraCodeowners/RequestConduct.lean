import ExtraCodeowners.Requests

/-!
# What a request does

A call is followed through its effects: the permit and the lock it holds, the
admission it has not used, the tokens it was given and the requests it sent.
Each program of the client is lawful at every effect, and sends its request
again only where a repetition is safe.
-/

namespace ExtraCodeowners

open System

/-! ## Sessions -/

/-- `serial` is the place of the admission among the calls to the budget. -/
structure Admission where
  serial : Nat
  installation_id : Nat
  receipt : Option BudgetReceipt

structure Sending where
  installation_id : Option Nat
  request : HttpRequest
  admission : Option Admission
  answer : Except RequestExn HttpResponse

/-- What one call has done so far: `lock` is the installation whose token it has
locked, and `sends` has its last request first. -/
structure Session where
  permit : Bool
  lock : Option Nat
  admission : Option Admission
  cached : List (Str × Str)
  sends : List Sending

def Session.start : Session := ⟨false, none, none, [], []⟩

def Session.next (serial : Nat) (s : Session) : (e : RequestEffect) → Except RequestExn e.Answer → Session
  | .acquirePermit, .ok _ => { s with permit := true }
  | .releasePermit, _ => { s with permit := false }
  | .acquireTokenLock installation_id, .ok _ => { s with lock := some installation_id }
  | .releaseTokenLock _, _ => { s with lock := none }
  | .admitCall installation_id _, .ok receipt => { s with admission := some ⟨serial, installation_id, receipt⟩ }
  | .cachedToken installation_id, .ok (some token) =>
    { s with cached := (tokenPath installation_id, token.value) :: s.cached }
  | .send installation_id request, answer =>
    { s with admission := none, sends := ⟨installation_id, request, s.admission, answer⟩ :: s.sends }
  | _, _ => s

def Sending.Issues (x : Sending) (path token : Str) : Prop :=
  x.installation_id = none ∧ x.request.method = ("POST" : Str) ∧ x.request.path = path ∧
    ∃ response fields, x.answer = .ok response ∧ response.isSuccess = true ∧
      response.json = some (.object fields) ∧ Json.get fields "token" = .string token

def Session.Knows (s : Session) (path token : Str) : Prop :=
  (path, token) ∈ s.cached ∨ ∃ x ∈ s.sends, x.Issues path token

def Sending.chargedTo (x : Sending) (installation_id : Nat) : Bool :=
  x.installation_id = some installation_id && x.request.path ≠ ("/graphql" : Str)

def HttpRequest.conditional (request : HttpRequest) : Bool :=
  (request.headers.get? IF_NONE_MATCH).any (· ≠ [])

def Sending.Refundable (x : Sending) (installation_id : Nat) (receipt : BudgetReceipt) : Prop :=
  x.installation_id = some installation_id ∧ x.request.method = ("GET" : Str) ∧ x.request.conditional = true ∧
    (∃ admission, x.admission = some admission ∧ admission.receipt = some receipt) ∧
    ∃ response, x.answer = .ok response ∧ response.status_code = 304

/-- What holds whenever a call is about to act. -/
def lawful (client : GitHubClient) (s : Session) : RequestEffect → Prop
  | .send installation_id request => s.permit = true ∧ ∀ id, installation_id = some id →
      (request.path ≠ ("/graphql" : Str) → client.recovery_budget.isSome = true →
        ∃ admission, s.admission = some admission ∧ admission.installation_id = id) ∧
      ∃ token, s.Knows (tokenPath id) token ∧ request.headers.get? AUTHORIZATION = some (bearer token)
  | .observe installation_id _ (some receipt) => ∃ x, s.sends.head? = some x ∧ x.Refundable installation_id receipt
  | .keepToken installation_id token => s.Knows (tokenPath installation_id) token.value
  | .acquirePermit => s.permit = false
  | .acquireTokenLock _ | .wait => s.permit = false ∧ s.lock = none
  | .releaseTokenLock installation_id => s.lock = some installation_id
  | _ => True

def undergoes (s : Session) (e : RequestEffect) (a : Except RequestExn e.Answer) (s' : Session) : Prop :=
  (∀ x, a = .error x → x.isRaised = true) ∧ ∃ serial, s' = s.next serial e a

abbrev Conducts (client : GitHubClient) {α : Type} (K : Session → Prop) (prog : Requesting α)
    (Q : α → Session → Prop) (F : RequestExn → Session → Prop) : Prop :=
  Triple (alone undergoes) (fun _ => True) (fun _ => lawful client) ⟨⟩ K prog Q F

/-! ## Rules -/

def Failing (K : Session → Prop) (x : RequestExn) (s : Session) : Prop := x ≠ .AssertionError ∧ K s

section
variable {client : GitHubClient} {K : Session → Prop}

theorem RequestExn.isRaised_ne {x : RequestExn} (h : x.isRaised = true) : x ≠ .AssertionError := by
  intro hx
  subst hx
  cases h

theorem ask_conducts {e : RequestEffect} {Q : e.Answer → Session → Prop} {F : RequestExn → Session → Prop}
    (hG : ∀ s, K s → lawful client s e) (hok : ∀ s a n, K s → Q a (s.next n e (.ok a)))
    (herr : ∀ s x n, K s → x.isRaised = true → F x (s.next n e (.error x))) : Conducts client K (ask e) Q F := by
  refine Triple.perform (alone_stable K) (fun s _ hs => hG s hs) ?_ ?_
  · intro s a s' _ hs hp _
    obtain ⟨-, n, rfl⟩ := hp
    exact hok s a n hs
  · intro s x s' _ hs hp _
    obtain ⟨hx, n, rfl⟩ := hp
    exact herr s x n hs (hx x rfl)

def RequestEffect.isQuiet : RequestEffect → Bool
  | .utcnow | .stopped | .keepToken .. | .forgetToken .. | .observe .. | .wait | .readBody => true
  | _ => false

theorem next_quiet {e : RequestEffect} (he : e.isQuiet = true) (s : Session) (n : Nat)
    (a : Except RequestExn e.Answer) : s.next n e a = s := by
  cases e <;> first | rfl | cases he

theorem quiet_conducts {e : RequestEffect} (he : e.isQuiet = true) (hG : ∀ s, K s → lawful client s e) :
    Conducts client K (ask e) (fun _ => K) (Failing K) := by
  refine ask_conducts hG ?_ ?_
  · intro s a n hs
    rw [next_quiet he]
    exact hs
  · intro s x n hs hx
    rw [next_quiet he]
    exact ⟨RequestExn.isRaised_ne hx, hs⟩

theorem quiet_then {e : RequestEffect} (he : e.isQuiet = true) (hG : ∀ s, K s → lawful client s e) {α : Type}
    {f : e.Answer → Requesting α} {Q : α → Session → Prop} (hf : ∀ a, Conducts client K (f a) Q (Failing K)) :
    Conducts client K (ask e >>= f) Q (Failing K) :=
  (quiet_conducts he hG).bind hf

theorem raise_conducts {α : Type} {x : RequestExn} (hx : x ≠ .AssertionError) {Q : α → Session → Prop} :
    Conducts client K (Prog.throw x : Requesting α) Q (Failing K) :=
  Triple.throw fun _ _ hs => ⟨hx, hs⟩

theorem return_conducts {α : Type} {a : α} {Q : α → Session → Prop} {F : RequestExn → Session → Prop}
    (h : ∀ s, K s → Q a s) : Conducts client K (return a) Q F :=
  Triple.pure fun s _ hs => h s hs

theorem raiseIfStopped_conducts (stoppable : Bool) :
    Conducts client K (raiseIfStopped stoppable) (fun _ => K) (Failing K) := by
  unfold raiseIfStopped
  refine Triple.ite (fun _ => ?_) fun _ => return_conducts fun _ hs => hs
  refine quiet_then (e := .stopped) rfl (fun _ _ => trivial) fun (set : Bool) => ?_
  exact Triple.ite (fun _ => raise_conducts (by simp)) fun _ => return_conducts fun _ hs => hs

theorem translateTimeout_conducts {α : Type} (stoppable : Bool) {x : RequestExn} (hx : x ≠ .AssertionError)
    {Q : α → Session → Prop} : Conducts client K (translateTimeout stoppable x : Requesting α) Q (Failing K) := by
  cases x with
  | TimeoutError =>
    refine Triple.ite (fun _ => ?_) fun _ => raise_conducts (by simp)
    refine quiet_then (e := .stopped) rfl (fun _ _ => trivial) fun (set : Bool) => ?_
    exact Triple.ite (fun _ => raise_conducts (by simp [STOPPED_DURING])) fun _ => raise_conducts (by simp)
  | TimeoutException =>
    refine Triple.ite (fun _ => ?_) fun _ => raise_conducts (by simp)
    refine quiet_then (e := .stopped) rfl (fun _ _ => trivial) fun (set : Bool) => ?_
    exact Triple.ite (fun _ => raise_conducts (by simp [STOPPED_DURING])) fun _ => raise_conducts (by simp)
  | _ => exact raise_conducts hx

theorem Conducts.leaving {L L' : Session → Prop} {α : Type} {prog : Requesting α} {Q : α → Session → Prop}
    (h : Conducts client K prog Q (Failing L)) (hL : ∀ s, L s → L' s) : Conducts client K prog Q (Failing L') :=
  h.conseq (fun _ _ hs => hs) (fun _ _ _ hs => hs) fun _ s _ hs => ⟨hs.1, hL s hs.2⟩

/-- What was taken is back at the end, and nothing else has changed. -/
theorem holding_conducts {acquire release : RequestEffect} {t g : Session → Session} {L P R : Session → Prop}
    {α : Type} {prog : Requesting α} {Q : α → Session → Prop}
    (htake : ∀ (s : Session) n a, s.next n acquire (.ok a) = t s)
    (hnot : ∀ (s : Session) n x, s.next n acquire (.error x) = s)
    (hgive : ∀ (s : Session) n a, s.next n release a = g s)
    (hrelease : ∀ s, R s → lawful client s release) (hK : ∀ s, K s → lawful client s acquire ∧ P (t s) ∧ L s)
    (hQ : ∀ a s, Q a s → L s)
    (h : Conducts client P prog (fun a s => R s ∧ Q a (g s)) (Failing fun s => R s ∧ L (g s))) :
    Conducts client K (holding acquire release prog) Q (Failing L) := by
  have hacquire : Conducts client K (ask acquire) (fun _ => P) (Failing L) := by
    refine ask_conducts (fun s hs => (hK s hs).1) (fun s a n hs => ?_) fun s x n hs hx => ?_
    · rw [htake]
      exact (hK s hs).2.1
    · rw [hnot]
      exact ⟨RequestExn.isRaised_ne hx, (hK s hs).2.2⟩
  have hback : ∀ N : Session → Prop, (∀ s, N s → L s) → Conducts client (fun s => R s ∧ N (g s))
      (ask release >>= fun _ => return ()) (fun _ => N) (Failing L) := by
    intro N hN
    have hask : Conducts client (fun s => R s ∧ N (g s)) (ask release) (fun _ => N) (Failing L) := by
      refine ask_conducts (fun s hs => hrelease s hs.1) (fun s a n hs => ?_) fun s x n hs hx => ?_
      · rw [hgive]
        exact hs.2
      · rw [hgive]
        exact ⟨RequestExn.isRaised_ne hx, hN _ hs.2⟩
    exact hask.bind fun _ => return_conducts fun _ hs => hs
  refine hacquire.bind fun _ => h.andFinally (fun a => hback (Q a) (hQ a)) fun x s hI hs => ?_
  exact (hback L fun _ hs => hs).conseq (fun _ _ hs => hs) (fun _ _ _ hl => ⟨hs.1, hl⟩) (fun _ _ _ hs => hs) s hI hs.2

def Session.released (s : Session) : Session := { s with permit := false }

theorem slot_conducts {L : Session → Prop} {α : Type} {prog : Requesting α} {Q : α → Session → Prop}
    (hK : ∀ s, K s → s.permit = false ∧ L s) (hQ : ∀ a s, Q a s → L s)
    (h : Conducts client (fun s => K s.released ∧ s.permit = true) prog (fun a s => Q a s.released)
      (Failing fun s => L s.released)) : Conducts client K (slot prog) Q (Failing L) := by
  refine holding_conducts (t := fun s => { s with permit := true }) (g := Session.released) (R := fun _ => True)
    (fun _ _ _ => rfl) (fun _ _ _ => rfl) (fun _ _ _ => rfl) (fun _ _ => trivial) (fun s hs => ?_) hQ
    (h.conseq (fun _ _ hs => hs) (fun _ _ _ hs => ⟨trivial, hs⟩) fun _ _ _ hs => ⟨hs.1, trivial, hs.2⟩)
  have hsame : Session.released { s with permit := true } = s := by
    cases s
    cases (hK _ hs).1
    rfl
  exact ⟨(hK s hs).1, ⟨hsame.symm ▸ hs, rfl⟩, (hK s hs).2⟩

def Session.unlocked (s : Session) : Session := { s with lock := none }

theorem underTokenLock_conducts {L : Session → Prop} {α : Type} {prog : Requesting α} {Q : α → Session → Prop}
    (id : Nat) (hK : ∀ s, K s → s.permit = false ∧ s.lock = none ∧ L s) (hQ : ∀ a s, Q a s → L s)
    (h : Conducts client (fun s => K s.unlocked ∧ s.lock = some id) prog (fun a s => s.lock = some id ∧ Q a s.unlocked)
      (Failing fun s => s.lock = some id ∧ L s.unlocked)) :
    Conducts client K (underTokenLock id prog) Q (Failing L) := by
  refine holding_conducts (t := fun s => { s with lock := some id }) (g := Session.unlocked)
    (R := fun s => s.lock = some id) (fun _ _ _ => rfl) (fun _ _ _ => rfl) (fun _ _ _ => rfl) (fun _ hs => hs)
    (fun s hs => ?_) hQ h
  have hsame : Session.unlocked { s with lock := some id } = s := by
    cases s
    cases (hK _ hs).2.1
    rfl
  exact ⟨⟨(hK s hs).1, (hK s hs).2.1⟩, ⟨hsame.symm ▸ hs, rfl⟩, (hK s hs).2.2⟩

end

/-! ## Repetitions -/

def Sending.rejected (x : Sending) : Bool :=
  match x.answer with
  | .ok response => response.status_code = 401
  | .error _ => false

def Sending.transient (x : Sending) : Bool :=
  match x.answer with
  | .ok response => isTransient response
  | .error .RemoteProtocolError => true
  | .error _ => false

theorem rejected_not_transient {x : Sending} (h : x.rejected = true) : x.transient = false := by
  unfold Sending.rejected at h
  unfold Sending.transient
  cases hx : x.answer with
  | error => simp [hx] at h
  | ok response =>
    simp only [hx, decide_eq_true_eq] at h ⊢
    simp [isTransient, h]

def ApiCall.Asks (call : ApiCall) (x : Sending) : Prop :=
  x.installation_id = call.budgetInstallation ∧ x.request = call.request x.request.headers

section
variable [PyText]

def Headers.Unconditional (headers : Headers) : Prop :=
  ∀ key ∈ headers.keys, PyText.lower key ≠ ("if-none-match" : Str) ∧ PyText.lower key ≠ ("if-modified-since" : Str)

/-- The requests of a call, the last one first. Before each repetition the
token was rejected, or a discovery request failed in passing. -/
structure Repeats (call : ApiCall) (sends : List Sending) : Prop where
  bounded : sends.length ≤ call.attempts
  asks : ∀ x ∈ sends, call.Asks x
  earlier : ∀ x ∈ sends.tail, x.rejected = true ∨ call.retryDiscovery = true ∧ x.transient = true
  rejected : sends.tail.countP Sending.rejected ≤ 1
  transient : sends.tail.countP Sending.transient ≤ 1
  unconditional : ∀ x ∈ sends.dropLast, x.request.headers.Unconditional

/-- Requests that are to be repeated, before the next attempt. -/
structure Spent (call : ApiCall) (refreshed_token retried_transient : Bool) (sends : List Sending) : Prop where
  length : sends.length = refreshed_token.toNat + retried_transient.toNat
  asks : ∀ x ∈ sends, call.Asks x
  earlier : ∀ x ∈ sends, x.rejected = true ∨ call.retryDiscovery = true ∧ x.transient = true
  rejected : sends.countP Sending.rejected = refreshed_token.toNat
  transient : sends.countP Sending.transient = retried_transient.toNat
  unconditional : ∀ x ∈ sends.dropLast, x.request.headers.Unconditional
  refreshes : refreshed_token = true → call.app_authenticated = false ∧ call.unauthenticated = false
  retries : retried_transient = true → call.retryDiscovery = true

section
variable {call : ApiCall} {refreshed_token retried_transient : Bool} {sends : List Sending} {x : Sending}

theorem Spent.none : Spent call false false [] where
  length := rfl
  asks _ hx := by cases hx
  earlier _ hx := by cases hx
  rejected := rfl
  transient := rfl
  unconditional _ hx := by cases hx
  refreshes h := by cases h
  retries h := by cases h

omit [PyText] in
theorem countP_tail_le {p : Sending → Bool} (l : List Sending) : l.tail.countP p ≤ l.countP p :=
  (List.tail_sublist l).countP_le

/-- An attempt is left, so the loop does not run out. -/
theorem Spent.lt (h : Spent call refreshed_token retried_transient sends) : sends.length < call.attempts := by
  have hrefreshed := refreshed_token.toNat_le
  have hretried := retried_transient.toNat_le
  rw [h.length, ApiCall.attempts]
  by_cases hretry : call.retryDiscovery = true
  · rw [if_pos hretry]
    omega
  · have hnone : retried_transient = false := Bool.eq_false_iff.mpr fun ht => hretry (h.retries ht)
    rw [if_neg hretry, hnone]
    by_cases hmode : (call.app_authenticated || call.unauthenticated) = true
    · have hnever : refreshed_token = false := by
        refine Bool.eq_false_iff.mpr fun ht => ?_
        obtain ⟨happ, hpublic⟩ := h.refreshes ht
        simp [happ, hpublic] at hmode
      rw [if_pos hmode, hnever]
      exact Nat.one_pos
    · rw [if_neg hmode]
      exact Nat.lt_succ_of_le hrefreshed

theorem Spent.repeats (h : Spent call refreshed_token retried_transient sends) : Repeats call sends where
  bounded := h.lt.le
  asks := h.asks
  earlier x hx := h.earlier x (List.mem_of_mem_tail hx)
  rejected := (countP_tail_le sends).trans (h.rejected.le.trans (Bool.toNat_le _))
  transient := (countP_tail_le sends).trans (h.transient.le.trans (Bool.toNat_le _))
  unconditional := h.unconditional

theorem unconditional_cons (h : ∀ y ∈ sends.dropLast, y.request.headers.Unconditional)
    (hx : sends ≠ [] → x.request.headers.Unconditional) :
    ∀ y ∈ (x :: sends).dropLast, y.request.headers.Unconditional := by
  intro y hy
  cases sends with
  | nil => cases hy
  | cons z sends =>
    rw [List.dropLast_cons_of_ne_nil (by simp)] at hy
    rcases List.mem_cons.mp hy with rfl | hy
    · exact hx (by simp)
    · exact h y hy

theorem Spent.sent (h : Spent call refreshed_token retried_transient sends) (hasks : call.Asks x)
    (hx : sends ≠ [] → x.request.headers.Unconditional) : Repeats call (x :: sends) where
  bounded := h.lt
  asks := List.forall_mem_cons.mpr ⟨hasks, h.asks⟩
  earlier := h.earlier
  rejected := h.rejected.le.trans (Bool.toNat_le _)
  transient := h.transient.le.trans (Bool.toNat_le _)
  unconditional := unconditional_cons h.unconditional hx

theorem Spent.refresh (h : Spent call false retried_transient sends) (hasks : call.Asks x)
    (hx : sends ≠ [] → x.request.headers.Unconditional) (hrejected : x.rejected = true)
    (hcall : call.app_authenticated = false ∧ call.unauthenticated = false) :
    Spent call true retried_transient (x :: sends) where
  length := by
    rw [List.length_cons, h.length]
    simp [Nat.add_comm]
  asks := List.forall_mem_cons.mpr ⟨hasks, h.asks⟩
  earlier := List.forall_mem_cons.mpr ⟨Or.inl hrejected, h.earlier⟩
  rejected := by rw [List.countP_cons_of_pos hrejected, h.rejected]; rfl
  transient := by rw [List.countP_cons_of_neg (by simp [rejected_not_transient hrejected]), h.transient]
  unconditional := unconditional_cons h.unconditional hx
  refreshes _ := hcall
  retries := h.retries

theorem Spent.retry (h : Spent call refreshed_token false sends) (hasks : call.Asks x)
    (hx : sends ≠ [] → x.request.headers.Unconditional) (htransient : x.transient = true)
    (hcall : call.retryDiscovery = true) : Spent call refreshed_token true (x :: sends) where
  length := by
    rw [List.length_cons, h.length]
    rfl
  asks := List.forall_mem_cons.mpr ⟨hasks, h.asks⟩
  earlier := List.forall_mem_cons.mpr ⟨Or.inr ⟨hcall, htransient⟩, h.earlier⟩
  rejected := by
    have hnot : ¬x.rejected = true := by
      intro hr
      rw [rejected_not_transient hr] at htransient
      cases htransient
    rw [List.countP_cons_of_neg hnot, h.rejected]
  transient := by rw [List.countP_cons_of_pos htransient, h.transient]; rfl
  unconditional := unconditional_cons h.unconditional hx
  refreshes := h.refreshes
  retries _ := hcall

end

/-! ## One attempt -/

def Session.own (b : Bool) (s : Session) : List Sending := s.sends.filter fun x => x.installation_id.isSome = b

/-- What is beside the requests of a call: `M` is what was sent before, and `B`
the requests of the installation around a request for its token. -/
structure Keeps (call : ApiCall) (lock : Option Nat) (B : List Sending) (own : List Sending) (s : Session) : Prop where
  lock : s.lock = lock
  frame : call.budgetInstallation.isSome = false → s.own true = B
  own : s.own call.budgetInstallation.isSome = own

/-- Between two attempts, with the requests that were made. -/
structure Between (call : ApiCall) (lock : Option Nat) (B M sends : List Sending) (s : Session) : Prop extends
    Keeps call lock B (sends ++ M) s where
  permit : s.permit = false
  admission : s.admission = none

def Ended (call : ApiCall) (lock : Option Nat) (B M : List Sending) (s : Session) : Prop :=
  ∃ sends, Repeats call sends ∧ Between call lock B M sends s

def Signed (call : ApiCall) (headers : Headers) (used : Option (Nat × Str)) (s : Session) : Prop :=
  ∀ id, call.budgetInstallation = some id → ∃ token, used = some (id, token) ∧
    headers.get? AUTHORIZATION = some (bearer token) ∧ s.Knows (tokenPath id) token

def Paid (client : GitHubClient) (call : ApiCall) (receipt : Option BudgetReceipt) (s : Session) : Prop :=
  (∃ n id, call.budgetInstallation = some id ∧ s.admission = some ⟨n, id, receipt⟩) ∨
    (receipt = none ∧ (call.budgetInstallation = none ∨ call.path = ("/graphql" : Str) ∨ client.recovery_budget = none))

structure Posted (call : ApiCall) (lock : Option Nat) (B M sends : List Sending) (headers : Headers)
    (receipt : Option BudgetReceipt) (answer : Except RequestExn HttpResponse) (s : Session) : Prop where
  lock : s.lock = lock
  frame : call.budgetInstallation.isSome = false → s.own true = B
  admission : s.admission = none
  last : ∃ x, s.sends.head? = some x ∧ s.own call.budgetInstallation.isSome = x :: (sends ++ M) ∧ call.Asks x ∧
    x.request.headers = headers ∧ x.answer = answer ∧
    (∀ r, receipt = some r → ∃ admission, x.admission = some admission ∧ admission.receipt = some r)

section
variable {client : GitHubClient} {call : ApiCall} {lock : Option Nat} {B M sends : List Sending} {headers : Headers}

omit [PyText] in
theorem own_send (b : Bool) (s : Session) (n : Nat) (id : Option Nat) (request : HttpRequest)
    (answer : Except RequestExn HttpResponse) : (s.next n (.send id request) answer).own b =
      if id.isSome = b then ⟨id, request, s.admission, answer⟩ :: s.own b else s.own b := by
  unfold Session.own Session.next
  by_cases hid : id.isSome = b
  · rw [if_pos hid, List.filter_cons_of_pos (by simpa using hid)]
  · rw [if_neg hid, List.filter_cons_of_neg (by simpa using hid)]

omit [PyText] in
theorem admitRequest_conducts {used : Option (Nat × Str)} : Conducts client
    (fun s => (Between call lock B M sends s.released ∧ Signed call headers used s.released) ∧ s.permit = true)
    (admitRequest client call)
    (fun receipt s => (Keeps call lock B (sends ++ M) s ∧ Signed call headers used s ∧ s.permit = true) ∧
      Paid client call receipt s)
    (Failing fun s => Between call lock B M sends s.released) := by
  have hunpaid : (call.budgetInstallation = none ∨ call.path = ("/graphql" : Str) ∨ client.recovery_budget = none) →
      Conducts client (fun s => (Between call lock B M sends s.released ∧ Signed call headers used s.released) ∧
        s.permit = true) (return none : Requesting (Option BudgetReceipt))
        (fun receipt s => (Keeps call lock B (sends ++ M) s ∧ Signed call headers used s ∧ s.permit = true) ∧
          Paid client call receipt s) (Failing fun s => Between call lock B M sends s.released) := by
    intro hfree
    refine return_conducts fun s hs => ?_
    obtain ⟨⟨hawaits, hauth⟩, hpermit⟩ := hs
    exact ⟨⟨⟨hawaits.lock, hawaits.frame, hawaits.own⟩, hauth, hpermit⟩, Or.inr ⟨rfl, hfree⟩⟩
  unfold admitRequest
  split
  · rename_i id budget hid hbudget
    refine Triple.ite (fun hpath => hunpaid (Or.inr (Or.inl hpath))) fun _ => ?_
    refine Triple.handle (F := fun x s => x.isRaised = true ∧ Between call lock B M sends s.released) ?_ fun x => ?_
    · refine ask_conducts (fun _ _ => trivial) ?_ ?_
      · intro s receipt n hs
        obtain ⟨⟨hawaits, hauth⟩, hpermit⟩ := hs
        exact ⟨⟨⟨hawaits.lock, hawaits.frame, hawaits.own⟩, hauth, hpermit⟩, Or.inl ⟨n, id, hid, rfl⟩⟩
      · exact fun s x n hs hx => ⟨hx, hs.1.1⟩
    · intro s hI hs
      obtain ⟨hx, hs⟩ := hs
      cases x with
      | ProviderQuotaExhaustedError seconds => exact ⟨by simp, hs⟩
      | _ => exact ⟨RequestExn.isRaised_ne hx, hs⟩
  · rename_i hnot
    refine hunpaid ?_
    cases hid : call.budgetInstallation with
    | none => exact Or.inl rfl
    | some id =>
      cases hbudget : client.recovery_budget with
      | none => exact Or.inr (Or.inr rfl)
      | some budget => exact (hnot id budget hid hbudget).elim

omit [PyText] in
theorem post_conducts {used : Option (Nat × Str)} {receipt : Option BudgetReceipt} : Conducts client
    (fun s => (Keeps call lock B (sends ++ M) s ∧ Signed call headers used s ∧ s.permit = true) ∧
      Paid client call receipt s)
    (ask (.send call.budgetInstallation (call.request headers)))
    (fun (response : HttpResponse) s => Posted call lock B M sends headers receipt (.ok response) s)
    (fun x s => x.isRaised = true ∧ Posted call lock B M sends headers receipt (.error x) s) := by
  have hposted : ∀ s n (answer : Except RequestExn HttpResponse),
      (Keeps call lock B (sends ++ M) s ∧ Signed call headers used s ∧ s.permit = true) ∧
        Paid client call receipt s →
      Posted call lock B M sends headers receipt answer
        (s.next n (.send call.budgetInstallation (call.request headers)) answer) := by
    intro s n answer hs
    obtain ⟨⟨hkeeps, -, -⟩, hpaid⟩ := hs
    refine ⟨hkeeps.lock, fun hb => ?_, rfl, _, rfl, ?_, ⟨rfl, rfl⟩, rfl, rfl, fun r hr => ?_⟩
    · rw [own_send, if_neg (by simp [hb])]
      exact hkeeps.frame hb
    · rw [own_send, if_pos rfl, hkeeps.own]
    · rcases hpaid with ⟨n, id, -, hadmission⟩ | ⟨hnone, -⟩
      · exact ⟨_, hadmission, hr⟩
      · rw [hnone] at hr
        cases hr
  refine ask_conducts ?_ (fun s a n hs => hposted s n (.ok a) hs) fun s x n hs hx => ⟨hx, hposted s n (.error x) hs⟩
  intro s hs
  obtain ⟨⟨-, hauth, hpermit⟩, hpaid⟩ := hs
  refine ⟨hpermit, fun id hid => ⟨fun hpath hbudget => ?_, ?_⟩⟩
  · rcases hpaid with ⟨n, id', hid', hadmission⟩ | ⟨-, hnone | hgraphql | hnone⟩
    · rw [hid] at hid'
      cases hid'
      exact ⟨_, hadmission, rfl⟩
    · rw [hid] at hnone
      cases hnone
    · exact absurd hgraphql hpath
    · rw [hnone] at hbudget
      cases hbudget
  · obtain ⟨token, -, hheader, hknows⟩ := hauth id hid
    exact ⟨token, hknows, hheader⟩

omit [PyText] in
theorem refundsReceipt_conducts {K : Session → Prop} (response : HttpResponse) : Conducts client K
    (refundsReceipt call headers response)
    (fun refunds s => (refunds = true → call.method = ("GET" : Str) ∧ response.status_code = 304 ∧
      (headers.get? IF_NONE_MATCH).any (· ≠ []) = true) ∧ K s) (Failing K) := by
  unfold refundsReceipt
  refine Triple.ite (fun hc => ?_) fun _ => return_conducts fun s hs => ⟨fun h => (by cases h), hs⟩
  simp only [Bool.and_eq_true, decide_eq_true_eq] at hc
  obtain ⟨⟨⟨-, hget⟩, hstatus⟩, hmatch⟩ := hc
  refine Triple.ite (fun _ => ?_) fun _ => return_conducts fun s hs => ⟨fun _ => ⟨hget, hstatus, hmatch⟩, hs⟩
  refine quiet_then (e := .stopped) rfl (fun _ _ => trivial) fun (set : Bool) => ?_
  exact return_conducts fun s hs => ⟨fun _ => ⟨hget, hstatus, hmatch⟩, hs⟩

omit [PyText] in
theorem observeQuota_conducts {K : Session → Prop} {installation_id : Option Nat} {response : HttpResponse}
    {receipt : Option BudgetReceipt} (hK : ∀ s id r, K s → installation_id = some id → receipt = some r →
      ∃ x, s.sends.head? = some x ∧ x.Refundable id r) :
    Conducts client K (observeQuota client installation_id response receipt) (fun _ => K) (Failing K) := by
  unfold observeQuota
  refine Triple.ite (fun _ => return_conducts fun _ hs => hs) fun _ => ?_
  refine quiet_then (e := .utcnow) rfl (fun _ _ => trivial) fun (now : Time) => ?_
  cases CoreQuota.fromHeaders response.headers now with
  | none => exact return_conducts fun _ hs => hs
  | some quota =>
    cases installation_id with
    | none => exact return_conducts fun _ hs => hs
    | some id =>
      cases client.recovery_budget with
      | none => exact return_conducts fun _ hs => hs
      | some budget =>
        refine quiet_then (e := .observe id quota receipt) rfl (fun s hs => ?_) fun _ => return_conducts fun _ hs => hs
        cases receipt with
        | none => trivial
        | some r => exact hK s id r hs rfl rfl

def outcome : Option HttpResponse → Except RequestExn HttpResponse
  | none => .error .RemoteProtocolError
  | some response => .ok response

structure Exchanged (call : ApiCall) (lock : Option Nat) (B M sends : List Sending) (headers : Headers) (attempt : Nat)
    (retried_transient : Bool) (response : Option HttpResponse) (s : Session) : Prop where
  permit : s.permit = false
  posted : ∃ receipt, Posted call lock B M sends headers receipt (outcome response) s
  unanswered : response = none → call.retryDiscovery = true ∧ retried_transient = false ∧ attempt + 1 < call.attempts

variable {refreshed_token retried_transient : Bool} {attempt : Nat}

omit [PyText] in
theorem Posted.awaits {receipt : Option BudgetReceipt} {answer : Except RequestExn HttpResponse} {s : Session}
    (h : Posted call lock B M sends headers receipt answer s) (hpermit : s.permit = false) :
    ∃ x, call.Asks x ∧ x.request.headers = headers ∧ x.answer = answer ∧ Between call lock B M (x :: sends) s := by
  obtain ⟨x, -, hown, hasks, hx, hanswer, -⟩ := h.last
  exact ⟨x, hasks, hx, hanswer, ⟨h.lock, h.frame, hown⟩, hpermit, h.admission⟩

theorem Posted.ended (hspent : Spent call refreshed_token retried_transient sends)
    (hheaders : sends ≠ [] → headers.Unconditional) {receipt : Option BudgetReceipt}
    {answer : Except RequestExn HttpResponse} {s : Session} (h : Posted call lock B M sends headers receipt answer s)
    (hpermit : s.permit = false) : Ended call lock B M s := by
  obtain ⟨x, hasks, hx, -, hawaits⟩ := h.awaits hpermit
  exact ⟨x :: sends, hspent.sent hasks fun hne => hx ▸ hheaders hne, hawaits⟩

theorem Between.ended (hspent : Spent call refreshed_token retried_transient sends) {s : Session}
    (h : Between call lock B M sends s) : Ended call lock B M s := ⟨sends, hspent.repeats, h⟩

theorem exchange_conducts (hspent : Spent call refreshed_token retried_transient sends)
    (hheaders : sends ≠ [] → headers.Unconditional) {used : Option (Nat × Str)} : Conducts client
    (fun s => (Between call lock B M sends s.released ∧ Signed call headers used s.released) ∧ s.permit = true)
    (exchange client call headers attempt retried_transient)
    (fun response s => Exchanged call lock B M sends headers attempt retried_transient response s.released)
    (Failing fun s => Ended call lock B M s.released) := by
  have hended : ∀ {receipt answer} {s : Session}, Posted call lock B M sends headers receipt answer s →
      Ended call lock B M s.released := by
    intro receipt answer s hs
    exact Posted.ended hspent hheaders (s := s.released) ⟨hs.lock, hs.frame, hs.admission, hs.last⟩ rfl
  refine Triple.bind (admitRequest_conducts.leaving fun s hs => hs.ended hspent) fun receipt => ?_
  refine Triple.bind (R := fun response s => Posted call lock B M sends headers receipt (outcome response) s ∧
    (response = none → call.retryDiscovery = true ∧ retried_transient = false ∧ attempt + 1 < call.attempts)) ?_
    fun response => ?_
  · refine Triple.handle (F := fun x s => x.isRaised = true ∧
      Posted call lock B M sends headers receipt (.error x) s) ?_ fun x => ?_
    · refine post_conducts.bind fun response => return_conducts fun s hs => ⟨hs, fun hnone => ?_⟩
      cases hnone
    · by_cases hlost : x = .RemoteProtocolError
      · subst hlost
        refine Triple.ite (fun _ => Triple.throw fun s _ hs => ⟨by simp, hended hs.2⟩) fun hc => ?_
        refine return_conducts fun s hs => ⟨hs.2, fun _ => ?_⟩
        simp only [Bool.or_eq_true, Bool.not_eq_true', decide_eq_true_eq, not_or, Bool.not_eq_false,
          Bool.not_eq_true, not_le] at hc
        exact ⟨hc.1.1, hc.1.2, hc.2⟩
      · have hthrow : Conducts client
            (fun s => x.isRaised = true ∧ Posted call lock B M sends headers receipt (.error x) s)
            (Prog.throw x : Requesting (Option HttpResponse))
            (fun response s => Posted call lock B M sends headers receipt (outcome response) s ∧
              (response = none → call.retryDiscovery = true ∧ retried_transient = false ∧ attempt + 1 < call.attempts))
            (Failing fun s => Ended call lock B M s.released) :=
          Triple.throw fun s _ hs => ⟨RequestExn.isRaised_ne hs.1, hended hs.2⟩
        cases x with
        | RemoteProtocolError => exact absurd rfl hlost
        | _ => exact hthrow
  cases response with
  | none =>
    refine return_conducts fun s hs => ?_
    exact ⟨rfl, ⟨receipt, hs.1.lock, hs.1.frame, hs.1.admission, hs.1.last⟩, hs.2⟩
  | some response =>
    refine Triple.bind (((refundsReceipt_conducts response).leaving (fun s hs => hended hs.1))) fun refunds => ?_
    refine Triple.bind (((observeQuota_conducts ?_).leaving fun s hs => hended hs.2.1)) fun _ => ?_
    · intro s id r hs hid hr
      obtain ⟨hrefunds, hposted, -⟩ := hs
      obtain ⟨x, hhead, -, hasks, hheader, hanswer, hreceipt⟩ := hposted.last
      by_cases hc : refunds = true
      · rw [if_pos hc] at hr
        obtain ⟨hget, hstatus, hmatch⟩ := hrefunds hc
        refine ⟨x, hhead, hasks.1.trans hid, ?_, ?_, hreceipt r hr, response, hanswer, hstatus⟩
        · rw [hasks.2]
          exact hget
        · rw [HttpRequest.conditional, hheader]
          exact hmatch
      · rw [if_neg hc] at hr
        cases hr
    · refine return_conducts fun s hs => ?_
      obtain ⟨-, hposted, hnone⟩ := hs
      exact ⟨rfl, ⟨receipt, hposted.lock, hposted.frame, hposted.admission, hposted.last⟩, hnone⟩

theorem Exchanged.ended (hspent : Spent call refreshed_token retried_transient sends)
    (hheaders : sends ≠ [] → headers.Unconditional) {response : Option HttpResponse} {s : Session}
    (h : Exchanged call lock B M sends headers attempt retried_transient response s) : Ended call lock B M s := by
  obtain ⟨receipt, hposted⟩ := h.posted
  exact hposted.ended hspent hheaders h.permit

/-- An exchange under its permit, and the token that a rejection is about. -/
theorem slot_exchange_conducts (hspent : Spent call refreshed_token retried_transient sends)
    (hheaders : sends ≠ [] → headers.Unconditional) {used : Option (Nat × Str)} : Conducts client
    (fun s => Between call lock B M sends s ∧ Signed call headers used s)
    (slot (exchange client call headers attempt retried_transient))
    (fun response s => Exchanged call lock B M sends headers attempt retried_transient response s ∧
      ∀ id, call.budgetInstallation = some id → ∃ value, used = some (id, value))
    (Failing (Ended call lock B M)) := by
  intro s hI hs
  have hused : ∀ id, call.budgetInstallation = some id → ∃ value, used = some (id, value) := by
    intro id hid
    obtain ⟨value, hvalue, -⟩ := hs.2 id hid
    exact ⟨value, hvalue⟩
  refine slot_conducts (K := fun s => Between call lock B M sends s ∧ Signed call headers used s)
    (fun s hs => ⟨hs.1.permit, hs.1.ended hspent⟩) (fun response s hs => hs.1.ended hspent hheaders) ?_ s hI hs
  exact (exchange_conducts hspent hheaders).conseq (fun _ _ hs => hs) (fun _ _ _ hs => ⟨hs, hused⟩)
    fun _ _ _ hs => hs

/-! ## Every attempt -/

def Session.Calm (s : Session) : Prop := s.permit = false ∧ s.lock = none ∧ s.admission = none

def GetsToken (client : GitHubClient) (call : ApiCall) (token : Nat → Bool → Requesting Str) : Prop :=
  ∀ id, call.budgetInstallation = some id → ∀ own, Conducts client (fun s => s.Calm ∧ s.own true = own)
    (token id call.stoppable) (fun value s => (s.Calm ∧ s.own true = own) ∧ s.Knows (tokenPath id) value)
    (Failing fun s => s.Calm ∧ s.own true = own)

def Concluded (call : ApiCall) (lock : Option Nat) (B M : List Sending) (response : HttpResponse)
    (s : Session) : Prop :=
  ∃ x sends, x.answer = .ok response ∧ Repeats call (x :: sends) ∧ Between call lock B M (x :: sends) s

omit [PyText] in
theorem ApiCall.oneMode_cases (h : call.oneMode = true) :
    (call.budgetInstallation = none ∧ (call.unauthenticated = true ∨ call.app_authenticated = true)) ∨
      ∃ id, call.installation_id = some id ∧ call.budgetInstallation = some id ∧ call.unauthenticated = false ∧
        call.app_authenticated = false := by
  unfold ApiCall.oneMode at h
  unfold ApiCall.budgetInstallation
  cases hp : call.unauthenticated with
  | true => simp
  | false =>
    cases ha : call.app_authenticated with
    | true => simp
    | false =>
      cases hi : call.installation_id with
      | none => simp [hp, ha, hi] at h
      | some id => simp

theorem authorization_unconditional [LawfulPyText] {headers : Headers} (h : headers.Unconditional) (value : Str) :
    Headers.Unconditional (headers.set AUTHORIZATION value) := by
  have hlower : PyText.lower AUTHORIZATION = ("authorization" : Str) :=
    (LawfulPyText.lower_ascii AUTHORIZATION (forall_mem_of_all (by decide))).trans (by decide)
  intro key hkey
  rcases Dict.mem_keys_set.mp hkey with rfl | hkey
  · rw [hlower]
    exact ⟨by decide, by decide⟩
  · exact h key hkey

theorem unconditional_unconditional (headers : Headers) : headers.unconditional.Unconditional := by
  intro key hkey
  obtain ⟨value, hvalue⟩ := Dict.mem_keys.mp hkey
  rw [Headers.unconditional, Dict.get?_deleteWhere, Option.filter_eq_some_iff] at hvalue
  simp only [Bool.not_eq_true', Bool.or_eq_false_iff, decide_eq_false_iff_not] at hvalue
  exact hvalue.2

section
variable {token : Nat → Bool → Requesting Str}

theorem authenticate_conducts [LawfulPyText] (hmode : call.oneMode = true)
    (hlock : call.budgetInstallation.isSome = true → lock = none) (htoken : GetsToken client call token)
    (given : Headers) : Conducts client (Between call lock B M sends) (authenticate client token call given)
      (fun signed s => (given.Unconditional → signed.1.Unconditional) ∧
        Between call lock B M sends s ∧ Signed call signed.1 signed.2 s) (Failing (Between call lock B M sends)) := by
  unfold authenticate
  rcases call.oneMode_cases hmode with ⟨hnone, hsigned⟩ | ⟨id, hid, hbudget, hpublic, happ⟩
  · have hauth : ∀ {headers used s}, Signed call headers used s := by
      intro headers used s id hid
      rw [hnone] at hid
      cases hid
    refine Triple.ite (fun _ => return_conducts fun s hs => ⟨id, hs, hauth⟩) fun hpublic => ?_
    refine Triple.ite (fun _ => ?_) fun happ => (hsigned.elim hpublic happ).elim
    refine quiet_then (e := .utcnow) rfl (fun _ _ => trivial) fun (now : Time) => ?_
    exact return_conducts fun s hs => ⟨fun h => authorization_unconditional h _, hs, hauth⟩
  · rw [if_neg (by simp [hpublic]), if_neg (by simp [happ]), hid]
    have hsome : call.budgetInstallation.isSome = true := by rw [hbudget]; rfl
    have hawaits : ∀ {s : Session}, s.Calm ∧ s.own true = sends ++ M → Between call lock B M sends s := by
      intro s hs
      obtain ⟨⟨hpermit, hl, hadmission⟩, hown⟩ := hs
      refine ⟨⟨hl.trans (hlock hsome).symm, fun hb => ?_, by rw [hsome]; exact hown⟩, hpermit, hadmission⟩
      rw [hsome] at hb
      cases hb
    have hcalm : ∀ s, Between call lock B M sends s → s.Calm ∧ s.own true = sends ++ M := by
      intro s hs
      exact ⟨⟨hs.permit, hs.lock.trans (hlock hsome), hs.admission⟩, hsome ▸ hs.own⟩
    have hget : Conducts client (Between call lock B M sends) (token id call.stoppable)
        (fun value s => (s.Calm ∧ s.own true = sends ++ M) ∧ s.Knows (tokenPath id) value)
        (Failing (Between call lock B M sends)) :=
      (htoken id hbudget (sends ++ M)).conseq (fun s _ hs => hcalm s hs) (fun _ _ _ hs => hs)
        fun x s _ hs => ⟨hs.1, hawaits hs.2⟩
    refine hget.bind fun value => return_conducts fun s hs => ?_
    refine ⟨fun h => authorization_unconditional h _, hawaits hs.1, fun id' hid' => ?_⟩
    rw [hbudget] at hid'
    cases hid'
    exact ⟨value, rfl, Dict.get?_set_self .., hs.2⟩

omit [PyText] in
theorem retryDiscovery_installation (h : call.retryDiscovery = true) : call.budgetInstallation.isSome = true := by
  simp only [ApiCall.retryDiscovery, Bool.and_eq_true, Bool.not_eq_true'] at h
  obtain ⟨⟨⟨⟨-, hid⟩, happ⟩, hpublic⟩, -⟩ := h
  simp [ApiCall.budgetInstallation, happ, hpublic, hid]

theorem retry_conducts {K : Session → Prop} (hK : ∀ s, K s → s.permit = false ∧ s.lock = none) {α : Type}
    {prog : Requesting α} {Q : α → Session → Prop} (hprog : Conducts client K prog Q (Failing (Ended call lock B M)))
    (hended : ∀ s, K s → Ended call lock B M s) (stoppable : Bool) : Conducts client K
      (ask .wait >>= fun _ => raiseIfStopped stoppable >>= fun _ => prog) Q (Failing (Ended call lock B M)) := by
  refine Triple.bind ((quiet_conducts (e := .wait) rfl hK).leaving hended) fun _ => ?_
  exact Triple.bind ((raiseIfStopped_conducts stoppable).leaving hended) fun _ => hprog

/-- Whatever the attempts before, the last one ends the loop. -/
theorem attemptFrom_conducts [LawfulPyText] (hmode : call.oneMode = true)
    (hlock : call.budgetInstallation.isSome = true → lock = none) (htoken : GetsToken client call token) :
    ∀ remaining attempt refreshed_token retried_transient sends,
      Spent call refreshed_token retried_transient sends → attempt = sends.length →
      attempt + remaining = call.attempts → Conducts client (Between call lock B M sends)
        (attemptFrom client token call attempt refreshed_token retried_transient remaining)
        (Concluded call lock B M) (Failing (Ended call lock B M))
  | 0, attempt, refreshed_token, retried_transient, sends, hspent, hattempt, hleft => by
    have hlt := hspent.lt
    omega
  | remaining + 1, attempt, refreshed_token, retried_transient, sends, hspent, hattempt, hleft => by
    have hended : ∀ s, Between call lock B M sends s → Ended call lock B M s := fun s hs => hs.ended hspent
    refine Triple.bind ((raiseIfStopped_conducts call.stoppable).leaving hended) fun _ => ?_
    refine Triple.bind ((authenticate_conducts hmode hlock htoken _).leaving hended) fun signed => ?_
    obtain ⟨headers, used⟩ := signed
    refine Triple.bind ((raiseIfStopped_conducts call.stoppable).leaving fun s hs => hended s hs.2.1) fun _ => ?_
    intro s hI hs
    obtain ⟨hunconditional, hs⟩ := hs
    have hheaders : sends ≠ [] → headers.Unconditional := by
      intro hne
      refine hunconditional ?_
      rw [if_neg (by rw [hattempt]; exact fun h => hne (List.length_eq_zero_iff.mp h))]
      exact unconditional_unconditional call.headers
    refine Triple.bind (slot_exchange_conducts hspent hheaders) (fun response => ?_) s hI hs
    refine Triple.bind ((raiseIfStopped_conducts call.stoppable).leaving fun s hs =>
      hs.1.ended hspent hheaders) fun _ => ?_
    -- the requests that a repetition starts from
    intro s hI hs
    obtain ⟨hs, hused⟩ := hs
    obtain ⟨receipt, hposted⟩ := hs.posted
    obtain ⟨x, hasks, hx, hanswer, hawaits⟩ := hposted.awaits hs.permit
    have hunx : sends ≠ [] → x.request.headers.Unconditional := fun hne => hx ▸ hheaders hne
    have hrepeats := hspent.sent hasks hunx
    have hlast : ∀ s, Between call lock B M (x :: sends) s → Ended call lock B M s := fun s hs => ⟨_, hrepeats, hs⟩
    have hretry : call.retryDiscovery = true → retried_transient = false → x.transient = true →
        Conducts client (Between call lock B M (x :: sends))
          (ask .wait >>= fun _ => raiseIfStopped call.stoppable >>= fun _ =>
            attemptFrom client token call (attempt + 1) refreshed_token true remaining)
          (Concluded call lock B M) (Failing (Ended call lock B M)) := by
      intro hdiscovery hfirst htransient
      subst hfirst
      have hfree : lock = none := hlock (retryDiscovery_installation hdiscovery)
      refine retry_conducts (fun s hs => ⟨hs.permit, hs.lock.trans hfree⟩) ?_ hlast call.stoppable
      exact attemptFrom_conducts hmode hlock htoken remaining (attempt + 1) refreshed_token true (x :: sends)
        (hspent.retry hasks hunx htransient hdiscovery) (by rw [hattempt]; rfl) (by omega)
    cases response with
    | none =>
      obtain ⟨hdiscovery, hfirst, -⟩ := hs.unanswered rfl
      have htransient : x.transient = true := by rw [Sending.transient, hanswer]; rfl
      exact hretry hdiscovery hfirst htransient s hI hawaits
    | some response =>
      have hresponse : x.answer = .ok response := hanswer
      refine Triple.ite (K := Between call lock B M (x :: sends)) (fun hc => ?_) (fun _ => ?_) s hI hawaits
      · simp only [Bool.and_eq_true, decide_eq_true_eq, Bool.not_eq_true'] at hc
        obtain ⟨⟨⟨hstatus, happ⟩, hpublic⟩, hfirst⟩ := hc
        subst hfirst
        have hrejected : x.rejected = true := by simp [Sending.rejected, hresponse, hstatus]
        rcases call.oneMode_cases hmode with ⟨-, h | h⟩ | ⟨id, -, hbudget, -, -⟩
        · rw [hpublic] at h
          cases h
        · rw [happ] at h
          cases h
        · obtain ⟨value, rfl⟩ := hused id hbudget
          refine Triple.bind ((quiet_conducts (e := .forgetToken id value) rfl fun _ _ => trivial).leaving hlast)
            fun _ => ?_
          exact attemptFrom_conducts hmode hlock htoken remaining (attempt + 1) true retried_transient (x :: sends)
            (hspent.refresh hasks hunx hrejected ⟨happ, hpublic⟩) (by rw [hattempt]; rfl) (by omega)
      · refine Triple.ite (fun hc => ?_) fun _ => return_conducts fun s hs => ⟨x, sends, hresponse, hrepeats, hs⟩
        simp only [Bool.and_eq_true, decide_eq_true_eq, Bool.not_eq_true'] at hc
        obtain ⟨⟨⟨hdiscovery, hfirst⟩, htransient⟩, -⟩ := hc
        have htransient : x.transient = true := by rw [Sending.transient, hresponse]; exact htransient
        exact hretry hdiscovery hfirst htransient

theorem apiResponseWith_conducts [LawfulPyText] (hmode : call.oneMode = true)
    (hlock : call.budgetInstallation.isSome = true → lock = none) (htoken : GetsToken client call token) :
    Conducts client (Between call lock B M []) (apiResponseWith client token call) (Concluded call lock B M)
      (Failing (Ended call lock B M)) := by
  have hloop := attemptFrom_conducts (B := B) (M := M) hmode hlock htoken call.attempts 0 false false [] Spent.none rfl
    (Nat.zero_add _)
  refine hloop.handle fun x s hI hs => ?_
  exact translateTimeout_conducts call.stoppable hs.1 s hI hs.2

end

/-! ## Tokens -/

theorem apiError_ne (client : GitHubClient) (now : Time) (response : HttpResponse) (method path : Str)
    (app_authenticated : Bool) : apiError client now response method path app_authenticated ≠ .AssertionError := by
  simp only [apiError]
  split
  · simp
  · simp

theorem objectOf_conducts {K : Session → Prop} (allow_not_found : Bool) (response : HttpResponse) :
    Conducts client K (objectOf client call allow_not_found response) (fun fields s => (fields = [] ∨
      response.isSuccess = true ∧ response.json = some (.object fields)) ∧ K s) (Failing K) := by
  unfold objectOf
  refine Triple.ite (fun _ => return_conducts fun s hs => ⟨Or.inl rfl, hs⟩) fun _ => ?_
  refine Triple.ite (fun hsuccess => ?_) fun _ => ?_
  · refine Triple.ite (fun _ => return_conducts fun s hs => ⟨Or.inl rfl, hs⟩) fun _ => ?_
    split
    · rename_i fields hjson
      exact return_conducts fun s hs => ⟨Or.inr ⟨hsuccess, hjson⟩, hs⟩
    · exact raise_conducts (by simp)
    · exact raise_conducts (by simp)
  · refine quiet_then (e := .utcnow) rfl (fun _ _ => trivial) fun (now : Time) => ?_
    exact raise_conducts (apiError_ne client now response call.method call.path call.app_authenticated)

def Session.Locked (s : Session) (id : Nat) (own : List Sending) : Prop :=
  s.permit = false ∧ s.lock = some id ∧ s.admission = none ∧ s.own true = own

omit [PyText] in
theorem Between.locked {id : Nat} {stoppable recovery : Bool} {own : List Sending} {s : Session}
    (h : Between (tokenCall id stoppable recovery) (some id) own M sends s) : s.Locked id own :=
  ⟨h.permit, h.lock, h.admission, h.frame rfl⟩

omit [PyText] in
theorem Session.Locked.awaits {id : Nat} {own : List Sending} {s : Session} (h : s.Locked id own)
    (stoppable recovery : Bool) : Between (tokenCall id stoppable recovery) (some id) own (s.own false) [] s :=
  ⟨⟨h.2.1, fun _ => h.2.2.2, rfl⟩, h.1, h.2.2.1⟩

theorem Concluded.issues {id : Nat} {stoppable recovery : Bool} {own : List Sending} {response : HttpResponse}
    {fields : JsonObject} {value : Str} {s : Session}
    (h : Concluded (tokenCall id stoppable recovery) (some id) own M response s) (hsuccess : response.isSuccess = true)
    (hjson : response.json = some (.object fields)) (hvalue : Json.get fields "token" = .string value) :
    s.Knows (tokenPath id) value := by
  obtain ⟨x, sends, hanswer, hrepeats, hawaits⟩ := h
  obtain ⟨hid, hrequest⟩ := hrepeats.asks x List.mem_cons_self
  have hmem : x ∈ s.own false := by
    have hown : s.own false = x :: sends ++ M := hawaits.own
    rw [hown]
    exact List.mem_cons_self
  refine Or.inr ⟨x, List.mem_of_mem_filter hmem, hid, ?_, ?_, response, fields, hanswer, hsuccess, hjson, hvalue⟩
  · rw [hrequest]
    rfl
  · rw [hrequest]
    rfl

theorem requestToken_conducts [LawfulPyText] (recovery : Bool) (id : Nat) (stoppable : Bool) (own : List Sending) :
    Conducts client (fun s => s.Locked id own) (requestToken client recovery id stoppable)
      (fun value s => s.Locked id own ∧ s.Knows (tokenPath id) value) (Failing fun s => s.Locked id own) := by
  have hno : GetsToken client (tokenCall id stoppable recovery) noToken := fun id hid => by cases hid
  intro s hI hs
  have hended : ∀ s', Ended (tokenCall id stoppable recovery) (some id) own (s.own false) s' → s'.Locked id own := by
    intro s' hs
    obtain ⟨sends, -, hawaits⟩ := hs
    exact hawaits.locked
  have hresponse : Conducts client (Between (tokenCall id stoppable recovery) (some id) own (s.own false) [])
      (apiResponseWith client noToken (tokenCall id stoppable recovery))
      (Concluded (tokenCall id stoppable recovery) (some id) own (s.own false)) (Failing fun s => s.Locked id own) :=
    (apiResponseWith_conducts rfl (fun h => by cases h) hno).leaving hended
  have hanswered : ∀ response s', Concluded (tokenCall id stoppable recovery) (some id) own (s.own false) response s' →
      s'.Locked id own := by
    intro response s' hs
    obtain ⟨x, sends, -, -, hawaits⟩ := hs
    exact hawaits.locked
  refine Triple.bind hresponse (fun response => ?_) s hI (hs.awaits stoppable recovery)
  refine Triple.bind ((objectOf_conducts false response).leaving (hanswered response)) fun fields => ?_
  refine Triple.bind ((raiseIfStopped_conducts stoppable).leaving fun s' hs => hanswered response s' hs.2) fun _ => ?_
  have hraise : ∀ x, x ≠ .AssertionError → Conducts client
      (fun s' => (fields = [] ∨ response.isSuccess = true ∧ response.json = some (.object fields)) ∧
        Concluded (tokenCall id stoppable recovery) (some id) own (s.own false) response s')
      (Prog.throw x : Requesting Str) (fun value s => s.Locked id own ∧ s.Knows (tokenPath id) value)
      (Failing fun s => s.Locked id own) :=
    fun x hx => (raise_conducts hx).leaving fun s' hs => hanswered response s' hs.2
  split
  · rename_i value expires_at hvalue hexpires
    cases client.fromisoformat (replaceZ expires_at) with
    | none => exact hraise _ (by simp)
    | some expires =>
      have hknows : ∀ s', ((fields = [] ∨ response.isSuccess = true ∧ response.json = some (.object fields)) ∧
          Concluded (tokenCall id stoppable recovery) (some id) own (s.own false) response s') →
          s'.Locked id own ∧ s'.Knows (tokenPath id) value := by
        intro s' hs
        refine ⟨hanswered response s' hs.2, ?_⟩
        rcases hs.1 with hempty | ⟨hsuccess, hjson⟩
        · rw [hempty] at hvalue
          cases hvalue
        · exact hs.2.issues hsuccess hjson hvalue
      refine Triple.bind ((quiet_conducts (e := .keepToken id ⟨value, expires⟩) rfl
        fun s' hs => (hknows s' hs).2).leaving fun s' hs => (hknows s' hs).1) fun _ => ?_
      exact return_conducts fun s' hs => hknows s' hs
  · exact hraise _ (by simp [OMITTED_TOKEN])

omit [PyText] in
theorem cachedToken_conducts {K : Session → Prop} (hK : ∀ s cached, K s → K { s with cached := cached }) (id : Nat) :
    Conducts client K (ask (.cachedToken id)) (fun (cached : Option InstallationToken) s =>
      (∀ token, cached = some token → s.Knows (tokenPath id) token.value) ∧ K s) (Failing K) := by
  refine ask_conducts (fun _ _ => trivial) (fun s cached n hs => ?_) fun s x n hs hx => ⟨RequestExn.isRaised_ne hx, hs⟩
  cases cached with
  | none => exact ⟨fun token h => (by cases h), hs⟩
  | some token =>
    refine ⟨fun token' h => ?_, hK s _ hs⟩
    cases h
    exact Or.inl List.mem_cons_self

/-- A token is the installation's own, from the cache or from GitHub. -/
theorem installationToken_conducts [LawfulPyText] (recovery : Bool) (call : ApiCall) :
    GetsToken client call (installationToken client recovery) := by
  intro id _ own
  have hcalm : ∀ (s : Session) (cached : List (Str × Str)), s.Calm ∧ s.own true = own →
      Session.Calm { s with cached := cached } ∧ Session.own true { s with cached := cached } = own :=
    fun _ _ hs => hs
  refine Triple.bind (raiseIfStopped_conducts call.stoppable) fun _ => ?_
  refine Triple.bind (cachedToken_conducts hcalm id) fun (cached : Option InstallationToken) => ?_
  refine Triple.bind ((quiet_conducts (e := .utcnow) rfl fun _ _ => trivial).leaving fun s hs => hs.2)
    fun (now : Time) => ?_
  cases hfresh : cached.filter (·.isFresh now) with
  | some token =>
    refine return_conducts fun s hs => ⟨hs.2, hs.1 token ?_⟩
    exact (Option.filter_eq_some_iff.mp hfresh).1
  | none =>
    refine Triple.conseq (K := fun s => s.Calm ∧ s.own true = own) ?_ (fun s _ hs => hs.2) (fun _ _ _ hs => hs)
      fun _ _ _ hs => hs
    refine underTokenLock_conducts id (fun s hs => ⟨hs.1.1, hs.1.2.1, hs⟩) (fun _ s hs => hs.1) ?_
    have hlocked : ∀ (s : Session) (cached : List (Str × Str)), s.Locked id own →
        Session.Locked { s with cached := cached } id own := fun _ _ hs => hs
    refine Triple.conseq (K := fun s => s.Locked id own)
      (Q := fun value s => s.Locked id own ∧ s.Knows (tokenPath id) value) (F := Failing fun s => s.Locked id own) ?_ (fun s _ hs => ?_) (fun value s _ hs => ?_) fun x s _ hs => ⟨hs.1, ?_⟩
    · refine Triple.bind (raiseIfStopped_conducts call.stoppable) fun _ => ?_
      refine Triple.bind (cachedToken_conducts hlocked id) fun (cached : Option InstallationToken) => ?_
      cases hagain : cached.filter (·.isFresh now) with
      | some token =>
        refine return_conducts fun s hs => ⟨hs.2, hs.1 token ?_⟩
        exact (Option.filter_eq_some_iff.mp hagain).1
      | none =>
        exact (requestToken_conducts recovery id call.stoppable own).conseq (fun s _ hs => hs.2) (fun _ _ _ hs => hs)
          fun _ _ _ hs => hs
    · exact ⟨hs.1.1.1, hs.2, hs.1.1.2.2, hs.1.2⟩
    · exact ⟨hs.1.2.1, ⟨⟨hs.1.1, rfl, hs.1.2.2.1⟩, hs.1.2.2.2⟩, hs.2⟩
    · exact ⟨hs.2.2.1, ⟨hs.2.1, rfl, hs.2.2.2.1⟩, hs.2.2.2.2⟩

/-! ## Calls -/

omit [PyText] in
theorem Between.calm {s : Session} (h : Between call none B M sends s) : s.Calm := ⟨h.permit, h.lock, h.admission⟩

theorem apiResponse_conducts [LawfulPyText] (hmode : call.oneMode = true) :
    Conducts client (fun s => s.Calm ∧ s.own call.budgetInstallation.isSome = M ∧ s.own true = B)
      (apiResponse client call) (Concluded call none B M) (Failing (Ended call none B M)) := by
  refine (apiResponseWith_conducts hmode (fun _ => rfl) (installationToken_conducts call.recovery call)).conseq
    (fun s _ hs => ?_) (fun _ _ _ hs => hs) fun _ _ _ hs => hs
  obtain ⟨⟨hpermit, hl, hadmission⟩, hown, hframe⟩ := hs
  exact ⟨⟨hl, fun _ => hframe, hown⟩, hpermit, hadmission⟩

theorem Ended.calm {s : Session} (h : Ended call none B M s) : s.Calm := by
  obtain ⟨sends, -, hbetween⟩ := h
  exact hbetween.calm

theorem Concluded.calm {response : HttpResponse} {s : Session} (h : Concluded call none B M response s) : s.Calm := by
  obtain ⟨x, sends, -, -, hbetween⟩ := h
  exact hbetween.calm

theorem apiRequest_conducts [LawfulPyText] (allow_not_found : Bool) : Conducts client Session.Calm
    (apiRequest client call allow_not_found) (fun _ => Session.Calm) (Failing Session.Calm) := by
  refine Triple.ite (fun hmode => ?_) fun _ => raise_conducts (by simp)
  intro s hI hs
  have hresponse : Conducts client (fun s' => s'.Calm ∧ s'.own call.budgetInstallation.isSome =
      s.own call.budgetInstallation.isSome ∧ s'.own true = s.own true) (apiResponse client call) (fun _ => Session.Calm)
      (Failing Session.Calm) :=
    (apiResponse_conducts hmode).conseq (fun _ _ hs => hs) (fun _ _ _ hs => hs.calm) fun _ _ _ hs => ⟨hs.1, hs.2.calm⟩
  refine Triple.bind hresponse (fun response => ?_) s hI ⟨hs, rfl, rfl⟩
  exact (objectOf_conducts allow_not_found response).conseq (fun _ _ hs => hs) (fun _ _ _ hs => hs.2) fun _ _ _ hs => hs

/-! ## Streams -/

/-- The requests of a stream, the last one first. -/
structure Streams (call : ApiCall) (sends : List Sending) : Prop where
  bounded : sends.length ≤ 2
  asks : ∀ x ∈ sends, call.Asks x
  earlier : ∀ x ∈ sends.tail, x.rejected = true

def StreamEnded (call : ApiCall) (lock : Option Nat) (B M : List Sending) (s : Session) : Prop :=
  ∃ sends, Streams call sends ∧ Between call lock B M sends s

omit [PyText] in
theorem StreamEnded.calm {s : Session} (h : StreamEnded call none B M s) : s.Calm := by
  obtain ⟨sends, -, hbetween⟩ := h
  exact hbetween.calm

section
variable {attempt : Nat}

omit [PyText] in
theorem streamed_conducts (hattempt : sends.length < 2) (hasks : ∀ x ∈ sends, call.Asks x)
    (hrejected : ∀ x ∈ sends, x.rejected = true) {used : Nat × Str} : Conducts client
    (fun s => (Between call lock B M sends s.released ∧ Signed call headers (some used) s.released) ∧ s.permit = true)
    (streamed client call headers used attempt)
    (fun accepted s => ∃ x, call.Asks x ∧ (accepted = false → x.rejected = true ∧ attempt = 0) ∧
      Between call lock B M (x :: sends) s.released)
    (Failing fun s => StreamEnded call lock B M s.released) := by
  have hbefore : ∀ s, Between call lock B M sends s → StreamEnded call lock B M s :=
    fun s hs => ⟨sends, ⟨hattempt.le, hasks, fun x hx => hrejected x (List.mem_of_mem_tail hx)⟩, hs⟩
  have hafter : ∀ {x s}, call.Asks x → Between call lock B M (x :: sends) s → StreamEnded call lock B M s :=
    fun {x} {_} hx hs => ⟨x :: sends, ⟨hattempt, List.forall_mem_cons.mpr ⟨hx, hasks⟩, hrejected⟩, hs⟩
  have hposted : ∀ {receipt answer} {s : Session}, Posted call lock B M sends headers receipt answer s →
      ∃ x, call.Asks x ∧ x.answer = answer ∧ Between call lock B M (x :: sends) s.released := by
    intro receipt answer s hs
    obtain ⟨x, hx, -, hanswer, hawaits⟩ :=
      Posted.awaits (s := s.released) ⟨hs.lock, hs.frame, hs.admission, hs.last⟩ rfl
    exact ⟨x, hx, hanswer, hawaits⟩
  have hended : ∀ {receipt answer} {s : Session}, Posted call lock B M sends headers receipt answer s →
      StreamEnded call lock B M s.released := by
    intro receipt answer s hs
    obtain ⟨x, hx, -, hawaits⟩ := hposted hs
    exact hafter hx hawaits
  refine Triple.bind (admitRequest_conducts.leaving fun s hs => hbefore _ hs) fun receipt => ?_
  refine Triple.bind (post_conducts.conseq (fun _ _ hs => hs) (fun _ _ _ hs => hs) fun x s _ hs =>
    ⟨RequestExn.isRaised_ne hs.1, hended hs.2⟩) fun (response : HttpResponse) => ?_
  refine Triple.bind ((observeQuota_conducts fun s id r _ _ hr => (by cases hr)).leaving fun s hs => hended hs)
    fun _ => ?_
  refine Triple.ite (fun hc => ?_) fun _ => ?_
  · simp only [Bool.and_eq_true, decide_eq_true_eq] at hc
    refine Triple.bind ((quiet_conducts (e := .forgetToken used.1 used.2) rfl fun _ _ => trivial).leaving
      fun s hs => hended hs) fun _ => return_conducts fun s hs => ?_
    obtain ⟨x, hx, hanswer, hawaits⟩ := hposted hs
    exact ⟨x, hx, fun _ => ⟨by simp [Sending.rejected, hanswer, hc.1], hc.2⟩, hawaits⟩
  · refine Triple.bind ((quiet_conducts (e := .readBody) rfl fun _ _ => trivial).leaving fun s hs => hended hs)
      fun _ => return_conducts fun s hs => ?_
    obtain ⟨x, hx, -, hawaits⟩ := hposted hs
    exact ⟨x, hx, fun h => (by cases h), hawaits⟩

theorem streamFrom_conducts [LawfulPyText] {id : Nat} (hid : call.budgetInstallation = some id)
    (hstop : call.stoppable = false) : ∀ remaining attempt sends, attempt = sends.length → attempt + remaining = 2 →
      attempt < 2 → (∀ x ∈ sends, call.Asks x) → (∀ x ∈ sends, x.rejected = true) →
      Conducts client (Between call none B M sends) (streamFrom client call id attempt remaining)
        (fun _ => StreamEnded call none B M) (Failing (StreamEnded call none B M))
  | 0, _, _, _, hleft, hlt, _, _ => absurd hleft hlt.ne
  | remaining + 1, attempt, sends, hattempt, hleft, hfirst, hasks, hrejected => by
    have hlt : sends.length < 2 := hattempt ▸ hfirst
    have hbefore : ∀ s, Between call none B M sends s → StreamEnded call none B M s :=
      fun s hs => ⟨sends, ⟨hlt.le, hasks, fun x hx => hrejected x (List.mem_of_mem_tail hx)⟩, hs⟩
    have hsome : call.budgetInstallation.isSome = true := by rw [hid]; rfl
    have htoken : GetsToken client call (installationToken client call.recovery) :=
      installationToken_conducts call.recovery call
    have htoken := htoken id hid (sends ++ M)
    rw [hstop] at htoken
    have hawaits : ∀ {s : Session}, s.Calm ∧ s.own true = sends ++ M → Between call none B M sends s := by
      intro s hs
      obtain ⟨⟨hpermit, hl, hadmission⟩, hown⟩ := hs
      refine ⟨⟨hl, fun hb => ?_, by rw [hsome]; exact hown⟩, hpermit, hadmission⟩
      rw [hsome] at hb
      cases hb
    have hget : Conducts client (Between call none B M sends) (installationToken client call.recovery id false)
        (fun value s => (s.Calm ∧ s.own true = sends ++ M) ∧ s.Knows (tokenPath id) value)
        (Failing (StreamEnded call none B M)) := by
      refine htoken.conseq (fun s _ hs => ?_) (fun _ _ _ hs => hs) fun x s _ hs => ⟨hs.1, hbefore s (hawaits hs.2)⟩
      exact ⟨⟨hs.permit, hs.lock, hs.admission⟩, hsome ▸ hs.own⟩
    refine hget.bind fun value => ?_
    have hauth : ∀ s : Session, s.Knows (tokenPath id) value →
        Signed call (call.headers.set AUTHORIZATION (bearer value)) (some (id, value)) s := by
      intro s hknows id' hid'
      rw [hid] at hid'
      cases hid'
      exact ⟨value, rfl, Dict.get?_set_self .., hknows⟩
    have hslot : Conducts client (fun s => (s.Calm ∧ s.own true = sends ++ M) ∧ s.Knows (tokenPath id) value)
        (slot (streamed client call (call.headers.set AUTHORIZATION (bearer value)) (id, value) attempt))
        (fun accepted s => ∃ x, call.Asks x ∧ (accepted = false → x.rejected = true ∧ attempt = 0) ∧
          Between call none B M (x :: sends) s) (Failing (StreamEnded call none B M)) := by
      refine slot_conducts (fun s hs => ⟨hs.1.1.1, hbefore s (hawaits hs.1)⟩) (fun accepted s hs => ?_) ?_
      · obtain ⟨x, hx, -, hawaits⟩ := hs
        exact ⟨x :: sends, ⟨hlt, List.forall_mem_cons.mpr ⟨hx, hasks⟩, hrejected⟩, hawaits⟩
      · exact (streamed_conducts hlt hasks hrejected).conseq
          (fun s _ hs => ⟨⟨hawaits hs.1.1, hauth _ hs.1.2⟩, hs.2⟩) (fun _ _ _ hs => hs) fun _ _ _ hs => hs
    refine hslot.bind fun accepted => ?_
    intro s hI hs
    obtain ⟨x, hx, hrejects, hx'⟩ := hs
    have hstreams : Streams call (x :: sends) := ⟨hlt, List.forall_mem_cons.mpr ⟨hx, hasks⟩, hrejected⟩
    refine Triple.ite (K := Between call none B M (x :: sends)) (fun _ => return_conducts fun s hs => ⟨_, hstreams, hs⟩)
      (fun hc => ?_) s hI hx'
    obtain ⟨hxr, hzero⟩ := hrejects (by simpa using hc)
    exact streamFrom_conducts hid hstop remaining (attempt + 1) (x :: sends) (by rw [hattempt]; rfl) (by omega)
      (by omega) (List.forall_mem_cons.mpr ⟨hx, hasks⟩) (List.forall_mem_cons.mpr ⟨hxr, hrejected⟩)

end

theorem streamingResponse_conducts [LawfulPyText] (method path : Str) (id : Nat) (params json : Option Json)
    (recovery : Bool) : Conducts client (fun s => s.Calm ∧ s.own true = M)
      (streamingResponse client method path id params json headers recovery)
      (fun _ => StreamEnded (streamCall method path id params json headers recovery) none B M)
      (Failing (StreamEnded (streamCall method path id params json headers recovery) none B M)) := by
  have hfrom : Conducts client (Between (streamCall method path id params json headers recovery) none B M [])
      (streamFrom client (streamCall method path id params json headers recovery) id 0 2)
      (fun _ => StreamEnded (streamCall method path id params json headers recovery) none B M)
      (Failing (StreamEnded (streamCall method path id params json headers recovery) none B M)) :=
    streamFrom_conducts rfl rfl 2 0 [] rfl rfl (by decide) (by simp) (by simp)
  have hstart : ∀ s : Session, s.Calm ∧ s.own true = M →
      Between (streamCall method path id params json headers recovery) none B M [] s := by
    intro s hs
    exact ⟨⟨hs.1.2.1, fun h => (by cases h), hs.2⟩, hs.1.1, hs.1.2.2⟩
  refine Triple.handle (hfrom.conseq (fun s _ hs => hstart s hs) (fun _ _ _ hs => hs) fun _ _ _ hs => hs)
    fun x s hI hs => ?_
  exact translateTimeout_conducts false hs.1 s hI hs.2

end

end

/-! ## Safe repetitions -/

section
variable [PyText] [LawfulPyText] {client : GitHubClient}

/-- Whatever an effect answers, and wherever the call fails: it repeats itself
only where that is safe, an attempt is left for each repetition, and it gives
back what it holds. -/
theorem repetitions_are_safe {call : ApiCall} (hmode : call.oneMode = true) {s s' : Session} (hs : s.Calm)
    {r : Except RequestExn HttpResponse} (h : (apiResponse client call).Eval undergoes s r s') :
    r ≠ .error .AssertionError ∧ s'.Calm ∧ ∃ sends, Repeats call sends ∧
      s'.own call.budgetInstallation.isSome = sends ++ s.own call.budgetInstallation.isSome ∧
      ∀ response, r = .ok response → ∃ x, sends.head? = some x ∧ x.answer = .ok response := by
  have hconduct : Conducts client (fun s' => s'.Calm ∧ s'.own call.budgetInstallation.isSome =
      s.own call.budgetInstallation.isSome ∧ s'.own true = s.own true) (apiResponse client call) _ _ :=
    apiResponse_conducts hmode
  obtain ⟨-, hend⟩ := eval_sound (fun _ _ _ _ _ _ _ => trivial) h trivial (hconduct s trivial ⟨hs, rfl, rfl⟩)
  cases r with
  | ok response =>
    obtain ⟨x, sends, hanswer, hrepeats, hbetween⟩ := hend
    refine ⟨by simp, hbetween.calm, x :: sends, hrepeats, hbetween.own, ?_⟩
    intro response' hr
    cases hr
    exact ⟨x, rfl, hanswer⟩
  | error x =>
    obtain ⟨hx, sends, hrepeats, hbetween⟩ := hend
    refine ⟨fun hr => hx (by cases hr; rfl), hbetween.calm, sends, hrepeats, hbetween.own, fun response hr => ?_⟩
    cases hr

/-- A stream is asked for again once, and only when its token was rejected. -/
theorem streams_are_safe {method path : Str} {id : Nat} {params json : Option Json} {headers : Headers}
    {recovery : Bool} {s s' : Session} (hs : s.Calm) {r : Except RequestExn PUnit}
    (h : (streamingResponse client method path id params json headers recovery).Eval undergoes s r s') :
    r ≠ .error .AssertionError ∧ s'.Calm ∧
      ∃ sends, Streams (streamCall method path id params json headers recovery) sends ∧
        s'.own true = sends ++ s.own true := by
  have hconduct : Conducts client (fun s' => s'.Calm ∧ s'.own true = s.own true)
      (streamingResponse client method path id params json headers recovery) _ _ :=
    streamingResponse_conducts (B := []) method path id params json recovery
  obtain ⟨-, hend⟩ := eval_sound (fun _ _ _ _ _ _ _ => trivial) h trivial (hconduct s trivial ⟨hs, rfl⟩)
  have hended : ∀ {s' : Session}, StreamEnded (streamCall method path id params json headers recovery) none []
      (s.own true) s' → s'.Calm ∧ ∃ sends, Streams (streamCall method path id params json headers recovery) sends ∧
        s'.own true = sends ++ s.own true := by
    intro s' hended
    obtain ⟨sends, hstreams, hbetween⟩ := hended
    exact ⟨hbetween.calm, sends, hstreams, hbetween.own⟩
  cases r with
  | ok => exact ⟨by simp, hended hend⟩
  | error x =>
    refine ⟨fun hr => hend.1 ?_, hended hend.2⟩
    cases hr
    rfl

end

/-! ## A call that is repeated twice -/

def sampleClient : GitHubClient where
  recovery_budget := some ⟨25, by decide⟩
  max_in_flight_requests := 1
  valid := by decide
  appJwt _ := "j"
  fromisoformat text := if text = ("1970-01-01T01:00:00+00:00" : Str) then some (seconds 3600) else none
  retryDelaySeconds _ _ _ := none

def sampleLookup : ApiCall where
  method := "GET"
  path := "/repos/o/r"
  installation_id := some 1
  app_authenticated := false
  unauthenticated := false
  params := none
  json := none
  headers := Dict.set IF_NONE_MATCH "e" ∅
  stoppable := true
  conditional_discovery := true
  discovery_lookup := true
  recovery := true

/-- The token is rejected, then the connection is lost. -/
def sampleTransport (s : Session) : (e : RequestEffect) → Except RequestExn e.Answer
  | .utcnow => .ok (0 : Nat)
  | .stopped => .ok false
  | .cachedToken _ => .ok (some ⟨"t", seconds 3600⟩)
  | .admitCall .. => .ok none
  | .send .. =>
    if s.sends.length = 0 then .ok ⟨401, ∅, [], [], none⟩
    else if s.sends.length = 1 then .error .RemoteProtocolError
    else .ok ⟨200, ∅, [], [], none⟩
  | .keepToken .. | .forgetToken .. | .acquireTokenLock _ | .releaseTokenLock _ | .acquirePermit | .releasePermit
  | .observe .. | .wait | .readBody => .ok ()

theorem sampleTransport_undergoes (s : Session) (e : RequestEffect) :
    undergoes s e (sampleTransport s e) (s.next 0 e (sampleTransport s e)) := by
  refine ⟨fun x hx => ?_, 0, rfl⟩
  cases e with
  | send id request =>
    rw [sampleTransport] at hx
    split at hx
    · cases hx
    · split at hx
      · cases hx
        rfl
      · cases hx
  | _ => cases hx

theorem sampleTransport_acts (s : Session) (e : RequestEffect) (a : Except RequestExn e.Answer) (s' : Session)
    (h : some (sampleTransport s e, s.next 0 e (sampleTransport s e)) = some (a, s')) : undergoes s e a s' := by
  cases h
  exact sampleTransport_undergoes s e

def sampleRepeated : Option (Except RequestExn HttpResponse × Session) :=
  (@apiResponse asciiText sampleClient sampleLookup).exec
    (fun s e => some (sampleTransport s e, s.next 0 e (sampleTransport s e))) .start

theorem sampleRepeated_ends : ∃ r s', sampleRepeated = some (r, s') ∧ s'.sends.length = 3 := ⟨_, _, rfl, rfl⟩

theorem repetitions_are_safe_sample : ∃ r s', sampleRepeated = some (r, s') ∧ s'.sends.length = 3 ∧
    r ≠ .error .AssertionError ∧ s'.Calm ∧ ∃ sends, @Repeats asciiText sampleLookup sends ∧
      s'.own true = sends ++ [] ∧
        ∀ response, r = .ok response → ∃ x, sends.head? = some x ∧ x.answer = .ok response := by
  obtain ⟨r, s', hexec, hlength⟩ := sampleRepeated_ends
  exact ⟨r, s', hexec, hlength, @repetitions_are_safe asciiText asciiText_lawful sampleClient sampleLookup rfl .start s'
    ⟨rfl, rfl, rfl⟩ r (Prog.exec_eval sampleTransport_acts hexec)⟩

def sampleStreamed : Option (Except RequestExn PUnit × Session) :=
  (@streamingResponse asciiText sampleClient "GET" "/repos/o/r/contents/f" 1 none none ∅ false).exec
    (fun s e => some (sampleTransport s e, s.next 0 e (sampleTransport s e))) .start

theorem sampleStreamed_ends : ∃ r s', sampleStreamed = some (r, s') ∧ s'.sends.length = 2 := ⟨_, _, rfl, rfl⟩

theorem streams_are_safe_sample : ∃ r s', sampleStreamed = some (r, s') ∧ s'.sends.length = 2 ∧
    r ≠ .error .AssertionError ∧ s'.Calm ∧
      ∃ sends, Streams (streamCall "GET" "/repos/o/r/contents/f" 1 none none ∅ false) sends ∧
        s'.own true = sends ++ [] := by
  obtain ⟨r, s', hexec, hlength⟩ := sampleStreamed_ends
  exact ⟨r, s', hexec, hlength, @streams_are_safe asciiText asciiText_lawful sampleClient _ _ _ _ _ _ _ .start s'
    ⟨rfl, rfl, rfl⟩ r (Prog.exec_eval sampleTransport_acts hexec)⟩

end ExtraCodeowners
