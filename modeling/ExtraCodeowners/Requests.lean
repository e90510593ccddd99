import ExtraCodeowners.BudgetConservation
import ExtraCodeowners.DiscoveryCache
import ExtraCodeowners.Reviews
import ExtraCodeowners.Lib.Json
import ExtraCodeowners.Lib.Local

/-!
# Requests to GitHub

One request of the client with its bounded retries: its token, its place among
the requests in flight, its charge on the budget of the installation and what
the response says about that budget.
-/

namespace ExtraCodeowners

open System

/-! ## Requests and responses -/

abbrev Headers := Dict Str Str

structure HttpRequest where
  method : Str
  path : Str
  params : Option Json
  json : Option Json
  headers : Headers

/-- Header names are in lower case. `text` and `json` are read from the content. -/
structure HttpResponse where
  status_code : Nat
  headers : Headers
  content : Bytes
  text : Str
  json : Option Json

def HttpResponse.isSuccess (response : HttpResponse) : Bool :=
  200 ≤ response.status_code && response.status_code ≤ 299

structure InstallationToken where
  value : Str
  expires_at : Time

inductive RequestExn where
  | GitHubOperationStoppedError (message : Str)
  | GitHubError (message : Str)
  | GitHubAPIError (status_code : Nat) (method path message : Str)
  | GitHubRateLimitError (status_code : Nat) (method path message : Str) (retry_after_seconds : Nat)
      (global_scope : Bool)
  | RecoveryBudgetDeferredError (retry_after_seconds : Nat)
  | ProviderQuotaExhaustedError (retry_after_seconds : Nat)
  | ValueError (message : Str)
  | RemoteProtocolError
  | TimeoutException
  | HTTPError
  | TimeoutError
  | AssertionError
  | Exception

def BudgetError.exn : BudgetError → RequestExn
  | .ValueError message => .ValueError message
  | .RecoveryBudgetDeferredError seconds => .RecoveryBudgetDeferredError seconds
  | .ProviderQuotaExhaustedError seconds => .ProviderQuotaExhaustedError seconds

def RequestExn.isRaised : RequestExn → Bool
  | .ValueError _ | .RecoveryBudgetDeferredError _ | .ProviderQuotaExhaustedError _ | .RemoteProtocolError
  | .TimeoutException | .HTTPError | .TimeoutError | .Exception => true
  | _ => false

inductive RequestEffect where
  | utcnow
  | stopped
  | cachedToken (installation_id : Nat)
  | keepToken (installation_id : Nat) (token : InstallationToken)
  | forgetToken (installation_id : Nat) (value : Str)
  | acquireTokenLock (installation_id : Nat)
  | releaseTokenLock (installation_id : Nat)
  | acquirePermit
  | releasePermit
  | admitCall (installation_id : Nat) (recovery : Bool)
  | observe (installation_id : Nat) (quota : CoreQuota) (receipt : Option BudgetReceipt)
  | send (installation_id : Option Nat) (request : HttpRequest)
  | wait
  | readBody

def RequestEffect.Answer : RequestEffect → Type
  | .utcnow => Time
  | .stopped => Bool
  | .cachedToken _ => Option InstallationToken
  | .admitCall .. => Option BudgetReceipt
  | .send .. => HttpResponse
  | _ => Unit

abbrev Requesting (α : Type) := Prog RequestEffect RequestEffect.Answer RequestExn α

def ask (e : RequestEffect) : Requesting e.Answer := Prog.perform e

/-- `_recovery_budget` and the bound of `_request_semaphore`. The other fields
stand for the signature of a token, `datetime.fromisoformat`, and the seconds,
rounded up, that a `retry-after` or else a reset time ask to wait. -/
structure GitHubClient where
  recovery_budget : Option RecoveryApiBudget
  max_in_flight_requests : Nat
  valid : 1 ≤ max_in_flight_requests ∧ max_in_flight_requests ≤ 64
  appJwt : Time → Str
  fromisoformat : Str → Option Time
  retryDelaySeconds : Option Str → Option Str → Time → Option Int

/-- The arguments of one request. `stoppable` is a `stop` that is not `None`,
`discovery_lookup` a `discovery_cache_status`, and `recovery` the lane. -/
structure ApiCall where
  method : Str
  path : Str
  installation_id : Option Nat
  app_authenticated : Bool
  unauthenticated : Bool
  params : Option Json
  json : Option Json
  headers : Headers
  stoppable : Bool
  conditional_discovery : Bool
  discovery_lookup : Bool
  recovery : Bool

namespace ApiCall

def retryDiscovery (call : ApiCall) : Bool :=
  call.method = ("GET" : Str) && call.installation_id.isSome && !call.app_authenticated &&
    !call.unauthenticated && call.discovery_lookup

def attempts (call : ApiCall) : Nat :=
  if call.retryDiscovery then 3 else if call.app_authenticated || call.unauthenticated then 1 else 2

def budgetInstallation (call : ApiCall) : Option Nat :=
  if call.unauthenticated || call.app_authenticated then none else call.installation_id

/-- `int(app_authenticated) + int(installation_id is not None) + int(unauthenticated) == 1` -/
def oneMode (call : ApiCall) : Bool :=
  call.app_authenticated.toNat + call.installation_id.isSome.toNat + call.unauthenticated.toNat = 1

end ApiCall

/-! ## Errors of a response -/

section
variable [PyText]

def responseMessage (response : HttpResponse) : Str :=
  match response.json with
  | some (.object fields) =>
    match Json.get fields "message" with
    | .string message => message.take 1000
    | _ => response.text.take 1000
  | _ => response.text.take 1000

def occursIn (needle text : Str) : Bool := text.tails.any fun rest => needle.isPrefixOf rest

def boundedRetryDelay (client : GitHubClient) (now : Time) (retry_after rate_limit_reset : Option Str) : Nat :=
  (max 1 (min ((client.retryDelaySeconds retry_after rate_limit_reset now).getD 60) 86400)).toNat

def isLimited (response : HttpResponse) (message : Str) : Bool :=
  response.status_code = 429 ||
    response.status_code = 403 && ((response.headers.get? ("retry-after" : Str)).isSome ||
      response.headers.get? ("x-ratelimit-remaining" : Str) = some ("0" : Str) ||
      occursIn "rate limit" (PyText.lower message))

def retryDelay (client : GitHubClient) (now : Time) (response : HttpResponse) (message : Str) : Option Nat :=
  if isLimited response message then
    some (boundedRetryDelay client now (response.headers.get? ("retry-after" : Str))
      (response.headers.get? ("x-ratelimit-reset" : Str)))
  else none

def apiError (client : GitHubClient) (now : Time) (response : HttpResponse) (method path : Str)
    (app_authenticated : Bool) : RequestExn :=
  let message := responseMessage response
  match retryDelay client now response message with
  | some retry_after => .GitHubRateLimitError response.status_code method path message retry_after
      (app_authenticated || response.status_code = 429 ||
        (response.headers.get? ("retry-after" : Str)).isSome)
  | none => .GitHubAPIError response.status_code method path message

end

/-! ## One attempt -/

def raiseIfStopped (stoppable : Bool) : Requesting PUnit :=
  if stoppable then do
    let set : Bool ← ask .stopped
    if set then Prog.throw (.GitHubOperationStoppedError "GitHub operation stopped between requests") else return ()
  else return ()

def bearer (token : Str) : Str := ("Bearer " : Str) ++ token

def AUTHORIZATION : Str := "Authorization"

/-- A retry must fetch a fresh representation. -/
def Headers.unconditional [PyText] (headers : Headers) : Headers :=
  headers.deleteWhere fun key _ =>
    PyText.lower key = ("if-none-match" : Str) || PyText.lower key = ("if-modified-since" : Str)

def admitRequest (client : GitHubClient) (call : ApiCall) : Requesting (Option BudgetReceipt) :=
  match call.budgetInstallation, client.recovery_budget with
  | some installation_id, some _ =>
    if call.path = ("/graphql" : Str) then return none
    else
      (ask (.admitCall installation_id call.recovery) : Requesting (Option BudgetReceipt)).handle fun
        | .ProviderQuotaExhaustedError retry_after_seconds => Prog.throw (.GitHubRateLimitError 403 call.method
            call.path "installation REST core quota is exhausted" retry_after_seconds false)
        | x => Prog.throw x
  | _, _ => return none

/-- A rejected token may show the quota of someone else. -/
def observeQuota (client : GitHubClient) (installation_id : Option Nat) (response : HttpResponse)
    (not_modified_receipt : Option BudgetReceipt) : Requesting PUnit :=
  if response.status_code = 401 then return ()
  else do
    let now : Time ← ask .utcnow
    match CoreQuota.fromHeaders response.headers now, installation_id, client.recovery_budget with
    | some quota, some installation_id, some _ =>
      let _ : Unit ← ask (.observe installation_id quota not_modified_receipt)
      return ()
    | _, _, _ => return ()

def holding {α : Type} (acquire release : RequestEffect) (prog : Requesting α) : Requesting α := do
  let _ ← ask acquire
  prog.andFinally do
    let _ ← ask release
    return ()

def slot {α : Type} (prog : Requesting α) : Requesting α := holding .acquirePermit .releasePermit prog

def IF_NONE_MATCH : Str := "If-None-Match"

/-- An unchanged page that was asked for by its name gives its debit back. -/
def refundsReceipt (call : ApiCall) (headers : Headers) (response : HttpResponse) : Requesting Bool :=
  if call.conditional_discovery && call.budgetInstallation.isSome && (call.method = ("GET" : Str) : Bool) &&
      (response.status_code = 304 : Bool) && ((headers.get? IF_NONE_MATCH).any (· ≠ [])) then
    if call.stoppable then do
      let set : Bool ← ask .stopped
      return !set
    else return true
  else return false

def ApiCall.request (call : ApiCall) (headers : Headers) : HttpRequest :=
  ⟨call.method, call.path, call.params, call.json, headers⟩

/-- What happens under the permit. The request may have reached GitHub when
there is no response, and its charge stays. -/
def exchange (client : GitHubClient) (call : ApiCall) (headers : Headers) (attempt : Nat)
    (retried_transient : Bool) : Requesting (Option HttpResponse) := do
  let receipt : Option BudgetReceipt ← admitRequest client call
  let response : Option HttpResponse ←
    ((ask (.send call.budgetInstallation (call.request headers)) : Requesting HttpResponse) >>= fun response =>
      (return some response : Requesting (Option HttpResponse))).handle fun
      | .RemoteProtocolError =>
        if !call.retryDiscovery || retried_transient || call.attempts ≤ attempt + 1 then Prog.throw .RemoteProtocolError
        else return none
      | x => Prog.throw x
  match response with
  | none => return none
  | some response =>
    let refunds ← refundsReceipt call headers response
    observeQuota client call.budgetInstallation response (if refunds then receipt else none)
    return some response

def isTransient (response : HttpResponse) : Bool :=
  [500, 502, 503, 504].contains response.status_code && (response.headers.get? ("retry-after" : Str)).isNone

def authenticate (client : GitHubClient) (token : Nat → Bool → Requesting Str) (call : ApiCall)
    (headers : Headers) : Requesting (Headers × Option (Nat × Str)) :=
  if call.unauthenticated then return (headers, none)
  else if call.app_authenticated then do
    let now : Time ← ask .utcnow
    return (headers.set AUTHORIZATION (bearer (client.appJwt now)), none)
  else
    match call.installation_id with
    | none => Prog.throw .AssertionError
    | some installation_id => do
      let value ← token installation_id call.stoppable
      return (headers.set AUTHORIZATION (bearer value), some (installation_id, value))

section
variable [PyText]

def attemptFrom (client : GitHubClient) (token : Nat → Bool → Requesting Str) (call : ApiCall) (attempt : Nat)
    (refreshed_token retried_transient : Bool) : Nat → Requesting HttpResponse
  | 0 => Prog.throw .AssertionError
  | remaining + 1 => do
    raiseIfStopped call.stoppable
    let given := if attempt = 0 then call.headers else call.headers.unconditional
    let (headers, used) ← authenticate client token call given
    raiseIfStopped call.stoppable
    let response ← slot (exchange client call headers attempt retried_transient)
    raiseIfStopped call.stoppable
    match response with
    | none =>
      let _ : Unit ← ask .wait
      raiseIfStopped call.stoppable
      attemptFrom client token call (attempt + 1) refreshed_token true remaining
    | some response =>
      if (response.status_code = 401 : Bool) && !call.app_authenticated && !call.unauthenticated &&
          !refreshed_token then
        match used with
        | none => Prog.throw .AssertionError
        | some (installation_id, value) =>
          let _ : Unit ← ask (.forgetToken installation_id value)
          attemptFrom client token call (attempt + 1) true retried_transient remaining
      else if call.retryDiscovery && !retried_transient && isTransient response &&
          (attempt + 1 < call.attempts : Bool) then
        let _ : Unit ← ask .wait
        raiseIfStopped call.stoppable
        attemptFrom client token call (attempt + 1) refreshed_token true remaining
      else return response

def STOPPED_DURING : RequestExn := .GitHubOperationStoppedError "GitHub operation stopped during a request"

def translateTimeout {α : Type} (stoppable : Bool) : RequestExn → Requesting α
  | .TimeoutError => do
    if stoppable then
      let set : Bool ← ask .stopped
      if set then Prog.throw STOPPED_DURING
      else Prog.throw (.GitHubError "GitHub API request exceeded its wall-clock deadline")
    else Prog.throw (.GitHubError "GitHub API request exceeded its wall-clock deadline")
  | .TimeoutException => do
    if stoppable then
      let set : Bool ← ask .stopped
      if set then Prog.throw STOPPED_DURING else Prog.throw .TimeoutException
    else Prog.throw .TimeoutException
  | x => Prog.throw x

def apiResponseWith (client : GitHubClient) (token : Nat → Bool → Requesting Str) (call : ApiCall) :
    Requesting HttpResponse :=
  (attemptFrom client token call 0 false false call.attempts).handle (translateTimeout call.stoppable)

/-- `_request` from its response on. -/
def objectOf (client : GitHubClient) (call : ApiCall) (allow_not_found : Bool) (response : HttpResponse) :
    Requesting JsonObject :=
  if allow_not_found && (response.status_code = 404 : Bool) then return []
  else if response.isSuccess then
    if response.status_code = 204 || response.content = [] then return []
    else
      match response.json with
      | some (.object fields) => return fields
      | some _ =>
        Prog.throw (.GitHubError (("expected object response from " : Str) ++ call.method ++ ' ' :: call.path))
      | none => Prog.throw (.ValueError "response is not JSON")
  else do
    let now : Time ← ask .utcnow
    Prog.throw (apiError client now response call.method call.path call.app_authenticated)

/-! ## Tokens -/

def tokenPath (installation_id : Nat) : Str :=
  ("/app/installations/" : Str) ++ decimal installation_id ++ ("/access_tokens" : Str)

def TOKEN_PERMISSIONS : Json := .object [(("permissions" : Str), .object
  [(("checks" : Str), .string "write"), (("contents" : Str), .string "read"), (("members" : Str), .string "read"),
    (("pull_requests" : Str), .string "read")])]

def tokenCall (installation_id : Nat) (stoppable recovery : Bool) : ApiCall where
  method := "POST"
  path := tokenPath installation_id
  installation_id := none
  app_authenticated := true
  unauthenticated := false
  params := none
  json := some TOKEN_PERMISSIONS
  headers := ∅
  stoppable := stoppable
  conditional_discovery := false
  discovery_lookup := false
  recovery := recovery

def noToken (_ : Nat) (_ : Bool) : Requesting Str := Prog.throw .AssertionError

def OMITTED_TOKEN : RequestExn := .GitHubError "installation-token response omitted token or expiry"

def requestToken (client : GitHubClient) (recovery : Bool) (installation_id : Nat) (stoppable : Bool) :
    Requesting Str := do
  let call := tokenCall installation_id stoppable recovery
  let response ← apiResponseWith client noToken call
  let fields ← objectOf client call false response
  raiseIfStopped stoppable
  match Json.get fields "token", Json.get fields "expires_at" with
  | .string token, .string expires_at =>
    match client.fromisoformat (replaceZ expires_at) with
    | none => Prog.throw (.ValueError expires_at)
    | some expires_at =>
      let _ : Unit ← ask (.keepToken installation_id ⟨token, expires_at⟩)
      return token
  | _, _ => Prog.throw OMITTED_TOKEN

def InstallationToken.isFresh (token : InstallationToken) (now : Time) : Bool := now + seconds 300 < token.expires_at

def underTokenLock {α : Type} (installation_id : Nat) (prog : Requesting α) : Requesting α :=
  holding (.acquireTokenLock installation_id) (.releaseTokenLock installation_id) prog

def installationToken (client : GitHubClient) (recovery : Bool) (installation_id : Nat) (stoppable : Bool) :
    Requesting Str := do
  raiseIfStopped stoppable
  let cached : Option InstallationToken ← ask (.cachedToken installation_id)
  let now : Time ← ask .utcnow
  match cached.filter (·.isFresh now) with
  | some token => return token.value
  | none => underTokenLock installation_id do
    raiseIfStopped stoppable
    let cached : Option InstallationToken ← ask (.cachedToken installation_id)
    match cached.filter (·.isFresh now) with
    | some token => return token.value
    | none => requestToken client recovery installation_id stoppable

/-! ## Requests -/

def apiResponse (client : GitHubClient) (call : ApiCall) : Requesting HttpResponse :=
  apiResponseWith client (installationToken client call.recovery) call

/-- `_request` -/
def apiRequest (client : GitHubClient) (call : ApiCall) (allow_not_found : Bool) : Requesting JsonObject :=
  if call.oneMode then do
    let response ← apiResponse client call
    objectOf client call allow_not_found response
  else Prog.throw (.ValueError "request must use exactly one authentication mode")

/-- The permit is held until the caller has read the body. The result tells
whether the token was accepted. -/
def streamed (client : GitHubClient) (call : ApiCall) (headers : Headers) (used : Nat × Str) (attempt : Nat) :
    Requesting Bool := do
  let _ ← admitRequest client call
  let response : HttpResponse ← ask (.send call.budgetInstallation (call.request headers))
  observeQuota client call.budgetInstallation response none
  if (response.status_code = 401 : Bool) && (attempt = 0 : Bool) then
    let _ : Unit ← ask (.forgetToken used.1 used.2)
    return false
  else
    let _ : Unit ← ask .readBody
    return true

def streamFrom (client : GitHubClient) (call : ApiCall) (installation_id attempt : Nat) : Nat → Requesting PUnit
  | 0 => Prog.throw .AssertionError
  | remaining + 1 => do
    let value ← installationToken client call.recovery installation_id false
    let accepted ← slot
      (streamed client call (call.headers.set AUTHORIZATION (bearer value)) (installation_id, value) attempt)
    if accepted then return () else streamFrom client call installation_id (attempt + 1) remaining

def streamCall (method path : Str) (installation_id : Nat) (params json : Option Json) (headers : Headers)
    (recovery : Bool) : ApiCall where
  method := method
  path := path
  installation_id := some installation_id
  app_authenticated := false
  unauthenticated := false
  params := params
  json := json
  headers := headers
  stoppable := false
  conditional_discovery := false
  discovery_lookup := false
  recovery := recovery

def streamingResponse (client : GitHubClient) (method path : Str) (installation_id : Nat) (params json : Option Json)
    (headers : Headers) (recovery : Bool) : Requesting PUnit :=
  (streamFrom client (streamCall method path installation_id params json headers recovery) installation_id 0 2).handle
    (translateTimeout false)

end

end ExtraCodeowners
