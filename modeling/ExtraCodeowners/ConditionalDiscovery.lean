import ExtraCodeowners.CacheRefinement

/-!
# Conditional discovery

A discovery call takes its cached page out, asks the server whether the page
is current, and puts a page back once its caller has checked it. Calls
interleave at their request.
-/

namespace ExtraCodeowners

/-! ## Responses -/

/-- The header fields that discovery reads; `links` are the Link fields. -/
structure DiscoveryResponse where
  status_code : Nat
  body : Bytes
  etag : Option Str
  links : List Str
  cache_control : Option Str
  vary : Option Str

def DiscoveryResponse.isSuccess (response : DiscoveryResponse) : Bool :=
  200 ≤ response.status_code && response.status_code ≤ 299

/-! ## Two caches -/

def literalRe (s : Str) : Regex Char := .seq (s.map fun c => .sat (· == c))

/-- `[^/]+` -/
def segmentRe : Regex Char := .cat (.sat (· ≠ '/')) (.star (.sat (· ≠ '/')))

/-- `/repos/[^/]+/[^/]+/commits/[^/]+/check-runs` -/
def checkListRe : Regex Char :=
  .seq [literalRe ("/repos/" : Str), segmentRe, literalRe ['/'], segmentRe, literalRe ("/commits/" : Str),
    segmentRe, literalRe ("/check-runs" : Str)]

/-- `/repos/[^/]+/[^/]+/git/ref/heads/.+` -/
def repositoryRefRe : Regex Char :=
  .seq [literalRe ("/repos/" : Str), segmentRe, literalRe ['/'], segmentRe,
    literalRe ("/git/ref/heads/" : Str), .sat (· ≠ '\n'), .star (.sat (· ≠ '\n'))]

/-- The operations `check.list` and `repository.ref`; no other operation
matches one of their paths. -/
def isCompactPath (path : Str) : Bool := checkListRe.fullmatch path || repositoryRefRe.fullmatch path

theorem pageBounds_positive : 0 < 24 * 1024 * 1024 ∧ 0 < 1024 * 1024 ∧ 0 < 4096 ∧ (0 : ℚ) < 7200 := by
  decide

theorem compactBounds_positive : 0 < 8 * 1024 * 1024 ∧ 0 < 64 * 1024 ∧ 0 < 8192 ∧ (0 : ℚ) < 7200 := by
  decide

def pagesConfig : CacheConfig := ⟨24 * 1024 * 1024, 1024 * 1024, 4096, 7200, true, pageBounds_positive⟩

def compactConfig : CacheConfig := ⟨8 * 1024 * 1024, 64 * 1024, 8192, 7200, false, compactBounds_positive⟩

structure DiscoveryCaches where
  pages : DiscoveryCache
  compact : DiscoveryCache

def DiscoveryCaches.empty : DiscoveryCaches := ⟨.empty, .empty⟩

def DiscoveryCaches.on {α : Type} (key : CacheKey) (f : CacheConfig → DiscoveryCache → α × DiscoveryCache)
    (caches : DiscoveryCaches) : α × DiscoveryCaches :=
  if isCompactPath key.path then
    let (a, compact) := f compactConfig caches.compact
    (a, { caches with compact := compact })
  else
    let (a, pages) := f pagesConfig caches.pages
    (a, { caches with pages := pages })

def DiscoveryCaches.remove (key : CacheKey) (caches : DiscoveryCaches) : DiscoveryCaches :=
  (caches.on key fun _ cache => cache.remove key).2

/-! ## A discovery call -/

section
variable [Zlib]

/-- `_discovery_response` before its request: the entry is taken out. -/
def takeDiscoveryEntry (now : ℚ) (key : CacheKey) (caches : DiscoveryCaches) :
    Except CacheError (Option CacheEntry) × DiscoveryCaches :=
  match caches.on key fun config cache => cache.lookup config now key with
  | (.error error, caches) => (.error error, caches)
  | (.ok (cached, _), caches) => (.ok cached, caches.remove key)

omit [Zlib] in
/-- `_discovery_response` after its request, which carried `if_none_match`. -/
def settleDiscovery (key : CacheKey) (cached : Option CacheEntry) (if_none_match : Option Str)
    (response : DiscoveryResponse) (caches : DiscoveryCaches) :
    Except Str DiscoveryResponse × DiscoveryCaches :=
  if response.status_code = 304 then
    match cached with
    | none => (.error ("GitHub returned 304 without a matching discovery response" : Str), caches.remove key)
    | some entry =>
      if if_none_match ≠ some entry.etag then
        (.error ("GitHub returned 304 without a matching discovery response" : Str), caches.remove key)
      else
        (.ok {
          status_code := 200
          body := entry.body
          etag := some (response.etag.getD entry.etag)
          links := if response.links ≠ [] then response.links else entry.links
          cache_control := response.cache_control
          vary := response.vary }, caches)
  else (.ok response, caches.remove key)

omit [Zlib] in
def DiscoveryResponse.entry (response : DiscoveryResponse) : CacheEntry :=
  ⟨response.body, response.etag.getD [], response.links⟩

/-- `_remember_discovery_response`; a put that is rejected is no error here. -/
def rememberDiscoveryResponse [PyText] (now : ℚ) (key : CacheKey) (response : DiscoveryResponse)
    (caches : DiscoveryCaches) : DiscoveryCaches :=
  let caches := caches.remove key
  let directives := (PyText.lower (response.cache_control.getD [])).splitOn ','
  if directives.any fun value => strip value = ("no-store" : Str) then caches
  else if ((response.vary.getD []).splitOn ',').any fun value => strip value = ['*'] then caches
  else if response.etag.getD [] = [] then caches
  else (caches.on key fun config cache => cache.put config now key (some response.entry.argument)).2

end

/-! ## Interleavings -/

/-- One request of a call: when the server answered it, and its validator. -/
structure Exchange where
  moment : Nat
  key : CacheKey
  if_none_match : Option Str

/-- A call in flight, with the number of the representation it took out. -/
structure DiscoveryCall where
  key : CacheKey
  cached : Option (Nat × CacheEntry)
  answered : Option Exchange

/-- The caches and calls of one client. The representations it remembered are
numbered in order; `numbers` tells which one a key was given last, `used` which
call took one out, and `seen` what a caller got for its request. -/
structure Discovery where
  caches : DiscoveryCaches
  calls : Nat → Option DiscoveryCall
  started : Nat
  exchanges : List Exchange
  remembered : List (CacheKey × DiscoveryResponse)
  numbers : CacheKey → Nat
  used : List (Nat × Nat)
  seen : List (Exchange × DiscoveryResponse)

def Discovery.start : Discovery where
  caches := .empty
  calls := fun _ => none
  started := 0
  exchanges := []
  remembered := []
  numbers := fun _ => 0
  used := []
  seen := []

def Discovery.setCall (s : Discovery) (id : Nat) (call : Option DiscoveryCall) : Discovery :=
  { s with calls := fun other => if other = id then call else s.calls other }

/-- What the server answers at a moment, to a request with or without a validator. -/
abbrev DiscoveryServer := Nat → CacheKey → Option Str → DiscoveryResponse

def DiscoveryServer.to (server : DiscoveryServer) (x : Exchange) : DiscoveryResponse :=
  server x.moment x.key x.if_none_match

/-- What the server would have answered then without a validator. -/
def DiscoveryServer.unconditional (server : DiscoveryServer) (x : Exchange) : DiscoveryResponse :=
  server x.moment x.key none

section
variable [Zlib] [PyText]

/-- One step of one call. A request may be sent again, without its validator;
a call may end in an error at any time, and a caller may reject what it gets or
not remember it. -/
inductive DiscoveryStep (server : DiscoveryServer) (s : Discovery) : Discovery → Prop
  | refused {now : ℚ} {key : CacheKey} {error : CacheError}
      (h : (takeDiscoveryEntry now key s.caches).1 = .error error) :
    DiscoveryStep server s { s with caches := (takeDiscoveryEntry now key s.caches).2 }
  | started {now : ℚ} {key : CacheKey} {cached : Option CacheEntry}
      (h : (takeDiscoveryEntry now key s.caches).1 = .ok cached) :
    DiscoveryStep server s
      ({ s with
        caches := (takeDiscoveryEntry now key s.caches).2
        started := s.started + 1
        used := (cached.map fun _ => (s.numbers key, s.started)).toList ++ s.used }.setCall s.started
          (some ⟨key, cached.map fun entry => (s.numbers key, entry), none⟩))
  | sent {id : Nat} {call : DiscoveryCall} {x : Exchange} (conditional : Bool) (h : s.calls id = some call)
      (hx : x = ⟨s.exchanges.length, call.key,
        if conditional then call.cached.map fun cached => cached.2.etag else none⟩) :
    DiscoveryStep server s
      ({ s with exchanges := x :: s.exchanges }.setCall id (some { call with answered := some x }))
  | failed {id : Nat} {call : DiscoveryCall} (h : s.calls id = some call) :
    DiscoveryStep server s ({ s with caches := s.caches.remove call.key }.setCall id none)
  | returned {id : Nat} {call : DiscoveryCall} {x : Exchange} {response : DiscoveryResponse}
      {caches : DiscoveryCaches} (h : s.calls id = some call) (hx : call.answered = some x)
      (hr : settleDiscovery call.key (call.cached.map Prod.snd) x.if_none_match (server.to x) s.caches =
        (.ok response, caches)) :
    DiscoveryStep server s ({ s with
      caches := caches
      seen := (x, response) :: s.seen }.setCall id none)
  | remembered {id : Nat} {call : DiscoveryCall} {x : Exchange} {response : DiscoveryResponse}
      {caches : DiscoveryCaches} (now : ℚ) (h : s.calls id = some call) (hx : call.answered = some x)
      (hr : settleDiscovery call.key (call.cached.map Prod.snd) x.if_none_match (server.to x) s.caches =
        (.ok response, caches))
      (hs : response.isSuccess = true) :
    DiscoveryStep server s ({ s with
      caches := rememberDiscoveryResponse now call.key response caches
      remembered := s.remembered ++ [(call.key, response)]
      numbers := fun key => if key = call.key then s.remembered.length else s.numbers key
      seen := (x, response) :: s.seen }.setCall id none)

inductive DiscoveryRun (server : DiscoveryServer) : Discovery → Prop
  | start : DiscoveryRun server .start
  | step {s s' : Discovery} (h : DiscoveryRun server s) (hs : DiscoveryStep server s s') :
    DiscoveryRun server s'

end

/-! ## Sound validators -/

/-- The server gave this name to the representation of the moment. -/
def Exchange.Reported (server : DiscoveryServer) (x : Exchange) (etag : Str) : Prop :=
  (server.to x).isSuccess = true ∧ (server.to x).etag = some etag ∨
    (server.to x).status_code = 304 ∧ ((server.to x).etag = some etag ∨ x.if_none_match = some etag)

/-- A name stands for one representation, which is what a page with the name
carries and what a 304 says is current. Any Link field is current, and a
successful answer is the one that a request without a validator gets. -/
structure SoundValidators (server : DiscoveryServer) (named : CacheKey → Str → Option Bytes) : Prop where
  representation : ∀ x etag, (server.to x).isSuccess = true → (server.to x).etag = some etag →
    named x.key etag = some (server.to x).body
  unconditional : ∀ x, (server.to x).isSuccess = true → (server.unconditional x).isSuccess = true ∧
    (server.unconditional x).body = (server.to x).body ∧ (server.unconditional x).links = (server.to x).links
  not_modified : ∀ x etag, (server.to x).status_code = 304 → x.if_none_match = some etag →
    (server.unconditional x).isSuccess = true ∧
    named x.key etag = some (server.unconditional x).body ∧
    ∀ other, (server.to x).etag = some other → named x.key other = some (server.unconditional x).body
  links : ∀ x, (server.to x).status_code = 304 → (server.to x).links ≠ [] →
    (server.to x).links = (server.unconditional x).links

/-- A 304 without a Link field: the links are still those of the earlier answers
that gave the representation its name. -/
def LinksUnchanged (server : DiscoveryServer) (exchanges : List Exchange) : Prop :=
  ∀ x ∈ exchanges, ∀ x' ∈ exchanges, x'.key = x.key → x'.moment < x.moment → ∀ etag,
    x.if_none_match = some etag → (server.to x).status_code = 304 → (server.to x).links = [] →
      x'.Reported server etag → (server.unconditional x).links = (server.unconditional x').links

end ExtraCodeowners
