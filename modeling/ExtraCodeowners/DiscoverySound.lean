import ExtraCodeowners.ConditionalDiscovery

/-!
# Soundness of conditional discovery

Whatever a caller sees is what a request without a validator would have got
from the server at the same moment, and no remembered page serves two calls.
-/

namespace ExtraCodeowners

/-! ## What a cache holds -/

section
variable [Zlib]

def DiscoveryCache.holds (config : CacheConfig) (key : CacheKey) (cache : DiscoveryCache) : Option CacheEntry :=
  (cache.entries.get? key).bind fun stored => stored.decode config

theorem removeValidated_holds {config : CacheConfig} {key k : CacheKey} {cache : DiscoveryCache} {e : CacheEntry}
    (h : (cache.removeValidated key).holds config k = some e) : k ≠ key ∧ cache.holds config k = some e := by
  rw [DiscoveryCache.holds, removeValidated_entries, Dict.get?_deleteWhere] at h
  cases hg : cache.entries.get? k with
  | none =>
    rw [hg] at h
    cases h
  | some stored =>
    rw [hg, Option.filter_some] at h
    by_cases hk : k = key
    · simp [hk] at h
    · rw [if_pos (by simpa using hk)] at h
      rw [DiscoveryCache.holds, hg]
      exact ⟨hk, h⟩

theorem lookup_holds {config : CacheConfig} {now : ℚ} {key : CacheKey} {cache : DiscoveryCache} {e : CacheEntry}
    {status : CacheLookupStatus} (h : (cache.lookup config now key).1 = .ok (some e, status)) :
    cache.holds config key = some e := by
  have hk := lookup_key h
  unfold DiscoveryCache.lookup at h
  rw [hk] at h
  cases hg : cache.entries.get? key with
  | none =>
    simp only [hg] at h
    cases h
  | some stored =>
    simp only [hg] at h
    rw [DiscoveryCache.holds, hg]
    by_cases hidle : now - stored.last_used ≥ config.idle_ttl_seconds
    · rw [if_pos hidle] at h
      cases h
    · rw [if_neg hidle] at h
      cases hd : stored.decode config with
      | none =>
        simp only [hd] at h
        cases h
      | some entry =>
        simp only [hd] at h
        cases h
        exact hd

/-- A lookup adds nothing. -/
theorem holds_lookup {config : CacheConfig} {now : ℚ} {key k : CacheKey} {cache : DiscoveryCache} {e : CacheEntry}
    (h : (cache.lookup config now key).2.holds config k = some e) : cache.holds config k = some e := by
  unfold DiscoveryCache.lookup at h
  cases hk : validateKey key with
  | error error =>
    rw [hk] at h
    exact h
  | ok key' =>
    rw [hk] at h
    cases hg : cache.entries.get? key' with
    | none =>
      simp only [hg] at h
      exact h
    | some stored =>
      simp only [hg] at h
      by_cases hidle : now - stored.last_used ≥ config.idle_ttl_seconds
      · rw [if_pos hidle] at h
        exact (removeValidated_holds h).2
      · rw [if_neg hidle] at h
        cases hd : stored.decode config with
        | none =>
          simp only [hd] at h
          exact (removeValidated_holds h).2
        | some entry =>
          simp only [hd, DiscoveryCache.holds, Dict.get?_set] at h
          by_cases he : k = key'
          · subst he
            rw [if_pos rfl] at h
            rw [DiscoveryCache.holds, hg]
            exact h
          · rw [if_neg he] at h
            have hr : (cache.removeValidated key').holds config k = some e := by
              rw [DiscoveryCache.holds, removeValidated_entries]
              exact h
            exact (removeValidated_holds hr).2

omit [Zlib] in
theorem evict_suffix {config : CacheConfig} (entries : List (CacheKey × StoredEntry)) :
    ∀ (nodup : (entries.map Prod.fst).Nodup) (bytes : Int),
      (evict config entries nodup bytes).2.entries.entries <:+ entries := by
  induction entries with
  | nil =>
    intro nodup bytes
    exact List.suffix_refl _
  | cons e entries ih =>
    intro nodup bytes
    rw [evict]
    split
    · exact (ih _ _).trans (List.suffix_cons e entries)
    · exact List.suffix_refl _

omit [Zlib] in
theorem validateLinks_argument {links links' : List Str} (h : validateLinks (some (links.map some)) = .ok links') :
    links' = links := by
  have hlink : ∀ link link', validateLink (some link) = .ok link' → link' = link := by
    intro link link' h
    unfold validateLink at h
    simp only at h
    split at h
    · cases h
    split at h
    · cases h
    · exact (Except.ok.inj h).symm
  unfold validateLinks at h
  simp only at h
  split at h
  · cases h
  cases hm : (links.map some).mapM validateLink with
  | error error =>
    rw [hm] at h
    cases h
  | ok checked =>
    rw [hm] at h
    simp only at h
    split at h
    · cases h
    cases h
    have hall := mapM_ok.mp hm
    rw [List.forall₂_map_left_iff] at hall
    have hsame : List.Forall₂ (· = ·) links links' := hall.imp fun _ _ hl => (hlink _ _ hl).symm
    rw [List.forall₂_eq_eq_eq] at hsame
    exact hsame.symm

omit [Zlib] in
theorem validateEntry_argument {entry e : CacheEntry} (h : validateEntry entry.argument = .ok e) : e = entry := by
  simp only [validateEntry, CacheEntry.argument] at h
  split at h
  · cases h
  split at h
  · cases h
  cases hl : validateLinks (some (entry.links.map some)) with
  | error error =>
    rw [hl] at h
    cases h
  | ok links =>
    rw [hl] at h
    cases h
    rw [validateLinks_argument hl]

theorem put_holds [LawfulZlib] {config : CacheConfig} {now : ℚ} {key k : CacheKey} {cache : DiscoveryCache}
    {entry e : CacheEntry} (hk : validateKey key = .ok key)
    (h : (cache.put config now key (some entry.argument)).2.holds config k = some e) :
    (k = key ∧ e = entry) ∨ (k ≠ key ∧ cache.holds config k = some e) := by
  rcases put_cases config now hk (some entry.argument) cache with
    ⟨error, hput⟩ | ⟨passed, checked, ha, hv, hmax, -, hput⟩
  · rw [hput] at h
    exact .inr (removeValidated_holds h)
  · cases ha
    have he := validateEntry_argument hv
    subst he
    obtain ⟨weight, -, hr⟩ := encodeEntry_represents config now key checked hmax
    simp only at hput
    rw [hput] at h
    rw [DiscoveryCache.holds] at h
    obtain ⟨stored, hstored, hdecode⟩ := Option.bind_eq_some_iff.mp h
    have hmem := (evict_suffix _ (Dict.nodup _) _).subset (Dict.get?_eq_some.mp hstored)
    rw [← Dict.get?_eq_some, Dict.get?_set] at hmem
    by_cases hsame : k = key
    · rw [if_pos hsame] at hmem
      cases hmem
      left
      exact ⟨hsame, (Option.some.inj (hr.decode.symm.trans hdecode)).symm⟩
    · rw [if_neg hsame] at hmem
      right
      have hkept : (cache.removeValidated key).holds config k = some e := by
        rw [DiscoveryCache.holds, hmem]
        exact hdecode
      exact removeValidated_holds hkept

/-! ## Both caches -/

def DiscoveryCaches.of (key : CacheKey) (caches : DiscoveryCaches) : DiscoveryCache :=
  if isCompactPath key.path then caches.compact else caches.pages

def configOf (key : CacheKey) : CacheConfig := if isCompactPath key.path then compactConfig else pagesConfig

def DiscoveryCaches.holds (key : CacheKey) (caches : DiscoveryCaches) : Option CacheEntry :=
  (caches.of key).holds (configOf key) key

omit [Zlib] in
theorem on_result {α : Type} (key : CacheKey) (f : CacheConfig → DiscoveryCache → α × DiscoveryCache)
    (caches : DiscoveryCaches) : (caches.on key f).1 = (f (configOf key) (caches.of key)).1 := by
  unfold DiscoveryCaches.on configOf DiscoveryCaches.of
  by_cases h : isCompactPath key.path = true
  · simp [h]
  · simp [h]

/-- A key in the other cache keeps what it holds. -/
theorem on_holds {α : Type} (key k : CacheKey) (f : CacheConfig → DiscoveryCache → α × DiscoveryCache)
    (caches : DiscoveryCaches) :
    ((caches.on key f).2.holds k = (f (configOf key) (caches.of key)).2.holds (configOf key) k ∧
      caches.holds k = (caches.of key).holds (configOf key) k) ∨
    (k ≠ key ∧ (caches.on key f).2.holds k = caches.holds k) := by
  by_cases h : isCompactPath key.path = true
  · by_cases hk : isCompactPath k.path = true
    · left
      simp [DiscoveryCaches.on, DiscoveryCaches.holds, DiscoveryCaches.of, configOf, h, hk]
    · right
      refine ⟨fun he => hk (he ▸ h), ?_⟩
      simp [DiscoveryCaches.on, DiscoveryCaches.holds, DiscoveryCaches.of, configOf, h, hk]
  · by_cases hk : isCompactPath k.path = true
    · right
      refine ⟨fun he => h (he ▸ hk), ?_⟩
      simp [DiscoveryCaches.on, DiscoveryCaches.holds, DiscoveryCaches.of, configOf, h, hk]
    · left
      simp [DiscoveryCaches.on, DiscoveryCaches.holds, DiscoveryCaches.of, configOf, h, hk]

theorem remove_holds {key k : CacheKey} {caches : DiscoveryCaches} {e : CacheEntry}
    (hk : validateKey key = .ok key) (h : (caches.remove key).holds k = some e) :
    k ≠ key ∧ caches.holds k = some e := by
  unfold DiscoveryCaches.remove at h
  rcases on_holds key k (fun _ cache => cache.remove key) caches with ⟨hon, hholds⟩ | ⟨hne, hon⟩
  · rw [hon] at h
    simp only [DiscoveryCache.remove, hk] at h
    rw [hholds]
    exact removeValidated_holds h
  · exact ⟨hne, hon ▸ h⟩

/-- What a call takes out was there, and is there no more. -/
theorem takeDiscoveryEntry_holds {now : ℚ} {key : CacheKey} {caches : DiscoveryCaches}
    {cached : Option CacheEntry} (h : (takeDiscoveryEntry now key caches).1 = .ok cached) :
    validateKey key = .ok key ∧ (∀ entry, cached = some entry → caches.holds key = some entry) ∧
      ∀ k e, (takeDiscoveryEntry now key caches).2.holds k = some e → k ≠ key ∧ caches.holds k = some e := by
  unfold takeDiscoveryEntry at h ⊢
  have hresult := on_result key (fun config cache => cache.lookup config now key) caches
  have hholds := fun k => on_holds key k (fun config cache => cache.lookup config now key) caches
  cases hr : caches.on key fun config cache => cache.lookup config now key with
  | mk result caches' =>
    rw [hr] at h hresult hholds
    cases result with
    | error error =>
      simp only at h
      cases h
    | ok answer =>
      obtain ⟨found, status⟩ := answer
      simp only at h hresult ⊢
      cases h
      have hkey := lookup_key hresult.symm
      refine ⟨hkey, ?_, ?_⟩
      · intro entry he
        subst he
        exact lookup_holds hresult.symm
      · intro k e he
        obtain ⟨hne, he⟩ := remove_holds hkey he
        refine ⟨hne, ?_⟩
        rcases hholds k with ⟨hon, hbefore⟩ | ⟨-, hon⟩
        · rw [hbefore]
          exact holds_lookup (hon ▸ he)
        · exact hon ▸ he

theorem takeDiscoveryEntry_refused {now : ℚ} {key : CacheKey} {caches : DiscoveryCaches}
    {error : CacheError} (h : (takeDiscoveryEntry now key caches).1 = .error error) {k : CacheKey} {e : CacheEntry}
    (he : (takeDiscoveryEntry now key caches).2.holds k = some e) : caches.holds k = some e := by
  unfold takeDiscoveryEntry at h he
  have hholds := on_holds key k (fun config cache => cache.lookup config now key) caches
  cases hr : caches.on key fun config cache => cache.lookup config now key with
  | mk result caches' =>
    rw [hr] at h he hholds
    cases result with
    | error error =>
      simp only at he hholds
      rcases hholds with ⟨hon, hbefore⟩ | ⟨-, hon⟩
      · rw [hbefore]
        exact holds_lookup (hon ▸ he)
      · exact hon ▸ he
    | ok answer =>
      simp only at h
      cases h

theorem settleDiscovery_holds {key : CacheKey} {cached : Option CacheEntry} {if_none_match : Option Str}
    {response response' : DiscoveryResponse} {caches caches' : DiscoveryCaches} (hk : validateKey key = .ok key)
    (h : settleDiscovery key cached if_none_match response caches = (.ok response', caches')) {k : CacheKey}
    {e : CacheEntry} (he : caches'.holds k = some e) : caches.holds k = some e := by
  unfold settleDiscovery at h
  by_cases hstatus : response.status_code = 304
  · rw [if_pos hstatus] at h
    cases cached with
    | none => cases h
    | some entry =>
      simp only at h
      split at h
      · cases h
      · cases h
        exact he
  · rw [if_neg hstatus] at h
    cases h
    exact (remove_holds hk he).2

theorem rememberDiscoveryResponse_holds [PyText] [LawfulZlib] {now : ℚ} {key k : CacheKey}
    {response : DiscoveryResponse} {caches : DiscoveryCaches} {e : CacheEntry}
    (hk : validateKey key = .ok key)
    (h : (rememberDiscoveryResponse now key response caches).holds k = some e) :
    (k = key ∧ e = response.entry ∧ ∃ etag, response.etag = some etag) ∨ (k ≠ key ∧ caches.holds k = some e) := by
  unfold rememberDiscoveryResponse at h
  simp only at h
  split at h
  · exact .inr (remove_holds hk h)
  split at h
  · exact .inr (remove_holds hk h)
  split at h
  · exact .inr (remove_holds hk h)
  rename_i hetag
  have hnamed : ∃ etag, response.etag = some etag := by
    cases ho : response.etag with
    | none => exact absurd (by rw [ho]; rfl) hetag
    | some etag => exact ⟨etag, rfl⟩
  rcases on_holds key k (fun config cache => cache.put config now key (some response.entry.argument))
      (caches.remove key) with ⟨hon, hbefore⟩ | ⟨hne, hon⟩
  · rw [hon] at h
    rcases put_holds hk h with ⟨hsame, he⟩ | ⟨hne, he⟩
    · exact .inl ⟨hsame, he, hnamed⟩
    · rw [← hbefore] at he
      exact .inr (remove_holds hk he)
  · exact .inr (remove_holds hk (hon ▸ h))

end

/-! ## Sound entries -/

section
variable {server : DiscoveryServer} {named : CacheKey → Str → Option Bytes}

/-- An entry with the body that its name stands for, and with the links that were
current at an earlier answer under that name. -/
def SoundEntry (server : DiscoveryServer) (named : CacheKey → Str → Option Bytes) (exchanges : List Exchange)
    (moment : Nat) (key : CacheKey) (entry : CacheEntry) : Prop :=
  named key entry.etag = some entry.body ∧
    ∃ x ∈ exchanges, x.key = key ∧ x.moment < moment ∧ x.Reported server entry.etag ∧
      (server.unconditional x).links = entry.links

theorem SoundEntry.mono {exchanges exchanges' : List Exchange} {moment moment' : Nat} {key : CacheKey}
    {entry : CacheEntry} (h : SoundEntry server named exchanges moment key entry)
    (hs : exchanges ⊆ exchanges') (hm : moment ≤ moment') :
    SoundEntry server named exchanges' moment' key entry := by
  obtain ⟨hbody, x, hx, hkey, hlt, hreported, hlinks⟩ := h
  exact ⟨hbody, x, hs hx, hkey, Nat.lt_of_lt_of_le hlt hm, hreported, hlinks⟩

/-- What a caller sees is what it would have got without a validator. -/
structure SeesCurrent (server : DiscoveryServer) (x : Exchange) (response : DiscoveryResponse) : Prop where
  success : (server.unconditional x).isSuccess = true
  body : response.body = (server.unconditional x).body
  links : response.links = (server.unconditional x).links

theorem settleDiscovery_current (hv : SoundValidators server named) {exchanges : List Exchange}
    (hl : LinksUnchanged server exchanges) {x : Exchange} (hx : x ∈ exchanges) {cached : Option CacheEntry}
    (hc : ∀ entry, cached = some entry → SoundEntry server named exchanges x.moment x.key entry)
    {caches caches' : DiscoveryCaches} {response : DiscoveryResponse}
    (h : settleDiscovery x.key cached x.if_none_match (server.to x) caches = (.ok response, caches'))
    (hs : response.isSuccess = true) :
    SeesCurrent server x response ∧
      ∀ etag, response.etag = some etag →
        named x.key etag = some response.body ∧ x.Reported server etag := by
  unfold settleDiscovery at h
  by_cases hstatus : (server.to x).status_code = 304
  · rw [if_pos hstatus] at h
    cases cached with
    | none => cases h
    | some entry =>
      simp only at h
      by_cases hmatch : x.if_none_match ≠ some entry.etag
      · rw [if_pos hmatch] at h
        cases h
      rw [if_neg hmatch] at h
      have hmatch := not_not.mp hmatch
      obtain ⟨hbody, x', hx', hkey, hlt, hreported, hlinks⟩ := hc entry rfl
      obtain ⟨hsuccess, hcurrent, hother⟩ := hv.not_modified x entry.etag hstatus hmatch
      have hsame : entry.body = (server.unconditional x).body := by
        rw [hbody] at hcurrent
        exact Option.some.inj hcurrent
      cases h
      refine ⟨⟨hsuccess, hsame, ?_⟩, ?_⟩
      · by_cases hnone : (server.to x).links = []
        · have hunchanged := hl x hx x' hx' hkey hlt entry.etag hmatch hstatus hnone hreported
          simp only [hnone, ne_eq, not_true_eq_false, if_false]
          exact hlinks.symm.trans hunchanged.symm
        · simp only [ne_eq, hnone, not_false_eq_true, if_true]
          exact hv.links x hstatus hnone
      · intro etag he
        simp only at he ⊢
        cases hcarried : (server.to x).etag with
        | none =>
          rw [hcarried] at he
          cases he
          exact ⟨hbody, .inr ⟨hstatus, .inr hmatch⟩⟩
        | some other =>
          rw [hcarried] at he
          cases he
          refine ⟨?_, .inr ⟨hstatus, .inl hcarried⟩⟩
          rw [hsame]
          exact hother _ hcarried
  · rw [if_neg hstatus] at h
    cases h
    obtain ⟨hsuccess, hbody, hlinks⟩ := hv.unconditional x hs
    refine ⟨⟨hsuccess, hbody.symm, hlinks.symm⟩, ?_⟩
    intro etag he
    exact ⟨hv.representation x etag hs he, .inl ⟨hs, he⟩⟩

end

/-! ## The invariant -/

section
variable [Zlib] {server : DiscoveryServer} {named : CacheKey → Str → Option Bytes}

omit [Zlib] in
theorem setCall_cases {s : Discovery} {id other : Nat} {call : Option DiscoveryCall} {found : DiscoveryCall}
    (h : (s.setCall id call).calls other = some found) :
    (other = id ∧ call = some found) ∨ s.calls other = some found := by
  by_cases he : other = id
  · exact .inl ⟨he, (if_pos he).symm.trans h⟩
  · exact .inr ((if_neg he).symm.trans h)

/-- The representation with this number. -/
def Discovery.Remembered (s : Discovery) (n : Nat) (key : CacheKey) (entry : CacheEntry) : Prop :=
  ∃ response, s.remembered[n]? = some (key, response) ∧ entry = response.entry

/-- Entries are sound, whether a cache holds them or a call took them out, and
a held one has not been used. -/
structure DiscoveryInv (server : DiscoveryServer) (named : CacheKey → Str → Option Bytes) (s : Discovery) :
    Prop where
  held : ∀ key entry, s.caches.holds key = some entry →
    SoundEntry server named s.exchanges s.exchanges.length key entry ∧
      s.Remembered (s.numbers key) key entry ∧ ∀ id, (s.numbers key, id) ∉ s.used
  fresh : ∀ id, s.started ≤ id → s.calls id = none
  valid : ∀ id call, s.calls id = some call → validateKey call.key = .ok call.key
  cached : ∀ id call n entry, s.calls id = some call → call.cached = some (n, entry) →
    (n, id) ∈ s.used ∧ s.Remembered n call.key entry ∧
      SoundEntry server named s.exchanges s.exchanges.length call.key entry
  answered : ∀ id call x, s.calls id = some call → call.answered = some x →
    x ∈ s.exchanges ∧ x.key = call.key ∧ ∀ n entry, call.cached = some (n, entry) →
      SoundEntry server named s.exchanges x.moment x.key entry
  moments : ∀ x ∈ s.exchanges, x.moment < s.exchanges.length
  used : ∀ n id id', (n, id) ∈ s.used → (n, id') ∈ s.used → id = id'
  numbered : ∀ n id, (n, id) ∈ s.used → n < s.remembered.length
  seen : ∀ x response, (x, response) ∈ s.seen → response.isSuccess = true → SeesCurrent server x response

theorem DiscoveryInv.start : DiscoveryInv server named .start where
  held := by
    intro key entry h
    have hnone : ∀ config : CacheConfig, DiscoveryCache.empty.holds config key = none := fun _ => rfl
    rw [DiscoveryCaches.holds, DiscoveryCaches.of] at h
    split at h
    · rw [Discovery.start, DiscoveryCaches.empty, hnone] at h
      cases h
    · rw [Discovery.start, DiscoveryCaches.empty, hnone] at h
      cases h
  fresh := fun _ _ => rfl
  valid := by
    intro id call h
    cases h
  cached := by
    intro id call n entry h
    cases h
  answered := by
    intro id call x h
    cases h
  moments := by simp [Discovery.start]
  used := by simp [Discovery.start]
  numbered := by simp [Discovery.start]
  seen := by simp [Discovery.start]

/-- Caches that hold less. -/
theorem DiscoveryInv.shrink {s : Discovery} (h : DiscoveryInv server named s) {caches : DiscoveryCaches}
    (hc : ∀ key entry, caches.holds key = some entry → s.caches.holds key = some entry) :
    DiscoveryInv server named { s with caches := caches } :=
  { h with held := fun key entry he => h.held key entry (hc key entry he) }

theorem DiscoveryInv.close {s : Discovery} (h : DiscoveryInv server named s) (id : Nat) :
    DiscoveryInv server named (s.setCall id none) where
  held := h.held
  fresh := by
    intro other ho
    by_cases he : other = id
    · exact if_pos he
    · exact (if_neg he).trans (h.fresh other ho)
  valid := by
    intro other call hc
    rcases setCall_cases hc with ⟨-, hc⟩ | hc
    · cases hc
    · exact h.valid other call hc
  cached := by
    intro other call n entry hc
    rcases setCall_cases hc with ⟨-, hc⟩ | hc
    · cases hc
    · exact h.cached other call n entry hc
  answered := by
    intro other call x hc
    rcases setCall_cases hc with ⟨-, hc⟩ | hc
    · cases hc
    · exact h.answered other call x hc
  moments := h.moments
  used := h.used
  numbered := h.numbered
  seen := h.seen

theorem DiscoveryInv.see {s : Discovery} (h : DiscoveryInv server named s) {x : Exchange}
    {response : DiscoveryResponse} (hs : response.isSuccess = true → SeesCurrent server x response) :
    DiscoveryInv server named { s with seen := (x, response) :: s.seen } :=
  { h with
    seen := by
      intro x' response' hm hsuccess
      rcases List.mem_cons.mp hm with he | hm
      · cases he
        exact hs hsuccess
      · exact h.seen x' response' hm hsuccess }

omit [Zlib] in
theorem Discovery.Remembered.unique {s : Discovery} {n : Nat} {key key' : CacheKey} {entry entry' : CacheEntry}
    (h : s.Remembered n key entry) (h' : s.Remembered n key' entry') : key = key' := by
  obtain ⟨response, hr, -⟩ := h
  obtain ⟨response', hr', -⟩ := h'
  rw [hr] at hr'
  exact (Prod.mk.inj (Option.some.inj hr')).1

theorem DiscoveryInv.take {s : Discovery} (h : DiscoveryInv server named s) {now : ℚ} {key : CacheKey}
    {cached : Option CacheEntry} (ht : (takeDiscoveryEntry now key s.caches).1 = .ok cached) :
    DiscoveryInv server named
      ({ s with
        caches := (takeDiscoveryEntry now key s.caches).2
        started := s.started + 1
        used := (cached.map fun _ => (s.numbers key, s.started)).toList ++ s.used }.setCall s.started
          (some ⟨key, cached.map fun entry => (s.numbers key, entry), none⟩)) := by
  obtain ⟨hkey, hheld, hrest⟩ := takeDiscoveryEntry_holds ht
  have hused : ∀ n id, (n, id) ∈ (cached.map fun _ => (s.numbers key, s.started)).toList ++ s.used →
      (n = s.numbers key ∧ id = s.started ∧ ∃ entry, cached = some entry ∧ s.caches.holds key = some entry) ∨
        (n, id) ∈ s.used := by
    intro n id hm
    rcases List.mem_append.mp hm with hm | hm
    · cases cached with
      | none => cases hm
      | some entry =>
        cases List.mem_singleton.mp hm
        exact .inl ⟨rfl, rfl, entry, rfl, hheld entry rfl⟩
    · exact .inr hm
  refine ⟨?_, ?_, ?_, ?_, ?_, h.moments, ?_, ?_, h.seen⟩
  · intro k entry he
    obtain ⟨hne, he⟩ := hrest k entry he
    obtain ⟨hsound, hremembered, hunused⟩ := h.held k entry he
    refine ⟨hsound, hremembered, ?_⟩
    intro id hm
    rcases hused _ _ hm with ⟨hn, -, taken, -, htaken⟩ | hm
    · have hother := (h.held key taken htaken).2.1
      rw [← hn] at hother
      exact hne (hremembered.unique hother)
    · exact hunused id hm
  · intro id hid
    have hne : id ≠ s.started := by
      intro he
      subst he
      exact absurd hid (Nat.not_succ_le_self _)
    exact (if_neg hne).trans (h.fresh id (Nat.le_of_succ_le hid))
  · intro id call hc
    rcases setCall_cases hc with ⟨-, hc⟩ | hc
    · cases hc
      exact hkey
    · exact h.valid id call hc
  · intro id call n entry hc hcached
    rcases setCall_cases hc with ⟨he, hc⟩ | hc
    · cases hc
      cases cached with
      | none => cases hcached
      | some taken =>
        cases hcached
        obtain ⟨hsound, hremembered, -⟩ := h.held key entry (hheld entry rfl)
        refine ⟨?_, hremembered, hsound⟩
        rw [he]
        exact List.mem_cons_self
    · obtain ⟨hm, hremembered, hsound⟩ := h.cached id call n entry hc hcached
      exact ⟨List.mem_append_right _ hm, hremembered, hsound⟩
  · intro id call x hc hx
    rcases setCall_cases hc with ⟨-, hc⟩ | hc
    · cases hc
      cases hx
    · exact h.answered id call x hc hx
  · intro n id id' hm hm'
    rcases hused n id hm with ⟨hn, hid, taken, -, htaken⟩ | hm
    · have hunused := (h.held key taken htaken).2.2
      rcases hused n id' hm' with ⟨-, hid', -⟩ | hm'
      · rw [hid, hid']
      · exact absurd (hn ▸ hm') (hunused id')
    · rcases hused n id' hm' with ⟨hn, -, taken, -, htaken⟩ | hm'
      · exact absurd (hn ▸ hm) ((h.held key taken htaken).2.2 id)
      · exact h.used n id id' hm hm'
  · intro n id hm
    rcases hused n id hm with ⟨hn, -, taken, -, htaken⟩ | hm
    · obtain ⟨response, hr, -⟩ := (h.held key taken htaken).2.1
      rw [hn]
      exact (List.getElem?_eq_some_iff.mp hr).1
    · exact h.numbered n id hm

theorem DiscoveryInv.send {s : Discovery} (h : DiscoveryInv server named s) {id : Nat} {call : DiscoveryCall}
    {x : Exchange} (hc : s.calls id = some call) (hkey : x.key = call.key)
    (hmoment : x.moment = s.exchanges.length) :
    DiscoveryInv server named
      ({ s with exchanges := x :: s.exchanges }.setCall id (some { call with answered := some x })) := by
  have hsubset : s.exchanges ⊆ x :: s.exchanges := List.subset_cons_self x s.exchanges
  have hlater : s.exchanges.length ≤ (x :: s.exchanges).length := Nat.le_succ _
  refine ⟨?_, ?_, ?_, ?_, ?_, ?_, h.used, h.numbered, h.seen⟩
  · intro key entry he
    obtain ⟨hsound, hrest⟩ := h.held key entry he
    exact ⟨hsound.mono hsubset hlater, hrest⟩
  · intro other ho
    have hne : other ≠ id := by
      intro he
      rw [he] at ho
      rw [h.fresh id ho] at hc
      cases hc
    exact (if_neg hne).trans (h.fresh other ho)
  · intro other found hf
    rcases setCall_cases hf with ⟨-, hf⟩ | hf
    · cases hf
      exact h.valid id call hc
    · exact h.valid other found hf
  · intro other found n entry hf hcached
    rcases setCall_cases hf with ⟨he, hf⟩ | hf
    · cases hf
      subst he
      obtain ⟨hm, hremembered, hsound⟩ := h.cached other call n entry hc hcached
      exact ⟨hm, hremembered, hsound.mono hsubset hlater⟩
    · obtain ⟨hm, hremembered, hsound⟩ := h.cached other found n entry hf hcached
      exact ⟨hm, hremembered, hsound.mono hsubset hlater⟩
  · intro other found y hf hy
    rcases setCall_cases hf with ⟨-, hf⟩ | hf
    · cases hf
      cases hy
      refine ⟨List.mem_cons_self, hkey, ?_⟩
      intro n entry hcached
      rw [hkey, hmoment]
      exact (h.cached id call n entry hc hcached).2.2.mono hsubset (le_refl _)
    · obtain ⟨hm, hykey, hsound⟩ := h.answered other found y hf hy
      refine ⟨List.mem_cons_of_mem _ hm, hykey, ?_⟩
      intro n entry hcached
      exact (hsound n entry hcached).mono hsubset (le_refl _)
  · intro y hy
    change y.moment < s.exchanges.length + 1
    rcases List.mem_cons.mp hy with rfl | hy
    · rw [hmoment]
      exact Nat.lt_succ_self _
    · exact Nat.lt_succ_of_lt (h.moments y hy)

theorem DiscoveryInv.remember {s : Discovery} (h : DiscoveryInv server named s) {key : CacheKey}
    {response : DiscoveryResponse} {caches : DiscoveryCaches}
    (hsound : ∀ etag, response.etag = some etag →
      SoundEntry server named s.exchanges s.exchanges.length key response.entry)
    (hholds : ∀ k entry, caches.holds k = some entry →
      (k = key ∧ entry = response.entry ∧ ∃ etag, response.etag = some etag) ∨
        (k ≠ key ∧ s.caches.holds k = some entry)) :
    DiscoveryInv server named { s with
      caches := caches
      remembered := s.remembered ++ [(key, response)]
      numbers := fun k => if k = key then s.remembered.length else s.numbers k } := by
  have hkept : ∀ n k entry, s.Remembered n k entry →
      ∃ response', (s.remembered ++ [(key, response)])[n]? = some (k, response') ∧ entry = response'.entry := by
    intro n k entry hr
    obtain ⟨response', hr, he⟩ := hr
    exact ⟨response', by rw [List.getElem?_append_left (List.getElem?_eq_some_iff.mp hr).1, hr], he⟩
  refine ⟨?_, h.fresh, h.valid, ?_, h.answered, h.moments, h.used, ?_, h.seen⟩
  · intro k entry he
    rcases hholds k entry he with ⟨hsame, hentry, etag, hetag⟩ | ⟨hne, he⟩
    · rw [hsame, hentry]
      refine ⟨hsound etag hetag, ⟨response, ?_, rfl⟩, ?_⟩
      · simp
      · intro id hm
        simp only [if_true] at hm
        exact absurd (h.numbered _ id hm) (lt_irrefl _)
    · obtain ⟨hentry, hremembered, hunused⟩ := h.held k entry he
      refine ⟨hentry, ?_, ?_⟩
      · simp only [Discovery.Remembered, if_neg hne]
        exact hkept _ k entry hremembered
      · simp only [if_neg hne]
        exact hunused
  · intro id call n entry hc hcached
    obtain ⟨hm, hremembered, hentry⟩ := h.cached id call n entry hc hcached
    exact ⟨hm, hkept n call.key entry hremembered, hentry⟩
  · intro n id hm
    rw [List.length_append]
    exact Nat.lt_of_lt_of_le (h.numbered n id hm) (Nat.le_add_right _ _)

/-- What a call in flight gets, as its caller sees it. -/
theorem DiscoveryInv.settle (hv : SoundValidators server named) {s : Discovery} (h : DiscoveryInv server named s)
    (hl : LinksUnchanged server s.exchanges) {id : Nat} {call : DiscoveryCall} {x : Exchange}
    {response : DiscoveryResponse} {caches : DiscoveryCaches} (hc : s.calls id = some call)
    (hx : call.answered = some x)
    (hr : settleDiscovery call.key (call.cached.map Prod.snd) x.if_none_match (server.to x) s.caches =
      (.ok response, caches)) (hs : response.isSuccess = true) :
    SeesCurrent server x response ∧ ∀ etag, response.etag = some etag →
      SoundEntry server named s.exchanges s.exchanges.length call.key response.entry := by
  obtain ⟨hmem, hkey, hsound⟩ := h.answered id call x hc hx
  have hcached : ∀ entry, call.cached.map Prod.snd = some entry →
      SoundEntry server named s.exchanges x.moment x.key entry := by
    intro entry he
    obtain ⟨⟨n, found⟩, hfound, rfl⟩ := Option.map_eq_some_iff.mp he
    exact hsound n found hfound
  rw [← hkey] at hr
  obtain ⟨hcurrent, hnamed⟩ := settleDiscovery_current hv hl hmem hcached hr hs
  refine ⟨hcurrent, ?_⟩
  intro etag he
  obtain ⟨hbody, hreported⟩ := hnamed etag he
  have hentry : response.entry.etag = etag := by rw [DiscoveryResponse.entry, he, Option.getD_some]
  refine ⟨?_, x, hmem, hkey, h.moments x hmem, ?_, hcurrent.links.symm⟩
  · rw [hentry, ← hkey]
    exact hbody
  · rw [hentry]
    exact hreported

theorem DiscoveryInv.step [PyText] [LawfulZlib] (hv : SoundValidators server named) {s s' : Discovery}
    (h : DiscoveryInv server named s) (hl : LinksUnchanged server s.exchanges) (hs : DiscoveryStep server s s') :
    DiscoveryInv server named s' := by
  cases hs with
  | refused ht =>
    apply h.shrink
    intro key entry he
    exact takeDiscoveryEntry_refused ht he
  | started ht => exact h.take ht
  | sent conditional hc hx =>
    subst hx
    exact h.send hc rfl rfl
  | failed hc =>
    have hkey := h.valid _ _ hc
    refine (h.shrink fun k entry he => ?_).close _
    exact (remove_holds hkey he).2
  | returned hc hx hr =>
    have hkey := h.valid _ _ hc
    refine ((h.shrink fun k entry he => ?_).see fun hsuccess => ?_).close _
    · exact settleDiscovery_holds hkey hr he
    · exact (h.settle hv hl hc hx hr hsuccess).1
  | remembered now hc hx hr hsuccess =>
    have hkey := h.valid _ _ hc
    obtain ⟨hcurrent, hsound⟩ := h.settle hv hl hc hx hr hsuccess
    refine ((h.remember hsound fun k entry he => ?_).see fun _ => hcurrent).close _
    rcases rememberDiscoveryResponse_holds hkey he with hnew | ⟨hne, he⟩
    · exact .inl hnew
    · exact .inr ⟨hne, settleDiscovery_holds hkey hr he⟩

omit [Zlib] in
theorem LinksUnchanged.mono {exchanges exchanges' : List Exchange} (h : LinksUnchanged server exchanges')
    (hs : exchanges ⊆ exchanges') : LinksUnchanged server exchanges := by
  intro x hx x' hx'
  exact h x (hs hx) x' (hs hx')

theorem DiscoveryStep.exchanges [PyText] {s s' : Discovery} (h : DiscoveryStep server s s') :
    s.exchanges ⊆ s'.exchanges := by
  cases h with
  | sent => exact List.subset_cons_self _ _
  | refused => exact List.Subset.refl _
  | started => exact List.Subset.refl _
  | failed => exact List.Subset.refl _
  | returned => exact List.Subset.refl _
  | remembered => exact List.Subset.refl _

theorem DiscoveryRun.inv [PyText] [LawfulZlib] (hv : SoundValidators server named) {s : Discovery}
    (h : DiscoveryRun server s) (hl : LinksUnchanged server s.exchanges) : DiscoveryInv server named s := by
  induction h with
  | start => exact .start
  | step _ hs ih =>
    have hl := hl.mono hs.exchanges
    exact (ih hl).step hv hl hs

/-- In every interleaving, a caller sees the body and the links of the answer
without a validator, and what one call took out serves no other call. -/
theorem discovery_refines_unconditional [PyText] [LawfulZlib] (hv : SoundValidators server named)
    {s : Discovery} (h : DiscoveryRun server s) (hl : LinksUnchanged server s.exchanges) :
    (∀ x response, (x, response) ∈ s.seen → response.isSuccess = true → SeesCurrent server x response) ∧
    (∀ id call n entry, s.calls id = some call → call.cached = some (n, entry) →
      (n, id) ∈ s.used ∧ s.Remembered n call.key entry) ∧
    ∀ n id id', (n, id) ∈ s.used → (n, id') ∈ s.used → id = id' := by
  have hi := h.inv hv hl
  refine ⟨hi.seen, ?_, hi.used⟩
  intro id call n entry hc hcached
  obtain ⟨hm, hremembered, -⟩ := hi.cached id call n entry hc hcached
  exact ⟨hm, hremembered⟩

end

def samplePage : CacheKey := ⟨1, ("/repos/acme/app/pulls" : Str), ("{}" : Str)⟩

def sampleTag : Str := ("\"v1\"" : Str)

/-- One page that never changes. -/
def sampleServer : DiscoveryServer := fun _ _ if_none_match =>
  if if_none_match = some sampleTag then ⟨304, [], none, [], none, none⟩
  else ⟨200, [91, 93], some sampleTag, [], none, none⟩

theorem sampleServer_sound :
    SoundValidators sampleServer fun _ etag => if etag = sampleTag then some [91, 93] else none where
  representation := by
    intro x etag hs he
    by_cases hx : x.if_none_match = some sampleTag
    · simp [DiscoveryServer.to, sampleServer, hx, DiscoveryResponse.isSuccess] at hs
    · simp only [DiscoveryServer.to, sampleServer, if_neg hx] at he ⊢
      cases he
      exact if_pos rfl
  unconditional := by
    intro x hs
    by_cases hx : x.if_none_match = some sampleTag
    · simp [DiscoveryServer.to, sampleServer, hx, DiscoveryResponse.isSuccess] at hs
    · simp only [DiscoveryServer.to, sampleServer, if_neg hx]
      exact ⟨rfl, rfl, rfl⟩
  not_modified := by
    intro x etag hs he
    by_cases hx : x.if_none_match = some sampleTag
    · rw [he] at hx
      cases hx
      refine ⟨rfl, if_pos rfl, ?_⟩
      intro other ho
      simp only [DiscoveryServer.to, sampleServer, he, if_true] at ho
      cases ho
    · simp only [DiscoveryServer.to, sampleServer, if_neg hx] at hs
      cases hs
  links := by
    intro x hs hl
    by_cases hx : x.if_none_match = some sampleTag
    · simp [DiscoveryServer.to, sampleServer, hx] at hl
    · simp only [DiscoveryServer.to, sampleServer, if_neg hx] at hs
      cases hs

theorem sampleServer_links (exchanges : List Exchange) : LinksUnchanged sampleServer exchanges := by
  intro x _ x' _ _ _ etag _ _ _ _
  rfl

/-- Two calls for the page, the second with the validator of the first. -/
theorem sampleDiscovery_seen :
    let _ := sampleZlib
    let _ := asciiText
    ∃ s, DiscoveryRun sampleServer s ∧ SeesCurrent sampleServer ⟨1, samplePage, some sampleTag⟩
      ⟨200, [91, 93], some sampleTag, [], none, none⟩ := by
  let _ := sampleZlib
  let _ := asciiText
  have _ := sampleZlib_lawful
  have hfirst := DiscoveryRun.start.step
    (@DiscoveryStep.started sampleZlib asciiText sampleServer _ 0 samplePage none rfl)
  have hsent := hfirst.step (@DiscoveryStep.sent sampleZlib asciiText sampleServer _ 0 _ _ true rfl rfl)
  have hremembered := hsent.step
    (@DiscoveryStep.remembered sampleZlib asciiText sampleServer _ 0 _ _ _ _ 0 rfl rfl rfl rfl)
  have hsecond := hremembered.step (@DiscoveryStep.started sampleZlib asciiText sampleServer _ 10 samplePage
    (some ⟨[91, 93], sampleTag, []⟩) (by decide +kernel))
  have hasked := hsecond.step (@DiscoveryStep.sent sampleZlib asciiText sampleServer _ 1 _ _ true rfl rfl)
  have hreturned := hasked.step
    (@DiscoveryStep.returned sampleZlib asciiText sampleServer _ 1 _ _ _ _ rfl rfl rfl)
  refine ⟨_, hreturned, ?_⟩
  exact (discovery_refines_unconditional sampleServer_sound hreturned (sampleServer_links _)).1 _ _
    List.mem_cons_self rfl

end ExtraCodeowners
