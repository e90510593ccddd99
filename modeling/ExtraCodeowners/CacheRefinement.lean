import ExtraCodeowners.DiscoveryCache

/-!
# The discovery cache as a bounded map

Every run of the cache follows a least recently used map whose slots hold the
entries as they were put, whatever their encoding.
-/

namespace ExtraCodeowners

open Lru (Slot Event Explained without shed)

abbrev CacheSlots := List (CacheKey × Slot CacheEntry ℚ)

def weigh (slots : CacheSlots) : Nat := (slots.map fun e => e.2.weight).sum

@[simp] theorem weigh_nil : weigh [] = 0 := rfl

@[simp] theorem weigh_cons (e : CacheKey × Slot CacheEntry ℚ) (slots : CacheSlots) :
    weigh (e :: slots) = e.2.weight + weigh slots := List.sum_cons

@[simp] theorem weigh_append (slots slots' : CacheSlots) : weigh (slots ++ slots') = weigh slots + weigh slots' := by
  rw [weigh, List.map_append, List.sum_append]
  rfl

/-- The slots within the bounds on their number and on their weights. -/
def CacheConfig.fits (config : CacheConfig) (slots : CacheSlots) : Bool :=
  slots.length ≤ config.max_entries && weigh slots ≤ config.max_bytes

/-- The bytes that keys and stored entries take, counted afresh. -/
def storedSize (entries : List (CacheKey × StoredEntry)) : Nat :=
  (entries.map fun e => entrySize e.1 e.2.entry).sum

def CacheConfig.Exceeded (config : CacheConfig) (entries : List (CacheKey × StoredEntry)) : Prop :=
  config.max_entries < entries.length ∨ config.max_bytes < storedSize entries

def CacheConfig.fresh (config : CacheConfig) (now used : ℚ) : Bool := now - used < config.idle_ttl_seconds

/-! ## Keys -/

theorem validateKey_ok {key key' : CacheKey} (h : validateKey key = .ok key') : key' = key := by
  unfold validateKey at h
  split at h
  · cases h
  split at h
  · cases h
  split at h
  · cases h
  · exact (Except.ok.inj h).symm

/-! ## Removal -/

theorem weight_without {slots : CacheSlots} (hnodup : (slots.map Prod.fst).Nodup) {key : CacheKey}
    {slot : Slot CacheEntry ℚ} (h : (key, slot) ∈ slots) :
    weigh slots = slot.weight + weigh (without key slots) :=
  ((Lru.perm_without hnodup h).map fun e : CacheKey × Slot CacheEntry ℚ => e.2.weight).sum_eq.trans
    List.sum_cons

theorem deleteWhere_eq_self {d : Dict CacheKey StoredEntry} {key : CacheKey} (h : d.get? key = none) :
    (d.deleteWhere fun k _ => k = key) = d := by
  apply Dict.ext
  apply List.filter_eq_self.mpr
  intro e he
  have hk : e.1 ≠ key := fun hk => Dict.get?_eq_none.mp h e.2 (hk ▸ he)
  simpa using hk

theorem removeValidated_entries (key : CacheKey) (cache : DiscoveryCache) :
    (cache.removeValidated key).entries = cache.entries.deleteWhere fun k _ => k = key := by
  unfold DiscoveryCache.removeValidated
  cases h : cache.entries.get? key with
  | none => exact (deleteWhere_eq_self h).symm
  | some stored => rfl

theorem removeValidated_get? (key : CacheKey) (cache : DiscoveryCache) :
    (cache.removeValidated key).entries.get? key = none := by
  rw [removeValidated_entries, Dict.get?_deleteWhere]
  cases cache.entries.get? key <;> simp

theorem set_entries_of_absent {d : Dict CacheKey StoredEntry} {key : CacheKey} (h : d.get? key = none)
    (stored : StoredEntry) : (d.set key stored).entries = d.entries ++ [(key, stored)] := by
  have hk : key ∉ d.keys := Dict.not_mem_keys.mpr h
  rw [Dict.set, if_neg hk, Dict.insertNew, dif_neg hk]

/-! ## Bounds -/

theorem weigh_sublist {slots slots' : CacheSlots} (h : slots'.Sublist slots) : weigh slots' ≤ weigh slots := by
  induction h with
  | slnil => exact le_refl _
  | cons e _ ih =>
    rw [weigh_cons]
    omega
  | cons_cons e _ ih =>
    rw [weigh_cons, weigh_cons]
    omega

theorem fits_sublist {config : CacheConfig} {slots slots' : CacheSlots} (h : config.fits slots = true)
    (hs : slots'.Sublist slots) : config.fits slots' = true := by
  have hweight := weigh_sublist hs
  have hlength := hs.length_le
  simp only [CacheConfig.fits, Bool.and_eq_true, decide_eq_true_eq] at h ⊢
  omega

theorem fits_store {config : CacheConfig} (key : CacheKey) (slot : Slot CacheEntry ℚ) (slots : CacheSlots) :
    config.fits (Lru.store config.fits key slot slots) = true :=
  Lru.fits_shed (by simp [CacheConfig.fits]) _

/-- Moving a slot to the end changes neither number nor weight. -/
theorem fits_find {config : CacheConfig} {slots : CacheSlots} (hnodup : (slots.map Prod.fst).Nodup)
    (h : config.fits slots = true) (fresh : ℚ → Bool) (key : CacheKey) (now : ℚ) :
    config.fits (Lru.find fresh key now slots).2 = true := by
  unfold Lru.find
  cases hl : slots.find? fun e => e.1 = key with
  | none => exact h
  | some e =>
    obtain ⟨k, slot⟩ := e
    have hk : k = key := by simpa using List.find?_some hl
    subst hk
    have hmem := List.mem_of_find?_eq_some hl
    by_cases hfresh : fresh slot.used = true
    · simp only [if_pos hfresh]
      have hweight := weight_without hnodup hmem
      have hlength := (Lru.perm_without hnodup hmem).length_eq
      rw [List.length_cons] at hlength
      simp only [CacheConfig.fits, Bool.and_eq_true, decide_eq_true_eq, List.length_append,
        List.length_singleton, weigh_append, weigh_cons, weigh_nil] at h ⊢
      omega
    · simp only [if_neg hfresh]
      exact fits_sublist h (Lru.without_sublist k slots)

/-! ## Simulation -/

section
variable [Zlib]

/-- A stored entry and the slot it stands for. -/
structure Represents (config : CacheConfig) (e : CacheKey × StoredEntry) (slot : CacheKey × Slot CacheEntry ℚ) :
    Prop where
  key : e.1 = slot.1
  decode : e.2.decode config = some slot.2.value
  last_used : e.2.last_used = slot.2.used
  size : e.2.size = slot.2.weight
  accounted : e.2.size = entrySize e.1 e.2.entry

structure Simulates (config : CacheConfig) (cache : DiscoveryCache) (slots : CacheSlots) : Prop where
  entries : List.Forall₂ (Represents config) cache.entries.entries slots
  bytes : cache.bytes = weigh slots

theorem represents_keys {config : CacheConfig} {entries : List (CacheKey × StoredEntry)} {slots : CacheSlots}
    (h : List.Forall₂ (Represents config) entries slots) : entries.map Prod.fst = slots.map Prod.fst := by
  induction h with
  | nil => rfl
  | cons hr _ ih => rw [List.map_cons, List.map_cons, hr.key, ih]

theorem represents_size {config : CacheConfig} {entries : List (CacheKey × StoredEntry)} {slots : CacheSlots}
    (h : List.Forall₂ (Represents config) entries slots) :
    storedSize entries = weigh slots := by
  induction h with
  | nil => rfl
  | cons hr _ ih =>
    rw [storedSize, List.map_cons, List.sum_cons, weigh_cons, ← hr.accounted, hr.size]
    exact congrArg _ ih

theorem represents_fits {config : CacheConfig} {entries : List (CacheKey × StoredEntry)} {slots : CacheSlots}
    (h : List.Forall₂ (Represents config) entries slots) :
    config.fits slots = true ↔ ¬ config.Exceeded entries := by
  rw [CacheConfig.Exceeded, represents_size h, h.length_eq]
  simp [CacheConfig.fits]

theorem represents_filter {config : CacheConfig} {entries : List (CacheKey × StoredEntry)} {slots : CacheSlots}
    (h : List.Forall₂ (Represents config) entries slots) (key : CacheKey) :
    List.Forall₂ (Represents config) (entries.filter fun e => !decide (e.1 = key)) (without key slots) := by
  induction h with
  | nil => exact .nil
  | @cons e slot entries slots hr _ ih =>
    by_cases hk : slot.1 = key
    · have he : e.1 = key := hr.key.trans hk
      rw [without, List.filter_cons_of_neg (by simp [he]), List.filter_cons_of_neg (by simp [hk])]
      exact ih
    · have he : e.1 ≠ key := fun he => hk (hr.key.symm.trans he)
      rw [without, List.filter_cons_of_pos (by simp [he]), List.filter_cons_of_pos (by simp [hk])]
      exact .cons hr ih

/-- The entry of a key, and the slot it stands for. -/
theorem represents_find {config : CacheConfig} {entries : List (CacheKey × StoredEntry)} {slots : CacheSlots}
    (h : List.Forall₂ (Represents config) entries slots) (key : CacheKey) :
    ((entries.find? fun e => e.1 = key) = none ∧ (slots.find? fun e => e.1 = key) = none) ∨
      ∃ e slot, (entries.find? fun e => e.1 = key) = some e ∧ (slots.find? fun e => e.1 = key) = some slot ∧
        Represents config e slot := by
  induction h with
  | nil => exact .inl ⟨rfl, rfl⟩
  | @cons e slot entries slots hr _ ih =>
    by_cases hk : slot.1 = key
    · have he : e.1 = key := hr.key.trans hk
      exact .inr ⟨e, slot, List.find?_cons_of_pos (by simp [he]), List.find?_cons_of_pos (by simp [hk]), hr⟩
    · have he : e.1 ≠ key := fun he => hk (hr.key.symm.trans he)
      rw [List.find?_cons_of_neg (by simp [he]), List.find?_cons_of_neg (by simp [hk])]
      exact ih

theorem Simulates.nodup {config : CacheConfig} {cache : DiscoveryCache} {slots : CacheSlots}
    (h : Simulates config cache slots) : (slots.map Prod.fst).Nodup := by
  rw [← represents_keys h.entries]
  exact cache.entries.nodup

/-- A key is absent on both sides, or present with an entry and its slot. -/
theorem Simulates.get? {config : CacheConfig} {cache : DiscoveryCache} {slots : CacheSlots}
    (h : Simulates config cache slots) (key : CacheKey) :
    (cache.entries.get? key = none ∧ (slots.find? fun e => e.1 = key) = none ∧ key ∉ slots.map Prod.fst) ∨
      ∃ stored slot, cache.entries.get? key = some stored ∧
        (slots.find? fun e => e.1 = key) = some (key, slot) ∧ (key, slot) ∈ slots ∧
        Represents config (key, stored) (key, slot) := by
  rcases represents_find h.entries key with ⟨hn, hn'⟩ | ⟨e, slot, he, hs, hr⟩
  · left
    refine ⟨?_, hn', ?_⟩
    · rw [Dict.get?, hn]
      rfl
    · intro hk
      obtain ⟨slot, hslot, rfl⟩ := List.mem_map.mp hk
      simpa using List.find?_eq_none.mp hn' slot hslot
  · right
    obtain ⟨k, stored⟩ := e
    obtain ⟨k', slot⟩ := slot
    have hk : k = key := by simpa using List.find?_some he
    have hk' : k' = key := by simpa using List.find?_some hs
    subst hk
    subst hk'
    refine ⟨stored, slot, ?_, hs, List.mem_of_find?_eq_some hs, hr⟩
    rw [Dict.get?, he]
    rfl

theorem Simulates.removeValidated {config : CacheConfig} {cache : DiscoveryCache} {slots : CacheSlots}
    (h : Simulates config cache slots) (key : CacheKey) :
    Simulates config (cache.removeValidated key) (without key slots) where
  entries := by
    rw [removeValidated_entries]
    exact represents_filter h.entries key
  bytes := by
    unfold DiscoveryCache.removeValidated
    rcases h.get? key with ⟨hn, -, hk⟩ | ⟨stored, slot, hs, -, hmem, hr⟩
    · rw [hn, Lru.without_eq_self hk]
      exact h.bytes
    · rw [hs]
      have hsum := weight_without h.nodup hmem
      have hsize := hr.size
      have hbytes := h.bytes
      simp only at hsize ⊢
      omega

/-- A slot put last after its key is out. -/
theorem Simulates.append {config : CacheConfig} {cache : DiscoveryCache} {slots : CacheSlots}
    (h : Simulates config cache slots) {key : CacheKey} {stored : StoredEntry} {slot : Slot CacheEntry ℚ}
    (hr : Represents config (key, stored) (key, slot)) :
    List.Forall₂ (Represents config)
      ((cache.entries.deleteWhere fun k _ => k = key).set key stored).entries
      (without key slots ++ [(key, slot)]) := by
  have habsent : (cache.entries.deleteWhere fun k _ => k = key).get? key = none := by
    rw [← removeValidated_entries]
    exact removeValidated_get? key cache
  rw [set_entries_of_absent habsent]
  exact List.rel_append (represents_filter h.entries key) (.cons hr .nil)

/-! ## Operations -/

omit [Zlib] in
theorem entrySize_body (key : CacheKey) (entry : CacheEntry) (body : Bytes) :
    entrySize key { entry with body := body } + entry.body.length = entrySize key entry + body.length := by
  simp only [entrySize]
  omega

/-- An entry within the bounds is stored so that it decodes to itself, at a
size no larger than its own. -/
theorem encodeEntry_represents [LawfulZlib] (config : CacheConfig) (now : ℚ) (key : CacheKey)
    (entry : CacheEntry) (hsize : entrySize key entry ≤ config.max_entry_bytes) :
    ∃ weight ≤ entrySize key entry,
      Represents config (key, encodeEntry config now (entrySize key entry) entry) (key, ⟨entry, now, weight⟩) := by
  have hplain : Represents config (key, ⟨entry, now, entrySize key entry, false⟩)
      (key, ⟨entry, now, entrySize key entry⟩) := ⟨rfl, rfl, rfl, rfl, rfl⟩
  unfold encodeEntry
  by_cases hcompress : config.compress = true
  · rw [if_pos hcompress]
    by_cases hshorter : ((Zlib.compress entry.body).getD entry.body).length < entry.body.length
    · simp only [if_pos hshorter]
      cases hz : Zlib.compress entry.body with
      | none =>
        rw [hz] at hshorter
        exact absurd hshorter (lt_irrefl _)
      | some encoded =>
        rw [hz, Option.getD_some] at hshorter
        have hbody : entry.body.length ≤ entrySize key entry := by
          simp only [entrySize]
          omega
        have hdecode := LawfulZlib.inverts entry.body encoded (config.max_entry_bytes + 1) hz (by omega)
        have haccount := entrySize_body key entry encoded
        refine ⟨entrySize key entry - (entry.body.length - encoded.length), Nat.sub_le _ _, rfl, ?_, rfl, rfl, ?_⟩
        · simp only [StoredEntry.decode, Option.getD_some, if_true, hdecode]
          rw [if_neg]
          simp only [not_or, Bool.not_eq_true, Bool.not_true, not_not]
          exact ⟨by omega, trivial, trivial, trivial⟩
        · simp only [Option.getD_some]
          omega
    · simp only [if_neg hshorter]
      exact ⟨_, le_refl _, hplain⟩
  · rw [if_neg hcompress]
    exact ⟨_, le_refl _, hplain⟩

/-- The eviction loop sheds slots until the bounds hold, and none that they
leave room for; it never empties a dictionary without meeting them. -/
theorem evict_refines {config : CacheConfig} {slots : CacheSlots} :
    ∀ {entries : List (CacheKey × StoredEntry)} (nodup : (entries.map Prod.fst).Nodup) {bytes : Int},
      List.Forall₂ (Represents config) entries slots → bytes = weigh slots →
      ∃ cache evicted, evict config entries nodup bytes = (.ok (), cache) ∧
        Simulates config cache (shed config.fits slots) ∧ entries = evicted ++ cache.entries.entries ∧
        ∀ rest e, evicted = rest ++ [e] → config.Exceeded (e :: cache.entries.entries) := by
  induction slots with
  | nil =>
    intro entries nodup bytes h hbytes
    cases h
    refine ⟨⟨⟨[], nodup⟩, bytes⟩, [], ?_, ⟨.nil, hbytes⟩, rfl, ?_⟩
    · rw [evict, if_neg]
      rw [hbytes]
      simp
    · intro rest e he
      exact absurd he (by simp)
  | cons slot slots ih =>
    intro entries nodup bytes h hbytes
    cases h with
    | @cons e _ entries _ hr h =>
      have hall := List.Forall₂.cons hr h
      have hloop : ((e :: entries).length > config.max_entries ∨ bytes > config.max_bytes) ↔
          config.Exceeded (e :: entries) := by
        rw [CacheConfig.Exceeded, represents_size hall, hbytes]
        simp only [gt_iff_lt, Int.ofNat_lt]
      rw [weigh_cons] at hbytes
      by_cases hfits : config.fits (slot :: slots) = true
      · refine ⟨⟨⟨e :: entries, nodup⟩, bytes⟩, [], ?_, ?_, rfl, ?_⟩
        · rw [evict, if_neg (hloop.not.mpr ((represents_fits hall).mp hfits))]
        · rw [shed, if_pos hfits]
          refine ⟨hall, ?_⟩
          rw [weigh_cons]
          exact hbytes
        · intro rest e he
          exact absurd he (by simp)
      · have hexceeded : config.Exceeded (e :: entries) := by
          by_contra hc
          exact hfits ((represents_fits hall).mpr hc)
        have hsize := hr.size
        have hleft : bytes - e.2.size = weigh slots := by omega
        obtain ⟨cache, evicted, hevict, hs, hentries, hleast⟩ :=
          ih (List.nodup_cons.mp nodup).2 h hleft
        refine ⟨cache, e :: evicted, ?_, ?_, congrArg _ hentries, ?_⟩
        · rw [evict, if_pos (hloop.mpr hexceeded)]
          exact hevict
        · rw [shed, if_neg hfits]
          exact hs
        · intro rest last he
          cases rest with
          | nil =>
            obtain ⟨rfl, hnil⟩ := List.cons.inj he
            rw [hnil, List.nil_append] at hentries
            rw [← hentries]
            exact hexceeded
          | cons first rest => exact hleast rest last (List.cons.inj he).2

theorem Simulates.lookup {config : CacheConfig} {cache : DiscoveryCache} {slots : CacheSlots}
    (h : Simulates config cache slots) (now : ℚ) {key : CacheKey} (hk : validateKey key = .ok key) :
    ∃ status, (cache.lookup config now key).1 =
        .ok ((Lru.find (config.fresh now) key now slots).1, status) ∧
      (status = .hit ↔ ((Lru.find (config.fresh now) key now slots).1).isSome) ∧
      Simulates config (cache.lookup config now key).2 (Lru.find (config.fresh now) key now slots).2 := by
  unfold DiscoveryCache.lookup Lru.find
  rw [hk]
  rcases h.get? key with ⟨hn, hn', -⟩ | ⟨stored, slot, hs, hs', hmem, hr⟩
  · simp only [hn, hn']
    exact ⟨.absent, rfl, by simp, h⟩
  · simp only [hs, hs']
    have hused : stored.last_used = slot.used := hr.last_used
    by_cases hidle : now - stored.last_used ≥ config.idle_ttl_seconds
    · have hfresh : config.fresh now slot.used = false := by
        rw [CacheConfig.fresh, ← hused]
        simpa using hidle
      simp only [if_pos hidle, hfresh, Bool.false_eq_true, if_false]
      exact ⟨.expired, rfl, by simp, h.removeValidated key⟩
    · have hfresh : config.fresh now slot.used = true := by
        rw [CacheConfig.fresh, ← hused]
        simpa using hidle
      have hdecode : stored.decode config = some slot.value := hr.decode
      simp only [if_neg hidle, hfresh, if_true, hdecode]
      refine ⟨.hit, rfl, by simp, ?_, ?_⟩
      · exact h.append ⟨rfl, hdecode, rfl, hr.size, hr.accounted⟩
      · have hsum := weight_without h.nodup hmem
        have hbytes := h.bytes
        simp only [weigh_append, weigh_cons, weigh_nil]
        omega

theorem Simulates.remove {config : CacheConfig} {cache : DiscoveryCache} {slots : CacheSlots}
    (h : Simulates config cache slots) {key : CacheKey} (hk : validateKey key = .ok key) :
    (cache.remove key).1 = .ok () ∧ Simulates config (cache.remove key).2 (without key slots) := by
  unfold DiscoveryCache.remove
  rw [hk]
  exact ⟨rfl, h.removeValidated key⟩

/-- A put with an accepted key fails and leaves the key out, or reaches the
eviction loop. -/
theorem put_cases (config : CacheConfig) (now : ℚ) {key : CacheKey} (hk : validateKey key = .ok key)
    (argument : Option EntryArgument) (cache : DiscoveryCache) :
    (∃ error, cache.put config now key argument = (.error error, cache.removeValidated key)) ∨
    ∃ passed entry, argument = some passed ∧ validateEntry passed = .ok entry ∧
      entrySize key entry ≤ config.max_entry_bytes ∧ entrySize key entry ≤ config.max_bytes ∧
      let stored := encodeEntry config now (entrySize key entry) entry
      let entries := (cache.removeValidated key).entries.set key stored
      cache.put config now key argument =
        evict config entries.entries entries.nodup ((cache.removeValidated key).bytes + stored.size) := by
  unfold DiscoveryCache.put
  rw [hk]
  cases argument with
  | none => exact .inl ⟨_, rfl⟩
  | some passed =>
    cases he : validateEntry passed with
    | error error =>
      simp only [he]
      exact .inl ⟨_, rfl⟩
    | ok entry =>
      simp only [he]
      by_cases hsize : entrySize key entry > config.max_entry_bytes ∨ entrySize key entry > config.max_bytes
      · simp only [if_pos hsize]
        exact .inl ⟨_, rfl⟩
      · simp only [if_neg hsize]
        obtain ⟨h₁, h₂⟩ := not_or.mp hsize
        exact .inr ⟨passed, entry, rfl, he, not_lt.mp h₁, not_lt.mp h₂, rfl⟩

/-- What a put that succeeds does: the entry goes last, and the evicted ones
are the first of the others, no more of them than the bounds require. -/
structure Stores (config : CacheConfig) (key : CacheKey) (entry : CacheEntry) (cache cache' : DiscoveryCache)
    (evicted kept : List (CacheKey × StoredEntry)) (stored : StoredEntry) : Prop where
  others : (cache.entries.deleteWhere fun k _ => k = key).entries = evicted ++ kept
  entries : cache'.entries.entries = kept ++ [(key, stored)]
  decode : stored.decode config = some entry
  least : ∀ rest e, evicted = rest ++ [e] → config.Exceeded (e :: cache'.entries.entries)

theorem Simulates.put [LawfulZlib] {config : CacheConfig} {cache : DiscoveryCache} {slots : CacheSlots}
    (h : Simulates config cache slots) (now : ℚ) {key : CacheKey} (hk : validateKey key = .ok key)
    (argument : Option EntryArgument) :
    (∃ error, cache.put config now key argument = (.error error, cache.removeValidated key)) ∨
    ∃ passed entry cache' weight, argument = some passed ∧ validateEntry passed = .ok entry ∧
      cache.put config now key argument = (.ok (), cache') ∧
      Simulates config cache' (Lru.store config.fits key ⟨entry, now, weight⟩ slots) ∧
      ∃ evicted kept stored, Stores config key entry cache cache' evicted kept stored := by
  rcases put_cases config now hk argument cache with he | ⟨passed, entry, ha, hv, hmax, hbytes, hput⟩
  · exact .inl he
  · right
    obtain ⟨weight, hweight, hr⟩ := encodeEntry_represents config now key entry hmax
    have hremoved := h.removeValidated key
    have happend := h.append hr
    rw [← removeValidated_entries] at happend
    have hlast : config.fits [(key, ⟨entry, now, weight⟩)] = true := by
      simp only [CacheConfig.fits, List.length_singleton, weigh_cons, weigh_nil, Bool.and_eq_true,
        decide_eq_true_eq]
      exact ⟨config.positive.2.2.1, by omega⟩
    have hsum : (cache.removeValidated key).bytes + (encodeEntry config now (entrySize key entry) entry).size =
        weigh (without key slots ++ [(key, ⟨entry, now, weight⟩)]) := by
      have hsize := hr.size
      have hremoved := hremoved.bytes
      simp only [weigh_append, weigh_cons, weigh_nil] at hsize ⊢
      omega
    obtain ⟨cache', evicted, hevict, hs, hentries, hleast⟩ := evict_refines (Dict.nodup _) happend hsum
    have hpresent : cache'.entries.entries ≠ [] := by
      intro hnil
      have hempty := hs.entries
      rw [hnil, List.forall₂_nil_left_iff] at hempty
      have hsuffix := Lru.suffix_shed (List.suffix_append (without key slots) _) hlast
      rw [hempty] at hsuffix
      exact absurd (List.suffix_nil.mp hsuffix) (List.cons_ne_nil _ _)
    obtain ⟨kept, last, hkept⟩ := (List.eq_nil_or_concat _).resolve_left hpresent
    rw [set_entries_of_absent (removeValidated_get? key cache), hkept, List.concat_eq_append,
      ← List.append_assoc] at hentries
    obtain ⟨hothers, hlast⟩ := List.append_inj' hentries rfl
    refine ⟨passed, entry, cache', weight, ha, hv, hput.trans hevict, hs, evicted, kept, _, ?_, ?_, hr.decode,
      hleast⟩
    · rw [← removeValidated_entries]
      exact hothers
    · rw [hkept, List.concat_eq_append, hlast]

/-! ## Runs -/

inductive CacheCall where
  | get (key : CacheKey)
  | lookup (key : CacheKey)
  | put (key : CacheKey) (entry : Option EntryArgument)
  | remove (key : CacheKey)

inductive CacheAnswer where
  | done
  | entry (entry : Option CacheEntry)
  | looked (entry : Option CacheEntry) (status : CacheLookupStatus)

def CacheCall.run (config : CacheConfig) (now : ℚ) (cache : DiscoveryCache) :
    CacheCall → Except CacheError CacheAnswer × DiscoveryCache
  | get key =>
    let (result, cache) := cache.get config now key
    (result.map .entry, cache)
  | lookup key =>
    let (result, cache) := cache.lookup config now key
    (result.map fun (entry, status) => .looked entry status, cache)
  | put key entry =>
    let (result, cache) := cache.put config now key entry
    (result.map fun _ => .done, cache)
  | remove key =>
    let (result, cache) := cache.remove key
    (result.map fun _ => .done, cache)

/-- A put that succeeds stores its entry; a get or lookup that finds one uses it. -/
def CacheCall.event (now : ℚ) : CacheCall → Except CacheError CacheAnswer → Event CacheKey CacheEntry ℚ
  | get key, .ok (.entry (some _)) => .hit key now
  | lookup key, .ok (.looked (some _) _) => .hit key now
  | put key (some argument), .ok _ =>
    match validateEntry argument with
    | .ok entry => .store key entry now
    | .error _ => .other
  | _, _ => .other

/-- The cache after a sequence of calls, and what they did, the last one first. -/
inductive CacheRun (config : CacheConfig) : DiscoveryCache → List (Event CacheKey CacheEntry ℚ) → Prop
  | start : CacheRun config .empty []
  | call {cache : DiscoveryCache} {history : List (Event CacheKey CacheEntry ℚ)}
      (h : CacheRun config cache history) (now : ℚ) (call : CacheCall) :
    CacheRun config (call.run config now cache).2 (call.event now (call.run config now cache).1 :: history)

/-- The slots that a cache stands for after a history. -/
structure Follows (config : CacheConfig) (cache : DiscoveryCache) (history : List (Event CacheKey CacheEntry ℚ))
    (slots : CacheSlots) : Prop where
  explained : Explained history slots
  simulates : Simulates config cache slots
  fits : config.fits slots = true

/-- One lookup, with the event that it adds. -/
theorem Follows.lookup {config : CacheConfig} {cache : DiscoveryCache}
    {history : List (Event CacheKey CacheEntry ℚ)} {slots : CacheSlots} (h : Follows config cache history slots)
    (now : ℚ) (key : CacheKey) :
    ∃ slots', Follows config (cache.lookup config now key).2
      (match (cache.lookup config now key).1 with
        | .ok (some _, _) => .hit key now :: history
        | _ => .other :: history) slots' := by
  cases hk : validateKey key with
  | error error =>
    refine ⟨slots, ?_⟩
    unfold DiscoveryCache.lookup
    rw [hk]
    exact ⟨h.explained.other, h.simulates, h.fits⟩
  | ok key' =>
    have he := validateKey_ok hk
    subst he
    obtain ⟨status, hresult, -, hs⟩ := h.simulates.lookup now hk
    refine ⟨_, ?_, hs, fits_find h.simulates.nodup h.fits _ _ _⟩
    rw [hresult]
    cases hf : (Lru.find (config.fresh now) key' now slots).1 with
    | none => exact h.explained.find_none hf
    | some entry => exact (h.explained.find_some hf).2.2

theorem CacheRun.follows [LawfulZlib] {config : CacheConfig} {cache : DiscoveryCache}
    {history : List (Event CacheKey CacheEntry ℚ)} (h : CacheRun config cache history) :
    ∃ slots, Follows config cache history slots := by
  induction h with
  | start => exact ⟨[], .empty, ⟨.nil, rfl⟩, by simp [CacheConfig.fits]⟩
  | @call cache history h now call ih =>
    obtain ⟨slots, ih⟩ := ih
    cases call with
    | get key =>
      obtain ⟨slots', hs⟩ := ih.lookup now key
      refine ⟨slots', ?_⟩
      simp only [CacheCall.run, DiscoveryCache.get]
      revert hs
      cases hr : (cache.lookup config now key).1 with
      | error error => exact id
      | ok answer =>
        obtain ⟨entry, status⟩ := answer
        cases entry <;> exact id
    | lookup key =>
      obtain ⟨slots', hs⟩ := ih.lookup now key
      refine ⟨slots', ?_⟩
      simp only [CacheCall.run]
      revert hs
      cases hr : (cache.lookup config now key).1 with
      | error error => exact id
      | ok answer =>
        obtain ⟨entry, status⟩ := answer
        cases entry <;> exact id
    | put key argument =>
      simp only [CacheCall.run]
      cases hk : validateKey key with
      | error error =>
        refine ⟨slots, ?_⟩
        unfold DiscoveryCache.put
        rw [hk]
        cases argument <;> exact ⟨ih.explained.other, ih.simulates, ih.fits⟩
      | ok key' =>
        have he := validateKey_ok hk
        subst he
        rcases ih.simulates.put now hk argument with
          ⟨error, hput⟩ | ⟨passed, entry, cache', weight, rfl, hv, hput, hs, -⟩
        · refine ⟨without key' slots, ?_⟩
          have hsublist := Lru.without_sublist key' slots
          rw [hput]
          cases argument <;> exact ⟨ih.explained.other.sublist hsublist, ih.simulates.removeValidated key',
            fits_sublist ih.fits hsublist⟩
        · rw [hput]
          simp only [CacheCall.event, Except.map, hv]
          exact ⟨_, ih.explained.store _ key' ⟨entry, now, weight⟩, hs, fits_store _ _ _⟩
    | remove key =>
      simp only [CacheCall.run]
      cases hk : validateKey key with
      | error error =>
        refine ⟨slots, ?_⟩
        unfold DiscoveryCache.remove
        rw [hk]
        exact ⟨ih.explained.other, ih.simulates, ih.fits⟩
      | ok key' =>
        have he := validateKey_ok hk
        subst he
        obtain ⟨-, hs⟩ := ih.simulates.remove hk
        have hsublist := Lru.without_sublist key' slots
        refine ⟨without key' slots, ?_, hs, fits_sublist ih.fits hsublist⟩
        exact ih.explained.other.sublist hsublist

/-! ## What a caller sees -/

section
variable {config : CacheConfig} {cache : DiscoveryCache} {history : List (Event CacheKey CacheEntry ℚ)}
  {slots : CacheSlots}

theorem Follows.account (h : Follows config cache history slots) :
    cache.bytes = storedSize cache.entries.entries ∧ cache.bytes ≤ config.max_bytes ∧
      cache.entries.entries.length ≤ config.max_entries := by
  have hbytes := h.simulates.bytes
  rw [← represents_size h.simulates.entries] at hbytes
  have hfits := (represents_fits h.simulates.entries).mp h.fits
  simp only [CacheConfig.Exceeded, not_or, not_lt] at hfits
  exact ⟨hbytes, by omega, hfits.1⟩

theorem lookup_key {now : ℚ} {key : CacheKey} {answer : Option CacheEntry × CacheLookupStatus}
    (h : (cache.lookup config now key).1 = .ok answer) : validateKey key = .ok key := by
  cases hk : validateKey key with
  | error error =>
    unfold DiscoveryCache.lookup at h
    rw [hk] at h
    cases h
  | ok key' => rw [validateKey_ok hk]

theorem Follows.found (h : Follows config cache history slots) {now : ℚ} {key : CacheKey} {entry : CacheEntry}
    {status : CacheLookupStatus} (hl : (cache.lookup config now key).1 = .ok (some entry, status)) :
    status = .hit ∧ Lru.lastStored key history = some entry ∧
      ∃ used, Lru.lastUsed key history = some used ∧ now - used < config.idle_ttl_seconds := by
  obtain ⟨status', hresult, hstatus, -⟩ := h.simulates.lookup now (lookup_key hl)
  rw [hresult] at hl
  obtain ⟨hfound, rfl⟩ := Prod.mk.inj (Except.ok.inj hl)
  obtain ⟨hstored, ⟨used, hused, hfresh⟩, -⟩ := h.explained.find_some hfound
  refine ⟨hstatus.mpr (by rw [hfound]; rfl), hstored, used, hused, ?_⟩
  simpa [CacheConfig.fresh] using hfresh

/-- A stored entry is missed only when it has been idle for too long. -/
theorem Follows.missed (h : Follows config cache history slots) {now : ℚ} {key : CacheKey}
    {status : CacheLookupStatus} (hl : (cache.lookup config now key).1 = .ok (none, status)) :
    cache.entries.get? key = none ∨
      ∃ used, Lru.lastUsed key history = some used ∧ config.idle_ttl_seconds ≤ now - used := by
  obtain ⟨status', hresult, -, -⟩ := h.simulates.lookup now (lookup_key hl)
  rw [hresult] at hl
  obtain ⟨hfound, -⟩ := Prod.mk.inj (Except.ok.inj hl)
  rcases h.simulates.get? key with ⟨hn, -, -⟩ | ⟨stored, slot, -, hs, hmem, -⟩
  · exact .inl hn
  · right
    refine ⟨slot.used, h.explained.used _ hmem, ?_⟩
    unfold Lru.find at hfound
    rw [hs] at hfound
    by_cases hfresh : config.fresh now slot.used = true
    · simp only [if_pos hfresh] at hfound
      cases hfound
    · simpa [CacheConfig.fresh] using hfresh

/-- What is evicted was used before what is kept. -/
theorem Follows.older (h : Follows config cache history slots) {key : CacheKey}
    {evicted kept : List (CacheKey × StoredEntry)}
    (hothers : (cache.entries.deleteWhere fun k _ => k = key).entries = evicted ++ kept) :
    ∀ e ∈ evicted, ∀ e' ∈ kept, Lru.age e'.1 history < Lru.age e.1 history := by
  have hkeys := represents_keys h.simulates.entries
  have hrecency : (cache.entries.entries.map Prod.fst).Pairwise fun k k' => Lru.age k' history < Lru.age k history := by
    rw [hkeys, List.pairwise_map]
    exact h.explained.recency
  rw [List.pairwise_map] at hrecency
  have hsublist : (evicted ++ kept).Sublist cache.entries.entries := hothers ▸ List.filter_sublist
  exact (List.pairwise_append.mp (hrecency.sublist hsublist)).2.2

theorem put_key {now : ℚ} {key : CacheKey} {argument : Option EntryArgument}
    (h : (cache.put config now key argument).1 = .ok ()) : validateKey key = .ok key := by
  cases hk : validateKey key with
  | error error =>
    unfold DiscoveryCache.put at h
    rw [hk] at h
    cases h
  | ok key' => rw [validateKey_ok hk]

theorem Follows.stores [LawfulZlib] (h : Follows config cache history slots) {now : ℚ} {key : CacheKey}
    {argument : Option EntryArgument} (hp : (cache.put config now key argument).1 = .ok ()) :
    ∃ passed entry evicted kept stored, argument = some passed ∧ validateEntry passed = .ok entry ∧
      Stores config key entry cache (cache.put config now key argument).2 evicted kept stored ∧
      ∀ e ∈ evicted, ∀ e' ∈ kept, Lru.age e'.1 history < Lru.age e.1 history := by
  rcases h.simulates.put now (put_key hp) argument with
    ⟨error, hput⟩ | ⟨passed, entry, cache', weight, ha, hv, hput, -, evicted, kept, stored, hstores⟩
  · rw [hput] at hp
    cases hp
  · rw [hput]
    exact ⟨passed, entry, evicted, kept, stored, ha, hv, hstores, h.older hstores.others⟩

theorem Follows.rejected [LawfulZlib] (h : Follows config cache history slots) {now : ℚ} {key : CacheKey}
    {argument : Option EntryArgument} {error : CacheError} (hk : validateKey key = .ok key)
    (hp : (cache.put config now key argument).1 = .error error) :
    (cache.put config now key argument).2.entries.get? key = none := by
  rcases h.simulates.put now hk argument with ⟨error', hput⟩ | ⟨_, _, cache', _, -, -, hput, -⟩
  · rw [hput]
    exact removeValidated_get? key cache
  · rw [hput] at hp
    cases hp

end

/-- After any run the account is right and within the bounds, a lookup finds
what was last put and not idle, and a put evicts by age and need, or leaves
its key out. -/
theorem cache_refines_lru [LawfulZlib] {config : CacheConfig} {cache : DiscoveryCache}
    {history : List (Event CacheKey CacheEntry ℚ)} (h : CacheRun config cache history) :
    (cache.bytes = storedSize cache.entries.entries ∧ cache.bytes ≤ config.max_bytes ∧
      cache.entries.entries.length ≤ config.max_entries) ∧
    (∀ now key entry status, (cache.lookup config now key).1 = .ok (some entry, status) →
      status = .hit ∧ Lru.lastStored key history = some entry ∧
      ∃ used, Lru.lastUsed key history = some used ∧ now - used < config.idle_ttl_seconds) ∧
    (∀ now key entry, (cache.get config now key).1 = .ok (some entry) →
      Lru.lastStored key history = some entry ∧
      ∃ used, Lru.lastUsed key history = some used ∧ now - used < config.idle_ttl_seconds) ∧
    (∀ now key status, (cache.lookup config now key).1 = .ok (none, status) →
      cache.entries.get? key = none ∨
      ∃ used, Lru.lastUsed key history = some used ∧ config.idle_ttl_seconds ≤ now - used) ∧
    (∀ now key argument, (cache.put config now key argument).1 = .ok () →
      ∃ passed entry evicted kept stored, argument = some passed ∧ validateEntry passed = .ok entry ∧
        Stores config key entry cache (cache.put config now key argument).2 evicted kept stored ∧
        ∀ e ∈ evicted, ∀ e' ∈ kept, Lru.age e'.1 history < Lru.age e.1 history) ∧
    ∀ now key argument error, validateKey key = .ok key →
      (cache.put config now key argument).1 = .error error →
      (cache.put config now key argument).2.entries.get? key = none := by
  obtain ⟨slots, hf⟩ := h.follows
  refine ⟨hf.account, ?_, ?_, ?_, ?_, ?_⟩
  · intro now key entry status hl
    exact hf.found hl
  · intro now key entry hg
    have hl : ∃ status, (cache.lookup config now key).1 = .ok (some entry, status) := by
      unfold DiscoveryCache.get at hg
      cases hr : (cache.lookup config now key).1 with
      | error error =>
        simp only [hr] at hg
        cases hg
      | ok answer =>
        simp only [hr] at hg
        have ha := Except.ok.inj hg
        exact ⟨answer.2, congrArg Except.ok (Prod.ext ha rfl)⟩
    obtain ⟨status, hl⟩ := hl
    exact (hf.found hl).2
  · intro now key status hl
    exact hf.missed hl
  · intro now key argument hp
    exact hf.stores hp
  · intro now key argument error hk hp
    exact hf.rejected hk hp

end

def sampleBody : Bytes := List.replicate 40 97

def sampleEncoded : Bytes := [120, 1, 75, 76, 36, 14, 0, 0, 54, 235, 15, 41]

/-- Compresses the sample as zlib does; any other text only gets a mark in front. -/
@[reducible] def sampleZlib : Zlib where
  compress body := if body = sampleBody then some sampleEncoded else some (0 :: body)
  decompress data limit :=
    if data = sampleEncoded then some ⟨sampleBody.take limit, sampleBody.length < limit, [], []⟩
    else match data with
      | 0 :: body => some ⟨body, true, [], []⟩
      | _ => none

theorem sampleZlib_lawful : @LawfulZlib sampleZlib := by
  let _ := sampleZlib
  refine ⟨?_⟩
  intro body encoded limit hc hlimit
  change (if body = sampleBody then some sampleEncoded else some (0 :: body)) = some encoded at hc
  by_cases hb : body = sampleBody
  · rw [if_pos hb] at hc
    cases hc
    subst hb
    change some (Decompressed.mk (sampleBody.take limit) (decide (sampleBody.length < limit)) [] []) = _
    rw [List.take_of_length_le hlimit.le, decide_eq_true hlimit]
  · rw [if_neg hb] at hc
    cases hc
    rfl

def sampleCacheConfig : CacheConfig := ⟨1000, 1000, 2, 7200, true, by decide⟩

def sampleCacheKey : CacheKey := ⟨1, ("/app/installations" : Str), []⟩

def sampleCacheEntry : CacheEntry := ⟨sampleBody, ("\"v1\"" : Str), []⟩

def sampleCachePut : CacheCall := .put sampleCacheKey (some sampleCacheEntry.argument)

/-- The sample is found again while it is not idle for long. -/
theorem sampleCache_found :
    let _ := sampleZlib
    Lru.lastStored sampleCacheKey
        [sampleCachePut.event 0 (sampleCachePut.run sampleCacheConfig 0 .empty).1] = some sampleCacheEntry ∧
      ∃ used, Lru.lastUsed sampleCacheKey
          [sampleCachePut.event 0 (sampleCachePut.run sampleCacheConfig 0 .empty).1] = some used ∧
        10 - used < 7200 := by
  let _ := sampleZlib
  have _ := sampleZlib_lawful
  have hrun := CacheRun.call (CacheRun.start : CacheRun sampleCacheConfig _ _) 0 sampleCachePut
  exact ((cache_refines_lru hrun).2.1 10 sampleCacheKey sampleCacheEntry .hit (by decide +kernel)).2

end ExtraCodeowners
