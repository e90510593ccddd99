import ExtraCodeowners.Lib.Dict
import ExtraCodeowners.Lib.Lru
import ExtraCodeowners.Lib.Regex
import ExtraCodeowners.Unicode
import Mathlib.Algebra.BigOperators.Group.List.Basic
import Mathlib.Algebra.Order.Ring.Rat

/-!
# The discovery cache

A bounded map of response bodies, least recently used first. The account of
its bytes is kept by difference; compression changes a size between the check
and the account.
-/

namespace ExtraCodeowners

/-! ## Entries -/

abbrev Bytes := List UInt8

structure CacheEntry where
  body : Bytes
  etag : Str
  links : List Str
  deriving DecidableEq

structure StoredEntry where
  entry : CacheEntry
  last_used : ℚ
  size : Nat
  compressed : Bool

structure CacheKey where
  installation_id : Int
  path : Str
  query : Str
  deriving DecidableEq

inductive CacheError where
  | TypeError (message : Str)
  | ValueError (message : Str)
  | KeyError
  deriving DecidableEq

def MAX_KEY_BYTES : Nat := 4096
def MAX_LINKS : Nat := 128
def MAX_LINK_BYTES : Nat := 16 * 1024
def MAX_ETAG_BYTES : Nat := 512

def validateKey (key : CacheKey) : Except CacheError CacheKey :=
  if key.installation_id ≤ 0 then
    .error (.ValueError ("installation_id must be a positive integer" : Str))
  else if !startsWith '/' key.path then
    .error (.ValueError ("path must be an absolute request path" : Str))
  else if utf8Length key.path + utf8Length key.query > MAX_KEY_BYTES then
    .error (.ValueError ("cache key is too large" : Str))
  else .ok key

/-- `[^"\x00-\x1f\x7f]` -/
def isEtagChar (c : Char) : Bool := c ≠ '"' && 32 ≤ c.toNat && c.toNat ≠ 127

/-- `^(?:W/)?"[^"\x00-\x1f\x7f]*"$` -/
def etagRe : Regex Char :=
  .seq [.opt (.seq [.sat (· == 'W'), .sat (· == '/')]), .sat (· == '"'), .star (.sat isEtagChar),
    .sat (· == '"')]

/-- What a caller passes as an entry: a field of another type is none. -/
structure EntryArgument where
  body : Option Bytes
  etag : Option Str
  links : Option (List (Option Str))

def CacheEntry.argument (entry : CacheEntry) : EntryArgument :=
  ⟨some entry.body, some entry.etag, some (entry.links.map some)⟩

def validateLink : Option Str → Except CacheError Str
  | none => .error (.TypeError ("pagination links must be strings" : Str))
  | some link =>
    if !link.all isAscii then
      .error (.ValueError ("pagination links must contain ASCII only" : Str))
    else if link.any fun c => c.toNat < 32 || c.toNat == 127 then
      .error (.ValueError ("pagination links must not contain control characters" : Str))
    else .ok link

def validateLinks : Option (List (Option Str)) → Except CacheError (List Str)
  | none => .error (.ValueError ("pagination links exceed their bound" : Str))
  | some links =>
    if links.length > MAX_LINKS then .error (.ValueError ("pagination links exceed their bound" : Str))
    else
      match links.mapM validateLink with
      | .error error => .error error
      | .ok links =>
        if (links.map List.length).sum > MAX_LINK_BYTES then
          .error (.ValueError ("pagination links exceed their byte bound" : Str))
        else .ok links

def validateEntry (entry : EntryArgument) : Except CacheError CacheEntry :=
  match entry.body, entry.etag with
  | none, _ => .error (.TypeError ("cache body must be bytes" : Str))
  | _, none => .error (.TypeError ("ETag must be a string" : Str))
  | some body, some etag =>
    if !etag.all isAscii then
      .error (.ValueError ("ETag must contain printable ASCII only" : Str))
    else if etag.length > MAX_ETAG_BYTES ∨ !etagRe.fullmatch etag then
      .error (.ValueError ("ETag must be one bounded quoted or weak quoted tag" : Str))
    else
      match validateLinks entry.links with
      | .error error => .error error
      | .ok links => .ok ⟨body, etag, links⟩

def entrySize (key : CacheKey) (entry : CacheEntry) : Nat :=
  (decimal key.installation_id.toNat).length + utf8Length key.path + utf8Length key.query +
    entry.body.length + entry.etag.length + (entry.links.map List.length).sum

/-! ## Compression -/

structure Decompressed where
  body : Bytes
  eof : Bool
  unconsumed_tail : Bytes
  unused_data : Bytes

/-- `zlib.compress` at level one and `decompressobj().decompress` with a limit
on its output; none is a `zlib.error`. -/
class Zlib where
  compress : Bytes → Option Bytes
  decompress : Bytes → Nat → Option Decompressed

/-- What is compressed comes back whole when the limit leaves room for it. -/
class LawfulZlib [Zlib] : Prop where
  inverts : ∀ body encoded : Bytes, ∀ limit : Nat, Zlib.compress body = some encoded → body.length < limit →
    Zlib.decompress encoded limit = some ⟨body, true, [], []⟩

/-! ## The cache -/

structure CacheConfig where
  max_bytes : Nat
  max_entry_bytes : Nat
  max_entries : Nat
  idle_ttl_seconds : ℚ
  compress : Bool
  positive : 0 < max_bytes ∧ 0 < max_entry_bytes ∧ 0 < max_entries ∧ 0 < idle_ttl_seconds

/-- The entries of the ordered dictionary, the oldest first, and the account. -/
structure DiscoveryCache where
  entries : Dict CacheKey StoredEntry
  bytes : Int

inductive CacheLookupStatus where
  | hit
  | absent
  | expired
  deriving DecidableEq

def DiscoveryCache.empty : DiscoveryCache := ⟨∅, 0⟩

def DiscoveryCache.removeValidated (key : CacheKey) (cache : DiscoveryCache) : DiscoveryCache :=
  match cache.entries.get? key with
  | none => cache
  | some stored => ⟨cache.entries.deleteWhere fun k _ => k = key, cache.bytes - stored.size⟩

def DiscoveryCache.remove (key : CacheKey) (cache : DiscoveryCache) : Except CacheError Unit × DiscoveryCache :=
  match validateKey key with
  | .error error => (.error error, cache)
  | .ok key => (.ok (), cache.removeValidated key)

section
variable [Zlib]

def StoredEntry.decode (config : CacheConfig) (stored : StoredEntry) : Option CacheEntry :=
  if stored.compressed then
    match Zlib.decompress stored.entry.body (config.max_entry_bytes + 1) with
    | none => none
    | some decoder =>
      if decoder.body.length > config.max_entry_bytes ∨ !decoder.eof ∨ decoder.unconsumed_tail ≠ [] ∨
          decoder.unused_data ≠ [] then none
      else some { stored.entry with body := decoder.body }
  else some stored.entry

def DiscoveryCache.lookup (config : CacheConfig) (now : ℚ) (key : CacheKey) (cache : DiscoveryCache) :
    Except CacheError (Option CacheEntry × CacheLookupStatus) × DiscoveryCache :=
  match validateKey key with
  | .error error => (.error error, cache)
  | .ok key =>
    match cache.entries.get? key with
    | none => (.ok (none, .absent), cache)
    | some stored =>
      if now - stored.last_used ≥ config.idle_ttl_seconds then
        (.ok (none, .expired), cache.removeValidated key)
      else
        match stored.decode config with
        | none => (.ok (none, .absent), cache.removeValidated key)
        | some entry =>
          let entries := (cache.entries.deleteWhere fun k _ => k = key).set key
            { stored with last_used := now }
          (.ok (some entry, .hit), { cache with entries := entries })

def DiscoveryCache.get (config : CacheConfig) (now : ℚ) (key : CacheKey) (cache : DiscoveryCache) :
    Except CacheError (Option CacheEntry) × DiscoveryCache :=
  let (result, cache) := cache.lookup config now key
  (result.map Prod.fst, cache)

def encodeEntry (config : CacheConfig) (now : ℚ) (size : Nat) (entry : CacheEntry) : StoredEntry :=
  if config.compress then
    let encoded := (Zlib.compress entry.body).getD entry.body
    if encoded.length < entry.body.length then
      ⟨{ entry with body := encoded }, now, size - (entry.body.length - encoded.length), true⟩
    else ⟨entry, now, size, false⟩
  else ⟨entry, now, size, false⟩

/-- The loop of `put`: `popitem` fails on an empty dictionary. -/
def evict (config : CacheConfig) :
    (entries : List (CacheKey × StoredEntry)) → (entries.map Prod.fst).Nodup → Int →
      Except CacheError Unit × DiscoveryCache
  | [], nodup, bytes =>
    (if bytes > config.max_bytes then .error .KeyError else .ok (), ⟨⟨[], nodup⟩, bytes⟩)
  | e :: entries, nodup, bytes =>
    if (e :: entries).length > config.max_entries ∨ bytes > config.max_bytes then
      evict config entries (List.nodup_cons.mp nodup).2 (bytes - e.2.size)
    else (.ok (), ⟨⟨e :: entries, nodup⟩, bytes⟩)

def DiscoveryCache.put (config : CacheConfig) (now : ℚ) (key : CacheKey) (entry : Option EntryArgument)
    (cache : DiscoveryCache) : Except CacheError Unit × DiscoveryCache :=
  match validateKey key with
  | .error error => (.error error, cache)
  | .ok key =>
    let cache := cache.removeValidated key
    match entry with
    | none => (.error (.TypeError ("entry must be a CacheEntry" : Str)), cache)
    | some argument =>
      match validateEntry argument with
      | .error error => (.error error, cache)
      | .ok entry =>
        let size := entrySize key entry
        if size > config.max_entry_bytes ∨ size > config.max_bytes then
          (.error (.ValueError ("cache entry exceeds its configured size bound" : Str)), cache)
        else
          let stored := encodeEntry config now size entry
          let entries := cache.entries.set key stored
          evict config entries.entries entries.nodup (cache.bytes + stored.size)

end

end ExtraCodeowners
