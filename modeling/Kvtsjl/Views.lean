import Kvtsjl.StoreTopology

/-
  The invertible views: `imap` over values and `imap_keys` over keys.
  A view has no state of its own. What it does not forward is the default of the class
  it derives from, as in the source.
-/

namespace Kvtsjl

open Assoc (Dict)
open Effects Prog

/-- `ExpiringMixin.expired_keys`: nothing to collect by default. -/
def defaultExpiredKeys {σ K : Type} (limit : Int) : M σ (List K) :=
  if limit < 1 then raise (.valueError ("limit must be >= 1, got " ++ toString limit))
  else pure []

/-! ## Values -/

section Values

variable {σ K T U : Type} [DecidableEq K]

def mapValues (forward : T → U) (d : Dict K T) : Dict K U := d.map fun _ v => forward v

/-- A page seen through a value view. -/
def MissingPage.mapValues (forward : T → U) (p : MissingPage σ K T) : MissingPage σ K U where
  listed := p.listed
  missing := p.missing
  read ks := Kvtsjl.mapValues forward <$> p.read ks
  stat := p.stat

/-- What a view asks of the store behind it. Only the version is passed on. -/
def inverseWrite (inverse : U → T) (w : ConditionalWrite U) : ConditionalWrite T :=
  ⟨⟨none, w.seen.version⟩,
    match w.change with
    | .put u => .put (inverse u)
    | .remove => .remove,
    w.createdAt⟩

/-- `IMappedKvStore`: store `inverse u`, expose `forward t`. -/
def imapStore (s : KvStore σ K T) (forward : T → U) (inverse : U → T) : KvStore σ K U where
  get key := Option.map forward <$> s.get key
  batchGet keys :=
    if keys.isEmpty then pure Dict.empty
    else mapValues forward <$> s.batchGet (Dict.unique keys)
  existsKey := s.existsKey
  batchExists := s.batchExists
  stat := s.stat
  batchStat := s.batchStat
  batchReadVersioned keys :=
    Dict.map (fun _ seen => ⟨seen.value.map forward, seen.version⟩) <$> s.batchReadVersioned keys
  batchWriteIfUnchanged writes ttl :=
    s.batchWriteIfUnchanged (writes.map fun _ w => inverseWrite inverse w) ttl
  set key value options := s.set key (inverse value) options
  batchSet := defaultBatchSet fun key value options => s.set key (inverse value) options
  delete := s.delete
  batchDelete := countTrue s.delete
  unset := s.unset
  batchUnset := s.batchUnset
  createsEntries := s.createsEntries
  supportsWriteClock := s.supportsWriteClock
  writesAreDeferred := false
  expiredKeys _ limit := defaultExpiredKeys limit
  gcExpiredKeys := s.gcExpiredKeys
  scanEntries query :=
    List.map (fun e => (e.1, e.2.map forward)) <$>
      s.scanEntries { query with includeValues := true }
  missingPages pageSize := List.map (MissingPage.mapValues forward) <$> s.missingPages pageSize
  pendingIndexSyncs := s.pendingIndexSyncs
  flushIndexSyncs := flushEach [s.flushIndexSyncs]
  discardIndexSyncs := s.discardIndexSyncs

end Values

/-! ## Keys -/

section Keys

variable {σ K SK V : Type} [DecidableEq K] [DecidableEq SK]

/-- The caller's key each stored key stands for. -/
def callerKeys (toStore : K → SK) (keys : List K) : Dict SK K :=
  keys.foldl (fun d key => d.set (toStore key) key) Dict.empty

/-- A page under the keys a view shows. Reads go back to the stored ones. -/
def MissingPage.mapKeys (outward : SK → K) (p : MissingPage σ SK V) : MissingPage σ K V where
  listed := p.listed.map outward
  missing := p.missing.map outward
  read ks := do
    let stored := p.listed.foldl (fun d sk => d.set (outward sk) sk) (Dict.empty : Dict K SK)
    let found ← p.read (ks.filterMap stored.get?)
    return Dict.ofKeys (found.keys.map outward) fun k => (stored.get? k).bind found.get?
  stat ks := do
    let stored := p.listed.foldl (fun d sk => d.set (outward sk) sk) (Dict.empty : Dict K SK)
    let found ← p.stat (ks.filterMap stored.get?)
    return Dict.ofKeys (found.keys.map outward) fun k => (stored.get? k).bind found.get?

def requireFromStore {τ : Type} (fromStore : Option (SK → K)) : M τ (SK → K) :=
  match fromStore with
  | some f => pure f
  | none => raise (.scanUnsupported
      "imap_keys without from_store cannot recover caller keys (e.g. for scan)")

/-- `IMappedKeysKvStore`: caller keys over a store keyed by `toStore`. -/
def imapKeysStore (s : KvStore σ SK V) (toStore : K → SK) (fromStore : Option (SK → K)) :
    KvStore σ K V where
  get key := s.get (toStore key)
  batchGet keys :=
    if keys.isEmpty then pure Dict.empty
    else do
      let found ← s.batchGet (Dict.unique ((Dict.unique keys).map toStore))
      return Dict.ofKeys keys fun key => found.get? (toStore key)
  existsKey key := s.existsKey (toStore key)
  batchExists keys := do
    let held ← s.batchExists (callerKeys toStore keys).keys
    return ((callerKeys toStore keys).entries.filterMap fun e =>
      if e.1 ∈ held then some e.2 else none).toFinset
  stat key := s.stat (toStore key)
  batchStat keys := do
    let found ← s.batchStat (callerKeys toStore keys).keys
    return Dict.ofKeys ((callerKeys toStore keys).entries.map Prod.snd)
      fun key => found.get? (toStore key)
  batchReadVersioned keys := do
    let found ← s.batchReadVersioned (Dict.unique ((Dict.unique keys).map toStore))
    return Dict.ofKeys keys fun key => found.get? (toStore key)
  batchWriteIfUnchanged writes ttl := do
    let written ← s.batchWriteIfUnchanged
      (writes.entries.foldl (fun d e => d.set (toStore e.1) e.2) Dict.empty) ttl
    return (writes.keys.filter fun key => toStore key ∈ written).toFinset
  set key := s.set (toStore key)
  batchSet := defaultBatchSet fun key => s.set (toStore key)
  delete key := s.delete (toStore key)
  batchDelete := countTrue fun key => s.delete (toStore key)
  unset key := s.unset (toStore key)
  batchUnset keys := s.batchUnset (keys.map toStore)
  createsEntries := s.createsEntries
  supportsWriteClock := s.supportsWriteClock
  writesAreDeferred := false
  expiredKeys now limit := do
    let outward ← requireFromStore fromStore
    return (← s.expiredKeys now limit).map outward
  gcExpiredKeys maxEntries := do
    let outward ← requireFromStore fromStore
    return (← s.gcExpiredKeys maxEntries).map outward
  scanEntries query := do
    let outward ← requireFromStore fromStore
    if query.keyPrefix.isSome then
      raise (.scanUnsupported
        "prefix scan unsupported through imap_keys (prefix is in caller key space)")
    let rows ← s.scanEntries ⟨none, query.includeValues, query.pageSize⟩
    return rows.map fun e => (outward e.1, e.2)
  missingPages pageSize := do
    let outward ← requireFromStore fromStore
    return (← s.missingPages pageSize).map (MissingPage.mapKeys outward)
  pendingIndexSyncs := s.pendingIndexSyncs
  flushIndexSyncs := flushEach [s.flushIndexSyncs]
  discardIndexSyncs := s.discardIndexSyncs

end Keys

end Kvtsjl
