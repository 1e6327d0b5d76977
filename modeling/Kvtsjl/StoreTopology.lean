import Mathlib.Algebra.GroupWithZero.Nat
import Kvtsjl.Writes

/-
  The store a topology makes: `RecordTopologyMixin` and `StoreTopologyMixin`.
  Its state is a `Node`. A composition is `Topology.store` at its own declaration, with
  the few operations its class overrides replaced.
-/

namespace Kvtsjl

open Assoc (Dict)
open Effects Prog

/-- `require_write_clock_supported`. -/
def requireWriteClockSupported {σ : Type} (createdAt : Option Instant) (allowed : Bool)
    (backend : String) : M σ Unit :=
  if createdAt.isSome ∧ ¬ allowed then
    raise (.ttlUnsupported (backend ++ " does not support created_at with the current provision"))
  else pure ()

namespace Topology

variable {S K V P : Type} [DecidableEq K]

/-- Refuse a write before any target sees it. -/
def admitWrite {σ : Type} (T : Topology S K V P) (typeName : String) (options : WriteOptions) :
    M σ Unit :=
  requireWriteClockSupported options.createdAt T.supportsWriteClock typeName

/-- The candidates of one page that a read confirms. -/
def confirm (T : Topology S K V P) (includeValues : Bool) (page : List K) :
    M S (List (K × Option V)) := do
  if includeValues then
    let found ← T.batchRead page
    return page.filterMap fun k => (found.get? k).map fun v => (k, some v)
  else
    let present ← T.batchExists page
    return (page.filter fun k => k ∈ present).map fun k => (k, none)

/-- The targets whose keys are the record's keys. -/
def scanned (T : Topology S K V P) : List (AnyTarget S K V P) :=
  match T.authority with
  | some authority => [authority]
  | none => T.components

/-- Every key of the scanned targets, each once, in the order first seen. -/
def unionKeys (T : Topology S K V P) (query : ScanQuery K) : M S (List K) := do
  let scans ← T.scanned.mapM fun t => t.scanEntries { query with includeValues := false }
  return Dict.unique (scans.flatten.map Prod.fst)

/-- What a scan yields: the authority's own scan, where it holds the whole record, else
    the parts' keys, each confirmed by a read. -/
def scanEntries (T : Topology S K V P) (query : ScanQuery K) : M S (List (K × Option V)) :=
  match T.wholeAuthority with
  | some authority => authority.scanEntries query
  | none => do
    let keys ← T.unionKeys query
    let pages ← (keys.toChunks query.pageSize).mapM (T.confirm query.includeValues)
    return pages.flatten

/-- Only the authority knows when the record expires. -/
def expiredKeys (T : Topology S K V P) (now : Option Instant) (limit : Int) : M S (List K) :=
  match T.authority with
  | some authority => authority.expiredKeys now limit
  | none =>
    if limit < 1 then raise (.valueError ("limit must be >= 1, got " ++ toString limit))
    else pure []

/-- This node's queued operations plus any beneath it. -/
def pending (T : Topology S K V P) (n : Node S K V P) : Nat :=
  n.syncs.length + (T.children.map fun c => c.pendingIndexSyncs n.media).sum

/-- Run this node's queued operations, then those beneath it. Every node is visited
    even when one fails. -/
def flush (T : Topology S K V P) : M (Node S K V P) Unit := do
  let failures ← flushAll
    [flushSyncs, Node.onMedia (flushEach (T.children.map fun c => c.flushIndexSyncs))] []
  when (failures ≠ [])
    (raise (.partialSync "deferred index syncs failed after commit" failures))

def discard (T : Topology S K V P) : M (Node S K V P) Unit := do
  discardSyncs
  Node.onMedia (forM T.children fun c => c.discardIndexSyncs)

def onNode (p : MissingPage S K V) : MissingPage (Node S K V P) K V := p.zoom Node.mediaLens

/-- The store a topology makes. `typeName` is the name of the composition's class. -/
def store (T : Topology S K V P) (typeName : String) : KvStore (Node S K V P) K V where
  get key := Node.onMedia (T.read key)
  batchGet keys := Node.onMedia (T.batchRead keys)
  existsKey key := Node.onMedia (T.existsKey key)
  batchExists keys := Node.onMedia (T.batchExists keys)
  stat key := Node.onMedia (if T.assembled then defaultStat T.existsKey key else T.stat key)
  batchStat keys :=
    Node.onMedia (if T.assembled then defaultBatchStat T.batchExists keys else T.batchStat keys)
  batchReadVersioned keys := Node.onMedia (T.batchReadVersioned keys)
  batchWriteIfUnchanged writes ttl := do
    forM writes.entries fun e => T.admitWrite typeName ⟨ttl, e.2.createdAt⟩
    if writes.entries.isEmpty then pure ∅ else T.batchWriteIfUnchanged writes ⟨ttl, none⟩
  set key value options := do
    T.admitWrite typeName options
    T.write key value options
  batchSet items options := do
    T.admitWrite typeName options
    T.batchWrite items options
  delete := T.remove .delete
  batchDelete keys := T.batchRemove .delete keys none
  unset := T.remove .unset
  batchUnset keys := T.batchRemove .unset keys none
  createsEntries := T.createsEntries
  supportsWriteClock := T.supportsWriteClock
  writesAreDeferred := T.deferred
  expiredKeys now limit := Node.onMedia (T.expiredKeys now limit)
  gcExpiredKeys maxEntries := T.gc maxEntries .bestEffort
  scanEntries query := Node.onMedia (T.scanEntries query)
  missingPages pageSize := Node.onMedia (List.map onNode <$> T.missingPages pageSize)
  pendingIndexSyncs := T.pending
  flushIndexSyncs := T.flush
  discardIndexSyncs := T.discard

end Topology

end Kvtsjl
