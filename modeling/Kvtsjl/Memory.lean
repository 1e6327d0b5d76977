import Kvtsjl.Keys
import Kvtsjl.DictMap

/-
  `MemoryKvStore`: a leaf store over dictionaries held in memory.
  Views of one store share a `MemoryRoot`. An entry is known by its identity: every
  write stores a new one, numbered in the order they were made. `clock` is what
  `time.time()` answers, the same throughout one operation.
-/

namespace Kvtsjl

open Assoc (Dict)
open Effects Prog

structure Entry (VB : Type) where
  /-- Which object it is. -/
  id : Nat
  valueBlob : VB
  expiresAt : Option Instant
  createdAt : Instant
  writtenAt : Instant
deriving DecidableEq

/-- What to do with an expired entry that a read meets. -/
inductive ExpiryGc where
  | lazyDelete
  | hide
deriving DecidableEq, Repr

structure MemoryRoot (α VB : Type) [DecidableEq α] where
  collections : Dict String (Dict (List α) (Entry VB))
  nextId : Nat
  clock : Instant
  fresh : ∀ c d p e, collections.get? c = some d → d.get? p = some e → e.id < nextId

namespace MemoryRoot

variable {α VB : Type} [DecidableEq α]

def empty (clock : Instant) : MemoryRoot α VB := ⟨Dict.empty, 0, clock, by simp⟩

/-- The bucket of a collection. One never used is empty. -/
def bucket (r : MemoryRoot α VB) (name : String) : Dict (List α) (Entry VB) :=
  (r.collections.get? name).getD Dict.empty

theorem bucket_fresh {r : MemoryRoot α VB} {name : String} {p : List α} {e : Entry VB}
    (h : (r.bucket name).get? p = some e) : e.id < r.nextId := by
  unfold bucket at h
  cases hd : r.collections.get? name with
  | none => simp [hd] at h
  | some d => exact r.fresh name d p e hd (by simpa [hd] using h)

/-- Replace a bucket by one with no entry but those of the old one and new ones. -/
def setBucket (r : MemoryRoot α VB) (name : String) (d : Dict (List α) (Entry VB)) (next : Nat)
    (hn : r.nextId ≤ next) (hd : ∀ p e, d.get? p = some e → e.id < next) : MemoryRoot α VB where
  collections := r.collections.set name d
  nextId := next
  clock := r.clock
  fresh c d' p e hc hp := by
    rw [Dict.get?_set] at hc
    split at hc
    · rw [← Option.some.inj hc] at hp
      exact hd p e hp
    · exact Nat.lt_of_lt_of_le (r.fresh c d' p e hc hp) hn

/-- `bucket[pk] = _Entry(…)` -/
def put (r : MemoryRoot α VB) (name : String) (p : List α) (blob : VB)
    (expiresAt : Option Instant) (createdAt : Instant) : MemoryRoot α VB :=
  r.setBucket name ((r.bucket name).set p ⟨r.nextId, blob, expiresAt, createdAt, r.clock⟩)
    (r.nextId + 1) (Nat.le_succ _) (by
      intro q e h
      rw [Dict.get?_set] at h
      split at h
      · rw [← Option.some.inj h]; exact Nat.lt_succ_self _
      · exact Nat.lt_succ_of_lt (bucket_fresh h))

/-- `bucket.pop(pk, None)` -/
def pop (r : MemoryRoot α VB) (name : String) (p : List α) : MemoryRoot α VB :=
  r.setBucket name ((r.bucket name).erase p) r.nextId (Nat.le_refl _) (by
    intro q e h
    rw [Dict.get?_erase] at h
    split at h
    · cases h
    · exact bucket_fresh h)

/-- Time passes. -/
def advance (r : MemoryRoot α VB) (microseconds : Int) : MemoryRoot α VB :=
  { r with clock := r.clock + microseconds }

theorem bucket_setBucket (r : MemoryRoot α VB) (name other : String)
    (d : Dict (List α) (Entry VB)) (next : Nat) (hn hd) :
    (r.setBucket name d next hn hd).bucket other = if other = name then d else r.bucket other := by
  unfold bucket setBucket
  rw [Dict.get?_set]
  split <;> rfl

@[simp] theorem get?_put (r : MemoryRoot α VB) (name : String) (p q : List α) (blob : VB)
    (expiresAt : Option Instant) (createdAt : Instant) :
    ((r.put name p blob expiresAt createdAt).bucket name).get? q =
      if q = p then some ⟨r.nextId, blob, expiresAt, createdAt, r.clock⟩
      else (r.bucket name).get? q := by
  rw [put, bucket_setBucket, if_pos rfl, Dict.get?_set]

@[simp] theorem get?_pop (r : MemoryRoot α VB) (name : String) (p q : List α) :
    ((r.pop name p).bucket name).get? q = if q = p then none else (r.bucket name).get? q := by
  rw [pop, bucket_setBucket, if_pos rfl, Dict.get?_erase]

@[simp] theorem nextId_put (r : MemoryRoot α VB) (name : String) (p : List α) (blob : VB)
    (expiresAt : Option Instant) (createdAt : Instant) :
    (r.put name p blob expiresAt createdAt).nextId = r.nextId + 1 := rfl

@[simp] theorem nextId_pop (r : MemoryRoot α VB) (name : String) (p : List α) :
    (r.pop name p).nextId = r.nextId := rfl

@[simp] theorem clock_put (r : MemoryRoot α VB) (name : String) (p : List α) (blob : VB)
    (expiresAt : Option Instant) (createdAt : Instant) :
    (r.put name p blob expiresAt createdAt).clock = r.clock := rfl

@[simp] theorem clock_pop (r : MemoryRoot α VB) (name : String) (p : List α) :
    (r.pop name p).clock = r.clock := rfl

@[simp] theorem bucket_advance (r : MemoryRoot α VB) (d : Int) (name : String) :
    (r.advance d).bucket name = r.bucket name := rfl

end MemoryRoot

/-! ## The backend -/

structure MemoryKvBackend (K V α VB : Type) [DecidableEq α] extends KvBackend K V α VB where
  expiryGc : ExpiryGc

namespace MemoryKvBackend

variable {K V α VB : Type} [DecidableEq α]

/-- The bucket's name. -/
def collection (b : MemoryKvBackend K V α VB) : String := b.binding.collection.getD ""

/-- `_physical_key_blob`, as a step that may raise. -/
def physicalKey (b : MemoryKvBackend K V α VB) (key : K) : M (MemoryRoot α VB) (List α) :=
  match b.physicalKeyBlob key with
  | .ok p => pure p
  | .error e => raise e

def expired (entry : Entry VB) (now : Instant) : Bool :=
  match entry.expiresAt with
  | none => false
  | some at_ => decide (at_ ≤ now)

def deserializeValue (b : MemoryKvBackend K V α VB) (blob : VB) : M (MemoryRoot α VB) V :=
  match b.kvset.valueSerde.deserialize blob with
  | some v => pure v
  | none => raise (.serDeError "deserialize failed")

def resolveTtlSeconds (b : MemoryKvBackend K V α VB) (ttl : Option TtlPolicy) : Option Int :=
  (ttl.getD b.kvset.ttlPolicy).ttlSeconds

def clockBase (r : MemoryRoot α VB) (createdAt : Option Instant) : Instant :=
  createdAt.getD r.clock

def expiresAt (b : MemoryKvBackend K V α VB) (r : MemoryRoot α VB) (ttl : Option TtlPolicy)
    (createdAt : Option Instant) : Option Instant :=
  (b.resolveTtlSeconds ttl).map fun secs => clockBase r createdAt + secs * 1000000

/-- What the bucket holds under a physical key. -/
def entryAt (b : MemoryKvBackend K V α VB) (r : MemoryRoot α VB) (p : List α) :
    Option (Entry VB) := (r.bucket b.collection).get? p

/-- Remove an expired entry a read met, where the store does so. -/
def lazyDelete (b : MemoryKvBackend K V α VB) (p : List α) : M (MemoryRoot α VB) Unit :=
  when (b.expiryGc = .lazyDelete) (modify fun r => r.pop b.collection p)

def liveEntry (b : MemoryKvBackend K V α VB) (key : K) : M (MemoryRoot α VB) (Option (Entry VB)) := do
  let p ← b.physicalKey key
  let r ← read fun r : MemoryRoot α VB => r
  match b.entryAt r p with
  | none => return none
  | some entry =>
    if expired entry r.clock then
      b.lazyDelete p
      return none
    else return some entry

def get (b : MemoryKvBackend K V α VB) (key : K) : M (MemoryRoot α VB) (Option V) := do
  match ← b.liveEntry key with
  | none => return none
  | some entry => return some (← b.deserializeValue entry.valueBlob)

def existsKey (b : MemoryKvBackend K V α VB) (key : K) : M (MemoryRoot α VB) Bool := do
  return (← b.liveEntry key).isSome

def batchExists [DecidableEq K] (b : MemoryKvBackend K V α VB) (keys : List K) :
    M (MemoryRoot α VB) (Finset K) :=
  keys.foldlM (fun out key => do
    if ← b.existsKey key then pure (insert key out) else pure out) ∅

def statOf (entry : Entry VB) : RecordStat :=
  ⟨some entry.createdAt, some entry.writtenAt, entry.expiresAt, entry.expiresAt.isNone⟩

def stat (b : MemoryKvBackend K V α VB) (key : K) : M (MemoryRoot α VB) (Option RecordStat) := do
  return (← b.liveEntry key).map statOf

def batchStat [DecidableEq K] (b : MemoryKvBackend K V α VB) (keys : List K) :
    M (MemoryRoot α VB) (Dict K RecordStat) :=
  keys.foldlM (fun out key => do
    match ← b.stat key with
    | some m => pure (out.set key m)
    | none => pure out) Dict.empty

def set (b : MemoryKvBackend K V α VB) (key : K) (value : V) (options : WriteOptions) :
    M (MemoryRoot α VB) Unit := do
  let p ← b.physicalKey key
  modify fun r => r.put b.collection p (b.kvset.valueSerde.serialize value)
    (b.expiresAt r options.ttl options.createdAt) (clockBase r options.createdAt)

/-- What a read against versions shows of one entry. -/
def readVersioned (b : MemoryKvBackend K V α VB) (key : K) : M (MemoryRoot α VB) (Versioned V) := do
  let p ← b.physicalKey key
  let r ← read fun r : MemoryRoot α VB => r
  match b.entryAt r p with
  | none => return Versioned.absent
  | some entry =>
    if expired entry r.clock then return ⟨none, some (.identity entry.id)⟩
    else return ⟨some (← b.deserializeValue entry.valueBlob), some (.identity entry.id)⟩

/-- `out[key] = …`, one key of a batch read. -/
def addRead {σ β : Type} [DecidableEq K] (read : K → M σ β) (out : Dict K β) (key : K) :
    M σ (Dict K β) := do
  return out.set key (← read key)

def batchReadVersioned [DecidableEq K] (b : MemoryKvBackend K V α VB) (keys : List K) :
    M (MemoryRoot α VB) (Dict K (Versioned V)) :=
  (Dict.unique keys).foldlM (addRead b.readVersioned) Dict.empty

def delete (b : MemoryKvBackend K V α VB) (key : K) : M (MemoryRoot α VB) Bool := do
  let p ← b.physicalKey key
  let held ← read fun r : MemoryRoot α VB => (b.entryAt r p).isSome
  modify fun r => r.pop b.collection p
  return held

/-- One compare and write: by the identity of the entry. -/
def writeIfUnchanged (b : MemoryKvBackend K V α VB) (ttl : Option TtlPolicy) (key : K)
    (w : ConditionalWrite V) : M (MemoryRoot α VB) Bool := do
  let p ← b.physicalKey key
  let current ← read fun r : MemoryRoot α VB => (b.entryAt r p).map fun e => Token.identity e.id
  if current ≠ w.seen.version then return false
  else match w.change with
    | .remove => b.delete key
    | .put value =>
      b.set key value ⟨ttl, w.createdAt⟩
      return true

def batchGet [DecidableEq K] (b : MemoryKvBackend K V α VB) (keys : List K) :
    M (MemoryRoot α VB) (Dict K V) := defaultBatchGet b.get keys

def batchSet [DecidableEq K] (b : MemoryKvBackend K V α VB) (items : Dict K V)
    (options : WriteOptions) : M (MemoryRoot α VB) Unit := defaultBatchSet b.set items options

/-- One stored entry as a scan meets it. Another entry may have gone since the scan
    listed the keys. -/
def scanOne (b : MemoryKvBackend K V α VB) (query : ScanQuery K) (p : List α) :
    M (MemoryRoot α VB) (Option (K × Option V)) := do
  let r ← read fun r : MemoryRoot α VB => r
  match b.entryAt r p with
  | none => return none
  | some entry =>
    if expired entry r.clock then
      b.lazyDelete p
      return none
    else if ¬ b.scanPrefixBlob query.keyPrefix <+: p then return none
    else match b.decodeKeyFromPhysical p with
      | none => return none
      | some key =>
        if query.includeValues then
          return some (key, some (← b.deserializeValue entry.valueBlob))
        else return some (key, none)

def scanEntries (b : MemoryKvBackend K V α VB) (query : ScanQuery K) :
    M (MemoryRoot α VB) (List (K × Option V)) := do
  let r ← read fun r : MemoryRoot α VB => r
  let rows ← (r.bucket b.collection).keys.mapM (b.scanOne query)
  return rows.filterMap id

/-- The key of an expired entry of this view. -/
def expiredKey (b : MemoryKvBackend K V α VB) (r : MemoryRoot α VB) (now : Option Instant)
    (p : List α) : Option K :=
  match b.entryAt r p with
  | none => none
  | some entry =>
    if ¬ expired entry (clockBase r now) then none
    else if ¬ b.scanPrefixBlob none <+: p then none
    else b.decodeKeyFromPhysical p

def expiredKeys (b : MemoryKvBackend K V α VB) (now : Option Instant) (limit : Int) :
    M (MemoryRoot α VB) (List K) :=
  if limit < 1 then raise (.valueError ("limit must be >= 1, got " ++ toString limit))
  else read fun r => ((r.bucket b.collection).keys.filterMap (b.expiredKey r now)).take limit.toNat

def gcExpiredKeys (b : MemoryKvBackend K V α VB) (maxEntries : Int) :
    M (MemoryRoot α VB) (List K) :=
  if maxEntries < 1 then
    raise (.valueError ("max_entries must be >= 1, got " ++ toString maxEntries))
  else do
    let keys ← b.expiredKeys none maxEntries
    when (keys ≠ []) (Functor.discard (countTrue b.delete keys))
    return keys

/-- `MemoryKvStore`. -/
def store [DecidableEq K] (b : MemoryKvBackend K V α VB) : KvStore (MemoryRoot α VB) K V where
  get := b.get
  batchGet := b.batchGet
  existsKey := b.existsKey
  batchExists := b.batchExists
  stat := b.stat
  batchStat := b.batchStat
  batchReadVersioned := b.batchReadVersioned
  batchWriteIfUnchanged writes ttl := eachConditional (b.writeIfUnchanged ttl) writes
  set := b.set
  batchSet := b.batchSet
  delete := b.delete
  batchDelete := countTrue b.delete
  unset := b.delete
  batchUnset := countTrue b.delete
  createsEntries := true
  supportsWriteClock := true
  writesAreDeferred := false
  expiredKeys := b.expiredKeys
  gcExpiredKeys := b.gcExpiredKeys
  scanEntries := b.scanEntries
  missingPages _ := pure []
  pendingIndexSyncs _ := 0
  flushIndexSyncs := pure ()
  discardIndexSyncs := pure ()

/-- A memory store of its own: keys as they are, no scope and no time to live. -/
def plain (V : Type) : MemoryKvBackend (List Char) V Char V where
  kvset := {
    name := "items"
    version := "1"
    wire := .str
    keySerde := .identity _
    valueSerde := .identity _
    ttlPolicy := ⟨none⟩
    keyLayout := .literal
    scopeSchema := none }
  scope := .empty
  binding := ⟨some "items:v1", []⟩
  valid := rfl
  expiryGc := .lazyDelete

end MemoryKvBackend

end Kvtsjl
