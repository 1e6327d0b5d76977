import Kvtsjl.Redis
import Kvtsjl.SqlStore

/-
  `RedisKvStore`: a leaf store over one Redis server.
  Every operation is a script of commands, between which other clients may act. A pipeline
  outside a transaction is no more than its commands one after the other, their errors raised
  at the end. A record is a flat key, or a field of the hash that is its collection.
-/

namespace Kvtsjl

open Assoc (Dict)
open Effects Prog

/-- What a command does, for the log. -/
inductive RedisNote (K V α : Type) where
  /-- A value now stands under a flat key. `expiry` is that of its write, `owed` where the
      command itself carried none. -/
  | put (p : List α) (raw : RedisBytes) (expiry : RedisExpiry) (owed : Bool)
  /-- The expiry owed for the key is sent. -/
  | dated (p : List α) (seconds : Int)
  /-- A conditional write of the key was made. -/
  | changed (key : K) (write : ConditionalWrite V)

abbrev RedisScript (K V α : Type) [DecidableEq α] (β : Type) :=
  Script Exn (RedisServer α) (RedisNote K V α) β

section Commands

variable {K V α : Type} [DecidableEq α] {β γ : Type}

/-- One command. -/
def command (m : M (RedisServer α) β) : RedisScript K V α β := Script.one m fun _ => []

/-- What a command notes, if the server did not refuse it. -/
def okNotes (note : β → List (RedisNote K V α)) : Except Exn β → List (RedisNote K V α)
  | .ok b => note b
  | .error _ => []

/-- `pipeline(transaction=False)` and its `execute`. -/
def pipeline (queued : List γ) (m : γ → M (RedisServer α) β)
    (note : γ → β → List (RedisNote K V α)) : RedisScript K V α (List β) := do
  let replies ← queued.foldlM (fun replies c => do
    let reply ← Script.one (attempt (m c)) (okNotes (note c))
    return replies ++ [reply]) []
  Script.done (replies.mapM id)

/-- The commands that store one value under a flat key. -/
inductive FlatCommand (α : Type) where
  | set (p : List α) (raw : RedisBytes) (expiry : RedisExpiry)
  /-- A `SET` without the expiry its write has. -/
  | setBare (p : List α) (raw : RedisBytes) (seconds : Int)
  | expireat (p : List α) (seconds : Int)

namespace FlatCommand

def run : FlatCommand α → M (RedisServer α) Unit
  | set p raw expiry => RedisServer.set p raw expiry
  | setBare p raw _ => RedisServer.set p raw .never
  | expireat p seconds => do
    let _ ← RedisServer.expireat p seconds
    return ()

def notes : FlatCommand α → List (RedisNote K V α)
  | set p raw expiry => [.put p raw expiry false]
  | setBare p raw seconds => [.put p raw (.exat seconds) true]
  | expireat p seconds => [.dated p seconds]

end FlatCommand

end Commands

/-! ## The backend -/

structure RedisKvBackend (K V α : Type) [DecidableEq α] extends KvBackend K V α RedisBytes where
  batchSize : Nat
  /-- The constructor refuses a hash collection under a TTL policy. -/
  unexpiring : binding.collection.isSome → kvset.ttlPolicy.ttlSeconds = none

namespace RedisKvBackend

variable {K V α : Type} [DecidableEq α] (b : RedisKvBackend K V α)

def useHash : Bool := b.binding.collection.isSome

def supportsWriteClock : Bool := !b.useHash

def resolveTtlSeconds (ttl : Option TtlPolicy) : Option Int :=
  (ttl.getD b.kvset.ttlPolicy).ttlSeconds

def deserializeValue (raw : RedisBytes) : Except Exn V :=
  match b.kvset.valueSerde.deserialize raw with
  | some v => .ok v
  | none => .error (.serDeError "deserialize failed")

def requireExplicitTtlSupported (ttl : Option TtlPolicy) : Except Exn Unit :=
  if ttl.isSome && b.useHash then
    .error (.ttlUnsupported
      "RedisKvStore.hash_collection does not support per-write ttl with the current provision")
  else .ok ()

def requireWriteClockSupported (createdAt : Option Instant) : Except Exn Unit :=
  if createdAt.isSome && !b.supportsWriteClock then
    .error (.ttlUnsupported "RedisKvStore does not support created_at with the current provision")
  else .ok ()

/-- `int(_clock_base(created_at) + ttl_secs)` -/
def expireAt (createdAt : Instant) (secs : Int) : Int := (createdAt + secs * 1000000).tdiv 1000000

/-- The expiry of a write. -/
def expiryOf (secs : Option Int) (createdAt : Option Instant) : RedisExpiry :=
  match secs, createdAt with
  | none, _ => .never
  | some secs, none => .ex secs
  | some secs, some t => .exat (expireAt t secs)

/-- `EXPIRE` of the whole hash after a write of one field. -/
def expireHash (name : String) (secs : Option Int) : RedisScript K V α Unit :=
  match secs with
  | none => pure ()
  | some secs => do
    let _ ← command (RedisServer.expire name secs)
    return ()

/-! ### Point operations -/

def get (key : K) : RedisScript K V α (Option V) := do
  let p ← Script.done (b.physicalKeyBlob key)
  let raw ← match b.binding.collection with
    | some name => command (RedisServer.hget name p)
    | none => command (RedisServer.get p)
  match raw with
  | none => return none
  | some raw => do
    let value ← Script.done (b.deserializeValue raw)
    return some value

/-- A flat key's value: in one command, or two where the expiry is counted from a write clock. -/
def storing (p : List α) (raw : RedisBytes) (secs : Option Int) (createdAt : Option Instant) :
    List (FlatCommand α) :=
  match secs, createdAt with
  | some secs, some t => [.setBare p raw (expireAt t secs), .expireat p (expireAt t secs)]
  | secs, _ => [.set p raw (expiryOf secs none)]

def set (key : K) (value : V) (options : WriteOptions) : RedisScript K V α Unit := do
  let p ← Script.done (b.physicalKeyBlob key)
  let raw := b.kvset.valueSerde.serialize value
  let _ ← Script.done (b.requireExplicitTtlSupported options.ttl)
  let _ ← Script.done (b.requireWriteClockSupported options.createdAt)
  match b.binding.collection with
  | some name => do
    let _ ← command (RedisServer.hset name [(p, raw)])
    expireHash name (b.resolveTtlSeconds options.ttl)
  | none =>
    (storing p raw (b.resolveTtlSeconds options.ttl) options.createdAt).foldlM
      (fun _ c => Script.one c.run fun _ => c.notes) ()

def delete (key : K) : RedisScript K V α Bool := do
  let p ← Script.done (b.physicalKeyBlob key)
  match b.binding.collection with
  | some name => command (RedisServer.hdel name p)
  | none => command (RedisServer.del p)

/-! ### Batches -/

/-- One chunk of `batch_set`. -/
def setChunk (options : WriteOptions) (chunk : List (K × V)) : RedisScript K V α Unit := do
  let rows ← Script.done (chunk.mapM fun e =>
    (b.physicalKeyBlob e.1).map fun p => (p, b.kvset.valueSerde.serialize e.2))
  match b.binding.collection with
  | some name => do
    let _ ← command (RedisServer.hset name rows)
    expireHash name (b.resolveTtlSeconds options.ttl)
  | none => do
    let _ ← pipeline (rows.flatMap fun row =>
      storing row.1 row.2 (b.resolveTtlSeconds options.ttl) options.createdAt)
      FlatCommand.run fun c _ => c.notes
    return ()

def batchSet (items : Dict K V) (options : WriteOptions) : RedisScript K V α Unit := do
  let _ ← Script.done (b.requireExplicitTtlSupported options.ttl)
  let _ ← Script.done (b.requireWriteClockSupported options.createdAt)
  let chunks ← Script.done (chunkSequence items.entries b.batchSize)
  chunks.foldlM (fun _ chunk => b.setChunk options chunk) ()

/-- What each key of a chunk holds. -/
def readRaw (ps : List (List α)) : RedisScript K V α (List (Option RedisBytes)) :=
  match b.binding.collection with
  | some name => command (RedisServer.hmget name ps)
  | none => command (RedisServer.mget ps)

/-- What a read against a version shows. The stored bytes are the version. -/
def versioned (raw : Option RedisBytes) : Except Exn (Versioned V) :=
  match raw with
  | none => .ok Versioned.absent
  | some raw => (b.deserializeValue raw).map fun v => ⟨some v, some (.bytes raw)⟩

section Conditional

variable [DecidableEq K]

def addVersioned (out : Dict K (Versioned V)) (e : K × Option RedisBytes) :
    Except Exn (Dict K (Versioned V)) := do
  return out.set e.1 (← b.versioned e.2)

def readChunk (out : Dict K (Versioned V)) (chunk : List K) :
    RedisScript K V α (Dict K (Versioned V)) := do
  let ps ← Script.done (chunk.mapM b.physicalKeyBlob)
  let raws ← b.readRaw ps
  Script.done ((chunk.zip raws).foldlM b.addVersioned out)

/-- One `MGET` or `HMGET` a batch. -/
def batchReadVersioned (keys : List K) : RedisScript K V α (Dict K (Versioned V)) := do
  let chunks ← Script.done (chunkSequence (Dict.unique keys) b.batchSize)
  chunks.foldlM b.readChunk Dict.empty

/-- A write where nothing is stored. -/
structure Insert (K V : Type) where
  key : K
  value : V
  write : ConditionalWrite V

def inserts (writes : Dict K (ConditionalWrite V)) : List (Insert K V) :=
  writes.entries.filterMap fun e =>
    match e.2.seen.version, e.2.change with
    | none, .put value => some ⟨e.1, value, e.2⟩
    | _, _ => none

theorem mem_inserts {writes : Dict K (ConditionalWrite V)} {e : Insert K V} (h : e ∈ inserts writes) :
    writes.get? e.key = some e.write ∧ e.write.seen.version = none ∧
      e.write.change = .put e.value := by
  obtain ⟨⟨k, w⟩, hmem, he⟩ := List.mem_filterMap.mp h
  dsimp only at he
  split at he
  · next value hversion hchange =>
    cases he
    exact ⟨Dict.mem_entries.mp hmem, hversion, hchange⟩
  · cases he

/-- The writes against a version. -/
def against (writes : Dict K (ConditionalWrite V)) : List (K × ConditionalWrite V) :=
  writes.entries.filter fun e => e.2.seen.version.isSome

/-- `SET NX` or `HSETNX` of one insert. -/
def insertCommand (secs : Option Int) (row : List α × Insert K V) : M (RedisServer α) Bool :=
  let raw := b.kvset.valueSerde.serialize row.2.value
  match b.binding.collection with
  | some name => RedisServer.hsetnx name row.1 raw
  | none => RedisServer.setNx row.1 raw (expiryOf secs row.2.write.createdAt)

/-- A conditional write was made, and what a flat key then holds. -/
def changedNotes (secs : Option Int) (p : List α) (key : K) (w : ConditionalWrite V) :
    List (RedisNote K V α) :=
  match b.binding.collection, w.change with
  | none, .put value => [.put p (b.kvset.valueSerde.serialize value) (expiryOf secs w.createdAt) false,
      .changed key w]
  | _, _ => [.changed key w]

def insertNotes (secs : Option Int) (row : List α × Insert K V) (wrote : Bool) :
    List (RedisNote K V α) :=
  if wrote then b.changedNotes secs row.1 row.2.key row.2.write else []

/-- The hash some field was inserted into expires as a whole. -/
def expireInserted (secs : Option Int) (won : List K) : RedisScript K V α Unit :=
  match b.binding.collection with
  | some name => if won.isEmpty then pure () else expireHash name secs
  | none => pure ()

/-- `_insert_if_absent` of one chunk, never an empty one. -/
def insertIfAbsent (secs : Option Int) (written : Finset K) (chunk : List (Insert K V)) :
    RedisScript K V α (Finset K) := do
  let rows ← Script.done (chunk.mapM fun e => (b.physicalKeyBlob e.key).map fun p => (p, e))
  let wrote ← pipeline rows (b.insertCommand secs) (b.insertNotes secs)
  let won := (rows.zip wrote).filterMap fun e => if e.2 then some e.1.2.key else none
  let _ ← b.expireInserted secs won
  return written ∪ won.toFinset

/-- One key of a `_swap_if_unchanged`, with its physical key. -/
abbrev Swap (K V α : Type) := (K × ConditionalWrite V) × List α

/-- `_queue_write` -/
def queueWrite (secs : Option Int) (x : Swap K V α) : M (RedisServer α) Unit :=
  match b.binding.collection, x.1.2.change with
  | some name, .remove => do
    let _ ← RedisServer.hdel name x.2
    return ()
  | some name, .put value => do
    RedisServer.hset name [(x.2, b.kvset.valueSerde.serialize value)]
    match secs with
    | none => return ()
    | some secs => do
      let _ ← RedisServer.expire name secs
      return ()
  | none, .remove => do
    let _ ← RedisServer.del x.2
    return ()
  | none, .put value =>
    RedisServer.set x.2 (b.kvset.valueSerde.serialize value) (expiryOf secs x.1.2.createdAt)

/-- What an `EXEC` made, by its replies. -/
def execNotes (secs : Option Int) (queued : List (Swap K V α))
    (replies : Option (List (Except Exn Unit))) : List (RedisNote K V α) :=
  match replies with
  | none => []
  | some replies => (queued.zip replies).flatMap fun e =>
    okNotes (fun _ => b.changedNotes secs e.1.2 e.1.1.1 e.1.1.2) e.2

/-- The keys whose bytes are those the write was decided against. -/
def unchanged (swaps : List (Swap K V α)) (current : List (Option RedisBytes)) :
    List (Swap K V α) :=
  (swaps.zip current).filterMap fun e =>
    if e.2.map Token.bytes = e.1.1.2.seen.version then some e.1 else none

omit [DecidableEq α] [DecidableEq K] in
theorem mem_unchanged {swaps : List (Swap K V α)} {current : List (Option RedisBytes)}
    {x : Swap K V α} (h : x ∈ unchanged swaps current) :
    ∃ raw, (x, raw) ∈ swaps.zip current ∧ raw.map Token.bytes = x.1.2.seen.version := by
  obtain ⟨⟨y, raw⟩, hmem, he⟩ := List.mem_filterMap.mp h
  dsimp only at he
  split at he
  · next hraw =>
    cases he
    exact ⟨raw, hmem, hraw⟩
  · cases he

omit [DecidableEq α] [DecidableEq K] in
theorem unchanged_sublist (swaps : List (Swap K V α)) (current : List (Option RedisBytes)) :
    (unchanged swaps current).Sublist swaps := by
  unfold unchanged
  induction swaps generalizing current with
  | nil => simp
  | cons x swaps ih =>
    cases current with
    | nil => simp
    | cons raw current =>
      rw [List.zip_cons_cons, List.filterMap_cons]
      dsimp only
      split
      · next hnone => exact (ih current).cons x
      · next y hy =>
        split at hy
        · cases hy
          exact (ih current).cons_cons x
        · cases hy

/-- `_swap_if_unchanged` of one chunk, never an empty one: `WATCH`, read, and one `EXEC`. -/
def swapIfUnchanged (secs : Option Int) (written : Finset K) (chunk : List (K × ConditionalWrite V)) :
    RedisScript K V α (Finset K) := do
  let ps ← Script.done (chunk.mapM fun e => b.physicalKeyBlob e.1)
  let watched ← command (RedisServer.watch (match b.binding.collection with
    | some name => [.hash name]
    | none => ps.map .flat))
  let current ← b.readRaw ps
  let queued := unchanged (chunk.zip ps) current
  if queued.isEmpty then return written
  else do
    let replies ← Script.one (RedisServer.exec watched queued (b.queueWrite secs))
      (b.execNotes secs queued)
    match replies with
    | none => return written
    | some replies => do
      let _ ← Script.done (replies.mapM id)
      return written ∪ (queued.map (·.1.1)).toFinset

def batchWriteIfUnchanged (writes : Dict K (ConditionalWrite V)) (ttl : Option TtlPolicy) :
    RedisScript K V α (Finset K) := do
  let _ ← Script.done (b.requireExplicitTtlSupported ttl)
  let _ ← Script.done (writes.entries.mapM fun e => b.requireWriteClockSupported e.2.createdAt)
  let secs := b.resolveTtlSeconds ttl
  let insertChunks ← Script.done (chunkSequence (inserts writes) b.batchSize)
  let againstChunks ← Script.done (chunkSequence (against writes) b.batchSize)
  let written ← insertChunks.foldlM (b.insertIfAbsent secs) ∅
  againstChunks.foldlM (b.swapIfUnchanged secs) written

end Conditional

end RedisKvBackend

end Kvtsjl
