import Kvtsjl.SqlTable
import Kvtsjl.Memory

/-
  `SqlDbKvStore`: a leaf store over one SQL table.
  Every operation is a script of adapter calls and readings of the clock, between which
  other clients of the table may act. A row is carried whole from where it is fetched,
  and cut to the columns asked for where it is read.
-/

namespace Kvtsjl

open Assoc (Dict)
open Effects

/-- A script of adapter calls. -/
abbrev SqlScript (α : Type) := Script Exn (Medium SqlKey SqlDbRow) (Deed SqlKey SqlDbRow) α

/-- `TTL_NONE_EXPIRES_AT`, the last second of 2099. -/
def ttlNoneExpiresAt : Instant := 4102444799000000

/-- Slices of `size`. -/
def chunkSequence {α : Type} (items : List α) (size : Nat) : Except Exn (List (List α)) :=
  if size < 1 then .error (.valueError "chunk size must be >= 1") else .ok (items.toChunks size)

theorem flatten_of_chunkSequence {α : Type} {items : List α} {size : Nat} {chunks : List (List α)}
    (h : chunkSequence items size = .ok chunks) : chunks.flatten = items := by
  unfold chunkSequence at h
  split at h
  · cases h
  · cases h
    exact flatten_toChunks size items

theorem sublist_of_chunkSequence {α : Type} {items : List α} {size : Nat} {chunks : List (List α)}
    (h : chunkSequence items size = .ok chunks) {chunk : List α} (hc : chunk ∈ chunks) :
    chunk.Sublist items := by
  rw [← flatten_of_chunkSequence h]
  exact List.sublist_flatten_of_mem hc

theorem mem_of_chunkSequence {α : Type} {items : List α} {size : Nat} {chunks : List (List α)}
    (h : chunkSequence items size = .ok chunks) {chunk : List α} (hc : chunk ∈ chunks) {x : α}
    (hx : x ∈ chunk) : x ∈ items := (sublist_of_chunkSequence h hc).subset hx

/-- `repr` of a member of the enumeration. -/
def KeyLayout.repr : KeyLayout → String
  | .literal => "<KeyLayout.LITERAL: 'literal'>"
  | .hashed => "<KeyLayout.HASHED: 'hashed'>"
  | .hierarchical => "<KeyLayout.HIERARCHICAL: 'hierarchical'>"

structure SqlDbKvBackend (K V : Type) where
  sqlKvset : SqlDbKvSet
  adapter : SqlDbClientAdapter
  expiryGc : ExpiryGc
  batchSize : Nat
  ttlPolicy : TtlPolicy
  keyLayout : KeyLayout
  /-- The bound scope: the id under each kind. -/
  scope : Dict String String
  /-- The leaf columns of a key, as the key's serde and the binding write them. -/
  leafKeyRow : K → Except Exn (List Cell)
  decodeLeafKey : SqlKey → Option K
  leafPrefixMap : Option K → Dict String String
  decodeCursor : String → Except Exn K
  serialize : V → SqlDbRow
  deserialize : SqlKey → SqlDbRow → Except Exn V
  parseTimestamp : String → Except Exn Instant
  reprKey : K → String

namespace SqlDbKvBackend

variable {K V : Type} (b : SqlDbKvBackend K V)

/-! ## Keys and rows -/

def ttlSeconds : Option Int := b.ttlPolicy.ttlSeconds

def resolveTtlSeconds (ttl : Option TtlPolicy) : Option Int := (ttl.getD b.ttlPolicy).ttlSeconds

def scopeKeyRow (requireAll : Bool) : Except Exn (Dict String Cell) :=
  b.sqlKvset.scopeFields.foldlM (fun row field =>
    match b.scope.get? field with
    | some id => .ok (row.set field (.text id))
    | none =>
      if requireAll then
        .error (.scopeError ("SqlDbKvStore requires scope field '" ++ field ++ "' (have " ++
          reprNames (b.scope.keys.mergeSort fun s t => s ≤ t) ++ ")"))
      else .ok row) Dict.empty

def fullKeyRow (key : K) : Except Exn SqlKey := do
  let row ← b.scopeKeyRow true
  let leaf ← b.leafKeyRow key
  return b.sqlKvset.scopeFields.filterMap row.get? ++ leaf

/-- The columns whose being set means this view holds a row. -/
def heldBy : List String := if b.sqlKvset.sharesTable then b.sqlKvset.ownColumns else []

def holds (row : SqlDbRow) : Bool := b.heldBy.isEmpty || b.heldBy.any fun c => (row c).isSome

def asTimestamp : Option Cell → Except Exn (Option Instant)
  | none => .ok none
  | some (.number n) => .ok (some n)
  | some (.text t) => (b.parseTimestamp t).map some

/-- Epoch when the row dies, or `none` if it never expires. -/
def deathTime (row : SqlDbRow) : Except Exn (Option Instant) := do
  match ← b.asTimestamp (row b.sqlKvset.expiresAtField) with
  | some expires => return some expires
  | none =>
    match b.ttlSeconds with
    | none => return none
    | some ttl =>
      let updated ← b.asTimestamp (row b.sqlKvset.updatedAtField)
      return updated.map (· + ttl * 1000000)

def rowExpiredAt (row : SqlDbRow) (now : Instant) : Except Exn Bool :=
  (b.deathTime row).map fun death => death.any (· ≤ now)

/-- What the value's serde makes of a row, cut to the columns asked for. -/
def readRow (row : SqlKey × SqlDbRow) : Except Exn V :=
  b.deserialize row.1 fun c => if c ∈ b.sqlKvset.selectColumns then row.2 c else none

def statFromRow (row : SqlDbRow) : Except Exn RecordStat := do
  let updated ← b.asTimestamp (row b.sqlKvset.updatedAtField)
  let expires ← b.deathTime row
  return ⟨updated, updated, expires, expires.isNone⟩

/-! ## Reads -/

/-- `delete_by_keys` of rows whose time was seen to be up. -/
def collectRows (rows : List (SqlKey × SqlDbRow)) : SqlScript Nat :=
  Medium.change (fun t => SqlRows.deleteByKeys t (rows.map (·.1))) fun _ =>
    rows.map fun e => .collected e.1 e.2

/-- `fetch_by_keys` and `exists_by_keys` -/
def fetchByKeys (keys : List SqlKey) : SqlScript (List (SqlKey × SqlDbRow)) :=
  Medium.fetch fun t => SqlRows.fetchByKeys t keys

def rowExpired (row : SqlDbRow) : SqlScript Bool := do
  let now ← Medium.time
  .done (b.rowExpiredAt row now)

def liveRow : Option (SqlKey × SqlDbRow) → SqlScript (Option (SqlKey × SqlDbRow))
  | none => pure none
  | some row => do
    if !(← b.rowExpired row.2) then
      return if b.holds row.2 then some row else none
    else if b.expiryGc = .lazyDelete then
      let _ ← collectRows [row]
      return none
    else
      return none

/-- The live row of one key, and what `f` makes of it. -/
def liveOne {α : Type} (key : K) (f : Option (SqlKey × SqlDbRow) → Except Exn α) : SqlScript α := do
  let keyRow ← Script.done (b.fullKeyRow key)
  let found ← fetchByKeys [keyRow]
  let row ← b.liveRow found.head?
  .done (f row)

def get (key : K) : SqlScript (Option V) := b.liveOne key fun row => row.mapM b.readRow

def existsKey (key : K) : SqlScript Bool := b.liveOne key fun row => .ok row.isSome

def stat (key : K) : SqlScript (Option RecordStat) :=
  b.liveOne key fun row => row.mapM fun r => b.statFromRow r.2

/-- The keys of a chunk with their live rows, `f` of each put together. -/
def liveChunk {α : Type} (f : α → K → SqlKey × SqlDbRow → Except Exn α) (out : α)
    (chunk : List K) : SqlScript α := do
  let keyRows ← Script.done (chunk.mapM b.fullKeyRow)
  let found ← fetchByKeys keyRows
  (chunk.zip keyRows).foldlM (fun out (key, keyRow) => do
    match ← b.liveRow (found.find? fun e => e.1 = keyRow) with
    | some row => .done (f out key row)
    | none => return out) out

def liveBatch {α : Type} (keys : List K) (f : α → K → SqlKey × SqlDbRow → Except Exn α) (out : α) :
    SqlScript α := do
  let chunks ← Script.done (chunkSequence keys b.batchSize)
  chunks.foldlM (b.liveChunk f) out

def batchGet [DecidableEq K] (keys : List K) : SqlScript (Dict K V) :=
  b.liveBatch keys (fun out key row => do return out.set key (← b.readRow row)) Dict.empty

def batchExists [DecidableEq K] (keys : List K) : SqlScript (Finset K) :=
  b.liveBatch keys (fun out key _ => .ok (insert key out)) ∅

def batchStat [DecidableEq K] (keys : List K) : SqlScript (Dict K RecordStat) :=
  b.liveBatch keys (fun out key row => do return out.set key (← b.statFromRow row.2)) Dict.empty

/-! ## Writes -/

def clockBase (createdAt : Option Instant) : SqlScript Instant :=
  match createdAt with
  | some t => pure t
  | none => Medium.time

theorem clockBase_run (createdAt : Option Instant) (m : Medium SqlKey SqlDbRow) :
    (clockBase createdAt).run m = (.ok (createdAt.getD m.clock), m) := by
  cases createdAt <;> rfl

/-- A concrete death time on every write, NULL only under no TTL policy at all. -/
def expiresAtColumn (ttl : Option TtlPolicy) (createdAt : Option Instant) :
    SqlScript (Option Instant) := do
  match b.resolveTtlSeconds ttl with
  | some secs => return some ((← clockBase createdAt) + secs * 1000000)
  | none => return if ttl.isSome then some ttlNoneExpiresAt else none

def buildWriteRow (key : K) (value : V) (ttl : Option TtlPolicy) (createdAt : Option Instant) :
    SqlScript (SqlKey × SqlDbRow) := do
  let keyRow ← Script.done (b.fullKeyRow key)
  let base ← clockBase createdAt
  let expires ← b.expiresAtColumn ttl createdAt
  return (keyRow, fun c =>
    if c = b.sqlKvset.expiresAtField then expires.map Cell.number
    else if c = b.sqlKvset.updatedAtField then some (.number base)
    else b.serialize value c)

/-- The one write path. A view that does not own its shared table's rows only updates rows
    that exist. -/
def writeRows (rows : List (SqlKey × SqlDbRow)) : SqlScript Nat :=
  let sk := b.sqlKvset
  if sk.sharesTable && !sk.ownsRows then
    if !b.adapter.supportsUpdateRows then
      .done (.error (.unsupported (b.adapter.name ++ " does not support update_rows, which a view " ++
        "of a shared table that does not own its rows requires")))
    else do
      let matched ← Medium.change (fun t => SqlRows.updateRows t sk.setColumns rows)
        fun matched => matched.map Deed.wrote
      return matched.length
  else if sk.sharesTable && !b.adapter.supportsUpdateFirst then
    .done (.error (.unsupported (b.adapter.name ++ " does not support upsert_rows_update_first, " ++
      "which shares_table=True requires")))
  else do
    let _ ← Medium.change (fun t => ((), SqlRows.upsertRows t sk.setColumns rows))
      fun _ => rows.map fun e => .wrote e.1
    return rows.length

def set (key : K) (value : V) (options : WriteOptions) : SqlScript Unit := do
  let row ← b.buildWriteRow key value options.ttl options.createdAt
  let _ ← b.writeRows [row]
  return ()

def batchSet (items : Dict K V) (options : WriteOptions) : SqlScript Unit := do
  let chunks ← Script.done (chunkSequence items.entries b.batchSize)
  chunks.foldlM (fun _ chunk => do
    let rows ← chunk.foldlM (fun rows item => do
      return rows ++ [← b.buildWriteRow item.1 item.2 options.ttl options.createdAt]) []
    let _ ← b.writeRows rows
    return ()) ()

/-! ## Reads against a version, and conditional writes -/

/-- What a version compares: the columns this view writes, clock included. -/
def versionColumns : List String := b.sqlKvset.setColumns

def versionOf (row : SqlDbRow) : Token := .columns (b.versionColumns.map row)

/-- What a read against a version shows of a row. It collects nothing. -/
def versionedRow : Option (SqlKey × SqlDbRow) → SqlScript (Versioned V)
  | none => pure Versioned.absent
  | some row => do
    let expired ← b.rowExpired row.2
    let value ← Script.done (if !expired && b.holds row.2 then (b.readRow row).map some else .ok none)
    return ⟨value, some (b.versionOf row.2)⟩

def batchReadVersioned [DecidableEq K] (keys : List K) : SqlScript (Dict K (Versioned V)) := do
  let chunks ← Script.done (chunkSequence (Dict.unique keys) b.batchSize)
  chunks.foldlM (fun out chunk => do
    let keyRows ← Script.done (chunk.mapM b.fullKeyRow)
    let found ← fetchByKeys keyRows
    (chunk.zip keyRows).foldlM (fun out (key, keyRow) => do
      return out.set key (← b.versionedRow (found.find? fun e => e.1 = keyRow))) out) Dict.empty

def createsEntries : Bool := b.sqlKvset.ownsRows || !b.sqlKvset.sharesTable

/-- The key and the version's columns, which the row must still hold. -/
def expected (key : K) (seen : Versioned V) : Except Exn SqlRows.Expected := do
  match seen.version with
  | some (.columns values) =>
    let keyRow ← b.fullKeyRow key
    if values.length = b.versionColumns.length then
      return ⟨keyRow, (b.versionColumns.zip values).foldl (fun d e => d.set e.1 e.2) Dict.empty⟩
    else throw (.valueError "zip() argument 2 is not as long as argument 1")
  | other => throw (.kvStoreError (reprStr other ++ " is not a version this table gave out"))

/-- The keys whose write took place, by position. -/
def wonBy [DecidableEq K] (keys : List K) (flags : List (SqlKey × Bool)) : Finset K :=
  ((keys.zip flags).filterMap fun e => if e.2.2 then some e.1 else none).toFinset

section Conditional

variable [DecidableEq K]

/-- The keys of the writes `p` picks, with the writes. -/
def picked (writes : Dict K (ConditionalWrite V)) (p : ConditionalWrite V → Bool) :
    List (K × ConditionalWrite V) :=
  writes.entries.filter fun e => p e.2

def inserts (writes : Dict K (ConditionalWrite V)) : List (K × ConditionalWrite V) :=
  picked writes fun w => w.seen.version.isNone && w.change.value?.isSome

def removals (writes : Dict K (ConditionalWrite V)) : List (K × ConditionalWrite V) :=
  picked writes fun w => w.seen.version.isSome && w.change.value?.isNone

def replaces (writes : Dict K (ConditionalWrite V)) : List (K × ConditionalWrite V) :=
  picked writes fun w => w.seen.version.isSome && w.change.value?.isSome

/-- The row of each put, in order. -/
def writeRowsOf (ttl : Option TtlPolicy) (puts : List (K × ConditionalWrite V)) :
    SqlScript (List (SqlKey × SqlDbRow)) :=
  puts.foldlM (fun rows e =>
    match e.2.change with
    | .put value => do return rows ++ [← b.buildWriteRow e.1 value ttl e.2.createdAt]
    | .remove => return rows) []

def insertAbsent (writes : Dict K (ConditionalWrite V)) (ttl : Option TtlPolicy) :
    SqlScript (Finset K) :=
  let inserts := inserts writes
  if inserts.isEmpty then pure ∅
  else if !b.adapter.supportsInsertIfAbsent then
    .done (.error (.unsupported (b.adapter.name ++ " does not support insert_each_if_absent, which " ++
      "set_if_absent — inserting only where no row is — requires; it will not fall back to a " ++
      "get-then-set")))
  else do
    let rows ← b.writeRowsOf ttl inserts
    let written ← Medium.change
      (fun t => SqlRows.insertEachIfAbsent t b.sqlKvset.setColumns rows)
      fun flags => (SqlRows.flagged flags).map Deed.wrote
    return wonBy (inserts.map (·.1)) written

/-- The removals: rows deleted by a view that may, its own columns cleared by any other. -/
def removeUnchanged (writes : Dict K (ConditionalWrite V)) : SqlScript (Finset K) :=
  let removals := removals writes
  if removals.isEmpty then pure ∅
  else do
    let expected ← Script.done (removals.mapM fun e => b.expected e.1 e.2.seen)
    let written ← Medium.change
      (fun t =>
        if b.sqlKvset.deletesRows then SqlRows.deleteEachIf t expected
        else SqlRows.replaceEachIf t b.sqlKvset.ownColumns (expected.map fun e => (e, fun _ => none)))
      fun flags => (SqlRows.flagged flags).map Deed.deleted
    return wonBy (removals.map (·.1)) written

def replaceUnchanged (writes : Dict K (ConditionalWrite V)) (ttl : Option TtlPolicy) :
    SqlScript (Finset K) :=
  let replaces := replaces writes
  if replaces.isEmpty then pure ∅
  else do
    let expected ← Script.done (replaces.mapM fun e => b.expected e.1 e.2.seen)
    let rows ← b.writeRowsOf ttl replaces
    let written ← Medium.change
      (fun t => SqlRows.replaceEachIf t b.sqlKvset.setColumns
        (expected.zip (rows.map (·.2))))
      fun flags => (SqlRows.flagged flags).map Deed.wrote
    return wonBy (replaces.map (·.1)) written

/-- What a batch of conditional writes is refused for before anything is written. -/
def refusal (writes : Dict K (ConditionalWrite V)) : Option Exn :=
  let sk := b.sqlKvset
  match inserts writes with
  | first :: _ =>
    if !b.createsEntries then
      some (.unsupported (sk.tableName ++ ": this view does not own its rows, so it cannot create " ++
        "one for " ++ b.reprKey first.1 ++ "; its owner creates the record"))
    else versioned
  | [] => versioned
where
  versioned : Option Exn :=
    if (picked writes fun w => w.seen.version.isSome).any (fun _ => true) &&
        !b.adapter.supportsCompareAndWrite then
      some (.unsupported (b.adapter.name ++ " does not support compare-and-write, which writing " ++
        "against a version requires; it will not read and then write"))
    else if (removals writes).any (fun _ => true) && !b.sqlKvset.deletesRows &&
        b.sqlKvset.ownColumns.isEmpty then
      some (.unsupported (b.sqlKvset.tableName ++ ": this view writes no columns of its own, so " ++
        "removing through it could only delete a row its siblings share"))
    else none

def batchWriteIfUnchanged (writes : Dict K (ConditionalWrite V)) (ttl : Option TtlPolicy) :
    SqlScript (Finset K) :=
  match b.refusal writes with
  | some e => .done (.error e)
  | none => do
    let inserted ← b.insertAbsent writes ttl
    let removed ← b.removeUnchanged writes
    let replaced ← b.replaceUnchanged writes ttl
    return inserted ∪ removed ∪ replaced

end Conditional

/-! ## Removals -/

/-- Ask `step` of each chunk's key rows, and add up. -/
def sumChunks (keys : List K) (step : List SqlKey → SqlScript Nat) : SqlScript Nat := do
  let chunks ← Script.done (chunkSequence keys b.batchSize)
  chunks.foldlM (fun n chunk => do
    let keyRows ← Script.done (chunk.mapM b.fullKeyRow)
    return n + (← step keyRows)) 0

def deleteRows (keys : List K) : SqlScript Nat :=
  b.sumChunks keys fun keyRows =>
    Medium.change (fun t => SqlRows.deleteByKeys t keyRows) fun _ => keyRows.map Deed.deleted

def clearOwnColumns (keys : List K) : SqlScript Nat :=
  let sk := b.sqlKvset
  if sk.ownColumns.isEmpty then
    .done (.error (.unsupported (sk.tableName ++ ": this view writes no columns of its own, so " ++
      "clearing it could only delete a row its siblings share")))
  else if !b.adapter.supportsClearColumns then
    .done (.error (.unsupported (b.adapter.name ++ " does not support clear_columns, which " ++
      "unsetting a view of a shared table requires")))
  else b.sumChunks keys fun keyRows => do
    let cleared ← Medium.change (fun t => SqlRows.clearColumns t sk.ownColumns keyRows)
      fun cleared => cleared.map Deed.deleted
    return cleared.length

def batchDelete (keys : List K) : SqlScript Nat :=
  if b.sqlKvset.deletesRows then b.deleteRows keys else b.clearOwnColumns keys

def batchUnset (keys : List K) : SqlScript Nat :=
  if !b.sqlKvset.sharesTable then b.deleteRows keys else b.clearOwnColumns keys

def delete (key : K) : SqlScript Bool := do return 0 < (← b.batchDelete [key])

def unset (key : K) : SqlScript Bool := do return 0 < (← b.batchUnset [key])

/-! ## Collection -/

/-- Refuse early binding while rows of a relative TTL have no death time of their own. A view
    checks once; `checked` says that it did. -/
def ensureEarlyBindingSafe (checked : Bool) : SqlScript Unit := do
  let sk := b.sqlKvset
  if checked || sk.expiryBinding ≠ .early || b.ttlSeconds.isNone then pure ()
  else
    let exact ← Script.done (b.scopeKeyRow false)
    if ← Medium.ask fun t => SqlRows.hasNullExpiresAt t sk exact then
      .done (.error (.kvStoreError "expiry_binding='early' but un-backfilled rows remain"))
    else pure ()

def relativeTtlForExpiryScan : Option Int :=
  if b.sqlKvset.expiryBinding = .early then none else b.ttlSeconds

def scoreRow (now : Instant) (scored : List (Instant × SqlKey × SqlDbRow))
    (row : SqlKey × SqlDbRow) : Except Exn (List (Instant × SqlKey × SqlDbRow)) := do
  match ← b.deathTime row.2 with
  | some death => return if death ≤ now then scored ++ [(death, row)] else scored
  | none => return scored

/-- The rows past their time, the longest dead first, without the database's help. -/
def scoreExpired (now : Instant) (rows : List (SqlKey × SqlDbRow)) :
    Except Exn (List (SqlKey × SqlDbRow)) :=
  (rows.foldlM (b.scoreRow now) []).map fun scored =>
    (scored.mergeSort fun x y => x.1 ≤ y.1).map (·.2)

def expiredRows (checked : Bool) (now : Option Instant) (limit : Int) :
    SqlScript (List (SqlKey × SqlDbRow)) :=
  if limit < 1 then .done (.error (.valueError ("limit must be >= 1, got " ++ toString limit)))
  else do
    let sk := b.sqlKvset
    b.ensureEarlyBindingSafe checked
    let nowEpoch ← clockBase now
    let exact ← Script.done (b.scopeKeyRow false)
    if b.adapter.supportsExpiryScan then
      Medium.fetch fun t => SqlRows.scanExpired t sk exact
        (b.relativeTtlForExpiryScan.map (· * 1000000)) nowEpoch limit.toNat
    else
      let rows ← Medium.fetch fun t =>
        SqlRows.scanByKeyParts t sk.keyFields exact (b.leafPrefixMap none)
      let scored ← Script.done (b.scoreExpired nowEpoch rows)
      return scored.take limit.toNat

def expiredKeys (checked : Bool) (now : Option Instant) (limit : Int) : SqlScript (List K) := do
  return (← b.expiredRows checked now limit).filterMap fun e => b.decodeLeafKey e.1

/-- Delete expired rows by the full key each row carries. -/
def gcExpiredKeys (checked : Bool) (maxEntries : Int) : SqlScript (List K) := do
  let rows ← b.expiredRows checked none maxEntries
  if rows.isEmpty then return []
  else
    let _ ← collectRows rows
    return rows.filterMap fun e => b.decodeLeafKey e.1

/-! ## Scans -/

/-- What a scan asks of the store. -/
structure SqlScan (K : Type) where
  keyPrefix : Option K
  includeValues : Bool
  orderBy : List SqlRows.OrderBy
  limit : Option Nat
  cursor : Option String
  pageSize : Nat
  /-- Something is left for the caller to filter by. -/
  residual : Bool

/-- How far a generator of rows has come. -/
inductive Draw where
  | drawing
  /-- It met its limit, and was asked for another row. -/
  | full
  /-- Its caller closed it. -/
  | closed
deriving DecidableEq

structure Drawn (K V : Type) where
  rows : List (K × Option V)
  expired : List (SqlKey × SqlDbRow)
  state : Draw

/-- A generator's turn with one row. Its caller takes `draws` rows, all of them where it
    says nothing. -/
def drawRow (collect includeValues : Bool) (limit draws : Option Nat) (d : Drawn K V)
    (row : SqlKey × SqlDbRow) : SqlScript (Drawn K V) := do
  if d.state ≠ .drawing then return d
  else if ← b.rowExpired row.2 then
    return if collect then { d with expired := d.expired ++ [row] } else d
  else if !b.holds row.2 then return d
  else
    match b.decodeLeafKey row.1 with
    | none => return d
    | some key => do
      let value ← Script.done (if includeValues then (b.readRow row).map some else .ok none)
      let rows := d.rows ++ [(key, value)]
      return { d with
        rows := rows
        state :=
          if draws.any (· ≤ rows.length) then .closed
          else if limit.any (· ≤ rows.length) then .full
          else .drawing }

def collects : Bool := b.expiryGc = .lazyDelete

/-- Keyset pages. `pages` is how many of them the caller waits for. -/
def keysetRows (exact : Dict String Cell) (prefixes : Dict String String) (pageSize : Nat)
    (includeValues : Bool) (limit draws : Option Nat) :
    Nat → Option SqlKey → Drawn K V → SqlScript (Drawn K V)
  | 0, _, d => pure { d with state := .closed }
  | pages + 1, after, d => do
    let page ← Medium.fetch fun t =>
      SqlRows.scanPageByKeyParts t b.sqlKvset.keyFields exact prefixes after pageSize
    match page.getLast? with
    | none => return d
    | some last =>
      let d ← page.foldlM (b.drawRow b.collects includeValues limit draws) d
      if d.state ≠ .drawing then return d
      else if after = some last.1 then
        .done (.error (.kvStoreError (b.adapter.name ++ ".scan_page_by_key_parts returned a page that " ++
          "does not advance after_key; the scan would never terminate")))
      else if page.length < pageSize then return d
      else keysetRows exact prefixes pageSize includeValues limit draws pages (some last.1) d

def iterKeysetRows (spec : SqlScan K) (after : Option SqlKey) (draws : Option Nat) (pages : Nat) :
    SqlScript (Drawn K V) :=
  if spec.pageSize < 1 then
    .done (.error (.valueError ("page_size must be >= 1, got " ++ toString spec.pageSize)))
  else do
    let exact ← Script.done (b.scopeKeyRow false)
    b.keysetRows exact (b.leafPrefixMap spec.keyPrefix) spec.pageSize spec.includeValues spec.limit
      draws pages after ⟨[], [], .drawing⟩

/-- The rows of one query over the whole table. -/
def iterRows (spec : SqlScan K) (draws : Option Nat) : SqlScript (Drawn K V) := do
  let exact ← Script.done (b.scopeKeyRow false)
  let rows ← Medium.fetch fun t =>
    SqlRows.scanByKeyParts t b.sqlKvset.keyFields exact (b.leafPrefixMap spec.keyPrefix)
  rows.foldlM (b.drawRow b.collects spec.includeValues none draws) ⟨[], [], .drawing⟩

/-- Columns that may be ordered by, and the key's after them for a total order. -/
def resolveOrderBy (orderBy : List SqlRows.OrderBy) : Except Exn (List SqlRows.OrderBy) :=
  let allowed := b.sqlKvset.selectColumns
  if !b.adapter.supportsScanOrdering then
    .error (.scanUnsupported (b.adapter.name ++ " does not support order_by; implement " ++
      "supports_scan_ordering() and scan_ordered()"))
  else
    match orderBy.find? fun item => item.column ∉ allowed with
    | some item => .error (.scanUnsupported ("order_by column '" ++ item.column ++
        "' is not a declared column (have " ++
        reprNames (allowed.mergeSort fun s t => s ≤ t) ++ ")"))
    | none => .ok (orderBy ++ (b.sqlKvset.keyFields.filter fun f =>
        f ∉ orderBy.map (·.column)).map fun f => ⟨f, false⟩)

/-- The rows the database orders. It leaves out the expired ones itself, and none is deleted. -/
def iterOrderedRows (spec : SqlScan K) (orderBy : List SqlRows.OrderBy) (draws : Option Nat) :
    SqlScript (Drawn K V) := do
  let now ← Medium.time
  let exact ← Script.done (b.scopeKeyRow false)
  let rows ← Medium.fetch fun t =>
    SqlRows.scanOrdered t b.sqlKvset exact (b.leafPrefixMap spec.keyPrefix) orderBy
      (if spec.residual then none else spec.limit) ⟨now, b.ttlSeconds.map (· * 1000000), b.heldBy⟩
  rows.foldlM (b.drawRow false spec.includeValues none draws) ⟨[], [], .drawing⟩

/-- `compile_scan`, and its rows drawn: as many as the caller takes, from the pages it waits for.
    A generator nothing is drawn from never starts. -/
def draw (spec : SqlScan K) (draws : Option Nat) (pages : Nat) : SqlScript (Drawn K V) :=
  if b.keyLayout ≠ .literal then
    .done (.error (.scanUnsupported ("SqlDbKvStore scan requires KeyLayout.LITERAL (got " ++
      b.keyLayout.repr ++ ")")))
  else if spec.orderBy.isEmpty then
    if b.adapter.supportsPagedScan then do
      let after ← Script.done (spec.cursor.mapM fun token => do
        b.fullKeyRow (← b.decodeCursor token))
      if draws = some 0 then return ⟨[], [], .closed⟩ else b.iterKeysetRows spec after draws pages
    else if draws = some 0 then pure ⟨[], [], .closed⟩
    else b.iterRows spec draws
  else do
    let orderBy ← Script.done (b.resolveOrderBy spec.orderBy)
    if draws = some 0 then return ⟨[], [], .closed⟩ else b.iterOrderedRows spec orderBy draws

/-- The end of a generator: the expired rows it met are deleted, unless it was closed. -/
def finishRows (d : Drawn K V) : SqlScript (List (K × Option V)) :=
  if d.state = .closed || d.expired.isEmpty then pure d.rows
  else do
    let _ ← collectRows d.expired
    return d.rows

def scan (spec : SqlScan K) (draws : Option Nat) (pages : Nat) :
    SqlScript (List (K × Option V)) := do
  finishRows (← b.draw spec draws pages)

end SqlDbKvBackend

end Kvtsjl
