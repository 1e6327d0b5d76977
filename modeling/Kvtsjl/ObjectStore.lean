import Kvtsjl.SqlStore

/-
  `ObjectStoreKvBackend`: a leaf store over a driver of some object medium.
  A driver is a map from object keys to bodies and what the medium says of them. Every
  operation is a script of driver calls and readings of the clock.
-/

namespace Kvtsjl

open Assoc (Dict)
open Effects

/-! ## The medium -/

/-- Medium-level object metadata, before TTL policy interpretation. -/
structure BlobStat where
  key : String
  modifiedAt : Option Instant
  nativeExpiresAt : Option Instant
  size : Option Nat
  etag : Option String
  version : Option String

structure Blob where
  data : List UInt8
  stat : BlobStat

/-- A medium write option. -/
inductive HeaderValue where
  | instant (t : Instant)
  /-- A number of seconds since the epoch, as text. -/
  | seconds (t : Instant)
  | text (t : String)
  | nothing

abbrev Headers := Dict String HeaderValue

/-- A `BlobDriver`, as its contract has it. -/
structure BlobDriver where
  name : String
  maxBulkDelete : Nat
  /-- Whether it has the conditional put and delete. -/
  conditional : Bool
  /-- How many objects one page of a listing holds. -/
  listPageSize : Nat
  /-- What the medium says of an object it stores now. -/
  stamp : String → List UInt8 → Headers → Instant → BlobStat

/-- A script of driver calls. -/
abbrev BlobScript (α : Type) := Script Exn (Medium String Blob) (Deed String Blob) α

/-! ## Where expiry is read and written -/

inductive TtlSource where
  | objectTime
  | s3Expires
  | gcsCustomTime
  | azureMetadata
  | filesystemMtime
  | filesystemSidecar
deriving DecidableEq

namespace TtlSource

def supportsWriteClock : TtlSource → Bool
  | objectTime => false
  | _ => true

def supportsPerWriteTtl : TtlSource → Bool
  | objectTime => false
  | filesystemMtime => false
  | _ => true

/-- A listing does not say enough to decide expiry. -/
def needsHeadForListExpiry : TtlSource → Bool
  | s3Expires => true
  | _ => false

/-- When an object dies: at its native time where the source reads one, else its collection's
    TTL after it was last modified. -/
def deathTime (source : TtlSource) (stat : BlobStat) (ttl : Option Int) : Option Instant :=
  let relative := match ttl, stat.modifiedAt with
    | some ttl, some modified => some (modified + ttl * 1000000)
    | _, _ => none
  match source with
  | objectTime => relative
  | filesystemMtime => relative
  | _ => stat.nativeExpiresAt <|> relative

def isExpired (source : TtlSource) (stat : BlobStat) (ttl : Option Int) (now : Instant) : Bool :=
  (source.deathTime stat ttl).any (· ≤ now)

/-- Native times that stand for no expiry. -/
def persists (source : TtlSource) (native : Instant) : Bool :=
  native = ttlNoneExpiresAt || (source = gcsCustomTime && 4070908800000000 ≤ native)

def toRecordStat (source : TtlSource) (stat : BlobStat) (ttl : Option Int) : RecordStat :=
  let expires := source.deathTime stat ttl
  match source with
  | objectTime => ⟨stat.modifiedAt, stat.modifiedAt, expires, expires.isNone⟩
  | filesystemMtime => ⟨stat.modifiedAt, stat.modifiedAt, expires, expires.isNone⟩
  | _ =>
    if stat.nativeExpiresAt.any source.persists then ⟨stat.modifiedAt, stat.modifiedAt, none, true⟩
    else ⟨stat.modifiedAt, stat.modifiedAt, expires, expires.isNone⟩

/-- The medium options of a write: `expires` is its clock base and its TTL added up. -/
def writeHeaders (source : TtlSource) (expires : Option Instant) (clockBase : Instant)
    (explicitTtl createdAtSet : Bool) : Headers :=
  let token := match expires with
    | none => HeaderValue.text "none"
    | some t => HeaderValue.seconds t
  match source with
  | objectTime => Dict.empty
  | s3Expires =>
    if explicitTtl then Dict.single "Expires" (.instant (expires.getD ttlNoneExpiresAt))
    else Dict.empty
  | gcsCustomTime =>
    match expires with
    | some t => Dict.single "custom_time" (.instant t)
    | none =>
      Dict.single "custom_time" (if explicitTtl then .instant ttlNoneExpiresAt else .nothing)
  | azureMetadata => if explicitTtl then Dict.single "metadata" token else Dict.empty
  | filesystemMtime =>
    let headers := Dict.single "expires_sidecar" HeaderValue.nothing
    if createdAtSet then headers.set "mtime" (.instant clockBase) else headers
  | filesystemSidecar =>
    let headers : Headers :=
      if createdAtSet then Dict.single "mtime" (.instant clockBase) else Dict.empty
    headers.set "expires_sidecar" (if explicitTtl then token else .nothing)

end TtlSource

/-! ## The store -/

structure ObjectStoreKvBackend (K V : Type) where
  typeName : String
  driver : BlobDriver
  ttlSource : TtlSource
  expiryGc : ExpiryGc
  batchSize : Nat
  ttlPolicy : TtlPolicy
  keyLayout : KeyLayout
  /-- The key codec: the object of a key, the key of an object under a prefix, and what a
      listing of a prefix lists under. -/
  encodePhysical : K → Except Exn String
  decodeIfPrefix : String → Option K → Option K
  listingPrefix : Option K → Except Exn String
  serialize : V → List UInt8
  deserialize : List UInt8 → Except Exn V

namespace ObjectStoreKvBackend

variable {K V : Type} (b : ObjectStoreKvBackend K V)

def ttlSeconds : Option Int := b.ttlPolicy.ttlSeconds

def resolveTtlSeconds (ttl : Option TtlPolicy) : Option Int := (ttl.getD b.ttlPolicy).ttlSeconds

def isExpired (stat : BlobStat) (now : Instant) : Bool :=
  b.ttlSource.isExpired stat b.ttlSeconds now

/-! ### Driver calls -/

/-- `head` and `read`: the object of that key, whole. -/
def readBlob (objectKey : String) : BlobScript (Option Blob) := do
  let found ← Medium.fetch fun objects =>
    match objects.get? objectKey with
    | some blob => [(objectKey, blob)]
    | none => []
  return found.head?.map (·.2)

/-- `delete` of an object whose time was seen to be up. -/
def collectBlob (objectKey : String) (seen : Blob) : BlobScript Bool :=
  Medium.change (fun objects => ((objects.get? objectKey).isSome, objects.erase objectKey))
    fun _ => [.collected objectKey seen]

def deleteBlob (objectKey : String) : BlobScript Bool :=
  Medium.change (fun objects => ((objects.get? objectKey).isSome, objects.erase objectKey))
    fun _ => [.deleted objectKey]

def writeBlob (objectKey : String) (data : List UInt8) (headers : Headers) : BlobScript Unit :=
  Medium.changeAt
    (fun now objects =>
      ((), objects.set objectKey ⟨data, b.driver.stamp objectKey data headers now⟩))
    fun _ => [.wrote objectKey]

/-- The object is still of that version, or is still absent. -/
def holdsVersion (version : Option String) : Option Blob → Bool
  | none => version.isNone
  | some blob => version.isSome && blob.stat.version = version

/-- `write_if_version`: put only if the object still has that version, or is still absent. -/
def writeBlobIfVersion (objectKey : String) (data : List UInt8) (version : Option String)
    (headers : Headers) : BlobScript Bool :=
  if !b.driver.conditional then
    .done (.error (.unsupported (b.driver.name ++ " has no conditional put")))
  else Medium.changeAt
    (fun now objects =>
      if holdsVersion version (objects.get? objectKey) then
        (true, objects.set objectKey ⟨data, b.driver.stamp objectKey data headers now⟩)
      else (false, objects))
    fun written => if written then [.wrote objectKey] else []

/-- `delete_if_version` -/
def deleteBlobIfVersion (objectKey : String) (version : String) : BlobScript Bool :=
  if !b.driver.conditional then
    .done (.error (.unsupported (b.driver.name ++ " has no conditional delete")))
  else Medium.change
    (fun objects =>
      if holdsVersion (some version) (objects.get? objectKey) then
        (true, objects.erase objectKey)
      else (false, objects))
    fun deleted => if deleted then [.deleted objectKey] else []

/-- `bulk_delete`: how many of the objects there were. `why` is what the caller deletes each for. -/
def bulkDelete (objectKeys : List String) (why : String → Deed String Blob) : BlobScript Nat :=
  Medium.change
    (fun objects => objectKeys.foldl (fun (deleted, objects) k =>
      match objects.get? k with
      | some _ => (deleted + 1, objects.erase k)
      | none => (deleted, objects)) (0, objects))
    fun _ => objectKeys.map why

/-- One page of `list`: the objects under `listing` after `after`, in order of their keys. -/
def listPage (listing : String) (after : Option String) : BlobScript (List (String × Blob)) :=
  Medium.fetch fun objects =>
    ((objects.entries.filter fun e => e.1.startsWith listing && after.all (· < e.1)).mergeSort
      fun x y => x.1 ≤ y.1).take b.driver.listPageSize

/-! ### Reads -/

/-- `_read_live`, and `_live_stat`, which looks at the stat alone: the object unless its
    time is up. -/
def liveBlob (objectKey : String) : BlobScript (Option Blob) := do
  match ← readBlob objectKey with
  | none => return none
  | some blob => do
    let now ← Medium.time
    if b.isExpired blob.stat now then
      if b.expiryGc = .lazyDelete then
        let _ ← collectBlob objectKey blob
        return none
      else return none
    else return some blob

def get (key : K) : BlobScript (Option V) := do
  let objectKey ← Script.done (b.encodePhysical key)
  let blob ← b.liveBlob objectKey
  .done (blob.mapM fun blob => b.deserialize blob.data)

def existsKey (key : K) : BlobScript Bool := do
  let objectKey ← Script.done (b.encodePhysical key)
  return (← b.liveBlob objectKey).isSome

def stat (key : K) : BlobScript (Option RecordStat) := do
  let objectKey ← Script.done (b.encodePhysical key)
  let blob ← b.liveBlob objectKey
  return blob.map fun blob => b.ttlSource.toRecordStat blob.stat b.ttlSeconds

/-- The chunk asked key by key: those `ask` answers for. -/
def askEach {α : Type} (ask : K → BlobScript (Option α)) (chunk : List K) :
    BlobScript (List (K × α)) :=
  chunk.foldlM (fun out key => do
    match ← ask key with
    | some a => return out ++ [(key, a)]
    | none => return out) []

/-- The live keys of a chunk. -/
def presentIn (chunk : List K) : BlobScript (List K) := do
  let found ← askEach (fun key => do return if ← b.existsKey key then some () else none) chunk
  return found.map (·.1)

/-- A read against a version. An expired object reads as no value, and is left where it is. -/
def readVersioned (key : K) : BlobScript (Versioned V) := do
  let objectKey ← Script.done (b.encodePhysical key)
  match ← readBlob objectKey with
  | none => return Versioned.absent
  | some blob =>
    match blob.stat.version with
    | none => .done (.error (.unsupported (b.driver.name ++ " keeps no version to write against")))
    | some version => do
      let now ← Medium.time
      let value ← Script.done
        (if b.isExpired blob.stat now then .ok none else (b.deserialize blob.data).map some)
      return ⟨value, some (.text version)⟩

/-! ### Writes -/

def clockBase (createdAt : Option Instant) : BlobScript Instant :=
  match createdAt with
  | some t => pure t
  | none => Medium.time

/-- Validate a write's TTL and clock, and turn them into medium options. -/
def writeHeaders (ttl : Option TtlPolicy) (createdAt : Option Instant) : BlobScript Headers :=
  if ttl.isSome && !b.ttlSource.supportsPerWriteTtl then
    .done (.error (.ttlUnsupported
      (b.typeName ++ " does not support per-write ttl with the current provision")))
  else if createdAt.isSome && !b.ttlSource.supportsWriteClock then
    .done (.error (.ttlUnsupported
      (b.typeName ++ " does not support created_at with the current provision")))
  else do
    let base ← clockBase createdAt
    return b.ttlSource.writeHeaders ((b.resolveTtlSeconds ttl).map fun secs => base + secs * 1000000)
      base ttl.isSome createdAt.isSome

def set (key : K) (value : V) (options : WriteOptions) : BlobScript Unit := do
  let objectKey ← Script.done (b.encodePhysical key)
  let headers ← b.writeHeaders options.ttl options.createdAt
  b.writeBlob objectKey (b.serialize value) headers

/-- `write` of `batch_write_if_unchanged`: one key's conditional put or delete. -/
def writeIfUnchanged (key : K) (w : ConditionalWrite V) (ttl : Option TtlPolicy) :
    BlobScript Bool := do
  let objectKey ← Script.done (b.encodePhysical key)
  let version := w.seen.version.map fun
    | .text version => version
    | other => reprStr other
  match w.change with
  | .remove =>
    match version with
    | none => return false
    | some version => b.deleteBlobIfVersion objectKey version
  | .put value => do
    let headers ← b.writeHeaders ttl w.createdAt
    b.writeBlobIfVersion objectKey (b.serialize value) version headers

def delete (key : K) : BlobScript Bool := do
  let objectKey ← Script.done (b.encodePhysical key)
  deleteBlob objectKey

/-- Delete the objects of a chunk that are live, in one request. -/
def deleteChunk (why : String → Deed String Blob) (chunk : List K) : BlobScript Nat := do
  let present ← b.presentIn chunk
  let toDelete ← Script.done (present.mapM b.encodePhysical)
  if toDelete.isEmpty then return 0 else bulkDelete toDelete why

/-- `batch_delete`, for the reason `why` gives for each object. -/
def deleteBatch [DecidableEq K] (why : String → Deed String Blob) (keys : List K) :
    BlobScript Nat := do
  let chunks ← Script.done
    (chunkSequence (Dict.unique keys) (min b.batchSize b.driver.maxBulkDelete))
  chunks.foldlM (fun n chunk => do return n + (← b.deleteChunk why chunk)) 0

def batchDelete [DecidableEq K] (keys : List K) : BlobScript Nat :=
  if keys.isEmpty then pure 0 else b.deleteBatch .deleted keys

/-! ### Listings -/

/-- What a listed object's expiry is decided by: the object asked for anew where the listing does
    not say enough. -/
def enrichListStat (listed : String × Blob) : BlobScript (Option Blob) :=
  if b.ttlSource.needsHeadForListExpiry then readBlob listed.1 else pure (some listed.2)

/-- The listing page by page, `pages` of them at most, `step` of each object in turn until it
    says to stop. -/
def walk {α : Type} (listing : String) (step : α → String × Blob → BlobScript (α × Bool)) :
    Nat → Option String → α → BlobScript α
  | 0, _, acc => pure acc
  | pages + 1, after, acc => do
    let page ← b.listPage listing after
    let (acc, more) ← page.foldlM (fun (acc, more) listed =>
      if more then step acc listed else pure (acc, more)) (acc, true)
    match page.getLast? with
    | none => return acc
    | some last =>
      if more && page.length = b.driver.listPageSize then
        walk listing step pages (some last.1) acc
      else return acc

/-- A generator's turn with one listed object. Its caller takes `draws` rows, all of them where
    it says nothing. -/
def drawListed (userPrefix : Option K) (includeValues : Bool) (draws : Option Nat)
    (rows : List (K × Option V)) (listed : String × Blob) :
    BlobScript (List (K × Option V) × Bool) := do
  let drawn (row : K × Option V) : List (K × Option V) × Bool :=
    (rows ++ [row], !draws.any (· ≤ rows.length + 1))
  match ← b.enrichListStat listed with
  | none => return (rows, true)
  | some blob => do
    let now ← Medium.time
    if b.isExpired blob.stat now then
      if b.expiryGc = .lazyDelete then
        let _ ← collectBlob listed.1 blob
        return (rows, true)
      else return (rows, true)
    else
      match b.decodeIfPrefix listed.1 userPrefix with
      | none => return (rows, true)
      | some key =>
        if includeValues then
          match ← b.liveBlob listed.1 with
          | none => return (rows, true)
          | some blob => do
            let value ← Script.done (b.deserialize blob.data)
            return drawn (key, some value)
        else return drawn (key, none)

/-- `compile_scan`, and its rows drawn. -/
def scan (keyPrefix : Option K) (includeValues : Bool) (draws : Option Nat) (pages : Nat) :
    BlobScript (List (K × Option V)) :=
  if b.keyLayout ≠ .literal then
    .done (.error (.scanUnsupported (b.typeName ++ " scan requires KeyLayout.LITERAL (got " ++
      b.keyLayout.repr ++ ")")))
  else do
    let listing ← Script.done (b.listingPrefix keyPrefix)
    if draws = some 0 then return []
    else b.walk listing (b.drawListed keyPrefix includeValues draws) pages none []

/-- The expired objects of a listing, with their keys. -/
def findListed (limit : Nat) (found : List (K × String × Blob)) (listed : String × Blob) :
    BlobScript (List (K × String × Blob) × Bool) := do
  if limit ≤ found.length then return (found, false)
  else
    match ← b.enrichListStat listed with
    | none => return (found, true)
    | some blob => do
      let now ← Medium.time
      if b.isExpired blob.stat now then
        match b.decodeIfPrefix listed.1 none with
        | none => return (found, true)
        | some key => return (found ++ [(key, listed.1, blob)], true)
      else return (found, true)

def expiredListed (limit : Int) (pages : Nat) : BlobScript (List (K × String × Blob)) :=
  if limit < 1 then .done (.error (.valueError ("limit must be >= 1, got " ++ toString limit)))
  else do
    let listing ← Script.done (b.listingPrefix none)
    b.walk listing (b.findListed limit.toNat) pages none []

def expiredKeys (limit : Int) (pages : Nat) : BlobScript (List K) := do
  return (← b.expiredListed limit pages).map (·.1)

/-- What collection deletes an object for: the listing that showed it expired. An object that was not listed
    goes as one that `delete` names. -/
def collectedFor (found : List (K × String × Blob)) (objectKey : String) : Deed String Blob :=
  match found.find? fun e => e.2.1 = objectKey with
  | some e => .collected objectKey e.2.2
  | none => .deleted objectKey

/-- `gc_expired_keys` of the base class: find the expired keys, then delete them. -/
def gcExpiredKeys [DecidableEq K] (maxEntries : Int) (pages : Nat) : BlobScript (List K) :=
  if maxEntries < 1 then
    .done (.error (.valueError ("max_entries must be >= 1, got " ++ toString maxEntries)))
  else do
    let found ← b.expiredListed maxEntries pages
    if found.isEmpty then return []
    else
      let _ ← b.deleteBatch (collectedFor found) (found.map (·.1))
      return found.map (·.1)

end ObjectStoreKvBackend

end Kvtsjl
