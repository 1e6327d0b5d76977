import Kvtsjl.Cascade
import Kvtsjl.SqlStore

/-
  `scan_rows` of a leaf: it compiles a spec to a listing and to what is left to filter by, and
  the cascade filters. A leaf without a `compile_scan` of its own lists with `scan_entries`.
  How the rows are listed is given; what the spec makes of them is here.
-/

namespace Kvtsjl

open Assoc (Dict)
open Effects Prog
open SqlRows (OrderBy)

/-! ## Specs -/

structure ScanSpec (K V : Type) where
  where_ : Predicate K V
  refine : Option (ScanRow K V → Bool)
  project : Projection
  order : ScanOrder
  limit : Option Int
  pageSize : Nat
  cursor : Option String
  onUnsupported : Pushdown
  orderBy : List OrderBy
  one_order : orderBy ≠ [] → order = .unordered ∧ cursor = none

namespace ScanSpec

variable {K V : Type} (spec : ScanSpec K V)

/-- What the cascade is asked, with `residual` left to filter by. -/
def call (residual : Predicate K V) : CascadeCall K V :=
  ⟨residual, spec.refine, spec.limit, spec.project⟩

/-- Nothing but a prefix. -/
def ofPrefix (pre : Option K) (project : Projection) (order : ScanOrder) (cursor : Option String)
    (pageSize : Nat) : ScanSpec K V where
  where_ := match pre with
    | some pre => .keyPrefix pre
    | none => .alwaysTrue
  refine := none
  project := project
  order := order
  limit := none
  pageSize := pageSize
  cursor := cursor
  onUnsupported := .clientSide
  orderBy := []
  one_order h := absurd rfl h

end ScanSpec

/-- `enforce_order_by_supported`: `order_by` is never applied by the client. -/
def enforceOrderBySupported {K V : Type} (spec : ScanSpec K V) (orderable : Option (List String))
    (backend : String) : Except Exn Unit :=
  if spec.orderBy = [] then .ok ()
  else match orderable with
    | none => .error (.scanUnsupported (backend ++ " does not support order_by (no orderable " ++
        "columns); order_by is never applied client-side"))
    | some columns =>
      let unknown := (spec.orderBy.map fun item => item.column).filter fun c => c ∉ columns
      if unknown = [] then .ok ()
      else .error (.scanUnsupported (backend ++ " order_by column(s) " ++ reprNames unknown ++
        " are not declared (have " ++ reprNames (columns.mergeSort fun s t => s ≤ t) ++ ")"))

/-- `enforce_strict` -/
def enforceStrict {K V : Type} (spec : ScanSpec K V) (residual : Predicate K V) (backend : String) :
    Except Exn Unit :=
  if spec.onUnsupported = .strict && !residual.isAlwaysTrue then
    .error (.scanUnsupported (backend ++ " cannot push residual: " ++ residual.label))
  else .ok ()

/-! ## Compiling -/

/-- The rows a leaf brings, and what is left to filter by. -/
structure CompiledScan (S K V : Type) where
  rows : M S (List (ScanRow K V))
  residual : Predicate K V

section Compile

variable {S K V : Type} [DecidableEq K] [ScanKey K]

/-- `after_cursor`: the rows after the one whose key is the token. -/
def afterCursor (cursor : Option String) (rows : List (ScanRow K V)) : List (ScanRow K V) :=
  match cursor with
  | none => rows
  | some token => (rows.dropWhile fun row => ScanKey.text row.key ≠ token).tail

/-- `compile_from_scan_entries` -/
def compileFromScanEntries (scanEntries : ScanQuery K → M S (List (K × Option V)))
    (spec : ScanSpec K V) (backend : String) : Except Exn (CompiledScan S K V) := do
  let (pre, residual) := spec.where_.peelKeyPrefix
  let rows : M S (List (ScanRow K V)) := do
    let entries ← scanEntries ⟨pre, spec.project = .entries, spec.pageSize⟩
    return afterCursor spec.cursor (entries.map fun e => ⟨e.1, e.2, none⟩)
  enforceStrict spec residual backend
  return ⟨rows, residual⟩

/-- How an object store lists. -/
structure ObjectListing (S K V : Type) where
  typeName : String
  keyLayout : KeyLayout
  /-- `_iter_listed_rows`, under the listing prefix of a prefix. -/
  listedRows : Option K → Bool → M S (List (ScanRow K V))

/-- `ObjectStoreKvBackend.compile_scan` -/
def ObjectListing.compileScan (b : ObjectListing S K V) (spec : ScanSpec K V) :
    Except Exn (CompiledScan S K V) :=
  if b.keyLayout ≠ .literal then
    .error (.scanUnsupported (b.typeName ++ " scan requires KeyLayout.LITERAL (got " ++
      b.keyLayout.repr ++ ")"))
  else do
    let (pre, residual) := spec.where_.peelKeyPrefix
    enforceStrict spec residual b.typeName
    return ⟨b.listedRows pre (spec.project = .entries), residual⟩

/-- How a SQL store lists. -/
structure SqlListing (S K V : Type) where
  typeName : String
  keyLayout : KeyLayout
  supportsPagedScan : Bool
  afterKeyFromCursor : String → Except Exn SqlKey
  /-- The rows of the keyset pages under a prefix, from a key on. -/
  keysetRows : Option K → Option SqlKey → Nat → Bool → M S (List (ScanRow K V))
  resolveOrderBy : List OrderBy → Except Exn (List OrderBy)
  /-- `_iter_ordered_rows` -/
  orderedRows : Option K → List OrderBy → Option Int → Bool → M S (List (ScanRow K V))
  scanEntries : ScanQuery K → M S (List (K × Option V))

namespace SqlListing

variable (b : SqlListing S K V)

/-- A generator that returns once it has yielded `limit` rows. It looks after each. -/
def drawn (limit : Option Int) (rows : List (ScanRow K V)) : List (ScanRow K V) :=
  match limit with
  | none => rows
  | some limit => rows.take (max limit.toNat 1)

/-- `_compile_keyset_scan`: the limit goes with the pages, whatever is left to filter by. -/
def compileKeysetScan (spec : ScanSpec K V) : Except Exn (CompiledScan S K V) := do
  let (pre, residual) := spec.where_.peelKeyPrefix
  let after ← spec.cursor.mapM b.afterKeyFromCursor
  let rows : M S (List (ScanRow K V)) := do
    return drawn spec.limit (← b.keysetRows pre after spec.pageSize (spec.project = .entries))
  enforceStrict spec residual b.typeName
  return ⟨rows, residual⟩

def notLiteral : Exn :=
  .scanUnsupported ("SqlDbKvStore scan requires KeyLayout.LITERAL (got " ++ b.keyLayout.repr ++ ")")

/-- `SqlDbKvBackend.compile_scan` -/
def compileScan (spec : ScanSpec K V) : Except Exn (CompiledScan S K V) :=
  if spec.orderBy = [] then
    if b.supportsPagedScan then
      if b.keyLayout ≠ .literal then .error b.notLiteral else b.compileKeysetScan spec
    else compileFromScanEntries b.scanEntries spec b.typeName
  else if b.keyLayout ≠ .literal then .error b.notLiteral
  else do
    let orderBy ← b.resolveOrderBy spec.orderBy
    let (pre, residual) := spec.where_.peelKeyPrefix
    -- a limit pushed under a filter would count rows the filter then drops
    let limit := if residual.isAlwaysTrue && spec.refine.isNone then spec.limit else none
    enforceStrict spec residual b.typeName
    return ⟨b.orderedRows pre orderBy limit (spec.project = .entries), residual⟩

end SqlListing

/-- How a leaf lists its rows. -/
inductive Listing (S K V : Type) where
  /-- It has no `compile_scan` of its own. -/
  | legacy (backend : String) (scanEntries : ScanQuery K → M S (List (K × Option V)))
  | object (b : ObjectListing S K V)
  | sql (b : SqlListing S K V)

def Listing.compileScan : Listing S K V → ScanSpec K V → Except Exn (CompiledScan S K V)
  | .legacy backend scanEntries, spec => compileFromScanEntries scanEntries spec backend
  | .object b, spec => b.compileScan spec
  | .sql b, spec => b.compileScan spec

end Compile

/-- What others read of a store by scanning it. -/
structure Scannable (S K V : Type) where
  scanRows : ScanSpec K V → M S (List (ScanRow K V))
  batchGet : List K → M S (Dict K V)

/-- A leaf, as far as it is scanned. -/
structure LeafKvStore (S K V : Type) where
  backend : String
  orderableColumns : Option (List String)
  listing : Listing S K V
  batchGet : List K → M S (Dict K V)

section Leaf

variable {S K V : Type} [DecidableEq K] [ScanKey K] (l : LeafKvStore S K V)

/-- `LeafKvStore.scan_rows` -/
def LeafKvStore.scanRows (spec : ScanSpec K V) : M S (List (ScanRow K V)) := do
  ofExcept (enforceOrderBySupported spec l.orderableColumns l.backend)
  let compiled ← ofExcept (l.listing.compileScan spec)
  let rows ← compiled.rows
  applyCascade (spec.call compiled.residual) (some l.batchGet) rows

def LeafKvStore.scannable : Scannable S K V := ⟨l.scanRows, l.batchGet⟩

end Leaf

/-- A memory store as a leaf. It has no `compile_scan` of its own. -/
def MemoryKvBackend.leafStore {K V α VB : Type} [DecidableEq K] [DecidableEq α]
    (b : MemoryKvBackend K V α VB) : LeafKvStore (MemoryRoot α VB) K V where
  backend := "MemoryKvBackend"
  orderableColumns := none
  listing := .legacy "MemoryKvStore" b.scanEntries
  batchGet := b.batchGet

end Kvtsjl
