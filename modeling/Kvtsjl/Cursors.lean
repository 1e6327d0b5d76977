import Kvtsjl.KeysetScans
import Kvtsjl.ObjectScan
import Kvtsjl.SqlReads
import Kvtsjl.ValueScans

/-
  Scans that pick up at a cursor.
  A table that is read in pages decodes the token to a key row and goes on behind it. An object store says
  that it can do so too, but lists from the start whatever the cursor is.
-/

namespace Kvtsjl

open Assoc (Dict)
open Effects Prog
open SqlRows (OrderBy)

/-- The same scan, from a token on. One that is ordered takes no cursor. -/
def ScanSpec.resumedAt {K V : Type} (spec : ScanSpec K V) (h : spec.orderBy = []) (token : String) : ScanSpec K V :=
  { spec with cursor := some token, one_order := fun horder => absurd h horder }

namespace SqlDbKvBackend

variable {K V : Type} (b : SqlDbKvBackend K V)

/-! ## A table as a leaf -/

/-- `_after_key_from_cursor` -/
def afterKeyFromCursor (token : String) : Except Exn SqlKey := do
  b.fullKeyRow (← b.decodeCursor token)

/-- A row that the database ordered, with its stat. -/
def orderedRow (includeValues : Bool) (rows : List (ScanRow K V)) (row : SqlKey × SqlDbRow) :
    SqlScript (List (ScanRow K V)) := do
  if ← b.rowExpired row.2 then return rows
  else if !b.holds row.2 then return rows
  else
    match b.decodeLeafKey row.1 with
    | none => return rows
    | some key => do
      let value ← Script.done (if includeValues then (b.readRow row).map some else .ok none)
      let record ← Script.done (b.statFromRow row.2)
      return rows ++ [⟨key, value, some ⟨none, record.modifiedAt, record.expiresAt, none⟩⟩]

/-- `_iter_ordered_rows` -/
def orderedRows (userPrefix : Option K) (orderBy : List OrderBy) (limit : Option Int) (includeValues : Bool) :
    SqlScript (List (ScanRow K V)) := do
  let now ← Medium.time
  let exact ← Script.done (b.scopeKeyRow false)
  let rows ← Medium.fetch fun t =>
    SqlRows.scanOrdered t b.sqlKvset exact (b.leafPrefixMap userPrefix) orderBy
      -- to the database a negative limit is none
      (limit.bind fun n => if n < 0 then none else some n.toNat) ⟨now, b.ttlSeconds.map (· * 1000000), b.heldBy⟩
  rows.foldlM (b.orderedRow includeValues) []

/-- The scan for a query that `scan_entries` and the keyset pages run, to its end. -/
def wholeScan (query : ScanQuery K) : SqlScan K :=
  ⟨query.keyPrefix, query.includeValues, [], none, none, query.pageSize, false⟩

/-- How it lists for `compile_scan`, `pages` of the table at most. -/
def listing (pages : Nat) : SqlListing (Medium SqlKey SqlDbRow) K V where
  typeName := "SqlDbKvBackend"
  keyLayout := b.keyLayout
  supportsPagedScan := b.adapter.supportsPagedScan
  afterKeyFromCursor := b.afterKeyFromCursor
  keysetRows userPrefix after pageSize includeValues := do
    let rows ← Script.run (do
      finishRows (← b.iterKeysetRows (wholeScan ⟨userPrefix, includeValues, pageSize⟩) after none pages))
    return rows.map fun e => ⟨e.1, e.2, none⟩
  resolveOrderBy := b.resolveOrderBy
  orderedRows userPrefix orderBy limit includeValues :=
    (b.orderedRows userPrefix orderBy limit includeValues).run
  scanEntries query := (b.scan (wholeScan query) none pages).run

def leafStore [DecidableEq K] (pages : Nat) : LeafKvStore (Medium SqlKey SqlDbRow) K V where
  backend := "SqlDbKvBackend"
  orderableColumns := if b.adapter.supportsScanOrdering then some b.sqlKvset.selectColumns else none
  listing := .sql (b.listing pages)
  batchGet keys := (b.batchGet keys).run

/-! ## The rows of its pages -/

/-- The row of a page that the scan yields, if it is shown. -/
def listedRow (includeValues : Bool) (now : Instant) (row : SqlKey × SqlDbRow) : Option (ScanRow K V) :=
  (b.shownRow now row).map fun key => ⟨key, if includeValues then (b.readRow row).toOption else none, none⟩

/-- The rows shown behind a key. -/
def shownAfter (userPrefix : Option K) (m : Medium SqlKey SqlDbRow) (after : Option SqlKey) :
    List (SqlKey × SqlDbRow) :=
  (b.restOf b.scopeCells (b.leafPrefixMap userPrefix) after m.entries).filter fun row => (b.shownRow m.clock row).isSome

variable {b} {m : Medium SqlKey SqlDbRow}

theorem shownAfter_sorted (userPrefix : Option K) (after : Option SqlKey) :
    (b.shownAfter userPrefix m after).Pairwise SqlRows.keyLt :=
  ((SqlRows.scanByKeyParts_sorted m.entries _ _ _).filter _).filter _

theorem mem_shownAfter {userPrefix : Option K} {after : Option SqlKey} {row : SqlKey × SqlDbRow} :
    row ∈ b.shownAfter userPrefix m after ↔
      row ∈ b.shownAfter userPrefix m none ∧ ∀ k, after = some k → SqlRows.keyLe row.1 k = false := by
  unfold shownAfter
  rw [List.mem_filter, List.mem_filter, mem_restOf, mem_restOf]
  constructor
  · intro ⟨⟨hrow, hafter⟩, hshown⟩
    exact ⟨⟨⟨hrow, fun k hk => nomatch hk⟩, hshown⟩, hafter⟩
  · intro ⟨⟨⟨hrow, _⟩, hshown⟩, hafter⟩
    exact ⟨⟨hrow, hafter⟩, hshown⟩

theorem filterMap_listedRow (includeValues : Bool) (userPrefix : Option K) (after : Option SqlKey) :
    (b.restOf b.scopeCells (b.leafPrefixMap userPrefix) after m.entries).filterMap
      (b.listedRow includeValues m.clock) =
    (b.shownAfter userPrefix m after).filterMap (b.listedRow includeValues m.clock) := by
  unfold shownAfter
  rw [List.filterMap_filter]
  refine List.filterMap_congr fun row _ => ?_
  unfold listedRow
  cases b.shownRow m.clock row <;> rfl

/-- What the generator makes of a row that can be read. -/
theorem turn_readable (hread : b.Readable m) (includeValues : Bool) {row : SqlKey × SqlDbRow}
    (hrow : row ∈ m.entries.entries) : b.turn includeValues m.clock row =
      .ok ((b.listedRow includeValues m.clock row).map fun shown => (shown.key, shown.value)) := by
  obtain ⟨expired, hat, -⟩ := rowExpired_run (hread.timed row hrow) m
  unfold turn listedRow shownRow
  rw [hat]
  cases expired with
  | true =>
    rw [isLive_expired hat]
    rfl
  | false =>
    have hlive := isLive_unexpired hat
    show (if (!b.holds row.2) = true then _ else _) = _
    cases hholds : b.holds row.2 with
    | false =>
      rw [hlive, hholds]
      rfl
    | true =>
      rw [hholds] at hlive
      obtain ⟨v, hv⟩ := hread.values row hrow hlive
      rw [hlive, Bool.not_true, if_neg Bool.false_ne_true, if_pos rfl]
      cases b.decodeLeafKey row.1 with
      | none => rfl
      | some key =>
        cases includeValues with
        | false => rfl
        | true =>
          rw [hv]
          rfl

/-- The end of a scan deletes rows only whose time was up. -/
theorem finishRows_kept {d : Drawn K V} (h : ∀ row ∈ d.expired, row ∈ m.entries.entries ∧
    b.rowExpiredAt row.2 m.clock = .ok true) : ∃ s, (finishRows d).run m = (.ok d.rows, s) ∧ b.Kept m s := by
  unfold finishRows
  split
  · exact ⟨m, rfl, b.kept_refl m⟩
  · refine ⟨{ m with entries := (SqlRows.deleteByKeys m.entries (d.expired.map (·.1))).2 }, rfl, rfl, fun k => ?_⟩
    show (SqlRows.deleteByKeys m.entries _).2.get? k = _ ∨ (SqlRows.deleteByKeys m.entries _).2.get? k = none ∧ _
    rw [SqlRows.get?_deleteByKeys]
    split
    · next hmem =>
      obtain ⟨row, hrow, rfl⟩ := List.mem_map.mp hmem
      exact .inr ⟨rfl, row.2, Dict.mem_entries.mp (h row hrow).1, (h row hrow).2⟩
    · exact .inl rfl

/-- Enough pages bring the rows shown behind the key. -/
theorem keysetRows_listed (hread : b.Readable m) (userPrefix : Option K) (after : Option SqlKey) {pageSize : Nat}
    (hsize : 1 ≤ pageSize) (includeValues : Bool) {pages : Nat} (hpages : m.entries.entries.length < pages) :
    ∃ s, (b.listing pages).keysetRows userPrefix after pageSize includeValues m =
      (.ok ((b.shownAfter userPrefix m after).filterMap (b.listedRow includeValues m.clock)), s) ∧ b.Kept m s := by
  let rest := b.restOf b.scopeCells (b.leafPrefixMap userPrefix) after m.entries
  have hheld : ∀ row ∈ rest, row ∈ m.entries.entries := fun row hrow =>
    (List.mem_filter.mp (List.mem_mergeSort.mp (mem_restOf.mp hrow).1)).1
  have hturns : rest.mapM (b.turn includeValues m.clock) = .ok (rest.map fun row =>
      (b.listedRow includeValues m.clock row).map fun shown => (shown.key, shown.value)) :=
    exceptMapM_ok fun row hrow => turn_readable hread includeValues (hheld row hrow)
  have hstart : (⟨[], [], .drawing⟩ : Drawn K V).state = .drawing := rfl
  obtain ⟨expired, hdrawn⟩ := @drawRows_run_eq K V b includeValues b.collects rest m _ hstart
  rw [hturns] at hdrawn
  have hdead : ∀ row ∈ expired, row ∈ m.entries.entries ∧ b.rowExpiredAt row.2 m.clock = .ok true := by
    intro row hrow
    rcases drawRows_expired rest m _ _ (congrArg Prod.fst hdrawn) row hrow with hnil | ⟨-, hmem, hexpired⟩
    · cases hnil
    · exact ⟨hheld row hmem, hexpired⟩
  obtain ⟨s, hfinish, hs⟩ := finishRows_kept (d := ⟨[] ++ (rest.map fun row =>
    (b.listedRow includeValues m.clock row).map fun shown => (shown.key, shown.value)).filterMap id, expired,
      .drawing⟩) hdead
  have hall : ∀ x, x ∈ rest ↔ x ∈ m.entries.entries ∧ SqlRows.selects b.sqlKvset.keyFields b.scopeCells
      (b.leafPrefixMap userPrefix) x.1 = true ∧ ∀ k, after = some k → SqlRows.keyLe x.1 k = false := by
    intro x
    show x ∈ b.restOf _ _ _ _ ↔ _
    rw [mem_restOf]
    unfold SqlRows.scanByKeyParts SqlRows.ordered
    rw [List.mem_mergeSort, List.mem_filter, and_assoc]
  have htrans : ∀ j k l : SqlKey, SqlRows.keyLe k j = false → SqlRows.keyLe l k = false →
      SqlRows.keyLe l j = false := fun j k l h h' =>
    @SqlRows.keyLt_trans (j, fun _ => none) (k, fun _ => none) (l, fun _ => none) h h'
  have hirrefl : ∀ k : SqlKey, ¬ SqlRows.keyLe k k = false := by
    intro k
    rw [Bool.not_eq_false]
    exact (SqlRows.keyLe_total k k).elim id id
  have hscan := keysetScanOver_run (b := b) htrans hirrefl
    (scanPageByKeyParts_ascends b.sqlKvset.keyFields b.scopeCells (b.leafPrefixMap userPrefix)) includeValues none
    ((SqlRows.scanByKeyParts_sorted m.entries _ _ _).filter _) hall (fun _ => rfl) hsize hpages
  refine ⟨s, ?_, hs⟩
  have hrun : (Script.run (do finishRows (← b.iterKeysetRows (wholeScan ⟨userPrefix, includeValues, pageSize⟩) after
      none pages) : SqlScript (List (K × Option V)))) m = (.ok ((rest.filterMap
        (b.listedRow includeValues m.clock)).map fun shown => (shown.key, shown.value)), s) := by
    rw [iterKeysetRows_eq]
    refine hscan.trans ?_
    show (Script.run (do finishRows (← rest.foldlM (b.drawRow b.collects includeValues none none)
      ⟨[], [], .drawing⟩) : SqlScript (List (K × Option V)))) m = _
    rw [Script.run_bind, bind_ok hdrawn, hfinish, List.nil_append, List.filterMap_map, List.map_filterMap]
    rfl
  show (Script.run _ >>= fun rows : List (K × Option V) =>
    pure (rows.map fun e => (⟨e.1, e.2, none⟩ : ScanRow K V))) m = _
  rw [bind_ok hrun, List.map_map, ← filterMap_listedRow]
  have hback : (rest.filterMap (b.listedRow includeValues m.clock)).map
      ((fun e => (⟨e.1, e.2, none⟩ : ScanRow K V)) ∘ fun shown => (shown.key, shown.value)) =
      rest.filterMap (b.listedRow includeValues m.clock) := by
    rw [List.map_filterMap]
    refine List.filterMap_congr fun row _ => ?_
    unfold listedRow
    cases b.shownRow m.clock row <;> rfl
  rw [hback]
  rfl

/-! ## What the scan gives -/

/-- The rows shown behind a key, as many as the limit lets the pages give. -/
def within (b : SqlDbKvBackend K V) (spec : ScanSpec K V) (m : Medium SqlKey SqlDbRow) (after : Option SqlKey) :
    List (SqlKey × SqlDbRow) :=
  match spec.limit with
  | none => b.shownAfter spec.where_.peelKeyPrefix.1 m after
  | some limit => (b.shownAfter spec.where_.peelKeyPrefix.1 m after).take (max limit.toNat 1)

/-- Two rows are not read as one key. -/
def Distinct (b : SqlDbKvBackend K V) (spec : ScanSpec K V) (m : Medium SqlKey SqlDbRow) : Prop :=
  ∀ x ∈ b.shownAfter spec.where_.peelKeyPrefix.1 m none, ∀ y ∈ b.shownAfter spec.where_.peelKeyPrefix.1 m none,
    b.decodeLeafKey x.1 = b.decodeLeafKey y.1 → x = y

section Given

variable [ScanKey K]

/-- The row given for a row of the table, if it passes. -/
def judged (b : SqlDbKvBackend K V) (spec : ScanSpec K V) (place : K → SqlKey) (m : Medium SqlKey SqlDbRow)
    (row : SqlKey × SqlDbRow) : Option (ScanRow K V) :=
  (b.listedRow (spec.project = .entries) m.clock row).bind
    (judge (spec.call spec.where_.peelKeyPrefix.2) (b.content place m))

/-- What the scan gives behind a key. -/
def given (b : SqlDbKvBackend K V) (spec : ScanSpec K V) (place : K → SqlKey) (m : Medium SqlKey SqlDbRow)
    (after : Option SqlKey) : List (ScanRow K V) :=
  cut (spec.call spec.where_.peelKeyPrefix.2) ((b.within spec m after).filterMap (b.judged spec place m))

omit [ScanKey K] in
theorem within_sublist (spec : ScanSpec K V) (after : Option SqlKey) :
    (b.within spec m after).Sublist (b.shownAfter spec.where_.peelKeyPrefix.1 m after) := by
  unfold within
  split
  · exact List.Sublist.refl _
  · exact List.take_sublist _ _

omit [ScanKey K] in
theorem within_subset (spec : ScanSpec K V) (after : Option SqlKey) :
    b.within spec m after ⊆ b.shownAfter spec.where_.peelKeyPrefix.1 m none := fun _ hrow =>
  (mem_shownAfter.mp ((within_sublist spec after).subset hrow)).1

omit [ScanKey K] in
theorem within_sorted (spec : ScanSpec K V) (after : Option SqlKey) :
    (b.within spec m after).Pairwise SqlRows.keyLt :=
  (shownAfter_sorted spec.where_.peelKeyPrefix.1 after).sublist (within_sublist spec after)

omit [ScanKey K] in
theorem listedRow_of_shown {userPrefix : Option K} {after : Option SqlKey} {row : SqlKey × SqlDbRow}
    (h : row ∈ b.shownAfter userPrefix m after) (includeValues : Bool) :
    ∃ shown, b.listedRow includeValues m.clock row = some shown ∧ b.decodeLeafKey row.1 = some shown.key := by
  obtain ⟨key, hkey⟩ := Option.isSome_iff_exists.mp (List.mem_filter.mp h).2
  refine ⟨⟨key, if includeValues then (b.readRow row).toOption else none, none⟩, ?_, ?_⟩
  · unfold listedRow
    rw [hkey]
    rfl
  · unfold shownRow at hkey
    split at hkey
    · exact hkey
    · cases hkey

omit [ScanKey K] in
/-- The generator stops at the limit. -/
theorem drawn_listed (spec : ScanSpec K V) (after : Option SqlKey) (includeValues : Bool) :
    SqlListing.drawn spec.limit ((b.shownAfter spec.where_.peelKeyPrefix.1 m after).filterMap
      (b.listedRow includeValues m.clock)) =
    (b.within spec m after).filterMap (b.listedRow includeValues m.clock) := by
  have hmapped : ∀ rows : List (SqlKey × SqlDbRow), rows ⊆ b.shownAfter spec.where_.peelKeyPrefix.1 m after →
      ∀ n, (rows.filterMap (b.listedRow includeValues m.clock)).take n =
        (rows.take n).filterMap (b.listedRow includeValues m.clock) := by
    intro rows
    induction rows with
    | nil => exact fun _ n => by rw [List.filterMap_nil, List.take_nil, List.take_nil, List.filterMap_nil]
    | cons row rows ih =>
      intro hrows n
      obtain ⟨shown, hshown, -⟩ := listedRow_of_shown (hrows List.mem_cons_self) includeValues
      cases n with
      | zero => rfl
      | succ n =>
        rw [List.filterMap_cons_some hshown, List.take_succ_cons, List.take_succ_cons,
          List.filterMap_cons_some hshown, ih (fun _ hmem => hrows (List.mem_cons_of_mem _ hmem))]
  unfold SqlListing.drawn within
  cases spec.limit with
  | none => rfl
  | some limit => exact hmapped _ (fun _ h => h) _

omit [ScanKey K] in
theorem listed_nodup {spec : ScanSpec K V} (h : b.Distinct spec m) (after : Option SqlKey) (includeValues : Bool) :
    (((b.within spec m after).filterMap (b.listedRow includeValues m.clock)).map fun row => row.key).Nodup := by
  have hnodup : (b.within spec m after).Nodup := by
    refine List.Pairwise.imp ?_ (within_sorted spec after)
    rintro x y hlt rfl
    exact SqlRows.keyLt_asymm x x hlt hlt
  rw [List.map_filterMap]
  refine List.Pairwise.filterMap _ ?_ ((List.Pairwise.and_mem.mp hnodup).imp fun h => h)
  intro x y ⟨hx, hy, hne⟩ k hk k' hk' heq
  obtain ⟨shown, hshown, hkey⟩ := listedRow_of_shown ((within_sublist spec after).subset hx) includeValues
  obtain ⟨shown', hshown', hkey'⟩ := listedRow_of_shown ((within_sublist spec after).subset hy) includeValues
  rw [hshown] at hk
  rw [hshown'] at hk'
  refine hne (h x (within_subset spec after hx) y (within_subset spec after hy) ?_)
  rw [hkey, hkey']
  exact congrArg some ((Option.some.inj hk).trans (heq.trans (Option.some.inj hk').symm))

variable [DecidableEq K] {place : K → SqlKey}

theorem leafStore_compileScan (pages : Nat) (hpaged : b.adapter.supportsPagedScan = true) {spec : ScanSpec K V}
    (horder : spec.orderBy = []) : (b.leafStore pages).listing.compileScan spec = if b.keyLayout ≠ .literal then
      .error (b.listing pages).notLiteral else (b.listing pages).compileKeysetScan spec := by
  show (b.listing pages).compileScan spec = _
  unfold SqlListing.compileScan
  rw [if_pos horder]
  show (if b.adapter.supportsPagedScan = true then _ else _) = _
  rw [if_pos hpaged]
  rfl

/-- The keys a table in pages lists are those its rows behind the cursor show, in the order of the rows. -/
theorem listedKeys_leafStore (hread : b.Readable m) {pages : Nat}
    (hpages : m.entries.entries.length < pages) (hpaged : b.adapter.supportsPagedScan = true)
    (hliteral : b.keyLayout = .literal) {cursor : Option String} {after : Option SqlKey}
    (hafter : cursor.mapM b.afterKeyFromCursor = .ok after) (pre : Option K) (project : Projection) {pageSize : Nat}
    (hsize : 1 ≤ pageSize) : (ScanView.leaf (b.leafStore pages)).listedKeys m pre project cursor pageSize =
      some ((b.shownAfter pre m after).filterMap (b.shownRow m.clock)) := by
  have hcompiled : (b.leafStore pages).listing.compileScan (.ofPrefix pre project .unordered cursor pageSize) =
      .ok ⟨(b.listing pages).keysetRows pre after pageSize (project = .entries) >>= fun rows => pure rows,
        .alwaysTrue⟩ := by
    rw [leafStore_compileScan pages hpaged rfl, if_neg (not_not.mpr hliteral)]
    unfold SqlListing.compileKeysetScan
    cases pre <;>
    · show (cursor.mapM b.afterKeyFromCursor >>= _) = _
      rw [hafter]
      rfl
  obtain ⟨s, hrows, -⟩ := keysetRows_listed hread pre after hsize (project = .entries) hpages
  rw [ScanView.listedKeys_of_rows hcompiled (congrArg Prod.fst (bind_ok hrows)), List.map_filterMap]
  refine congrArg some (List.filterMap_congr fun row _ => ?_)
  unfold listedRow
  rw [Option.map_map]
  exact Option.map_id'

/-- A scan in pages comes to an end where its cursor is read, and gives what passes behind it. -/
theorem scanRows_ok (hread : b.Readable m) (hplace : ∀ key, b.fullKeyRow key = .ok (place key))
    (hbatch : 1 ≤ b.batchSize) {pages : Nat} (hpages : m.entries.entries.length < pages)
    (hpaged : b.adapter.supportsPagedScan = true) {spec : ScanSpec K V} (horder : spec.orderBy = [])
    (hdistinct : b.Distinct spec m) (rows : List (ScanRow K V)) :
    (((b.leafStore pages).scanRows spec) m).1 = .ok rows ↔ b.keyLayout = .literal ∧
      enforceStrict spec spec.where_.peelKeyPrefix.2 "SqlDbKvBackend" = .ok () ∧ 1 ≤ spec.pageSize ∧
        ∃ after, spec.cursor.mapM b.afterKeyFromCursor = .ok after ∧ rows = b.given spec place m after := by
  have horderable : enforceOrderBySupported spec (b.leafStore pages).orderableColumns (b.leafStore pages).backend =
      .ok () := by
    unfold enforceOrderBySupported
    rw [if_pos horder]
  unfold LeafKvStore.scanRows
  rw [horderable, leafStore_compileScan pages hpaged horder]
  by_cases hliteral : b.keyLayout = .literal
  · rw [if_neg (not_not.mpr hliteral), and_iff_right hliteral]
    unfold SqlListing.compileKeysetScan
    show ((ofExcept (spec.cursor.mapM b.afterKeyFromCursor >>= fun after =>
      enforceStrict spec spec.where_.peelKeyPrefix.2 "SqlDbKvBackend" >>= fun _ => Except.ok
        (⟨(b.listing pages).keysetRows spec.where_.peelKeyPrefix.1 after spec.pageSize (spec.project = .entries) >>=
          fun rows => pure (SqlListing.drawn spec.limit rows), spec.where_.peelKeyPrefix.2⟩ :
            CompiledScan (Medium SqlKey SqlDbRow) K V)) >>= fun compiled => compiled.rows >>= fun rows =>
              applyCascade (spec.call compiled.residual) (some (b.leafStore pages).batchGet) rows) m).1 = _ ↔ _
    cases hafter : spec.cursor.mapM b.afterKeyFromCursor with
    | error e => exact iff_of_false (fun h => nomatch h) fun ⟨_, _, _, h, _⟩ => nomatch h
    | ok after =>
      cases hstrict : enforceStrict spec spec.where_.peelKeyPrefix.2 "SqlDbKvBackend" with
      | error e => exact iff_of_false (fun h => nomatch h) fun ⟨h, _⟩ => nomatch h
      | ok u =>
        show ((((b.listing pages).keysetRows spec.where_.peelKeyPrefix.1 after spec.pageSize (spec.project = .entries) >>=
          fun rows => pure (SqlListing.drawn spec.limit rows)) >>= fun rows =>
            applyCascade (spec.call spec.where_.peelKeyPrefix.2) (some (b.leafStore pages).batchGet) rows) m).1 = _ ↔ _
        by_cases hsize : 1 ≤ spec.pageSize
        · obtain ⟨s, hlisted, hs⟩ := keysetRows_listed hread spec.where_.peelKeyPrefix.1 after hsize
            (spec.project = .entries) hpages
          have hdrawn : (((b.listing pages).keysetRows spec.where_.peelKeyPrefix.1 after spec.pageSize
              (spec.project = .entries) >>= fun rows => pure (SqlListing.drawn spec.limit rows)) m) =
                (.ok ((b.within spec m after).filterMap (b.listedRow (spec.project = .entries) m.clock)), s) := by
            rw [bind_ok hlisted, drawn_listed]
            rfl
          rw [bind_ok hdrawn]
          have hcascade : (applyCascade (spec.call spec.where_.peelKeyPrefix.2) (some (b.leafStore pages).batchGet)
              ((b.within spec m after).filterMap (b.listedRow (spec.project = .entries) m.clock)) s).1 =
                .ok (cut _ _) := cascade_gives (spec.call spec.where_.peelKeyPrefix.2) (b.content place m)
            (batchGet_steady hread hplace hbatch) ((b.within spec m after).filterMap
              (b.listedRow (spec.project = .entries) m.clock)) hs
            (noneTwice_of_listed (listed_nodup hdistinct after _))
          rw [List.filterMap_filterMap] at hcascade
          rw [hcascade]
          constructor
          · intro h
            exact ⟨rfl, hsize, after, rfl, (Except.ok.inj h).symm⟩
          · intro ⟨_, _, after', hafter', hrows⟩
            rw [hrows, ← Except.ok.inj hafter']
            rfl
        · refine iff_of_false (fun h => ?_) fun h => hsize h.2.1
          have hraises : (b.listing pages).keysetRows spec.where_.peelKeyPrefix.1 after spec.pageSize
              (spec.project = .entries) m =
                (.error (.valueError ("page_size must be >= 1, got " ++ toString spec.pageSize)), m) := by
            have hbelow : (wholeScan ⟨spec.where_.peelKeyPrefix.1, spec.project = .entries,
                spec.pageSize⟩).pageSize < 1 := by
              show spec.pageSize < 1
              omega
            show (Script.run (do finishRows (← b.iterKeysetRows (wholeScan ⟨spec.where_.peelKeyPrefix.1,
              spec.project = .entries, spec.pageSize⟩) after none pages) : SqlScript (List (K × Option V))) >>= _) m = _
            unfold iterKeysetRows
            rw [if_pos hbelow]
            rfl
          rw [bind_error (bind_error hraises)] at h
          cases h
  · rw [if_pos hliteral]
    exact iff_of_false (fun h => nomatch h) fun h => hliteral h.1

/-- A scan in pages gives rows only where its cursor is read. -/
theorem cursor_of_scanned {pages : Nat} (hpaged : b.adapter.supportsPagedScan = true) (spec : ScanSpec K V)
    (horder : spec.orderBy = []) {rows : List (ScanRow K V)}
    (h : (((b.leafStore pages).scanRows spec) m).1 = .ok rows) :
    ∃ after, spec.cursor.mapM b.afterKeyFromCursor = .ok after := by
  have horderable : enforceOrderBySupported spec (b.leafStore pages).orderableColumns (b.leafStore pages).backend =
      .ok () := by
    unfold enforceOrderBySupported
    rw [if_pos horder]
  unfold LeafKvStore.scanRows at h
  rw [horderable, leafStore_compileScan pages hpaged horder] at h
  by_cases hliteral : b.keyLayout = .literal
  · rw [if_neg (not_not.mpr hliteral)] at h
    unfold SqlListing.compileKeysetScan at h
    cases hafter : spec.cursor.mapM b.afterKeyFromCursor with
    | ok after => exact ⟨after, rfl⟩
    | error e =>
      have hfails : spec.cursor.mapM (b.listing pages).afterKeyFromCursor = .error e := hafter
      rw [hfails] at h
      cases h
  · rw [if_pos hliteral] at h
    cases h

omit [DecidableEq K] in
theorem judged_key {spec : ScanSpec K V} {row : SqlKey × SqlDbRow} {out : ScanRow K V}
    (h : b.judged spec place m row = some out) : b.decodeLeafKey row.1 = some out.key := by
  obtain ⟨shown, hshown, hjudge⟩ := Option.bind_eq_some_iff.mp h
  have hkey : b.decodeLeafKey row.1 = some shown.key := by
    obtain ⟨key, hlive, rfl⟩ := Option.map_eq_some_iff.mp hshown
    unfold shownRow at hlive
    split at hlive
    · exact hlive
    · cases hlive
  have hproject : ∀ (shown : ScanRow K V) (project : Projection), (projectRow shown project).key = shown.key := by
    intro shown project
    cases project <;> rfl
  rw [hkey]
  unfold judge at hjudge
  split at hjudge
  · obtain ⟨full, hfull, hpasses⟩ := Option.bind_eq_some_iff.mp hjudge
    obtain ⟨value, -, rfl⟩ := Option.map_eq_some_iff.mp hfull
    split at hpasses
    · rw [← Option.some.inj hpasses, hproject]
    · cases hpasses
  · split at hjudge
    · rw [← Option.some.inj hjudge, hproject]
    · cases hjudge

omit [DecidableEq K] in
/-- The pages give no more than the limit. -/
theorem given_eq {spec : ScanSpec K V} {out : ScanRow K V} (h : out ∈ b.given spec place m none)
    (after : Option SqlKey) :
    b.given spec place m after = (b.within spec m after).filterMap (b.judged spec place m) := by
  unfold given cut at h ⊢
  show (match spec.limit with | none => _ | some limit => List.take limit.toNat _) = _
  cases hlimit : spec.limit with
  | none => rfl
  | some limit =>
    have hsome : 1 ≤ limit.toNat := by
      by_contra hnone
      have hzero : limit.toNat = 0 := by omega
      change out ∈ (match spec.limit with | none => _ | some limit => List.take limit.toNat _) at h
      rw [hlimit] at h
      dsimp only at h
      rw [hzero, List.take_zero] at h
      cases h
    refine List.take_of_length_le (Nat.le_trans (List.length_filterMap_le _ _) ?_)
    unfold within
    rw [hlimit]
    refine Nat.le_trans (List.length_take_le _ _) ?_
    omega

/-- Of the rows that pass, the pages behind `last` bring those that the unbroken scan brings behind `own`. -/
def PicksUp (b : SqlDbKvBackend K V) (spec : ScanSpec K V) (place : K → SqlKey) (m : Medium SqlKey SqlDbRow)
    (own last : SqlKey) : Prop :=
  ∀ row, (b.judged spec place m row).isSome = true →
    (row ∈ b.within spec m (some last) ↔ row ∈ b.within spec m none ∧ SqlRows.keyLe row.1 own = false)

/-- The scan from a token gives what follows a row exactly if the token is read, and the pages pick up there. -/
theorem resumedAt_iff (hread : b.Readable m) (hplace : ∀ key, b.fullKeyRow key = .ok (place key))
    (hbatch : 1 ≤ b.batchSize) {pages : Nat} (hpages : m.entries.entries.length < pages)
    (hpaged : b.adapter.supportsPagedScan = true) {spec : ScanSpec K V} (horder : spec.orderBy = [])
    (hcursor : spec.cursor = none) (hdistinct : b.Distinct spec m) {before after : List (ScanRow K V)}
    {row : ScanRow K V} (h : (((b.leafStore pages).scanRows spec) m).1 = .ok (before ++ row :: after)) :
    ∃ x ∈ b.within spec m none, b.decodeLeafKey x.1 = some row.key ∧ ∀ token,
      ((((b.leafStore pages).scanRows (spec.resumedAt horder token)) m).1 = .ok after ↔
        ∃ last, b.afterKeyFromCursor token = .ok last ∧ b.PicksUp spec place m x.1 last) := by
  obtain ⟨hliteral, hstrict, hsize, start, hstart, hrows⟩ :=
    (scanRows_ok hread hplace hbatch hpages hpaged horder hdistinct _).mp h
  rw [hcursor] at hstart
  rw [← Except.ok.inj hstart] at hrows
  have hmem : row ∈ b.given spec place m none := by
    rw [← hrows]
    simp
  rw [given_eq hmem] at hrows
  obtain ⟨x, hx, hjudged, hafter⟩ := Paging.filterMap_behind SqlRows.keyLt_asymm (within_sorted spec none) hrows.symm
  refine ⟨x, hx, judged_key hjudged, fun token => ?_⟩
  have hunordered : (spec.resumedAt horder token).orderBy = [] := horder
  have hshown : b.Distinct (spec.resumedAt horder token) m := hdistinct
  refine (scanRows_ok hread hplace hbatch hpages hpaged hunordered hshown after).trans ?_
  have hinj : ∀ y ∈ b.shownAfter spec.where_.peelKeyPrefix.1 m none, ∀ z ∈ b.shownAfter spec.where_.peelKeyPrefix.1 m none,
      ∀ out, b.judged spec place m y = some out → b.judged spec place m z = some out → y = z := by
    intro y hy z hz out hyout hzout
    refine hdistinct y hy z hz ?_
    rw [judged_key hyout, judged_key hzout]
  have hpicks : ∀ last, after = b.given spec place m (some last) ↔ b.PicksUp spec place m x.1 last := by
    intro last
    rw [given_eq hmem, hafter, Paging.filterMap_eq_iff SqlRows.keyLt_asymm hinj
      ((within_sorted spec none).filter _) (within_sorted spec (some last))
      (fun y hy => within_subset spec none (List.mem_of_mem_filter hy)) (within_subset spec (some last))]
    refine forall₂_congr fun y _ => ?_
    rw [List.mem_filter, decide_eq_true_eq]
    exact iff_comm
  constructor
  · intro ⟨_, _, _, behind, hbehind, hgiven⟩
    cases hlast : b.afterKeyFromCursor token with
    | error e =>
      have hfails : (spec.resumedAt horder token).cursor.mapM b.afterKeyFromCursor = .error e := by
        show (some <$> b.afterKeyFromCursor token : Except Exn _) = _
        rw [hlast]
        rfl
      rw [hfails] at hbehind
      cases hbehind
    | ok last =>
      have hreads : (spec.resumedAt horder token).cursor.mapM b.afterKeyFromCursor = .ok (some last) := by
        show (some <$> b.afterKeyFromCursor token : Except Exn _) = _
        rw [hlast]
        rfl
      rw [hreads] at hbehind
      rw [← Except.ok.inj hbehind] at hgiven
      exact ⟨last, rfl, (hpicks last).mp hgiven⟩
  · intro ⟨last, hlast, hpicked⟩
    refine ⟨hliteral, hstrict, hsize, some last, ?_, (hpicks last).mpr hpicked⟩
    show (some <$> b.afterKeyFromCursor token : Except Exn _) = _
    rw [hlast]
    rfl

omit [ScanKey K] [DecidableEq K] in
/-- What the limit lets through of the unbroken scan, it lets through behind a key. -/
theorem within_behind (spec : ScanSpec K V) {row : SqlKey × SqlDbRow} (h : row ∈ b.within spec m none) {own : SqlKey}
    (hbehind : SqlRows.keyLe row.1 own = false) : row ∈ b.within spec m (some own) := by
  have hsorted := shownAfter_sorted (b := b) (m := m) spec.where_.peelKeyPrefix.1
  have hrest : b.shownAfter spec.where_.peelKeyPrefix.1 m (some own) =
      (b.shownAfter spec.where_.peelKeyPrefix.1 m none).filter fun row => !SqlRows.keyLe row.1 own := by
    refine Paging.eq_of_mem SqlRows.keyLt_asymm (hsorted (some own)) ((hsorted none).filter _) fun row => ?_
    rw [mem_shownAfter, List.mem_filter, Bool.not_eq_true']
    exact and_congr_right fun _ => ⟨fun h => h own rfl, fun h k hk => Option.some.inj hk ▸ h⟩
  unfold within at h ⊢
  rw [hrest]
  cases hlimit : spec.limit with
  | none =>
    rw [hlimit] at h
    exact List.mem_filter.mpr ⟨h, by rw [hbehind]; rfl⟩
  | some limit =>
    rw [hlimit] at h
    exact Paging.mem_take_filter h (by rw [hbehind]; rfl)

omit [DecidableEq K] in
/-- Behind the row's own key, the pages bring no row that the limit held back. -/
theorem picksUp_own (spec : ScanSpec K V) (own : SqlKey) : b.PicksUp spec place m own own ↔
    ∀ row, (b.judged spec place m row).isSome = true → row ∈ b.within spec m (some own) → row ∈ b.within spec m none := by
  refine forall₂_congr fun row _ => ⟨fun h hrow => (h.mp hrow).1, fun h => ⟨fun hrow => ⟨h hrow, ?_⟩, fun hrow => ?_⟩⟩
  · exact (mem_shownAfter.mp ((within_sublist spec (some own)).subset hrow)).2 own rfl
  · exact within_behind spec hrow.1 hrow.2

end Given

end SqlDbKvBackend

/-! ## Tokens -/

/-- A table by its keys. One leaf column holds the text of a key: its own, beside columns for the scope, or
    else the whole physical key. Several leaf columns hold its parts. -/
structure KeyedTable (K V VB : Type) where
  base : SqlDbKvBackend K V
  keys : KvBackend K V Char VB
  parts : K → Except Exn (List Cell)
  ofParts : List Cell → K
  /-- `json.loads`: the parts of an array, nothing for any other value. -/
  loads : String → Except Exn (Option (List Cell))
  same_layout : base.keyLayout = keys.kvset.keyLayout
  parts_length : ∀ key cells, parts key = .ok cells → cells.length = base.sqlKvset.leafKeyFields.length
  ofParts_parts : ∀ key cells, parts key = .ok cells → ofParts cells = key

namespace KeyedTable

variable {K V VB : Type} (t : KeyedTable K V VB)

/-- `len(fields) == 1` -/
def oneLeaf : Prop := t.base.sqlKvset.leafKeyFields.length = 1

instance : Decidable t.oneLeaf := inferInstanceAs (Decidable (_ = _))

/-- `_leaf_key_row` -/
def leafKeyRow (key : K) : Except Exn (List Cell) :=
  if t.oneLeaf then
    (if t.base.sqlKvset.scopeFields ≠ [] then .ok (t.keys.kvset.keySerde.serialize key)
      else t.keys.physicalKeyBlob key).map fun blob => [.text (String.ofList blob)]
  else t.parts key

/-- The key a text of the one leaf column stands for. -/
def readText (text : List Char) : Option K :=
  if t.base.sqlKvset.scopeFields ≠ [] then t.keys.kvset.keySerde.deserialize text
  else t.keys.decodeKeyFromPhysical text

/-- `_decode_leaf_key` -/
def decodeLeafKey (key : SqlKey) : Option K :=
  if t.oneLeaf then t.readText (TextTable.leafText key)
  else some (t.ofParts (key.drop t.base.sqlKvset.scopeFields.length))

def invalidToken (token : String) : Exn :=
  .kvStoreError ("invalid scan cursor token for SqlDbKvStore: '" ++ token ++ "'")

/-- The key of a token in `_after_key_from_cursor`. -/
def decodeCursor (token : String) : Except Exn K :=
  if t.oneLeaf then
    match t.readText token.toList with
    | some key => .ok key
    | none => .error (invalidToken token)
  else
    match t.loads token with
    | .error _ => .error (invalidToken token)
    | .ok none => .error (notParts t.base.sqlKvset.leafKeyFields.length)
    | .ok (some cells) =>
      if cells.length ≠ t.base.sqlKvset.leafKeyFields.length then
        .error (notParts t.base.sqlKvset.leafKeyFields.length)
      else .ok (t.ofParts cells)
where
  notParts (fields : Nat) : Exn :=
    .kvStoreError ("scan cursor token must be a JSON array of " ++ toString fields ++ " leaf key parts")

def store : SqlDbKvBackend K V :=
  { t.base with
    scope := t.keys.scope.segments.foldl (fun ids g => ids.set g.kind g.id) Dict.empty
    leafKeyRow := t.leafKeyRow
    decodeLeafKey := t.decodeLeafKey
    decodeCursor := t.decodeCursor }

/-- The tokens of a key: its text, or the array of its parts. -/
def IsToken (key : K) (token : String) : Prop :=
  if t.oneLeaf then token = String.ofList (t.keys.kvset.keySerde.serialize key)
  else ∃ cells, t.parts key = .ok cells ∧ t.loads token = .ok (some cells)

/-- No part of the scope or the name is in the text of the leaf column. -/
def Bare : Prop := ¬ t.oneLeaf ∨ t.base.sqlKvset.scopeFields ≠ [] ∨ t.keys.prefixParts = []

/-- What a table is read by: its rows can be read, each key has a place, and reads are cut into chunks. -/
structure Kept (place : K → SqlKey) (m : Medium SqlKey SqlDbRow) : Prop where
  readable : t.store.Readable m
  placed : ∀ key, t.store.fullKeyRow key = .ok (place key)
  batched : 1 ≤ t.base.batchSize

variable {t}

theorem readText_bare (h : t.base.sqlKvset.scopeFields ≠ [] ∨ t.keys.prefixParts = []) (key : K) :
    t.readText (t.keys.kvset.keySerde.serialize key) = some key := by
  unfold readText
  by_cases hscope : t.base.sqlKvset.scopeFields ≠ []
  · rw [if_pos hscope]
    exact t.keys.kvset.keySerde.roundtrip key
  · have hparts := List.append_eq_nil_iff.mp (h.resolve_left hscope)
    have hsegments : t.keys.scope.segments = [] := by
      rcases hs : t.keys.scope with ⟨_ | ⟨g, gs⟩⟩
      · rfl
      · rw [hs] at hparts
        simp [KvSet.scopeParts] at hparts
    rw [if_neg hscope]
    unfold KvBackend.decodeKeyFromPhysical KvSet.decodeLeafFromInKey KvSet.maybeUnescape
    rw [if_pos hparts.1, if_pos hsegments, if_neg fun h => h.2 hsegments]
    exact t.keys.kvset.keySerde.roundtrip key

/-- A token of a key is read as that key where the leaf columns hold nothing else. -/
theorem decodeCursor_bare (h : t.Bare) {key : K} {token : String} (htoken : t.IsToken key token) :
    t.decodeCursor token = .ok key := by
  unfold IsToken at htoken
  unfold decodeCursor
  by_cases hone : t.oneLeaf
  · rw [if_pos hone] at htoken
    rw [if_pos hone, htoken, String.toList_ofList, readText_bare (h.resolve_left (not_not.mpr hone))]
  · rw [if_neg hone] at htoken
    obtain ⟨cells, hcells, hloads⟩ := htoken
    rw [if_neg hone, hloads]
    dsimp only
    rw [if_neg (not_not.mpr (t.parts_length key cells hcells)), t.ofParts_parts key cells hcells]

end KeyedTable

section Resumed

variable {K V VB : Type} [DecidableEq K] [ScanKey K]

/-- An object store does not look at the cursor. -/
theorem objectScan_restarts (o : ObjectStoreKvBackend K V) (pages : Nat) (spec : ScanSpec K V)
    (horder : spec.orderBy = []) (token : String) :
    (o.leafStore pages).scanRows (spec.resumedAt horder token) = (o.leafStore pages).scanRows spec := by
  have hcompile : (o.leafStore pages).listing.compileScan (spec.resumedAt horder token) =
      (o.leafStore pages).listing.compileScan spec := rfl
  unfold LeafKvStore.scanRows
  rw [hcompile]
  rfl

/-- Behind each row it gave, a scan of a table in pages goes on at a token of the row's key exactly if the
    token is read as a key row behind which the pages bring, of the rows that pass, those that the unbroken
    scan brings behind the row. Where the leaf columns hold the key alone, its tokens are read as its own
    row, and then only a limit may bring more. Where no key can be written, every token is refused. An
    object store never goes on: it gives the rows it gave. -/
theorem resumedScan_iff :
    (∀ (t : KeyedTable K V VB) (pages : Nat) (m : Medium SqlKey SqlDbRow) (spec : ScanSpec K V)
      (horder : spec.orderBy = []), m.entries.entries.length < pages → t.base.adapter.supportsPagedScan = true →
      spec.cursor = none →
      ((∀ key, ∃ e, t.store.fullKeyRow key = .error e) → ∀ token rows,
        ((t.store.leafStore pages).scanRows (spec.resumedAt horder token) m).1 ≠ .ok rows) ∧
      ∀ place : K → SqlKey, t.Kept place m → t.store.Distinct spec m → ∀ (before after : List (ScanRow K V)) row,
        ((t.store.leafStore pages).scanRows spec m).1 = .ok (before ++ row :: after) →
          ∃ x ∈ t.store.within spec m none, t.store.decodeLeafKey x.1 = some row.key ∧ ∀ token,
            (((t.store.leafStore pages).scanRows (spec.resumedAt horder token) m).1 = .ok after ↔
              ∃ last, t.store.afterKeyFromCursor token = .ok last ∧ t.store.PicksUp spec place m x.1 last) ∧
            (t.Bare → t.IsToken row.key token → t.store.afterKeyFromCursor token = .ok (place row.key)) ∧
            (place row.key = x.1 → (t.store.PicksUp spec place m x.1 (place row.key) ↔
              ∀ y, (t.store.judged spec place m y).isSome = true → y ∈ t.store.within spec m (some x.1) →
                y ∈ t.store.within spec m none))) ∧
    ∀ (o : ObjectStoreKvBackend K V) (pages : Nat) (m : Medium String Blob) (spec : ScanSpec K V)
      (horder : spec.orderBy = []) (before after : List (ScanRow K V)) row token,
      ((o.leafStore pages).scanRows spec m).1 = .ok (before ++ row :: after) →
        ((o.leafStore pages).scanRows (spec.resumedAt horder token) m).1 ≠ .ok after := by
  constructor
  · intro t pages m spec horder hpages hadapter hcursor
    have hpaged : t.store.adapter.supportsPagedScan = true := hadapter
    constructor
    · intro hnone token rows hrows
      have hunordered : (spec.resumedAt horder token).orderBy = [] := horder
      obtain ⟨after, hafter⟩ := SqlDbKvBackend.cursor_of_scanned hpaged _ hunordered hrows
      have hfails : ∃ e, t.store.afterKeyFromCursor token = .error e := by
        unfold SqlDbKvBackend.afterKeyFromCursor
        cases t.store.decodeCursor token with
        | error e => exact ⟨e, rfl⟩
        | ok key =>
          obtain ⟨e, he⟩ := hnone key
          exact ⟨e, he⟩
      obtain ⟨e, he⟩ := hfails
      change (some <$> t.store.afterKeyFromCursor token : Except Exn _) = .ok after at hafter
      rw [he] at hafter
      cases hafter
    · intro place hkept hdistinct before after row hrows
      obtain ⟨x, hx, hkey, hiff⟩ := SqlDbKvBackend.resumedAt_iff hkept.readable hkept.placed hkept.batched hpages
        hpaged horder hcursor hdistinct hrows
      refine ⟨x, hx, hkey, fun token => ⟨hiff token, fun hbare htoken => ?_, fun hown => ?_⟩⟩
      · show (t.decodeCursor token >>= fun key => t.store.fullKeyRow key) = _
        rw [KeyedTable.decodeCursor_bare hbare htoken]
        exact hkept.placed row.key
      · rw [hown]
        exact SqlDbKvBackend.picksUp_own spec x.1
  · intro o pages m spec horder before after row token hrows hresumed
    rw [objectScan_restarts, hrows] at hresumed
    have hlength := congrArg List.length (Except.ok.inj hresumed)
    rw [List.length_append, List.length_cons] at hlength
    omega

end Resumed

/-- The notes, by their keys. -/
def KeyedTable.ofTexts (keys : KvBackend (List Char) String Char String) (h : keys.kvset.keyLayout = .literal) :
    KeyedTable (List Char) String String where
  base := textNotes.store
  keys := keys
  parts key := .error (.serDeError (String.ofList key))
  ofParts _ := []
  loads _ := .ok none
  same_layout := h.symm
  parts_length _ _ h := nomatch h
  ofParts_parts _ _ h := nomatch h

/-- Keys alone. -/
def keysOnly : ScanSpec (List Char) String := .ofPrefix none .keys .unordered none 100

theorem keysOnly_unordered : keysOnly.orderBy = [] := rfl

/-- A note with its text. -/
def writtenNote (key : String) : Medium SqlKey SqlDbRow :=
  ⟨Dict.single [.text key] fun c => if c = "v" then some (.text "note") else none, 0⟩

section Notes

variable {keys : KvBackend (List Char) String Char String} (h : keys.kvset.keyLayout = .literal)

theorem kept_writtenNote {place : List Char → SqlKey}
    (hplace : ∀ key, (KeyedTable.ofTexts keys h).store.fullKeyRow key = .ok (place key)) (text : String) :
    (KeyedTable.ofTexts keys h).Kept place (writtenNote text) := by
  refine ⟨⟨fun row hrow => ?_, fun row hrow _ => ⟨"note", ?_⟩⟩, hplace, (by decide : 1 ≤ 500)⟩
  · obtain rfl := List.mem_singleton.mp hrow
    rintro c (rfl | rfl) s heq
    · cases heq
    · cases heq
  · obtain rfl := List.mem_singleton.mp hrow
    rfl

theorem shownAfter_writtenNote {text : String} {key : List Char}
    (hkey : keys.decodeKeyFromPhysical text.toList = some key) :
    (KeyedTable.ofTexts keys h).store.shownAfter none (writtenNote text) none = (writtenNote text).entries.entries := by
  have hshown : ∀ row ∈ (writtenNote text).entries.entries,
      ((KeyedTable.ofTexts keys h).store.shownRow (writtenNote text).clock row).isSome = true := by
    intro row hrow
    obtain rfl := List.mem_singleton.mp hrow
    have hread : (KeyedTable.ofTexts keys h).store.shownRow (writtenNote text).clock
        ([.text text], fun c => if c = "v" then some (.text "note") else none) =
        keys.decodeKeyFromPhysical text.toList := rfl
    rw [hread, hkey]
    rfl
  have hall : (KeyedTable.ofTexts keys h).store.restOf (KeyedTable.ofTexts keys h).store.scopeCells
      ((KeyedTable.ofTexts keys h).store.leafPrefixMap none) none (writtenNote text).entries =
      (writtenNote text).entries.entries := by
    unfold SqlDbKvBackend.restOf SqlRows.scanByKeyParts SqlRows.ordered
    rw [List.filter_eq_self.mpr fun _ _ => rfl]
    exact List.mergeSort_singleton _
  unfold SqlDbKvBackend.shownAfter
  rw [hall]
  exact List.filter_eq_self.mpr hshown

theorem distinct_writtenNote {text : String} {key : List Char}
    (hkey : keys.decodeKeyFromPhysical text.toList = some key) :
    (KeyedTable.ofTexts keys h).store.Distinct keysOnly (writtenNote text) := by
  have hone := shownAfter_writtenNote h hkey
  intro x hx y hy _
  have hx' : x ∈ (writtenNote text).entries.entries := hone ▸ hx
  have hy' : y ∈ (writtenNote text).entries.entries := hone ▸ hy
  rw [List.mem_singleton.mp hx', List.mem_singleton.mp hy']

/-- A table of one note gives its key. -/
theorem scanRows_writtenNote {place : List Char → SqlKey}
    (hplace : ∀ key, (KeyedTable.ofTexts keys h).store.fullKeyRow key = .ok (place key)) {text : String}
    {key : List Char} (hkey : keys.decodeKeyFromPhysical text.toList = some key) :
    (((KeyedTable.ofTexts keys h).store.leafStore 2).scanRows keysOnly (writtenNote text)).1 =
      .ok [⟨key, none, none⟩] := by
  have hkept := kept_writtenNote h hplace text
  refine (SqlDbKvBackend.scanRows_ok hkept.readable hkept.placed hkept.batched (Nat.lt_succ_self 1) rfl keysOnly_unordered
    (distinct_writtenNote h hkey) _).mpr ⟨rfl, rfl, by decide, none, rfl, ?_⟩
  have hwithin : (KeyedTable.ofTexts keys h).store.within keysOnly (writtenNote text) none =
      (writtenNote text).entries.entries := shownAfter_writtenNote h hkey
  have hjudged : (KeyedTable.ofTexts keys h).store.judged keysOnly place (writtenNote text)
      ([.text text], fun c => if c = "v" then some (.text "note") else none) =
      (keys.decodeKeyFromPhysical text.toList).map fun key => ⟨key, none, none⟩ := by
    rw [hkey]
    unfold SqlDbKvBackend.judged SqlDbKvBackend.listedRow
    have hread : (KeyedTable.ofTexts keys h).store.shownRow (writtenNote text).clock
        ([.text text], fun c => if c = "v" then some (.text "note") else none) =
        keys.decodeKeyFromPhysical text.toList := rfl
    rw [hread, hkey]
    rfl
  unfold SqlDbKvBackend.given
  rw [hwithin]
  show _ = List.filterMap _ [([Cell.text text], fun c => if c = "v" then some (Cell.text "note") else none)]
  rw [List.filterMap_cons, hjudged, hkey]
  rfl

end Notes

/-- The notes, by their keys. -/
def noteTable : SqlDbKvBackend (List Char) String := (KeyedTable.ofTexts textNotes.keys rfl).store

theorem noteTable_places (key : List Char) : noteTable.fullKeyRow key = .ok [.text (String.ofList key)] := rfl

/-- Two notes, in the order of their keys. -/
def twoNotes : Medium SqlKey SqlDbRow :=
  ⟨(writtenNote "a").entries.set [.text "b"] fun c => if c = "v" then some (.text "note") else none, 0⟩

theorem mem_twoNotes {row : SqlKey × SqlDbRow} (h : row ∈ twoNotes.entries.entries) :
    row.2 = (fun c => if c = "v" then some (.text "note") else none) ∧ (row.1 = [.text "a"] ∨ row.1 = [.text "b"]) := by
  rcases List.mem_pair.mp h with rfl | rfl
  · exact ⟨rfl, .inl rfl⟩
  · exact ⟨rfl, .inr rfl⟩

theorem readable_twoNotes : noteTable.Readable twoNotes := by
  refine ⟨fun row hrow => ?_, fun row hrow _ => ⟨"note", ?_⟩⟩
  · obtain ⟨hcells, -⟩ := mem_twoNotes hrow
    rw [hcells]
    rintro c (rfl | rfl) s heq
    · cases heq
    · cases heq
  · obtain ⟨hcells, hkey⟩ := mem_twoNotes hrow
    rcases row with ⟨key, cells⟩
    dsimp only at hcells hkey
    subst hcells
    rcases hkey with rfl | rfl <;> rfl

theorem shownAfter_twoNotes : noteTable.shownAfter none twoNotes none = twoNotes.entries.entries := by
  have hall : noteTable.restOf noteTable.scopeCells (noteTable.leafPrefixMap none) none twoNotes.entries =
      twoNotes.entries.entries := by
    unfold SqlDbKvBackend.restOf SqlRows.scanByKeyParts SqlRows.ordered
    rw [List.filter_eq_self.mpr fun _ _ => rfl]
    have hselected : (twoNotes.entries.entries.filter fun e => SqlRows.selects noteTable.sqlKvset.keyFields
        noteTable.scopeCells (noteTable.leafPrefixMap none) e.1) = twoNotes.entries.entries := by
      refine List.filter_eq_self.mpr fun row hrow => ?_
      rcases (mem_twoNotes hrow).2 with hkey | hkey <;> rw [hkey] <;> rfl
    rw [hselected]
    exact List.mergeSort_of_pairwise (List.pairwise_pair.mpr (by decide))
  unfold SqlDbKvBackend.shownAfter
  rw [hall]
  refine List.filter_eq_self.mpr fun row hrow => ?_
  obtain ⟨hcells, hkey⟩ := mem_twoNotes hrow
  rcases row with ⟨key, cells⟩
  dsimp only at hcells hkey
  subst hcells
  rcases hkey with rfl | rfl <;> rfl

theorem distinct_twoNotes {spec : ScanSpec (List Char) String} (h : spec.where_.peelKeyPrefix.1 = none) :
    noteTable.Distinct spec twoNotes := by
  intro x hx y hy heq
  rw [h, shownAfter_twoNotes] at hx hy
  rcases List.mem_pair.mp hx with rfl | rfl <;> rcases List.mem_pair.mp hy with rfl | rfl
  · rfl
  · cases heq
  · cases heq
  · rfl

theorem resumedScan_iff_notes : ((noteTable.leafStore 3).scanRows (keysOnly.resumedAt keysOnly_unordered "a")
    twoNotes).1 = .ok [⟨['b'], none, none⟩] := by
  have hbatch : 1 ≤ noteTable.batchSize := (by decide : 1 ≤ 500)
  have hpages : twoNotes.entries.entries.length < 3 := Nat.lt_succ_self 2
  have hwithin : noteTable.within keysOnly twoNotes none = twoNotes.entries.entries := shownAfter_twoNotes
  have hscan : ((noteTable.leafStore 3).scanRows keysOnly twoNotes).1 =
      .ok [⟨['a'], none, none⟩, ⟨['b'], none, none⟩] := by
    refine (SqlDbKvBackend.scanRows_ok readable_twoNotes noteTable_places hbatch hpages rfl keysOnly_unordered
      (distinct_twoNotes rfl) _).mpr ⟨rfl, rfl, by decide, none, rfl, ?_⟩
    unfold SqlDbKvBackend.given
    rw [hwithin]
    rfl
  obtain ⟨x, hx, hdecoded, hresumes⟩ := (((@resumedScan_iff (List Char) String String _ _).1
    (.ofTexts textNotes.keys rfl) 3 twoNotes keysOnly keysOnly_unordered hpages rfl rfl).2 _
      ⟨readable_twoNotes, noteTable_places, hbatch⟩ (distinct_twoNotes rfl) [] [⟨['b'], none, none⟩] ⟨['a'], none, none⟩
        hscan)
  obtain ⟨hiff, htoken, hown⟩ := hresumes "a"
  have hbare : (KeyedTable.ofTexts textNotes.keys rfl).Bare := .inr (.inr rfl)
  have hplaced : [Cell.text (String.ofList ['a'])] = x.1 := by
    change x ∈ noteTable.within keysOnly twoNotes none at hx
    rw [hwithin] at hx
    rcases (mem_twoNotes hx).2 with h | h
    · rw [h]
    · rw [h] at hdecoded
      exact absurd hdecoded (by decide)
  refine hiff.mpr ⟨_, htoken hbare rfl, (hown hplaced).mpr fun y _ hy => ?_⟩
  exact SqlDbKvBackend.within_subset keysOnly _ hy

/-- The view of one user refuses the key it gave, whose text it takes for a whole physical key. An object
    store gives the key again. -/
theorem resumedScan_refused :
    ((((KeyedTable.ofTexts MemoryKvBackend.ofAl.toKvBackend rfl).store.leafStore 2).scanRows keysOnly
        (writtenNote "user:al:k")).1 = .ok [⟨['k'], none, none⟩] ∧
      (KeyedTable.ofTexts MemoryKvBackend.ofAl.toKvBackend rfl).IsToken ['k'] "k" ∧
      (((KeyedTable.ofTexts MemoryKvBackend.ofAl.toKvBackend rfl).store.leafStore 2).scanRows
        (keysOnly.resumedAt keysOnly_unordered "k") (writtenNote "user:al:k")).1 =
          .error (.kvStoreError "invalid scan cursor token for SqlDbKvStore: 'k'")) ∧
    ((ObjectStoreKvBackend.namedObjects.leafStore 2).scanRows keysOnly ObjectStoreKvBackend.writtenObject).1 =
        .ok [⟨['k'], none, none⟩] ∧
      ((ObjectStoreKvBackend.namedObjects.leafStore 2).scanRows (keysOnly.resumedAt keysOnly_unordered "k")
        ObjectStoreKvBackend.writtenObject).1 = .ok [⟨['k'], none, none⟩] := by
  have hplace : ∀ key, (KeyedTable.ofTexts MemoryKvBackend.ofAl.toKvBackend rfl).store.fullKeyRow key =
      .ok [.text (String.ofList (MemoryKvBackend.ofAl.keyBlob key))] := fun _ => rfl
  have hkey : MemoryKvBackend.ofAl.toKvBackend.decodeKeyFromPhysical "user:al:k".toList = some ['k'] := by decide
  have hobject : ((ObjectStoreKvBackend.namedObjects.leafStore 2).scanRows keysOnly
      ObjectStoreKvBackend.writtenObject).1 = .ok [⟨['k'], none, none⟩] := by
    obtain ⟨m', hrun⟩ := ObjectStoreKvBackend.listed_writtenObject _ rfl
    have hrows : ((ObjectStoreKvBackend.namedObjects.listing 2).listedRows none false)
      ObjectStoreKvBackend.writtenObject = _ := hrun
    show ((((ObjectStoreKvBackend.namedObjects.listing 2).listedRows none false) >>= _)
      ObjectStoreKvBackend.writtenObject).1 = _
    rw [bind_ok hrows]
    rfl
  refine ⟨⟨scanRows_writtenNote rfl hplace hkey, rfl, rfl⟩, hobject, ?_⟩
  rw [objectScan_restarts]
  exact hobject

end Kvtsjl
