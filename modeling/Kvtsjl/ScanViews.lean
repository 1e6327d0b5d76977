import Mathlib.Data.Char
import Mathlib.Data.List.Lex
import Kvtsjl.LeafScan
import Kvtsjl.Views

/-
  Scanning through views. A value view asks its source for the keys and reads the values that
  come back through its function; a key view shows the source's rows under the caller's keys.
  A key order asked for travels down to the leaf, which lists as it does (`ScanView.inOrder_iff`).
-/

namespace Kvtsjl

open Assoc (Dict)
open Effects Prog

/-! ## Rows and predicates through a function -/

section Through

variable {K V U : Type}

def ScanRow.mapValue (forward : V → U) (row : ScanRow K V) : ScanRow K U :=
  ⟨row.key, row.value.map forward, row.stat⟩

/-- The value predicates read through `forward`. -/
def Predicate.through (forward : V → U) : Predicate K U → Predicate K V
  | .alwaysTrue => .alwaysTrue
  | .and left right => .and (left.through forward) (right.through forward)
  | .or left right => .or (left.through forward) (right.through forward)
  | .not inner => .not (inner.through forward)
  | .keyPrefix pre => .keyPrefix pre
  | .key name test => .key name test
  | .stat name test => .stat name test
  | .value name test => .value name fun row => test (row.mapValue forward)

end Through

/-! ## Views -/

section Views

variable {S K SK V U : Type} [DecidableEq K] [ScanKey K] [DecidableEq SK] [ScanKey SK]

/-- `needs_values` -/
def needsValues (spec : ScanSpec K V) (residual : Predicate K V) : Bool :=
  spec.project = .entries || residual.needs.value

/-- Nothing is left to filter by. -/
def unfiltered (spec : ScanSpec K V) (residual : Predicate K V) : Bool :=
  residual.isAlwaysTrue && spec.refine.isNone

/-- What a value view asks of its source. -/
def downValues (forward : V → U) (spec : ScanSpec K U) : ScanSpec K V :=
  let (keyWhere, residual) := spec.where_.splitKeyPredicates
  { where_ := keyWhere.through forward
    refine := none
    project := if needsValues spec residual then .entries else spec.project
    order := spec.order
    limit := if unfiltered spec residual then spec.limit else none
    pageSize := spec.pageSize
    cursor := spec.cursor
    onUnsupported := spec.onUnsupported
    orderBy := spec.orderBy
    one_order := spec.one_order }

/-- `scan_values_through` -/
def scanValuesThrough (batchGet : List K → M S (Dict K U)) (src : Scannable S K V) (spec : ScanSpec K U)
    (forward : V → U) : M S (List (ScanRow K U)) := do
  let rows ← src.scanRows (downValues forward spec)
  applyCascade (spec.call spec.where_.splitKeyPredicates.2) (some batchGet)
    (rows.map fun row => row.mapValue forward)

/-- `MappedKvStore` and `IMappedKvStore` -/
def Scannable.mapped (src : Scannable S K V) (forward : V → U) : Scannable S K U where
  scanRows spec := scanValuesThrough
    (fun keys => if keys.isEmpty then pure Dict.empty
      else mapValues forward <$> src.batchGet (Dict.unique keys)) src spec forward
  batchGet keys := if keys.isEmpty then pure Dict.empty
    else mapValues forward <$> src.batchGet (Dict.unique keys)

/-- What a key view asks of its source: nothing about the keys. -/
def downKeys (spec : ScanSpec K V) : ScanSpec SK V where
  where_ := .alwaysTrue
  refine := none
  project := if needsValues spec spec.where_ then .entries else spec.project
  order := .unordered
  limit := if unfiltered spec spec.where_ then spec.limit else none
  pageSize := spec.pageSize
  cursor := spec.cursor
  onUnsupported := spec.onUnsupported
  orderBy := spec.orderBy
  one_order h := ⟨rfl, (spec.one_order h).2⟩

/-- `IMappedKeysKvStore.scan_rows` -/
def scanKeysThrough (batchGet : List K → M S (Dict K V)) (src : Scannable S SK V) (spec : ScanSpec K V)
    (fromStore : Option (SK → K)) : M S (List (ScanRow K V)) := do
  let outward ← requireFromStore fromStore
  if spec.order ≠ .unordered then
    raise (.scanUnsupported ("imap_keys lists the store's keys in the store's key order, not the " ++
      "caller's; order by a column (order_by) instead"))
  else if spec.where_.extractKeyPrefix.isSome then
    raise (.scanUnsupported "prefix scan unsupported through imap_keys (prefix is in caller key space)")
  else do
    let rows ← src.scanRows (downKeys spec)
    applyCascade (spec.call spec.where_) (some batchGet)
      (rows.map fun row => ⟨outward row.key, row.value, row.stat⟩)

def Scannable.imapKeys (src : Scannable S SK V) (toStore : K → SK) (fromStore : Option (SK → K)) :
    Scannable S K V where
  scanRows spec := scanKeysThrough
    (fun keys => if keys.isEmpty then pure Dict.empty
      else do
        let found ← src.batchGet (Dict.unique ((Dict.unique keys).map toStore))
        return Dict.ofKeys keys fun key => found.get? (toStore key)) src spec fromStore
  batchGet keys := if keys.isEmpty then pure Dict.empty
    else do
      let found ← src.batchGet (Dict.unique ((Dict.unique keys).map toStore))
      return Dict.ofKeys keys fun key => found.get? (toStore key)

end Views

/-- A leaf, and the views of it with its keys. What is behind a view of other keys may be
    anything. -/
inductive ScanView (S K : Type) [DecidableEq K] [ScanKey K] : Type → Type 1 where
  | leaf {V : Type} (l : LeafKvStore S K V) : ScanView S K V
  | readonly {V : Type} (src : ScanView S K V) : ScanView S K V
  | mapped {V U : Type} (src : ScanView S K V) (forward : V → U) : ScanView S K U
  | imapKeys {V SK : Type} [DecidableEq SK] [ScanKey SK] (src : Scannable S SK V) (toStore : K → SK)
      (fromStore : Option (SK → K)) : ScanView S K V

namespace ScanView

variable {S K : Type} [DecidableEq K] [ScanKey K]

def scannable : {V : Type} → ScanView S K V → Scannable S K V
  | _, .leaf l => l.scannable
  | _, .readonly src => src.scannable
  | _, .mapped src forward => src.scannable.mapped forward
  | _, @imapKeys _ _ _ _ _ _ _ _ src toStore fromStore => src.imapKeys toStore fromStore

def scanRows {V : Type} (v : ScanView S K V) : ScanSpec K V → M S (List (ScanRow K V)) :=
  v.scannable.scanRows

end ScanView

/-! ## An order by key -/

section Order

variable {S K : Type} [DecidableEq K] [ScanKey K] [LE K]

def KeysInOrder : ScanOrder → List K → Prop
  | .unordered, _ => True
  | .keyAsc, keys => keys.Pairwise fun j k => j ≤ k
  | .keyDesc, keys => keys.Pairwise fun j k => k ≤ j

omit [DecidableEq K] [ScanKey K] in
theorem KeysInOrder.sublist {o : ScanOrder} {keys keys' : List K} (h : KeysInOrder o keys)
    (hsub : keys'.Sublist keys) : KeysInOrder o keys' := by
  cases o with
  | unordered => trivial
  | keyAsc => exact List.Pairwise.sublist hsub h
  | keyDesc => exact List.Pairwise.sublist hsub h

namespace ScanView

/-- The keys of a listing under a prefix, as the leaf lists them. A view of other keys refuses an
    order, so it has none to show. -/
def listedKeys (s : S) (pre : Option K) (project : Projection) (cursor : Option String)
    (pageSize : Nat) : {V : Type} → ScanView S K V → Option (List K)
  | _, .leaf l =>
    match l.listing.compileScan (.ofPrefix pre project .unordered cursor pageSize) with
    | .error _ => none
    | .ok compiled =>
      match (compiled.rows s).1 with
      | .error _ => none
      | .ok rows => some (rows.map fun row => row.key)
  | _, .readonly src => src.listedKeys s pre project cursor pageSize
  | _, .mapped src _ => src.listedKeys s pre project cursor pageSize
  | _, @imapKeys .. => none

omit [LE K] in
/-- The keys listed are those of the rows the leaf lists. -/
theorem listedKeys_of_rows {V : Type} {l : LeafKvStore S K V} {pre : Option K} {project : Projection}
    {cursor : Option String} {pageSize : Nat} {compiled : CompiledScan S K V}
    (hcompiled : l.listing.compileScan (.ofPrefix pre project .unordered cursor pageSize) = .ok compiled)
    {s : S} {rows : List (ScanRow K V)} (hrows : (compiled.rows s).1 = .ok rows) :
    (leaf l).listedKeys s pre project cursor pageSize = some (rows.map fun row => row.key) := by
  rw [listedKeys, hcompiled]
  simp only [hrows]

end ScanView

/-! ### What a leaf lists -/

section Listed

omit [DecidableEq K] [LE K]

variable {V : Type}

omit [ScanKey K] in
theorem enforceStrict_then {spec : ScanSpec K V} {residual : Predicate K V} {backend : String}
    {c compiled : CompiledScan S K V}
    (h : (enforceStrict spec residual backend >>= fun _ => pure c) = .ok compiled) : compiled = c := by
  cases he : enforceStrict spec residual backend with
  | error e =>
    rw [he] at h
    cases h
  | ok u =>
    rw [he] at h
    cases h
    rfl

/-- A spec lists what its prefix alone lists, or the first of it, whatever its order by key. -/
theorem compileScan_ofPrefix {l : Listing S K V} {spec : ScanSpec K V} (horder : spec.orderBy = [])
    {compiled : CompiledScan S K V} (h : l.compileScan spec = .ok compiled) (o : ScanOrder) :
    ∃ whole, l.compileScan (.ofPrefix spec.where_.peelKeyPrefix.1 spec.project o spec.cursor
        spec.pageSize) = .ok whole ∧ whole.residual = .alwaysTrue ∧
      ∀ s rows s', compiled.rows s = (.ok rows, s') → ∃ all, whole.rows s = (.ok all, s') ∧
        rows.Sublist all := by
  cases l with
  | legacy backend scanEntries =>
    have hcompiled := enforceStrict_then h
    refine ⟨⟨compiled.rows, .alwaysTrue⟩, ?_, rfl, fun s rows s' hrows => ⟨rows, hrows, List.Sublist.refl _⟩⟩
    rw [hcompiled]
    generalize spec.where_.peelKeyPrefix.1 = pre
    cases pre <;> rfl
  | object b =>
    have hobject : b.compileScan spec = .ok compiled := h
    unfold ObjectListing.compileScan at hobject
    split at hobject
    · cases hobject
    · next hlayout =>
      have hcompiled := enforceStrict_then hobject
      refine ⟨⟨compiled.rows, .alwaysTrue⟩, ?_, rfl, fun s rows s' hrows => ⟨rows, hrows, List.Sublist.refl _⟩⟩
      rw [hcompiled]
      generalize spec.where_.peelKeyPrefix.1 = pre
      show b.compileScan _ = _
      unfold ObjectListing.compileScan
      rw [if_neg hlayout]
      cases pre <;> rfl
  | sql b =>
    have hsql : b.compileScan spec = .ok compiled := h
    show ∃ whole, b.compileScan (.ofPrefix _ _ _ _ _) = .ok whole ∧ _
    unfold SqlListing.compileScan at hsql ⊢
    rw [if_pos horder] at hsql
    cases hpaged : b.supportsPagedScan with
    | false =>
      rw [hpaged] at hsql
      have hcompiled := enforceStrict_then hsql
      refine ⟨⟨compiled.rows, .alwaysTrue⟩, ?_, rfl, fun s rows s' hrows => ⟨rows, hrows, List.Sublist.refl _⟩⟩
      rw [hcompiled]
      generalize spec.where_.peelKeyPrefix.1 = pre
      cases pre <;> rfl
    | true =>
      rw [hpaged, if_pos rfl] at hsql
      split at hsql
      · cases hsql
      · next hlayout =>
        unfold SqlListing.compileKeysetScan at hsql
        cases hafter : spec.cursor.mapM b.afterKeyFromCursor with
        | error e =>
          rw [hafter] at hsql
          cases hsql
        | ok after =>
          rw [hafter] at hsql
          have hcompiled := enforceStrict_then hsql
          refine ⟨⟨do
            let rows ← b.keysetRows spec.where_.peelKeyPrefix.1 after spec.pageSize
              (spec.project = .entries)
            return SqlListing.drawn none rows, .alwaysTrue⟩, ?_, rfl, fun s rows s' hrows => ?_⟩
          · generalize spec.where_.peelKeyPrefix.1 = pre
            show (if b.keyLayout ≠ .literal then _ else b.compileKeysetScan _) = _
            rw [if_neg hlayout]
            unfold SqlListing.compileKeysetScan
            cases pre <;>
            · show (spec.cursor.mapM b.afterKeyFromCursor >>= _) = _
              rw [hafter]
              rfl
          · rw [hcompiled] at hrows
            obtain ⟨all, t, hall, hdrawn⟩ := bind_eq_ok hrows
            cases hdrawn
            refine ⟨all, bind_ok hall, ?_⟩
            unfold SqlListing.drawn
            split
            · exact List.Sublist.refl _
            · exact List.take_sublist _ _

/-- An order by key makes no difference to what is listed. -/
theorem compileScan_order {l : Listing S K V} {pre : Option K} {project : Projection}
    {cursor : Option String} {pageSize : Nat} {compiled : CompiledScan S K V} (o : ScanOrder)
    (h : l.compileScan (.ofPrefix pre project .unordered cursor pageSize) = .ok compiled) :
    l.compileScan (.ofPrefix pre project o cursor pageSize) = .ok compiled ∧
      compiled.residual = .alwaysTrue := by
  have hsame : l.compileScan (.ofPrefix pre project o cursor pageSize) =
      l.compileScan (.ofPrefix pre project .unordered cursor pageSize) := by
    cases l <;> cases pre <;> rfl
  obtain ⟨whole, hwhole, hresidual, -⟩ := compileScan_ofPrefix rfl h o
  have hpre : (ScanSpec.ofPrefix pre project .unordered cursor pageSize : ScanSpec K V).where_.peelKeyPrefix.1 =
      pre := by
    cases pre <;> rfl
  rw [hpre] at hwhole
  rw [hsame]
  refine ⟨h, ?_⟩
  rw [← hresidual]
  exact congrArg CompiledScan.residual (Except.ok.inj (h.symm.trans (hsame.symm.trans hwhole)))

end Listed

namespace ScanView

/-- A view shows keys in an order that its leaf lists all keys in. -/
theorem scanRows_inOrder {o : ScanOrder} (ho : o ≠ .unordered) {s : S} {V : Type}
    (v : ScanView S K V) (h : ∀ pre project cursor pageSize keys,
      v.listedKeys s pre project cursor pageSize = some keys → KeysInOrder o keys) :
    ∀ spec rows s', spec.order = o → v.scanRows spec s = (.ok rows, s') →
      KeysInOrder o (rows.map fun row => row.key) := by
  induction v with
  | leaf l =>
    intro spec rows s' hspec hrows
    have horder : spec.orderBy = [] := by
      by_contra hcolumns
      exact ho (hspec ▸ (spec.one_order hcolumns).1)
    obtain ⟨u, s0, hu, hcompile⟩ := bind_eq_ok hrows
    obtain ⟨compiled, s1, hcompiled, hlisting⟩ := bind_eq_ok hcompile
    obtain ⟨came, s2, hcame, hcascade⟩ := bind_eq_ok hlisting
    obtain ⟨-, rfl⟩ := Prod.mk.inj hu
    obtain ⟨hok, rfl⟩ := Prod.mk.inj hcompiled
    obtain ⟨whole, hwhole, -, hlists⟩ := compileScan_ofPrefix horder hok .unordered
    obtain ⟨all, hall, hpart⟩ := hlists _ _ _ hcame
    have hkeys := listedKeys_of_rows hwhole (congrArg Prod.fst hall)
    have hgiven := applyCascade_sublist _ _ _ _ hcascade
    exact (h _ _ _ _ _ hkeys).sublist (hgiven.trans (hpart.map _))
  | readonly src ih => exact ih h
  | mapped src forward ih =>
    intro spec rows s' hspec hrows
    obtain ⟨came, t, hcame, hcascade⟩ := bind_eq_ok hrows
    have hsub := applyCascade_sublist _ _ _ _ hcascade
    rw [List.map_map] at hsub
    exact (ih h (downValues forward spec) came t hspec hcame).sublist hsub
  | imapKeys src toStore fromStore =>
    intro spec rows s' hspec hrows
    obtain ⟨outward, t, -, hrest⟩ := bind_eq_ok hrows
    rw [if_pos (by rw [hspec]; exact ho)] at hrest
    cases hrest

omit [DecidableEq K] [ScanKey K] [LE K] in
theorem downValues_ofPrefix {V U : Type} (forward : V → U) (pre : Option K) (project : Projection)
    (o : ScanOrder) (cursor : Option String) (pageSize : Nat) :
    downValues forward (.ofPrefix pre project o cursor pageSize) =
      .ofPrefix pre project o cursor pageSize := by
  cases pre <;> cases project <;> rfl

omit [LE K] in
/-- A scan for a prefix, whatever the order asked, shows the keys as the leaf lists them. -/
theorem scanRows_ofPrefix {s : S} {pre : Option K} {project : Projection} {cursor : Option String}
    {pageSize : Nat} {V : Type} (v : ScanView S K V) (o : ScanOrder) :
    ∀ keys, v.listedKeys s pre project cursor pageSize = some keys →
      ∃ rows s', v.scanRows (.ofPrefix pre project o cursor pageSize) s = (.ok rows, s') ∧
        rows.map (fun row => row.key) = keys := by
  have hkey : ∀ {V : Type} (row : ScanRow K V), (projectRow row project).key = row.key := by
    intro V row
    cases project <;> rfl
  induction v with
  | @leaf T l =>
    intro keys hkeys
    rw [listedKeys] at hkeys
    cases hcompiled : l.listing.compileScan (.ofPrefix pre project .unordered cursor pageSize) with
    | error e =>
      rw [hcompiled] at hkeys
      cases hkeys
    | ok compiled =>
      rw [hcompiled] at hkeys
      rcases hcame : compiled.rows s with ⟨e | came, s'⟩
      · simp only [hcame] at hkeys
        cases hkeys
      · simp only [hcame] at hkeys
        obtain ⟨hordered, hresidual⟩ := compileScan_order o hcompiled
        refine ⟨came.map fun row => projectRow row project, s', ?_, ?_⟩
        · have henforce : (ofExcept (enforceOrderBySupported
              (.ofPrefix pre project o cursor pageSize : ScanSpec K T) l.orderableColumns l.backend) :
              M S Unit) s = (.ok (), s) := rfl
          show l.scanRows _ s = _
          unfold LeafKvStore.scanRows
          rw [bind_ok henforce, hordered, bind_apply]
          show (compiled.rows >>= _) s = _
          rw [bind_ok hcame, hresidual]
          exact applyCascade_all project came s'
        · rw [List.map_map, ← Option.some.inj hkeys]
          exact List.map_congr_left fun row _ => hkey row
  | readonly src ih => exact ih
  | @mapped V U src forward ih =>
    intro keys hkeys
    obtain ⟨rows, s', hrows, hlisted⟩ := ih keys hkeys
    refine ⟨(rows.map fun row => row.mapValue forward).map fun row => projectRow row project, s', ?_, ?_⟩
    · have hsource : src.scannable.scanRows (.ofPrefix pre project o cursor pageSize) s = (.ok rows, s') :=
        hrows
      show scanValuesThrough _ src.scannable _ forward s = _
      unfold scanValuesThrough
      rw [downValues_ofPrefix, bind_ok hsource]
      have hcall : (ScanSpec.ofPrefix pre project o cursor pageSize : ScanSpec K U).call
          (ScanSpec.ofPrefix pre project o cursor pageSize : ScanSpec K U).where_.splitKeyPredicates.2 =
          ⟨.alwaysTrue, none, none, project⟩ := by
        cases pre <;> rfl
      rw [hcall, applyCascade_all]
    · rw [List.map_map, List.map_map, ← hlisted]
      exact List.map_congr_left fun row _ => hkey _
  | imapKeys src toStore fromStore =>
    intro keys hkeys
    cases hkeys

/-- An order by key is had from a view exactly if its leaf lists its keys in that order already.
    Where it does not, no scan refuses. A view of other keys refuses every order. -/
theorem inOrder_iff {o : ScanOrder} (ho : o ≠ .unordered) (s : S) {V : Type} (v : ScanView S K V) :
    (∀ spec rows, spec.order = o → (v.scanRows spec s).1 = .ok rows →
      KeysInOrder o (rows.map fun row => row.key)) ↔
    ∀ pre project cursor pageSize keys, v.listedKeys s pre project cursor pageSize = some keys →
      KeysInOrder o keys := by
  constructor
  · intro hall pre project cursor pageSize keys hkeys
    obtain ⟨rows, s', hrows, hlisted⟩ := scanRows_ofPrefix v o keys hkeys
    rw [← hlisted]
    exact hall _ rows rfl (by rw [hrows])
  · intro h spec rows hspec hrows
    exact scanRows_inOrder ho v h spec rows _ hspec (Prod.ext hrows rfl)

end ScanView

end Order

/-- Two texts, the second written first. -/
def secondFirst : MemoryRoot Char String :=
  let b := MemoryKvBackend.plain String
  (b.set ['a'] "first" ⟨none, none⟩ (b.set ['b'] "second" ⟨none, none⟩ (.empty 0)).2).2

/-- A view of the two does not give them in order. -/
theorem ScanView.inOrder_iff_secondFirst : ¬ ∀ spec rows, spec.order = .keyAsc →
    ((ScanView.mapped (.leaf (MemoryKvBackend.plain String).leafStore) String.length).scanRows spec
      secondFirst).1 = .ok rows → KeysInOrder .keyAsc (rows.map fun row => row.key) := by
  intro h
  have hlisted := (ScanView.inOrder_iff (by decide) secondFirst
    (.mapped (.leaf (MemoryKvBackend.plain String).leafStore) String.length)).mp h
    none .keys none 100 [['b'], ['a']] rfl
  exact absurd hlisted (by unfold KeysInOrder; decide)

/-- Ascending keys are asked for, and come as they were written. -/
theorem descending_shown : ((ScanView.leaf (MemoryKvBackend.plain String).leafStore).scanRows
    (.ofPrefix none .keys .keyAsc none 100) secondFirst).1 =
      .ok [⟨['b'], none, none⟩, ⟨['a'], none, none⟩] ∧
    ¬ KeysInOrder .keyAsc [['b'], ['a']] :=
  ⟨rfl, by unfold KeysInOrder; decide⟩

end Kvtsjl
