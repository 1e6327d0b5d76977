import Kvtsjl.Cascade
import Kvtsjl.ScanViews

/-
  Scans that list keys of one store and read the values of another.
  A view whose keys are its source's is listed by `passthroughScanRows`, a record made of parts by
  `mergedScanRows`: the keys of every part, each once, and of these the ones a read confirms. What either
  gives is what the cascade makes of one row for each key, whatever the page size
  (`passthroughScanRows_run`, `mergedScanRows_run`).
-/

namespace Kvtsjl

open Assoc (Dict)
open Effects Prog

/-! ## Pages of keys -/

/-- The pages a loop fills. Each ends with its `size`th key. -/
def iterPages {K : Type} (size : Nat) : List K → List K → List (List K)
  | page, [] => if page.isEmpty then [] else [page]
  | page, key :: keys =>
    if size ≤ page.length + 1 then (page ++ [key]) :: iterPages size [] keys
    else iterPages size (page ++ [key]) keys

theorem flatten_iterPages {K : Type} (size : Nat) (keys : List K) :
    ∀ page : List K, (iterPages size page keys).flatten = page ++ keys := by
  induction keys with
  | nil =>
    intro page
    unfold iterPages
    cases page with
    | nil => rfl
    | cons key page => simp
  | cons key keys ih =>
    intro page
    unfold iterPages
    split
    · rw [List.flatten_cons, ih, List.nil_append, List.append_assoc, List.singleton_append]
    · rw [ih, List.append_assoc, List.singleton_append]

/-- A loop over the pages that answers for each key alone. -/
theorem mapM_pages {S K β : Type} {I : S → Prop} {ask : List K → M S (List β)} {answer : K → List β}
    (size : Nat) (h : ∀ page, Returns I (ask page) fun rows => rows = page.flatMap answer) (keys : List K) :
    Returns I (do let pages ← (iterPages size [] keys).mapM ask; return pages.flatten)
      fun rows => rows = keys.flatMap answer := by
  refine (Returns.mapM fun page _ => h page).bind fun pages hpages => Returns.pure ?_
  have hflat : ∀ ps : List (List K), List.Forall₂ (fun page rows => rows = page.flatMap answer) ps pages →
      pages.flatten = ps.flatten.flatMap answer := by
    intro ps hps
    clear hpages
    induction hps with
    | nil => rfl
    | cons hrow _ ih => rw [List.flatten_cons, List.flatten_cons, List.flatMap_append, hrow, ih]
  rw [hflat _ hpages, flatten_iterPages, List.nil_append]

/-! ## Keys of one store, values of another -/

section Rows

variable {S K V : Type} [DecidableEq K]

def iterPagedBatchGet (batchGet : List K → M S (Dict K V)) (pageSize : Nat) (includeValues : Bool)
    (keys : List K) : M S (List (K × Option V)) :=
  if includeValues then do
    let pages ← (iterPages pageSize [] keys).mapM fun page => do
      let found ← batchGet page
      return page.map fun k => (k, found.get? k)
    return pages.flatten
  else pure (keys.map fun k => (k, none))

/-- The keys of a page that the store confirms. -/
def confirmPage (batchGet : List K → M S (Dict K V)) (batchExists : List K → M S (Finset K)) (includeValues : Bool)
    (page : List K) : M S (List (K × Option V)) :=
  if includeValues then do
    let found ← batchGet page
    return page.filterMap fun k => (found.get? k).map fun v => (k, some v)
  else do
    let present ← batchExists page
    return (page.filter fun k => k ∈ present).map fun k => (k, none)

def iterPresent (batchGet : List K → M S (Dict K V)) (batchExists : List K → M S (Finset K)) (pageSize : Nat)
    (includeValues : Bool) (keys : List K) : M S (List (K × Option V)) := do
  let pages ← (iterPages pageSize [] keys).mapM (confirmPage batchGet batchExists includeValues)
  return pages.flatten

variable {I : S → Prop} {content : K → Option V} {batchGet : List K → M S (Dict K V)}
  {batchExists : List K → M S (Finset K)}

/-- `batch_exists` answers from the content, as `Steady` says of `batch_get`. -/
def SteadyExists (I : S → Prop) (content : K → Option V) (batchExists : List K → M S (Finset K)) : Prop :=
  ∀ keys, Returns I (batchExists keys) fun held => ∀ k ∈ keys, k ∈ held ↔ (content k).isSome = true

theorem Steady.returns (h : Steady I content batchGet) (keys : List K) :
    Returns I (batchGet keys) fun found => ∀ k ∈ keys, found.get? k = content k := by
  intro s hs
  obtain ⟨found, s', hrun, hs', hfound⟩ := h keys s hs
  rw [hrun]
  exact ⟨hs', found, rfl, hfound⟩

theorem iterPagedBatchGet_run (h : Steady I content batchGet) (pageSize : Nat) (includeValues : Bool) (keys : List K) :
    Returns I (iterPagedBatchGet batchGet pageSize includeValues keys)
      fun rows => rows = keys.map fun k => (k, if includeValues then content k else none) := by
  unfold iterPagedBatchGet
  cases includeValues with
  | false => exact Returns.pure rfl
  | true =>
    rw [if_pos rfl]
    have hpage : ∀ page : List K, Returns I (do
        let found ← batchGet page
        return page.map fun k => (k, found.get? k))
          fun rows => rows = page.flatMap fun k => [(k, content k)] := by
      intro page
      refine (Steady.returns h page).bind fun found hfound => Returns.pure ?_
      rw [← List.map_eq_flatMap]
      exact List.map_congr_left fun k hk => by rw [hfound k hk]
    refine (mapM_pages pageSize hpage keys).congr fun rows hrows => ?_
    rw [hrows, ← List.map_eq_flatMap]
    rfl

/-- The rows of the keys that are held. -/
def presentRows (content : K → Option V) (includeValues : Bool) (keys : List K) : List (K × Option V) :=
  keys.filterMap fun k => (content k).map fun v => (k, if includeValues then some v else none)

theorem confirmPage_run (hget : Steady I content batchGet) (hexists : SteadyExists I content batchExists)
    (includeValues : Bool) (page : List K) :
    Returns I (confirmPage batchGet batchExists includeValues page)
      fun rows => rows = presentRows content includeValues page := by
  unfold confirmPage presentRows
  cases includeValues with
  | true =>
    rw [if_pos rfl]
    refine (Steady.returns hget page).bind fun found hfound => Returns.pure ?_
    exact List.filterMap_congr fun k hk => by rw [hfound k hk]; rfl
  | false =>
    rw [if_neg Bool.false_ne_true]
    refine (hexists page).bind fun held hheld => Returns.pure ?_
    rw [← List.filterMap_eq_map, List.filterMap_filter]
    refine List.filterMap_congr fun k hk => ?_
    have hmem := hheld k hk
    cases hv : content k with
    | none =>
      rw [hv] at hmem
      rw [if_neg]
      · rfl
      · simpa using hmem
    | some v =>
      rw [hv] at hmem
      rw [if_pos]
      · rfl
      · simpa using hmem

theorem iterPresent_run (hget : Steady I content batchGet) (hexists : SteadyExists I content batchExists)
    (pageSize : Nat) (includeValues : Bool) (keys : List K) :
    Returns I (iterPresent batchGet batchExists pageSize includeValues keys)
      fun rows => rows = presentRows content includeValues keys := by
  have hsplit : ∀ page : List K, presentRows content includeValues page = page.flatMap fun k =>
      ((content k).map fun v => (k, if includeValues then some v else none)).toList := by
    intro page
    unfold presentRows
    rw [List.filterMap_eq_flatMap_toList]
  have hpage : ∀ page : List K, Returns I (confirmPage batchGet batchExists includeValues page)
      fun rows => rows = page.flatMap fun k =>
        ((content k).map fun v => (k, if includeValues then some v else none)).toList := by
    intro page
    refine (confirmPage_run hget hexists includeValues page).congr fun rows hrows => ?_
    rw [hrows, hsplit]
  refine (mapM_pages pageSize hpage keys).congr fun rows hrows => ?_
  rw [hrows, hsplit]

end Rows

/-! ## Keys alone -/

namespace Predicate

variable {K V T U : Type}

/-- A predicate that reads keys, over rows whose values are of another type. It sees no value. -/
def overKeys : Predicate K V → Predicate K T
  | alwaysTrue => alwaysTrue
  | and left right => and left.overKeys right.overKeys
  | or left right => or left.overKeys right.overKeys
  | not inner => not inner.overKeys
  | keyPrefix pre => keyPrefix pre
  | key name test => key name test
  | stat name test => stat name test
  | value name test => value name fun row => test ⟨row.key, none, row.stat⟩

theorem isKeyOnly_overKeys (p : Predicate K V) : (p.overKeys : Predicate K T).isKeyOnly = p.isKeyOnly := by
  induction p with
  | and l r ihl ihr =>
    show (l.overKeys.isKeyOnly && r.overKeys.isKeyOnly) = (l.isKeyOnly && r.isKeyOnly)
    rw [ihl, ihr]
  | or l r ihl ihr =>
    show (l.overKeys.isKeyOnly && r.overKeys.isKeyOnly) = (l.isKeyOnly && r.isKeyOnly)
    rw [ihl, ihr]
  | not p ih => exact ih
  | _ => rfl

theorem isAlwaysTrue_overKeys (p : Predicate K V) :
    (p.overKeys : Predicate K T).isAlwaysTrue = p.isAlwaysTrue := by
  cases p <;> rfl

theorem overKeys_overKeys (p : Predicate K V) :
    ((p.overKeys : Predicate K T).overKeys : Predicate K U) = p.overKeys := by
  induction p with
  | and l r ihl ihr => exact congrArg₂ and ihl ihr
  | or l r ihl ihr => exact congrArg₂ or ihl ihr
  | not p ih => exact congrArg not ih
  | _ => rfl

theorem overKeys_andUnlessTrue (l r : Predicate K V) :
    ((andUnlessTrue l r).overKeys : Predicate K T) = andUnlessTrue l.overKeys r.overKeys := by
  unfold andUnlessTrue
  rw [isAlwaysTrue_overKeys, isAlwaysTrue_overKeys]
  cases l.isAlwaysTrue <;> cases r.isAlwaysTrue <;> rfl

theorem splitKeyPredicates_overKeys (p : Predicate K V) :
    (p.overKeys : Predicate K T).splitKeyPredicates =
      (p.splitKeyPredicates.1.overKeys, p.splitKeyPredicates.2.overKeys) := by
  induction p with
  | and l r ihl ihr =>
    have hl := congrArg Prod.fst ihl
    have hl' := congrArg Prod.snd ihl
    have hr := congrArg Prod.fst ihr
    have hr' := congrArg Prod.snd ihr
    dsimp only at hl hl' hr hr'
    show (andUnlessTrue l.overKeys.splitKeyPredicates.1 r.overKeys.splitKeyPredicates.1,
      andUnlessTrue l.overKeys.splitKeyPredicates.2 r.overKeys.splitKeyPredicates.2) = _
    rw [hl, hl', hr, hr', ← overKeys_andUnlessTrue, ← overKeys_andUnlessTrue]
    rfl
  | or l r =>
    have hkeys : (or l.overKeys r.overKeys : Predicate K T).isKeyOnly = (or l r).isKeyOnly :=
      isKeyOnly_overKeys (or l r)
    show splitKeyPredicates (or l.overKeys r.overKeys) = _
    unfold splitKeyPredicates
    rw [hkeys]
    split <;> rfl
  | not p ih =>
    have hkey := congrArg Prod.fst ih
    have hrest := congrArg Prod.snd ih
    dsimp only at hkey hrest
    show splitKeyPredicates (not p.overKeys) = _
    unfold splitKeyPredicates
    dsimp only
    rw [hkey, hrest, isAlwaysTrue_overKeys, isAlwaysTrue_overKeys]
    split
    · rfl
    · split <;> rfl
  | _ => rfl

theorem splitKeyPredicates_or (l r : Predicate K V) : (or l r).splitKeyPredicates =
    if (or l r).isKeyOnly then (or l r, alwaysTrue) else (alwaysTrue, or l r) := rfl

theorem splitKeyPredicates_not (p : Predicate K V) : (not p).splitKeyPredicates =
    if p.splitKeyPredicates.2.isAlwaysTrue && !p.splitKeyPredicates.1.isAlwaysTrue then
      (not p.splitKeyPredicates.1, alwaysTrue)
    else if p.splitKeyPredicates.1.isAlwaysTrue && !p.splitKeyPredicates.2.isAlwaysTrue then
      (alwaysTrue, not p.splitKeyPredicates.2)
    else (alwaysTrue, not p) := rfl

/-- A key half has nothing more to be taken from it. -/
theorem splitKeyPredicates_split (p : Predicate K V) :
    p.splitKeyPredicates.1.splitKeyPredicates = (p.splitKeyPredicates.1, alwaysTrue) := by
  have hboth : ∀ {l r : Predicate K V}, l.splitKeyPredicates = (l, alwaysTrue) →
      r.splitKeyPredicates = (r, alwaysTrue) →
      (andUnlessTrue l r).splitKeyPredicates = (andUnlessTrue l r, alwaysTrue) := by
    intro l r hl hr
    unfold andUnlessTrue
    cases hlt : l.isAlwaysTrue with
    | true =>
      cases hrt : r.isAlwaysTrue with
      | true => rfl
      | false => exact hr
    | false =>
      cases hrt : r.isAlwaysTrue with
      | true => exact hl
      | false =>
        show (andUnlessTrue l.splitKeyPredicates.1 r.splitKeyPredicates.1,
          andUnlessTrue l.splitKeyPredicates.2 r.splitKeyPredicates.2) = _
        rw [hl, hr]
        unfold andUnlessTrue
        rw [hlt, hrt]
        rfl
  induction p with
  | and l r ihl ihr => exact hboth ihl ihr
  | or l r =>
    rw [splitKeyPredicates_or]
    split
    · next hkeys =>
      dsimp only
      rw [splitKeyPredicates_or, if_pos hkeys]
    · rfl
  | not p ih =>
    rw [splitKeyPredicates_not]
    split
    · next hkeys =>
      rw [Bool.and_eq_true] at hkeys
      dsimp only
      rw [splitKeyPredicates_not, ih, if_pos (by rw [hkeys.2]; rfl)]
    · split <;> rfl
  | _ => rfl

theorem evaluate_overKeys [ScanKey K] {p : Predicate K V} (h : p.isKeyOnly = true) {row : ScanRow K V}
    {row' : ScanRow K T} (hkey : row.key = row'.key) : p.overKeys.evaluate row' = p.evaluate row := by
  induction p with
  | alwaysTrue => rfl
  | and l r ihl ihr =>
    have hboth : (l.isKeyOnly && r.isKeyOnly) = true := h
    rw [Bool.and_eq_true] at hboth
    show (l.overKeys.evaluate row' && r.overKeys.evaluate row') = (l.evaluate row && r.evaluate row)
    rw [ihl hboth.1, ihr hboth.2]
  | or l r ihl ihr =>
    have hboth : (l.isKeyOnly && r.isKeyOnly) = true := h
    rw [Bool.and_eq_true] at hboth
    show (l.overKeys.evaluate row' || r.overKeys.evaluate row') = (l.evaluate row || r.evaluate row)
    rw [ihl hboth.1, ihr hboth.2]
  | not p ih =>
    show (!p.overKeys.evaluate row') = !p.evaluate row
    rw [ih h]
  | keyPrefix pre =>
    show ScanKey.startsWith row'.key pre = ScanKey.startsWith row.key pre
    rw [hkey]
  | key name test =>
    show test row'.key = test row.key
    rw [hkey]
  | stat name test => cases h
  | value name test => cases h

end Predicate

/-- `part_key_spec` -/
def partKeySpec {K V T : Type} (spec : ScanSpec K V) (keyWhere : Predicate K T) : ScanSpec K T where
  where_ := keyWhere
  refine := none
  project := .keys
  order := spec.order
  limit := none
  pageSize := spec.pageSize
  cursor := spec.cursor
  onUnsupported := spec.onUnsupported
  orderBy := spec.orderBy
  one_order := spec.one_order

/-- What the store whose keys are listed is asked. -/
def ScanSpec.keyHalf {K V T : Type} (spec : ScanSpec K V) : ScanSpec K T :=
  partKeySpec spec spec.where_.splitKeyPredicates.1.overKeys

/-- A store two views down is asked what the store one view down is. -/
theorem ScanSpec.keyHalf_keyHalf {K V T U : Type} (spec : ScanSpec K V) :
    ((spec.keyHalf : ScanSpec K T).keyHalf : ScanSpec K U) = spec.keyHalf := by
  unfold keyHalf partKeySpec
  congr 1
  show (spec.where_.splitKeyPredicates.1.overKeys : Predicate K T).splitKeyPredicates.1.overKeys = _
  rw [Predicate.splitKeyPredicates_overKeys]
  dsimp only
  rw [Predicate.splitKeyPredicates_split, Predicate.overKeys_overKeys]

/-! ## Scans -/

section Scans

variable {S K V T : Type} [DecidableEq K] [ScanKey K]

/-- A row made of a key and its value: it has no stat. -/
def bareRow (entry : K × Option V) : ScanRow K V := ⟨entry.1, entry.2, none⟩

/-- `ScanPassthroughMixin.scan_entries` -/
def passthroughScanEntries (batchGet : List K → M S (Dict K V))
    (scanEntries : ScanQuery K → M S (List (K × Option T))) (query : ScanQuery K) : M S (List (K × Option V)) := do
  let listed ← scanEntries ⟨query.keyPrefix, false, query.pageSize⟩
  iterPagedBatchGet batchGet query.pageSize query.includeValues (listed.map Prod.fst)

/-- `ScanPassthroughMixin.scan_rows` -/
def passthroughScanRows (batchGet : List K → M S (Dict K V)) (src : Scannable S K T) (spec : ScanSpec K V) :
    M S (List (ScanRow K V)) := do
  let residual := spec.where_.splitKeyPredicates.2
  let listed ← src.scanRows spec.keyHalf
  let rows ← iterPagedBatchGet batchGet spec.pageSize (needsValues spec residual)
    (listed.map fun row => row.key)
  applyCascade (spec.call residual) (some batchGet) (rows.map bareRow)

/-- A part whose keys are the record's, whatever its values are. -/
structure KeyPart (S K : Type) where
  {Value : Type}
  store : Scannable S K Value

/-- The keys a part gives for the key half of a spec. -/
def KeyPart.scanKeys (spec : ScanSpec K V) (part : KeyPart S K) : M S (List K) := do
  let rows ← part.store.scanRows spec.keyHalf
  return rows.map fun row => row.key

/-- `iter_union_keys_spec` -/
def iterUnionKeysSpec (parts : List (KeyPart S K)) (spec : ScanSpec K V) : M S (List K) := do
  let listed ← parts.mapM (KeyPart.scanKeys spec)
  return Dict.unique listed.flatten

def ScanOrder.name : ScanOrder → String
  | .unordered => "UNORDERED"
  | .keyAsc => "KEY_ASC"
  | .keyDesc => "KEY_DESC"

/-- `require_unordered` -/
def requireUnordered (spec : ScanSpec K V) (op : String) : Except Exn Unit :=
  if spec.order ≠ .unordered then
    .error (.scanUnsupported (op ++ " scan supports ScanOrder.UNORDERED only (got ScanOrder." ++
      spec.order.name ++ ")"))
  else if spec.orderBy ≠ [] then
    .error (.scanUnsupported (op ++ " scan merges keys from several stores, so no one store's " ++
      "columns order it; give the record a commit part to order by"))
  else .ok ()

/-- `StoreTopologyMixin.scan_rows` of an assembled record. -/
def mergedScanRows (op : String) (batchGet : List K → M S (Dict K V)) (batchExists : List K → M S (Finset K))
    (scanned : List (KeyPart S K)) (spec : ScanSpec K V) : M S (List (ScanRow K V)) := do
  Prog.when (1 < scanned.length) (ofExcept (requireUnordered spec op))
  let residual := spec.where_.splitKeyPredicates.2
  let keys ← iterUnionKeysSpec scanned spec
  let rows ← iterPresent batchGet batchExists spec.pageSize (needsValues spec residual) keys
  applyCascade (spec.call residual) (some batchGet) (rows.map bareRow)

/-! ### What they give -/

variable {I : S → Prop} {content : K → Option V} {batchGet : List K → M S (Dict K V)}
  {batchExists : List K → M S (Finset K)}

/-- The row a scan gives for a key of its source. A key that reads as nothing has one too, unless a
    value is asked about. -/
def joinedRow (spec : ScanSpec K V) (content : K → Option V) (k : K) : Option (ScanRow K V) :=
  let residual := spec.where_.splitKeyPredicates.2
  if residual.needs.value && (content k).isNone then none
  else
    let row := bareRow (k, if needsValues spec residual then content k else none)
    if spec.where_.evaluate row && spec.refine.all fun refine => refine row then
      some (projectRow row spec.project)
    else none

/-- The row a scan gives for a key of a part: none unless it has a record. -/
def recordRow (spec : ScanSpec K V) (content : K → Option V) (k : K) : Option (ScanRow K V) :=
  if (content k).isSome then joinedRow spec content k else none

omit [DecidableEq K] in
/-- What the cascade makes of a key that passed the key half. -/
theorem judge_bareRow {spec : ScanSpec K V} {k : K}
    (hkey : spec.where_.splitKeyPredicates.1.evaluate (bareRow (k, none)) = true) :
    judge (spec.call spec.where_.splitKeyPredicates.2) content
      (bareRow (k, if needsValues spec spec.where_.splitKeyPredicates.2 then content k else none)) =
    joinedRow spec content k := by
  have hwhere : ∀ row : ScanRow K V, row.key = k →
      spec.where_.evaluate row = spec.where_.splitKeyPredicates.2.evaluate row := by
    intro row hrow
    have hfirst : spec.where_.splitKeyPredicates.1.evaluate row =
        spec.where_.splitKeyPredicates.1.evaluate (bareRow (k, none)) :=
      Predicate.evaluate_of_keyOnly (Predicate.isKeyOnly_splitKeyPredicates _) hrow
    rw [Predicate.evaluate_splitKeyPredicates, hfirst, hkey, Bool.true_and]
  unfold judge joinedRow
  dsimp only
  rw [hwhere _ rfl]
  show (if spec.where_.splitKeyPredicates.2.needs.value then _ else _) = _
  cases hneeds : spec.where_.splitKeyPredicates.2.needs.value with
  | false => rfl
  | true =>
    have hvalues : needsValues spec spec.where_.splitKeyPredicates.2 = true := by
      unfold needsValues
      rw [hneeds, Bool.or_true]
    rw [hvalues, if_pos rfl, if_pos rfl]
    cases hv : content k with
    | none =>
      have hread : ((bareRow (k, none) : ScanRow K V).value <|> content (bareRow (k, (none : Option V))).key) =
          content k := rfl
      rw [hread, hv]
      rfl
    | some v => rfl

omit [ScanKey K] in
theorem passthroughScanEntries_run (h : Steady I content batchGet)
    {scanEntries : ScanQuery K → M S (List (K × Option T))} {query : ScanQuery K} {keys : List K}
    (hlist : Returns I (scanEntries ⟨query.keyPrefix, false, query.pageSize⟩)
      fun listed => listed.map Prod.fst = keys) :
    Returns I (passthroughScanEntries batchGet scanEntries query)
      fun rows => rows = keys.map fun k => (k, if query.includeValues then content k else none) := by
  unfold passthroughScanEntries
  refine hlist.bind fun listed hlisted => ?_
  rw [hlisted]
  exact iterPagedBatchGet_run h query.pageSize query.includeValues keys

/-- A view gives what its rows come to, for the keys its source gives. -/
theorem passthroughScanRows_run (h : Steady I content batchGet) {src : Scannable S K T} {spec : ScanSpec K V}
    {keys : List K} (hnodup : keys.Nodup)
    (hpass : ∀ k ∈ keys, spec.where_.splitKeyPredicates.1.evaluate (bareRow (k, none)) = true)
    (hlist : Returns I (src.scanRows spec.keyHalf) fun rows => rows.map (fun row => row.key) = keys) :
    Returns I (passthroughScanRows batchGet src spec) fun rows =>
      rows = cut (spec.call spec.where_.splitKeyPredicates.2) (keys.filterMap (joinedRow spec content)) := by
  unfold passthroughScanRows
  refine hlist.bind fun listed hlisted => ?_
  rw [hlisted]
  refine (iterPagedBatchGet_run h spec.pageSize _ keys).bind fun rows hrows => ?_
  have hkeys : ((rows.map bareRow).map fun row : ScanRow K V => row.key) = keys := by
    rw [hrows, List.map_map, List.map_map]
    exact List.map_id keys
  refine (cascade_returns _ content h (rows.map bareRow)
    (noneTwice_of_listed (by rw [hkeys]; exact hnodup))).congr fun out hout => ?_
  rw [hout, hrows, List.map_map, List.filterMap_map]
  exact congrArg _ (List.filterMap_congr fun k hk => judge_bareRow (hpass k hk))

/-- A source that refuses is not read past. -/
theorem passthroughScanRows_refused {src : Scannable S K T} {spec : ScanSpec K V} {s : S} {e : Exn}
    (h : (src.scanRows spec.keyHalf s).1 = .error e) :
    (passthroughScanRows batchGet src spec s).1 = .error e := by
  unfold passthroughScanRows
  rw [bind_error (Prod.ext h rfl)]

/-! ### An assembled record -/

omit [DecidableEq K] in
/-- A record's row is of its key. -/
theorem joinedRow_key {spec : ScanSpec K V} {k : K} {row : ScanRow K V} (h : joinedRow spec content k = some row) :
    row.key = k := by
  obtain ⟨-, hgiven⟩ := Option.ite_none_left_eq_some.mp h
  obtain ⟨-, hrow⟩ := Option.ite_none_right_eq_some.mp hgiven
  rw [← Option.some.inj hrow]
  cases spec.project <;> rfl

omit [DecidableEq K] in
theorem recordRow_key {spec : ScanSpec K V} {k : K} {row : ScanRow K V} (h : recordRow spec content k = some row) :
    row.key = k := by
  exact joinedRow_key (Option.ite_none_right_eq_some.mp h).2

omit [DecidableEq K] [ScanKey K] in
theorem map_key_filterMap {give : K → Option (ScanRow K V)} (h : ∀ k row, give k = some row → row.key = k)
    (keys : List K) : (keys.filterMap give).map (fun row => row.key) = keys.filter fun k => (give k).isSome := by
  induction keys with
  | nil => rfl
  | cons k keys ih =>
    cases hk : give k with
    | none => rw [List.filterMap_cons_none hk, List.filter_cons_of_neg (by rw [hk]; exact Bool.false_ne_true), ih]
    | some row =>
      rw [List.filterMap_cons_some hk, List.filter_cons_of_pos (by rw [hk]; rfl), List.map_cons, ih, h k row hk]

omit [ScanKey K] in
theorem iterUnionKeysSpec_run {parts : List (KeyPart S K)} {spec : ScanSpec K V} {listed : KeyPart S K → List K}
    (hlisted : ∀ part ∈ parts, Returns I (part.scanKeys spec) fun keys => keys = listed part) :
    Returns I (iterUnionKeysSpec parts spec) fun keys => keys = Dict.unique (parts.flatMap listed) := by
  unfold iterUnionKeysSpec
  refine (Returns.mapM hlisted).bind fun found hfound => Returns.pure ?_
  have hflat : found = parts.map listed := by
    clear hlisted
    induction hfound with
    | nil => rfl
    | cons hkeys _ ih => rw [List.map_cons, hkeys, ih]
  rw [hflat, List.flatMap]

omit [DecidableEq K] in
/-- A key half is asked of each part, so a record judges what came with the rest. -/
theorem filterMap_presentRows {spec : ScanSpec K V} {keys : List K}
    (hpass : ∀ k ∈ keys, spec.where_.splitKeyPredicates.1.evaluate (bareRow (k, none)) = true) :
    ((presentRows content (needsValues spec spec.where_.splitKeyPredicates.2) keys).map bareRow).filterMap
      (judge (spec.call spec.where_.splitKeyPredicates.2) content) = keys.filterMap (recordRow spec content) := by
  unfold presentRows
  rw [List.filterMap_map, List.filterMap_filterMap]
  refine List.filterMap_congr fun k hk => ?_
  unfold recordRow
  cases hv : content k with
  | none => rfl
  | some v =>
    rw [← judge_bareRow (hpass k hk), hv]
    rfl

/-- What a record asked for rows gives. -/
theorem mergedScanRows_run {op : String} (hget : Steady I content batchGet)
    (hexists : SteadyExists I content batchExists) {scanned : List (KeyPart S K)} {spec : ScanSpec K V}
    {listed : KeyPart S K → List K} (hallowed : 1 < scanned.length → spec.order = .unordered ∧ spec.orderBy = [])
    (hlisted : ∀ part ∈ scanned, Returns I (part.scanKeys spec) fun keys => keys = listed part)
    (hpass : ∀ part ∈ scanned, ∀ k ∈ listed part,
      spec.where_.splitKeyPredicates.1.evaluate (bareRow (k, none)) = true) :
    Returns I (mergedScanRows op batchGet batchExists scanned spec) fun rows =>
      rows = cut (spec.call spec.where_.splitKeyPredicates.2)
        ((Dict.unique (scanned.flatMap listed)).filterMap (recordRow spec content)) := by
  have hrefuses : Returns I (Prog.when (1 < scanned.length) (ofExcept (requireUnordered spec op)) : M S Unit)
      fun _ => True := by
    unfold Prog.when
    split
    · next hmany =>
      unfold requireUnordered
      rw [if_neg (not_not.mpr (hallowed hmany).1), if_neg (not_not.mpr (hallowed hmany).2)]
      exact Returns.pure trivial
    · exact Returns.pure trivial
  unfold mergedScanRows
  refine hrefuses.bind fun _ _ => (iterUnionKeysSpec_run hlisted).bind fun keys hkeys => ?_
  refine (iterPresent_run hget hexists spec.pageSize _ keys).bind fun rows hrows => ?_
  have hpassed : ∀ k ∈ keys, spec.where_.splitKeyPredicates.1.evaluate (bareRow (k, none)) = true := by
    intro k hk
    rw [hkeys, Dict.mem_unique] at hk
    obtain ⟨part, hpart, hk⟩ := List.mem_flatMap.mp hk
    exact hpass part hpart k hk
  have hnodup : ((rows.map bareRow).map fun row : ScanRow K V => row.key).Nodup := by
    have hfilter : (rows.map bareRow).map (fun row : ScanRow K V => row.key) =
        keys.filter fun k => (content k).isSome := by
      rw [hrows, List.map_map]
      unfold presentRows
      rw [List.map_filterMap, ← List.filterMap_eq_filter]
      refine List.filterMap_congr fun k _ => ?_
      cases hv : content k <;> simp [hv, bareRow, Option.guard]
    rw [hfilter, hkeys]
    exact (Dict.nodup_unique _).filter _
  refine (cascade_returns _ content hget (rows.map bareRow) (noneTwice_of_listed hnodup)).congr fun out hout => ?_
  rw [hout, hrows, filterMap_presentRows hpassed, hkeys]

/-- A scan of an assembled record gives the records that pass, each once and in the order their keys were
    first found, the first of them where there is a limit. An order over several parts is refused, before
    any of them is read. -/
theorem mergedScanRows_gives (op : String) (hget : Steady I content batchGet)
    (hexists : SteadyExists I content batchExists) {scanned : List (KeyPart S K)} {spec : ScanSpec K V}
    {listed : KeyPart S K → List K}
    (hlisted : ∀ part ∈ scanned, Returns I (part.scanKeys spec) fun keys => keys = listed part)
    (hpass : ∀ part ∈ scanned, ∀ k ∈ listed part,
      spec.where_.splitKeyPredicates.1.evaluate (bareRow (k, none)) = true) :
    (1 < scanned.length ∧ (spec.order ≠ .unordered ∨ spec.orderBy ≠ []) → ∀ s, ∃ message,
      mergedScanRows op batchGet batchExists scanned spec s = (.error (.scanUnsupported message), s)) ∧
    ((1 < scanned.length → spec.order = .unordered ∧ spec.orderBy = []) →
      Returns I (mergedScanRows op batchGet batchExists scanned spec) fun rows =>
        rows = cut (spec.call spec.where_.splitKeyPredicates.2)
          ((Dict.unique (scanned.flatMap listed)).filterMap (recordRow spec content)) ∧
        (rows.map fun row => row.key).Nodup ∧
        (spec.limit = none → ∀ k, k ∈ rows.map (fun row => row.key) ↔
          (∃ part ∈ scanned, k ∈ listed part) ∧ (recordRow spec content k).isSome = true)) := by
  constructor
  · intro ⟨hmany, hordered⟩ s
    unfold mergedScanRows Prog.when
    rw [if_pos hmany]
    unfold requireUnordered
    by_cases horder : spec.order = .unordered
    · rw [if_neg (not_not.mpr horder), if_pos (hordered.resolve_left (not_not.mpr horder))]
      exact ⟨_, rfl⟩
    · rw [if_pos horder]
      exact ⟨_, rfl⟩
  · intro hallowed
    refine (mergedScanRows_run hget hexists hallowed hlisted hpass).congr fun rows hrows => ?_
    have hkey : ∀ k row, recordRow spec content k = some row → row.key = k := fun _ _ => recordRow_key
    have hkeys := map_key_filterMap hkey (Dict.unique (scanned.flatMap listed))
    refine ⟨hrows, ?_, fun hlimit k => ?_⟩
    · have hsub : rows.Sublist ((Dict.unique (scanned.flatMap listed)).filterMap (recordRow spec content)) := by
        rw [hrows]
        unfold cut
        split
        · exact List.Sublist.refl _
        · exact List.take_sublist _ _
      refine List.Nodup.sublist (hsub.map _) ?_
      rw [hkeys]
      exact (Dict.nodup_unique _).filter _
    · have huncut : rows = (Dict.unique (scanned.flatMap listed)).filterMap (recordRow spec content) := by
        rw [hrows]
        unfold cut
        rw [show (spec.call spec.where_.splitKeyPredicates.2).limit = none from hlimit]
      rw [huncut, hkeys, List.mem_filter, Dict.mem_unique, List.mem_flatMap]

end Scans

/-- A part that has these keys. -/
def listingPart (keys : List (List Char)) : KeyPart Unit (List Char) where
  Value := Unit
  store := ⟨fun spec => pure ((keys.filter fun k => spec.where_.evaluate (bareRow (k, none))).map fun k =>
      bareRow (k, none)),
    fun asked => pure (Dict.ofKeys (asked.filter keys.contains) fun _ => some ())⟩

/-- The first two keys of three have a record. -/
def twoOfThree (k : List Char) : Option Nat := if k = ['a'] then some 1 else if k = ['b'] then some 2 else none

theorem mergedScanRows_gives_twoOfThree :
    (mergedScanRows "ZipKvStore" (fun keys => pure (Dict.ofKeys keys twoOfThree))
      (fun keys => pure (keys.filter fun k => (twoOfThree k).isSome).toFinset)
      [listingPart [['b'], ['c']], listingPart [['a'], ['b']]]
      (.ofPrefix none .entries .unordered none 2) ()).1 = .ok [⟨['b'], some 2, none⟩, ⟨['a'], some 1, none⟩] := by
  have hget : Steady (fun _ : Unit => True) twoOfThree fun keys => pure (Dict.ofKeys keys twoOfThree) :=
    fun keys s _ => ⟨_, s, rfl, trivial, fun k hk => by rw [Dict.get?_ofKeys, if_pos hk]⟩
  have hexists : SteadyExists (fun _ : Unit => True) twoOfThree
      fun keys => pure (keys.filter fun k => (twoOfThree k).isSome).toFinset := by
    intro keys
    refine Returns.pure fun k hk => ?_
    rw [List.mem_toFinset, List.mem_filter, and_iff_right hk]
  have hrows := (@mergedScanRows_gives _ _ _ _ _ _ _ _ _ "ZipKvStore" hget hexists
    [listingPart [['b'], ['c']], listingPart [['a'], ['b']]] (.ofPrefix none .entries .unordered none 2)
    (fun part => (part.scanKeys (.ofPrefix none .entries .unordered none 2 : ScanSpec (List Char) Nat)
      ()).1.toOption.getD [])
    ?_ ?_).2 fun _ => ⟨rfl, rfl⟩
  · obtain ⟨-, rows, hrows, hgiven, -⟩ := hrows () trivial
    rw [hrows, hgiven]
    rfl
  · intro part hpart
    rcases List.mem_cons.mp hpart with rfl | hpart
    · exact Returns.pure rfl
    · rw [List.mem_singleton.mp hpart]
      exact Returns.pure rfl
  · intro part _ k _
    rfl

end Kvtsjl
