import Kvtsjl.PrefixScans
import Kvtsjl.SqlScans

/-
  Scans for a prefix of a table whose keys have one text column.
  The prefix is pushed as a `LIKE` pattern, and nothing is left to filter by. Escaped, the pattern
  stands for the prefix letter by letter, but to SQLite an ASCII letter is the same in either case:
  a key that begins with the prefix but for the case of its letters is shown too
  (`TextTable.likeScan_iff`).
-/

namespace Kvtsjl

open Assoc (Dict)
open Effects Prog
open SqlRows (OrderBy)

/-! ## `LIKE` a prefix -/

/-- The text begins with the letters of `pre`, each in either case. -/
def BeginsLike (pre text : List Char) : Prop :=
  ∃ u v, text = u ++ v ∧ List.Forall₂ (fun c d => sameLetter c d = true) pre u

theorem sameLetter_self (c : Char) : sameLetter c c = true := decide_eq_true rfl

theorem beginsLike_of_prefix {pre text : List Char} (h : pre <+: text) : BeginsLike pre text := by
  obtain ⟨v, hv⟩ := h
  exact ⟨pre, v, hv.symm, List.forall₂_same.mpr fun c _ => sameLetter_self c⟩

/-- What a letter is escaped to. -/
def escapedChar (c : Char) : List Char :=
  if c = '\\' then ['\\', '\\'] else if c = '%' then ['\\', '%'] else if c = '_' then ['\\', '_'] else [c]

theorem replaceChar_append (old : Char) (new s t : List Char) :
    replaceChar old new (s ++ t) = replaceChar old new s ++ replaceChar old new t := by
  unfold replaceChar
  rw [List.flatMap_append]

theorem escapeLike_cons (c : Char) (value : List Char) :
    escapeLike (c :: value) = escapedChar c ++ escapeLike value := by
  have hone : escapeLike [c] = escapedChar c := by
    unfold escapedChar
    by_cases hslash : c = '\\'
    · rw [hslash]
      decide
    · by_cases hpercent : c = '%'
      · rw [hpercent]
        decide
      · by_cases hunder : c = '_'
        · rw [hunder]
          decide
        · rw [if_neg hslash, if_neg hpercent, if_neg hunder]
          simp [escapeLike, replaceChar, hslash, hpercent, hunder]
  have hsplit : c :: value = [c] ++ value := rfl
  rw [← hone, hsplit]
  unfold escapeLike
  rw [replaceChar_append, replaceChar_append, replaceChar_append]

/-- An escaped letter stands for itself. -/
theorem likeItems_escapedChar (c : Char) (pattern : List Char) :
    likeItems (escapedChar c ++ pattern) = .one (sameLetter c) :: likeItems pattern := by
  unfold escapedChar
  by_cases hslash : c = '\\'
  · rw [if_pos hslash, hslash]
    rfl
  · by_cases hpercent : c = '%'
    · rw [if_neg hslash, if_pos hpercent, hpercent]
      rfl
    · by_cases hunder : c = '_'
      · rw [if_neg hslash, if_neg hpercent, if_pos hunder, hunder]
        rfl
      · rw [if_neg hslash, if_neg hpercent, if_neg hunder, List.singleton_append]
        rw [likeItems]
        all_goals simp [hslash, hpercent, hunder]

theorem likeItems_escapeLike (value : List Char) :
    likeItems (escapeLike value ++ ['%']) = (value.map sameLetter).map Glob.Item.one ++ [.many] := by
  induction value with
  | nil => rfl
  | cons c value ih =>
    rw [escapeLike_cons, List.append_assoc, likeItems_escapedChar, ih]
    rfl

theorem Cell.isLike_iff {pre : String} {cell : Cell} :
    cell.isLike pre = true ↔ BeginsLike pre.toList cell.toText.toList := by
  unfold Cell.isLike BeginsLike
  rw [likeItems_escapeLike, Glob.accepts_tests_many]
  simp only [List.forall₂_map_left_iff]

/-! ## A scan for a prefix -/

section Scan

variable {K V : Type}

/-- A prefix alone, in an order of the table's. -/
def ScanSpec.prefixBy (pre : K) (orderBy : List OrderBy) (pageSize : Nat) : ScanSpec K V where
  where_ := .keyPrefix pre
  refine := none
  project := .keys
  order := .unordered
  limit := none
  pageSize := pageSize
  cursor := none
  onUnsupported := .clientSide
  orderBy := orderBy
  one_order _ := ⟨rfl, rfl⟩

namespace SqlDbKvBackend

variable (b : SqlDbKvBackend K V)

/-- What `compile_scan` asks of the table for such a spec. -/
def prefixQuery (pre : K) (orderBy : List OrderBy) (pageSize : Nat) : SqlScan K :=
  let spec : ScanSpec K V := .prefixBy pre orderBy pageSize
  let (userPrefix, residual) := spec.where_.peelKeyPrefix
  ⟨userPrefix, spec.project = .entries, spec.orderBy, none, spec.cursor, spec.pageSize, !residual.isAlwaysTrue⟩

/-- `scan_rows` with `KeyPrefix(pre)`. -/
def prefixScan [DecidableEq K] [ScanKey K] (pre : K) (orderBy : List OrderBy) (pageSize pages : Nat) :
    M (Medium SqlKey SqlDbRow) (List (ScanRow K V)) := do
  let spec : ScanSpec K V := .prefixBy pre orderBy pageSize
  let rows ← (b.scan (prefixQuery (V := V) pre orderBy pageSize) none pages).run
  applyCascade (spec.call spec.where_.peelKeyPrefix.2) (some fun keys => (b.batchGet keys).run)
    (rows.map fun e => ⟨e.1, e.2, none⟩)

/-- The keys of the live rows of the scope, one for each row. -/
def liveKeys (m : Medium SqlKey SqlDbRow) : List K :=
  (m.entries.entries.filter fun e => SqlRows.selects b.sqlKvset.keyFields b.scopeCells Dict.empty
    e.1).filterMap (b.shownRow m.clock)

variable {b}

theorem prefixScan_run [DecidableEq K] [ScanKey K] (hliteral : b.keyLayout = .literal) (pre : K)
    {orderBy : List OrderBy} (hcolumns : orderBy ≠ [] → ∃ columns, b.resolveOrderBy orderBy = .ok columns)
    {pageSize : Nat} (hpage : 1 ≤ pageSize) {pages : Nat} {m : Medium SqlKey SqlDbRow}
    (hpages : m.entries.entries.length < pages) (htimed : ∀ row ∈ m.entries.entries, b.Timed row.2) :
    ∃ rows, (b.prefixScan pre orderBy pageSize pages m).1 = .ok rows ∧
      (rows.map fun row => row.key).Perm ((m.entries.entries.filter fun e =>
        SqlRows.selects b.sqlKvset.keyFields b.scopeCells (b.leafPrefixMap (some pre)) e.1).filterMap
          (b.shownRow m.clock)) := by
  obtain ⟨rows, hrows, hperm⟩ := @scan_run _ _ b hliteral (prefixQuery (V := V) pre orderBy pageSize) rfl rfl rfl
    hpage hcolumns _ _ hpages htimed
  refine ⟨(rows.map fun e => ⟨e.1, e.2, none⟩).map fun row => projectRow row .keys, ?_, ?_⟩
  · unfold prefixScan
    rw [bind_ok (Prod.ext hrows rfl)]
    exact congrArg Prod.fst (applyCascade_all .keys _ _)
  · rw [List.map_map, List.map_map]
    exact hperm

/-- A hashed layout, or a hierarchical one, is not scanned. -/
theorem prefixScan_refused [DecidableEq K] [ScanKey K] (h : b.keyLayout ≠ .literal) (pre : K)
    (orderBy : List OrderBy) (pageSize pages : Nat) (m : Medium SqlKey SqlDbRow) :
    ∃ e, (b.prefixScan pre orderBy pageSize pages m).1 = .error e := by
  refine ⟨.scanUnsupported ("SqlDbKvStore scan requires KeyLayout.LITERAL (got " ++ b.keyLayout.repr ++ ")"), ?_⟩
  have hrun : (b.scan (prefixQuery (V := V) pre orderBy pageSize) none pages).run m =
      (.error (.scanUnsupported ("SqlDbKvStore scan requires KeyLayout.LITERAL (got " ++
        b.keyLayout.repr ++ ")")), m) := by
    unfold scan draw
    rw [if_pos h]
    rfl
  unfold prefixScan
  rw [bind_error hrun]

end SqlDbKvBackend

/-- The keys of the rows are the live ones that start with the prefix, as often as they are live. -/
def YieldsLive [ScanKey K] (result : Except Exn (List (ScanRow K V))) (live : List K) (pre : K) : Prop :=
  ∃ rows, result = .ok rows ∧
    (rows.map fun row => row.key).Perm (live.filter fun k => ScanKey.startsWith k pre)

end Scan

/-! ## A table of text keys -/

/-- A store whose keys have one leaf column, which holds text: the leaf alone beside columns for the
    scope, or else the whole physical key. -/
structure TextTable (V VB : Type) where
  base : SqlDbKvBackend (List Char) V
  keys : KvBackend (List Char) V Char VB
  field : String
  one_field : base.sqlKvset.leafKeyFields = [field]
  same_layout : base.keyLayout = keys.kvset.keyLayout
  serialize_key : ∀ key, keys.kvset.keySerde.serialize key = key
  deserialize_key : ∀ blob, keys.kvset.keySerde.deserialize blob = some blob

namespace TextTable

variable {V VB : Type} (t : TextTable V VB)

/-- `_scope_by_kind` -/
def scopeByKind : Dict String String :=
  t.keys.scope.segments.foldl (fun ids g => ids.set g.kind g.id) Dict.empty

/-- `_leaf_key_row` -/
def leafKeyRow (key : List Char) : Except Exn (List Cell) :=
  (if t.base.sqlKvset.scopeFields ≠ [] then .ok (t.keys.kvset.keySerde.serialize key)
    else t.keys.physicalKeyBlob key).map fun blob => [.text (String.ofList blob)]

/-- The text of the leaf column. -/
def leafText (key : SqlKey) : List Char :=
  match key.getLast? with
  | some cell => cell.toText.toList
  | none => []

/-- `_decode_leaf_key` -/
def decodeLeafKey (key : SqlKey) : Option (List Char) :=
  if t.base.sqlKvset.scopeFields ≠ [] then t.keys.kvset.keySerde.deserialize (leafText key)
  else t.keys.decodeKeyFromPhysical (leafText key)

/-- What the leaf column must begin with. -/
def pushed (pre : Option (List Char)) : List Char :=
  if t.base.sqlKvset.scopeFields = [] then t.keys.scanPrefixBlob pre
  else match pre with
    | none => []
    | some pre => t.keys.kvset.keySerde.serialize pre

/-- `_leaf_prefix_map` -/
def leafPrefixMap (pre : Option (List Char)) : Dict String String :=
  if t.pushed pre = [] then Dict.empty else Dict.single t.field (String.ofList (t.pushed pre))

def store : SqlDbKvBackend (List Char) V :=
  { t.base with
    scope := t.scopeByKind
    leafKeyRow := t.leafKeyRow
    decodeLeafKey := t.decodeLeafKey
    leafPrefixMap := t.leafPrefixMap }

/-- Each row has a cell for every key column, and its columns of time hold numbers or nothing. -/
def WellFormed (m : Medium SqlKey SqlDbRow) : Prop :=
  ∀ row ∈ m.entries.entries, row.1.length = t.base.sqlKvset.keyFields.length ∧ t.store.Timed row.2

variable {t}

theorem keyFields_eq : t.base.sqlKvset.keyFields = t.base.sqlKvset.scopeFields ++ [t.field] := by
  unfold SqlDbKvSet.keyFields
  rw [t.one_field]

theorem field_notMem : t.field ∉ t.base.sqlKvset.scopeFields := by
  have hnodup := t.base.sqlKvset.nodup
  rw [t.one_field] at hnodup
  exact fun hmem => List.disjoint_of_nodup_append hnodup hmem (List.mem_singleton.mpr rfl)

theorem scopeCells_field : t.store.scopeCells.get? t.field = none := by
  have hother : ∀ step : Dict String Cell → String → Dict String Cell,
      (∀ row field, t.field ≠ field → (step row field).get? t.field = row.get? t.field) →
      ∀ (fields : List String) (row : Dict String Cell), t.field ∉ fields →
        row.get? t.field = none → (fields.foldl step row).get? t.field = none := by
    intro step hstep fields
    induction fields with
    | nil => exact fun _ _ hrow => hrow
    | cons field fields ih =>
      intro row hmem hrow
      exact ih _ (List.not_mem_of_not_mem_cons hmem)
        ((hstep row field (List.ne_of_not_mem_cons hmem)).trans hrow)
  unfold SqlDbKvBackend.scopeCells
  refine hother _ (fun row field hne => ?_) _ _ field_notMem rfl
  cases t.store.scope.get? field with
  | none => rfl
  | some id =>
    dsimp only
    rw [Dict.get?_set, if_neg hne]

theorem leafPrefixMap_ne (pre : Option (List Char)) {field : String} (h : field ≠ t.field) :
    (t.leafPrefixMap pre).get? field = none := by
  unfold leafPrefixMap
  split
  · rfl
  · rw [Dict.get?_single, if_neg h.symm]

/-- The prefix pushed selects, in the scope, what the leaf column begins like. -/
theorem selects_leafPrefix {key : SqlKey} (hkey : key.length = t.base.sqlKvset.keyFields.length)
    (pre : Option (List Char)) :
    SqlRows.selects t.base.sqlKvset.keyFields t.store.scopeCells (t.leafPrefixMap pre) key = true ↔
      SqlRows.selects t.base.sqlKvset.keyFields t.store.scopeCells Dict.empty key = true ∧
        BeginsLike (t.pushed pre) (leafText key) := by
  rw [keyFields_eq, List.length_append, List.length_singleton] at hkey
  obtain ⟨ks, cell, rfl⟩ : ∃ ks cell, key = ks ++ [cell] := by
    rcases List.eq_nil_or_concat key with hnil | ⟨ks, cell, hconcat⟩
    · rw [hnil, List.length_nil] at hkey
      omega
    · exact ⟨ks, cell, by rw [hconcat, List.concat_eq_append]⟩
  rw [List.length_append, List.length_singleton] at hkey
  have hlength : t.base.sqlKvset.scopeFields.length = ks.length := by omega
  have htext : leafText (ks ++ [cell]) = cell.toText.toList := by
    unfold leafText
    rw [List.getLast?_append_of_ne_nil _ (by simp)]
    rfl
  have hscope : ∀ prefixes : Dict String String, (∀ f, f ≠ t.field → prefixes.get? f = none) →
      SqlRows.selects t.base.sqlKvset.scopeFields t.store.scopeCells prefixes ks =
        SqlRows.selects t.base.sqlKvset.scopeFields t.store.scopeCells Dict.empty ks := by
    intro prefixes hprefixes
    unfold SqlRows.selects
    rw [Bool.eq_iff_iff, List.all_eq_true, List.all_eq_true]
    refine forall₂_congr fun ⟨f, c⟩ hx => ?_
    have hfield : f ≠ t.field := by
      intro heq
      exact field_notMem (heq ▸ (List.of_mem_zip hx).1)
    dsimp only
    rw [hprefixes f hfield, Dict.get?_empty]
  have hsplit : ∀ prefixes : Dict String String,
      SqlRows.selects t.base.sqlKvset.keyFields t.store.scopeCells prefixes (ks ++ [cell]) =
        (SqlRows.selects t.base.sqlKvset.scopeFields t.store.scopeCells prefixes ks &&
          (prefixes.get? t.field).all cell.isLike) := by
    intro prefixes
    unfold SqlRows.selects
    rw [keyFields_eq, List.zip_append hlength, List.all_append]
    have hlast : [t.field].zip [cell] = [(t.field, cell)] := rfl
    rw [hlast, List.all_cons, List.all_nil, Bool.and_true]
    dsimp only
    rw [scopeCells_field]
    cases prefixes.get? t.field <;> rfl
  rw [hsplit, hsplit, hscope _ fun f hf => leafPrefixMap_ne pre hf, htext, Dict.get?_empty,
    Option.all_none, Bool.and_true, Bool.and_eq_true]
  refine and_congr_right fun _ => ?_
  unfold leafPrefixMap
  by_cases hpushed : t.pushed pre = []
  · rw [if_pos hpushed, hpushed, Dict.get?_empty]
    exact iff_of_true rfl ⟨[], _, rfl, .nil⟩
  · rw [if_neg hpushed, Dict.get?_single, if_pos rfl, Option.all_some]
    rw [Cell.isLike_iff, String.toList_ofList]

variable (t) in
/-- A live row of the scope is found exactly where the key it is read as starts with the prefix. -/
def FindsExactly (m : Medium SqlKey SqlDbRow) (pre : List Char) : Prop :=
  ∀ row ∈ m.entries.entries,
    SqlRows.selects t.base.sqlKvset.keyFields t.store.scopeCells Dict.empty row.1 = true →
      ∀ k, t.store.shownRow m.clock row = some k →
        (BeginsLike (t.pushed (some pre)) (leafText row.1) ↔ ScanKey.startsWith k pre = true)

variable (t) in
/-- The rows given are the live ones found. -/
theorem yieldsLive_iff {orderBy : List OrderBy}
    (hcolumns : orderBy ≠ [] → ∃ columns, t.store.resolveOrderBy orderBy = .ok columns) {pageSize : Nat}
    (hpage : 1 ≤ pageSize) {pages : Nat} {m : Medium SqlKey SqlDbRow} (hpages : m.entries.entries.length < pages)
    (hrows : t.WellFormed m) (pre : List Char) :
    YieldsLive (t.store.prefixScan pre orderBy pageSize pages m).1 (t.store.liveKeys m) pre ↔
      t.base.keyLayout = .literal ∧ t.FindsExactly m pre := by
  by_cases hliteral : t.base.keyLayout = .literal
  · obtain ⟨given, hgiven, hperm⟩ := SqlDbKvBackend.prefixScan_run (b := t.store) hliteral pre hcolumns hpage
      hpages fun row hrow => (hrows row hrow).2
    have hfound : ∀ row ∈ m.entries.entries,
        (SqlRows.selects t.base.sqlKvset.keyFields t.store.scopeCells (t.leafPrefixMap (some pre)) row.1 = true ↔
          SqlRows.selects t.base.sqlKvset.keyFields t.store.scopeCells Dict.empty row.1 = true ∧
            BeginsLike (t.pushed (some pre)) (leafText row.1)) :=
      fun row hrow => selects_leafPrefix (hrows row hrow).1 (some pre)
    have hinner : (m.entries.entries.filter fun e =>
        SqlRows.selects t.base.sqlKvset.keyFields t.store.scopeCells (t.leafPrefixMap (some pre)) e.1) =
        (m.entries.entries.filter fun e =>
          SqlRows.selects t.base.sqlKvset.keyFields t.store.scopeCells Dict.empty e.1).filter fun e =>
            SqlRows.selects t.base.sqlKvset.keyFields t.store.scopeCells (t.leafPrefixMap (some pre)) e.1 := by
      rw [List.filter_filter]
      refine List.filter_congr fun row hrow => ?_
      rw [Bool.eq_iff_iff, Bool.and_eq_true]
      exact ⟨fun h => ⟨h, ((hfound row hrow).mp h).1⟩, And.left⟩
    have hexact : (given.map fun row => row.key).Perm
        ((t.store.liveKeys m).filter fun k => ScanKey.startsWith k pre) ↔ t.FindsExactly m pre := by
      have hshown : (given.map fun row => row.key).Perm _ := hperm
      have hlist := @Listing.perm_filter_iff _ _ (m.entries.entries.filter fun e =>
          SqlRows.selects t.base.sqlKvset.keyFields t.store.scopeCells Dict.empty e.1)
        (t.store.shownRow m.clock) (fun e =>
          SqlRows.selects t.base.sqlKvset.keyFields t.store.scopeCells (t.leafPrefixMap (some pre)) e.1)
        (fun k => ScanKey.startsWith k pre)
      rw [← hinner] at hlist
      rw [hshown.congr_left]
      refine hlist.trans ?_
      unfold FindsExactly
      constructor
      · intro h row hrow hscope k hk
        rw [← h row (List.mem_filter.mpr ⟨hrow, hscope⟩) k hk, hfound row hrow, and_iff_right hscope]
      · intro h row hrow k hk
        obtain ⟨hmem, hscope⟩ := List.mem_filter.mp hrow
        rw [← h row hmem hscope k hk, hfound row hmem, and_iff_right hscope]
    rw [and_iff_right hliteral, ← hexact]
    unfold YieldsLive
    rw [hgiven]
    constructor
    · intro ⟨rows, hok, hall⟩
      rw [Except.ok.inj hok]
      exact hall
    · exact fun hall => ⟨given, rfl, hall⟩
  · refine iff_of_false ?_ fun h => hliteral h.1
    intro ⟨rows, hok, _⟩
    obtain ⟨e, he⟩ := SqlDbKvBackend.prefixScan_refused (b := t.store) hliteral pre orderBy pageSize pages m
    rw [he] at hok
    cases hok

/-- Beside columns for the scope, or with no scope and no name in the key, the column holds the key. -/
theorem decodeLeafKey_plain (h : t.base.sqlKvset.scopeFields ≠ [] ∨ t.keys.prefixParts = []) (key : SqlKey) :
    t.decodeLeafKey key = some (leafText key) := by
  unfold decodeLeafKey
  by_cases hscope : t.base.sqlKvset.scopeFields ≠ []
  · rw [if_pos hscope]
    exact t.deserialize_key _
  · have hparts := h.resolve_left hscope
    have hblob : t.keys.itemKeyBlob (leafText key) = leafText key := by
      rw [t.keys.itemKeyBlob_eq]
      unfold KvBackend.front
      rw [if_pos hparts, List.nil_append]
    have hsegments : t.keys.scope.segments = [] := by
      have hnone := (List.append_eq_nil_iff.mp hparts).2
      rcases hs : t.keys.scope with ⟨_ | ⟨g, gs⟩⟩
      · rfl
      · rw [hs] at hnone
        simp [KvSet.scopeParts] at hnone
    rw [if_neg hscope, ← hblob, t.keys.decodeKeyFromPhysical_item]
    unfold KvBackend.leafRead
    rw [if_pos hsegments, hblob]
    exact t.deserialize_key _

theorem pushed_plain (h : t.base.sqlKvset.scopeFields ≠ [] ∨ t.keys.prefixParts = []) (pre : List Char) :
    t.pushed (some pre) = pre := by
  unfold pushed
  by_cases hscope : t.base.sqlKvset.scopeFields = []
  · have hparts := h.resolve_left (not_not.mpr hscope)
    rw [if_pos hscope, t.keys.scanPrefixBlob_some, t.serialize_key, t.keys.itemKeyBlob_eq]
    unfold KvBackend.front
    rw [if_pos hparts, List.nil_append]
  · rw [if_neg hscope]
    exact t.serialize_key pre

theorem findsExactly_plain (h : t.base.sqlKvset.scopeFields ≠ [] ∨ t.keys.prefixParts = [])
    (m : Medium SqlKey SqlDbRow) (pre : List Char) :
    t.FindsExactly m pre ↔ ∀ k ∈ t.store.liveKeys m, BeginsLike pre k → pre <+: k := by
  have hread : ∀ row k, t.store.shownRow m.clock row = some k → leafText row.1 = k := by
    intro row k hk
    unfold SqlDbKvBackend.shownRow at hk
    split at hk
    · exact Option.some.inj ((decodeLeafKey_plain h row.1).symm.trans hk)
    · cases hk
  have hstarts : ∀ k : List Char, ScanKey.startsWith k pre = true ↔ pre <+: k := fun k => List.isPrefixOf_iff_prefix
  unfold FindsExactly SqlDbKvBackend.liveKeys
  rw [pushed_plain h]
  constructor
  · intro hall k hk hlike
    obtain ⟨row, hrow, hshown⟩ := List.mem_filterMap.mp hk
    obtain ⟨hmem, hscope⟩ := List.mem_filter.mp hrow
    rw [← hread row k hshown] at hlike
    exact (hstarts k).mp ((hall row hmem hscope k hshown).mp hlike)
  · intro hall row hmem hscope k hshown
    have hk : k ∈ t.store.liveKeys m :=
      List.mem_filterMap.mpr ⟨row, List.mem_filter.mpr ⟨hmem, hscope⟩, hshown⟩
    rw [hread row k hshown, hstarts]
    exact ⟨hall k hk, beginsLike_of_prefix⟩

/-- A scan for a prefix gives the live keys that start with it, where a row's column begins with the
    prefix in either case only if its key starts with it as it is written, and where every key that
    starts with it is written so. Where the column holds the key alone, no live key may differ from
    the prefix in the case of its letters only. -/
theorem likeScan_iff (t : TextTable V VB) {orderBy : List OrderBy}
    (hcolumns : orderBy ≠ [] → ∃ columns, t.store.resolveOrderBy orderBy = .ok columns) {pageSize : Nat}
    (hpage : 1 ≤ pageSize) {pages : Nat} {m : Medium SqlKey SqlDbRow} (hpages : m.entries.entries.length < pages)
    (hrows : t.WellFormed m) (pre : List Char) :
    (YieldsLive (t.store.prefixScan pre orderBy pageSize pages m).1 (t.store.liveKeys m) pre ↔
      t.base.keyLayout = .literal ∧ t.FindsExactly m pre) ∧
    (t.base.sqlKvset.scopeFields ≠ [] ∨ t.keys.prefixParts = [] →
      (t.FindsExactly m pre ↔ ∀ k ∈ t.store.liveKeys m, BeginsLike pre k → pre <+: k)) :=
  ⟨t.yieldsLive_iff hcolumns hpage hpages hrows pre, fun h => findsExactly_plain h m pre⟩

end TextTable

/-! ## Letters of either case -/

/-- Notes under texts, in a table of their own. -/
def textNotes : TextTable String String where
  base :=
    { sqlKvset := .keyed "notes" "v" false
      adapter := .sqlite
      expiryGc := .hide
      batchSize := 500
      ttlPolicy := ⟨none⟩
      keyLayout := .literal
      scope := Dict.empty
      leafKeyRow := fun key => .ok [.text (String.ofList key)]
      decodeLeafKey := fun _ => none
      leafPrefixMap := fun _ => Dict.empty
      decodeCursor := fun token => .ok token.toList
      serialize := fun value column => if column = "v" then some (.text value) else none
      deserialize := fun _ row => match row "v" with
        | some (.text value) => .ok value
        | _ => .error (.serDeError "no value")
      parseTimestamp := fun text => .error (.valueError text)
      reprKey := fun key => String.ofList key }
  keys := (MemoryKvBackend.plain String).toKvBackend
  field := "k"
  one_field := rfl
  same_layout := rfl
  serialize_key _ := rfl
  deserialize_key _ := rfl

/-- One note that does not expire. -/
def noteAt (key : String) : Medium SqlKey SqlDbRow := ⟨Dict.single [.text key] fun _ => none, 0⟩

theorem textNotes_wellFormed (key : String) : textNotes.WellFormed (noteAt key) := by
  intro row hrow
  obtain rfl := List.mem_singleton.mp hrow
  exact ⟨rfl, fun c _ s h => nomatch h⟩

/-- Two notes, the later key first. -/
def bothNotes : Medium SqlKey SqlDbRow := ⟨(Dict.single [.text "b"] fun _ => none).set [.text "a"] fun _ => none, 0⟩

theorem TextTable.likeScan_iff_notes :
    YieldsLive (textNotes.store.prefixScan ['a'] [] 100 3 bothNotes).1 (textNotes.store.liveKeys bothNotes) ['a'] := by
  have hrows : textNotes.WellFormed bothNotes := by
    intro row hrow
    rcases List.mem_cons.mp hrow with rfl | hrow
    · exact ⟨rfl, fun c _ s h => nomatch h⟩
    · obtain rfl := List.mem_singleton.mp hrow
      exact ⟨rfl, fun c _ s h => nomatch h⟩
  have hboth := textNotes.likeScan_iff (fun (h : [] ≠ []) => absurd rfl h) (by decide : 1 ≤ 100)
    (by decide : bothNotes.entries.entries.length < 3) hrows ['a']
  refine hboth.1.mpr ⟨rfl, (hboth.2 (.inr rfl)).mpr ?_⟩
  intro k hk hlike
  rcases List.mem_cons.mp hk with rfl | hk
  · obtain ⟨head, rest, heq, hletters⟩ := hlike
    cases hletters with
    | cons hletter hnil =>
      obtain ⟨rfl, -⟩ := List.cons.inj heq
      exact absurd hletter (by decide)
  · obtain rfl := List.mem_singleton.mp hk
    decide

/-- A scan for `a` gives `Abc`. -/
theorem TextTable.prefixScan_either_case :
    ¬ YieldsLive (textNotes.store.prefixScan ['a'] [] 100 2 (noteAt "Abc")).1
      (textNotes.store.liveKeys (noteAt "Abc")) ['a'] := by
  rw [textNotes.yieldsLive_iff (fun h => absurd rfl h) (by decide) (by decide) (textNotes_wellFormed "Abc"),
    TextTable.findsExactly_plain (.inr rfl)]
  intro ⟨_, hall⟩
  have hstarts := hall "Abc".toList (List.mem_singleton.mpr rfl) ⟨['A'], ['b', 'c'], rfl, .cons rfl .nil⟩
  exact absurd hstarts (by decide)

end Kvtsjl
