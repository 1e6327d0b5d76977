import Kvtsjl.Lib.Expiring
import Kvtsjl.Lib.Glob
import Kvtsjl.KeyMap

/-
  One SQL table: what a view of it declares, and what a client adapter does to it.
  A row stands under its primary key, the values of `keyFields` in order, and gives the value
  of every other column. The functions on `SqlRows` are the adapter's calls as its contract
  and the SQLite adapter have them. Each is one step of the table's, whatever else is going on.
-/

namespace Kvtsjl

open Assoc (Dict)
open Effects

/-! ## What a view declares -/

/-- How `expires_at` is interpreted for expiry scans. -/
inductive ExpiryBinding where
  | late
  | early
deriving DecidableEq

/-- A value column. -/
structure SqlDbField where
  name : String
  readOnly : Bool

structure SqlDbKvSet where
  tableName : String
  leafKeyFields : List String
  fields : List SqlDbField
  scopeFields : List String
  updatedAtField : String
  expiresAtField : String
  expiryBinding : ExpiryBinding
  /-- Other views write different columns of this same table. -/
  sharesTable : Bool
  /-- This view of a shared table creates and removes its rows. -/
  ownsRows : Bool
  leaf : leafKeyFields ≠ []
  owns_shares : ownsRows = true → sharesTable = true
  nodup : (scopeFields ++ leafKeyFields).Nodup

namespace SqlDbKvSet

/-- One value column under the key column `k`, without a scope. -/
def keyed (tableName valueField : String) (sharesTable : Bool) : SqlDbKvSet where
  tableName := tableName
  leafKeyFields := ["k"]
  fields := [⟨valueField, false⟩]
  scopeFields := []
  updatedAtField := "updated_at"
  expiresAtField := "expires_at"
  expiryBinding := .late
  sharesTable := sharesTable
  ownsRows := false
  leaf := by decide
  owns_shares := fun h => by cases h
  nodup := by decide

variable (sk : SqlDbKvSet)

/-- Whether `delete` removes the row, rather than only this view's columns. -/
def deletesRows : Bool := sk.ownsRows || !sk.sharesTable

/-- Scope columns, then leaf columns. -/
def keyFields : List String := sk.scopeFields ++ sk.leafKeyFields

/-- The value columns this view writes, and so owns on a shared table. -/
def ownColumns : List String :=
  (sk.fields.filter fun f => !f.readOnly && f.name ∉ sk.keyFields).map (·.name)

/-- `names`, with the key and the clock columns that are not among them. -/
def withKeyAndClock (names : List String) : List String :=
  (sk.keyFields ++ [sk.updatedAtField, sk.expiresAtField]).foldl
    (fun names col => if col ∈ names then names else names ++ [col]) names

def selectColumns : List String := sk.withKeyAndClock (sk.fields.map (·.name))

def writeColumns : List String :=
  sk.withKeyAndClock ((sk.fields.filter fun f => !f.readOnly).map (·.name))

/-- The columns a write sets: those it writes besides the key. -/
def setColumns : List String := sk.writeColumns.filter fun c => c ∉ sk.keyFields

end SqlDbKvSet

/-! ## Rows -/

/-- The values of a primary key. -/
abbrev SqlKey := List Cell

/-- The columns of a row. One that is NULL, or that was not asked for, holds nothing. -/
abbrev SqlDbRow := String → Option Cell

abbrev SqlRows := Dict SqlKey SqlDbRow

namespace Cell

/-- SQLite's order: numbers before texts. -/
def le : Cell → Cell → Bool
  | number m, number n => m ≤ n
  | number _, text _ => true
  | text _, number _ => false
  | text s, text t => s ≤ t

def toText : Cell → String
  | number n => toString n
  | text t => t

end Cell

/-! ### `LIKE` -/

/-- SQLite takes the ASCII letters of either case for one another. -/
def sameLetter (c d : Char) : Bool := c.toLower = d.toLower

/-- A pattern of `LIKE … ESCAPE '\'`. One that ends in the escape character is like nothing. -/
def likeItems : List Char → List (Glob.Item Char)
  | [] => []
  | '\\' :: c :: pattern => .one (sameLetter c) :: likeItems pattern
  | ['\\'] => [.one fun _ => false]
  | '%' :: pattern => .many :: likeItems pattern
  | '_' :: pattern => .one (fun _ => true) :: likeItems pattern
  | c :: pattern => .one (sameLetter c) :: likeItems pattern

/-- `value.replace(old, new)` for an `old` of one character. -/
def replaceChar (old : Char) (new value : List Char) : List Char :=
  value.flatMap fun c => if c = old then new else [c]

/-- `_escape_like` -/
def escapeLike (value : List Char) : List Char :=
  replaceChar '_' ['\\', '_'] (replaceChar '%' ['\\', '%'] (replaceChar '\\' ['\\', '\\'] value))

/-- The column is `LIKE` the prefix, escaped, and anything after it. -/
def Cell.isLike (pre : String) (cell : Cell) : Bool :=
  Glob.accepts (likeItems (escapeLike pre.toList ++ ['%'])) cell.toText.toList

/-! ### Arithmetic -/

/-- The value of decimal digits. -/
def digitsValue (digits : List Char) : Nat := digits.foldl (fun n c => 10 * n + (c.toNat - '0'.toNat)) 0

/-- A sign, if the text begins with one, and what follows it. -/
def signed : List Char → Bool × List Char
  | '-' :: text => (true, text)
  | '+' :: text => (false, text)
  | text => (false, text)

/-- The power of ten behind the digits of a number. -/
def exponentOf : List Char → Int
  | [] => 0
  | c :: text =>
    let (negative, digits) := signed text
    let value : Int := digitsValue (digits.takeWhile Char.isDigit)
    if c ≠ 'e' ∧ c ≠ 'E' then 0 else if negative then -value else value

/-- A power of ten. -/
def powerOfTen : Nat → Int
  | 0 => 1
  | n + 1 => 10 * powerOfTen n

/-- The number a text begins with, in millionths. SQLite counts with it, or with nought if there is none. -/
def leadingNumber (text : List Char) : Int :=
  let (negative, text) := signed (text.dropWhile fun c => c ∈ [' ', '\t', '\n', '\x0b', '\x0c', '\r'])
  let whole := text.takeWhile Char.isDigit
  let (fraction, rest) :=
    match text.dropWhile Char.isDigit with
    | '.' :: rest => (rest.takeWhile Char.isDigit, rest.dropWhile Char.isDigit)
    | rest => ([], rest)
  let scale := exponentOf rest - fraction.length + 6
  let digits := digitsValue (whole ++ fraction)
  let value : Int := if 0 ≤ scale then digits * powerOfTen scale.toNat else digits / powerOfTen (-scale).toNat
  if negative then -value else value

example : leadingNumber "2999-01-01T00:00:00".toList = 2999000000 := by decide

/-- The time a value counts as, in a sum. -/
def Cell.numeric : Cell → Instant
  | number n => n
  | text t => leadingNumber t.toList

namespace SqlRows

/-- Row-value comparison. -/
def keyLe : SqlKey → SqlKey → Bool
  | [], _ => true
  | _ :: _, [] => false
  | a :: k, b :: l => if a = b then keyLe k l else a.le b

/-- Rows in ascending order of their keys. -/
def ordered (rows : List (SqlKey × SqlDbRow)) : List (SqlKey × SqlDbRow) :=
  rows.mergeSort fun x y => keyLe x.1 y.1

/-- `_key_parts_filters`: equality on `exact`, and `LIKE` the prefix on the other fields of
    `prefixes`. -/
def selects (keyFields : List String) (exact : Dict String Cell) (prefixes : Dict String String)
    (key : SqlKey) : Bool :=
  (keyFields.zip key).all fun (f, c) =>
    match exact.get? f, prefixes.get? f with
    | some value, _ => c = value
    | none, some pre => c.isLike pre
    | none, none => true

variable (t : SqlRows)

/-- `fetch_by_keys` and `exists_by_keys`: the rows of those keys that have one. -/
def fetchByKeys (keys : List SqlKey) : List (SqlKey × SqlDbRow) :=
  keys.filterMap fun k => (t.get? k).map fun row => (k, row)

/-- `row` with the values `values` gives to `columns`. -/
def assign (columns : List String) (values row : SqlDbRow) : SqlDbRow :=
  fun c => if c ∈ columns then values c else row c

/-- The row an insert makes: the other columns are NULL. -/
def inserted (columns : List String) (values : SqlDbRow) : SqlDbRow :=
  assign columns values fun _ => none

/-- `upsert_rows` and `upsert_rows_update_first`: update the row of the key, or insert one. -/
def upsertRows (columns : List String) (rows : List (SqlKey × SqlDbRow)) : SqlRows :=
  rows.foldl (fun t (k, values) =>
    match t.get? k with
    | some row => t.set k (assign columns values row)
    | none => t.set k (inserted columns values)) t

/-- The rows of `rows` that were there to be updated, and the table after it. -/
def updateRows (columns : List String) (rows : List (SqlKey × SqlDbRow)) : List SqlKey × SqlRows :=
  rows.foldl (fun (matched, t) (k, values) =>
    match t.get? k with
    | some row => (matched ++ [k], t.set k (assign columns values row))
    | none => (matched, t)) ([], t)

/-- `delete_by_keys`: how many rows there were to delete. -/
def deleteByKeys (keys : List SqlKey) : Nat × SqlRows :=
  keys.foldl (fun (deleted, t) k =>
    match t.get? k with
    | some _ => (deleted + 1, t.erase k)
    | none => (deleted, t)) (0, t)

/-- `clear_columns`: the keys of the rows that had one of `columns` set. -/
def clearColumns (columns : List String) (keys : List SqlKey) : List SqlKey × SqlRows :=
  keys.foldl (fun (cleared, t) k =>
    match t.get? k with
    | some row =>
      if columns.any fun c => (row c).isSome then
        (cleared ++ [k], t.set k (assign columns (fun _ => none) row))
      else (cleared, t)
    | none => (cleared, t)) ([], t)

/-- `insert_each_if_absent`: each key, with whether its row was inserted. -/
def insertEachIfAbsent (columns : List String) (rows : List (SqlKey × SqlDbRow)) :
    List (SqlKey × Bool) × SqlRows :=
  rows.foldl (fun (flags, t) (k, values) =>
    match t.get? k with
    | some _ => (flags ++ [(k, false)], t)
    | none => (flags ++ [(k, true)], t.set k (inserted columns values))) ([], t)

/-- A row that still holds `expected` in every column compared, NULL equal to NULL. -/
def stillHolds (expected : Dict String (Option Cell)) (row : SqlDbRow) : Bool :=
  expected.entries.all fun e => row e.1 = e.2

/-- One conditional statement: the key, the columns compared, and the values to set. -/
structure Expected where
  key : SqlKey
  columns : Dict String (Option Cell)

/-- `replace_each_if`: each key, with whether its row was unchanged and is replaced. -/
def replaceEachIf (columns : List String) (rows : List (Expected × SqlDbRow)) :
    List (SqlKey × Bool) × SqlRows :=
  rows.foldl (fun (flags, t) (want, values) =>
    match t.get? want.key with
    | some row =>
      if stillHolds want.columns row then
        (flags ++ [(want.key, true)], t.set want.key (assign columns values row))
      else (flags ++ [(want.key, false)], t)
    | none => (flags ++ [(want.key, false)], t)) ([], t)

/-- `delete_each_if`: each key, with whether its row was unchanged and is deleted. -/
def deleteEachIf (expected : List Expected) : List (SqlKey × Bool) × SqlRows :=
  expected.foldl (fun (flags, t) want =>
    match t.get? want.key with
    | some row =>
      if stillHolds want.columns row then (flags ++ [(want.key, true)], t.erase want.key)
      else (flags ++ [(want.key, false)], t)
    | none => (flags ++ [(want.key, false)], t)) ([], t)

/-- The keys whose flag is set. -/
def flagged (flags : List (SqlKey × Bool)) : List SqlKey :=
  (flags.filter fun e => e.2).map (·.1)

/-- `scan_by_key_parts` -/
def scanByKeyParts (keyFields : List String) (exact : Dict String Cell)
    (prefixes : Dict String String) : List (SqlKey × SqlDbRow) :=
  ordered (t.entries.filter fun e => selects keyFields exact prefixes e.1)

/-- `scan_page_by_key_parts`: the first rows strictly after `afterKey`. -/
def scanPageByKeyParts (keyFields : List String) (exact : Dict String Cell)
    (prefixes : Dict String String) (afterKey : Option SqlKey) (pageSize : Nat) :
    List (SqlKey × SqlDbRow) :=
  ((t.scanByKeyParts keyFields exact prefixes).filter fun e =>
    match afterKey with
    | some k => !keyLe e.1 k
    | none => true).take pageSize

/-- The value of a column, of the key or not. -/
def valueAt (keyFields : List String) (row : SqlKey × SqlDbRow) (column : String) : Option Cell :=
  match Assoc.lookup column (keyFields.zip row.1) with
  | some c => some c
  | none => row.2 column

/-- One item of `ORDER BY`. -/
structure OrderBy where
  column : String
  descending : Bool

/-- Rows in the order of the items. NULL comes before every value. -/
def orderedLe (keyFields : List String) : List OrderBy → SqlKey × SqlDbRow → SqlKey × SqlDbRow → Bool
  | [], _, _ => true
  | item :: items, x, y =>
    let (c, d) := (valueAt keyFields x item.column, valueAt keyFields y item.column)
    if c = d then orderedLe keyFields items x y
    else
      match (if item.descending then (d, c) else (c, d)) with
      | (none, _) => true
      | (some _, none) => false
      | (some c, some d) => c.le d

/-- The instant a number stands for. A text comes after every number, and so after any time it is compared with. -/
def instant? : Option Cell → Option Instant
  | some (.number n) => some n
  | _ => none

/-- When the database takes a row to die: `COALESCE(expires_at, updated_at + ttl)`. In the sum a text counts as the
    number it begins with. -/
def deathTime (sk : SqlDbKvSet) (relativeTtl : Option Int) (row : SqlDbRow) : Option Instant :=
  match row sk.expiresAtField, relativeTtl with
  | some c, _ => instant? (some c)
  | none, some ttl => (row sk.updatedAtField).map (·.numeric + ttl)
  | none, none => none

/-- `scan_expired`: the rows past their time, the longest dead first. -/
def scanExpired (sk : SqlDbKvSet) (exact : Dict String Cell) (relativeTtl : Option Int)
    (now : Instant) (limit : Nat) : List (SqlKey × SqlDbRow) :=
  ((t.entries.filterMap fun e =>
      match deathTime sk relativeTtl e.2 with
      | some d => if selects sk.keyFields exact Dict.empty e.1 && d ≤ now then some (d, e) else none
      | none => none).mergeSort fun x y => x.1 ≤ y.1).map (·.2) |>.take limit

/-- `SqlLiveness`: what `scan_ordered` keeps. -/
structure Liveness where
  now : Instant
  ttl : Option Int
  heldColumns : List String

def live (sk : SqlDbKvSet) (l : Liveness) (row : SqlDbRow) : Bool :=
  (match row sk.expiresAtField with
    | some c => (instant? (some c)).all (l.now < ·)
    | none => (deathTime sk l.ttl row).all (l.now < ·)) &&
  (l.heldColumns.isEmpty || l.heldColumns.any fun c => (row c).isSome)

/-- `scan_ordered` -/
def scanOrdered (sk : SqlDbKvSet) (exact : Dict String Cell) (prefixes : Dict String String)
    (orderBy : List OrderBy) (limit : Option Nat) (l : Liveness) : List (SqlKey × SqlDbRow) :=
  let rows := (t.entries.filter fun e => selects sk.keyFields exact prefixes e.1 && live sk l e.2).mergeSort
    (orderedLe sk.keyFields orderBy)
  match limit with
  | some n => rows.take n
  | none => rows

/-- `has_null_expires_at` -/
def hasNullExpiresAt (sk : SqlDbKvSet) (exact : Dict String Cell) : Bool :=
  t.entries.any fun e => selects sk.keyFields exact Dict.empty e.1 && (e.2 sk.expiresAtField).isNone

end SqlRows

/-! ## What a call leaves alone -/

namespace SqlRows

/-- A loop leaves an entry as it was, or has come by it. -/
theorem foldl_untouched {γ σ : Type} {step : σ → γ → σ} (touched : σ → Prop)
    (entry : σ → Option SqlDbRow) (hmono : ∀ s x, touched s → touched (step s x))
    (hstep : ∀ s x, touched (step s x) ∨ entry (step s x) = entry s) (xs : List γ) (s : σ) :
    touched (xs.foldl step s) ∨ entry (xs.foldl step s) = entry s := by
  have hkeep : ∀ (xs : List γ) (s : σ), touched s → touched (xs.foldl step s) := by
    intro xs
    induction xs with
    | nil => exact fun _ h => h
    | cons x xs ih => exact fun s h => ih _ (hmono s x h)
  induction xs generalizing s with
  | nil => exact .inr rfl
  | cons x xs ih =>
    rcases hstep s x with h | h
    · exact .inl (hkeep xs _ h)
    · rcases ih (step s x) with h' | h'
      · exact .inl h'
      · exact .inr (h'.trans h)

theorem upsertRows_other (t : SqlRows) (columns : List String) {rows : List (SqlKey × SqlDbRow)}
    {k : SqlKey} (h : k ∉ rows.map (·.1)) : (upsertRows t columns rows).get? k = t.get? k := by
  induction rows generalizing t with
  | nil => rfl
  | cons e rows ih =>
    rw [List.map_cons, List.mem_cons, not_or] at h
    have hrest := fun t => ih t h.2
    unfold upsertRows at hrest ⊢
    rw [List.foldl_cons, hrest]
    dsimp only
    split <;> rw [Dict.get?_set, if_neg h.1]

theorem get?_deleteByKeys (t : SqlRows) (keys : List SqlKey) (k : SqlKey) :
    (deleteByKeys t keys).2.get? k = if k ∈ keys then none else t.get? k := by
  have hboth : (k ∈ keys → (deleteByKeys t keys).2.get? k = none) ∧
      (k ∉ keys → (deleteByKeys t keys).2.get? k = t.get? k) := by
    refine Dict.get?_foldl_erase (fun deleted t k => ?_) keys k (0, t)
    dsimp only
    cases hget : t.get? k with
    | none => exact .inr ⟨rfl, rfl⟩
    | some row => exact .inl rfl
  by_cases hk : k ∈ keys
  · rw [if_pos hk, hboth.1 hk]
  · rw [if_neg hk, hboth.2 hk]

theorem deleteByKeys_other (t : SqlRows) {keys : List SqlKey} {k : SqlKey} (h : k ∉ keys) :
    (deleteByKeys t keys).2.get? k = t.get? k := by
  rw [get?_deleteByKeys, if_neg h]

theorem updateRows_other (t : SqlRows) (columns : List String) (rows : List (SqlKey × SqlDbRow))
    {k : SqlKey} (h : k ∉ (updateRows t columns rows).1) :
    (updateRows t columns rows).2.get? k = t.get? k := by
  refine (foldl_untouched (fun s => k ∈ s.1) (fun s => s.2.get? k) ?_ ?_ rows
    ([], t)).resolve_left h
  · intro s x hk
    dsimp only
    split
    · exact List.mem_append_left _ hk
    · exact hk
  · intro s x
    dsimp only
    split
    · by_cases hkx : k = x.1
      · exact .inl (by simp [hkx])
      · exact .inr (by rw [Dict.get?_set, if_neg hkx])
    · exact .inr rfl

theorem clearColumns_other (t : SqlRows) (columns : List String) (keys : List SqlKey)
    {k : SqlKey} (h : k ∉ (clearColumns t columns keys).1) :
    (clearColumns t columns keys).2.get? k = t.get? k := by
  refine (foldl_untouched (fun s => k ∈ s.1) (fun s => s.2.get? k) ?_ ?_ keys
    ([], t)).resolve_left h
  · intro s x hk
    dsimp only
    split
    · split
      · exact List.mem_append_left _ hk
      · exact hk
    · exact hk
  · intro s x
    dsimp only
    split
    · split
      · by_cases hkx : k = x
        · exact .inl (by simp [hkx])
        · exact .inr (by rw [Dict.get?_set, if_neg hkx])
      · exact .inr rfl
    · exact .inr rfl

theorem mem_flagged {flags : List (SqlKey × Bool)} {k : SqlKey} :
    k ∈ flagged flags ↔ (k, true) ∈ flags := by
  unfold flagged
  simp

theorem insertEachIfAbsent_other (t : SqlRows) (columns : List String)
    (rows : List (SqlKey × SqlDbRow)) {k : SqlKey}
    (h : k ∉ flagged (insertEachIfAbsent t columns rows).1) :
    (insertEachIfAbsent t columns rows).2.get? k = t.get? k := by
  rw [mem_flagged] at h
  refine (foldl_untouched (fun s => (k, true) ∈ s.1) (fun s => s.2.get? k)
    ?_ ?_ rows ([], t)).resolve_left h
  · intro s x hk
    dsimp only
    split <;> exact List.mem_append_left _ hk
  · intro s x
    dsimp only
    split
    · exact .inr rfl
    · by_cases hkx : k = x.1
      · exact .inl (by simp [hkx])
      · exact .inr (by rw [Dict.get?_set, if_neg hkx])

theorem replaceEachIf_other (t : SqlRows) (columns : List String)
    (rows : List (Expected × SqlDbRow)) {k : SqlKey}
    (h : k ∉ flagged (replaceEachIf t columns rows).1) :
    (replaceEachIf t columns rows).2.get? k = t.get? k := by
  rw [mem_flagged] at h
  refine (foldl_untouched (fun s => (k, true) ∈ s.1) (fun s => s.2.get? k)
    ?_ ?_ rows ([], t)).resolve_left h
  · intro s x hk
    dsimp only
    split
    · split <;> exact List.mem_append_left _ hk
    · exact List.mem_append_left _ hk
  · intro s x
    dsimp only
    split
    · split
      · by_cases hkx : k = x.1.key
        · exact .inl (by simp [hkx])
        · exact .inr (by rw [Dict.get?_set, if_neg hkx])
      · exact .inr rfl
    · exact .inr rfl

theorem deleteEachIf_other (t : SqlRows) (expected : List Expected) {k : SqlKey}
    (h : k ∉ flagged (deleteEachIf t expected).1) :
    (deleteEachIf t expected).2.get? k = t.get? k := by
  rw [mem_flagged] at h
  refine (foldl_untouched (fun s => (k, true) ∈ s.1) (fun s => s.2.get? k)
    ?_ ?_ expected ([], t)).resolve_left h
  · intro s x hk
    dsimp only
    split
    · split <;> exact List.mem_append_left _ hk
    · exact List.mem_append_left _ hk
  · intro s x
    dsimp only
    split
    · split
      · by_cases hkx : k = x.key
        · exact .inl (by simp [hkx])
        · exact .inr (by rw [Dict.get?_erase, if_neg hkx])
      · exact .inr rfl
    · exact .inr rfl

/-! ## What a call answers -/

theorem get?_of_mem {t : SqlRows} {e : SqlKey × SqlDbRow} (h : e ∈ t.entries) :
    t.get? e.1 = some e.2 := Dict.mem_entries.mp h

theorem fetchByKeys_held (t : SqlRows) (keys : List SqlKey) :
    ∀ e ∈ fetchByKeys t keys, t.get? e.1 = some e.2 := by
  intro e he
  obtain ⟨k, -, hk⟩ := List.mem_filterMap.mp he
  obtain ⟨row, hrow, rfl⟩ := Option.map_eq_some_iff.mp hk
  exact hrow

theorem fetchByKeys_asked (t : SqlRows) (keys : List SqlKey) :
    ∀ e ∈ fetchByKeys t keys, e.1 ∈ keys := by
  intro e he
  obtain ⟨k, hk, hrow⟩ := List.mem_filterMap.mp he
  obtain ⟨row, -, rfl⟩ := Option.map_eq_some_iff.mp hrow
  exact hk

theorem scanByKeyParts_held (t : SqlRows) (keyFields : List String) (exact : Dict String Cell)
    (prefixes : Dict String String) :
    ∀ e ∈ scanByKeyParts t keyFields exact prefixes, t.get? e.1 = some e.2 := by
  intro e he
  exact get?_of_mem (List.mem_filter.mp (List.mem_mergeSort.mp he)).1

theorem scanPageByKeyParts_held (t : SqlRows) (keyFields : List String) (exact : Dict String Cell)
    (prefixes : Dict String String) (afterKey : Option SqlKey) (pageSize : Nat) :
    ∀ e ∈ scanPageByKeyParts t keyFields exact prefixes afterKey pageSize,
      t.get? e.1 = some e.2 := by
  intro e he
  exact scanByKeyParts_held t _ _ _ e (List.mem_filter.mp (List.mem_of_mem_take he)).1

theorem scanOrdered_held (t : SqlRows) (sk : SqlDbKvSet) (exact : Dict String Cell)
    (prefixes : Dict String String) (orderBy : List OrderBy) (limit : Option Nat) (l : Liveness) :
    ∀ e ∈ scanOrdered t sk exact prefixes orderBy limit l, t.get? e.1 = some e.2 := by
  intro e he
  have hall : e ∈ (t.entries.filter fun e => selects sk.keyFields exact prefixes e.1 &&
      live sk l e.2).mergeSort (orderedLe sk.keyFields orderBy) := by
    cases limit with
    | none => exact he
    | some n => exact List.mem_of_mem_take he
  exact get?_of_mem (List.mem_filter.mp (List.mem_mergeSort.mp hall)).1

theorem mem_scanExpired {t : SqlRows} {sk : SqlDbKvSet} {exact : Dict String Cell}
    {relativeTtl : Option Int} {now : Instant} {limit : Nat} {e : SqlKey × SqlDbRow}
    (h : e ∈ scanExpired t sk exact relativeTtl now limit) :
    e ∈ t.entries ∧ ∃ death, deathTime sk relativeTtl e.2 = some death ∧ death ≤ now := by
  obtain ⟨x, hx, rfl⟩ := List.mem_map.mp (List.mem_of_mem_take h)
  obtain ⟨e, he, hd⟩ := List.mem_filterMap.mp (List.mem_mergeSort.mp hx)
  cases hdeath : deathTime sk relativeTtl e.2 with
  | none => simp [hdeath] at hd
  | some death =>
    rw [hdeath] at hd
    dsimp only at hd
    split at hd
    · next hc =>
      cases hd
      rw [Bool.and_eq_true, decide_eq_true_eq] at hc
      exact ⟨he, death, hdeath, hc.2⟩
    · cases hd

end SqlRows

/-- What an adapter implements besides the calls it has to. -/
structure SqlDbClientAdapter where
  name : String
  supportsInsertIfAbsent : Bool
  supportsUpdateFirst : Bool
  supportsCompareAndWrite : Bool
  supportsUpdateRows : Bool
  supportsClearColumns : Bool
  supportsScanOrdering : Bool
  supportsPagedScan : Bool
  supportsExpiryScan : Bool

/-- `SqliteSqlDbClientAdapter` -/
def SqlDbClientAdapter.sqlite : SqlDbClientAdapter :=
  ⟨"SqliteSqlDbClientAdapter", true, true, true, true, true, true, true, true⟩

end Kvtsjl
