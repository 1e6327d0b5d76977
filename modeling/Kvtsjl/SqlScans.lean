import Kvtsjl.SqlStore
import Kvtsjl.Lib.Paging

/-
  Scans of a table with nobody else about.
  Keyset pages, one query over the table, and a query that the database orders: each shows the
  keys of the live rows that the database selects by the scope and the prefix, in an order of its
  own (`scan_run`).
-/

namespace Kvtsjl

open Assoc (Dict)
open Effects Prog

/-! ## The order of keys -/

namespace Cell

theorem le_total (c d : Cell) : c.le d = true ∨ d.le c = true := by
  cases c with
  | number m =>
    cases d with
    | number n => exact (Int.le_total m n).imp (fun h => decide_eq_true h) fun h => decide_eq_true h
    | text t => exact .inl rfl
  | text s =>
    cases d with
    | number n => exact .inr rfl
    | text t => exact (String.le_total s t).imp (fun h => decide_eq_true h) fun h => decide_eq_true h

theorem le_antisymm {c d : Cell} (h : c.le d = true) (h' : d.le c = true) : c = d := by
  cases c with
  | number m =>
    cases d with
    | number n => exact congrArg number (Int.le_antisymm (of_decide_eq_true h) (of_decide_eq_true h'))
    | text t => cases h'
  | text s =>
    cases d with
    | number n => cases h
    | text t => exact congrArg text (String.le_antisymm (of_decide_eq_true h) (of_decide_eq_true h'))

theorem le_trans {c d e : Cell} (h : c.le d = true) (h' : d.le e = true) : c.le e = true := by
  cases c with
  | number m =>
    cases d with
    | number n =>
      cases e with
      | number k => exact decide_eq_true (Int.le_trans (of_decide_eq_true h) (of_decide_eq_true h'))
      | text u => rfl
    | text t =>
      cases e with
      | number k => cases h'
      | text u => rfl
  | text s =>
    cases d with
    | number n => cases h
    | text t =>
      cases e with
      | number k => cases h'
      | text u => exact decide_eq_true (String.le_trans (of_decide_eq_true h) (of_decide_eq_true h'))

end Cell

namespace SqlRows

theorem keyLe_cons (c d : Cell) (k l : SqlKey) :
    keyLe (c :: k) (d :: l) = if c = d then keyLe k l else c.le d := rfl

theorem keyLe_total (k l : SqlKey) : keyLe k l = true ∨ keyLe l k = true := by
  induction k generalizing l with
  | nil => exact .inl rfl
  | cons c k ih =>
    cases l with
    | nil => exact .inr rfl
    | cons d l =>
      rw [keyLe_cons, keyLe_cons]
      by_cases hcd : c = d
      · rw [if_pos hcd, if_pos hcd.symm]
        exact ih l
      · rw [if_neg hcd, if_neg (Ne.symm hcd)]
        exact Cell.le_total c d

theorem keyLe_antisymm {k l : SqlKey} (h : keyLe k l = true) (h' : keyLe l k = true) : k = l := by
  induction k generalizing l with
  | nil =>
    cases l with
    | nil => rfl
    | cons d l => cases h'
  | cons c k ih =>
    cases l with
    | nil => cases h
    | cons d l =>
      rw [keyLe_cons] at h h'
      by_cases hcd : c = d
      · rw [if_pos hcd] at h
        rw [if_pos hcd.symm] at h'
        rw [hcd, ih h h']
      · rw [if_neg hcd] at h
        rw [if_neg (Ne.symm hcd)] at h'
        exact absurd (Cell.le_antisymm h h') hcd

theorem keyLe_trans {j k l : SqlKey} (h : keyLe j k = true) (h' : keyLe k l = true) : keyLe j l = true := by
  induction j generalizing k l with
  | nil => rfl
  | cons b j ih =>
    cases k with
    | nil => cases h
    | cons c k =>
      cases l with
      | nil => cases h'
      | cons d l =>
        rw [keyLe_cons] at h h' ⊢
        by_cases hbc : b = c
        · rw [if_pos hbc] at h
          rw [hbc]
          by_cases hcd : c = d
          · rw [if_pos hcd] at h' ⊢
            exact ih h h'
          · rw [if_neg hcd] at h' ⊢
            exact h'
        · rw [if_neg hbc] at h
          by_cases hcd : c = d
          · rw [← hcd, if_neg hbc]
            exact h
          · rw [if_neg hcd] at h'
            have hbd : b ≠ d := by
              intro hbd
              rw [← hbd] at h'
              exact hbc (Cell.le_antisymm h h')
            rw [if_neg hbd]
            exact Cell.le_trans h h'

/-- Strictly before, in the order of keys. -/
def keyLt (x y : SqlKey × SqlDbRow) : Prop := keyLe y.1 x.1 = false

instance : DecidableRel keyLt := fun x y => inferInstanceAs (Decidable (keyLe y.1 x.1 = false))

theorem keyLt_asymm (x y : SqlKey × SqlDbRow) (h : keyLt x y) : ¬ keyLt y x := by
  intro h'
  unfold keyLt at h h'
  rcases keyLe_total x.1 y.1 with hle | hle
  · rw [h'] at hle
    cases hle
  · rw [h] at hle
    cases hle

theorem keyLt_trans {x y z : SqlKey × SqlDbRow} (h : keyLt x y) (h' : keyLt y z) : keyLt x z := by
  unfold keyLt at h h' ⊢
  by_contra hle
  rw [Bool.not_eq_false] at hle
  have hxy : keyLe x.1 y.1 = true := (keyLe_total x.1 y.1).resolve_right (by rw [h]; exact Bool.false_ne_true)
  rw [keyLe_trans hle hxy] at h'
  cases h'

/-- A table in the order of its keys. -/
theorem scanByKeyParts_sorted (t : SqlRows) (keyFields : List String) (exact : Dict String Cell)
    (prefixes : Dict String String) : (t.scanByKeyParts keyFields exact prefixes).Pairwise keyLt := by
  have hkeys : t.entries.Pairwise fun x y => x.1 ≠ y.1 := List.pairwise_map.mp t.nodup
  have hnodup : (t.entries.filter fun e => selects keyFields exact prefixes e.1).Nodup :=
    (hkeys.imp fun hne heq => hne (congrArg Prod.fst heq)).filter _
  refine Paging.pairwise_mergeSort_strict
    (fun (x y z : SqlKey × SqlDbRow) => @keyLe_trans x.1 y.1 z.1) ?_ hnodup ?_
  · intro x y
    rw [Bool.or_eq_true]
    exact keyLe_total x.1 y.1
  · intro x hx y hy hxy hyx
    have hkey := keyLe_antisymm hxy hyx
    have hget := Dict.mem_entries.mp (List.mem_of_mem_filter hx)
    rw [hkey, Dict.mem_entries.mp (List.mem_of_mem_filter hy)] at hget
    exact Prod.ext hkey (Option.some.inj hget).symm

end SqlRows

namespace SqlDbKvBackend

variable {K V : Type} (b : SqlDbKvBackend K V)

/-! ## Rows shown -/

/-- The scope columns of the bound scope. -/
def scopeCells : Dict String Cell :=
  b.sqlKvset.scopeFields.foldl (fun row field =>
    match b.scope.get? field with
    | some id => row.set field (.text id)
    | none => row) Dict.empty

theorem scopeKeyRow_false : b.scopeKeyRow false = .ok b.scopeCells := by
  unfold scopeKeyRow scopeCells
  generalize (Dict.empty : Dict String Cell) = row
  induction b.sqlKvset.scopeFields generalizing row with
  | nil => rfl
  | cons field fields ih =>
    rw [List.foldlM_cons, List.foldl_cons]
    cases b.scope.get? field with
    | none => exact ih row
    | some id => exact ih _

/-- A row of this view whose time is not up. -/
def isLive (now : Instant) (row : SqlDbRow) : Bool :=
  (match b.rowExpiredAt row now with
    | .ok expired => !expired
    | .error _ => false) && b.holds row

/-- The key a row is shown as. -/
def shownRow (now : Instant) (row : SqlKey × SqlDbRow) : Option K :=
  if b.isLive now row.2 then b.decodeLeafKey row.1 else none

/-- The columns of time hold numbers, or nothing. -/
def Timed (row : SqlDbRow) : Prop :=
  ∀ c, c = b.sqlKvset.expiresAtField ∨ c = b.sqlKvset.updatedAtField → ∀ s, row c ≠ some (.text s)

variable {b}

theorem asTimestamp_ok {row : SqlDbRow} (h : b.Timed row) {c : String}
    (hc : c = b.sqlKvset.expiresAtField ∨ c = b.sqlKvset.updatedAtField) :
    b.asTimestamp (row c) = .ok (SqlRows.instant? (row c)) := by
  cases hrow : row c with
  | none => rfl
  | some cell =>
    cases cell with
    | number n => rfl
    | text s => exact absurd hrow (h c hc s)

/-- The store and the database take a row to die at the same time. -/
theorem deathTime_ok {row : SqlDbRow} (h : b.Timed row) : b.deathTime row =
    .ok (SqlRows.deathTime b.sqlKvset (b.ttlSeconds.map (· * 1000000)) row) := by
  unfold deathTime SqlRows.deathTime
  rw [asTimestamp_ok h (.inl rfl)]
  cases hexpires : row b.sqlKvset.expiresAtField with
  | none =>
    cases b.ttlSeconds with
    | none => rfl
    | some ttl =>
      show (do
        let updated ← b.asTimestamp (row b.sqlKvset.updatedAtField)
        return updated.map (· + ttl * 1000000)) = _
      rw [asTimestamp_ok h (.inr rfl)]
      cases hupdated : row b.sqlKvset.updatedAtField with
      | none => rfl
      | some cell =>
        cases cell with
        | number n => rfl
        | text s => exact absurd hupdated (h _ (.inr rfl) s)
  | some cell =>
    cases cell with
    | number n => rfl
    | text s => exact absurd hexpires (h _ (.inl rfl) s)

theorem rowExpired_run {row : SqlDbRow} (h : b.Timed row) (m : Medium SqlKey SqlDbRow) :
    ∃ expired, b.rowExpiredAt row m.clock = .ok expired ∧ (b.rowExpired row).run m = (.ok expired, m) := by
  have hat : b.rowExpiredAt row m.clock =
      .ok ((SqlRows.deathTime b.sqlKvset (b.ttlSeconds.map (· * 1000000)) row).any (· ≤ m.clock)) := by
    unfold rowExpiredAt
    rw [deathTime_ok h]
    rfl
  refine ⟨_, hat, ?_⟩
  show (ofExcept (b.rowExpiredAt row m.clock) : Prog Exn _ Bool) m = _
  rw [hat]
  rfl

/-- A turn of the generator: the row's key, if it is shown. -/
theorem drawRow_run (collect : Bool) {d : Drawn K V} (hd : d.state = .drawing) {row : SqlKey × SqlDbRow}
    (h : b.Timed row.2) (m : Medium SqlKey SqlDbRow) :
    ∃ d', (b.drawRow collect false none none d row).run m = (.ok d', m) ∧ d'.state = .drawing ∧
      d'.rows = d.rows ++ ((b.shownRow m.clock row).map fun k => (k, none)).toList := by
  obtain ⟨expired, hat, hrun⟩ := rowExpired_run h m
  have hnone : d.rows = d.rows ++ ((none : Option K).map fun k => (k, (none : Option V))).toList := by
    rw [Option.map_none, Option.toList_none, List.append_nil]
  unfold drawRow shownRow isLive
  rw [if_neg (not_not.mpr hd), Script.run_bind, bind_ok hrun, hat]
  cases expired with
  | true =>
    rw [if_pos rfl]
    refine ⟨if collect = true then { d with expired := d.expired ++ [row] } else d, rfl, ?_, ?_⟩
    · split <;> exact hd
    · show _ = d.rows ++ ((none : Option K).map fun k => (k, (none : Option V))).toList
      rw [← hnone]
      split <;> rfl
  | false =>
    rw [if_neg Bool.false_ne_true]
    cases hholds : b.holds row.2 with
    | false => exact ⟨d, rfl, hd, hnone⟩
    | true =>
      cases b.decodeLeafKey row.1 with
      | none => exact ⟨d, rfl, hd, hnone⟩
      | some key => exact ⟨_, rfl, rfl, rfl⟩

theorem drawRows_run (collect : Bool) (rows : List (SqlKey × SqlDbRow)) : ∀ {d : Drawn K V},
    d.state = .drawing → (∀ row ∈ rows, b.Timed row.2) → ∀ m : Medium SqlKey SqlDbRow,
    ∃ d', (rows.foldlM (b.drawRow collect false none none) d).run m = (.ok d', m) ∧ d'.state = .drawing ∧
      d'.rows = d.rows ++ (rows.filterMap (b.shownRow m.clock)).map fun k => (k, none) := by
  induction rows with
  | nil =>
    intro d hd _ m
    exact ⟨d, rfl, hd, by simp⟩
  | cons row rows ih =>
    intro d hd htimed m
    obtain ⟨d1, hrun, hd1, hrows⟩ := drawRow_run collect hd (htimed row List.mem_cons_self) m
    obtain ⟨d2, hrest, hd2, hmore⟩ := ih hd1 (fun r hr => htimed r (List.mem_cons_of_mem _ hr)) m
    refine ⟨d2, ?_, hd2, ?_⟩
    · rw [List.foldlM_cons, Script.run_bind, bind_ok hrun]
      exact hrest
    · rw [hmore, hrows, List.filterMap_cons, List.append_assoc]
      cases b.shownRow m.clock row <;> rfl

/-! ## The three paths -/

variable (b) in
/-- The rows a query selects, after a key. -/
def restOf (exact : Dict String Cell) (prefixes : Dict String String) (after : Option SqlKey) (t : SqlRows) :
    List (SqlKey × SqlDbRow) :=
  (t.scanByKeyParts b.sqlKvset.keyFields exact prefixes).filter fun e =>
    match after with
    | some k => !SqlRows.keyLe e.1 k
    | none => true

theorem mem_restOf {exact : Dict String Cell} {prefixes : Dict String String} {after : Option SqlKey}
    {t : SqlRows} {x : SqlKey × SqlDbRow} : x ∈ b.restOf exact prefixes after t ↔
      x ∈ t.scanByKeyParts b.sqlKvset.keyFields exact prefixes ∧
        ∀ k, after = some k → SqlRows.keyLe x.1 k = false := by
  unfold restOf
  rw [List.mem_filter]
  refine and_congr_right fun _ => ?_
  cases after with
  | none => simp
  | some k => simp

/-- All keyset pages, where there are enough of them. -/
theorem keysetRows_run (exact : Dict String Cell) (prefixes : Dict String String) {pageSize : Nat}
    (hpage : 1 ≤ pageSize) {m : Medium SqlKey SqlDbRow}
    (htimed : ∀ row ∈ SqlRows.scanByKeyParts m.entries b.sqlKvset.keyFields exact prefixes, b.Timed row.2)
    (pages : Nat) : ∀ (after : Option SqlKey) (d : Drawn K V), d.state = .drawing →
      (b.restOf exact prefixes after m.entries).length < pages →
      ∃ d', (b.keysetRows exact prefixes pageSize false none none pages after d).run m = (.ok d', m) ∧
        d'.rows = d.rows ++ ((b.restOf exact prefixes after m.entries).filterMap
          (b.shownRow m.clock)).map fun k => (k, none) := by
  induction pages with
  | zero => exact fun after d _ hlt => absurd hlt (Nat.not_lt_zero _)
  | succ pages ih =>
    intro after d hd hlt
    have hall := SqlRows.scanByKeyParts_sorted m.entries b.sqlKvset.keyFields exact prefixes
    have hsorted : (b.restOf exact prefixes after m.entries).Pairwise SqlRows.keyLt := hall.filter _
    have hin : ∀ {x}, x ∈ b.restOf exact prefixes after m.entries →
        x ∈ SqlRows.scanByKeyParts m.entries b.sqlKvset.keyFields exact prefixes ∧
          ∀ k, after = some k → SqlRows.keyLe x.1 k = false := mem_restOf.mp
    have hfetch : (Medium.fetch fun t =>
        SqlRows.scanPageByKeyParts t b.sqlKvset.keyFields exact prefixes after pageSize :
          SqlScript (List (SqlKey × SqlDbRow))).run m =
        (.ok ((b.restOf exact prefixes after m.entries).take pageSize), m) := rfl
    have hlater : ∀ last, ((b.restOf exact prefixes after m.entries).take pageSize).getLast? = some last →
        b.restOf exact prefixes (some last.1) m.entries =
          (b.restOf exact prefixes after m.entries).drop pageSize := by
      intro last hlast
      have hlastin := hin (List.mem_of_mem_take (List.mem_of_getLast? hlast))
      have hnext : (b.restOf exact prefixes (some last.1) m.entries).Pairwise SqlRows.keyLt := hall.filter _
      refine Paging.after_page SqlRows.keyLt_asymm hsorted hnext hlast fun x => ?_
      rw [mem_restOf, mem_restOf]
      constructor
      · intro ⟨hx, hafter⟩
        have hlt := hafter last.1 rfl
        refine ⟨⟨hx, fun k hk => ?_⟩, hlt⟩
        exact SqlRows.keyLt_trans (x := (k, last.2)) (hlastin.2 k hk) hlt
      · intro ⟨⟨hx, _⟩, hlt⟩
        exact ⟨hx, fun k hk => Option.some.inj hk ▸ hlt⟩
    rw [keysetRows, Script.run_bind, bind_ok hfetch]
    generalize hrest : b.restOf exact prefixes after m.entries = rest at hlt hsorted hin hlater ⊢
    cases hlast : (rest.take pageSize).getLast? with
    | none =>
      have hempty : rest = [] := by
        rw [List.getLast?_eq_none_iff, List.take_eq_nil_iff] at hlast
        rcases hlast with hzero | hnil
        · omega
        · exact hnil
      refine ⟨d, rfl, ?_⟩
      rw [hempty, List.filterMap_nil, List.map_nil, List.append_nil]
    | some last =>
      obtain ⟨d1, hrows, hd1, hshown⟩ := drawRows_run b.collects (rest.take pageSize) hd
        (fun row hrow => htimed row (hin (List.mem_of_mem_take hrow)).1) m
      dsimp only
      rw [Script.run_bind, bind_ok hrows, if_neg (not_not.mpr hd1)]
      have hadvances : after ≠ some last.1 := by
        intro hafter
        have hlt := (hin (List.mem_of_mem_take (List.mem_of_getLast? hlast))).2 last.1 hafter
        rcases SqlRows.keyLe_total last.1 last.1 with hle | hle
        · rw [hlt] at hle
          cases hle
        · rw [hlt] at hle
          cases hle
      rw [if_neg hadvances]
      by_cases hshort : (rest.take pageSize).length < pageSize
      · have hwhole : rest.take pageSize = rest := by
          rw [List.length_take] at hshort
          exact List.take_of_length_le (by omega)
        rw [if_pos hshort]
        rw [hwhole] at hshown
        exact ⟨d1, rfl, hshown⟩
      · have hfewer : (rest.drop pageSize).length < pages := by
          rw [List.length_take] at hshort
          rw [List.length_drop]
          omega
        rw [if_neg hshort]
        obtain ⟨d2, hmore, hgiven⟩ := ih (some last.1) d1 hd1 (by rw [hlater last hlast]; exact hfewer)
        refine ⟨d2, hmore, ?_⟩
        rw [hgiven, hshown, hlater last hlast, List.append_assoc, ← List.map_append, ← List.filterMap_append,
          List.take_append_drop]

/-- The database keeps the rows the store shows. -/
theorem live_iff {row : SqlDbRow} (h : b.Timed row) (now : Instant) :
    SqlRows.live b.sqlKvset ⟨now, b.ttlSeconds.map (· * 1000000), b.heldBy⟩ row = b.isLive now row := by
  have hexpired : b.rowExpiredAt row now =
      .ok ((SqlRows.deathTime b.sqlKvset (b.ttlSeconds.map (· * 1000000)) row).any (· ≤ now)) := by
    unfold rowExpiredAt
    rw [deathTime_ok h]
    rfl
  have hflip : ∀ death : Option Instant, (death.all fun t => decide (now < t)) =
      !death.any fun t => decide (t ≤ now) := by
    intro death
    cases death with
    | none => rfl
    | some t =>
      show decide (now < t) = !decide (t ≤ now)
      rw [← decide_not]
      exact decide_eq_decide.mpr Int.not_le.symm
  unfold isLive
  rw [hexpired]
  dsimp only
  rw [← hflip]
  unfold SqlRows.live holds SqlRows.deathTime
  cases row b.sqlKvset.expiresAtField <;> rfl

/-- The rows drawn by any of the paths. -/
theorem draw_run (hliteral : b.keyLayout = .literal) {spec : SqlScan K} (hkeys : spec.includeValues = false)
    (hlimit : spec.limit = none) (hcursor : spec.cursor = none) (hpage : 1 ≤ spec.pageSize)
    (hcolumns : spec.orderBy ≠ [] → ∃ columns, b.resolveOrderBy spec.orderBy = .ok columns) {pages : Nat}
    {m : Medium SqlKey SqlDbRow} (hpages : m.entries.entries.length < pages)
    (htimed : ∀ row ∈ m.entries.entries, b.Timed row.2) :
    ∃ d, (b.draw spec none pages).run m = (.ok d, m) ∧
      (d.rows.map Prod.fst).Perm ((m.entries.entries.filter fun e => SqlRows.selects b.sqlKvset.keyFields
        b.scopeCells (b.leafPrefixMap spec.keyPrefix) e.1).filterMap (b.shownRow m.clock)) := by
  have hscope : (Script.done (b.scopeKeyRow false) : SqlScript _).run m = (.ok b.scopeCells, m) := by
    rw [scopeKeyRow_false]
    rfl
  have hperm : (SqlRows.scanByKeyParts m.entries b.sqlKvset.keyFields b.scopeCells
      (b.leafPrefixMap spec.keyPrefix)).Perm (m.entries.entries.filter fun e =>
        SqlRows.selects b.sqlKvset.keyFields b.scopeCells (b.leafPrefixMap spec.keyPrefix) e.1) :=
    List.mergeSort_perm _ _
  have hheld : ∀ row ∈ SqlRows.scanByKeyParts m.entries b.sqlKvset.keyFields b.scopeCells
      (b.leafPrefixMap spec.keyPrefix), b.Timed row.2 := fun row hrow =>
    htimed row (List.mem_of_mem_filter (hperm.mem_iff.mp hrow))
  have hfst : ∀ keys : List K, (keys.map fun k => (k, (none : Option V))).map Prod.fst = keys := by
    intro keys
    rw [List.map_map]
    exact List.map_id keys
  unfold draw
  rw [if_neg (not_not.mpr hliteral)]
  by_cases horder : spec.orderBy = []
  · rw [horder, List.isEmpty_nil, if_pos rfl]
    cases b.adapter.supportsPagedScan with
    | true =>
      have hafter : (Script.done (spec.cursor.mapM fun token => do
          b.fullKeyRow (← b.decodeCursor token)) : SqlScript (Option SqlKey)).run m = (.ok none, m) := by
        rw [hcursor]
        rfl
      have hall : b.restOf b.scopeCells (b.leafPrefixMap spec.keyPrefix) none m.entries =
          SqlRows.scanByKeyParts m.entries b.sqlKvset.keyFields b.scopeCells (b.leafPrefixMap spec.keyPrefix) :=
        List.filter_eq_self.mpr fun _ _ => rfl
      have hfew : (b.restOf b.scopeCells (b.leafPrefixMap spec.keyPrefix) none m.entries).length < pages := by
        rw [hall, hperm.length_eq]
        exact Nat.lt_of_le_of_lt (List.length_filter_le _ _) hpages
      obtain ⟨d, hrun, hrows⟩ := keysetRows_run b.scopeCells (b.leafPrefixMap spec.keyPrefix) hpage hheld pages
        none (⟨[], [], .drawing⟩ : Drawn K V) rfl hfew
      refine ⟨d, ?_, ?_⟩
      · rw [if_pos rfl, Script.run_bind, bind_ok hafter, if_neg (by simp)]
        unfold iterKeysetRows
        rw [if_neg (by omega), Script.run_bind, bind_ok hscope, hkeys, hlimit]
        exact hrun
      · rw [hrows, List.nil_append, hfst, hall]
        exact hperm.filterMap _
    | false =>
      obtain ⟨d, hrun, -, hrows⟩ := drawRows_run b.collects _ (d := (⟨[], [], .drawing⟩ : Drawn K V)) rfl hheld m
      refine ⟨d, ?_, ?_⟩
      · rw [if_neg Bool.false_ne_true, if_neg (by simp)]
        unfold iterRows
        rw [Script.run_bind, bind_ok hscope, hkeys]
        exact hrun
      · rw [hrows, List.nil_append, hfst]
        exact hperm.filterMap _
  · obtain ⟨columns, hresolved⟩ := hcolumns horder
    have hresolve : (Script.done (b.resolveOrderBy spec.orderBy) : SqlScript _).run m = (.ok columns, m) := by
      rw [hresolved]
      rfl
    have hempty : spec.orderBy.isEmpty = false := by
      rw [List.isEmpty_eq_false_iff]
      exact horder
    have hordered : (SqlRows.scanOrdered m.entries b.sqlKvset b.scopeCells (b.leafPrefixMap spec.keyPrefix)
        columns none ⟨m.clock, b.ttlSeconds.map (· * 1000000), b.heldBy⟩).Perm
        (m.entries.entries.filter fun e => SqlRows.selects b.sqlKvset.keyFields b.scopeCells
          (b.leafPrefixMap spec.keyPrefix) e.1 && SqlRows.live b.sqlKvset
            ⟨m.clock, b.ttlSeconds.map (· * 1000000), b.heldBy⟩ e.2) :=
      List.mergeSort_perm _ _
    obtain ⟨d, hrun, -, hrows⟩ := drawRows_run false _ (d := (⟨[], [], .drawing⟩ : Drawn K V)) rfl
      (fun row hrow => htimed row (List.mem_of_mem_filter (hordered.mem_iff.mp hrow))) m
    refine ⟨d, ?_, ?_⟩
    · rw [hempty, if_neg Bool.false_ne_true, Script.run_bind, bind_ok hresolve, if_neg (by simp)]
      have htime : (Medium.time : SqlScript Int).run m = (.ok m.clock, m) := rfl
      unfold iterOrderedRows
      rw [Script.run_bind, bind_ok htime, Script.run_bind, bind_ok hscope, hkeys, hlimit, ite_self]
      exact hrun
    · rw [hrows, List.nil_append, hfst]
      refine (hordered.filterMap _).trans (List.Perm.of_eq ?_)
      rw [List.filterMap_filter, List.filterMap_filter]
      refine List.filterMap_congr fun row hrow => ?_
      -- a row that the database leaves out is not shown either
      rw [live_iff (htimed row hrow)]
      unfold shownRow
      cases b.isLive m.clock row.2 <;> simp

theorem scan_run (hliteral : b.keyLayout = .literal) {spec : SqlScan K} (hkeys : spec.includeValues = false)
    (hlimit : spec.limit = none) (hcursor : spec.cursor = none) (hpage : 1 ≤ spec.pageSize)
    (hcolumns : spec.orderBy ≠ [] → ∃ columns, b.resolveOrderBy spec.orderBy = .ok columns) {pages : Nat}
    {m : Medium SqlKey SqlDbRow} (hpages : m.entries.entries.length < pages)
    (htimed : ∀ row ∈ m.entries.entries, b.Timed row.2) :
    ∃ rows, ((b.scan spec none pages).run m).1 = .ok rows ∧
      (rows.map Prod.fst).Perm ((m.entries.entries.filter fun e => SqlRows.selects b.sqlKvset.keyFields
        b.scopeCells (b.leafPrefixMap spec.keyPrefix) e.1).filterMap (b.shownRow m.clock)) := by
  obtain ⟨d, hrun, hperm⟩ := draw_run hliteral hkeys hlimit hcursor hpage hcolumns hpages htimed
  refine ⟨d.rows, ?_, hperm⟩
  unfold scan
  rw [Script.run_bind, bind_ok hrun]
  unfold finishRows
  split <;> rfl

end SqlDbKvBackend

end Kvtsjl
