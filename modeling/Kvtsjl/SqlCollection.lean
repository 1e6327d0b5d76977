import Kvtsjl.EarlyBinding
import Kvtsjl.SqlExpiry
import Kvtsjl.Lib.Stable

/-
  What has expired in a table, found by the database or by the store.
  `_expired_rows` asks the database for the rows past their time where the adapter can, and else lists
  the scope and looks at each row itself. The database is told the scope columns and no more: of a scope
  that is written into the key it knows nothing, so it finds the expired rows of every other scope too
  (`expiredRows_iff`), and a collection deletes them.
-/

namespace Kvtsjl

open Assoc (Dict)
open Effects Prog

namespace SqlDbKvBackend

variable {K V : Type} (b : SqlDbKvBackend K V)

/-- The store on an adapter that has `scan_expired`, or has not. -/
def scanning (pushed : Bool) : SqlDbKvBackend K V :=
  { b with adapter := { b.adapter with supportsExpiryScan := pushed } }

/-- The guard of early binding is in the way. -/
def Refuses (checked : Bool) (m : Medium SqlKey SqlDbRow) : Prop :=
  checked = false ∧ b.sqlKvset.expiryBinding = .early ∧ b.ttlSeconds ≠ none ∧
    SqlRows.hasNullExpiresAt m.entries b.sqlKvset b.scopeCells = true

/-- The scope columns are as bound. -/
def Bound (key : SqlKey) : Prop := SqlRows.selects b.sqlKvset.keyFields b.scopeCells Dict.empty key = true

/-- The store lists the row. -/
def Listed (key : SqlKey) : Prop :=
  SqlRows.selects b.sqlKvset.keyFields b.scopeCells (b.leafPrefixMap none) key = true

def InDeathOrder (rows : List (SqlKey × SqlDbRow)) : Prop :=
  rows.Pairwise fun x y => ∀ d d', b.deathTime x.2 = .ok (some d) → b.deathTime y.2 = .ok (some d') → d ≤ d'

/-- Both ways are refused, or both find the same rows in the order in which they died, each of them
    expired and of the scope. -/
def FindsAlike (inScope : SqlKey → Prop) (checked : Bool) (now : Option Instant) (m : Medium SqlKey SqlDbRow) :
    Prop :=
  ∀ limit, ∃ r r', ((b.scanning true).expiredRows checked now limit).run m = (r, m) ∧
    ((b.scanning false).expiredRows checked now limit).run m = (r', m) ∧
    ((∃ e, r = .error e ∧ r' = .error e) ∨
      ∃ rows rows', r = .ok rows ∧ r' = .ok rows' ∧ rows.Perm rows' ∧ b.InDeathOrder rows ∧ b.InDeathOrder rows' ∧
        ∀ row ∈ rows, inScope row.1 ∧ b.rowExpiredAt row.2 (now.getD m.clock) = .ok true)

/-- The database finds the row to be past its time. -/
def Finds (now : Instant) (row : SqlKey × SqlDbRow) : Prop :=
  b.Bound row.1 ∧ ∃ d, b.foundDeath row.2 = some d ∧ d ≤ now

/-- The store lists the row, and scores it as past its time. -/
def Scores (now : Instant) (row : SqlKey × SqlDbRow) : Prop :=
  b.Listed row.1 ∧ ∃ d, b.deathTime row.2 = .ok (some d) ∧ d ≤ now

/-- The database gives the one row before the other: it died first, or they died together and it stands before the
    other in the table. -/
def FindsFirst (t : SqlRows) (x y : SqlKey × SqlDbRow) : Prop :=
  ∃ d d', b.foundDeath x.2 = some d ∧ b.foundDeath y.2 = some d' ∧ (d < d' ∨ d = d' ∧ [x, y].Sublist t.entries)

/-- The store does: it died first, or they died together and its key is the less. -/
def ScoresFirst (x y : SqlKey × SqlDbRow) : Prop :=
  ∃ d d', b.deathTime x.2 = .ok (some d) ∧ b.deathTime y.2 = .ok (some d') ∧
    (d < d' ∨ d = d' ∧ SqlRows.keyLe y.1 x.1 = false)

/-- What the database and the store have to have in common. -/
structure ScansAlike (inScope : SqlKey → Prop) (now : Instant) (t : SqlRows) : Prop where
  /-- The times of every row listed can be read. -/
  readable : ∀ row ∈ t.entries, b.Listed row.1 → ∃ death, b.deathTime row.2 = .ok death
  /-- What the database finds is of the scope, and past its time to the store. -/
  found : ∀ row ∈ t.entries, b.Finds now row → inScope row.1 ∧ b.Scores now row
  /-- What the store scores, the database finds. -/
  counted : ∀ row ∈ t.entries, b.Scores now row → b.Finds now row
  /-- They give any two rows in one order. -/
  ordered : ∀ x ∈ t.entries, ∀ y ∈ t.entries, b.Finds now x → b.Finds now y → b.FindsFirst t x y → b.ScoresFirst x y

variable {b}

theorem bound_of_listed {key : SqlKey} (h : b.Listed key) : b.Bound key := by
  unfold Listed Bound SqlRows.selects at *
  rw [List.all_eq_true] at h ⊢
  intro x hx
  have hone := h x hx
  dsimp only at hone ⊢
  cases hexact : b.scopeCells.get? x.1 with
  | none => rfl
  | some value =>
    rw [hexact] at hone
    exact hone

/-! ## Both ways -/

section Ways

/-- A row past its time to the database, with the time. -/
def foundScore (b : SqlDbKvBackend K V) (now : Instant) (e : SqlKey × SqlDbRow) :
    Option (Instant × SqlKey × SqlDbRow) :=
  match b.foundDeath e.2 with
  | some d =>
    if SqlRows.selects b.sqlKvset.keyFields b.scopeCells Dict.empty e.1 && d ≤ now then some (d, e) else none
  | none => none

/-- A row past its time to the store, with the time. -/
def score (b : SqlDbKvBackend K V) (now : Instant) (e : SqlKey × SqlDbRow) :
    Option (Instant × SqlKey × SqlDbRow) :=
  match b.deathTime e.2 with
  | .ok (some d) => if d ≤ now then some (d, e) else none
  | _ => none

theorem foundScore_eq_some {now : Instant} {e : SqlKey × SqlDbRow} {x : Instant × SqlKey × SqlDbRow} :
    b.foundScore now e = some x ↔ x.2 = e ∧ b.Bound e.1 ∧ b.foundDeath e.2 = some x.1 ∧ x.1 ≤ now := by
  unfold foundScore Bound
  cases hdeath : b.foundDeath e.2 with
  | none => exact iff_of_false (fun h => by cases h) fun h => by cases h.2.2.1
  | some d =>
    dsimp only
    constructor
    · intro h
      split at h
      · next hboth =>
        rw [Bool.and_eq_true, decide_eq_true_eq] at hboth
        rw [← Option.some.inj h]
        exact ⟨rfl, hboth.1, rfl, hboth.2⟩
      · cases h
    · rintro ⟨rfl, hbound, hd, hle⟩
      rw [Option.some.inj hd, hbound, Bool.true_and, decide_eq_true hle]
      rfl

theorem score_eq_some {now : Instant} {e : SqlKey × SqlDbRow} {x : Instant × SqlKey × SqlDbRow} :
    b.score now e = some x ↔ x.2 = e ∧ b.deathTime e.2 = .ok (some x.1) ∧ x.1 ≤ now := by
  unfold score
  rcases hdeath : b.deathTime e.2 with _ | _ | d
  · exact iff_of_false (fun h => by cases h) fun h => by cases h.2.1
  · exact iff_of_false (fun h => by cases h) fun h => by cases Except.ok.inj h.2.1
  · dsimp only
    constructor
    · intro h
      split at h
      · next hle =>
        rw [← Option.some.inj h]
        exact ⟨rfl, rfl, hle⟩
      · cases h
    · rintro ⟨rfl, hd, hle⟩
      rw [Option.some.inj (Except.ok.inj hd), if_pos hle]

/-- What the database finds, the longest dead first. -/
def foundRows (b : SqlDbKvBackend K V) (now : Instant) (t : SqlRows) : List (Instant × SqlKey × SqlDbRow) :=
  (t.entries.filterMap (b.foundScore now)).mergeSort fun x y => x.1 ≤ y.1

/-- What the store finds. -/
def scoredRows (b : SqlDbKvBackend K V) (now : Instant) (t : SqlRows) : List (Instant × SqlKey × SqlDbRow) :=
  ((SqlRows.scanByKeyParts t b.sqlKvset.keyFields b.scopeCells (b.leafPrefixMap none)).filterMap
    (b.score now)).mergeSort fun x y => x.1 ≤ y.1

theorem mem_foundRows {now : Instant} {t : SqlRows} {x : Instant × SqlKey × SqlDbRow} :
    x ∈ b.foundRows now t ↔ x.2 ∈ t.entries ∧ b.Bound x.2.1 ∧ b.foundDeath x.2.2 = some x.1 ∧ x.1 ≤ now := by
  unfold foundRows
  rw [List.mem_mergeSort, List.mem_filterMap]
  constructor
  · rintro ⟨e, he, hx⟩
    obtain ⟨rfl, hrest⟩ := foundScore_eq_some.mp hx
    exact ⟨he, hrest⟩
  · intro ⟨he, hrest⟩
    exact ⟨x.2, he, foundScore_eq_some.mpr ⟨rfl, hrest⟩⟩

theorem mem_scoredRows {now : Instant} {t : SqlRows} {x : Instant × SqlKey × SqlDbRow} :
    x ∈ b.scoredRows now t ↔ x.2 ∈ t.entries ∧ b.Listed x.2.1 ∧ b.deathTime x.2.2 = .ok (some x.1) ∧ x.1 ≤ now := by
  have hlisted : ∀ e, e ∈ SqlRows.scanByKeyParts t b.sqlKvset.keyFields b.scopeCells (b.leafPrefixMap none) ↔
      e ∈ t.entries ∧ b.Listed e.1 := by
    intro e
    unfold SqlRows.scanByKeyParts SqlRows.ordered Listed
    rw [List.mem_mergeSort, List.mem_filter]
  unfold scoredRows
  rw [List.mem_mergeSort, List.mem_filterMap]
  constructor
  · rintro ⟨e, he, hx⟩
    obtain ⟨rfl, hrest⟩ := score_eq_some.mp hx
    exact ⟨((hlisted _).mp he).1, ((hlisted _).mp he).2, hrest⟩
  · intro ⟨he, hl, hrest⟩
    exact ⟨x.2, (hlisted _).mpr ⟨he, hl⟩, score_eq_some.mpr ⟨rfl, hrest⟩⟩

theorem mem_found {now : Instant} {t : SqlRows} {row : SqlKey × SqlDbRow} :
    row ∈ (b.foundRows now t).map (·.2) ↔ row ∈ t.entries ∧ b.Finds now row := by
  rw [List.mem_map]
  constructor
  · rintro ⟨x, hx, rfl⟩
    obtain ⟨hmem, hbound, hd, hle⟩ := mem_foundRows.mp hx
    exact ⟨hmem, hbound, x.1, hd, hle⟩
  · intro ⟨hmem, hbound, d, hd, hle⟩
    exact ⟨(d, row), mem_foundRows.mpr ⟨hmem, hbound, hd, hle⟩, rfl⟩

theorem mem_scored {now : Instant} {t : SqlRows} {row : SqlKey × SqlDbRow} :
    row ∈ (b.scoredRows now t).map (·.2) ↔ row ∈ t.entries ∧ b.Scores now row := by
  rw [List.mem_map]
  constructor
  · rintro ⟨x, hx, rfl⟩
    obtain ⟨hmem, hlisted, hd, hle⟩ := mem_scoredRows.mp hx
    exact ⟨hmem, hlisted, x.1, hd, hle⟩
  · intro ⟨hmem, hlisted, d, hd, hle⟩
    exact ⟨(d, row), mem_scoredRows.mpr ⟨hmem, hlisted, hd, hle⟩, rfl⟩

theorem death_le_trans (x y z : Instant × SqlKey × SqlDbRow) (h : decide (x.1 ≤ y.1) = true)
    (h' : decide (y.1 ≤ z.1) = true) : decide (x.1 ≤ z.1) = true := by
  rw [decide_eq_true_eq] at *
  exact Int.le_trans h h'

theorem death_le_total (x y : Instant × SqlKey × SqlDbRow) :
    (decide (x.1 ≤ y.1) || decide (y.1 ≤ x.1)) = true := by
  rw [Bool.or_eq_true, decide_eq_true_eq, decide_eq_true_eq]
  exact Int.le_total x.1 y.1

theorem rowExpiredAt_of_dead {row : SqlDbRow} {d now : Instant} (h : b.deathTime row = .ok (some d)) (hle : d ≤ now) :
    b.rowExpiredAt row now = .ok true := by
  unfold rowExpiredAt
  rw [h]
  show Except.ok (decide (d ≤ now)) = _
  rw [decide_eq_true hle]

/-! ### What each comes to -/

theorem ensureEarlyBindingSafe_passes {checked : Bool} {m : Medium SqlKey SqlDbRow} (h : ¬ b.Refuses checked m)
    (pushed : Bool) : ((b.scanning pushed).ensureEarlyBindingSafe checked).run m = (.ok (), m) := by
  unfold ensureEarlyBindingSafe
  dsimp only
  split
  · rfl
  · next hguards =>
    have hpass : SqlRows.hasNullExpiresAt m.entries b.sqlKvset b.scopeCells = false := by
      by_contra hnull
      rw [Bool.not_eq_false] at hnull
      refine h ?_
      simp only [Bool.or_eq_true, decide_eq_true_eq, not_or, Bool.not_eq_true, not_not] at hguards
      refine ⟨hguards.1.1, hguards.1.2, fun hnone => ?_, hnull⟩
      have httl : (b.ttlSeconds).isNone = false := hguards.2
      rw [hnone] at httl
      cases httl
    have hscope : (b.scanning pushed).scopeKeyRow false = .ok b.scopeCells := scopeKeyRow_false (b.scanning pushed)
    have hask : (Medium.ask fun t => SqlRows.hasNullExpiresAt t b.sqlKvset b.scopeCells : SqlScript Bool).run m =
        (.ok false, m) := by
      rw [← hpass]
      rfl
    rw [hscope]
    show (do
      if ← (Medium.ask fun t => SqlRows.hasNullExpiresAt t b.sqlKvset b.scopeCells : SqlScript Bool) then
        (.done (.error (.kvStoreError "expiry_binding='early' but un-backfilled rows remain")) : SqlScript Unit)
      else pure ()).run m = _
    rw [Script.run_bind, bind_ok hask]
    rfl

theorem expiredRows_refused {checked : Bool} {m : Medium SqlKey SqlDbRow} (h : b.Refuses checked m)
    (now : Option Instant) (limit : Int) : ∃ e, ∀ pushed,
      ((b.scanning pushed).expiredRows checked now limit).run m = (.error e, m) := by
  obtain ⟨rfl, hearly, httl, hnull⟩ := h
  obtain ⟨ttl, hsome⟩ := Option.ne_none_iff_exists'.mp httl
  by_cases hlimit : limit < 1
  · refine ⟨.valueError ("limit must be >= 1, got " ++ toString limit), fun pushed => ?_⟩
    unfold expiredRows
    rw [if_pos hlimit]
    rfl
  · refine ⟨.kvStoreError "expiry_binding='early' but un-backfilled rows remain", fun pushed => ?_⟩
    unfold expiredRows
    rw [if_neg hlimit]
    dsimp only
    rw [Script.run_bind]
    exact bind_error (ensureEarlyBindingSafe_refuses (b := b.scanning pushed) hearly hsome hnull)

theorem expiredRows_pushed {checked : Bool} {m : Medium SqlKey SqlDbRow} (h : ¬ b.Refuses checked m)
    (now : Option Instant) {limit : Int} (hlimit : 1 ≤ limit) :
    ((b.scanning true).expiredRows checked now limit).run m =
      (.ok (((b.foundRows (now.getD m.clock) m.entries).map (·.2)).take limit.toNat), m) := by
  unfold expiredRows
  rw [if_neg (by omega)]
  dsimp only
  rw [Script.run_bind, bind_ok (ensureEarlyBindingSafe_passes h true), Script.run_bind, bind_ok (clockBase_run now m),
    scopeKeyRow_false]
  rfl

/-- The store's own way, once the rows are scored. -/
theorem expiredRows_plain {checked : Bool} {m : Medium SqlKey SqlDbRow} (h : ¬ b.Refuses checked m)
    (now : Option Instant) {limit : Int} (hlimit : 1 ≤ limit) :
    ((b.scanning false).expiredRows checked now limit).run m =
      ((b.scoreExpired (now.getD m.clock) (SqlRows.scanByKeyParts m.entries b.sqlKvset.keyFields b.scopeCells
        (b.leafPrefixMap none))).map (·.take limit.toNat), m) := by
  unfold expiredRows
  rw [if_neg (by omega)]
  dsimp only
  rw [Script.run_bind, bind_ok (ensureEarlyBindingSafe_passes h false), Script.run_bind, bind_ok (clockBase_run now m),
    scopeKeyRow_false]
  show (do
    let rows ← (Medium.fetch fun t => SqlRows.scanByKeyParts t b.sqlKvset.keyFields b.scopeCells (b.leafPrefixMap none) :
      SqlScript (List (SqlKey × SqlDbRow)))
    let scored ← Script.done (b.scoreExpired (now.getD m.clock) rows)
    return scored.take limit.toNat : SqlScript (List (SqlKey × SqlDbRow))).run m = _
  have hfetch : (Medium.fetch fun t => SqlRows.scanByKeyParts t b.sqlKvset.keyFields b.scopeCells
      (b.leafPrefixMap none) : SqlScript (List (SqlKey × SqlDbRow))).run m =
      (.ok (SqlRows.scanByKeyParts m.entries b.sqlKvset.keyFields b.scopeCells (b.leafPrefixMap none)), m) := rfl
  rw [Script.run_bind, bind_ok hfetch]
  cases b.scoreExpired (now.getD m.clock) (SqlRows.scanByKeyParts m.entries b.sqlKvset.keyFields b.scopeCells
    (b.leafPrefixMap none)) <;> rfl

/-- Rows whose times can be read are scored. -/
theorem scoreExpired_readable {now : Instant} {rows : List (SqlKey × SqlDbRow)}
    (h : ∀ row ∈ rows, ∃ death, b.deathTime row.2 = .ok death) :
    b.scoreExpired now rows =
      .ok (((rows.filterMap (b.score now)).mergeSort fun x y => x.1 ≤ y.1).map (·.2)) := by
  have hfold : ∀ (rows : List (SqlKey × SqlDbRow)), (∀ row ∈ rows, ∃ death, b.deathTime row.2 = .ok death) →
      ∀ scored, rows.foldlM (b.scoreRow now) scored = .ok (scored ++ rows.filterMap (b.score now)) := by
    intro rows
    induction rows with
    | nil =>
      intro _ scored
      rw [List.filterMap_nil, List.append_nil]
      rfl
    | cons row rows ih =>
      intro hread scored
      obtain ⟨death, hdeath⟩ := hread row List.mem_cons_self
      have hrow : b.scoreRow now scored row = .ok (scored ++ (b.score now row).toList) := by
        unfold scoreRow score
        rw [hdeath]
        cases death with
        | none =>
          show Except.ok scored = Except.ok (scored ++ [])
          rw [List.append_nil]
        | some d =>
          show Except.ok (if d ≤ now then scored ++ [(d, row)] else scored) = _
          by_cases hle : d ≤ now
          · rw [if_pos hle]
            dsimp only
            rw [if_pos hle]
            rfl
          · rw [if_neg hle]
            dsimp only
            rw [if_neg hle]
            show Except.ok scored = Except.ok (scored ++ [])
            rw [List.append_nil]
      rw [List.foldlM_cons, hrow]
      refine (ih (fun r hr => hread r (List.mem_cons_of_mem _ hr)) _).trans ?_
      rw [List.filterMap_cons, List.append_assoc]
      cases b.score now row <;> rfl
  unfold scoreExpired
  rw [hfold rows h []]
  rfl

theorem readable_of_scoreExpired {now : Instant} {rows found : List (SqlKey × SqlDbRow)}
    (h : b.scoreExpired now rows = .ok found) : ∀ row ∈ rows, ∃ death, b.deathTime row.2 = .ok death := by
  have hfold : ∀ (rows : List (SqlKey × SqlDbRow)) scored scored',
      rows.foldlM (b.scoreRow now) scored = .ok scored' → ∀ row ∈ rows, ∃ death, b.deathTime row.2 = .ok death := by
    intro rows
    induction rows with
    | nil => exact fun _ _ _ row hrow => absurd hrow List.not_mem_nil
    | cons row rows ih =>
      intro scored scored' hscored r hr
      rw [List.foldlM_cons] at hscored
      cases hdeath : b.deathTime row.2 with
      | error e =>
        unfold scoreRow at hscored
        rw [hdeath] at hscored
        cases hscored
      | ok death =>
        have hrow : ∃ next, b.scoreRow now scored row = .ok next := by
          unfold scoreRow
          rw [hdeath]
          cases death <;> exact ⟨_, rfl⟩
        obtain ⟨next, hrow⟩ := hrow
        rw [hrow] at hscored
        rcases List.mem_cons.mp hr with rfl | hr
        · exact ⟨death, hdeath⟩
        · exact ih next scored' hscored r hr
  unfold scoreExpired at h
  cases hscored : rows.foldlM (b.scoreRow now) [] with
  | error e =>
    rw [hscored] at h
    cases h
  | ok scored => exact hfold rows [] scored hscored

end Ways

/-! ## When they agree -/

section Agreement

variable {inScope : SqlKey → Prop}

theorem nodup_of_asymm {X : Type} {R : X → X → Prop} (hasymm : ∀ x y, R x y → ¬ R y x) {xs : List X}
    (h : xs.Pairwise R) : xs.Nodup := by
  refine h.imp fun {x y} hxy heq => ?_
  subst heq
  exact hasymm x x hxy hxy

/-- Either of two is before the other only if they died together. -/
theorem level_of_both {d d' : Int} {p q : Prop} (h : d < d' ∨ d = d' ∧ p) (h' : d' < d ∨ d' = d ∧ q) : p ∧ q := by
  rcases h with hlt | ⟨heq, hp⟩
  · rcases h' with hlt' | ⟨heq', -⟩ <;> omega
  · rcases h' with hlt' | ⟨-, hq⟩
    · omega
    · exact ⟨hp, hq⟩

theorem findsFirst_asymm {t : SqlRows} {x y : SqlKey × SqlDbRow} (h : b.FindsFirst t x y) : ¬ b.FindsFirst t y x := by
  rintro ⟨d', d, hd', hd, hback⟩
  obtain ⟨e, e', he, he', hforth⟩ := h
  obtain rfl := Option.some.inj (hd.symm.trans he)
  obtain rfl := Option.some.inj (hd'.symm.trans he')
  have hnodup : t.entries.Nodup := (List.pairwise_map.mp t.nodup).imp fun {x y} hne heq => hne (congrArg Prod.fst heq)
  obtain ⟨hxy, hyx⟩ := level_of_both hforth hback
  exact Stable.pair_sublist_asymm hnodup hxy hyx

theorem scoresFirst_asymm {x y : SqlKey × SqlDbRow} (h : b.ScoresFirst x y) : ¬ b.ScoresFirst y x := by
  rintro ⟨d', d, hd', hd, hback⟩
  obtain ⟨e, e', he, he', hforth⟩ := h
  obtain rfl := Option.some.inj (Except.ok.inj (hd.symm.trans he))
  obtain rfl := Option.some.inj (Except.ok.inj (hd'.symm.trans he'))
  obtain ⟨hyx, hxy⟩ := level_of_both hforth hback
  rcases SqlRows.keyLe_total x.1 y.1 with hle | hle
  · rw [hxy] at hle
    cases hle
  · rw [hyx] at hle
    cases hle

/-- What the database finds comes in its order. -/
theorem found_pairwise (now : Instant) (t : SqlRows) : ((b.foundRows now t).map (·.2)).Pairwise (b.FindsFirst t) := by
  have hkeys : t.entries.Pairwise fun x y => x.1 ≠ y.1 := List.pairwise_map.mp t.nodup
  have hnodup : (t.entries.filterMap (b.foundScore now)).Nodup := by
    refine List.pairwise_filterMap.mpr (hkeys.imp fun {x y} hne a ha a' ha' heq => hne ?_)
    rw [← (foundScore_eq_some.mp ha).1, ← (foundScore_eq_some.mp ha').1, heq]
  have hrows : ((t.entries.filterMap (b.foundScore now)).map (·.2)).Sublist t.entries := by
    have hid : t.entries.filterMap (fun row => (b.foundScore now row).map (·.2)) =
        t.entries.filter fun row => (b.foundScore now row).isSome := by
      rw [← List.filterMap_eq_filter]
      refine List.filterMap_congr fun row _ => ?_
      unfold Option.guard
      cases hscore : b.foundScore now row with
      | none => simp [hscore]
      | some x => simp [hscore, (foundScore_eq_some.mp hscore).1]
    rw [List.map_filterMap, hid]
    exact List.filter_sublist
  have hplaced : (t.entries.filterMap (b.foundScore now)).Pairwise fun x y =>
      decide (x.1 ≤ y.1) = true → decide (y.1 ≤ x.1) = true → [x.2, y.2].Sublist t.entries :=
    List.pairwise_iff_forall_sublist.mpr fun {x y} hpair _ _ => by
      have hmap := hpair.map (·.2)
      exact hmap.trans hrows
  refine List.pairwise_map.mpr ((Stable.pairwise_mergeSort death_le_trans death_le_total hnodup hplaced).imp_of_mem
    fun {x y} hx hy hxy => ?_)
  refine ⟨x.1, y.1, (mem_foundRows.mp hx).2.2.1, (mem_foundRows.mp hy).2.2.1, ?_⟩
  have hle := of_decide_eq_true hxy.1
  by_cases hback : y.1 ≤ x.1
  · exact .inr ⟨Int.le_antisymm hle hback, hxy.2 (decide_eq_true hback)⟩
  · exact .inl (Int.not_le.mp hback)

/-- And what the store scores in the store's. -/
theorem scored_pairwise (now : Instant) (t : SqlRows) : ((b.scoredRows now t).map (·.2)).Pairwise b.ScoresFirst := by
  have hordered : ((SqlRows.scanByKeyParts t b.sqlKvset.keyFields b.scopeCells (b.leafPrefixMap none)).filterMap
      (b.score now)).Pairwise fun x y => SqlRows.keyLt x.2 y.2 := by
    refine List.pairwise_filterMap.mpr ((SqlRows.scanByKeyParts_sorted t _ _ _).imp fun {x y} hlt a ha a' ha' => ?_)
    rw [(score_eq_some.mp ha).1, (score_eq_some.mp ha').1]
    exact hlt
  have hnodup := nodup_of_asymm (fun x y => SqlRows.keyLt_asymm x.2 y.2) hordered
  refine List.pairwise_map.mpr ((Stable.pairwise_mergeSort death_le_trans death_le_total hnodup
    (hordered.imp fun {x y} h (_ : decide (x.1 ≤ y.1) = true) (_ : decide (y.1 ≤ x.1) = true) => h)).imp_of_mem
    fun {x y} hx hy hxy => ?_)
  refine ⟨x.1, y.1, (mem_scoredRows.mp hx).2.2.1, (mem_scoredRows.mp hy).2.2.1, ?_⟩
  have hle := of_decide_eq_true hxy.1
  by_cases hback : y.1 ≤ x.1
  · exact .inr ⟨Int.le_antisymm hle hback, hxy.2 (decide_eq_true hback)⟩
  · exact .inl (Int.not_le.mp hback)

/-- The two give the same rows where each has what the other has, in the same order. -/
theorem found_eq_scored_iff {now : Instant} {t : SqlRows}
    (hsame : ∀ row ∈ t.entries, b.Finds now row ↔ b.Scores now row) :
    (b.foundRows now t).map (·.2) = (b.scoredRows now t).map (·.2) ↔
      ∀ x ∈ t.entries, ∀ y ∈ t.entries, b.Finds now x → b.Finds now y → b.FindsFirst t x y → b.ScoresFirst x y := by
  have hfound := found_pairwise (b := b) now t
  have hscored := scored_pairwise (b := b) now t
  have hnodup := nodup_of_asymm (fun x y => findsFirst_asymm) hfound
  constructor
  · intro heq x hx y hy hxf hyf hfirst
    have hne : x ≠ y := fun hxy => findsFirst_asymm hfirst (hxy ▸ hfirst)
    rcases Stable.pair_sublist hne (mem_found.mpr ⟨hx, hxf⟩) (mem_found.mpr ⟨hy, hyf⟩) with hpair | hpair
    · rw [heq] at hpair
      exact hscored.forall_sublist hpair
    · exact absurd (hfound.forall_sublist hpair) (findsFirst_asymm hfirst)
  · intro hordered
    have hperm : ((b.foundRows now t).map (·.2)).Perm ((b.scoredRows now t).map (·.2)) := by
      refine (List.perm_ext_iff_of_nodup hnodup (nodup_of_asymm (fun x y => scoresFirst_asymm) hscored)).mpr fun row => ?_
      rw [mem_found, mem_scored]
      exact and_congr_right (hsame row)
    refine hperm.eq_of_pairwise (fun x y _ _ hxy hyx => absurd hyx (scoresFirst_asymm hxy)) ?_ hscored
    refine hfound.imp_of_mem fun {x y} hx hy hxy => ?_
    exact hordered x (mem_found.mp hx).1 y (mem_found.mp hy).1 (mem_found.mp hx).2 (mem_found.mp hy).2 hxy

theorem inDeathOrder_of_pairwise {rows : List (SqlKey × SqlDbRow)} (h : rows.Pairwise b.ScoresFirst) (n : Nat) :
    b.InDeathOrder (rows.take n) := by
  refine (h.imp fun {x y} hxy d d' hd hd' => ?_).sublist (List.take_sublist n _)
  obtain ⟨e, e', he, he', hfirst⟩ := hxy
  obtain rfl := Option.some.inj (Except.ok.inj (hd.symm.trans he))
  obtain rfl := Option.some.inj (Except.ok.inj (hd'.symm.trans he'))
  exact hfirst.elim Int.le_of_lt fun heq => Int.le_of_eq heq.1

theorem findsAlike_iff (checked : Bool) (now : Option Instant) (m : Medium SqlKey SqlDbRow) :
    b.FindsAlike inScope checked now m ↔
      b.Refuses checked m ∨ b.ScansAlike inScope (now.getD m.clock) m.entries := by
  by_cases hrefuses : b.Refuses checked m
  · refine iff_of_true (fun limit => ?_) (.inl hrefuses)
    obtain ⟨e, he⟩ := expiredRows_refused hrefuses now limit
    exact ⟨_, _, he true, he false, .inl ⟨e, rfl, rfl⟩⟩
  · rw [or_iff_right hrefuses]
    constructor
    · intro halike
      -- with any limit both return, so what is listed can be read
      have hreturns : ∀ limit : Int, 1 ≤ limit → ∃ scored,
          b.scoreExpired (now.getD m.clock) (SqlRows.scanByKeyParts m.entries b.sqlKvset.keyFields b.scopeCells
            (b.leafPrefixMap none)) = .ok scored ∧
          (((b.foundRows (now.getD m.clock) m.entries).map (·.2)).take limit.toNat).Perm (scored.take limit.toNat) ∧
          ∀ row ∈ ((b.foundRows (now.getD m.clock) m.entries).map (·.2)).take limit.toNat, inScope row.1 := by
        intro limit hlimit
        obtain ⟨r, r', hpushed, hplain, hboth⟩ := halike limit
        rw [expiredRows_pushed hrefuses now hlimit] at hpushed
        rw [expiredRows_plain hrefuses now hlimit] at hplain
        have hr := (Prod.mk.inj hpushed).1
        have hr' := (Prod.mk.inj hplain).1
        rcases hboth with ⟨e, rfl, -⟩ | ⟨rows, rows', rfl, rfl, hperm, -, -, hin⟩
        · cases hr
        · cases hscored : b.scoreExpired (now.getD m.clock) (SqlRows.scanByKeyParts m.entries b.sqlKvset.keyFields
              b.scopeCells (b.leafPrefixMap none)) with
          | error e =>
            rw [hscored] at hr'
            cases hr'
          | ok scored =>
            rw [hscored] at hr'
            rw [← Except.ok.inj hr, ← Except.ok.inj hr'] at hperm
            refine ⟨scored, rfl, hperm, fun row hrow => (hin row ?_).1⟩
            rw [← Except.ok.inj hr]
            exact hrow
      obtain ⟨scored, hscored, -, -⟩ := hreturns 1 (by omega)
      have hlistedmem : ∀ row, row ∈ m.entries.entries → b.Listed row.1 →
          row ∈ SqlRows.scanByKeyParts m.entries b.sqlKvset.keyFields b.scopeCells (b.leafPrefixMap none) := by
        intro row hrow hlisted
        unfold SqlRows.scanByKeyParts SqlRows.ordered
        exact List.mem_mergeSort.mpr (List.mem_filter.mpr ⟨hrow, hlisted⟩)
      have hreadable := readable_of_scoreExpired hscored
      have hvalue : scored = (b.scoredRows (now.getD m.clock) m.entries).map (·.2) :=
        Except.ok.inj (hscored.symm.trans (scoreExpired_readable hreadable))
      have hrows : (b.foundRows (now.getD m.clock) m.entries).map (·.2) =
          (b.scoredRows (now.getD m.clock) m.entries).map (·.2) := by
        refine Stable.eq_of_take_perm fun n hn => ?_
        obtain ⟨scored', hscored', hperm, -⟩ := hreturns (n : Int) (by omega)
        rw [hscored] at hscored'
        rw [← Except.ok.inj hscored', hvalue] at hperm
        exact hperm
      have hsame : ∀ row ∈ m.entries.entries, b.Finds (now.getD m.clock) row ↔ b.Scores (now.getD m.clock) row := by
        intro row hrow
        have hboth : row ∈ (b.foundRows (now.getD m.clock) m.entries).map (·.2) ↔
            row ∈ (b.scoredRows (now.getD m.clock) m.entries).map (·.2) := by rw [hrows]
        rw [mem_found, mem_scored] at hboth
        exact (and_congr_right_iff.mp hboth) hrow
      refine ⟨fun row hrow hlisted => hreadable row (hlistedmem row hrow hlisted), fun row hrow hfinds => ?_,
        fun row hrow => (hsame row hrow).mpr, (found_eq_scored_iff hsame).mp hrows⟩
      obtain ⟨scored', -, -, hin⟩ := hreturns
        (((b.foundRows (now.getD m.clock) m.entries).map (·.2)).length + 1 : Nat) (by omega)
      refine ⟨hin row ?_, (hsame row hrow).mp hfinds⟩
      rw [Int.toNat_natCast, List.take_of_length_le (by omega)]
      exact mem_found.mpr ⟨hrow, hfinds⟩
    · intro halike limit
      by_cases hlimit : 1 ≤ limit
      · have hrows := (found_eq_scored_iff fun row hrow => ⟨fun h => (halike.found row hrow h).2,
          halike.counted row hrow⟩).mpr halike.ordered
        have hreadable : ∀ row ∈ SqlRows.scanByKeyParts m.entries b.sqlKvset.keyFields b.scopeCells
            (b.leafPrefixMap none), ∃ death, b.deathTime row.2 = .ok death := by
          intro row hrow
          unfold SqlRows.scanByKeyParts SqlRows.ordered at hrow
          obtain ⟨hmem, hlisted⟩ := List.mem_filter.mp (List.mem_mergeSort.mp hrow)
          exact halike.readable row hmem hlisted
        have hpushed := expiredRows_pushed (b := b) hrefuses now hlimit
        have hplain := expiredRows_plain (b := b) hrefuses now hlimit
        rw [scoreExpired_readable hreadable] at hplain
        rw [hrows] at hpushed
        refine ⟨_, _, hpushed, hplain, .inr ⟨_, _, rfl, rfl, List.Perm.refl _,
          inDeathOrder_of_pairwise (scored_pairwise _ _) _, inDeathOrder_of_pairwise (scored_pairwise _ _) _, ?_⟩⟩
        intro row hrow
        obtain ⟨hmem, hscores⟩ := mem_scored.mp (List.mem_of_mem_take hrow)
        have hin := (halike.found row hmem (halike.counted row hmem hscores)).1
        obtain ⟨-, d, hdeath, hle⟩ := hscores
        exact ⟨hin, rowExpiredAt_of_dead hdeath hle⟩
      · have hbelow : ∀ pushed, ((b.scanning pushed).expiredRows checked now limit).run m =
            (.error (.valueError ("limit must be >= 1, got " ++ toString limit)), m) := by
          intro pushed
          unfold expiredRows
          rw [if_pos (by omega)]
          rfl
        exact ⟨_, _, hbelow true, hbelow false, .inl ⟨_, rfl, rfl⟩⟩

end Agreement

/-! ## What a collection deletes -/

section Collection

variable {inScope : SqlKey → Prop}

/-- No collection touches a row that is not of the scope. -/
def CollectsOnly (b : SqlDbKvBackend K V) (inScope : SqlKey → Prop) (checked : Bool) (m : Medium SqlKey SqlDbRow) :
    Prop :=
  ∀ maxEntries key, ¬ inScope key →
    ((b.gcExpiredKeys checked maxEntries).run m).2.entries.get? key = m.entries.get? key

theorem gcExpiredKeys_error {checked : Bool} {maxEntries : Int} {m : Medium SqlKey SqlDbRow} {e : Exn}
    (h : (b.expiredRows checked none maxEntries).run m = (.error e, m)) :
    ((b.gcExpiredKeys checked maxEntries).run m).2 = m := by
  unfold gcExpiredKeys
  rw [Script.run_bind, bind_error h]

theorem gcExpiredKeys_rows {checked : Bool} {maxEntries : Int} {m : Medium SqlKey SqlDbRow}
    {rows : List (SqlKey × SqlDbRow)} (h : (b.expiredRows checked none maxEntries).run m = (.ok rows, m)) :
    ((b.gcExpiredKeys checked maxEntries).run m).2.entries = (SqlRows.deleteByKeys m.entries (rows.map (·.1))).2 := by
  unfold gcExpiredKeys
  rw [Script.run_bind, bind_ok h]
  cases rows with
  | nil => rfl
  | cons row rows => rfl

/-- A store that finds some rows, as many as it is asked for, deletes those. -/
theorem collectsOnly_of_rows {checked : Bool} {m : Medium SqlKey SqlDbRow} (rows : List (SqlKey × SqlDbRow))
    (hheld : ∀ row ∈ rows, row ∈ m.entries.entries) (hrows : ∀ limit : Int, 1 ≤ limit →
      (b.expiredRows checked none limit).run m = (.ok (rows.take limit.toNat), m)) :
    b.CollectsOnly inScope checked m ↔ ∀ row ∈ rows, inScope row.1 := by
  constructor
  · intro h row hrow
    by_contra hout
    have hall := hrows (rows.length + 1 : Nat) (by omega)
    rw [Int.toNat_natCast, List.take_of_length_le (by omega)] at hall
    have hsame := h (rows.length + 1 : Nat) row.1 hout
    rw [gcExpiredKeys_rows hall, SqlRows.get?_deleteByKeys, if_pos (List.mem_map_of_mem hrow)] at hsame
    rw [SqlRows.get?_of_mem (hheld row hrow)] at hsame
    cases hsame
  · intro h maxEntries key hout
    by_cases hmax : 1 ≤ maxEntries
    · rw [gcExpiredKeys_rows (hrows maxEntries hmax), SqlRows.deleteByKeys_other]
      intro hkey
      obtain ⟨row, hrow, rfl⟩ := List.mem_map.mp hkey
      exact hout (h row (List.mem_of_mem_take hrow))
    · have hbelow : (b.expiredRows checked none maxEntries).run m =
          (.error (.valueError ("limit must be >= 1, got " ++ toString maxEntries)), m) := by
        unfold expiredRows
        rw [if_pos (by omega)]
        rfl
      rw [gcExpiredKeys_error hbelow]

theorem collectsOnly_refused {checked : Bool} {m : Medium SqlKey SqlDbRow} (h : b.Refuses checked m)
    (pushed : Bool) : (b.scanning pushed).CollectsOnly inScope checked m := by
  intro maxEntries key _
  obtain ⟨e, he⟩ := expiredRows_refused h none maxEntries
  rw [gcExpiredKeys_error (he pushed)]

theorem collectsOnly_pushed (checked : Bool) (m : Medium SqlKey SqlDbRow) :
    (b.scanning true).CollectsOnly inScope checked m ↔ b.Refuses checked m ∨ ∀ row ∈ m.entries.entries,
      b.Bound row.1 → ∀ d, b.foundDeath row.2 = some d → d ≤ m.clock → inScope row.1 := by
  by_cases hrefuses : b.Refuses checked m
  · exact iff_of_true (collectsOnly_refused hrefuses true) (.inl hrefuses)
  · rw [or_iff_right hrefuses, collectsOnly_of_rows ((b.foundRows m.clock m.entries).map (·.2))]
    · constructor
      · intro h row hrow hbound d hd hle
        exact h row (List.mem_map.mpr ⟨(d, row), mem_foundRows.mpr ⟨hrow, hbound, hd, hle⟩, rfl⟩)
      · intro h row hrow
        obtain ⟨x, hx, rfl⟩ := List.mem_map.mp hrow
        obtain ⟨hmem, hbound, hd, hle⟩ := mem_foundRows.mp hx
        exact h x.2 hmem hbound x.1 hd hle
    · intro row hrow
      obtain ⟨x, hx, rfl⟩ := List.mem_map.mp hrow
      exact (mem_foundRows.mp hx).1
    · exact fun limit hlimit => expiredRows_pushed hrefuses none hlimit

theorem collectsOnly_plain (checked : Bool) (m : Medium SqlKey SqlDbRow) :
    (b.scanning false).CollectsOnly inScope checked m ↔ b.Refuses checked m ∨
      (∃ row ∈ m.entries.entries, b.Listed row.1 ∧ ∀ death, b.deathTime row.2 ≠ .ok death) ∨
      ∀ row ∈ m.entries.entries, b.Listed row.1 → ∀ d, b.deathTime row.2 = .ok (some d) → d ≤ m.clock →
        inScope row.1 := by
  have hlisted : ∀ row, row ∈ SqlRows.scanByKeyParts m.entries b.sqlKvset.keyFields b.scopeCells
      (b.leafPrefixMap none) ↔ row ∈ m.entries.entries ∧ b.Listed row.1 := by
    intro row
    unfold SqlRows.scanByKeyParts SqlRows.ordered Listed
    rw [List.mem_mergeSort, List.mem_filter]
  by_cases hrefuses : b.Refuses checked m
  · exact iff_of_true (collectsOnly_refused hrefuses false) (.inl hrefuses)
  · rw [or_iff_right hrefuses]
    cases hscored : b.scoreExpired m.clock (SqlRows.scanByKeyParts m.entries b.sqlKvset.keyFields b.scopeCells
        (b.leafPrefixMap none)) with
    | error e =>
      refine iff_of_true ?_ (.inl ?_)
      · intro maxEntries key _
        by_cases hmax : 1 ≤ maxEntries
        · have hplain := expiredRows_plain (b := b) hrefuses none hmax
          have hraises : b.scoreExpired ((none : Option Instant).getD m.clock) (SqlRows.scanByKeyParts m.entries
              b.sqlKvset.keyFields b.scopeCells (b.leafPrefixMap none)) = .error e := hscored
          rw [hraises] at hplain
          rw [gcExpiredKeys_error hplain]
        · have hbelow : ((b.scanning false).expiredRows checked none maxEntries).run m =
              (.error (.valueError ("limit must be >= 1, got " ++ toString maxEntries)), m) := by
            unfold expiredRows
            rw [if_pos (by omega)]
            rfl
          rw [gcExpiredKeys_error hbelow]
      · by_contra hnone
        have hreadable : ∀ row ∈ SqlRows.scanByKeyParts m.entries b.sqlKvset.keyFields b.scopeCells
            (b.leafPrefixMap none), ∃ death, b.deathTime row.2 = .ok death := by
          intro row hrow
          obtain ⟨hmem, hin⟩ := (hlisted row).mp hrow
          by_contra hdeath
          exact hnone ⟨row, hmem, hin, fun death hd => hdeath ⟨death, hd⟩⟩
        rw [scoreExpired_readable hreadable] at hscored
        cases hscored
    | ok scored =>
      have hreadable := readable_of_scoreExpired hscored
      have hnone : ¬ ∃ row ∈ m.entries.entries, b.Listed row.1 ∧ ∀ death, b.deathTime row.2 ≠ .ok death := by
        rintro ⟨row, hrow, hin, hdeath⟩
        obtain ⟨death, hd⟩ := hreadable row ((hlisted row).mpr ⟨hrow, hin⟩)
        exact hdeath death hd
      rw [or_iff_right hnone, collectsOnly_of_rows ((b.scoredRows m.clock m.entries).map (·.2))]
      · constructor
        · intro h row hrow hin d hd hle
          exact h row (List.mem_map.mpr ⟨(d, row), mem_scoredRows.mpr ⟨hrow, hin, hd, hle⟩, rfl⟩)
        · intro h row hrow
          obtain ⟨x, hx, rfl⟩ := List.mem_map.mp hrow
          obtain ⟨hmem, hin, hd, hle⟩ := mem_scoredRows.mp hx
          exact h x.2 hmem hin x.1 hd hle
      · intro row hrow
        obtain ⟨x, hx, rfl⟩ := List.mem_map.mp hrow
        exact (mem_scoredRows.mp hx).1
      · intro limit hlimit
        have hplain := expiredRows_plain (b := b) hrefuses none hlimit
        have hgives : b.scoreExpired ((none : Option Instant).getD m.clock) (SqlRows.scanByKeyParts m.entries
            b.sqlKvset.keyFields b.scopeCells (b.leafPrefixMap none)) = _ := scoreExpired_readable hreadable
        rw [hgives] at hplain
        exact hplain

end Collection

/-- The database and the store find the same expired rows of the scope, whatever the limit, exactly where
    the guard is in the way, or: the times of the scope can be read; every expired row with the scope
    columns as bound is of the scope, and is expired to both; and rows that died at one time stand in the
    order of their keys. A collection touches no row of another scope exactly where what is found is of
    the scope, as it always is where the scope columns say what the scope is. -/
theorem expiredRows_iff (inScope : SqlKey → Prop) (checked : Bool) (m : Medium SqlKey SqlDbRow) :
    (∀ now, b.FindsAlike inScope checked now m ↔
      b.Refuses checked m ∨ b.ScansAlike inScope (now.getD m.clock) m.entries) ∧
    ((b.scanning true).CollectsOnly inScope checked m ↔ b.Refuses checked m ∨ ∀ row ∈ m.entries.entries,
      b.Bound row.1 → ∀ d, b.foundDeath row.2 = some d → d ≤ m.clock → inScope row.1) ∧
    ((b.scanning false).CollectsOnly inScope checked m ↔ b.Refuses checked m ∨
      (∃ row ∈ m.entries.entries, b.Listed row.1 ∧ ∀ death, b.deathTime row.2 ≠ .ok death) ∨
      ∀ row ∈ m.entries.entries, b.Listed row.1 → ∀ d, b.deathTime row.2 = .ok (some d) → d ≤ m.clock →
        inScope row.1) ∧
    ((∀ key, b.Bound key → inScope key) → ∀ pushed, (b.scanning pushed).CollectsOnly inScope checked m) := by
  refine ⟨fun now => findsAlike_iff checked now m, collectsOnly_pushed checked m, collectsOnly_plain checked m,
    fun hcolumns pushed => ?_⟩
  cases pushed with
  | true => exact (collectsOnly_pushed checked m).mpr (.inr fun row _ hbound _ _ _ => hcolumns row.1 hbound)
  | false =>
    refine (collectsOnly_plain checked m).mpr (.inr (.inr fun row _ hlisted _ _ _ => ?_))
    exact hcolumns row.1 (bound_of_listed hlisted)

/-- A note that has died. -/
def deadNote (key : String) : Medium SqlKey SqlDbRow :=
  ⟨Dict.single [.text key] fun c => if c = "expires_at" then some (.number 5) else none, 7⟩

/-- That note, and one that has not. -/
def deadAndLive : Medium SqlKey SqlDbRow :=
  ⟨(deadNote "k").entries.set [.text "l"] fun c => if c = "expires_at" then some (.number 9) else none, 7⟩

theorem expiredRows_iff_deadAndLive :
    textNotes.base.FindsAlike textNotes.base.Listed false none deadAndLive ∧
      (textNotes.base.scanning true).CollectsOnly (· = [.text "k"]) false deadAndLive := by
  have hrows : ∀ row ∈ deadAndLive.entries.entries, textNotes.base.Listed row.1 ∧
      ((row.1 = [.text "k"] ∧ textNotes.base.deathTime row.2 = .ok (some 5) ∧
          textNotes.base.foundDeath row.2 = some 5) ∨
        (textNotes.base.deathTime row.2 = .ok (some 9) ∧ textNotes.base.foundDeath row.2 = some 9)) := by
    intro row hrow
    have hboth : deadAndLive.entries.entries = (deadNote "k").entries.entries ++
        [([.text "l"], fun c => if c = "expires_at" then some (.number 9) else none)] := rfl
    rw [hboth] at hrow
    rcases List.mem_append.mp hrow with hrow | hrow
    · rw [List.mem_singleton.mp hrow]
      exact ⟨rfl, .inl ⟨rfl, rfl, rfl⟩⟩
    · rw [List.mem_singleton.mp hrow]
      exact ⟨rfl, .inr ⟨rfl, rfl⟩⟩
  -- what either finds is the first note
  have hfound : ∀ row ∈ deadAndLive.entries.entries, textNotes.base.Finds 7 row → row.1 = [.text "k"] ∧
      textNotes.base.deathTime row.2 = .ok (some 5) := by
    rintro row hrow ⟨-, d, hd, hle⟩
    rcases (hrows row hrow).2 with ⟨hkey, hdeath, -⟩ | ⟨-, hnine⟩
    · exact ⟨hkey, hdeath⟩
    · rw [hnine] at hd
      exact absurd (Option.some.inj hd ▸ hle) (by decide)
  obtain ⟨halike, -⟩ := expiredRows_iff (b := textNotes.base) textNotes.base.Listed false deadAndLive
  obtain ⟨-, hpushed, -⟩ := expiredRows_iff (b := textNotes.base) (· = [.text "k"]) false deadAndLive
  constructor
  · refine (halike none).mpr (.inr ⟨?_, ?_, ?_, ?_⟩)
    · intro row hrow _
      rcases (hrows row hrow).2 with ⟨-, hdeath, -⟩ | ⟨hdeath, -⟩
      · exact ⟨_, hdeath⟩
      · exact ⟨_, hdeath⟩
    · intro row hrow hfinds
      exact ⟨(hrows row hrow).1, (hrows row hrow).1, 5, (hfound row hrow hfinds).2, by decide⟩
    · rintro row hrow ⟨hlisted, d, hd, hle⟩
      rcases (hrows row hrow).2 with ⟨-, -, hfive⟩ | ⟨hdeath, -⟩
      · exact ⟨bound_of_listed hlisted, 5, hfive, by decide⟩
      · rw [hdeath] at hd
        exact absurd (Option.some.inj (Except.ok.inj hd) ▸ hle) (by decide)
    · intro x hx y hy hfx hfy hfirst
      have hsame : x = y := by
        have hkeys := (hfound x hx hfx).1.trans (hfound y hy hfy).1.symm
        exact List.inj_on_of_nodup_map deadAndLive.entries.nodup hx hy hkeys
      exact absurd (hsame ▸ hfirst) (findsFirst_asymm hfirst)
  · exact hpushed.mpr (.inr fun row hrow hbound d hd hle => (hfound row hrow ⟨hbound, d, hd, hle⟩).1)

/-- Notes of one user, under keys that hold the user. -/
def notesOfAl : TextTable String String :=
  { textNotes with
    keys := MemoryKvBackend.ofAl.toKvBackend
    same_layout := rfl
    serialize_key := fun _ => rfl
    deserialize_key := fun _ => rfl }

/-- A key of that user. -/
def OfAl (key : SqlKey) : Prop := ∃ leaf, key = [.text (String.ofList ("user:al:".toList ++ leaf))]

/-- The view of one user finds what another user's has expired, and deletes it. -/
theorem expiredRows_strays :
    ¬ notesOfAl.store.FindsAlike OfAl false none (deadNote "user:bob:k") ∧
      ¬ (notesOfAl.store.scanning true).CollectsOnly OfAl false (deadNote "user:bob:k") := by
  have hother : ¬ OfAl [.text "user:bob:k"] := by
    rintro ⟨leaf, hkey⟩
    have hboth : "user:bob:k".toList = (String.ofList ("user:al:".toList ++ leaf)).toList :=
      congrArg String.toList (Cell.text.inj (List.cons.inj hkey).1)
    have htext : "user:bob:k".toList = "user:al:".toList ++ leaf := hboth.trans String.toList_ofList
    have hsixth : some 'b' = some 'a' := congrArg (fun text : List Char => text[5]?) htext
    exact absurd hsixth (by decide)
  have hrefuses : ¬ notesOfAl.store.Refuses false (deadNote "user:bob:k") := fun h => by cases h.2.1
  have hmem : ([.text "user:bob:k"], fun c => if c = "expires_at" then some (.number 5) else none) ∈
      (deadNote "user:bob:k").entries.entries := List.mem_singleton.mpr rfl
  constructor
  · rw [findsAlike_iff]
    rintro (h | h)
    · exact hrefuses h
    · exact hother (h.found _ hmem ⟨rfl, 5, rfl, by decide⟩).1
  · rw [collectsOnly_pushed]
    rintro (h | h)
    · exact hrefuses h
    · exact hother (h _ hmem rfl 5 rfl (by decide))

end SqlDbKvBackend

end Kvtsjl
